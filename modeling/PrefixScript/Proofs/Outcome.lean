/-!
# Outcomes of activities

Parsing, assembling and running are activities that change a state and end with a result or with a
failure. `Ends` states what holds at either end, and is computed along the activity. A `Law` relates
the state before an activity to the state after it; what each step obeys, the whole activity obeys.
-/
namespace PrefixScript

section Ends
variable {ε σ α β : Type}

/-- From a state, an activity ends with a result and a state as in `ok`, or with a failure and a
state as in `bad`. -/
def Ends (activity : EStateM ε σ α) (s : σ) (ok : α → σ → Prop) (bad : ε → σ → Prop) : Prop :=
  match activity s with
  | .ok result after => ok result after
  | .error failure after => bad failure after

variable {activity : EStateM ε σ α} {s : σ} {ok ok' : α → σ → Prop} {bad bad' : ε → σ → Prop}

@[simp] theorem ends_pure (a : α) : Ends (pure a) s ok bad ↔ ok a s := Iff.rfl

@[simp] theorem ends_throw (e : ε) : Ends (throw e : EStateM ε σ α) s ok bad ↔ bad e s := Iff.rfl

@[simp] theorem ends_get {ok : σ → σ → Prop} :
    Ends (get : EStateM ε σ σ) s ok bad ↔ ok s s := Iff.rfl

@[simp] theorem ends_set {ok : PUnit → σ → Prop} (t : σ) :
    Ends (set t : EStateM ε σ PUnit) s ok bad ↔ ok () t := Iff.rfl

@[simp] theorem ends_modify {ok : PUnit → σ → Prop} (f : σ → σ) :
    Ends (modify f : EStateM ε σ PUnit) s ok bad ↔ ok () (f s) := Iff.rfl

@[simp] theorem ends_bind (activity : EStateM ε σ α) (next : α → EStateM ε σ β)
    {ok : β → σ → Prop} :
    Ends (activity >>= next) s ok bad ↔
      Ends activity s (fun a t => Ends (next a) t ok bad) bad := by
  simp only [Ends, bind, EStateM.bind]
  cases activity s <;> rfl

theorem Ends.mono (h : Ends activity s ok bad) (hok : ∀ a t, ok a t → ok' a t)
    (hbad : ∀ e t, bad e t → bad' e t) : Ends activity s ok' bad' := by
  unfold Ends at *
  split at h
  · exact hok _ _ h
  · exact hbad _ _ h

/-- Two things that hold at the ends hold together. -/
theorem Ends.and (h : Ends activity s ok bad) (h' : Ends activity s ok' bad') :
    Ends activity s (fun a t => ok a t ∧ ok' a t) fun e t => bad e t ∧ bad' e t := by
  unfold Ends at *
  split
  · rename_i he
    rw [he] at h h'
    exact ⟨h, h'⟩
  · rename_i he
    rw [he] at h h'
    exact ⟨h, h'⟩

/-- An activity comes to some end. -/
theorem Ends.of_const {p : Prop} (h : Ends activity s (fun _ _ => p) fun _ _ => p) : p := by
  unfold Ends at h
  split at h <;> exact h

theorem Ends.of_ok (h : Ends activity s ok bad) {a : α} {t : σ} (he : activity s = .ok a t) :
    ok a t := by
  simpa only [Ends, he] using h

theorem Ends.of_error (h : Ends activity s ok bad) {e : ε} {t : σ}
    (he : activity s = .error e t) : bad e t := by
  simpa only [Ends, he] using h

/-- An activity that does not fail has a result. -/
theorem Ends.exists_ok_and (h : Ends activity s ok fun _ _ => False) :
    ∃ a t, activity s = .ok a t ∧ ok a t := by
  unfold Ends at h
  split at h
  · exact ⟨_, _, ‹_›, h⟩
  · exact h.elim

theorem Ends.exists_ok (h : Ends activity s (fun _ _ => True) (fun _ _ => False)) :
    ∃ a t, activity s = .ok a t := by
  obtain ⟨a, t, hrun, -⟩ := h.exists_ok_and
  exact ⟨a, t, hrun⟩

/-- What happens first does not matter where the next activity ends well from everywhere. -/
theorem ends_bind_of_forall {next : α → EStateM ε σ β} {ok : β → σ → Prop}
    (hnext : ∀ a t, Ends (next a) t ok bad) (hbad : ∀ e t, bad e t) :
    Ends (activity >>= next) s ok bad := by
  rw [ends_bind]
  cases h : activity s with
  | ok a t => simpa only [Ends, h] using hnext a t
  | error e t => simpa only [Ends, h] using hbad e t

theorem bind_of_ok {next : α → EStateM ε σ β} {a : α} {t : σ} (h : activity s = .ok a t) :
    (activity >>= next) s = next a t := by
  simp only [bind, EStateM.bind, h]

theorem ends_bind_of_ok {next : α → EStateM ε σ β} {ok : β → σ → Prop} {a : α} {t : σ}
    (h : activity s = .ok a t) :
    Ends (activity >>= next) s ok bad ↔ Ends (next a) t ok bad := by
  simp only [Ends, bind_of_ok h]

theorem bind_of_error {next : α → EStateM ε σ β} {e : ε} {t : σ} (h : activity s = .error e t) :
    (activity >>= next) s = .error e t := by
  simp only [bind, EStateM.bind, h]

end Ends

/-- What activities may do to a state: from the state before to the state after a success, and to
the state after a failure. Successes can be strung together, with a failure at the end. -/
structure Law (ε σ : Type) where
  kept : σ → σ → Prop
  failed : ε → σ → σ → Prop
  refl : ∀ s, kept s s
  trans : ∀ {s t u}, kept s t → kept t u → kept s u
  failed_of_kept : ∀ {e s t u}, kept s t → failed e t u → failed e s u

namespace Law
variable {ε σ α β : Type} {law : Law ε σ}

/-- From every state the activity ends as the law says. -/
def Obeyed (law : Law ε σ) (activity : EStateM ε σ α) : Prop :=
  ∀ s, Ends activity s (fun _ t => law.kept s t) (fun e t => law.failed e s t)

theorem Obeyed.pure (a : α) : law.Obeyed (pure a : EStateM ε σ α) := fun s => law.refl s

/-- The one argument for everything that runs in sequence. -/
theorem Obeyed.bind {activity : EStateM ε σ α} {next : α → EStateM ε σ β}
    (ha : law.Obeyed activity) (hn : ∀ a, law.Obeyed (next a)) :
    law.Obeyed (activity >>= next) := by
  intro s
  rw [ends_bind]
  refine (ha s).mono (fun a t ht => ?_) (fun e t ht => ht)
  exact (hn a t).mono (fun b u hu => law.trans ht hu) (fun e u hu => law.failed_of_kept ht hu)

theorem Obeyed.ite {p : Prop} [Decidable p] {first second : EStateM ε σ α}
    (hf : law.Obeyed first) (hs : law.Obeyed second) :
    law.Obeyed (if p then first else second) := by
  split
  · exact hf
  · exact hs

/-- An activity that never fails and leads along the law obeys it. -/
theorem Obeyed.modify {f : σ → σ} (hf : ∀ s, law.kept s (f s)) :
    law.Obeyed (modify f : EStateM ε σ PUnit) := fun s => hf s

/-- An activity that always fails obeys what the law says of that failure. -/
theorem Obeyed.throw {e : ε} (he : ∀ s, law.failed e s s) :
    law.Obeyed (throw e : EStateM ε σ α) := fun s => he s

end Law

end PrefixScript
