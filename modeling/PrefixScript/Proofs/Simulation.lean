import PrefixScript.Evaluation
import PrefixScript.Proofs.Outcome

/-!
# Simulation

Two activities, perhaps on different kinds of states, are compared from states that are related.
They have to end alike: with the same result, or with the same failure. The states after a result
are related again, and a relation of its own holds of the states after a failure.

The loops of evaluation are also given here for any kind of state. Where the steps of two loops
simulate each other, so do the loops.
-/
namespace PrefixScript

section Simulates
variable {ε σ τ α β : Type}

/-- From two states both activities end with the same result in states as in `rel`, or with the same
failure in states as in `failed`. -/
def EndAlike (rel : σ → τ → Prop) (failed : ε → σ → τ → Prop) (first : EStateM ε σ α)
    (second : EStateM ε τ α) (s : σ) (t : τ) : Prop :=
  Ends first s (fun a s' => ∃ t', second t = .ok a t' ∧ rel s' t')
    (fun e s' => ∃ t', second t = .error e t' ∧ failed e s' t')

theorem EndAlike.mono {rel rel' : σ → τ → Prop} {failed failed' : ε → σ → τ → Prop}
    {first : EStateM ε σ α} {second : EStateM ε τ α} {s : σ} {t : τ}
    (h : EndAlike rel failed first second s t) (hr : ∀ s t, rel s t → rel' s t)
    (hf : ∀ e s t, failed e s t → failed' e s t) : EndAlike rel' failed' first second s t := by
  refine Ends.mono h ?_ ?_
  · rintro a s' ⟨t', ht, h'⟩
    exact ⟨t', ht, hr s' t' h'⟩
  · rintro e s' ⟨t', ht, h'⟩
    exact ⟨t', ht, hf e s' t' h'⟩

/-- The second activity ends in the way of the first one. -/
theorem endAlike_iff {rel : σ → τ → Prop} {failed : ε → σ → τ → Prop} {first : EStateM ε σ α}
    {second : EStateM ε τ α} {s : σ} {t : τ} :
    EndAlike rel failed first second s t ↔
      Ends first s
        (fun a s' => Ends second t (fun b t' => b = a ∧ rel s' t') fun _ _ => False)
        fun e s' => Ends second t (fun _ _ => False) fun e' t' => e' = e ∧ failed e s' t' := by
  unfold EndAlike Ends
  cases first s with
  | ok a s' => cases second t <;> simp [and_assoc]
  | error e s' => cases second t <;> simp [and_assoc]

/-- What follows is compared from the states in which the first activities ended. -/
theorem EndAlike.bind {rel middle : σ → τ → Prop} {failed : ε → σ → τ → Prop}
    {first : EStateM ε σ α} {second : EStateM ε τ α} {next : α → EStateM ε σ β}
    {other : α → EStateM ε τ β} {s : σ} {t : τ} (h : EndAlike middle failed first second s t)
    (hn : ∀ a s' t', first s = .ok a s' → second t = .ok a t' → middle s' t' →
      EndAlike rel failed (next a) (other a) s' t') :
    EndAlike rel failed (first >>= next) (second >>= other) s t := by
  unfold EndAlike at h ⊢
  rw [ends_bind]
  unfold Ends at h ⊢
  cases he : first s with
  | ok a s' =>
    simp only [he] at h ⊢
    obtain ⟨t', ht, h'⟩ := h
    rw [bind_of_ok ht]
    exact hn a s' t' he ht h'
  | error e s' =>
    simp only [he] at h ⊢
    obtain ⟨t', ht, h'⟩ := h
    exact ⟨t', bind_of_error ht, h'⟩

/-- From all related states both activities end alike. -/
def Simulates (rel : σ → τ → Prop) (failed : ε → σ → τ → Prop) (first : EStateM ε σ α)
    (second : EStateM ε τ α) : Prop :=
  ∀ s t, rel s t → EndAlike rel failed first second s t

namespace Simulates
variable {rel : σ → τ → Prop} {failed : ε → σ → τ → Prop}

theorem pure (a : α) :
    Simulates rel failed (pure a : EStateM ε σ α) (pure a : EStateM ε τ α) :=
  fun _ t h => ⟨t, rfl, h⟩

theorem throw {e : ε} (he : ∀ s t, rel s t → failed e s t) :
    Simulates rel failed (throw e : EStateM ε σ α) (throw e : EStateM ε τ α) :=
  fun s t h => ⟨t, rfl, he s t h⟩

theorem modify {f : σ → σ} {g : τ → τ} (h : ∀ s t, rel s t → rel (f s) (g t)) :
    Simulates rel failed (modify f : EStateM ε σ PUnit) (modify g : EStateM ε τ PUnit) :=
  fun s t hr => ⟨g t, rfl, h s t hr⟩

/-- Activities that look at their states first are compared from there. -/
theorem get_bind {next : σ → EStateM ε σ α} {other : τ → EStateM ε τ α}
    (h : ∀ s t, rel s t → EndAlike rel failed (next s) (other t) s t) :
    Simulates rel failed (get >>= next) (get >>= other) := h

/-- Activities that run in sequence are compared one after the other. What is known of every result
of the first one can be used for the second one. -/
theorem bind_of {P : α → Prop} {first : EStateM ε σ α} {second : EStateM ε τ α}
    {next : α → EStateM ε σ β} {other : α → EStateM ε τ β}
    (ha : Simulates rel failed first second)
    (hp : ∀ s t, rel s t → Ends first s (fun a _ => P a) (fun _ _ => True))
    (hn : ∀ a, P a → Simulates rel failed (next a) (other a)) :
    Simulates rel failed (first >>= next) (second >>= other) := by
  intro s t h
  exact (ha s t h).bind fun a s' t' he _ hr => hn a ((hp s t h).of_ok he) s' t' hr

theorem bind {first : EStateM ε σ α} {second : EStateM ε τ α} {next : α → EStateM ε σ β}
    {other : α → EStateM ε τ β} (ha : Simulates rel failed first second)
    (hn : ∀ a, Simulates rel failed (next a) (other a)) :
    Simulates rel failed (first >>= next) (second >>= other) := by
  refine .bind_of (P := fun _ => True) ha (fun s t h => ?_) fun a _ => hn a
  exact Ends.mono (ha s t h) (fun _ _ _ => trivial) (fun _ _ _ => trivial)

theorem ite {p : Prop} [Decidable p] {first first' : EStateM ε σ α}
    {second second' : EStateM ε τ α} (h : Simulates rel failed first second)
    (h' : Simulates rel failed first' second') :
    Simulates rel failed (if p then first else first') (if p then second else second') := by
  by_cases hp : p
  · simpa only [if_pos hp] using h
  · simpa only [if_neg hp] using h'

end Simulates

end Simulates

namespace Loop
variable {σ τ : Type}

/-- The values of some nodes in order, after those found before (last first). -/
def values (eval : Node → EStateM Failure σ Value) :
    List Node → (before : List Value) → EStateM Failure σ (List Value)
  | [], before => return before.reverse
  | node :: rest, before => do
    let value ← eval node
    values eval rest (value :: before)

/-- Statements in order, up to the first return. -/
def sequence (exec : Node → EStateM Failure σ Completion) :
    List Node → EStateM Failure σ Completion
  | [] => return .normal
  | node :: rest => do
    match ← exec node with
    | .returning value => return .returning value
    | .normal => sequence exec rest

/-- A body as long as a condition is true and there is no return. -/
def whileRounds (cond : EStateM Failure σ Value) (body : EStateM Failure σ Completion) :
    (rounds : Nat) → EStateM Failure σ Completion
  | 0 => throw .unfinished
  | rounds + 1 => do
    let value ← cond
    if value.isTrue then
      match ← body with
      | .returning value => return .returning value
      | .normal => whileRounds cond body rounds
    else return .normal

/-- A body with a counter that is set in each round. -/
def forRounds (assign : Float → EStateM Failure σ Unit) (last : Float)
    (body : EStateM Failure σ Completion) :
    (rounds : Nat) → (current : Float) → EStateM Failure σ Completion
  | 0, _ => throw .unfinished
  | rounds + 1, current =>
    if current ≤ last then do
      assign current
      match ← body with
      | .returning value => return .returning value
      | .normal => forRounds assign last body rounds (current + 1)
    else return .normal

/-- Statements in order, whether they return or not. -/
def topLevel (exec : Node → EStateM Failure σ Completion) : List Node → EStateM Failure σ Unit
  | [] => return ()
  | node :: rest => do
    let _ ← exec node
    topLevel exec rest

/-! On the states of a machine these are the loops of evaluation. -/

theorem values_machine (eval : Node → RunM Value) (nodes : List Node) (before : List Value) :
    Evaluation.values eval nodes before = values eval nodes before := by
  induction nodes generalizing before with
  | nil => rfl
  | cons node rest ih => simp only [Evaluation.values, values, ih]

theorem sequence_machine (exec : Node → RunM Completion) (body : List Node) :
    Evaluation.sequence exec body = sequence exec body := by
  induction body with
  | nil => rfl
  | cons node rest ih =>
    refine bind_congr fun completion => ?_
    cases completion with
    | normal => exact ih
    | returning value => rfl

theorem whileRounds_machine (cond : RunM Value) (body : RunM Completion) (rounds : Nat) :
    Evaluation.whileRounds cond body rounds = whileRounds cond body rounds := by
  induction rounds with
  | zero => rfl
  | succ rounds ih =>
    refine bind_congr fun value => ite_congr rfl (fun _ => ?_) fun _ => rfl
    refine bind_congr fun completion => ?_
    cases completion with
    | normal => exact ih
    | returning value => rfl

theorem forRounds_machine (counter : String) (last : Float) (body : RunM Completion)
    (rounds : Nat) (current : Float) :
    Evaluation.forRounds counter last body rounds current =
      forRounds (fun x => Machine.bind counter (.number x)) last body rounds current := by
  induction rounds generalizing current with
  | zero => rfl
  | succ rounds ih =>
    refine ite_congr rfl (fun _ => bind_congr fun _ => ?_) fun _ => rfl
    refine bind_congr fun completion => ?_
    cases completion with
    | normal => exact ih (current + 1)
    | returning value => rfl

theorem topLevel_machine (exec : Node → RunM Completion) (program : List Node) :
    Evaluation.topLevel exec program = topLevel exec program := by
  induction program with
  | nil => rfl
  | cons node rest ih => simp only [Evaluation.topLevel, topLevel, ih]

variable {rel : σ → τ → Prop} {failed : Failure → σ → τ → Prop}

theorem values_simulates {eval : Node → EStateM Failure σ Value}
    {other : Node → EStateM Failure τ Value} (nodes : List Node) (before : List Value)
    (h : ∀ node ∈ nodes, Simulates rel failed (eval node) (other node)) :
    Simulates rel failed (values eval nodes before) (values other nodes before) := by
  induction nodes generalizing before with
  | nil => exact .pure _
  | cons node rest ih =>
    exact .bind (h node List.mem_cons_self) fun value =>
      ih (value :: before) fun next hn => h next (List.mem_cons_of_mem _ hn)

theorem sequence_simulates {exec : Node → EStateM Failure σ Completion}
    {other : Node → EStateM Failure τ Completion} (body : List Node)
    (h : ∀ node ∈ body, Simulates rel failed (exec node) (other node)) :
    Simulates rel failed (sequence exec body) (sequence other body) := by
  induction body with
  | nil => exact .pure _
  | cons node rest ih =>
    refine .bind (h node List.mem_cons_self) fun completion => ?_
    cases completion with
    | normal => exact ih fun next hn => h next (List.mem_cons_of_mem _ hn)
    | returning value => exact .pure _

theorem whileRounds_simulates {cond : EStateM Failure σ Value}
    {body : EStateM Failure σ Completion} {cond' : EStateM Failure τ Value}
    {body' : EStateM Failure τ Completion} (rounds : Nat)
    (hu : ∀ s t, rel s t → failed .unfinished s t) (hc : Simulates rel failed cond cond')
    (hb : Simulates rel failed body body') :
    Simulates rel failed (whileRounds cond body rounds) (whileRounds cond' body' rounds) := by
  induction rounds with
  | zero => exact .throw hu
  | succ rounds ih =>
    refine .bind hc fun value => .ite (.bind hb fun completion => ?_) (.pure _)
    cases completion with
    | normal => exact ih
    | returning value => exact .pure _

theorem forRounds_simulates {assign : Float → EStateM Failure σ Unit} {last : Float}
    {body : EStateM Failure σ Completion} {assign' : Float → EStateM Failure τ Unit}
    {body' : EStateM Failure τ Completion} (rounds : Nat) (current : Float)
    (hu : ∀ s t, rel s t → failed .unfinished s t)
    (ha : ∀ x, Simulates rel failed (assign x) (assign' x))
    (hb : Simulates rel failed body body') :
    Simulates rel failed (forRounds assign last body rounds current)
      (forRounds assign' last body' rounds current) := by
  induction rounds generalizing current with
  | zero => exact .throw hu
  | succ rounds ih =>
    refine .ite (.bind (ha current) fun _ => .bind hb fun completion => ?_) (.pure _)
    cases completion with
    | normal => exact ih (current + 1)
    | returning value => exact .pure _

theorem topLevel_simulates {exec : Node → EStateM Failure σ Completion}
    {other : Node → EStateM Failure τ Completion} (program : List Node)
    (h : ∀ node ∈ program, Simulates rel failed (exec node) (other node)) :
    Simulates rel failed (topLevel exec program) (topLevel other program) := by
  induction program with
  | nil => exact .pure _
  | cons node rest ih =>
    exact .bind (h node List.mem_cons_self) fun _ =>
      ih fun next hn => h next (List.mem_cons_of_mem _ hn)

end Loop

end PrefixScript
