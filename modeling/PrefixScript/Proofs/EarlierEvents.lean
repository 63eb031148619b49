import PrefixScript.Proofs.Congruence
import PrefixScript.Proofs.Simulation

/-!
# What was done before

A machine notes what it does, and never looks at its notes. From two machines that differ at most in
what was done before, an activity ends alike, and does the same things on top. So what was done
before stays done.
-/
namespace PrefixScript

namespace World

/-- A world in which some other things were done before. -/
def onto (world : World) (past : List Event) : World := { world with log := world.log ++ past }

variable (world : World) (past : List Event)

@[simp] theorem record_onto (event : Event) :
    (world.onto past).record event = (world.record event).onto past := rfl

@[simp] theorem draw_onto :
    (world.onto past).draw = (world.draw.1, world.draw.2.onto past) := rfl

@[simp] theorem readLine_onto :
    (world.onto past).readLine = (world.readLine.1, world.readLine.2.onto past) := by
  obtain ⟨files, input, draws, drawn, log, working⟩ := world
  cases input with
  | nil => rfl
  | cons c rest => rfl

/-- Later things are written behind earlier ones. -/
theorem output_prefix {earlier later : World} (h : earlier.log <:+ later.log) :
    earlier.output <+: later.output := by
  obtain ⟨own, hlog⟩ := h
  rw [output, output, ← hlog, List.reverse_append, List.flatMap_append]
  exact List.prefix_append _ _

theorem delays_prefix {earlier later : World} (h : earlier.log <:+ later.log) :
    earlier.delays <+: later.delays := by
  obtain ⟨own, hlog⟩ := h
  rw [delays, delays, ← hlog, List.reverse_append, List.filterMap_append]
  exact List.prefix_append _ _

end World

namespace Machine
variable {α β : Type}

def onto (machine : Machine) (past : List Event) : Machine :=
  { machine with world := machine.world.onto past }

/-- An activity does on top of anything what it does by itself. -/
def Heedless (activity : RunM α) : Prop :=
  ∀ past, Simulates (fun s t => t = s.onto past) (fun _ s t => t = s.onto past) activity activity

namespace Heedless

theorem pure (a : α) : Heedless (Pure.pure a) := fun _ => .pure a

theorem throw (failure : Failure) : Heedless (throw failure : RunM α) :=
  fun _ => .throw fun _ _ h => h

theorem bind {activity : RunM α} {next : α → RunM β} (h : Heedless activity)
    (hn : ∀ a, Heedless (next a)) : Heedless (activity >>= next) :=
  fun past => .bind (h past) fun a => hn a past

theorem modify {f : Machine → Machine} (h : ∀ s past, f (s.onto past) = (f s).onto past) :
    Heedless (modify f) := by
  refine fun past => .modify fun s t hst => ?_
  rw [hst, h]

/-- An activity that looks at the machine may look at all but its log. -/
theorem get_bind {next : Machine → RunM α}
    (h : ∀ s past, next (s.onto past) = next s ∧ Heedless (next s)) :
    Heedless (get >>= next) := by
  refine fun past => .get_bind fun s t hst => ?_
  rw [hst, (h s past).1]
  exact (h s past).2 past s _ rfl

end Heedless

theorem Primitive.heedless {activity : RunM α} (h : Primitive activity) : Heedless activity := by
  cases h with
  | pure a => exact .pure a
  | fail fault => exact .throw _
  | tooDeep => exact .throw _
  | unfinished => exact .throw _
  | lookup name site =>
    refine .get_bind fun s past => ⟨rfl, ?_⟩
    cases s.frames.find? name with
    | some value => exact .pure value
    | none => exact .throw _
  | callee name given site =>
    refine .get_bind fun s past => ⟨rfl, ?_⟩
    cases s.functions.find? name with
    | none => exact .throw _
    | some declaration =>
      show Heedless (if _ then _ else _)
      split
      · exact .pure declaration
      · exact .throw _
  | bind name value => exact .modify fun _ _ => rfl
  | push frame => exact .modify fun _ _ => rfl
  | pop => exact .modify fun _ _ => rfl
  | register name params body => exact .modify fun _ _ => rfl
  | write text => exact .modify fun _ _ => rfl
  | pause delay => exact .modify fun _ _ => rfl
  | readLine =>
    intro past
    refine .get_bind fun s t hst => ?_
    subst hst
    simp only [onto, World.readLine_onto]
    have hset : EndAlike (fun s t => t = s.onto past) (fun (_ : Failure) s t => t = s.onto past)
        (set { s with world := s.world.readLine.2 })
        (set { s with world := s.world.readLine.2.onto past }) s (s.onto past) := ⟨_, rfl, rfl⟩
    refine hset.bind ?_
    rintro _ s' t' - - h
    cases s.world.readLine.1 with
    | some text => exact ⟨t', rfl, h⟩
    | none => exact ⟨t', rfl, h⟩
  | draw =>
    rintro past s t rfl
    exact ⟨_, rfl, rfl⟩

/-- Activities that are put together from heedless ones are heedless. -/
def heedless : Congruence where
  rel _ activity := Heedless activity
  own h := h.heedless
  bind h hn := h.bind hn

/-- From two machines the same was done, to the same effect. -/
def Alongside (s t s' t' : Machine) : Prop :=
  ∃ own, s'.world.log = own ++ s.world.log ∧
    t' = { s' with world := { s'.world with log := own ++ t.world.log } }

/-- From machines that differ at most in what was done before, the same is done on top. -/
theorem Heedless.alongside {activity : RunM α} (h : Heedless activity) {s t : Machine}
    (hst : t = { s with world := { s.world with log := t.world.log } }) :
    EndAlike (Alongside s t) (fun _ => Alongside s t) activity activity s t := by
  have hs := h s.world.log { s with world := { s.world with log := [] } } s rfl
  have ht := h t.world.log { s with world := { s.world with log := [] } } t hst
  unfold EndAlike Ends at hs ht ⊢
  -- What is done by itself decides what is done from either machine.
  cases he : activity { s with world := { s.world with log := [] } } with
  | ok a alone =>
    simp only [he] at hs ht
    obtain ⟨s', hs, rfl⟩ := hs
    obtain ⟨t', ht, rfl⟩ := ht
    simp only [hs]
    exact ⟨_, ht, alone.world.log, rfl, rfl⟩
  | error failure alone =>
    simp only [he] at hs ht
    obtain ⟨s', hs, rfl⟩ := hs
    obtain ⟨t', ht, rfl⟩ := ht
    simp only [hs]
    exact ⟨_, ht, alone.world.log, rfl, rfl⟩

/-- What was done before stays done. -/
theorem Heedless.log_suffix {activity : RunM α} (h : Heedless activity) (s : Machine) :
    Ends activity s (fun _ t => s.world.log <:+ t.world.log)
      fun _ t => s.world.log <:+ t.world.log := by
  refine Ends.mono (h.alongside (t := s) rfl) ?_ ?_
  · rintro a after ⟨_, -, own, hlog, -⟩
    exact ⟨own, hlog.symm⟩
  · rintro failure after ⟨_, -, own, hlog, -⟩
    exact ⟨own, hlog.symm⟩

end Machine

theorem Evaluation.run_heedless (rounds depth : Nat) (program : List Node) :
    Machine.Heedless (run rounds depth program) :=
  Congruence.run (Machine.heedless.covers_same rounds) depth program

end PrefixScript
