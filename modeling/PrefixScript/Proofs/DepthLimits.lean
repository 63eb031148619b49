import PrefixScript.Proofs.EarlierEvents

/-!
# Limits of the depth

A run that may nest evaluations more deeply does the same as long as the smaller depth suffices.
Where it does not suffice, the run with the smaller depth fails and says so, and what it did until
then is what the other one does first. Running out of depth is not taken for anything else.

Loops may take any number of rounds: a run ends if it ends for some number of rounds, and it does
not matter for which.
-/
namespace PrefixScript

namespace Machine
variable {spent : Failure → Prop} {α β : Type}

/-- The second activity ends as the first one does, unless the first one fails because a budget is
spent. Then the second one has at least done what the first one did. -/
def Approximates (spent : Failure → Prop) (first second : RunM α) : Prop :=
  ∀ s, Ends first s (fun a t => second s = .ok a t) fun failure t =>
    second s = .error failure t ∨ spent failure ∧
      Ends second s (fun _ u => t.world.log <:+ u.world.log) fun _ u => t.world.log <:+ u.world.log

namespace Approximates

theorem refl (activity : RunM α) : Approximates spent activity activity := by
  intro s
  unfold Ends
  cases he : activity s with
  | ok a t => exact rfl
  | error failure t => exact .inl rfl

/-- Where the first activity has spent its budget, whatever is done instead is done on top. -/
theorem of_spent {failure : Failure} (hs : spent failure) {second : RunM α} (h : Heedless second) :
    Approximates spent (throw failure) second :=
  fun s => .inr ⟨hs, h.log_suffix s⟩

theorem bind {first second : RunM α} {next other : α → RunM β} (h : Approximates spent first second)
    (hn : ∀ a, Approximates spent (next a) (other a)) (ho : ∀ a, Heedless (other a)) :
    Approximates spent (first >>= next) (second >>= other) := by
  intro s
  have hfirst := h s
  rw [ends_bind]
  cases he : first s with
  | ok a t =>
    have hsecond := hfirst.of_ok he
    simp only [Ends, he, bind_of_ok hsecond]
    exact hn a t
  | error failure t =>
    simp only [Ends, he]
    rcases hfirst.of_error he with hsecond | ⟨hs, hsecond⟩
    · exact .inl (bind_of_error hsecond)
    · refine .inr ⟨hs, ?_⟩
      show Ends (second >>= other) s _ _
      rw [ends_bind]
      refine Ends.mono hsecond (fun a u hu => ?_) fun _ _ hu => hu
      exact ((ho a).log_suffix u).mono (fun _ _ hv => hu.trans hv) fun _ _ hv => hu.trans hv

end Approximates

/-- Approximation by activities that do everything on top of what was done before. -/
def approximation (spent : Failure → Prop) : Congruence where
  rel first second := Approximates spent first second ∧ Heedless second
  own h := ⟨.refl _, h.heedless⟩
  bind h hn := ⟨h.1.bind (fun a => (hn a).1) fun a => (hn a).2, h.2.bind fun a => (hn a).2⟩

/-- The rounds of loops may always be spent, and the depth if it is not the same. -/
theorem approximation_covers (hu : spent .unfinished) {extra : Nat}
    (ht : extra ≠ 0 → spent .tooDeep) (rounds more : Nat) :
    (approximation spent).Covers rounds more extra := by
  have hall := Congruence.relatedAt (heedless.covers_same (rounds + more)) extra
  refine ⟨fun node => ?_, fun node => ?_, ?_, ?_⟩
  · cases extra with
    | zero =>
      rw [Evaluation.eval]
      exact (approximation spent).own .tooDeep
    | succ extra => exact ⟨.of_spent (ht (Nat.succ_ne_zero extra)) (hall.1 node), hall.1 node⟩
  · cases extra with
    | zero =>
      rw [Evaluation.exec]
      exact (approximation spent).own .tooDeep
    | succ extra => exact ⟨.of_spent (ht (Nat.succ_ne_zero extra)) (hall.2 node), hall.2 node⟩
  · intro _ cond _ body hc hb
    have hloop : heedless.rel (Evaluation.whileRounds cond body more)
        (Evaluation.whileRounds cond body (more + 0)) :=
      heedless.whileRounds more (heedless.own .unfinished) hc.2 hb.2
    exact ⟨.of_spent hu hloop, hloop⟩
  · intro counter last _ body hb current
    have hz (current : Float) : heedless.rel (throw .unfinished)
        (Evaluation.forRounds counter last body 0 current) := heedless.own .unfinished
    have hloop : heedless.rel (Evaluation.forRounds counter last body more current)
        (Evaluation.forRounds counter last body (more + 0) current) :=
      heedless.forRounds counter last more hz hb.2 current
    exact ⟨.of_spent hu hloop, hloop⟩

end Machine

namespace Evaluation
open Machine (Approximates)

/-- The outcome of a run that ends so: with a failure, or without one. -/
def outcome : Option Failure → Machine → EStateM.Result Failure Machine Unit
  | none, after => .ok () after
  | some failure, after => .error failure after

/-- A run ends in a machine, with a failure or without one, once loops may take enough rounds. -/
def Halts (depth : Nat) (program : List Node) (before : Machine) (failure : Option Failure)
    (after : Machine) : Prop :=
  failure ≠ some .unfinished ∧ ∃ rounds, run rounds depth program before = outcome failure after

section Outcomes
variable {spent : Failure → Prop} {first second : RunM Unit} {before after after' : Machine}
  {failure failure' : Option Failure}

theorem outcome_of_approximates (h : Approximates spent first second)
    (hf : first before = outcome failure after) (hn : ∀ cause ∈ failure, ¬ spent cause) :
    second before = outcome failure after := by
  have hends := h before
  cases failure with
  | none => exact hends.of_ok hf
  | some cause => exact (hends.of_error hf).resolve_right fun hs => hn cause rfl hs.1

theorem log_suffix_of_approximates (h : Approximates spent first second)
    (hf : first before = outcome failure after) (hs : second before = outcome failure' after') :
    after.world.log <:+ after'.world.log := by
  have hsame (he : second before = outcome failure after) :
      after.world.log <:+ after'.world.log := by
    rw [he] at hs
    cases failure <;> cases failure' <;> cases hs <;> exact List.suffix_refl _
  have hends := h before
  cases failure with
  | none => exact hsame (hends.of_ok hf)
  | some cause =>
    rcases hends.of_error hf with he | ⟨-, hlog⟩
    · exact hsame he
    · cases failure' with
      | none => exact hlog.of_ok hs
      | some other => exact hlog.of_error hs

end Outcomes

section Budgets
variable {depth more : Nat} {program : List Node} {before after after' : Machine}
  {failure failure' : Option Failure}

theorem run_approximates {spent : Failure → Prop} (hu : spent .unfinished) {rounds rounds' : Nat}
    (hr : rounds ≤ rounds') (hd : depth ≤ more) (ht : depth < more → spent .tooDeep)
    (program : List Node) :
    Approximates spent (run rounds depth program) (run rounds' more program) := by
  obtain ⟨left, rfl⟩ := Nat.exists_eq_add_of_le hr
  obtain ⟨extra, rfl⟩ := Nat.exists_eq_add_of_le hd
  have hcovers : (Machine.approximation spent).Covers rounds left extra :=
    Machine.approximation_covers hu (fun he => ht (by omega)) rounds left
  exact (Congruence.run hcovers depth program).1

/-- A run that has ended is not changed by more rounds. -/
theorem run_of_rounds_le {rounds rounds' : Nat} (hr : rounds ≤ rounds')
    (hrun : run rounds depth program before = outcome failure after)
    (hn : failure ≠ some .unfinished) :
    run rounds' depth program before = outcome failure after := by
  have happrox : Approximates (· = .unfinished) (run rounds depth program)
      (run rounds' depth program) :=
    run_approximates (by rfl) hr (Nat.le_refl depth)
      (fun hlt => absurd hlt (Nat.lt_irrefl depth)) program
  refine outcome_of_approximates happrox hrun fun cause hc hs => hn ?_
  rw [Option.mem_def.1 hc, hs]

theorem run_of_depth_le (hle : depth ≤ more) (rounds : Nat) (program : List Node) :
    Approximates (fun cause => cause = .unfinished ∨ cause = .tooDeep) (run rounds depth program)
      (run rounds more program) :=
  run_approximates (.inl rfl) (Nat.le_refl rounds) hle (fun _ => .inr rfl) program

/-- A run ends in one way only. -/
theorem Halts.unique (h : Halts depth program before failure after)
    (h' : Halts depth program before failure' after') : failure' = failure ∧ after' = after := by
  obtain ⟨hn, rounds, hrun⟩ := h
  obtain ⟨hn', rounds', hrun'⟩ := h'
  have hfirst := run_of_rounds_le (Nat.le_max_left rounds rounds') hrun hn
  have hsecond := run_of_rounds_le (Nat.le_max_right rounds rounds') hrun' hn'
  have heq := hfirst.symm.trans hsecond
  cases failure <;> cases failure' <;> cases heq <;> exact ⟨rfl, rfl⟩

/-- What has ended without running out of depth ends so with more depth. -/
theorem Halts.of_depth_le (hle : depth ≤ more) (h : Halts depth program before failure after)
    (ht : failure ≠ some .tooDeep) : Halts more program before failure after := by
  obtain ⟨hn, rounds, hrun⟩ := h
  have happrox := run_of_depth_le hle rounds program
  refine ⟨hn, rounds, outcome_of_approximates happrox hrun fun cause hc hs => ?_⟩
  rw [Option.mem_def] at hc
  rcases hs with rfl | rfl
  · exact hn hc
  · exact ht hc

/-- Whatever has been done with the smaller depth, is done with the larger one first. -/
theorem Halts.log_suffix (hle : depth ≤ more) (h : Halts depth program before failure after)
    (h' : Halts more program before failure' after') :
    after.world.log <:+ after'.world.log := by
  obtain ⟨hn, rounds, hrun⟩ := h
  obtain ⟨hn', rounds', hrun'⟩ := h'
  have hfirst := run_of_rounds_le (Nat.le_max_left rounds rounds') hrun hn
  have hsecond := run_of_rounds_le (Nat.le_max_right rounds rounds') hrun' hn'
  exact log_suffix_of_approximates (run_of_depth_le hle _ program) hfirst hsecond

end Budgets

end Evaluation

open Evaluation (Halts)

/-- Of two depths, the smaller one is not noticed unless it is used up: a run that ends in any other
way with it ends in the same way with the larger one, with the same failure if any and on the same
machine, and in no other way. A run that uses up the smaller depth has written and paused no more
than the run with the larger depth does first, in whichever way that one ends. -/
theorem depth_limit_transparent {less more : Nat} (hle : less ≤ more) (program : List Node)
    (before : Machine) :
    (∀ failure after, Halts less program before failure after → failure ≠ some .tooDeep →
      ∀ failure' after', Halts more program before failure' after' ↔
        failure' = failure ∧ after' = after) ∧
    ∀ after failure' after', Halts less program before (some .tooDeep) after →
      Halts more program before failure' after' →
        after.world.output <+: after'.world.output ∧
          after.world.delays <+: after'.world.delays := by
  constructor
  · intro failure after h ht failure' after'
    have hmore := h.of_depth_le hle ht
    refine ⟨fun h' => hmore.unique h', ?_⟩
    rintro ⟨rfl, rfl⟩
    exact hmore
  · intro after failure' after' h h'
    have hlog := h.log_suffix hle h'
    exact ⟨World.output_prefix hlog, World.delays_prefix hlog⟩

/-- The first statement needs no more than the smaller depth, the second one does. -/
theorem depth_limit_transparent_nested :
    let before := Machine.start ⟨.empty, [], fun _ => 0, 0, [], "/"⟩
    let first := Node.print (.literal (.text "a")) "print"
    let second := Node.print (.unary "REVERSE" (.unary "REVERSE" (.literal (.text "bc")))) "print"
    3 ≤ 4 ∧
    (∃ after, Halts 3 [first] before none after ∧ Halts 4 [first] before none after) ∧
    ∃ after after', Halts 3 [first, second] before (some .tooDeep) after ∧
      Halts 4 [first, second] before none after' ∧
      after.world.output <+: after'.world.output ∧ after.world.delays <+: after'.world.delays := by
  intro before first second
  have hle : 3 ≤ 4 := by decide
  have hfirst : Halts 3 [first] before none _ := ⟨by simp, 0, rfl⟩
  have hless : Halts 3 [first, second] before (some .tooDeep) _ := ⟨by simp, 0, rfl⟩
  have hmore : Halts 4 [first, second] before none _ := ⟨by simp, 0, rfl⟩
  refine ⟨hle, ⟨_, hfirst, ?_⟩, _, _, hless, hmore, ?_⟩
  · exact ((depth_limit_transparent hle [first] before).1 none _ hfirst (by simp) none _).2
      ⟨rfl, rfl⟩
  · exact (depth_limit_transparent hle [first, second] before).2 _ none _ hless hmore

end PrefixScript
