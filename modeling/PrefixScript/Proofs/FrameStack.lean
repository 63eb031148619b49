import PrefixScript.Proofs.Discipline

/-!
# The stack of frames

An expression leaves the stack as it was, with all bindings: the frame of each call is dropped when
the call is over. A statement may bind names in the top frame only. After a failure the frames of
the calls that were under way are still there, on top of the frames from before.
-/
namespace PrefixScript

/-- Evaluating keeps all frames. A failure leaves them at the bottom of the stack. -/
def frameEvaluating : Law Failure Machine where
  kept before after := after.frames = before.frames
  failed _ before after := before.frames.toList <:+ after.frames.toList
  refl _ := rfl
  trans h k := k.trans h
  failed_of_kept h k := h ▸ k

/-- Executing keeps the frames below the top one. -/
def frameExecuting : Law Failure Machine where
  kept before after := after.frames.below = before.frames.below
  failed _ before after := before.frames.below <:+ after.frames.below
  refl _ := rfl
  trans h k := k.trans h
  failed_of_kept h k := h ▸ k

theorem Frames.below_suffix_toList (frames : Frames) : frames.below <:+ frames.toList :=
  List.suffix_cons frames.top frames.below

/-- A stack on top of all frames of another one also covers the frames below its top. -/
theorem Frames.below_suffix_below {before after : Frames} (h : before.toList <:+ after.toList) :
    before.below <:+ after.below := by
  obtain ⟨front, hf⟩ := h
  cases front with
  | nil =>
    have he : before.below = after.below := (List.cons.inj hf).2
    exact he ▸ List.suffix_rfl
  | cons frame rest =>
    have he : rest ++ before.toList = after.below := (List.cons.inj hf).2
    exact before.below_suffix_toList.trans ⟨rest, he⟩

/-- Dropping the top frame of a stack that stands on another one gives that other one. -/
theorem Frames.pop_eq {before after : Frames} (h : after.below = before.toList) :
    after.pop = before := by
  obtain ⟨top, below⟩ := after
  subst h
  rfl

/-- Every node may stand anywhere, and every function may be registered. -/
def frameDiscipline : Discipline where
  expression _ := True
  statement _ := True
  registered _ _ := True
  evaluating := frameEvaluating
  executing := frameExecuting
  expression_operand _ _ := trivial
  statement_operand _ _ := trivial
  statement_step _ _ := trivial
  statement_bare _ _ := trivial
  statement_function _ := trivial
  registered_body _ _ := trivial
  executing_kept h := congrArg Frames.below h
  executing_failed h := Frames.below_suffix_below h
  world_kept h _ := h
  raises_failed _ _ _ := List.suffix_rfl
  tooDeep_failed _ := List.suffix_rfl
  unfinished_failed _ := List.suffix_rfl
  bind_kept _ _ _ := rfl
  register_kept _ _ := rfl
  call_kept h := Frames.pop_eq h
  call_failed h := List.IsSuffix.trans h (Frames.below_suffix_toList _)

theorem frameDiscipline_registry (machine : Machine) : frameDiscipline.Registry machine :=
  fun _ _ _ => trivial

/-- What every evaluation, execution and run does to the stack, whatever the tree and the machine.
An expression that succeeds restores the stack exactly, and a statement or a body restores the
frames below the top one. If they fail, the stack has grown on top of these frames, and of the top
one too in the case of an expression. A run that succeeds on a new machine ends with a single
frame. -/
theorem frames_restored (rounds depth : Nat) (machine : Machine) :
    (∀ node, Ends (Evaluation.eval rounds depth node) machine
      (fun _ after => after.frames = machine.frames)
      (fun _ after => machine.frames.toList <:+ after.frames.toList)) ∧
    (∀ node, Ends (Evaluation.exec rounds depth node) machine
      (fun _ after => after.frames.below = machine.frames.below)
      (fun _ after => machine.frames.below <:+ after.frames.below)) ∧
    (∀ body, Ends (Evaluation.sequence (Evaluation.exec rounds depth) body) machine
      (fun _ after => after.frames.below = machine.frames.below)
      (fun _ after => machine.frames.below <:+ after.frames.below)) ∧
    ∀ program world, Ends (Evaluation.run rounds depth program) (.start world)
      (fun _ after => after.frames.toList.length = 1)
      (fun _ after => 1 ≤ after.frames.toList.length) := by
  have hr := frameDiscipline_registry machine
  have hat := frameDiscipline.obeyedAt rounds depth
  refine ⟨fun node => ?_, fun node => ?_, fun body => ?_, fun program world => ?_⟩
  · exact (Law.Obeyed.ends (hat.1 node trivial) hr).mono (fun _ _ h => h.2) (fun _ _ h => h.2)
  · exact (Law.Obeyed.ends (hat.2 node trivial) hr).mono (fun _ _ h => h.2) (fun _ _ h => h.2)
  · have hb := frameDiscipline.body_obeyed rounds depth body fun _ _ => trivial
    exact (Law.Obeyed.ends hb hr).mono (fun _ _ h => h.2) (fun _ _ h => h.2)
  · have hp := frameDiscipline.run_obeyed rounds depth program fun _ _ => trivial
    refine (Law.Obeyed.ends hp (frameDiscipline_registry _)).mono (fun _ after h => ?_) ?_
    · have hbelow : after.frames.below = [] := h.2
      simp [Frames.toList, hbelow]
    · exact fun _ after _ => by simp [Frames.toList]

end PrefixScript
