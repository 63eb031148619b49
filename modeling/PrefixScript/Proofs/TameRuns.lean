import PrefixScript.Proofs.RunEnds
import PrefixScript.Proofs.TameSources

/-!
# Runs without control sequences

A machine computes with the texts of its program, its input and the names of its variables, which it
joins and reverses. So if none of these has control sequences, no value ever has some, nor what is
written, but for what clears the screen, nor what is told of a failure.
-/
namespace PrefixScript
open Parse (TameTrees)

/-! ## Machines -/

/-- A line that is read is a part of the input. -/
theorem World.Tame.readLine {world : World} (h : world.Tame) :
    (∀ text, world.readLine.1 = some text → Text.Tame text) ∧ world.readLine.2.Tame := by
  unfold World.readLine
  split
  · have hnone : ∀ text, (none : Option String) = some text → Text.Tame text := by simp
    exact ⟨hnone, h⟩
  · have hline : Text.lead ∉ World.dropBreaks (world.input.takeWhile (· != '\n')) := by
      intro hc
      have hc := List.dropWhile_subset _ (List.mem_reverse.1 hc)
      exact h.input (List.takeWhile_subset _ (List.mem_reverse.1 hc))
    refine ⟨fun text he => ?_, h.files, fun hc => h.input (List.drop_subset _ _ hc), h.written,
      h.working⟩
    cases he
    exact Text.tame_ofList.2 hline

/-- The values that variables are bound to, the bodies of the functions and the world have no
control sequences. -/
structure Machine.Tame (machine : Machine) : Prop where
  frames : ∀ frame ∈ machine.frames.toList, frame.Holds fun _ => Value.Tame
  functions : machine.functions.Holds fun _ declaration => TameTrees declaration.body
  world : machine.world.Tame

/-- The value that a statement returns has no control sequences. -/
def Completion.Tame (completion : Completion) : Prop := completion.value.Tame

/-- Activities of tame machines. -/
abbrev RunsTame {α : Type} (ok : α → Prop) (activity : RunM α) : Prop :=
  Tamely Machine.Tame ok activity

namespace Machine
variable {name : String} {value : Value} {site : Node}

theorem start_tame {world : World} (h : world.Tame) : (start world).Tame where
  frames _ hm := List.mem_singleton.1 hm ▸ .empty
  functions := .empty
  world := h

theorem lookup_tame (hn : Text.Tame name) (site : Option Node) :
    RunsTame Value.Tame (lookup name site) := by
  intro machine hm
  simp only [lookup, ends_bind, ends_get]
  cases hf : machine.frames.find? name with
  | some value =>
    obtain ⟨frame, hframe, hv⟩ := List.exists_of_findSome?_eq_some hf
    exact ⟨hm.frames frame hframe name value hv, hm⟩
  | none => exact ⟨Fault.tame_told (by decide) hn (by decide), hm⟩

theorem bind_tame (hv : value.Tame) : RunsTame (fun _ => True) (bind name value) := by
  refine .modify trivial fun machine hm => ⟨fun frame hframe => ?_, hm.functions, hm.world⟩
  rcases List.mem_cons.1 hframe with rfl | hframe
  · exact (hm.frames _ List.mem_cons_self).insert hv
  · exact hm.frames frame (List.mem_cons_of_mem _ hframe)

theorem push_tame {frame : Table Value} (hf : frame.Holds fun _ => Value.Tame) :
    RunsTame (fun _ => True) (push frame) := by
  refine .modify trivial fun machine hm => ⟨fun other ho => ?_, hm.functions, hm.world⟩
  rcases List.mem_cons.1 ho with rfl | ho
  · exact hf
  · exact hm.frames other ho

theorem pop_tame : RunsTame (fun _ => True) pop := by
  refine .modify trivial fun machine hm => ⟨fun frame hframe => hm.frames frame ?_, hm.functions,
    hm.world⟩
  unfold Frames.pop at hframe
  unfold Frames.toList
  split at hframe
  · exact hframe
  · rename_i next rest hb
    rw [hb]
    exact List.mem_cons_of_mem _ hframe

theorem register_tame {params : List String} {body : List Node} (hb : TameTrees body) :
    RunsTame (fun _ => True) (register name params body) :=
  .modify trivial fun _ hm => ⟨hm.frames, hm.functions.insert hb, hm.world⟩

theorem write_tame {text : String} (ht : Text.Tame text ∨ text = Operator.clearScreen) :
    RunsTame (fun _ => True) (write text) := by
  refine .modify trivial fun machine hm => ⟨hm.frames, hm.functions, hm.world.write ?_⟩
  exact ht.imp Styled.tame_plain.2 (congrArg Styled.plain)

theorem number_tame (hv : value.Tame) (site : Node) :
    RunsTame (fun _ => True) (number value site) := by
  unfold number
  cases hx : value.toNumber with
  | ok x => exact .pure trivial
  | error text =>
    exact .throw (Fault.tame_told (by decide) (Value.tame_of_toNumber hv hx) (by decide))

theorem readLine_tame : RunsTame Value.Tame readLine := by
  intro machine hm
  obtain ⟨hline, hworld⟩ := hm.world.readLine
  simp only [readLine, ends_bind, ends_get, ends_set]
  cases hl : machine.world.readLine.1 with
  | none => exact ⟨Value.tame_none, hm.frames, hm.functions, hworld⟩
  | some text => exact ⟨hline text hl, hm.frames, hm.functions, hworld⟩

theorem pause_tame (delay : Float) : RunsTame (fun _ => True) (pause delay) :=
  .modify trivial fun _ hm => ⟨hm.frames, hm.functions, hm.world.record (by simp)⟩

theorem draw_tame : RunsTame (fun _ => True) draw := by
  intro machine hm
  simp only [draw, ends_bind, ends_get, ends_set]
  exact ⟨trivial, hm.frames, hm.functions, hm.world.files, hm.world.input, hm.world.written,
    hm.world.working⟩

theorem callee_tame (hn : Text.Tame name) (given : Nat) (site : Node) :
    RunsTame (fun declaration => TameTrees declaration.body) (callee name given site) := by
  intro machine hm
  simp only [callee, ends_bind, ends_get]
  cases hf : machine.functions.find? name with
  | none => exact ⟨Fault.tame_told (by decide) hn (by decide), hm⟩
  | some declaration =>
    show Ends (if _ then _ else _) _ _ _
    split
    · exact ⟨hm.functions name declaration hf, hm⟩
    · have htexts : Text.Tame "function '" ∧ Text.Tame "' expects " ∧ Text.Tame " args, got " := by
        decide
      refine ⟨Diagnostic.tame_basic ?_ hn, hm⟩
      simp [htexts, hn, Text.tame_repr]

end Machine

/-! ## Operations on values -/

namespace Operator
variable {op : String} {left right value : Value} {site : Node}

theorem math_tame (ho : Text.Tame op) (hl : left.Tame) (hr : right.Tame) (site : Node) :
    RunsTame Value.Tame (math op left right site) := by
  have hnumber (x : Float) : RunsTame Value.Tame (pure (.number x)) := .pure (Value.tame_number x)
  unfold math
  refine .ite (.ite (.pure (Text.tame_append.2 ⟨hl, hr⟩)) (.throw ?_)) ?_
  · exact Fault.tame_told (by decide) ho (by decide)
  refine .bind (Machine.number_tame hl site) fun x _ =>
    .bind (Machine.number_tame hr site) fun y _ => ?_
  have hdivision : (Failure.fault (.divisionByZero x y site)).Tame := by
    refine Fault.tame_told (by decide) ?_ (by decide)
    have htexts : Text.Tame "/ " ∧ Text.Tame " " := by decide
    simp [htexts, Text.tame_decimal]
  have hunknown : (Failure.fault (.unknownOperator op site)).Tame :=
    Fault.tame_told (by decide) ho (by decide)
  exact .ite (hnumber _) (.ite (hnumber _) (.ite (hnumber _)
    (.ite (.ite (.throw hdivision) (hnumber _)) (.throw hunknown))))

theorem comparison_tame (ho : Text.Tame op) (left right : Value) (site : Node) :
    RunsTame Value.Tame (comparison op left right site) :=
  .ite (.pure (Value.tame_bool _)) (.ite (.pure (Value.tame_bool _))
    (.throw (Fault.tame_told (by decide) ho (by decide))))

theorem unary_tame (ho : Text.Tame op) (hv : value.Tame) (site : Node) :
    RunsTame Value.Tame (unary op value site) := by
  have hnumber (x : Float) : RunsTame Value.Tame (pure (.number x)) := .pure (Value.tame_number x)
  have hreverse : Text.Tame (String.ofList value.render.toList.reverse) :=
    hv.of_subset fun _ hc => List.mem_reverse.1 hc
  have hunknown : (Failure.fault (.unknownBuiltin op site)).Tame :=
    Fault.tame_told (by decide) ho (by decide)
  unfold unary
  refine .ite ?_ (.ite ?_ (.ite (.pure hreverse) (.ite (hnumber _) (.throw hunknown))))
  · refine .bind (Machine.number_tame hv site) fun x _ => .ite (.throw ?_) (hnumber _)
    exact Fault.tame_told (by decide) (Text.tame_decimal x) (by decide)
  · exact .bind Machine.draw_tame fun _ _ => .bind (Machine.number_tame hv site) fun _ _ =>
      hnumber _

theorem pause_tame (hv : value.Tame) (site : Node) :
    RunsTame Value.Tame (Operator.pause value site) := by
  refine .bind (Machine.number_tame hv site) fun delay _ => .ite ?_ (.throw ?_)
  · exact .bind (Machine.pause_tame delay) fun _ _ => .pure Value.tame_none
  · exact Fault.tame_told (by decide) (Text.tame_decimal delay) (by decide)

end Operator

/-! ## Evaluation -/

namespace Evaluation
variable {rounds depth : Nat} {node : Node}

theorem values_tame {eval : Node → RunM Value} {nodes : List Node} {before : List Value}
    (h : ∀ node ∈ nodes, RunsTame Value.Tame (eval node)) (hb : ∀ value ∈ before, value.Tame) :
    RunsTame (fun all => ∀ value ∈ all, value.Tame) (values eval nodes before) := by
  induction nodes generalizing before with
  | nil => exact .pure fun value hm => hb value (List.mem_reverse.1 hm)
  | cons node rest ih =>
    obtain ⟨hnode, hrest⟩ := List.forall_mem_cons.1 h
    exact .bind hnode fun value hv => ih hrest (List.forall_mem_cons.2 ⟨hv, hb⟩)

theorem sequence_tame {exec : Node → RunM Completion} {body : List Node}
    (h : ∀ node ∈ body, RunsTame Completion.Tame (exec node)) :
    RunsTame Completion.Tame (sequence exec body) := by
  induction body with
  | nil => exact .pure Value.tame_none
  | cons node rest ih =>
    obtain ⟨hnode, hrest⟩ := List.forall_mem_cons.1 h
    refine .bind hnode fun completion hc => ?_
    cases completion with
    | normal => exact ih hrest
    | returning value => exact .pure hc

theorem whileRounds_tame {cond : RunM Value} {body : RunM Completion}
    (hc : RunsTame Value.Tame cond) (hb : RunsTame Completion.Tame body) (rounds : Nat) :
    RunsTame Completion.Tame (whileRounds cond body rounds) := by
  induction rounds with
  | zero => exact .throw trivial
  | succ rounds ih =>
    refine .bind hc fun value _ => .ite (.bind hb fun completion hcompletion => ?_)
      (.pure Value.tame_none)
    cases completion with
    | normal => exact ih
    | returning value => exact .pure hcompletion

theorem forRounds_tame {counter : String} {last : Float} {body : RunM Completion}
    (hb : RunsTame Completion.Tame body) (rounds : Nat) (current : Float) :
    RunsTame Completion.Tame (forRounds counter last body rounds current) := by
  induction rounds generalizing current with
  | zero => exact .throw trivial
  | succ rounds ih =>
    refine .ite (.bind (Machine.bind_tame (Value.tame_number current)) fun _ _ =>
      .bind hb fun completion hcompletion => ?_) (.pure Value.tame_none)
    cases completion with
    | normal => exact ih (current + 1)
    | returning value => exact .pure hcompletion

/-- Evaluations at a depth are tame on tame trees. -/
def TameAt (rounds depth : Nat) : Prop :=
  (∀ node, TameTrees [node] → RunsTame Value.Tame (eval rounds depth node)) ∧
    ∀ node, TameTrees [node] → RunsTame Completion.Tame (exec rounds depth node)

theorem TameAt.sequence (h : TameAt rounds depth) {body : List Node} (hb : TameTrees body) :
    RunsTame Completion.Tame (sequence (exec rounds depth) body) :=
  sequence_tame fun node hn => h.2 node (hb.of_mem hn)

/-- One level of evaluation, a case for each kind of node. -/
theorem eval_tame_succ (h : TameAt rounds depth) (hn : TameTrees [node]) :
    RunsTame Value.Tame (eval rounds (depth + 1) node) := by
  have hnode : node.Tame := hn.self
  have hop (operand) (ho : operand ∈ node.operands) :
      RunsTame Value.Tame (eval rounds depth operand) :=
    h.1 operand (hn.operands (List.cons_subset.2 ⟨ho, List.nil_subset _⟩))
  cases node with
  | literal value =>
    simp only [eval]
    exact .pure hnode
  | lookup name =>
    simp only [eval]
    exact Machine.lookup_tame hnode _
  | math op left right =>
    simp only [eval]
    exact .bind (hop left (by simp [Node.operands])) fun _ hl =>
      .bind (hop right (by simp [Node.operands])) fun _ hr => Operator.math_tame hnode hl hr _
  | unary op operand =>
    simp only [eval]
    exact .bind (hop operand (by simp [Node.operands])) fun _ hv => Operator.unary_tame hnode hv _
  | comparison op left right =>
    simp only [eval]
    exact .bind (hop left (by simp [Node.operands])) fun _ _ =>
      .bind (hop right (by simp [Node.operands])) fun _ _ =>
        Operator.comparison_tame hnode _ _ _
  | call name args =>
    simp only [eval]
    refine .bind (Machine.callee_tame hnode _ _) fun declaration hbody =>
      .bind (values_tame (fun arg ha => hop arg ha) (List.forall_mem_nil _)) fun arguments ha => ?_
    have hframe : (Table.ofList (declaration.params.zip arguments)).Holds
        fun _ => Value.Tame :=
      .ofList fun pair hm => ha _ (List.of_mem_zip hm).2
    exact .bind (Machine.push_tame hframe) fun _ _ => .bind (h.sequence hbody) fun _ hc =>
      .bind Machine.pop_tame fun _ _ => .pure hc
  | read =>
    simp only [eval]
    exact Machine.readLine_tame
  | pause delay =>
    simp only [eval]
    exact .bind (hop delay (by simp [Node.operands])) fun _ hv => Operator.pause_tame hv _
  | wipe =>
    simp only [eval]
    exact .bind (Machine.write_tame (.inr rfl)) fun _ _ => .pure Value.tame_none
  | _ =>
    simp only [eval]
    exact .throw (Fault.tame_told (by decide) (Node.tame_kindName hnode) (by decide))

/-- One level of execution. -/
theorem exec_tame_succ (h : TameAt rounds depth) (hn : TameTrees [node]) :
    RunsTame Completion.Tame (exec rounds (depth + 1) node) := by
  have hop (operand) (ho : operand ∈ node.operands) :
      RunsTame Value.Tame (eval rounds depth operand) :=
    h.1 operand (hn.operands (List.cons_subset.2 ⟨ho, List.nil_subset _⟩))
  have hbody (body : List Node) (hb : body ⊆ node.steps) :
      RunsTame Completion.Tame (sequence (exec rounds depth) body) :=
    h.sequence (hn.steps hb)
  have hnormal : RunsTame Completion.Tame (pure .normal) := .pure Value.tame_none
  cases node with
  | bind name value =>
    simp only [exec]
    exact .bind (hop value (by simp [Node.operands])) fun _ hv =>
      .bind (Machine.bind_tame hv) fun _ _ => hnormal
  | print value variant =>
    simp only [exec]
    refine .bind (hop value (by simp [Node.operands])) fun result hv => ?_
    have hbreak : Text.Tame "
" := by decide
    split
    · exact hnormal
    · exact .bind (Machine.write_tame (.inl (Text.tame_append.2 ⟨hv, hbreak⟩))) fun _ _ => hnormal
  | ifThen cond body =>
    simp only [exec]
    exact .bind (hop cond (by simp [Node.operands])) fun _ _ =>
      .ite (hbody body (by simp [Node.steps])) hnormal
  | ifElse cond body other =>
    simp only [exec]
    exact .bind (hop cond (by simp [Node.operands])) fun _ _ =>
      .ite (hbody body (by simp [Node.steps])) (hbody other (by simp [Node.steps]))
  | whileLoop cond body =>
    simp only [exec]
    exact whileRounds_tame (hop cond (by simp [Node.operands])) (hbody body (by simp [Node.steps]))
      rounds
  | forLoop counter start stop body =>
    simp only [exec]
    exact .bind (hop start (by simp [Node.operands])) fun _ hl =>
      .bind (Machine.number_tame hl _) fun first _ =>
        .bind (hop stop (by simp [Node.operands])) fun _ hh =>
          .bind (Machine.number_tame hh _) fun last _ =>
            forRounds_tame (hbody body (by simp [Node.steps])) rounds first
  | function name params body =>
    simp only [exec]
    exact .bind (Machine.register_tame (hn.steps (by simp [Node.steps]))) fun _ _ => hnormal
  | ret value =>
    simp only [exec]
    exact .bind (hop value (by simp [Node.operands])) fun _ hv => .pure hv
  | _ =>
    simp only [exec]
    exact .bind (h.1 _ hn) fun _ _ => hnormal

/-- The induction is on the depth, for both activities at once. -/
theorem tameAt (rounds depth : Nat) : TameAt rounds depth := by
  induction depth with
  | zero =>
    constructor
    · intro node _
      simp only [eval]
      exact .throw trivial
    · intro node _
      simp only [exec]
      exact .throw trivial
  | succ depth ih => exact ⟨fun _ => eval_tame_succ ih, fun _ => exec_tame_succ ih⟩

theorem hoist_tame {program : List Node} (h : TameTrees program) :
    RunsTame (fun _ => True) (hoist program) := by
  induction program with
  | nil => exact .pure trivial
  | cons node rest ih =>
    have hnode := h.of_mem (List.mem_cons_self (a := node) (l := rest))
    have hrest := ih (h.of_subset (List.subset_cons_self node rest))
    cases node with
    | function name params body =>
      exact .bind (Machine.register_tame (hnode.steps (by simp [Node.steps]))) fun _ _ => hrest
    | _ => exact hrest

theorem topLevel_tame {program : List Node} (h : TameTrees program) :
    RunsTame (fun _ => True) (topLevel (exec rounds depth) program) := by
  induction program with
  | nil => exact .pure trivial
  | cons node rest ih =>
    have hnode := h.of_mem (List.mem_cons_self (a := node) (l := rest))
    have hrest := ih (h.of_subset (List.subset_cons_self node rest))
    exact .bind ((tameAt rounds depth).2 node hnode) fun _ _ => hrest

theorem run_tame {program : List Node} (h : TameTrees program) :
    RunsTame (fun _ => True) (run rounds depth program) :=
  .bind (hoist_tame h) fun _ _ => topLevel_tame h

end Evaluation

/-! ## Sessions -/

theorem Host.evaluate_tame (limits : Limits) {program : List Node} (h : TameTrees program) :
    Tamely Host.Tame (fun _ => True) (Host.evaluate limits program) := by
  intro host hh
  rw [ends_evaluate]
  refine (Evaluation.run_tame h _ (Machine.start_tame hh.world)).mono ?_ ?_
  · exact fun _ machine hm => ⟨trivial, hm.2.world, hh.trace⟩
  · exact fun failure machine hm => ⟨hm.1, hm.2.world, hh.trace⟩

namespace Host

theorem enter_tame {path : String} (h : Text.Tame path) :
    Tamely Host.Tame (fun _ => True) (enter path) := by
  refine .modify trivial fun host hh => ⟨hh.world, fun other hm => ?_⟩
  rcases List.mem_append.1 hm with hm | hm
  · exact hh.trace other hm
  · exact List.mem_singleton.1 hm ▸ h

theorem leave_tame (path : String) : Tamely Host.Tame (fun _ => True) (leave path) :=
  .modify trivial fun _ hh => ⟨hh.world, fun other hm => hh.trace other (List.mem_of_mem_erase hm)⟩

theorem warn_tame {d : Diagnostic} (h : d.Tame) : Tamely Host.Tame (fun _ => True) (warn d) :=
  fun _ hh => ⟨trivial, hh.world.write (.inl (tame_warning hh.trace h)), hh.trace⟩

theorem error_tame {d : Diagnostic} (h : d.Tame) : Tamely Host.Tame (fun _ => True) (error d) := by
  intro host hh
  have htold : (host.told d).Tame :=
    ⟨hh.world.write (.inl (tame_report hh.trace h)), hh.trace⟩
  rw [Ends, error_eq]
  cases host.fatal with
  | true => exact ⟨trivial, htold⟩
  | false => exact ⟨trivial, htold.world, List.forall_mem_nil _⟩

theorem tame_notice {text : String} (h : Text.Tame text) (internal : Bool) :
    (notice text internal).Tame :=
  ⟨Styled.tame_plain.2 h, (by decide : Text.Tame "")⟩

/-- What is told of a failure has no control sequences. -/
theorem settle_tame {failure : Failure} (h : failure.Tame) :
    Tamely Host.Tame (fun _ => True) (settle failure) := by
  cases failure with
  | fault fault => exact error_tame h
  | tooDeep => exact error_tame (tame_notice (by decide) _)
  | unfinished => exact .throw trivial
  | interrupted => exact error_tame (tame_notice (by decide) _)
  | exit code => exact .throw trivial
  | defect defect =>
    have htexts : Text.Tame "unknown error: '" ∧ Text.Tame ": " ∧ Text.Tame "'" := by decide
    have htext : Text.Tame ("unknown error: '" ++ defect.name ++ ": " ++ defect.text ++ "'") := by
      simp [htexts, h.1, h.2]
    exact .bind (error_tame (tame_notice htext _)) fun _ _ => .throw h

theorem handled_tame {α : Type} {ok : α → Prop} {activity : HostM α}
    (h : Tamely Host.Tame ok activity) : Tamely Host.Tame (fun _ => True) (handled activity) := by
  intro host hh
  have hends := h host hh
  unfold Ends at hends
  unfold Ends handled
  cases he : activity host with
  | ok a after =>
    rw [he] at hends
    exact ⟨trivial, hends.2⟩
  | error failure after =>
    rw [he] at hends
    have hsettled : Tamely Host.Tame (fun _ => True)
        (do settle failure; return none : HostM (Option α)) :=
      .bind (settle_tame hends.1) fun _ _ => .pure trivial
    exact hsettled after hends.2

end Host

namespace Session
variable {session : Session}

theorem tame_directory {working : String} (hw : Text.Tame working) (h : Text.Tame session.path) :
    Text.Tame (session.directory working) := by
  unfold directory
  cases hl : session.located? working with
  | none => exact hw
  | some path =>
    rw [path_of_mem_located? hl]
    exact Path.tame_parent (Path.tame_absolute (Path.tame_join hw h))

theorem load_tame (h : Text.Tame session.path) : Tamely Host.Tame Text.Tame session.load := by
  intro host hh
  rw [ends_load]
  cases hf : session.file? with
  | none => exact ⟨(Fault.tame_told (by decide) h (by decide)).excerpt false, hh⟩
  | some path =>
    obtain rfl : path = session.path := Session.path_of_mem_file? hf
    have hread : (host.asked (host.world.seen session.path)).Tame := ⟨hh.world.read _, hh.trace⟩
    simp only
    cases ho : host.world.files.read (host.world.seen session.path) with
    | text text => exact ⟨hh.world.text_of_read ho, hread⟩
    | unreadable => exact ⟨(Fault.tame_told (by decide) h (by decide)).excerpt false, hread⟩
    | nullInPath => exact ⟨Failure.tame_nullInPath, hread⟩

theorem tokenize_tame (h : Text.Tame session.path) {text : String} (ht : Text.Tame text) :
    Tamely Host.Tame (fun tokens => ∀ token ∈ tokens, token.Tame) (session.tokenize text) := by
  intro host hh
  simp only [tokenize, ends_bind, ends_get]
  exact Host.tokenize_tame (tame_directory hh.world.working h) ht host hh

/-- A run of a tame source on a tame host leaves a tame host. -/
theorem run_tame (limits : Limits) (h : Text.Tame session.path) {source : Option String}
    (hs : ∀ text, source = some text → Text.Tame text) :
    Tamely Host.Tame (fun _ => True) (session.run limits source) := by
  have henter : Tamely Host.Tame Text.Tame (session.enter source) := by
    have hentered {text : String} (ht : Text.Tame text) : Tamely Host.Tame Text.Tame
        (do Host.enter session.path; return text : HostM String) :=
      .bind (Host.enter_tame h) fun _ _ => .pure ht
    cases source with
    | some text => exact hentered (hs text rfl)
    | none => exact .bind (load_tame h) fun _ ht => hentered ht
  rw [run_eq]
  exact .bind henter fun text ht => .bind (tokenize_tame h ht)
    fun tokens htokens => .bind (Host.parse_tame limits htokens) fun program hp =>
      .bind (Host.evaluate_tame limits hp) fun machine _ =>
        .bind (Host.leave_tame session.path) fun _ _ => .pure trivial

end Session

end PrefixScript
