import PrefixScript.Proofs.FrameStack
import PrefixScript.Proofs.Observation

/-!
# Scoping

A program cannot tell how its stack of frames is built. All it learns of the stack are the values
that it finds under the names it reads. Two machines with stacks of any heights that agree on these
names go on alike, and agree on them again afterwards. So a whole stack can be replaced by one
frame.
-/
namespace PrefixScript

/-- Two worlds with the same history and the same future for a program: what was written, how long
it paused, what is left to read and to draw. -/
structure World.Alike (first second : World) : Prop where
  output : first.output = second.output
  delays : first.delays = second.delays
  input : first.input = second.input
  draws : ∀ n, first.draws (first.drawn + n) = second.draws (second.drawn + n)

namespace World.Alike
variable {first second : World}

theorem refl (world : World) : world.Alike world := ⟨rfl, rfl, rfl, fun _ => rfl⟩

theorem record (h : first.Alike second) (event : Event) :
    (first.record event).Alike (second.record event) where
  output := by
    have ho := h.output
    simp only [World.output] at ho
    simp only [World.output, World.record, List.reverse_cons, List.flatMap_append, ho]
  delays := by
    have hd := h.delays
    simp only [World.delays] at hd
    simp only [World.delays, World.record, List.reverse_cons, List.filterMap_append, hd]
  input := h.input
  draws := h.draws

/-- The same number is drawn. -/
theorem draw (h : first.Alike second) :
    first.draw.1 = second.draw.1 ∧ first.draw.2.Alike second.draw.2 := by
  refine ⟨h.draws 0, h.output, h.delays, h.input, fun n => ?_⟩
  simpa only [World.draw, Nat.add_assoc] using h.draws (1 + n)

/-- The same line is read. -/
theorem readLine (h : first.Alike second) :
    first.readLine.1 = second.readLine.1 ∧ first.readLine.2.Alike second.readLine.2 := by
  simp only [World.readLine, h.input]
  split
  · exact ⟨rfl, h⟩
  · exact ⟨rfl, h.output, h.delays, rfl, h.draws⟩

end World.Alike

/-- Two machines that can call the same functions, in worlds that are alike. The stacks may have any
frames, but they give the same value, or none, under each of some names. -/
structure Machine.Alike (seen : String → Prop) (first second : Machine) : Prop where
  functions : first.functions = second.functions
  world : first.world.Alike second.world
  lookup : ∀ name, seen name → first.frames.find? name = second.frames.find? name

namespace Machine.Alike
variable {seen : String → Prop} {first second : Machine}

theorem bind (h : first.Alike seen second) (name : String) (value : Value) :
    Alike seen { first with frames := first.frames.bind name value }
      { second with frames := second.frames.bind name value } where
  functions := h.functions
  world := h.world
  lookup key hk := by simp only [Frames.find?_bind, h.lookup key hk]

theorem push (h : first.Alike seen second) (frame : Table Value) :
    Alike seen { first with frames := first.frames.push frame }
      { second with frames := second.frames.push frame } where
  functions := h.functions
  world := h.world
  lookup key hk := by simp only [Frames.find?_push, h.lookup key hk]

theorem record (h : first.Alike seen second) (event : Event) :
    Alike seen { first with world := first.world.record event }
      { second with world := second.world.record event } where
  functions := h.functions
  world := h.world.record event
  lookup := h.lookup

theorem register (h : first.Alike seen second) (name : String) (found : Declaration) :
    Alike seen { first with functions := first.functions.insert name found }
      { second with functions := second.functions.insert name found } where
  functions := by simp only [h.functions]
  world := h.world
  lookup := h.lookup

end Machine.Alike

/-- A name is read somewhere in some trees. -/
def Node.Reads (nodes : List Node) (name : String) : Prop := .lookup name ∈ subnodesOf nodes

theorem Node.reads_child {node child : Node} {name : String}
    (hc : child ∈ node.operands ++ node.steps) (hr : Reads [child] name) :
    Reads [node] name := by
  simp only [Reads, subnodesOf, List.append_nil] at hr ⊢
  exact subnodes_trans (child_mem_subnodes hc) hr

theorem Node.reads_of_mem {nodes : List Node} {node : Node} {name : String} (hn : node ∈ nodes)
    (hr : Reads [node] name) : Reads nodes name := by
  simp only [Reads, subnodesOf, List.append_nil] at hr
  exact mem_subnodesOf.2 ⟨node, hn, hr⟩

/-- A name is read somewhere in some trees, or in a function that can be called. -/
def Machine.Consults (functions : Table Declaration) (nodes : List Node) (name : String) : Prop :=
  Node.Reads nodes name ∨
    ∃ key found, functions.find? key = some found ∧ Node.Reads found.body name

/-- The trees that read no other names. -/
def Fragment.reading (seen : String → Prop) : Fragment where
  expression node := ∀ name, Node.Reads [node] name → seen name
  statement node := ∀ name, Node.Reads [node] name → seen name
  expression_operand hn ho name hr := hn name (Node.reads_child (List.mem_append_left _ ho) hr)
  statement_operand hn ho name hr := hn name (Node.reads_child (List.mem_append_left _ ho) hr)
  statement_step hn hs name hr := hn name (Node.reads_child (List.mem_append_right _ hs) hr)
  statement_bare hn _ := hn

/-- Machines that are alike, with functions that read no other names either. -/
def Machine.Matched (seen : String → Prop) (first second : Machine) : Prop :=
  first.Alike seen second ∧ (Fragment.reading seen).Registry first.functions

/-- From machines that match, the activity ends alike, in machines that match again. -/
abbrev Agrees {α : Type} (seen : String → Prop) (activity : RunM α) : Prop :=
  Simulates (Machine.Matched seen) (fun _ => Machine.Matched seen) activity activity

section Agrees
variable {seen : String → Prop} {α : Type}

theorem agrees_fail (fault : Fault) : Agrees seen (Machine.fail fault : RunM α) :=
  .throw fun _ _ h => h

theorem agrees_bind (name : String) (value : Value) : Agrees seen (Machine.bind name value) :=
  .modify fun _ _ h => ⟨h.1.bind name value, h.2⟩

theorem agrees_write (text : String) : Agrees seen (Machine.write text) :=
  .modify fun _ _ h => ⟨h.1.record _, h.2⟩

/-- What a declaration registers reads no other names than the declaration. -/
theorem agrees_register {name : String} {params : List String} {body : List Node}
    (h : (Fragment.reading seen).statement (.function name params body)) :
    Agrees seen (Machine.register name params body) := by
  have hbody : ∀ step ∈ body, (Fragment.reading seen).statement step :=
    fun step hs => (Fragment.reading seen).statement_step h hs
  exact .modify fun _ _ hm => ⟨hm.1.register name ⟨params, body⟩, hm.2.insert hbody⟩

/-- A name is found in both stacks, with one value, or in neither. -/
theorem agrees_lookup {name : String} (h : seen name) (site : Option Node) :
    Agrees seen (Machine.lookup name site) := by
  refine .get_bind fun first second hm => ?_
  simp only [hm.1.lookup name h]
  cases second.frames.find? name with
  | some value => exact Simulates.pure value first second hm
  | none => exact agrees_fail (.undefinedVariable name site) first second hm

theorem agrees_number (value : Value) (site : Node) :
    Agrees seen (Machine.number value site) := by
  unfold Machine.number
  split
  · exact .pure _
  · exact agrees_fail _

/-- What only deals with the world agrees if it does the same in worlds that are alike. -/
theorem agrees_of_world {activity : RunM α} {f : World → α × World}
    (hf : ∀ m, activity m = .ok (f m.world).1 { m with world := (f m.world).2 })
    (hw : ∀ world other, World.Alike world other →
      (f world).1 = (f other).1 ∧ (f world).2.Alike (f other).2) : Agrees seen activity := by
  rintro first second ⟨ha, hr⟩
  obtain ⟨hx, hafter⟩ := hw first.world second.world ha.world
  rw [EndAlike, Ends, hf first, hf second]
  exact ⟨{ second with world := (f second.world).2 }, by rw [hx],
    ⟨ha.functions, hafter, ha.lookup⟩, hr⟩

theorem agrees_draw : Agrees seen Machine.draw :=
  agrees_of_world (f := World.draw) (fun _ => rfl) fun _ _ h => h.draw

theorem agrees_readLine : Agrees seen Machine.readLine := by
  refine agrees_of_world
    (f := fun world => (world.readLine.1.elim .none .text, world.readLine.2)) ?_ ?_
  · intro machine
    rw [Machine.readLine, bind_of_ok (by rfl)]
    obtain ⟨line, world⟩ := machine.world.readLine
    cases line <;> rfl
  · intro world other h
    exact ⟨congrArg (fun line => line.elim Value.none Value.text) h.readLine.1, h.readLine.2⟩

/-- Both machines call the same function. -/
theorem agrees_callee (name : String) (given : Nat) (site : Node) :
    Agrees seen (Machine.callee name given site) := by
  refine .get_bind fun first second hm => ?_
  simp only [hm.1.functions]
  cases second.functions.find? name with
  | none => exact agrees_fail _ first second hm
  | some found => exact Simulates.ite (.pure _) (agrees_fail _) first second hm

theorem agrees_math (op : String) (left right : Value) (site : Node) :
    Agrees seen (Operator.math op left right site) := by
  unfold Operator.math
  refine .ite (.ite (.pure _) (agrees_fail _)) ?_
  refine .bind (agrees_number left site) fun x => .bind (agrees_number right site) fun y => ?_
  exact .ite (.pure _) <| .ite (.pure _) <| .ite (.pure _) <|
    .ite (.ite (agrees_fail _) (.pure _)) (agrees_fail _)

theorem agrees_comparison (op : String) (left right : Value) (site : Node) :
    Agrees seen (Operator.comparison op left right site) :=
  .ite (.pure _) <| .ite (.pure _) (agrees_fail _)

theorem agrees_unary (op : String) (value : Value) (site : Node) :
    Agrees seen (Operator.unary op value site) := by
  unfold Operator.unary
  refine .ite ?_ <| .ite ?_ <| .ite (.pure _) <| .ite (.pure _) (agrees_fail _)
  · exact .bind (agrees_number value site) fun x => .ite (agrees_fail _) (.pure _)
  · exact .bind agrees_draw fun part => .bind (agrees_number value site) fun x => .pure _

theorem agrees_pause (value : Value) (site : Node) :
    Agrees seen (Operator.pause value site) := by
  refine .bind (agrees_number value site) fun delay => .ite (.bind ?_ fun _ => .pure _) ?_
  · exact .modify fun _ _ h => ⟨h.1.record _, h.2⟩
  · exact agrees_fail _

/-- The body of a call. Its frame is dropped on both sides when it is over, however the stacks are
built, and the names are found again as before. -/
theorem agrees_call {body : RunM Completion} (frame : Table Value) (hb : Agrees seen body)
    (hk : ∀ s, Ends body s (fun _ t => t.frames.below = s.frames.below) (fun _ _ => True)) :
    Agrees seen (do
      Machine.push frame
      let completion ← body
      Machine.pop
      return completion.value) := by
  intro first second hm
  have hpushed : Machine.Matched seen { first with frames := first.frames.push frame }
      { second with frames := second.frames.push frame } := ⟨hm.1.push frame, hm.2⟩
  have hpop (machine after : Machine) (completion : Completion)
      (h : body { machine with frames := machine.frames.push frame } = .ok completion after) :
      after.frames.pop = machine.frames := Frames.pop_eq ((hk _).of_ok h)
  refine EndAlike.bind ⟨_, rfl, hpushed⟩ ?_
  rintro _ _ _ ⟨⟩ ⟨⟩ -
  refine (hb _ _ hpushed).bind fun completion after other he ho hafter => ?_
  refine ⟨{ other with frames := other.frames.pop }, rfl,
    ⟨hafter.1.functions, hafter.1.world, fun name hn => ?_⟩, hafter.2⟩
  show after.frames.pop.find? name = other.frames.pop.find? name
  rw [hpop first after completion he, hpop second other completion ho]
  exact hm.1.lookup name hn

/-- All evaluations and executions at a depth agree. -/
def AgreeAt (seen : String → Prop) (rounds depth : Nat) : Prop :=
  (∀ node, (Fragment.reading seen).expression node →
    Agrees seen (Evaluation.eval rounds depth node)) ∧
  ∀ node, (Fragment.reading seen).statement node →
    Agrees seen (Evaluation.exec rounds depth node)

variable {rounds depth : Nat}

theorem eval_call_agrees (h : AgreeAt seen rounds depth) {name : String} {args : List Node}
    (hn : (Fragment.reading seen).expression (.call name args)) :
    Agrees seen (Evaluation.eval rounds (depth + 1) (.call name args)) := by
  simp only [Evaluation.eval]
  have hfound (first second : Machine) (hm : Machine.Matched seen first second) :
      Ends (Machine.callee name args.length (.call name args)) first
        (fun found _ => ∀ step ∈ found.body, (Fragment.reading seen).statement step)
        (fun _ _ => True) := by
    refine (ends_callee name args first).mono ?_ fun _ _ _ => trivial
    rintro found _ ⟨-, hf, -⟩
    exact hm.2 name found hf
  refine .bind_of (agrees_callee name args.length _) hfound fun found hbody => ?_
  refine .bind ?_ fun arguments => agrees_call _ ?_ fun s => ?_
  · rw [Loop.values_machine]
    exact Loop.values_simulates args [] fun arg ha =>
      h.1 arg ((Fragment.reading seen).expression_operand hn ha)
  · rw [Loop.sequence_machine]
    exact Loop.sequence_simulates found.body fun step hs => h.2 step (hbody step hs)
  · have hframes := frameDiscipline.body_obeyed rounds depth found.body fun _ _ => trivial
    exact (Law.Obeyed.ends hframes (frameDiscipline_registry s)).mono (fun _ _ hk => hk.2)
      fun _ _ _ => trivial

/-- One level of evaluation, a case for each kind of node. -/
theorem eval_agrees_succ (h : AgreeAt seen rounds depth) {node : Node}
    (hn : (Fragment.reading seen).expression node) :
    Agrees seen (Evaluation.eval rounds (depth + 1) node) := by
  have hop (operand) (ho : operand ∈ node.operands) :
      Agrees seen (Evaluation.eval rounds depth operand) :=
    h.1 operand ((Fragment.reading seen).expression_operand hn ho)
  cases node with
  | call name args => exact eval_call_agrees h hn
  | literal value =>
    simp only [Evaluation.eval]
    exact .pure value
  | lookup name =>
    simp only [Evaluation.eval]
    exact agrees_lookup (hn name (by simp [Node.Reads, Node.subnodesOf, Node.subnodes])) _
  | math op left right =>
    simp only [Evaluation.eval]
    exact .bind (hop left (by simp [Node.operands])) fun x =>
      .bind (hop right (by simp [Node.operands])) fun y => agrees_math op x y _
  | unary op operand =>
    simp only [Evaluation.eval]
    exact .bind (hop operand (by simp [Node.operands])) fun x => agrees_unary op x _
  | comparison op left right =>
    simp only [Evaluation.eval]
    exact .bind (hop left (by simp [Node.operands])) fun x =>
      .bind (hop right (by simp [Node.operands])) fun y => agrees_comparison op x y _
  | read =>
    simp only [Evaluation.eval]
    exact agrees_readLine
  | pause delay =>
    simp only [Evaluation.eval]
    exact .bind (hop delay (by simp [Node.operands])) fun x => agrees_pause x _
  | wipe =>
    simp only [Evaluation.eval]
    exact .bind (agrees_write _) fun _ => .pure _
  | _ =>
    simp only [Evaluation.eval]
    exact agrees_fail _

/-- One level of execution. -/
theorem exec_agrees_succ (h : AgreeAt seen rounds depth) {node : Node}
    (hn : (Fragment.reading seen).statement node) :
    Agrees seen (Evaluation.exec rounds (depth + 1) node) := by
  have hop (operand) (ho : operand ∈ node.operands) :
      Agrees seen (Evaluation.eval rounds depth operand) :=
    h.1 operand ((Fragment.reading seen).statement_operand hn ho)
  have hbody (body : List Node) (hb : ∀ step ∈ body, step ∈ node.steps) :
      Agrees seen (Loop.sequence (Evaluation.exec rounds depth) body) :=
    Loop.sequence_simulates body fun step hs =>
      h.2 step ((Fragment.reading seen).statement_step hn (hb step hs))
  cases node with
  | bind name value =>
    simp only [Evaluation.exec]
    exact .bind (hop value (by simp [Node.operands])) fun result =>
      .bind (agrees_bind name result) fun _ => .pure _
  | print value variant =>
    simp only [Evaluation.exec]
    refine .bind (hop value (by simp [Node.operands])) fun result => ?_
    cases result with
    | none => exact .pure _
    | _ => exact .bind (agrees_write _) fun _ => .pure _
  | ifThen cond body =>
    simp only [Evaluation.exec, Loop.sequence_machine]
    exact .bind (hop cond (by simp [Node.operands])) fun _ =>
      .ite (hbody body (by simp [Node.steps])) (.pure _)
  | ifElse cond body other =>
    simp only [Evaluation.exec, Loop.sequence_machine]
    exact .bind (hop cond (by simp [Node.operands])) fun _ =>
      .ite (hbody body (by simp +contextual [Node.steps]))
        (hbody other (by simp +contextual [Node.steps]))
  | whileLoop cond body =>
    simp only [Evaluation.exec, Loop.sequence_machine, Loop.whileRounds_machine]
    exact Loop.whileRounds_simulates rounds (fun _ _ hm => hm)
      (hop cond (by simp [Node.operands])) (hbody body (by simp [Node.steps]))
  | forLoop counter start stop body =>
    simp only [Evaluation.exec, Loop.sequence_machine, Loop.forRounds_machine]
    refine .bind (hop start (by simp [Node.operands])) fun low =>
      .bind (agrees_number low _) fun first =>
        .bind (hop stop (by simp [Node.operands])) fun high =>
          .bind (agrees_number high _) fun last => ?_
    exact Loop.forRounds_simulates rounds first (fun _ _ hm => hm)
      (fun x => agrees_bind counter (.number x)) (hbody body (by simp [Node.steps]))
  | function name params body =>
    simp only [Evaluation.exec]
    exact .bind (agrees_register hn) fun _ => .pure _
  | ret value =>
    simp only [Evaluation.exec]
    exact .bind (hop value (by simp [Node.operands])) fun _ => .pure _
  | _ =>
    simp only [Evaluation.exec]
    exact .bind (h.1 _ ((Fragment.reading seen).statement_bare hn rfl)) fun _ => .pure _

/-- The induction is on the depth, for both activities at once. -/
theorem agreeAt (seen : String → Prop) (rounds depth : Nat) : AgreeAt seen rounds depth := by
  induction depth with
  | zero =>
    constructor
    · intro node _
      simp only [Evaluation.eval]
      exact .throw fun _ _ hm => hm
    · intro node _
      simp only [Evaluation.exec]
      exact .throw fun _ _ hm => hm
  | succ depth ih =>
    exact ⟨fun node hn => eval_agrees_succ ih hn, fun node hn => exec_agrees_succ ih hn⟩

theorem body_agrees {body : List Node}
    (h : ∀ node ∈ body, (Fragment.reading seen).statement node) :
    Agrees seen (Evaluation.sequence (Evaluation.exec rounds depth) body) := by
  rw [Loop.sequence_machine]
  exact Loop.sequence_simulates body fun node hn => (agreeAt seen rounds depth).2 node (h node hn)

theorem hoist_agrees {program : List Node}
    (h : ∀ node ∈ program, (Fragment.reading seen).statement node) :
    Agrees seen (Evaluation.hoist program) := by
  induction program with
  | nil => exact .pure _
  | cons node rest ih =>
    have hrest := ih fun other ho => h other (List.mem_cons_of_mem _ ho)
    cases node with
    | function name params body =>
      exact .bind (agrees_register (h _ List.mem_cons_self)) fun _ => hrest
    | _ => exact hrest

theorem run_agrees {program : List Node}
    (h : ∀ node ∈ program, (Fragment.reading seen).statement node) :
    Agrees seen (Evaluation.run rounds depth program) := by
  refine .bind (hoist_agrees h) fun _ => ?_
  rw [Loop.topLevel_machine]
  exact Loop.topLevel_simulates program fun node hn =>
    (agreeAt seen rounds depth).2 node (h node hn)

end Agrees

/-- From two machines all work on some trees ends alike: the evaluation and the execution of each of
them, and the execution of all of them, as a body and as a program. The results or the failures are
the same, and the machines are alike again. -/
structure Machine.Interchangeable (seen : String → Prop) (rounds depth : Nat) (nodes : List Node)
    (first second : Machine) : Prop where
  eval : ∀ node ∈ nodes, EndAlike (Alike seen) (fun _ => Alike seen)
    (Evaluation.eval rounds depth node) (Evaluation.eval rounds depth node) first second
  exec : ∀ node ∈ nodes, EndAlike (Alike seen) (fun _ => Alike seen)
    (Evaluation.exec rounds depth node) (Evaluation.exec rounds depth node) first second
  body : EndAlike (Alike seen) (fun _ => Alike seen)
    (Evaluation.sequence (Evaluation.exec rounds depth) nodes)
    (Evaluation.sequence (Evaluation.exec rounds depth) nodes) first second
  run : EndAlike (Alike seen) (fun _ => Alike seen)
    (Evaluation.run rounds depth nodes) (Evaluation.run rounds depth nodes) first second

theorem Machine.Alike.interchangeable {seen : String → Prop} {nodes : List Node}
    {first second : Machine} (h : first.Alike seen second)
    (hs : ∀ name, Machine.Consults first.functions nodes name → seen name) (rounds depth : Nat) :
    first.Interchangeable seen rounds depth nodes second := by
  have hnodes : ∀ node ∈ nodes, (Fragment.reading seen).statement node := by
    intro node hn name hr
    exact hs name (.inl (Node.reads_of_mem hn hr))
  have hregistry : (Fragment.reading seen).Registry first.functions := by
    intro key found hf step hstep name hr
    exact hs name (.inr ⟨key, found, hf, Node.reads_of_mem hstep hr⟩)
  have hend {α : Type} {activity : RunM α} (ha : Agrees seen activity) :
      EndAlike (Machine.Alike seen) (fun _ => Machine.Alike seen) activity activity first second :=
    (ha first second ⟨h, hregistry⟩).mono (fun _ _ hm => hm.1) (fun _ _ _ hm => hm.1)
  have hat := agreeAt seen rounds depth
  exact ⟨fun node hn => hend (hat.1 node (hnodes node hn)),
    fun node hn => hend (hat.2 node (hnodes node hn)), hend (body_agrees hnodes),
    hend (run_agrees hnodes)⟩

/-- The entries of a table, over those of another one. -/
def Table.over {α : Type} (upper lower : Table α) : Table α :=
  upper.entries.foldr (fun entry table => table.insert entry.1 entry.2) lower

theorem Table.find?_over {α : Type} (upper lower : Table α) (name : String) :
    (upper.over lower).find? name = (upper.find? name).or (lower.find? name) := by
  show (upper.entries.foldr _ lower).find? name = (seek name upper.entries).or _
  induction upper.entries with
  | nil => rfl
  | cons entry rest ih =>
    rw [List.foldr_cons, find?_insert, seek]
    by_cases h : name = entry.1
    · simp [h]
    · simpa [h] using ih

/-- The whole stack as one frame, in which the higher frames cover the lower ones. -/
def Frames.collapsed (frames : Frames) : Frames := ⟨frames.toList.foldr Table.over .empty, []⟩

theorem Frames.find?_collapsed (frames : Frames) (name : String) :
    frames.collapsed.find? name = frames.find? name := by
  have hstack (stack : List (Table Value)) :
      (stack.foldr Table.over .empty).find? name = stack.findSome? (·.find? name) := by
    induction stack with
    | nil => rfl
    | cons frame rest ih =>
      rw [List.foldr_cons, Table.find?_over, ih, List.findSome?_cons]
      cases frame.find? name <;> rfl
  calc frames.collapsed.find? name
    _ = [frames.toList.foldr Table.over .empty].findSome? (·.find? name) := rfl
    _ = (frames.toList.foldr Table.over .empty).find? name := List.findSome?_singleton
    _ = frames.find? name := hstack frames.toList

def Machine.collapsed (machine : Machine) : Machine :=
  { machine with frames := machine.frames.collapsed }

/-- Only what is found under names counts. Machines whose stacks, of any heights, agree on the names
that some trees or the functions at hand read are interchangeable for these trees; and so are a
machine and the machine with its stack collapsed to one frame, for all trees. -/
theorem scoping_by_lookup (rounds depth : Nat) (nodes : List Node) :
    (∀ (seen : String → Prop) (first second : Machine),
      (∀ name, Machine.Consults first.functions nodes name → seen name) →
      first.Alike seen second → first.Interchangeable seen rounds depth nodes second) ∧
    ∀ machine : Machine,
      machine.Interchangeable (fun _ => True) rounds depth nodes machine.collapsed := by
  refine ⟨fun seen first second hs h => h.interchangeable hs rounds depth, fun machine => ?_⟩
  have halike : machine.Alike (fun _ => True) machine.collapsed :=
    ⟨rfl, .refl _, fun name _ => (machine.frames.find?_collapsed name).symm⟩
  exact halike.interchangeable (fun _ _ => trivial) rounds depth

/-- The function finds `x` in the only frame of one machine and below the top frame of the other.
They differ in `y`, which nothing reads. -/
theorem scoping_by_lookup_heights :
    let functions := Table.empty.insert "f" ⟨["z"], [.ret (.math "+" (.lookup "x") (.lookup "z"))]⟩
    let world : World := ⟨.empty, "line".toList, fun _ => 0, 0, [], "/"⟩
    let flat : Machine := ⟨⟨.ofList [("x", .text "a"), ("y", .none)], []⟩, functions, world⟩
    let high : Machine := ⟨⟨.empty, [.ofList [("x", .text "a")]]⟩, functions, world⟩
    let program : List Node := [.print (.call "f" [.read]) "explicit", .lookup "z"]
    flat.Alike (· ∈ ["x", "z"]) high ∧ flat.Interchangeable (· ∈ ["x", "z"]) 9 9 program high := by
  intro functions world flat high program
  have halike : flat.Alike (· ∈ ["x", "z"]) high := by
    refine ⟨rfl, .refl _, fun name hn => ?_⟩
    simp only [List.mem_cons, List.not_mem_nil, or_false] at hn
    obtain rfl | rfl := hn <;> rfl
  have hconsulted : ∀ name, Machine.Consults flat.functions program name → name ∈ ["x", "z"] := by
    rintro name (hr | ⟨key, found, hf, hr⟩)
    · simp_all [Node.Reads, Node.subnodesOf, Node.subnodes, program]
    · simp only [flat, functions, Table.find?_insert, Table.find?_empty,
        Option.ite_none_right_eq_some, Option.some.injEq] at hf
      obtain ⟨rfl, rfl⟩ := hf
      simpa [Node.Reads, Node.subnodesOf, Node.subnodes] using hr
  exact ⟨halike, (scoping_by_lookup 9 9 program).1 _ flat high hconsulted halike⟩

end PrefixScript
