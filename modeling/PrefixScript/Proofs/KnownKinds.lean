import Mathlib
import PrefixScript.Program
import PrefixScript.Proofs.ParsedShape

/-!
# Programs from sources meet known kinds only

A machine may run one source after the other, and go on after a failure. The functions of earlier
sources stay registered, with the frames that a failure left behind. As all of them were parsed,
every node that is ever evaluated is an expression, every node that is ever executed is a statement,
a pause or a wipe, and every operator can be computed. No run fails for the kind of a node.
-/
namespace PrefixScript

/-- A text to be run, with the directory in which its imports are found and the file that holds it,
if there is one. -/
structure Source where
  directory : String
  file : Option String
  text : String

namespace Source

/-- The program of a source. -/
def compile (limits : Limits) (source : Source) : HostM (List Node) := do
  let tokens ← Host.tokenize source.directory source.file source.text
  Host.parse limits tokens

/-- Runs a source on a machine, which may have run others before. -/
def run (limits : Limits) (source : Source) : RunM Unit := fun machine =>
  match source.compile limits (.start machine.world false) with
  | .ok program host =>
    Evaluation.run limits.rounds limits.depth program { machine with world := host.world }
  | .error failure host => .error failure { machine with world := host.world }

theorem run_of_ok {limits : Limits} {source : Source} {machine : Machine} {program : List Node}
    {host : Host} (h : source.compile limits (.start machine.world false) = .ok program host) :
    source.run limits machine =
      Evaluation.run limits.rounds limits.depth program { machine with world := host.world } := by
  simp only [run, h]

theorem run_of_error {limits : Limits} {source : Source} {machine : Machine} {failure : Failure}
    {host : Host} (h : source.compile limits (.start machine.world false) = .error failure host) :
    source.run limits machine = .error failure { machine with world := host.world } := by
  simp only [run, h]

/-- A text that is in no file is such a source. Its imports are found in the working directory. -/
theorem run_text (limits : Limits) (text : String) (machine : Machine) :
    run limits ⟨machine.world.working, none, text⟩ machine =
      Machine.runSource limits text machine := rfl

end Source

/-- The machine after some sources, one after the other, whether they fail or not. -/
def Machine.afterSources (limits : Limits) : List Source → Machine → Machine
  | [], machine => machine
  | source :: rest, machine =>
    match source.run limits machine with
    | .ok _ after => afterSources limits rest after
    | .error _ after => afterSources limits rest after

/-- A task that can be done, as far as the kind of the node goes. -/
def Task.Known : Task → Prop
  | .evaluating node => node.isExpression ∧ node.hasKnownOperator
  | .executing node => node.isStatement ∨ node.isAction

theorem Fragment.known_of_within {task : Task} (h : Fragment.proper.Within task) : task.Known := by
  cases task with
  | evaluating node => exact ⟨h.1, h.2.self.operator⟩
  | executing node => simpa [Task.Known, Node.isExecutable] using h.1

/-- All statements of the program of a source are proper. -/
theorem Source.compile_proper {limits : Limits} {source : Source} {host after : Host}
    {program : List Node} (h : source.compile limits host = .ok program after) :
    ∀ node ∈ program, Fragment.proper.statement node := by
  unfold Source.compile at h
  cases ht : Host.tokenize source.directory source.file source.text host with
  | error failure assembled =>
    rw [bind_of_error ht] at h
    cases h
  | ok tokens assembled =>
    rw [bind_of_ok ht, Host.parse] at h
    obtain ⟨front, rfl, hscanned⟩ := Host.tokenize_eq ht
    cases hp : Parse.tokens limits.nesting (front ++ [Token.ending]) with
    | error failure rest => simp only [hp, reduceCtorEq] at h
    | ok nodes rest =>
      simp only [hp, EStateM.Result.ok.injEq] at h
      obtain ⟨rfl, -⟩ := h
      have hfront : ∀ token ∈ front, token.kind ≠ .ending :=
        fun token hm => (hscanned token hm).kind_ne_ending
      obtain ⟨hd, -⟩ := Parse.derives_of_tokens_ok hfront rfl hp
      intro node hn
      exact ⟨hd.shaped node hn, (hd.proper hscanned).of_mem hn⟩

/-- The functions of a machine stay proper when it runs a source, however the run ends. -/
theorem Source.run_registry (limits : Limits) (source : Source) {machine : Machine}
    (h : Fragment.proper.Registry machine.functions) :
    Ends (source.run limits) machine (fun _ after => Fragment.proper.Registry after.functions)
      (fun _ after => Fragment.proper.Registry after.functions) := by
  unfold Ends
  cases hc : source.compile limits (.start machine.world false) with
  | error failure host =>
    rw [Source.run_of_error hc]
    exact h
  | ok program host =>
    have hmachine : Fragment.proper.Registry { machine with world := host.world }.functions := h
    have hrun := Watched.run_traced hmachine (Source.compile_proper hc) limits.rounds limits.depth
    rw [Source.run_of_ok hc]
    unfold Ends at hrun
    split at hrun
    · rw [hrun.1]
      exact hrun.2.registry
    · rw [hrun.1]
      exact hrun.2.1.registry

theorem Machine.afterSources_registry (limits : Limits) (sources : List Source) {machine : Machine}
    (h : Fragment.proper.Registry machine.functions) :
    Fragment.proper.Registry (machine.afterSources limits sources).functions := by
  induction sources generalizing machine with
  | nil => exact h
  | cons source rest ih =>
    have hkept := Source.run_registry limits source h
    unfold Ends at hkept
    unfold Machine.afterSources
    split at hkept
    · rename_i after he
      rw [he]
      exact ih hkept
    · rename_i after he
      rw [he]
      exact ih hkept

/-- Whatever sources a machine has run before, with whatever end: when it runs one more, it sets out
only to do what it can do, as far as the kinds of nodes and operators go, and the run does not fail
for such a kind. -/
theorem only_known_kinds (limits : Limits) (world : World) (earlier : List Source)
    (source : Source) {program : List Node} {host : Host}
    (hc : source.compile limits
      (.start (Machine.afterSources limits earlier (.start world)).world false) =
        .ok program host) :
    Ends (Watched.run limits.rounds limits.depth program)
      (.start { Machine.afterSources limits earlier (.start world) with world := host.world })
      (fun _ final =>
        source.run limits (Machine.afterSources limits earlier (.start world)) =
          .ok () final.machine ∧
        ∀ moment ∈ final.past, moment.task.Known)
      (fun failure final =>
        source.run limits (Machine.afterSources limits earlier (.start world)) =
          .error failure final.machine ∧
        (∀ moment ∈ final.past, moment.task.Known) ∧
        ∀ fault, failure = .fault fault → fault.diagnostic.category ≠ .malformed) := by
  have hstart : Fragment.proper.Registry (Machine.start world).functions := by
    intro name found hf
    cases hf
  have hregistry := Machine.afterSources_registry limits earlier hstart
  generalize Machine.afterSources limits earlier (.start world) = machine at hc hregistry ⊢
  have hmachine : Fragment.proper.Registry { machine with world := host.world }.functions :=
    hregistry
  rw [Source.run_of_ok hc]
  have hknown {final : Watched} {base : Table Declaration} (hs : final.Sound Fragment.proper base) :
      ∀ moment ∈ final.past, moment.task.Known := by
    intro moment hm
    obtain ⟨later, earlier, he⟩ := List.append_of_mem hm
    exact Fragment.known_of_within (hs.moments later moment earlier he).1
  have htraced := Watched.run_traced hmachine (Source.compile_proper hc) limits.rounds limits.depth
  refine htraced.mono (fun _ final h => ⟨h.1, hknown h.2⟩) ?_
  rintro failure final ⟨he, hs, hb⟩
  refine ⟨he, hknown hs, ?_⟩
  rintro fault rfl
  exact hb.category_ne_malformed

/-- The second source calls the function that the first one declared before it failed. -/
theorem only_known_kinds_after_failure :
    ∃ final : Watched,
      Source.run ⟨9, 9, 9⟩ ⟨"/", none, "f if read function f()\x7b\x7d"⟩
        (Machine.afterSources ⟨9, 9, 9⟩ [⟨"/", none, "function f()\x7bwipe\x7d x"⟩]
          (.start ⟨.empty, [], fun _ => 0, 0, [], "/"⟩)) = .ok () final.machine ∧
      Watched.run 9 9 [.print (.call "f" []) "implicit", .ifThen .read [.function "f" [] []]]
        (.start { Machine.afterSources ⟨9, 9, 9⟩ [⟨"/", none, "function f()\x7bwipe\x7d x"⟩]
          (.start ⟨.empty, [], fun _ => 0, 0, [], "/"⟩) with
            world := ⟨.empty, [], fun _ => 0, 0, [], "/"⟩ }) = .ok () final ∧
      ∀ moment ∈ final.past, moment.task.Known := by
  have hc : Source.compile ⟨9, 9, 9⟩ ⟨"/", none, "f if read function f()\x7b\x7d"⟩
      (.start (Machine.afterSources ⟨9, 9, 9⟩ [⟨"/", none, "function f()\x7bwipe\x7d x"⟩]
        (.start ⟨.empty, [], fun _ => 0, 0, [], "/"⟩)).world false) =
      .ok [.print (.call "f" []) "implicit", .ifThen .read [.function "f" [] []]]
        (.start ⟨.empty, [], fun _ => 0, 0, [], "/"⟩ false) := by
    cbv
  have hok : ∃ result after, Source.run ⟨9, 9, 9⟩ ⟨"/", none, "f if read function f()\x7b\x7d"⟩
      (Machine.afterSources ⟨9, 9, 9⟩ [⟨"/", none, "function f()\x7bwipe\x7d x"⟩]
        (.start ⟨.empty, [], fun _ => 0, 0, [], "/"⟩)) = .ok result after := by
    refine Ends.exists_ok ?_
    cbv
  -- What the second run does need not be computed: it is known whatever was run before.
  generalize ([⟨"/", none, "function f()\x7bwipe\x7d x"⟩] : List Source) = earlier at hc hok ⊢
  have hends := only_known_kinds ⟨9, 9, 9⟩ ⟨.empty, [], fun _ => 0, 0, [], "/"⟩ earlier _ hc
  obtain ⟨result, after, hok⟩ := hok
  unfold Ends at hends
  split at hends
  · rename_i final hw
    exact ⟨final, hends.1, hw, hends.2⟩
  · exact absurd (hok.symm.trans hends.1) (by simp)

end PrefixScript
