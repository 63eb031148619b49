import Mathlib
import PrefixScript.Proofs.ArityAgreement
import PrefixScript.Proofs.Observation
import PrefixScript.Proofs.ScannedTokens

/-!
# When a function can be called

A call is parsed if a function of its name is declared anywhere, but the function can be called only
once its declaration was executed, or from the start if it stands at the top of the program. At
every moment of a run a name stands for the function that was declared last by then. A name without
a function is found only before the first of its nested declarations is executed.
-/
namespace PrefixScript

/-- The function of a name that is declared last by some statements themselves. -/
def lastAtTop? (program : List Node) (name : String) : Option Declaration :=
  ((program.filterMap Node.declaration?).reverse.find? (·.1 = name)).map (·.2)

/-- All functions of a program are declared at its top. -/
def Node.AllAtTop (program : List Node) : Prop :=
  ∀ name params body, Node.function name params body ∈ Node.subnodesOf program →
    Node.function name params body ∈ program

/-- At every moment and at the end, a name can be called as the function that was declared last by
then, or else as the last one at the top of the program. A name that can be called can be called
from then on. -/
def Watched.Accounted (program : List Node) (final : Watched) : Prop :=
  (∀ name, final.machine.functions.find? name =
    (lastExecuted? final.past name).or (lastAtTop? program name)) ∧
  ∀ later moment earlier, final.past = later ++ moment :: earlier →
    (∀ name, moment.machine.functions.find? name =
      (lastExecuted? earlier name).or (lastAtTop? program name)) ∧
    ∀ name, moment.machine.functions.contains name →
      final.machine.functions.contains name ∧
        ∀ next ∈ later, next.machine.functions.contains name

theorem find?_hoisted_empty (program : List Node) (name : String) :
    (hoisted .empty program).find? name = lastAtTop? program name := by
  rw [hoisted, Table.find?_foldl_insert, Table.find?_empty, Option.or_none, lastAtTop?]

/-- No entry is found under a name only if no entry has it. -/
theorem map_find?_name_eq_none {entries : List (String × Declaration)} {name : String} :
    (entries.find? (·.1 = name)).map (·.2) = none ↔ ∀ found, (name, found) ∉ entries := by
  rw [Option.map_eq_none_iff, List.find?_eq_none]
  constructor
  · intro h found hm
    exact h (name, found) hm (by simp)
  · rintro h ⟨key, found⟩ hm hk
    have hk : key = name := by simpa using hk
    exact h found (hk ▸ hm)

theorem lastExecuted?_eq_none {past : List Moment} {name : String} :
    lastExecuted? past name = none ↔
      ∀ moment ∈ past, ∀ params body, moment.task ≠ .executing (.function name params body) := by
  rw [lastExecuted?, map_find?_name_eq_none]
  constructor
  · intro h moment hm params body ht
    exact h ⟨params, body⟩ (List.mem_filterMap.2 ⟨moment, hm, by rw [ht]; rfl⟩)
  · intro h found hf
    obtain ⟨moment, hm, hd⟩ := List.mem_filterMap.1 hf
    cases ht : moment.task with
    | evaluating node =>
      rw [ht] at hd
      cases hd
    | executing node =>
      rw [ht] at hd
      cases node <;> simp only [Task.declaration?, Node.declaration?, reduceCtorEq] at hd
      cases hd
      exact h moment hm _ _ ht

theorem lastAtTop?_eq_none {program : List Node} {name : String} :
    lastAtTop? program name = none ↔ ∀ params body, Node.function name params body ∉ program := by
  rw [lastAtTop?, map_find?_name_eq_none]
  simp only [List.mem_reverse]
  constructor
  · intro h params body hm
    exact h ⟨params, body⟩ (List.mem_filterMap.2 ⟨_, hm, rfl⟩)
  · intro h found hf
    obtain ⟨node, hm, hd⟩ := List.mem_filterMap.1 hf
    cases node <;> simp only [Node.declaration?, reduceCtorEq] at hd
    cases hd
    exact h _ _ hm

/-- What was declared stays declared, whatever happens later. -/
theorem isSome_callable?_append {base : Table Declaration} {past : List Moment} {name : String}
    (h : (callable? base past name).isSome) (later : List Moment) :
    (callable? base (later ++ past) name).isSome := by
  simp only [callable?, lastExecuted?, List.filterMap_append, List.find?_append, Option.map_or,
    Option.or_assoc] at h ⊢
  rw [Option.isSome_or, h, Bool.or_true]

/-- What is observed of a run on a new machine accounts for all functions. -/
theorem Watched.Sound.accounted {fragment : Fragment} {program : List Node} {final : Watched}
    (h : final.Sound fragment (hoisted .empty program)) : final.Accounted program := by
  refine ⟨fun name => ?_, fun later moment earlier he => ⟨fun name => ?_, fun name hc => ⟨?_, ?_⟩⟩⟩
  · rw [h.current, callable?, find?_hoisted_empty]
  · rw [(h.moments later moment earlier he).2, callable?, find?_hoisted_empty]
  all_goals rw [Table.contains, (h.moments later moment earlier he).2] at hc
  · rw [Table.contains, h.current, he, List.append_cons]
    exact isSome_callable?_append hc (later ++ [moment])
  · intro next hn
    obtain ⟨front, back, rfl⟩ := List.append_of_mem hn
    have hsplit : final.past = front ++ next :: (back ++ moment :: earlier) := by
      rw [he, List.append_assoc, List.cons_append]
    rw [Table.contains, (h.moments front next _ hsplit).2, List.append_cons]
    exact isSome_callable?_append hc (back ++ [moment])

/-- In the nodes of a program only a call finds a function missing. -/
theorem Fragment.Blames.exists_call {program : List Node} {functions : Table Declaration}
    {fault : Fault} (h : (Fragment.ofTrees program).Blames functions (.fault fault))
    (hc : fault.diagnostic.category = .undefinedFunction) :
    ∃ name args, Node.call name args ∈ Node.subnodesOf program ∧
      fault = .undefinedFunction name (.call name args) ∧ functions.find? name = none := by
  obtain ⟨node, ⟨hn, hr⟩ | ⟨-, text, rfl⟩⟩ := h fault rfl
  · cases hr with
    | undefinedFunction hf => exact ⟨_, _, hn, rfl, hf⟩
    | _ => cases hc
  · cases hc

/-- At every moment of a run of a source, what a name can be called as is accounted for. A function
is found missing only if it is declared in the program, but not at the top, and none of its
declarations was executed before; so never where all functions are declared at the top. -/
theorem functions_accounted {directory source : String} {path : Option String}
    {host assembled : Host} {tokens rest : List Token} {nesting : Nat} {program : List Node}
    (ht : Host.tokenize directory path source host = .ok tokens assembled)
    (hp : Parse.tokens nesting tokens = .ok program rest) (rounds depth : Nat) (world : World) :
    Ends (Watched.run rounds depth program) (.start (.start world))
      (fun _ final => Evaluation.run rounds depth program (.start world) = .ok () final.machine ∧
        final.Accounted program)
      (fun failure final =>
        Evaluation.run rounds depth program (.start world) = .error failure final.machine ∧
        final.Accounted program ∧
        ∀ fault, failure = .fault fault → fault.diagnostic.category = .undefinedFunction →
          ¬ Node.AllAtTop program ∧ ∃ name site, fault = .undefinedFunction name site ∧
            (∃ params body, Node.function name params body ∈ Node.subnodesOf program) ∧
            (∀ params body, Node.function name params body ∉ program) ∧
            ∀ moment ∈ final.past, ∀ params body,
              moment.task ≠ .executing (.function name params body)) := by
  obtain ⟨front, rfl, hscanned⟩ := Host.tokenize_eq ht
  have hfront : ∀ token ∈ front, token.kind ≠ .ending :=
    fun token hm => (hscanned token hm).kind_ne_ending
  obtain ⟨hd, -⟩ := Parse.derives_of_tokens_ok hfront rfl hp
  have hregistry : (Fragment.ofTrees program).Registry (Machine.start world).functions := by
    intro name found hf
    cases hf
  have hrun := Watched.run_traced hregistry
    (fun node hn => Node.mem_subnodesOf.2 ⟨node, hn, node.self_mem_subnodes⟩) rounds depth
  refine hrun.mono (fun _ final h => ⟨h.1, h.2.accounted⟩) ?_
  rintro failure final ⟨he, hs, hb⟩
  refine ⟨he, hs.accounted, ?_⟩
  rintro fault rfl hc
  obtain ⟨name, args, hcall, rfl, hnone⟩ := hb.exists_call hc
  obtain ⟨found, hfound, -⟩ := hd.exists_lastDeclared rfl hcall
  have hdeclared := Node.mem_declarations.1 (Node.mem_of_lastDeclared? hfound)
  rw [hs.accounted.1, Option.or_eq_none_iff, lastExecuted?_eq_none, lastAtTop?_eq_none] at hnone
  refine ⟨fun htop => ?_, name, _, rfl, ⟨_, _, hdeclared⟩, hnone.2, hnone.1⟩
  exact hnone.2 _ _ (htop _ _ _ hdeclared)

/-- There is nothing to read, so the declaration in the body is not executed, and `f` is missing. -/
theorem functions_accounted_deferred :
    ∃ final,
      Watched.run 9 9 [.ifThen .read [.function "f" [] []], .print (.call "f" []) "implicit"]
        (.start (.start ⟨.empty, [], fun _ => 0, 0, [], "/"⟩)) =
        .error (.fault (.undefinedFunction "f" (.call "f" []))) final ∧
      final.Accounted [.ifThen .read [.function "f" [] []], .print (.call "f" []) "implicit"] ∧
      ∀ moment ∈ final.past, ∀ params body,
        moment.task ≠ .executing (.function "f" params body) := by
  have ht : Host.tokenize "/" none "if read \x7b function f() \x7b \x7d \x7d f"
      (.start ⟨.empty, [], fun _ => 0, 0, [], "/"⟩ true) =
      .ok [⟨.ifWord, "if"⟩, ⟨.read, "read"⟩, ⟨.leftBrace, "\x7b"⟩, ⟨.functionWord, "function"⟩,
        ⟨.identifier, "f"⟩, ⟨.leftParen, "("⟩, ⟨.rightParen, ")"⟩, ⟨.leftBrace, "\x7b"⟩,
        ⟨.rightBrace, "\x7d"⟩, ⟨.rightBrace, "\x7d"⟩, ⟨.identifier, "f"⟩, .ending]
        (.start ⟨.empty, [], fun _ => 0, 0, [], "/"⟩ true) := by
    cbv
  have hp : Parse.tokens 8
      [⟨.ifWord, "if"⟩, ⟨.read, "read"⟩, ⟨.leftBrace, "\x7b"⟩, ⟨.functionWord, "function"⟩,
        ⟨.identifier, "f"⟩, ⟨.leftParen, "("⟩, ⟨.rightParen, ")"⟩, ⟨.leftBrace, "\x7b"⟩,
        ⟨.rightBrace, "\x7d"⟩, ⟨.rightBrace, "\x7d"⟩, ⟨.identifier, "f"⟩, .ending] =
      .ok [.ifThen .read [.function "f" [] []], .print (.call "f" []) "implicit"] [.ending] := by
    rfl
  have hends := functions_accounted ht hp 9 9 ⟨.empty, [], fun _ => 0, 0, [], "/"⟩
  obtain ⟨final, hf⟩ : ∃ final,
      Watched.run 9 9 [.ifThen .read [.function "f" [] []], .print (.call "f" []) "implicit"]
        (.start (.start ⟨.empty, [], fun _ => 0, 0, [], "/"⟩)) =
        .error (.fault (.undefinedFunction "f" (.call "f" []))) final := ⟨_, rfl⟩
  obtain ⟨-, haccounted, hmissing⟩ := hends.of_error hf
  obtain ⟨-, name, site, hname, -, -, hexecuted⟩ := hmissing _ rfl rfl
  cases hname
  exact ⟨final, hf, haccounted, hexecuted⟩

end PrefixScript
