import PrefixScript.Proofs.Discipline
import PrefixScript.Proofs.Observation

/-!
# The place of a declaration

The functions at the top of a program are registered before anything is executed. If the name of one
of them is declared nowhere else, its function is the one registered under that name throughout the
run, whatever is called and repeated in between. Executing the declaration then registers what is
registered already, so the declaration may stand anywhere at the top.
-/
namespace PrefixScript

namespace Table
variable {α : Type}

theorem insert_comm (table : Table α) {first second : String} (h : first ≠ second) (a b : α) :
    (table.insert first a).insert second b = (table.insert second b).insert first a := by
  refine ext_find? fun name => ?_
  simp only [find?_insert]
  by_cases hf : name = first
  · simp [hf, h]
  · simp [hf]

/-- To set what is set already changes nothing. -/
theorem insert_of_find? {table : Table α} {name : String} {value : α}
    (h : table.find? name = some value) : table.insert name value = table := by
  refine ext_find? fun key => ?_
  rw [find?_insert]
  split
  · rename_i hk
    rw [hk, h]
  · rfl

/-- A name that is set stays set. -/
theorem isSome_find?_insert {table : Table α} {name : String} (h : (table.find? name).isSome)
    (key : String) (value : α) : ((table.insert key value).find? name).isSome := by
  rw [find?_insert]
  split
  · rfl
  · exact h

theorem foldl_insert_comm (table : Table α) {name : String} (value : α)
    {pairs : List (String × α)} (h : ∀ pair ∈ pairs, name ≠ pair.1) :
    pairs.foldl (fun table pair => table.insert pair.1 pair.2) (table.insert name value) =
      (pairs.foldl (fun table pair => table.insert pair.1 pair.2) table).insert name value := by
  induction pairs generalizing table with
  | nil => rfl
  | cons pair rest ih =>
    obtain ⟨hpair, hrest⟩ := List.forall_mem_cons.1 h
    rw [List.foldl_cons, List.foldl_cons, insert_comm table hpair, ih _ hrest]

end Table

section Places
variable {name : String} {params : List String} {body front back : List Node}

/-- What is declared at the top of some trees is declared in them. -/
theorem Node.mem_declarations_of_top {nodes : List Node} {entry : String × Declaration}
    (h : entry ∈ nodes.filterMap Node.declaration?) : entry ∈ Node.declarations nodes := by
  obtain ⟨node, hn, hd⟩ := List.mem_filterMap.1 h
  exact List.mem_filterMap.2 ⟨node, mem_subnodesOf.2 ⟨node, hn, node.self_mem_subnodes⟩, hd⟩

/-- A function is registered as if its declaration came last, if its name is not declared behind
it. -/
theorem hoisted_between (functions : Table Declaration)
    (h : ∀ found, (name, found) ∉ Node.declarations back) :
    hoisted functions (front ++ .function name params body :: back) =
      (hoisted functions (front ++ back)).insert name ⟨params, body⟩ := by
  have hback : ∀ entry ∈ back.filterMap Node.declaration?, name ≠ entry.1 := by
    rintro ⟨key, found⟩ hm rfl
    exact h found (Node.mem_declarations_of_top hm)
  simp only [hoisted, List.filterMap_append, List.filterMap_cons, Node.declaration?,
    List.foldl_append, List.foldl_cons]
  exact Table.foldl_insert_comm _ _ hback

end Places

/-- A name that can be called can still be called. -/
def callableLaw (name : String) : Law Failure Machine where
  kept before after :=
    (before.functions.find? name).isSome → (after.functions.find? name).isSome
  failed _ _ _ := True
  refl _ h := h
  trans h h' hc := h' (h hc)
  failed_of_kept _ _ := trivial

/-- Some trees declare one function only under a name. -/
def DeclaresOnly (trees : List Node) (name : String) (found : Declaration) : Prop :=
  ∀ other, (name, other) ∈ Node.declarations trees → other = found

namespace DeclaresOnly
variable {trees : List Node} {name : String} {found : Declaration}

/-- What some trees run and register, if they declare one function only under a name. -/
def discipline (h : DeclaresOnly trees name found) : Discipline where
  expression node := node ∈ Node.subnodesOf trees
  statement node := node ∈ Node.subnodesOf trees
  registered key other :=
    (key = name → other = found) ∧ ∀ step ∈ other.body, step ∈ Node.subnodesOf trees
  evaluating := callableLaw name
  executing := callableLaw name
  expression_operand := @Node.operand_mem_subnodesOf trees
  statement_operand := @Node.operand_mem_subnodesOf trees
  statement_step := @Node.step_mem_subnodesOf trees
  statement_bare hn _ := hn
  statement_function hn :=
    ⟨fun hk => h _ (Node.mem_declarations.2 (hk ▸ hn)), fun _ => Node.step_mem_subnodesOf hn⟩
  registered_body h := h.2 _
  executing_kept h := h
  executing_failed h := h
  world_kept _ hf hc := hf ▸ hc
  raises_failed _ _ _ := trivial
  tooDeep_failed _ := trivial
  unfinished_failed _ := trivial
  bind_kept _ _ _ h := h
  register_kept _ _ hc := Table.isSome_find?_insert hc _ _
  call_kept h := h
  call_failed h := h

/-- The function can be called, and everything that can be called comes from the trees. -/
def Ready (h : DeclaresOnly trees name found) (machine : Machine) : Prop :=
  h.discipline.Registry machine ∧ (machine.functions.find? name).isSome

variable {h : DeclaresOnly trees name found} {machine : Machine}

/-- The function of the name is the declared one. -/
theorem Ready.find?_eq (hm : h.Ready machine) : machine.functions.find? name = some found := by
  obtain ⟨other, ho⟩ := Option.isSome_iff_exists.1 hm.2
  rw [ho, (hm.1 name other ho).1 rfl]

/-- Executing the declaration again changes nothing. -/
theorem Ready.exec_declaration {params : List String} {body : List Node}
    {h : DeclaresOnly trees name ⟨params, body⟩} (hm : h.Ready machine) (rounds depth : Nat) :
    Evaluation.exec rounds (depth + 1) (.function name params body) machine =
      .ok .normal machine := by
  have hsame := Table.insert_of_find? hm.find?_eq
  rw [Evaluation.exec]
  show EStateM.Result.ok Completion.normal
    { machine with functions := machine.functions.insert name ⟨params, body⟩ } = _
  rw [hsame]

theorem Ready.exec {node : Node} (hm : h.Ready machine) (hn : node ∈ Node.subnodesOf trees)
    (rounds depth : Nat) :
    Ends (Evaluation.exec rounds depth node) machine (fun _ after => h.Ready after)
      fun _ _ => True := by
  have hends := Law.Obeyed.ends ((h.discipline.obeyedAt rounds depth).2 node hn) hm.1
  exact hends.mono (fun _ after ha => ⟨ha.1, ha.2 hm.2⟩) fun _ _ _ => trivial

/-- A declaration is passed over, wherever it stands. The statements before it keep the machine
ready for it. -/
theorem Ready.topLevel_between {params : List String} {body front back : List Node}
    {h : DeclaresOnly trees name ⟨params, body⟩} (hm : h.Ready machine) (hf : front ⊆ trees)
    (rounds depth : Nat) :
    Evaluation.topLevel (Evaluation.exec rounds (depth + 1))
        (front ++ .function name params body :: back) machine =
      Evaluation.topLevel (Evaluation.exec rounds (depth + 1)) (front ++ back) machine := by
  induction front generalizing machine with
  | nil =>
    show (Evaluation.exec rounds (depth + 1) (.function name params body) >>= fun _ =>
      Evaluation.topLevel _ back) machine = _
    rw [bind_of_ok (hm.exec_declaration rounds depth)]
    rfl
  | cons node rest ih =>
    obtain ⟨hnode, hrest⟩ := List.cons_subset.1 hf
    have hends := hm.exec (Node.mem_subnodesOf.2 ⟨node, hnode, node.self_mem_subnodes⟩) rounds
      (depth + 1)
    simp only [List.cons_append, Evaluation.topLevel]
    cases he : Evaluation.exec rounds (depth + 1) node machine with
    | ok completion after =>
      rw [bind_of_ok he, bind_of_ok he]
      exact ih (hends.of_ok he) hrest
    | error failure after => rw [bind_of_error he, bind_of_error he]

end DeclaresOnly

section Places
variable {name : String} {params : List String} {body front back : List Node}

theorem declaresOnly_between
    (h : ∀ found, (name, found) ∉ Node.declarations (front ++ body ++ back)) :
    DeclaresOnly (front ++ .function name params body :: back) name ⟨params, body⟩ := by
  intro other ho
  have hm := Node.mem_declarations.1 ho
  have hn := mt Node.mem_declarations.2 (h other)
  simp only [Node.subnodesOf_append, Node.subnodesOf, Node.subnodes, List.mem_append,
    List.mem_cons] at hm hn
  rcases hm with hm | (hm | hm) | hm
  · exact absurd (.inl (.inl hm)) hn
  · cases hm
    rfl
  · exact absurd (.inl (.inr hm)) hn
  · exact absurd (.inr hm) hn

theorem notMem_declarations_back
    (h : ∀ found, (name, found) ∉ Node.declarations (front ++ body ++ back)) (found : Declaration) :
    (name, found) ∉ Node.declarations back := by
  intro hm
  refine h found (Node.mem_declarations.2 ?_)
  rw [Node.subnodesOf_append]
  exact List.mem_append_right _ (Node.mem_declarations.1 hm)

/-- A program runs as it does without a declaration, on a machine on which the function of that
declaration is registered with the other ones. -/
theorem run_between (h : ∀ found, (name, found) ∉ Node.declarations (front ++ body ++ back))
    (rounds depth : Nat) (world : World) :
    Evaluation.run rounds (depth + 1) (front ++ .function name params body :: back)
        (.start world) =
      Evaluation.topLevel (Evaluation.exec rounds (depth + 1)) (front ++ back)
        ⟨.initial, (hoisted .empty (front ++ back)).insert name ⟨params, body⟩, world⟩ := by
  have honly : DeclaresOnly (front ++ .function name params body :: back) name ⟨params, body⟩ :=
    declaresOnly_between h
  have hhoist := hoist_eq (front ++ .function name params body :: back) (.start world)
  have hobeyed := honly.discipline.hoist_obeyed fun node hn =>
    Node.mem_subnodesOf.2 ⟨node, hn, node.self_mem_subnodes⟩
  have hstart : honly.discipline.Registry (.start world) := fun key found hf => by cases hf
  have hregistry := (Law.Obeyed.ends hobeyed hstart).of_ok hhoist
  rw [hoisted_between _ (notMem_declarations_back h)] at hhoist hregistry
  rw [Evaluation.run, bind_of_ok hhoist]
  have hfound : ((Table.insert (hoisted .empty (front ++ back)) name
      (⟨params, body⟩ : Declaration)).find? name).isSome := by
    rw [Table.find?_insert, if_pos rfl]
    rfl
  have hready : honly.Ready _ := ⟨hregistry.1, hfound⟩
  exact hready.topLevel_between (List.subset_append_left _ _) rounds depth

/-- Without any depth, nothing is done but registering the functions. -/
theorem run_between_zero (h : ∀ found, (name, found) ∉ Node.declarations (front ++ body ++ back))
    (rounds : Nat) (world : World) :
    Evaluation.run rounds 0 (front ++ .function name params body :: back) (.start world) =
      .error .tooDeep
        ⟨.initial, (hoisted .empty (front ++ back)).insert name ⟨params, body⟩, world⟩ := by
  have hhoist := hoist_eq (front ++ .function name params body :: back) (.start world)
  rw [hoisted_between _ (notMem_declarations_back h)] at hhoist
  rw [Evaluation.run, bind_of_ok hhoist]
  cases front with
  | nil => rfl
  | cons node rest => rfl

end Places

/-- A function that is declared at the top of a program may be declared anywhere at the top, if its
name is declared nowhere else, neither in the other statements nor in its own body. On a new machine
the runs are the same: they end alike, or are both unfinished, with the same failure if any, in the
same world and with the same frames and functions. -/
theorem declaration_anywhere {front back front' back' body : List Node} {name : String}
    (hs : front ++ back = front' ++ back')
    (hn : ∀ found, (name, found) ∉ Node.declarations (front ++ body ++ back))
    (params : List String) (rounds depth : Nat) (world : World) :
    Evaluation.run rounds depth (front ++ .function name params body :: back) (.start world) =
      Evaluation.run rounds depth (front' ++ .function name params body :: back')
        (.start world) := by
  have hn' (found : Declaration) : (name, found) ∉ Node.declarations (front' ++ body ++ back') := by
    intro hm
    refine hn found (Node.mem_declarations.2 ?_)
    have hnodes := congrArg Node.subnodesOf hs
    have hdeclared := Node.mem_declarations.1 hm
    simp only [Node.subnodesOf_append] at hnodes hdeclared ⊢
    simp only [List.mem_append, or_right_comm] at hdeclared ⊢
    simpa only [← List.mem_append, hnodes] using hdeclared
  cases depth with
  | succ depth => rw [run_between hn, run_between hn', hs]
  | zero => rw [run_between_zero hn, run_between_zero hn', hs]

/-- A function that is called before its declaration. -/
theorem declaration_anywhere_called :
    let world : World := ⟨.empty, [], fun _ => 0, 0, [], "/"⟩
    let body := [Node.ret (.literal (.text "a"))]
    let call := Node.print (.call "f" []) "print"
    [] ++ [call] = [call] ++ [] ∧
    (∀ found, ("f", found) ∉ Node.declarations ([] ++ body ++ [call])) ∧
    Evaluation.run 1 4 ([] ++ .function "f" [] body :: [call]) (.start world) =
      Evaluation.run 1 4 ([call] ++ .function "f" [] body :: []) (.start world) ∧
    ∃ after, Evaluation.run 1 4 ([call] ++ .function "f" [] body :: []) (.start world) =
      .ok () after ∧ after.world.output = .plain "a\n" := by
  intro world body call
  have hs : [] ++ [call] = [call] ++ [] := rfl
  have hn (found : Declaration) : ("f", found) ∉ Node.declarations ([] ++ body ++ [call]) := by
    rw [show Node.declarations ([] ++ body ++ [call]) = [] from rfl]
    exact List.not_mem_nil
  exact ⟨hs, hn, declaration_anywhere hs hn [] 1 4 world, _, rfl, by rfl⟩

end PrefixScript
