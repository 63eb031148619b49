import PrefixScript.Program
import PrefixScript.Proofs.GrammarCompleteness

/-!
# The parser accepts exactly the grammar

Soundness and completeness together: where the parser may go down deeply enough, it accepts just the
token lists that are written as the grammar says, and refuses the others for a syntax error. How
deep it has to go for a list is bounded by the number of tokens. At any other depth it does the same
or finds the nesting too deep. Since it finds one tree, there is only one.
-/
namespace PrefixScript.Parse

section Whole
variable {arities : Arities} {depth : Nat} {front after left : List Token} {last : Token}
  {nodes others : List Node}

/-- A derived program is read as its tree, unless it is nested too deeply. -/
theorem program_of_derives (depth : Nat) (hl : last.kind = .ending)
    (h : Derives arities (.statements nodes) front) :
    program arities (front ++ [last]).length depth (front ++ [last]) = .ok nodes [last] ∨
      ∃ left, program arities (front ++ [last]).length depth (front ++ [last]) =
        .error .tooDeep left := by
  have hlen : (front ++ [last]).length = front.length + 1 := by simp
  have ha := accepted_of_derives h (front ++ [last]).length depth (front ++ [last]).length []
    last [] (by omega) (by omega) (.inr hl)
  rw [hl] at ha
  cases hp : program arities (front ++ [last]).length depth (front ++ [last]) with
  | ok found rest =>
    obtain ⟨rfl, rfl⟩ := Ends.of_ok ha hp
    exact .inl rfl
  | error failure rest =>
    obtain rfl := Ends.of_error ha hp
    exact .inr ⟨rest, rfl⟩

section UpTo
variable {α : Type} {stop : Kind} {item : ParseM α} {rounds : Nat} {before : List α}
  {token : Token} {rest : List Token}

theorem upTo_of_ok {a : α} (hk : token.kind ≠ stop) (h : item (token :: rest) = .ok a left) :
    upTo stop item (rounds + 1) before (token :: rest) =
      upTo stop item rounds (a :: before) left := by
  change (if token.kind = stop then _ else item >>= _ : ParseM (List α)) (token :: rest) = _
  rw [if_neg hk, bind_of_ok h]

theorem upTo_of_error {failure : Failure} (hk : token.kind ≠ stop)
    (h : item (token :: rest) = .error failure left) :
    upTo stop item (rounds + 1) before (token :: rest) = .error failure left := by
  change (if token.kind = stop then _ else item >>= _ : ParseM (List α)) (token :: rest) = _
  rw [if_neg hk]
  exact bind_of_error h

theorem upTo_of_stop (hk : token.kind = stop) :
    upTo stop item (rounds + 1) before (token :: rest) = .ok before.reverse (token :: rest) := by
  change (if token.kind = stop then _ else _ : ParseM (List α)) (token :: rest) = _
  rw [if_pos hk]
  rfl

end UpTo

/-- One statement is a program. -/
theorem program_of_statement {token : Token} {rest : List Token} {node : Node}
    (hk : token.kind ≠ .ending) (hl : last.kind = .ending)
    (h : ∀ rounds, statement arities rounds depth (token :: (rest ++ [last])) = .ok node [last]) :
    program arities (token :: (rest ++ [last])).length depth (token :: (rest ++ [last])) =
      .ok [node] [last] := by
  have hlength : (token :: (rest ++ [last])).length = rest.length + 2 := by simp
  rw [program, hlength, upTo_of_ok hk (h _), upTo_of_stop hl]
  rfl

/-- One token that is a literal is a program that prints its value. -/
theorem tokens_of_literal {token : Token} {value : Value}
    (hk : token.kind = .number ∨ token.kind = .string)
    (h : ∀ arities depth rest,
      expression arities (depth + 1) (token :: rest) = .ok (.literal value) rest) (depth : Nat) :
    tokens (depth + 2) [token, .ending] = .ok [.print (.literal value) "implicit"] [.ending] := by
  have hopens : token.kind.opensOther = false ∧ token.kind ≠ .pause ∧ token.kind ≠ .wipe ∧
      token.kind ≠ .ending := by
    rcases hk with hk | hk <;> rw [hk] <;> decide
  obtain ⟨ho, hp, hw, hne⟩ := hopens
  refine @program_of_statement _ _ .ending token [] _ hne rfl fun rounds => ?_
  rw [statement_implicit ho hp hw]
  exact bind_of_ok (h _ _ _)

/-- A depth at which some tokens cannot be nested too deeply. -/
def ample (front : List Token) : Nat := 4 * front.length + 3

theorem lt_ample_of_tooDeep (hl : last.kind = .ending)
    (h : program arities (front ++ last :: after).length depth (front ++ last :: after) =
      .error .tooDeep left) : depth < ample front := by
  obtain ⟨used, ht, hrefused⟩ := (program_reads depth (front ++ last :: after)).of_error h
  obtain ⟨more, rfl, -⟩ := ht.exists_front hl
  cases hrefused with
  | tooDeep hshort =>
    unfold Short at hshort
    rw [ample, List.length_append]
    omega

/-- Where the depth is ample a derived program is read as its tree. -/
theorem program_of_derives_of_ample (hl : last.kind = .ending)
    (h : Derives arities (.statements nodes) front) (hd : ample front ≤ depth) :
    program arities (front ++ [last]).length depth (front ++ [last]) = .ok nodes [last] := by
  refine (program_of_derives depth hl h).resolve_right ?_
  rintro ⟨left, hdeep⟩
  exact absurd (lt_ample_of_tooDeep hl hdeep) (Nat.not_lt.2 hd)

/-- The tree of a list is found at an ample depth, and one tree is found. -/
theorem derives_unique (hl : last.kind = .ending)
    (h : Derives (.ofTokens (front ++ [last])) (.statements nodes) front)
    (k : Derives (.ofTokens (front ++ [last])) (.statements others) front) : nodes = others := by
  have he := (program_of_derives_of_ample hl h (Nat.le_refl _)).symm.trans
    (program_of_derives_of_ample hl k (Nat.le_refl _))
  exact (EStateM.Result.ok.inj he).1

/-- A list with an ending token in which numbers are numerals is refused before that token or at it,
for a syntax error or for its nesting. -/
theorem tokens_stops (hl : last.kind = .ending)
    (hn : ∀ token ∈ front, token.kind = .number → Decimal.isNumeral token.lexeme.toList = true)
    {failure : Failure} (h : tokens depth (front ++ last :: after) = .error failure left) :
    ∃ used more, front = used ++ more ∧ left = more ++ last :: after ∧
      ((∃ fault, failure = .fault fault ∧ BlamesNext fault left) ∨ failure = .tooDeep) := by
  obtain ⟨used, ht, hrefused⟩ := (program_reads depth (front ++ last :: after)).of_error h
  obtain ⟨more, rfl, hleft⟩ := ht.exists_front hl
  refine ⟨used, more, rfl, hleft, ?_⟩
  rcases hrefused.causes (by simp [hleft]) with hfault | ⟨token, hm, hk, hv⟩ | hdeep
  · exact .inl hfault
  · have hnumeral := hn token (List.mem_append_left more hm) hk
    simp [Decimal.writtenValue?, hnumeral] at hv
  · exact .inr hdeep

/-- Why a list is refused: it is not written as the grammar says, or it is nested too deeply. -/
theorem tokens_refused (hl : last.kind = .ending)
    (hn : ∀ token ∈ front, token.kind = .number → Decimal.isNumeral token.lexeme.toList = true)
    {failure : Failure} (h : tokens depth (front ++ [last]) = .error failure left) :
    (∃ fault, failure = .fault fault ∧ fault.diagnostic.category = .syntactic ∧
      ∀ nodes, ¬ Derives (.ofTokens (front ++ [last])) (.statements nodes) front) ∨
    failure = .tooDeep := by
  obtain ⟨-, -, -, -, ⟨fault, rfl, hblames⟩ | hdeep⟩ := tokens_stops hl hn h
  · refine .inl ⟨fault, rfl, hblames.1, fun nodes hd => ?_⟩
    rcases program_of_derives depth hl hd with hok | ⟨left, hdeep⟩
    · cases h.symm.trans hok
    · cases h.symm.trans hdeep
  · exact .inr hdeep

/-- A list without an ending token before its last one, in which numbers are numerals, has at most
one tree. Wherever the parser may go down deeply enough for the list, it returns the tree, and if
there is none it finds a syntax error. At every depth it returns nothing but the tree, and finds a
syntax error only if there is none. Otherwise the nesting is too deep. -/
theorem tokens_ok_iff_derives (hf : ∀ token ∈ front, token.kind ≠ .ending)
    (hl : last.kind = .ending)
    (hn : ∀ token ∈ front, token.kind = .number → Decimal.isNumeral token.lexeme.toList = true) :
    (∀ nodes others, Derives (.ofTokens (front ++ [last])) (.statements nodes) front →
      Derives (.ofTokens (front ++ [last])) (.statements others) front → nodes = others) ∧
    (∃ enough, ∀ depth, enough ≤ depth →
      (∀ nodes, (∃ rest, tokens depth (front ++ [last]) = .ok nodes rest) ↔
        Derives (.ofTokens (front ++ [last])) (.statements nodes) front) ∧
      ((∀ nodes, ¬ Derives (.ofTokens (front ++ [last])) (.statements nodes) front) →
        ∃ fault left, tokens depth (front ++ [last]) = .error (.fault fault) left ∧
          fault.diagnostic.category = .syntactic)) ∧
    ∀ depth,
      (∀ nodes rest, tokens depth (front ++ [last]) = .ok nodes rest →
        Derives (.ofTokens (front ++ [last])) (.statements nodes) front) ∧
      ∀ failure left, tokens depth (front ++ [last]) = .error failure left →
        (∃ fault, failure = .fault fault ∧ fault.diagnostic.category = .syntactic ∧
          ∀ nodes, ¬ Derives (.ofTokens (front ++ [last])) (.statements nodes) front) ∨
        failure = .tooDeep := by
  have hsound {depth : Nat} {nodes : List Node} {rest : List Token}
      (h : tokens depth (front ++ [last]) = .ok nodes rest) :
      Derives (.ofTokens (front ++ [last])) (.statements nodes) front :=
    (derives_of_tokens_ok hf hl h).1
  refine ⟨fun nodes others => derives_unique hl,
    ⟨ample front, fun depth hd => ⟨fun nodes => ?_, ?_⟩⟩,
    fun depth => ⟨fun nodes rest => hsound, fun failure left => tokens_refused hl hn⟩⟩
  · exact ⟨fun ⟨rest, h⟩ => hsound h, fun h => ⟨[last], program_of_derives_of_ample hl h hd⟩⟩
  · intro hnone
    cases hp : tokens depth (front ++ [last]) with
    | ok nodes rest => exact absurd (hsound hp) (hnone nodes)
    | error failure left =>
      rcases tokens_refused hl hn hp with ⟨fault, rfl, hcategory, -⟩ | rfl
      · exact ⟨fault, left, rfl, hcategory⟩
      · exact absurd (lt_ample_of_tooDeep hl hp) (Nat.not_lt.2 hd)

/-- An `else` belongs to the nearest `if`, and to no other. -/
theorem else_belongs_to_nearest_if :
    Derives (.ofTokens [⟨.ifWord, "if"⟩, ⟨.identifier, "a"⟩, ⟨.ifWord, "if"⟩, ⟨.identifier, "b"⟩,
        ⟨.number, "1"⟩, ⟨.elseWord, "else"⟩, ⟨.wipe, "wipe"⟩, .ending])
      (.statements [.ifThen (.lookup "a") [.ifElse (.lookup "b")
        [.print (.literal (.number (Decimal.numeralValue ['1']))) "implicit"] [.wipe]]])
      [⟨.ifWord, "if"⟩, ⟨.identifier, "a"⟩, ⟨.ifWord, "if"⟩, ⟨.identifier, "b"⟩,
        ⟨.number, "1"⟩, ⟨.elseWord, "else"⟩, ⟨.wipe, "wipe"⟩] ∧
    ¬ Derives (.ofTokens [⟨.ifWord, "if"⟩, ⟨.identifier, "a"⟩, ⟨.ifWord, "if"⟩,
        ⟨.identifier, "b"⟩, ⟨.number, "1"⟩, ⟨.elseWord, "else"⟩, ⟨.wipe, "wipe"⟩, .ending])
      (.statements [.ifElse (.lookup "a") [.ifThen (.lookup "b")
        [.print (.literal (.number (Decimal.numeralValue ['1']))) "implicit"]] [.wipe]])
      [⟨.ifWord, "if"⟩, ⟨.identifier, "a"⟩, ⟨.ifWord, "if"⟩, ⟨.identifier, "b"⟩,
        ⟨.number, "1"⟩, ⟨.elseWord, "else"⟩, ⟨.wipe, "wipe"⟩] := by
  obtain ⟨hunique, -, hall⟩ := @tokens_ok_iff_derives
    [⟨.ifWord, "if"⟩, ⟨.identifier, "a"⟩, ⟨.ifWord, "if"⟩, ⟨.identifier, "b"⟩, ⟨.number, "1"⟩,
      ⟨.elseWord, "else"⟩, ⟨.wipe, "wipe"⟩] .ending (by decide) rfl (by decide)
  have h := (hall 9).1 _ _ rfl
  refine ⟨h, fun k => ?_⟩
  cases hunique _ _ h k

/-- Operators that wait for their operands are nested one inside the other. -/
theorem expression_operators_tooDeep {arities : Arities} {rest : List Token} (depth count : Nat)
    (hd : depth ≤ count) :
    ∃ left, expression arities depth (List.replicate count ⟨.minus, "-"⟩ ++ rest) =
      .error .tooDeep left := by
  induction depth generalizing count with
  | zero => exact ⟨_, rfl⟩
  | succ depth ih =>
    cases count with
    | zero => omega
    | succ count =>
      obtain ⟨left, h⟩ := ih count (by omega)
      rw [List.replicate_succ, List.cons_append, expression_math (by simp), bind_of_error h]
      exact ⟨left, rfl⟩

theorem tokens_operators_tooDeep (depth count : Nat) (hd : depth ≤ count + 1) :
    ∃ left, tokens (depth + 1) (List.replicate (count + 1) ⟨.minus, "-"⟩ ++ [.ending]) =
      .error .tooDeep left := by
  obtain ⟨left, h⟩ := @expression_operators_tooDeep
    (.ofTokens (List.replicate (count + 1) ⟨.minus, "-"⟩ ++ [.ending])) [.ending] depth (count + 1)
    hd
  rw [List.replicate_succ, List.cons_append] at h ⊢
  refine ⟨left, upTo_of_error (by decide) ?_⟩
  rw [statement_implicit rfl (by decide) (by decide)]
  exact bind_of_error h

/-- The depth is a limit of the parser that the grammar does not have: here it is neither a tree nor
a syntax error that is found. -/
theorem operators_refused_without_syntax_error :
    ¬ ((∀ nodes,
        (∃ rest, tokens Limits.standard.nesting
          (List.replicate 20000 ⟨.minus, "-"⟩ ++ [.ending]) = .ok nodes rest) ↔
        Derives (.ofTokens (List.replicate 20000 ⟨.minus, "-"⟩ ++ [.ending])) (.statements nodes)
          (List.replicate 20000 ⟨.minus, "-"⟩)) ∧
      ((∀ nodes, ¬ Derives (.ofTokens (List.replicate 20000 ⟨.minus, "-"⟩ ++ [.ending]))
          (.statements nodes) (List.replicate 20000 ⟨.minus, "-"⟩)) →
        ∃ fault left, tokens Limits.standard.nesting
          (List.replicate 20000 ⟨.minus, "-"⟩ ++ [.ending]) = .error (.fault fault) left ∧
          fault.diagnostic.category = .syntactic)) := by
  obtain ⟨left, h⟩ := tokens_operators_tooDeep 14999 19999 (by decide)
  have hdeep : tokens Limits.standard.nesting
      (List.replicate 20000 ⟨.minus, "-"⟩ ++ [.ending]) = .error .tooDeep left := h
  rintro ⟨hok, herror⟩
  rw [hdeep] at hok herror
  obtain ⟨fault, left, he, -⟩ := herror fun nodes hd => by
    obtain ⟨rest, he⟩ := (hok nodes).2 hd
    cases he
  cases he

end Whole

end PrefixScript.Parse
