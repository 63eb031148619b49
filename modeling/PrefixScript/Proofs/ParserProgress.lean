import PrefixScript.Proofs.GrammarExactness

/-!
# The parser goes forward and stops before the ending token

Each expression and each statement that is read takes tokens, and the ending token is never taken.
So a list that has one is never read past it: its statements are read up to the first ending token,
or the parser stops at a token before it or at it.
-/
namespace PrefixScript.Parse

/-- Some tokens were taken, but no ending token. -/
def Advances (tokens rest : List Token) : Prop := ∃ used, used ≠ [] ∧ Taken used rest tokens

theorem Advances.length_lt {tokens rest : List Token} (h : Advances tokens rest) :
    rest.length < tokens.length := by
  obtain ⟨used, hne, ht⟩ := h
  have hpos := List.length_pos_iff.2 hne
  rw [ht.1, List.length_append]
  omega

section Advances
variable {arities : Arities} {rounds depth : Nat} {list rest : List Token} {node : Node}

theorem expression_advances (h : expression arities depth list = .ok node rest) :
    Advances list rest := by
  obtain ⟨used, ht, hd⟩ := (expression_reads depth list).of_ok h
  obtain ⟨token, more, hused, -⟩ := hd.opens
  exact ⟨used, by simp [hused], ht⟩

theorem statement_advances (hr : list.length ≤ rounds)
    (h : statement arities rounds depth list = .ok node rest) : Advances list rest := by
  obtain ⟨used, ht, dangling, hd, -⟩ := (statement_reads rounds depth list hr).of_ok h
  obtain ⟨token, more, hused, -⟩ := hd.opens
  exact ⟨used, by simp [hused], ht⟩

theorem parameter_advances {name : String} (h : parameter list = .ok name rest) :
    Advances list rest := by
  obtain ⟨used, ht, token, -, -, hused⟩ := parameter_reads.of_ok h
  refine ⟨used, ?_, ht⟩
  rcases hused with rfl | ⟨comma, -, rfl⟩ <;> simp

end Advances

section Ends
variable {front after left : List Token} {last : Token}

/-- On a list that holds an ending token, in front of which all numbers are numerals, the parser
comes to an end. Its result takes all tokens before the first ending token and nothing else. Where
it has none, it stopped before the ending token or at it: for a syntax error that is put down to the
very token it stopped at, or because the nesting is too deep, which it is not where the parser may
go down deeply enough for the list. Each statement and each expression on the way takes tokens, none
of them ending. -/
theorem tokens_end_in_front (hf : ∀ token ∈ front, token.kind ≠ .ending) (hl : last.kind = .ending)
    (hn : ∀ token ∈ front, token.kind = .number → Decimal.isNumeral token.lexeme.toList = true) :
    (∃ enough, ∀ depth, enough ≤ depth →
      ∀ left, tokens depth (front ++ last :: after) ≠ .error .tooDeep left) ∧
    ∀ depth,
      (∀ nodes left, tokens depth (front ++ last :: after) = .ok nodes left →
        left = last :: after) ∧
      (∀ failure left, tokens depth (front ++ last :: after) = .error failure left →
        ∃ used more, front = used ++ more ∧ left = more ++ last :: after ∧
          ((∃ fault, failure = .fault fault ∧ BlamesNext fault left) ∨ failure = .tooDeep)) ∧
      ∀ arities rounds list,
        (∀ node rest, list.length ≤ rounds →
          statement arities rounds depth list = .ok node rest → Advances list rest) ∧
        ∀ node rest, expression arities depth list = .ok node rest → Advances list rest := by
  refine ⟨⟨ample front, fun depth hd left h => ?_⟩, fun depth => ⟨fun nodes left h => ?_,
    fun failure left => tokens_stops hl hn, fun arities rounds list =>
      ⟨fun node rest => statement_advances, fun node rest => expression_advances⟩⟩⟩
  · exact absurd (lt_ample_of_tooDeep hl h) (Nat.not_lt.2 hd)
  · exact (derives_of_tokens_ok hf hl h).2

/-- The declaration lacks its value, and the tokens behind the ending token do not stand in for
it. -/
theorem tokens_end_in_front_declaration :
    ∃ fault, tokens 5 [⟨.letWord, "let"⟩, ⟨.identifier, "x"⟩, ⟨.assign, "="⟩, .ending,
        ⟨.number, "1"⟩] = .error (.fault fault) [.ending, ⟨.number, "1"⟩] ∧
      BlamesNext fault [.ending, ⟨.number, "1"⟩] := by
  obtain ⟨-, hall⟩ := @tokens_end_in_front
    [⟨.letWord, "let"⟩, ⟨.identifier, "x"⟩, ⟨.assign, "="⟩] [⟨.number, "1"⟩] .ending
    (by decide) rfl (by decide)
  obtain ⟨used, more, -, -, ⟨fault, hfault, hblames⟩ | hdeep⟩ := (hall 5).2.1 _ _ rfl
  · exact ⟨fault, by rw [← hfault]; rfl, hblames⟩
  · cases hdeep

/-- Behind enough operators that wait for their operands the parser finds neither a result nor a
syntax error. -/
theorem operators_end_otherwise :
    ¬ ((∃ nodes left, tokens Limits.standard.nesting
          (List.replicate 20000 ⟨.minus, "-"⟩ ++ [.ending]) = .ok nodes left) ∨
      ∃ fault left, tokens Limits.standard.nesting
          (List.replicate 20000 ⟨.minus, "-"⟩ ++ [.ending]) = .error (.fault fault) left ∧
        BlamesNext fault left) := by
  obtain ⟨left, h⟩ := tokens_operators_tooDeep 14999 19999 (by decide)
  have hdeep : tokens Limits.standard.nesting
      (List.replicate 20000 ⟨.minus, "-"⟩ ++ [.ending]) = .error .tooDeep left := h
  rw [hdeep]
  rintro (⟨nodes, rest, hok⟩ | ⟨fault, rest, herror, -⟩)
  · cases hok
  · cases herror

end Ends

end PrefixScript.Parse
