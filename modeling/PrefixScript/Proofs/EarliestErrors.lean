import PrefixScript.Proofs.ParserProgress
import PrefixScript.Proofs.ViablePrefixes

/-!
# Syntax errors are found at the first token that cannot be right

What was taken before a syntax error can be completed. Nothing that begins with those tokens and the
one the parser stopped at can, because the parser never looks further: two runs on lists that agree
up to a token do the same until one of them moves past it.
-/
namespace PrefixScript.Parse

/-! ## Two runs up to a token -/

section Alike
variable {α β : Type}

/-- Once no more tokens than those of the rest are left, it stays so. -/
def Stays (rest : List Token) (parser : ParseM α) : Prop :=
  ∀ list, list.length ≤ rest.length →
    Ends parser list (fun _ left => left.length ≤ rest.length)
      fun _ left => left.length ≤ rest.length

/-- From the tokens at the front, the first parser moves past the token that stands before the rest,
or the second one does the same where something else stands behind that token. Only results and
syntax errors are compared. -/
def SameAt (token : Token) (rest other : List Token) (first second : ParseM α)
    (front : List Token) : Prop :=
  Ends first (front ++ token :: rest)
    (fun a left => left.length ≤ rest.length ∨
      ∃ back, back.length ≤ front.length ∧ left = back ++ token :: rest ∧
        second (front ++ token :: other) = .ok a (back ++ token :: other))
    (fun failure left => left.length ≤ rest.length ∨
      ∀ fault, failure = .fault fault → ∃ back, left = back ++ token :: rest ∧
        second (front ++ token :: other) = .error failure (back ++ token :: other))

/-- The parsers do the same up to the token, with some number of tokens in front of it at most. -/
structure Alike (token : Token) (rest other : List Token) (bound : Nat)
    (first second : ParseM α) : Prop where
  stays : Stays rest first
  same : ∀ front, front.length ≤ bound → SameAt token rest other first second front

variable {token : Token} {rest other front : List Token} {bound : Nat} {first second : ParseM α}
  {next next' : α → ParseM β}

theorem Stays.pure (a : α) : Stays rest (pure a) := fun _ hl => hl

theorem Stays.throw (failure : Failure) : Stays rest (throw failure : ParseM α) := fun _ hl => hl

theorem Stays.peek : Stays rest peek := by
  intro list hl
  cases list <;> exact hl

theorem Stays.advance : Stays rest advance := by
  intro list hl
  have htail : list.tail.length ≤ rest.length := by
    rw [List.length_tail]
    omega
  exact htail

theorem Stays.bind (h : Stays rest first) (hn : ∀ a, Stays rest (next a)) :
    Stays rest (first >>= next) := by
  intro list hl
  rw [ends_bind]
  exact (h list hl).mono (fun a left => hn a left) fun _ _ => id

theorem Stays.upTo (h : Stays rest first) (stop : Kind) (rounds : Nat) (before : List α) :
    Stays rest (upTo stop first rounds before) := by
  induction rounds generalizing before with
  | zero => exact .throw _
  | succ rounds ih =>
    refine .bind .peek fun found => ?_
    split
    · exact .pure _
    · exact h.bind fun a => ih (a :: before)

/-- Behind a step that leads to the same place, the same goes on from there. -/
theorem SameAt.bind (h : SameAt token rest other first second front)
    (hs : ∀ a, Stays rest (next a))
    (hn : ∀ a back, back.length ≤ front.length →
      first (front ++ token :: rest) = .ok a (back ++ token :: rest) →
      SameAt token rest other (next a) (next' a) back) :
    SameAt token rest other (first >>= next) (second >>= next') front := by
  unfold SameAt at h ⊢
  rw [ends_bind]
  unfold Ends at h ⊢
  split at h
  · rename_i a left hfirst
    rcases h with hpast | ⟨back, hback, rfl, hsecond⟩
    · exact (hs a left hpast).mono (fun _ _ => .inl) fun _ _ => .inl
    · rw [bind_of_ok hsecond]
      refine (hn a back hback hfirst).mono ?_ ?_
      · rintro b last (hpast | ⟨behind, hle, hlast⟩)
        · exact .inl hpast
        · exact .inr ⟨behind, Nat.le_trans hle hback, hlast⟩
      · exact fun _ _ => id
  · rcases h with hpast | hfault
    · exact .inl hpast
    · refine .inr fun fault hf => ?_
      obtain ⟨back, hback, hsecond⟩ := hfault fault hf
      exact ⟨back, hback, bind_of_error hsecond⟩

namespace Alike

theorem pure (a : α) : Alike token rest other bound (pure a) (pure a) :=
  ⟨.pure a, fun front _ => .inr ⟨front, Nat.le_refl _, rfl, rfl⟩⟩

theorem throw (failure : Failure) :
    Alike token rest other bound (throw failure : ParseM α) (throw failure) :=
  ⟨.throw failure, fun front _ => .inr fun _ _ => ⟨front, rfl, rfl⟩⟩

/-- A parser that finds everything too deep has no syntax error. -/
theorem tooDeep :
    Alike token rest other bound (MonadExcept.throw Failure.tooDeep : ParseM α) second :=
  ⟨.throw _, fun _ _ => .inr fun _ hf => by cases hf⟩

theorem bind (h : Alike token rest other bound first second)
    (hn : ∀ a, Alike token rest other bound (next a) (next' a)) :
    Alike token rest other bound (first >>= next) (second >>= next') :=
  ⟨h.stays.bind fun a => (hn a).stays, fun front hf =>
    (h.same front hf).bind (fun a => (hn a).stays)
      fun a back hb _ => (hn a).same back (Nat.le_trans hb hf)⟩

theorem peek : Alike token rest other bound peek peek where
  stays := .peek
  same front _ := by
    cases front with
    | nil => exact .inr ⟨[], Nat.le_refl _, rfl, rfl⟩
    | cons head tail => exact .inr ⟨head :: tail, Nat.le_refl _, rfl, rfl⟩

/-- The first parser may move past the token; else both drop the same one. -/
theorem advance : Alike token rest other bound advance advance where
  stays := .advance
  same front _ := by
    cases front with
    | nil => exact .inl (Nat.le_refl _)
    | cons head tail => exact .inr ⟨tail, Nat.le_succ _, rfl, rfl⟩

theorem consume (kind : Kind) : Alike token rest other bound (consume kind) (consume kind) := by
  refine .bind .peek fun found => ?_
  split
  · exact .bind .advance fun _ => .pure found
  · exact .throw _

theorem repeated (h : Alike token rest other bound first second) (count : Nat) (before : List α) :
    Alike token rest other bound (repeated first count before) (repeated second count before) := by
  induction count generalizing before with
  | zero => exact .pure _
  | succ count ih => exact .bind h fun a => ih (a :: before)

/-- A list of items is read to the same place if there are more rounds than tokens in front: every
item takes one of them. -/
theorem upTo_same (stop : Kind) (h : Alike token rest other bound first second)
    (hpos : ∀ list a left, list.length ≤ bound + 1 + rest.length → first list = .ok a left →
      Advances list left)
    {rounds rounds' : Nat} (hf : front.length ≤ bound) (hr : front.length < rounds)
    (hr' : front.length < rounds') (before : List α) :
    SameAt token rest other (upTo stop first rounds before) (upTo stop second rounds' before)
      front := by
  induction rounds generalizing rounds' front before with
  | zero => omega
  | succ rounds ih =>
    obtain ⟨rounds', rfl⟩ := Nat.exists_eq_succ_of_ne_zero (Nat.ne_zero_of_lt hr')
    refine (peek.same front hf).bind (fun found => ?_) fun found back hb _ => ?_
    · split
      · exact .pure _
      · exact h.stays.bind fun a => h.stays.upTo stop rounds (a :: before)
    have hback := Nat.le_trans hb hf
    split
    · exact (pure _).same back hback
    · refine (h.same back hback).bind (fun a => h.stays.upTo stop rounds (a :: before)) ?_
      intro a behind hle hitem
      have hlength : (back ++ token :: rest).length ≤ bound + 1 + rest.length := by
        rw [List.length_append, List.length_cons]
        omega
      have hless := (hpos _ a _ hlength hitem).length_lt
      -- The item took a token, so the rounds left are still more than the tokens in front.
      rw [List.length_append, List.length_append] at hless
      exact ih (by omega) (by omega) (by omega) (a :: before)

theorem upTo (stop : Kind) (h : Alike token rest other bound first second)
    (hpos : ∀ list a left, list.length ≤ bound + 1 + rest.length → first list = .ok a left →
      Advances list left)
    {rounds rounds' : Nat} (hr : bound < rounds) (hr' : bound < rounds') (before : List α) :
    Alike token rest other bound (upTo stop first rounds before)
      (upTo stop second rounds' before) :=
  ⟨h.stays.upTo stop rounds before, fun _ hf =>
    upTo_same stop h hpos hf (Nat.lt_of_le_of_lt hf hr) (Nat.lt_of_le_of_lt hf hr') before⟩

end Alike

end Alike

/-! ## The parser up to a token -/

section Parsers
variable {arities : Arities} {token : Token} {rest other : List Token}
  {bound depth deeper rounds rounds' : Nat}

/-- Expressions are read alike, also where parts may be nested more deeply in the second run. -/
def ExpressionAlike (arities : Arities) (token : Token) (rest other : List Token)
    (bound depth : Nat) : Prop :=
  ∀ deeper, depth ≤ deeper →
    Alike token rest other bound (expression arities depth) (expression arities deeper)

theorem arguments_alike (h : ∀ lower < depth, ExpressionAlike arities token rest other bound lower)
    (count : Nat) (hd : depth ≤ deeper) :
    Alike token rest other bound (arguments arities depth count)
      (arguments arities deeper count) := by
  cases depth with
  | zero => exact .tooDeep
  | succ depth =>
    obtain ⟨deeper, rfl⟩ := Nat.exists_eq_succ_of_ne_zero (Nat.ne_zero_of_lt hd)
    exact .repeated (h depth depth.lt_succ_self deeper (Nat.le_of_succ_le_succ hd)) count []

/-- Both runs look at the same token, and the kind of that token decides how they go on. The
induction is on the depth: operands are read at the depth below, arguments at lower ones. -/
theorem expression_alike (depth : Nat) :
    ExpressionAlike arities token rest other bound depth := by
  induction depth using Nat.strongRecOn with
  | ind depth ih =>
    intro deeper h
    cases depth with
    | zero => exact .tooDeep
    | succ depth =>
      obtain ⟨deeper, rfl⟩ := Nat.exists_eq_succ_of_ne_zero (Nat.ne_zero_of_lt h)
      have hle := Nat.le_of_succ_le_succ h
      have inner := ih depth depth.lt_succ_self deeper hle
      rw [expression, expression]
      refine .bind .peek fun found => ?_
      cases found.kind with
      | sqrt | random | reverse | len | pause =>
        exact .bind .advance fun _ => .bind inner fun _ => .pure _
      | equal | notEqual | plus | minus | times | divide =>
        exact .bind .advance fun _ => .bind inner fun _ => .bind inner fun _ => .pure _
      | identifier =>
        refine .bind .advance fun _ => ?_
        cases arities.find? found.lexeme with
        | none => exact .pure _
        | some count =>
          have hargs := arguments_alike (fun lower hl => ih lower (Nat.lt_succ_of_lt hl)) count hle
          exact .bind hargs fun _ => .pure _
      | number =>
        refine .bind .advance fun _ => ?_
        cases Decimal.writtenValue? found.lexeme.toList with
        | none => exact .throw _
        | some value => exact .pure _
      | string | read | wipe => exact .bind .advance fun _ => .pure _
      | _ => exact .throw _

theorem parameter_alike : Alike token rest other bound parameter parameter := by
  refine .bind (.consume _) fun name => .bind .peek fun found => ?_
  split
  · exact .bind .advance fun _ => .pure _
  · exact .pure _

theorem binding_alike (hd : depth ≤ deeper) :
    Alike token rest other bound (binding arities depth) (binding arities deeper) := by
  cases depth with
  | zero => exact .tooDeep
  | succ depth =>
    obtain ⟨deeper, rfl⟩ := Nat.exists_eq_succ_of_ne_zero (Nat.ne_zero_of_lt hd)
    have value := @expression_alike arities token rest other bound depth deeper
      (Nat.le_of_succ_le_succ hd)
    exact .bind (.consume _) fun _ => .bind (.consume _) fun _ => .bind (.consume _) fun _ =>
      .bind value fun _ => .pure _

theorem printing_alike (hd : depth ≤ deeper) :
    Alike token rest other bound (printing arities depth) (printing arities deeper) := by
  cases depth with
  | zero => exact .tooDeep
  | succ depth =>
    obtain ⟨deeper, rfl⟩ := Nat.exists_eq_succ_of_ne_zero (Nat.ne_zero_of_lt hd)
    have value := @expression_alike arities token rest other bound depth deeper
      (Nat.le_of_succ_le_succ hd)
    exact .bind .peek fun _ => .bind .advance fun _ => .bind value fun _ => .pure _

/-- Enough rounds for all tokens of the first run, and for those in front in the second one. -/
structure Rounds (rest : List Token) (bound rounds rounds' : Nat) : Prop where
  first : bound + 1 + rest.length ≤ rounds
  second : bound < rounds'

theorem Rounds.lt (hr : Rounds rest bound rounds rounds') : bound < rounds := by
  have hfirst := hr.first
  omega

theorem parameters_alike (hr : Rounds rest bound rounds rounds') :
    Alike token rest other bound (upTo .rightParen parameter rounds [])
      (upTo .rightParen parameter rounds' []) :=
  .upTo _ parameter_alike (fun _ _ _ _ => parameter_advances) hr.lt hr.second []

/-- Statements are read alike, also where parts may be nested more deeply in the second run. -/
def StatementAlike (arities : Arities) (token : Token) (rest other : List Token)
    (bound rounds rounds' depth : Nat) : Prop :=
  ∀ deeper, depth ≤ deeper →
    Alike token rest other bound (statement arities rounds depth)
      (statement arities rounds' deeper)

theorem statements_alike (stop : Kind) (hr : Rounds rest bound rounds rounds')
    (h : StatementAlike arities token rest other bound rounds rounds' depth)
    (hd : depth ≤ deeper) :
    Alike token rest other bound (upTo stop (statement arities rounds depth) rounds [])
      (upTo stop (statement arities rounds' deeper) rounds' []) :=
  .upTo stop (h deeper hd)
    (fun _ _ _ hl => statement_advances (Nat.le_trans hl hr.first)) hr.lt hr.second []

section Lists
variable (hr : Rounds rest bound rounds rounds')
  (hs : ∀ lower < depth, StatementAlike arities token rest other bound rounds rounds' lower)
  (hd : depth ≤ deeper)
include hr hs hd

theorem block_alike :
    Alike token rest other bound (block arities rounds depth) (block arities rounds' deeper) := by
  cases depth with
  | zero => exact .tooDeep
  | succ depth =>
    obtain ⟨deeper, rfl⟩ := Nat.exists_eq_succ_of_ne_zero (Nat.ne_zero_of_lt hd)
    have inner := statements_alike .rightBrace hr (hs depth depth.lt_succ_self)
      (Nat.le_of_succ_le_succ hd)
    exact .bind (.consume _) fun _ => .bind inner fun _ => .bind (.consume _) fun _ => .pure _

theorem body_alike :
    Alike token rest other bound (body arities rounds depth) (body arities rounds' deeper) := by
  cases depth with
  | zero => exact .tooDeep
  | succ depth =>
    obtain ⟨deeper, rfl⟩ := Nat.exists_eq_succ_of_ne_zero (Nat.ne_zero_of_lt hd)
    have hle := Nat.le_of_succ_le_succ hd
    refine .bind .peek fun found => ?_
    split
    · exact block_alike hr (fun lower hl => hs lower (Nat.lt_succ_of_lt hl)) hle
    · exact .bind (hs depth depth.lt_succ_self deeper hle) fun _ => .pure _

theorem conditional_alike :
    Alike token rest other bound (conditional arities rounds depth)
      (conditional arities rounds' deeper) := by
  cases depth with
  | zero => exact .tooDeep
  | succ depth =>
    obtain ⟨deeper, rfl⟩ := Nat.exists_eq_succ_of_ne_zero (Nat.ne_zero_of_lt hd)
    have hle := Nat.le_of_succ_le_succ hd
    have inner := body_alike hr (fun lower hl => hs lower (Nat.lt_succ_of_lt hl)) hle
    refine .bind (.consume _) fun _ => .bind (expression_alike depth deeper hle) fun _ =>
      .bind inner fun _ => .bind .peek fun next => ?_
    split
    · exact .bind .advance fun _ => .bind inner fun _ => .pure _
    · exact .pure _

theorem whileLoop_alike :
    Alike token rest other bound (whileLoop arities rounds depth)
      (whileLoop arities rounds' deeper) := by
  cases depth with
  | zero => exact .tooDeep
  | succ depth =>
    obtain ⟨deeper, rfl⟩ := Nat.exists_eq_succ_of_ne_zero (Nat.ne_zero_of_lt hd)
    have hle := Nat.le_of_succ_le_succ hd
    have inner := body_alike hr (fun lower hl => hs lower (Nat.lt_succ_of_lt hl)) hle
    exact .bind (.consume _) fun _ => .bind (expression_alike depth deeper hle) fun _ =>
      .bind inner fun _ => .pure _

theorem forLoop_alike :
    Alike token rest other bound (forLoop arities rounds depth)
      (forLoop arities rounds' deeper) := by
  cases depth with
  | zero => exact .tooDeep
  | succ depth =>
    obtain ⟨deeper, rfl⟩ := Nat.exists_eq_succ_of_ne_zero (Nat.ne_zero_of_lt hd)
    have hle := Nat.le_of_succ_le_succ hd
    have value := @expression_alike arities token rest other bound depth deeper hle
    have inner := body_alike hr (fun lower hl => hs lower (Nat.lt_succ_of_lt hl)) hle
    exact .bind (.consume _) fun _ => .bind (.consume _) fun _ => .bind (.consume _) fun _ =>
      .bind value fun _ => .bind value fun _ => .bind inner fun _ => .pure _

theorem declaration_alike :
    Alike token rest other bound (declaration arities rounds depth)
      (declaration arities rounds' deeper) := by
  cases depth with
  | zero => exact .tooDeep
  | succ depth =>
    obtain ⟨deeper, rfl⟩ := Nat.exists_eq_succ_of_ne_zero (Nat.ne_zero_of_lt hd)
    have inner := block_alike hr (fun lower hl => hs lower (Nat.lt_succ_of_lt hl))
      (Nat.le_of_succ_le_succ hd)
    exact .bind (.consume _) fun _ => .bind (.consume _) fun _ => .bind (.consume _) fun _ =>
      .bind (parameters_alike hr) fun _ => .bind (.consume _) fun _ => .bind inner fun _ => .pure _

end Lists

/-- The induction is on the depth: inner statements are read at lower ones. -/
theorem statement_alike (hr : Rounds rest bound rounds rounds') (depth : Nat) :
    StatementAlike arities token rest other bound rounds rounds' depth := by
  induction depth using Nat.strongRecOn with
  | ind depth ih =>
    intro deeper h
    cases depth with
    | zero => exact .tooDeep
    | succ depth =>
      obtain ⟨deeper, rfl⟩ := Nat.exists_eq_succ_of_ne_zero (Nat.ne_zero_of_lt h)
      have hle := Nat.le_of_succ_le_succ h
      have below (lower : Nat) (hl : lower < depth) :
          StatementAlike arities token rest other bound rounds rounds' lower :=
        ih lower (Nat.lt_succ_of_lt hl)
      have value := @expression_alike arities token rest other bound depth deeper hle
      rw [statement, statement]
      refine .bind .peek fun found => ?_
      cases found.kind with
      | letWord => exact binding_alike hle
      | printWord | sayWord => exact printing_alike hle
      | ifWord => exact conditional_alike hr below hle
      | whileWord => exact whileLoop_alike hr below hle
      | forWord => exact forLoop_alike hr below hle
      | functionWord => exact declaration_alike hr below hle
      | returnWord => exact .bind .advance fun _ => .bind value fun _ => .pure _
      | pause | wipe => exact value
      | _ => exact .bind value fun _ => .pure _

/-- A syntax error at a token stays, whatever stands behind it. -/
theorem program_refused {fault : Fault} {used tail : List Token} (h : depth ≤ deeper)
    (herror : program arities (used ++ token :: rest).length depth (used ++ token :: rest) =
      .error (.fault fault) (token :: rest)) :
    program arities (used ++ token :: tail).length deeper (used ++ token :: tail) =
      .error (.fault fault) (token :: tail) := by
  have hr : Rounds rest used.length (used ++ token :: rest).length
      (used ++ token :: tail).length := by
    constructor <;> rw [List.length_append, List.length_cons] <;> omega
  have halike : Alike token rest tail used.length
      (program arities (used ++ token :: rest).length depth)
      (program arities (used ++ token :: tail).length deeper) :=
    statements_alike .ending hr (statement_alike hr depth) h
  rcases Ends.of_error (halike.same used (Nat.le_refl _)) herror with hpast | hfault
  · exact absurd hpast (by simp)
  · obtain ⟨back, hback, hsecond⟩ := hfault fault rfl
    obtain rfl : back = [] := by simpa using hback
    exact hsecond

end Parsers

/-- A syntax error is put down to the token that the parser stopped at, and no earlier one could
have been. The tokens before it are the beginning of a program, which is accepted wherever the
parser may go down deeply enough for it. But every list that begins with them and that token is
refused in the same way, at this depth and at every larger one. -/
theorem syntax_error_earliest {arities : Arities} {depth : Nat} {fault : Fault}
    {list left : List Token}
    (h : program arities list.length depth list = .error (.fault fault) left) :
    ∃ used token rest, list = used ++ token :: rest ∧ left = token :: rest ∧
      BlamesNext fault left ∧
      (∃ more nodes enough, ∀ deeper, enough ≤ deeper →
        program arities (used ++ more ++ [Token.ending]).length deeper
          (used ++ more ++ [.ending]) = .ok nodes [.ending]) ∧
      ∀ tail deeper, depth ≤ deeper →
        program arities (used ++ token :: tail).length deeper (used ++ token :: tail) =
          .error (.fault fault) (token :: tail) := by
  obtain ⟨used, rfl, more, nodes, hbegun⟩ := program_begun h
  obtain ⟨taken, -, hrefused⟩ := (program_reads depth _).of_error h
  have hblames := hrefused.blamesNext
  obtain ⟨token, rest, rfl, -⟩ := hblames.2
  exact ⟨used, token, rest, rfl, rfl, hblames,
    ⟨more, nodes, ample (used ++ more), fun _ => program_of_derives_of_ample rfl hbegun⟩,
    fun tail deeper hdeeper => program_refused hdeeper h⟩

/-- A call lacks an argument: what stands before the brace can be completed, but the brace cannot be
right, whatever follows it. -/
theorem syntax_error_earliest_call :
    let arities : Arities := Table.empty.insert "f" 2
    let used : List Token := [⟨.printWord, "print"⟩, ⟨.identifier, "f"⟩, ⟨.number, "1"⟩]
    let brace : Token := ⟨.rightBrace, "\x7d"⟩
    ∃ fault, program arities 5 5 (used ++ [brace, .ending]) =
        .error (.fault fault) [brace, .ending] ∧
      (∃ more nodes enough, ∀ deeper, enough ≤ deeper →
        program arities (used ++ more ++ [Token.ending]).length deeper
          (used ++ more ++ [.ending]) = .ok nodes [.ending]) ∧
      ∀ tail deeper, 5 ≤ deeper →
        program arities (used ++ brace :: tail).length deeper (used ++ brace :: tail) =
          .error (.fault fault) (brace :: tail) := by
  intro arities used brace
  have herror : program arities 5 5 (used ++ [brace, .ending]) =
      .error (.fault (.unexpectedToken brace)) [brace, .ending] := rfl
  obtain ⟨taken, token, rest, hlist, hleft, -, hcompleted, hrefused⟩ :=
    @syntax_error_earliest arities 5 _ (used ++ [brace, .ending]) _ herror
  cases hleft
  obtain rfl := List.append_cancel_right hlist
  exact ⟨_, herror, hcompleted, hrefused⟩

end PrefixScript.Parse
