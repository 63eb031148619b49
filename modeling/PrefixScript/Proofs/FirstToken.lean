import PrefixScript.Proofs.Grammar

/-!
# The first token decides

Expressions and statements are told apart by their first token alone. For each class of first tokens
there is one equation: how the parser goes on behind that token, or why it stops at it.
-/
namespace PrefixScript.Parse
variable {arities : Arities} {token : Token} {rest : List Token} {depth rounds : Nat}

theorem consume_of_kind {kind : Kind} (hk : token.kind = kind) :
    consume kind (token :: rest) = .ok token rest := by
  change (if token.kind = kind then (do advance; return token) else _ : ParseM Token) _ = _
  rw [if_pos hk]
  rfl

theorem consume_of_ne {kind : Kind} (hk : token.kind ≠ kind) :
    consume kind (token :: rest) = .error (.fault (.expectedToken kind token)) (token :: rest) := by
  change (if token.kind = kind then _ else throw _ : ParseM Token) _ = _
  rw [if_neg hk]
  rfl

theorem expression_unary (hk : token.kind ∈ Kind.unaries) :
    expression arities (depth + 1) (token :: rest) =
      (do
        let operand ← expression arities depth
        return .unary token.lexeme operand : ParseM Node) rest := by
  obtain ⟨kind, lexeme⟩ := token
  rcases Kind.mem_unaries.1 hk with rfl | rfl | rfl | rfl <;> rfl

theorem expression_comparison (hk : token.kind ∈ Kind.comparisons) :
    expression arities (depth + 1) (token :: rest) =
      (do
        let left ← expression arities depth
        let right ← expression arities depth
        return .comparison token.lexeme left right : ParseM Node) rest := by
  obtain ⟨kind, lexeme⟩ := token
  rcases Kind.mem_comparisons.1 hk with rfl | rfl <;> rfl

theorem expression_math (hk : token.kind ∈ Kind.maths) :
    expression arities (depth + 1) (token :: rest) =
      (do
        let left ← expression arities depth
        let right ← expression arities depth
        return .math token.lexeme left right : ParseM Node) rest := by
  obtain ⟨kind, lexeme⟩ := token
  rcases Kind.mem_maths.1 hk with rfl | rfl | rfl | rfl <;> rfl

theorem expression_identifier (hk : token.kind = .identifier) :
    expression arities (depth + 1) (token :: rest) =
      (match arities.find? token.lexeme with
        | some count => do
          let args ← arguments arities depth count
          return .call token.lexeme args
        | none => return .lookup token.lexeme : ParseM Node) rest := by
  obtain ⟨kind, lexeme⟩ := token
  subst hk
  rfl

theorem expression_call {count : Nat} (hk : token.kind = .identifier)
    (ha : arities.find? token.lexeme = some count) :
    expression arities (depth + 1) (token :: rest) =
      (do
        let args ← arguments arities depth count
        return .call token.lexeme args : ParseM Node) rest := by
  rw [expression_identifier hk, ha]

theorem expression_lookup (hk : token.kind = .identifier)
    (ha : arities.find? token.lexeme = none) :
    expression arities (depth + 1) (token :: rest) =
      (pure (.lookup token.lexeme) : ParseM Node) rest := by
  rw [expression_identifier hk, ha]

theorem expression_numeral (hk : token.kind = .number) :
    expression arities (depth + 1) (token :: rest) =
      (match Decimal.writtenValue? token.lexeme.toList with
        | some value => return .literal (.number value)
        | none => throw (.defect (.noNumber token.lexeme)) : ParseM Node) rest := by
  obtain ⟨kind, lexeme⟩ := token
  subst hk
  rfl

theorem expression_number {value : Float} (hk : token.kind = .number)
    (hv : Decimal.writtenValue? token.lexeme.toList = some value) :
    expression arities (depth + 1) (token :: rest) =
      (pure (.literal (.number value)) : ParseM Node) rest := by
  rw [expression_numeral hk, hv]

theorem expression_noNumber (hk : token.kind = .number)
    (hv : Decimal.writtenValue? token.lexeme.toList = none) :
    expression arities (depth + 1) (token :: rest) =
      .error (.defect (.noNumber token.lexeme)) rest := by
  rw [expression_numeral hk, hv]
  rfl

theorem expression_string (hk : token.kind = .string) :
    expression arities (depth + 1) (token :: rest) =
      (pure (.literal (.text (literalText token.lexeme))) : ParseM Node) rest := by
  obtain ⟨kind, lexeme⟩ := token
  subst hk
  rfl

theorem expression_read (hk : token.kind = .read) :
    expression arities (depth + 1) (token :: rest) = (pure .read : ParseM Node) rest := by
  obtain ⟨kind, lexeme⟩ := token
  subst hk
  rfl

theorem expression_pause (hk : token.kind = .pause) :
    expression arities (depth + 1) (token :: rest) =
      (do
        let delay ← expression arities depth
        return .pause delay : ParseM Node) rest := by
  obtain ⟨kind, lexeme⟩ := token
  subst hk
  rfl

theorem expression_wipe (hk : token.kind = .wipe) :
    expression arities (depth + 1) (token :: rest) = (pure .wipe : ParseM Node) rest := by
  obtain ⟨kind, lexeme⟩ := token
  subst hk
  rfl

theorem expression_unexpected (hk : token.kind.opensExpression = false) :
    expression arities (depth + 1) (token :: rest) =
      .error (.fault (.unexpectedToken token)) (token :: rest) := by
  obtain ⟨kind, lexeme⟩ := token
  cases kind with
  | _ => first | rfl | cases hk

theorem statement_let (hk : token.kind = .letWord) :
    statement arities rounds (depth + 1) (token :: rest) =
      binding arities depth (token :: rest) := by
  obtain ⟨kind, lexeme⟩ := token
  subst hk
  rfl

theorem statement_print (hk : token.kind ∈ Kind.prints) :
    statement arities rounds (depth + 1) (token :: rest) =
      printing arities depth (token :: rest) := by
  obtain ⟨kind, lexeme⟩ := token
  rcases Kind.mem_prints.1 hk with rfl | rfl <;> rfl

theorem printing_succ :
    printing arities (depth + 1) (token :: rest) =
      (do
        let value ← expression arities depth
        return .print value token.lexeme : ParseM Node) rest := rfl

theorem statement_if (hk : token.kind = .ifWord) :
    statement arities rounds (depth + 1) (token :: rest) =
      conditional arities rounds depth (token :: rest) := by
  obtain ⟨kind, lexeme⟩ := token
  subst hk
  rfl

theorem statement_while (hk : token.kind = .whileWord) :
    statement arities rounds (depth + 1) (token :: rest) =
      whileLoop arities rounds depth (token :: rest) := by
  obtain ⟨kind, lexeme⟩ := token
  subst hk
  rfl

theorem statement_for (hk : token.kind = .forWord) :
    statement arities rounds (depth + 1) (token :: rest) =
      forLoop arities rounds depth (token :: rest) := by
  obtain ⟨kind, lexeme⟩ := token
  subst hk
  rfl

theorem statement_function (hk : token.kind = .functionWord) :
    statement arities rounds (depth + 1) (token :: rest) =
      declaration arities rounds depth (token :: rest) := by
  obtain ⟨kind, lexeme⟩ := token
  subst hk
  rfl

theorem statement_return (hk : token.kind = .returnWord) :
    statement arities rounds (depth + 1) (token :: rest) =
      (do
        let value ← expression arities depth
        return .ret value : ParseM Node) rest := by
  obtain ⟨kind, lexeme⟩ := token
  subst hk
  rfl

theorem statement_action (hk : token.kind = .pause ∨ token.kind = .wipe) :
    statement arities rounds (depth + 1) (token :: rest) =
      expression arities depth (token :: rest) := by
  obtain ⟨kind, lexeme⟩ := token
  rcases hk with rfl | rfl <;> rfl

theorem statement_implicit (hk : token.kind.opensOther = false) (hp : token.kind ≠ .pause)
    (hw : token.kind ≠ .wipe) :
    statement arities rounds (depth + 1) (token :: rest) =
      (do
        let value ← expression arities depth
        return .print value "implicit" : ParseM Node) (token :: rest) := by
  obtain ⟨kind, lexeme⟩ := token
  cases kind with
  | pause => exact absurd rfl hp
  | wipe => exact absurd rfl hw
  | _ => first | rfl | cases hk

end PrefixScript.Parse
