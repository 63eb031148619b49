import PrefixScript.Proofs.Escapes
import PrefixScript.Proofs.GrammarExactness
import PrefixScript.Proofs.SpacedTokens

/-!
# Every text has a literal in quotes of either kind

Inside quotes of one kind the backslash and this quote are escaped. What is then in quotes is one
token, whatever the text: no quote in it closes the literal, and its line feeds, its quotes of the
other kind and its runs of backslashes stand for themselves.
-/
namespace PrefixScript

namespace Token
variable {quote : Char}

/-- The literal of a text in quotes of a kind. -/
def literal (quote : Char) (content : String) : Token :=
  ⟨.string, String.ofList (quote :: (Text.escapeIn quote content.toList ++ [quote]))⟩

theorem literalText_literal (hq : quote = '"' ∨ quote = '\'') (content : String) :
    Parse.literalText (literal quote content).lexeme = content := by
  rw [Parse.literalText, literal, String.toList_ofList, List.tail_cons, List.dropLast_concat,
    Text.unescape_escapeIn hq, String.ofList_toList]

theorem stands_literal (hq : quote = '"' ∨ quote = '\'') (content : String) :
    (literal quote content).Stands := by
  refine stands_string ?_
  rw [String.toList_ofList]
  rcases hq with rfl | rfl
  · exact .inl (Pattern.mem_quotedIn (Text.escapeIn_mem_insideQuotes (by decide) content.toList))
  · exact .inr (Pattern.mem_quotedIn (Text.escapeIn_mem_insideQuotes (by decide) content.toList))

end Token

/-- A text literal alone is a program that prints the text. -/
theorem Parse.tokens_literal {quote : Char} (hq : quote = '"' ∨ quote = '\'') (content : String)
    (depth : Nat) :
    tokens (depth + 2) [.literal quote content, .ending] =
      .ok [.print (.literal (.text content)) "implicit"] [.ending] := by
  refine tokens_of_literal (.inr rfl) (fun arities depth rest => ?_) depth
  rw [expression_string rfl, Token.literalText_literal hq]
  rfl

/-- In quotes of either kind, with a backslash in front of each backslash and of each such quote,
every text is one literal token, in any directory and state, and the program that prints the
text. -/
theorem text_as_literal {quote : Char} (hq : quote = '"' ∨ quote = '\'') (content : String)
    (directory : String) (before : Assembly) (depth : Nat) :
    let source := String.ofList (quote :: (Text.escapeIn quote content.toList ++ [quote]))
    Assembly.tokens directory source before = .ok [⟨.string, source⟩, .ending] before ∧
      Parse.tokens (depth + 2) [⟨.string, source⟩, .ending] =
        .ok [.print (.literal (.text content)) "implicit"] [.ending] := by
  refine ⟨?_, Parse.tokens_literal hq content depth⟩
  have hstands : ∀ token ∈ [Token.literal quote content], token.Stands := by
    simpa using Token.stands_literal hq content
  exact Assembly.tokens_written hstands (.singleton _) directory before

/-- A backslash, quotes of both kinds and a line feed in double quotes. -/
theorem text_as_literal_both_quotes :
    let before : Assembly := ⟨.start ⟨.empty, [], fun _ => 0, 0, [], "/"⟩ true, .empty⟩
    ('"' = '"' ∨ '"' = '\'') ∧
      Assembly.tokens "/" "\"\\\\'\\\"\n\"" before =
        .ok [⟨.string, "\"\\\\'\\\"\n\""⟩, .ending] before ∧
      Parse.tokens 2 [⟨.string, "\"\\\\'\\\"\n\""⟩, .ending] =
        .ok [.print (.literal (.text "\\'\"\n")) "implicit"] [.ending] :=
  ⟨.inl rfl, text_as_literal (.inl rfl) "\\'\"\n" "/" _ 0⟩

end PrefixScript
