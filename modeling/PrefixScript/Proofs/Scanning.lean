import PrefixScript.Token.Scan

/-!
# Scanning as a recursion on what is left

The scan of a text is decided at its start: if a rule matches there, the match is the first piece,
and the other pieces are those of the text behind it; if none does, there are no pieces and all is
left. These two equations, and the induction that goes from the text behind a match to the text with
it, are all that the theory of sources needs to know about how scanning is done.
-/
namespace PrefixScript

namespace Rule
variable {text : List Char} {rules : List Rule} {label : Label} {length : Nat}

/-- The label of a match is that of a rule. -/
theorem exists_of_first? (h : first? text rules = some (label, length)) :
    ∃ rule ∈ rules, rule.label = label ∧ rule.pattern text = length := by
  induction rules with
  | nil => cases h
  | cons rule rest ih =>
    rw [first?] at h
    split at h
    · obtain ⟨found, hm, hf⟩ := ih h
      exact ⟨found, List.mem_cons_of_mem rule hm, hf⟩
    · rename_i more hp
      cases h
      exact ⟨rule, List.mem_cons_self, rfl, hp⟩

/-- A match is not empty. -/
theorem ne_zero_of_first? (h : first? text rules = some (label, length)) : length ≠ 0 := by
  induction rules with
  | nil => cases h
  | cons rule rest ih =>
    rw [first?] at h
    split at h
    · exact ih h
    · cases h
      exact Nat.succ_ne_zero _

/-- Texts on which all rules measure the same have the same match. -/
theorem first?_congr {other : List Char}
    (h : ∀ rule ∈ rules, rule.pattern other = rule.pattern text) :
    first? other rules = first? text rules := by
  induction rules with
  | nil => rfl
  | cons rule rest ih =>
    have hrest := ih fun found hm => h found (List.mem_cons_of_mem rule hm)
    simp only [first?, h rule List.mem_cons_self, hrest]

/-- Some rule matches where a rule measures something. -/
theorem first?_ne_none {rule : Rule} (hm : rule ∈ rules) (hp : rule.pattern text ≠ 0) :
    first? text rules ≠ none := by
  induction rules with
  | nil => cases hm
  | cons head rest ih =>
    rw [first?]
    split
    · rename_i hz
      rcases List.mem_cons.1 hm with rfl | hm
      · exact absurd hz hp
      · exact ih hm
    · simp

theorem first?_nil : first? [] all = none := by decide

end Rule

namespace Scan
variable {text : List Char} {label : Label} {length : Nat}

/-- New pieces stand behind the ones found before, and skipped characters do not count. -/
theorem resume_eq (pieces : List Piece) (skip : Nat) (text : List Char) :
    resume pieces skip text =
      ⟨pieces.reverse ++ (ofText (text.drop skip)).pieces, (ofText (text.drop skip)).rest⟩ := by
  induction text generalizing pieces skip with
  | nil => simp [resume, ofText]
  | cons c rest ih =>
    cases skip with
    | succ skip => simpa only [resume, List.drop_succ_cons] using ih pieces skip
    | zero =>
      simp only [ofText, List.drop_zero, resume]
      split
      · simp
      · rename_i label length _
        simp only [ih _ (length - 1), List.reverse_cons, List.append_assoc, List.reverse_nil,
          List.nil_append]

/-- The first match is the first piece. -/
theorem ofText_of_some (h : Rule.first? text Rule.all = some (label, length)) :
    ofText text =
      ⟨label.piece (text.take length) :: (ofText (text.drop length)).pieces,
        (ofText (text.drop length)).rest⟩ := by
  cases text with
  | nil => rw [Rule.first?_nil] at h; cases h
  | cons c rest =>
    obtain ⟨more, rfl⟩ := Nat.exists_eq_succ_of_ne_zero (Rule.ne_zero_of_first? h)
    simp only [ofText, resume, h]
    rw [resume_eq]
    simp [ofText]

/-- Scanning ends where no rule matches. -/
theorem ofText_of_none (h : Rule.first? text Rule.all = none) : ofText text = ⟨[], text⟩ := by
  cases text with
  | nil => rfl
  | cons c rest => simp only [ofText, resume, h, List.reverse_nil]

/-- What holds where scanning ends, and holds of a text if it holds behind its first match, holds of
every text. The text behind a match is shorter, because no match is empty. -/
@[elab_as_elim]
theorem induction {motive : List Char → Prop}
    (stuck : ∀ text, Rule.first? text Rule.all = none → motive text)
    (piece : ∀ text label length, Rule.first? text Rule.all = some (label, length) →
      motive (text.drop length) → motive text)
    (text : List Char) : motive text := by
  induction hn : text.length using Nat.strongRecOn generalizing text with
  | _ n ih =>
    cases hf : Rule.first? text Rule.all with
    | none => exact stuck text hf
    | some found =>
      obtain ⟨label, length⟩ := found
      have hpos := Rule.ne_zero_of_first? hf
      have hne : text ≠ [] := by
        intro he
        rw [he, Rule.first?_nil] at hf
        cases hf
      have hlength := List.length_pos_iff.2 hne
      have hless : (text.drop length).length < n := by
        rw [List.length_drop]
        omega
      exact piece text label length hf (ih _ hless _ rfl)

/-- What is left of a text is its end. -/
theorem rest_suffix (text : List Char) : (ofText text).rest <:+ text := by
  induction text using Scan.induction with
  | stuck text h =>
    have hall : (ofText text).rest = text := by rw [ofText_of_none h]
    exact ⟨[], hall⟩
  | piece text label length h ih =>
    rw [ofText_of_some h]
    exact ih.trans (List.drop_suffix length text)

end Scan

end PrefixScript
