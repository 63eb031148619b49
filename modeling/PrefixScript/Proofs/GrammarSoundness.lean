import PrefixScript.Proofs.Reading

/-!
# What the parser accepts is written as the grammar says

The parser is followed token by token. An expression or a statement that is read takes the tokens of
a phrase, and where the parser stops it says why. From one token to the next it goes down four
levels at most: a statement, what follows its first word, a body, and a block. So where it finds the
nesting too deep, the depth is short for the tokens that were taken.
-/
namespace PrefixScript.Parse
variable {arities : Arities}

section Short
variable {spare more depth : Nat} {used target : List Token}

/-- A depth is short for some tokens if it allows no more than four levels for each of them and some
to spare. -/
def Short (spare depth : Nat) (used : List Token) : Prop := depth ≤ 4 * used.length + spare

theorem Short.zero : Short spare 0 used := Nat.zero_le _

theorem Short.append (first : List Token) (h : Short spare depth used) :
    Short spare depth (first ++ used) := by
  unfold Short at h ⊢
  rw [List.length_append]
  omega

/-- A part that begins at the same token is one level further down. -/
theorem Short.begun (h : Short spare depth used) (hs : spare < more) :
    Short more (depth + 1) used := by
  unfold Short at h ⊢
  omega

/-- A token in front makes up for the level of a part behind it. -/
theorem Short.behind (h : Short spare depth used) (hs : spare < more + 4)
    (hl : used.length < target.length) : Short more (depth + 1) target := by
  unfold Short at h ⊢
  omega

/-- At depth zero no token is taken. -/
theorem Reads.tooDeep {α : Type} {S : α → List Token → List Token → Prop} {tokens : List Token} :
    Reads (Short spare 0) (throw .tooDeep) S tokens :=
  ⟨[], .nil tokens, .tooDeep .zero⟩

end Short

section Expressions
variable {depth : Nat} {token : Token} {rest : List Token}

/-- What is read as an expression at some depth is one. -/
def ExpressionReads (arities : Arities) (depth : Nat) : Prop :=
  ∀ tokens, Reads (Short 0 depth) (expression arities depth)
    (fun node used _ => Derives arities (.expression node) used) tokens

theorem arguments_reads (h : ∀ lower < depth, ExpressionReads arities lower) (count : Nat)
    (tokens : List Token) :
    Reads (Short 1 depth) (arguments arities depth count)
      (fun args used _ => args.length = count ∧ Derives arities (.expressions args) used)
      tokens := by
  cases depth with
  | zero => exact .tooDeep
  | succ depth =>
    have hlist := reads_repeated (P := fun nodes used => Derives arities (.expressions nodes) used)
      .noExpression .moreExpressions (fun first _ => Short.append first)
      (h depth depth.lt_succ_self) count [] tokens
    refine hlist.mono (fun _ hd => hd.begun Nat.zero_lt_one) ?_
    rintro all used _ _ ⟨nodes, rfl, hlen, hd⟩
    exact ⟨hlen, hd⟩

/-- A builtin with one operand. -/
theorem expression_one_reads {f : Node → Node} (h : ExpressionReads arities depth)
    (he : expression arities (depth + 1) (token :: rest) =
      (do
        let operand ← expression arities depth
        return f operand : ParseM Node) rest)
    (hk : token.kind ≠ .ending)
    (hf : ∀ {operand used}, Derives arities (.expression operand) used →
      Derives arities (.expression (f operand)) (token :: used)) :
    Reads (Short 0 (depth + 1)) (expression arities (depth + 1))
      (fun node used _ => Derives arities (.expression node) used) (token :: rest) := by
  refine .step he hk (.map ((h rest).mono (fun used hd => ?_) fun operand used _ _ ho => hf ho))
  exact hd.behind (by decide) (by simp)

/-- An operator with two operands. -/
theorem expression_two_reads {f : Node → Node → Node} (h : ExpressionReads arities depth)
    (he : expression arities (depth + 1) (token :: rest) =
      (do
        let left ← expression arities depth
        let right ← expression arities depth
        return f left right : ParseM Node) rest)
    (hk : token.kind ≠ .ending)
    (hf : ∀ {left right first second}, Derives arities (.expression left) first →
      Derives arities (.expression right) second →
      Derives arities (.expression (f left right)) (token :: (first ++ second))) :
    Reads (Short 0 (depth + 1)) (expression arities (depth + 1))
      (fun node used _ => Derives arities (.expression node) used) (token :: rest) := by
  refine .step he hk ((h rest).bind (fun used hd => ?_) fun left first more _ hl => ?_)
  · exact hd.behind (by decide) (by simp)
  · refine .map ((h more).mono (fun used hd => ?_) fun right used _ _ hr => hf hl hr)
    exact hd.behind (by decide) (by grind)

/-- The induction is on the depth. The arguments of a call are two levels further down. -/
theorem expression_reads (depth : Nat) : ExpressionReads arities depth := by
  induction depth using Nat.strongRecOn with
  | ind depth ih =>
    intro tokens
    cases depth with
    | zero => exact .tooDeep
    | succ depth =>
      have inner := ih depth depth.lt_succ_self
      cases tokens with
      | nil => exact ⟨[], .nil [], .exhausted⟩
      | cons token rest =>
        cases ho : token.kind.opensExpression with
        | false => exact .refused (expression_unexpected ho) (.nil _) (.unexpected ho)
        | true =>
          have hne : token.kind ≠ .ending := by
            intro he
            rw [he] at ho
            cases ho
          rcases Kind.opensExpression_cases ho with hk | hk | hk | hk | hk | hk | hk | hk | hk
          · exact expression_one_reads inner (expression_unary hk) hne (.unary hk)
          · exact expression_two_reads inner (expression_comparison hk) hne (.comparison hk)
          · exact expression_two_reads inner (expression_math hk) hne (.math hk)
          · cases ha : arities.find? token.lexeme with
            | none => exact .step (expression_lookup hk ha) hne (.pure (.lookup hk ha))
            | some count =>
              refine .step (expression_call hk ha) hne (.map ?_)
              have below (lower : Nat) (hl : lower < depth) : ExpressionReads arities lower :=
                ih lower (Nat.lt_succ_of_lt hl)
              refine (arguments_reads below count rest).mono (fun used hd => ?_) ?_
              · exact hd.behind (by decide) (by simp)
              · rintro args used _ _ ⟨rfl, h⟩
                exact .call hk ha h
          · cases hv : Decimal.writtenValue? token.lexeme.toList with
            | some value => exact .step (expression_number hk hv) hne (.pure (.number hk hv))
            | none =>
              have ht : Taken [token] rest (token :: rest) := ⟨rfl, by simpa using hne⟩
              exact .refused (expression_noNumber hk hv) ht (.noNumber List.mem_cons_self hk hv)
          · exact .step (expression_string hk) hne (.pure (.string hk))
          · exact .step (expression_read hk) hne (.pure (.read hk))
          · exact expression_one_reads inner (expression_pause hk) hne (.pause hk)
          · exact .step (expression_wipe hk) hne (.pure (.wipe hk))

end Expressions

/-- A dangling phrase is followed by a token that is no `else`. -/
def Follows (dangling : Bool) (rest : List Token) : Prop :=
  dangling = true → ∃ next more, rest = next :: more ∧ next.kind ≠ .elseWord

theorem Follows.closed {rest : List Token} : Follows false rest := fun h => by cases h

/-- Only a closed phrase is followed by `else`. -/
theorem Follows.eq_false {dangling : Bool} {next : Token} {rest : List Token}
    (h : Follows dangling (next :: rest)) (hn : next.kind = .elseWord) : dangling = false := by
  cases dangling with
  | false => rfl
  | true =>
    obtain ⟨other, _, ho, hne⟩ := h rfl
    cases ho
    exact absurd hn hne

/-- What is read of a statement: a phrase that may be dangling. -/
def StatementRead (arities : Arities) (node : Node) (used rest : List Token) : Prop :=
  ∃ dangling, Derives arities (.statement dangling node) used ∧ Follows dangling rest

theorem StatementRead.closed {node : Node} {used rest : List Token}
    (h : Derives arities (.statement false node) used) : StatementRead arities node used rest :=
  ⟨false, h, .closed⟩

/-- What is read as a statement at some depth is one, as far as no more tokens are left than there
are rounds. -/
def StatementReads (arities : Arities) (rounds depth : Nat) : Prop :=
  ∀ tokens, tokens.length ≤ rounds →
    Reads (Short 2 depth) (statement arities rounds depth) (StatementRead arities) tokens

section Lists
variable {depth rounds : Nat} {tokens : List Token}

/-- A parameter is a name, with or without a comma. -/
def IsParameter (name : String) (used : List Token) : Prop :=
  ∃ token, token.kind = .identifier ∧ name = token.lexeme ∧
    (used = [token] ∨ ∃ comma, comma.kind = .comma ∧ used = [token, comma])

theorem parameter_reads :
    Reads (fun _ => False) parameter (fun name used _ => IsParameter name used) tokens := by
  refine reads_consume (by decide) fun token more _ hk => ?_
  refine reads_peek fun next rest he => ?_
  subst he
  split
  · rename_i hc
    exact ⟨[next], ⟨rfl, by simp [hc]⟩, token, hk, rfl, .inr ⟨next, hc, rfl⟩⟩
  · exact .pure ⟨token, hk, rfl, .inl rfl⟩

/-- Parameters are never nested too deeply. -/
theorem parameters_reads (h : tokens.length ≤ rounds) :
    Reads (fun _ => False) (upTo .rightParen parameter rounds [])
      (fun names used _ => Derives arities (.parameters names) used) tokens := by
  have hcons {name names first more} (hf : IsParameter name first)
      (hm : Derives arities (.parameters names) more) :
      Derives arities (.parameters (name :: names)) (first ++ more) := by
    obtain ⟨token, hk, rfl, rfl | ⟨comma, hc, rfl⟩⟩ := hf
    · exact .parameter hk hm
    · exact .parameterComma hk hc hm
  have hne {name} : ¬ IsParameter name [] := by
    rintro ⟨token, _, _, h | ⟨comma, _, h⟩⟩ <;> cases h
  have hitem (tokens : List Token) (_ : tokens.length ≤ rounds) :
      Reads (fun _ => False) parameter (fun name used _ => IsParameter name used) tokens :=
    parameter_reads
  have hlist := reads_upTo (P := fun names used => Derives arities (.parameters names) used)
    .rightParen .noParameter hcons hne (fun _ _ => id) rounds hitem rounds [] tokens h h
  refine hlist.mono (fun _ => id) ?_
  rintro all used rest - ⟨⟨names, rfl, hp⟩, -⟩
  exact hp

theorem statements_reads {stop : Kind} (hs : StatementReads arities rounds depth)
    (h : tokens.length ≤ rounds) :
    Reads (Short 2 depth) (upTo stop (statement arities rounds depth) rounds [])
      (fun nodes used rest => Derives arities (.statements nodes) used ∧
        ∃ token more, rest = token :: more ∧ token.kind = stop) tokens := by
  have hitem (tokens : List Token) (hl : tokens.length ≤ rounds) :
      Reads (Short 2 depth) (statement arities rounds depth)
        (fun node used _ => ∃ dangling, Derives arities (.statement dangling node) used) tokens :=
    (hs tokens hl).mono (fun _ => id) fun _ _ _ _ ⟨dangling, hd, _⟩ => ⟨dangling, hd⟩
  have hne {node} : ¬ ∃ dangling, Derives arities (.statement dangling node) [] := by
    rintro ⟨dangling, hd⟩
    obtain ⟨token, rest, he, -⟩ := hd.opens
    cases he
  have hlist := reads_upTo (P := fun nodes used => Derives arities (.statements nodes) used)
    stop .noStatement (fun ⟨_, hf⟩ hm => .moreStatements hf hm) hne
    (fun first _ => Short.append first) rounds hitem rounds [] tokens h h
  refine hlist.mono (fun _ => id) ?_
  rintro all used rest - ⟨⟨nodes, rfl, hp⟩, hstop⟩
  exact ⟨hp, hstop⟩

variable (hs : ∀ lower < depth, StatementReads arities rounds lower)
include hs

theorem block_reads (h : tokens.length ≤ rounds) :
    Reads (Short 2 depth) (block arities rounds depth)
      (fun nodes used _ => Derives arities (.block nodes) used) tokens := by
  cases depth with
  | zero => exact .tooDeep
  | succ depth =>
    refine reads_consume (by decide) fun left inner he hl => ?_
    have hi : inner.length ≤ rounds := by
      rw [he, List.length_cons] at h
      omega
    refine (statements_reads (hs depth depth.lt_succ_self) hi).bind (fun used hd => ?_) ?_
    · exact hd.behind (by decide) (by simp)
    · intro nodes used more _ hnodes
      exact reads_consume (by decide) fun right rest _ hr => .pure (.block hl hnodes.1 hr)

theorem body_reads (h : tokens.length ≤ rounds) :
    Reads (Short 3 depth) (body arities rounds depth)
      (fun nodes used rest =>
        ∃ dangling, Derives arities (.body dangling nodes) used ∧ Follows dangling rest)
      tokens := by
  cases depth with
  | zero => exact .tooDeep
  | succ depth =>
    refine reads_peek fun token rest _ => ?_
    split
    · have hblock := block_reads (fun lower hl => hs lower (Nat.lt_succ_of_lt hl)) h
      refine hblock.mono (fun used hd => hd.begun (by decide)) fun nodes used rest _ hb => ?_
      exact ⟨false, .braces hb, .closed⟩
    · have honly := hs depth depth.lt_succ_self tokens h
      refine .map (honly.mono (fun used hd => hd.begun (by decide)) ?_)
      rintro node used rest - ⟨dangling, hd, hf⟩
      exact ⟨dangling, .single hd, hf⟩

end Lists

section Words
variable {depth rounds : Nat} {tokens : List Token}

theorem binding_reads :
    Reads (Short 1 depth) (binding arities depth) (StatementRead arities) tokens := by
  cases depth with
  | zero => exact .tooDeep
  | succ depth =>
    refine reads_consume (by decide) fun word more _ hk => ?_
    refine reads_consume (by decide) fun name more _ hn => ?_
    refine reads_consume (by decide) fun sign inner _ hs => ?_
    refine .map ((expression_reads depth inner).mono (fun used hd => ?_) fun value used _ _ h => ?_)
    · exact hd.behind (by decide) (by grind)
    · exact .closed (.bind hk hn hs h)

/-- What comes behind one of the words that print. -/
theorem printing_reads {word : Token} {rest : List Token} (hk : word.kind ∈ Kind.prints) :
    Reads (Short 1 depth) (printing arities depth) (StatementRead arities) (word :: rest) := by
  cases depth with
  | zero => exact .tooDeep
  | succ depth =>
    have hword : word.kind ≠ .ending := by
      rcases Kind.mem_prints.1 hk with hk | hk <;> simp [hk]
    refine .step printing_succ hword ?_
    refine .map ((expression_reads depth rest).mono (fun used hd => ?_) fun value used _ _ h => ?_)
    · exact hd.behind (by decide) (by simp)
    · exact .closed (.print hk h)

variable (hs : ∀ lower < depth, StatementReads arities rounds lower)
include hs

/-- After the first body the next token decides: only a closed body can be followed by `else`. -/
theorem conditional_reads (hr : tokens.length ≤ rounds) :
    Reads (Short 1 depth) (conditional arities rounds depth) (StatementRead arities) tokens := by
  cases depth with
  | zero => exact .tooDeep
  | succ depth =>
    have below (lower : Nat) (hl : lower < depth) : StatementReads arities rounds lower :=
      hs lower (Nat.lt_succ_of_lt hl)
    refine reads_consume (by decide) fun word rest he hk => ?_
    rw [he, List.length_cons] at hr
    refine (expression_reads depth rest).bind (fun used hd => ?_) fun cond first more hm hc => ?_
    · exact hd.behind (by decide) (by simp)
    have hmore : more.length ≤ rounds := by
      have hlen := hm.length_le
      omega
    refine (body_reads below hmore).bind (fun used hd => hd.behind (by decide) (by grind)) ?_
    rintro body second after ha ⟨dangling, hb, hf⟩
    refine reads_peek fun next left he => ?_
    subst he
    split
    · rename_i hn
      obtain rfl := hf.eq_false hn
      have hleft : left.length ≤ rounds := by
        have hlen := Nat.le_trans ha.length_le hmore
        rw [List.length_cons] at hlen
        omega
      refine .step rfl (by simp [hn]) (.map ((body_reads below hleft).mono (fun used hd => ?_) ?_))
      · exact hd.behind (by decide) (by grind)
      · rintro other third final - ⟨dangling, ho, hd⟩
        exact ⟨dangling, .ifElse hk hc hb hn ho, hd⟩
    · rename_i hn
      refine .pure ⟨true, ?_, fun _ => ⟨next, left, rfl, hn⟩⟩
      rw [List.append_nil]
      exact .ifThen hk hc hb

theorem whileLoop_reads (hr : tokens.length ≤ rounds) :
    Reads (Short 1 depth) (whileLoop arities rounds depth) (StatementRead arities) tokens := by
  cases depth with
  | zero => exact .tooDeep
  | succ depth =>
    refine reads_consume (by decide) fun word rest he hk => ?_
    rw [he, List.length_cons] at hr
    refine (expression_reads depth rest).bind (fun used hd => ?_) fun cond first more hm hc => ?_
    · exact hd.behind (by decide) (by simp)
    have hmore : more.length ≤ rounds := by
      have hlen := hm.length_le
      omega
    have hbody := body_reads (fun lower hl => hs lower (Nat.lt_succ_of_lt hl)) hmore
    refine .map (hbody.mono (fun used hd => hd.behind (by decide) (by grind)) ?_)
    rintro body second after - ⟨dangling, hb, hf⟩
    exact ⟨dangling, .whileLoop hk hc hb, hf⟩

theorem forLoop_reads (hr : tokens.length ≤ rounds) :
    Reads (Short 1 depth) (forLoop arities rounds depth) (StatementRead arities) tokens := by
  cases depth with
  | zero => exact .tooDeep
  | succ depth =>
    refine reads_consume (by decide) fun word rest he hk => ?_
    refine reads_consume (by decide) fun name more hname hn => ?_
    refine reads_consume (by decide) fun sign inner hsign hg => ?_
    rw [he, hname, hsign] at hr
    simp only [List.length_cons] at hr
    refine (expression_reads depth inner).bind (fun used hd => ?_) fun start first after ha hl => ?_
    · exact hd.behind (by decide) (by grind)
    refine (expression_reads depth after).bind (fun used hd => ?_) fun stop second last hb hu => ?_
    · exact hd.behind (by decide) (by grind)
    have hlast : last.length ≤ rounds := by
      have hlen := (ha.append hb).length_le
      omega
    have hbody := body_reads (fun lower hl => hs lower (Nat.lt_succ_of_lt hl)) hlast
    refine .map (hbody.mono (fun used hd => hd.behind (by decide) (by grind)) ?_)
    rintro body third final - ⟨dangling, hbody, hf⟩
    exact ⟨dangling, .forLoop hk hn hg hl hu hbody, hf⟩

theorem declaration_reads (hr : tokens.length ≤ rounds) :
    Reads (Short 1 depth) (declaration arities rounds depth) (StatementRead arities) tokens := by
  cases depth with
  | zero => exact .tooDeep
  | succ depth =>
    refine reads_consume (by decide) fun word rest he hk => ?_
    refine reads_consume (by decide) fun name more hname hn => ?_
    refine reads_consume (by decide) fun left inner hleft hl => ?_
    rw [he, hname, hleft] at hr
    simp only [List.length_cons] at hr
    have hparams : Reads (fun _ => False) (upTo .rightParen parameter rounds [])
        (fun names used _ => Derives arities (.parameters names) used) inner :=
      parameters_reads (by omega)
    refine hparams.bind (fun _ hd => hd.elim) fun params first after ha hp => ?_
    refine reads_consume (by decide) fun right last hright hg => ?_
    have hlast : last.length ≤ rounds := by
      have hlen := ha.length_le
      rw [hright, List.length_cons] at hlen
      omega
    have hblock := block_reads (fun lower hl => hs lower (Nat.lt_succ_of_lt hl)) hlast
    refine .map (hblock.mono (fun used hd => hd.behind (by decide) (by grind)) ?_)
    exact fun body second _ _ hb => .closed (.function hk hn hl hp hg hb)

end Words

section Statements
variable {depth rounds : Nat} {token : Token} {rest : List Token}

theorem statement_return_reads (hk : token.kind = .returnWord) :
    Reads (Short 2 (depth + 1)) (statement arities rounds (depth + 1)) (StatementRead arities)
      (token :: rest) := by
  refine .step (statement_return hk) (by simp [hk]) ?_
  refine .map ((expression_reads depth rest).mono (fun used hd => ?_) fun value used _ _ h => ?_)
  · exact hd.behind (by decide) (by simp)
  · exact .closed (.ret hk h)

/-- An expression that stands alone. A pause or a wipe is the statement itself, anything else is
printed. -/
theorem statement_expression_reads (hk : token.kind.opensOther = false) :
    Reads (Short 2 (depth + 1)) (statement arities rounds (depth + 1)) (StatementRead arities)
      (token :: rest) := by
  have hfirst {node : Node} {used left : List Token} (ht : Taken used left (token :: rest))
      (h : Derives arities (.expression node) used) :
      node.isAction = decide (token.kind = .pause ∨ token.kind = .wipe) := by
    obtain ⟨first, more, rfl, -⟩ := h.opens
    have he : token = first := (List.cons.inj ht.1).1
    rw [he]
    exact h.isAction_eq
  have hread := @expression_reads arities depth (token :: rest)
  by_cases ha : token.kind = .pause ∨ token.kind = .wipe
  · refine .congr (statement_action ha) (hread.mono (fun used hd => hd.begun (by decide)) ?_)
    intro node used left ht h
    exact .closed (.action h (by rw [hfirst ht h, decide_eq_true ha]))
  · have hnone : ¬ token.kind = .pause ∧ ¬ token.kind = .wipe := not_or.1 ha
    refine .congr (statement_implicit hk hnone.1 hnone.2) (.map ?_)
    refine hread.mono (fun used hd => hd.begun (by decide)) fun node used left ht h => ?_
    exact .closed (.implicit h (by rw [hfirst ht h, decide_eq_false ha]))

/-- What follows a word is read one level further down. -/
theorem statement_word_reads {parser : ParseM Node}
    (he : statement arities rounds (depth + 1) (token :: rest) = parser (token :: rest))
    (h : Reads (Short 1 depth) parser (StatementRead arities) (token :: rest)) :
    Reads (Short 2 (depth + 1)) (statement arities rounds (depth + 1)) (StatementRead arities)
      (token :: rest) :=
  .congr he (h.mono (fun _ hd => hd.begun (by decide)) fun _ _ _ _ => id)

/-- What is read as a statement is one. The induction is on the depth: inner statements are read at
lower ones. -/
theorem statement_reads (rounds depth : Nat) : StatementReads arities rounds depth := by
  induction depth using Nat.strongRecOn with
  | ind depth ih =>
    intro tokens hr
    cases depth with
    | zero => exact .tooDeep
    | succ depth =>
      have below (lower : Nat) (hl : lower < depth) : StatementReads arities rounds lower :=
        ih lower (Nat.lt_succ_of_lt hl)
      cases tokens with
      | nil => exact ⟨[], .nil [], .exhausted⟩
      | cons token rest =>
        cases ho : token.kind.opensOther with
        | false => exact statement_expression_reads ho
        | true =>
          rcases Kind.opensOther_cases ho with hk | hk | hk | hk | hk | hk | hk
          · exact statement_word_reads (statement_print hk) (printing_reads hk)
          · exact statement_word_reads (statement_let hk) binding_reads
          · exact statement_word_reads (statement_if hk) (conditional_reads below hr)
          · exact statement_word_reads (statement_while hk) (whileLoop_reads below hr)
          · exact statement_word_reads (statement_for hk) (forLoop_reads below hr)
          · exact statement_word_reads (statement_function hk) (declaration_reads below hr)
          · exact statement_return_reads hk

/-- A whole program is read up to the ending token. -/
theorem program_reads (depth : Nat) (tokens : List Token) :
    Reads (Short 2 depth) (program arities tokens.length depth)
      (fun nodes used rest => Derives arities (.statements nodes) used ∧
        ∃ token more, rest = token :: more ∧ token.kind = .ending) tokens :=
  statements_reads (statement_reads tokens.length depth) (Nat.le_refl _)

end Statements

/-- Tokens that are taken from a list stand before its ending token. -/
theorem Taken.exists_front {front used rest after : List Token} {last : Token}
    (h : Taken used rest (front ++ last :: after)) (hl : last.kind = .ending) :
    ∃ more, front = used ++ more ∧ rest = more ++ last :: after := by
  rcases List.append_eq_append_iff.1 h.1 with ⟨more, hu, hm⟩ | ⟨more, hf, hm⟩
  · cases more with
    | nil => exact ⟨[], by rw [hu, List.append_nil, List.append_nil], hm.symm⟩
    | cons first others =>
      have he : last = first := (List.cons.inj hm).1
      refine absurd hl (h.2 last ?_)
      rw [hu, he]
      exact List.mem_append_right _ List.mem_cons_self
  · exact ⟨more, hf, hm⟩

/-- Of an accepted list the tokens before the ending one are read, and none behind it. -/
theorem derives_of_tokens_ok {depth : Nat} {front after rest : List Token} {last : Token}
    {nodes : List Node} (hf : ∀ token ∈ front, token.kind ≠ .ending) (hl : last.kind = .ending)
    (h : tokens depth (front ++ last :: after) = .ok nodes rest) :
    Derives (.ofTokens (front ++ last :: after)) (.statements nodes) front ∧
      rest = last :: after := by
  have hr := (@program_reads (.ofTokens (front ++ last :: after)) depth
    (front ++ last :: after)).of_ok h
  obtain ⟨used, ht, hd, token, more, hrest, hk⟩ := hr
  obtain ⟨others, hfront, hend⟩ := ht.exists_front hl
  rw [hend] at hrest ⊢
  cases others with
  | nil =>
    rw [List.append_nil] at hfront
    exact ⟨hfront ▸ hd, rfl⟩
  | cons first others =>
    have he : first = token := (List.cons.inj hrest).1
    refine absurd hk (hf token ?_)
    rw [hfront, he]
    exact List.mem_append_right _ List.mem_cons_self

end PrefixScript.Parse
