import Mathlib
import PrefixScript.Program
import PrefixScript.Proofs.ArityAgreement
import PrefixScript.Proofs.Discipline
import PrefixScript.Proofs.ScannedTokens

/-!
# The check of arities never fails

A call is checked against the function that is registered under its name when it is evaluated, which
need not be the one it was parsed with. Only functions of the program are ever registered, so where
all functions of a name have the same number of parameters, the check always succeeds.
-/
namespace PrefixScript

/-- Functions of one name have the same number of parameters. -/
def Node.SameArities (program : List Node) : Prop :=
  ∀ first ∈ Node.declarations program, ∀ second ∈ Node.declarations program,
    first.1 = second.1 → first.2.params.length = second.2.params.length

instance (program : List Node) : Decidable (Node.SameArities program) :=
  inferInstanceAs (Decidable (∀ first ∈ Node.declarations program,
    ∀ second ∈ Node.declarations program,
      first.1 = second.1 → first.2.params.length = second.2.params.length))

/-- Each call fits every function of its name. -/
def Node.CallsFit (program : List Node) : Prop :=
  ∀ name args found, Node.call name args ∈ Node.subnodesOf program →
    (name, found) ∈ Node.declarations program → args.length = found.params.length

/-- Nothing is asked of the machine. A failure is anything but a wrong number of arguments. -/
def arityLaw : Law Failure Machine where
  kept _ _ := True
  failed failure _ _ := ∀ fault, failure = .fault fault → fault.diagnostic.category ≠ .arity
  refl _ := trivial
  trans _ _ := trivial
  failed_of_kept _ h := h

/-- A node of a program finds fault with arities only where a call does not fit a function. -/
theorem Node.Raises.category_ne_arity {program : List Node} (h : Node.CallsFit program)
    {node : Node} {functions : Table Declaration} {fault : Fault}
    (hn : node ∈ Node.subnodesOf program)
    (hf : ∀ name found, functions.find? name = some found →
      (name, found) ∈ Node.declarations program)
    (hr : node.Raises functions fault) : fault.diagnostic.category ≠ .arity := by
  cases hr with
  | arityMismatch hfound hlen => exact absurd (h _ _ _ hn (hf _ _ hfound)) hlen
  | _ => exact fun he => by cases he

/-- The nodes of the program are run, and its functions are registered. -/
def arityDiscipline (program : List Node) (h : Node.CallsFit program) : Discipline where
  expression node := node ∈ Node.subnodesOf program
  statement node := node ∈ Node.subnodesOf program
  registered name found := (name, found) ∈ Node.declarations program
  evaluating := arityLaw
  executing := arityLaw
  expression_operand hn ho :=
    Node.subnodesOf_trans hn (Node.child_mem_subnodes (List.mem_append_left _ ho))
  statement_operand hn ho :=
    Node.subnodesOf_trans hn (Node.child_mem_subnodes (List.mem_append_left _ ho))
  statement_step hn hs :=
    Node.subnodesOf_trans hn (Node.child_mem_subnodes (List.mem_append_right _ hs))
  statement_bare hn _ := hn
  statement_function hn := Node.mem_declarations.2 hn
  registered_body hm hs := Node.subnodesOf_trans (Node.mem_declarations.1 hm)
    (Node.child_mem_subnodes (List.mem_append_right _ hs))
  executing_kept _ := trivial
  executing_failed hf := hf
  world_kept _ _ := trivial
  raises_failed hn hf hr := by
    rintro _ ⟨⟩
    exact hr.category_ne_arity h (hn.elim id id) hf
  tooDeep_failed _ _ he := by cases he
  unfinished_failed _ _ he := by cases he
  bind_kept _ _ _ := trivial
  register_kept _ _ := trivial
  call_kept _ := trivial
  call_failed hf := hf

/-- A derived program whose functions agree has only calls that fit. -/
theorem Derives.callsFit {front : List Token} {last : Token} {program : List Node}
    (h : Derives (.ofTokens (front ++ [last])) (.statements program) front)
    (hl : last.kind = .ending) (hs : Node.SameArities program) : Node.CallsFit program := by
  intro name args found hc hd
  obtain ⟨latest, hlatest, hlen⟩ := h.exists_lastDeclared hl hc
  have hsame := hs (name, found) hd (name, latest) (Node.mem_of_lastDeclared? hlatest) rfl
  rw [hlen, hsame]

/-- However a source was assembled and whatever happens in its run, no call is refused for the
number of its arguments, provided that functions of one name agree on it. -/
theorem arity_check_succeeds {directory source : String} {path : Option String}
    {host assembled : Host} {tokens rest : List Token} {nesting : Nat} {program : List Node}
    (ht : Host.tokenize directory path source host = .ok tokens assembled)
    (hp : Parse.tokens nesting tokens = .ok program rest) (hs : Node.SameArities program)
    (rounds depth : Nat) (world : World) :
    ∀ fault machine,
      Evaluation.run rounds depth program (.start world) = .error (.fault fault) machine →
        fault.diagnostic.category ≠ .arity := by
  obtain ⟨front, rfl, hscanned⟩ := Host.tokenize_eq ht
  have hfront : ∀ token ∈ front, token.kind ≠ .ending :=
    fun token hm => (hscanned token hm).kind_ne_ending
  obtain ⟨hd, -⟩ := Parse.derives_of_tokens_ok hfront rfl hp
  have hfit : Node.CallsFit program := hd.callsFit rfl hs
  have hrun := (arityDiscipline program hfit).run_obeyed rounds depth program fun node hn =>
    Node.mem_subnodesOf.2 ⟨node, hn, node.self_mem_subnodes⟩
  have hregistry : (arityDiscipline program hfit).Registry (.start world) := by
    intro name found hf
    cases hf
  intro fault machine he
  exact ((Law.Obeyed.ends hrun hregistry).of_error he).2 fault rfl

/-- The call in the body finds the inner function, which has one parameter as well. -/
theorem arity_check_succeeds_redeclared :
    ¬ ∃ fault machine,
      Evaluation.run 9 9
        [.function "f" ["a"]
          [.function "f" ["b"] [.ret (.lookup "b")], .ret (.call "f" [.lookup "a"])],
          .print (.call "f" [.read]) "implicit"]
        (.start ⟨.empty, ['x'], fun _ => 0, 0, [], "/"⟩) = .error (.fault fault) machine ∧
      fault.diagnostic.category = .arity := by
  have ht : Host.tokenize "/" none
      "function f(a) \x7b function f(b) \x7b return b \x7d return f a \x7d f read"
      (.start ⟨.empty, ['x'], fun _ => 0, 0, [], "/"⟩ true) =
      .ok [⟨.functionWord, "function"⟩, ⟨.identifier, "f"⟩, ⟨.leftParen, "("⟩, ⟨.identifier, "a"⟩,
        ⟨.rightParen, ")"⟩, ⟨.leftBrace, "\x7b"⟩, ⟨.functionWord, "function"⟩, ⟨.identifier, "f"⟩,
        ⟨.leftParen, "("⟩, ⟨.identifier, "b"⟩, ⟨.rightParen, ")"⟩, ⟨.leftBrace, "\x7b"⟩,
        ⟨.returnWord, "return"⟩, ⟨.identifier, "b"⟩, ⟨.rightBrace, "\x7d"⟩,
        ⟨.returnWord, "return"⟩, ⟨.identifier, "f"⟩, ⟨.identifier, "a"⟩, ⟨.rightBrace, "\x7d"⟩,
        ⟨.identifier, "f"⟩, ⟨.read, "read"⟩, .ending]
        (.start ⟨.empty, ['x'], fun _ => 0, 0, [], "/"⟩ true) := by
    cbv
  have hp : Parse.tokens 8
      [⟨.functionWord, "function"⟩, ⟨.identifier, "f"⟩, ⟨.leftParen, "("⟩, ⟨.identifier, "a"⟩,
        ⟨.rightParen, ")"⟩, ⟨.leftBrace, "\x7b"⟩, ⟨.functionWord, "function"⟩, ⟨.identifier, "f"⟩,
        ⟨.leftParen, "("⟩, ⟨.identifier, "b"⟩, ⟨.rightParen, ")"⟩, ⟨.leftBrace, "\x7b"⟩,
        ⟨.returnWord, "return"⟩, ⟨.identifier, "b"⟩, ⟨.rightBrace, "\x7d"⟩,
        ⟨.returnWord, "return"⟩, ⟨.identifier, "f"⟩, ⟨.identifier, "a"⟩, ⟨.rightBrace, "\x7d"⟩,
        ⟨.identifier, "f"⟩, ⟨.read, "read"⟩, .ending] =
      .ok [.function "f" ["a"]
          [.function "f" ["b"] [.ret (.lookup "b")], .ret (.call "f" [.lookup "a"])],
        .print (.call "f" [.read]) "implicit"] [.ending] := by
    rfl
  rintro ⟨fault, machine, he, hc⟩
  exact arity_check_succeeds ht hp (by decide) 9 9 _ fault machine he hc

end PrefixScript
