import PrefixScript.Value

/-!
# Syntax trees

The nodes of a program. Operators are kept as they are spelled, and any node can stand anywhere:
which trees can be run is settled by the evaluation alone.
-/

namespace PrefixScript

inductive Node where
  | literal (value : Value)
  | lookup (name : String)
  | math (op : String) (left right : Node)
  | unary (op : String) (operand : Node)
  | comparison (op : String) (left right : Node)
  | call (name : String) (args : List Node)
  | read
  | pause (delay : Node)
  | wipe
  | bind (name : String) (value : Node)
  | print (value : Node) (variant : String)
  | ifThen (cond : Node) (body : List Node)
  | ifElse (cond : Node) (body other : List Node)
  | whileLoop (cond : Node) (body : List Node)
  | forLoop (counter : String) (start stop : Node) (body : List Node)
  | function (name : String) (params : List String) (body : List Node)
  | ret (value : Node)
  | program (body : List Node)
  | unknown (kind : String)

namespace Node

instance : Inhabited Node := ⟨wipe⟩

/-- The name of a node's kind in messages. -/
def kindName : Node → String
  | literal .. => "Literal"
  | lookup .. => "Variable"
  | math .. => "BinaryMath"
  | unary .. => "Unary"
  | comparison .. => "Comparison"
  | call .. => "Call"
  | read => "Read"
  | pause .. => "Pause"
  | wipe => "Wipe"
  | bind .. => "VarDecl"
  | print .. => "Print"
  | ifThen .. => "If"
  | ifElse .. => "If"
  | whileLoop .. => "While"
  | forLoop .. => "For"
  | function .. => "FunctionDecl"
  | ret .. => "Return"
  | program .. => "Program"
  | unknown kind => kind

/-- The statements that a node runs one after the other, if it has such a list. -/
def statements : Node → List Node
  | whileLoop _ body => body
  | forLoop _ _ _ body => body
  | function _ _ body => body
  | program body => body
  | _ => []

end Node

end PrefixScript
