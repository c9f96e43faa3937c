/-
  The nodes of a program tree.

  A `Node` is a `Construct` over its children, with its resolved type and
  perhaps the token it was built from.

  * `Node.describe` names the construct in messages;
  * `Node.closestToken?` is the token a message about the node refers to, and
    `Node.location?` its place.
-/
import Treewalk.Ty
import Treewalk.Token
import Treewalk.Tree.Operator

namespace Treewalk

/-- One constructor of a class, by position. -/
structure ConstructorRef where
  className : String
  index : Nat
  deriving DecidableEq, Inhabited

/-- What a node is, over the type `α` of its children. -/
inductive Construct (α : Type) where
  -- Literals and names
  | literal (value : Literal)
  | boolean (value : Bool)
  | string (text : String)
  | id (name : String)
  -- Operators
  | binary (op : BinaryOp) (lhs rhs : α)
  | unary (op : UnaryOp) (operand : α)
  /-- `x++` and `x--` -/
  | postStep (op : StepOp) (operand : α)
  | ternary (cond thenBranch elseBranch : α)
  | assignment (op : AssignOp) (lhs rhs : α)
  /-- conversion to the node's own type -/
  | cast (operand : α)
  | sizeOf (ty : Ty)
  -- Access
  | index (array index : α)
  | field (owner : α) (name : String)
  | deref (operand : α)
  | addressOf (operand : α)
  -- Calls
  | call (name : Token) (args : List α)
  | methodCall (owner : α) (method : Token) (args : List α)
  | construct (constructor : ConstructorRef) (args : List α)
  -- Declarations; the node's type is the declared type
  | declaration (name : String) (dims : List α)
  | initialized (decl init : α)
  | declarations (decls : List α)
  -- Statements
  | block (body : List α)
  | sequence (parts : List α)
  | ite (cond thenBranch : α) (elseBranch : Option α)
  | whileLoop (cond body : α)
  | doWhile (body cond : α)
  | forLoop (init cond step : Option α) (body : α)
  | ret (value : Option α)
  | brk
  | cont
  | empty

/-- A node: its construct, its resolved type and the token it came from. -/
inductive Node where
  | mk (construct : Construct Node) (ty : Ty) (token : Option Token)

namespace Node

def construct : Node → Construct Node
  | mk c _ _ => c

def ty : Node → Ty
  | mk _ ty _ => ty

def token : Node → Option Token
  | mk _ _ token => token

/-- The same node, built from the given token. -/
def withToken (n : Node) (t : Token) : Node :=
  mk n.construct n.ty (some t)

instance : Inhabited Node := ⟨mk .empty .void none⟩

/-- A short name of the construct, for messages. -/
def describe (n : Node) : String :=
  match n.construct with
  | .literal _ => "literal"
  | .boolean _ => "boolean literal"
  | .string _ => "string literal"
  | .id _ => "identifier"
  | .binary .. => "binary expression"
  | .unary .. => "unary expression"
  | .postStep .. => "postfix expression"
  | .ternary .. => "ternary expression"
  | .assignment .. => "assignment"
  | .cast _ => "cast"
  | .sizeOf _ => "sizeof"
  | .index .. => "array index"
  | .field .. => "field access"
  | .deref _ => "indirection"
  | .addressOf _ => "address-of"
  | .call .. => "function call"
  | .methodCall .. => "method call"
  | .construct .. => "constructor call"
  | .declaration .. => "declaration"
  | .initialized .. => "initialized declaration"
  | .declarations _ => "declarations"
  | .block _ => "compound statement"
  | .sequence _ => "sequence"
  | .ite .. => "if statement"
  | .whileLoop .. => "while loop"
  | .doWhile .. => "do-while loop"
  | .forLoop .. => "for loop"
  | .ret _ => "return"
  | .brk => "break"
  | .cont => "continue"
  | .empty => "empty statement"

mutual

/-- The node's own token, or else the first one found in its leading parts. -/
def closestToken? : Node → Option Token
  | mk _ _ (some t) => some t
  | mk (.call name _) _ none => some name
  | mk (.methodCall owner method _) _ none => owner.closestToken? <|> some method
  | mk (.binary _ l r) _ none => l.closestToken? <|> r.closestToken?
  | mk (.assignment _ l r) _ none => l.closestToken? <|> r.closestToken?
  | mk (.index a i) _ none => a.closestToken? <|> i.closestToken?
  | mk (.initialized d i) _ none => d.closestToken? <|> i.closestToken?
  | mk (.unary _ e) _ none => e.closestToken?
  | mk (.postStep _ e) _ none => e.closestToken?
  | mk (.cast e) _ none => e.closestToken?
  | mk (.deref e) _ none => e.closestToken?
  | mk (.addressOf e) _ none => e.closestToken?
  | mk (.field owner _) _ none => owner.closestToken?
  | mk (.block ns) _ none => closestTokenIn? ns
  | mk (.sequence ns) _ none => closestTokenIn? ns
  | mk (.declarations ns) _ none => closestTokenIn? ns
  | mk (.construct _ args) _ none => closestTokenIn? args
  | mk (.ternary c _ _) _ none => c.closestToken?
  | mk (.ite c _ _) _ none => c.closestToken?
  | mk (.whileLoop c _) _ none => c.closestToken?
  | mk (.doWhile body _) _ none => body.closestToken?
  | mk (.forLoop _ _ _ body) _ none => body.closestToken?
  | mk (.ret (some e)) _ none => e.closestToken?
  | mk _ _ none => none

/-- The first token found in a list of nodes. -/
def closestTokenIn? : List Node → Option Token
  | [] => none
  | n :: rest => n.closestToken? <|> closestTokenIn? rest

end

/-- The place of the closest token. -/
def location? (n : Node) : Option Location :=
  n.closestToken? >>= Token.location

end Node

end Treewalk
