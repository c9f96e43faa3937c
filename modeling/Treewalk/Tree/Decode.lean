/-
  Reading program trees from JSON.

  `decodeProgram?`, `decodeNode?`, `decodeTy?`, … read a tree from a JSON
  value, `Program.parse?` from text. Values that are not trees are refused;
  fields with a default may be missing, unknown fields are skipped.

  Trees are read down to the nesting depth that JSON text can have.
-/
import Treewalk.Json.Reader
import Treewalk.Json.Record
import Treewalk.Tree.Program

namespace Treewalk

open Json

/-! ## Types and tokens -/

def decodeKind? (j : Json) : Option Kind := do
  let c ← j.choice?
  match c.name with
  | "Void" => c.bare .void
  | "Char" => c.bare .char
  | "Short" => c.bare .short
  | "Int" => c.bare .int
  | "Long" => c.bare .long
  | "Float" => c.bare .float
  | "Double" => c.bare .double
  | _ => none

/-- A type nested at most `fuel` levels deep. -/
def decodeTyWithin? : Nat → Json → Option Ty
  | 0, _ => none
  | fuel + 1, j => do
    let c ← j.choice?
    match c.name with
    | "Primitive" => c.data fun j => do
      let f ← j.record? ["kind", "unsigned"]
      return .primitive (← f.required "kind" decodeKind?) (← f.required "unsigned" bool?)
    | "Pointer" => c.data fun j => return .pointer (← decodeTyWithin? fuel j)
    | "Array" => c.data fun j => do
      let f ← j.record? ["element", "size"]
      return .array (← f.required "element" (decodeTyWithin? fuel)) (← f.optional "size" nat?)
    | "Struct" => c.data fun j => return .compound .struct (← j.string?)
    | "Class" => c.data fun j => return .compound .class_ (← j.string?)
    | "Const" => c.data fun j => return .const (← decodeTyWithin? fuel j)
    | _ => none

def decodeTy? : Json → Option Ty :=
  decodeTyWithin? depthMax

def decodeLocation? (j : Json) : Option Location := do
  let f ← j.record? ["file", "line", "column"]
  return {
    file := ← f.withDefault "file" (optionOf? string?) none
    line := ← f.required "line" nat?
    column := ← f.withDefault "column" nat? 0 }

def decodeToken? (j : Json) : Option Token := do
  let f ← j.record? ["image", "location"]
  return {
    image := ← f.required "image" string?
    location := ← f.withDefault "location" (optionOf? decodeLocation?) none }

/-! ## Operators and literals -/

def decodeBinaryOp? (j : Json) : Option BinaryOp := do
  let c ← j.choice?
  match c.name with
  | "Add" => c.bare .add
  | "Sub" => c.bare .sub
  | "Mul" => c.bare .mul
  | "Div" => c.bare .div
  | "Mod" => c.bare .mod
  | "Eq" => c.bare .eq
  | "Ne" => c.bare .ne
  | "Lt" => c.bare .lt
  | "Le" => c.bare .le
  | "Gt" => c.bare .gt
  | "Ge" => c.bare .ge
  | "And" => c.bare .and
  | "Or" => c.bare .or
  | "BitAnd" => c.bare .bitAnd
  | "BitOr" => c.bare .bitOr
  | "BitXor" => c.bare .bitXor
  | "Shl" => c.bare .shl
  | "Shr" => c.bare .shr
  | _ => none

def decodeUnaryOp? (j : Json) : Option UnaryOp := do
  let c ← j.choice?
  match c.name with
  | "Increment" => c.bare (.step .increment)
  | "Decrement" => c.bare (.step .decrement)
  | "Plus" => c.bare .plus
  | "Neg" => c.bare .neg
  | "BitNot" => c.bare .bitNot
  | "Not" => c.bare .not
  | _ => none

def decodeStepOp? (j : Json) : Option StepOp := do
  let c ← j.choice?
  match c.name with
  | "Increment" => c.bare .increment
  | "Decrement" => c.bare .decrement
  | _ => none

def decodeAssignOp? (j : Json) : Option AssignOp := do
  let c ← j.choice?
  match c.name with
  | "Assign" => c.bare .assign
  | "Compound" => c.data fun j => return .compound (← decodeBinaryOp? j)
  | _ => none

def decodeLiteral? (j : Json) : Option Literal := do
  let c ← j.choice?
  match c.name with
  | "Integral" => c.data fun j => return .integral (← j.int64?)
  | "Floating" => c.data fun j => return .floating (← j.double?)
  | "Char" => c.data fun j => return .char (← j.byte?)
  | _ => none

def decodeConstructorRef? (j : Json) : Option ConstructorRef := do
  let f ← j.record? ["class", "index"]
  return ⟨← f.required "class" string?, ← f.required "index" nat?⟩

/-! ## Nodes -/

/-- A construct, given how its children are read. -/
def decodeConstruct? {α : Type} (child : Json → Option α) (j : Json) : Option (Construct α) := do
  let c ← j.choice?
  match c.name with
  | "Literal" => c.data fun j => return .literal (← decodeLiteral? j)
  | "True" => c.bare (.boolean true)
  | "False" => c.bare (.boolean false)
  | "StringLiteral" => c.data fun j => return .string (← j.string?)
  | "Id" => c.data fun j => return .id (← j.string?)
  | "Binary" => c.data fun j => do
    let f ← j.record? ["op", "lhs", "rhs"]
    return .binary (← f.required "op" decodeBinaryOp?) (← f.required "lhs" child)
      (← f.required "rhs" child)
  | "Unary" => c.data fun j => do
    let f ← j.record? ["op", "operand"]
    return .unary (← f.required "op" decodeUnaryOp?) (← f.required "operand" child)
  | "Postfix" => c.data fun j => do
    let f ← j.record? ["op", "operand"]
    return .postStep (← f.required "op" decodeStepOp?) (← f.required "operand" child)
  | "Ternary" => c.data fun j => do
    let f ← j.record? ["cond", "then", "otherwise"]
    return .ternary (← f.required "cond" child) (← f.required "then" child)
      (← f.required "otherwise" child)
  | "Assignment" => c.data fun j => do
    let f ← j.record? ["op", "lhs", "rhs"]
    return .assignment (← f.required "op" decodeAssignOp?) (← f.required "lhs" child)
      (← f.required "rhs" child)
  | "Cast" => c.data fun j => return .cast (← child j)
  | "SizeOf" => c.data fun j => return .sizeOf (← decodeTy? j)
  | "Index" => c.data fun j => do
    let f ← j.record? ["array", "index"]
    return .index (← f.required "array" child) (← f.required "index" child)
  | "FieldGet" => c.data fun j => do
    let f ← j.record? ["owner", "field"]
    return .field (← f.required "owner" child) (← f.required "field" string?)
  | "Indirection" => c.data fun j => return .deref (← child j)
  | "AddressOf" => c.data fun j => return .addressOf (← child j)
  | "FunctionCall" => c.data fun j => do
    let f ← j.record? ["name", "args"]
    return .call (← f.required "name" decodeToken?) (← f.required "args" (listOf? child))
  | "MethodCall" => c.data fun j => do
    let f ← j.record? ["owner", "method", "args"]
    return .methodCall (← f.required "owner" child) (← f.required "method" decodeToken?)
      (← f.required "args" (listOf? child))
  | "ConstructorCall" => c.data fun j => do
    let f ← j.record? ["constructor", "args"]
    return .construct (← f.required "constructor" decodeConstructorRef?)
      (← f.required "args" (listOf? child))
  | "Declaration" => c.data fun j => do
    let f ← j.record? ["name", "dims"]
    return .declaration (← f.required "name" string?) (← f.withDefault "dims" (listOf? child) [])
  | "InitializedDeclaration" => c.data fun j => do
    let f ← j.record? ["decl", "init"]
    return .initialized (← f.required "decl" child) (← f.required "init" child)
  | "Declarations" => c.data fun j => return .declarations (← j.listOf? child)
  | "Compound" => c.data fun j => return .block (← j.listOf? child)
  | "Sequence" => c.data fun j => return .sequence (← j.listOf? child)
  | "If" => c.data fun j => do
    let f ← j.record? ["cond", "then", "otherwise"]
    return .ite (← f.required "cond" child) (← f.required "then" child)
      (← f.optional "otherwise" child)
  | "While" => c.data fun j => do
    let f ← j.record? ["cond", "body"]
    return .whileLoop (← f.required "cond" child) (← f.required "body" child)
  | "DoWhile" => c.data fun j => do
    let f ← j.record? ["body", "cond"]
    return .doWhile (← f.required "body" child) (← f.required "cond" child)
  | "For" => c.data fun j => do
    let f ← j.record? ["init", "cond", "step", "body"]
    return .forLoop (← f.optional "init" child) (← f.optional "cond" child)
      (← f.optional "step" child) (← f.required "body" child)
  | "Return" => c.data fun j => return .ret (← j.optionOf? child)
  | "Break" => c.bare .brk
  | "Continue" => c.bare .cont
  | "Empty" => c.bare .empty
  | _ => none

/-- A node nested at most `fuel` levels deep. -/
def decodeNodeWithin? : Nat → Json → Option Node
  | 0, _ => none
  | fuel + 1, j => do
    let f ← j.record? ["kind", "ty", "token"]
    return .mk (← f.required "kind" (decodeConstruct? (decodeNodeWithin? fuel)))
      (← f.withDefault "ty" decodeTy? .void)
      (← f.withDefault "token" (optionOf? decodeToken?) none)

def decodeNode? : Json → Option Node :=
  decodeNodeWithin? depthMax

/-! ## Programs -/

def decodeParam? (j : Json) : Option Param := do
  let f ← j.record? ["name", "ty"]
  return ⟨← f.required "name" string?, ← f.required "ty" decodeTy?⟩

def decodeField? (j : Json) : Option Field := do
  let f ← j.record? ["name", "ty"]
  return ⟨← f.required "name" string?, ← f.required "ty" decodeTy?⟩

def decodePrior? (j : Json) : Option Prior := do
  let f ← j.record? ["target", "args"]
  return ⟨← f.required "target" decodeConstructorRef?,
    ← f.withDefault "args" (listOf? decodeNode?) []⟩

def decodeRoutine? (j : Json) : Option Routine := do
  let f ← j.record? ["name", "params", "return_type", "body", "prior"]
  return {
    name := ← f.required "name" decodeToken?
    params := ← f.withDefault "params" (listOf? decodeParam?) []
    returns := ← f.withDefault "return_type" decodeTy? .void
    body := ← f.required "body" decodeNode?
    prior := ← f.withDefault "prior" (optionOf? decodePrior?) none }

def decodeForm? (j : Json) : Option Form := do
  let c ← j.choice?
  match c.name with
  | "Struct" => c.bare .struct
  | "Class" => c.bare .class_
  | _ => none

def decodeCompound? (j : Json) : Option Compound := do
  let f ← j.record? ["name", "kind", "parent", "fields", "methods", "constructors"]
  return {
    name := ← f.required "name" string?
    form := ← f.required "kind" decodeForm?
    parent := ← f.withDefault "parent" (optionOf? string?) none
    fields := ← f.withDefault "fields" (listOf? decodeField?) []
    methods := ← f.withDefault "methods" (listOf? decodeRoutine?) []
    constructors := ← f.withDefault "constructors" (listOf? decodeRoutine?) [] }

def decodeGlobal? (j : Json) : Option Global := do
  let f ← j.record? ["name", "ty", "init"]
  return {
    name := ← f.required "name" decodeToken?
    ty := ← f.required "ty" decodeTy?
    init := ← f.withDefault "init" (optionOf? decodeNode?) none }

def decodeProgram? (j : Json) : Option Program := do
  let f ← j.record? ["functions", "globals", "compounds"]
  return {
    functions := ← f.withDefault "functions" (dictOf? decodeRoutine?) .empty
    globals := ← f.withDefault "globals" (listOf? decodeGlobal?) []
    compounds := ← f.withDefault "compounds" (dictOf? decodeCompound?) .empty }

/-- Read a program from JSON text. -/
def Program.parse? (s : String) : Option Program :=
  (Json.parse? s).bind decodeProgram?

end Treewalk
