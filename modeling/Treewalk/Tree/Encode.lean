/-
  Writing program trees as JSON.

  The normal form: every field is written, an absent part as `null`, a choice
  without data as its name.
-/
import Treewalk.Json.Value
import Treewalk.Tree.Program

namespace Treewalk

open Json

/-! ## Types and tokens -/

/-- A choice with data. -/
def tagged (name : String) (data : Json) : Json :=
  .object [(name, data)]

def encodeNat (n : Nat) : Json :=
  .integer n

def encodeOption {α : Type} (value : α → Json) : Option α → Json
  | some a => value a
  | none => .null

def encodeKind : Kind → Json
  | .void => .string "Void"
  | .char => .string "Char"
  | .short => .string "Short"
  | .int => .string "Int"
  | .long => .string "Long"
  | .float => .string "Float"
  | .double => .string "Double"

def encodeTy : Ty → Json
  | .primitive k u => tagged "Primitive" (.object [("kind", encodeKind k), ("unsigned", .bool u)])
  | .pointer target => tagged "Pointer" (encodeTy target)
  | .array element size =>
    tagged "Array" (.object [("element", encodeTy element), ("size", encodeOption encodeNat size)])
  | .compound .struct name => tagged "Struct" (.string name)
  | .compound .class_ name => tagged "Class" (.string name)
  | .const inner => tagged "Const" (encodeTy inner)

def encodeLocation (l : Location) : Json :=
  .object [("file", encodeOption .string l.file), ("line", encodeNat l.line),
    ("column", encodeNat l.column)]

def encodeToken (t : Token) : Json :=
  .object [("image", .string t.image), ("location", encodeOption encodeLocation t.location)]

/-! ## Operators and literals -/

def encodeBinaryOp : BinaryOp → Json
  | .add => .string "Add"
  | .sub => .string "Sub"
  | .mul => .string "Mul"
  | .div => .string "Div"
  | .mod => .string "Mod"
  | .eq => .string "Eq"
  | .ne => .string "Ne"
  | .lt => .string "Lt"
  | .le => .string "Le"
  | .gt => .string "Gt"
  | .ge => .string "Ge"
  | .and => .string "And"
  | .or => .string "Or"
  | .bitAnd => .string "BitAnd"
  | .bitOr => .string "BitOr"
  | .bitXor => .string "BitXor"
  | .shl => .string "Shl"
  | .shr => .string "Shr"

def encodeStepOp : StepOp → Json
  | .increment => .string "Increment"
  | .decrement => .string "Decrement"

def encodeUnaryOp : UnaryOp → Json
  | .step op => encodeStepOp op
  | .plus => .string "Plus"
  | .neg => .string "Neg"
  | .bitNot => .string "BitNot"
  | .not => .string "Not"

def encodeAssignOp : AssignOp → Json
  | .assign => .string "Assign"
  | .compound op => tagged "Compound" (encodeBinaryOp op)

/-- What is no number, or beyond all of them, cannot be written as one. -/
def encodeDouble (x : Float) : Json :=
  if x.isFinite then .floating x else .null

def encodeLiteral : Literal → Json
  | .integral n => tagged "Integral" (.integer n.toInt)
  | .floating x => tagged "Floating" (encodeDouble x)
  | .char c => tagged "Char" (encodeNat c.toNat)

def encodeConstructorRef (c : ConstructorRef) : Json :=
  .object [("class", .string c.className), ("index", encodeNat c.index)]

/-! ## Nodes -/

mutual

def encodeNode : Node → Json
  | .mk c ty token =>
    .object [("kind", encodeConstruct c), ("ty", encodeTy ty),
      ("token", encodeOption encodeToken token)]

def encodeConstruct : Construct Node → Json
  | .literal v => tagged "Literal" (encodeLiteral v)
  | .boolean true => .string "True"
  | .boolean false => .string "False"
  | .string s => tagged "StringLiteral" (.string s)
  | .id name => tagged "Id" (.string name)
  | .binary op l r =>
    tagged "Binary" (.object [("op", encodeBinaryOp op), ("lhs", encodeNode l), ("rhs", encodeNode r)])
  | .unary op e => tagged "Unary" (.object [("op", encodeUnaryOp op), ("operand", encodeNode e)])
  | .postStep op e => tagged "Postfix" (.object [("op", encodeStepOp op), ("operand", encodeNode e)])
  | .ternary c t e =>
    tagged "Ternary" (.object [("cond", encodeNode c), ("then", encodeNode t),
      ("otherwise", encodeNode e)])
  | .assignment op l r =>
    tagged "Assignment" (.object [("op", encodeAssignOp op), ("lhs", encodeNode l),
      ("rhs", encodeNode r)])
  | .cast e => tagged "Cast" (encodeNode e)
  | .sizeOf ty => tagged "SizeOf" (encodeTy ty)
  | .index a i => tagged "Index" (.object [("array", encodeNode a), ("index", encodeNode i)])
  | .field owner name =>
    tagged "FieldGet" (.object [("owner", encodeNode owner), ("field", .string name)])
  | .deref e => tagged "Indirection" (encodeNode e)
  | .addressOf e => tagged "AddressOf" (encodeNode e)
  | .call name args =>
    tagged "FunctionCall" (.object [("name", encodeToken name), ("args", .array (encodeNodes args))])
  | .methodCall owner method args =>
    tagged "MethodCall" (.object [("owner", encodeNode owner), ("method", encodeToken method),
      ("args", .array (encodeNodes args))])
  | .construct c args =>
    tagged "ConstructorCall" (.object [("constructor", encodeConstructorRef c),
      ("args", .array (encodeNodes args))])
  | .declaration name dims =>
    tagged "Declaration" (.object [("name", .string name), ("dims", .array (encodeNodes dims))])
  | .initialized d i =>
    tagged "InitializedDeclaration" (.object [("decl", encodeNode d), ("init", encodeNode i)])
  | .declarations ns => tagged "Declarations" (.array (encodeNodes ns))
  | .block ns => tagged "Compound" (.array (encodeNodes ns))
  | .sequence ns => tagged "Sequence" (.array (encodeNodes ns))
  | .ite c t e =>
    tagged "If" (.object [("cond", encodeNode c), ("then", encodeNode t),
      ("otherwise", encodeNode? e)])
  | .whileLoop c b => tagged "While" (.object [("cond", encodeNode c), ("body", encodeNode b)])
  | .doWhile b c => tagged "DoWhile" (.object [("body", encodeNode b), ("cond", encodeNode c)])
  | .forLoop i c s b =>
    tagged "For" (.object [("init", encodeNode? i), ("cond", encodeNode? c),
      ("step", encodeNode? s), ("body", encodeNode b)])
  | .ret e => tagged "Return" (encodeNode? e)
  | .brk => .string "Break"
  | .cont => .string "Continue"
  | .empty => .string "Empty"

def encodeNodes : List Node → List Json
  | [] => []
  | n :: rest => encodeNode n :: encodeNodes rest

def encodeNode? : Option Node → Json
  | some n => encodeNode n
  | none => .null

end

/-! ## Programs -/

def encodeParam (p : Param) : Json :=
  .object [("name", .string p.name), ("ty", encodeTy p.ty)]

def encodeField (f : Field) : Json :=
  .object [("name", .string f.name), ("ty", encodeTy f.ty)]

def encodePrior (p : Prior) : Json :=
  .object [("target", encodeConstructorRef p.target), ("args", .array (p.args.map encodeNode))]

def encodeRoutine (r : Routine) : Json :=
  .object [("name", encodeToken r.name), ("params", .array (r.params.map encodeParam)),
    ("return_type", encodeTy r.returns), ("body", encodeNode r.body),
    ("prior", encodeOption encodePrior r.prior)]

def encodeForm : Form → Json
  | .struct => .string "Struct"
  | .class_ => .string "Class"

def encodeCompound (c : Compound) : Json :=
  .object [("name", .string c.name), ("kind", encodeForm c.form),
    ("parent", encodeOption .string c.parent), ("fields", .array (c.fields.map encodeField)),
    ("methods", .array (c.methods.map encodeRoutine)),
    ("constructors", .array (c.constructors.map encodeRoutine))]

def encodeGlobal (g : Global) : Json :=
  .object [("name", encodeToken g.name), ("ty", encodeTy g.ty),
    ("init", encodeOption encodeNode g.init)]

def encodeDict {α : Type} (value : α → Json) (d : Dict α) : Json :=
  .object (d.entries.map fun (name, a) => (name, value a))

def encodeProgram (p : Program) : Json :=
  .object [("functions", encodeDict encodeRoutine p.functions),
    ("globals", .array (p.globals.map encodeGlobal)),
    ("compounds", encodeDict encodeCompound p.compounds)]

end Treewalk
