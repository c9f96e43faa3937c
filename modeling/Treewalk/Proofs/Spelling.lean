/-
  The ways to spell a program tree in JSON.

  A tree is written in one way (`encodeProgram`), but may be given in more: a
  field that holds its default may be left out, fields may stand in any order
  and fields of other names among them, and a choice without data may be given
  by its name alone or by its name with `null`.

  * `Spelling`: the values that may stand for something, and how spellings are put
    together (`Spelling.bare`, `Spelling.tagged`, `Spelling.record`, …);
  * `Ty.spelling`, `Construct.spelling`, `Node.Spelt`, `Program.spelling`, …: the
    spellings of trees;
  * `Node.Writable`, `Program.Writable`, …: the numbers in a tree have spellings;
  * `Json.depth`: how deeply containers are nested.
-/
import Mathlib.Data.List.Forall2
import Treewalk.Tree.Encode
import Treewalk.Proofs.Trees

namespace Treewalk

/-! ## Nesting -/

mutual

/-- The number of containers around the innermost value. -/
def Json.depth : Json → Nat
  | .array items => Json.depthItems items + 1
  | .object members => Json.depthMembers members + 1
  | _ => 0

def Json.depthItems : List Json → Nat
  | [] => 0
  | j :: rest => max j.depth (Json.depthItems rest)

def Json.depthMembers : List (String × Json) → Nat
  | [] => 0
  | (_, j) :: rest => max j.depth (Json.depthMembers rest)

end

/-! ## Spellings -/

/-- The values that may stand for something. -/
abbrev Spelling := Json → Prop

/-- A field of a record. -/
structure Part where
  name : String
  /-- what may stand for the field's value -/
  value : Spelling
  /-- may the field be left out? -/
  omissible : Prop

/-- A field that has to be given. -/
abbrev Part.required (name : String) (value : Spelling) : Part :=
  ⟨name, value, False⟩

/-- A field that may be left out if it holds its default. -/
abbrev Part.defaulted (name : String) (value : Spelling) (isDefault : Prop) : Part :=
  ⟨name, value, isDefault⟩

namespace Spelling

variable {α : Type}

def quoted (s : String) : Spelling :=
  fun j => j = .string s

/-- A size or position. -/
def nat (n : Nat) : Spelling :=
  fun j => n < Nat.pow 2 64 ∧ j = .integer n

/-- A choice without data: as it is written, which is a name, or the name with `null`. -/
def bare (written : Json) : Spelling :=
  fun j => j = written ∨ ∃ name, written = .string name ∧ j = .object [(name, .null)]

/-- A choice with data. -/
def tagged (name : String) (data : Spelling) : Spelling :=
  fun j => ∃ d, j = .object [(name, d)] ∧ data d

/-- A part that may be absent. -/
def option (value : α → Spelling) : Option α → Spelling
  | some a => value a
  | none => fun j => j = .null

def list (item : α → Spelling) (l : List α) : Spelling :=
  fun j => ∃ js, j = .array js ∧ List.Forall₂ item l js

/-- The entries of a map, in order. -/
def dict (value : α → Spelling) (d : Dict α) : Spelling :=
  fun j => ∃ members, j = .object members ∧
    List.Forall₂ (fun e m => e.1 = m.1 ∧ value e.2 m.2) d.entries members

/-- A record: each field is given once, or left out where it may be. Members of
    other names do not matter. -/
def record (parts : List Part) : Spelling :=
  fun j => ∃ members, j = .object members ∧
    ((members.filter fun m => (parts.map Part.name).contains m.1).map Prod.fst).Nodup ∧
    ∀ part ∈ parts, (∃ v, (part.name, v) ∈ members ∧ part.value v) ∨
      part.omissible ∧ part.name ∉ members.map Prod.fst

end Spelling

open Spelling Treewalk.Part

/-! ## Types and tokens -/

def Ty.spelling : Ty → Spelling
  | .primitive k u =>
    .tagged "Primitive" (record [required "kind" (bare (encodeKind k)),
      required "unsigned" fun j => j = .bool u])
  | .pointer target => .tagged "Pointer" target.spelling
  | .array element size =>
    .tagged "Array" (record [required "element" element.spelling,
      defaulted "size" (option nat size) (size = none)])
  | .compound .struct name => .tagged "Struct" (quoted name)
  | .compound .class_ name => .tagged "Class" (quoted name)
  | .const inner => .tagged "Const" inner.spelling

def Location.spelling (l : Location) : Spelling :=
  record [defaulted "file" (option quoted l.file) (l.file = none), required "line" (nat l.line),
    defaulted "column" (nat l.column) (l.column = 0)]

def Token.spelling (t : Token) : Spelling :=
  record [required "image" (quoted t.image),
    defaulted "location" (option Location.spelling t.location) (t.location = none)]

/-! ## Operators and literals -/

def AssignOp.spelling : AssignOp → Spelling
  | .assign => bare (.string "Assign")
  | .compound op => .tagged "Compound" (bare (encodeBinaryOp op))

def Literal.spelling : Literal → Spelling
  | .integral n => .tagged "Integral" fun j => j = .integer n.toInt
  | .floating x => .tagged "Floating" fun j => x.isFinite ∧ j = .floating x
  | .char c => .tagged "Char" fun j => j = .integer c.toNat

def ConstructorRef.spelling (c : ConstructorRef) : Spelling :=
  record [required "class" (quoted c.className), required "index" (nat c.index)]

/-! ## Nodes -/

/-- The spellings of a construct, given those of its children. -/
def Construct.spelling {α : Type} (child : α → Spelling) : Construct α → Spelling
  | .literal v => .tagged "Literal" v.spelling
  | .boolean true => bare (.string "True")
  | .boolean false => bare (.string "False")
  | .string s => .tagged "StringLiteral" (quoted s)
  | .id name => .tagged "Id" (quoted name)
  | .binary op l r =>
    .tagged "Binary" (record [required "op" (bare (encodeBinaryOp op)), required "lhs" (child l),
      required "rhs" (child r)])
  | .unary op e =>
    .tagged "Unary" (record [required "op" (bare (encodeUnaryOp op)), required "operand" (child e)])
  | .postStep op e =>
    .tagged "Postfix" (record [required "op" (bare (encodeStepOp op)), required "operand" (child e)])
  | .ternary c t e =>
    .tagged "Ternary" (record [required "cond" (child c), required "then" (child t),
      required "otherwise" (child e)])
  | .assignment op l r =>
    .tagged "Assignment" (record [required "op" op.spelling, required "lhs" (child l),
      required "rhs" (child r)])
  | .cast e => .tagged "Cast" (child e)
  | .sizeOf ty => .tagged "SizeOf" ty.spelling
  | .index a i => .tagged "Index" (record [required "array" (child a), required "index" (child i)])
  | .field owner name =>
    .tagged "FieldGet" (record [required "owner" (child owner), required "field" (quoted name)])
  | .deref e => .tagged "Indirection" (child e)
  | .addressOf e => .tagged "AddressOf" (child e)
  | .call name args =>
    .tagged "FunctionCall" (record [required "name" name.spelling, required "args" (list child args)])
  | .methodCall owner method args =>
    .tagged "MethodCall" (record [required "owner" (child owner), required "method" method.spelling,
      required "args" (list child args)])
  | .construct c args =>
    .tagged "ConstructorCall" (record [required "constructor" c.spelling,
      required "args" (list child args)])
  | .declaration name dims =>
    .tagged "Declaration" (record [required "name" (quoted name),
      defaulted "dims" (list child dims) (dims = [])])
  | .initialized d i =>
    .tagged "InitializedDeclaration" (record [required "decl" (child d), required "init" (child i)])
  | .declarations ns => .tagged "Declarations" (list child ns)
  | .block ns => .tagged "Compound" (list child ns)
  | .sequence ns => .tagged "Sequence" (list child ns)
  | .ite c t e =>
    .tagged "If" (record [required "cond" (child c), required "then" (child t),
      defaulted "otherwise" (option child e) (e = none)])
  | .whileLoop c b => .tagged "While" (record [required "cond" (child c), required "body" (child b)])
  | .doWhile b c => .tagged "DoWhile" (record [required "body" (child b), required "cond" (child c)])
  | .forLoop i c s b =>
    .tagged "For" (record [defaulted "init" (option child i) (i = none),
      defaulted "cond" (option child c) (c = none), defaulted "step" (option child s) (s = none),
      required "body" (child b)])
  | .ret e => .tagged "Return" (option child e)
  | .brk => bare (.string "Break")
  | .cont => bare (.string "Continue")
  | .empty => bare (.string "Empty")

/-- The value stands for the node. -/
inductive Node.Spelt : Node → Spelling
  /-- its children are spelt as `child` has them, which are spellings of theirs -/
  | mk {n : Node} {j : Json} {child : Node → Spelling} :
      (∀ c v, child c v → Spelt c v) →
      record [required "kind" (n.construct.spelling child),
        defaulted "ty" n.ty.spelling (n.ty = .void),
        defaulted "token" (option Token.spelling n.token) (n.token = none)] j →
      Spelt n j

/-! ## Programs -/

def Param.spelling (p : Param) : Spelling :=
  record [required "name" (quoted p.name), required "ty" p.ty.spelling]

def Field.spelling (f : Field) : Spelling :=
  record [required "name" (quoted f.name), required "ty" f.ty.spelling]

def Prior.spelling (p : Prior) : Spelling :=
  record [required "target" p.target.spelling,
    defaulted "args" (list Node.Spelt p.args) (p.args = [])]

def Routine.spelling (r : Routine) : Spelling :=
  record [required "name" r.name.spelling,
    defaulted "params" (list Param.spelling r.params) (r.params = []),
    defaulted "return_type" r.returns.spelling (r.returns = .void),
    required "body" r.body.Spelt,
    defaulted "prior" (option Prior.spelling r.prior) (r.prior = none)]

def Compound.spelling (c : Compound) : Spelling :=
  record [required "name" (quoted c.name), required "kind" (bare (encodeForm c.form)),
    defaulted "parent" (option quoted c.parent) (c.parent = none),
    defaulted "fields" (list Field.spelling c.fields) (c.fields = []),
    defaulted "methods" (list Routine.spelling c.methods) (c.methods = []),
    defaulted "constructors" (list Routine.spelling c.constructors) (c.constructors = [])]

def Global.spelling (g : Global) : Spelling :=
  record [required "name" g.name.spelling, required "ty" g.ty.spelling,
    defaulted "init" (option Node.Spelt g.init) (g.init = none)]

def Program.spelling (p : Program) : Spelling :=
  record [defaulted "functions" (dict Routine.spelling p.functions) (p.functions = .empty),
    defaulted "globals" (list Global.spelling p.globals) (p.globals = []),
    defaulted "compounds" (dict Compound.spelling p.compounds) (p.compounds = .empty)]

/-! ## Numbers that can be written

Sizes, positions and places have 64 bits, and floating literals are finite. -/

def Ty.Writable : Ty → Prop
  | .primitive .. | .compound .. => True
  | .pointer target => target.Writable
  | .array element size => element.Writable ∧ ∀ n ∈ size, n < Nat.pow 2 64
  | .const inner => inner.Writable

def Token.Writable (t : Token) : Prop :=
  ∀ l ∈ t.location, l.line < Nat.pow 2 64 ∧ l.column < Nat.pow 2 64

def ConstructorRef.Writable (c : ConstructorRef) : Prop :=
  c.index < Nat.pow 2 64

/-- What the construct holds beside its children can be written. -/
def Construct.Writable {α : Type} : Construct α → Prop
  | .literal (.floating x) => x.isFinite
  | .sizeOf ty => ty.Writable
  | .call name _ => name.Writable
  | .methodCall _ method _ => method.Writable
  | .construct c _ => c.Writable
  | _ => True

inductive Node.Writable : Node → Prop
  | mk {n : Node} :
      n.construct.Writable → n.ty.Writable → (∀ t ∈ n.token, t.Writable) →
      (∀ c ∈ n.construct.children, Writable c) → Writable n

structure Routine.Writable (r : Routine) : Prop where
  name : r.name.Writable
  params : ∀ p ∈ r.params, p.ty.Writable
  returns : r.returns.Writable
  body : r.body.Writable
  prior : ∀ p ∈ r.prior, p.target.Writable ∧ ∀ n ∈ p.args, n.Writable

structure Compound.Writable (c : Compound) : Prop where
  fields : ∀ f ∈ c.fields, f.ty.Writable
  methods : ∀ r ∈ c.methods, r.Writable
  constructors : ∀ r ∈ c.constructors, r.Writable

structure Global.Writable (g : Global) : Prop where
  name : g.name.Writable
  ty : g.ty.Writable
  init : ∀ n ∈ g.init, n.Writable

structure Program.Writable (p : Program) : Prop where
  functions : ∀ e ∈ p.functions.entries, e.2.Writable
  globals : ∀ g ∈ p.globals, g.Writable
  compounds : ∀ e ∈ p.compounds.entries, e.2.Writable

end Treewalk
