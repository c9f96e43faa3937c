/-
  Making trees in code.

  Each function makes one node and gives it the type that the usual
  arithmetic conversions prescribe; `Build.binaryType` is the type of a binary
  expression.
-/
import Treewalk.Tree.Program

namespace Treewalk.Build

/-- A node without a token. -/
def node (c : Construct Node) (ty : Ty := .void) : Node :=
  .mk c ty none

/-! ## Literals and names -/

def int (n : Int64) : Node :=
  node (.literal (.integral n)) .int

def long (n : Int64) : Node :=
  node (.literal (.integral n)) .long

def double (x : Float) : Node :=
  node (.literal (.floating x)) .double

def chr (c : UInt8) : Node :=
  node (.literal (.char c)) .char

def string (s : String) : Node :=
  node (.string s) (.pointer .char)

def boolean (b : Bool) : Node :=
  node (.boolean b) .char

def id (name : String) (ty : Ty) : Node :=
  (node (.id name) ty).withToken { image := name }

/-- The receiver of the running method. -/
def this (className : String) : Node :=
  id "this" (.pointer (.compound .class_ className))

/-! ## Operators -/

/-- The common type of two numbers: the kind of higher rank, at least `int`,
    and unsigned if an operand of that kind is. -/
def arithmeticType (l r : Ty) : Ty :=
  match l.primitive?, r.primitive? with
  | some (lk, lu), some (rk, ru) =>
    let k := lk.max rk
    if k.isFloating then
      .signed k
    else
      let k := k.max .int
      .primitive k ((lk == k && lu) || (rk == k && ru))
  | _, _ => l

/-- The type of `l op r`. -/
def binaryType (op : BinaryOp) (l r : Ty) : Ty :=
  if op.isComparison || op.isLogical then
    .int
  else
    match l.pointee?, r.pointee? with
    | some _, some _ => .long
    | some target, none => .pointer target
    | none, some target => .pointer target
    | none, none => arithmeticType l r

/-- The type of a sign or complement: kinds below `int` become `int` and keep
    their signedness. -/
def promotedType (t : Ty) : Ty :=
  match t.primitive? with
  | some (k, u) => if k.isIntegral && k.rank < Kind.int.rank then .primitive .int u else t.unqualified
  | none => t.unqualified

def binary (op : BinaryOp) (l r : Node) : Node :=
  node (.binary op l r) (binaryType op l.ty r.ty)

def unary (op : UnaryOp) (e : Node) : Node :=
  node (.unary op e) <|
    match op with
    | .not => .int
    | .step _ => e.ty
    | .plus | .neg | .bitNot => promotedType e.ty

def postStep (op : StepOp) (e : Node) : Node :=
  node (.postStep op e) e.ty

def ternary (c t e : Node) : Node :=
  node (.ternary c t e) t.ty

def opAssign (op : AssignOp) (l r : Node) : Node :=
  node (.assignment op l r) l.ty

def assign (l r : Node) : Node :=
  opAssign .assign l r

def cast (e : Node) (ty : Ty) : Node :=
  node (.cast e) ty

def sizeOf (ty : Ty) : Node :=
  node (.sizeOf ty) (.primitive .long true)

/-! ## Access -/

def index (a i : Node) : Node :=
  node (.index a i) (a.ty.pointee?.getD .void)

def field (owner : Node) (name : String) (ty : Ty) : Node :=
  node (.field owner name) ty

def deref (e : Node) : Node :=
  node (.deref e) (e.ty.pointee?.getD .void)

/-- `owner->name` -/
def arrow (owner : Node) (name : String) (ty : Ty) : Node :=
  field (deref owner) name ty

def addressOf (e : Node) : Node :=
  node (.addressOf e) (.pointer e.ty)

/-! ## Calls -/

def call (name : String) (args : List Node) (returns : Ty) : Node :=
  node (.call { image := name } args) returns

def method (owner : Node) (name : String) (args : List Node) (returns : Ty) : Node :=
  node (.methodCall owner { image := name } args) returns

def construct (className : String) (index : Nat) (args : List Node) : Node :=
  node (.construct ⟨className, index⟩ args) (.pointer (.compound .class_ className))

/-! ## Declarations and statements -/

/-- A declaration whose dimensions are evaluated at run time. -/
def declareArray (name : String) (ty : Ty) (dims : List Node) : Node :=
  (node (.declaration name dims) ty).withToken { image := name }

def declare (name : String) (ty : Ty) : Node :=
  declareArray name ty []

def declareInit (name : String) (ty : Ty) (init : Node) : Node :=
  node (.initialized (declare name ty) init) ty

def declarations (decls : List Node) : Node :=
  node (.declarations decls)

def block (body : List Node) : Node :=
  node (.block body)

def sequence (parts : List Node) : Node :=
  node (.sequence parts)

def ifThen (c t : Node) : Node :=
  node (.ite c t none)

def ifElse (c t e : Node) : Node :=
  node (.ite c t (some e))

def whileLoop (c body : Node) : Node :=
  node (.whileLoop c body)

def doWhile (body c : Node) : Node :=
  node (.doWhile body c)

def forLoop (init cond step : Option Node) (body : Node) : Node :=
  node (.forLoop init cond step body)

def ret (value : Option Node) : Node :=
  node (.ret value)

def brk : Node :=
  node .brk

def cont : Node :=
  node .cont

def empty : Node :=
  node .empty

/-! ## Definitions -/

def function (name : String) (params : List Param) (returns : Ty) (body : List Node) : Routine where
  name := { image := name }
  params
  returns
  body := block body

def constructor (className : String) (params : List Param) (body : List Node) : Routine :=
  function className params .void body

end Treewalk.Build

namespace Treewalk.Program

/-- Add a function under its own name. -/
def addFunction (p : Program) (f : Routine) : Program :=
  { p with functions := p.functions.insert f.name.image f }

/-- Add a compound under its own name. -/
def addCompound (p : Program) (c : Compound) : Program :=
  { p with compounds := p.compounds.insert c.name c }

/-- Add a global after the others. -/
def addGlobal (p : Program) (g : Global) : Program :=
  { p with globals := p.globals ++ [g] }

end Treewalk.Program
