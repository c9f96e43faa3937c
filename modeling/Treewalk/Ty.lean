/-
  Resolved types.

  Every node of a program tree carries a type that an earlier phase has
  resolved; evaluation consumes these types and never infers them.

  * `Kind` are the kinds of numeric values, ordered by conversion rank;
  * `Ty` are the types, `Ty.text` their spelling in messages;
  * `Ty.unqualified` strips outer `const`, and the queries (`Ty.primitive?`,
    `Ty.pointee?`, `Ty.compoundName?`, …) look through it.
-/

namespace Treewalk

/-! ## Kinds -/

/-- The kind of a numeric value, in the order of conversion rank. -/
inductive Kind where
  | void
  | char
  | short
  | int
  | long
  | float
  | double
  deriving DecidableEq, Inhabited

namespace Kind

/-- The conversion rank: a binary operation happens in the operand kind of
    higher rank. -/
def rank : Kind → Nat
  | void => 0
  | char => 1
  | short => 2
  | int => 3
  | long => 4
  | float => 5
  | double => 6

/-- The kind of higher rank. -/
protected def max (a b : Kind) : Kind :=
  if a.rank ≤ b.rank then b else a

def isFloating : Kind → Bool
  | float | double => true
  | _ => false

def isIntegral : Kind → Bool
  | char | short | int | long => true
  | _ => false

def isVoid (k : Kind) : Bool :=
  k == void

/-- The spelling of a kind in types. -/
def name : Kind → String
  | void => "void"
  | char => "char"
  | short => "short"
  | int => "int"
  | long => "long"
  | float => "float"
  | double => "double"

/-- The number of bytes a value of the kind occupies. -/
def size : Kind → Nat
  | void => 0
  | char => 1
  | short => 2
  | int => 4
  | long => 8
  | float => 4
  | double => 8

end Kind

/-! ## Types -/

/-- The two forms of compound types. -/
inductive Form where
  /-- fields only -/
  | struct
  /-- fields, methods, constructors and perhaps a parent -/
  | class_
  deriving DecidableEq, Inhabited

/-- A resolved type. -/
inductive Ty where
  /-- a number of the given kind, or `void` -/
  | primitive (kind : Kind) (unsigned : Bool)
  /-- `target*` -/
  | pointer (target : Ty)
  /-- `element[size]`; without a size, the dimension is supplied at run time
      or not at all -/
  | array (element : Ty) (size : Option Nat)
  /-- a struct or class, by name -/
  | compound (form : Form) (name : String)
  /-- `const inner` -/
  | const (inner : Ty)
  deriving DecidableEq

namespace Ty

/-- The signed type of a kind. -/
def signed (k : Kind) : Ty :=
  .primitive k false

/-- The type `void`, which is also the type of a node that states none. -/
def void : Ty :=
  signed .void

def char : Ty :=
  signed .char

def int : Ty :=
  signed .int

def long : Ty :=
  signed .long

def double : Ty :=
  signed .double

instance : Inhabited Ty := ⟨void⟩

/-- Strip any number of outer `const`. -/
def unqualified : Ty → Ty
  | const inner => inner.unqualified
  | t => t

/-- Kind and signedness, if the type is primitive. -/
def primitive? (t : Ty) : Option (Kind × Bool) :=
  match t.unqualified with
  | primitive k u => some (k, u)
  | _ => none

def isVoid (t : Ty) : Bool :=
  match t.unqualified with
  | primitive .void _ => true
  | _ => false

def isPointer (t : Ty) : Bool :=
  match t.unqualified with
  | pointer _ => true
  | _ => false

def isArray (t : Ty) : Bool :=
  match t.unqualified with
  | array _ _ => true
  | _ => false

/-- The type reached by one indirection or indexing. -/
def pointee? (t : Ty) : Option Ty :=
  match t.unqualified with
  | pointer target => some target
  | array element _ => some element
  | _ => none

/-- The name of a struct or class type. -/
def compoundName? (t : Ty) : Option String :=
  match t.unqualified with
  | compound _ name => some name
  | _ => none

/-- The spelling of a type in messages. -/
def text : Ty → String
  | primitive k true => "unsigned " ++ k.name
  | primitive k false => k.name
  | pointer target => target.text ++ "*"
  | array element (some n) => element.text ++ "[" ++ toString n ++ "]"
  | array element none => element.text ++ "[]"
  | compound .struct name => "struct " ++ name
  | compound .class_ name => "class " ++ name
  | const inner => "const " ++ inner.text

end Ty

end Treewalk
