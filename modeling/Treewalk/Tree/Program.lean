/-
  Programs: functions, globals and compound declarations.

  * `Routine` is a function, method or constructor, `Compound` a struct or
    class, `Global` a global variable, `Program` all of them;
  * `Program.lineage` is a compound followed by its ancestors, and
    `Program.isSubclass` asks whether one compound is among another's lineage;
  * `Program.accepts` says whether a value of one type may be stored where
    another type is declared.
-/
import Treewalk.Dict
import Treewalk.Tree.Node

namespace Treewalk

/-! ## Declarations -/

/-- A parameter of a routine. -/
structure Param where
  name : String
  ty : Ty
  deriving DecidableEq, Inhabited

/-- A field of a struct or class. -/
structure Field where
  name : String
  ty : Ty
  deriving DecidableEq, Inhabited

/-- The constructor that runs before a constructor's own body. -/
structure Prior where
  target : ConstructorRef
  args : List Node := []

/-- A function, method or constructor. -/
structure Routine where
  name : Token
  params : List Param := []
  returns : Ty := .void
  body : Node
  /-- for constructors only -/
  prior : Option Prior := none

/-- A struct or class. -/
structure Compound where
  name : String
  form : Form
  parent : Option String := none
  fields : List Field := []
  methods : List Routine := []
  constructors : List Routine := []

/-- The type a compound declares. -/
def Compound.ty (c : Compound) : Ty :=
  .compound c.form c.name

/-- A global variable. -/
structure Global where
  name : Token
  ty : Ty
  init : Option Node := none

/-- A whole program. Functions and compounds are found by their key. -/
structure Program where
  functions : Dict Routine := .empty
  globals : List Global := []
  compounds : Dict Compound := .empty

namespace Program

instance : Inhabited Program := ⟨{}⟩

/-! ## Look-up and inheritance -/

def function? (p : Program) (name : String) : Option Routine :=
  p.functions.get? name

def compound? (p : Program) (name : String) : Option Compound :=
  p.compounds.get? name

def constructor? (p : Program) (c : ConstructorRef) : Option Routine :=
  (p.compound? c.className).bind fun k => k.constructors[c.index]?

/-- At most `n` compounds along the parent links, starting at `c`. -/
def ancestry (p : Program) : Nat → Option Compound → List Compound
  | 0, _ => []
  | _ + 1, none => []
  | n + 1, some c => c :: p.ancestry n (c.parent.bind p.compound?)

/-- A compound followed by its ancestors, nearest first. The length is
    bounded, so that a cycle of parents ends. -/
def lineage (p : Program) (name : String) : List Compound :=
  p.ancestry (p.compounds.size + 1) (p.compound? name)

/-- The fields of a compound, those of the farthest ancestor first. -/
def allFields (p : Program) (name : String) : List Field :=
  (p.lineage name).reverse.flatMap Compound.fields

/-- Is the compound named `base` in the lineage of `derived`? -/
def isSubclass (p : Program) (derived base : String) : Bool :=
  (p.lineage derived).any fun c => c.name == base

/-! ## Compatibility -/

/-- May a pointer to the second type stand for a pointer to the first? Either
    is `void`, they are equal, the second is a subclass of the first, or
    their own targets agree in this sense; numbers agree when their kinds do. -/
def acceptsTarget (p : Program) : Ty → Ty → Bool
  | .const target, source => p.acceptsTarget target source
  | .primitive k u, source =>
    k.isVoid || source.isVoid || source.unqualified == .primitive k u ||
      match source.unqualified with
      | .primitive k' _ => k == k'
      | _ => false
  | .pointer target, source =>
    source.isVoid || source.unqualified == .pointer target ||
      match source.unqualified with
      | .pointer source => p.acceptsTarget target source
      | _ => false
  | .array target n, source =>
    source.isVoid || source.unqualified == .array target n ||
      match source.unqualified with
      | .array source _ => p.acceptsTarget target source
      | _ => false
  | .compound form name, source =>
    source.isVoid || source.unqualified == .compound form name ||
      match form, source.unqualified with
      | .class_, .compound .class_ name' => p.isSubclass name' name
      | _, _ => false

/-- May a value of type `actual` be stored where `declared` is expected?
    Numbers convert freely, pointers when their targets agree, arrays decay,
    and an integer is accepted for a pointer (only zero survives the
    conversion when it happens). -/
def accepts (p : Program) (declared actual : Ty) : Bool :=
  match declared.unqualified, actual.unqualified with
  | .primitive target _, .primitive source _ => !target.isVoid && !source.isVoid
  | .pointer target, .pointer source
  | .pointer target, .array source _
  | .array target _, .array source _
  | .array target _, .pointer source => p.acceptsTarget target source
  | .pointer _, .primitive k _ => k.isIntegral
  | .compound .struct target, .compound .struct source => target == source
  | .compound .class_ target, .compound .class_ source => p.isSubclass source target
  | _, _ => false

end Program

end Treewalk
