/-
  Records, choices and scalars inside JSON values.

  A record is written as an object (members of other names are skipped, a name
  of the record may stand once) or as an array of its fields in order. A
  choice is a name alone, or an object whose only member is the name with the
  choice's data.

  * `Json.record?` opens a record, the functions on `Fields` read its fields;
  * `Json.choice?` opens a choice, `Choice.bare` and `Choice.data` read it;
  * `Json.listOf?`, `Json.optionOf?`, `Json.nat?`, … read what fields hold.

  Every reader gives `none` for a value that is refused.
-/
import Treewalk.Dict
import Treewalk.Json.Value
import Treewalk.Number.Double

namespace Treewalk.Json

/-! ## Scalars and containers -/

def string? : Json → Option String
  | string s => some s
  | _ => none

def bool? : Json → Option Bool
  | bool b => some b
  | _ => none

/-- An integer of 64 bits with a sign. -/
def int64? : Json → Option Int64
  | integer n => if Int64.minValue.toInt ≤ n ∧ n ≤ Int64.maxValue.toInt then some (Int64.ofInt n) else none
  | _ => none

/-- A natural number below `2 ^ bits`. -/
def natBelow? (bits : Nat) : Json → Option Nat
  | integer n => if 0 ≤ n ∧ n.toNat < Nat.pow 2 bits then some n.toNat else none
  | _ => none

/-- A size or position: 64 bits without a sign. -/
def nat? : Json → Option Nat :=
  natBelow? 64

def byte? (j : Json) : Option UInt8 :=
  (natBelow? 8 j).map UInt8.ofNat

/-- A double; integers are accepted and rounded. -/
def double? : Json → Option Float
  | floating x => some x
  | integer n =>
    some (if 0 ≤ n then Double.ofUInt64 (UInt64.ofNat n.toNat) else Double.ofInt64 (Int64.ofInt n))
  | _ => none

def listOf? {α : Type} (item : Json → Option α) : Json → Option (List α)
  | array items => items.mapM item
  | _ => none

/-- A value that may be `null`. -/
def optionOf? {α : Type} (value : Json → Option α) : Json → Option (Option α)
  | null => some none
  | j => (value j).map some

/-- A map from names: of two members with one name the last one wins. -/
def dictOf? {α : Type} (value : Json → Option α) : Json → Option (Dict α)
  | object members => (members.mapM fun m => (value m.2).map (m.1, ·)).map Dict.ofList
  | _ => none

/-! ## Records -/

/-- The fields given for a record. -/
structure Fields where
  given : List (String × Json)
  /-- were they given in order, without names? -/
  positional : Bool

/-- Open a record with the given field names. -/
def record? (names : List String) : Json → Option Fields
  | object members =>
    let given := members.filter fun m => names.contains m.1
    if (given.map Prod.fst).Nodup then some ⟨given, false⟩ else none
  | array items => if items.length ≤ names.length then some ⟨names.zip items, true⟩ else none
  | _ => none

namespace Fields

variable {α : Type}

def find? (f : Fields) (name : String) : Option Json :=
  Dict.find? name f.given

/-- A field that must be given. -/
def required (f : Fields) (name : String) (value : Json → Option α) : Option α :=
  (f.find? name).bind value

/-- A field that has a default. -/
def withDefault (f : Fields) (name : String) (value : Json → Option α) (default : α) : Option α :=
  match f.find? name with
  | some j => value j
  | none => some default

/-- A field that may be `null`, and may be missing where fields are named. -/
def optional (f : Fields) (name : String) (value : Json → Option α) : Option (Option α) :=
  match f.find? name with
  | some j => optionOf? value j
  | none => if f.positional then none else some none

end Fields

/-! ## Choices -/

/-- A choice: its name and its data, if any is given. -/
structure Choice where
  name : String
  data? : Option Json

/-- Open a choice. -/
def choice? : Json → Option Choice
  | string name => some ⟨name, none⟩
  | object [(name, data)] => some ⟨name, some data⟩
  | _ => none

namespace Choice

/-- A choice without data: none is given, or `null`. -/
def bare {α : Type} (c : Choice) (value : α) : Option α :=
  match c.data? with
  | none | some null => some value
  | _ => none

/-- A choice with data. -/
def data {α : Type} (c : Choice) (value : Json → Option α) : Option α :=
  c.data?.bind value

end Choice

end Treewalk.Json
