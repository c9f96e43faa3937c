/-
  New values of a type.

  * `zeroValue?` makes the zero value of a type, if it has one, and
    `createValue` insists on one;
  * `createArray` makes an array whose dimensions are given at run time,
    `createString` the characters of a text, ended by an empty slot;
  * `sizeOfTy` is the number of bytes a value of a type occupies.

  Values are made, and sizes added up, field by field. Where a compound contains
  itself this never ends: nothing is made then, and there is no size.
-/
import Treewalk.Memory.Assign
import Treewalk.Tree.Program

namespace Treewalk

open Mem

/-- `n` values made one after another. -/
def replicateM {α : Type} : Nat → Mem α → Mem (List α)
  | 0, _ => return []
  | n + 1, make => do
    let a ← make
    return a :: (← replicateM n make)

/-- Insist on a value of the type. -/
def demandValue (ty : Ty) : Option Ref → Mem Ref
  | some r => return r
  | none => fail (.malformed (.noValueOf ty))

/-- The zero value of a type, given how compounds are made; `void` has none. -/
def zeroWith (compound : Form → String → Mem Ref) : Ty → Mem (Option Ref)
  | .primitive .void _ => return none
  | .primitive k u => some <$> alloc (.primitive (.zero k u))
  | .pointer target => some <$> nullPointer target
  | .array element (some n) => do
    let values ← replicateM n do
      demandValue element (← zeroWith compound element)
    some <$> arrayOf element values
  | .array element none => fail (.unsizedArray element)
  | .compound form name => some <$> compound form name
  | .const inner => zeroWith compound inner

/-- A zero compound, compounds nested at most `fuel` levels deep. What is nested
    deeper is given up. -/
def zeroCompound (program : Program) : Nat → Form → String → Mem Ref
  | 0, _, _ => throw .exhausted
  | fuel + 1, form, name => do
    if (program.compound? name).isNone then
      fail (.undefinedSymbol name)
    let fields ← (program.allFields name).mapM fun f => do
      return (f.name, ← demandValue f.ty (← zeroWith (zeroCompound program fuel) f.ty))
    alloc (.compound (.compound form name) fields)

/-- The levels of nested compounds a program can have, if none contains itself. -/
def Program.levels (p : Program) : Nat :=
  p.compounds.size + 1

/-- The zero value of a type, if it has one. -/
def zeroValue? (program : Program) (ty : Ty) : Mem (Option Ref) :=
  zeroWith (zeroCompound program program.levels) ty

/-- The zero value of a type. -/
def createValue (program : Program) (ty : Ty) : Mem Ref := do
  demandValue ty (← zeroValue? program ty)

/-- An array of the given sizes, outermost first; sizes written in the type
    count only where no size is given. -/
def createArray (program : Program) : Ty → List Nat → Mem Ref
  | element, [] => createValue program element
  | element, size :: inner =>
    match element.unqualified, inner with
    | .array element' _, next :: _ => do
      let values ← replicateM size (createArray program element' inner)
      arrayOf (.array element' (some next)) values
    | _, _ => do
      let values ← replicateM size (createValue program element)
      arrayOf element values

/-- The bytes of a text, as characters. -/
def createString (text : String) : Mem Ref := do
  let chars ← text.toUTF8.toList.mapM fun c => do
    slotFor (← alloc (.primitive (.char c)))
  let terminator ← absent .char
  let b ← allocBlock (chars ++ [terminator]).toArray
  alloc (.pointer ⟨.char, b, 0⟩)

/-! ## Sizes -/

/-- The size of a type, given the sizes of compounds. The element of an array
    needs one even if there are no elements. -/
def sizeWith (compound : String → Option Nat) : Ty → Option Nat
  | .primitive k _ => some k.size
  | .pointer _ => some 8
  | .array element n => (sizeWith compound element).map (· * n.getD 0)
  | .compound _ name => compound name
  | .const inner => sizeWith compound inner

/-- The size of a compound, compounds nested at most `fuel` levels deep. -/
def compoundSize (program : Program) : Nat → String → Option Nat
  | 0, _ => none
  | fuel + 1, name => do
    let sizes ← (program.allFields name).mapM fun f => sizeWith (compoundSize program fuel) f.ty
    return sizes.sum

/-- The number of bytes a value of the type occupies, if they can be counted. -/
def sizeOfTy (program : Program) (ty : Ty) : Option Nat :=
  sizeWith (compoundSize program program.levels) ty

end Treewalk
