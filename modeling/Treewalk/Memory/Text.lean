/-
  The text of values, as faults and dumps show them.
-/
import Treewalk.Decimal.Shortest
import Treewalk.Memory.Assign

namespace Treewalk

/-- The number of array elements that are shown. -/
def shownElements : Nat :=
  16

/-- The text of a number. A `char` that can be printed is shown in quotes. -/
def Primitive.text (p : Primitive) : String :=
  match p.payload with
  | .floating x => floatText x
  | .integral n =>
    if p.kind = .char ∧ 32 ≤ p.toByte ∧ p.toByte ≤ 126 then
      "'" ++ (Char.ofNat p.toByte.toNat).toString ++ "'"
    else
      toString n

namespace Heap

/-- The text of a value, at most `fuel` levels deep. -/
def textWithin (h : Heap) : Nat → Ref → String
  | 0, _ => ""
  | fuel + 1, r =>
    match h.cell r with
    | .primitive p => p.text
    | .pointer p => if h.isNull p then "nullptr" else p.target.text ++ s!"* @{p.offset}"
    | .array _ b =>
      let slots := (h.block b).toList
      let more := if shownElements < slots.length then ", ..." else ""
      "[" ++ ", ".intercalate ((slots.take shownElements).map (h.textWithin fuel)) ++ more ++ "]"
    | .slot _ (some content) => h.textWithin fuel content
    | .slot _ none => "null"
    | .compound ty fields =>
      let shown := fields.map fun f => f.1 ++ " = " ++ h.textWithin fuel f.2
      ty.text ++ " \x7b" ++ (if shown.isEmpty then "" else " ") ++ ", ".intercalate shown ++ " \x7d"

/-- The text of a value. -/
def text (h : Heap) (r : Ref) : String :=
  h.textWithin h.levels r

end Heap

end Treewalk
