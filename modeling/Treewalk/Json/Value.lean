/-
  JSON values and their text.

  Objects keep their members in order, repeated names included. Beside the
  usual values there is one for text that is well formed but stands for no
  value (`Json.unreadable`): it can be skipped but not used.
-/
import Treewalk.Decimal.Shortest

namespace Treewalk

/-- A JSON value. -/
inductive Json where
  | null
  | bool (value : Bool)
  /-- a number written without point and exponent -/
  | integer (value : Int)
  /-- any other number -/
  | floating (value : Float)
  | string (value : String)
  | array (items : List Json)
  | object (members : List (String × Json))
  /-- a number beyond the doubles, a text with half a surrogate pair, or a
      container nested too deeply -/
  | unreadable

namespace Json

instance : Inhabited Json := ⟨null⟩

/-- The member of an object, the last one if there are several. -/
def get? (j : Json) (name : String) : Option Json :=
  match j with
  | object members => (members.reverse.find? fun m => m.1 == name).map Prod.snd
  | _ => none

/-! ## Text -/

/-- The hexadecimal digits of a number below `16^width`. -/
def hex (width n : Nat) : String :=
  let digits := Nat.toDigits 16 n
  String.ofList (List.replicate (width - digits.length) '0' ++ digits)

/-- A character inside a quoted text. -/
def escape (c : Char) : String :=
  if c = '"' then "\\\""
  else if c = '\\' then "\\\\"
  else if c.toNat < 32 then "\\u" ++ hex 4 c.toNat
  else c.toString

/-- A text in quotes. -/
def quote (s : String) : String :=
  "\"" ++ s.foldl (fun t c => t ++ escape c) "" ++ "\""

/-- A decimal as a JSON number that cannot be taken for an integer: written out
    with a point below `10^16` and down to `10^-5`, with an exponent otherwise. -/
def decimalText (d : Decimal) : String :=
  if d.digits = 0 then "0.0"
  else if -5 < d.magnitude ∧ d.magnitude ≤ 16 then
    if 0 ≤ d.exponent then d.positional ++ ".0" else d.positional
  else d.scientific

/-- A finite double as a JSON number: shortest digits, even ones on a tie. -/
def numberText (x : Float) : String :=
  let sign := if x.toBits >>> 63 = 1 then "-" else ""
  sign ++ decimalText (shortestOf .even x)

mutual

/-- The text of a value, without blanks. -/
def text : Json → String
  | null => "null"
  | bool true => "true"
  | bool false => "false"
  | integer n => toString n
  | floating x => numberText x
  | string s => quote s
  | array items => "[" ++ textItems items ++ "]"
  | object members => "\x7b" ++ textMembers members ++ "\x7d"
  | unreadable => "null"

/-- The items of an array, with commas between them. -/
def textItems : List Json → String
  | [] => ""
  | [j] => j.text
  | j :: rest => j.text ++ "," ++ textItems rest

/-- The members of an object, with commas between them. -/
def textMembers : List (String × Json) → String
  | [] => ""
  | [(name, j)] => quote name ++ ":" ++ j.text
  | (name, j) :: rest => quote name ++ ":" ++ j.text ++ "," ++ textMembers rest

end

end Json

end Treewalk
