/-
  Reading JSON text.

  The grammar is strict: no comments, no trailing commas, no leading zeros,
  no raw control characters in texts, nothing but blanks around the value.

  * `Json.parse?` reads a whole text;
  * containers nested `depthMax` or more levels deep, numbers beyond the
    doubles and texts with half a surrogate pair read as `Json.unreadable`.
-/
import Treewalk.Decimal.Read
import Treewalk.Json.Value

namespace Treewalk.Json

/-- The nesting level from which on containers are not read. -/
def depthMax : Nat :=
  128

/-- Drop blanks. -/
def skipBlank : List Char → List Char
  | c :: rest => if c = ' ' ∨ c = '\n' ∨ c = '\t' ∨ c = '\r' then skipBlank rest else c :: rest
  | [] => []

/-! ## Texts -/

def hexDigit? (c : Char) : Option Nat :=
  if '0' ≤ c ∧ c ≤ '9' then some (c.toNat - '0'.toNat)
  else if 'a' ≤ c ∧ c ≤ 'f' then some (c.toNat - 'a'.toNat + 10)
  else if 'A' ≤ c ∧ c ≤ 'F' then some (c.toNat - 'A'.toNat + 10)
  else none

/-- The number of four hexadecimal digits. -/
def hexUnit? (a b c d : Char) : Option Nat := do
  let a ← hexDigit? a
  let b ← hexDigit? b
  let c ← hexDigit? c
  let d ← hexDigit? d
  return ((a * 16 + b) * 16 + c) * 16 + d

/-- The character an escape letter stands for. -/
def escapeLetter? (c : Char) : Option Char :=
  if c = '"' ∨ c = '\\' ∨ c = '/' then some c
  else if c = 'b' then some '\x08'
  else if c = 'f' then some '\x0c'
  else if c = 'n' then some '\n'
  else if c = 'r' then some '\r'
  else if c = 't' then some '\t'
  else none

def isHighSurrogate (u : Nat) : Bool :=
  0xD800 ≤ u && u ≤ 0xDBFF

def isLowSurrogate (u : Nat) : Bool :=
  0xDC00 ≤ u && u ≤ 0xDFFF

/-- What has been read of a quoted text. -/
structure Reading where
  /-- its characters in reverse -/
  chars : List Char := []
  /-- a high surrogate read last, whose partner has to follow -/
  high : Option Nat := none
  /-- are all other surrogates paired? -/
  paired : Bool := true

namespace Reading

/-- A character follows. -/
def char (t : Reading) (c : Char) : Reading where
  chars := c :: t.chars
  paired := t.paired && t.high.isNone

/-- An escaped code unit follows. -/
def unit (t : Reading) (u : Nat) : Reading :=
  if isHighSurrogate u then
    { t with high := some u, paired := t.paired && t.high.isNone }
  else if isLowSurrogate u then
    match t.high with
    | some h =>
      let code := 0x10000 + (h - 0xD800) * 0x400 + (u - 0xDC00)
      { t with chars := Char.ofNat code :: t.chars, high := none }
    | none => { t with paired := false }
  else
    t.char (Char.ofNat u)

/-- The text, unless a surrogate in it stands alone. -/
def text? (t : Reading) : Option String :=
  if t.paired && t.high.isNone then some (String.ofList t.chars.reverse) else none

end Reading

/-- The rest of a quoted text after what has been read, and what follows the
    closing quote. -/
def textRest (t : Reading) : List Char → Option (Reading × List Char)
  | [] => none
  | '\\' :: 'u' :: a :: b :: c :: d :: rest =>
    match hexUnit? a b c d with
    | some u => textRest (t.unit u) rest
    | none => none
  | '\\' :: c :: rest =>
    match escapeLetter? c with
    | some e => textRest (t.char e) rest
    | none => none
  | c :: rest =>
    if c = '"' then some (t, rest)
    else if c.toNat < 32 ∨ c = '\\' then none
    else textRest (t.char c) rest

/-- A quoted text, its opening quote already read; no text if a surrogate in
    it stands alone. -/
def quoted (cs : List Char) : Option (Option String × List Char) :=
  (textRest {} cs).map fun (t, rest) => (t.text?, rest)

/-! ## Numbers -/

def digit? (c : Char) : Option Nat :=
  if '0' ≤ c ∧ c ≤ '9' then some (c.toNat - '0'.toNat) else none

/-- The leading digits, and what follows them. -/
def digits : List Char → List Nat × List Char
  | [] => ([], [])
  | c :: rest =>
    match digit? c with
    | some d => let (ds, rest') := digits rest; (d :: ds, rest')
    | none => ([], c :: rest)

/-- A fraction, if there is a point; at least one digit follows it. -/
def fraction : List Char → Option (Option (List Nat) × List Char)
  | '.' :: rest =>
    match digits rest with
    | ([], _) => none
    | (ds, rest) => some (some ds, rest)
  | cs => some (none, cs)

/-- An exponent, if there is a mark; at least one digit belongs to it. -/
def exponent (cs : List Char) : Option (Option (Bool × List Nat) × List Char) :=
  let signed (negative : Bool) (rest : List Char) :=
    match digits rest with
    | ([], _) => none
    | (ds, rest) => some (some (negative, ds), rest)
  let marked (rest : List Char) :=
    match rest with
    | '+' :: rest => signed false rest
    | '-' :: rest => signed true rest
    | rest => signed false rest
  match cs with
  | 'e' :: rest => marked rest
  | 'E' :: rest => marked rest
  | cs => some (none, cs)

/-- A numeral. Only the digit zero itself may start with a zero. -/
def numeral (cs : List Char) : Option (Numeral × List Char) := do
  let (negative, cs) := match cs with
    | '-' :: rest => (true, rest)
    | cs => (false, cs)
  let (whole, cs) := digits cs
  match whole with
  | [] => none
  | 0 :: _ :: _ => none
  | _ =>
    let (fraction, cs) ← fraction cs
    let (exponent, cs) ← exponent cs
    return (⟨negative, whole, fraction, exponent⟩, cs)

/-- A number. -/
def number (cs : List Char) : Option (Json × List Char) :=
  (numeral cs).map fun (n, rest) =>
    match n.value with
    | some (.integer i) => (integer i, rest)
    | some (.floating x) => (floating x, rest)
    | none => (unreadable, rest)

/-! ## Values -/

/-- A container at nesting level `depth`. -/
def container (depth : Nat) (j : Json) : Json :=
  if depthMax ≤ depth then unreadable else j

/-- An object of members, of which none may have an unreadable name. -/
def objectOf (members : List (Option String × Json)) : Json :=
  match members.mapM fun (name, j) => name.map (·, j) with
  | some members => object members
  | none => unreadable

mutual

/-- A value inside `depth` containers, blanks before it allowed. -/
def value : Nat → Nat → List Char → Option (Json × List Char)
  | 0, _, _ => none
  | fuel + 1, depth, cs =>
    match skipBlank cs with
    | 'n' :: 'u' :: 'l' :: 'l' :: rest => some (null, rest)
    | 't' :: 'r' :: 'u' :: 'e' :: rest => some (bool true, rest)
    | 'f' :: 'a' :: 'l' :: 's' :: 'e' :: rest => some (bool false, rest)
    | '"' :: rest =>
      (quoted rest).map fun (s, rest) => (s.elim unreadable string, rest)
    | '[' :: rest =>
      match skipBlank rest with
      | ']' :: rest => some (container (depth + 1) (array []), rest)
      | rest => items fuel (depth + 1) [] rest
    | c :: rest =>
      if c = '\x7b' then
        match skipBlank rest with
        | '\x7d' :: rest => some (container (depth + 1) (object []), rest)
        | rest => members fuel (depth + 1) [] rest
      else
        number (c :: rest)
    | [] => none

/-- The items of an array, those already read in reverse. -/
def items : Nat → Nat → List Json → List Char → Option (Json × List Char)
  | 0, _, _, _ => none
  | fuel + 1, depth, acc, cs =>
    match value fuel depth cs with
    | none => none
    | some (j, rest) =>
      match skipBlank rest with
      | ',' :: rest => items fuel depth (j :: acc) rest
      | ']' :: rest => some (container depth (array (j :: acc).reverse), rest)
      | _ => none

/-- The members of an object, those already read in reverse. -/
def members : Nat → Nat → List (Option String × Json) → List Char → Option (Json × List Char)
  | 0, _, _, _ => none
  | fuel + 1, depth, acc, cs =>
    match skipBlank cs with
    | '"' :: rest =>
      match quoted rest with
      | none => none
      | some (name, rest) =>
        match skipBlank rest with
        | ':' :: rest =>
          match value fuel depth rest with
          | none => none
          | some (j, rest) =>
            match skipBlank rest with
            | ',' :: rest => members fuel depth ((name, j) :: acc) rest
            | '\x7d' :: rest =>
              some (container depth (objectOf ((name, j) :: acc).reverse), rest)
            | _ => none
        | _ => none
    | _ => none

end

/-- Read a whole text. -/
def parse? (s : String) : Option Json :=
  let cs := s.toList
  match value (2 * cs.length + 2) 0 cs with
  | some (j, rest) => if skipBlank rest = [] then some j else none
  | none => none

end Treewalk.Json
