/-
  Bytes as text.

  Text is held in UTF-8. Bytes that are no text are read all the same: each
  longest part that starts like a character and does not go on like one, and
  each byte that starts no character, becomes one U+FFFD.

  * `Utf8.decode` reads any bytes, `Utf8.decode?` only those that are text.
-/
namespace Treewalk.Utf8

/-- How a character of several bytes starts: the number of bytes that follow,
    the bits its first byte carries, and the bounds of the second byte, which
    rule out overlong forms, surrogates and what lies beyond U+10FFFF. -/
structure Lead where
  following : Nat
  bits : Nat
  low : UInt8 := 0x80
  high : UInt8 := 0xBF

/-- The start of a character of several bytes. -/
def lead? (b : UInt8) : Option Lead :=
  if b < 0xC2 then none
  else if b < 0xE0 then some { following := 1, bits := b.toNat - 0xC0 }
  else if b = 0xE0 then some { following := 2, bits := 0, low := 0xA0 }
  else if b = 0xED then some { following := 2, bits := 0xD, high := 0x9F }
  else if b < 0xF0 then some { following := 2, bits := b.toNat - 0xE0 }
  else if b = 0xF0 then some { following := 3, bits := 0, low := 0x90 }
  else if b < 0xF4 then some { following := 3, bits := b.toNat - 0xF0 }
  else if b = 0xF4 then some { following := 3, bits := 4, high := 0x8F }
  else none

/-- The code point whose first bytes give `code`, and the bytes after it; no
    code point if a byte does not fit, and then the bytes from that one on. -/
def continued (code : Nat) (low high : UInt8) : Nat → List UInt8 → Option Nat × List UInt8
  | 0, bytes => (some code, bytes)
  | _ + 1, [] => (none, [])
  | n + 1, b :: rest =>
    if low ≤ b ∧ b ≤ high then continued (code * 64 + b.toNat % 64) 0x80 0xBF n rest
    else (none, b :: rest)

/-- The character that starts with the given byte, if there is one, and the
    bytes after the part that was read. -/
def first (b : UInt8) (rest : List UInt8) : Option Char × List UInt8 :=
  if b < 0x80 then (some (Char.ofNat b.toNat), rest)
  else
    match lead? b with
    | none => (none, rest)
    | some l =>
      let (code, rest) := continued l.bits l.low l.high l.following rest
      (code.map Char.ofNat, rest)

theorem length_continued_le (code : Nat) (low high : UInt8) (n : Nat) (bytes : List UInt8) :
    (continued code low high n bytes).2.length ≤ bytes.length := by
  fun_induction continued code low high n bytes with
  | case1 => simp
  | case2 => simp
  | case3 code low high n b rest _ ih =>
    rw [List.length_cons]
    omega
  | case4 => simp

theorem length_first_le (b : UInt8) (rest : List UInt8) :
    (first b rest).2.length ≤ rest.length := by
  unfold first
  split
  · simp
  · split
    · simp
    · exact length_continued_le ..

/-- The characters of bytes, with nothing where there is none. -/
def characters : List UInt8 → List (Option Char)
  | [] => []
  | b :: rest => (first b rest).1 :: characters (first b rest).2
termination_by bytes => bytes.length
decreasing_by
  have := length_first_le b rest
  rw [List.length_cons]
  omega

/-- What stands for bytes that are no text. -/
def replacement : Char :=
  '�'

/-- Bytes as text, with replacements where they are none. -/
def decode (bytes : ByteArray) : String :=
  String.ofList ((characters bytes.toList).map (·.getD replacement))

/-- Bytes as text, if they are that. -/
def decode? (bytes : ByteArray) : Option String :=
  ((characters bytes.toList).mapM id).map String.ofList

end Treewalk.Utf8
