/-
  Tokens and where they stand in a source text.

  A token is the text a node was built from, with its place if that is known.
  Places are carried along for messages only.
-/

namespace Treewalk

/-- A place in a source text. -/
structure Location where
  file : Option String := none
  line : Nat
  column : Nat := 0
  deriving DecidableEq, Inhabited

/-- `file:line`, or `line n` when the file is not known. -/
def Location.text (l : Location) : String :=
  match l.file with
  | some file => file ++ ":" ++ toString l.line
  | none => "line " ++ toString l.line

/-- A token: its text and where it stands. -/
structure Token where
  image : String
  location : Option Location := none
  deriving DecidableEq, Inhabited

namespace Token

/-- The same place, another text. -/
def renamed (t : Token) (image : String) : Token :=
  { t with image }

/-- The image, followed by the place in parentheses. -/
def text (t : Token) : String :=
  match t.location with
  | some l => t.image ++ "(" ++ l.text ++ ")"
  | none => t.image

end Token

end Treewalk
