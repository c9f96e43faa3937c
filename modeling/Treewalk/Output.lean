/-
  Where printed bytes go.

  * a `Sink` passes bytes on to the console or keeps them in a buffer;
  * `Sink.captured`, `Sink.text` and `Sink.lines` are three views of what a
    buffer has kept.
-/
import Treewalk.Text.Utf8

namespace Treewalk

/-- The lines of a text; no empty line follows a final line break. -/
def linesOf (text : String) : List String :=
  let lines := text.splitOn "\n"
  if lines.getLast? = some "" then lines.dropLast else lines

/-- Where printed bytes go. -/
inductive Sink where
  | console
  | buffer (bytes : ByteArray)

namespace Sink

/-- An empty buffer. -/
def empty : Sink :=
  buffer .empty

/-- The sink after bytes were printed. -/
def write (s : Sink) (bytes : List UInt8) : Sink :=
  match s with
  | console => console
  | buffer kept => buffer (bytes.foldl ByteArray.push kept)

/-- The bytes that were kept; the console keeps none. -/
def captured : Sink → ByteArray
  | console => .empty
  | buffer kept => kept

/-- The sink with nothing kept. -/
def clear : Sink → Sink
  | console => console
  | buffer _ => empty

/-- What was kept, as text. -/
def text (s : Sink) : String :=
  Utf8.decode s.captured

/-- What was kept, line by line. -/
def lines (s : Sink) : List String :=
  linesOf s.text

end Sink

end Treewalk
