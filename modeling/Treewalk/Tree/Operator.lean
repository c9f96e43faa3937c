/-
  The operators of the tree, with their spelling in messages.
-/

namespace Treewalk

/-- The binary operators. -/
inductive BinaryOp where
  | add
  | sub
  | mul
  | div
  | mod
  | eq
  | ne
  | lt
  | le
  | gt
  | ge
  | and
  | or
  | bitAnd
  | bitOr
  | bitXor
  | shl
  | shr
  deriving DecidableEq, Inhabited

namespace BinaryOp

def isComparison : BinaryOp → Bool
  | eq | ne | lt | le | gt | ge => true
  | _ => false

def isLogical : BinaryOp → Bool
  | and | or => true
  | _ => false

def symbol : BinaryOp → String
  | add => "+"
  | sub => "-"
  | mul => "*"
  | div => "/"
  | mod => "%"
  | eq => "=="
  | ne => "!="
  | lt => "<"
  | le => "<="
  | gt => ">"
  | ge => ">="
  | and => "&&"
  | or => "||"
  | bitAnd => "&"
  | bitOr => "|"
  | bitXor => "^"
  | shl => "<<"
  | shr => ">>"

end BinaryOp

/-- The two ways of stepping a variable by one. -/
inductive StepOp where
  | increment
  | decrement
  deriving DecidableEq, Inhabited

/-- What a step adds. -/
def StepOp.delta : StepOp → Int64
  | increment => 1
  | decrement => -1

/-- The operators written before their operand. -/
inductive UnaryOp where
  /-- `++x` and `--x` -/
  | step (op : StepOp)
  | plus
  | neg
  | bitNot
  | not
  deriving DecidableEq, Inhabited

/-- Plain assignment, or assignment through an operator such as `+=`. -/
inductive AssignOp where
  | assign
  | compound (op : BinaryOp)
  deriving DecidableEq, Inhabited

/-- A literal as it stands in the source. -/
inductive Literal where
  | integral (value : Int64)
  | floating (value : Float)
  | char (value : UInt8)
  deriving DecidableEq, Inhabited

end Treewalk
