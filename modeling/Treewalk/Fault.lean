/-
  Faults: why an evaluation stops, and where.

  * `AccessError` are the ways of reaching for a value that is not there,
    `Malformation` the ways in which a tree breaks the rules an earlier phase
    guarantees, `Cause` all causes of a fault;
  * `Fault` is a cause with the place of the innermost node that has one, and
    `Fault.message` is the text shown for it;
  * `Halt` is why a computation has no result: a fault, or because it does not
    come to an end.
-/
import Treewalk.Ty
import Treewalk.Token
import Treewalk.Tree.Operator

namespace Treewalk

/-- Reaching for a value that is not there. -/
inductive AccessError where
  | outOfBounds (index : Int64) (length : Nat)
  | nullPointer
  | indexIntoAbsent
  | fieldThroughNull (field : String)
  | fieldOfAbsent (field : String)
  | absentPointer
  /-- an address beyond one past the last element -/
  | elementAddress (offset : Int64) (length : Nat)
  | negativeDimension (size : Int64) (name : String)
  | negativeCount (count : Int64)
  | methodThroughNull
  | methodOnAbsent
  deriving DecidableEq

/-- The text of an access error. -/
def AccessError.text : AccessError → String
  | outOfBounds i n => s!"index {i} out of bounds for {n} element(s)"
  | nullPointer => "null pointer dereference"
  | indexIntoAbsent => "index into an absent value"
  | fieldThroughNull f => s!"field '{f}' read through a null pointer"
  | fieldOfAbsent f => s!"field '{f}' of an absent value"
  | absentPointer => "dereference of an absent pointer"
  | elementAddress i n => s!"address of element {i} outside {n} element(s)"
  | negativeDimension n name => s!"negative size {n} for array '{name}'"
  | negativeCount n => s!"calloc of {n} elements"
  | methodThroughNull => "method call through a null pointer"
  | methodOnAbsent => "method call on an absent value"

/-- A rule of well-formed trees that is broken. Nodes are given by their
    description, values by the name of their variant. -/
inductive Malformation where
  | notAValue (node : String)
  | noValue (node : String)
  | noValueOf (ty : Ty)
  | asOperand (ty : Ty)
  | asCondition (ty : Ty)
  | twoPointers (op : BinaryOp)
  | pointerAndAbsent (op : BinaryOp)
  | pointerAndInteger (op : BinaryOp)
  | pointerCompared (n : Int64)
  | floatingOffset
  | floatingOperands (op : BinaryOp)
  | floatingComplement
  | stepOf (variant : String)
  | arithmeticOn (variant : String)
  | floatingIndex
  | indexIsA (variant : String)
  | indexInto (variant : String)
  | fieldOf (field variant : String)
  | noField (ty : Ty) (field : String)
  | dereferenceOf (variant : String)
  | elementOf (variant : String)
  | methodOn (variant : String)
  | receiverIsNoObject
  | dimensionIsNoNumber
  | dimensionsOf (name : String)
  | initializedIsNoDeclaration (node : String)
  | looseJump
  | loosePrior
  | argumentCount (given expected : Nat)
  | callArgumentCount (name : String) (expected given : Nat)
  | allocationWithoutType
  | allocationWithoutCount
  | allocationCountIsNoNumber
  | releaseArgumentCount
  | printWithoutFormat
  deriving DecidableEq

/-- The text of a malformation. -/
def Malformation.text : Malformation → String
  | notAValue node => node ++ " used as a value"
  | noValue node => node ++ " produced no value"
  | noValueOf ty => "no value of type " ++ ty.text
  | asOperand ty => ty.text ++ " used as an operand"
  | asCondition ty => ty.text ++ " used as a condition"
  | twoPointers op => "operator '" ++ op.symbol ++ "' applied to two pointers"
  | pointerAndAbsent op => "operator '" ++ op.symbol ++ "' applied to a pointer and an absent value"
  | pointerAndInteger op => "operator '" ++ op.symbol ++ "' applied to a pointer and an integer"
  | pointerCompared n => s!"comparison of a pointer with the integer {n}"
  | floatingOffset => "pointer offset by a floating value"
  | floatingOperands op => "operator '" ++ op.symbol ++ "' applied to floating operands"
  | floatingComplement => "'~' applied to a floating value"
  | stepOf v => s!"cannot step a {v} value"
  | arithmeticOn v => s!"arithmetic on a {v} value"
  | floatingIndex => "array index is not an integer"
  | indexIsA v => s!"array index is a {v} value"
  | indexInto v => s!"index into a {v} value"
  | fieldOf f v => s!"field '{f}' of a {v} value"
  | noField ty f => ty.text ++ s!" has no field '{f}'"
  | dereferenceOf v => s!"dereference of a {v} value"
  | elementOf v => s!"address of an element of a {v} value"
  | methodOn v => s!"method call on a {v} value"
  | receiverIsNoObject => "method receiver is not an object"
  | dimensionIsNoNumber => "array dimension is not a number"
  | dimensionsOf name => s!"dimensions given for non-array '{name}'"
  | initializedIsNoDeclaration node => s!"initialized {node} is not a declaration"
  | looseJump => "break or continue outside of a loop"
  | loosePrior => "prior constructor outside of a constructor"
  | argumentCount n m => s!"call with {n} argument(s) to a function taking {m}"
  | callArgumentCount name m n => s!"'{name}' takes {m} argument(s), got {n}"
  | allocationWithoutType => "calloc without an element type"
  | allocationWithoutCount => "calloc without an element count"
  | allocationCountIsNoNumber => "calloc count is not a number"
  | releaseArgumentCount => "free takes exactly one argument"
  | printWithoutFormat => "printf without a format string"

/-- The cause of a fault. -/
inductive Cause where
  | access (e : AccessError)
  | invalidCast (source target : Ty)
  | undefinedSymbol (name : String)
  /-- no method of the class or its ancestors accepts the arguments -/
  | unresolvedMethod (className name : String) (args : List Ty)
  | malformed (m : Malformation)
  | divisionByZero
  | moduloByZero
  | stackUnderflow
  | missingEntryPoint (name : String)
  | unsizedArray (element : Ty)
  deriving DecidableEq

namespace Cause

/-- The text of a cause. -/
def text : Cause → String
  | access e => "Segmentation fault: " ++ e.text
  | invalidCast source target => "Invalid cast from " ++ source.text ++ " to " ++ target.text
  | undefinedSymbol name => s!"Undefined symbol '{name}'"
  | unresolvedMethod className name args =>
    s!"No method '{name}' on class {className} accepts (" ++
      ", ".intercalate (args.map Ty.text) ++ ")"
  | malformed m => "Malformed program tree: " ++ m.text
  | divisionByZero => "Division by zero"
  | moduloByZero => "Modulo by zero"
  | stackUnderflow => "Value stack underflow"
  | missingEntryPoint name => s!"No entry point '{name}' defined"
  | unsizedArray element => "Array of " ++ element.text ++ " declared without a size"

/-- Does the cause lie in the tree rather than in what the program does? -/
def isInternal : Cause → Bool
  | unresolvedMethod .. | malformed _ | stackUnderflow => true
  | _ => false

end Cause

/-- A fault: its cause, and where it arose if that is known. -/
structure Fault where
  cause : Cause
  location : Option Location := none
  deriving DecidableEq

namespace Fault

/-- The text shown for a fault. -/
def message (f : Fault) : String :=
  match f.location with
  | some l => f.cause.text ++ " at " ++ l.text
  | none => f.cause.text

/-- The same fault, placed at `l` unless it has a place already. -/
def orLocation (f : Fault) (l : Option Location) : Fault :=
  { f with location := f.location <|> l }

/-- May the fault vanish once more names are defined? -/
def isDeferrable (f : Fault) : Bool :=
  match f.cause with
  | .undefinedSymbol _ => true
  | _ => false

end Fault

/-- Why a computation has no result. -/
inductive Halt where
  | fault (f : Fault)
  /-- it has not come to an end within its bounds -/
  | exhausted
  deriving DecidableEq

/-- A fault that has no place yet. -/
abbrev Halt.of (c : Cause) : Halt :=
  .fault { cause := c }

end Treewalk
