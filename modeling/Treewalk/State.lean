/-
  The state of an execution.

  * the *operand stack*, where expressions leave their values;
  * the *binding frames*, one per open call and one per open scope: a call
    starts from the global bindings alone, a scope from a copy of the frame
    around it;
  * the *dispatch contexts*, which decide what `this` refers to;
  * the *diagnostic frames*, from which a call stack is read off on a fault.

  All stacks have their innermost entry first. There is always an innermost
  binding frame, and outside all contexts there is no receiver.
-/
import Treewalk.Dict
import Treewalk.Memory.Text
import Treewalk.Stack

namespace Treewalk

/-- Names and the values they stand for. -/
abbrev Bindings := Dict Ref

/-- A call as diagnostics see it. -/
structure DiagnosticFrame where
  /-- what was called, and where from -/
  callSite : Token
  /-- the bindings made while this frame was innermost, in order -/
  locals : Array (String × Ref) := #[]

/-- The depths to which the end of a call takes the stacks back. -/
structure CallMark where
  values : Nat
  frames : Nat
  deriving DecidableEq

/-- The state of an execution. -/
structure State where
  values : Stack Ref := {}
  globals : Bindings := .empty
  frame : Bindings := .empty
  /-- the frames around the innermost one -/
  enclosing : Stack Bindings := {}
  /-- one mark per open call -/
  marks : List CallMark := []
  /-- the receiver of each open context, if it has one -/
  contexts : List (Option Ref) := []
  diagnostics : List DiagnosticFrame := []

namespace State

instance : Inhabited State := ⟨{}⟩

/-! ## Operands -/

def push (s : State) (r : Ref) : State :=
  { s with values := s.values.push r }

/-- The innermost operand, and the state without it. -/
def pop? (s : State) : Option (Ref × State) :=
  s.values.pop?.map fun (r, values) => (r, { s with values })

/-- The `n` innermost operands, the innermost last. -/
def peek? (s : State) (n : Nat) : Option (List Ref) :=
  if n ≤ s.values.size then some (s.values.items.take n).reverse else none

def valueDepth (s : State) : Nat :=
  s.values.size

/-- Drop operands until at most `n` are left. -/
def truncate (s : State) (n : Nat) : State :=
  { s with values := s.values.truncate n }

/-! ## Bindings -/

/-- Bind a name in the innermost frame, and note it for diagnostics. -/
def bind (s : State) (name : String) (r : Ref) : State :=
  { s with
    frame := s.frame.insert name r
    diagnostics :=
      match s.diagnostics with
      | [] => []
      | d :: rest => { d with locals := d.locals.push (name, r) } :: rest }

def lookup? (s : State) (name : String) : Option Ref :=
  s.frame.get? name

/-- Take the innermost bindings as the ones every call starts from. -/
def sealGlobals (s : State) : State :=
  { s with globals := s.frame }

def frameDepth (s : State) : Nat :=
  s.enclosing.size + 1

/-- Drop frames until at most `n` are left, but never the outermost one. -/
def truncateFrames (s : State) (n : Nat) : State :=
  if s.frameDepth ≤ max n 1 then s
  else
    match (s.enclosing.truncate (max n 1)).pop? with
    | some (frame, enclosing) => { s with frame, enclosing }
    | none => s

/-- Open the frame of a call. -/
def openCall (s : State) : State :=
  { s with
    marks := ⟨s.valueDepth, s.frameDepth⟩ :: s.marks
    frame := s.globals
    enclosing := s.enclosing.push s.frame }

/-- Close the innermost call, with the scopes and operands left in it. -/
def closeCall (s : State) : State :=
  match s.marks with
  | [] => s
  | m :: rest => ({ s with marks := rest }.truncateFrames m.frames).truncate m.values

def callDepth (s : State) : Nat :=
  s.marks.length

def openScope (s : State) : State :=
  { s with enclosing := s.enclosing.push s.frame }

/-- Close the innermost frame, unless it is the only one. -/
def closeScope (s : State) : State :=
  match s.enclosing.pop? with
  | some (frame, enclosing) => { s with frame, enclosing }
  | none => s

/-! ## Dispatch contexts -/

/-- Enter a context: that of a method with its receiver, or that of a free
    function, where there is none. -/
def pushContext (s : State) (receiver : Option Ref) : State :=
  { s with contexts := receiver :: s.contexts }

def popContext (s : State) : State :=
  { s with contexts := s.contexts.tail }

/-- What `this` refers to. -/
def receiver? (s : State) : Option Ref :=
  s.contexts.head?.join

/-- The receivers of all open contexts. -/
def receivers (s : State) : List Ref :=
  s.contexts.reduceOption

/-! ## Diagnostics -/

def enterDiagnostic (s : State) (callSite : Token) : State :=
  { s with diagnostics := { callSite } :: s.diagnostics }

def exitDiagnostic (s : State) : State :=
  { s with diagnostics := s.diagnostics.tail }

/-! ## Text -/

/-- A dump of the state: globals by name, the open calls from the outside in,
    receivers and operands from the inside out. -/
def text (s : State) (h : Heap) : String :=
  let line (r : Ref) := "  " ++ h.text r ++ "\n"
  let globals := s.globals.sorted.map fun (name, r) => "  " ++ name ++ " = " ++ h.text r ++ "\n"
  let calls := s.diagnostics.reverse.zipIdx.map fun (d, depth) =>
    let indent := String.ofList (List.replicate (2 * depth) ' ')
    let locals := d.locals.toList.map fun (name, r) =>
      indent ++ "  + " ++ name ++ " = " ++ h.text r ++ "\n"
    indent ++ "Frame = " ++ d.callSite.image ++ "\n" ++ String.join locals
  "Globals:\n" ++ String.join globals ++ String.join calls ++ "Receivers:\n" ++
    String.join (s.receivers.map line) ++ "Value stack:\n" ++ String.join (s.values.items.map line)

end State

end Treewalk
