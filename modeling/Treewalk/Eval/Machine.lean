/-
  The machine that evaluates a tree.

  * `Machine` is all that an evaluation changes: heap, state, output, and what
    the last fault left behind;
  * `Eval` is a computation on it that may halt, with a fault or because its
    fuel is spent; what it has changed before that stays changed;
  * `inScope`, `inCall`, `inContext` and `underDiagnostic` run a computation
    between the opening and the closing of a frame. They close what they have
    opened however the computation ends.
-/
import Treewalk.State
import Treewalk.Tree.Program

namespace Treewalk

/-- What is evaluated, and how. -/
structure Engine where
  program : Program
  /-- the function to run -/
  entry : String := "start"
  /-- keep a dump of the state when a fault arises -/
  dumpState : Bool := false
  /-- how deeply trees and calls may nest, and how many rounds a loop may
      take, before an evaluation is given up -/
  fuel : Nat := 4611686018427387904
  /-- where the host puts blocks -/
  layout : Layout := .consecutive

/-- All that an evaluation changes. -/
structure Machine where
  heap : Heap := {}
  state : State := {}
  /-- the bytes printed -/
  output : ByteArray := .empty
  /-- the token of the node evaluated last that has a place -/
  nearest : Option Token := none
  /-- the calls that were open when the last fault arose, innermost first -/
  trace : Option (List String) := none
  /-- the state when the last fault arose -/
  dump : Option String := none

instance : Inhabited Machine := ⟨{}⟩

/-- A computation on the machine. -/
abbrev Eval := EStateM Halt Machine

/-- How evaluating a node ends. -/
inductive Outcome where
  | normal
  | brk
  | cont
  | returned (value : Option Ref)
  deriving DecidableEq

namespace Machine

/-- Drop operands until at most `n` are left. -/
def truncate (m : Machine) (n : Nat) : Machine :=
  { m with state := m.state.truncate n }

/-- The lines of a trace. The innermost call has reached `place`, every other
    one the place of the call inside it. -/
def traceLines : Option Location → List DiagnosticFrame → List String
  | _, [] => []
  | place, d :: rest =>
    { d.callSite with location := place }.text :: traceLines d.callSite.location rest

/-- Note the open calls, unless those of an earlier fault are still noted. -/
def capture (e : Engine) (m : Machine) : Machine :=
  if m.trace.isSome then m
  else
    { m with
      trace := some (traceLines (m.nearest >>= Token.location) m.state.diagnostics)
      dump := if e.dumpState then some (m.state.text m.heap) else m.dump }

/-- Forget what the last fault left behind. -/
def forgetFault (m : Machine) : Machine :=
  { m with trace := none, dump := none }

/-- The text that reports a fault: its message, the open calls, the dump. -/
def report (m : Machine) (f : Fault) : String :=
  let calls := (m.trace.getD []).map ("\n\tat " ++ ·)
  let dump := m.dump.elim "" fun text => "\n" ++ text.trimAsciiEnd.toString
  "Error: " ++ f.message ++ String.join calls ++ dump

end Machine

namespace Eval

/-- Halt with a fault that has no place yet. -/
@[inline] def fail {α : Type} (c : Cause) : Eval α :=
  throw (.of c)

/-- A computation on the heap. -/
@[inline] def mem {α : Type} (x : Mem α) : Eval α := fun m =>
  let { heap, state, output, nearest, trace, dump } := m
  match x heap with
  | .ok a heap => .ok a { heap, state, output, nearest, trace, dump }
  | .error halt heap => .error halt { heap, state, output, nearest, trace, dump }

instance : MonadLift Mem Eval := ⟨mem⟩

/-- A value read off the heap. -/
@[inline] def look {α : Type} (f : Heap → α) : Eval α := fun m =>
  .ok (f m.heap) m

/-- A value read off the heap, unless reading it is a fault. -/
@[inline] def look? {α : Type} (f : Heap → Except Cause α) : Eval α := fun m =>
  match f m.heap with
  | .ok a => .ok a m
  | .error c => .error (.fault { cause := c }) m

/-- A value read off the state. -/
@[inline] def ask {α : Type} (f : State → α) : Eval α := fun m =>
  .ok (f m.state) m

/-- A change of the state. -/
@[inline] def change (f : State → State) : Eval Unit := fun m =>
  .ok () { m with state := f m.state }

/-- Leave a value as the innermost operand. -/
def push (r : Ref) : Eval Unit :=
  change (·.push r)

/-- Take the innermost operand, its content if it is a slot. -/
def pop : Eval Ref := fun m =>
  match m.state.pop? with
  | some (r, state) => .ok (m.heap.flatten r) { m with state }
  | none => .error (.fault { cause := .stackUnderflow }) m

/-- Bind a name in the innermost frame. -/
def bindName (name : String) (r : Ref) : Eval Unit :=
  change (·.bind name r)

/-- The outcome of a computation that halts only when its fuel is spent. -/
def attempt {α : Type} (x : Eval α) : Eval (Except Fault α) := fun m =>
  match x m with
  | .ok a m => .ok (.ok a) m
  | .error (.fault f) m => .ok (.error f) m
  | .error .exhausted m => .error .exhausted m

/-- Place a fault at `l` unless it has a place already. -/
@[inline] def placed {α : Type} (l : Option Location) (x : Eval α) : Eval α := fun m =>
  match x m with
  | .error (.fault f) m => .error (.fault (f.orLocation l)) m
  | result => result

/-! ## Brackets -/

/-- Run a computation between two changes of the machine; the second is made
    however the computation ends. -/
@[inline] def bracket {α : Type} (opening closing : Machine → Machine) (x : Eval α) : Eval α :=
  fun m =>
    match x (opening m) with
    | .ok a m => .ok a (closing m)
    | .error e m => .error e (closing m)

/-- Drop the operands that a computation leaves behind. -/
@[inline] def droppingOperands {α : Type} (x : Eval α) : Eval α := fun m =>
  let depth := m.state.valueDepth
  bracket id (·.truncate depth) x m

/-- Run a computation in a scope of its own. -/
@[inline] def inScope {α : Type} (x : Eval α) : Eval α :=
  bracket (fun m => { m with state := m.state.openScope })
    (fun m => { m with state := m.state.closeScope }) x

/-- Run a computation in the frame of a call. -/
@[inline] def inCall {α : Type} (x : Eval α) : Eval α :=
  bracket (fun m => { m with state := m.state.openCall })
    (fun m => { m with state := m.state.closeCall }) x

/-- Run a computation with the given receiver, if there is one. -/
@[inline] def inContext {α : Type} (receiver : Option Ref) (x : Eval α) : Eval α :=
  bracket (fun m => { m with state := m.state.pushContext receiver })
    (fun m => { m with state := m.state.popContext }) x

/-- Run a computation under a diagnostic frame. A fault that leaves it is
    captured while the frame still stands. -/
@[inline] def underDiagnostic {α : Type} (e : Engine) (callSite : Token) (x : Eval α) : Eval α :=
  fun m =>
    match x { m with state := m.state.enterDiagnostic callSite } with
    | .ok a m => .ok a { m with state := m.state.exitDiagnostic }
    | .error halt m =>
      let m := m.capture e
      .error halt { m with state := m.state.exitDiagnostic }

end Eval

end Treewalk
