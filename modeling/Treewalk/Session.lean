/-
  A program at work, seen from outside.

  * `Session.setUp` sets up the globals, `Session.create?` insists on it;
  * `runEntry`, `callFunction`, `callMethod`, `evaluateExpression` and
    `executeStatement` are what can be asked of a session, and
    `Session.perform` asks it;
  * `Session.run` runs the entry point to the end and gives its status.

  A fault does not end a session.
-/
import Treewalk.Eval.Globals

namespace Treewalk

/-- A program at work. -/
structure Session where
  engine : Engine
  machine : Machine

namespace Eval

/-! ## What can be asked of a session -/

/-- Run a routine on the given arguments. -/
def invokeOn (e : Engine) (r : Routine) (site : Token) (receiver : Option Ref)
    (args : List Ref) : Eval (Option Ref) :=
  droppingOperands do
    args.forM push
    e.invoker r site receiver

/-- Run the entry point. It gets the number of the texts and the texts. -/
def runEntry (e : Engine) (texts : List String) : Eval (Option Ref) := do
  modify Machine.forgetFault
  match e.program.function? e.entry with
  | none => fail (.missingEntryPoint e.entry)
  | some r =>
    let count ← Mem.alloc (.primitive (.int (.ofNat texts.length)))
    let values ← mem (texts.mapM createString)
    let texts ← arrayOf (.pointer .char) values
    invokeOn e r r.name none [count, texts]

/-- Call a function. -/
def callFunctionOn (e : Engine) (name : String) (args : List Ref) : Eval (Option Ref) := do
  modify Machine.forgetFault
  match e.program.function? name with
  | none => fail (.undefinedSymbol name)
  | some r =>
    if r.arity ≠ args.length then
      fail (.malformed (.callArgumentCount name r.arity args.length))
    invokeOn e r r.name none args

/-- Call a method of an object, or of what a pointer points at. -/
def callMethodOn (e : Engine) (owner : Ref) (name : String) (args : List Ref) :
    Eval (Option Ref) := do
  modify Machine.forgetFault
  let (receiver, className) ← receiverOf owner
  let types ← look fun h => args.map h.tyOf
  match e.program.resolveMethod className name types with
  | .error c => fail c
  | .ok r => invokeOn e r (r.name.member className name) (some receiver) args

/-- The value of an expression, if it leaves one. -/
def evaluateExpression (e : Engine) (node : Node) : Eval (Option Ref) :=
  droppingOperands do
    let depth ← ask (·.valueDepth)
    discard (e.evaluator node)
    if depth < (← ask (·.valueDepth)) then
      return some (← pop)
    else
      return none

/-- How a statement ends. -/
def executeStatement (e : Engine) (node : Node) : Eval Outcome :=
  execute e.evaluator node

end Eval

namespace Session

/-- Ask something of a session. -/
def perform {α : Type} (s : Session) (x : Engine → Eval α) : Except Halt α × Session :=
  match x s.engine s.machine with
  | .ok a machine => (.ok a, { s with machine })
  | .error halt machine => (.error halt, { s with machine })

/-- A session in which nothing has happened yet. -/
def fresh (engine : Engine) : Session :=
  { engine, machine := { heap := { layout := engine.layout } } }

/-- Initialise the globals. -/
def setUp (s : Session) : Except Halt Unit × Session :=
  s.perform fun e => Eval.initializeGlobals e e.program.globals 0

/-- A session for a program, its globals being initialised. -/
def create? (engine : Engine) : Except Halt Session :=
  match (fresh engine).setUp with
  | (.ok (), s) => .ok s
  | (.error halt, _) => .error halt

/-- The status of a run that fails or returns no number. -/
def failureStatus : Int32 :=
  -1

/-- The status that a result stands for. -/
def statusOf (h : Heap) (result : Option Ref) : Int32 :=
  match result.bind h.primitive? with
  | some p => p.toInt64.toInt32
  | none => failureStatus

/-- The outcome of a run: its status, and what to say about a fault. -/
structure Run where
  status : Int32
  report : Option String

/-- Run the entry point to the end. -/
def run (s : Session) (texts : List String) : Run × Session :=
  match s.perform fun e => Eval.runEntry e texts with
  | (.ok result, s) => (⟨statusOf s.machine.heap result, none⟩, s)
  | (.error (.fault f), s) => (⟨failureStatus, some (s.machine.report f)⟩, s)
  | (.error .exhausted, s) => (⟨failureStatus, none⟩, s)

end Session

end Treewalk
