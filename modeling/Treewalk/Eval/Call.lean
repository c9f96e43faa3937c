/-
  Calls.

  Arguments are evaluated from left to right and left as operands. The call
  opens a dispatch context, a diagnostic frame and a binding frame, takes its
  arguments, and closes everything again however its body ends.

  * `invoke` runs a routine whose arguments are in place;
  * `callFunction`, `callMethod` and `callConstructor` are the three kinds of
    call.
-/
import Treewalk.Eval.Value
import Treewalk.Memory.Zero
import Treewalk.Tree.Method

namespace Treewalk

/-- The name of constructors in diagnostics. -/
def constructorName : String :=
  "<init>"

/-- A constructor that is not there. -/
def missingConstructor (c : ConstructorRef) : Cause :=
  .unresolvedMethod c.className s!"{constructorName} #{c.index}" []

/-- The method that a call on a receiver of the given class means. -/
def Program.resolveMethod (p : Program) (className name : String) (args : List Ty) :
    Except Cause Routine :=
  match p.resolveMethod? className name args with
  | some r => .ok r
  | none => .error (.unresolvedMethod className name args)

/-- A token that names a member of a class. -/
def Token.member (t : Token) (className name : String) : Token :=
  t.renamed (className ++ "::" ++ name)

namespace Eval

/-! ## Arguments -/

/-- Arguments, as many as expected. -/
def pushArguments (ev : Evaluator) (args : List Node) (arity : Nat) : Eval Unit := do
  if args.length ≠ arity then
    fail (.malformed (.argumentCount args.length arity))
  pushValues ev args

/-- Take `n` operands, the innermost last, before those given. -/
def popValues : Nat → List Ref → Eval (List Ref)
  | 0, taken => return taken
  | n + 1, taken => do
    let r ← pop
    popValues n (r :: taken)

/-- Bind each parameter to its argument. -/
def bindAll : List (Param × Ref) → Eval Unit
  | [] => return
  | (p, r) :: rest => do
    bindName p.name (← conform r p.ty)
    bindAll rest

/-- Take the arguments and bind the parameters to them. -/
def bindParameters (params : List Param) : Eval Unit := do
  let args ← popValues params.length []
  bindAll (params.zip args)

/-! ## Running a routine -/

/-- How a routine is run: it is given the place of the call and the receiver,
    if there is one. -/
abbrev Invoker := Routine → Token → Option Ref → Eval (Option Ref)

/-- The constructor that runs first, on the same receiver. -/
def runPrior (e : Engine) (ev : Evaluator) (invoke : Invoker) (prior : Prior) : Eval Unit := do
  match e.program.constructor? prior.target with
  | none => fail (missingConstructor prior.target)
  | some target =>
    match ← ask (·.receiver?) with
    | none => fail (.malformed .loosePrior)
    | some receiver =>
      pushArguments ev prior.args target.arity
      let site := target.name.member prior.target.className constructorName
      discard (invoke target site (some receiver))

/-- The result of a routine whose body has ended. -/
def result (returns : Ty) : Outcome → Eval (Option Ref)
  | .returned (some r) => do return some (← conform r returns)
  | .returned none | .normal => return none
  | .brk | .cont => fail (.malformed .looseJump)

/-- Bind the parameters, run the prior constructor, then the body. -/
def runRoutine (e : Engine) (ev : Evaluator) (invoke : Invoker) (r : Routine) :
    Eval (Option Ref) := do
  bindParameters r.params
  r.prior.forM (runPrior e ev invoke)
  result r.returns (← ev r.body)

/-- Run a routine whose arguments are in place, with at most the given number
    of prior constructors. -/
def invoke (e : Engine) (ev : Evaluator) : Nat → Invoker
  | 0, _, _, _ => throw .exhausted
  | n + 1, r, site, receiver =>
    inContext receiver <| underDiagnostic e site <| inCall <| runRoutine e ev (invoke e ev n) r

/-- Leave the result of a call, if there is one. -/
def yieldResult : Option Ref → Eval Outcome
  | some r => yield r
  | none => return .normal

/-! ## The kinds of call -/

/-- A call of a function. -/
def callFunction (e : Engine) (ev : Evaluator) (invoke : Invoker) (name : Token)
    (args : List Node) : Eval Outcome := do
  match e.program.function? name.image with
  | none => fail (.undefinedSymbol name.image)
  | some f =>
    pushArguments ev args f.arity
    yieldResult (← invoke f name none)

/-- The object a method is called on: the value itself, or what it points
    at. -/
def objectOf (h : Heap) (owner : Ref) : Except Cause Ref :=
  match h.cell owner with
  | .compound .. => .ok owner
  | .pointer p =>
    if h.isNull p then .error (.access .methodThroughNull) else (h.slotOf p).map h.flatten
  | .slot .. => .error (.access .methodOnAbsent)
  | c => .error (.malformed (.methodOn c.variant))

/-- The class of an object. -/
def classOf (h : Heap) (object : Ref) : Except Cause String :=
  match h.cell object with
  | .compound (.compound _ name) _ => .ok name
  | _ => .error (.malformed .receiverIsNoObject)

/-- The pointer to the receiver of a method, and its class. -/
def receiverOf (owner : Ref) : Mem (Ref × String) := do
  let owner ← Mem.read (·.flatten owner)
  let object ← Mem.answer (← Mem.read (objectOf · owner))
  let receiver ←
    match ← Mem.read (·.cell owner) with
    | .compound .. => toPointer owner
    | _ => pure owner
  return (receiver, ← Mem.answer (← Mem.read (classOf · object)))

/-- A call of a method. It is chosen by the class of the receiver and the
    types of the arguments as they are, not as they were declared. -/
def callMethod (e : Engine) (ev : Evaluator) (invoke : Invoker) (owner : Node) (method : Token)
    (args : List Node) : Eval Outcome := do
  let (receiver, className) ← receiverOf (← valueOf ev owner)
  let depth ← ask (·.valueDepth)
  pushValues ev args
  let values ← ask fun s => (s.values.items.take (s.valueDepth - depth)).reverse
  let types ← look fun h => values.map h.tyOf
  match e.program.resolveMethod className method.image types with
  | .error c => fail c
  | .ok r =>
    yieldResult (← invoke r (method.member className method.image) (some receiver))

/-- A call of a constructor. A class without constructors can be made without
    arguments. -/
def callConstructor (e : Engine) (ev : Evaluator) (invoke : Invoker) (c : ConstructorRef)
    (args : List Node) : Eval Outcome := do
  match e.program.compound? c.className with
  | none => fail (.undefinedSymbol c.className)
  | some compound =>
    let object ← createValue e.program compound.ty
    let receiver ← toPointer object
    if !(compound.constructors.isEmpty && args.isEmpty) then
      match compound.constructors[c.index]? with
      | none => fail (missingConstructor c)
      | some r =>
        pushArguments ev args r.arity
        discard (invoke r (r.name.member c.className constructorName) (some receiver))
    yield receiver

end Eval

end Treewalk
