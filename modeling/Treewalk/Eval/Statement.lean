/-
  Declarations, blocks, conditionals and loops.

  A loop ends at a condition that does not hold, at a `break` or at a
  `return`, and is given the number of rounds it may take.
-/
import Treewalk.Eval.Value
import Treewalk.Memory.Zero

namespace Treewalk.Eval

/-! ## Statements in a row -/

/-- A statement: what it leaves behind is dropped. -/
def execute (ev : Evaluator) (node : Node) : Eval Outcome :=
  droppingOperands (ev node)

/-- Statements in order, up to the first that does not end normally. -/
def executeAll (ev : Evaluator) : List Node → Eval Outcome
  | [] => return .normal
  | node :: rest => do
    match ← execute ev node with
    | .normal => executeAll ev rest
    | outcome => return outcome

/-- Nodes in order, everything they leave being kept. -/
def sequence (ev : Evaluator) : List Node → Eval Outcome
  | [] => return .normal
  | node :: rest => do
    match ← ev node with
    | .normal => sequence ev rest
    | outcome => return outcome

/-- A block. -/
def block (ev : Evaluator) (body : List Node) : Eval Outcome :=
  inScope (executeAll ev body)

/-- A conditional. -/
def conditional (ev : Evaluator) (cond thenBranch : Node) (elseBranch : Option Node) :
    Eval Outcome := do
  if ← holds ev cond then
    execute ev thenBranch
  else
    match elseBranch with
    | some node => execute ev node
    | none => return .normal

/-- A `return`. -/
def return_ (ev : Evaluator) : Option Node → Eval Outcome
  | some node => do
    let r ← valueOf ev node
    return .returned (some (← copyForBinding r))
  | none => return .returned none

/-! ## Declarations -/

/-- A dimension of an array. -/
def dimension (ev : Evaluator) (name : String) (dim : Node) : Eval Nat := do
  let r ← valueOf ev dim
  match ← look (·.primitive? r) with
  | none => fail (.malformed .dimensionIsNoNumber)
  | some p =>
    let n := p.toInt64
    if n < 0 then fail (.access (.negativeDimension n name)) else return n.toInt.toNat

/-- Bind a name to the zero value of a type. Dimensions, where given, size an
    array. -/
def declare (e : Engine) (ev : Evaluator) (ty : Ty) (name : String) (dims : List Node) :
    Eval Ref := do
  let value ←
    match dims, ty.unqualified with
    | [], _ => createValue e.program ty
    | dims, .array element _ =>
      let sizes ← dims.mapM (dimension ev name)
      createArray e.program element sizes
    | _, _ => fail (.malformed (.dimensionsOf name))
  bindName name value
  return value

/-- The slots that an array without a size takes over from its initial
    value. -/
def initialSlots? (h : Heap) (r : Ref) : Option (List Ref) :=
  match h.cell (h.flatten r) with
  | .array _ b => some (h.block b).toList
  | .pointer p => some (h.remaining p)
  | _ => none

/-- A new value of a type with the given contents. An array declared without
    a size has as many elements as its contents. -/
def initialValue (e : Engine) (ty : Ty) (initial : Ref) : Mem Ref := do
  match ty.unqualified with
  | .array element none =>
    match ← Mem.read (initialSlots? · initial) with
    | some slots => arrayOfSlots element (← slots.mapM copy)
    | none => Mem.fail (.unsizedArray element)
  | _ =>
    let r ← createValue e.program ty
    assign r initial
    return r

/-- A declaration with an initial value. -/
def initialized (e : Engine) (ev : Evaluator) (decl init : Node) : Eval Outcome := do
  match decl.construct with
  | .declaration name dims =>
    if !init.ty.isVoid && !e.program.accepts decl.ty init.ty then
      fail (.invalidCast init.ty decl.ty)
    if dims.isEmpty then
      let initial ← valueOf ev init
      bindName name (← initialValue e decl.ty initial)
    else
      let r ← declare e ev decl.ty name dims
      assign r (← valueOf ev init)
    return .normal
  | _ => fail (.malformed (.initializedIsNoDeclaration decl.describe))

/-! ## Loops -/

/-- What a loop does after its body. -/
inductive Flow where
  | next
  | exit (outcome : Outcome)

/-- After `break` the loop ends, after `return` so does what is around it. -/
def afterBody : Outcome → Flow
  | .normal | .cont => .next
  | .brk => .exit .normal
  | .returned value => .exit (.returned value)

/-- A loop that tests before its body, for at most the given number of
    rounds. -/
def whileLoop (ev : Evaluator) (cond body : Node) : Nat → Eval Outcome
  | 0 => throw .exhausted
  | rounds + 1 => do
    if ← holds ev cond then
      match afterBody (← execute ev body) with
      | .next => whileLoop ev cond body rounds
      | .exit outcome => return outcome
    else
      return .normal

/-- A loop that tests after its body, for at most the given number of
    rounds. -/
def doWhile (ev : Evaluator) (body cond : Node) : Nat → Eval Outcome
  | 0 => throw .exhausted
  | rounds + 1 => do
    match afterBody (← execute ev body) with
    | .next =>
      if ← holds ev cond then
        doWhile ev body cond rounds
      else
        return .normal
    | .exit outcome => return outcome

/-- A clause of a loop, if it is there; how it ends does not matter. -/
def clause (ev : Evaluator) : Option Node → Eval Unit
  | some node => discard (execute ev node)
  | none => return

/-- Does the condition of a loop hold? A missing one always does. -/
def clauseHolds (ev : Evaluator) : Option Node → Eval Bool
  | some cond => holds ev cond
  | none => return true

/-- The rounds of a loop with a step after its body. -/
def rounds (ev : Evaluator) (cond step : Option Node) (body : Node) : Nat → Eval Outcome
  | 0 => throw .exhausted
  | n + 1 => do
    if ← clauseHolds ev cond then
      match afterBody (← execute ev body) with
      | .next =>
        clause ev step
        rounds ev cond step body n
      | .exit outcome => return outcome
    else
      return .normal

/-- A loop with a start, a condition and a step, in a scope of its own. -/
def forLoop (ev : Evaluator) (init cond step : Option Node) (body : Node) (n : Nat) :
    Eval Outcome :=
  inScope do
    clause ev init
    rounds ev cond step body n

end Treewalk.Eval
