/-
  Evaluating a node for its value.

  Every construct is evaluated by a function that is given how nodes are
  evaluated one level further down, an `Evaluator`.

  * `visit` is what happens at every node: its place is noted, and a fault
    without a place gets it;
  * `valueOf` evaluates a node and takes the value it leaves;
  * `holds` evaluates a condition.
-/
import Treewalk.Eval.Machine
import Treewalk.Memory.Operand

namespace Treewalk

/-- How nodes are evaluated. Expressions leave their value as the innermost
    operand. -/
abbrev Evaluator := Node → Eval Outcome

namespace Eval

/-- Note a token that has a place. -/
def note : Option Token → Eval Unit
  | some t => fun m => .ok () (if t.location.isSome then { m with nearest := some t } else m)
  | none => return

/-- What happens at every node. -/
def visit (node : Node) (x : Eval Outcome) : Eval Outcome := do
  note node.token
  placed node.location? x

/-- The value of a node. -/
def valueOf (ev : Evaluator) (node : Node) : Eval Ref := do
  let depth ← ask (·.valueDepth)
  match ← ev node with
  | .normal =>
    if depth < (← ask (·.valueDepth)) then
      pop
    else
      placed node.location? (fail (.malformed (.noValue node.describe)))
  | _ => placed node.location? (fail (.malformed (.notAValue node.describe)))

/-- Leave a value, and end normally. -/
def yield (r : Ref) : Eval Outcome := do
  push r
  return .normal

/-- Leave a value of the node's type. -/
def yieldAs (ty : Ty) (r : Ref) : Eval Outcome := do
  yield (← conformToNode r ty)

/-- Leave the outcome of a test. -/
def yieldTruth (b : Bool) : Eval Outcome := do
  yield (← Mem.alloc (.primitive (.truth b)))

/-- Does a node hold as a condition? -/
def holds (ev : Evaluator) (cond : Node) : Eval Bool := do
  let r ← droppingOperands (valueOf ev cond)
  truthOf r

/-- The values of nodes, each left as an operand. -/
def pushValues (ev : Evaluator) : List Node → Eval Unit
  | [] => return
  | node :: rest => do
    push (← valueOf ev node)
    pushValues ev rest

end Eval

end Treewalk
