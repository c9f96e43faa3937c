/-
  Evaluating a tree.

  * `dispatch` evaluates a node, given how its children are evaluated;
  * `evaluate` ties the knot, for trees and calls nested no deeper than its
    fuel, loops of no more rounds and chains of no more prior constructors.
-/
import Treewalk.Eval.Access
import Treewalk.Eval.Builtin
import Treewalk.Eval.Call
import Treewalk.Eval.Expression
import Treewalk.Eval.Statement

namespace Treewalk.Eval

/-- A node, given how the nodes below it are evaluated. -/
def dispatch (e : Engine) (fuel : Nat) (ev : Evaluator) (node : Node) : Eval Outcome :=
  match node.construct with
  | .literal l => do yield (← literal node.ty l)
  | .boolean b => do yield (← Mem.alloc (.primitive (.char (if b then 1 else 0))))
  | .string text => do yield (← createString text)
  | .id name => identifier name
  | .binary op lhs rhs => binary ev node.ty op lhs rhs
  | .unary op operand => unary ev node.ty op operand
  | .postStep op operand => postStep ev op operand
  | .ternary cond t f => ternary ev node.ty cond t f
  | .assignment op lhs rhs => assignment ev op lhs rhs
  | .cast operand => convert ev node.ty operand
  | .sizeOf ty => sizeOfType e ty
  | .index container i => index ev container i
  | .field owner name => field ev owner name
  | .deref operand => deref ev operand
  | .addressOf operand => addressOf ev operand
  | .call name args =>
    match Builtin.ofName? name.image with
    | some b => callBuiltin e ev node.ty b name args
    | none => callFunction e ev (invoke e ev fuel) name args
  | .methodCall owner method args => callMethod e ev (invoke e ev fuel) owner method args
  | .construct c args => callConstructor e ev (invoke e ev fuel) c args
  | .declaration name dims => do
    discard (declare e ev node.ty name dims)
    return .normal
  | .initialized decl init => initialized e ev decl init
  | .declarations decls => executeAll ev decls
  | .block body => block ev body
  | .sequence parts => sequence ev parts
  | .ite cond t f => conditional ev cond t f
  | .whileLoop cond body => whileLoop ev cond body fuel
  | .doWhile body cond => doWhile ev body cond fuel
  | .forLoop init cond step body => forLoop ev init cond step body fuel
  | .ret value => return_ ev value
  | .brk => return .brk
  | .cont => return .cont
  | .empty => return .normal

/-- Evaluate a node. -/
def evaluate (e : Engine) : Nat → Evaluator
  | 0, _ => throw .exhausted
  | fuel + 1, node => visit node (dispatch e fuel (evaluate e fuel) node)

end Treewalk.Eval
