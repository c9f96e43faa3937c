/-
  Initial values of the globals.

  Globals are initialised in order. One that refers to a name which is not
  there yet is tried again after the others, until no other is left that could
  bring the name.
-/
import Treewalk.Eval.Evaluate

namespace Treewalk

namespace Engine

/-- How this engine evaluates nodes. -/
def evaluator (e : Engine) : Evaluator :=
  Eval.evaluate e e.fuel

/-- How this engine runs routines. -/
def invoker (e : Engine) : Eval.Invoker :=
  Eval.invoke e e.evaluator e.fuel

end Engine

namespace Eval

/-- The first value of a global. -/
def globalValue (e : Engine) (g : Global) : Eval Ref := do
  match g.init with
  | some init =>
    let initial ← droppingOperands (valueOf e.evaluator init)
    initialValue e g.ty initial
  | none => createValue e.program g.ty

/-- Initialise a global. Calls made from here on see it. -/
def initializeGlobal (e : Engine) (g : Global) : Eval Unit := do
  bindName g.name.image (← globalValue e g)
  change State.sealGlobals

/-- Initialise the pending globals, `stalled` of which have been tried in vain
    since the last success. -/
def initializeGlobals (e : Engine) (pending : List Global) (stalled : Nat) : Eval Unit :=
  match pending with
  | [] => return
  | g :: rest => do
    match ← attempt (initializeGlobal e g) with
    | .ok () => initializeGlobals e rest 0
    | .error f =>
      if f.isDeferrable ∧ stalled ≤ rest.length then
        initializeGlobals e (rest ++ [g]) (stalled + 1)
      else
        throw (.fault (f.orLocation g.name.location))
termination_by (pending.length, pending.length + 1 - stalled)
decreasing_by
  · exact Prod.Lex.left _ _ (by simp)
  · have hlen : (rest ++ [g]).length = rest.length + 1 := by simp
    rw [hlen, List.length_cons]
    exact Prod.Lex.right _ (by omega)

end Eval

end Treewalk
