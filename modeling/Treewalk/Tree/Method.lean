/-
  Which method a call means.

  The search starts at the class of the receiver and goes up its lineage. In
  the first class with a candidate that accepts the arguments, the first exact
  match is taken, otherwise the first of the cheapest conversions.

  * `conversionCost` measures how far an argument is from a parameter;
  * `Program.methodIn?` chooses within a class, `Program.resolveMethod?` along
    the lineage.
-/
import Treewalk.Tree.Program

namespace Treewalk

/-- How far an argument is from a parameter: between numbers, the distance of
    their ranks, and more for a change between integral and floating. -/
def conversionCost (param arg : Ty) : Nat :=
  match param.unqualified, arg.unqualified with
  | .primitive target _, .primitive source _ =>
    let family := if target.isFloating == source.isFloating then 0 else 16
    family + (target.rank - source.rank) + (source.rank - target.rank)
  | _, _ => 0

namespace Routine

def arity (r : Routine) : Nat :=
  r.params.length

/-- The parameters with the types of the arguments given for them. -/
def pairing (r : Routine) (args : List Ty) : List (Param × Ty) :=
  r.params.zip args

/-- Do all arguments have the types of their parameters, up to `const`? -/
def matchesExactly (r : Routine) (args : List Ty) : Bool :=
  (r.pairing args).all fun (p, a) => p.ty.unqualified == a.unqualified

/-- The cost of converting all arguments. -/
def cost (r : Routine) (args : List Ty) : Nat :=
  (r.pairing args).foldr (fun (p, a) rest => conversionCost p.ty a + rest) 0

end Routine

/-- The first routine of least cost. -/
def cheapest? (cost : Routine → Nat) : List Routine → Option Routine
  | [] => none
  | r :: rest =>
    match cheapest? cost rest with
    | some s => if cost s < cost r then some s else some r
    | none => some r

namespace Program

/-- Are all arguments accepted by their parameters? -/
def acceptsArguments (p : Program) (r : Routine) (args : List Ty) : Bool :=
  (r.pairing args).all fun (q, a) => p.accepts q.ty a

/-- The method of a class that a call means. -/
def methodIn? (p : Program) (c : Compound) (name : String) (args : List Ty) : Option Routine :=
  let candidates := c.methods.filter fun m => m.name.image == name && m.arity == args.length
  candidates.find? (·.matchesExactly args) <|>
    cheapest? (·.cost args) (candidates.filter (p.acceptsArguments · args))

/-- The method that a call on a receiver of the given class means. -/
def resolveMethod? (p : Program) (className name : String) (args : List Ty) : Option Routine :=
  (p.lineage className).findSome? fun c => p.methodIn? c name args

end Program

end Treewalk
