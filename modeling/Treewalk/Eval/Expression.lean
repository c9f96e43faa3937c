/-
  Literals, names, operators, assignment and conversion.
-/
import Treewalk.Eval.Value
import Treewalk.Memory.Zero

namespace Treewalk.Eval

/-! ## Leaves -/

/-- The payload of a literal. -/
def literalPayload : Literal → Payload
  | .integral n => .integral n
  | .floating x => .floating x
  | .char c => .integral c.toUInt64.toInt64

/-- The kind of a literal that has no type of its own. -/
def naturalKind : Literal → Kind
  | .integral n => if n.toInt32.toInt64 = n then .int else .long
  | .floating _ => .double
  | .char _ => .char

/-- A literal: a number of the node's type, the null pointer for zero at a
    pointer type, otherwise a number of the natural kind. -/
def literal (ty : Ty) (l : Literal) : Mem Ref :=
  let payload := literalPayload l
  let natural := Mem.alloc (.primitive (.of (naturalKind l) false payload))
  match ty.unqualified with
  | .primitive .void _ => natural
  | .primitive k u => Mem.alloc (.primitive (.of k u payload))
  | .pointer target => if payload.beq (.integral 0) then nullPointer target else natural
  | _ => natural

/-- The name that refers to the receiver. -/
def receiverName : String :=
  "this"

/-- What a name stands for: the binding itself, so that it can be assigned. -/
def named (s : State) (name : String) : Except Cause Ref :=
  let receiver := if name = receiverName then s.receiver? else none
  match receiver <|> s.lookup? name with
  | some r => .ok r
  | none => .error (.undefinedSymbol name)

/-- A name. -/
def identifier (name : String) : Eval Outcome := do
  match ← ask (named · name) with
  | .ok r => yield r
  | .error c => fail c

/-! ## Operators -/

/-- A binary operator. The second operand of `&&` and `||` is evaluated only
    if the first does not decide. The first operand of any other operator is
    read before the second is evaluated. -/
def binary (ev : Evaluator) (ty : Ty) (op : BinaryOp) (lhs rhs : Node) : Eval Outcome := do
  let left ← valueOf ev lhs
  match op with
  | .and =>
    if ← truthOf left then
      yieldTruth (← truthOf (← valueOf ev rhs))
    else
      yieldTruth false
  | .or =>
    if ← truthOf left then
      yieldTruth true
    else
      yieldTruth (← truthOf (← valueOf ev rhs))
  | op =>
    let left ← operandOf left
    let right ← operandOf (← valueOf ev rhs)
    yieldAs ty (← operateOn op left right)

/-- The number a sign, complement or negation makes of a value. -/
def signed (op : UnaryOp) (h : Heap) (r : Ref) : Except Cause Primitive :=
  match op with
  | .not => (h.truthOf r).map fun b => .truth !b
  | .neg => (h.promoted r).map Primitive.negated
  | .bitNot => h.promoted r >>= Primitive.complemented
  | _ => h.promoted r

/-- An operator before its operand. `++` and `--` change the operand and
    yield it; the others leave it alone. -/
def unary (ev : Evaluator) (ty : Ty) (op : UnaryOp) (operand : Node) : Eval Outcome := do
  let r ← valueOf ev operand
  match op with
  | .step s =>
    Treewalk.step r s.delta
    yield r
  | op =>
    let p ← look? (signed op · r)
    yieldAs ty (← Mem.alloc (.primitive p))

/-- `++` or `--` after its operand, which yields what the operand was. -/
def postStep (ev : Evaluator) (op : StepOp) (operand : Node) : Eval Outcome := do
  let r ← valueOf ev operand
  let previous ← copy r
  Treewalk.step r op.delta
  yield previous

/-- A conditional expression. -/
def ternary (ev : Evaluator) (ty : Ty) (cond thenBranch elseBranch : Node) : Eval Outcome := do
  let chosen := if ← truthOf (← valueOf ev cond) then thenBranch else elseBranch
  yieldAs ty (← valueOf ev chosen)

/-- An assignment. The target is changed in place and is the result. -/
def assignment (ev : Evaluator) (op : AssignOp) (lhs rhs : Node) : Eval Outcome := do
  let target ← valueOf ev lhs
  let source ← valueOf ev rhs
  let source ←
    match op with
    | .assign => pure source
    | .compound op => binaryOperation op target source
  assign target source
  yield target

/-! ## Conversion -/

/-- A conversion to the node's type; one to `void` leaves no value. -/
def convert (ev : Evaluator) (ty : Ty) (operand : Node) : Eval Outcome := do
  let r ← valueOf ev operand
  if ty.isVoid then
    return .normal
  yield (← castTo r ty)

/-- The size of a type. -/
def sizeOfType (e : Engine) (ty : Ty) : Eval Outcome := do
  match sizeOfTy e.program ty with
  | none => throw .exhausted
  | some size => yield (← Mem.alloc (.primitive (.of .long true (.integral (.ofNat size)))))

end Treewalk.Eval
