/-
  The functions every program has: `calloc`, `free` and `printf`.

  * `render` is what `printf` prints for a format: its bytes up to the first
    slot without a number, escapes being replaced.
-/
import Treewalk.Eval.Value
import Treewalk.Memory.Zero

namespace Treewalk

/-- A function every program has. -/
inductive Builtin where
  | calloc
  | free
  | printf
  deriving DecidableEq

/-- The builtin of a name; it hides a function of that name. -/
def Builtin.ofName? : String → Option Builtin
  | "calloc" => some calloc
  | "free" => some free
  | "printf" => some printf
  | _ => none

/-! ## Formats -/

/-- The byte that starts an escape. -/
def backslash : UInt8 :=
  92

/-- What an escaped byte stands for: `n`, `t` and `r` for control characters,
    a backslash, a quote or a question mark for itself, others for nothing. -/
def escaped (c : UInt8) : List UInt8 :=
  if c = 110 then [10]
  else if c = 116 then [9]
  else if c = 114 then [13]
  else if c = 92 ∨ c = 39 ∨ c = 34 ∨ c = 63 then [c]
  else []

namespace Heap

/-- The bytes printed for slots, put after those given; none if there is no
    slot without a number to end them. -/
def renderSlots (h : Heap) : Array UInt8 → List Ref → Option (Array UInt8)
  | _, [] => none
  | done, r :: rest =>
    match h.primitive? r with
    | none => some done
    | some p =>
      if p.toByte = backslash then
        match rest with
        | [] => none
        | r' :: rest =>
          match h.primitive? r' with
          | none => some done
          | some q => h.renderSlots (done ++ escaped q.toByte) rest
      else
        h.renderSlots (done.push p.toByte) rest

/-- The bytes printed for a format. -/
def render (h : Heap) (p : Pointer) : Except Cause (Array UInt8) := do
  let _ ← h.slotOf p
  match h.renderSlots #[] (h.remaining p) with
  | some bytes => .ok bytes
  | none => .error (.access (.outOfBounds (.ofNat (h.blockSize p.block)) (h.blockSize p.block)))

end Heap

namespace Eval

/-- The type whose size a node asks for. -/
def sizeOf? (node : Node) : Option Ty :=
  match node.construct with
  | .sizeOf ty => some ty
  | _ => none

/-- A zero array. Its element type is that of a `sizeof` among the arguments,
    or else the one the call's own type points at; its length is the first
    other argument. -/
def calloc (e : Engine) (ev : Evaluator) (ty : Ty) (args : List Node) : Eval Unit := do
  match args.findSome? sizeOf? <|> ty.pointee? with
  | none => fail (.malformed .allocationWithoutType)
  | some element =>
    match args.find? fun a => (sizeOf? a).isNone with
    | none => fail (.malformed .allocationWithoutCount)
    | some count =>
      let r ← valueOf ev count
      match ← look (·.primitive? r) with
      | none => fail (.malformed .allocationCountIsNoNumber)
      | some p =>
        let n := p.toInt64
        if n < 0 then
          fail (.access (.negativeCount n))
        push (← createArray e.program element [n.toInt.toNat])

/-- What `free` releases; a null constant and an absent value are nothing. -/
def released (h : Heap) (r : Ref) : Except Cause (Option Pointer) :=
  match h.cell r with
  | .pointer p => .ok (some p)
  | .array element b => .ok (some ⟨element, b, 0⟩)
  | .slot .. => .ok none
  | c@(.primitive p) =>
    if p.isZero then .ok none else .error (.invalidCast (h.cellTy c) (.pointer .void))
  | c => .error (.invalidCast (h.cellTy c) (.pointer .void))

/-- Empty the slot a pointer refers to. -/
def free (ev : Evaluator) : List Node → Eval Unit
  | [arg] => do
    let r ← valueOf ev arg
    (← look? (released · r)).forM fun p => release p
  | _ => fail (.malformed .releaseArgumentCount)

/-- Evaluate nodes for their effects alone. -/
def evaluateAll (ev : Evaluator) : List Node → Eval Unit
  | [] => return
  | node :: rest => do
    discard (valueOf ev node)
    evaluateAll ev rest

/-- Add bytes to the output. -/
def print (bytes : Array UInt8) : Eval Unit := fun m =>
  .ok () { m with output := bytes.foldl ByteArray.push m.output }

/-- Print a format. Further arguments are evaluated and not printed. -/
def printf (ev : Evaluator) : List Node → Eval Unit
  | [] => fail (.malformed .printWithoutFormat)
  | format :: rest => do
    let format ← valueOf ev format
    evaluateAll ev rest
    match ← look (·.pointer? format) with
    | none => fail (.invalidCast (← look (·.tyOf format)) (.pointer .char))
    | some p => print (← look? (·.render p))

/-- Run a builtin. -/
def runBuiltin (e : Engine) (ev : Evaluator) (ty : Ty) (b : Builtin) (args : List Node) :
    Eval Outcome := do
  match b with
  | .calloc => calloc e ev ty args
  | .free => free ev args
  | .printf => printf ev args
  return .normal

/-- A call of a builtin, under a diagnostic frame of its own. -/
def callBuiltin (e : Engine) (ev : Evaluator) (ty : Ty) (b : Builtin) (name : Token)
    (args : List Node) : Eval Outcome :=
  underDiagnostic e name (runBuiltin e ev ty b args)

end Eval

end Treewalk
