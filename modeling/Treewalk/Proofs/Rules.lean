/-
  How the computations on heap and machine end: one rule for each of the ways
  to make them.

  Every rule says what it takes for a computation to end as two conditions
  require, in terms of its parts.
-/
import Treewalk.Eval.Call
import Treewalk.Proofs.Ends

namespace Treewalk

namespace Mem

variable {α : Type} {h : Heap} {E : Halt → Heap → Prop}

theorem read_bind {β : Type} (f : Heap → α) (g : α → Mem β) (h : Heap) : (read f >>= g) h = g (f h) h :=
  rfl

theorem ends_read {f : Heap → α} {P : α → Heap → Prop} : Ends (read f) h P E ↔ P (f h) h :=
  Iff.rfl

theorem ends_answer {x : Except Cause α} {P : α → Heap → Prop} :
    Ends (answer x) h P E ↔
      match x with
      | .ok a => P a h
      | .error c => E (.fault { cause := c }) h := by
  cases x <;> rfl

theorem ends_alloc {c : Cell} {P : Ref → Heap → Prop} :
    Ends (alloc c) h P E ↔ P ⟨h.cells.size⟩ (h.alloc c).2 :=
  Iff.rfl

theorem ends_allocBlock {slots : Array Ref} {P : BlockRef → Heap → Prop} :
    Ends (allocBlock slots) h P E ↔ P ⟨h.blocks.size⟩ (h.allocBlock slots).2 :=
  Iff.rfl

theorem ends_change {f : Heap → Heap} {P : Unit → Heap → Prop} :
    Ends (change f) h P E ↔ P () (f h) :=
  Iff.rfl

end Mem

/-- The same halt, its fault placed at `l` unless it has a place already. -/
def Halt.orLocation (l : Option Location) : Halt → Halt
  | .fault f => .fault (f.orLocation l)
  | .exhausted => .exhausted

namespace Eval

variable {α β : Type} {x : Eval α} {m : Machine} {P : α → Machine → Prop}
  {E : Halt → Machine → Prop}

theorem ends_fail {c : Cause} : Ends (fail c : Eval α) m P E ↔ E (.fault { cause := c }) m :=
  Iff.rfl

theorem ends_mem {x : Mem α} :
    Ends (liftM x : Eval α) m P E ↔
      Ends x m.heap (fun a h => P a { m with heap := h })
        fun halt h => E halt { m with heap := h } := by
  change Ends (mem x) m P E ↔ _
  unfold Ends mem
  obtain ⟨heap, state, output, nearest, trace, dump⟩ := m
  dsimp only
  cases x heap <;> rfl

theorem ends_look {f : Heap → α} : Ends (look f) m P E ↔ P (f m.heap) m :=
  Iff.rfl

theorem ends_look? {f : Heap → Except Cause α} :
    Ends (look? f) m P E ↔
      match f m.heap with
      | .ok a => P a m
      | .error c => E (.fault { cause := c }) m := by
  unfold Ends look?
  cases f m.heap <;> rfl

theorem ends_ask {f : State → α} : Ends (ask f) m P E ↔ P (f m.state) m :=
  Iff.rfl

theorem ends_change {f : State → State} {P : Unit → Machine → Prop} :
    Ends (change f) m P E ↔ P () { m with state := f m.state } :=
  Iff.rfl

theorem ends_pop {P : Ref → Machine → Prop} :
    Ends pop m P E ↔
      match m.state.pop? with
      | some (r, state) => P (m.heap.flatten r) { m with state }
      | none => E (.fault { cause := .stackUnderflow }) m := by
  unfold Ends pop
  cases m.state.pop? <;> rfl

theorem ends_placed {l : Option Location} :
    Ends (placed l x) m P E ↔ Ends x m P fun halt m' => E (halt.orLocation l) m' := by
  unfold Ends placed
  cases x m with
  | ok a m' => rfl
  | error halt m' => cases halt <;> rfl

theorem ends_bracket {opening closing : Machine → Machine} :
    Ends (bracket opening closing x) m P E ↔
      Ends x (opening m) (fun a m' => P a (closing m')) fun halt m' => E halt (closing m') := by
  unfold Ends bracket
  cases x (opening m) <;> rfl

theorem ends_droppingOperands :
    Ends (droppingOperands x) m P E ↔
      Ends x m (fun a m' => P a (m'.truncate m.state.valueDepth))
        fun halt m' => E halt (m'.truncate m.state.valueDepth) :=
  ends_bracket

theorem ends_inScope :
    Ends (inScope x) m P E ↔
      Ends x { m with state := m.state.openScope }
        (fun a m' => P a { m' with state := m'.state.closeScope })
        fun halt m' => E halt { m' with state := m'.state.closeScope } :=
  ends_bracket

theorem ends_underDiagnostic {e : Engine} {site : Token} :
    Ends (underDiagnostic e site x) m P E ↔
      Ends x { m with state := m.state.enterDiagnostic site }
        (fun a m' => P a { m' with state := m'.state.exitDiagnostic })
        fun halt m' => E halt
          { m'.capture e with state := (m'.capture e).state.exitDiagnostic } := by
  unfold Ends underDiagnostic
  cases x { m with state := m.state.enterDiagnostic site } <;> rfl

theorem ends_inCall :
    Ends (inCall x) m P E ↔
      Ends x { m with state := m.state.openCall }
        (fun a m' => P a { m' with state := m'.state.closeCall })
        fun halt m' => E halt { m' with state := m'.state.closeCall } :=
  ends_bracket

theorem ends_inContext {receiver : Option Ref} :
    Ends (inContext receiver x) m P E ↔
      Ends x { m with state := m.state.pushContext receiver }
        (fun a m' => P a { m' with state := m'.state.popContext })
        fun halt m' => E halt { m' with state := m'.state.popContext } :=
  ends_bracket

theorem ends_attempt {P : Except Fault α → Machine → Prop} :
    Ends (attempt x) m P E ↔
      Ends x m (fun a m' => P (.ok a) m') fun halt m' =>
        match halt with
        | .fault f => P (.error f) m'
        | .exhausted => E .exhausted m' := by
  unfold Ends attempt
  cases x m with
  | ok a m' => rfl
  | error halt m' => cases halt <;> rfl

end Eval

namespace Machine

variable (e : Engine) (m : Machine)

@[simp] theorem capture_state : (m.capture e).state = m.state := by
  unfold capture; split <;> rfl

@[simp] theorem capture_heap : (m.capture e).heap = m.heap := by
  unfold capture; split <;> rfl

@[simp] theorem capture_output : (m.capture e).output = m.output := by
  unfold capture; split <;> rfl

@[simp] theorem capture_nearest : (m.capture e).nearest = m.nearest := by
  unfold capture; split <;> rfl

end Machine

end Treewalk
