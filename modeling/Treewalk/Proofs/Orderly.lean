/-
  What evaluating a tree does to the machine.

  * `Machine.Proceeds R m m'`: from `m` to `m'` the state was extended, and what
    happened to the heap is within `R`;
  * `Eval.Orderly R x`: however `x` ends, the machine has proceeded, and no
    operand was missing.

  There is one lemma for each elementary computation and each way of putting
  computations together, for any relation that making values is within
  (`Heap.Additive`).
-/
import Treewalk.Proofs.Extends
import Treewalk.Proofs.Traversal

namespace Treewalk

variable {R : Heap → Heap → Prop}

/-- The state was extended, and what happened to the heap is within `R`. -/
structure Machine.Proceeds (R : Heap → Heap → Prop) (m m' : Machine) : Prop where
  state : m.state.Extends m'.state
  heap : R m.heap m'.heap

namespace Machine.Proceeds

variable [Heap.Additive R] {m m' m'' : Machine}

theorem of_state {s : State} (h : m.state.Extends s) : m.Proceeds R { m with state := s } :=
  ⟨h, Std.Refl.refl m.heap⟩

theorem refl (m : Machine) : m.Proceeds R m :=
  of_state (.refl m.state)

theorem trans (h : m.Proceeds R m') (h' : m'.Proceeds R m'') : m.Proceeds R m'' :=
  ⟨h.state.trans h'.state, IsTrans.trans _ _ _ h.heap h'.heap⟩

end Machine.Proceeds

instance [Heap.Additive R] : Std.Refl (Machine.Proceeds R) :=
  ⟨Machine.Proceeds.refl⟩

instance [Heap.Additive R] : IsTrans Machine (Machine.Proceeds R) :=
  ⟨fun _ _ _ => Machine.Proceeds.trans⟩

theorem Halt.underflow_orLocation (l : Option Location) (halt : Halt) :
    (halt.orLocation l).Underflow ↔ halt.Underflow := by
  cases halt <;> exact Iff.rfl

namespace Eval

variable {α β : Type} {x : Eval α} {e : Engine} {ev : Evaluator}

/-- However the computation ends, the machine has proceeded, and no operand was
    missing. -/
abbrev Orderly (R : Heap → Heap → Prop) (x : Eval α) : Prop :=
  Within (Machine.Proceeds R) (¬ Halt.Underflow ·) x

theorem orderly_mem {x : Mem α} (hx : Mem.Keeps R x) : Orderly R (liftM x : Eval α) := by
  intro m
  rw [ends_mem]
  exact (hx m.heap).mono (fun _ _ h => ⟨.refl m.state, h⟩) fun _ _ h =>
    ⟨⟨.refl m.state, h.1⟩, h.2.not_underflow⟩

/-! ## Brackets -/

theorem orderly_placed (l : Option Location) (hx : Orderly R x) : Orderly R (placed l x) := by
  intro m
  rw [ends_placed]
  refine (hx m).mono (fun _ _ h => h) fun halt _ h => ⟨h.1, ?_⟩
  exact fun hu => h.2 ((Halt.underflow_orLocation l halt).1 hu)

theorem orderly_droppingOperands (hx : Orderly R x) : Orderly R (droppingOperands x) := by
  intro m
  rw [ends_droppingOperands]
  exact (hx m).mono (fun _ _ h => ⟨h.state.truncate, h.heap⟩)
    fun _ _ h => ⟨⟨h.1.state.truncate, h.1.heap⟩, h.2⟩

/-- In a scope of its own a computation leaves the frame around it alone. -/
theorem Orderly.inScope (hx : Orderly R x) (m : Machine) :
    Ends (inScope x) m (fun _ m' => m.Proceeds R m' ∧ m'.state.frame = m.state.frame)
      fun halt m' => (m.Proceeds R m' ∧ m'.state.frame = m.state.frame) ∧ ¬ halt.Underflow := by
  rw [ends_inScope]
  have hclose : ∀ m' : Machine, Machine.Proceeds R { m with state := m.state.openScope } m' →
      m.Proceeds R { m' with state := m'.state.closeScope } ∧
        m'.state.closeScope.frame = m.state.frame :=
    fun m' h => ⟨⟨h.state.closeScope, h.heap⟩, by rw [h.state.closeScope_eq]⟩
  exact (hx _).mono (fun _ m' h => hclose m' h) fun _ m' h => ⟨hclose m' h.1, h.2⟩

theorem orderly_inScope (hx : Orderly R x) : Orderly R (Eval.inScope x) :=
  fun m => (hx.inScope m).mono (fun _ _ h => h.1) fun _ _ h => ⟨h.1.1, h.2⟩

theorem orderly_underDiagnostic (site : Token) (hx : Orderly R x) :
    Orderly R (underDiagnostic e site x) := by
  intro m
  rw [ends_underDiagnostic]
  refine (hx _).mono (fun _ _ h => ⟨h.state.exitDiagnostic, h.heap⟩) fun _ m' h => ⟨⟨?_, ?_⟩, h.2⟩
  · rw [Machine.capture_state]; exact h.1.state.exitDiagnostic
  · rw [Machine.capture_heap]; exact h.1.heap

/-! ## Values -/

/-- An operand that was added on the way can be taken again. -/
theorem ends_pop_of_lt {m m' : Machine} (h : m.Proceeds R m')
    (hd : m.state.valueDepth < m'.state.valueDepth) :
    Ends pop m' (fun _ m'' => m.Proceeds R m'') fun _ _ => False := by
  obtain ⟨r, v, hv⟩ := Stack.pop?_isSome (Nat.zero_lt_of_lt hd)
  have hp : m'.state.pop? = some (r, { m'.state with values := v }) := by
    unfold State.pop?; rw [hv]; rfl
  rw [ends_pop, hp]
  exact ⟨h.state.pop hd hp, h.heap⟩

theorem orderly_valueOf {node : Node} (hev : Orderly R (ev node)) : Orderly R (valueOf ev node) := by
  intro m
  unfold valueOf
  rw [ends_bind, ends_ask, ends_bind]
  refine (hev m).mono (fun o m' h => ?_) fun _ _ h => h
  have hfail (cause : Cause) (hc : cause ≠ .stackUnderflow) :
      Ends (placed node.location? (fail cause : Eval Ref)) m' (fun _ m'' => m.Proceeds R m'')
        fun halt m'' => m.Proceeds R m'' ∧ ¬ halt.Underflow := by
    rw [ends_placed, ends_fail]
    exact ⟨h, hc⟩
  split
  · rw [ends_bind, ends_ask]
    split
    · rename_i hd
      exact (ends_pop_of_lt h hd).mono (fun _ _ h' => h') fun _ _ h' => h'.elim
    · exact hfail _ (by simp)
  · exact hfail _ (by simp)

variable [Heap.Additive R]

/-! ## Elementary computations -/

theorem orderly_fail {c : Cause} (hc : c ≠ .stackUnderflow) : Orderly R (fail c : Eval α) :=
  .throw hc

theorem orderly_ask (f : State → α) : Orderly R (ask f) :=
  fun m => .refl m

theorem orderly_push (r : Ref) : Orderly R (push r) :=
  fun m => .of_state (.push m.state r)

theorem orderly_bindName (name : String) (r : Ref) : Orderly R (bindName name r) :=
  fun m => .of_state (.bind m.state name r)

theorem orderly_print (bytes : Array UInt8) : Orderly R (print bytes) :=
  fun m => ⟨.refl m.state, Std.Refl.refl m.heap⟩

theorem orderly_note (t : Option Token) : Orderly R (note t) := by
  cases t with
  | none => exact .pure _
  | some t =>
    intro m
    change m.Proceeds R (if t.location.isSome then { m with nearest := some t } else m)
    split
    · exact ⟨.refl m.state, Std.Refl.refl m.heap⟩
    · exact .refl m

theorem orderly_identifier (name : String) : Orderly R (identifier name) := by
  intro m
  unfold identifier
  rw [ends_bind, ends_ask]
  cases hn : named m.state name with
  | ok r => exact orderly_push r m
  | error c =>
    refine orderly_fail (fun hc => ?_) m
    unfold named at hn
    grind

/-! ## Operands -/

/-- Every node has left one more operand. -/
theorem ends_pushValues {nodes : List Node} (h : ∀ n ∈ nodes, Orderly R (ev n)) (m : Machine) :
    Ends (pushValues ev nodes) m
      (fun _ m' => m.Proceeds R m' ∧ m.state.valueDepth + nodes.length ≤ m'.state.valueDepth)
      fun halt m' => m.Proceeds R m' ∧ ¬ halt.Underflow := by
  induction nodes generalizing m with
  | nil => exact ⟨.refl m, Nat.le_refl _⟩
  | cons node rest ih =>
    unfold pushValues
    rw [ends_bind]
    refine (orderly_valueOf (h node (by simp)) m).mono (fun r m₁ h₁ => ?_) fun _ _ h => h
    rw [ends_bind, push, ends_change]
    have h₂ : m.Proceeds R { m₁ with state := m₁.state.push r } := h₁.trans (.of_state (.push _ r))
    have hd : (m₁.state.push r).valueDepth = m₁.state.valueDepth + 1 := rfl
    refine (ih (fun n hn => h n (by simp [hn])) { m₁ with state := m₁.state.push r }).mono
      (fun _ m' h => ⟨h₂.trans h.1, ?_⟩) fun _ _ h => ⟨h₂.trans h.1, h.2⟩
    have h₁' := h₁.state.depth_le
    have h' : m₁.state.valueDepth + 1 + rest.length ≤ m'.state.valueDepth := hd ▸ h.2
    simp only [List.length_cons]
    omega

end Eval

end Treewalk
