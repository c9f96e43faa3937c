/-
  The blocks of arrays and pointers are there in every session that can be reached.

  * `Machine.Anchors m m'`: if the heap of `m` is anchored, so is that of `m'`, which has
    no fewer blocks;
  * `anchors_evaluate`, `anchors_invoker`: whatever is evaluated or called, the machine
    that is left is so related to the one before;
  * `Session.Reachable.anchored`: whatever is asked of a session, its heap is anchored.
-/
import Treewalk.Proofs.Effects
import Treewalk.Proofs.Reachable

namespace Treewalk

/-- An anchored heap stays anchored, and loses no blocks. -/
def Machine.Anchors (m m' : Machine) : Prop :=
  m.heap.Anchored → m'.heap.Anchored ∧ m.heap.blocks.size ≤ m'.heap.blocks.size

theorem Machine.Anchors.of_heap {m m' : Machine} (h : m'.heap = m.heap) : m.Anchors m' := by
  intro ha
  rw [h]
  exact ⟨ha, Nat.le_refl _⟩

instance : Machine.Blind Machine.Anchors where
  refl := fun _ => .of_heap rfl
  trans := fun _ _ _ h h' ha => ⟨(h' (h ha).1).1, (h ha).2.trans (h' (h ha).1).2⟩
  values := fun _ _ => .of_heap rfl
  nearest := fun _ _ => .of_heap rfl

namespace Eval

variable {α : Type} {n : Nat} {e : Engine} {V : Nat → α → Prop}

/-- The heap stays anchored, and the result is valid for its blocks. -/
abbrev Anchors (n : Nat) (x : Eval α) (V : Nat → α → Prop) : Prop :=
  Treewalk.Safe (fun m : Machine => m.heap.Anchored) (·.heap.blocks.size) n x V

theorem within_anchors_iff {x : Eval α} : Relates Machine.Anchors x ↔ Anchors 0 x Anything := by
  constructor
  · intro h m ha _
    exact (h m).mono (fun _ _ hk => ⟨(hk ha).1, (hk ha).2, trivial⟩) fun _ _ hk => hk.1 ha
  · intro h m
    by_cases ha : m.heap.Anchored
    · refine (h m ha (Nat.zero_le _)).mono (fun _ _ hk _ => ⟨hk.1, hk.2.1⟩) fun _ _ hk => ?_
      exact ⟨fun _ => hk, trivial⟩
    · exact .of_forall (fun _ _ ha' => absurd ha' ha) fun _ _ => ⟨fun ha' => absurd ha' ha, trivial⟩

theorem anchors_mem {x : Mem α} (hx : Mem.Anchors n x V) : Anchors n (liftM x : Eval α) V :=
  fun m ha hn => ends_mem.2 (hx m.heap ha hn)

/-- The left operand is in a block that is still there when the right one has been
    evaluated. -/
theorem tolerates_anchors : Tolerates (fun _ => True) Machine.Anchors where
  mem := fun hx => within_anchors_iff.2 (anchors_mem (hx.anchors 0))
  operands := fun op hx hf => by
    refine within_anchors_iff.2 (.bind (anchors_mem (anchors_operandOf _)) fun n₁ _ l hl => ?_)
    refine .bind ((within_anchors_iff.1 hx).weaken (Nat.zero_le _)) fun n₂ hle right _ => ?_
    refine .bind (anchors_mem (anchors_operandOf right)) fun n₃ hle' r hr => ?_
    refine .bind (anchors_mem (anchors_operateOn op (hl.mono (hle.trans hle')) hr)) fun _ _ r _ => ?_
    exact (within_anchors_iff.1 (hf r)).weaken (Nat.zero_le _)
  store := fun _ _ _ hx => within_anchors_iff.2 (anchors_mem (hx.anchors 0))
  release := fun _ p => within_anchors_iff.2 (anchors_mem (anchors_release p))

theorem compositional_anchors (e : Engine) {G : Node → Prop} :
    Compositional e (fun _ => True) G (fun _ => True) (Relates Machine.Anchors)
      fun _ => Relates Machine.Anchors :=
  compositional_within (fun _ _ _ => .of_heap rfl) tolerates_anchors (fun _ _ _ => .of_heap rfl)
    fun _ m => .of_heap (m.capture_heap e)

theorem anchors_evaluate (e : Engine) (fuel : Nat) (node : Node) : Relates Machine.Anchors (evaluate e fuel node) :=
  (compositional_anchors e).evaluate (.all e fun _ => trivial) fuel trivial

theorem anchors_invoker (e : Engine) (r : Routine) (site : Token) (receiver : Option Ref) :
    Relates Machine.Anchors (e.invoker r site receiver) :=
  (compositional_anchors e).invoke (.all e fun _ => trivial) (fun node _ => anchors_evaluate e e.fuel node)
    trivial e.fuel trivial site receiver trivial

/-! ## Requests -/

theorem anchors_forgetFault : Relates Machine.Anchors (modify Machine.forgetFault : Eval Unit) :=
  fun _ => .of_heap rfl

theorem anchors_invokeOn (r : Routine) (site : Token) (receiver : Option Ref) (args : List Ref) :
    Relates Machine.Anchors (invokeOn e r site receiver args) :=
  within_droppingOperands (.bind (.forM fun a _ => within_push a) fun _ => anchors_invoker e r site receiver)

theorem anchors_ask (q : Request) : Relates Machine.Anchors (q.ask e) := by
  have hmem {β : Type} {x : Mem β} (hx : Mem.Anchors 0 x Anything) :
      Relates Machine.Anchors (liftM x : Eval β) := within_anchors_iff.2 (anchors_mem hx)
  cases q with
  | runEntry texts =>
    refine .discard (.bind anchors_forgetFault fun _ => ?_)
    split
    · exact .throw trivial
    · refine .bind (hmem (anchors_alloc (.of_none rfl))) fun _ => ?_
      refine .bind (hmem (.mapM fun text _ => anchors_createString text)) fun values => ?_
      exact .bind (hmem (anchors_arrayOf _ values)) fun _ => anchors_invokeOn _ _ _ _
  | callFunction name args =>
    refine .discard (.bind anchors_forgetFault fun _ => ?_)
    split
    · exact .throw trivial
    · dsimp only
      split
      · exact .bind (.throw trivial) fun _ => anchors_invokeOn _ _ _ _
      · exact anchors_invokeOn _ _ _ _
  | callMethod owner name args =>
    refine .discard (.bind anchors_forgetFault fun _ => .bind (hmem (anchors_receiverOf owner)) fun p => ?_)
    refine .bind ((compositional_anchors e (G := fun _ => True)).look _) fun types => ?_
    split
    · exact .throw trivial
    · exact anchors_invokeOn _ _ _ _
  | evaluate node =>
    refine .discard (within_droppingOperands (.bind (within_ask _) fun _ => ?_))
    refine .bind (.discard (anchors_evaluate e e.fuel node)) fun _ => .bind (within_ask _) fun _ => ?_
    split
    · exact .bind within_pop fun _ => .pure _
    · exact .pure _
  | execute node => exact .discard (within_droppingOperands (anchors_evaluate e e.fuel node))
  | createValue ty => exact .discard (hmem (anchors_createValue e.program ty))
  | createString text => exact .discard (hmem (anchors_createString text))

theorem anchors_initializeGlobal (g : Global) : Relates Machine.Anchors (initializeGlobal e g) :=
  .bind (within_globalValue tolerates_anchors fun init _ => anchors_evaluate e e.fuel init) fun _ =>
    .bind (fun _ => .of_heap rfl) fun _ => fun _ => .of_heap rfl

end Eval

/-! ## Sessions -/

theorem Session.Reachable.anchored {s : Session} (hs : s.Reachable) : s.machine.heap.Anchored :=
  hs.invariant (I := fun m => m.heap.Anchored) (fun _ => .empty)
    (fun _ g m ha => ((Eval.anchors_initializeGlobal g).leaves m ha).1)
    fun _ q m _ ha => ((Eval.anchors_ask q).leaves m ha).1

end Treewalk
