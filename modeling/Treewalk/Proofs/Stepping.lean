/-
  Stepping is adding one.

  * `Cell.Steps delta c c'`: the value `c` can be stepped, and becomes `c'`: an integer is
    moved within its kind, a pointer along its block, and an empty slot counts as zero;
  * `Heap.SameAfter h₀ h h'`: what became of `h₀` in two ways is the same, but for values
    that nothing refers to.

  A step is made in place, while `x += 1` makes a value of the one and another of the sum,
  which is then stored. On the heap with these values, it does what a step does; and a step
  does not depend on values that nothing refers to.
-/
import Treewalk.Proofs.Conversions
import Treewalk.Proofs.DeepCopy
import Treewalk.Proofs.Integers
import Treewalk.Proofs.MirrorsEval

namespace Treewalk

/-! ## Integers -/

/-- The operator that adds what the step adds, if the second operand is one. -/
def StepOp.op : StepOp → BinaryOp
  | increment => .add
  | decrement => .sub

theorem StepOp.isLogical_op (s : StepOp) : s.op.isLogical = false := by
  cases s <;> rfl

namespace Primitive

variable {p : Primitive}

/-- A step moves an integer within its kind. -/
theorem stepped_eq (hk : p.kind.isIntegral) (hp : p.InRange) (delta : Int64) :
    p.stepped delta = representing p.kind p.unsigned (p.integer + delta.toInt) := by
  have hsum : Int64.ofInt (p.integer + delta.toInt) = .ofInt p.integer + delta := by
    rw [Int64.ofInt_add, Int64.ofInt_toInt]
  unfold stepped withPayload
  rw [payload_of_integral hk hp, ← of_ofInt hk, hsum]

/-- The kind in which a number meets an `int` is no narrower than its own. -/
theorem rank_le_commonKind (hk : p.kind.isIntegral) (n : Int64) : p.kind.rank ≤ (commonKind p (.int n)).1.rank := by
  obtain ⟨k, u, payload⟩ := p
  cases k <;> cases hk <;> exact Nat.le_of_ble_eq_true rfl

/-- The sum with one is computed in the kind in which the two meet. Stored back, it is what a
    step leaves. -/
theorem arithmetic_one (hk : p.kind.isIntegral) (hp : p.InRange) (s : StepOp) :
    ∃ q, arithmetic s.op p (.int 1) = .ok q ∧
      q.converted p.kind p.unsigned = representing p.kind p.unsigned (p.integer + s.delta.toInt) := by
  have hone : (Primitive.int 1).InRange := inRange_of ..
  have hk' := isIntegral_commonKind hk (show (Primitive.int 1).kind.isIntegral from rfl)
  have hle := rank_le_commonKind hk 1
  rw [arithmetic_eq s.isLogical_op hk rfl hp hone]
  unfold BinaryOp.onIntegers
  generalize commonKind p (.int 1) = c at hk' hle ⊢
  obtain ⟨k', u'⟩ := c
  dsimp only at hk' hle ⊢
  have hsum : ∃ z, s.op.exact (k'.residue u' p.integer) (k'.residue u' (Primitive.int 1).integer) = .integer z ∧
      z ≡ p.integer + s.delta.toInt [ZMOD k'.modulus] := by
    have hleft := k'.residue_modEq u' p.integer
    have hright := k'.residue_modEq u' (Primitive.int 1).integer
    cases s with
    | increment => exact ⟨_, rfl, hleft.add hright⟩
    | decrement => exact ⟨_, rfl, hleft.sub hright⟩
  obtain ⟨z, hz, hmod⟩ := hsum
  have hmod' := hmod.of_dvd (Kind.modulus_dvd_of_rank_le hk hk' hle)
  rw [hz]
  refine ⟨_, rfl, ?_⟩
  split
  · rename_i hchar
    rw [hchar] at hk hle hmod' ⊢
    rw [converted_representing rfl rfl (Nat.le_refl _)]
    have hresidue := (k'.residue_modEq u' z).of_dvd (Kind.modulus_dvd_of_rank_le hk hk' hle)
    exact representing_congr (hresidue.trans hmod') _
  · rw [converted_representing hk hk' hle]
    exact representing_congr hmod' _

end Primitive

/-! ## Steps -/

/-- The value can be stepped, and this is what it becomes. -/
inductive Cell.Steps (delta : Int64) : Cell → Cell → Prop
  /-- an integer is moved within its kind -/
  | integer {p : Primitive} (hk : p.kind.isIntegral) :
      Steps delta (.primitive p) (.primitive (.representing p.kind p.unsigned (p.integer + delta.toInt)))
  /-- a pointer is moved, wherever it points -/
  | pointer (p : Pointer) : Steps delta (.pointer p) (.pointer { p with offset := p.offset + delta })
  /-- an empty slot counts as zero -/
  | vacant {ty : Ty} {k : Kind} {u : Bool} (hty : ty.primitive? = some (k, u)) (hk : k.isIntegral) :
      Steps delta (.slot ty none) (.primitive (.representing k u delta.toInt))

section Steps

open Mem

variable {h h' : Heap} {r : Ref} {s : StepOp} {c : Cell}

theorem step_primitive {p : Primitive} (hr : h.cell r = .primitive p) (delta : Int64) :
    step r delta h = .ok () (h.setCell r (.primitive (p.stepped delta))) := by
  unfold step
  rw [read_bind, hr]
  rfl

theorem step_pointer {p : Pointer} (hr : h.cell r = .pointer p) (delta : Int64) :
    step r delta h = .ok () (h.setCell r (.pointer (p.moved delta))) := by
  unfold step
  rw [read_bind, hr]
  rfl

theorem step_vacant {ty : Ty} (hr : h.cell r = .slot ty none) (delta : Int64) :
    step r delta h = assign r ⟨h.cells.size⟩ (h.alloc (.primitive (.int delta))).2 := by
  unfold step
  rw [read_bind, hr]
  rfl

/-- A number is stored into an empty slot of an integral type as a number of that type. -/
theorem assign_vacant_number {source : Ref} {p : Primitive} {ty : Ty} {k : Kind} {u : Bool} (hs : h.Sound)
    (hr : h.cell r = .slot ty none) (hp : h.Number source p) (hty : ty.primitive? = some (k, u))
    (hk : k.isIntegral) :
    ∃ g, assign r source h = .ok () g ∧ g.cell (g.flatten r) = .primitive (p.converted k u) := by
  have hvoid : k ≠ .void := by
    rintro rfl
    cases hk
  have hscalar : ty.IsScalar := Ty.isScalar_iff.2 (.inl ⟨k, u, Ty.unqualified_of_primitive? hty, hvoid⟩)
  have hlt : r.id < h.cells.size := Heap.lt_of_isSlot (hr ▸ trivial)
  have hpresent : ¬ h.isAbsent source := by simp [Heap.isAbsent, hp.cell]
  have hcopy : copyForBinding source h = .ok ⟨h.cells.size⟩ (h.alloc (h.cell source)).2 :=
    copyForBinding_leaf (hp.cell ▸ trivial)
  rw [hp.cell] at hcopy
  obtain ⟨y, g, hcast, hspares, hy⟩ := produces_castTo (Heap.Number.alloc h p) hty hvoid
  have hcell : g.cell r = .slot ty none :=
    ((Heap.Spares.alloc h (.primitive p)).trans hspares).cell r hlt |>.trans hr
  have hset : setContent r (some y) g = .ok () (g.setCell r (.slot ty (some y))) := by
    unfold setContent change
    dsimp only
    rw [hcell]
  have hne : y ≠ r := by
    rintro rfl
    cases hy.cell.symm.trans hcell
  have hlt' : r.id < g.cells.size := Heap.lt_of_isSlot (hcell ▸ trivial)
  refine ⟨g.setCell r (.slot ty (some y)), ?_, ?_⟩
  · rw [assign_vacant hs hpresent hr, hp.flatten, fill_scalar hscalar hpresent, run_bind hcopy, run_bind hcast]
    exact hset
  · have hslot : (g.setCell r (.slot ty (some y))).cell r = .slot ty (some y) :=
      (Heap.cell_setCell ..).trans (if_pos ⟨rfl, hlt'⟩)
    have hflatten : (g.setCell r (.slot ty (some y))).flatten r = y := by
      unfold Heap.flatten
      rw [hslot]
    rw [hflatten]
    exact (hy.setCell_of_ne hne _).cell

/-- What can be stepped is, and becomes what the step makes of it. -/
theorem step_eq_ok (hs : h.Sound) (hlt : r.id < h.cells.size) (hc : (h.cell r).Steps s.delta c) :
    ∃ g, step r s.delta h = .ok () g ∧ g.cell (g.flatten r) = c := by
  have hset (c : Cell) (hbare : ¬ c.IsSlot) : (h.setCell r c).cell ((h.setCell r c).flatten r) = c := by
    have hcell : (h.setCell r c).cell r = c := (Heap.cell_setCell ..).trans (if_pos ⟨rfl, hlt⟩)
    rw [Heap.flatten_of_not_isSlot (fun hslot => hbare (hcell ▸ hslot)), hcell]
  cases hcell : h.cell r with
  | primitive p =>
    rw [hcell] at hc
    cases hc with
    | integer hk =>
      refine ⟨_, step_primitive hcell s.delta, ?_⟩
      rw [hset _ id, Primitive.stepped_eq hk (hs.number r p hcell)]
  | pointer p =>
    rw [hcell] at hc
    cases hc with
    | pointer => exact ⟨_, step_pointer hcell s.delta, hset _ id⟩
  | slot ty content =>
    rw [hcell] at hc
    cases hc with
    | @vacant _ k u hty hk =>
      have hrange : (Primitive.int s.delta).InRange := Primitive.inRange_of ..
      have hs₁ : (h.alloc (.primitive (.int s.delta))).2.Sound :=
        hs.alloc (.of_contents rfl (by simp [hrange]) (by simp))
      have hcell₁ : (h.alloc (.primitive (.int s.delta))).2.cell r = .slot ty none :=
        (Heap.cell_alloc_of_lt _ hlt).trans hcell
      obtain ⟨g, hassign, hg⟩ := assign_vacant_number hs₁ hcell₁ (.alloc h _) hty hk
      have hinteger : (Primitive.int s.delta).integer = s.delta.toInt := by cases s <;> rfl
      refine ⟨g, (step_vacant hcell s.delta).trans hassign, hg.trans ?_⟩
      rw [Primitive.converted_eq rfl hrange hk, hinteger]
  | array | compound => rw [hcell] at hc; cases hc

/-! ## Adding one -/

/-- Stored into a pointer, another makes it point where that points. -/
theorem assign_pointer {source : Ref} {p q : Pointer} (hr : h.cell r = .pointer p) (hq : h.cell source = .pointer q)
    (hne : r ≠ source) :
    assign r source h = .ok () (h.setCell r (.pointer { p with block := q.block, offset := q.offset })) := by
  have hbare : ¬ h.isSlot r := fun hslot => (hr ▸ hslot : (Cell.pointer p).IsSlot)
  have hflatten : h.flatten source = source := by
    unfold Heap.flatten
    rw [hq]
  have hwithin (fuel : Nat) : assignWithin (fuel + 1) r source h =
      .ok () (h.setCell r (.pointer { p with block := q.block, offset := q.offset })) := by
    rw [assignWithin_bare hbare (hflatten.symm ▸ hne), hflatten, hr, hq]
    change setPlace r q.block q.offset h = _
    unfold setPlace change
    dsimp only
    rw [hr]
  exact hwithin (2 * h.cells.size + 1)

section Sum

variable {one : Ref} (hone : h.Number one (.int 1))
include hone

theorem run_sum {o : Operand} {y : Yield} (ho : h.operand r = .ok o)
    (hy : operate h s.op o (.number (.int 1)) = .ok y) :
    (binaryOperation s.op r one >>= assign r) h = (yielded y >>= assign r) h := by
  have hsum : binaryOperation s.op r one h = yielded y h :=
    (binaryOperation_eq ho hone.operand).trans (operateOn_ok hy)
  simp only [bind, EStateM.bind, hsum]

theorem sum_integer {p : Primitive} (hr : h.Number r p) (hk : p.kind.isIntegral) (hp : p.InRange) :
    ∃ q, (binaryOperation s.op r one >>= assign r) h = step r s.delta (h.alloc (.primitive q)).2 := by
  obtain ⟨q, hq, hstored⟩ := Primitive.arithmetic_one hk hp s
  have hy : operate h s.op (.number p) (.number (.int 1)) = .ok (.number q) := by
    rw [operate_numbers h s.isLogical_op, hq]
    rfl
  have hr' := hr.spared (.alloc h (.primitive q))
  have hne : r ≠ ⟨h.cells.size⟩ := fun heq => Nat.lt_irrefl _ (heq ▸ hr.lt)
  refine ⟨q, (run_sum hone hr.operand hy).trans ?_⟩
  refine (assign_number hr' (.alloc h q) hne).trans ?_
  rw [step_primitive hr'.cell, hstored, Primitive.stepped_eq hk hp]

theorem sum_pointer {p : Pointer} (hlt : r.id < h.cells.size) (hr : h.cell r = .pointer p) :
    (binaryOperation s.op r one >>= assign r) h = step r s.delta (h.alloc (.pointer (p.moved s.delta))).2 := by
  have ho : h.operand r = .ok (.pointer p) := by
    unfold Heap.operand Heap.flatten
    rw [hr]
    dsimp only
    rw [hr]
  have hy : operate h s.op (.pointer p) (.number (.int 1)) = .ok (.pointer (p.moved s.delta)) := by
    cases s <;> rfl
  have hr' : (h.alloc (.pointer (p.moved s.delta))).2.cell r = .pointer p := (Heap.cell_alloc_of_lt _ hlt).trans hr
  have hne : r ≠ ⟨h.cells.size⟩ := fun heq => Nat.lt_irrefl _ (heq ▸ hlt)
  rw [run_sum hone ho hy, step_pointer hr']
  exact assign_pointer hr' (h.cell_alloc_new _) hne

theorem sum_vacant {ty : Ty} (hr : h.cell r = .slot ty none) :
    (binaryOperation s.op r one >>= assign r) h = step r s.delta h := by
  have ho : h.operand r = .ok .absent := by
    unfold Heap.operand Heap.flatten
    rw [hr]
    dsimp only
    rw [hr]
  have hy : operate h s.op .absent (.number (.int 1)) = .ok (.number (.int s.delta)) := by
    cases s <;> rfl
  rw [run_sum hone ho hy, step_vacant hr]
  rfl

end Sum

/-- The sum with one, stored back, is a step on a heap with the values of the one and of the
    sum. Stepping an empty slot makes a value of the sum itself. -/
theorem assign_sum_eq_step (hs : h.Sound) (hlt : r.id < h.cells.size) (hc : (h.cell r).Steps s.delta c) :
    ∃ h', h.Adds h' ∧ h'.blocks.size = h.blocks.size ∧
      (binaryOperation s.op r ⟨h.cells.size⟩ >>= assign r) (h.alloc (.primitive (.int 1))).2 = step r s.delta h' := by
  have hadds : h.Adds (h.alloc (.primitive (.int 1))).2 := Heap.Additive.alloc ..
  have hadds' (c : Cell) : h.Adds ((h.alloc (.primitive (.int 1))).2.alloc c).2 :=
    IsTrans.trans _ _ _ hadds (Heap.Additive.alloc ..)
  have hone : (h.alloc (.primitive (.int 1))).2.Number ⟨h.cells.size⟩ (.int 1) := .alloc ..
  have hcell := hadds.cell r hlt
  cases hr : h.cell r with
  | primitive p =>
    rw [hr] at hc hcell
    cases hc with
    | integer hk =>
      obtain ⟨q, hq⟩ := sum_integer (s := s) hone ⟨hlt.trans_le hadds.cells_le, hcell⟩ hk (hs.number r p hr)
      exact ⟨_, hadds' _, rfl, hq⟩
  | pointer p => exact ⟨_, hadds' _, rfl, sum_pointer hone (hlt.trans_le hadds.cells_le) (hcell.trans hr)⟩
  | slot ty content =>
    rw [hr] at hc hcell
    cases hc with
    | vacant => exact ⟨_, hadds, rfl, sum_vacant hone hcell⟩
  | array | compound => rw [hr] at hc; cases hc

/-- A copy of what can be stepped is one more cell. -/
theorem copy_steppable {delta : Int64} (hc : (h.cell r).Steps delta c) :
    copy r h = .ok ⟨h.cells.size⟩ (h.alloc (h.cell r)).2 := by
  have hwithin (k : Nat) : copyWithin (k + 1) r h = .ok ⟨h.cells.size⟩ (h.alloc (h.cell r)).2 := by
    rw [copyWithin, read_bind]
    generalize h.cell r = cell at hc
    cases hc <;> rfl
  exact hwithin h.cells.size

/-! ## The same but for other values -/

namespace Heap

/-- What became of `h₀` in two ways is the same: in the second there are some more values
    after those that were there, to which nothing refers, and all values that were there look
    the same. -/
structure SameAfter (h₀ h h' : Heap) : Prop where
  relocated : ∃ k, h.Relocated (Relocation.none.widen h₀.cells.size h₀.blocks.size k 0) h'
  tree_eq : ∀ x, x.id < h₀.cells.size → h'.tree x = h.tree x

/-- Where blocks are not moved, values look the same. -/
theorem Relocated.tree_eq {ρ : Relocation} (hh : h.Relocated ρ h') (hg : h.Grounded) (hg' : h'.Grounded)
    (hblock : ∀ b, ρ.block b = b) (x : Ref) : h'.tree (ρ.ref x) = h.tree x := by
  induction x using hg.wf.induction with
  | _ x ih =>
    have hpart (y : Ref) (hy : y ∈ h.parts x) : h'.tree (ρ.ref y) = h.tree y := ih y hy
    rw [hg'.tree_eq, hg.tree_eq, hh.cell]
    cases hc : h.cell x with
    | primitive => rfl
    | pointer p => exact congrArg (fun b => ValueTree.pointer { p with block := b }) (hblock p.block)
    | array element b =>
      have hslots : (h'.block (ρ.block b)).toList.map h'.tree = (h.block b).toList.map h.tree := by
        rw [hh.block, Array.toList_map, List.map_map]
        exact List.map_congr_left fun y hy => hpart y (mem_parts_of_array hc (Array.mem_toList_iff.1 hy))
      exact congrArg (ValueTree.array element) hslots
    | slot ty content =>
      cases content with
      | none => rfl
      | some y => exact congrArg (fun t => ValueTree.slot ty (some t)) (hpart y (mem_parts_of_slot hc))
    | compound ty fields =>
      refine congrArg (ValueTree.compound ty) ?_
      rw [List.map_map]
      exact List.map_congr_left fun f hf => congrArg (Prod.mk f.1) (hpart f.2 (mem_parts_of_compound hc hf))

theorem SameAfter.of_relocated {h₀ g g' : Heap} (hblocks : h'.blocks.size = h₀.blocks.size)
    (hh : g.Relocated (h₀.gap h') g') (hg : g.Grounded) (hg' : g'.Grounded) : h₀.SameAfter g g' where
  relocated := by
    have hgap : h₀.gap h' = Relocation.none.widen h₀.cells.size h₀.blocks.size (h'.cells.size - h₀.cells.size) 0 := by
      unfold gap
      rw [hblocks, Nat.sub_self]
    exact ⟨_, hgap ▸ hh⟩
  tree_eq := fun x hx => by
    rw [← hh.tree_eq hg hg' (gap_block hblocks), gap, Relocation.ref_of_lt hx]

/-- What is written to one of two isolated values leaves them so. -/
theorem Isolated.of_writes {a b : Ref} (hi : h.Isolated a b) (hw : h.Writes a h') :
    h'.Isolated a b ∧ h'.tree b = h.tree b :=
  ⟨fun h₁ hrun => hi h₁ (.head (.inl hw) hrun), (hi h .refl).1 h' (.single hw)⟩

end Heap

/-- With more values that nothing refers to, a step does the same. -/
theorem step_after {g : Heap} (hs : h.Sound) (hlt : r.id < h.cells.size) (hadds : h.Adds h')
    (hblocks : h'.blocks.size = h.blocks.size) (hstep : step r s.delta h = .ok () g) :
    ∃ g', step r s.delta h' = .ok () g' ∧ g.Relocated (h.gap h') g' := by
  have hh := hs.relocated_of_blocks hadds hblocks
  have href : (h.gap h').ref r = r := Relocation.ref_of_lt hlt
  have htracks := tracks_step (ρ := h.gap h') (n := 0) r s.delta
  rw [href] at htracks
  exact (htracks.follows h h' hs (Nat.zero_le _) hh).exists_ok hstep

end Steps

/-! ## Stepping and adding one -/

open Eval

section Nodes

variable {e : Engine} {n : Nat} {x : Node} {m m₁ : Machine} {r v : Ref} {h h' : Heap} {s : StepOp}
  (hr : valueOf (evaluate e (n + 1)) x m = .ok r m₁)
include hr

theorem run_preStep (hstep : step r s.delta m₁.heap = .ok () h) :
    evaluate e (n + 2) (Build.unary (.step s) x) m =
      .ok .normal { m₁ with heap := h, state := m₁.state.push r } := by
  have hunary : unary (evaluate e (n + 1)) x.ty (.step s) x m =
      .ok .normal { m₁ with heap := h, state := m₁.state.push r } := by
    unfold unary
    rw [run_bind hr]
    dsimp only
    rw [run_bind (run_mem hstep)]
    rfl
  exact run_placed_ok (Build.unary (.step s) x).location? hunary

theorem run_addOne (hsum : (binaryOperation s.op r ⟨m₁.heap.cells.size⟩ >>= assign r)
    (m₁.heap.alloc (.primitive (.int 1))).2 = .ok () h) :
    evaluate e (n + 2) (Build.opAssign (.compound s.op) x (Build.int 1)) m =
      .ok .normal { m₁ with heap := h, state := m₁.state.push r } := by
  obtain ⟨v, h₂, hv, hassign⟩ := bind_eq_ok_iff.1 hsum
  have hassignment : assignment (evaluate e (n + 1)) (.compound s.op) x (Build.int 1) m =
      .ok .normal { m₁ with heap := h, state := m₁.state.push r } := by
    unfold assignment
    rw [run_bind hr, run_bind (run_int 1)]
    dsimp only
    rw [run_bind (run_mem (m := { m₁ with heap := _ }) hv), run_bind (run_mem (m := { m₁ with heap := _ }) hassign)]
    rfl
  exact run_placed_ok (Build.opAssign (.compound s.op) x (Build.int 1)).location? hassignment

theorem run_postStep (hcopy : copy r m₁.heap = .ok v h) (hstep : step r s.delta h = .ok () h') :
    evaluate e (n + 2) (Build.postStep s x) m = .ok .normal { m₁ with heap := h', state := m₁.state.push v } := by
  have hpost : Eval.postStep (evaluate e (n + 1)) s x m =
      .ok .normal { m₁ with heap := h', state := m₁.state.push v } := by
    unfold Eval.postStep
    rw [run_bind hr, run_bind (run_mem hcopy), run_bind (run_mem (m := { m₁ with heap := _ }) hstep)]
    rfl
  exact run_placed_ok (Build.postStep s x).location? hpost

end Nodes

/-- Where `x` is an integer, a pointer or an empty slot of an integral type, `++x` and `x += 1`
    both leave `x` as their value and both do the same: an integer is one more modulo the width
    of its kind, a pointer points one element further, and an empty slot holds one. So it is
    with `--x` and `x -= 1`. `x++` and `x--` do that, too, but leave a copy of what `x` was,
    which is isolated from `x`. -/
theorem step_eq_add_one {e : Engine} {n : Nat} {x : Node} {m m₁ : Machine} {r : Ref} (hm : m.Sound)
    (hr : valueOf (evaluate e n) x m = .ok r m₁) (s : StepOp) {c : Cell} (hc : (m₁.heap.cell r).Steps s.delta c) :
    ∃ h, evaluate e (n + 1) (Build.unary (.step s) x) m =
        .ok .normal { m₁ with heap := h, state := m₁.state.push r } ∧
      h.cell (h.flatten r) = c ∧
      (∃ h', evaluate e (n + 1) (Build.opAssign (.compound s.op) x (Build.int 1)) m =
          .ok .normal { m₁ with heap := h', state := m₁.state.push r } ∧ m₁.heap.SameAfter h h') ∧
      ∃ v h', evaluate e (n + 1) (Build.postStep s x) m =
          .ok .normal { m₁ with heap := h', state := m₁.state.push v } ∧ m₁.heap.SameAfter h h' ∧
        h'.tree v = m₁.heap.tree r ∧ h'.Isolated r v := by
  cases n with
  | zero => cases hr
  | succ n =>
    obtain ⟨hm₁, -, hlt⟩ := (safe_valueOf (fun n node => safe_evaluate e _ n node) x m hm (Nat.zero_le _)).of_ok hr
    have hgrounded {node : Node} {g : Heap} {v : Ref} (hrun : evaluate e (n + 2) node m =
        .ok .normal { m₁ with heap := g, state := m₁.state.push v }) : g.Grounded :=
      ((safe_evaluate e (n + 2) 0 node m hm (Nat.zero_le _)).of_ok hrun).1.heap.grounded
    obtain ⟨g, hstep, hg⟩ := step_eq_ok hm₁.heap hlt hc
    have hpre := run_preStep hr hstep
    refine ⟨g, hpre, hg, ?_, ?_⟩
    · obtain ⟨h', hadds, hblocks, hsum⟩ := assign_sum_eq_step hm₁.heap hlt hc
      obtain ⟨g', hstep', hgg'⟩ := step_after hm₁.heap hlt hadds hblocks hstep
      have hadd := run_addOne hr (hsum.trans hstep')
      exact ⟨g', hadd, .of_relocated hblocks hgg' (hgrounded hpre) (hgrounded hadd)⟩
    · obtain ⟨v, h', hcopy, hm'⟩ := (ends_copy hm₁.heap.grounded r).exists_ok
      have hdetached := hm'.toMinted.detached hm₁.heap.grounded hlt
      have hblocks : h'.blocks.size = m₁.heap.blocks.size := by
        cases hcopy.symm.trans (copy_steppable hc)
        rfl
      obtain ⟨g', hstep', hgg'⟩ := step_after hm₁.heap hlt hdetached.adds hblocks hstep
      have hpost := run_postStep hr hcopy hstep'
      have hwrites : h'.Writes r g' := by
        have hwrite : h'.Writes r (leaves (step r s.delta) h') := .step .refl s.delta
        unfold leaves at hwrite
        rwa [hstep'] at hwrite
      obtain ⟨hisolated, htree⟩ := hdetached.isolated.of_writes hwrites
      exact ⟨v, g', hpost, .of_relocated hblocks hgg' (hgrounded hpre) (hgrounded hpost),
        htree.trans hm'.tree_eq, hisolated⟩

/-- A name for the greatest `unsigned char`. -/
def greatestCharNamed : Machine where
  heap := (({} : Heap).alloc (.primitive (.of .char true (.integral 255)))).2
  state := State.bind {} "x" ⟨0⟩

/-- The greatest `unsigned char` becomes zero, in all three ways. -/
theorem greatestChar_stepped :
    let x := Build.id "x" (.primitive .char true)
    ∃ h h₁ v h₂,
      evaluate noProgram 3 (Build.unary (.step .increment) x) greatestCharNamed =
        .ok .normal { greatestCharNamed with heap := h, state := greatestCharNamed.state.push ⟨0⟩ } ∧
      h.cell (h.flatten ⟨0⟩) = .primitive (.of .char true (.integral 0)) ∧
      evaluate noProgram 3 (Build.opAssign (.compound .add) x (Build.int 1)) greatestCharNamed =
        .ok .normal { greatestCharNamed with heap := h₁, state := greatestCharNamed.state.push ⟨0⟩ } ∧
      greatestCharNamed.heap.SameAfter h h₁ ∧
      evaluate noProgram 3 (Build.postStep .increment x) greatestCharNamed =
        .ok .normal { greatestCharNamed with heap := h₂, state := greatestCharNamed.state.push v } ∧
      greatestCharNamed.heap.SameAfter h h₂ ∧ h₂.tree v = greatestCharNamed.heap.tree ⟨0⟩ ∧ h₂.Isolated ⟨0⟩ v := by
  intro x
  have hrange : (Primitive.of .char true (.integral 255)).InRange := Primitive.inRange_of ..
  have hheap : greatestCharNamed.heap.Sound := Heap.Sound.empty.alloc (.of_contents rfl (by simp [hrange]) (by simp))
  have hm : greatestCharNamed.Sound := ⟨hheap, (State.In.empty 1).bind "x" Nat.zero_lt_one⟩
  have hr : valueOf (evaluate noProgram 2) x greatestCharNamed = .ok ⟨0⟩ greatestCharNamed := rfl
  have hc : (greatestCharNamed.heap.cell ⟨0⟩).Steps 1 (.primitive (.of .char true (.integral 0))) := .integer rfl
  obtain ⟨h, hpre, hcell, ⟨h₁, hadd, hsame⟩, v, h₂, hpost, hsame', htree, hisolated⟩ :=
    step_eq_add_one hm hr .increment hc
  exact ⟨h, h₁, v, h₂, hpre, hcell, hadd, hsame, hpost, hsame', htree, hisolated⟩

end Treewalk
