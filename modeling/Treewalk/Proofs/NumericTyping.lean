/-
  Numeric expressions have the types that their nodes carry.

  * `NumericExpr`: the expressions that can be built from literals, names,
    operators, assignments, conversions and sizes; `NumericExpr.node` builds the
    tree;
  * `NumericExpr.Typed p vars x`: names are used at the types at which `vars` has
    them, bitwise operators on integers alone, and sizes are taken of types that
    have one in the program `p`;
  * `Heap.Conserves h h'`: numbers may have changed, but not their types;
  * `gives_node`: evaluation gives a number of the type of the node, or there is a
    division by zero.
-/
import Treewalk.Proofs.Isolation
import Treewalk.Proofs.Nesting
import Treewalk.Proofs.Numbers
import Treewalk.Proofs.Ranges

namespace Treewalk

/-! ## Types of numbers -/

/-- Is it a type of integers? -/
def Ty.isIntegral (ty : Ty) : Bool :=
  ty.primitive?.any (·.1.isIntegral)

/-- The number is one that the type has. -/
structure Primitive.Has (p : Primitive) (ty : Ty) : Prop where
  ty : p.ty = ty.unqualified
  kind : p.kind ≠ .void
  inRange : p.InRange

/-- The operators on bits. -/
def BinaryOp.isBitwise : BinaryOp → Bool
  | bitAnd | bitOr | bitXor | shl | shr => true
  | _ => false

/-- A division or modulo by zero. -/
def Cause.IsDivision (c : Cause) : Prop :=
  c = .divisionByZero ∨ c = .moduloByZero

namespace Primitive

variable {ty : Ty} {p q : Primitive}

theorem has_of {k : Kind} {u : Bool} (hty : ty.primitive? = some (k, u)) (hk : k ≠ .void)
    (payload : Payload) : (of k u payload).Has ty :=
  ⟨(Ty.unqualified_of_primitive? hty).symm, hk, inRange_of ..⟩

theorem has_truth (b : Bool) : (truth b).Has .int :=
  has_of rfl (by decide) _

theorem has_conformed (hty : ty.IsNumber) (hp : p.InRange) : (p.conformed ty).Has ty := by
  obtain ⟨k, u, hty, hk⟩ := hty
  have hconformed : p.conformed ty = if p.kind = k ∧ p.unsigned = u then p else p.converted k u := by
    unfold conformed
    rw [hty]
    cases k <;> first | rfl | exact absurd rfl hk
  rw [hconformed]
  split
  · rename_i h
    obtain ⟨rfl, rfl⟩ := h
    exact ⟨(Ty.unqualified_of_primitive? hty).symm, hk, hp⟩
  · exact has_of hty hk _

namespace Has

theorem isNumber (hp : p.Has ty) : ty.IsNumber := by
  refine ⟨p.kind, p.unsigned, ?_, hp.kind⟩
  unfold Ty.primitive?
  rw [← hp.ty]
  rfl

/-- Another number of the same kind and signedness. -/
theorem congr (hp : p.Has ty) (hq : q.ty = p.ty) (hr : q.InRange) : q.Has ty := by
  have hkind : q.kind = p.kind := (Ty.primitive.inj hq).1
  exact ⟨hq.trans hp.ty, hkind ▸ hp.kind, hr⟩

theorem isIntegral_kind (hp : p.Has ty) (hty : ty.isIntegral = true) : p.kind.isIntegral = true := by
  unfold Ty.isIntegral Ty.primitive? at hty
  rw [← hp.ty] at hty
  exact hty

theorem payload (hp : p.Has ty) (hty : ty.isIntegral = true) : p.isFloating = false := by
  have hk := hp.isIntegral_kind hty
  have hr := hp.inRange
  unfold InRange at hr
  unfold isFloating
  split
  · rename_i x hx
    rw [hx] at hr
    cases hkind : p.kind <;> simp_all [Kind.isIntegral, Kind.isFloating, Kind.isVoid]
  · rfl

theorem stepped (hp : p.Has ty) (delta : Int64) : (p.stepped delta).Has ty := by
  refine hp.congr ?_ (inRange_stepped p delta)
  unfold Primitive.stepped
  split <;> rfl

/-- A sign, complement or negation, as the value of a node. -/
theorem signed {op : UnaryOp} {ty' : Ty} (hp : p.Has ty) (hty' : ty'.IsNumber) (h : p.signed op = .ok q) :
    (q.conformed ty').Has ty' := by
  refine has_conformed hty' ?_
  unfold Primitive.signed at h
  split at h
  · cases h
    exact (has_truth _).inRange
  · cases h
    exact inRange_negated _
  · exact inRange_complemented h
  · cases h
    exact inRange_promoted hp.inRange

theorem signed_ne_error {op : UnaryOp} (hp : p.Has ty) (hop : op = .bitNot → ty.isIntegral = true)
    (c : Cause) : p.signed op ≠ .error c := by
  cases op with
  | bitNot =>
    have hfloating : p.promoted.isFloating = false := by
      unfold promoted
      split
      · exact hp.payload (hop rfl)
      · rfl
    unfold Primitive.signed complemented
    dsimp only
    split
    · simp
    · rename_i x hx
      simp [isFloating, hx] at hfloating
  | step | plus | neg | not => simp [Primitive.signed]

end Has

end Primitive

/-! ## Binary operators -/

theorem error_of_bind {ε α β : Type} {x : Except ε α} {f : α → Except ε β} {e : ε}
    (h : (x >>= f) = .error e) (hf : ∀ a, f a ≠ .error e) : x = .error e := by
  cases x with
  | error e' => exact congrArg _ (Except.error.inj h)
  | ok a => exact absurd h (hf a)

theorem floatingArithmetic_error {op : BinaryOp} (hop : op.isLogical = false) {l r : Float} {k : Kind}
    {c : Cause} (h : floatingArithmetic op l r k = .error c) : op.isBitwise = true := by
  cases op <;> first | rfl | exact absurd hop (by decide) | cases h

theorem integralArithmetic_error {op : BinaryOp} {u : Bool} {l r : Int64} {c : Cause}
    (h : integralArithmetic op u l r = .error c) : c.IsDivision := by
  cases op with
  | div =>
    unfold integralArithmetic at h
    dsimp only at h
    split at h
    · exact .inl (Except.error.inj h).symm
    · split at h <;> cases h
  | mod =>
    unfold integralArithmetic at h
    dsimp only at h
    split at h
    · exact .inr (Except.error.inj h).symm
    · split at h <;> cases h
  | shr =>
    unfold integralArithmetic at h
    dsimp only at h
    split at h <;> cases h
  | _ => cases h

/-- Arithmetic fails on division by zero, or on the bits of a double. -/
theorem arithmetic_error {op : BinaryOp} (hop : op.isLogical = false) {l r : Primitive} {c : Cause}
    (h : arithmetic op l r = .error c) :
    c.IsDivision ∨ op.isBitwise = true ∧ (commonKind l r).1.isFloating = true := by
  unfold arithmetic at h
  dsimp only at h
  have hlast (p : Primitive) : (if l.kind = .char && !op.isComparison && !p.isFloating then
      (pure (p.converted .char l.unsigned) : Except Cause Primitive) else pure p) ≠ .error c := by
    split <;> simp [pure, Except.pure]
  split at h
  · rename_i hk
    exact .inr ⟨floatingArithmetic_error hop (error_of_bind h hlast), hk⟩
  · refine .inl (integralArithmetic_error (error_of_bind h fun o => ?_))
    cases o with
    | some n => exact hlast _
    | none => exact hlast _

/-- Integers meet in an integral kind. -/
theorem isFloating_commonKind {l r : Primitive} (hl : l.kind.isIntegral = true)
    (hr : r.kind.isIntegral = true) : (commonKind l r).1.isFloating = false := by
  unfold commonKind
  generalize l.kind = lk at *
  generalize r.kind = rk at *
  cases lk <;> cases rk <;> first | rfl | exact absurd hl (by decide) | exact absurd hr (by decide)

namespace BinaryOp

variable {op : BinaryOp} {ty lty rty : Ty} {l r q : Primitive}

theorem has_applied (hty : ty.IsNumber) (hlogical : op.isLogical = true → ty = .int)
    (h : op.applied ty l r = .ok q) : q.Has ty := by
  unfold applied at h
  split at h
  · rename_i hop
    cases h
    exact hlogical hop ▸ Primitive.has_truth _
  · cases hq : arithmetic op l r with
    | ok p =>
      rw [hq] at h
      cases h
      exact Primitive.has_conformed hty (inRange_arithmetic op l r p hq)
    | error c =>
      rw [hq] at h
      cases h

theorem isDivision_of_arithmetic (hl : l.Has lty) (hr : r.Has rty) (hlogical : op.isLogical = false)
    (hop : op.isBitwise = true → lty.isIntegral = true ∧ rty.isIntegral = true) {c : Cause}
    (h : arithmetic op l r = .error c) : c.IsDivision := by
  refine (arithmetic_error hlogical h).resolve_right ?_
  rintro ⟨hbitwise, hfloating⟩
  obtain ⟨hlty, hrty⟩ := hop hbitwise
  rw [isFloating_commonKind (hl.isIntegral_kind hlty) (hr.isIntegral_kind hrty)] at hfloating
  cases hfloating

theorem isDivision_of_applied (hl : l.Has lty) (hr : r.Has rty)
    (hop : op.isBitwise = true → lty.isIntegral = true ∧ rty.isIntegral = true) {c : Cause}
    (h : op.applied ty l r = .error c) : c.IsDivision := by
  unfold applied at h
  split at h
  · cases h
  · rename_i hlogical
    refine isDivision_of_arithmetic hl hr (by simpa using hlogical) hop ?_
    cases hq : arithmetic op l r with
    | ok p =>
      rw [hq] at h
      cases h
    | error d =>
      rw [hq] at h
      exact congrArg _ (Except.error.inj h)

end BinaryOp

/-! ## Numbers in place -/

/-- Numbers may have changed, but not their types. -/
structure Heap.Conserves (h h' : Heap) : Prop where
  number : ∀ {r p}, h.Number r p → p.InRange → ∃ q, h'.Number r q ∧ q.ty = p.ty ∧ q.InRange

namespace Heap.Conserves

variable {h h' h'' : Heap} {r : Ref} {p q : Primitive}

theorem of_spares (hh : h.Spares h') : h.Conserves h' :=
  ⟨fun {_ p} hr hp => ⟨p, hr.spared hh, rfl, hp⟩⟩

theorem trans (hh : h.Conserves h') (hh' : h'.Conserves h'') : h.Conserves h'' where
  number := fun hr hp => by
    obtain ⟨q, hr, hty, hq⟩ := hh.number hr hp
    obtain ⟨q', hr, hty', hq'⟩ := hh'.number hr hq
    exact ⟨q', hr, hty'.trans hty, hq'⟩

theorem setCell (hr : h.Number r p) (hty : q.ty = p.ty) (hq : q.InRange) :
    h.Conserves (h.setCell r (.primitive q)) where
  number := by
    intro x p' hx hp'
    by_cases hxr : x = r
    · subst hxr
      have hpp : p = p' := Cell.primitive.inj (hr.cell.symm.trans hx.cell)
      exact ⟨q, hr.setCell q, hpp ▸ hty, hq⟩
    · exact ⟨p', hx.setCell_of_ne hxr _, rfl, hp'⟩

theorem has (hh : h.Conserves h') (hr : h.Number r p) {ty : Ty} (hp : p.Has ty) :
    ∃ q, q.Has ty ∧ h'.Number r q := by
  obtain ⟨q, hr', hty, hq⟩ := hh.number hr hp.inRange
  exact ⟨q, hp.congr hty hq, hr'⟩

end Heap.Conserves

instance : Heap.Sparing Heap.Conserves where
  refl := fun h => .of_spares (.refl h)
  trans := fun _ _ _ => .trans
  of_spares := .of_spares

namespace Eval

variable {m : Machine} {ev : Evaluator} {E : Option Cause → Prop} {ty lty rty : Ty} {r t : Ref}
  {p q : Primitive}

open Heap (Conserves)

/-- The value is a number of the type. -/
abbrev NumberOf (ty : Ty) : Heap → Ref → Prop :=
  NumberIn (·.Has ty)

theorem calm_step (hr : m.heap.Number r p) (hp : p.Has ty) (delta : Int64) :
    Calm Conserves m (liftM (step r delta) : Eval Unit) (fun h _ => NumberOf ty h r) E := by
  have hrun : step r delta m.heap = .ok () (m.heap.setCell r (.primitive (p.stepped delta))) := by
    unfold step
    rw [Mem.read_bind, hr.cell]
    rfl
  have hstepped := hp.stepped delta
  exact .mem hrun (.setCell hr (hstepped.ty.trans hp.ty.symm) hstepped.inRange)
    ⟨_, hstepped, hr.setCell _⟩

theorem calm_assign (ht : m.heap.Number t p) (hp : p.Has ty) (hr : m.heap.Number r q) :
    Calm Conserves m (liftM (assign t r) : Eval Unit) (fun h _ => NumberOf ty h t) E := by
  by_cases hne : t = r
  · subst hne
    exact .mem (Mem.assign_self ht) (.of_spares (.refl _)) ⟨p, hp, ht⟩
  · have hq : (q.converted p.kind p.unsigned).Has ty := hp.congr rfl (Primitive.inRange_of ..)
    exact .mem (Mem.assign_number ht hr hne) (.setCell ht rfl hq.inRange) ⟨_, hq, ht.setCell _⟩

theorem gives_step {s : StepOp} {operand : Node}
    (h : Calm Conserves m (valueOf ev operand) (NumberOf ty) E) :
    Gives Conserves m (unary ev rty (.step s) operand) (NumberOf ty) E := by
  refine Gives.bind h ?_
  rintro r m₁ - - ⟨p, hp, hr⟩
  exact Gives.bind (calm_step hr hp s.delta) fun _ _ _ _ hr' => gives_yield hr'

theorem gives_postStep {s : StepOp} {operand : Node}
    (h : Calm Conserves m (valueOf ev operand) (NumberOf ty) E) :
    Gives Conserves m (postStep ev s operand) (NumberOf ty) E := by
  refine Gives.bind h ?_
  rintro r m₁ - - ⟨p, hp, hr⟩
  obtain ⟨previous, h₁, hcopy, hspares, hprevious⟩ := Mem.produces_copy hr
  refine Gives.bind (V := fun h' x => h' = h₁ ∧ x = previous) (.mem hcopy (.of_spares hspares) ⟨rfl, rfl⟩) ?_
  rintro _ m₂ - - ⟨hh₂, rfl⟩
  subst hh₂
  refine Gives.bind (calm_step (hr.spared hspares) hp s.delta) fun _ m₃ _ hR _ => ?_
  exact gives_yield (hR.has hprevious hp)

/-- What an operator makes of two numbers is a number. -/
theorem calm_binaryOperation {op : BinaryOp} (hE : ∀ c, c.IsDivision → E (some c))
    (hl : m.heap.Number t p) (hp : p.Has lty) (hr : m.heap.Number r q) (hq : q.Has rty)
    (hop : op.isBitwise = true → lty.isIntegral = true ∧ rty.isIntegral = true) :
    Calm Conserves m (liftM (binaryOperation op t r) : Eval Ref) (NumberIn fun _ => True) E := by
  have hrun : binaryOperation op t r m.heap = operateOn op (.number p) (.number q) m.heap :=
    Mem.binaryOperation_eq hl.operand hr.operand
  have hproduces {v : Primitive} (hv : operate m.heap op (.number p) (.number q) = .ok (.number v)) :
      (binaryOperation op t r).Produces m.heap v := by
    unfold Mem.Produces
    rw [hrun]
    exact Mem.produces_operateOn hv
  cases hlogical : op.isLogical with
  | true =>
    have htruth : ∃ b, operate m.heap op (.number p) (.number q) = .ok (.number (.truth b)) := by
      cases op <;> first | exact ⟨_, rfl⟩ | exact absurd hlogical (by decide)
    obtain ⟨b, hb⟩ := htruth
    exact .produces (hproduces hb) trivial
  | false =>
    have hoperate := Mem.operate_numbers m.heap hlogical p q
    cases hv : arithmetic op p q with
    | ok v =>
      rw [hv] at hoperate
      exact .produces (hproduces hoperate) trivial
    | error c =>
      rw [hv] at hoperate
      exact .mem_error (hrun.trans (Mem.operateOn_error hoperate))
        (hE c (BinaryOp.isDivision_of_arithmetic hp hq hlogical hop hv))

theorem gives_assignment {op : AssignOp} {lhs rhs : Node} (hE : ∀ c, c.IsDivision → E (some c))
    (hl : Calm Conserves m (valueOf ev lhs) (NumberOf lty) E)
    (hr : ∀ m', m'.state = m.state → m.heap.Conserves m'.heap →
      Calm Conserves m' (valueOf ev rhs) (NumberOf rty) E)
    (hop : ∀ b, op = .compound b → b.isBitwise = true → lty.isIntegral = true ∧ rty.isIntegral = true) :
    Gives Conserves m (assignment ev op lhs rhs) (NumberOf lty) E := by
  have hassign {m : Machine} {t r : Ref} {p q : Primitive} (ht : m.heap.Number t p) (hp : p.Has lty)
      (hr : m.heap.Number r q) :
      Gives Conserves m (do liftM (assign t r); yield t) (NumberOf lty) E :=
    Gives.bind (calm_assign ht hp hr) fun _ _ _ _ ht' => gives_yield ht'
  refine Gives.bind hl ?_
  rintro t m₁ hs₁ hR₁ ⟨p, hp, ht⟩
  refine Gives.bind (hr m₁ hs₁ hR₁) ?_
  rintro r m₂ - hR₂ ⟨q, hq, hr⟩
  -- the source may have changed the target, but not its type
  obtain ⟨p, hp, ht⟩ := hR₂.has ht hp
  cases op with
  | assign => exact hassign ht hp hr
  | compound b =>
    refine Gives.bind (calm_binaryOperation hE ht hp hr hq (hop b rfl)) ?_
    rintro v m₃ - hR₃ ⟨w, -, hv⟩
    obtain ⟨p, hp, ht⟩ := hR₃.has ht hp
    exact hassign ht hp hv

end Eval

/-! ## Expressions -/

/-- The numeric expressions that can be built. -/
inductive NumericExpr where
  | int (n : Int64)
  | long (n : Int64)
  | double (x : Float)
  | chr (c : UInt8)
  | boolean (b : Bool)
  | id (name : String) (ty : Ty)
  | binary (op : BinaryOp) (l r : NumericExpr)
  | unary (op : UnaryOp) (x : NumericExpr)
  | postStep (op : StepOp) (x : NumericExpr)
  | ternary (c t f : NumericExpr)
  /-- plain assignment, or assignment through an operator -/
  | assign (op : AssignOp) (l r : NumericExpr)
  | cast (x : NumericExpr) (ty : Ty)
  | sizeOf (ty : Ty)

namespace NumericExpr

/-- The tree of an expression. -/
def node : NumericExpr → Node
  | int n => Build.int n
  | long n => Build.long n
  | double x => Build.double x
  | chr c => Build.chr c
  | boolean b => Build.boolean b
  | id name ty => Build.id name ty
  | binary op l r => Build.binary op l.node r.node
  | unary op x => Build.unary op x.node
  | postStep op x => Build.postStep op x.node
  | ternary c t f => Build.ternary c.node t.node f.node
  | assign op l r => Build.opAssign op l.node r.node
  | cast x ty => Build.cast x.node ty
  | sizeOf ty => Build.sizeOf ty

/-- The levels of nesting. -/
def height : NumericExpr → Nat
  | binary _ l r | assign _ l r => max l.height r.height + 1
  | unary _ x | postStep _ x | cast x _ => x.height + 1
  | ternary c t f => max c.height (max t.height f.height) + 1
  | _ => 1

theorem height_pos (x : NumericExpr) : 0 < x.height := by
  cases x <;> exact Nat.succ_pos _

/-- Names are used at the types at which they are known, conversions are to types
    of numbers, operators on bits have integers as operands, and sizes are of types
    in which no compound contains itself. -/
def Typed (p : Program) (vars : String → Ty → Prop) : NumericExpr → Prop
  | id name ty => vars name ty
  | binary op l r => l.Typed p vars ∧ r.Typed p vars ∧
      (op.isBitwise = true → l.node.ty.isIntegral = true ∧ r.node.ty.isIntegral = true)
  | unary op x => x.Typed p vars ∧ (op = .bitNot → x.node.ty.isIntegral = true)
  | postStep _ x => x.Typed p vars
  | ternary c t f => c.Typed p vars ∧ t.Typed p vars ∧ f.Typed p vars
  | assign op l r => l.Typed p vars ∧ r.Typed p vars ∧
      (∀ b, op = .compound b → b.isBitwise = true →
        l.node.ty.isIntegral = true ∧ r.node.ty.isIntegral = true)
  | cast x ty => x.Typed p vars ∧ ty.IsNumber
  | sizeOf ty => p.Founded ty
  | _ => True

section Types

variable {l r : Ty}

theorem isNumber_primitive {k : Kind} (hk : k ≠ .void) (u : Bool) : (Ty.primitive k u).IsNumber :=
  ⟨k, u, rfl, hk⟩

theorem isNumber_arithmeticType (hl : l.IsNumber) (hr : r.IsNumber) : (Build.arithmeticType l r).IsNumber := by
  obtain ⟨lk, lu, hl, -⟩ := hl
  obtain ⟨rk, ru, hr, -⟩ := hr
  unfold Build.arithmeticType
  rw [hl, hr]
  dsimp only
  split
  · rename_i hk
    refine isNumber_primitive ?_ _
    rintro h
    rw [h] at hk
    cases hk
  · refine isNumber_primitive ?_ _
    cases lk.max rk <;> decide

theorem isNumber_binaryType (op : BinaryOp) (hl : l.IsNumber) (hr : r.IsNumber) :
    (Build.binaryType op l r).IsNumber := by
  have hpointee {ty : Ty} (h : ty.IsNumber) : ty.pointee? = none := by
    obtain ⟨k, u, h, -⟩ := h
    unfold Ty.pointee?
    rw [Ty.unqualified_of_primitive? h]
  unfold Build.binaryType
  split
  · exact isNumber_primitive (by decide) _
  · rw [hpointee hl, hpointee hr]
    exact isNumber_arithmeticType hl hr

theorem isNumber_promotedType (hl : l.IsNumber) : (Build.promotedType l).IsNumber := by
  obtain ⟨k, u, hl, hk⟩ := hl
  unfold Build.promotedType
  rw [hl]
  dsimp only
  split
  · exact isNumber_primitive (by decide) _
  · rw [Ty.unqualified_of_primitive? hl]
    exact isNumber_primitive hk _

end Types

theorem isNumber_ty {program : Program} {vars : String → Ty → Prop}
    (hvars : ∀ name ty, vars name ty → ty.IsNumber) {x : NumericExpr} (hx : x.Typed program vars) : x.node.ty.IsNumber := by
  induction x with
  | int | long | double | chr | boolean | sizeOf => exact ⟨_, _, rfl, by decide⟩
  | id name ty => exact hvars name ty hx
  | binary op l r ihl ihr => exact isNumber_binaryType op (ihl hx.1) (ihr hx.2.1)
  | unary op x ih =>
    cases op with
    | not => exact isNumber_primitive (by decide) _
    | step s => exact ih hx.1
    | plus | neg | bitNot => exact isNumber_promotedType (ih hx.1)
  | postStep op x ih => exact ih hx
  | ternary c t f _ iht _ => exact iht hx.2.1
  | assign op l r ihl _ => exact ihl hx.1
  | cast x ty => exact hx.2

end NumericExpr

/-- The name is bound in the innermost frame to a number of the type, and does not
    mean the receiver instead. -/
def Machine.Holds (m : Machine) (name : String) (ty : Ty) : Prop :=
  (name = Eval.receiverName → m.state.receiver? = none) ∧
    ∃ r, m.state.lookup? name = some r ∧ Eval.NumberOf ty m.heap r

theorem Machine.Holds.isNumber {m : Machine} {name : String} {ty : Ty} (h : m.Holds name ty) :
    ty.IsNumber := by
  obtain ⟨-, r, -, p, hp, -⟩ := h
  exact hp.isNumber

theorem Machine.Holds.mono {m m' : Machine} {name : String} {ty : Ty} (h : m.Holds name ty)
    (hs : m'.state = m.state) (hh : m.heap.Conserves m'.heap) : m'.Holds name ty := by
  obtain ⟨hreceiver, r, hr, p, hp, hnumber⟩ := h
  exact ⟨hs ▸ hreceiver, r, hs ▸ hr, hh.has hnumber hp⟩

namespace NumericExpr

open Eval

theorem Typed.mono {program : Program} {vars vars' : String → Ty → Prop}
    (h : ∀ name ty, vars name ty → vars' name ty) {x : NumericExpr} (hx : x.Typed program vars) :
    x.Typed program vars' := by
  induction x with
  | int | long | double | chr | boolean => trivial
  | sizeOf => exact hx
  | id name ty => exact h name ty hx
  | binary op l r ihl ihr => exact ⟨ihl hx.1, ihr hx.2.1, hx.2.2⟩
  | unary op x ih => exact ⟨ih hx.1, hx.2⟩
  | postStep op x ih => exact ih hx
  | ternary c t f ihc iht ihf => exact ⟨ihc hx.1, iht hx.2.1, ihf hx.2.2⟩
  | assign op l r ihl ihr => exact ⟨ihl hx.1, ihr hx.2.1, hx.2.2⟩
  | cast x ty ih => exact ⟨ih hx.1, hx.2⟩

/-- Evaluation gives a number of the type of the node, or there is a division by
    zero. -/
theorem gives_node (e : Engine) (x : NumericExpr) {fuel : Nat} (hfuel : x.height ≤ fuel) {m : Machine}
    (hx : x.Typed e.program m.Holds) :
    Gives Heap.Conserves m (evaluate e fuel x.node) (NumberOf x.node.ty)
      fun c => ∃ d, c = some d ∧ d.IsDivision := by
  induction fuel generalizing x m with
  | zero => exact absurd hfuel (Nat.not_le.2 x.height_pos)
  | succ fuel ih =>
    refine gives_visit fun m₁ hs₁ hh₁ => ?_
    have hx₁ : x.Typed e.program m₁.Holds := hx.mono fun _ _ h => h.mono hs₁ (hh₁ ▸ .of_spares (.refl _))
    have hvalue {y : NumericExpr} (hheight : y.height ≤ fuel) (hy : y.Typed e.program m₁.Holds) (m₂ : Machine)
        (hs : m₂.state = m₁.state) (hh : m₁.heap.Conserves m₂.heap) :=
      (ih y hheight (hy.mono fun _ _ h => h.mono hs hh)).valueOf
    have hrefl : m₁.heap.Conserves m₁.heap := .of_spares (.refl _)
    have hty := isNumber_ty (fun _ _ => Machine.Holds.isNumber) hx₁
    unfold dispatch
    cases x with
    | int | long | double | chr =>
      exact gives_produces (Mem.produces_literal _ nofun) (Primitive.has_of rfl (by decide) _)
    | boolean => exact gives_produces (Mem.produces_alloc _ _) (Primitive.has_of rfl (by decide) _)
    | sizeOf ty =>
      refine gives_sizeOfType e (fun n _ => Primitive.has_of rfl (by decide) _) fun hnone => ?_
      have hsome := sizeOfTy_isSome_iff.2 hx₁
      rw [hnone] at hsome
      cases hsome
    | id name ty =>
      obtain ⟨hreceiver, r, hr, p, hp, hnumber⟩ := hx₁
      have hnamed := named_eq hreceiver
      rw [hr] at hnamed
      exact gives_identifier hnamed hnumber hp
    | binary op l r =>
      obtain ⟨hl, hr, hop⟩ := hx₁
      obtain ⟨hheightl, hheightr⟩ := Nat.max_le.1 (Nat.le_of_succ_le_succ hfuel)
      have hlogical (h : op.isLogical = true) : (binary op l r).node.ty = .int :=
        if_pos (by rw [h, Bool.or_true])
      refine gives_binary (M := fun _ p => p.Has r.node.ty) (hvalue hheightl hl m₁ rfl hrefl) ?_
        (fun _ m₂ hs hh _ _ => hvalue hheightr hr m₂ hs hh) ?_ ?_
      · intro p b _ hb
        have htruth : op.isLogical = true := by cases op <;> first | rfl | cases hb
        exact hlogical htruth ▸ Primitive.has_truth b
      · exact fun p q v _ _ _ hv => BinaryOp.has_applied hty hlogical hv
      · exact fun p q c hp _ hq hc => ⟨c, rfl, BinaryOp.isDivision_of_applied hp hq hop hc⟩
    | unary op y =>
      obtain ⟨hy, hop⟩ := hx₁
      have hoperand := hvalue (Nat.le_of_succ_le_succ hfuel) hy m₁ rfl hrefl
      by_cases hstep : ∃ s, op = .step s
      · obtain ⟨s, rfl⟩ := hstep
        exact gives_step hoperand
      · refine gives_signed (fun s h => hstep ⟨s, h⟩) hoperand (fun p q hp hq => hp.signed hty hq) ?_
        exact fun p c hp hc => absurd hc (hp.signed_ne_error hop c)
    | postStep op y => exact gives_postStep (hvalue (Nat.le_of_succ_le_succ hfuel) hx₁ m₁ rfl hrefl)
    | ternary c t f =>
      obtain ⟨hc, ht, hf⟩ := hx₁
      obtain ⟨hheightc, hheight⟩ := Nat.max_le.1 (Nat.le_of_succ_le_succ hfuel)
      obtain ⟨hheightt, hheightf⟩ := Nat.max_le.1 hheight
      refine gives_ternary (M := fun _ p => p.InRange) (hvalue hheightc hc m₁ rfl hrefl) ?_
        fun _ p _ hp => Primitive.has_conformed hty hp
      intro c m₂ hs hh _
      have hinRange {y : NumericExpr} (h : Calm Heap.Conserves m₂ (valueOf (evaluate e fuel) y.node)
          (NumberOf y.node.ty) fun c => ∃ d, c = some d ∧ d.IsDivision) :=
        h.mono (W := NumberIn (·.InRange)) (fun _ _ ⟨p, hp, hr⟩ => ⟨p, hp.inRange, hr⟩) fun _ h => h
      split
      · exact hinRange (hvalue hheightf hf m₂ hs hh)
      · exact hinRange (hvalue hheightt ht m₂ hs hh)
    | assign op l r =>
      obtain ⟨hl, hr, hop⟩ := hx₁
      obtain ⟨hheightl, hheightr⟩ := Nat.max_le.1 (Nat.le_of_succ_le_succ hfuel)
      exact gives_assignment (fun c hc => ⟨c, rfl, hc⟩) (hvalue hheightl hl m₁ rfl hrefl)
        (fun m₂ hs hh => hvalue hheightr hr m₂ hs hh) hop
    | cast y ty =>
      obtain ⟨hy, k, u, hty, hk⟩ := hx₁
      exact gives_convert hty hk (hvalue (Nat.le_of_succ_le_succ hfuel) hy m₁ rfl hrefl)
        fun p _ => Primitive.has_of hty hk _

/-- A numeric expression leaves exactly one operand, a number of the kind and
    signedness of its node, or there is a division by zero. The names that were
    bound to numbers still are, of the same types. -/
theorem evaluate_typed (e : Engine) (x : NumericExpr) {fuel : Nat} (hfuel : x.height ≤ fuel) (m : Machine)
    (hx : x.Typed e.program m.Holds) :
    ((∃ m' r p, evaluate e fuel x.node m = .ok .normal m' ∧ m'.state = m.state.push r ∧
        m'.heap.cell r = .primitive p ∧ p.ty = x.node.ty.unqualified) ∨
      ∃ f m', evaluate e fuel x.node m = .error (.fault f) m' ∧ f.cause.IsDivision) ∧
    ∀ name ty, m.Holds name ty → (leaves (evaluate e fuel x.node) m).Holds name ty := by
  have hgives := gives_node e x hfuel hx
  unfold Gives Ends at hgives
  unfold leaves
  cases hrun : evaluate e fuel x.node m with
  | ok o m' =>
    rw [hrun] at hgives
    obtain ⟨rfl, hR, r, hs, p, hp, hr⟩ := hgives
    refine ⟨.inl ⟨m', r, p, rfl, hs, hr.cell, hp.ty⟩, fun name ty h => ?_⟩
    obtain ⟨hreceiver, x, hx, q, hq, hnumber⟩ := h
    exact ⟨hs ▸ hreceiver, x, hs ▸ hx, hR.has hnumber hq⟩
  | error halt m' =>
    rw [hrun] at hgives
    obtain ⟨hs, hR, d, hd, hdivision⟩ := hgives
    refine ⟨.inr ?_, fun name ty h => h.mono hs hR⟩
    cases halt with
    | exhausted => cases hd
    | fault f => exact ⟨f, m', rfl, Option.some.inj hd ▸ hdivision⟩

/-- `c += u++ / 3` -/
def accumulate : NumericExpr :=
  .assign (.compound .add) (.id "c" .char)
    (.binary .div (.postStep .increment (.id "u" (.const (.primitive .short true)))) (.int 3))

/-- A `char` and an `unsigned short` that is about to overflow. -/
def charAndShort : Machine where
  heap := { cells := #[.primitive (.char 120), .primitive (.of .short true (.integral 65535))] }
  state := { frame := .ofList [("c", ⟨0⟩), ("u", ⟨1⟩)] }

/-- The sum wraps around in the kind of the target. -/
theorem accumulate_typed :
    accumulate.Typed bareEngine.program charAndShort.Holds ∧
    ∃ m' r p, evaluate bareEngine 9 accumulate.node charAndShort = .ok .normal m' ∧
      m'.state = charAndShort.state.push r ∧ m'.heap.cell r = .primitive p ∧ p.ty = .char := by
  have hc : charAndShort.Holds "c" .char :=
    ⟨nofun, ⟨0⟩, rfl, _, Primitive.has_of rfl (by decide) _, by decide, rfl⟩
  have hu : charAndShort.Holds "u" (.const (.primitive .short true)) :=
    ⟨nofun, ⟨1⟩, rfl, _, Primitive.has_of rfl (by decide) _, by decide, rfl⟩
  have htyped : accumulate.Typed bareEngine.program charAndShort.Holds :=
    ⟨hc, ⟨hu, trivial, nofun⟩, fun b hb hbit => by cases hb; cases hbit⟩
  have hok : outcome (evaluate bareEngine 9 accumulate.node) charAndShort = .ok .normal := by
    decide +kernel
  have hfuel : accumulate.height ≤ 9 := by decide
  refine ⟨htyped, ?_⟩
  rcases (evaluate_typed bareEngine accumulate hfuel charAndShort htyped).1 with h | h
  · exact h
  · obtain ⟨f, m', hrun, -⟩ := h
    rw [outcome, hrun] at hok
    cases hok

/-- Where a compound contains itself there is no number, however long it takes. -/
theorem sizeOf_endless (e : Engine) {ty : Ty} (hty : ¬ e.program.Founded ty) (fuel : Nat) (m : Machine) :
    outcome (evaluate e fuel (sizeOf ty).node) m = .error .exhausted := by
  have hnone : sizeOfTy e.program ty = none :=
    Option.not_isSome_iff_eq_none.1 (mt sizeOfTy_isSome_iff.1 hty)
  cases fuel with
  | zero => rfl
  | succ fuel =>
    have hsize : sizeOfType e ty = throw .exhausted := by
      unfold sizeOfType
      rw [hnone]
    show outcome (visit (sizeOf ty).node (sizeOfType e ty)) m = _
    rw [hsize]
    rfl

/-- A method of a `Box` with an `int` named `this`. -/
def shadowedReceiver : Machine where
  heap := {
    cells := #[.primitive (.int 5), .compound (.compound .class_ "Box") [],
      .pointer ⟨.compound .class_ "Box", ⟨0⟩, 0⟩]
    blocks := #[#[⟨1⟩]] }
  state := {
    frame := .ofList [("this", ⟨0⟩)]
    contexts := [some ⟨2⟩] }

/-- The name means the receiver all the same, which is no number. -/
theorem this_is_receiver :
    shadowedReceiver.state.lookup? "this" = some ⟨0⟩ ∧
    shadowedReceiver.heap.cell ⟨0⟩ = .primitive (.int 5) ∧
    outcome (evaluate bareEngine 9 (Build.id "this" .int)) shadowedReceiver = .ok .normal ∧
    (leaves (evaluate bareEngine 9 (Build.id "this" .int)) shadowedReceiver).state.values.items = [⟨2⟩] ∧
    (leaves (evaluate bareEngine 9 (Build.id "this" .int)) shadowedReceiver).heap.cell ⟨2⟩ =
      .pointer ⟨.compound .class_ "Box", ⟨0⟩, 0⟩ := by
  decide +kernel

end NumericExpr

end Treewalk
