/-
  Compound assignment and what it abbreviates.

  * `Operand.Declared p ty o`: the type `ty` of a node says of what kind its value
    `o` is, next to the number `p`;
  * `Machine.SameButNew m m'`: the machines are the same, but for at most one new
    value.

  `x op= e` and `x = x op e` do the same if evaluating `e` leaves `x` as it was and
  the type of `e` says of what kind its value is. Without the former they differ, as
  the long form reads `x` before it evaluates `e` and the short one after that;
  without the latter, as only the long form converts its result to the type of
  `x op e` before it is stored.
-/
import Treewalk.Proofs.Comparison
import Treewalk.Proofs.Integers
import Treewalk.Proofs.Outcome
import Treewalk.Proofs.Runs

namespace Treewalk

/-! ## Results on their way to a kind -/

/-- An operator that computes: it neither compares nor is logical. -/
def BinaryOp.Computes (op : BinaryOp) : Prop :=
  op.isComparison = false ∧ op.isLogical = false

/-- A number of a kind; floating kinds have a sign. -/
structure Primitive.Numeric (p : Primitive) : Prop where
  kind_ne : p.kind ≠ .void
  signed : p.kind.isFloating → p.unsigned = false

namespace Primitive

variable {p q : Primitive} {k k' : Kind}

theorem converted_of_integral {n : Int64} (hn : q.payload = .integral n) (hk : k.isIntegral) (u : Bool) :
    q.converted k u = ⟨k, u, .integral (wrap k u n)⟩ := by
  unfold converted of
  rw [hn]
  cases k <;> first | rfl | cases hk

/-- An integer that is converted to a wider kind first ends as the same. -/
theorem converted_converted {n : Int64} (hn : q.payload = .integral n) (hk : k.isIntegral) (hk' : k'.isIntegral)
    (hle : k.rank ≤ k'.rank) (u u' : Bool) : (q.converted k' u').converted k u = q.converted k u := by
  rw [converted_of_integral (congrArg payload (converted_of_integral hn hk' u')) hk, converted_of_integral hn hk,
    wrap_wrap hk hk' hle]

end Primitive

section Results

variable {op : BinaryOp} (hop : op.Computes)
include hop

theorem floatingArithmetic_computes {x y : Float} {k : Kind} {q : Primitive}
    (hq : floatingArithmetic op x y k = .ok q) : ∃ z, q = .of k false (.floating z) := by
  unfold floatingArithmetic at hq
  cases op with
  | add | sub | mul | div | mod => cases hq; exact ⟨_, rfl⟩
  | eq | ne | lt | le | gt | ge => cases hop.1
  | and | or => cases hop.2
  | _ => cases hq

theorem integralArithmetic_computes {u : Bool} {a b : Int64} {n : Option Int64}
    (hn : integralArithmetic op u a b = .ok n) : n.isSome := by
  unfold integralArithmetic at hn
  cases op with
  | add | sub | mul | bitAnd | bitOr | bitXor | shl => cases hn; rfl
  | div | mod =>
    dsimp only at hn
    split at hn
    · cases hn
    · split at hn <;> cases hn <;> rfl
  | shr =>
    dsimp only at hn
    split at hn <;> cases hn <;> rfl
  | eq | ne | lt | le | gt | ge => cases hop.1
  | and | or => cases hop.2

/-- What is computed in a floating kind is of that kind; in any other kind it is an
    integer. -/
theorem arithmetic_computes {l r q : Primitive} (hq : arithmetic op l r = .ok q) :
    ((commonKind l r).1.isFloating = true ∧ q.kind = (commonKind l r).1 ∧ q.unsigned = false ∧
      ∃ x, q.payload = .floating x) ∨
    ((commonKind l r).1.isFloating = false ∧ ∃ n, q.payload = .integral n) := by
  unfold arithmetic at hq
  generalize commonKind l r = c at hq ⊢
  obtain ⟨k, u⟩ := c
  dsimp only at hq ⊢
  cases hk : k.isFloating with
  | true =>
    rw [hk, if_pos rfl] at hq
    cases hx : floatingArithmetic op l.toDouble r.toDouble k with
    | error c => rw [hx] at hq; cases hq
    | ok q₀ =>
      obtain ⟨z, rfl⟩ := floatingArithmetic_computes hop hx
      have hfloating : (Primitive.of k false (.floating z)).isFloating = true := by
        cases k <;> first | rfl | cases hk
      rw [hx] at hq
      simp only [bind, Except.bind, hfloating, Bool.not_true, Bool.and_false] at hq
      cases hq
      refine .inl ⟨rfl, rfl, rfl, ?_⟩
      cases k <;> first | exact ⟨_, rfl⟩ | cases hk
  | false =>
    have hintegral (k' : Kind) (hk' : k'.isFloating = false) (u' : Bool) (n : Int64) :
        ∃ n', (Primitive.of k' u' (.integral n)).payload = .integral n' := by
      cases k' <;> first | exact ⟨_, rfl⟩ | cases hk'
    refine .inr ⟨rfl, ?_⟩
    rw [hk, if_neg Bool.false_ne_true] at hq
    cases hx : integralArithmetic op u (l.converted k u).toInt64 (r.converted k u).toInt64 with
    | error c => rw [hx] at hq; cases hq
    | ok n =>
      obtain ⟨n, rfl⟩ := Option.isSome_iff_exists.1 (integralArithmetic_computes hop hx)
      rw [hx] at hq
      simp only [bind, Except.bind, pure, Except.pure] at hq
      split at hq
      · cases hq
        obtain ⟨n', hn'⟩ := hintegral k hk u n
        unfold Primitive.converted
        rw [hn']
        exact hintegral .char rfl _ _
      · cases hq
        exact hintegral k hk u n

end Results

/-! ## What a node says of its value -/

/-- The type of a node says of what kind its value is, where that meets the number
    `p`. An absent value is of no kind and read as a zero of the kind of `p`. -/
def Operand.Declared (p : Primitive) (ty : Ty) : Operand → Prop
  | number q => ∃ u, ty.primitive? = some (q.kind, u)
  | absent => ∀ k u, ty.primitive? = some (k, u) → k.isFloating → p.kind.isFloating
  | pointer _ => True

/-- The type of a binary expression whose first operand is a number. -/
theorem binaryType_cases {op : BinaryOp} (hop : op.Computes) {ty rty : Ty} {lk k : Kind} {lu u : Bool}
    (hty : ty.primitive? = some (lk, lu)) (hk : (Build.binaryType op ty rty).primitive? = some (k, u)) :
    (rty.primitive? = none ∧ k = lk ∧ u = lu) ∨
    ∃ rk ru, rty.primitive? = some (rk, ru) ∧
      (if (lk.max rk).isFloating then k = lk.max rk ∧ u = false else k = (lk.max rk).max .int) := by
  have hpointee : ty.pointee? = none := by
    unfold Ty.pointee?
    rw [Ty.unqualified_of_primitive? hty]
  unfold Build.binaryType at hk
  rw [hop.1, hop.2, hpointee] at hk
  cases hr : rty.pointee? with
  | some target => rw [hr] at hk; cases hk
  | none =>
    rw [hr] at hk
    change (Build.arithmeticType ty rty).primitive? = some (k, u) at hk
    unfold Build.arithmeticType at hk
    rw [hty] at hk
    rcases hrk : rty.primitive? with _ | ⟨rk, ru⟩
    · rw [hrk] at hk
      cases hty.symm.trans hk
      exact .inl ⟨rfl, rfl, rfl⟩
    · rw [hrk] at hk
      refine .inr ⟨rk, ru, rfl, ?_⟩
      dsimp only at hk
      split at hk
      · rw [if_pos ‹_›]
        cases hk
        exact ⟨rfl, rfl⟩
      · rw [if_neg ‹_›]
        cases hk
        rfl

/-- Integral kinds meet in an integral kind that is no narrower. -/
theorem Kind.isIntegral_max {lk rk : Kind} (hl : lk ≠ .void) (hmax : (lk.max rk).isFloating = false) :
    lk.isIntegral ∧ ((lk.max rk).max .int).isIntegral ∧ lk.rank ≤ ((lk.max rk).max .int).rank := by
  revert hl hmax
  cases lk <;> cases rk <;> decide

theorem Kind.isFloating_max (lk rk : Kind) : (lk.max rk).isFloating = (lk.isFloating || rk.isFloating) := by
  cases lk <;> cases rk <;> rfl

theorem Kind.max_self (k : Kind) : k.max k = k := by
  cases k <;> rfl

/-- A floating kind that meets another stays, unless that is `double`. -/
theorem Kind.max_of_isFloating {lk : Kind} (hl : lk.isFloating) (rk : Kind) :
    lk.max rk = lk ∨ lk.max rk = .double := by
  revert hl
  cases lk <;> cases rk <;> decide

theorem isFloating_commonKind_eq (l r : Primitive) :
    (commonKind l r).1.isFloating = (l.kind.max r.kind).isFloating := by
  unfold commonKind
  generalize l.kind = lk
  generalize r.kind = rk
  cases lk <;> cases rk <;> rfl

theorem commonKind_of_isFloating {l r : Primitive} (hf : (l.kind.max r.kind).isFloating = true) :
    (commonKind l r).1 = l.kind.max r.kind := by
  unfold commonKind
  dsimp only
  rw [if_pos hf]

section Node

variable {op : BinaryOp} {p q result : Primitive} {ty rty : Ty} {k : Kind} {u : Bool}

/-- The second operand is, or is read as, the number `q`. -/
def ReadAs (p q : Primitive) (rty : Ty) : Prop :=
  (∃ u, rty.primitive? = some (q.kind, u)) ∨
    q.kind = p.kind ∧ ∀ k u, rty.primitive? = some (k, u) → k.isFloating → p.kind.isFloating

theorem arithmetic_of_operate {h : Heap} {o : Operand} (hop : op.Computes) (ho : o.Declared p rty)
    (hy : operate h op (.number p) o = .ok (.number result)) :
    ∃ q, arithmetic op p q = .ok result ∧ ReadAs p q rty := by
  have hnumber {q : Primitive} (hq : numberPair op p q = .ok (.number result)) :
      arithmetic op p q = .ok result := by
    unfold numberPair at hq
    cases harith : arithmetic op p q with
    | ok q' => rw [harith] at hq; cases hq; rfl
    | error c => rw [harith] at hq; cases hq
  cases o with
  | number q =>
    rw [Mem.operate_numbers h hop.2] at hy
    exact ⟨q, hnumber hy, .inl ho⟩
  | absent =>
    rw [operate_number_absent h hop.2] at hy
    exact ⟨_, hnumber hy, .inr ⟨rfl, ho⟩⟩
  | pointer s =>
    rw [operate_number_pointer h hop.2] at hy
    unfold pointerAndNumber at hy
    rw [hop.1, if_neg Bool.false_ne_true] at hy
    split at hy
    · cases hy
    · split at hy <;> cases hy

variable (hop : op.Computes) (hp : p.Numeric) (hty : ty.primitive? = some (p.kind, p.unsigned))
  (hq : ReadAs p q rty) (hresult : arithmetic op p q = .ok result)
  (hk : (Build.binaryType op ty rty).primitive? = some (k, u))
include hop hp hty hq hresult hk

/-- A result that the node has to convert is stored as if it had not been. -/
theorem converted_by_node (hne : ¬(result.kind = k ∧ result.unsigned = u)) :
    (result.converted k u).converted p.kind p.unsigned = result.converted p.kind p.unsigned := by
  rcases arithmetic_computes hop hresult with ⟨hf, hkind, hunsigned, x, hx⟩ | ⟨hf, n, hn⟩
  · rw [isFloating_commonKind_eq] at hf
    rw [commonKind_of_isFloating hf] at hkind
    -- there is something to convert only where a `float` meets an absent `double`
    have hdouble : k = .double := by
      rcases binaryType_cases hop hty hk with ⟨hnone, rfl, rfl⟩ | ⟨rk, ru, hrk, hcase⟩
      · rcases hq with ⟨_, hqk⟩ | ⟨hqk, -⟩
        · cases hnone.symm.trans hqk
        · rw [hqk, Kind.max_self] at hkind hf
          exact absurd ⟨hkind, hunsigned.trans (hp.signed hf).symm⟩ hne
      · rcases hq with ⟨_, hqk⟩ | ⟨hqk, -⟩
        · cases hrk.symm.trans hqk
          rw [if_pos hf] at hcase
          exact absurd ⟨hkind.trans hcase.1.symm, hunsigned.trans hcase.2.symm⟩ hne
        · rw [hqk, Kind.max_self] at hkind hf
          rw [if_pos (by rw [Kind.isFloating_max, hf]; rfl)] at hcase
          obtain ⟨rfl, rfl⟩ := hcase
          refine (Kind.max_of_isFloating hf rk).resolve_left fun hsame => ?_
          exact hne ⟨hkind.trans hsame.symm, hunsigned⟩
    unfold Primitive.converted Primitive.of
    rw [hx, hdouble]
    rfl
  · rw [isFloating_commonKind_eq] at hf
    have hwider : p.kind.isIntegral ∧ k.isIntegral ∧ p.kind.rank ≤ k.rank := by
      have hp' := (Kind.isIntegral_max hp.kind_ne hf).1
      rcases binaryType_cases hop hty hk with ⟨hnone, rfl, rfl⟩ | ⟨rk, ru, hrk, hcase⟩
      · exact ⟨hp', hp', Nat.le_refl _⟩
      · have hmax : (p.kind.max rk).isFloating = false := by
          rcases hq with ⟨_, hqk⟩ | ⟨-, hdeclared⟩
          · cases hrk.symm.trans hqk
            exact hf
          · rw [Kind.isFloating_max, Bool.or_eq_false_iff] at hf ⊢
            exact ⟨hf.1, Bool.eq_false_iff.2 fun hrf => absurd (hdeclared rk ru hrk hrf) (by simp [hf.1])⟩
        rw [hmax, if_neg Bool.false_ne_true] at hcase
        rw [hcase]
        exact Kind.isIntegral_max hp.kind_ne hmax
    exact Primitive.converted_converted hn hwider.1 hwider.2.1 hwider.2.2 _ _

end Node

/-! ## Runs of both forms -/

/-- The same machine, but for at most one new value. -/
def Machine.SameButNew (m m' : Machine) : Prop :=
  m' = m ∨ ∃ c, m' = { m with heap := (m.heap.alloc c).2 }

theorem Heap.setCell_alloc {h : Heap} {r : Ref} (hr : r.id < h.cells.size) (c d : Cell) :
    (h.alloc c).2.setCell r d = ((h.setCell r d).alloc c).2 := by
  have hcells : (h.cells.push c).setIfInBounds r.id d = (h.cells.setIfInBounds r.id d).push c := by
    apply Array.ext
    · simp
    · grind
  exact congrArg (Heap.mk · h.blocks h.layout) hcells

theorem Heap.flatten_of_pointer {h : Heap} {v : Ref} {s : Pointer} (hv : h.cell v = .pointer s) :
    h.flatten v = v := by
  unfold Heap.flatten
  rw [hv]

namespace Mem

variable {h : Heap} {v : Ref}

/-- A number is left alone by a node of its kind, and converted by any other. -/
theorem conformToNode_number {q : Primitive} (hv : h.Number v q) (ty : Ty) :
    conformToNode v ty h = .ok v h ∨
    ∃ k u, ty.primitive? = some (k, u) ∧ ¬(q.kind = k ∧ q.unsigned = u) ∧
      conformToNode v ty h = .ok ⟨h.cells.size⟩ (h.alloc (.primitive (q.converted k u))).2 := by
  unfold conformToNode
  rw [read_bind, hv.cell]
  rcases ty.primitive? with _ | ⟨k, u⟩
  · exact .inl rfl
  · by_cases hsame : q.kind = k ∧ q.unsigned = u
    · left
      cases k <;> first | rfl | (dsimp only; rw [if_pos hsame]; rfl)
    · cases k with
      | void => exact .inl rfl
      | _ =>
        refine .inr ⟨_, u, rfl, hsame, ?_⟩
        dsimp only
        rw [if_neg hsame]
        rfl

theorem conformToNode_pointer {s : Pointer} (hv : h.cell v = .pointer s) (ty : Ty) :
    conformToNode v ty h = .ok v h := by
  unfold conformToNode
  rw [read_bind, hv]
  rcases ty.primitive? with _ | ⟨k, u⟩
  · rfl
  · cases k <;> rfl

theorem operandOf_error {c : Cause} (hc : h.operand v = .error c) : operandOf v h = .error (.of c) h := by
  unfold operandOf
  rw [read_bind, hc]
  rfl

end Mem

section Alike

variable {ε σ α : Type} {x x' : EStateM ε σ α} {s s' t t' : σ} {P : σ → σ → Prop}

theorem Alike.of_eq (hx : x s = x' s') (hP : ∀ t, P t t) : Alike x s x' s' P := by
  constructor
  · unfold Treewalk.outcome
    rw [hx]
  · unfold Treewalk.leaves
    rw [hx]
    exact hP _

theorem Alike.of_ok {a : α} (hx : x s = .ok a t) (hx' : x' s' = .ok a t') (hP : P t t') : Alike x s x' s' P := by
  constructor
  · unfold Treewalk.outcome
    rw [hx, hx']
  · unfold Treewalk.leaves
    rw [hx, hx']
    exact hP

end Alike

namespace Eval

variable {e : Engine} {n : Nat} {op : BinaryOp} {x : String} {ty : Ty} {rhs : Node} {m m' : Machine}
  {target r : Ref} {p : Primitive}

/-- `x op= e` -/
abbrev shortForm (op : BinaryOp) (x : String) (ty : Ty) (rhs : Node) : Node :=
  Build.opAssign (.compound op) (Build.id x ty) rhs

/-- `x = x op e` -/
abbrev longForm (op : BinaryOp) (x : String) (ty : Ty) (rhs : Node) : Node :=
  Build.assign (Build.id x ty) (Build.binary op (Build.id x ty) rhs)

theorem binary_eq (hop : op.Computes) (ev : Evaluator) (ty : Ty) (lhs rhs : Node) :
    binary ev ty op lhs rhs = (do
      let left ← operandOf (← valueOf ev lhs)
      let right ← operandOf (← valueOf ev rhs)
      yieldAs ty (← operateOn op left right)) := by
  have hlogical := hop.2
  cases op <;> first | rfl | cases hlogical

section Forms

variable (hx : named m.state x = .ok target) (hp : m.heap.Number target p)
include hx hp

/-- An assignment to a name: what the name stands for is found first. -/
theorem run_assign (value : Node) :
    evaluate e (n + 2) (Build.assign (Build.id x ty) value) m =
      (do assign target (← valueOf (evaluate e (n + 1)) value); yield target : Eval Outcome) m := by
  refine (run_placed_none (assignment (evaluate e (n + 1)) .assign (Build.id x ty) value) m).trans ?_
  unfold assignment
  rw [run_bind (run_id hx ty), hp.flatten]
  rfl

/-- The first operand of an operator is read before the second is evaluated. -/
theorem run_operation (hop : op.Computes) :
    evaluate e (n + 2) (Build.binary op (Build.id x ty) rhs) m = (do
      let right ← operandOf (← valueOf (evaluate e (n + 1)) rhs)
      yieldAs (Build.binaryType op ty rhs.ty) (← operateOn op (.number p) right)) m := by
  refine (run_placed_none (binary (evaluate e (n + 1)) _ op (Build.id x ty) rhs) m).trans ?_
  rw [binary_eq hop, run_bind (run_id hx ty), hp.flatten, run_bind (run_mem (Mem.operandOf_number hp))]
  rfl

/-- The short form: what the name stands for is read when the other operand has
    been evaluated. -/
theorem run_short (hr : valueOf (evaluate e (n + 1)) rhs m = .ok r m') :
    evaluate e (n + 2) (shortForm op x ty rhs) m =
      (do assign target (← binaryOperation op target r); yield target : Eval Outcome) m' := by
  refine (run_placed_none (assignment (evaluate e (n + 1)) (.compound op) (Build.id x ty) rhs) m).trans ?_
  exact run_compound hx hp hr op ty

omit hp in
theorem run_short_error {halt : Halt} (hr : valueOf (evaluate e (n + 1)) rhs m = .error halt m') :
    evaluate e (n + 2) (shortForm op x ty rhs) m = .error halt m' := by
  refine (run_placed_none (assignment (evaluate e (n + 1)) (.compound op) (Build.id x ty) rhs) m).trans ?_
  unfold assignment
  rw [run_bind (run_id hx ty), run_bind_error hr]

section LongForm

variable (hop : op.Computes)
include hop

/-- The long form halts with its operation. -/
theorem run_long_of_error {halt : Halt}
    (hrun : (do
        let right ← operandOf (← valueOf (evaluate e (n + 1)) rhs)
        yieldAs (Build.binaryType op ty rhs.ty) (← operateOn op (.number p) right) : Eval Outcome) m =
      .error halt m') :
    evaluate e (n + 3) (longForm op x ty rhs) m = .error halt m' := by
  rw [run_assign hx hp, run_bind_error (run_valueOf_error ((run_operation hx hp hop).trans hrun))]

/-- The long form, once it has its result. -/
theorem run_long {o : Operand} {v w : Ref} {h₁ h₂ : Heap} (hr : valueOf (evaluate e (n + 1)) rhs m = .ok r m')
    (ho : m'.heap.operand r = .ok o) (hv : operateOn op (.number p) o m'.heap = .ok v h₁)
    (hw : conformToNode v (Build.binaryType op ty rhs.ty) h₁ = .ok w h₂) (hflat : h₂.flatten w = w) :
    evaluate e (n + 3) (longForm op x ty rhs) m =
      (do assign target w; yield target : Eval Outcome) { m' with heap := h₂ } := by
  let m₂ : Machine := { m' with heap := h₂ }
  have hoperation : evaluate e (n + 2) (Build.binary op (Build.id x ty) rhs) m =
      .ok .normal { m₂ with state := m₂.state.push w } := by
    rw [run_operation hx hp hop, run_bind hr, run_bind (run_mem (Mem.operandOf_eq ho)), run_bind (run_mem hv)]
    unfold yieldAs
    rw [run_bind (run_mem (m := { m' with heap := h₁ }) hw)]
    rfl
  have hdepth : m.state.valueDepth ≤ m'.state.valueDepth := valueDepth_le_of_valueOf hr
  rw [run_assign hx hp, run_bind (run_valueOf hoperation hdepth), hflat]

end LongForm

section Value

variable (hop : op.Computes) (hr : valueOf (evaluate e (n + 1)) rhs m = .ok r m')
  (htarget : m'.heap.Number target p)
include hop hr htarget

theorem forms_eq_of_operand_error {c : Cause} (hc : m'.heap.operand r = .error c) :
    evaluate e (n + 2) (shortForm op x ty rhs) m = evaluate e (n + 3) (longForm op x ty rhs) m := by
  have hshort : binaryOperation op target r m'.heap = .error (.of c) m'.heap := by
    unfold binaryOperation
    rw [run_bind (Mem.operandOf_number htarget), run_bind_error (Mem.operandOf_error hc)]
  rw [run_short hx hp hr, run_bind_error (run_mem_error hshort), run_long_of_error hx hp hop]
  rw [run_bind hr, run_bind_error (run_mem_error (Mem.operandOf_error hc))]

theorem forms_eq_of_operate_error {o : Operand} {c : Cause} (ho : m'.heap.operand r = .ok o)
    (hc : operate m'.heap op (.number p) o = .error c) :
    evaluate e (n + 2) (shortForm op x ty rhs) m = evaluate e (n + 3) (longForm op x ty rhs) m := by
  have hlong := Mem.operateOn_error hc
  have hshort := (Mem.binaryOperation_eq htarget.operand ho).trans hlong
  rw [run_short hx hp hr, run_bind_error (run_mem_error hshort), run_long_of_error hx hp hop]
  rw [run_bind hr, run_bind (run_mem (Mem.operandOf_eq ho)), run_bind_error (run_mem_error hlong)]

/-- A result that the node leaves as it is. -/
theorem forms_eq_of_unconverted {o : Operand} {v : Ref} {h : Heap} (ho : m'.heap.operand r = .ok o)
    (hv : operateOn op (.number p) o m'.heap = .ok v h)
    (hw : conformToNode v (Build.binaryType op ty rhs.ty) h = .ok v h) (hflat : h.flatten v = v) :
    evaluate e (n + 2) (shortForm op x ty rhs) m = evaluate e (n + 3) (longForm op x ty rhs) m := by
  have hshort := (Mem.binaryOperation_eq htarget.operand ho).trans hv
  rw [run_short hx hp hr, run_bind (run_mem hshort), run_long hx hp hop hr ho hv hw hflat]

/-- A number that the node converts is one more value on the heap. -/
theorem forms_alike_of_number {o : Operand} {result : Primitive} (hnumeric : p.Numeric)
    (hty : ty.primitive? = some (p.kind, p.unsigned)) (ho : m'.heap.operand r = .ok o)
    (hdeclared : o.Declared p rhs.ty) (hy : operate m'.heap op (.number p) o = .ok (.number result)) :
    Alike (evaluate e (n + 2) (shortForm op x ty rhs)) m (evaluate e (n + 3) (longForm op x ty rhs)) m
      Machine.SameButNew := by
  have hv : operateOn op (.number p) o m'.heap =
      .ok ⟨m'.heap.cells.size⟩ (m'.heap.alloc (.primitive result)).2 := operateOn_ok hy
  have hnew : (m'.heap.alloc (.primitive result)).2.Number ⟨m'.heap.cells.size⟩ result := .alloc ..
  rcases Mem.conformToNode_number hnew (Build.binaryType op ty rhs.ty) with hsame | ⟨k, u, hk, hne, hconverted⟩
  · exact .of_eq (forms_eq_of_unconverted hx hp hop hr htarget ho hv hsame hnew.flatten) fun _ => .inl rfl
  · obtain ⟨q, hresult, hq⟩ := arithmetic_of_operate hop hdeclared hy
    have hstored := converted_by_node hop hnumeric hty hq hresult hk hne
    have hoperation := (Mem.binaryOperation_eq htarget.operand ho).trans hv
    -- from here on both forms store a number that was just made, one of them a second one
    let m₁ : Machine := { m' with heap := (m'.heap.alloc (.primitive result)).2 }
    have htarget₁ : m₁.heap.Number target p := htarget.spared (.alloc ..)
    have hlong := run_long hx hp hop hr ho hv hconverted (Heap.Number.alloc ..).flatten
    rw [run_assign_new (m := m₁) htarget₁, hstored, Heap.setCell_alloc htarget₁.lt] at hlong
    have hshort : evaluate e (n + 2) (shortForm op x ty rhs) m = .ok .normal { m₁ with
        heap := m₁.heap.setCell target (.primitive (result.converted p.kind p.unsigned))
        state := m₁.state.push target } := by
      rw [run_short hx hp hr, run_bind (run_mem hoperation), run_assign_new htarget]
    exact .of_ok hshort hlong (.inr ⟨_, rfl⟩)

end Value

/-- `x op= e` does what `x = x op e` does if `e` leaves `x` as it was and its type
    says of what kind its value is. -/
theorem compound_abbreviates (hnumeric : p.Numeric) (hty : ty.primitive? = some (p.kind, p.unsigned))
    (hop : op.Computes)
    (hrhs : ∀ r m', valueOf (evaluate e n) rhs m = .ok r m' → m'.heap.Number target p ∧
      ∀ o, m'.heap.operand r = .ok o → o.Declared p rhs.ty) :
    Alike (evaluate e (n + 1) (shortForm op x ty rhs)) m (evaluate e (n + 2) (longForm op x ty rhs)) m
      Machine.SameButNew := by
  have hsame : ∀ t, Machine.SameButNew t t := fun _ => .inl rfl
  cases n with
  | zero =>
    -- neither form gets beyond naming its operands
    refine .of_eq ?_ hsame
    rw [run_assign hx hp]
    rfl
  | succ n =>
    cases hr : valueOf (evaluate e (n + 1)) rhs m with
    | error halt m' =>
      refine .of_eq ?_ hsame
      rw [run_short_error hx hr, run_long_of_error hx hp hop (run_bind_error hr)]
    | ok r m' =>
      obtain ⟨htarget, hdeclared⟩ := hrhs r m' hr
      cases ho : m'.heap.operand r with
      | error c => exact .of_eq (forms_eq_of_operand_error hx hp hop hr htarget ho) hsame
      | ok o =>
        cases hy : operate m'.heap op (.number p) o with
        | error c => exact .of_eq (forms_eq_of_operate_error hx hp hop hr htarget ho hy) hsame
        | ok y =>
          cases y with
          | number result => exact forms_alike_of_number hx hp hop hr htarget hnumeric hty ho (hdeclared o ho) hy
          | pointer s =>
            have hnew : (m'.heap.alloc (.pointer s)).2.cell ⟨m'.heap.cells.size⟩ = .pointer s :=
              Heap.cell_alloc_new ..
            exact .of_eq (forms_eq_of_unconverted hx hp hop hr htarget ho (operateOn_ok hy)
              (Mem.conformToNode_pointer hnew _) (Heap.flatten_of_pointer hnew)) hsame

end Forms

/-- Names of a `char`, an `int`, a `long`, and an array of doubles whose only element
    was released. -/
def mixed : Machine where
  heap := {
    cells := #[.primitive (.char 100), .primitive (.int 1), .primitive (.long 9007199254740993),
      .slot .double none, .array .double ⟨0⟩]
    blocks := #[#[⟨3⟩]] }
  state := { frame := .ofList [("c", ⟨0⟩), ("i", ⟨1⟩), ("l", ⟨2⟩), ("a", ⟨4⟩)] }

/-- The `char` takes part in `c + 100` as an `int`. -/
theorem mixed_abbreviates :
    Alike (evaluate noProgram 2 (shortForm .add "c" .char (Build.int 100))) mixed
      (evaluate noProgram 3 (longForm .add "c" .char (Build.int 100))) mixed Machine.SameButNew := by
  have hc : named mixed.state "c" = .ok ⟨0⟩ := rfl
  have hnumber : mixed.heap.Number ⟨0⟩ (.char 100) := ⟨by decide, rfl⟩
  refine compound_abbreviates hc hnumber ⟨by decide, fun h => by cases h⟩ rfl ⟨rfl, rfl⟩ fun r m' hr => ?_
  rw [run_int] at hr
  cases hr
  refine ⟨⟨by decide, rfl⟩, fun o ho => ?_⟩
  cases ho
  exact ⟨false, rfl⟩

/-- The number that a value is after an expression. -/
def numberAfter (node : Node) (r : Ref) : Option Primitive :=
  (leaves (evaluate noProgram 5 node) mixed).heap.primitive? r

/-- The forms differ in `i += i++`, which the long form makes `1 + 1`, and where an
    absent double is added: only the long form makes a double of the result. -/
theorem forms_differ :
    (numberAfter (shortForm .add "i" .int (Build.postStep .increment (Build.id "i" .int))) ⟨1⟩ = some (.int 3) ∧
      numberAfter (longForm .add "i" .int (Build.postStep .increment (Build.id "i" .int))) ⟨1⟩ = some (.int 2)) ∧
    let element := Build.index (Build.id "a" (.array .double (some 1))) (Build.int 0)
    numberAfter (shortForm .add "l" .long element) ⟨2⟩ = some (.long 9007199254740993) ∧
      numberAfter (longForm .add "l" .long element) ⟨2⟩ = some (.long 9007199254740992) :=
  ⟨⟨by decide +kernel, by decide +kernel⟩, by decide +kernel, by decide +kernel⟩

end Eval

end Treewalk
