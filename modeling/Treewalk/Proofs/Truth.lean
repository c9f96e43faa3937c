/-
  What it means for a value to hold.

  * `Heap.Testable h r`: the value can be tested, as all but compounds and numbers
    of kind `void` can;
  * `Heap.Hollow h r`: the value is an array that decays to a pointer that reads as
    null;
  * `Eval.Conditions e n c m m' b`: whatever tests the node `c` by itself, as the
    condition of a statement or expression or as an operand of `!`, `&&` and `||`,
    finds that it holds if `b` does;
  * `Eval.Comparisons e n c m m' b`: so does whatever tests it as an operand next to
    another, which is the comparison with zero and the compound assignment.

  All tests of a value agree, hollow arrays apart: a condition takes an array for
  true without looking at it, an operand has decayed to a pointer before it is tested.
-/
import Treewalk.Proofs.Comparison
import Treewalk.Proofs.Ranges
import Treewalk.Proofs.Runs

namespace Treewalk

/-! ## Values that can be tested -/

/-- A number of a kind, within its range. -/
def Primitive.Testable (p : Primitive) : Prop :=
  p.kind ≠ .void ∧ p.InRange

def Cell.Testable : Cell → Prop
  | .primitive p => p.Testable
  | .compound .. => False
  | _ => True

/-- The value can be tested. -/
def Heap.Testable (h : Heap) (r : Ref) : Prop :=
  (h.cell (h.flatten r)).Testable

/-- An array without elements, or with an empty slot for its first one. -/
def Heap.Hollow (h : Heap) (r : Ref) : Prop :=
  ∃ element b, h.cell (h.flatten r) = .array element b ∧ h.isNull ⟨element, b, 0⟩

def Operand.Testable : Operand → Prop
  | number p => p.Testable
  | _ => True

/-- A value that can be tested is a condition and an operand. -/
theorem Heap.Testable.reads {h : Heap} {r : Ref} (hr : h.Testable r) :
    ∃ b o, h.truthOf r = .ok b ∧ h.operand r = .ok o ∧ o.Testable ∧
      (h.Hollow r → b = true ∧ o.truth h = false) ∧ (¬h.Hollow r → o.truth h = b) := by
  unfold Heap.Testable at hr
  unfold Heap.truthOf Heap.operand Heap.Hollow
  cases hc : h.cell (h.flatten r) with
  | primitive p => rw [hc] at hr; exact ⟨_, _, rfl, rfl, hr, by simp, fun _ => rfl⟩
  | pointer p => exact ⟨_, _, rfl, rfl, trivial, by simp, fun _ => rfl⟩
  | slot ty content => exact ⟨_, _, rfl, rfl, trivial, by simp, fun _ => rfl⟩
  | array element b =>
    refine ⟨_, _, rfl, rfl, trivial, ?_, fun hn => ?_⟩
    · rintro ⟨element', b', heq, hnull⟩
      cases heq
      exact ⟨rfl, by simp [Operand.truth, hnull]⟩
    · have hnull : h.isNull ⟨element, b, 0⟩ = false := by
        cases hnull : h.isNull ⟨element, b, 0⟩ with
        | false => rfl
        | true => exact absurd ⟨element, b, rfl, hnull⟩ hn
      simp [Operand.truth, hnull]
  | compound ty fields => rw [hc] at hr; exact hr.elim

/-! ## The comparison with zero -/

/-- An integer in range is the same in the kind in which it meets an `int`. -/
theorem toInt64_converted_commonKind {k : Kind} (hk : k.isIntegral) {u : Bool} {n : Int64}
    (hlow : (k.bounds u).1 ≤ n.toInt) (hhigh : n.toInt ≤ (k.bounds u).2) (i : Int64) :
    ((⟨k, u, .integral n⟩ : Primitive).converted (commonKind ⟨k, u, .integral n⟩ (.int i)).1
      (commonKind ⟨k, u, .integral n⟩ (.int i)).2).toInt64 = n := by
  cases k with
  | char | short =>
    have hint : wrap .int false n = n := by
      refine wrap_of_bounds ?_ ?_ <;> cases u <;> simp only [Kind.bounds] at hlow hhigh ⊢ <;> omega
    exact hint
  | int =>
    have hint : wrap .int u n = n := wrap_of_bounds hlow hhigh
    cases u <;> exact hint
  | long => rfl
  | _ => cases hk

theorem integralOrder_eq_iff {u : Bool} {a b : Int64} : integralOrder u a b = .eq ↔ a = b := by
  unfold integralOrder
  cases u with
  | true =>
    rw [if_pos rfl, Std.LawfulEqOrd.compare_eq_iff_eq]
    exact ⟨congrArg UInt64.toInt64, congrArg Int64.toUInt64⟩
  | false => rw [if_neg (by decide), Std.LawfulEqOrd.compare_eq_iff_eq]

/-- A number differs from zero if it holds. -/
theorem arithmetic_ne_zero {p : Primitive} (hp : p.Testable) :
    arithmetic .ne p (.int 0) = .ok (.truth !p.isZero) := by
  obtain ⟨k, u, payload⟩ := p
  obtain ⟨hk, hr⟩ := hp
  rw [arithmetic_comparison rfl]
  cases payload with
  | floating x =>
    have hfloating : (commonKind ⟨k, u, .floating x⟩ (.int 0)).1.isFloating = true := by
      cases k <;> first | rfl | simp [Primitive.InRange, Kind.isFloating, Kind.isVoid] at hr hk
    have hzero : (Primitive.int 0).toDouble = 0 := by decide
    rw [if_pos hfloating, hzero]
    rfl
  | integral n =>
    obtain ⟨hnot, hb⟩ := hr
    have hintegral : k.isIntegral = true := by
      cases k <;> first | rfl | exact absurd rfl hk | cases hnot
    have hcommon : (commonKind ⟨k, u, .integral n⟩ (.int 0)).1.isFloating = false := by
      cases k <;> first | rfl | cases hnot
    have hb := hb (by cases k <;> first | rfl | exact absurd rfl hk)
    have hzero : ((Primitive.int 0).converted (commonKind ⟨k, u, .integral n⟩ (.int 0)).1
        (commonKind ⟨k, u, .integral n⟩ (.int 0)).2).toInt64 = 0 := by
      cases k <;> cases u <;> first | rfl | cases hintegral
    rw [hcommon, toInt64_converted_commonKind hintegral hb.1 hb.2, hzero]
    have hne : BinaryOp.ne.holds (integralOrder (commonKind ⟨k, u, .integral n⟩ (.int 0)).2 n 0) = !(n == 0) := by
      rw [Bool.eq_iff_iff]
      simp [BinaryOp.holds, integralOrder_eq_iff]
    rw [hne]
    rfl

/-- An operand differs from zero if it holds. -/
theorem operate_ne_zero (h : Heap) {o : Operand} (ho : o.Testable) :
    operate h .ne o (.number (.int 0)) = .ok (.truth (o.truth h)) := by
  cases o with
  | pointer p => rfl
  | number p =>
    rw [Mem.operate_numbers h rfl, arithmetic_ne_zero ho]
    rfl
  | absent => rfl

/-- A new number is no empty slot, so no pointer comes to read as null by it. -/
theorem Heap.isNull_alloc_number (h : Heap) (p : Primitive) (q : Pointer) :
    (h.alloc (.primitive p)).2.isNull q = h.isNull q := by
  have habsent : (h.alloc (.primitive p)).2.isAbsent = h.isAbsent := by
    funext x
    unfold isAbsent
    rw [cell_alloc]
    by_cases hx : x.id = h.cells.size
    · rw [if_pos hx, cell_of_le (Nat.le_of_eq hx.symm)]
      rfl
    · rw [if_neg hx]
  unfold isNull
  rw [habsent]
  rfl

theorem Operand.truth_alloc_number (h : Heap) (p : Primitive) (o : Operand) :
    o.truth (h.alloc (.primitive p)).2 = o.truth h := by
  cases o with
  | pointer q => exact congrArg (!·) (h.isNull_alloc_number p q)
  | number | absent => rfl

namespace Eval

/-! ## Tests of a value by itself -/

/-- What follows the body of a loop. -/
def Flow.followed (flow : Flow) (next : Eval Outcome) : Eval Outcome :=
  match flow with
  | .next => next
  | .exit outcome => return outcome

/-- The rest of a loop whose condition holds. -/
def entered (ev : Evaluator) (cond body : Node) (rounds : Nat) : Eval Outcome := do
  (afterBody (← execute ev body)).followed (whileLoop ev cond body rounds)

/-- From `m` the computation leaves the truth of `b` as an operand of `m'`, which is
    what evaluating the node that is tested makes of `m`. -/
def Says (x : Eval Outcome) (m m' : Machine) (b : Bool) : Prop :=
  ∃ v h, x m = .ok .normal { m' with heap := h, state := m'.state.push v } ∧ m'.heap.Spares h ∧
    h.Number v (.truth b)

/-- The tests of a node by itself: they find that it holds if `b` does. -/
structure Conditions (e : Engine) (n : Nat) (c : Node) (m m' : Machine) (b : Bool) : Prop where
  ite : ∀ t f, evaluate e (n + 1) (Build.ifElse c t f) m =
    placed c.location? (execute (evaluate e n) (bif b then t else f)) (m'.truncate m.state.valueDepth)
  whileLoop : ∀ body, evaluate e (n + 1) (Build.whileLoop c body) m =
    placed c.location? (bif b then entered (evaluate e n) c body (n - 1) else pure .normal)
      (m'.truncate m.state.valueDepth)
  ternary : ∀ t f, evaluate e (n + 1) (Build.ternary c t f) m =
    placed c.location? (valueOf (evaluate e n) (bif b then t else f) >>= yieldAs t.ty) m'
  not : Says (evaluate e (n + 1) (Build.unary .not c)) m m' !b
  and : Says (evaluate e (n + 1) (Build.binary .and c (Build.int 1))) m m' b
  or : Says (evaluate e (n + 1) (Build.binary .or c (Build.int 0))) m m' b

section Conditions

variable {e : Engine} {n : Nat} {ev : Evaluator} {c : Node} {m m' : Machine} {r : Ref} {b : Bool}

theorem whileLoop_succ (cond body : Node) (k : Nat) :
    whileLoop ev cond body (k + 1) =
      (do if ← holds ev cond then entered ev cond body k else return .normal) :=
  rfl

theorem run_truthOf (hb : m.heap.truthOf r = .ok b) : (liftM (truthOf r) : Eval Bool) m = .ok b m := by
  refine run_mem ?_
  unfold truthOf
  rw [Mem.read_bind, hb]
  rfl

theorem Says.placed {x : Eval Outcome} (hx : Says x m m' b) (l : Option Location) :
    Says (placed l x) m m' b := by
  obtain ⟨v, h, hx, hs, hv⟩ := hx
  exact ⟨v, h, run_placed_ok l hx, hs, hv⟩

/-- New values may be made before the truth is left. -/
theorem Says.of_run {x y : Eval Outcome} {h : Heap} (hx : x m = y { m' with heap := h })
    (hs : m'.heap.Spares h) (hy : Says y { m' with heap := h } { m' with heap := h } b) : Says x m m' b := by
  obtain ⟨v, h', hy, hs', hv⟩ := hy
  exact ⟨v, h', hx.trans hy, hs.trans hs', hv⟩

theorem says_yieldTruth (m : Machine) (b : Bool) : Says (yieldTruth b) m m b :=
  ⟨_, _, rfl, .alloc .., .alloc ..⟩

/-- A truth is an `int` already. -/
theorem says_yieldAs {v : Ref} (hv : m.heap.Number v (.truth b)) : Says (yieldAs .int v) m m b := by
  obtain ⟨v', h, hrun, hs, hv'⟩ := Mem.produces_conformToNode hv .int
  refine ⟨v', h, ?_, hs, by cases b <;> exact hv'⟩
  unfold yieldAs
  rw [run_bind (run_mem hrun)]
  rfl

variable (hc : valueOf ev c m = .ok r m') (hb : m'.heap.truthOf r = .ok b)
include hc hb

theorem run_holds : holds ev c m = .ok b (m'.truncate m.state.valueDepth) := by
  have hdropped : droppingOperands (valueOf ev c) m = .ok r (m'.truncate m.state.valueDepth) := by
    unfold droppingOperands bracket
    dsimp only [id]
    rw [hc]
  unfold holds
  rw [run_bind hdropped]
  exact run_truthOf hb

theorem run_conditional (t f : Node) :
    conditional ev c t (some f) m = execute ev (bif b then t else f) (m'.truncate m.state.valueDepth) := by
  unfold conditional
  rw [run_bind (run_holds hc hb)]
  cases b <;> rfl

theorem run_whileLoop (body : Node) (k : Nat) :
    whileLoop ev c body (k + 1) m =
      (bif b then entered ev c body k else pure .normal) (m'.truncate m.state.valueDepth) := by
  rw [whileLoop_succ, run_bind (run_holds hc hb)]
  cases b <;> rfl

theorem run_ternary (ty : Ty) (t f : Node) :
    ternary ev ty c t f m = (valueOf ev (bif b then t else f) >>= yieldAs ty) m' := by
  unfold ternary
  rw [run_bind hc, run_bind (run_truthOf hb)]
  cases b <;> rfl

theorem says_not : Says (unary ev .int .not c) m m' !b := by
  have hsigned : look? (signed .not · r) m' = .ok (.truth !b) m' := by
    unfold look? signed
    dsimp only
    rw [hb]
    rfl
  refine .of_run ?_ (.alloc m'.heap (.primitive (.truth !b))) (says_yieldAs (.alloc ..))
  unfold unary
  rw [run_bind hc]
  dsimp only
  rw [run_bind hsigned, run_alloc]

/-- The second operand decides if the first does not. -/
theorem says_and {rhs : Node} {t : Bool} (ht : Says (do yieldTruth (← truthOf (← valueOf ev rhs))) m' m' t)
    (ty : Ty) : Says (binary ev ty .and c rhs) m m' (b && t) := by
  have hrun : binary ev ty .and c rhs m =
      (bif b then (do yieldTruth (← truthOf (← valueOf ev rhs))) else yieldTruth false) m' := by
    unfold binary
    rw [run_bind hc]
    dsimp only
    rw [run_bind (run_truthOf hb)]
    cases b <;> rfl
  cases b with
  | true => exact .of_run hrun (.refl _) ht
  | false => exact .of_run hrun (.refl _) (says_yieldTruth _ false)

theorem says_or {rhs : Node} {t : Bool} (ht : Says (do yieldTruth (← truthOf (← valueOf ev rhs))) m' m' t)
    (ty : Ty) : Says (binary ev ty .or c rhs) m m' (b || t) := by
  have hrun : binary ev ty .or c rhs m =
      (bif b then yieldTruth true else (do yieldTruth (← truthOf (← valueOf ev rhs)))) m' := by
    unfold binary
    rw [run_bind hc]
    dsimp only
    rw [run_bind (run_truthOf hb)]
    cases b <;> rfl
  cases b with
  | true => exact .of_run hrun (.refl _) (says_yieldTruth _ true)
  | false => exact .of_run hrun (.refl _) ht

end Conditions

theorem says_int (e : Engine) (k : Nat) (m : Machine) {i : Int64} {t : Bool}
    (ht : (!(Primitive.int i).isZero) = t) :
    Says (do yieldTruth (← truthOf (← valueOf (evaluate e (k + 1)) (Build.int i)))) m m t := by
  have hi : (m.heap.alloc (.primitive (.int i))).2.truthOf ⟨m.heap.cells.size⟩ = .ok t :=
    ht ▸ (Heap.Number.alloc m.heap (.int i)).truthOf
  refine .of_run ?_ (.alloc m.heap (.primitive (.int i))) (says_yieldTruth _ t)
  rw [run_bind (run_int i), run_bind (run_truthOf (m := { m with heap := _ }) hi)]

theorem conditions_of_truthOf {e : Engine} {k : Nat} {c : Node} {m m' : Machine} {r : Ref} {b : Bool}
    (hc : valueOf (evaluate e (k + 1)) c m = .ok r m') (hb : m'.heap.truthOf r = .ok b) :
    Conditions e (k + 1) c m m' b where
  ite t f := run_placed c.location? (run_conditional hc hb t f)
  whileLoop body := run_placed c.location? (run_whileLoop hc hb body k)
  ternary t f := run_placed c.location? (run_ternary hc hb t.ty t f)
  not := (says_not hc hb).placed _
  and := by
    have hand := says_and hc hb (says_int e k m' (i := 1) (t := true) rfl) .int
    rw [Bool.and_true] at hand
    exact hand.placed _
  or := by
    have hor := says_or hc hb (says_int e k m' (i := 0) (t := false) rfl) .int
    rw [Bool.or_false] at hor
    exact hor.placed _

/-! ## Tests of a value as an operand -/

/-- The tests of a node next to another operand: they find that it holds if `b`
    does. The name `x` stands for one when the node has been evaluated. -/
structure Comparisons (e : Engine) (n : Nat) (c : Node) (m m' : Machine) (b : Bool) : Prop where
  ne : Says (evaluate e (n + 1) (Build.binary .ne c (Build.int 0))) m m' b
  andAssign : ∀ x ty target p, named m.state x = .ok target → m.heap.Number target p →
    m'.heap.Number target (.int 1) →
    ∃ h, evaluate e (n + 1) (Build.opAssign (.compound .and) (Build.id x ty) c) m =
      .ok .normal { m' with heap := h, state := m'.state.push target } ∧ h.Number target (.truth b)

section Comparisons

variable {e : Engine} {k : Nat} {c : Node} {m m' : Machine} {r : Ref} {o : Operand}
  (hc : valueOf (evaluate e (k + 1)) c m = .ok r m') (ho : m'.heap.operand r = .ok o)
include hc ho

theorem says_ne_zero (hto : o.Testable) :
    Says (binary (evaluate e (k + 1)) .int .ne c (Build.int 0)) m m' (o.truth m'.heap) := by
  -- the operand has been read before zero is made, and is as true as before
  let h₁ := (m'.heap.alloc (.primitive (.int 0))).2
  have hzero : h₁.Number ⟨m'.heap.cells.size⟩ (.int 0) := .alloc ..
  have hne : operate h₁ .ne o (.number (.int 0)) = .ok (.truth (o.truth m'.heap)) := by
    rw [operate_ne_zero h₁ hto, o.truth_alloc_number]
  obtain ⟨v, h, hv, hs, hnumber⟩ := Mem.produces_operateOn hne
  refine .of_run ?_ ((Heap.Spares.alloc ..).trans hs) (says_yieldAs hnumber)
  unfold binary
  rw [run_bind hc]
  dsimp only
  rw [run_bind (run_mem (Mem.operandOf_eq ho)), run_bind (run_int 0),
    run_bind (run_mem (m := { m' with heap := h₁ }) (Mem.operandOf_number hzero)),
    run_bind (run_mem (m := { m' with heap := h₁ }) hv)]

theorem run_andAssign {x : String} {target : Ref} {p : Primitive} (hx : named m.state x = .ok target)
    (hp : m.heap.Number target p) (hone : m'.heap.Number target (.int 1)) (ty : Ty) :
    ∃ h, assignment (evaluate e (k + 1)) (.compound .and) (Build.id x ty) c m =
      .ok .normal { m' with heap := h, state := m'.state.push target } ∧
      h.Number target (.truth (o.truth m'.heap)) := by
  let answer := Primitive.truth (o.truth m'.heap)
  have hand : binaryOperation .and target r m'.heap =
      .ok ⟨m'.heap.cells.size⟩ (m'.heap.alloc (.primitive answer)).2 :=
    (Mem.binaryOperation_eq hone.operand ho).trans (operateOn_ok (y := .number answer) rfl)
  refine ⟨_, ?_, (hone.spared (.alloc m'.heap (.primitive answer))).setCell answer⟩
  rw [run_compound hx hp hc, run_bind (run_mem hand), run_assign_new hone]
  unfold answer
  cases o.truth m'.heap <;> rfl

end Comparisons

/-- All tests of a value agree, unless it is a hollow array: that is true as a
    condition and false as an operand. -/
theorem tests_agree {e : Engine} {n : Nat} {c : Node} {m m' : Machine} {r : Ref}
    (hc : valueOf (evaluate e n) c m = .ok r m') (hr : m'.heap.Testable r) :
    ∃ b, Conditions e n c m m' b ∧
      (m'.heap.Hollow r → b = true ∧ Comparisons e n c m m' false) ∧
      (¬m'.heap.Hollow r → Comparisons e n c m m' b) := by
  cases n with
  | zero => cases hc
  | succ k =>
    obtain ⟨b, o, hb, ho, hto, hhollow, hsolid⟩ := hr.reads
    have hcomparisons : Comparisons e (k + 1) c m m' (o.truth m'.heap) :=
      ⟨(says_ne_zero hc ho hto).placed _, fun x ty target p hx hp hone => by
        obtain ⟨h, hrun, htarget⟩ := run_andAssign hc ho hx hp hone ty
        exact ⟨h, run_placed_ok none hrun, htarget⟩⟩
    refine ⟨b, conditions_of_truthOf hc hb, fun hh => ?_, fun hh => ?_⟩
    · obtain ⟨hb, ho⟩ := hhollow hh
      exact ⟨hb, ho ▸ hcomparisons⟩
    · exact hsolid hh ▸ hcomparisons

/-- Two names: `a` of an array whose only element was released, and `p` of a pointer
    to the element. -/
def afterFree : Machine where
  heap := { cells := #[.slot .int none, .array .int ⟨0⟩, .pointer ⟨.int, ⟨0⟩, 0⟩], blocks := #[#[⟨0⟩]] }
  state := { frame := .ofList [("a", ⟨1⟩), ("p", ⟨2⟩)] }

/-- All tests of the pointer agree; the array is hollow. -/
theorem afterFree_tests_agree :
    (∃ b, Conditions noProgram 1 (Build.id "p" (.pointer .int)) afterFree afterFree b ∧
      Comparisons noProgram 1 (Build.id "p" (.pointer .int)) afterFree afterFree b) ∧
    Conditions noProgram 1 (Build.id "a" (.array .int (some 1))) afterFree afterFree true ∧
      Comparisons noProgram 1 (Build.id "a" (.array .int (some 1))) afterFree afterFree false := by
  obtain ⟨b, hpointer, -, hsolid⟩ :=
    tests_agree (e := noProgram) (n := 1) (c := Build.id "p" (.pointer .int)) (m := afterFree) rfl trivial
  obtain ⟨b', harray, hhollow, -⟩ :=
    tests_agree (e := noProgram) (n := 1) (c := Build.id "a" (.array .int (some 1))) (m := afterFree) rfl trivial
  have hpointer' : ¬afterFree.heap.Hollow ⟨2⟩ := by
    rintro ⟨_, _, heq, -⟩
    cases heq
  obtain ⟨rfl, harray'⟩ := hhollow ⟨.int, ⟨0⟩, rfl, rfl⟩
  exact ⟨⟨b, hpointer, hsolid hpointer'⟩, harray, harray'⟩

/-- The array holds, but does not differ from zero. -/
theorem freed_array_holds_yet_zero :
    Says (evaluate noProgram 2 (Build.binary .and (Build.id "a" (.array .int (some 1))) (Build.int 1)))
      afterFree afterFree true ∧
    Says (evaluate noProgram 2 (Build.binary .ne (Build.id "a" (.array .int (some 1))) (Build.int 0)))
      afterFree afterFree false := by
  have ha : valueOf (evaluate noProgram 1) (Build.id "a" (.array .int (some 1))) afterFree =
      .ok ⟨1⟩ afterFree := rfl
  exact ⟨(conditions_of_truthOf ha rfl).and, (says_ne_zero ha rfl trivial).placed _⟩

end Eval

end Treewalk
