/-
  Evaluating nodes that give numbers.

  * `Heap.Number h r p`: the value `r` is there, and it is the number `p`;
  * `Heap.Spares h h'`: values were added, and those that were there are as they
    were; `Heap.Sparing R`: a preorder that allows for this;
  * `Mem.Produces x h p`: on `h` the operation `x` gives the number `p`, sparing all
    values;
  * `Eval.Calm R m x V E`: from `m` the computation `x` leaves the state alone and
    does to the heap what `R` allows; its result is as `V` says, or it halts for a
    reason in `E`;
  * `Eval.Gives R m x V E`: the same, the result being left as an operand.

  For each operator there is one lemma on `Gives`: what it takes to give a number
  in a set `Q`, in terms of the numbers that its operands give.
-/
import Treewalk.Proofs.Frames

namespace Treewalk

/-! ## Numbers on the heap -/

namespace Heap

/-- Every value that was there is as it was. -/
structure Spares (h h' : Heap) : Prop where
  cells_le : h.cells.size ≤ h'.cells.size
  cell : ∀ r, r.id < h.cells.size → h'.cell r = h.cell r

/-- A preorder that allows for new values. -/
class Sparing (R : Heap → Heap → Prop) : Prop extends Std.Refl R, IsTrans Heap R where
  of_spares : ∀ {h h' : Heap}, h.Spares h' → R h h'

/-- The value is there, and it is a number. -/
structure Number (h : Heap) (r : Ref) (p : Primitive) : Prop where
  lt : r.id < h.cells.size
  cell : h.cell r = .primitive p

namespace Spares

variable {h h' h'' : Heap}

theorem refl (h : Heap) : h.Spares h :=
  ⟨Nat.le_refl _, fun _ _ => rfl⟩

theorem trans (hh : h.Spares h') (hh' : h'.Spares h'') : h.Spares h'' :=
  ⟨hh.cells_le.trans hh'.cells_le, fun r hr =>
    (hh'.cell r (hr.trans_le hh.cells_le)).trans (hh.cell r hr)⟩

theorem alloc (h : Heap) (c : Cell) : h.Spares (h.alloc c).2 :=
  ⟨by simp, fun _ hr => cell_alloc_of_lt c hr⟩

end Spares

instance : Sparing Spares where
  refl := .refl
  trans := fun _ _ _ => .trans
  of_spares := id

namespace Number

variable {h h' : Heap} {r : Ref} {p : Primitive}

theorem spared (hr : h.Number r p) (hh : h.Spares h') : h'.Number r p :=
  ⟨hr.lt.trans_le hh.cells_le, (hh.cell r hr.lt).trans hr.cell⟩

theorem alloc (h : Heap) (p : Primitive) : (h.alloc (.primitive p)).2.Number ⟨h.cells.size⟩ p :=
  ⟨by simp, by rw [cell_alloc, if_pos rfl]⟩

theorem setCell (hr : h.Number r p) (q : Primitive) : (h.setCell r (.primitive q)).Number r q :=
  ⟨(cells_size_setCell ..).symm ▸ hr.lt, by rw [cell_setCell, if_pos ⟨rfl, hr.lt⟩]⟩

theorem setCell_of_ne (hr : h.Number r p) {x : Ref} (hx : r ≠ x) (c : Cell) : (h.setCell x c).Number r p :=
  ⟨(cells_size_setCell ..).symm ▸ hr.lt, (cell_setCell_of_ne _ _ hx).trans hr.cell⟩

theorem flatten (hr : h.Number r p) : h.flatten r = r := by
  unfold Heap.flatten
  rw [hr.cell]

theorem truthOf (hr : h.Number r p) : h.truthOf r = .ok (!p.isZero) := by
  unfold Heap.truthOf
  rw [hr.flatten, hr.cell]

theorem operand (hr : h.Number r p) : h.operand r = .ok (.number p) := by
  unfold Heap.operand
  rw [hr.flatten, hr.cell]

theorem promoted (hr : h.Number r p) : h.promoted r = .ok p.promoted := by
  unfold Heap.promoted primitive?
  rw [hr.flatten, hr.cell]

end Number

end Heap

/-! ## Operations on numbers -/

theorem Ty.unqualified_of_primitive? {ty : Ty} {k : Kind} {u : Bool}
    (h : ty.primitive? = some (k, u)) : ty.unqualified = .primitive k u := by
  unfold primitive? at h
  split at h
  · cases h; assumption
  · cases h

/-- A type of numbers, `void` apart. -/
def Ty.IsNumber (ty : Ty) : Prop :=
  ∃ k u, ty.primitive? = some (k, u) ∧ k ≠ .void

/-- The number as the value of a node of the given type. -/
def Primitive.conformed (p : Primitive) (ty : Ty) : Primitive :=
  match ty.primitive? with
  | some (.void, _) => p
  | some (k, u) => if p.kind = k ∧ p.unsigned = u then p else p.converted k u
  | none => p

/-- The number that a sign, complement or negation makes. -/
def Primitive.signed (op : UnaryOp) (p : Primitive) : Except Cause Primitive :=
  match op with
  | .not => .ok (.truth p.isZero)
  | .neg => .ok p.promoted.negated
  | .bitNot => p.promoted.complemented
  | _ => .ok p.promoted

/-- What the first operand alone decides. -/
def BinaryOp.decidedBy (op : BinaryOp) (l : Primitive) : Option Bool :=
  match op with
  | .and => if l.isZero then some false else none
  | .or => if l.isZero then none else some true
  | _ => none

/-- The value of a node of the given type whose first operand does not decide. -/
def BinaryOp.applied (op : BinaryOp) (ty : Ty) (l r : Primitive) : Except Cause Primitive :=
  if op.isLogical then .ok (.truth !r.isZero) else (arithmetic op l r).map (·.conformed ty)

/-- The number that a literal stands for. -/
def Literal.number (ty : Ty) (l : Literal) : Primitive :=
  match ty.primitive? with
  | some (.void, _) | none => .of (Eval.naturalKind l) false (Eval.literalPayload l)
  | some (k, u) => .of k u (Eval.literalPayload l)

namespace Mem

/-- The operation gives a number, and spares all values. -/
def Produces (x : Mem Ref) (h : Heap) (p : Primitive) : Prop :=
  ∃ r h', x h = .ok r h' ∧ h.Spares h' ∧ h'.Number r p

variable {h : Heap} {r : Ref} {p : Primitive}

theorem produces_alloc (h : Heap) (p : Primitive) : (alloc (.primitive p)).Produces h p :=
  ⟨_, _, rfl, .alloc h _, .alloc h p⟩

theorem produces_conformToNode (hr : h.Number r p) (ty : Ty) :
    (conformToNode r ty).Produces h (p.conformed ty) := by
  unfold Produces conformToNode Primitive.conformed
  rw [read_bind, hr.cell]
  have hself : ∃ r' h', (pure r : Mem Ref) h = .ok r' h' ∧ h.Spares h' ∧ h'.Number r' p :=
    ⟨r, h, rfl, .refl h, hr⟩
  rcases ty.primitive? with _ | ⟨k, u⟩
  · exact hself
  · cases k with
    | void => exact hself
    | _ =>
      dsimp only
      split
      · exact hself
      · exact produces_alloc h _

theorem produces_castTo (hr : h.Number r p) {ty : Ty} {k : Kind} {u : Bool}
    (hty : ty.primitive? = some (k, u)) (hk : k ≠ .void) :
    (castTo r ty).Produces h (p.converted k u) := by
  have hcasted : h.casted (h.cell (h.flatten r)) ty = .ok (.cell (.primitive (p.converted k u))) := by
    rw [hr.flatten, hr.cell]
    unfold Heap.casted
    rw [Ty.unqualified_of_primitive? hty]
    cases k <;> first | rfl | exact absurd rfl hk
  unfold Produces castTo
  rw [read_bind, hcasted]
  exact produces_alloc h _

/-- A number has no parts to copy. -/
theorem produces_copy (hr : h.Number r p) : (copy r).Produces h p := by
  unfold Produces copy
  rw [read_bind]
  unfold Heap.levels copyWithin
  rw [read_bind, hr.cell]
  exact produces_alloc h p

/-- A number is stored into another by conversion to the kind of the other. -/
theorem assign_number {t s : Ref} {q : Primitive} (ht : h.Number t p) (hs : h.Number s q) (hne : t ≠ s) :
    assign t s h = .ok () (h.setCell t (.primitive (q.converted p.kind p.unsigned))) := by
  have hwithin (fuel : Nat) : assignWithin (fuel + 1) t s h =
      .ok () (h.setCell t (.primitive (q.converted p.kind p.unsigned))) := by
    unfold assignWithin
    rw [read_bind, hs.flatten, if_neg hne, read_bind, ht.cell]
    dsimp only
    rw [read_bind, hs.cell]
    rfl
  exact hwithin (2 * h.cells.size + 1)

theorem assign_self (hr : h.Number r p) : assign r r h = .ok () h := by
  have hwithin (fuel : Nat) : assignWithin (fuel + 1) r r h = .ok () h := by
    unfold assignWithin
    rw [read_bind, hr.flatten, if_pos rfl]
    rfl
  exact hwithin (2 * h.cells.size + 1)

theorem zeroValue?_unqualified (program : Program) (ty : Ty) :
    zeroValue? program ty = zeroValue? program ty.unqualified := by
  induction ty with
  | const inner ih => exact ih
  | _ => rfl

/-- The zero of a type of numbers. -/
theorem createValue_eq (program : Program) {ty : Ty} {k : Kind} {u : Bool}
    (hty : ty.primitive? = some (k, u)) (hk : k ≠ .void) :
    createValue program ty = alloc (.primitive (.zero k u)) := by
  unfold createValue
  rw [zeroValue?_unqualified, Ty.unqualified_of_primitive? hty]
  cases k <;> first | rfl | exact absurd rfl hk

theorem produces_initialValue (e : Engine) (hr : h.Number r p) {ty : Ty} {k : Kind} {u : Bool}
    (hty : ty.primitive? = some (k, u)) (hk : k ≠ .void) :
    (Eval.initialValue e ty r).Produces h (p.converted k u) := by
  -- only the new cell is written, so that all others are as they were
  let h₁ := (h.alloc (.primitive (.zero k u))).2
  let fresh : Ref := ⟨h.cells.size⟩
  have hfresh : h₁.Number fresh (.zero k u) := .alloc h _
  have hne : fresh ≠ r := fun heq => Nat.lt_irrefl _ (heq ▸ hr.lt)
  have hspares : h.Spares h₁ := .alloc h _
  have hrun : Eval.initialValue e ty r h = .ok fresh (h₁.setCell fresh (.primitive (p.converted k u))) := by
    unfold Eval.initialValue
    rw [Ty.unqualified_of_primitive? hty, createValue_eq e.program hty hk]
    change (assign fresh r >>= fun _ => pure fresh) h₁ = _
    simp only [bind, EStateM.bind, assign_number hfresh (hr.spared hspares) hne]
    rfl
  refine ⟨_, _, hrun, ⟨?_, fun x hx => ?_⟩, hfresh.setCell _⟩
  · rw [Heap.cells_size_setCell]
    exact hspares.cells_le
  · have hx' : x ≠ fresh := fun heq => Nat.lt_irrefl _ (heq ▸ hx)
    rw [Heap.cell_setCell_of_ne _ _ hx']
    exact hspares.cell x hx

/-- A literal stands for a number unless it is a null pointer. -/
theorem produces_literal (h : Heap) {ty : Ty} {l : Literal}
    (hl : ty.isPointer = true → (Eval.literalPayload l).beq (.integral 0) = false) :
    (Eval.literal ty l).Produces h (l.number ty) := by
  unfold Eval.literal Literal.number Ty.primitive?
  unfold Ty.isPointer at hl
  cases hty : ty.unqualified with
  | primitive k u => cases k <;> exact produces_alloc h _
  | pointer target =>
    rw [hty] at hl
    dsimp only
    rw [hl rfl]
    exact produces_alloc h _
  | _ => exact produces_alloc h _

theorem truthOf_number (hr : h.Number r p) : truthOf r h = .ok (!p.isZero) h := by
  unfold truthOf
  rw [read_bind, hr.truthOf]
  rfl

theorem operandOf_eq {o : Operand} (ho : h.operand r = .ok o) : operandOf r h = .ok o h := by
  unfold operandOf
  rw [read_bind, ho]
  rfl

theorem operandOf_number (hr : h.Number r p) : operandOf r h = .ok (.number p) h :=
  operandOf_eq hr.operand

theorem binaryOperation_eq {op : BinaryOp} {a b : Ref} {l r : Operand} (ha : h.operand a = .ok l)
    (hb : h.operand b = .ok r) : binaryOperation op a b h = operateOn op l r h := by
  simp only [binaryOperation, bind, EStateM.bind, operandOf_eq ha, operandOf_eq hb]

theorem operate_numbers (h : Heap) {op : BinaryOp} (hop : op.isLogical = false) (l r : Primitive) :
    operate h op (.number l) (.number r) = (arithmetic op l r).map .number := by
  cases op <;> first | rfl | cases hop

theorem produces_operateOn {op : BinaryOp} {l r : Operand} {q : Primitive}
    (hq : operate h op l r = .ok (.number q)) : (operateOn op l r).Produces h q := by
  unfold Produces operateOn
  rw [read_bind, hq]
  exact produces_alloc h q

theorem operateOn_error {op : BinaryOp} {l r : Operand} {c : Cause} (hc : operate h op l r = .error c) :
    operateOn op l r h = .error (.of c) h := by
  unfold operateOn
  rw [read_bind, hc]
  rfl

end Mem

/-! ## Computations that leave the state alone -/

/-- Why an evaluation halts, wherever it does; there is no cause when the fuel is
    spent. -/
def Halt.reason : Halt → Option Cause
  | .fault f => some f.cause
  | .exhausted => none

theorem Halt.reason_orLocation (l : Option Location) (halt : Halt) :
    (halt.orLocation l).reason = halt.reason := by
  cases halt <;> rfl

namespace Eval

variable {α β : Type} {R : Heap → Heap → Prop} {E E' : Option Cause → Prop} {m : Machine}
  {ev : Evaluator}

/-- The state is left alone, and the result is as `V` says; or the computation
    halts for a reason in `E`. -/
def Calm (R : Heap → Heap → Prop) (m : Machine) (x : Eval α) (V : Heap → α → Prop)
    (E : Option Cause → Prop) : Prop :=
  Ends x m (fun a m' => m'.state = m.state ∧ R m.heap m'.heap ∧ V m'.heap a)
    fun halt m' => m'.state = m.state ∧ R m.heap m'.heap ∧ E halt.reason

/-- The same, the result being left as an operand. -/
def Gives (R : Heap → Heap → Prop) (m : Machine) (x : Eval Outcome) (V : Heap → Ref → Prop)
    (E : Option Cause → Prop) : Prop :=
  Ends x m (fun o m' => o = .normal ∧ R m.heap m'.heap ∧ ∃ r, m'.state = m.state.push r ∧ V m'.heap r)
    fun halt m' => m'.state = m.state ∧ R m.heap m'.heap ∧ E halt.reason

/-- The value is a number in `L`. -/
def NumberIn (L : Primitive → Prop) (h : Heap) (r : Ref) : Prop :=
  ∃ p, L p ∧ h.Number r p

/-- Weaker conditions on the result and on the reason. -/
theorem Calm.mono {x : Eval α} {V W : Heap → α → Prop} (h : Calm R m x V E)
    (hV : ∀ h a, V h a → W h a) (hE : ∀ c, E c → E' c) : Calm R m x W E' :=
  Ends.mono h (fun _ _ ⟨hs, hR, ha⟩ => ⟨hs, hR, hV _ _ ha⟩) fun _ _ ⟨hs, hR, hc⟩ => ⟨hs, hR, hE _ hc⟩

/-- Taking the value that a node leaves. -/
theorem Gives.valueOf {node : Node} {L : Primitive → Prop}
    (h : Gives R m (ev node) (NumberIn L) E) : Calm R m (valueOf ev node) (NumberIn L) E := by
  unfold Calm Eval.valueOf
  rw [ends_bind, ends_ask, ends_bind]
  refine h.mono ?_ fun _ _ h => h
  rintro o m' ⟨rfl, hR, r, hs, p, hp, hr⟩
  have hdepth : m.state.valueDepth < m'.state.valueDepth := by
    rw [hs]
    exact Nat.lt_succ_self _
  dsimp only
  rw [ends_bind, ends_ask, if_pos hdepth, ends_pop, hs]
  exact ⟨rfl, hR, p, hp, hr.flatten.symm ▸ hr⟩

section Sparing

variable [Heap.Sparing R]

/-! ## Rules -/

theorem Calm.look? {f : Heap → Except Cause α} {V : Heap → α → Prop}
    (hok : ∀ a, f m.heap = .ok a → V m.heap a) (herr : ∀ c, f m.heap = .error c → E (some c)) :
    Calm R m (look? f) V E := by
  unfold Calm
  rw [ends_look?]
  split
  · rename_i a ha
    exact ⟨rfl, Std.Refl.refl _, hok a ha⟩
  · rename_i c hc
    exact ⟨rfl, Std.Refl.refl _, herr c hc⟩

omit [Heap.Sparing R] in
/-- An operation on the heap whose result is known. -/
theorem Calm.mem {x : Mem α} {V : Heap → α → Prop} {a : α} {h : Heap} (hx : x m.heap = .ok a h)
    (hR : R m.heap h) (hV : V h a) : Calm R m (liftM x) V E := by
  refine ends_mem.2 ?_
  unfold Ends
  rw [hx]
  exact ⟨rfl, hR, hV⟩

theorem Calm.produces {x : Mem Ref} {L : Primitive → Prop} {p : Primitive} (hx : x.Produces m.heap p)
    (hp : L p) : Calm R m (liftM x) (NumberIn L) E := by
  obtain ⟨r, h, hx, hs, hr⟩ := hx
  exact .mem hx (Heap.Sparing.of_spares hs) ⟨p, hp, hr⟩

theorem Calm.mem_error {x : Mem α} {V : Heap → α → Prop} {c : Cause} (hx : x m.heap = .error (.of c) m.heap)
    (hc : E (some c)) : Calm R m (liftM x) V E := by
  refine ends_mem.2 ?_
  unfold Ends
  rw [hx]
  exact ⟨rfl, Std.Refl.refl _, hc⟩

section Bind

variable {x : Eval α} {V : Heap → α → Prop} (hx : Calm R m x V E)
include hx

theorem Calm.bind {f : α → Eval β} {W : Heap → β → Prop}
    (hf : ∀ a m', m'.state = m.state → R m.heap m'.heap → V m'.heap a → Calm R m' (f a) W E) :
    Calm R m (x >>= f) W E := by
  unfold Calm
  rw [ends_bind]
  refine Ends.mono hx ?_ fun _ _ h => h
  rintro a m' ⟨hs, hR, hV⟩
  refine Ends.mono (hf a m' hs hR hV) ?_ ?_
  · rintro b m'' ⟨hs', hR', hW⟩
    exact ⟨hs'.trans hs, IsTrans.trans _ _ _ hR hR', hW⟩
  · rintro halt m'' ⟨hs', hR', hE⟩
    exact ⟨hs'.trans hs, IsTrans.trans _ _ _ hR hR', hE⟩

theorem Gives.bind {f : α → Eval Outcome} {W : Heap → Ref → Prop}
    (hf : ∀ a m', m'.state = m.state → R m.heap m'.heap → V m'.heap a → Gives R m' (f a) W E) :
    Gives R m (x >>= f) W E := by
  unfold Gives
  rw [ends_bind]
  refine Ends.mono hx ?_ fun _ _ h => h
  rintro a m' ⟨hs, hR, hV⟩
  refine (hf a m' hs hR hV).mono ?_ ?_
  · rintro o m'' ⟨ho, hR', r, hs', hW⟩
    exact ⟨ho, IsTrans.trans _ _ _ hR hR', r, hs ▸ hs', hW⟩
  · rintro halt m'' ⟨hs', hR', hE⟩
    exact ⟨hs'.trans hs, IsTrans.trans _ _ _ hR hR', hE⟩

end Bind

theorem gives_yield {r : Ref} {V : Heap → Ref → Prop} (hr : V m.heap r) : Gives R m (yield r) V E :=
  ⟨rfl, Std.Refl.refl _, r, rfl, hr⟩

theorem gives_fail {c : Cause} {V : Heap → Ref → Prop} (hc : E (some c)) : Gives R m (fail c) V E :=
  ⟨rfl, Std.Refl.refl _, hc⟩

omit [Heap.Sparing R] in
/-- A visit notes the place of the node, and places faults. -/
theorem gives_visit {node : Node} {x : Eval Outcome} {V : Heap → Ref → Prop}
    (hx : ∀ m', m'.state = m.state → m'.heap = m.heap → Gives R m' x V E) :
    Gives R m (visit node x) V E := by
  refine ends_visit fun m₁ hs hh => ?_
  refine (hx m₁ hs hh).mono ?_ ?_
  · rintro o m' ⟨ho, hR, r, hs', hV⟩
    exact ⟨ho, hh ▸ hR, r, hs ▸ hs', hV⟩
  · rintro halt m' ⟨hs', hR, hE⟩
    exact ⟨hs'.trans hs, hh ▸ hR, halt.reason_orLocation _ ▸ hE⟩

/-! ## Operators -/

section Operators

variable {L Q : Primitive → Prop} {p : Primitive}

/-- A number that is made, then left. -/
theorem gives_produces {x : Mem Ref} (hx : x.Produces m.heap p) (hp : Q p) :
    Gives R m (do yield (← x)) (NumberIn Q) E :=
  Gives.bind (.produces hx hp) fun _ _ _ _ hr => gives_yield hr

theorem gives_yieldAs {r : Ref} (hr : m.heap.Number r p) (ty : Ty) (hp : Q (p.conformed ty)) :
    Gives R m (yieldAs ty r) (NumberIn Q) E :=
  gives_produces (Mem.produces_conformToNode hr ty) hp

theorem gives_yieldTruth (b : Bool) (hb : Q (.truth b)) : Gives R m (yieldTruth b) (NumberIn Q) E :=
  gives_produces (Mem.produces_alloc _ _) hb

/-- The size of a type, if it has one. -/
theorem gives_sizeOfType (e : Engine) {ty : Ty}
    (hsome : ∀ n, sizeOfTy e.program ty = some n → Q (.of .long true (.integral (.ofNat n))))
    (hnone : sizeOfTy e.program ty = none → E none) :
    Gives R m (sizeOfType e ty) (NumberIn Q) E := by
  unfold sizeOfType
  split
  · rename_i hsize
    exact ⟨rfl, Std.Refl.refl _, hnone hsize⟩
  · rename_i n hsize
    exact gives_produces (Mem.produces_alloc _ _) (hsome n hsize)

omit [Heap.Sparing R] in
/-- A name that cannot mean the receiver is looked up. -/
theorem named_eq {s : State} {name : String} (h : name = receiverName → s.receiver? = none) :
    named s name = (s.lookup? name).elim (.error (.undefinedSymbol name)) .ok := by
  have hnone : (if name = receiverName then s.receiver? else none) = none := by
    split
    · exact h ‹_›
    · rfl
  unfold named
  rw [hnone]
  cases s.lookup? name <;> rfl

theorem gives_identifier {name : String} {r : Ref} (hn : named m.state name = .ok r)
    (hr : m.heap.Number r p) (hp : Q p) : Gives R m (identifier name) (NumberIn Q) E := by
  unfold Gives identifier
  rw [ends_bind, ends_ask, hn]
  exact gives_yield ⟨p, hp, hr⟩

theorem gives_identifier_error {name : String} {c : Cause} {V : Heap → Ref → Prop}
    (hn : named m.state name = .error c) (hc : E (some c)) : Gives R m (identifier name) V E := by
  unfold Gives identifier
  rw [ends_bind, ends_ask, hn]
  exact gives_fail hc

theorem calm_truthOf {r : Ref} (hr : m.heap.Number r p) :
    Calm R m (liftM (truthOf r) : Eval Bool) (fun h b => h = m.heap ∧ b = !p.isZero) E :=
  .mem (Mem.truthOf_number hr) (Std.Refl.refl _) ⟨rfl, rfl⟩

theorem signed_number {h : Heap} {r : Ref} (hr : h.Number r p) (op : UnaryOp) :
    signed op h r = p.signed op := by
  unfold signed Primitive.signed
  rw [hr.promoted, hr.truthOf]
  cases op <;> simp [Except.map, bind, Except.bind]

/-- The truth of the second operand. -/
theorem gives_truthOf_valueOf {node : Node} (h : Calm R m (valueOf ev node) (NumberIn L) E)
    (hok : ∀ p, L p → Q (.truth !p.isZero)) :
    Gives R m (do yieldTruth (← truthOf (← valueOf ev node))) (NumberIn Q) E := by
  refine Gives.bind h ?_
  rintro r m₁ - - ⟨p, hp, hr⟩
  refine Gives.bind (calm_truthOf hr) ?_
  rintro b m₂ - - ⟨-, rfl⟩
  exact gives_yieldTruth _ (hok p hp)

/-- A choice by the truth of a number. -/
theorem gives_if_truthOf {r : Ref} (hr : m.heap.Number r p) {x y : Eval Outcome} {V : Heap → Ref → Prop}
    (hx : p.isZero = false → ∀ m', m'.state = m.state → R m.heap m'.heap → Gives R m' x V E)
    (hy : p.isZero = true → ∀ m', m'.state = m.state → R m.heap m'.heap → Gives R m' y V E) :
    Gives R m (do if ← truthOf r then x else y) V E := by
  refine Gives.bind (calm_truthOf hr) ?_
  rintro b m₁ hs hR ⟨-, rfl⟩
  cases hz : p.isZero with
  | true => exact hy hz m₁ hs hR
  | false => exact hx hz m₁ hs hR

/-- An operator that takes the numbers of both operands. -/
theorem gives_arithmetic {ty : Ty} {op : BinaryOp} (hop : op.isLogical = false) {left : Ref} {rhs : Node}
    (hp : m.heap.Number left p)
    (hr : ∀ m', m'.state = m.state → R m.heap m'.heap → Calm R m' (valueOf ev rhs) (NumberIn L) E)
    (hok : ∀ r q, L r → op.applied ty p r = .ok q → Q q)
    (herr : ∀ r c, L r → op.applied ty p r = .error c → E (some c)) :
    Gives R m (do
      let left ← operandOf left
      let right ← operandOf (← valueOf ev rhs)
      yieldAs ty (← operateOn op left right)) (NumberIn Q) E := by
  have happlied (r : Primitive) : op.applied ty p r = (arithmetic op p r).map (·.conformed ty) := by
    unfold BinaryOp.applied
    rw [hop]
    rfl
  refine Gives.bind (V := fun _ o => o = .number p)
    (.mem (Mem.operandOf_number hp) (Std.Refl.refl _) rfl) ?_
  rintro _ m₁ hs₁ hR₁ rfl
  refine Gives.bind (hr m₁ hs₁ hR₁) ?_
  rintro right m₂ - - ⟨r, hL, hright⟩
  refine Gives.bind (V := fun _ o => o = .number r)
    (.mem (Mem.operandOf_number hright) (Std.Refl.refl _) rfl) ?_
  rintro _ m₃ - - rfl
  have hoperate := Mem.operate_numbers m₃.heap hop p r
  cases hq : arithmetic op p r with
  | ok q =>
    rw [hq] at hoperate
    refine Gives.bind (.produces (L := (· = q)) (Mem.produces_operateOn hoperate) rfl) ?_
    rintro v m₄ - - ⟨_, rfl, hv⟩
    exact gives_yieldAs hv ty (hok r _ hL (by rw [happlied, hq]; rfl))
  | error c =>
    rw [hq] at hoperate
    refine Gives.bind (V := fun _ _ => False) (.mem_error (Mem.operateOn_error hoperate) ?_)
      fun _ _ _ _ h => h.elim
    exact herr r c hL (by rw [happlied, hq]; rfl)

theorem gives_binary {M : Primitive → Primitive → Prop} {ty : Ty} {op : BinaryOp} {lhs rhs : Node}
    (hl : Calm R m (valueOf ev lhs) (NumberIn L) E)
    (hdecided : ∀ l b, L l → op.decidedBy l = some b → Q (.truth b))
    (hr : ∀ l m', m'.state = m.state → R m.heap m'.heap → L l → op.decidedBy l = none →
      Calm R m' (valueOf ev rhs) (NumberIn (M l)) E)
    (hok : ∀ l r q, L l → op.decidedBy l = none → M l r → op.applied ty l r = .ok q → Q q)
    (herr : ∀ l r c, L l → op.decidedBy l = none → M l r → op.applied ty l r = .error c → E (some c)) :
    Gives R m (binary ev ty op lhs rhs) (NumberIn Q) E := by
  refine Gives.bind hl ?_
  rintro left m₁ hs₁ hR₁ ⟨l, hL, hleft⟩
  have hright (hnone : op.decidedBy l = none) (m₂ : Machine) (hs : m₂.state = m₁.state)
      (hR : R m₁.heap m₂.heap) : Calm R m₂ (valueOf ev rhs) (NumberIn (M l)) E :=
    hr l m₂ (hs.trans hs₁) (IsTrans.trans _ _ _ hR₁ hR) hL hnone
  split
  · refine gives_if_truthOf hleft (fun hz m₂ hs hR => ?_) fun hz _ _ _ => ?_
    · have hnone : BinaryOp.decidedBy .and l = none := by simp [BinaryOp.decidedBy, hz]
      exact gives_truthOf_valueOf (hright hnone m₂ hs hR) fun r hM => hok l r _ hL hnone hM rfl
    · exact gives_yieldTruth _ (hdecided l false hL (by simp [BinaryOp.decidedBy, hz]))
  · refine gives_if_truthOf hleft (fun hz _ _ _ => ?_) fun hz m₂ hs hR => ?_
    · exact gives_yieldTruth _ (hdecided l true hL (by simp [BinaryOp.decidedBy, hz]))
    · have hnone : BinaryOp.decidedBy .or l = none := by simp [BinaryOp.decidedBy, hz]
      exact gives_truthOf_valueOf (hright hnone m₂ hs hR) fun r hM => hok l r _ hL hnone hM rfl
  · rename_i hand hor
    have hlogical : op.isLogical = false := by
      cases op <;> first | rfl | exact absurd rfl hand | exact absurd rfl hor
    have hnone : op.decidedBy l = none := by
      cases op <;> first | rfl | exact absurd rfl hand | exact absurd rfl hor
    exact gives_arithmetic hlogical hleft (hright hnone) (fun r q => hok l r q hL hnone)
      fun r c => herr l r c hL hnone

theorem gives_signed {ty : Ty} {op : UnaryOp} (hop : ∀ s, op ≠ .step s) {operand : Node}
    (h : Calm R m (valueOf ev operand) (NumberIn L) E)
    (hok : ∀ p q, L p → p.signed op = .ok q → Q (q.conformed ty))
    (herr : ∀ p c, L p → p.signed op = .error c → E (some c)) :
    Gives R m (unary ev ty op operand) (NumberIn Q) E := by
  refine Gives.bind h ?_
  rintro r m₁ - - ⟨p, hp, hr⟩
  split
  · rename_i s
    exact absurd rfl (hop s)
  · have hsigned := signed_number hr op
    refine Gives.bind (V := fun _ q => p.signed op = .ok q) (.look? ?_ ?_) fun q m₂ _ _ hq => ?_
    · exact fun q hq => hsigned.symm.trans hq
    · exact fun c hc => herr p c hp (hsigned.symm.trans hc)
    refine Gives.bind (.produces (L := (· = q)) (Mem.produces_alloc _ q) rfl) ?_
    rintro v m₃ - - ⟨_, rfl, hv⟩
    exact gives_yieldAs hv ty (hok p _ hp hq)

theorem gives_ternary {M : Primitive → Primitive → Prop} {ty : Ty} {cond t f : Node}
    (hc : Calm R m (valueOf ev cond) (NumberIn L) E)
    (hchosen : ∀ c m', m'.state = m.state → R m.heap m'.heap → L c →
      Calm R m' (valueOf ev (if c.isZero then f else t)) (NumberIn (M c)) E)
    (hok : ∀ c p, L c → M c p → Q (p.conformed ty)) :
    Gives R m (ternary ev ty cond t f) (NumberIn Q) E := by
  refine Gives.bind hc ?_
  rintro r m₁ hs₁ hR₁ ⟨c, hL, hr⟩
  refine Gives.bind (calm_truthOf hr) ?_
  rintro b m₂ hs₂ - ⟨hh₂, rfl⟩
  have hnode : (if (!c.isZero) = true then t else f) = if c.isZero then f else t := by
    cases c.isZero <;> rfl
  dsimp only
  rw [hnode]
  refine Gives.bind (hchosen c m₂ (hs₂.trans hs₁) (hh₂ ▸ hR₁) hL) ?_
  rintro v m₃ - - ⟨p, hM, hv⟩
  exact gives_yieldAs hv ty (hok c p hL hM)

theorem gives_convert {ty : Ty} {k : Kind} {u : Bool} (hty : ty.primitive? = some (k, u)) (hk : k ≠ .void)
    {operand : Node} (h : Calm R m (valueOf ev operand) (NumberIn L) E)
    (hok : ∀ p, L p → Q (p.converted k u)) : Gives R m (convert ev ty operand) (NumberIn Q) E := by
  refine Gives.bind h ?_
  rintro r m₁ - - ⟨p, hp, hr⟩
  have hvoid : ty.isVoid = false := by
    unfold Ty.isVoid
    rw [Ty.unqualified_of_primitive? hty]
    cases k <;> first | rfl | exact absurd rfl hk
  rw [hvoid]
  exact gives_produces (Mem.produces_castTo hr hty hk) (hok p hp)

end Operators

end Sparing

end Eval

end Treewalk
