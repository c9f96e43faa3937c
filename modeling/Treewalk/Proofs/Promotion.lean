/-
  Signs, complements and the operators that they abbreviate.

  * `UnaryOp.Abbreviates op bop i`: `op e` is short for `i bop e`, as `-e` is for `0 - e`;
  * `UnaryOp.onInteger op z`: what a sign or complement makes of an integer;
  * `Heap.ReadsAs h r p`: read as an operand, the value is the integral number `p`;
  * `Eval.EvaluatesTo e n node m p`: the node leaves the number `p`.

  At run time both forms promote their operand alike, and compute the same number. Then it
  is converted to the type of the node, and these types differ: one keeps the sign of a kind
  that is narrower than `int`, the other does not.
-/
import Treewalk.Proofs.CompoundAssignment
import Treewalk.Proofs.MirrorsEval

namespace Treewalk

/-! ## Integers -/

/-- The sign or complement is short for the operator, after this number. -/
inductive UnaryOp.Abbreviates : UnaryOp → BinaryOp → Int64 → Prop
  | neg : Abbreviates .neg .sub 0
  | plus : Abbreviates .plus .add 0
  | bitNot : Abbreviates .bitNot .bitXor (-1)

/-- What a sign or complement makes of an integer. -/
def UnaryOp.onInteger : UnaryOp → Int → Int
  | .neg, z => -z
  | .bitNot, z => -z - 1
  | _, z => z

theorem UnaryOp.Abbreviates.computes {op : UnaryOp} {bop : BinaryOp} {i : Int64} (hop : op.Abbreviates bop i) :
    bop.Computes := by
  cases hop <;> exact ⟨rfl, rfl⟩

/-- Of ones as many as the kind has bits, a number takes away its own. -/
theorem wrap_ones_xor {k : Kind} (hk : k.isIntegral) (u : Bool) (n : Int64) :
    wrap k u (wrap k u (-1) ^^^ n) = wrap k u (~~~n) := by
  cases u with
  | false =>
    have hones : wrap k false (-1) = -1 := by
      cases k <;> rfl
    rw [hones, Int64.neg_one_xor]
  | true =>
    cases k with
    | void | float | double => cases hk
    | long => exact congrArg (wrap .long true) Int64.neg_one_xor
    | char =>
      simp only [wrap, Int64.toUInt64_xor, UInt64.toUInt8_xor, Int64.toUInt64_not, UInt64.toUInt8_not]
      exact congrArg (fun n : UInt8 => n.toUInt64.toInt64) UInt8.neg_one_xor
    | short =>
      simp only [wrap, Int64.toUInt64_xor, UInt64.toUInt16_xor, Int64.toUInt64_not, UInt64.toUInt16_not]
      exact congrArg (fun n : UInt16 => n.toUInt64.toInt64) UInt16.neg_one_xor
    | int =>
      simp only [wrap, Int64.toUInt64_xor, UInt64.toUInt32_xor, Int64.toUInt64_not, UInt64.toUInt32_not]
      exact congrArg (fun n : UInt32 => n.toUInt64.toInt64) UInt32.neg_one_xor

namespace Primitive

variable {p : Primitive} {op : UnaryOp} {bop : BinaryOp} {i : Int64}

theorem conformed_eq {ty : Ty} {k : Kind} {u : Bool} (hty : ty.primitive? = some (k, u)) (hp : p.kind.isIntegral)
    (hr : p.InRange) (hk : k.isIntegral) : p.conformed ty = p.converted k u := by
  have hself : p.kind = k ∧ p.unsigned = u → p.converted k u = p := by
    rintro ⟨rfl, rfl⟩
    exact (converted_eq hp hr hp _).trans (eq_representing hp hr).symm
  unfold conformed
  rw [hty]
  cases k with
  | void | float | double => cases hk
  | char | short | int | long =>
    dsimp only
    split
    · exact (hself ‹_›).symm
    · rfl

variable (hk : p.kind.isIntegral) (hp : p.InRange)
include hk hp

theorem isFloating_of_integral : p.isFloating = false := by
  unfold isFloating
  rw [payload_of_integral hk hp]

/-- The kind of a promoted number is the one in which the number meets an `int`. -/
theorem promoted_eq_converted (i : Int64) :
    p.promoted = p.converted (commonKind (.int i) p).1 (commonKind (.int i) p).2 := by
  have hself := (eq_representing hk hp).trans (converted_eq hk hp hk p.unsigned).symm
  unfold promoted
  rw [isFloating_of_integral hk hp]
  obtain ⟨k, u, payload⟩ := p
  cases k with
  | void | float | double => cases hk
  | char | short => rfl
  | int | long => cases u <;> exact hself

theorem isIntegral_promoted : p.promoted.kind.isIntegral := by
  rw [promoted_eq_converted hk hp 0]
  exact isIntegral_commonKind rfl hk

/-- A sign or complement is computed in the promoted kind. -/
theorem signed_eq (hop : op.Abbreviates bop i) : p.signed op =
    .ok (.representing p.promoted.kind p.promoted.unsigned (op.onInteger p.integer)) := by
  have hk' := isIntegral_promoted hk hp
  have hpromoted : p.promoted = representing p.promoted.kind p.promoted.unsigned p.integer := by
    rw [promoted_eq_converted hk hp 0]
    exact converted_eq hk hp (isIntegral_commonKind rfl hk) _
  have hmod := p.promoted.kind.residue_modEq p.promoted.unsigned p.integer
  generalize hresidue : p.promoted.kind.residue p.promoted.unsigned p.integer = z at hmod
  have hpayload : p.promoted.payload = .integral (.ofInt z) := by
    rw [hpromoted, ← hresidue]
    rfl
  cases hop with
  | plus => exact congrArg Except.ok hpromoted
  | neg =>
    have hneg : -Int64.ofInt z = .ofInt (-z) := (Int64.ofInt_neg z).symm
    change Except.ok p.promoted.negated = _
    unfold negated withPayload
    rw [hpayload]
    dsimp only
    rw [hneg, of_ofInt hk', representing_congr hmod.neg]
    rfl
  | bitNot =>
    have hnot : ~~~Int64.ofInt z = .ofInt (-z - 1) := by
      rw [Int64.not_eq_neg_add, Int64.ofInt_sub, Int64.ofInt_neg]
      rfl
    change p.promoted.complemented = _
    unfold complemented withPayload
    rw [hpayload]
    dsimp only
    rw [hnot, of_ofInt hk', representing_congr (hmod.neg.sub_right 1)]
    rfl

/-- So is the operator that it abbreviates. -/
theorem arithmetic_eq_signed (hop : op.Abbreviates bop i) : arithmetic bop (.int i) p = p.signed op := by
  have hk' := isIntegral_commonKind (l := .int i) rfl hk
  have hpromoted := promoted_eq_converted hk hp i
  unfold arithmetic signed
  generalize commonKind (.int i) p = c at hk' hpromoted
  obtain ⟨k, u⟩ := c
  dsimp only at hk' hpromoted ⊢
  have hfloating : k.isFloating = false := by
    cases k <;> first | rfl | cases hk'
  have hof (n : Int64) : of k u (.integral n) = ⟨k, u, .integral (wrap k u n)⟩ := by
    cases k <;> first | rfl | cases hk'
  obtain ⟨n, hn⟩ : ∃ n, p.payload = .integral n := ⟨_, payload_of_integral hk hp⟩
  have hpromoted : p.promoted = ⟨k, u, .integral (wrap k u n)⟩ := by
    rw [hpromoted, converted, hn, hof]
  have hleft : ((int i).converted k u).toInt64 = wrap k u (wrap .int false i) := congrArg toInt64 (hof _)
  have hright : (p.converted k u).toInt64 = wrap k u n := by
    rw [converted, hn, hof]
    rfl
  rw [hfloating, hleft, hright, hpromoted]
  have hzero : wrap k u (wrap .int false 0) = 0 := by
    cases k <;> cases u <;> rfl
  cases hop with
  | plus =>
    change Except.ok (of k u (.integral (wrap k u (wrap .int false 0) + wrap k u n))) = _
    rw [hzero, Int64.zero_add, hof, wrap_wrap hk' hk' (Nat.le_refl _)]
  | neg =>
    change Except.ok (of k u (.integral (wrap k u (wrap .int false 0) - wrap k u n))) = _
    rw [hzero, Int64.zero_sub]
    rfl
  | bitNot =>
    change Except.ok (of k u (.integral (wrap k u (-1) ^^^ wrap k u n))) = _
    rw [hof, wrap_ones_xor hk', ← hof]
    rfl

end Primitive

/-! ## Types -/

section Types

variable {ty : Ty} {k : Kind} {u : Bool} (hty : ty.primitive? = some (k, u)) (hk : k.isIntegral)
include hty hk

/-- A sign or complement has a type at least as wide as `int`, with the sign of its operand. -/
theorem promotedType_eq : (Build.promotedType ty).primitive? = some (k.max .int, u) := by
  have hself : ty.unqualified.primitive? = some (k, u) := by
    unfold Ty.primitive?
    rw [Ty.unqualified_of_primitive? hty]
    rfl
  unfold Build.promotedType
  rw [hty]
  cases k with
  | void | float | double => cases hk
  | char | short => rfl
  | int | long => exact hself

/-- An `int` and a number have such a type, too, but signed if the number is narrower. -/
theorem binaryType_int_eq {bop : BinaryOp} (hop : bop.Computes) :
    (Build.binaryType bop .int ty).primitive? = some (k.max .int, u && decide (Kind.int.rank ≤ k.rank)) := by
  have hpointee : ty.pointee? = none := by
    unfold Ty.pointee?
    rw [Ty.unqualified_of_primitive? hty]
  have htype : Build.binaryType bop .int ty = Build.arithmeticType .int ty := by
    unfold Build.binaryType
    rw [hop.1, hop.2, hpointee]
    rfl
  rw [htype]
  unfold Build.arithmeticType
  rw [hty]
  cases k with
  | void | float | double => cases hk
  | char | short | int | long => cases u <;> rfl

end Types

/-! ## Operands -/

/-- Read as an operand, the value is the integral number: it is that number, or it is absent
    and read as zero. -/
inductive Heap.ReadsAs (h : Heap) (r : Ref) : Primitive → Prop
  | number {p : Primitive} (hr : h.cell r = .primitive p) (hk : p.kind.isIntegral) : ReadsAs h r p
  | absent {ty : Ty} (hr : h.cell r = .slot ty none) : ReadsAs h r (.int 0)

namespace Heap.ReadsAs

variable {h h' : Heap} {r : Ref} {p : Primitive} {op : UnaryOp} {bop : BinaryOp} {i : Int64} (hr : h.ReadsAs r p)
include hr

theorem isIntegral : p.kind.isIntegral := by
  cases hr with
  | number _ hk => exact hk
  | absent => rfl

theorem inRange (hs : h.Sound) : p.InRange := by
  cases hr with
  | number hr => exact hs.number r p hr
  | absent => exact Primitive.inRange_of ..

theorem relocated {ρ : Relocation} (hh : h.Relocated ρ h') : h'.ReadsAs (ρ.ref r) p := by
  cases hr with
  | number hr hk => exact .number ((hh.cell r).trans (congrArg ρ.cell hr)) hk
  | absent hr => exact .absent ((hh.cell r).trans (congrArg ρ.cell hr))

theorem flatten_eq : h.flatten r = r := by
  unfold flatten
  cases hr with
  | number hr | absent hr => rw [hr]

theorem signed_eq (hop : op.Abbreviates bop i) : Eval.signed op h r = p.signed op := by
  have hpromoted : h.promoted r = .ok p.promoted := by
    unfold promoted primitive? isAbsent
    rw [hr.flatten_eq]
    cases hr with
    | number hr => rw [hr]
    | absent hr =>
      rw [hr]
      rfl
  unfold Eval.signed
  rw [hpromoted]
  cases hop <;> rfl

/-- Next to an `int`, an absent value is read as an `int`, too. -/
theorem operate_eq (hop : op.Abbreviates bop i) : ∃ o, h.operand r = .ok o ∧
    ∀ h', operate h' bop (.number (.int i)) o = (arithmetic bop (.int i) p).map .number := by
  have hlogical := hop.computes.2
  unfold operand
  rw [hr.flatten_eq]
  cases hr with
  | number hr =>
    rw [hr]
    exact ⟨_, rfl, fun h' => Mem.operate_numbers h' hlogical _ _⟩
  | absent hr =>
    rw [hr]
    exact ⟨_, rfl, fun h' => operate_number_absent h' hlogical _⟩

end Heap.ReadsAs

/-! ## Evaluation -/

namespace Eval

variable {e : Engine} {n : Nat} {x : Node} {m m₁ : Machine} {r : Ref} {p w : Primitive} {op : UnaryOp} {bop : BinaryOp}
  {i : Int64}

/-- The node leaves the number. -/
def EvaluatesTo (e : Engine) (n : Nat) (node : Node) (m : Machine) (p : Primitive) : Prop :=
  ∃ r m', valueOf (evaluate e n) node m = .ok r m' ∧ m'.heap.Number r p

/-- A number that a node leaves is converted to its type. -/
theorem evaluatesTo_of_yieldAs {node : Node} {y : Eval Outcome} {ty : Ty} {v : Ref}
    (hnode : ∀ m', y m = .ok .normal m' → evaluate e n node m = .ok .normal m') (hrun : y m = yieldAs ty v m₁)
    (hv : m₁.heap.Number v w) (hle : m.state.valueDepth ≤ m₁.state.valueDepth) :
    EvaluatesTo e n node m (w.conformed ty) := by
  obtain ⟨v', h, hconform, -, hv'⟩ := Mem.produces_conformToNode hv ty
  have hyields : y m = .ok .normal { m₁ with heap := h, state := m₁.state.push v' } := by
    rw [hrun]
    unfold yieldAs
    rw [run_bind (run_mem hconform)]
    rfl
  have hdepth : m.state.valueDepth ≤ ({ m₁ with heap := h } : Machine).state.valueDepth := hle
  have hvalue : valueOf (evaluate e n) node m = .ok (h.flatten v') { m₁ with heap := h } :=
    run_valueOf (hnode _ hyields) hdepth
  rw [hv'.flatten] at hvalue
  exact ⟨v', _, hvalue, hv'⟩

variable (hop : op.Abbreviates bop i) (hr : valueOf (evaluate e n) x m = .ok r m₁) (hp : m₁.heap.ReadsAs r p)
  (hw : p.signed op = .ok w)
include hop hr hp hw

theorem run_signed (ty : Ty) : unary (evaluate e n) ty op x m =
    yieldAs ty ⟨m₁.heap.cells.size⟩ { m₁ with heap := (m₁.heap.alloc (.primitive w)).2 } := by
  have hsigned := (hp.signed_eq hop).trans hw
  unfold unary
  rw [run_bind hr]
  cases hop <;>
  · dsimp only
    rw [run_bind (run_look? hsigned), run_alloc]

theorem evaluatesTo_unary : EvaluatesTo e (n + 1) (Build.unary op x) m (w.conformed (Build.promotedType x.ty)) := by
  have hrun := run_signed hop hr hp hw (Build.promotedType x.ty)
  have hle := valueDepth_le_of_valueOf hr
  refine evaluatesTo_of_yieldAs (fun m' hok => ?_) hrun (.alloc ..) hle
  cases hop <;> exact run_placed_ok (Build.unary _ x).location? hok

/-- The operand is evaluated when there is one more value, which is of no consequence. -/
theorem evaluatesTo_binary (hm : m.Sound) : EvaluatesTo e (n + 1) (Build.binary bop (Build.int i) x) m
    (w.conformed (Build.binaryType bop .int x.ty)) := by
  cases n with
  | zero => cases hr
  | succ n =>
    obtain ⟨σ, hmm, hσ, -⟩ := (Machine.Relocated.refl m).alloc hm (.primitive (.int i))
    obtain ⟨m₂, hr', hmm₂⟩ := (follows_valueOf_moved (hσ trivial) hm hmm e (.refl false _) x).exists_ok hr
    have hm₁ := ((safe_valueOf (safe_evaluate e _) x m hm (Nat.zero_le _)).of_ok hr).1
    have harithmetic := (Primitive.arithmetic_eq_signed hp.isIntegral (hp.inRange hm₁.heap) hop).trans hw
    obtain ⟨o, ho, hoperate⟩ := (hp.relocated hmm₂.heap).operate_eq hop
    have hoperated : operateOn bop (.number (.int i)) o m₂.heap =
        .ok ⟨m₂.heap.cells.size⟩ (m₂.heap.alloc (.primitive w)).2 := by
      rw [operateOn_ok ((hoperate m₂.heap).trans (congrArg _ harithmetic))]
      rfl
    have hleft : operandOf ⟨m.heap.cells.size⟩ (m.heap.alloc (.primitive (.int i))).2 = .ok (.number (.int i)) _ :=
      Mem.operandOf_number (.alloc ..)
    have hrun : binary (evaluate e (n + 1)) (Build.binaryType bop .int x.ty) bop (Build.int i) x m =
        yieldAs (Build.binaryType bop .int x.ty) ⟨m₂.heap.cells.size⟩
          { m₂ with heap := (m₂.heap.alloc (.primitive w)).2 } := by
      rw [binary_eq hop.computes, run_bind (run_int i), run_bind (run_mem (m := { m with heap := _ }) hleft)]
      rw [run_bind hr', run_bind (run_mem (Mem.operandOf_eq ho)), run_bind (run_mem hoperated)]
    have hle := valueDepth_le_of_valueOf hr'
    refine evaluatesTo_of_yieldAs (fun m' hok => ?_) hrun (.alloc ..) hle
    exact run_placed_ok (Build.binary bop (Build.int i) x).location? hok

omit hop hr hp hw

/-- Where an operand of an integral type gives an integral number, or is absent, `-x` and
    `0 - x` compute the same number in the promoted kind of the operand, as `+x` and `0 + x` do
    and `~x` and `-1 ^ x`. Both convert it to a kind at least as wide as `int`. That is unsigned
    in the first form if the type of the operand is, and in the second if that is no narrower
    than `int`, either. So the two give the same number unless the type is unsigned and narrower
    than `int`. -/
theorem sign_eq_binary_iff (hm : m.Sound) (hop : op.Abbreviates bop i) {k : Kind} {u : Bool}
    (hty : x.ty.primitive? = some (k, u)) (hk : k.isIntegral) (hr : valueOf (evaluate e n) x m = .ok r m₁)
    (hp : m₁.heap.ReadsAs r p) :
    let w := Primitive.representing p.promoted.kind p.promoted.unsigned (op.onInteger p.integer)
    ∃ q q', EvaluatesTo e (n + 1) (Build.unary op x) m q ∧
      EvaluatesTo e (n + 1) (Build.binary bop (Build.int i) x) m q' ∧
      q = w.converted (k.max .int) u ∧ q' = w.converted (k.max .int) (u && decide (Kind.int.rank ≤ k.rank)) ∧
      (q' = q ↔ ¬ (u = true ∧ k.rank < Kind.int.rank)) := by
  intro w
  have hm₁ := ((safe_valueOf (safe_evaluate e _) x m hm (Nat.zero_le _)).of_ok hr).1
  have hpk := hp.isIntegral
  have hrange := hp.inRange hm₁.heap
  have hw : p.signed op = .ok w := Primitive.signed_eq hpk hrange hop
  have hwk : w.kind.isIntegral := Primitive.isIntegral_promoted hpk hrange
  have hwr : w.InRange := Primitive.inRange_representing hwk _ _
  have hk' : (k.max .int).isIntegral := by
    cases k <;> first | rfl | cases hk
  have hunary := evaluatesTo_unary hop hr hp hw
  have hbinary := evaluatesTo_binary hop hr hp hw hm
  rw [Primitive.conformed_eq (promotedType_eq hty hk) hwk hwr hk'] at hunary
  rw [Primitive.conformed_eq (binaryType_int_eq hty hk hop.computes) hwk hwr hk'] at hbinary
  refine ⟨_, _, hunary, hbinary, rfl, rfl, fun heq => ?_, fun hwide => ?_⟩
  · have hunsigned : (u && decide (Kind.int.rank ≤ k.rank)) = u := congrArg Primitive.unsigned heq
    rintro ⟨rfl, hnarrow⟩
    exact absurd (of_decide_eq_true (by simpa using hunsigned)) (Nat.not_le.2 hnarrow)
  · have hunsigned : (u && decide (Kind.int.rank ≤ k.rank)) = u := by
      cases u with
      | false => rfl
      | true => exact decide_eq_true (Nat.not_lt.1 fun hnarrow => hwide ⟨rfl, hnarrow⟩)
    rw [hunsigned]

/-- The least `signed char`, negated. -/
theorem least_char_negated :
    let x := Build.cast (Build.int (-128)) .char
    EvaluatesTo noProgram 3 (Build.unary .neg x) {} (.int 128) ∧
      EvaluatesTo noProgram 3 (Build.binary .sub (Build.int 0) x) {} (.int 128) := by
  intro x
  have hr : ∃ m₁, valueOf (evaluate noProgram 2) x {} = .ok ⟨1⟩ m₁ ∧
      m₁.heap.cell ⟨1⟩ = .primitive (.char 128) := ⟨_, rfl, rfl⟩
  obtain ⟨m₁, hr, hcell⟩ := hr
  have hty : x.ty.primitive? = some (.char, false) := rfl
  obtain ⟨q, q', hq, hq', rfl, rfl, -⟩ := sign_eq_binary_iff .empty .neg hty rfl hr (.number hcell rfl)
  exact ⟨hq, hq'⟩

/-- Of an `unsigned char`, the negative is an `unsigned int`, but zero minus it is an `int`. -/
theorem unsigned_char_negated_differs :
    let x := Build.cast (Build.int 1) (.primitive .char true)
    EvaluatesTo noProgram 3 (Build.unary .neg x) {} (.of .int true (.integral 4294967295)) ∧
      EvaluatesTo noProgram 3 (Build.binary .sub (Build.int 0) x) {} (.int (-1)) :=
  ⟨⟨_, _, rfl, by decide, rfl⟩, ⟨_, _, rfl, by decide, rfl⟩⟩

end Eval

end Treewalk
