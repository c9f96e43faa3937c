/-
  Whether the method that a call means can be given its arguments.

  Methods are chosen by the types of the arguments, and bound to their values. The two
  differ in one place: an integer is accepted for a pointer, but only zero is one.

  * `Heap.Refuses h q v`: the parameter `q` is a pointer, and `v` a number that is no
    null constant;
  * `conforms_iff`: all other values conform to their parameters;
  * `overloads_bind`: a method chosen over one that binds fails to bind only where it
    has a pointer for an integer that the other takes as a number.
-/
import Treewalk.Proofs.Compatibility
import Treewalk.Proofs.Parameters

namespace Treewalk

/-! ## Refusals -/

/-- The value conforms to the parameter. -/
def Heap.Conforms (h : Heap) (q : Param) (v : Ref) : Prop :=
  ∃ x h', conform v q.ty h = .ok x h'

/-- The parameter is a pointer, and the value a number that is no null constant. -/
def Heap.Refuses (h : Heap) (q : Param) (v : Ref) (n : Primitive) : Prop :=
  (∃ target, q.ty.unqualified = .pointer target) ∧ h.cell (h.flatten v) = .primitive n ∧
    n.isNullConstant = false

namespace Heap

variable {h : Heap} {q : Param} {v : Ref} {n : Primitive} {cause : Cause}

theorem conversion_eq_error_iff :
    h.conversion q v = .error cause ↔ ∃ n, h.Refuses q v n ∧ cause = .invalidCast n.ty q.ty := by
  unfold conversion Refuses Cell.converted
  constructor
  · intro he
    split at he
    · cases he
    · cases he
    · cases he
    · rename_i target n hty hcell
      split at he
      · cases he
      · rename_i hn
        cases he
        exact ⟨n, ⟨⟨target, hty⟩, hcell, Bool.eq_false_iff.2 hn⟩, rfl⟩
    · cases he
    · cases he
  · rintro ⟨n, ⟨⟨target, hty⟩, hcell, hn⟩, rfl⟩
    rw [hty, hcell]
    simp [hn]

/-- A value conforms to a parameter that does not refuse it. -/
theorem conforms_iff (hs : h.Sound) : h.Conforms q v ↔ ¬ ∃ n, h.Refuses q v n := by
  have hends := ends_conform_converted hs v q
  constructor
  · rintro ⟨x, h', hx⟩ ⟨n, hn⟩
    obtain ⟨-, hreceives⟩ := hends.of_ok hx
    obtain ⟨k, hk, -⟩ := hreceives.converted
    cases hk.symm.trans (conversion_eq_error_iff.2 ⟨n, hn, rfl⟩)
  · intro hn
    unfold Conforms
    cases hx : conform v q.ty h with
    | ok x h' => exact ⟨x, h', rfl⟩
    | error cause h' =>
      obtain ⟨-, c, hc, -⟩ := hends.of_error hx
      obtain ⟨n, hn', -⟩ := conversion_eq_error_iff.1 hc
      exact absurd ⟨n, hn'⟩ hn

/-- A parameter of the type of its value does not refuse it. -/
theorem Refuses.ne_tyOf (hr : h.Refuses q v n) : q.ty.unqualified ≠ (h.tyOf v).unqualified := by
  obtain ⟨⟨target, hty⟩, hcell, -⟩ := hr
  rw [hty, tyOf, hcell]
  intro heq
  cases heq

/-- What is accepted and refused is an integer other than zero. -/
theorem Refuses.of_accepts {p : Program} (hr : h.Refuses q v n) (hs : h.Sound)
    (ha : p.accepts q.ty (h.tyOf v) = true) : n.kind.isIntegral = true ∧ n.isZero = false := by
  obtain ⟨⟨target, hty⟩, hcell, hn⟩ := hr
  have hkind : n.kind.isIntegral = true := by
    rw [Program.accepts, hty, tyOf, hcell] at ha
    exact ha
  exact ⟨hkind, (Primitive.isNullConstant_eq (hs.number _ n hcell) hkind).symm.trans hn⟩

/-- What another parameter accepts and does not refuse is a number for it. -/
theorem Refuses.number_of_conforms {p : Program} {q' : Param} (hr : h.Refuses q v n) (hs : h.Sound)
    (ha : p.accepts q'.ty (h.tyOf v) = true) (hc : h.Conforms q' v) :
    ∃ k u, q'.ty.unqualified = .primitive k u := by
  obtain ⟨-, hcell, hn⟩ := hr
  rw [Program.accepts, tyOf, hcell] at ha
  cases hty : q'.ty.unqualified with
  | primitive k u => exact ⟨k, u, rfl⟩
  | pointer target => exact absurd ⟨n, ⟨target, hty⟩, hcell, hn⟩ ((conforms_iff hs).1 hc)
  | array | compound | const =>
    rw [hty] at ha
    simp [cellTy, Primitive.ty, Ty.unqualified] at ha

end Heap

/-! ## Binding -/

/-- The routine can be given the innermost operands as its arguments. -/
def Machine.Binds (m : Machine) (r : Routine) : Prop :=
  ∃ m', Eval.bindParameters r.params m = .ok () m'

namespace Eval

variable {p : Program} {m : Machine} {r : Routine} {values below : List Ref}

section Operands

variable (hs : m.heap.Sound) (hvalues : ∀ v ∈ values, v.In m.size)
  (hitems : m.state.values.items = values.reverse ++ below) (harity : r.arity = values.length)
include hs hvalues hitems harity

/-- Each parameter gets a value that conforms to it, or binding halts at one that
    refuses. -/
theorem binds_cases :
    m.Binds r ∧ (∀ b ∈ r.params.zip values, m.heap.Conforms b.1 b.2) ∨
      ∃ b ∈ r.params.zip values, ∃ n, m.heap.Refuses b.1 b.2 n ∧ ∃ m', bindParameters r.params m =
        .error (.fault { cause := .invalidCast n.ty b.1.ty }) m' := by
  have hends := ends_bindParameters_received hs hvalues harity hitems
  cases hrun : bindParameters r.params m with
  | ok u m' =>
    obtain ⟨-, xs, hxs, -⟩ := hends.of_ok hrun
    refine .inl ⟨⟨m', hrun⟩, fun b hb => ?_⟩
    obtain ⟨x, hx⟩ := exists_mem_zip hxs hb
    obtain ⟨k, hk, -⟩ := ((List.forall₂_iff_zip.1 hxs).2 hx).converted
    refine (Heap.conforms_iff hs).2 fun hn => ?_
    obtain ⟨n, hn⟩ := hn
    cases hk.symm.trans (Heap.conversion_eq_error_iff.2 ⟨n, hn, rfl⟩)
  | error halt m' =>
    obtain ⟨-, b, hb, cause, hcause, rfl⟩ := hends.of_error hrun
    obtain ⟨n, hn, rfl⟩ := Heap.conversion_eq_error_iff.1 hcause
    exact .inr ⟨b, hb, n, hn, m', rfl⟩

end Operands

/-- **Methods that bind.** Of a method chosen for the types of the operands, the
    parameters can be bound exactly if the operands conform to them, as they do if the
    match is exact. Otherwise binding halts at a pointer that is given an integer other
    than zero. If another method accepts the types and its parameters conform, then it
    has a number in that place. -/
theorem overloads_bind {cls name : String} (hs : m.heap.Sound) (hvalues : ∀ v ∈ values, v.In m.size)
    (hitems : m.state.values.items = values.reverse ++ below)
    (hr : p.resolveMethod cls name (values.map m.heap.tyOf) = .ok r) :
    (m.Binds r ↔ ∀ b ∈ r.params.zip values, m.heap.Conforms b.1 b.2) ∧
    (r.Exact (values.map m.heap.tyOf) → m.Binds r) ∧
    (¬ m.Binds r → ∃ b ∈ r.params.zip values, ∃ n, m.heap.Refuses b.1 b.2 n ∧
      n.kind.isIntegral = true ∧ n.isZero = false ∧ ∃ m', bindParameters r.params m =
        .error (.fault { cause := .invalidCast n.ty b.1.ty }) m') ∧
    ∀ s : Routine, p.Accepts s (values.map m.heap.tyOf) →
      (∀ b ∈ s.params.zip values, m.heap.Conforms b.1 b.2) → ¬ m.Binds r →
      ∃ (i : Nat) (q q' : Param) (v : Ref) (n : Primitive), r.params[i]? = some q ∧
        s.params[i]? = some q' ∧ values[i]? = some v ∧ m.heap.Refuses q v n ∧
        n.kind.isIntegral = true ∧ n.isZero = false ∧ ∃ k u, q'.ty.unqualified = .primitive k u := by
  obtain ⟨c, hc, hchosen⟩ := Program.resolveMethod_eq_ok_iff.1 hr
  have harity : r.arity = values.length := by simpa using Program.arity_of_resolveMethod hr
  have hcases := binds_cases hs hvalues hitems harity
  have hexact : r.Exact (values.map m.heap.tyOf) → m.Binds r := by
    intro hexact
    rcases hcases with ⟨hbinds, -⟩ | ⟨b, hb, n, hn, -⟩
    · exact hbinds
    · unfold Routine.Exact at hexact
      rw [List.forall₂_map_right_iff] at hexact
      exact absurd ((List.forall₂_iff_zip.1 hexact).2 hb) hn.ne_tyOf
  have hrefused : ¬ m.Binds r → ∃ b ∈ r.params.zip values, ∃ n, m.heap.Refuses b.1 b.2 n ∧
      n.kind.isIntegral = true ∧ n.isZero = false ∧ ∃ m', bindParameters r.params m =
        .error (.fault { cause := .invalidCast n.ty b.1.ty }) m' := by
    intro hnot
    rcases hcases with ⟨hbinds, -⟩ | ⟨b, hb, n, hn, hhalt⟩
    · exact absurd hbinds hnot
    · have haccepts : p.Accepts r (values.map m.heap.tyOf) :=
        hchosen.viable.taken.resolve_left fun h => hnot (hexact h)
      unfold Program.Accepts at haccepts
      rw [List.forall₂_map_right_iff] at haccepts
      obtain ⟨hkind, hzero⟩ := hn.of_accepts hs ((List.forall₂_iff_zip.1 haccepts).2 hb)
      exact ⟨b, hb, n, hn, hkind, hzero, hhalt⟩
  refine ⟨⟨fun hbinds => ?_, fun hconforms => ?_⟩, hexact, hrefused, ?_⟩
  · rcases hcases with ⟨-, hconforms⟩ | ⟨b, hb, n, -, m', hhalt⟩
    · exact hconforms
    · obtain ⟨m'', hrun⟩ := hbinds
      cases hrun.symm.trans hhalt
  · rcases hcases with ⟨hbinds, -⟩ | ⟨b, hb, n, hn, -⟩
    · exact hbinds
    · exact absurd ⟨n, hn⟩ ((Heap.conforms_iff hs).1 (hconforms b hb))
  · intro s haccepts hconforms hnot
    obtain ⟨⟨q, v⟩, hb, n, hn, hkind, hzero, -⟩ := hrefused hnot
    unfold Program.Accepts at haccepts
    rw [List.forall₂_map_right_iff] at haccepts
    obtain ⟨hlength, hzip⟩ := List.forall₂_iff_zip.1 haccepts
    obtain ⟨i, hi⟩ := List.getElem?_of_mem hb
    obtain ⟨hq, hv⟩ := List.getElem?_zip_eq_some.1 hi
    have hlt : i < s.params.length := hlength ▸ (List.getElem?_eq_some_iff.1 hv).1
    have hq' : s.params[i]? = some s.params[i] := List.getElem?_eq_getElem hlt
    have hb' : (s.params[i], v) ∈ s.params.zip values :=
      List.mem_of_getElem? (List.getElem?_zip_eq_some.2 ⟨hq', hv⟩)
    refine ⟨i, q, s.params[i], v, n, hq, hq', hv, hn, hkind, hzero, ?_⟩
    exact hn.number_of_conforms hs (hzip hb') (hconforms _ hb')

namespace Notes

open Build

/-- A method that takes a value of the given type, and gives back a number. -/
def play (ty : Ty) (answer : Int64) : Routine :=
  function "play" [⟨"note", ty⟩] .int [ret (some (int answer))]

def horn : Compound where
  name := "Horn"
  form := .class_
  methods := [play (.pointer .int) 1, play .double 2]

def band : Program where
  compounds := ⟨[("Horn", horn)], by decide⟩

/-- A machine with a number as its only operand. -/
def holding (n : Int64) : Machine where
  heap := { cells := #[.primitive (.int n)] }
  state := State.push {} ⟨0⟩

theorem holding_sound (n : Int64) : (holding n).heap.Sound :=
  Heap.Sound.empty.alloc (.of_contents rfl (fun p hp => by cases hp; exact Primitive.inRange_of ..) nofun)

theorem holding_in (n : Int64) : ∀ v ∈ [(⟨0⟩ : Ref)], v.In (holding n).size := by
  intro v hv
  obtain rfl := List.mem_singleton.1 hv
  exact Nat.zero_lt_one

/-- Zero conforms to the pointer and is bound. Five does not, and the method that would
    take it has a number in the place of the pointer. -/
theorem play_binds :
    band.resolveMethod "Horn" "play" [.int] = .ok (play (.pointer .int) 1) ∧
    (holding 0).Binds (play (.pointer .int) 1) ∧
    (¬ (holding 5).Binds (play (.pointer .int) 1) →
      ∃ (i : Nat) (q q' : Param) (v : Ref) (n : Primitive), (play (.pointer .int) 1).params[i]? = some q ∧
        (play .double 2).params[i]? = some q' ∧ [(⟨0⟩ : Ref)][i]? = some v ∧ (holding 5).heap.Refuses q v n ∧
        n.kind.isIntegral = true ∧ n.isZero = false ∧ ∃ k u, q'.ty.unqualified = .primitive k u) := by
  have hr : band.resolveMethod "Horn" "play" [.int] = .ok (play (.pointer .int) 1) := rfl
  have hitems (n : Int64) : (holding n).state.values.items = [⟨0⟩].reverse ++ [] := rfl
  refine ⟨hr, ?_, ?_⟩
  · refine (overloads_bind (holding_sound 0) (holding_in 0) (hitems 0) hr).1.2 fun b hb => ?_
    obtain rfl : b = (⟨"note", .pointer .int⟩, ⟨0⟩) := List.mem_singleton.1 hb
    exact ⟨_, _, rfl⟩
  · refine (overloads_bind (holding_sound 5) (holding_in 5) (hitems 5) hr).2.2.2 (play .double 2)
      (.cons rfl .nil) fun b hb => ?_
    obtain rfl : b = (⟨"note", .double⟩, ⟨0⟩) := List.mem_singleton.1 hb
    exact ⟨_, _, rfl⟩

/-- The method chosen for five refuses it, though the other one would take it. -/
theorem five_refused : band.resolveMethod "Horn" "play" [.int] = .ok (play (.pointer .int) 1) ∧
    play .double 2 ∈ horn.methods ∧ band.Accepts (play .double 2) [.int] ∧
    (holding 5).heap.Conforms ⟨"note", .double⟩ ⟨0⟩ ∧ (holding 5).Binds (play .double 2) ∧
    ¬ (holding 5).Binds (play (.pointer .int) 1) := by
  refine ⟨rfl, .tail _ (.head _), .cons rfl .nil, ⟨_, _, rfl⟩, ⟨_, rfl⟩, ?_⟩
  rintro ⟨m', hrun⟩
  cases hrun

end Notes

end Eval

end Treewalk
