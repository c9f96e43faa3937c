/-
  Stores through the receiver.

  * a `Service` is a receiver with the pointer that it is, and with the fields of the compound
    at that place; `Heap.Serves s h`: it is so in the heap, and the fields that may be stored
    into are numbers and pointers. New values leave it so, and stores into such a field;
  * `Machine.Attends s m m'`: the service goes on, if the receiver is that of the innermost
    context;
  * `Engine.Fills e N n`: nothing is stored but into fields of `this` with names in `N`;
  * `attends_evaluate`: so `this` stays the pointer that it is.
-/
import Treewalk.Proofs.Effects
import Treewalk.Proofs.Places
import Treewalk.Proofs.Runs
import Treewalk.Proofs.Stored
import Treewalk.Proofs.Zeros

namespace Treewalk

open Mem

variable {h h' : Heap} {t : Ref}

/-! ## Numbers and pointers -/

theorem Cell.IsLeaf.not_isSlot (ht : (h.cell t).IsLeaf) : ¬ h.isSlot t := by
  unfold Heap.isSlot
  cases hc : h.cell t with
  | primitive | pointer => exact id
  | array | slot | compound =>
    rw [hc] at ht
    exact ht.elim

theorem Heap.Grounded.isLeaf (hg : h.Grounded) (ht : (h.tree t).IsLeaf) : (h.cell t).IsLeaf := by
  rw [hg.tree_eq] at ht
  cases hc : h.cell t with
  | primitive | pointer => trivial
  | array | slot | compound =>
    rw [hc] at ht
    exact ht

/-- A store into a number or pointer gives it another number or place. -/
theorem Heap.update_leaf {c source : Cell} {u : Update} (hc : c.IsLeaf) (hu : h.update c source = .ok u) :
    (∃ n, u = .primitive n) ∨ ∃ p, c = .pointer p ∧ ((∃ b i, u = .place b i) ∨ u = .null) := by
  unfold update at hu
  cases c with
  | primitive | pointer => cases source <;> grind
  | array | slot | compound => exact hc.elim

/-- A store into a number or pointer changes no other cell. -/
theorem ends_assign_leaf (hlt : t.id < h.cells.size) (ht : (h.cell t).IsLeaf) (source : Ref) :
    Ends (assign t source) h (fun _ h' => h.Edits (· = t) h' ∧ (h'.cell t).IsLeaf)
      fun _ h' => h.Edits (· = t) h' ∧ (h'.cell t).IsLeaf := by
  have hsame : h.Edits (· = t) h ∧ (h.cell t).IsLeaf := ⟨(Heap.Adjoins.refl h).edits, ht⟩
  have hset {h₁ : Heap} (he : h.Edits (· = t) h₁) {c : Cell} (hc : c.IsLeaf) :
      h.Edits (· = t) (h₁.setCell t c) ∧ ((h₁.setCell t c).cell t).IsLeaf := by
    refine ⟨he.setCell rfl, ?_⟩
    rwa [Heap.cell_setCell, if_pos ⟨rfl, hlt.trans_le he.cells_le⟩]
  refine ends_bind.2 (ends_read.2 ?_)
  cases 2 * h.levels with
  | zero => exact hsame
  | succ k =>
    by_cases hne : t = h.flatten source
    · refine ends_bind.2 (ends_read.2 ?_)
      rw [if_pos hne]
      exact hsame
    refine (ends_congr (assignWithin_bare (Cell.IsLeaf.not_isSlot ht) hne)).2 (ends_bind.2 (ends_answer.2 ?_))
    cases hu : h.update (h.cell t) (h.cell (h.flatten source)) with
    | error => exact hsame
    | ok u =>
      rcases Heap.update_leaf ht hu with ⟨n, rfl⟩ | ⟨p, hp, ⟨b, i, rfl⟩ | rfl⟩
      · exact hset hsame.1 trivial
      · refine ends_change.2 ?_
        rw [hp]
        exact hset hsame.1 trivial
      · refine ends_bind.2 (ends_allocBlock.2 (ends_change.2 ?_))
        rw [Heap.cell_allocBlock, hp]
        exact hset (hsame.1.allocBlock #[]) trivial

/-! ## Receivers -/

/-- A receiver and what it points at. -/
structure Service where
  receiver : Ref
  place : Pointer
  fields : List (String × Ref)
  /-- the names of the fields that may be stored into -/
  names : String → Prop

variable {s : Service}

/-- The value is a field that may be stored into. -/
def Service.Target (s : Service) (t : Ref) : Prop :=
  ∃ name, s.names name ∧ (name, t) ∈ s.fields

namespace Heap

/-- The receiver points at a compound with these fields, and those that may be stored
    into are numbers and pointers other than the receiver. -/
structure Serves (s : Service) (h : Heap) : Prop where
  points : h.cell s.receiver = .pointer s.place
  object : ∃ x ty, h.slotOf s.place = .ok x ∧ h.cell x = .compound ty s.fields
  other : ¬ s.Target s.receiver
  target : ∀ t, s.Target t → t.id < h.cells.size ∧ (h.cell t).IsLeaf

namespace Serves

variable (hs : h.Serves s)
include hs

theorem of_edits (he : h.Edits s.Target h') (hleaf : ∀ t, s.Target t → (h'.cell t).IsLeaf) : h'.Serves s := by
  obtain ⟨x, ty, hx, hcompound⟩ := hs.object
  have hblock : s.place.block.id < h.blocks.size := by
    by_contra hle
    have hmem := getElem?_of_slotOf hx
    rw [block_of_le (Nat.le_of_not_lt hle)] at hmem
    cases hmem
  have hobject : ¬ s.Target x := by
    intro htarget
    have hleaf := (hs.target x htarget).2
    rw [hcompound] at hleaf
    exact hleaf
  refine ⟨?_, ⟨x, ty, ?_, ?_⟩, hs.other, fun t ht => ⟨(hs.target t ht).1.trans_le he.cells_le, hleaf t ht⟩⟩
  · rw [he.cell _ (lt_of_cell_ne (by rw [hs.points]; exact Cell.noConfusion)) hs.other, hs.points]
  · rw [slotOf_congr (he.block _ hblock), hx]
  · rw [he.cell x (lt_of_cell_ne (by rw [hcompound]; exact Cell.noConfusion)) hobject, hcompound]

theorem of_adds (ha : h.Adds h') : h'.Serves s := by
  refine hs.of_edits ⟨ha.layout, ha.cells_le, ha.blocks_le, fun x hx _ => ha.cell x hx, ha.block⟩ fun t ht => ?_
  rw [ha.cell t (hs.target t ht).1]
  exact (hs.target t ht).2

theorem ends_assign (ht : s.Target t) (source : Ref) :
    Ends (assign t source) h (fun _ h' => h'.Serves s) fun _ h' => h'.Serves s := by
  have hkept (h' : Heap) (he : h.Edits (· = t) h' ∧ (h'.cell t).IsLeaf) : h'.Serves s := by
    refine hs.of_edits ((Adjoins.refl h).edits.trans he.1 fun x _ hx => hx ▸ ht) fun x hx => ?_
    by_cases hxt : x = t
    · exact hxt ▸ he.2
    · rw [he.1.cell x (hs.target x hx).1 hxt]
      exact (hs.target x hx).2
  exact (ends_assign_leaf (hs.target t ht).1 (hs.target t ht).2 source).mono (fun _ => hkept) fun _ => hkept

theorem target_of_fieldOf {owner : Ref} {name : String} (howner : owner = s.receiver ∨ h.slotOf s.place = .ok owner)
    (hname : s.names name) (ht : h.fieldOf owner name = .ok t) : s.Target t := by
  obtain ⟨x, ty, hx, hcompound⟩ := hs.object
  have hflat : h.flatten x = x := by simp [flatten, hcompound]
  have hobject {y : Ref} (hy : h.fieldOwner owner name = .ok y) : y = x := by
    unfold fieldOwner at hy
    rcases howner with rfl | ho
    · rw [hs.points] at hy
      dsimp only at hy
      split at hy
      · cases hy
      · rw [hx] at hy
        cases hy
        exact hflat
    · cases ho.symm.trans hx
      rw [hcompound] at hy
      cases hy
      rfl
  unfold fieldOf at ht
  cases hy : h.fieldOwner owner name with
  | error => rw [hy] at ht; cases ht
  | ok y =>
    obtain rfl := hobject hy
    rw [hy] at ht
    simp only [bind, Except.bind, field?, hflat, hcompound] at ht
    split at ht
    · rename_i hfound
      cases ht
      exact ⟨name, hname, Dict.mem_of_find? hfound⟩
    · cases ht

end Serves

end Heap

/-- The address of a new compound, whose fields have the types declared for them. -/
theorem exists_serves {p : Program} {form : Form} {name : String} {N : String → Prop} {object receiver : Ref}
    {h₁ h₂ : Heap} (hg : h.Grounded) (hobject : createValue p (.compound form name) h = .ok object h₁)
    (hreceiver : toPointer object h₁ = .ok receiver h₂)
    (hN : ∀ f ∈ p.allFields name, N f.name → f.ty.IsScalar) : ∃ q fields, h₂.Serves ⟨receiver, q, fields, N⟩ := by
  obtain ⟨hm, hz⟩ := Ends.of_ok (ends_createValue p _ hg) hobject
  have ha : h₁.Adds h₂ := (keeps_toPointer (R := Heap.Adds) object h₁).of_ok hreceiver
  generalize htree : h₁.tree object = tree at hz
  cases hz with
  | @compound n _ _ trees _ hnames hzeros =>
    obtain ⟨fields, hcompound, rfl⟩ := hm.grounded.cell_of_compound htree
    have hlt {x : String} {t : Ref} (ht : (x, t) ∈ fields) : t.id < h₁.cells.size := by
      refine hm.grounded.part_lt object t ?_
      unfold Heap.parts
      rw [hcompound]
      exact List.mem_map_of_mem ht
    have hleaf {x : String} {t : Ref} (ht : (x, t) ∈ fields) (hx : N x) : (h₁.cell t).IsLeaf := by
      obtain ⟨i, hi⟩ := List.mem_iff_getElem?.1 ht
      have hdeclared := congrArg (·[i]?) hnames
      simp only [List.getElem?_map, hi, Option.map_some] at hdeclared
      obtain ⟨d, hd, rfl⟩ := Option.map_eq_some_iff.1 hdeclared.symm
      have hz := hzeros ((d.name, h₁.tree t), d) (ValueTree.mem_zip_iff.2 ⟨i, by simp [hi], hd⟩)
      exact hm.grounded.isLeaf (hz.hasTy.isLeaf hz.not_isSlot (hN d (List.mem_of_getElem? hd) hx))
    have hnew : toPointer object h₁ = .ok ⟨h₁.cells.size⟩
        ((h₁.allocBlock #[object]).2.alloc (.pointer ⟨h₁.tyOf object, ⟨h₁.blocks.size⟩, 0⟩)).2 := by
      unfold toPointer slotFor
      rw [read_bind, bind_assoc, read_bind, hcompound]
      rfl
    cases hnew.symm.trans hreceiver
    refine ⟨_, fields, Heap.cell_alloc_new _ _, ⟨object, .compound form name, ?_, ?_⟩, ?_, ?_⟩
    · rw [Heap.slotOf_eq_ok, Heap.block_alloc, Heap.block_allocBlock, if_pos rfl]
      rfl
    · rw [ha.cell object hm.lt, hcompound]
    · rintro ⟨x, -, hx⟩
      exact Nat.lt_irrefl _ (hlt hx)
    · rintro t ⟨x, hx, ht⟩
      rw [ha.cell t (hlt ht)]
      exact ⟨(hlt ht).trans_le ha.cells_le, hleaf ht hx⟩

/-- In the context of its receiver, the service goes on. -/
structure Machine.Attends (s : Service) (m m' : Machine) : Prop where
  contexts : m'.state.contexts = m.state.contexts
  serves : m.state.receiver? = some s.receiver → m.heap.Serves s → m'.heap.Serves s

theorem Machine.Attends.receiver? {m m' : Machine} (h : m.Attends s m') : m'.state.receiver? = m.state.receiver? := by
  unfold State.receiver?
  rw [h.contexts]

instance : Machine.Blind (Machine.Attends s) where
  refl := fun _ => ⟨rfl, fun _ h => h⟩
  trans := fun _ _ _ h h' =>
    ⟨h'.contexts.trans h.contexts, fun hr hm => h'.serves (h.receiver?.trans hr) (h.serves hr hm)⟩
  values := fun _ _ => ⟨rfl, fun _ h => h⟩
  nearest := fun _ _ => ⟨rfl, fun _ h => h⟩

namespace Eval

variable {α : Type} {e : Engine} {fuel : Nat} {node lhs rhs owner : Node} {op : AssignOp} {name : String}

/-! ## Stores into fields of `this` -/

/-- `this` or `*this`. -/
inductive IsThis : Node → Prop
  | pointer {n : Node} : n.construct = .id receiverName → IsThis n
  | object {n p : Node} : n.construct = .deref p → p.construct = .id receiverName → IsThis n

theorem attends_of_adds {x : Eval α} (hx : Orderly Heap.Adds x) : Relates (Machine.Attends s) x := by
  intro m
  have hkept {m' : Machine} (hp : m.Proceeds Heap.Adds m') : m.Attends s m' :=
    ⟨hp.state.contexts, fun _ hs => hs.of_adds hp.heap⟩
  exact (hx m).mono (fun _ _ hp => hkept hp) fun _ _ hp => ⟨hkept hp.1, trivial⟩

theorem tolerates_attends {K : Effect → Prop} (hstore : ¬ K .store) (hrelease : ¬ K .release) :
    Tolerates K (Machine.Attends s) := by
  have hmem {α : Type} {x : Mem α} (hx : ∀ (R : Heap → Heap → Prop) [Heap.Additive R], Mem.Keeps R x) :
      Relates (Machine.Attends s) (liftM x : Eval α) :=
    attends_of_adds (orderly_mem (hx Heap.Adds))
  exact { mem := fun hx => hmem hx.within
          operands := operands_of_bind .bind hmem
          store := fun hK => absurd hK hstore
          release := fun hK => absurd hK hrelease }

section Store

theorem owner_of_valueOf {m m' : Machine} {o : Ref} (howner : IsThis owner)
    (hr : m.state.receiver? = some s.receiver) (hs : m.heap.Serves s)
    (ho : valueOf (evaluate e fuel) owner m = .ok o m') :
    (o = s.receiver ∨ m.heap.slotOf s.place = .ok o) ∧ m'.heap = m.heap := by
  have hthis {p : Node} {k : Nat} {m m' : Machine} {o : Ref} (hp : p.construct = .id receiverName)
      (hr : m.state.receiver? = some s.receiver) (hs : m.heap.Serves s)
      (ho : valueOf (evaluate e k) p m = .ok o m') : o = s.receiver ∧ m'.heap = m.heap := by
    obtain ⟨r, hnamed, rfl, hheap⟩ := exists_of_id hp ho
    obtain rfl : s.receiver = r := by simpa [named, hr] using hnamed
    exact ⟨by simp [Heap.flatten, hs.points], hheap⟩
  cases howner with
  | pointer hn => exact (hthis hn hr hs ho).imp_left .inl
  | @object p hn hp =>
    have hdispatch (k : Nat) : dispatch e k (evaluate e k) owner =
        (valueOf (evaluate e k) p >>= fun r => look? (·.referent r)) >>= yield := by
      unfold dispatch
      rw [hn, bind_assoc]
      rfl
    obtain ⟨k, token, v, rfl, hvalue, rfl⟩ := exists_of_yield hdispatch ho
    obtain ⟨r, m₁, hr₁, hreferent⟩ := bind_eq_ok_iff.1 hvalue
    obtain ⟨hreferent, rfl⟩ := look?_eq_ok_iff.1 hreferent
    obtain ⟨rfl, hheap⟩ := hthis (m := { m with nearest := token }) hp hr hs hr₁
    obtain ⟨x, ty, hx, hcompound⟩ := hs.object
    rw [hheap] at hreferent ⊢
    unfold Heap.referent at hreferent
    rw [hs.points] at hreferent
    cases hx.symm.trans hreferent
    exact ⟨.inr (by simpa [Heap.flatten, hcompound] using hx), rfl⟩

variable (hlhs : lhs.construct = .field owner name) (howner : IsThis owner) (hname : s.names name)
include hlhs howner hname

theorem target_of_valueOf {m m' : Machine} (hr : m.state.receiver? = some s.receiver) (hs : m.heap.Serves s)
    (hv : valueOf (evaluate e fuel) lhs m = .ok t m') : s.Target t := by
  have hdispatch (k : Nat) : dispatch e k (evaluate e k) lhs =
      (valueOf (evaluate e k) owner >>= fun o => look? (·.fieldOf o name)) >>= yield := by
    unfold dispatch
    rw [hlhs, bind_assoc]
    rfl
  obtain ⟨k, token, v, rfl, hvalue, rfl⟩ := exists_of_yield hdispatch hv
  obtain ⟨o, m₁, ho, hfield⟩ := bind_eq_ok_iff.1 hvalue
  obtain ⟨hfield, rfl⟩ := look?_eq_ok_iff.1 hfield
  obtain ⟨howner, hheap⟩ := owner_of_valueOf (m := { m with nearest := token }) howner hr hs ho
  rw [hheap] at hfield
  have htarget := hs.target_of_fieldOf howner hname hfield
  rwa [hheap, Heap.flatten_of_not_isSlot (Cell.IsLeaf.not_isSlot (hs.target v htarget).2)]

/-- The target is found first, and is still a target when the right side has been
    evaluated. -/
theorem attends_store (hnode : node.construct = .assignment op lhs rhs)
    (hl : Relates (Machine.Attends s) (evaluate e fuel lhs))
    (hr : Relates (Machine.Attends s) (evaluate e fuel rhs)) :
    Relates (Machine.Attends s) (evaluate e (fuel + 1) node) := by
  intro m
  have hserves (hm : m.state.receiver? = some s.receiver) (hs : m.heap.Serves s) :
      Ends (evaluate e (fuel + 1) node) m (fun _ m' => m'.heap.Serves s) fun _ m' => m'.heap.Serves s := by
    refine ends_visit fun m₁ hstate hheap => ?_
    rw [← hstate] at hm
    rw [← hheap] at hs
    unfold dispatch
    rw [hnode]
    refine ends_bind.2 ?_
    cases hv : valueOf (evaluate e fuel) lhs m₁ with
    | error halt m₂ => exact (ends_iff_of_error hv).2 (((within_valueOf hl m₁).of_error hv).1.serves hm hs)
    | ok t m₂ =>
      have htarget := target_of_valueOf hlhs howner hname hm hs hv
      have hfirst := (within_valueOf hl m₁).of_ok hv
      have hm₂ := hfirst.receiver?.trans hm
      have hs₂ := hfirst.serves hm hs
      have hstore (source : Ref) {m₃ : Machine} (hs₃ : m₃.heap.Serves s) :
          Ends (do assign t source; yield t : Eval Outcome) m₃ (fun _ m' => m'.heap.Serves s)
            fun _ m' => m'.heap.Serves s :=
        ends_bind.2 (ends_mem.2 (hs₃.ends_assign htarget source))
      refine (ends_iff_of_ok hv).2 (ends_bind.2 ((within_valueOf hr m₂).mono (fun source m₃ hsecond => ?_)
        fun _ _ hsecond => hsecond.1.serves hm₂ hs₂))
      have hs₃ := hsecond.serves hm₂ hs₂
      cases op with
      | assign => exact hstore source hs₃
      | compound op =>
        refine ends_bind.2 (ends_mem.2 ?_)
        have hadds := (additive_binaryOperation op t source).within Heap.Adds m₃.heap
        exact hadds.mono (fun r _ ha => hstore r (hs₃.of_adds ha)) fun _ _ ha => hs₃.of_adds ha.1
  have hcontexts := orderly_evaluate e (fuel + 1) node m
  by_cases hm : m.state.receiver? = some s.receiver ∧ m.heap.Serves s
  · exact (hcontexts.and (hserves hm.1 hm.2)).mono (fun _ _ h => ⟨h.1.state.contexts, fun _ _ => h.2⟩)
      fun _ _ h => ⟨⟨h.1.1.state.contexts, fun _ _ => h.2⟩, trivial⟩
  · exact hcontexts.mono (fun _ _ h => ⟨h.state.contexts, fun hr hs => absurd ⟨hr, hs⟩ hm⟩)
      fun _ _ h => ⟨⟨h.1.state.contexts, fun hr hs => absurd ⟨hr, hs⟩ hm⟩, trivial⟩

end Store

end Eval

/-- The node stores nothing but into fields of `this` with names in `N`, and calls nothing
    that stores. -/
inductive Engine.Fills (e : Engine) (N : String → Prop) : Node → Prop
  | quiet {n : Node} : e.Confined (fun k => k ≠ .store ∧ k ≠ .release) n → Fills e N n
  | store {n lhs rhs owner : Node} {op : AssignOp} {name : String} : n.construct = .assignment op lhs rhs →
      lhs.construct = .field owner name → Eval.IsThis owner → N name → Fills e N rhs → Fills e N n
  | other {n : Node} : (∀ k ∈ n.construct.effects, k ≠ .store ∧ k ≠ .release ∧ k ≠ .call) →
      (∀ c ∈ n.construct.children, Fills e N c) → Fills e N n

theorem Engine.Fills.child {e : Engine} {N : String → Prop} {n c : Node} (h : e.Fills N n)
    (hc : c ∈ n.construct.children) : e.Fills N c := by
  cases h with
  | quiet hquiet =>
    obtain ⟨G, C, hG, hn⟩ := hquiet
    exact .quiet ⟨G, C, hG, hG.child hn hc⟩
  | store hnode hlhs howner _ hrhs =>
    rw [hnode] at hc
    rcases List.mem_pair.1 hc with rfl | rfl
    · refine .other (by simp [hlhs, Construct.effects]) fun d hd => ?_
      rw [hlhs] at hd
      obtain rfl := List.mem_singleton.1 hd
      cases howner with
      | pointer ho => exact .other (by simp [ho, Construct.effects]) (by simp [ho])
      | object ho hp =>
        refine .other (by simp [ho, Construct.effects]) fun d hd => ?_
        rw [ho] at hd
        obtain rfl := List.mem_singleton.1 hd
        exact .other (by simp [hp, Construct.effects]) (by simp [hp])
    · exact hrhs
  | other _ hchildren => exact hchildren c hc

/-- **Stores through `this`.** They leave it the pointer that it is. -/
theorem Eval.attends_evaluate {e : Engine} {node : Node} (h : e.Fills s.names node) (fuel : Nat) :
    Relates (Machine.Attends s) (evaluate e fuel node) := by
  have hcompositional := compositional_within (e := e) (G := e.Fills s.names) (R := Machine.Attends s)
    (K := fun k => k ≠ .store ∧ k ≠ .release ∧ k ≠ .call)
    (fun m s hs => ⟨hs.resolve_left fun hK => hK.2.2 rfl, fun _ hserves => hserves⟩)
    (tolerates_attends (fun hK => hK.1 rfl) fun hK => hK.2.1 rfl) (fun _ _ _ => ⟨rfl, fun _ hserves => hserves⟩)
    fun hK => absurd rfl hK.2.2
  refine hcompositional.evaluate_of_parts (fun hK => hK.2.2 rfl) Engine.Fills.child (fun hn hev => ?_) fuel h
  cases hn with
  | quiet hquiet => exact .inr (attends_of_adds (adds_evaluate hquiet _))
  | store hnode hlhs howner hname hrhs =>
    have hfills := Engine.Fills.child (.store hnode hlhs howner hname hrhs) (by rw [hnode]; exact List.mem_cons_self)
    exact .inr (attends_store hlhs howner hname hnode (hev _ hfills) (hev _ hrhs))
  | other heffects => exact .inl heffects

end Treewalk
