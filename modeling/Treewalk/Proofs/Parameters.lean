/-
  What parameters are bound to.

  * `Cell.converted c ty`: what a parameter of the type gets for a number, a pointer or
    an absent value (`Cell.IsScalar`), or the reason why it gets nothing;
  * `Heap.Receives h q r x h'`: the parameter `q` has received the new value `x` for `r`;
  * `ends_bindParameters_received`: binding gives every parameter what it is to receive,
    or halts at one that refuses;
  * `parameters_receive`: what this means for the arguments of a call.
-/
import Treewalk.Proofs.Conversions
import Treewalk.Proofs.Effects
import Treewalk.Proofs.Isolation
import Treewalk.Proofs.Passing

namespace Treewalk

open Mem

/-! ## Conversions -/

/-- A number, a pointer, or an absent value. -/
def Cell.IsScalar : Cell → Prop
  | .primitive _ | .pointer _ | .slot .. => True
  | _ => False

/-- What a parameter of the type gets for a value. A number is converted to a number,
    and a null constant to the null pointer; an absent value becomes zero. Anything else
    is taken as it is. -/
def Cell.converted (c : Cell) (ty : Ty) : Except Cause Casted :=
  match ty.unqualified, c with
  | .primitive .void _, c => .ok (.cell c)
  | .primitive k u, .primitive p => .ok (.cell (.primitive (p.converted k u)))
  | .primitive k u, .slot .. => .ok (.cell (.primitive (.zero k u)))
  | .pointer target, .primitive p =>
    if p.isNullConstant then .ok (.null target) else .error (.invalidCast p.ty ty)
  | .pointer target, .slot .. => .ok (.null target)
  | _, c => .ok (.cell c)

/-- The value is that: the cell, or a pointer into an empty block. -/
def Heap.Shows (h : Heap) (x : Ref) : Casted → Prop
  | .cell c => h.cell x = c
  | .null t => ∃ b, b.id < h.blocks.size ∧ h.block b = #[] ∧ h.cell x = .pointer ⟨t, b, 0⟩

/-- What the parameter is to get for the value. -/
def Heap.conversion (h : Heap) (q : Param) (r : Ref) : Except Cause Casted :=
  (h.cell (h.flatten r)).converted q.ty

/-- The parameter has received a new value, the conversion of the given one. -/
structure Heap.Receives (h : Heap) (q : Param) (r x : Ref) (h' : Heap) : Prop where
  new : h.cells.size ≤ x.id
  lt : x.id < h'.cells.size
  converted : ∃ k, h.conversion q r = .ok k ∧ ((h.cell (h.flatten r)).IsScalar → h'.Shows x k)

section Conform

variable {h h' h₁ h₂ : Heap} {r x : Ref} {ty : Ty} {q : Param} {c : Cell}

theorem Cell.converted_eq_casted (hc : c.IsPlain) (hty : ty.IsScalar) : c.converted ty = h.casted c ty := by
  rcases Ty.isScalar_iff.1 hty with ⟨k, u, hty, hk⟩ | ⟨target, hty⟩
  · rw [Heap.casted_number hty hk]
    unfold converted
    rw [hty]
    cases k with
    | void => exact absurd rfl hk
    | char | short | int | long | float | double =>
      cases c with
      | primitive | slot => rfl
      | array | pointer | compound => exact hc.elim
  · rw [Heap.casted_pointer hty]
    unfold converted
    rw [hty]
    cases c with
    | primitive | slot => rfl
    | array | pointer | compound => exact hc.elim

theorem Cell.converted_of_not (hc : ¬ (ty.IsScalar ∧ c.IsPlain)) : c.converted ty = .ok (.cell c) := by
  unfold converted
  split
  · rfl
  · rename_i k u p hk hty
    exact absurd ⟨Ty.isScalar_iff.2 (.inl ⟨k, u, hty, hk⟩), trivial⟩ hc
  · rename_i k u ty' content hk hty
    exact absurd ⟨Ty.isScalar_iff.2 (.inl ⟨k, u, hty, hk⟩), trivial⟩ hc
  · rename_i target p hty
    exact absurd ⟨Ty.isScalar_iff.2 (.inr ⟨target, hty⟩), trivial⟩ hc
  · rename_i target ty' content hty
    exact absurd ⟨Ty.isScalar_iff.2 (.inr ⟨target, hty⟩), trivial⟩ hc
  · rfl

namespace Heap

theorem Shows.adds {k : Casted} (hx : h.Shows x k) (hlt : x.id < h.cells.size) (ha : h.Adds h') :
    h'.Shows x k := by
  cases k with
  | cell c => exact (ha.cell x hlt).trans hx
  | null t =>
    obtain ⟨b, hb, hempty, hx⟩ := hx
    exact ⟨b, hb.trans_le ha.blocks_le, (ha.block b hb).trans hempty, (ha.cell x hlt).trans hx⟩

/-- A scalar value looks like its cell. -/
theorem cell_of_boundTree (hs : h.Sound) (hg : h'.Grounded) (hc : (h.cell (h.flatten r)).IsScalar)
    (htree : h'.tree x = h.boundTree r) : h'.cell x = h.cell (h.flatten r) := by
  have htree' := hs.grounded.tree_eq (h.flatten r)
  unfold boundTree at htree
  cases hcell : h.cell (h.flatten r) with
  | primitive p =>
    rw [hcell] at htree htree'
    exact hg.cell_of_primitive (htree.trans htree')
  | pointer p =>
    rw [hcell] at htree htree'
    exact hg.cell_of_pointer (htree.trans htree')
  | slot ty content =>
    obtain rfl := hs.flatten_of_slot hcell
    rw [hcell] at htree htree'
    exact hg.cell_of_absent (htree.trans htree')
  | array | compound =>
    rw [hcell] at hc
    exact hc.elim

end Heap

/-- A null pointer leads to a block of its own. -/
theorem ends_castTo_null {t : Ty} (hk : h.casted (h.cell (h.flatten r)) ty = .ok (.null t)) :
    Ends (castTo r ty) h (fun x h' => ∃ b, b.id < h'.blocks.size ∧ h'.cell x = .pointer ⟨t, b, 0⟩)
      fun _ _ => True := by
  refine ends_bind.2 (ends_read.2 (ends_bind.2 (ends_answer.2 ?_)))
  rw [hk]
  refine ends_bind.2 (ends_allocBlock.2 (ends_alloc.2 ⟨⟨h.blocks.size⟩, ?_, Heap.cell_alloc_new _ _⟩))
  rw [Heap.blocks_alloc, Heap.blocks_size_allocBlock]
  exact Nat.lt_succ_self _

theorem ends_conform_null {t : Ty} (hs : h.Sound) (hconv : h.Converts r ty)
    (hk : h.casted (h.cell (h.flatten r)) ty = .ok (.null t)) :
    Ends (conform r ty) h (fun x h' => ∃ b, b.id < h'.blocks.size ∧ h'.cell x = .pointer ⟨t, b, 0⟩)
      fun _ _ => True := by
  refine ends_bind.2 ((ends_copyForBinding hs.grounded r).mono ?_ fun _ _ => False.elim)
  intro bound h₁ hm
  obtain ⟨hcell, hflat⟩ := hm.cell_eq hs (.inl hconv.2)
  have hcast : Ends (castTo bound ty) h₁ _ _ := ends_castTo_null (t := t) <| by
    rw [hflat, hcell, Heap.casted_congr hconv.2 hconv.1]
    exact hk
  refine ends_bind.2 (ends_read.2 ?_)
  rw [hcell]
  rcases Ty.isScalar_iff.1 hconv.1 with ⟨k, u, hty, hvoid⟩ | ⟨target, hty⟩
  · rw [Heap.casted_number hty hvoid] at hk
    split at hk
    · cases hk
    · split at hk <;> cases hk
    · cases hk
    · cases hk
  · rw [hty]
    rcases Cell.isPlain_iff.1 hconv.2 with ⟨p, hp⟩ | ⟨ty', content, hp⟩
    · rw [hp]
      exact hcast
    · rw [hp]
      exact hcast

theorem Heap.Holds.shows {k : Casted} (hx : h.Holds x h' k)
    (hnull : ∀ t, k = .null t → ∃ b, b.id < h'.blocks.size ∧ h'.cell x = .pointer ⟨t, b, 0⟩) :
    h'.Shows x k := by
  cases k with
  | cell c => exact hx
  | null t =>
    obtain ⟨b, -, hempty, hcell⟩ := hx
    obtain ⟨b', hb', hcell'⟩ := hnull t rfl
    cases hcell.symm.trans hcell'
    exact ⟨b, hb', hempty, hcell⟩

theorem ends_conform_converted (hs : h.Sound) (r : Ref) (q : Param) :
    Ends (conform r q.ty) h (fun x h' => h.Minted x h' ∧ h.Receives q r x h')
      fun halt h' => h.Adds h' ∧ ∃ cause, h.conversion q r = .error cause ∧ halt = .of cause := by
  by_cases hconv : h.Converts r q.ty
  · have hnull : Ends (conform r q.ty) h (fun x h' => ∀ t, h.casted (h.cell (h.flatten r)) q.ty = .ok (.null t) →
        ∃ b, b.id < h'.blocks.size ∧ h'.cell x = .pointer ⟨t, b, 0⟩) fun _ _ => True := by
      by_cases ht : ∃ t, h.casted (h.cell (h.flatten r)) q.ty = .ok (.null t)
      · obtain ⟨t, ht⟩ := ht
        refine (ends_conform_null hs hconv ht).mono (fun x h' hx t' ht' => ?_) fun _ _ _ => trivial
        cases ht.symm.trans ht'
        exact hx
      · exact Ends.of_forall (fun x h' t ht' => absurd ⟨t, ht'⟩ ht) fun _ _ => trivial
    refine ((ends_conform hs r q.ty).and hnull).mono ?_ ?_
    · rintro x h' ⟨⟨hm, hx⟩, hnull⟩
      obtain ⟨k, hk, hholds⟩ := hx.converted hconv
      refine ⟨hm, hm.new, hm.lt, k, (Cell.converted_eq_casted hconv.2 hconv.1).trans hk, fun _ => ?_⟩
      exact hholds.shows fun t ht => hnull t (ht ▸ hk)
    · rintro _ h' ⟨⟨hw, -, cause, rfl, he⟩, -⟩
      exact ⟨hw.adds, cause, (Cell.converted_eq_casted hconv.2 hconv.1).trans he, rfl⟩
  · refine (ends_conform hs r q.ty).mono ?_ ?_
    · rintro x h' ⟨hm, hx⟩
      refine ⟨hm, hm.new, hm.lt, _, Cell.converted_of_not hconv, fun hc => ?_⟩
      exact Heap.cell_of_boundTree hs hm.grounded hc (hx.kept hconv)
    · rintro cause h' ⟨-, hconv', -⟩
      exact absurd hconv' hconv

end Conform

/-! ## Binding -/

namespace Heap

variable {h h₁ h₂ h₃ : Heap} {q : Param} {r x : Ref}

theorem conversion_flatten (hs : h.Sound) (q : Param) (r : Ref) :
    h.conversion q (h.flatten r) = h.conversion q r := by
  unfold conversion
  rw [flatten_flatten hs]

theorem Receives.flatten (hs : h.Sound) (hx : h.Receives q (h.flatten r) x h₁) : h.Receives q r x h₁ := by
  obtain ⟨k, hk, hshows⟩ := hx.converted
  rw [flatten_flatten hs] at hshows
  exact ⟨hx.new, hx.lt, k, (conversion_flatten hs q r).symm.trans hk, hshows⟩

/-- New values do not change what there is to receive, -/
theorem Adds.cell_flatten (ha : h.Adds h₁) (hg : h.Grounded) (hr : r.id < h.cells.size) :
    h₁.cell (h₁.flatten r) = h.cell (h.flatten r) := by
  have hi := ha.intact hg hr
  rw [hi.flatten_eq]
  exact hi.cell _ (h.reaches_flatten r)

/-- nor what has been received. -/
theorem Receives.between (hx : h₁.Receives q r x h₂) (ha : h.Adds h₁) (ha' : h₂.Adds h₃) (hg : h.Grounded)
    (hr : r.id < h.cells.size) : h.Receives q r x h₃ := by
  obtain ⟨k, hk, hshows⟩ := hx.converted
  unfold conversion at hk
  rw [ha.cell_flatten hg hr] at hk hshows
  refine ⟨ha.cells_le.trans hx.new, hx.lt.trans_le ha'.cells_le, k, hk, fun hc => ?_⟩
  exact (hshows hc).adds hx.lt ha'

end Heap

/-- Bind names one after the other. -/
def State.bindAll (s : State) (l : List (String × Ref)) : State :=
  l.foldl (fun s b => s.bind b.1 b.2) s

theorem State.frame_bindAll (s : State) (l : List (String × Ref)) :
    (s.bindAll l).frame = l.foldl (fun d b => d.insert b.1 b.2) s.frame := by
  induction l generalizing s with
  | nil => rfl
  | cons b rest ih => exact ih _

namespace Eval

variable {m : Machine}

theorem ends_bindAll_received {l : List (Param × Ref)} (hs : m.heap.Sound) (hl : ∀ b ∈ l, b.2.In m.size) :
    Ends (bindAll l) m
      (fun _ m' => m.heap.Adds m'.heap ∧
        ∃ xs, List.Forall₂ (fun b x => m.heap.Receives b.1 b.2 x m'.heap) l xs ∧
          m'.state = m.state.bindAll ((l.map fun b => b.1.name).zip xs))
      fun halt m' => m.heap.Adds m'.heap ∧
        ∃ b ∈ l, ∃ cause, m.heap.conversion b.1 b.2 = .error cause ∧ halt = .fault { cause } := by
  induction l generalizing m with
  | nil => exact ⟨refl _, [], .nil, rfl⟩
  | cons b rest ih =>
    obtain ⟨q, r⟩ := b
    have hr : r.In m.size := hl _ List.mem_cons_self
    unfold bindAll
    rw [ends_bind, ends_mem]
    have hsound := safe_conform (n := 0) r q.ty m.heap hs (Nat.zero_le _)
    refine ((ends_conform_converted hs r q).and hsound).mono ?_ ?_
    · rintro x h₁ ⟨⟨hm, hx⟩, hs₁, -, -⟩
      have ha := hm.toRewrites.adds
      rw [ends_bind, bindName, ends_change]
      refine (ih (m := { m with heap := h₁, state := m.state.bind q.name x }) hs₁ ?_).mono ?_ ?_
      · exact fun b hb => (hl b (List.mem_cons_of_mem _ hb)).mono ha.cells_le
      · rintro _ m' ⟨ha', xs, hxs, hstate⟩
        have hfirst := hx.between (refl _) ha' hs.grounded hr
        refine ⟨Trans.trans ha ha', x :: xs, .cons hfirst ?_, hstate⟩
        have hrest := (List.forall₂_and_left _ _).2 ⟨fun b hb => hl b (List.mem_cons_of_mem _ hb), hxs⟩
        exact hrest.imp fun b x hb => hb.2.between ha (refl _) hs.grounded hb.1
      · rintro halt m' ⟨ha', b, hb, cause, hcause, rfl⟩
        refine ⟨Trans.trans ha ha', b, List.mem_cons_of_mem _ hb, cause, ?_, rfl⟩
        unfold Heap.conversion at hcause ⊢
        rwa [ha.cell_flatten hs.grounded (hl b (List.mem_cons_of_mem _ hb))] at hcause
    · rintro _ h₁ ⟨⟨ha, cause, hcause, rfl⟩, -⟩
      exact ⟨ha, (q, r), List.mem_cons_self, cause, hcause, rfl⟩

/-- Binding takes the innermost operands, and gives each parameter what it is to
    receive; it halts if one of them refuses its argument. -/
theorem ends_bindParameters_received {params : List Param} {args below : List Ref} (hs : m.heap.Sound)
    (hargs : ∀ r ∈ args, r.In m.size) (hlength : params.length = args.length)
    (hitems : m.state.values.items = args.reverse ++ below) :
    Ends (bindParameters params) m
      (fun _ m' => m.heap.Adds m'.heap ∧
        ∃ xs, List.Forall₂ (fun b x => m.heap.Receives b.1 b.2 x m'.heap) (params.zip args) xs ∧
          m'.state = (m.state.truncate below.length).bindAll ((params.map Param.name).zip xs))
      fun halt m' => m.heap.Adds m'.heap ∧
        ∃ b ∈ params.zip args, ∃ cause, m.heap.conversion b.1 b.2 = .error cause ∧ halt = .fault { cause } := by
  have hdepth : m.state.valueDepth = args.length + below.length := by
    unfold State.valueDepth
    rw [m.state.values.size_eq, hitems]
    simp
  unfold bindParameters
  rw [ends_bind]
  refine (ends_popValues params.length [] m).mono ?_ ?_
  · rintro taken m₁ ⟨rfl, -, rfl⟩
    have htaken : ((m.state.values.items.take params.length).map m.heap.flatten).reverse ++ [] =
        args.map m.heap.flatten := by
      rw [hitems, hlength, ← args.length_reverse, List.take_left]
      simp
    have hnames : (params.zip args).map (fun b => b.1.name) = params.map Param.name := by
      rw [← congrArg (List.map Param.name) (List.map_fst_zip hlength.le), List.map_map]
      rfl
    rw [htaken, List.zip_map_right]
    refine (ends_bindAll_received (m := m.truncate _) hs ?_).mono ?_ ?_
    · simp only [List.mem_map]
      rintro _ ⟨⟨q, r⟩, hb, rfl⟩
      exact hs.flatten_lt (hargs r (List.of_mem_zip hb).2)
    · rintro _ m' ⟨ha, xs, hxs, hstate⟩
      refine ⟨ha, xs, ?_, ?_⟩
      · rw [List.forall₂_map_left_iff] at hxs
        exact hxs.imp fun b x hx => hx.flatten hs
      · rw [hstate, List.map_map, ← hnames, hdepth, hlength, Nat.add_sub_cancel_left]
        rfl
    · rintro halt m' ⟨ha, _, hb, cause, hcause, rfl⟩
      obtain ⟨b, hmem, rfl⟩ := List.mem_map.1 hb
      exact ⟨ha, b, hmem, cause, (Heap.conversion_flatten hs ..).symm.trans hcause, rfl⟩
  · rintro halt m₁ ⟨-, hlt⟩
    omega

end Eval

/-! ## Arguments of a call -/

/-- The value is still what it was when the argument had been evaluated. -/
def Passed.Kept (a : Passed) (h : Heap) : Prop :=
  h.cell a.value = a.after.heap.cell a.value

theorem Passed.Kept.cell_flatten {a : Passed} {h : Heap} (hk : a.Kept h)
    (hflat : a.after.heap.flatten a.value = a.value) :
    h.cell (h.flatten a.value) = a.after.heap.cell a.value := by
  have hsame : h.flatten a.value = a.after.heap.flatten a.value := by
    unfold Heap.flatten
    rw [hk]
  rw [hsame, hflat, hk]

namespace Eval

variable {e : Engine} {fuel : Nat} {a : Passed}

/-- What neither stores nor releases leaves the values of earlier arguments alone. -/
theorem kept_of_confined {earlier later : List Passed} {m₁ m₂ : Machine}
    (hl : Passing (evaluate e fuel) m₁ (earlier ++ a :: later) m₂) (ha : a.value.In a.after.size)
    (hlater : ∀ a' ∈ later, e.Confined (fun k => k ≠ .store ∧ k ≠ .release) a'.node) :
    a.Kept m₂.heap := by
  have hadds : a.after.heap.Adds m₂.heap := by
    refine (hl.later.relates (R := fun m m' => m.heap.Adds m'.heap) (fun _ => refl _)
      (fun _ _ _ h h' => Trans.trans h h') (fun _ _ => refl _) fun a' ha' => ?_).1
    have hrun := hl.later.valueOf_eq ha'
    exact ((orderly_valueOf (adds_evaluate (hlater a' ha') fuel) _).of_ok hrun).heap
  exact hadds.cell a.value ha

/-- **What parameters are bound to.** In a plain program the arguments of a call,
    without sequences, are evaluated from left to right; a call that gives a result has
    come so far, and then runs its routine. Binding gives each parameter a new value,
    the conversion of what its argument holds once all of them have been evaluated, and
    halts if there is none. This is what the argument held when its own evaluation
    finished, if the later ones have left that alone, as they do if they neither store
    nor release. -/
theorem parameters_receive (e : Engine) (fuel : Nat) {node : Node} {m : Machine} (hp : e.program.Plain)
    (hm : m.Sound) (hargs : ∀ a ∈ node.construct.operands, a.SequenceFree) :
    (∀ o m', e.program.Calls node.construct → dispatch e fuel (evaluate e fuel) node m = .ok o m' →
      ∃ entry, Enters e (evaluate e fuel) node.construct m entry) ∧
    ∀ entry, Enters e (evaluate e fuel) node.construct m entry →
      dispatch e fuel (evaluate e fuel) node m =
        (invoke e (evaluate e fuel) fuel entry.routine entry.site entry.receiver >>= entry.answer)
          entry.machine ∧
      entry.passed.map Passed.node = node.construct.operands ∧
      (∃ m₁, Passing (evaluate e fuel) m₁ entry.passed entry.machine) ∧
      (∀ earlier a later, entry.passed = earlier ++ a :: later →
        (∀ a' ∈ later, e.Confined (fun k => k ≠ .store ∧ k ≠ .release) a'.node) →
        a.Kept entry.machine.heap) ∧
      entry.routine.params.length = entry.passed.length ∧
      Ends (bindParameters entry.routine.params) (entry.machine.entered entry.receiver entry.site)
        (fun _ m' => ∃ xs, m'.state.frame = ((entry.routine.params.map Param.name).zip xs).foldl
            (fun d b => d.insert b.1 b.2) entry.machine.state.globals ∧
          List.Forall₂ (fun b x => entry.machine.heap.Receives b.1 b.2.value x m'.heap ∧
            (b.2.Kept entry.machine.heap → (b.2.after.heap.cell b.2.value).IsScalar →
              ∃ k, (b.2.after.heap.cell b.2.value).converted b.1.ty = .ok k ∧ m'.heap.Shows x k))
            (entry.routine.params.zip entry.passed) xs)
        fun halt _ => ∃ b ∈ entry.routine.params.zip entry.passed, ∃ cause, halt = .fault { cause } ∧
          entry.machine.heap.conversion b.1 b.2.value = .error cause ∧
          (b.2.Kept entry.machine.heap →
            (b.2.after.heap.cell b.2.value).converted b.1.ty = .error cause) := by
  refine ⟨fun o m' hcalls hrun => enters_of_dispatch hcalls hrun, fun entry hentry => ?_⟩
  obtain ⟨hnodes, m₁, hpassing⟩ := hentry.passing
  obtain ⟨hsound, heach⟩ := hentry.sound (safe_evaluate e fuel) hm
  have hyields : ∀ a ∈ entry.passed, Yields (evaluate e fuel a.node) := fun a ha =>
    yields_evaluate hp fuel (hargs a.node (hnodes ▸ List.mem_map_of_mem ha))
  obtain ⟨harity, below, hitems⟩ := hentry.items hyields
  refine ⟨dispatch_of_enters hentry, hnodes, ⟨m₁, hpassing⟩, ?_, harity, ?_⟩
  · intro earlier a later hsplit hlater
    have ha : a ∈ entry.passed := hsplit ▸ List.mem_append_cons_self
    exact kept_of_confined (hsplit ▸ hpassing) (heach a ha).2.1 hlater
  · have hlength : entry.routine.params.length = (entry.passed.map Passed.value).length :=
      harity.trans (List.length_map _).symm
    have hvalues : ∀ r ∈ entry.passed.map Passed.value, r.In entry.machine.size := by
      simp only [List.mem_map]
      rintro _ ⟨a, ha, rfl⟩
      exact (heach a ha).2.1.mono (heach a ha).2.2
    refine (ends_bindParameters_received (m := entry.machine.entered _ _) hsound.heap hvalues hlength hitems).mono
      ?_ ?_
    · rintro _ m' ⟨-, xs, hxs, hstate⟩
      refine ⟨xs, by rw [hstate, State.frame_bindAll]; rfl, ?_⟩
      rw [List.zip_map_right, List.forall₂_map_left_iff] at hxs
      have hpassed : ∀ b ∈ entry.routine.params.zip entry.passed, b.2 ∈ entry.passed :=
        fun b hb => (List.of_mem_zip hb).2
      refine ((List.forall₂_and_left _ _).2 ⟨hpassed, hxs⟩).imp ?_
      rintro ⟨q, a⟩ x ⟨ha, hx⟩
      refine ⟨hx, fun hk hc => ?_⟩
      obtain ⟨k, hconv, hshows⟩ := hx.converted
      have hcell := hk.cell_flatten (heach a ha).1
      exact ⟨k, hcell ▸ hconv, hshows (hcell ▸ hc)⟩
    · rintro halt m' ⟨-, _, hb, cause, hcause, rfl⟩
      rw [List.zip_map_right] at hb
      obtain ⟨⟨q, a⟩, hmem, rfl⟩ := List.mem_map.1 hb
      refine ⟨(q, a), hmem, cause, rfl, hcause, fun hk => ?_⟩
      exact hk.cell_flatten (heach a (List.of_mem_zip hmem).2).1 ▸ hcause

namespace Pick

open Build

/-- A function that gives back its first argument, for parameters of the given types. -/
def pick (first second : Ty) : Routine :=
  function "pick" [⟨"a", first⟩, ⟨"b", second⟩] first [ret (some (id "a" first))]

def engine (first second : Ty) : Engine where
  program := { functions := .ofList [("pick", pick first second)] }

/-- The name `x` stands for one. -/
def counted : Machine where
  heap := { cells := #[.primitive (.int 1)] }
  state := { frame := .ofList [("x", ⟨0⟩)] }

/-- The name, and something else. -/
def picked (other : Node) : Node :=
  call "pick" [id "x" .int, other] .int

/-- The call with zero, for a double and a pointer, has come to its entry. -/
def given : Entry where
  routine := pick .double (.pointer .int)
  site := { image := "pick" }
  receiver := none
  passed := [⟨id "x" .int, counted, ⟨0⟩, counted⟩,
    ⟨int 0, { counted with state := counted.state.push ⟨0⟩ }, ⟨1⟩,
      { counted with
        heap := { cells := #[.primitive (.int 1), .primitive (.int 0)] }
        state := counted.state.push ⟨0⟩ }⟩]
  machine := { counted with
    heap := { cells := #[.primitive (.int 1), .primitive (.int 0)] }
    state := (counted.state.push ⟨0⟩).push ⟨1⟩ }
  answer := yieldResult

theorem counted_sound : counted.Sound where
  heap := Heap.Sound.empty.alloc (.of_contents rfl (fun p hp => by cases hp; exact Primitive.inRange_of ..) nofun)
  state := {
    values := nofun
    globals := nofun
    frame := by
      intro b hb
      obtain rfl : b = ("x", ⟨0⟩) := List.mem_singleton.1 hb
      exact Nat.zero_lt_one
    enclosing := nofun
    contexts := nofun }

theorem given_entered :
    Enters (engine .double (.pointer .int)) (evaluate (engine .double (.pointer .int)) 8)
      (picked (int 0)).construct counted given := by
  have hx : valueOf (evaluate (engine .double (.pointer .int)) 8) (id "x" .int) counted = .ok ⟨0⟩ counted :=
    run_id (r := ⟨0⟩) rfl .int
  exact .function rfl rfl rfl (.cons hx (.cons (run_int 0) .nil))

/-- One is passed as a double, and zero as the null pointer. -/
theorem pick_receives :
    Enters (engine .double (.pointer .int)) (evaluate (engine .double (.pointer .int)) 8)
      (picked (int 0)).construct counted given ∧
    Ends (bindParameters given.routine.params) (given.machine.entered none { image := "pick" })
      (fun _ m' => ∃ a b block, m'.state.frame.entries = [("a", a), ("b", b)] ∧
        m'.heap.cell a = .primitive ((Primitive.int 1).converted .double false) ∧
        m'.heap.cell b = .pointer ⟨.int, block, 0⟩ ∧ m'.heap.block block = #[])
      fun _ _ => False := by
  have hplain : (engine .double (.pointer .int)).program.Plain := by
    intro r hr
    obtain rfl : r = pick .double (.pointer .int) := List.mem_singleton.1 hr
    exact ⟨⟨_, rfl⟩, nofun⟩
  have hargs : ∀ a ∈ (picked (int 0)).construct.operands, a.SequenceFree := by
    intro a ha
    rcases List.mem_pair.1 ha with rfl | rfl
    · exact .mk nofun nofun
    · exact .mk nofun nofun
  obtain ⟨-, hreceive⟩ := parameters_receive (engine .double (.pointer .int)) 8 hplain counted_sound hargs
  obtain ⟨-, -, -, -, -, hbound⟩ := hreceive given given_entered
  refine ⟨given_entered, hbound.mono ?_ ?_⟩
  · rintro _ m' ⟨xs, hframe, hxs⟩
    obtain ⟨a, rest, ⟨hreceives, -⟩, hrest, rfl⟩ := List.forall₂_cons_left_iff.1 hxs
    obtain ⟨b, rest, ⟨hreceives', -⟩, hnil, rfl⟩ := List.forall₂_cons_left_iff.1 hrest
    cases List.forall₂_nil_left_iff.1 hnil
    obtain ⟨_, hk, hshows⟩ := hreceives.converted
    obtain ⟨_, hk', hshows'⟩ := hreceives'.converted
    cases hk
    cases hk'
    obtain ⟨block, -, hempty, hb⟩ := hshows' trivial
    exact ⟨a, b, block, by rw [hframe]; rfl, hshows trivial, hb, hempty⟩
  · rintro halt m' ⟨b, hb, cause, -, hcause, -⟩
    rcases List.mem_pair.1 hb with rfl | rfl
    · cases hcause
    · cases hcause

/-- The number that a computation gives. -/
def numberGiven (x : Eval Ref) (m : Machine) : Option Primitive :=
  match x m with
  | .ok r m' => m'.heap.primitive? r
  | .error .. => none

/-- A function whose body is no block, and leaves two operands. -/
def pair : Routine :=
  { function "pair" [⟨"a", .int⟩, ⟨"b", .int⟩] .void [] with body := Build.sequence [int 7, int 8] }

def loose : Engine where
  program := { functions := .ofList [("pick", pick .int .int), ("pair", pair)] }

/-- The value of the name is one when it has been evaluated. Stepped by the second
    argument, it is received as two; and if the second argument calls a routine that is
    not plain, the first parameter receives an operand left by that. -/
theorem pick_receives_later :
    numberGiven (valueOf (evaluate loose 9) (id "x" .int)) counted = some (.int 1) ∧
    numberGiven (valueOf (evaluate loose 9) (picked (Build.postStep .increment (id "x" .int)))) counted =
      some (.int 2) ∧
    numberGiven (valueOf (evaluate loose 9) (picked (call "pair" [int 3, int 4] .int))) counted = some (.int 7) :=
  ⟨by decide +kernel, by decide +kernel, by decide +kernel⟩

end Pick

end Eval

end Treewalk
