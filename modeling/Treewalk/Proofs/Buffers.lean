/-
  Arrays of characters with an initial text.

  * `bufferContents bytes n`: what `n` slots show that took a text on: its bytes, nothing
    in the slot after them, and zeros, as far as there is room;
  * `Heap.Buffer h b q bytes n`: the block `b` shows this, the pointer `q` leads to the
    text, and the two have no cell in common;
  * `Heap.Buffer.render`, `Heap.Buffer.render_full`: a buffer is rendered as the text if
    there was room for its end, and not at all otherwise;
  * `text_initializes_buffer`: the initial values of variables and of globals are such
    buffers.
-/
import Treewalk.Proofs.Printing

namespace Treewalk

open Mem

variable {h h' : Heap} {ty element : Ty} {x r : Ref} {b : BlockRef} {q : Pointer} {bytes : List UInt8} {n : Nat}
  {slots sources lits : List Ref}

/-! ## Contents -/

/-- What `n` slots show that have taken a text on. -/
def bufferContents (bytes : List UInt8) (n : Nat) : List (Option Primitive) :=
  (textContents bytes ++ List.replicate (n - (bytes.length + 1)) (some (Primitive.zero .char false))).take n

theorem length_textContents (bytes : List UInt8) : (textContents bytes).length = bytes.length + 1 := by
  simp [textContents]

theorem bufferContents_of_lt (hn : bytes.length < n) : bufferContents bytes n =
    textContents bytes ++ List.replicate (n - (bytes.length + 1)) (some (Primitive.zero .char false)) := by
  unfold bufferContents
  refine List.take_of_length_le ?_
  rw [List.length_append, length_textContents, List.length_replicate]
  omega

theorem bufferContents_of_le (hn : n ≤ bytes.length) : bufferContents bytes n =
    (bytes.take n).map fun c => some (.char c) := by
  unfold bufferContents textContents
  rw [List.append_assoc, List.take_append_of_le_length (by rwa [List.length_map]), List.map_take]

theorem bufferContents_exact (bytes : List UInt8) :
    bufferContents bytes (bytes.length + 1) = textContents bytes := by
  rw [bufferContents_of_lt (Nat.lt_succ_self _)]
  simp

/-! ## Buffers -/

/-- The cells of slots, and of what is in them. -/
def Heap.cellsOf (h : Heap) (slots : List Ref) : List Ref :=
  slots.flatMap fun r => r :: h.parts r

namespace Heap.Row

theorem mem_cellsOf (hr : h.Row ty slots) (hsub : lits ⊆ slots) :
    x ∈ h.cellsOf lits → ∃ r ∈ lits, x = r ∨ h.cell r = .slot ty (some x) := by
  intro hx
  obtain ⟨r, hrs, hx⟩ := List.mem_flatMap.1 hx
  refine ⟨r, hrs, ?_⟩
  rcases List.mem_cons.1 hx with rfl | hx
  · exact .inl rfl
  · obtain ⟨content, hcell⟩ := hr.slot r (hsub hrs)
    rw [parts_of_cell hcell] at hx
    cases content with
    | none => cases hx
    | some y =>
      cases List.mem_singleton.1 hx
      exact .inr hcell

/-- Two parts of a row have no cell in common. -/
theorem disjoint (hr : h.Row ty (lits ++ slots)) : (h.cellsOf lits).Disjoint (h.cellsOf slots) := by
  have hapart := (List.nodup_append.1 hr.distinct).2.2
  have hleft := List.subset_append_left lits slots
  have hright := List.subset_append_right lits slots
  intro x hx hx'
  obtain ⟨r, hrs, hx⟩ := hr.mem_cellsOf hleft hx
  obtain ⟨s, hss, hx'⟩ := hr.mem_cellsOf hright hx'
  rcases hx with rfl | hx
  · rcases hx' with rfl | hx'
    · exact hapart x hrs x hss rfl
    · exact hr.not_inside (hleft hrs) (hright hss) hx'
  · rcases hx' with rfl | hx'
    · exact hr.not_inside (hright hss) (hleft hrs) hx
    · exact hapart r hrs s hss (hr.apart r (hleft hrs) s (hright hss) x hx hx')

end Heap.Row

/-- A block with a text, and a pointer to the text it was taken from. Their slots are one row,
    so they have no cell in common. -/
structure Heap.Buffer (h : Heap) (b : BlockRef) (q : Pointer) (bytes : List UInt8) (n : Nat) : Prop where
  start : q.offset = 0
  row : h.Row .char ((h.block q.block).toList ++ (h.block b).toList)
  text : (h.block q.block).toList.map h.shown = (textContents bytes).map (Option.map .primitive)
  shown : (h.block b).toList.map h.shown = (bufferContents bytes n).map (Option.map .primitive)

namespace Heap.Buffer

theorem remaining_start (hq : q.offset = 0) : h.remaining q = (h.block q.block).toList := by
  unfold remaining
  rw [hq]
  exact List.drop_zero

variable (hb : h.Buffer b q bytes n)
include hb

theorem map_primitive? : (h.block b).toList.map h.primitive? = bufferContents bytes n :=
  hb.row.map_primitive? (List.subset_append_right ..) hb.shown

/-- With room for the end of the text, the buffer is rendered as the text. -/
theorem render (hn : bytes.length < n) : h.render ⟨ty, b, 0⟩ = .ok (unescape bytes).toArray := by
  have hcontents := hb.map_primitive?
  rw [bufferContents_of_lt hn] at hcontents
  refine Heap.render_text (Eq.trans ?_ hcontents)
  rw [remaining_start rfl]

/-- Without, there is an access error. -/
theorem render_full (hn : n ≤ bytes.length) : ∃ err, h.render ⟨ty, b, 0⟩ = .error (.access err) := by
  refine render_unended fun hend => ?_
  have hmem := List.mem_map.2 hend
  rw [remaining_start rfl, hb.map_primitive?, bufferContents_of_le hn] at hmem
  obtain ⟨c, -, hc⟩ := List.mem_map.1 hmem
  cases hc

end Heap.Buffer

/-! ## Initial values -/

namespace Heap

theorem Row.of_subset (hr : h.Row ty slots) (hsub : lits ⊆ slots) (hdistinct : lits.Nodup) : h.Row ty lits where
  distinct := hdistinct
  slot := fun r hrs => hr.slot r (hsub hrs)
  fits := fun r hrs => hr.fits r (hsub hrs)
  apart := fun r hrs s hss => hr.apart r (hsub hrs) s (hsub hss)

/-- Slots are stored into others that are not among them. -/
theorem Row.pairwise_zip (hr : h.Row ty (lits ++ slots)) :
    (slots.zip lits).Pairwise fun q q' => q.1 ≠ q'.1 ∧ q.1 ≠ q'.2 := by
  obtain ⟨-, hnodup, hapart⟩ := List.nodup_append.1 hr.distinct
  rw [List.pairwise_iff_getElem]
  intro i j hi hj hij
  simp only [List.length_zip, Nat.lt_min] at hi hj
  simp only [List.getElem_zip]
  constructor
  · intro heq
    exact hij.ne (hnodup.getElem_inj_iff.1 heq)
  · exact (hapart _ (List.getElem_mem hj.2) _ (List.getElem_mem hi.1)).symm

namespace Shifted

variable (hf : h.Shifted ty (lits ++ slots) (slots.zip lits) h') (hr : h.Row ty (lits ++ slots))
include hf hr

theorem map_shown_sources : lits.map h'.shown = lits.map h.shown := by
  have hapart := (List.nodup_append.1 hr.distinct).2.2
  refine List.map_congr_left fun r hrs => ?_
  refine (hf.kept hr (fun q hq => ?_) (List.mem_append_left _ hrs) fun q hq => ?_).2
  · exact List.mem_append_right _ (List.of_mem_zip hq).1
  · exact hapart r hrs q.1 (List.of_mem_zip hq).1

/-- The slots show what was in the others, as far as there are others. -/
theorem map_shown : slots.map h'.shown =
    (lits.map h.shown ++ (slots.map h.shown).drop lits.length).take slots.length := by
  have hnodup := (List.nodup_append.1 hr.distinct).2.1
  refine List.ext_getElem (by simp; omega) fun i hi _ => ?_
  rw [List.length_map] at hi
  rw [List.getElem_map, List.getElem_take]
  by_cases hlits : i < lits.length
  · rw [List.getElem_append_left (by rwa [List.length_map]), List.getElem_map]
    refine hf.shown (slots[i], lits[i]) ?_
    exact List.mem_iff_getElem.2 ⟨i, by simp [hi, hlits], by simp⟩
  · rw [List.getElem_append_right (by rw [List.length_map]; omega)]
    simp only [List.length_map, List.getElem_drop, List.getElem_map]
    have hi' : lits.length + (i - lits.length) = i := by omega
    simp only [hi']
    refine (hf.kept hr (fun q hq => ?_) (List.mem_append_right _ (List.getElem_mem hi)) fun q hq heq => ?_).2
    · exact List.mem_append_right _ (List.of_mem_zip hq).1
    · obtain ⟨j, hj, rfl⟩ := List.mem_iff_getElem.1 hq
      simp only [List.length_zip, Nat.lt_min] at hj
      rw [List.getElem_zip] at heq
      have := hnodup.getElem_inj_iff.1 heq
      omega

/-- What is no slot, and cannot be in one, is as it was. -/
theorem cell_of_not_fits (hlt : r.id < h.cells.size) (hslot : ¬ (h.cell r).IsSlot) (hfits : ¬ (h.cell r).Fits ty) :
    h'.cell r = h.cell r := by
  refine hf.cell r hlt fun q hq => ?_
  have hqs : q.1 ∈ lits ++ slots := List.mem_append_right _ (List.of_mem_zip hq).1
  constructor
  · rintro rfl
    obtain ⟨content, hcell⟩ := hr.slot q.1 hqs
    rw [hcell] at hslot
    exact hslot trivial
  · intro hcell
    exact hfits (hr.fits q.1 hqs r hcell).2

end Shifted

/-- A block with slots is kept when values are added. -/
theorem Adds.block_of_ne (ha : h.Adds h') (hb : h.block b ≠ #[]) : h'.block b = h.block b := by
  refine ha.block b ?_
  by_contra hle
  exact hb (block_of_le (Nat.not_lt.1 hle))

/-- The value is a pointer to the start of a text. -/
structure Literal (h : Heap) (x : Ref) (q : Pointer) (lits : List Ref) (bytes : List UInt8) : Prop where
  pointer : h.cell x = .pointer q
  start : q.offset = 0
  block : h.block q.block = lits.toArray
  row : h.Row .char lits
  text : lits.map h.shown = (textContents bytes).map (Option.map .primitive)

namespace Literal

variable (hx : h.Literal x q lits bytes)
include hx

theorem flatten : h.flatten x = x := by
  unfold Heap.flatten
  rw [hx.pointer]

theorem lt : x.id < h.cells.size :=
  lt_of_cell_ne (by rw [hx.pointer]; exact Cell.noConfusion)

theorem remaining : h.remaining q = lits := by
  rw [Buffer.remaining_start hx.start, hx.block]

theorem length : lits.length = bytes.length + 1 := by
  simpa [length_textContents] using congrArg List.length hx.text

theorem pointer? : h.pointer? x = some q := by
  unfold Heap.pointer?
  rw [hx.flatten, hx.pointer]

theorem render : h.render q = .ok (unescape bytes).toArray := by
  have hcontents := hx.row.map_primitive? (List.Subset.refl _) hx.text
  rw [← hx.remaining] at hcontents
  exact Heap.render_text (hcontents.trans (List.append_nil _).symm)

theorem of_adds (ha : h.Adds h') : h'.Literal x q lits bytes where
  pointer := (ha.cell x hx.lt).trans hx.pointer
  start := hx.start
  block := by
    have hne : h.block q.block ≠ #[] := by
      rw [hx.block, ← Array.size_pos_iff, List.size_toArray, hx.length]
      exact Nat.succ_pos _
    rw [ha.block_of_ne hne, hx.block]
  row := hx.row.of_adds ha
  text := by
    rw [← hx.text]
    exact List.map_congr_left fun r hrs => hx.row.shown_of_adds ha hrs

end Literal

/-- The array has taken on a text that a pointer leads to. -/
def Buffered (h : Heap) (r x : Ref) (bytes : List UInt8) (n : Nat) : Prop :=
  ∃ element b q, h.cell r = .array element b ∧ h.cell x = .pointer q ∧ h.Buffer b q bytes n

end Heap

/-- The text is stored into an array of zeros. -/
theorem ends_assign_text (hx : h.Literal x q lits bytes) (hr : h.Row .char (lits ++ slots))
    (harray : h.cell r = .array element b) (hblock : h.block b = slots.toArray)
    (hslots : slots.map h.shown =
      (List.replicate n (some (Primitive.zero .char false))).map (Option.map .primitive)) :
    Ends (assign r x) h (fun _ h' => h'.Buffered r x bytes n) fun _ _ => False := by
  obtain ⟨k, hrun⟩ := assign_pairs harray (hx.flatten.symm ▸ hx.pointer)
  rw [hblock, hx.remaining] at hrun
  have hin : ∀ q ∈ slots.zip lits, q.1 ∈ lits ++ slots ∧ q.2 ∈ lits ++ slots := fun q hq =>
    ⟨List.mem_append_right _ (List.of_mem_zip hq).1, List.mem_append_left _ (List.of_mem_zip hq).2⟩
  obtain ⟨_, h', hok, hf⟩ := (ends_storePairs (k := k) hr hin hr.pairwise_zip).exists_ok
  rw [ends_iff_of_ok (hrun.trans hok)]
  have hblocks (b : BlockRef) : h'.block b = h.block b := by
    unfold Heap.block
    rw [hf.blocks]
  have hlength : slots.length = n := by simpa using congrArg List.length hslots
  refine ⟨element, b, q, ?_, ?_, hx.start, ?_, ?_, ?_⟩
  · have hlt : r.id < h.cells.size := Heap.lt_of_cell_ne (by rw [harray]; exact Cell.noConfusion)
    rw [hf.cell_of_not_fits hr hlt (by rw [harray]; exact id) (by rw [harray]; exact id), harray]
  · rw [hf.cell_of_not_fits hr hx.lt (by rw [hx.pointer]; exact id) (by rw [hx.pointer]; exact Ty.noConfusion),
      hx.pointer]
  · rw [hblocks, hblocks, hx.block, hblock]
    exact hf.row
  · rw [hblocks, hx.block, List.toList_toArray, hf.map_shown_sources hr, hx.text]
  · rw [hblocks, hblock, List.toList_toArray, hf.map_shown hr, hx.text, hslots, hx.length, hlength]
    unfold bufferContents
    simp

/-- An array of a given size. -/
theorem ends_initialValue_sized (e : Engine) (hx : h.Literal x q lits bytes)
    (hty : ty.unqualified = .array element (some n)) (helement : element.unqualified = .char) :
    Ends (Eval.initialValue e ty x) h (fun r h' => h'.Buffered r x bytes n) fun _ _ => False := by
  unfold Eval.initialValue
  rw [hty]
  dsimp only
  rw [createValue_array e.program hty]
  refine ends_bind.2 ((ends_arrayOf_chars e.program n hx.row helement).mono (fun r h₁ hmade => ?_)
    fun _ _ => False.elim)
  obtain ⟨b, slots, harray, hblock, -, hc⟩ := hmade
  exact ends_bind.2 ((ends_assign_text (hx.of_adds hc.adds) hc.row harray hblock hc.shown).mono
    (fun _ h' hb => hb) fun _ _ => False.elim)

/-- An array without a size has room for the text and its end. -/
theorem ends_initialValue_unsized (e : Engine) (hx : h.Literal x q lits bytes)
    (hty : ty.unqualified = .array element none) :
    Ends (Eval.initialValue e ty x) h (fun r h' => h'.Buffered r x bytes (bytes.length + 1)) fun _ _ => False := by
  have hslots : Eval.initialSlots? h x = some lits := by
    unfold Eval.initialSlots?
    rw [hx.flatten, hx.pointer]
    dsimp only
    rw [hx.remaining]
  unfold Eval.initialValue
  rw [hty]
  dsimp only
  rw [ends_bind, ends_read, hslots]
  refine ends_bind.2 ((ends_mapM_copy hx.row (List.Subset.refl _) hx.text).mono (fun slots h₁ hc => ?_)
    fun _ _ => False.elim)
  refine (hc.block fun b => .array element b).mono (fun r h' hmade => ?_) fun _ _ => False.elim
  obtain ⟨b, harray, hblock, -, hc'⟩ := hmade
  have hx' := hx.of_adds hc'.adds
  refine ⟨element, b, q, harray, hx'.pointer, hx'.start, ?_, ?_, ?_⟩
  · rw [hx'.block, hblock]
    exact hc'.row
  · rw [hx'.block, List.toList_toArray, hx'.text]
  · rw [hblock, List.toList_toArray, bufferContents_exact, hc'.shown]

/-! ## Declarations -/

namespace Eval

variable {e : Engine} {fuel : Nat} {node decl init dim : Node} {text name : String} {m m₁ : Machine}

/-- The value of a text leads to its start. Its slots continue any row of characters. -/
theorem exists_literal (e : Engine) (fuel : Nat) (hinit : init.construct = .string text)
    (hr : m.heap.Row .char slots) :
    ∃ x q lits h', valueOf (evaluate e (fuel + 1)) init m = .ok x { m.noted init.token with heap := h' } ∧
      h'.Literal x q lits text.toUTF8.toList ∧
      m.heap.Continues slots h' lits (textContents text.toUTF8.toList) := by
  obtain ⟨x, h', hok, b, lits, hx, hb, -, hc⟩ := (ends_createString hr text).exists_ok
  have hrow : h'.Row .char lits :=
    hc.row.of_subset (List.subset_append_right ..) (List.nodup_append.1 hc.row.distinct).2.1
  have hliteral : h'.Literal x ⟨.char, b, 0⟩ lits text.toUTF8.toList := ⟨hx, rfl, hb, hrow, hc.shown⟩
  refine ⟨x, _, lits, h', ?_, hliteral, hc⟩
  rw [run_string hinit hok, hliteral.flatten]

/-- The name stands for an array of `n` slots that has taken on the value of the node, a text. -/
def TookText (ev : Evaluator) (init : Node) (m : Machine) (name text : String) (n : Nat) (m' : Machine) : Prop :=
  ∃ x m₁ r, valueOf ev init m = .ok x m₁ ∧ m'.state.lookup? name = some r ∧
    m'.heap.Buffered r x text.toUTF8.toList n

theorem lookup?_bind (s : State) (name : String) (r : Ref) : (s.bind name r).lookup? name = some r :=
  (Dict.get?_insert ..).trans (if_pos rfl)

/-- A declaration whose type accepts the initial value. -/
theorem evaluate_initialized {dims : List Node} (hnode : node.construct = .initialized decl init)
    (hdecl : decl.construct = .declaration name dims) (hty : decl.ty = ty)
    (haccepts : init.ty.isVoid ∨ e.program.accepts ty init.ty) :
    evaluate e (fuel + 1) node m = placed node.location?
      (if dims.isEmpty then do
        let initial ← valueOf (evaluate e fuel) init
        bindName name (← initialValue e ty initial)
        return .normal
      else do
        let r ← declare e (evaluate e fuel) ty name dims
        assign r (← valueOf (evaluate e fuel) init)
        return .normal) (m.noted node.token) := by
  have hrefused : ¬ (!init.ty.isVoid && !e.program.accepts ty init.ty) = true := by
    simpa [Classical.or_iff_not_imp_left] using haccepts
  rw [evaluate, run_visit]
  unfold dispatch
  rw [hnode]
  dsimp only
  unfold initialized
  rw [hdecl, hty]
  dsimp only
  rw [if_neg hrefused]

section Typed

variable {size : Option Nat} (hinit : init.construct = .string text) (hty : ty.unqualified = .array element size)
  (helement : element.unqualified = .char)
include hinit hty helement

theorem exists_buffer (e : Engine) (fuel : Nat) (m : Machine) :
    ∃ x m₁ r h', valueOf (evaluate e (fuel + 1)) init m = .ok x m₁ ∧ initialValue e ty x m₁.heap = .ok r h' ∧
      h'.Buffered r x text.toUTF8.toList (size.getD (text.toUTF8.toList.length + 1)) := by
  obtain ⟨x, q, lits, h₁, hx, hliteral, -⟩ := exists_literal e fuel hinit (.nil m.heap .char)
  cases size with
  | none =>
    obtain ⟨r, h', hok, hb⟩ := (ends_initialValue_unsized e hliteral hty).exists_ok
    exact ⟨x, _, r, h', hx, hok, hb⟩
  | some n =>
    obtain ⟨r, h', hok, hb⟩ := (ends_initialValue_sized e hliteral hty helement).exists_ok
    exact ⟨x, _, r, h', hx, hok, hb⟩

/-- A variable. -/
theorem exists_tookText_variable (hnode : node.construct = .initialized decl init)
    (hdecl : decl.construct = .declaration name []) (hdeclTy : decl.ty = ty)
    (haccepts : init.ty.isVoid ∨ e.program.accepts ty init.ty) (fuel : Nat) (m : Machine) :
    ∃ m', evaluate e (fuel + 2) node m = .ok .normal m' ∧
      TookText (evaluate e (fuel + 1)) init (m.noted node.token) name text
        (size.getD (text.toUTF8.toList.length + 1)) m' := by
  obtain ⟨x, m₁, r, h', hx, hr, hb⟩ := exists_buffer hinit hty helement e fuel (m.noted node.token)
  refine ⟨{ m₁ with heap := h', state := m₁.state.bind name r }, ?_, x, m₁, r, hx, lookup?_bind .., hb⟩
  rw [evaluate_initialized hnode hdecl hdeclTy haccepts, List.isEmpty_nil, if_pos rfl]
  exact run_placed_ok _ ((run_bind hx).trans (run_bind (run_mem hr)))

/-- A global. -/
theorem exists_tookText_global {g : Global} (hfuel : 0 < e.fuel) (hg : g.init = some init) (hgTy : g.ty = ty)
    (m : Machine) :
    ∃ m', initializeGlobal e g m = .ok () m' ∧
      TookText e.evaluator init m g.name.image text (size.getD (text.toUTF8.toList.length + 1)) m' := by
  obtain ⟨fuel, hfuel⟩ := Nat.exists_eq_succ_of_ne_zero hfuel.ne'
  have hev : e.evaluator = evaluate e (fuel + 1) := congrArg (evaluate e) hfuel
  obtain ⟨x, m₁, r, h', hx, hr, hb⟩ := exists_buffer hinit hty helement e fuel m
  have hrun : globalValue e g m = .ok r { m₁.truncate m.state.valueDepth with heap := h' } := by
    unfold globalValue
    rw [hg, hev, hgTy]
    dsimp only
    rw [run_bind (run_droppingOperands hx)]
    exact run_mem hr
  refine ⟨{ m₁.truncate m.state.valueDepth with
    heap := h', state := ((m₁.state.truncate m.state.valueDepth).bind g.name.image r).sealGlobals }, ?_,
    x, m₁, r, hev ▸ hx, lookup?_bind .., hb⟩
  unfold initializeGlobal
  rw [run_bind hrun]
  rfl

/-- A variable with a dimension. -/
theorem exists_tookText_dimension {n : Nat} {m₀ : Machine} (hnode : node.construct = .initialized decl init)
    (hdecl : decl.construct = .declaration name [dim]) (hdeclTy : decl.ty = ty)
    (haccepts : init.ty.isVoid ∨ e.program.accepts ty init.ty)
    (hdim : dimension (evaluate e (fuel + 1)) name dim (m.noted node.token) = .ok n m₀) :
    ∃ r m₁ m', declare e (evaluate e (fuel + 1)) ty name [dim] (m.noted node.token) = .ok r m₁ ∧
      evaluate e (fuel + 2) node m = .ok .normal m' ∧
      TookText (evaluate e (fuel + 1)) init m₁ name text n m' := by
  obtain ⟨r, h₁, hr, b, slots, harray, hblock, hb, hc⟩ :=
    (ends_arrayOf_chars e.program n (.nil m₀.heap .char) helement).exists_ok
  rw [← createArray_single] at hr
  have hlt : r.id < h₁.cells.size := Heap.lt_of_cell_ne (by rw [harray]; exact Cell.noConfusion)
  obtain ⟨m₁, hheap, hname, hdeclare⟩ : ∃ m₁, m₁.heap = h₁ ∧ m₁.state.lookup? name = some r ∧
      declare e (evaluate e (fuel + 1)) ty name [dim] (m.noted node.token) = .ok r m₁ := by
    have hsizes : [dim].mapM (dimension (evaluate e (fuel + 1)) name) (m.noted node.token) = .ok [n] m₀ := by
      rw [List.mapM_cons, run_bind hdim]
      rfl
    refine ⟨{ m₀ with heap := h₁, state := m₀.state.bind name r }, rfl, lookup?_bind .., ?_⟩
    unfold declare
    rw [hty]
    exact (run_bind hsizes).trans (run_bind (run_mem hr))
  subst hheap
  -- The text is made once the array is there, so its slots continue those of the array.
  obtain ⟨x, q, lits, h₂, hx, hliteral, hc₂⟩ := exists_literal e fuel hinit hc.row
  have hrow : h₂.Row .char (lits ++ slots) :=
    hc₂.row.of_subset List.perm_append_comm.subset (List.nodup_append_comm.1 hc₂.row.distinct)
  have hslots : slots.map h₂.shown = slots.map m₁.heap.shown :=
    List.map_congr_left fun s hs => hc.row.shown_of_adds hc₂.adds hs
  obtain ⟨⟨⟩, h', hassign, hbuffered⟩ := (ends_assign_text hliteral hrow ((hc₂.adds.cell r hlt).trans harray)
    ((hc₂.adds.block b hb).trans hblock) (hslots.trans hc.shown)).exists_ok
  refine ⟨r, m₁, { m₁.noted init.token with heap := h' }, hdeclare, ?_, x, _, r, hx, ?_, hbuffered⟩
  · rw [evaluate_initialized hnode hdecl hdeclTy haccepts, if_neg (by simp)]
    exact run_placed_ok _ ((run_bind hdeclare).trans ((run_bind hx).trans (run_bind (run_mem hassign))))
  · change (m₁.noted init.token).state.lookup? name = some r
    rwa [Machine.noted_state]

end Typed

/-- The node adds bytes to the output. -/
def Prints (ev : Evaluator) (node : Node) (m : Machine) (bytes : List UInt8) : Prop :=
  ∃ m', ev node m = .ok .normal m' ∧ m'.output.data.toList = m.output.data.toList ++ bytes

section Call

variable {call arg : Node} {site : Token} (hcall : call.construct = .call site [arg])
  (hsite : site.image = "printf")
include hcall hsite

theorem prints_literal (e : Engine) (fuel : Nat) (harg : arg.construct = .string text) (m : Machine) :
    Prints (evaluate e (fuel + 2)) call m (unescape text.toUTF8.toList) := by
  obtain ⟨x, q, lits, h', hx, hliteral, -⟩ := exists_literal e fuel harg
    (.nil (m.calling call site).heap .char)
  have hprinted := printed_call hcall hsite (formatValue_nil hx)
  obtain ⟨m', hok, houtput⟩ := hprinted.of_render hliteral.pointer? hliteral.render
  exact ⟨m', hok, by simpa using houtput⟩

section Named

variable (harg : arg.construct = .id name) (hname : named m.state name = .ok r)
  (hb : m.heap.Buffered r x bytes n)
include harg hname hb

/-- A call with the name of a buffer ends as printing its start does. -/
theorem exists_printed_buffer (e : Engine) (fuel : Nat) : ∃ m₁ b q element,
    Printed m₁ r .normal (evaluate e (fuel + 2) call m) ∧ m₁.output = m.output ∧
      m₁.heap.pointer? r = some ⟨element, b, 0⟩ ∧ m₁.heap.Buffer b q bytes n := by
  obtain ⟨element, b, q, harray, -, hb⟩ := hb
  have hflat : m.heap.flatten r = r := by
    unfold Heap.flatten
    rw [harray]
  have hvalue : valueOf (evaluate e (fuel + 1)) arg (m.calling call site) =
      .ok r ((m.calling call site).noted arg.token) := by
    rw [run_name harg ((Machine.named_calling ..).trans hname), Machine.calling_heap, hflat]
  refine ⟨_, b, q, element, printed_call hcall hsite (formatValue_nil hvalue), by simp, ?_, by simpa using hb⟩
  unfold Heap.pointer?
  rw [Machine.noted_heap, Machine.calling_heap, hflat, harray]

theorem prints_buffer (e : Engine) (fuel : Nat) (hn : bytes.length < n) :
    Prints (evaluate e (fuel + 2)) call m (unescape bytes) := by
  obtain ⟨m₁, b, q, element, hprinted, houtput, hp, hb⟩ := exists_printed_buffer hcall hsite harg hname hb e fuel
  obtain ⟨m', hok, hprints⟩ := hprinted.of_render hp (hb.render hn)
  exact ⟨m', hok, houtput ▸ hprints⟩

theorem noAccess_of_buffer (e : Engine) (fuel : Nat) (hn : n ≤ bytes.length) : ∃ f err m',
    evaluate e (fuel + 2) call m = .error (.fault f) m' ∧ f.cause = .access err ∧ m'.output = m.output := by
  obtain ⟨m₁, b, q, element, hprinted, houtput, hp, hb⟩ := exists_printed_buffer hcall hsite harg hname hb e fuel
  obtain ⟨err, hrender⟩ := hb.render_full hn
  obtain ⟨f, err, m', herror, hcause, hkept⟩ := hprinted.of_render_error hp hrender
  exact ⟨f, err, m', herror, hcause, hkept.trans houtput⟩

end Named

end Call

end Eval

/-- **Arrays of characters with an initial text.** A variable or global whose type is an array
    of characters, and whose initial value is a text, is initialised. It then stands for an
    array that shows the bytes of the text, nothing in the slot after them, and zeros, as far as
    there is room: the size is that in the type or, if there is none, one more than there are
    bytes. A size can also be given by a dimension. The array has no cell in common with the
    text. A call of `printf` with it adds the same bytes as one with the text if there was room
    for the end, and else there is an access error. -/
theorem text_initializes_buffer (e : Engine) {ty element : Ty} {size : Option Nat} {text : String} {init : Node}
    (hinit : init.construct = .string text) (hty : ty.unqualified = .array element size)
    (helement : element.unqualified = .char) :
    (∀ (fuel : Nat) (node decl : Node) (name : String) (m : Machine), node.construct = .initialized decl init →
      decl.ty = ty → (init.ty.isVoid ∨ e.program.accepts ty init.ty) →
      (decl.construct = .declaration name [] →
        ∃ m', Eval.evaluate e (fuel + 2) node m = .ok .normal m' ∧
          Eval.TookText (Eval.evaluate e (fuel + 1)) init (m.noted node.token) name text
            (size.getD (text.utf8ByteSize + 1)) m') ∧
      ∀ dim n m₀, decl.construct = .declaration name [dim] →
        Eval.dimension (Eval.evaluate e (fuel + 1)) name dim (m.noted node.token) = .ok n m₀ →
        ∃ r m₁ m', Eval.declare e (Eval.evaluate e (fuel + 1)) ty name [dim] (m.noted node.token) = .ok r m₁ ∧
          Eval.evaluate e (fuel + 2) node m = .ok .normal m' ∧
          Eval.TookText (Eval.evaluate e (fuel + 1)) init m₁ name text n m') ∧
    (∀ (g : Global) (m : Machine), g.init = some init → g.ty = ty → 0 < e.fuel →
      ∃ m', Eval.initializeGlobal e g m = .ok () m' ∧
        Eval.TookText e.evaluator init m g.name.image text (size.getD (text.utf8ByteSize + 1)) m') ∧
    (∀ (h : Heap) (r x : Ref) (n : Nat), h.Buffered r x text.toUTF8.toList n →
      ∃ element b q, h.cell r = .array element b ∧ h.cell x = .pointer q ∧
        (h.block b).toList.map h.shown = (bufferContents text.toUTF8.toList n).map (Option.map .primitive) ∧
        (h.cellsOf (h.block q.block).toList).Disjoint (h.cellsOf (h.block b).toList)) ∧
    ∀ (fuel : Nat) (call arg : Node) (site : Token) (m : Machine), call.construct = .call site [arg] →
      site.image = "printf" →
      (arg.construct = .string text →
        Eval.Prints (Eval.evaluate e (fuel + 2)) call m (unescape text.toUTF8.toList)) ∧
      ∀ name r x n, arg.construct = .id name → Eval.named m.state name = .ok r →
        m.heap.Buffered r x text.toUTF8.toList n →
        (text.utf8ByteSize < n →
          Eval.Prints (Eval.evaluate e (fuel + 2)) call m (unescape text.toUTF8.toList)) ∧
        (n ≤ text.utf8ByteSize → ∃ f err m', Eval.evaluate e (fuel + 2) call m = .error (.fault f) m' ∧
          f.cause = .access err ∧ m'.output = m.output) := by
  have hlength : text.toUTF8.toList.length = text.utf8ByteSize := length_toList _
  rw [← hlength]
  refine ⟨?_, ?_, ?_, ?_⟩
  · intro fuel node decl name m hnode hdeclTy haccepts
    refine ⟨fun hdecl => ?_, fun dim n m₀ hdecl hdim => ?_⟩
    · exact Eval.exists_tookText_variable hinit hty helement hnode hdecl hdeclTy haccepts fuel m
    · exact Eval.exists_tookText_dimension hinit hty helement hnode hdecl hdeclTy haccepts hdim
  · intro g m hg hgTy hfuel
    exact Eval.exists_tookText_global hinit hty helement hfuel hg hgTy m
  · rintro h r x n ⟨element, b, q, harray, hpointer, hb⟩
    exact ⟨element, b, q, harray, hpointer, hb.shown, hb.row.disjoint⟩
  · intro fuel call arg site m hcall hsite
    refine ⟨fun harg => Eval.prints_literal hcall hsite e fuel harg m, fun name r x n harg hname hb => ⟨?_, ?_⟩⟩
    · exact Eval.prints_buffer hcall hsite harg hname hb e fuel
    · exact Eval.noAccess_of_buffer hcall hsite harg hname hb e fuel

/-! ### A label -/

namespace Label

open Build

/-- A text of three bytes. -/
def text : String :=
  "\xe9!"

def declaration (n : Nat) : Node :=
  declareInit "label" (.array .char (some n)) (string text)

def print : Node :=
  call "printf" [id "label" (.array .char none)] .int

/-- Five slots have room for the text and its end, three have not. -/
theorem room :
    (∃ m r x, Eval.evaluate Eval.noProgram 2 (declaration 5) {} = .ok .normal m ∧
      m.heap.Buffered r x [195, 169, 33] 5 ∧
      Eval.Prints (Eval.evaluate Eval.noProgram 2) print m [195, 169, 33]) ∧
    ∃ m r x f err m', Eval.evaluate Eval.noProgram 2 (declaration 3) {} = .ok .normal m ∧
      m.heap.Buffered r x [195, 169, 33] 3 ∧
      Eval.evaluate Eval.noProgram 2 print m = .error (.fault f) m' ∧ f.cause = .access err := by
  have hbytes : text.toUTF8.toList = [195, 169, 33] := by decide +kernel
  have hsize : text.utf8ByteSize = 3 := by decide +kernel
  have hescapes : unescape text.toUTF8.toList = [195, 169, 33] := by rw [hbytes]; rfl
  have hname {m : Machine} {r : Ref} (hr : m.state.lookup? "label" = some r) :
      Eval.named m.state "label" = .ok r := by
    rw [Eval.named_eq fun h => absurd h (by decide), hr]
    rfl
  have hinit : (string text).construct = .string text := rfl
  have hty (n : Nat) : (Ty.array .char (some n)).unqualified = .array .char (some n) := rfl
  constructor
  · obtain ⟨hvariable, -, -, hprint⟩ := text_initializes_buffer Eval.noProgram hinit (hty 5) rfl
    obtain ⟨m, hm, x, m₁, r, -, hr, hb⟩ :=
      (hvariable 0 (declaration 5) _ "label" {} rfl rfl (.inr (by decide))).1 rfl
    refine ⟨m, r, x, hm, hbytes ▸ hb, hescapes ▸ ?_⟩
    exact ((hprint 0 print _ _ m rfl rfl).2 "label" r x 5 rfl (hname hr) hb).1 (by rw [hsize]; decide)
  · obtain ⟨hvariable, -, -, hprint⟩ := text_initializes_buffer Eval.noProgram hinit (hty 3) rfl
    obtain ⟨m, hm, x, m₁, r, -, hr, hb⟩ :=
      (hvariable 0 (declaration 3) _ "label" {} rfl rfl (.inr (by decide))).1 rfl
    obtain ⟨f, err, m', herror, hcause, -⟩ :=
      ((hprint 0 print _ _ m rfl rfl).2 "label" r x 3 rfl (hname hr) hb).2 (by rw [hsize])
    exact ⟨m, r, x, f, err, m', hm, hbytes ▸ hb, herror, hcause⟩

end Label

end Treewalk
