/-
  Rows of new characters.

  * `Heap.Continues h base h' slots shows`: from `h` to `h'` values were added, and among
    them slots that continue a row `base` of characters and show `shows`;
  * `ends_createString`, `ends_arrayOf_chars`, `ends_mapM_copy`: a text, an array of
    zeros and a copy of slots continue a row in this way.
-/
import Treewalk.Proofs.Numbers
import Treewalk.Proofs.Overlap

namespace Treewalk

open Mem

variable {h h₁ h₂ h' : Heap} {ty : Ty} {base slots : List Ref} {shows : List (Option Primitive)} {r v x : Ref}
  {p : Primitive}

namespace Heap

/-! ## Rows that grow -/

namespace Row

theorem nil (h : Heap) (ty : Ty) : h.Row ty [] :=
  ⟨.nil, by simp, by simp, by simp⟩

/-- A row stays one while values are added. -/
theorem of_adds (hr : h.Row ty slots) (ha : h.Adds h') : h'.Row ty slots := by
  have hcell : ∀ r ∈ slots, h'.cell r = h.cell r := fun r hrs => ha.cell r (hr.lt hrs)
  refine ⟨hr.distinct, fun r hrs => ?_, fun r hrs x hx => ?_, fun r hrs s hss x hx hx' => ?_⟩
  · rw [hcell r hrs]
    exact hr.slot r hrs
  · rw [hcell r hrs] at hx
    obtain ⟨hlt, hfits⟩ := hr.fits r hrs x hx
    rw [ha.cell x hlt]
    exact ⟨hlt.trans_le ha.cells_le, hfits⟩
  · rw [hcell r hrs] at hx
    rw [hcell s hss] at hx'
    exact hr.apart r hrs s hss x hx hx'

theorem shown_of_adds (hr : h.Row ty slots) (ha : h.Adds h') (hrs : r ∈ slots) : h'.shown r = h.shown r :=
  hr.shown_eq hrs (ha.cell r (hr.lt hrs)) fun x hx => ha.cell x (hr.fits r hrs x hx).1

/-- A new slot at the end, empty or with a content that no other slot has. -/
theorem snoc {content : Option Ref} (hr : h.Row ty slots)
    (hfits : ∀ x ∈ content, x.id < h.cells.size ∧ (h.cell x).Fits ty)
    (hapart : ∀ x ∈ content, ∀ r ∈ slots, h.cell r ≠ .slot ty (some x)) :
    (h.alloc (.slot ty content)).2.Row ty (slots ++ [⟨h.cells.size⟩]) := by
  have ha : h.Adds (h.alloc (.slot ty content)).2 := Additive.alloc h _
  have hnew : (h.alloc (.slot ty content)).2.cell ⟨h.cells.size⟩ = .slot ty content := cell_alloc_new h _
  have hold : ∀ r ∈ slots, (h.alloc (.slot ty content)).2.cell r = h.cell r := fun r hrs => ha.cell r (hr.lt hrs)
  have hr₁ := hr.of_adds ha
  -- Its content, if there is one, is in none of the slots that were there.
  have hother : ∀ r ∈ slots, ∀ x, (h.alloc (.slot ty content)).2.cell r = .slot ty (some x) →
      (h.alloc (.slot ty content)).2.cell ⟨h.cells.size⟩ ≠ .slot ty (some x) := by
    intro r hrs x hx hx'
    obtain ⟨-, rfl⟩ := Cell.slot.inj (hnew.symm.trans hx')
    exact hapart x rfl r hrs ((hold r hrs).symm.trans hx)
  refine ⟨?_, fun r hrs => ?_, fun r hrs x hx => ?_, fun r hrs s hss x hx hx' => ?_⟩
  · refine List.nodup_append.2 ⟨hr.distinct, by simp, ?_⟩
    rintro r hrs s hss rfl
    cases List.mem_singleton.1 hss
    exact absurd (hr.lt hrs) (Nat.lt_irrefl _)
  · rcases List.mem_append.1 hrs with hrs | hrs
    · exact hr₁.slot r hrs
    · cases List.mem_singleton.1 hrs
      exact ⟨content, hnew⟩
  · rcases List.mem_append.1 hrs with hrs | hrs
    · exact hr₁.fits r hrs x hx
    · cases List.mem_singleton.1 hrs
      obtain ⟨-, rfl⟩ := Cell.slot.inj (hnew.symm.trans hx)
      obtain ⟨hlt, hfit⟩ := hfits x rfl
      rw [ha.cell x hlt]
      exact ⟨hlt.trans_le ha.cells_le, hfit⟩
  · rcases List.mem_append.1 hrs with hrs | hrs
    · rcases List.mem_append.1 hss with hss | hss
      · exact hr₁.apart r hrs s hss x hx hx'
      · cases List.mem_singleton.1 hss
        exact absurd hx' (hother r hrs x hx)
    · cases List.mem_singleton.1 hrs
      rcases List.mem_append.1 hss with hss | hss
      · exact absurd hx (hother s hss x hx')
      · exact (List.mem_singleton.1 hss).symm

/-- A slot is read as the number it shows. -/
theorem primitive?_of_shown {o : Option Primitive} (hr : h.Row ty slots) (hrs : r ∈ slots)
    (ho : h.shown r = o.map .primitive) : h.primitive? r = o := by
  obtain ⟨content, hcell⟩ := hr.slot r hrs
  unfold primitive? flatten
  cases content with
  | none =>
    rw [shown_absent hcell] at ho
    rw [hcell]
    dsimp only
    rw [hcell]
    cases o with
    | none => rfl
    | some p => cases ho
  | some x =>
    rw [shown_present hcell] at ho
    rw [hcell]
    dsimp only
    cases o with
    | none => cases ho
    | some p =>
      rw [Option.some.inj ho]

theorem map_primitive? (hr : h.Row ty slots) {row : List Ref} (hrow : row ⊆ slots)
    (hshown : row.map h.shown = shows.map (Option.map .primitive)) : row.map h.primitive? = shows := by
  induction row generalizing shows with
  | nil => simpa using hshown.symm
  | cons r row ih =>
    cases shows with
    | nil => cases hshown
    | cons o shows =>
      obtain ⟨ho, hshown⟩ := List.cons.inj hshown
      rw [List.map_cons, hr.primitive?_of_shown (hrow List.mem_cons_self) ho,
        ih (fun r hr => hrow (List.mem_cons_of_mem _ hr)) hshown]

end Row

/-- Values were added, and among them slots that continue a row of characters. -/
structure Continues (h : Heap) (base : List Ref) (h' : Heap) (slots : List Ref)
    (shows : List (Option Primitive)) : Prop where
  adds : h.Adds h'
  row : h'.Row .char (base ++ slots)
  shown : slots.map h'.shown = shows.map (Option.map .primitive)

namespace Continues

theorem start (hr : h.Row .char base) : h.Continues base h [] [] where
  adds := Std.Refl.refl h
  row := by rwa [List.append_nil]
  shown := rfl

variable (hc : h.Continues base h₁ slots shows)
include hc

theorem of_adds (ha : h₁.Adds h₂) : h.Continues base h₂ slots shows where
  adds := IsTrans.trans _ _ _ hc.adds ha
  row := hc.row.of_adds ha
  shown := by
    rw [← hc.shown]
    exact List.map_congr_left fun r hr => hc.row.shown_of_adds ha (List.mem_append_right _ hr)

/-- One more slot. -/
theorem snoc {content : Option Ref} {o : Option Primitive} (ho : content.map h₁.cell = o.map .primitive)
    (hfits : ∀ x ∈ content, x.id < h₁.cells.size ∧ (h₁.cell x).Fits .char)
    (hapart : ∀ x ∈ content, ∀ r ∈ base ++ slots, h₁.cell r ≠ .slot .char (some x)) :
    h.Continues base (h₁.alloc (.slot .char content)).2 (slots ++ [⟨h₁.cells.size⟩]) (shows ++ [o]) := by
  have ha : h₁.Adds (h₁.alloc (.slot .char content)).2 := Additive.alloc h₁ _
  have hnew : (h₁.alloc (.slot .char content)).2.cell ⟨h₁.cells.size⟩ = .slot .char content :=
    cell_alloc_new h₁ _
  have hshown : (h₁.alloc (.slot .char content)).2.shown ⟨h₁.cells.size⟩ = o.map .primitive := by
    rw [← ho]
    cases content with
    | none => exact shown_absent hnew
    | some x => rw [shown_present hnew, ha.cell x (hfits x rfl).1]; rfl
  refine ⟨IsTrans.trans _ _ _ hc.adds ha, ?_, ?_⟩
  · rw [← List.append_assoc]
    exact hc.row.snoc hfits hapart
  · rw [List.map_append, List.map_append, (hc.of_adds ha).shown, List.map_singleton, List.map_singleton, hshown]

/-- What was made last is in no slot. -/
theorem apart_of_le (hv : h₁.cells.size ≤ v.id) : ∀ r ∈ base ++ slots, h₁.cell r ≠ .slot .char (some v) :=
  fun r hr hcell => absurd (hc.row.fits r hr v hcell).1 (Nat.not_lt_of_le hv)

end Continues

end Heap

/-! ## Ways to make them -/

theorem fits_char (p : Payload) : (Cell.primitive (.of .char false p)).Fits .char :=
  ⟨rfl, Kind.noConfusion, Primitive.inRange_of ..⟩

theorem Cell.Fits.exists_primitive {c : Cell} (hc : c.Fits .char) : ∃ p, c = .primitive p := by
  cases c with
  | primitive p => exact ⟨p, rfl⟩
  | pointer q => cases hc
  | array | slot | compound => exact hc.elim

theorem slotFor_number (hv : h.cell v = .primitive p) :
    slotFor v h = .ok ⟨h.cells.size⟩ (h.alloc (.slot p.ty (some v))).2 := by
  have hty : h.tyOf v = p.ty := by simp [Heap.tyOf, Heap.flatten, Heap.cellTy, hv]
  unfold slotFor toSlot
  rw [read_bind, hv]
  dsimp only
  rw [read_bind, hv]
  dsimp only
  rw [read_bind, hty]
  rfl

theorem copy_absent (hr : h.cell r = .slot ty none) : copy r h = .ok ⟨h.cells.size⟩ (h.alloc (.slot ty none)).2 := by
  unfold copy
  rw [read_bind]
  unfold Heap.levels
  rw [copyWithin, read_bind, hr]
  rfl

/-- A slot is copied with what is in it. -/
theorem copy_present (hr : h.cell r = .slot ty (some x)) (hx : (h.cell x).IsLeaf) :
    copy r h = .ok ⟨(h.alloc (h.cell x)).2.cells.size⟩
      ((h.alloc (h.cell x)).2.alloc (.slot ty (some ⟨h.cells.size⟩))).2 := by
  have hlt : r.id < h.cells.size := Heap.lt_of_cell_ne (by rw [hr]; exact Cell.noConfusion)
  obtain ⟨k, hk⟩ : ∃ k, h.levels = k + 1 + 1 := ⟨h.cells.size - 1, by unfold Heap.levels; omega⟩
  have hcopy : copyWithin (k + 1) x h = .ok ⟨h.cells.size⟩ (h.alloc (h.cell x)).2 := by
    rw [copyWithin, read_bind]
    cases hc : h.cell x with
    | primitive | pointer => rfl
    | array | slot | compound =>
      rw [hc] at hx
      exact hx.elim
  unfold copy
  rw [read_bind, hk, copyWithin, read_bind, hr]
  simp only [bind, EStateM.bind, hcopy]
  rfl

namespace Heap.Continues

section Slots

variable (hc : h.Continues base h₁ slots shows)
include hc

/-- A number that is in no slot yet is put into one. -/
theorem slotFor (hv : h₁.cell v = .primitive p) (hp : (Cell.primitive p).Fits .char)
    (hlt : v.id < h₁.cells.size) (hapart : ∀ r ∈ base ++ slots, h₁.cell r ≠ .slot .char (some v)) :
    slotFor v h₁ = .ok ⟨h₁.cells.size⟩ (h₁.alloc (.slot .char (some v))).2 ∧
      h.Continues base (h₁.alloc (.slot .char (some v))).2 (slots ++ [⟨h₁.cells.size⟩]) (shows ++ [some p]) := by
  have hty : p.ty = .char := hp.1.symm
  refine ⟨hty ▸ slotFor_number hv, hc.snoc (by rw [Option.map_some, hv]; rfl) ?_ ?_⟩
  · rintro _ ⟨⟩
    exact ⟨hlt, hv.symm ▸ hp⟩
  · rintro _ ⟨⟩
    exact hapart

/-- A new number in a new slot. -/
theorem number (hp : (Cell.primitive p).Fits .char) :
    h.Continues base ((h₁.alloc (.primitive p)).2.alloc (.slot .char (some ⟨h₁.cells.size⟩))).2
      (slots ++ [⟨(h₁.alloc (.primitive p)).2.cells.size⟩]) (shows ++ [some p]) := by
  have ha : h₁.Adds (h₁.alloc (.primitive p)).2 := Additive.alloc h₁ _
  have hnew : (h₁.alloc (.primitive p)).2.cell ⟨h₁.cells.size⟩ = .primitive p := cell_alloc_new h₁ _
  refine ((hc.of_adds ha).slotFor hnew hp (by simp) fun r hr hcell => ?_).2
  rw [ha.cell r (hc.row.lt hr)] at hcell
  exact hc.apart_of_le (Nat.le_refl _) r hr hcell

/-- An empty slot. -/
theorem empty : h.Continues base (h₁.alloc (.slot .char none)).2 (slots ++ [⟨h₁.cells.size⟩]) (shows ++ [none]) :=
  hc.snoc rfl (by simp) (by simp)

end Slots

/-- What continues a row slot by slot continues it by all of them. -/
theorem mapM {α : Type} {f : α → Mem Ref} {g : α → Option Primitive} {l : List α}
    (hf : ∀ a ∈ l, ∀ h₁ slots shows, h.Continues base h₁ slots shows →
      Ends (f a) h₁ (fun r h₂ => h.Continues base h₂ (slots ++ [r]) (shows ++ [g a])) fun _ _ => False)
    (hc : h.Continues base h₁ slots shows) :
    Ends (l.mapM f) h₁ (fun rs h₂ => h.Continues base h₂ (slots ++ rs) (shows ++ l.map g)) fun _ _ => False := by
  induction l generalizing h₁ slots shows with
  | nil =>
    rw [List.mapM_nil]
    change h.Continues base h₁ (slots ++ []) (shows ++ [])
    rwa [List.append_nil, List.append_nil]
  | cons a l ih =>
    rw [List.mapM_cons]
    refine ends_bind.2 ((hf a List.mem_cons_self _ _ _ hc).mono (fun r h₂ hc₂ => ?_) fun _ _ => False.elim)
    refine ends_bind.2 ((ih (fun a ha => hf a (List.mem_cons_of_mem _ ha)) hc₂).mono (fun rs h₃ hc₃ => ?_)
      fun _ _ => False.elim)
    change h.Continues base h₃ (slots ++ r :: rs) (shows ++ g a :: l.map g)
    simpa using hc₃

/-- The slots are put into a block, and that into a cell. -/
theorem block (hc : h.Continues base h₁ slots shows) (c : BlockRef → Cell) :
    Ends (do let b ← Mem.allocBlock slots.toArray; Mem.alloc (c b)) h₁
      (fun r h' => ∃ b, h'.cell r = c b ∧ h'.block b = slots.toArray ∧ b.id < h'.blocks.size ∧
        h.Continues base h' slots shows)
      fun _ _ => False := by
  refine ends_bind.2 (ends_allocBlock.2 (ends_alloc.2 ?_))
  have hblock : h₁.Adds (h₁.allocBlock slots.toArray).2 := Additive.allocBlock h₁ _
  have hcell : (h₁.allocBlock slots.toArray).2.Adds ((h₁.allocBlock slots.toArray).2.alloc (c ⟨h₁.blocks.size⟩)).2 :=
    Additive.alloc _ _
  have hlt : h₁.blocks.size < ((h₁.allocBlock slots.toArray).2.alloc (c ⟨h₁.blocks.size⟩)).2.blocks.size := by simp
  exact ⟨⟨h₁.blocks.size⟩, cell_alloc_new _ _, block_allocBlock_new h₁ _, hlt, (hc.of_adds hblock).of_adds hcell⟩

end Heap.Continues

/-! ## Texts, arrays of zeros and copies -/

/-- What the slots of a text show: its bytes, and nothing in the last. -/
def textContents (bytes : List UInt8) : List (Option Primitive) :=
  bytes.map (fun c => some (.char c)) ++ [none]

theorem ends_createString (hr : h.Row .char base) (text : String) :
    Ends (createString text) h
      (fun r h' => ∃ b slots, h'.cell r = .pointer ⟨.char, b, 0⟩ ∧ h'.block b = slots.toArray ∧
        b.id < h'.blocks.size ∧ h.Continues base h' slots (textContents text.toUTF8.toList))
      fun _ _ => False := by
  have hchar : ∀ c ∈ text.toUTF8.toList, ∀ h₁ slots shows, h.Continues base h₁ slots shows →
      Ends (do slotFor (← alloc (.primitive (.char c)))) h₁
        (fun r h₂ => h.Continues base h₂ (slots ++ [r]) (shows ++ [some (.char c)])) fun _ _ => False := by
    intro c _ h₁ slots shows hc
    have hnew : (h₁.alloc (.primitive (.char c))).2.cell ⟨h₁.cells.size⟩ = .primitive (.char c) :=
      Heap.cell_alloc_new h₁ _
    refine ends_bind.2 (ends_alloc.2 ?_)
    rw [ends_iff_of_ok (slotFor_number hnew)]
    exact hc.number (fits_char _)
  unfold createString
  refine ends_bind.2 ((Heap.Continues.mapM hchar (.start hr)).mono (fun slots h₁ hc => ?_) fun _ _ => False.elim)
  refine ends_bind.2 (ends_alloc.2 ?_)
  refine (hc.empty.block fun b => .pointer ⟨.char, b, 0⟩).mono (fun r h' hr' => ?_) fun _ _ => False.elim
  obtain ⟨b, hr', hb, hlt, hc'⟩ := hr'
  exact ⟨b, _, hr', hb, hlt, hc'⟩

/-- Copies of slots of the row show what these show. -/
theorem ends_mapM_copy {sources : List Ref} {contents : List (Option Primitive)} (hr : h.Row .char base)
    (hsources : sources ⊆ base) (hshown : sources.map h.shown = contents.map (Option.map .primitive)) :
    Ends (sources.mapM copy) h (fun slots h' => h.Continues base h' slots contents) fun _ _ => False := by
  have hcopy : ∀ r ∈ sources, ∀ h₁ slots shows, h.Continues base h₁ slots shows →
      Ends (copy r) h₁ (fun s h₂ => h.Continues base h₂ (slots ++ [s]) (shows ++ [h.primitive? r]))
        fun _ _ => False := by
    intro r hrs h₁ slots shows hc
    have hbase := hsources hrs
    obtain ⟨content, hcell⟩ := hr.slot r hbase
    have hcell₁ : h₁.cell r = .slot .char content := (hc.adds.cell r (hr.lt hbase)).trans hcell
    cases content with
    | none =>
      have hnone : h.primitive? r = none := by simp [Heap.primitive?, Heap.flatten, hcell]
      rw [ends_iff_of_ok (copy_absent hcell₁), hnone]
      exact hc.empty
    | some x =>
      obtain ⟨hlt, hfits⟩ := hr.fits r hbase x hcell
      obtain ⟨p, hp⟩ := hfits.exists_primitive
      have hx₁ : h₁.cell x = .primitive p := (hc.adds.cell x hlt).trans hp
      have hsome : h.primitive? r = some p := by simp [Heap.primitive?, Heap.flatten, hcell, hp]
      rw [ends_iff_of_ok (copy_present hcell₁ (by rw [hx₁]; trivial)), hx₁, hsome]
      exact hc.number (hp ▸ hfits)
  refine (Heap.Continues.mapM hcopy (.start hr)).mono (fun slots h' hc => ?_) fun _ _ => False.elim
  rwa [hr.map_primitive? hsources hshown] at hc

/-- An array is made of the zeros of its elements. -/
theorem createValue_array (program : Program) {element : Ty} {n : Nat}
    (hty : ty.unqualified = .array element (some n)) :
    createValue program ty = (do
      let values ← replicateM n (createValue program element)
      arrayOf element values) := by
  have hzero : zeroValue? program ty = (do
      let values ← replicateM n (createValue program element)
      some <$> arrayOf element values) := by
    rw [zeroValue?_unqualified, hty]
    rfl
  generalize replicateM n (createValue program element) = made at hzero ⊢
  unfold createValue
  rw [hzero]
  funext h
  simp only [bind, EStateM.bind, Functor.map, EStateM.map]
  cases made h with
  | ok values h₁ =>
    dsimp only
    cases arrayOf element values h₁ <;> rfl
  | error => rfl

theorem createArray_single (program : Program) (element : Ty) (n : Nat) :
    createArray program element [n] = (do
      let values ← replicateM n (createValue program element)
      arrayOf element values) := by
  unfold createArray
  cases element.unqualified <;> rfl

/-- Values made one after another are new, and differ. -/
theorem ends_replicateM_alloc (n : Nat) (c : Cell) (h : Heap) :
    Ends (replicateM n (alloc c)) h
      (fun values h' => h.Adds h' ∧ values.length = n ∧ values.Nodup ∧
        ∀ v ∈ values, h.cells.size ≤ v.id ∧ v.id < h'.cells.size ∧ h'.cell v = c)
      fun _ _ => False := by
  induction n generalizing h with
  | zero => exact ⟨Std.Refl.refl h, rfl, .nil, by simp⟩
  | succ n ih =>
    have hadds : h.Adds (h.alloc c).2 := Heap.Additive.alloc h c
    have hnew : (h.alloc c).2.cell ⟨h.cells.size⟩ = c := Heap.cell_alloc_new h c
    refine ends_bind.2 (ends_alloc.2 (ends_bind.2 ((ih (h.alloc c).2).mono (fun values h' hv => ?_)
      fun _ _ => False.elim)))
    obtain ⟨hadds', hlength, hnodup, hvalues⟩ := hv
    rw [Heap.cells_size_alloc] at hvalues
    have hlt : h.cells.size < h'.cells.size := by
      have := hadds'.cells_le
      rw [Heap.cells_size_alloc] at this
      exact this
    refine ⟨IsTrans.trans _ _ _ hadds hadds', by simp [hlength], ?_, ?_⟩
    · refine List.nodup_cons.2 ⟨fun hmem => ?_, hnodup⟩
      exact absurd (hvalues _ hmem).1 (Nat.not_succ_le_self _)
    · refine List.forall_mem_cons.2 ⟨⟨Nat.le_refl _, hlt, ?_⟩, fun v hv => ?_⟩
      · rw [hadds'.cell _ (by simp), hnew]
      · obtain ⟨hle, hrest⟩ := hvalues v hv
        exact ⟨Nat.le_of_succ_le hle, hrest⟩

/-- Equal numbers are put into slots. -/
theorem Heap.Continues.mapM_slotFor {values : List Ref} (hc : h.Continues base h₁ slots shows)
    (hp : (Cell.primitive p).Fits .char) (hnodup : values.Nodup)
    (hvalues : ∀ v ∈ values, v.id < h₁.cells.size ∧ h₁.cell v = .primitive p ∧
      ∀ r ∈ base ++ slots, h₁.cell r ≠ .slot .char (some v)) :
    Ends (values.mapM Treewalk.slotFor) h₁
      (fun rs h₂ => h.Continues base h₂ (slots ++ rs) (shows ++ List.replicate values.length (some p)))
      fun _ _ => False := by
  induction values generalizing h₁ slots shows with
  | nil =>
    rw [List.mapM_nil]
    change h.Continues base h₁ (slots ++ []) (shows ++ [])
    rwa [List.append_nil, List.append_nil]
  | cons v values ih =>
    obtain ⟨hv, hvalues⟩ := List.forall_mem_cons.1 hvalues
    obtain ⟨hfirst, hnodup⟩ := List.nodup_cons.1 hnodup
    obtain ⟨hok, hc₂⟩ := hc.slotFor hv.2.1 hp hv.1 hv.2.2
    have hadds : h₁.Adds (h₁.alloc (.slot .char (some v))).2 := Additive.alloc h₁ _
    rw [List.mapM_cons]
    refine ends_bind.2 ((ends_iff_of_ok hok).2 (ends_bind.2 ((ih hc₂ hnodup fun w hw => ?_).mono
      (fun rs h₃ hc₃ => ?_) fun _ _ => False.elim)))
    · obtain ⟨hlt, hcell, hapart⟩ := hvalues w hw
      refine ⟨hlt.trans_le hadds.cells_le, (hadds.cell w hlt).trans hcell, fun r hr hin => ?_⟩
      rw [← List.append_assoc] at hr
      rcases List.mem_append.1 hr with hr | hr
      · rw [hadds.cell r (hc.row.lt hr)] at hin
        exact hapart r hr hin
      · cases List.mem_singleton.1 hr
        obtain ⟨-, hvw⟩ := Cell.slot.inj ((Heap.cell_alloc_new h₁ _).symm.trans hin)
        exact hfirst (Option.some.inj hvw ▸ hw)
    · change h.Continues base h₃ (slots ++ ⟨h₁.cells.size⟩ :: rs) (shows ++ some p :: List.replicate values.length (some p))
      simpa using hc₃

/-- An array of characters is made of slots with zeros. -/
theorem ends_arrayOf_chars (program : Program) {element : Ty} (n : Nat) (hr : h.Row .char base)
    (helement : element.unqualified = .char) :
    Ends (do let values ← replicateM n (createValue program element); arrayOf element values) h
      (fun r h' => ∃ b slots, h'.cell r = .array element b ∧ h'.block b = slots.toArray ∧ b.id < h'.blocks.size ∧
        h.Continues base h' slots (List.replicate n (some (.zero .char false))))
      fun _ _ => False := by
  have hprimitive : element.primitive? = some (.char, false) := by
    unfold Ty.primitive?
    rw [helement]
    rfl
  rw [createValue_eq program hprimitive (by decide)]
  refine ends_bind.2 ((ends_replicateM_alloc n _ h).mono (fun values h₁ hv => ?_) fun _ _ => False.elim)
  obtain ⟨hadds, hlength, hnodup, hvalues⟩ := hv
  have hc := (Heap.Continues.start hr).of_adds hadds
  have hzero : (Cell.primitive (.zero .char false)).Fits .char := fits_char _
  refine ends_bind.2 ((hc.mapM_slotFor hzero hnodup fun v hv => ?_).mono (fun slots h₂ hc₂ => ?_)
    fun _ _ => False.elim)
  · obtain ⟨hle, hlt, hcell⟩ := hvalues v hv
    refine ⟨hlt, hcell, fun r hrs hin => ?_⟩
    rw [List.append_nil] at hrs
    rw [hadds.cell r (hr.lt hrs)] at hin
    exact absurd (hr.fits r hrs v hin).1 (Nat.not_lt_of_le hle)
  · rw [hlength] at hc₂
    refine (hc₂.block fun b => .array element b).mono (fun r h' hr' => ?_) fun _ _ => False.elim
    obtain ⟨b, hcell, hblock, hlt, hc'⟩ := hr'
    exact ⟨b, slots, hcell, hblock, hlt, hc'⟩

end Treewalk
