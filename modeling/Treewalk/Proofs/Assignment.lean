/-
  Assignment between values of one type.

  * `assign_same_shape`: a value that is stored into another of the shape that new
    values of the type have is there afterwards, in the same cells;
  * `assign_array_elements`: of arrays with emptied slots, the target is empty where
    the source is, and reads the same elsewhere, but for two kinds of elements: a
    compound that stands directly in the target cannot be emptied, and an emptied
    slot gets a pointer to an array instead of an array.
-/
import Treewalk.Proofs.Stored
import Treewalk.Proofs.Zeros

namespace Treewalk

open Mem

variable {p : Program} {h h₀ h₁ : Heap} {a b r x y : Ref} {ty element : Ty}

/-! ## Values as a type makes them -/

/-- Of two values as the type makes them, with nothing in common, the second is
    stored into the first: the two look the same then, pointers included, the first
    consists of the cells that it did, and nothing else has changed. -/
theorem assign_same_shape (hnames : ∀ name, ((p.allFields name).map Field.name).Nodup)
    (hs₀ : h₀.Sound) (hmade : createValue p ty h₀ = .ok r h₁) (hs : h.Sound)
    (ha : a.id < h.cells.size) (hb : b.id < h.cells.size)
    (hshape : (h.tree a).shape = (h₁.tree r).shape) (hshape' : (h.tree b).shape = (h₁.tree r).shape)
    (hapart : h.Apart a b) :
    ∃ h', assign a b h = .ok () h' ∧ (∀ k, h.levels ≤ k → assignWithin k a b h = .ok () h') ∧
      h'.Sound ∧ h'.tree a = h.tree b ∧ h'.tree b = h.tree b ∧
      (∀ y, Reaches h'.parts a y ↔ Reaches h.parts a y) ∧
      (∀ y, Reaches h.parts a y → h'.parts y = h.parts y) ∧
      (∀ y, y.id < h.cells.size → ¬ Reaches h.parts a y → h'.cell y = h.cell y) ∧
      (∀ c, c.id < h.blocks.size → h'.block c = h.block c) ∧ h'.Apart a b := by
  obtain ⟨hminted, hz⟩ := Ends.of_ok (ends_createValue p ty hs₀.grounded) hmade
  have hm : h.Matching p a b ty :=
    { target_lt := ha, source_lt := hb, apart := hapart
      target := hz.hasTy.of_shape hshape, source := hz.hasTy.of_shape hshape' }
  have hpresent : ¬ h.isAbsent b := by
    refine Heap.not_isAbsent_of_not_isSlot ?_
    rw [hs.grounded.isSlot_iff, ← ValueTree.isSlot_shape, hshape', ValueTree.isSlot_shape]
    exact hz.not_isSlot
  have hstores := ends_assignWithin_took hnames h.levels (2 * h.levels) (by omega)
  obtain ⟨_, h', hok, hassigned, htook⟩ := (hstores h a b ty hs hm hpresent (hs.shallow a)).exists_ok
  obtain ⟨htree, hparts⟩ := htook.shape (hshape.trans hshape'.symm)
  have hreaches : ∀ y, Reaches h'.parts a y ↔ Reaches h.parts a y := fun y =>
    ⟨Reaches.congr hparts, Reaches.transfer hparts⟩
  have hintact : h.Intact b h' := hassigned.intact hs hb fun y hy hy' => hapart y hy' hy
  refine ⟨h', hok, fun k hk => ?_, hassigned.sound, htree, ?_, hreaches, hparts,
    hassigned.edits.cell, hassigned.edits.block, fun y hy hy' => ?_⟩
  · rw [assignWithin_eq_assign hs hk]
    exact hok
  · exact hintact.tree_eq hs.grounded hassigned.sound.grounded
  · exact hapart y ((hreaches y).1 hy) (hintact.reaches_iff.1 hy')

def entry : Compound where
  name := "Entry"
  form := .struct
  fields := [⟨"sum", .int⟩, ⟨"marks", .array .int (some 2)⟩, ⟨"next", .pointer .int⟩]

def ledger : Program where
  compounds := ⟨[("Entry", entry)], by decide⟩

def entries : Ty :=
  .array (.compound .struct "Entry") (some 1)

/-- The heap once an array of one entry has been made. -/
def blank : Heap :=
  leaves (createValue ledger entries) {}

/-- The entry has a sum, and its pointer leads to its second mark. -/
def jotted : Heap :=
  (blank.setCell ⟨0⟩ (.primitive (.int 7))).setCell ⟨6⟩ (.pointer ⟨.int, ⟨0⟩, 1⟩)

/-- Another such array has been made. -/
def doubled : Heap :=
  leaves (createValue ledger entries) jotted

def entryTree (sum : Primitive) (next : Pointer) : ValueTree :=
  let mark := .slot .int (some (.primitive (.int 0)))
  .array (.compound .struct "Entry") [.compound (.compound .struct "Entry")
    [("sum", .primitive sum), ("marks", .array .int [mark, mark]), ("next", .pointer next)]]

theorem blank_eq : createValue ledger entries {} = .ok ⟨8⟩ blank := rfl

theorem blank_sound : blank.Sound :=
  ((makes_createValue ledger entries .empty).of_ok blank_eq).sound

theorem jotted_sound : jotted.Sound := by
  have hseven : (Cell.primitive (.int 7)).Simple := Primitive.inRange_of .int false (.integral 7)
  have hsum : (blank.cell ⟨0⟩).Alike (.primitive (.int 7)) :=
    show Cell.Alike (.primitive (.zero .int false)) _ from .primitive rfl rfl
  have hnext : ((blank.setCell ⟨0⟩ (.primitive (.int 7))).cell ⟨6⟩).Alike (.pointer ⟨.int, ⟨0⟩, 1⟩) :=
    show Cell.Alike (.pointer ⟨.int, ⟨1⟩, 0⟩) _ from .pointer rfl
  have hwritten := (Heap.Assigned.setCell blank_sound (.refl _) hsum hseven).sound
  exact (Heap.Assigned.setCell hwritten (.refl _) hnext trivial).sound

theorem entry_stored : doubled.tree ⟨8⟩ = entryTree (.int 7) ⟨.int, ⟨0⟩, 1⟩ ∧
    ∃ h', assign ⟨17⟩ ⟨8⟩ doubled = .ok () h' ∧ h'.tree ⟨17⟩ = entryTree (.int 7) ⟨.int, ⟨0⟩, 1⟩ ∧
      ∀ y, Reaches h'.parts ⟨17⟩ y ↔ Reaches doubled.parts ⟨17⟩ y := by
  have hdoubled : createValue ledger entries jotted = .ok ⟨17⟩ doubled := rfl
  have hsound := ((makes_createValue ledger entries jotted_sound).of_ok hdoubled).sound
  have hminted := (Ends.of_ok (ends_createValue ledger entries jotted_sound.grounded) hdoubled).1
  have hdeclared : ledger.WellDeclared :=
    .of_rank (fun _ => 0) (by decide) (by decide) (by decide) (by decide)
  have htree : doubled.tree ⟨8⟩ = entryTree (.int 7) ⟨.int, ⟨0⟩, 1⟩ := rfl
  have htree' : doubled.tree ⟨17⟩ = entryTree (.int 0) ⟨.int, ⟨4⟩, 0⟩ := rfl
  have hblank : blank.tree ⟨8⟩ = entryTree (.int 0) ⟨.int, ⟨1⟩, 0⟩ := rfl
  obtain ⟨h', hok, -, -, hsame, -, hreaches, -⟩ :=
    assign_same_shape (a := ⟨17⟩) (b := ⟨8⟩) hdeclared.distinct .empty blank_eq hsound (by decide)
      (by decide) (by rw [htree', hblank]; rfl) (by rw [htree, hblank]; rfl)
      (hminted.apart jotted_sound.grounded (by decide)).symm
  exact ⟨htree, h', hok, hsame.trans htree, hreaches⟩

/-! ## Arrays with empty slots -/

namespace ValueTree

variable {t s : ValueTree}

theorem not_clash_leaf (hs : s.IsLeaf) : ¬ t.Clash s := by
  intro hc
  induction hc with
  | bare | decay | element | field | source => exact hs
  | target _ _ ih => exact ih hs

theorem not_clash_present (hs : s.IsLeaf) : ¬ t.Clash (.slot ty (some s)) := by
  intro hc
  generalize hsource : ValueTree.slot ty (some s) = source at hc
  induction hc with
  | bare | decay | element | field => cases hsource
  | target _ _ ih => exact ih hsource
  | source hc =>
    cases hsource
    exact not_clash_leaf hs hc

theorem not_clash_absent (ht : t.IsSlot) : ¬ t.Clash (.slot ty none) := by
  intro hc
  cases hc with
  | bare hbare => exact hbare ht
  | target hne _ => exact hne _ rfl

end ValueTree

/-- Numbers and pointers are carried over into slots. -/
theorem Heap.Sound.not_clash (hs : h.Sound) (hx : h.isSlot x) (hy : (h.tree y).HasTy p element)
    (hscalar : element.IsScalar) : ¬ (h.tree x).Clash (h.tree y) := by
  by_cases habsent : h.isAbsent y
  · obtain ⟨ty, htree⟩ := hs.grounded.isAbsent_iff.1 habsent
    rw [htree]
    exact ValueTree.not_clash_absent (hs.grounded.isSlot_iff.1 hx)
  have hbare := hs.grounded.isSlot_iff.not.1 (hs.not_isSlot_flatten habsent)
  have hleaf := (hs.grounded.hasTy_flatten hy).isLeaf hbare hscalar
  rcases hs.grounded.tree_flatten y with heq | ⟨ty, htree⟩
  · rw [heq] at hleaf
    exact ValueTree.not_clash_leaf hleaf
  · rw [htree]
    exact ValueTree.not_clash_present hleaf

theorem Heap.Took.absent_iff {h' : Heap} (hk : h.Took x y h') (hs : h.Sound)
    (hclash : ¬ (h.tree x).Clash (h.tree y)) : h'.isAbsent x ↔ h.isAbsent y := by
  rw [hk.absent, and_iff_left_iff_imp]
  intro habsent
  by_contra hbare
  obtain ⟨ty, htree⟩ := hs.grounded.isAbsent_iff.1 habsent
  rw [htree] at hclash
  exact hclash (.bare (hs.grounded.isSlot_iff.not.1 hbare))

/-- An array is stored into another of its element type, of any length, with which
    it has nothing in common; any slots may be empty. Where neither a compound
    stands in the place of an empty slot nor an empty slot in the place of an array,
    as it is with numbers and pointers, the target is empty in the places where the
    source is, and reads the same in the others. Otherwise the compound stays, and
    the slot gets a pointer into the source. -/
theorem assign_array_elements {dst src : Ref} {b c : BlockRef}
    (hnames : ∀ name, ((p.allFields name).map Field.name).Nodup) (hs : h.Sound)
    (hdst : h.cell dst = .array element b) (hsrc : h.cell src = .array element c)
    (htargets : ∀ x ∈ h.block b, (h.tree x).HasTy p element)
    (hsources : ∀ y ∈ h.block c, (h.tree y).HasTy p element) (hapart : h.Apart dst src) :
    ∃ h', assign dst src h = .ok () h' ∧ h'.cell dst = .array element b ∧ h'.block b = h.block b ∧
      h'.tree src = h.tree src ∧
      ∀ (i : Nat) (x y : Ref), (h.block b)[i]? = some x → (h.block c)[i]? = some y →
        (h'.isAbsent x ↔ h.isAbsent y ∧ h.isSlot x) ∧
        (element.IsScalar ∨ ¬ (h.tree x).Clash (h.tree y) →
          (h'.isAbsent x ↔ h.isAbsent y) ∧ (h'.tree x).reading = (h.tree y).reading) ∧
        (¬ h.isSlot x → h.isAbsent y → h'.tree x = h.tree x) ∧
        (h.isAbsent x → ∀ inner d, h.cell (h.flatten y) = .array inner d →
          ∃ declared, h'.tree x = .slot declared (some (.pointer ⟨inner, d, 0⟩))) := by
  have hb : h.Beside dst src :=
    { target_lt := Heap.lt_of_cell_ne (by rw [hdst]; exact nofun)
      source_lt := Heap.lt_of_cell_ne (by rw [hsrc]; exact nofun)
      apart := hapart }
  obtain ⟨k, hk⟩ : ∃ k, 2 * h.levels = k + 1 := ⟨2 * h.levels - 1, by unfold Heap.levels; omega⟩
  have hstores := ends_assignWithin_took hnames h.cells.size k (by unfold Heap.levels at hk; omega)
  have hstore := ends_array_took hstores hs (hs.shallow dst) hb hdst hsrc
    (fun x hx => htargets x (Array.mem_toList_iff.1 hx))
    fun y hy => hsources y (Array.mem_toList_iff.1 hy)
  obtain ⟨_, h', hok, htook⟩ := hstore.exists_ok
  have hintact : h.Intact src h' :=
    htook.assigned.intact hs hb.source_lt fun y hy hy' => hapart y hy' hy
  refine ⟨h', ?_, htook.cell.trans hdst, ?_, ?_, fun i x y hx hy => ?_⟩
  · unfold assign
    rw [read_bind, hk]
    exact hok
  · exact htook.assigned.edits.block b (hs.storage_lt dst element b hdst)
  · exact hintact.tree_eq hs.grounded htook.assigned.sound.grounded
  have hpair := htook.took (x, y) (ValueTree.mem_zip_iff.2 ⟨i, by simpa using hx, by simpa using hy⟩)
  refine ⟨hpair.absent, fun hcarried => ?_, hpair.stuck, hpair.decayed⟩
  have hclash : ¬ (h.tree x).Clash (h.tree y) := by
    rcases hcarried with hscalar | hclash
    · have hx := Array.mem_of_getElem? hx
      exact hs.not_clash (hs.isSlot_of_scalar hx (htargets x hx) hscalar)
        (hsources y (Array.mem_of_getElem? hy)) hscalar
    · exact hclash
  exact ⟨hpair.absent_iff hs hclash, hpair.reading hclash⟩

def pair : Heap :=
  leaves (createValue {} (.array .int (some 2))) {}

/-- An array of two numbers, of which the second has been given up. -/
def gapped : Heap :=
  pair.setCell ⟨3⟩ (.slot .int none)

/-- An array of three numbers has been made beside it. -/
def longer : Heap :=
  leaves (createValue {} (.array .int (some 3))) gapped

theorem gap_carried : longer.isAbsent ⟨3⟩ ∧ ¬ longer.isAbsent ⟨9⟩ ∧
    ∃ h', assign ⟨11⟩ ⟨4⟩ longer = .ok () h' ∧ h'.isAbsent ⟨9⟩ ∧ ¬ h'.isAbsent ⟨8⟩ ∧
      (h'.tree ⟨8⟩).reading = .primitive (.int 0) := by
  have hpair : createValue {} (.array .int (some 2)) {} = .ok ⟨4⟩ pair := rfl
  have hsound := ((makes_createValue {} _ .empty).of_ok hpair).sound
  have hslot : (pair.cell ⟨3⟩).Alike (.slot .int none) :=
    show Cell.Alike (.slot .int (some ⟨1⟩)) _ from .slot ..
  have hgapped : gapped.Sound := (Heap.Assigned.setCell hsound (.refl _) hslot trivial).sound
  have hlonger : createValue {} (.array .int (some 3)) gapped = .ok ⟨11⟩ longer := rfl
  have hs := ((makes_createValue {} _ hgapped).of_ok hlonger).sound
  have hminted := (Ends.of_ok (ends_createValue {} _ hgapped.grounded) hlonger).1
  have hdeclared : Program.WellDeclared {} :=
    .of_rank (fun _ => 0) (by decide) (by decide) (by decide) (by decide)
  have hnumber : (ValueTree.slot .int (some (.primitive (.int 0)))).HasTy {} .int :=
    .present rfl (.primitive rfl (by decide))
  have htargets : ∀ x ∈ longer.block ⟨1⟩, (longer.tree x).HasTy {} .int := by
    have hblock : longer.block ⟨1⟩ = #[⟨8⟩, ⟨9⟩, ⟨10⟩] := rfl
    intro x hx
    simp only [hblock, List.mem_toArray, List.mem_cons, List.not_mem_nil, or_false] at hx
    rcases hx with rfl | rfl | rfl <;> exact hnumber
  have hsources : ∀ y ∈ longer.block ⟨0⟩, (longer.tree y).HasTy {} .int := by
    have hblock : longer.block ⟨0⟩ = #[⟨2⟩, ⟨3⟩] := rfl
    intro y hy
    simp only [hblock, List.mem_toArray, List.mem_cons, List.not_mem_nil, or_false] at hy
    rcases hy with rfl | rfl
    · exact hnumber
    · exact .absent rfl
  have hdst : longer.cell ⟨11⟩ = .array .int ⟨1⟩ := rfl
  have hsrc : longer.cell ⟨4⟩ = .array .int ⟨0⟩ := rfl
  have hint : Ty.IsScalar .int := Ty.isScalar_iff.2 (.inl ⟨.int, false, rfl, by decide⟩)
  obtain ⟨h', hok, -, -, -, hslots⟩ :=
    assign_array_elements hdeclared.distinct hs hdst hsrc htargets hsources
      (hminted.apart hgapped.grounded (by decide)).symm
  have hfirst := (hslots 0 ⟨8⟩ ⟨2⟩ rfl rfl).2.1 (.inl hint)
  have hsecond := (hslots 1 ⟨9⟩ ⟨3⟩ rfl rfl).2.1 (.inl hint)
  refine ⟨by decide, by decide, h', hok, hsecond.1.2 (by decide), fun habsent => ?_, hfirst.2⟩
  exact absurd (hfirst.1.1 habsent) (by decide)

/-! ### Elements that are not carried over -/

def coin : Compound where
  name := "Coin"
  form := .struct
  fields := [⟨"value", .int⟩]

def purse : Program where
  compounds := ⟨[("Coin", coin)], by decide⟩

def coins : Ty :=
  .array (.compound .struct "Coin") (some 1)

/-- Two arrays of one coin, the second of which has been given up. -/
def spent : Heap :=
  leaves (do
    let _ ← createValue purse coins
    let _ ← createValue purse coins
    release ⟨.compound .struct "Coin", ⟨1⟩, 0⟩) {}

def row : Ty :=
  .array .int (some 1)

/-- Two arrays of one row, the first of which has been given up. -/
def cleared : Heap :=
  leaves (do
    let _ ← createValue {} (.array row (some 1))
    let _ ← createValue {} (.array row (some 1))
    release ⟨row, ⟨1⟩, 0⟩) {}

/-- The coin that is stored into stays although the other is gone, and the slot of
    the row that is gone gets a pointer to the other row. -/
theorem emptiness_not_carried :
    (spent.cell ⟨2⟩ = .array (.compound .struct "Coin") ⟨0⟩ ∧ spent.block ⟨0⟩ = #[⟨1⟩] ∧
      spent.cell ⟨5⟩ = .array (.compound .struct "Coin") ⟨1⟩ ∧ spent.block ⟨1⟩ = #[⟨6⟩] ∧
      spent.isAbsent ⟨6⟩ ∧
      ∃ h', assign ⟨2⟩ ⟨5⟩ spent = .ok () h' ∧ h'.block ⟨0⟩ = #[⟨1⟩] ∧ ¬ h'.isAbsent ⟨1⟩) ∧
    (cleared.cell ⟨4⟩ = .array row ⟨1⟩ ∧ cleared.block ⟨1⟩ = #[⟨3⟩] ∧
      cleared.cell ⟨9⟩ = .array row ⟨3⟩ ∧ cleared.block ⟨3⟩ = #[⟨8⟩] ∧
      (cleared.tree ⟨8⟩).reading = .array .int [.primitive (.int 0)] ∧
      ∃ h', assign ⟨4⟩ ⟨9⟩ cleared = .ok () h' ∧ h'.block ⟨1⟩ = #[⟨3⟩] ∧
        (h'.tree ⟨3⟩).reading = .pointer ⟨.int, ⟨2⟩, 0⟩) := by
  refine ⟨⟨by decide +kernel, by decide +kernel, by decide +kernel, by decide +kernel, by decide +kernel,
      leaves (assign ⟨2⟩ ⟨5⟩) spent, eq_ok_of_outcome (by decide +kernel), by decide +kernel,
      by decide +kernel⟩,
    ⟨by decide +kernel, by decide +kernel, by decide +kernel, by decide +kernel, ?_,
      leaves (assign ⟨4⟩ ⟨9⟩) cleared, eq_ok_of_outcome (by decide +kernel), by decide +kernel, ?_⟩⟩
  · have hlevels : cleared.levels = 11 := by decide +kernel
    have hslot : cleared.cell ⟨8⟩ = .slot row (some ⟨7⟩) := by decide +kernel
    have hrow : cleared.cell ⟨7⟩ = .array .int ⟨2⟩ := by decide +kernel
    have hplace : cleared.block ⟨2⟩ = #[⟨6⟩] := by decide +kernel
    have helement : cleared.cell ⟨6⟩ = .slot .int (some ⟨5⟩) := by decide +kernel
    have hnumber : cleared.cell ⟨5⟩ = .primitive (.int 0) := by decide +kernel
    simp only [Heap.tree, hlevels, Heap.treeWithin, Heap.treeOf, hslot, hrow, hplace, helement, hnumber,
      Option.map_some, List.map_cons, List.map_nil, ValueTree.reading, ValueTree.readings]
  · have hlevels : (leaves (assign ⟨4⟩ ⟨9⟩) cleared).levels = 12 := by decide +kernel
    have hslot : (leaves (assign ⟨4⟩ ⟨9⟩) cleared).cell ⟨3⟩ = .slot row (some ⟨10⟩) := by decide +kernel
    have hpointer : (leaves (assign ⟨4⟩ ⟨9⟩) cleared).cell ⟨10⟩ = .pointer ⟨.int, ⟨2⟩, 0⟩ := by
      decide +kernel
    simp only [Heap.tree, hlevels, Heap.treeWithin, Heap.treeOf, hslot, hpointer, Option.map_some,
      ValueTree.reading]

end Treewalk
