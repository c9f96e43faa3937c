/-
  The compatibility check is sound for initialisation.

  * `Program.Assignable p ty ty'`: a value of the second type can be stored into
    one of the first. What the check accepts is assignable, but for an integer
    where a pointer is declared (`Assignable.of_accepts`);
  * `Heap.Ready p N h t s`: `t` is new, without gaps, and can take `s`, which was
    there before. Storing what is ready never fails (`ends_assignWithin`): the
    parts that are stored one after another are ready in their turn, and stay so
    while the others are stored;
  * `initialValue_of_accepts`: a declaration that the check accepts is
    initialised; only an integer other than zero is refused where a pointer is
    declared.
-/
import Treewalk.Eval.Statement
import Treewalk.Proofs.Inhabits
import Mathlib.Data.List.Zip

namespace Treewalk

open Mem

variable {p : Program} {h h₁ : Heap} {ty ty' : Ty} {t s : Ref}

/-! ## Types -/

/-- A value of the second type can be stored into one of the first. -/
inductive Program.Assignable (p : Program) : Ty → Ty → Prop
  | primitive {k k' : Kind} {u u' : Bool} : Assignable p (.primitive k u) (.primitive k' u')
  | pointer {target source : Ty} : Assignable p (.pointer target) (.pointer source)
  | decay {target source : Ty} {n : Option Nat} : Assignable p (.pointer target) (.array source n)
  | array {target source : Ty} {n m : Option Nat} : Assignable p target source →
      Assignable p (.array target n) (.array source m)
  | arrayOfVoid {target source : Ty} {n m : Option Nat} : source.isVoid →
      Assignable p (.array target n) (.array source m)
  | compound {form form' : Form} {name name' : String} :
      p.allFields name <+: p.allFields name' →
      Assignable p (.compound form name) (.compound form' name')
  | constTarget {target source : Ty} : Assignable p target source →
      Assignable p (.const target) source
  | constSource {target source : Ty} : Assignable p target source →
      Assignable p target (.const source)

namespace Program.Assignable

theorem refl (p : Program) (ty : Ty) : p.Assignable ty ty := by
  induction ty with
  | primitive => exact .primitive
  | pointer => exact .pointer
  | array _ _ ih => exact .array ih
  | compound => exact .compound List.prefix_rfl
  | const _ ih => exact .constTarget (.constSource ih)

theorem of_unqualified_source (ha : p.Assignable ty ty'.unqualified) : p.Assignable ty ty' := by
  induction ty' with
  | const _ ih => exact .constSource (ih ha)
  | _ => exact ha

theorem of_unqualified (ha : p.Assignable ty.unqualified ty'.unqualified) : p.Assignable ty ty' := by
  induction ty with
  | const _ ih => exact .constTarget (ih ha)
  | _ => exact ha.of_unqualified_source

theorem of_target {P : Prop} (h : (ty'.isVoid ∨ ty'.unqualified = ty) ∨ P)
    (hP : P → p.Assignable ty ty'.unqualified) : ty'.isVoid ∨ p.Assignable ty ty' := by
  rcases h with (h | h) | h
  · exact .inl h
  · exact .inr (of_unqualified_source (h ▸ refl p _))
  · exact .inr (of_unqualified_source (hP h))

/-- Where a storable type is pointed at, what the check accepts is assignable,
    unless it is `void`. -/
theorem of_acceptsTarget (hp : p.WellDeclared) (hty : p.Storable ty)
    (h : p.acceptsTarget ty ty') : ty'.isVoid ∨ p.Assignable ty ty' := by
  induction ty generalizing ty' with
  | const inner ih => exact (ih hty h).imp_right .constTarget
  | primitive k u =>
    simp only [acceptsTarget, Bool.or_eq_true, beq_iff_eq] at h
    have hk : ¬ k.isVoid := fun hk => hty (eq_of_beq hk)
    refine of_target (h.imp_left (Or.imp_left (Or.resolve_left · hk))) fun h => ?_
    split at h
    · rename_i hk'
      exact hk' ▸ .primitive
    · cases h
  | pointer target =>
    simp only [acceptsTarget, Bool.or_eq_true, beq_iff_eq] at h
    refine of_target h fun h => ?_
    split at h
    · rename_i hsource
      exact hsource ▸ .pointer
    · cases h
  | array target n ih =>
    simp only [acceptsTarget, Bool.or_eq_true, beq_iff_eq] at h
    refine of_target h fun h => ?_
    split at h
    · rename_i hsource
      rw [hsource]
      exact (ih hty.element h).elim .arrayOfVoid .array
    · cases h
  | compound form name =>
    simp only [acceptsTarget, Bool.or_eq_true, beq_iff_eq] at h
    refine of_target h fun hsub => ?_
    clear h
    split at hsub
    · rename_i hsource
      exact hsource ▸ .compound (hp.isPrefix_allFields hsub)
    · cases hsub

/-- What the check accepts is assignable, unless an array would have to be
    filled from a pointer, or a pointer to be made of a number. -/
theorem of_accepts (hp : p.WellDeclared) (hty : p.Storable ty) (h : p.accepts ty ty')
    (harray : ¬ (ty.isArray ∧ ty'.isPointer)) (hnumber : ¬ (ty.isPointer ∧ ty'.primitive?.isSome)) :
    p.Assignable ty ty' := by
  have hstorable := hty.unqualified
  refine of_unqualified ?_
  unfold accepts at h
  split at h
  case h_1 ht hs => exact ht ▸ hs ▸ .primitive
  case h_2 ht hs => exact ht ▸ hs ▸ .pointer
  case h_3 ht hs => exact ht ▸ hs ▸ .decay
  case h_4 ht hs =>
    rw [ht] at hstorable
    rw [ht, hs]
    exact (of_acceptsTarget hp hstorable.element h).elim .arrayOfVoid .array
  case h_5 ht hs => exact absurd ⟨by simp [Ty.isArray, ht], by simp [Ty.isPointer, hs]⟩ harray
  case h_6 ht hs => exact absurd ⟨by simp [Ty.isPointer, ht], by simp [Ty.primitive?, hs]⟩ hnumber
  case h_7 ht hs =>
    rw [ht, hs, eq_of_beq h]
    exact refl p _
  case h_8 ht hs => exact ht ▸ hs ▸ .compound (hp.isPrefix_allFields h)
  case h_9 => cases h

end Program.Assignable

/-! ## Parts -/

theorem exists_mapM_some {α β : Type} {f : α → Option β} {Q : β → Prop} {l : List α}
    (h : ∀ a ∈ l, ∃ b, f a = some b ∧ Q b) : ∃ bs, l.mapM f = some bs ∧ ∀ b ∈ bs, Q b := by
  induction l with
  | nil => exact ⟨[], rfl, nofun⟩
  | cons a l ih =>
    obtain ⟨b, hb, hQ⟩ := h a (by simp)
    obtain ⟨bs, hbs, hQs⟩ := ih fun a' ha' => h a' (by simp [ha'])
    exact ⟨b :: bs, by simp [hb, hbs], by simpa using ⟨hQ, hQs⟩⟩

theorem exists_mem_zip {α β : Type} {R : α → β → Prop} {l : List α} {l' : List β}
    (h : List.Forall₂ R l l') {a : α} (ha : a ∈ l) : ∃ b, (a, b) ∈ l.zip l' := by
  induction h with
  | nil => cases ha
  | cons _ _ ih =>
    rcases List.mem_cons.1 ha with rfl | ha
    · exact ⟨_, List.mem_cons_self⟩
    · obtain ⟨b, hb⟩ := ih ha
      exact ⟨b, List.mem_cons_of_mem _ hb⟩

/-- The two are parts of the target and of the source, and the one can take the
    other. -/
structure Heap.Pair (p : Program) (h : Heap) (t s x y : Ref) : Prop where
  target : x ∈ h.parts t
  source : y ∈ h.parts s
  fits : ∃ ty ty', h.Inhabits p False x ty ∧ h.Inhabits p True y ty' ∧
    (¬ h.isAbsent y → p.Assignable ty ty')

/-- The fields of a compound find theirs in a compound that starts with the same
    fields. -/
theorem exists_fieldPairs {name name' : String} {tyT tyS : Ty} {fs gs : List (String × Ref)}
    (hp : p.WellDeclared) (hstart : p.allFields name <+: p.allFields name')
    (ht : h.cell t = .compound tyT fs) (hs : h.cell s = .compound tyS gs)
    (hfs : List.Forall₂ (fun f d => f.1 = d.name) fs (p.allFields name))
    (hgs : List.Forall₂ (fun g d => g.1 = d.name) gs (p.allFields name'))
    (hfs' : ∀ e ∈ fs.zip (p.allFields name), h.Inhabits p False e.1.2 e.2.ty)
    (hgs' : ∀ e ∈ gs.zip (p.allFields name'), h.Inhabits p True e.1.2 e.2.ty) :
    ∃ pairs, fieldPairs? fs gs = some pairs ∧ ∀ q ∈ pairs, h.Pair p t s q.1 q.2 := by
  have hnodup : (gs.map Prod.fst).Nodup := by
    have hnames : gs.map Prod.fst = (p.allFields name').map Field.name := by
      rw [← List.forall₂_eq_eq_eq, List.forall₂_map_left_iff, List.forall₂_map_right_iff]
      exact hgs
    rw [hnames]
    exact hp.distinct name'
  refine exists_mapM_some fun f hf => ?_
  obtain ⟨d, hfd⟩ := exists_mem_zip hfs hf
  have hd : d ∈ p.allFields name' := hstart.subset (List.of_mem_zip hfd).2
  obtain ⟨g, hdg⟩ := exists_mem_zip hgs.flip hd
  have hgd : (g, d) ∈ gs.zip (p.allFields name') := by
    rw [← List.zip_swap]
    exact List.mem_map_of_mem hdg
  have hg := (List.of_mem_zip hgd).1
  have hname : g.1 = f.1 :=
    ((List.forall₂_iff_zip.1 hgs).2 hgd).trans ((List.forall₂_iff_zip.1 hfs).2 hfd).symm
  have hfind : Dict.find? f.1 gs = some g.2 := Dict.find?_of_mem hnodup (hname ▸ hg)
  refine ⟨(f.2, g.2), by rw [hfind]; rfl, ?_, ?_, d.ty, d.ty, hfs' _ hfd, hgs' _ hgd, fun _ => .refl p _⟩
  · rw [Heap.parts_of_cell ht]
    exact List.mem_map_of_mem hf
  · rw [Heap.parts_of_cell hs]
    exact List.mem_map_of_mem hg

/-- The elements of an array take those of another in the same place. -/
theorem exists_arrayUpdate {tyT tyS : Ty} {b c : BlockRef} (ht : h.cell t = .array tyT b)
    (hs : h.cell s = .array tyS c) (hb : ∀ x ∈ h.block b, h.Inhabits p False x tyT)
    (hc : ∀ y ∈ h.block c, h.Inhabits p True y tyS)
    (ha : ∀ y ∈ h.block c, ¬ h.isAbsent y → p.Assignable tyT tyS) :
    ∃ u, h.update (h.cell t) (h.cell s) = .ok u ∧
      ∀ pairs, u = .pairs pairs → ∀ q ∈ pairs, h.Pair p t s q.1 q.2 := by
  have hupdate : h.update (h.cell t) (h.cell s) =
      if b = c then .ok .nothing else .ok (.pairs ((h.block b).toList.zip (h.block c).toList)) := by
    rw [ht, hs]
    rfl
  rw [hupdate]
  split
  · exact ⟨_, rfl, nofun⟩
  · refine ⟨_, rfl, ?_⟩
    rintro _ ⟨⟩ ⟨x, y⟩ hxy
    obtain ⟨hx, hy⟩ := List.of_mem_zip hxy
    refine ⟨by rwa [Heap.parts_of_cell ht], by rwa [Heap.parts_of_cell hs], tyT, tyS, ?_⟩
    rw [Array.mem_toList_iff] at hx hy
    exact ⟨hb x hx, hc y hy, ha y hy⟩

/-- What is assignable is stored at once, or part by part. -/
theorem exists_update (hp : p.WellDeclared) (hs : h.Sound) (ha : p.Assignable ty ty')
    (htarget : h.Inhabits p False t ty) (hsource : h.Inhabits p True s ty') (ht : ¬ h.isSlot t)
    (hs' : ¬ h.isSlot s) :
    ∃ u, h.update (h.cell t) (h.cell s) = .ok u ∧
      ∀ pairs, u = .pairs pairs → ∀ q ∈ pairs, h.Pair p t s q.1 q.2 := by
  induction ha with
  | primitive =>
    obtain ⟨_, hc⟩ := htarget.bare ht
    obtain ⟨_, hc'⟩ := hsource.bare hs'
    rw [hc, hc']
    exact ⟨_, rfl, nofun⟩
  | pointer | decay =>
    obtain ⟨_, hc, -⟩ := htarget.bare ht
    obtain ⟨_, hc', -⟩ := hsource.bare hs'
    rw [hc, hc']
    exact ⟨_, rfl, nofun⟩
  | array ha =>
    obtain ⟨b, hc, hb⟩ := htarget.bare ht
    obtain ⟨c, hc', hb'⟩ := hsource.bare hs'
    exact exists_arrayUpdate hc hc' hb hb' fun _ _ _ => ha
  | arrayOfVoid hvoid =>
    obtain ⟨b, hc, hb⟩ := htarget.bare ht
    obtain ⟨c, hc', hb'⟩ := hsource.bare hs'
    exact exists_arrayUpdate hc hc' hb hb' fun y hy hpresent =>
      absurd ((hb' y hy).isAbsent_of_isVoid hs hvoid) hpresent
  | compound hstart =>
    obtain ⟨fs, hc, hfs, hfs'⟩ := htarget.bare ht
    obtain ⟨gs, hc', hgs, hgs'⟩ := hsource.bare hs'
    obtain ⟨pairs, hpairs, hall⟩ := exists_fieldPairs hp hstart hc hc' hfs hgs hfs' hgs'
    refine ⟨.pairs pairs, ?_, by rintro _ ⟨⟩; exact hall⟩
    rw [hc, hc']
    simp only [Heap.update, hpairs]
  | constTarget _ ih => exact ih (htarget.bare ht) hsource
  | constSource _ ih => exact ih htarget (hsource.bare hs')

/-! ## Storing -/

/-- The target is new and without gaps, and can take the source, which was there
    when there were `N` cells. -/
structure Heap.Ready (p : Program) (N : Nat) (h : Heap) (t s : Ref) : Prop where
  fits : ∃ ty ty', h.Inhabits p False t ty ∧ h.Inhabits p True s ty' ∧
    (¬ h.isAbsent s → p.Assignable ty ty')
  le : N ≤ h.cells.size
  new : ∀ y, Reaches h.parts t y → N ≤ y.id
  old : ∀ y, Reaches h.parts s y → y.id < N

namespace Heap.Ready

variable {N : Nat} {x y : Ref}

/-- The parts are ready if the whole is. -/
theorem pair (hr : h.Ready p N t s) (hpair : h.Pair p t s x y) : h.Ready p N x y where
  fits := hpair.fits
  le := hr.le
  new := fun z hz => hr.new z (.head hpair.target hz)
  old := fun z hz => hr.old z (.head hpair.source hz)

/-- While other parts are stored, a part stays ready. -/
theorem pending {rest : List Ref} (hr : h.Ready p N x y) (hs : h.Sound)
    (hnew : ∀ z, Reaches h.parts t z → N ≤ z.id) (hp : h.Pending t (x :: rest) h₁) :
    h₁.Ready p N x y := by
  have hx : x ∈ x :: rest := List.mem_cons_self
  have hold : ∀ z, Reaches h.parts y z → ¬ Reaches h.parts t z := fun z hz hz' =>
    Nat.not_lt_of_le (hnew z hz') (hr.old z hz)
  have hy : y.id < h.cells.size := (hr.old y .refl).trans_le hr.le
  obtain ⟨ty, ty', htarget, hsource, ha⟩ := hr.fits
  refine ⟨⟨ty, ty', ?_, ?_, ?_⟩, hr.le.trans hp.edits.cells_le, fun z hz => ?_, fun z hz => ?_⟩
  · exact htarget.congr hs (hp.untouched x hx) hp.edits.block
  · exact hsource.of_edits hs hy hp.edits hold
  · unfold isAbsent at ha ⊢
    rwa [hp.edits.cell y hy (hold y .refl)]
  · exact hr.new z (.congr (fun _ hb => hp.parts_eq hs hx hb) hz)
  · refine hr.old z (.congr (fun b hb => ?_) hz)
    exact hp.edits.parts_eq hs (hs.lt_of_reaches hy hb) (hold b hb)

/-- What holds the source may stand for it. -/
theorem flatten (hr : h.Ready p N t s) (hs : h.Sound) (hpresent : ¬ h.isAbsent s) :
    h.Ready p N t (h.flatten s) ∧ ¬ h.isSlot (h.flatten s) ∧ ¬ h.isAbsent (h.flatten s) := by
  have hreach : Reaches h.parts s (h.flatten s) := by
    unfold Heap.flatten
    split
    · rename_i hc
      refine .single ?_
      rw [parts_of_cell hc]
      exact List.mem_singleton_self _
    · exact .refl
  have hslot := hs.not_isSlot_flatten hpresent
  obtain ⟨ty, ty', htarget, hsource, ha⟩ := hr.fits
  refine ⟨⟨⟨ty, ty', htarget, hsource.flatten hpresent, fun _ => ha hpresent⟩, hr.le, hr.new, ?_⟩,
    hslot, fun habsent => ?_⟩
  · exact fun y hy => hr.old y (hreach.trans hy)
  · unfold isAbsent at habsent
    split at habsent
    · rename_i hc
      rw [hc] at hslot
      exact hslot trivial
    · cases habsent

/-- What a slot holds takes what the slot does. -/
theorem content {declared : Ty} (hr : h.Ready p N t s) (hc : h.cell t = .slot declared (some x)) :
    h.Ready p N x s := by
  obtain ⟨ty, ty', htarget, hsource, ha⟩ := hr.fits
  have hx : h.Inhabits p False x ty := by
    have hflat : h.flatten t = x := by simp only [Heap.flatten, hc]
    exact hflat ▸ htarget.flatten htarget.not_isAbsent
  have hpart : x ∈ h.parts t := by
    rw [parts_of_cell hc]
    exact List.mem_singleton_self x
  exact ⟨⟨ty, ty', hx, hsource, ha⟩, hr.le, fun y hy => hr.new y (.head hpart hy), hr.old⟩

end Heap.Ready

/-- The computation does not fail. -/
def Mem.Succeeds {α : Type} (x : Mem α) (h : Heap) : Prop :=
  Ends x h (fun _ _ => True) fun _ _ => False

/-- If what is ready is stored, the parts of a value are stored one after
    another. -/
theorem succeeds_forM {N : Nat} {l : List (Ref × Ref)} {fuel : Nat} (hs : h.Sound)
    (ht : ¬ h.isSlot t) (hnew : ∀ y, Reaches h.parts t y → N ≤ y.id)
    (hstore : ∀ {h : Heap} {t s : Ref}, h.Sound → h.Ready p N t s → ¬ h.isAbsent s →
      Succeeds (assignWithin fuel t s) h)
    (hready : ∀ q ∈ l, h.Ready p N q.1 q.2) (hp : h.Pending t (l.map Prod.fst) h₁) :
    Succeeds (l.forM fun (t, s) => do
      if ← read (·.isAbsent s) then setContent t none else assignWithin fuel t s) h₁ := by
  induction l generalizing h₁ with
  | nil => trivial
  | cons q l ih =>
    obtain ⟨x, y⟩ := q
    have hxy : h₁.Ready p N x y := (hready (x, y) (by simp)).pending hs hnew hp
    have hrest : ∀ h₂ : Heap, h₁.Assigned x h₂ → Succeeds (l.forM fun (t, s) => do
        if ← read (·.isAbsent s) then setContent t none else assignWithin fuel t s) h₂ :=
      fun h₂ ha => ih (fun q hq => hready q (by simp [hq])) (hp.step hs ht ha)
    refine ends_bind.2 (ends_bind.2 (ends_read.2 ?_))
    split
    · exact ends_change.2 (hrest _ (ends_change.1 (assigns_empty hp.sound x)))
    · rename_i hpresent
      exact ((assigns_assignWithin fuel x y hp.sound).and (hstore hp.sound hxy hpresent)).mono
        (fun _ h₂ ha => hrest h₂ ha.1) fun _ _ hE => hE.2

/-- Storing what is ready never fails. -/
theorem succeeds_assignWithin (hp : p.WellDeclared) {N : Nat} (fuel : Nat) (hs : h.Sound)
    (hr : h.Ready p N t s) (hpresent : ¬ h.isAbsent s) : Succeeds (assignWithin fuel t s) h := by
  induction fuel generalizing h t s with
  | zero => trivial
  | succ fuel ih =>
    obtain ⟨hr, hslot, hpresent⟩ := hr.flatten hs hpresent
    refine ends_bind.2 (ends_read.2 ?_)
    dsimp only
    split
    · trivial
    refine ends_bind.2 (ends_read.2 ?_)
    split
    · rename_i hc
      exact ih hs (hr.content hc) hpresent
    · rename_i hc
      obtain ⟨ty, ty', htarget, -⟩ := hr.fits
      exact absurd (by simp [Heap.isAbsent, hc]) htarget.not_isAbsent
    · rename_i hpresentT hemptyT
      have ht : ¬ h.isSlot t := Cell.not_isSlot_of fun ty content hc => by
        cases content with
        | none => exact hemptyT ty hc
        | some x => exact hpresentT ty x hc
      obtain ⟨ty, ty', htarget, hsource, ha⟩ := hr.fits
      obtain ⟨u, hu, hpairs⟩ := exists_update hp hs (ha hpresent) htarget hsource ht hslot
      refine ends_bind.2 (ends_read.2 (ends_bind.2 (ends_answer.2 ?_)))
      rw [hu]
      cases u with
      | pairs pairs =>
        refine succeeds_forM hs ht hr.new (fun hs hr hpresent => ih hs hr hpresent) ?_ ?_
        · exact fun q hq => hr.pair (hpairs pairs rfl q hq)
        · exact .start hs (Heap.prefix_of_update hu).1
      | _ => trivial

theorem Heap.primitive?_eq_some {n : Primitive} :
    h.primitive? s = some n ↔ h.cell (h.flatten s) = .primitive n := by
  unfold Heap.primitive?
  split <;> simp_all

theorem Heap.Inhabits.exists_primitive {gaps : Prop} (hi : h.Inhabits p gaps s ty) (hs : h.Sound)
    (hpresent : ¬ h.isAbsent s) (hty : ty.primitive?.isSome) : ∃ n, h.primitive? s = some n := by
  have hslot := hs.not_isSlot_flatten hpresent
  have hbare := ((hi.flatten hpresent).unqualified hslot).bare hslot
  unfold Ty.primitive? at hty
  split at hty
  · rename_i hty'
    rw [hty'] at hbare
    obtain ⟨n, hn⟩ := hbare
    exact ⟨n, Heap.primitive?_eq_some.2 hn⟩
  · cases hty

/-- A number stored into a pointer: zero makes it null, all others are refused. -/
theorem ends_assign_number {q : Pointer} {n : Primitive} (ht : h.cell t = .pointer q)
    (hn : h.primitive? s = some n) :
    Ends (assign t s) h (fun _ _ => n.isNullConstant)
      fun c _ => ¬ n.isNullConstant ∧ c = .of (.invalidCast n.ty (.pointer q.target)) := by
  have hs := Heap.primitive?_eq_some.1 hn
  have hne : t ≠ h.flatten s := by
    intro he
    rw [he, hs] at ht
    cases ht
  have hupdate : h.update (.pointer q) (.primitive n) =
      if n.isNullConstant then .ok .null else .error (.invalidCast n.ty (.pointer q.target)) := rfl
  refine ends_bind.2 (ends_read.2 (ends_bind.2 (ends_read.2 ?_)))
  dsimp only
  rw [if_neg hne]
  refine ends_bind.2 (ends_read.2 ?_)
  rw [ht]
  refine ends_bind.2 (ends_read.2 (ends_bind.2 (ends_answer.2 ?_)))
  rw [hs, hupdate]
  cases hnull : n.isNullConstant with
  | true => rfl
  | false => exact ⟨by simp, rfl⟩

/-! ## Initial values -/

theorem Ty.exists_of_isPointer (h : ty.isPointer) : ∃ target, ty.unqualified = .pointer target := by
  unfold isPointer at h
  split at h
  · rename_i target ht
    exact ⟨target, ht⟩
  · cases h

/-- An integer is the null pointer exactly if it is zero. -/
theorem Primitive.isNullConstant_eq {n : Primitive} (hn : n.InRange) (hk : n.kind.isIntegral) :
    n.isNullConstant = n.isZero := by
  have hfloating : n.isFloating = false := by
    unfold InRange at hn
    unfold isFloating
    split
    · rename_i hp
      rw [hp] at hn
      cases hkind : n.kind <;> rw [hkind] at hn hk <;> simp_all [Kind.isFloating, Kind.isIntegral, Kind.isVoid]
    · rfl
  simp [isNullConstant, hfloating]

namespace Eval

variable {e : Engine} {v : Ref}

theorem initialValue_eq (hty : e.program.Storable ty) (v : Ref) :
    initialValue e ty v = do
      let r ← createValue e.program ty
      assign r v
      return r := by
  unfold initialValue
  split
  · rename_i hc
    have hstorable := hty.unqualified
    rw [hc] at hstorable
    exact hstorable.elim
  · rfl

/-- What was there is ready to be stored into what has been made since. -/
theorem ready_of_made {r : Ref} (hs : h.Sound) (hv : v.id < h.cells.size)
    (hm : h.Made (fun r => [r]) (¬ ·.IsSlot) r h₁) (hr : h₁.Inhabits p False r ty)
    (hi : h.Inhabits p True v ty') (ha : p.Assignable ty ty') : h₁.Ready p h.cells.size r v where
  fits := ⟨ty, ty', hr, hi.of_adjoins hs hv hm.adjoins, fun _ => ha⟩
  le := hm.adjoins.cells_le
  new := fun _ hy => hm.adjoins.le_of_reaches (hm.fresh.new r (by simp)) hy
  old := fun _ hy => hs.lt_of_reaches hv
    (.congr (fun _ hb => hm.adjoins.parts_eq hs (hs.lt_of_reaches hv hb)) hy)

section Initial

variable (hp : e.program.WellDeclared) (hty : e.program.Storable ty)
  (hfields : ∀ name, e.program.Contains ty name →
    ∀ f ∈ e.program.allFields name, e.program.Storable f.ty)
  (hs : h.Sound) (hv : v.id < h.cells.size)
include hp hty hfields hs hv

/-- A present value of an assignable type is stored into a new one. -/
theorem succeeds_initialValue (hpresent : ¬ h.isAbsent v) (hi : h.Inhabits e.program True v ty')
    (ha : e.program.Assignable ty ty') : Succeeds (initialValue e ty v) h := by
  unfold Succeeds
  rw [initialValue_eq hty, ends_bind]
  refine (builds_createValue hp hty hfields h hs).mono ?_ fun _ _ hE => hE
  rintro r h₁ ⟨hm, hr⟩
  have hpresent₁ : ¬ h₁.isAbsent v := by
    unfold Heap.isAbsent at hpresent ⊢
    rwa [hm.adjoins.cell v hv]
  refine ends_bind.2 (ends_bind.2 (ends_read.2 ?_))
  exact (succeeds_assignWithin hp _ hm.sound (ready_of_made hs hv hm hr hi ha) hpresent₁).mono
    (fun _ _ _ => trivial) fun _ _ hE => hE

/-- An integer is stored into a new pointer if it is zero. -/
theorem ends_initialValue_number {n : Primitive} {target : Ty} (hn : h.primitive? v = some n)
    (hpointer : ty.unqualified = .pointer target) (hk : n.kind.isIntegral) :
    Ends (initialValue e ty v) h (fun _ _ => n.isZero)
      fun c _ => ¬ n.isZero ∧ c = .of (.invalidCast n.ty (.pointer target)) := by
  have hcell := Heap.primitive?_eq_some.1 hn
  rw [← Primitive.isNullConstant_eq (hs.number _ n hcell) hk, initialValue_eq hty, ends_bind]
  refine (builds_createValue hp hty hfields h hs).mono ?_ fun _ _ hE => hE.elim
  rintro r h₁ ⟨hm, hr⟩
  have hslot : ¬ h₁.isSlot r := hm.kind r (by simp)
  obtain ⟨q, hq, rfl⟩ : ∃ q, h₁.cell r = .pointer q ∧ q.target = target := by
    have hbare := (hr.unqualified hslot).bare hslot
    rwa [hpointer] at hbare
  have hn₁ : h₁.primitive? v = some n := by
    have hflat : h₁.flatten v = h.flatten v := by
      unfold Heap.flatten
      rw [hm.adjoins.cell v hv]
    rw [Heap.primitive?_eq_some, hflat, hm.adjoins.cell _ (hs.flatten_lt hv)]
    exact hcell
  rw [ends_bind]
  exact (ends_assign_number hq hn₁).mono (fun _ _ hz => hz) fun _ _ hE => hE

end Initial

/-- Where the check accepts a present value, made the way its own type says, for
    a type that is storable through and through, the declaration is initialised;
    only a number other than zero is refused where a pointer is declared. -/
theorem initialValue_of_accepts (hp : e.program.WellDeclared) (hty : e.program.Storable ty)
    (hfields : ∀ name, e.program.Contains ty name →
      ∀ f ∈ e.program.allFields name, e.program.Storable f.ty)
    (hs : h.Sound) (hv : v.id < h.cells.size) (hpresent : ¬ h.isAbsent v)
    (hi : h.Inhabits e.program True v (h.tyOf v)) (harray : ¬ (ty.isArray ∧ (h.tyOf v).isPointer))
    (haccepts : e.program.accepts ty (h.tyOf v)) :
    (¬ (ty.isPointer ∧ ∃ n, h.primitive? v = some n ∧ ¬ n.isZero) →
      ∃ r h', initialValue e ty v h = .ok r h') ∧
    (ty.isPointer → ∀ n, h.primitive? v = some n → ¬ n.isZero →
      ∃ h', initialValue e ty v h = .error (.of (.invalidCast n.ty ty.unqualified)) h') := by
  have hends : ty.isPointer → ∀ n, h.primitive? v = some n →
      Ends (initialValue e ty v) h (fun _ _ => n.isZero)
        fun c _ => ¬ n.isZero ∧ c = .of (.invalidCast n.ty ty.unqualified) := by
    intro hpointer n hn
    obtain ⟨target, htarget⟩ := Ty.exists_of_isPointer hpointer
    have hcell := Heap.primitive?_eq_some.1 hn
    have hk : n.kind.isIntegral := by
      rw [Heap.tyOf, hcell] at haccepts
      simpa [Program.accepts, htarget, Heap.cellTy, Primitive.ty, Ty.unqualified] using haccepts
    rw [htarget]
    exact ends_initialValue_number hp hty hfields hs hv hn htarget hk
  constructor
  · intro hexcluded
    by_cases hnumber : ty.isPointer ∧ (h.tyOf v).primitive?.isSome
    · obtain ⟨n, hn⟩ := hi.exists_primitive hs hpresent hnumber.2
      have hzero : n.isZero := by
        by_contra hz
        exact hexcluded ⟨hnumber.1, n, hn, hz⟩
      obtain ⟨r, h', hr, -⟩ :=
        ((hends hnumber.1 n hn).mono (fun _ _ h => h) fun _ _ hE => hE.1 hzero).exists_ok
      exact ⟨r, h', hr⟩
    · have ha := Program.Assignable.of_accepts hp hty haccepts harray hnumber
      obtain ⟨r, h', hr, -⟩ :=
        (succeeds_initialValue hp hty hfields hs hv hpresent hi ha).exists_ok
      exact ⟨r, h', hr⟩
  · intro hpointer n hn hz
    cases hx : initialValue e ty v h with
    | ok r h' => exact absurd ((hends hpointer n hn).of_ok hx) hz
    | error c h' => exact ⟨h', by rw [((hends hpointer n hn).of_error hx).2]⟩

/-! ### A point for a pixel -/

namespace Drawing

def point : Compound where
  name := "Point"
  form := .class_
  fields := [⟨"at", .array .int (some 2)⟩]

def shade : Compound where
  name := "Shade"
  form := .struct
  fields := [⟨"level", .char⟩]

/-- A point with a shade. -/
def pixel : Compound where
  name := "Pixel"
  form := .class_
  parent := some "Point"
  fields := [⟨"shade", .compound .struct "Shade"⟩]

def engine : Engine where
  program := { compounds := ⟨[("Point", point), ("Shade", shade), ("Pixel", pixel)], by decide⟩ }

def points : Ty :=
  .array (.compound .class_ "Point") (some 2)

def pixels : Ty :=
  .array (.compound .class_ "Pixel") (some 1)

/-- The heap once an array of one pixel has been made. -/
def drawn : Heap :=
  leaves (createValue engine.program pixels) {}

/-- A heap with the number five in it. -/
def five : Heap :=
  (Heap.alloc {} (.primitive (.int 5))).2

theorem wellDeclared : engine.program.WellDeclared :=
  .of_rank (fun name => if name = "Pixel" then 1 else 0) (by decide) (by decide) (by decide)
    (by decide)

theorem points_of_pixels :
    createValue engine.program pixels {} = .ok ⟨8⟩ drawn ∧
    (∃ r h', initialValue engine points ⟨8⟩ drawn = .ok r h') ∧
    ∃ h', initialValue engine (.pointer points) ⟨0⟩ five =
      .error (.of (.invalidCast .int (.pointer points))) h' := by
  have hfields : ∀ name, ∀ f ∈ engine.program.allFields name, engine.program.Storable f.ty :=
    Program.storable_of_entries (by decide)
  have hpixels : engine.program.Storable pixels := by decide
  have hdrawn : createValue engine.program pixels {} = .ok ⟨8⟩ drawn := rfl
  obtain ⟨hm, hi⟩ :=
    (builds_createValue wellDeclared hpixels (fun name _ => hfields name) {} .empty).of_ok hdrawn
  have hnumber : (Primitive.int 5).InRange := Primitive.inRange_of ..
  have hsimple : (Cell.primitive (.int 5)).Simple := hnumber
  have hfive : five.Sound := Heap.Sound.empty.alloc (hsimple.admits {})
  refine ⟨hdrawn, ?_, ?_⟩
  · refine (initialValue_of_accepts wellDeclared (by decide) (fun name _ => hfields name) hm.sound
      (by decide) (by decide) (hi.mono False.elim) (by decide) (by decide)).1 ?_
    rintro ⟨hpointer, -⟩
    cases hpointer
  · exact (initialValue_of_accepts wellDeclared (by decide) (fun name _ => hfields name) hfive
      (by decide) (by decide) (.primitive rfl (by decide)) (by decide) (by decide)).2 rfl (.int 5) rfl
        (by decide)

/-! ### A field that has no value -/

def ghost : Compound where
  name := "Ghost"
  form := .class_
  fields := [⟨"shape", .void⟩]

def haunted : Engine where
  program := { compounds := ⟨[("Ghost", ghost)], by decide⟩ }

def ghosts (n : Nat) : Ty :=
  .array (.compound .class_ "Ghost") (some n)

/-- The heap once an array of no ghosts has been made. -/
def deserted : Heap :=
  leaves (createValue haunted.program (ghosts 0)) {}

/-- The type of a field counts, even if no value of it is stored: there is an
    array of no ghosts, the check accepts it for an array of two, and there is no
    array of two. -/
theorem ghosts_not_made :
    haunted.program.WellDeclared ∧ haunted.program.Storable (ghosts 2) ∧ deserted.Sound ∧
    createValue haunted.program (ghosts 0) {} = .ok ⟨0⟩ deserted ∧
    ¬ deserted.isAbsent ⟨0⟩ ∧ deserted.tyOf ⟨0⟩ = ghosts 0 ∧
    deserted.Inhabits haunted.program True ⟨0⟩ (ghosts 0) ∧
    haunted.program.accepts (ghosts 2) (ghosts 0) ∧
    initialValue haunted (ghosts 2) ⟨0⟩ deserted = .error (.of (.malformed (.noValueOf .void))) deserted := by
  have hdeserted : createValue haunted.program (ghosts 0) {} = .ok ⟨0⟩ deserted := rfl
  have hm := (makes_createValue haunted.program (ghosts 0) .empty).of_ok hdeserted
  refine ⟨.of_rank (fun _ => 0) (by decide) (by decide) (by decide) (by decide), by decide, hm.sound,
    hdeserted, by decide, rfl, ?_, by decide, rfl⟩
  have hempty : deserted.block ⟨0⟩ = #[] := rfl
  exact .array (b := ⟨0⟩) rfl (by decide) (by simp [hempty])

end Drawing

end Eval

end Treewalk
