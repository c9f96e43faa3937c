/-
  Compounds that contain themselves.

  Sizes are added up, and new values made, compound by compound and no deeper than a
  number of levels. What goes deeper is given up, and has no result.

  * `sizeOfTy_isSome_iff`: a type has a size just if it is founded, that is, if no
    compound in it contains itself;
  * `sizeOfTy_of_levels`, `zeroValue?_of_levels`: what comes to an end within any number
    of levels comes to the same end within those of the program. So nothing is given up
    that a deeper search would find.
-/
import Treewalk.Proofs.Declared
import Treewalk.Proofs.Outcome
import Treewalk.Proofs.Fresh
import Mathlib.Algebra.GroupWithZero.Nat

namespace Treewalk

open Mem

variable {p : Program} {ty : Ty} {name : String} {n k : Nat} {α β : Type}

/-! ## Sizes -/

theorem mapM_eq_some_iff {f : α → Option β} {l : List α} {l' : List β} :
    l.mapM f = some l' ↔ List.Forall₂ (fun a b => f a = some b) l l' := by
  induction l generalizing l' with
  | nil => cases l' <;> simp
  | cons a l ih =>
    simp only [List.mapM_cons, Option.bind_eq_bind, Option.bind_eq_some_iff, Option.pure_def,
      Option.some_inj, ih]
    rw [List.forall₂_cons_left_iff]
    constructor
    · rintro ⟨b, hb, bs, hbs, rfl⟩
      exact ⟨b, bs, hb, hbs, rfl⟩
    · rintro ⟨b, bs, hb, hbs, rfl⟩
      exact ⟨b, hb, bs, hbs, rfl⟩

theorem isSome_mapM_iff {f : α → Option β} {l : List α} :
    (l.mapM f).isSome ↔ ∀ a ∈ l, (f a).isSome := by
  induction l with
  | nil => simp
  | cons a l ih =>
    rw [List.mapM_cons]
    cases hf : f a with
    | none => simp [hf]
    | some b =>
      rw [List.forall_mem_cons, ← ih, hf]
      cases l.mapM f <;> simp

theorem sizeWith_isSome_iff {size : String → Option Nat} :
    (sizeWith size ty).isSome ↔ ∀ name, ty.held? = some name → (size name).isSome := by
  induction ty with
  | primitive | pointer => simp [sizeWith, Ty.held?]
  | array element n ih => simp only [sizeWith, Option.isSome_map, Ty.held?, ih]
  | compound form name => simp [sizeWith, Ty.held?]
  | const inner ih => exact ih

theorem sizeWith_mono {size size' : String → Option Nat} {s : Nat}
    (hsize : ∀ name s, size name = some s → size' name = some s) (hs : sizeWith size ty = some s) :
    sizeWith size' ty = some s := by
  induction ty generalizing s with
  | primitive | pointer => exact hs
  | array element n ih =>
    obtain ⟨t, ht, rfl⟩ := Option.map_eq_some_iff.1 hs
    exact congrArg (Option.map _) (ih ht)
  | compound form name => exact hsize name s hs
  | const inner ih => exact ih hs

/-- The size of a compound is the sum of the sizes of its fields. -/
theorem compoundSize_succ_eq_some_iff {s : Nat} : compoundSize p (n + 1) name = some s ↔
    ∃ sizes, List.Forall₂ (fun f s => sizeWith (compoundSize p n) f.ty = some s) (p.allFields name) sizes ∧
      sizes.sum = s := by
  have hsize : compoundSize p (n + 1) name =
      ((p.allFields name).mapM fun f => sizeWith (compoundSize p n) f.ty).bind fun sizes => some sizes.sum := rfl
  simp only [hsize, Option.bind_eq_some_iff, mapM_eq_some_iff, Option.some_inj]

theorem compoundSize_mono {s : Nat} (hs : compoundSize p n name = some s) (hk : n ≤ k) :
    compoundSize p k name = some s := by
  induction n generalizing k name s with
  | zero => cases hs
  | succ n ih =>
    obtain ⟨k, rfl, hle⟩ := exists_of_succ_le hk
    obtain ⟨sizes, hsizes, hsum⟩ := compoundSize_succ_eq_some_iff.1 hs
    refine compoundSize_succ_eq_some_iff.2 ⟨sizes, hsizes.imp fun f s hf => ?_, hsum⟩
    exact sizeWith_mono (fun name s hs => ih hs hle) hf

/-- A compound has a size just if it is nested no deeper than it is followed. -/
theorem compoundSize_isSome_iff : (compoundSize p n name).isSome ↔ Shallow p.heldBy n name := by
  induction n generalizing name with
  | zero => exact iff_of_false Bool.false_ne_true id
  | succ n ih =>
    have hsome : (compoundSize p (n + 1) name).isSome ↔
        ((p.allFields name).mapM fun f => sizeWith (compoundSize p n) f.ty).isSome := by
      rw [Option.isSome_iff_exists, Option.isSome_iff_exists]
      simp only [compoundSize_succ_eq_some_iff, mapM_eq_some_iff]
      constructor
      · rintro ⟨_, sizes, hsizes, -⟩
        exact ⟨sizes, hsizes⟩
      · rintro ⟨sizes, hsizes⟩
        exact ⟨_, sizes, hsizes, rfl⟩
    rw [hsome, isSome_mapM_iff]
    simp only [sizeWith_isSome_iff, ih]
    refine ⟨fun h inner hinner => ?_, fun h f hf inner hinner => ?_⟩
    · obtain ⟨f, hf, hheld⟩ := List.mem_filterMap.1 hinner
      exact h f hf inner hheld
    · exact h inner (List.mem_filterMap.2 ⟨f, hf, hinner⟩)

/-- A type has a size just if no compound in it contains itself. -/
theorem sizeOfTy_isSome_iff : (sizeOfTy p ty).isSome ↔ p.Founded ty := by
  simp only [sizeOfTy, sizeWith_isSome_iff, compoundSize_isSome_iff, Program.shallow_heldBy_iff]
  constructor
  · rintro h inner ⟨outer, houter, hinner⟩
    exact h outer houter inner hinner
  · exact fun h outer houter inner hinner => h inner ⟨outer, houter, hinner⟩

instance (p : Program) (ty : Ty) : Decidable (p.Founded ty) :=
  decidable_of_iff _ sizeOfTy_isSome_iff

/-- A size found within any number of levels is the size. -/
theorem sizeOfTy_of_levels {s : Nat} (hs : sizeWith (compoundSize p n) ty = some s) :
    sizeOfTy p ty = some s := by
  refine sizeWith_mono (fun name s hs => ?_) hs
  have hshallow := compoundSize_isSome_iff.1 (Option.isSome_of_eq_some hs)
  obtain ⟨t, ht⟩ := Option.isSome_iff_exists.1 (compoundSize_isSome_iff.2 (Program.shallow_levels hshallow))
  have hmax := (compoundSize_mono ht (Nat.le_max_right n _)).symm.trans
    (compoundSize_mono hs (Nat.le_max_left n p.levels))
  rw [ht, Option.some_inj.1 hmax]

/-! ## New values -/

namespace Mem

/-- As far as `g` tells, the two computations give the same, whatever the heaps. -/
def Corresponds (g : α → β) (x y : Mem α) : Prop :=
  ∀ h h', (outcome x h).map g = (outcome y h').map g

/-- The second goes on where the first gives up, and else does the same. -/
def Settles (x y : Mem α) : Prop :=
  ∀ h, outcome x h ≠ .error .exhausted → y h = x h

theorem Corresponds.bind {γ δ : Type} {g : α → γ} {g' : β → δ} {x y : Mem α} {f f' : α → Mem β}
    (hx : Corresponds g x y) (hf : ∀ a b, g a = g b → Corresponds g' (f a) (f' b)) :
    Corresponds g' (x >>= f) (y >>= f') := by
  intro h h'
  have hxy := hx h h'
  rw [outcome_bind, outcome_bind]
  cases hox : outcome x h with
  | error e =>
    cases hoy : outcome y h' with
    | error e' =>
      rw [hox, hoy] at hxy
      cases hxy
      rfl
    | ok b => rw [hox, hoy] at hxy; cases hxy
  | ok a =>
    cases hoy : outcome y h' with
    | error e' => rw [hox, hoy] at hxy; cases hxy
    | ok b =>
      rw [hox, hoy] at hxy
      exact hf a b (Except.ok.inj hxy) _ _

theorem Corresponds.exhausted_iff {g : α → β} {x y : Mem α} (hxy : Corresponds g x y) (h h' : Heap) :
    outcome x h = .error .exhausted ↔ outcome y h' = .error .exhausted := by
  have ho := hxy h h'
  cases hox : outcome x h with
  | error e =>
    cases hoy : outcome y h' with
    | error e' =>
      rw [hox, hoy] at ho
      rw [Except.error.inj ho]
    | ok b => rw [hox, hoy] at ho; cases ho
  | ok a =>
    cases hoy : outcome y h' with
    | error e' => rw [hox, hoy] at ho; cases ho
    | ok b => simp

/-- Two that always give up correspond. -/
theorem Corresponds.of_exhausted {g : α → β} {x y : Mem α} (hx : ∀ h, outcome x h = .error .exhausted)
    (hy : ∀ h, outcome y h = .error .exhausted) : Corresponds g x y := by
  intro h h'
  rw [hx, hy]

theorem Settles.bind {x y : Mem α} {f f' : α → Mem β} (hx : Settles x y)
    (hf : ∀ a, Settles (f a) (f' a)) : Settles (x >>= f) (y >>= f') := by
  intro h hends
  rw [outcome_bind] at hends
  have hxy : y h = x h := hx h fun he => by
    rw [he] at hends
    exact hends rfl
  change EStateM.bind y f' h = EStateM.bind x f h
  simp only [EStateM.bind, hxy]
  cases hr : x h with
  | error e h' => rfl
  | ok a h' =>
    refine hf a h' fun he => hends ?_
    simp only [outcome, leaves, hr]
    exact he

theorem Settles.refl (x : Mem α) : Settles x x :=
  fun _ _ => rfl

theorem Settles.mapM {γ : Type} {f f' : γ → Mem α} (hf : ∀ c, Settles (f c) (f' c)) (l : List γ) :
    Settles (l.mapM f) (l.mapM f') := by
  induction l with
  | nil => exact .refl _
  | cons c l ih =>
    rw [List.mapM_cons, List.mapM_cons]
    exact (hf c).bind fun a => ih.bind fun _ => .refl _

theorem Corresponds.mapM {γ : Type} {f f' : γ → Mem α} (hf : ∀ c, Corresponds (fun _ => ()) (f c) (f' c))
    (l : List γ) : Corresponds (fun _ => ()) (l.mapM f) (l.mapM f') := by
  induction l with
  | nil => exact fun _ _ => rfl
  | cons c l ih =>
    rw [List.mapM_cons, List.mapM_cons]
    exact (hf c).bind fun _ _ _ => ih.bind fun _ _ _ _ _ => rfl

/-- The computation has a result on every heap. -/
def Total (x : Mem α) : Prop :=
  ∀ h, ∃ a, outcome x h = .ok a

theorem Total.bind {x : Mem α} {f : α → Mem β} (hx : Total x) (hf : ∀ a, Total (f a)) :
    Total (x >>= f) := by
  intro h
  obtain ⟨a, ha⟩ := hx h
  obtain ⟨b, hb⟩ := hf a (leaves x h)
  exact ⟨b, by rw [outcome_bind, ha]; exact hb⟩

theorem Total.mapM {γ : Type} {f : γ → Mem α} (hf : ∀ c, Total (f c)) (l : List γ) :
    Total (l.mapM f) := by
  induction l with
  | nil => exact fun _ => ⟨_, rfl⟩
  | cons c l ih =>
    rw [List.mapM_cons]
    exact (hf c).bind fun a => ih.bind fun _ _ => ⟨_, rfl⟩

theorem Total.corresponds {x y : Mem α} (hx : Total x) (hy : Total y) : Corresponds (fun _ => ()) x y := by
  intro h h'
  obtain ⟨a, ha⟩ := hx h
  obtain ⟨b, hb⟩ := hy h'
  rw [ha, hb]
  rfl

end Mem

theorem total_slotFor (r : Ref) : Total (slotFor r) := by
  refine Total.bind (fun _ => ⟨_, rfl⟩) fun c => ?_
  cases c with
  | compound => exact fun _ => ⟨_, rfl⟩
  | primitive | array | pointer | slot =>
    refine Total.bind (fun _ => ⟨_, rfl⟩) fun c => ?_
    cases c <;> exact fun _ => ⟨_, rfl⟩

theorem total_arrayOf (element : Ty) (values : List Ref) : Total (arrayOf element values) :=
  (Total.mapM total_slotFor values).bind fun _ _ => ⟨_, rfl⟩

theorem corresponds_demandValue (ty : Ty) (a b : Option Ref) (hab : a.isSome = b.isSome) :
    Corresponds (fun _ => ()) (demandValue ty a) (demandValue ty b) := by
  cases a <;> cases b <;> first | exact fun _ _ => rfl | cases hab

theorem settles_zeroWith {c c' : Form → String → Mem Ref} (hc : ∀ form name, Settles (c form name) (c' form name))
    (ty : Ty) : Settles (zeroWith c ty) (zeroWith c' ty) := by
  fun_induction zeroWith c ty with
  | case1 | case3 | case5 => exact .refl _
  | case2 k u hk =>
    cases k with
    | void => exact absurd rfl hk
    | _ => exact .refl _
  | case4 element n ih =>
    simp only [zeroWith, replicateM_eq_mapM]
    exact (Settles.mapM (fun _ => ih.bind fun _ => .refl _) _).bind fun _ => .refl _
  | case6 form name =>
    simp only [zeroWith, map_eq_pure_bind]
    exact (hc form name).bind fun _ => .refl _
  | case7 inner ih => exact ih

theorem corresponds_zeroWith {c c' : Form → String → Mem Ref}
    (hc : ∀ form name, Corresponds (fun _ => ()) (c form name) (c' form name)) (ty : Ty) :
    Corresponds Option.isSome (zeroWith c ty) (zeroWith c' ty) := by
  fun_induction zeroWith c ty with
  | case1 | case3 | case5 => exact fun _ _ => rfl
  | case2 k u hk =>
    cases k with
    | void => exact absurd rfl hk
    | _ => exact fun _ _ => rfl
  | case4 element n ih =>
    simp only [zeroWith, replicateM_eq_mapM]
    refine (Corresponds.mapM (fun _ => ih.bind (corresponds_demandValue element)) _).bind fun l l' _ => ?_
    rw [map_eq_pure_bind, map_eq_pure_bind]
    refine ((total_arrayOf element l).corresponds (total_arrayOf element l')).bind fun _ _ _ _ _ => rfl
  | case6 form name =>
    simp only [zeroWith, map_eq_pure_bind]
    exact (hc form name).bind fun _ _ _ _ _ => rfl
  | case7 inner ih => exact ih

theorem settles_zeroCompound (p : Program) (form : Form) (name : String) (hk : n ≤ k) :
    Settles (zeroCompound p n form name) (zeroCompound p k form name) := by
  induction n generalizing k form name with
  | zero => exact fun h hends => absurd rfl hends
  | succ n ih =>
    obtain ⟨k, rfl, hle⟩ := exists_of_succ_le hk
    unfold zeroCompound
    split
    · exact .refl _
    · refine (Settles.mapM (fun f => ?_) _).bind fun _ => .refl _
      exact (settles_zeroWith (fun form name => ih form name hle) f.ty).bind
        fun _ => .refl _

theorem corresponds_zeroCompound_succ (hnk : ∀ form name, Corresponds (fun _ => ()) (zeroCompound p n form name)
    (zeroCompound p k form name)) (form form' : Form) (name : String) :
    Corresponds (fun _ => ()) (zeroCompound p (n + 1) form name) (zeroCompound p (k + 1) form' name) := by
  unfold zeroCompound
  split
  · exact fun _ _ => rfl
  · refine (Corresponds.mapM (fun f => ?_) _).bind fun _ _ _ _ _ => rfl
    exact (corresponds_zeroWith hnk f.ty).bind fun a b hab =>
      (corresponds_demandValue f.ty a b hab).bind fun _ _ _ _ _ => rfl

/-- Whether a compound can be made depends neither on the heap nor on its form. -/
theorem corresponds_zeroCompound (p : Program) (n : Nat) (form form' : Form) (name : String) :
    Corresponds (fun _ => ()) (zeroCompound p n form name) (zeroCompound p n form' name) := by
  induction n generalizing form form' name with
  | zero => exact fun _ _ => rfl
  | succ n ih => exact corresponds_zeroCompound_succ (fun form name => ih form form name) form form' name

/-- Making the compound is not given up at the level. -/
def Program.Completes (p : Program) (n : Nat) (name : String) : Prop :=
  ∀ form h, outcome (zeroCompound p n form name) h ≠ .error .exhausted

theorem Program.Completes.zeroCompound_eq (hn : p.Completes n name) (hk : n ≤ k) (form : Form) :
    zeroCompound p k form name = zeroCompound p n form name :=
  funext fun h => settles_zeroCompound p form name hk h (hn form h)

theorem Program.Completes.mono (hn : p.Completes n name) (hk : n ≤ k) : p.Completes k name := by
  intro form
  rw [hn.zeroCompound_eq hk]
  exact hn form

theorem Program.exhausted_of_not_completes (hn : ¬ p.Completes n name) (form : Form) (h : Heap) :
    outcome (zeroCompound p n form name) h = .error .exhausted := by
  obtain ⟨form', h', hgiven⟩ : ∃ form' h', outcome (zeroCompound p n form' name) h' = .error .exhausted := by
    simpa only [Completes, not_forall, not_not] using hn
  exact ((corresponds_zeroCompound p n form' form name).exhausted_iff h' h).1 hgiven

/-- At levels at which the same compounds are completed, each is made alike. -/
theorem corresponds_of_completes (hk : n ≤ k) (hback : ∀ name, p.Completes k name → p.Completes n name)
    (form : Form) (name : String) :
    Corresponds (fun _ => ()) (zeroCompound p n form name) (zeroCompound p k form name) := by
  by_cases hn : p.Completes n name
  · rw [hn.zeroCompound_eq hk]
    exact corresponds_zeroCompound p n form form name
  · exact .of_exhausted (p.exhausted_of_not_completes hn form)
      (p.exhausted_of_not_completes (fun hk => hn (hback name hk)) form)

/-- A compound completed at any level is completed at that of the program. -/
theorem Program.completes_levels (hn : p.Completes n name) : p.Completes p.levels name := by
  rw [← p.card_keys]
  refine reached_of_card (D := p.Completes) (fun n _ hn => hn.mono n.le_succ) ?_ ?_ hn
  · intro n hback name hcompletes form h
    have hsame := corresponds_zeroCompound_succ (corresponds_of_completes n.le_succ hback) form form name
    exact (hsame.exhausted_iff h h).not.2 (hcompletes form h)
  · intro _ name hkeys _ form h
    have hundeclared : p.compound? name = none := by
      by_contra hsome
      exact hkeys (List.mem_toFinset.2 (p.mem_keys_of_compound? (Option.isSome_iff_ne_none.2 hsome)))
    unfold zeroCompound
    rw [hundeclared]
    intro hgiven
    cases hgiven

/-- A value whose making comes to an end within any number of levels is made. -/
theorem zeroValue?_of_levels {h : Heap}
    (hends : outcome (zeroWith (zeroCompound p n) ty) h ≠ .error .exhausted) :
    zeroValue? p ty h = zeroWith (zeroCompound p n) ty h := by
  have hmore := settles_zeroWith (fun form name =>
    settles_zeroCompound p form name (Nat.le_max_left n p.levels)) ty h hends
  have hsame := corresponds_zeroWith (corresponds_of_completes (Nat.le_max_right n p.levels) fun name =>
    p.completes_levels) ty
  have hlevels : outcome (zeroValue? p ty) h ≠ .error .exhausted := by
    refine (hsame.exhausted_iff h h).not.2 ?_
    unfold outcome
    rw [hmore]
    exact hends
  rw [← hmore]
  exact (settles_zeroWith (fun form name =>
    settles_zeroCompound p form name (Nat.le_max_right n p.levels)) ty h hlevels).symm

end Treewalk
