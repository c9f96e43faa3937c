/-
  Compatibility looks at neither `const` nor the sizes of arrays.

  * `Ty.stripped t`: the type without any `const` and without any size, at every depth;
  * `Ty.Respelled t t'`: from `t` to `t'` leads any number of edits, each of which puts a
    `const` somewhere or takes one away, or gives an array another size. This is equality
    of what is left when all of it is stripped (`respelled_iff`);
  * `Program.Agree p t s`, `Program.Compatible p d a`: the rules for targets of pointers
    and for values, on stripped types;
  * `accepts_ignores_spelling`: the check follows the rules for the stripped types, so that
    respelling either type changes nothing.

  The check compares whole targets before it looks into them, and that comparison sees
  every `const` and every size. For pointers and arrays it decides nothing: what is equal
  agrees (`Agree.refl`). It decides for compounds, where there is only the name to compare.
-/
import Treewalk.Tree.Program
import Mathlib.Logic.Relation

namespace Treewalk

/-! ## Spellings of a type -/

namespace Ty

variable {t t' : Ty}

/-- The type without any `const` and without the sizes of arrays. -/
def stripped : Ty → Ty
  | primitive k u => primitive k u
  | pointer target => pointer target.stripped
  | array element _ => array element.stripped none
  | compound form name => compound form name
  | const inner => inner.stripped

/-- A `const` is put somewhere, or an array somewhere is given another size. -/
inductive Edit : Ty → Ty → Prop
  | const (t : Ty) : Edit t (.const t)
  | size (element : Ty) (n m : Option Nat) : Edit (.array element n) (.array element m)
  | underPointer {t t' : Ty} : Edit t t' → Edit (.pointer t) (.pointer t')
  | underArray {t t' : Ty} (n : Option Nat) : Edit t t' → Edit (.array t n) (.array t' n)
  | underConst {t t' : Ty} : Edit t t' → Edit (.const t) (.const t')

/-- Any number of edits, made or undone. -/
def Respelled : Ty → Ty → Prop :=
  Relation.EqvGen Edit

theorem Edit.stripped_eq (h : Edit t t') : t.stripped = t'.stripped := by
  induction h with
  | const | size => rfl
  | underPointer _ ih => exact congrArg pointer ih
  | underArray _ _ ih => exact congrArg (array · none) ih
  | underConst _ ih => exact ih

/-- What is respelled below a constructor is respelled. -/
theorem Respelled.under {f : Ty → Ty} (hf : ∀ {t t'}, Edit t t' → Edit (f t) (f t'))
    (h : Respelled t t') : Respelled (f t) (f t') := by
  induction h with
  | rel _ _ hedit => exact .rel _ _ (hf hedit)
  | refl => exact .refl _
  | symm _ _ _ ih => exact .symm _ _ ih
  | trans _ _ _ _ _ ih ih' => exact .trans _ _ _ ih ih'

theorem respelled_stripped (t : Ty) : Respelled t t.stripped := by
  induction t with
  | primitive | compound => exact .refl _
  | pointer _ ih => exact ih.under .underPointer
  | array element n ih =>
    exact .trans _ _ _ (.rel _ _ (.size element n none)) (ih.under (.underArray none))
  | const inner ih => exact .trans _ _ _ (.symm _ _ (.rel _ _ (.const inner))) ih

theorem respelled_iff : Respelled t t' ↔ t.stripped = t'.stripped := by
  constructor
  · intro h
    induction h with
    | rel _ _ hedit => exact hedit.stripped_eq
    | refl => rfl
    | symm _ _ _ ih => exact ih.symm
    | trans _ _ _ _ _ ih ih' => exact ih.trans ih'
  · intro h
    exact .trans _ _ _ (respelled_stripped t) (h ▸ .symm _ _ (respelled_stripped t'))

instance : DecidableRel Respelled :=
  fun _ _ => decidable_of_iff _ respelled_iff.symm

theorem stripped_unqualified (t : Ty) : t.unqualified.stripped = t.stripped := by
  induction t with
  | const _ ih => exact ih
  | _ => rfl

theorem unqualified_ne_const (t inner : Ty) : t.unqualified ≠ .const inner := by
  induction t with
  | const _ ih => exact ih
  | _ => simp [unqualified]

theorem isVoid_iff : t.isVoid ↔ ∃ u, t.unqualified = .primitive .void u := by
  unfold isVoid
  split
  · rename_i u hu
    simp [hu]
  · rename_i hne
    simpa using hne

end Ty

/-! ## Rules for stripped types -/

namespace Program

variable {p : Program} {t s d a : Ty}

/-- A pointer to the second type may stand for a pointer to the first. -/
inductive Agree (p : Program) : Ty → Ty → Prop
  | voidTarget {u : Bool} {s : Ty} : Agree p (.primitive .void u) s
  | voidSource {t : Ty} {u : Bool} : Agree p t (.primitive .void u)
  | number {k : Kind} {u u' : Bool} : Agree p (.primitive k u) (.primitive k u')
  | pointer {t s : Ty} : Agree p t s → Agree p (.pointer t) (.pointer s)
  | array {t s : Ty} {n m : Option Nat} : Agree p t s → Agree p (.array t n) (.array s m)
  | same {form : Form} {name : String} : Agree p (.compound form name) (.compound form name)
  | subclass {base derived : String} : p.isSubclass derived base →
      Agree p (.compound .class_ base) (.compound .class_ derived)

/-- A value of the second type may be stored where the first is declared. -/
inductive Compatible (p : Program) : Ty → Ty → Prop
  | number {k k' : Kind} {u u' : Bool} : k ≠ .void → k' ≠ .void →
      Compatible p (.primitive k u) (.primitive k' u')
  | indirect {d a t s : Ty} : d.pointee? = some t → a.pointee? = some s → p.Agree t s → Compatible p d a
  | integer {target : Ty} {k : Kind} {u : Bool} : k.isIntegral →
      Compatible p (.pointer target) (.primitive k u)
  | struct {name : String} : Compatible p (.compound .struct name) (.compound .struct name)
  | subclass {base derived : String} : p.isSubclass derived base →
      Compatible p (.compound .class_ base) (.compound .class_ derived)

/-! ### What agrees with a type of a given shape -/

theorem agree_primitive {k : Kind} {u : Bool} : p.Agree (.primitive k u) s ↔
    k = .void ∨ ∃ k' u', s = .primitive k' u' ∧ (k' = .void ∨ k' = k) := by
  constructor
  · rintro (_ | _ | _) <;> simp
  · rintro (rfl | ⟨_, _, rfl, rfl | rfl⟩)
    · exact .voidTarget
    · exact .voidSource
    · exact .number

theorem agree_pointer : p.Agree (.pointer t) s ↔
    (∃ u, s = .primitive .void u) ∨ ∃ s', s = .pointer s' ∧ p.Agree t s' := by
  constructor
  · rintro (_ | _ | _ | h) <;> simp_all
  · rintro (⟨_, rfl⟩ | ⟨_, rfl, h⟩)
    · exact .voidSource
    · exact .pointer h

theorem agree_array {n : Option Nat} : p.Agree (.array t n) s ↔
    (∃ u, s = .primitive .void u) ∨ ∃ s' m, s = .array s' m ∧ p.Agree t s' := by
  constructor
  · rintro (_ | _ | _ | _ | h) <;> simp_all
  · rintro (⟨_, rfl⟩ | ⟨_, _, rfl, h⟩)
    · exact .voidSource
    · exact .array h

theorem agree_compound {form : Form} {name : String} : p.Agree (.compound form name) s ↔
    (∃ u, s = .primitive .void u) ∨ s = .compound form name ∨
      form = .class_ ∧ ∃ derived, s = .compound .class_ derived ∧ p.isSubclass derived name := by
  constructor
  · rintro (_ | _ | _ | _ | _ | _ | h) <;> simp_all
  · rintro (⟨_, rfl⟩ | rfl | ⟨rfl, _, rfl, h⟩)
    · exact .voidSource
    · exact .same
    · exact .subclass h

theorem Agree.refl (p : Program) (t : Ty) : p.Agree t.stripped t.stripped := by
  induction t with
  | primitive => exact .number
  | pointer _ ih => exact .pointer ih
  | array _ _ ih => exact .array ih
  | compound => exact .same
  | const _ ih => exact ih

/-- The check of targets follows the rules. -/
theorem acceptsTarget_iff_agree : p.acceptsTarget t s ↔ p.Agree t.stripped s.stripped := by
  induction t generalizing s with
  | const _ ih => exact ih
  | primitive k u =>
    rw [← Ty.stripped_unqualified s, Ty.stripped, agree_primitive]
    cases hs : s.unqualified with
    | const inner => exact absurd hs (s.unqualified_ne_const inner)
    | primitive k' u' =>
      have hkinds : ((k = .void ∨ k' = .void) ∨ k' = k ∧ u' = u) ∨ k = k' ↔
          k = .void ∨ k' = .void ∨ k' = k := by grind
      simpa [acceptsTarget, Ty.isVoid_iff, Kind.isVoid, Ty.stripped, hs] using hkinds
    | _ => simp [acceptsTarget, Ty.isVoid_iff, Kind.isVoid, Ty.stripped, hs]
  | pointer t ih =>
    rw [← Ty.stripped_unqualified s, Ty.stripped, agree_pointer]
    cases hs : s.unqualified with
    | const inner => exact absurd hs (s.unqualified_ne_const inner)
    | pointer s' =>
      -- equal targets are equal below, too, where they agree as any type does with itself
      have hself : s' = t → p.Agree t.stripped s'.stripped := by
        rintro rfl
        exact .refl p s'
      simpa [acceptsTarget, Ty.isVoid_iff, Ty.stripped, hs, ih] using hself
    | _ => simp [acceptsTarget, Ty.isVoid_iff, Ty.stripped, hs]
  | array t n ih =>
    rw [← Ty.stripped_unqualified s, Ty.stripped, agree_array]
    cases hs : s.unqualified with
    | const inner => exact absurd hs (s.unqualified_ne_const inner)
    | array s' m =>
      have hself : s' = t → m = n → p.Agree t.stripped s'.stripped := by
        rintro rfl -
        exact .refl p s'
      simpa [acceptsTarget, Ty.isVoid_iff, Ty.stripped, hs, ih] using hself
    | _ => simp [acceptsTarget, Ty.isVoid_iff, Ty.stripped, hs]
  | compound form name =>
    rw [← Ty.stripped_unqualified s, Ty.stripped, agree_compound]
    cases hs : s.unqualified with
    | const inner => exact absurd hs (s.unqualified_ne_const inner)
    | compound form' name' =>
      cases form <;> cases form' <;> simp [acceptsTarget, Ty.isVoid_iff, Ty.stripped, hs]
    | _ => simp [acceptsTarget, Ty.isVoid_iff, Ty.stripped, hs]

/-! ### What is compatible with a type of a given shape -/

theorem compatible_primitive {k : Kind} {u : Bool} : p.Compatible (.primitive k u) a ↔
    ∃ k' u', a = .primitive k' u' ∧ k ≠ .void ∧ k' ≠ .void := by
  constructor
  · rintro (⟨hk, hk'⟩ | ⟨hd, -, -⟩)
    · exact ⟨_, _, rfl, hk, hk'⟩
    · cases hd
  · rintro ⟨_, _, rfl, hk, hk'⟩
    exact .number hk hk'

theorem compatible_pointer : p.Compatible (.pointer t) a ↔
    (∃ s, a.pointee? = some s ∧ p.Agree t s) ∨ ∃ k u, a = .primitive k u ∧ k.isIntegral := by
  constructor
  · rintro (_ | ⟨hd, ha, h⟩ | hk)
    · cases hd
      exact .inl ⟨_, ha, h⟩
    · exact .inr ⟨_, _, rfl, hk⟩
  · rintro (⟨_, ha, h⟩ | ⟨_, _, rfl, hk⟩)
    · exact .indirect rfl ha h
    · exact .integer hk

theorem compatible_array {n : Option Nat} : p.Compatible (.array t n) a ↔
    ∃ s, a.pointee? = some s ∧ p.Agree t s := by
  constructor
  · rintro (_ | ⟨hd, ha, h⟩)
    cases hd
    exact ⟨_, ha, h⟩
  · rintro ⟨_, ha, h⟩
    exact .indirect rfl ha h

theorem compatible_compound {form : Form} {name : String} : p.Compatible (.compound form name) a ↔
    ∃ name', a = .compound form name' ∧ (form = .struct → name = name') ∧
      (form = .class_ → p.isSubclass name' name) := by
  constructor
  · rintro (_ | ⟨hd, -, -⟩ | _ | _ | h)
    · cases hd
    · simp
    · simpa using h
  · rintro ⟨name', rfl, hstruct, hclass⟩
    cases form with
    | struct => exact hstruct rfl ▸ .struct
    | class_ => exact .subclass (hclass rfl)

/-- The check of values follows the rules. -/
theorem accepts_iff_compatible : p.accepts d a ↔ p.Compatible d.stripped a.stripped := by
  rw [← Ty.stripped_unqualified d, ← Ty.stripped_unqualified a]
  unfold accepts
  have hd := d.unqualified_ne_const
  have ha := a.unqualified_ne_const
  generalize d.unqualified = d at hd
  generalize a.unqualified = a at ha
  cases d with
  | const inner => exact absurd rfl (hd inner)
  | primitive k u =>
    rw [Ty.stripped, compatible_primitive]
    cases a with
    | const inner => exact absurd rfl (ha inner)
    | _ => simp [Ty.stripped, Kind.isVoid]
  | pointer t =>
    rw [Ty.stripped, compatible_pointer]
    cases a with
    | const inner => exact absurd rfl (ha inner)
    | _ => simp [Ty.stripped, Ty.pointee?, Ty.unqualified, acceptsTarget_iff_agree]
  | array t n =>
    rw [Ty.stripped, compatible_array]
    cases a with
    | const inner => exact absurd rfl (ha inner)
    | _ => simp [Ty.stripped, Ty.pointee?, Ty.unqualified, acceptsTarget_iff_agree]
  | compound form name =>
    rw [Ty.stripped, compatible_compound]
    cases a with
    | const inner => exact absurd rfl (ha inner)
    | compound form' name' =>
      cases form <;> cases form' <;> simp [Ty.stripped]
    | _ => cases form <;> simp [Ty.stripped]

/-! ## Respelled types -/

/-- The check gives the same answer however the two types are spelled: it follows the
    rules for what is left of them without `const` and sizes. -/
theorem accepts_ignores_spelling (p : Program) {d d' a a' : Ty} (hd : d.Respelled d')
    (ha : a.Respelled a') :
    p.accepts d a = p.accepts d' a' ∧ (p.accepts d a ↔ p.Compatible d.stripped a.stripped) := by
  refine ⟨?_, accepts_iff_compatible⟩
  rw [Bool.eq_iff_iff, accepts_iff_compatible, accepts_iff_compatible, Ty.respelled_iff.1 hd,
    Ty.respelled_iff.1 ha]

/-- A pointer to an array of a class that is not declared, spelled in two ways. -/
def ghosts : Ty × Ty :=
  (.pointer (.const (.array (.const (.compound .class_ "Ghost")) (some 3))),
    .const (.pointer (.array (.compound .class_ "Ghost") none)))

/-- An array of such arrays, spelled in two ways. -/
def ghostRows : Ty × Ty :=
  (.array (.array (.compound .class_ "Ghost") (some 3)) (some 2),
    .array (.const (.array (.const (.const (.compound .class_ "Ghost"))) (some 5))) none)

/-- Below the first level, a class that is not declared is accepted for being the same,
    whatever is written around it. -/
theorem ghosts_ignore_spelling :
    ghosts.1.Respelled ghosts.2 ∧ ghostRows.1.Respelled ghostRows.2 ∧
      ({} : Program).accepts ghosts.1 ghostRows.1 ∧ ({} : Program).accepts ghosts.2 ghostRows.2 := by
  have hd : ghosts.1.Respelled ghosts.2 := by decide
  have ha : ghostRows.1.Respelled ghostRows.2 := by decide
  have haccepts : ({} : Program).accepts ghosts.1 ghostRows.1 = true := by decide
  exact ⟨hd, ha, haccepts, (accepts_ignores_spelling {} hd ha).1 ▸ haccepts⟩

end Program

end Treewalk
