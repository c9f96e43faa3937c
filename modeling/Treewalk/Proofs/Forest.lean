/-
  Containment.

  What values contain is given by a function from a value to its parts, and a
  set of slots. A slot that nothing contains is *loose*: it may hold a value that
  something else contains, too.

  * `Reaches P a b`: `b` is `a` or a part of a part … of it;
  * `Forest P S`: no value contains itself, no part is listed twice, and no two
    values contain the same part unless one of them is a loose slot;
  * `Forest.update`: changing the parts of one value keeps a forest, if the new
    parts were contained in nothing and do not lead back to the value;
  * `Shallow P n a`: the parts of `a` are nested at most `n` levels deep. Where
    nothing contains itself, nothing is nested deeper than there are parts
    (`Shallow.of_acyclic`), so not deeper than there are values (`Shallow.of_wf`).
-/
import Treewalk.Memory.Heap
import Mathlib.Data.Finset.Card
import Mathlib.Data.Fintype.Basic
import Mathlib.Logic.Relation
import Mathlib.Order.WellFounded

namespace Treewalk

/-- The second is the first, or part of it. -/
abbrev Reaches {α : Type} (P : α → List α) : α → α → Prop :=
  Relation.ReflTransGen fun a b => b ∈ P a

/-- A slot that nothing contains. -/
def Loose (P : Ref → List Ref) (S : Ref → Prop) (a : Ref) : Prop :=
  S a ∧ ∀ c, a ∉ P c

/-- Nothing contains the value, and its parts are parts of nothing else. -/
def Solo (P : Ref → List Ref) (a : Ref) : Prop :=
  (∀ c, a ∉ P c) ∧ ∀ x ∈ P a, ∀ c, x ∈ P c → c = a

/-! ## Nothing contains itself -/

section Acyclic

variable {P P' : Ref → List Ref} {r : Ref} (hwf : WellFounded fun x a => x ∈ P a)
include hwf

/-- A part does not lead back to what contains it. -/
theorem not_reaches_of_wf {a x : Ref} (hx : x ∈ P a) : ¬ Reaches P x a := by
  intro h
  have hcycle : Relation.TransGen (fun a b => b ∈ P a) a a := .head' hx h
  exact hwf.transGen.irrefl.irrefl a (Relation.transGen_swap.1 hcycle)

theorem acc_of_not_reaches (hP : ∀ a, a ≠ r → P' a = P a) {a : Ref} (ha : ¬ Reaches P a r) :
    Acc (fun x a => x ∈ P' a) a := by
  induction a using hwf.induction with
  | _ a ih =>
    have har : a ≠ r := fun h => ha (h ▸ .refl)
    refine ⟨a, fun x hx => ?_⟩
    rw [hP a har] at hx
    exact ih x hx fun hxr => ha (.head hx hxr)

theorem wf_update (hP : ∀ a, a ≠ r → P' a = P a) (hr : ∀ x ∈ P' r, ¬ Reaches P x r) :
    WellFounded fun x a => x ∈ P' a := by
  have hacc : Acc (fun x a => x ∈ P' a) r := ⟨r, fun x hx => acc_of_not_reaches hwf hP (hr x hx)⟩
  refine ⟨fun a => ?_⟩
  induction a using hwf.induction with
  | _ a ih =>
    by_cases har : a = r
    · exact har ▸ hacc
    · refine ⟨a, fun x hx => ?_⟩
      rw [hP a har] at hx
      exact ih x hx

/-- Parts may be left out, and parts put in that contain nothing. -/
theorem wf_of_leaves (hP : ∀ a, ∀ x ∈ P' a, x ∈ P a ∨ P' x = []) : WellFounded fun x a => x ∈ P' a := by
  refine ⟨fun a => ?_⟩
  induction a using hwf.induction with
  | _ a ih =>
    refine ⟨a, fun x hx => ?_⟩
    rcases hP a x hx with h | h
    · exact ih x h
    · exact ⟨x, fun y hy => by rw [h] at hy; cases hy⟩

end Acyclic

/-- No value contains itself, and but for loose slots, no two contain the same. -/
structure Forest (P : Ref → List Ref) (S : Ref → Prop) : Prop where
  wf : WellFounded fun x a => x ∈ P a
  nodup : ∀ a, (P a).Nodup
  owner : ∀ {x a b}, x ∈ P a → x ∈ P b → a = b ∨ Loose P S a ∨ Loose P S b

namespace Forest

variable {P P' : Ref → List Ref} {S S' : Ref → Prop} {r : Ref} {l : List Ref}

/-- A part does not lead back to what contains it. -/
theorem not_reaches (hf : Forest P S) {a x : Ref} (hx : x ∈ P a) : ¬ Reaches P x a :=
  not_reaches_of_wf hf.wf hx

/-! ## Changing the parts of one value -/

/-- The parts of `r` were replaced: each new part was one before, or was
    contained in nothing, or is no slot and now stands in a loose slot, too. -/
theorem update (hf : Forest P S) (hP : ∀ a, a ≠ r → P' a = P a) (hS : ∀ a, a ≠ r → (S' a ↔ S a))
    (hSr : S r → S' r) (hnodup : (P' r).Nodup) (hr : ∀ x ∈ P' r, ¬ Reaches P x r)
    (hnew : ∀ x ∈ P' r, x ∈ P r ∨ Solo P x ∨ (S' r ∧ (∀ c, r ∉ P c) ∧ ¬ S x)) : Forest P' S' where
  wf := wf_update hf.wf hP hr
  nodup := fun a => by
    by_cases har : a = r
    · exact har ▸ hnodup
    · rw [hP a har]; exact hf.nodup a
  owner := by
    -- what was loose stays so if it shares a part with something else
    have hloose : ∀ a b x, a ≠ b → x ∈ P a → x ∈ P b → Loose P S a → Loose P' S' a := by
      intro a b x hab hxa hxb ⟨hSa, hPa⟩
      refine ⟨?_, fun c hc => ?_⟩
      · by_cases har : a = r
        · exact har ▸ hSr (har ▸ hSa)
        · exact (hS a har).2 hSa
      · by_cases hcr : c = r
        · subst hcr
          rcases hnew a hc with h | h | h
          · exact hPa c h
          · exact hab (h.2 x hxa b hxb).symm
          · exact h.2.2 hSa
        · rw [hP c hcr] at hc
          exact hPa c hc
    have hself : ∀ c, r ∉ P c → r ∉ P' c := by
      intro c hc hc'
      by_cases hcr : c = r
      · exact hr r (hcr ▸ hc') .refl
      · rw [hP c hcr] at hc'
        exact hc hc'
    -- the parts of `r` against those of another value
    have hpart : ∀ x b, b ≠ r → x ∈ P' r → x ∈ P b → Loose P' S' r ∨ Loose P' S' b := by
      intro x b hbr hxr hxb
      rcases hnew x hxr with h | h | ⟨hSr', hPr, -⟩
      · rcases hf.owner h hxb with hrb | hl | hl
        · exact absurd hrb.symm hbr
        · exact .inl (hloose r b x hbr.symm h hxb hl)
        · exact .inr (hloose b r x hbr hxb h hl)
      · exact absurd hxb (h.1 b)
      · exact .inl ⟨hSr', fun c => hself c (hPr c)⟩
    intro x a b hxa hxb
    by_cases hab : a = b
    · exact .inl hab
    right
    by_cases har : a = r
    · subst har
      rw [hP b (Ne.symm hab)] at hxb
      exact hpart x b (Ne.symm hab) hxa hxb
    rw [hP a har] at hxa
    by_cases hbr : b = r
    · subst hbr
      exact (hpart x a har hxb hxa).symm
    rw [hP b hbr] at hxb
    rcases hf.owner hxa hxb with h | h | h
    · exact absurd h hab
    · exact .inl (hloose a b x hab hxa hxb h)
    · exact .inr (hloose b a x (Ne.symm hab) hxb hxa h)

/-! ## Parts of one value -/

/-- What is reached from a part is contained in something. -/
theorem not_loose_of_reaches {a x z : Ref} (hx : x ∈ P a) (hz : Reaches P x z) : ¬ Loose P S z := by
  rintro ⟨-, hP⟩
  rcases hz.cases_tail with rfl | ⟨c, -, hc⟩
  · exact hP a hx
  · exact hP c hc

/-- Two parts of one value have nothing in common. -/
theorem disjoint_parts (hf : Forest P S) {a x y : Ref} (ha : ¬ S a) (hx : x ∈ P a) (hy : y ∈ P a)
    (hxy : x ≠ y) {z : Ref} (hz : Reaches P x z) : ¬ Reaches P y z := by
  have hla : ¬ Loose P S a := fun h => ha h.1
  have hlx : ∀ w, Reaches P x w → ¬ Loose P S w := fun w => not_loose_of_reaches hx
  have hly : ∀ w, Reaches P y w → ¬ Loose P S w := fun w => not_loose_of_reaches hy
  induction hz with
  | refl =>
    intro h
    rcases h.cases_tail with h | ⟨w, hyw, hw⟩
    · exact hxy h
    · rcases hf.owner hx hw with rfl | h | h
      · exact hf.not_reaches hy hyw
      · exact hla h
      · exact hly w hyw h
  | @tail w z hxw hz ih =>
    intro h
    rcases h.cases_tail with rfl | ⟨w', hyw, hw⟩
    · rcases hf.owner hy hz with rfl | h | h
      · exact hf.not_reaches hx hxw
      · exact hla h
      · exact hlx w hxw h
    · rcases hf.owner hz hw with rfl | h | h
      · exact ih hyw
      · exact hlx w hxw h
      · exact hly w' hyw h

/-- Of two values with something in common one is part of the other, if nothing in them
    stands in a loose slot. -/
theorem comparable (hf : Forest P S) {x y z : Ref} (hx : ∀ w, Reaches P x w → ¬ Loose P S w)
    (hy : ∀ w, Reaches P y w → ¬ Loose P S w) (hz : Reaches P x z) (hz' : Reaches P y z) :
    Reaches P x y ∨ Reaches P y x := by
  induction hz with
  | refl => exact .inr hz'
  | @tail w z hxw hz ih =>
    rcases hz'.cases_tail with rfl | ⟨w', hyw, hw⟩
    · exact .inl (hxw.tail hz)
    · rcases hf.owner hz hw with rfl | h | h
      · exact ih hyw
      · exact absurd h (hx w hxw)
      · exact absurd h (hy w' hyw)

end Forest

/-! ## Depth -/

section Reached

variable {α : Type} {D : Nat → α → Prop} {U : Finset α} (hmono : ∀ n a, D n a → D (n + 1) a)
  (hstep : ∀ n, (∀ a, D (n + 1) a → D n a) → ∀ a, D (n + 2) a → D (n + 1) a)
include hmono hstep

open Classical in
/-- Each step that reaches something new reaches something new in `U`, if nothing
    outside is reached later than in the first step. -/
theorem settled_or_card_le (hU : ∀ n a, a ∉ U → D (n + 1) a → D 1 a) (k : Nat) :
    (∀ a, D (k + 2) a → D (k + 1) a) ∨ k + 1 ≤ (U.filter (D (k + 2))).card := by
  by_cases hsettled : ∀ a, D (k + 2) a → D (k + 1) a
  · exact .inl hsettled
  right
  obtain ⟨a, ha, hnot⟩ : ∃ a, D (k + 2) a ∧ ¬ D (k + 1) a := by
    simpa only [not_forall, exists_prop] using hsettled
  have hgrows : (U.filter (D (k + 1))).card < (U.filter (D (k + 2))).card := by
    refine Finset.card_lt_card (Finset.ssubset_iff_of_subset ?_ |>.2 ⟨a, ?_, ?_⟩)
    · exact fun b hb => Finset.mem_filter.2 ((Finset.mem_filter.1 hb).imp_right (hmono _ b))
    · refine Finset.mem_filter.2 ⟨by_contra fun haU => hnot ?_, ha⟩
      exact Nat.le_induction (hU _ a haU ha) (fun n _ => hmono n a) (k + 1) (Nat.le_add_left 1 k)
    · exact fun hb => hnot (Finset.mem_filter.1 hb).2
  cases k with
  | zero => exact Nat.zero_lt_of_lt hgrows
  | succ k =>
    rcases settled_or_card_le hU k with hk | hk
    · exact absurd (hstep _ hk) hsettled
    · exact Nat.succ_le_of_lt (Nat.lt_of_le_of_lt hk hgrows)

open Classical in
/-- What is reached at all is reached within as many steps as there are things in `U`,
    and one more. -/
theorem reached_of_card (hU : ∀ n a, a ∉ U → D (n + 1) a → D 1 a) {n : Nat} {a : α} (h : D n a) :
    D (U.card + 1) a := by
  have hsettled (a : α) : D (U.card + 2) a → D (U.card + 1) a := by
    rcases settled_or_card_le hmono hstep hU U.card with hs | hcard
    · exact hs a
    · exact absurd (hcard.trans (Finset.card_filter_le U _)) (Nat.not_succ_le_self _)
  have hlater (k : Nat) : ∀ a, D (U.card + 1 + k + 1) a → D (U.card + 1 + k) a := by
    induction k with
    | zero => exact hsettled
    | succ k ih => exact hstep _ ih
  have hback (k : Nat) (ha : D (U.card + 1 + k) a) : D (U.card + 1) a := by
    induction k with
    | zero => exact ha
    | succ k ih => exact ih (hlater k a ha)
  have hforth (k : Nat) (hk : n ≤ k) : D k a := Nat.le_induction h (fun j _ => hmono j a) k hk
  exact hback n (hforth _ (Nat.le_add_left n _))

end Reached

/-- A bound that allows for one more level. -/
theorem exists_of_succ_le {n k : Nat} (hk : n + 1 ≤ k) : ∃ j, k = j + 1 ∧ n ≤ j :=
  ⟨k - 1, by omega, by omega⟩

/-- Parts are nested at most `n` levels deep, the value itself being the first. -/
def Shallow {α : Type} (P : α → List α) : Nat → α → Prop
  | 0, _ => False
  | n + 1, a => ∀ x ∈ P a, Shallow P n x

namespace Shallow

variable {α : Type} {P P' : α → List α} {n k : Nat} {a : α}

/-- Only what is reached counts. -/
theorem congr (h : Shallow P n a) (hP : ∀ b, Reaches P a b → P' b = P b) : Shallow P' n a := by
  induction n generalizing a with
  | zero => exact h
  | succ n ih =>
    intro x hx
    rw [hP a .refl] at hx
    exact ih (h x hx) fun b hb => hP b (.head hx hb)

theorem mono (h : Shallow P n a) (hk : n ≤ k) : Shallow P k a := by
  induction n generalizing k a with
  | zero => exact h.elim
  | succ n ih =>
    obtain ⟨k, rfl, hle⟩ := exists_of_succ_le hk
    exact fun x hx => ih (h x hx) hle

open Classical in
/-- What of `U` is below. -/
noncomputable def below (P : α → List α) (U : Finset α) (a : α) : Finset α :=
  U.filter fun b => ∃ x ∈ P a, Reaches P x b

theorem mem_below {U : Finset α} {b : α} : b ∈ below P U a ↔ b ∈ U ∧ ∃ x ∈ P a, Reaches P x b := by
  simp [below]

section Acyclic

variable {U : Finset α} (hP : ∀ b, Reaches P a b → ∀ x ∈ P b, ¬ Reaches P x b)
  (hU : ∀ b, Reaches P a b → ∀ x ∈ P b, x ∈ U)
include hP hU

theorem card_below_lt {x : α} (hx : x ∈ P a) : (below P U x).card < (below P U a).card := by
  refine Finset.card_lt_card (Finset.ssubset_iff_subset_ne.2 ⟨fun b hb => ?_, fun he => ?_⟩)
  · obtain ⟨hbU, y, hy, hyb⟩ := mem_below.1 hb
    exact mem_below.2 ⟨hbU, x, hx, .head hy hyb⟩
  · have hmem : x ∈ below P U x := he ▸ mem_below.2 ⟨hU a .refl x hx, x, hx, .refl⟩
    obtain ⟨-, y, hy, hyx⟩ := mem_below.1 hmem
    exact hP x (.single hx) y hy hyx

theorem of_card_below (hn : (below P U a).card < n) : Shallow P n a := by
  induction n generalizing a with
  | zero => exact absurd hn (Nat.not_lt_zero _)
  | succ n ih =>
    intro x hx
    refine ih (fun b hb => hP b (.head hx hb)) (fun b hb => hU b (.head hx hb)) ?_
    exact Nat.lt_of_lt_of_le (card_below_lt hP hU hx) (Nat.le_of_lt_succ hn)

/-- Where nothing leads back to itself, nothing is nested deeper than there are
    parts. -/
theorem of_acyclic : Shallow P (U.card + 1) a := by
  refine of_card_below hP hU (Nat.lt_succ_of_le (Finset.card_le_card fun b hb => ?_))
  exact (mem_below.1 hb).1

end Acyclic

/-- What is nested to some depth does not contain itself, nor does anything in it. -/
theorem acyclic (h : Shallow P n a) {b : α} (hb : Reaches P a b) :
    ¬ Relation.TransGen (fun a b => b ∈ P a) b b := by
  induction n generalizing a b with
  | zero => exact h.elim
  | succ n ih =>
    intro hcycle
    rcases hb.cases_head with rfl | ⟨x, hx, hxb⟩
    · obtain ⟨x, hx, hxa⟩ := Relation.TransGen.head'_iff.1 hcycle
      exact ih (h x hx) hxa hcycle
    · exact ih (h x hx) hxb hcycle

/-- Nothing is nested deeper than there are values. -/
theorem of_wf {P : Ref → List Ref} (hwf : WellFounded fun x a => x ∈ P a) {N : Nat}
    (hN : ∀ a, ∀ x ∈ P a, x.id < N) (a : Ref) : Shallow P (N + 1) a := by
  have hinj : Function.Injective Ref.mk := fun _ _ h => Ref.mk.inj h
  have hU : ∀ a, ∀ x ∈ P a, x ∈ (Finset.range N).map ⟨Ref.mk, hinj⟩ := fun a x hx =>
    Finset.mem_map.2 ⟨x.id, Finset.mem_range.2 (hN a x hx), rfl⟩
  have h : Shallow P _ a := of_acyclic (fun _ _ _ hx => not_reaches_of_wf hwf hx) fun b _ => hU b
  rwa [Finset.card_map, Finset.card_range] at h

end Shallow

end Treewalk
