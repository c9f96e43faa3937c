/-
  Well-declared programs.

  * `Program.WellDeclared p`: compounds are known by their own names, no compound
    descends from itself or holds a value of its own kind, and no two fields
    along a lineage have one name;
  * `Program.Storable p ty`: the type is made of numbers, pointers, declared
    compounds and sized arrays;
  * `WellDeclared.isPrefix_allFields`: what a class declares and inherits is what
    a subclass inherits first;
  * `Program.Founded p ty`: no compound in a value of the type contains itself;
  * `shallow_heldBy_iff`: just then compounds are nested no deeper than their
    number.

  Lineages and nested compounds are followed for a number of steps that depends
  on the size of the program.
-/
import Treewalk.Memory.Zero
import Treewalk.Proofs.Forest
import Mathlib.Data.Finset.Dedup

namespace Treewalk

/-- The compound that a value of the type is or has in its elements. What a
    pointer points at is not held. -/
def Ty.held? : Ty → Option String
  | .compound _ name => some name
  | .array element _ => element.held?
  | .const inner => inner.held?
  | .primitive .. | .pointer _ => none

namespace Program

variable {p : Program} {name name' : String}

/-- A number, a pointer, a declared compound, or a sized array of these. -/
def Storable (p : Program) : Ty → Prop
  | .primitive k _ => k ≠ .void
  | .pointer _ => True
  | .array element (some _) => p.Storable element
  | .array _ none => False
  | .compound _ name => (p.compound? name).isSome
  | .const inner => p.Storable inner

instance decidableStorable (p : Program) : (ty : Ty) → Decidable (p.Storable ty)
  | .primitive k _ => inferInstanceAs (Decidable (k ≠ .void))
  | .pointer _ => isTrue trivial
  | .array element (some _) => decidableStorable p element
  | .array _ none => isFalse id
  | .compound _ name => inferInstanceAs (Decidable ((p.compound? name).isSome))
  | .const inner => decidableStorable p inner

theorem Storable.element {ty : Ty} {n : Option Nat} (h : p.Storable (.array ty n)) : p.Storable ty := by
  cases n with
  | none => exact h.elim
  | some n => exact h

theorem Storable.unqualified {ty : Ty} (h : p.Storable ty) : p.Storable ty.unqualified := by
  induction ty with
  | const inner ih => exact ih h
  | _ => exact h

/-- The parent of a compound, if it is declared. -/
def parent? (p : Program) (name : String) : Option String :=
  ((p.compound? name).bind Compound.parent).filter fun parent => (p.compound? parent).isSome

/-- The compounds that the fields of a compound hold. -/
def heldBy (p : Program) (name : String) : List String :=
  (p.allFields name).filterMap fun f => f.ty.held?

/-- Names are keys, neither descent nor containment leads back, and fields of
    one lineage have different names. -/
structure WellDeclared (p : Program) : Prop where
  keyed : ∀ name c, p.compound? name = some c → c.name = name
  descent : ∀ name, ¬ Relation.TransGen (fun a b => p.parent? a = some b) name name
  distinct : ∀ name, ((p.allFields name).map Field.name).Nodup
  containment : ∀ name, ¬ Relation.TransGen (fun a b => b ∈ p.heldBy a) name name

theorem mem_keys_of_compound? (h : (p.compound? name).isSome) : name ∈ p.compounds.keys := by
  obtain ⟨c, hc⟩ := Option.isSome_iff_exists.1 h
  exact List.mem_map_of_mem (Dict.mem_of_find? hc)

theorem card_keys (p : Program) : p.compounds.keys.toFinset.card + 1 = p.levels := by
  rw [Dict.keys, List.toFinset_card_of_nodup p.compounds.nodup, List.length_map]
  rfl

/-- Among declared compounds nothing is nested deeper than their number, if
    nothing leads back to itself. -/
theorem shallow_of_acyclic {P : String → List String}
    (hacyclic : ∀ name, ¬ Relation.TransGen (fun a b => b ∈ P a) name name)
    (hdeclared : ∀ a, ∀ b ∈ P a, (p.compound? b).isSome) (name : String) :
    Shallow P p.levels name := by
  rw [← p.card_keys]
  refine Shallow.of_acyclic (fun a _ b hb hreach => hacyclic a (.head' hb hreach)) fun a _ b hb => ?_
  exact List.mem_toFinset.2 (mem_keys_of_compound? (hdeclared a b hb))

/-! ## Lineages -/

theorem rank_lt_of_transGen {α : Type} {R : α → α → Prop} {rank : α → Nat}
    (hR : ∀ a b, R a b → rank b < rank a) {a b : α} (h : Relation.TransGen R a b) :
    rank b < rank a := by
  induction h with
  | single hab => exact hR _ _ hab
  | tail _ hbc ih => exact (hR _ _ hbc).trans ih

theorem ancestry_none (p : Program) (n : Nat) : p.ancestry n none = [] := by
  cases n <;> rfl

/-- What is not declared has neither a parent nor fields. -/
theorem mem_entries_or (p : Program) (name : String) :
    (∃ c, (name, c) ∈ p.compounds.entries) ∨ p.parent? name = none ∧ p.allFields name = [] := by
  cases hc : p.compound? name with
  | none => exact .inr ⟨by simp [parent?, hc], by simp [allFields, lineage, hc, ancestry_none]⟩
  | some c => exact .inl ⟨c, Dict.mem_of_find? hc⟩

/-- Of all fields only those of declared compounds have to be looked at. -/
theorem storable_of_entries
    (h : ∀ e ∈ p.compounds.entries, ∀ f ∈ p.allFields e.1, p.Storable f.ty) (name : String) :
    ∀ f ∈ p.allFields name, p.Storable f.ty := by
  rcases p.mem_entries_or name with ⟨c, hc⟩ | ⟨-, hnone⟩
  · exact h (name, c) hc
  · rw [hnone]
    exact nofun

/-- A program is well declared if its compounds can be ranked, each above its
    parent and above those it holds. -/
theorem WellDeclared.of_rank (rank : String → Nat)
    (hkeyed : ∀ e ∈ p.compounds.entries, e.2.name = e.1)
    (hparent : ∀ e ∈ p.compounds.entries, ∀ b ∈ p.parent? e.1, rank b < rank e.1)
    (hdistinct : ∀ e ∈ p.compounds.entries, ((p.allFields e.1).map Field.name).Nodup)
    (hheld : ∀ e ∈ p.compounds.entries, ∀ b ∈ p.heldBy e.1, rank b < rank e.1) :
    p.WellDeclared := by
  refine ⟨fun a c hc => hkeyed (a, c) (Dict.mem_of_find? hc), fun a hcycle => ?_, fun a => ?_,
    fun a hcycle => ?_⟩
  · refine Nat.lt_irrefl (rank a) (rank_lt_of_transGen (fun a b hb => ?_) hcycle)
    rcases p.mem_entries_or a with ⟨c, hc⟩ | ⟨hnone, -⟩
    · exact hparent (a, c) hc b hb
    · rw [hnone] at hb
      cases hb
  · rcases p.mem_entries_or a with ⟨c, hc⟩ | ⟨-, hnone⟩
    · exact hdistinct (a, c) hc
    · simp [hnone]
  · refine Nat.lt_irrefl (rank a) (rank_lt_of_transGen (fun a b hb => ?_) hcycle)
    rcases p.mem_entries_or a with ⟨c, hc⟩ | ⟨-, hnone⟩
    · exact hheld (a, c) hc b hb
    · simp [heldBy, hnone] at hb

/-- A lineage is the compound, followed by the lineage of its parent. -/
theorem ancestry_parent {c : Compound} (hc : p.compound? name = some c) (n : Nat) :
    p.ancestry n (c.parent.bind p.compound?) =
      ((p.parent? name).map fun q => p.ancestry n (p.compound? q)).getD [] := by
  cases hq : c.parent with
  | none => simp [parent?, hc, hq, ancestry_none]
  | some q =>
    cases hk : p.compound? q with
    | none => simp [parent?, hc, hq, hk, ancestry_none, Option.filter]
    | some k => simp [parent?, hc, hq, hk, Option.filter]

/-- More steps than there are ancestors find no others. -/
theorem ancestry_of_shallow {n k : Nat} (h : Shallow (fun a => (p.parent? a).toList) n name)
    (hk : n ≤ k) : p.ancestry k (p.compound? name) = p.ancestry n (p.compound? name) := by
  induction n generalizing k name with
  | zero => exact h.elim
  | succ n ih =>
    obtain ⟨k, rfl, hle⟩ := exists_of_succ_le hk
    cases hc : p.compound? name with
    | none => simp only [ancestry_none]
    | some c =>
      simp only [ancestry, ancestry_parent hc]
      cases hq : p.parent? name with
      | none => rfl
      | some q =>
        have hq' := h q (by simp [hq])
        simp [ih hq' hle]

namespace WellDeclared

variable (hp : p.WellDeclared)
include hp

theorem shallow_parent (name : String) : Shallow (fun a => (p.parent? a).toList) p.levels name := by
  refine shallow_of_acyclic (fun name hcycle => hp.descent name ?_) (fun a b hb => ?_) name
  · exact hcycle.lift id fun a b hb => Option.mem_toList.1 hb
  · exact (Option.filter_eq_some_iff.1 (Option.mem_toList.1 hb)).2

theorem lineage_eq {c : Compound} (hc : p.compound? name = some c) :
    p.lineage name = c :: ((p.parent? name).map p.lineage).getD [] := by
  have hlineage : p.lineage name = c :: p.ancestry p.compounds.size (c.parent.bind p.compound?) := by
    rw [lineage, hc]
    rfl
  rw [hlineage, ancestry_parent hc]
  cases hq : p.parent? name with
  | none => rfl
  | some q =>
    have hq' : Shallow (fun a => (p.parent? a).toList) p.compounds.size q :=
      hp.shallow_parent name q (by simp [hq])
    simp [lineage, ancestry_of_shallow hq' (Nat.le_succ _)]

/-- The lineage of an ancestor is the end of the lineage. -/
theorem isSuffix_lineage {c : Compound} (hc : c ∈ p.lineage name) :
    p.lineage c.name <:+ p.lineage name := by
  have hdepth := hp.shallow_parent name
  generalize p.levels = n at hdepth
  induction n generalizing name with
  | zero => exact hdepth.elim
  | succ n ih =>
    cases hk : p.compound? name with
    | none =>
      rw [lineage, hk, ancestry_none] at hc
      cases hc
    | some k =>
      rw [hp.lineage_eq hk] at hc ⊢
      rcases List.mem_cons.1 hc with rfl | hc
      · rw [hp.keyed name c hk, hp.lineage_eq hk]
      · cases hq : p.parent? name with
        | none => simp [hq] at hc
        | some q =>
          simp only [hq, Option.map_some, Option.getD_some] at hc ⊢
          exact (ih hc (hdepth q (by simp [hq]))).trans (List.suffix_cons ..)

/-- What a class declares and inherits is what a subclass inherits first. -/
theorem isPrefix_allFields (h : p.isSubclass name' name) :
    p.allFields name <+: p.allFields name' := by
  obtain ⟨c, hc, hname⟩ := List.any_eq_true.1 h
  obtain ⟨nearer, hnearer⟩ := hp.isSuffix_lineage hc
  rw [eq_of_beq hname] at hnearer
  refine ⟨nearer.reverse.flatMap Compound.fields, ?_⟩
  rw [allFields, allFields, ← hnearer, List.reverse_append, List.flatMap_append]

end WellDeclared

/-! ## Nested compounds -/

theorem isSome_of_storable {ty : Ty} (h : p.Storable ty) (hheld : ty.held? = some name) :
    (p.compound? name).isSome := by
  fun_induction Ty.held? ty with
  | case1 form name' =>
    cases hheld
    exact h
  | case2 element size ih => exact ih h.element hheld
  | case3 inner ih => exact ih h hheld
  | case4 | case5 => cases hheld

/-- A value of the type has a compound of the name in it, at some depth. -/
def Contains (p : Program) (ty : Ty) (name : String) : Prop :=
  ∃ outer, ty.held? = some outer ∧ Reaches p.heldBy outer name

/-- No compound in a value of the type contains itself, be it in an array of no
    elements. -/
def Founded (p : Program) (ty : Ty) : Prop :=
  ∀ name, p.Contains ty name → ¬ Relation.TransGen (fun a b => b ∈ p.heldBy a) name name

theorem heldBy_of_not_mem (h : name ∉ p.compounds.keys) : p.heldBy name = [] := by
  rcases p.mem_entries_or name with ⟨c, hc⟩ | ⟨-, hnone⟩
  · exact absurd (List.mem_map_of_mem hc) h
  · rw [heldBy, hnone]
    rfl

/-- Compounds that are nested to any depth at all are nested no deeper than new
    values are made. -/
theorem shallow_levels {n : Nat} (h : Shallow p.heldBy n name) : Shallow p.heldBy p.levels name := by
  rw [← p.card_keys]
  refine reached_of_card (D := Shallow p.heldBy) (fun n _ hn => hn.mono n.le_succ) ?_ ?_ h
  · exact fun n hn a ha x hx => hn x (ha x hx)
  · intro _ a hkeys _ x hx
    rw [heldBy_of_not_mem fun hmem => hkeys (List.mem_toFinset.2 hmem)] at hx
    cases hx

/-- The levels suffice just if nothing contains itself. -/
theorem shallow_heldBy_iff : Shallow p.heldBy p.levels name ↔ ∀ inner, Reaches p.heldBy name inner →
    ¬ Relation.TransGen (fun a b => b ∈ p.heldBy a) inner inner := by
  refine ⟨fun h inner hinner => h.acyclic hinner, fun hacyclic => ?_⟩
  have hshallow := Shallow.of_acyclic (U := (p.compounds.keys.flatMap p.heldBy).toFinset)
    (fun a ha b hb hreach => hacyclic a ha (.head' hb hreach)) fun a _ b hb => by
      refine List.mem_toFinset.2 (List.mem_flatMap.2 ⟨a, ?_, hb⟩)
      by_contra hkeys
      rw [heldBy_of_not_mem hkeys] at hb
      cases hb
  exact shallow_levels hshallow

theorem WellDeclared.shallow_heldBy (hp : p.WellDeclared) (name : String) :
    Shallow p.heldBy p.levels name :=
  shallow_heldBy_iff.2 fun inner _ => hp.containment inner

end Program

end Treewalk
