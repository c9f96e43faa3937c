/-
  Lineages in any hierarchy.

  Parents may be missing, a compound may be its own parent, and parents may lead
  back to where they started. A lineage is followed for a number of steps that
  depends on the number of compounds.

  * `Program.Parent p a b`: the compound `a` names `b` as its parent, declared or not;
  * `Program.Acyclic p name`: from `name` on, parents lead back to nothing;
  * `Program.Chain p name l`: `l` is the compound followed by all its ancestors, up to
    one that names no parent, or names one that is not declared;
  * `mem_lineage_iff`: a lineage has every ancestor, however many steps away;
  * `subclass_reachable`: what lineages are, and that subclasses are those from which
    parents lead to the base.
-/
import Treewalk.Proofs.Declared
import Mathlib.Data.List.Nodup
import Mathlib.Data.List.Perm.Subperm
import Mathlib.Logic.Function.Iterate

namespace Treewalk.Program

variable {p : Program} {name a b d : String} {c : Compound} {l : List Compound}

/-! ## Parents -/

/-- Compounds are found by their own names. -/
def Keyed (p : Program) : Prop :=
  ∀ name c, p.compound? name = some c → c.name = name

/-- The compound `a` names `b` as its parent. -/
def Parent (p : Program) (a b : String) : Prop :=
  ∃ c, p.compound? a = some c ∧ c.parent = some b

/-- From the compound on, parents lead back to nothing. -/
def Acyclic (p : Program) (name : String) : Prop :=
  ∀ a, Relation.ReflTransGen p.Parent name a → ¬ Relation.TransGen p.Parent a a

/-- The compound followed by all its ancestors, nearest first. -/
inductive Chain (p : Program) : String → List Compound → Prop
  | undeclared {name : String} : p.compound? name = none → Chain p name []
  | root {name : String} {c : Compound} : p.compound? name = some c → c.parent = none → Chain p name [c]
  | child {name parent : String} {c : Compound} {rest : List Compound} : p.compound? name = some c →
      c.parent = some parent → Chain p parent rest → Chain p name (c :: rest)

/-- The declared parent. -/
def up (p : Program) (o : Option Compound) : Option Compound :=
  o.bind fun c => c.parent.bind p.compound?

theorem up_iterate_none (p : Program) (k : Nat) : p.up^[k] none = none :=
  Function.iterate_fixed rfl k

/-- Where nothing is up, nothing is further up. -/
theorem up_eq_none_of_le {i j : Nat} {o : Option Compound} (hi : p.up^[i] o = none) (hij : i ≤ j) :
    p.up^[j] o = none := by
  obtain ⟨m, rfl⟩ := Nat.exists_eq_add_of_le' hij
  rw [Function.iterate_add_apply, hi, up_iterate_none]

/-! ## Steps -/

/-- A step from a declared compound leads to a declared one. -/
theorem up_eq_some (hc : p.up (p.compound? a) = some c) : ∃ b, p.Parent a b ∧ p.compound? b = some c := by
  obtain ⟨c', hc', hup⟩ := Option.bind_eq_some_iff.1 hc
  obtain ⟨b, hb, hcb⟩ := Option.bind_eq_some_iff.1 hup
  exact ⟨b, ⟨c', hc', hb⟩, hcb⟩

/-- What is some steps up is reached by parents. -/
theorem exists_of_up {k : Nat} (hc : p.up^[k] (p.compound? a) = some c) :
    ∃ b, Relation.ReflTransGen p.Parent a b ∧ p.compound? b = some c := by
  induction k generalizing c with
  | zero => exact ⟨a, .refl, hc⟩
  | succ k ih =>
    rw [Function.iterate_succ_apply'] at hc
    cases hk : p.up^[k] (p.compound? a) with
    | none =>
      rw [hk] at hc
      cases hc
    | some c' =>
      obtain ⟨b, hab, hb⟩ := ih hk
      rw [hk, ← hb] at hc
      obtain ⟨b', hbb', hb'⟩ := up_eq_some hc
      exact ⟨b', hab.tail hbb', hb'⟩

/-- One step or more up is reached by one parent or more. -/
theorem exists_of_up_succ {k : Nat} (hc : p.up^[k + 1] (p.compound? a) = some c) :
    ∃ b, Relation.TransGen p.Parent a b ∧ p.compound? b = some c := by
  rw [Function.iterate_succ_apply] at hc
  cases ha : p.up (p.compound? a) with
  | none =>
    rw [ha, up_iterate_none] at hc
    cases hc
  | some c' =>
    obtain ⟨a', haa', ha'⟩ := up_eq_some ha
    rw [ha, ← ha'] at hc
    obtain ⟨b, hab, hb⟩ := exists_of_up hc
    exact ⟨b, .head' haa' hab, hb⟩

/-- What parents reach is some steps up. -/
theorem exists_up (hab : Relation.ReflTransGen p.Parent a b) (hb : p.compound? b = some c) :
    ∃ k, p.up^[k] (p.compound? a) = some c := by
  induction hab generalizing c with
  | refl => exact ⟨0, hb⟩
  | tail _ hstep ih =>
    obtain ⟨c', hc', hparent⟩ := hstep
    obtain ⟨k, hk⟩ := ih hc'
    refine ⟨k + 1, ?_⟩
    rw [Function.iterate_succ_apply', hk]
    simpa [up, hparent] using hb

/-! ## How many steps there are -/

/-- As long as steps lead through different compounds, there are fewer steps than
    compounds. -/
theorem lt_of_distinct {k : Nat} (hk : (p.up^[k] (p.compound? name)).isSome)
    (hdistinct : ∀ i j, i < j → j ≤ k → p.up^[i] (p.compound? name) ≠ p.up^[j] (p.compound? name)) :
    k < p.compounds.size := by
  let steps := (List.range (k + 1)).map fun i => p.up^[i] (p.compound? name)
  have hnodup : steps.Nodup := by
    refine List.Nodup.map_on (fun i hi j hj hij => ?_) List.nodup_range
    have hi := Nat.lt_succ_iff.1 (List.mem_range.1 hi)
    have hj := Nat.lt_succ_iff.1 (List.mem_range.1 hj)
    rcases Nat.lt_trichotomy i j with hlt | heq | hlt
    · exact absurd hij (hdistinct i j hlt hj)
    · exact heq
    · exact absurd hij.symm (hdistinct j i hlt hi)
  have hsubset : steps ⊆ p.compounds.entries.map fun e => some e.2 := by
    intro o ho
    obtain ⟨i, hi, rfl⟩ := List.mem_map.1 ho
    cases hc : p.up^[i] (p.compound? name) with
    | none =>
      rw [up_eq_none_of_le hc (Nat.lt_succ_iff.1 (List.mem_range.1 hi))] at hk
      cases hk
    | some c =>
      obtain ⟨b, -, hb⟩ := exists_of_up hc
      exact List.mem_map_of_mem (f := fun e => some e.2) (Dict.mem_of_find? hb)
  have hle : steps.length ≤ _ := (List.subperm_of_subset hnodup hsubset).length_le
  rw [List.length_map, List.length_map, List.length_range] at hle
  exact hle

/-- What is up at all is up before there are more steps than compounds. -/
theorem exists_lt_of_up {k : Nat} (hk : p.up^[k] (p.compound? name) = some c) :
    ∃ k < p.compounds.size, p.up^[k] (p.compound? name) = some c := by
  classical
  have hex : ∃ k, p.up^[k] (p.compound? name) = some c := ⟨k, hk⟩
  have hfound := Nat.find_spec hex
  refine ⟨Nat.find hex, lt_of_distinct (Option.isSome_of_eq_some hfound) fun i j hij hj heq => ?_, hfound⟩
  -- a compound met twice gives a shorter way to what is found first
  obtain ⟨m, hm⟩ := Nat.exists_eq_add_of_le' hj
  have hshort : p.up^[m + i] (p.compound? name) = some c := by
    rw [Function.iterate_add_apply, heq, ← Function.iterate_add_apply, ← hm]
    exact hfound
  exact Nat.find_min hex (by omega) hshort

/-- Where parents lead back to nothing, they end. -/
theorem up_eq_none (hkeyed : p.Keyed) (hacyclic : p.Acyclic name) :
    p.up^[p.compounds.size] (p.compound? name) = none := by
  by_contra hsome
  refine absurd (lt_of_distinct (Option.isSome_iff_ne_none.2 hsome) fun i j hij hj heq => ?_)
    (Nat.lt_irrefl _)
  obtain ⟨m, hm⟩ := Nat.exists_eq_add_of_lt hij
  have hi : p.up^[i] (p.compound? name) ≠ none := fun hi => hsome (up_eq_none_of_le hi (hij.le.trans hj))
  obtain ⟨c, hc⟩ := Option.ne_none_iff_exists'.1 hi
  obtain ⟨a, hreach, ha⟩ := exists_of_up hc
  have hagain : p.up^[m + 1] (p.compound? a) = some c := by
    rw [ha, ← hc, ← Function.iterate_add_apply, show m + 1 + i = j by omega, heq]
  obtain ⟨b, hab, hb⟩ := exists_of_up_succ hagain
  have hba : b = a := (hkeyed b c hb).symm.trans (hkeyed a c ha)
  exact hacyclic a hreach (hba ▸ hab)

/-! ## Lineages -/

theorem length_ancestry_le (p : Program) (n : Nat) (o : Option Compound) :
    (p.ancestry n o).length ≤ n := by
  fun_induction ancestry p n o with
  | case1 | case2 => exact Nat.zero_le _
  | case3 n c ih => exact Nat.succ_le_succ ih

theorem mem_ancestry_iff {n : Nat} {o : Option Compound} :
    c ∈ p.ancestry n o ↔ ∃ k < n, p.up^[k] o = some c := by
  induction n generalizing o with
  | zero => simp [ancestry]
  | succ n ih =>
    cases o with
    | none => simp [ancestry, up_iterate_none]
    | some c' =>
      rw [ancestry, List.mem_cons, show c'.parent.bind p.compound? = p.up (some c') from rfl, ih]
      constructor
      · rintro (rfl | ⟨k, hk, hc⟩)
        · exact ⟨0, Nat.succ_pos n, rfl⟩
        · exact ⟨k + 1, Nat.succ_lt_succ hk, hc⟩
      · rintro ⟨k, hk, hc⟩
        cases k with
        | zero => exact .inl (Option.some.inj hc).symm
        | succ k => exact .inr ⟨k, Nat.lt_of_succ_lt_succ hk, hc⟩

/-- A lineage has every ancestor, whatever the hierarchy. -/
theorem mem_lineage_iff :
    c ∈ p.lineage name ↔ ∃ b, Relation.ReflTransGen p.Parent name b ∧ p.compound? b = some c := by
  rw [lineage, mem_ancestry_iff]
  constructor
  · rintro ⟨k, -, hc⟩
    exact exists_of_up hc
  · rintro ⟨b, hb, hc⟩
    obtain ⟨k, hk⟩ := exists_up hb hc
    obtain ⟨k, hlt, hk⟩ := exists_lt_of_up hk
    exact ⟨k, Nat.lt_succ_of_lt hlt, hk⟩

/-- Where the steps end, all of them were taken. -/
theorem chain_ancestry {n : Nat} (hn : p.up^[n] (p.compound? name) = none) :
    p.Chain name (p.ancestry n (p.compound? name)) := by
  induction n generalizing name with
  | zero => exact .undeclared hn
  | succ n ih =>
    cases hc : p.compound? name with
    | none => exact .undeclared hc
    | some c =>
      rw [hc, Function.iterate_succ_apply] at hn
      rw [ancestry]
      cases hq : c.parent with
      | none =>
        rw [Option.bind_none, ancestry_none]
        exact .root hc hq
      | some parent =>
        have hup : p.up (some c) = p.compound? parent := by simp [up, hq]
        exact .child hc hq (ih (hup ▸ hn))

theorem Chain.exists_of_mem (hl : p.Chain name l) (hc : c ∈ l) :
    ∃ b, Relation.ReflTransGen p.Parent name b ∧ p.compound? b = some c := by
  induction hl with
  | undeclared => cases hc
  | root hk _ => exact ⟨_, .refl, (List.mem_singleton.1 hc) ▸ hk⟩
  | child hk hparent _ ih =>
    rcases List.mem_cons.1 hc with rfl | hc
    · exact ⟨_, .refl, hk⟩
    · obtain ⟨b, hb, hcb⟩ := ih hc
      exact ⟨b, .head ⟨_, hk, hparent⟩ hb, hcb⟩

/-- No compound stands twice in a chain that leads back to nothing. -/
theorem Chain.nodup (hl : p.Chain name l) (hkeyed : p.Keyed) (hacyclic : p.Acyclic name) :
    (l.map Compound.name).Nodup := by
  induction hl with
  | undeclared => exact List.nodup_nil
  | root => exact List.nodup_singleton _
  | @child name parent c rest hc hparent hrest ih =>
    have hstep : p.Parent name parent := ⟨c, hc, hparent⟩
    rw [List.map_cons, List.nodup_cons]
    refine ⟨fun hmem => ?_, ih fun a ha => hacyclic a (.head hstep ha)⟩
    obtain ⟨k, hk, hname⟩ := List.mem_map.1 hmem
    obtain ⟨b, hb, hkb⟩ := hrest.exists_of_mem hk
    have hbn : b = name := (hkeyed b k hkb).symm.trans (hname.trans (hkeyed name c hc))
    exact hacyclic name .refl (.head' hstep (hbn ▸ hb))

theorem Chain.unique {l' : List Compound} (hl : p.Chain name l) (hl' : p.Chain name l') : l = l' := by
  induction hl generalizing l' with
  | undeclared hnone =>
    cases hl' with
    | undeclared => rfl
    | root hc | child hc => cases hnone.symm.trans hc
  | root hc hparent =>
    cases hl' with
    | undeclared hnone => cases hnone.symm.trans hc
    | root hc' => rw [Option.some.inj (hc.symm.trans hc')]
    | child hc' hparent' =>
      cases hc.symm.trans hc'
      cases hparent.symm.trans hparent'
  | child hc hparent _ ih =>
    cases hl' with
    | undeclared hnone => cases hnone.symm.trans hc
    | root hc' hparent' =>
      cases hc.symm.trans hc'
      cases hparent.symm.trans hparent'
    | child hc' hparent' hrest' =>
      cases hc.symm.trans hc'
      cases hparent.symm.trans hparent'
      rw [ih hrest']

/-- The chain of a parent is shorter. -/
theorem Chain.parent (hl : p.Chain a l) (hab : p.Parent a b) :
    ∃ l', p.Chain b l' ∧ l'.length < l.length := by
  obtain ⟨c, hc, hparent⟩ := hab
  cases hl with
  | undeclared hnone => cases hnone.symm.trans hc
  | root hc' hparent' =>
    cases hc.symm.trans hc'
    cases hparent.symm.trans hparent'
  | child hc' hparent' hrest =>
    cases hc.symm.trans hc'
    cases hparent.symm.trans hparent'
    exact ⟨_, hrest, Nat.lt_succ_self _⟩

/-- Where there is a chain, parents lead back to nothing. -/
theorem Chain.acyclic (hl : p.Chain name l) : p.Acyclic name := by
  have hdescends {a b : String} {l : List Compound} (hl : p.Chain a l)
      (hab : Relation.TransGen p.Parent a b) : ∃ l', p.Chain b l' ∧ l'.length < l.length := by
    induction hab with
    | single hstep => exact hl.parent hstep
    | tail _ hstep ih =>
      obtain ⟨l₁, hl₁, hlt₁⟩ := ih
      obtain ⟨l₂, hl₂, hlt₂⟩ := hl₁.parent hstep
      exact ⟨l₂, hl₂, hlt₂.trans hlt₁⟩
  intro a hreach hcycle
  obtain ⟨l₁, hl₁⟩ : ∃ l₁, p.Chain a l₁ := by
    rcases Relation.reflTransGen_iff_eq_or_transGen.1 hreach with rfl | hreach
    · exact ⟨l, hl⟩
    · obtain ⟨l₁, hl₁, -⟩ := hdescends hl hreach
      exact ⟨l₁, hl₁⟩
  obtain ⟨l₂, hl₂, hlt⟩ := hdescends hl₁ hcycle
  rw [hl₁.unique hl₂] at hlt
  exact Nat.lt_irrefl _ hlt

theorem isSubclass_iff (hkeyed : p.Keyed) : p.isSubclass d b ↔
    (p.compound? d).isSome ∧ (p.compound? b).isSome ∧ Relation.ReflTransGen p.Parent d b := by
  unfold isSubclass
  simp only [List.any_eq_true, beq_iff_eq, mem_lineage_iff]
  constructor
  · rintro ⟨c, ⟨a, hreach, ha⟩, rfl⟩
    rw [← hkeyed a c ha] at hreach ha
    refine ⟨?_, by simp [ha], hreach⟩
    rcases hreach.cases_head with heq | ⟨_, ⟨c', hc', -⟩, -⟩
    · simp [heq, ha]
    · simp [hc']
  · rintro ⟨-, hb, hreach⟩
    obtain ⟨c, hc⟩ := Option.isSome_iff_exists.1 hb
    exact ⟨c, ⟨b, hreach, hc⟩, hkeyed b c hc⟩

/-- Lineages are bounded and, where parents lead back to nothing, complete and without
    repetition. A compound is a subclass of another just if parents lead from it there,
    and so of itself, and of what its bases are subclasses of. -/
theorem subclass_reachable (p : Program) (hkeyed : p.Keyed) :
    (∀ name, (p.lineage name).length ≤ p.compounds.size + 1) ∧
    (∀ name, p.Acyclic name ↔ p.Chain name (p.lineage name)) ∧
    (∀ name, p.Acyclic name → ((p.lineage name).map Compound.name).Nodup) ∧
    (∀ d b, p.isSubclass d b ↔
      (p.compound? d).isSome ∧ (p.compound? b).isSome ∧ Relation.ReflTransGen p.Parent d b) ∧
    (∀ a, (p.compound? a).isSome → p.isSubclass a a) ∧
    ∀ a b c, p.isSubclass a b → p.isSubclass b c → p.isSubclass a c := by
  have hchain : ∀ name, p.Acyclic name → p.Chain name (p.lineage name) := by
    intro name hacyclic
    refine chain_ancestry ?_
    rw [Function.iterate_succ_apply', up_eq_none hkeyed hacyclic]
    rfl
  refine ⟨fun name => length_ancestry_le p _ _, fun name => ⟨hchain name, Chain.acyclic⟩,
    fun name hacyclic => (hchain name hacyclic).nodup hkeyed hacyclic,
    fun d b => isSubclass_iff hkeyed, fun a ha => ?_, fun a b c hab hbc => ?_⟩
  · exact (isSubclass_iff hkeyed).2 ⟨ha, ha, .refl⟩
  · obtain ⟨ha, -, hreach⟩ := (isSubclass_iff hkeyed).1 hab
    obtain ⟨-, hc, hreach'⟩ := (isSubclass_iff hkeyed).1 hbc
    exact (isSubclass_iff hkeyed).2 ⟨ha, hc, hreach.trans hreach'⟩

/-- Two classes that are each other's parent, one that is its own, and a class below one
    whose parent is missing. -/
def tangled : Program where
  compounds := .ofList [
    ("Egg", { name := "Egg", form := .class_, parent := some "Hen" }),
    ("Hen", { name := "Hen", form := .class_, parent := some "Egg" }),
    ("Self", { name := "Self", form := .class_, parent := some "Self" }),
    ("Orphan", { name := "Orphan", form := .class_, parent := some "Ghost" }),
    ("Child", { name := "Child", form := .class_, parent := some "Orphan" })]

theorem keyed_tangled : tangled.Keyed := by
  intro name c hc
  have hentries : ∀ e ∈ tangled.compounds.entries, e.2.name = e.1 := by decide
  exact hentries (name, c) (Dict.mem_of_find? hc)

theorem subclass_reachable_tangled :
    tangled.Keyed ∧ (tangled.lineage "Egg").length ≤ 6 ∧
      (tangled.Acyclic "Child" ∧ ((tangled.lineage "Child").map Compound.name).Nodup) ∧
      (¬ tangled.Acyclic "Egg" ∧ tangled.isSubclass "Egg" "Egg") ∧
      Relation.ReflTransGen tangled.Parent "Hen" "Egg" ∧
      ¬ Relation.ReflTransGen tangled.Parent "Child" "Egg" := by
  obtain ⟨hlength, hchain, hnodup, hiff, hrefl, -⟩ := subclass_reachable tangled keyed_tangled
  have hchild : tangled.Acyclic "Child" :=
    (hchain "Child").2 (.child rfl rfl (.child rfl rfl (.undeclared rfl)))
  have hstep : tangled.Parent "Egg" "Hen" := ⟨_, rfl, rfl⟩
  have hback : Relation.ReflTransGen tangled.Parent "Hen" "Egg" := ((hiff "Hen" "Egg").1 (by decide)).2.2
  refine ⟨keyed_tangled, hlength "Egg", ⟨hchild, hnodup "Child" hchild⟩, ⟨fun hegg => ?_, ?_⟩, hback,
    fun hreach => ?_⟩
  · exact hegg "Egg" .refl (.head' hstep hback)
  · exact hrefl "Egg" (by decide)
  · exact absurd ((hiff "Child" "Egg").2 ⟨by decide, by decide, hreach⟩) (by decide)

end Treewalk.Program
