/-
  Which method a call means, declaratively.

  * `IsFirst P l a`: `a` is the first entry of `l` with `P`, and `IsCheapest P cost l a`:
    of the entries with `P` it is the first of least cost;
  * `Routine.Exact r args`, `Program.Accepts p r args`: the parameters of `r` all have
    the types of the arguments, or all accept them; `Program.Viable` is either, for a
    routine of the name called;
  * `Program.Chooses p c name args r`: what a class makes of a call;
  * `Heap.PointsAt h r cls`: `r` points at an object of the class `cls`, whatever the
    target it is declared with.

  `cheapest?_eq_some_iff`, `methodIn?_eq_some_iff` and `resolveMethod_eq_ok_iff` are the
  three layers of the search, and `methods_resolved` says what it means for calls.
-/
import Treewalk.Proofs.Runs
import Treewalk.Proofs.Stored
import Treewalk.Proofs.Traversal

namespace Treewalk

/-! ## First and cheapest -/

section Search

variable {α : Type} {P Q : α → Prop} {cost : α → Nat} {l : List α} {a b : α}

/-- The first entry with the property. -/
def IsFirst (P : α → Prop) (l : List α) (a : α) : Prop :=
  ∃ before after, l = before ++ a :: after ∧ P a ∧ ∀ x ∈ before, ¬ P x

/-- Of the entries with the property, the first of least cost. -/
def IsCheapest (P : α → Prop) (cost : α → Nat) (l : List α) (a : α) : Prop :=
  ∃ before after, l = before ++ a :: after ∧ P a ∧
    (∀ x ∈ before, P x → cost a < cost x) ∧ ∀ x ∈ after, P x → cost a ≤ cost x

theorem IsFirst.mem (h : IsFirst P l a) : a ∈ l := by
  obtain ⟨before, after, rfl, -⟩ := h
  simp

theorem IsFirst.holds (h : IsFirst P l a) : P a := by
  obtain ⟨-, -, -, ha, -⟩ := h
  exact ha

theorem IsCheapest.holds (h : IsCheapest P cost l a) : P a := by
  obtain ⟨-, -, -, ha, -⟩ := h
  exact ha

theorem IsCheapest.mem (h : IsCheapest P cost l a) : a ∈ l := by
  obtain ⟨before, after, rfl, -⟩ := h
  simp

theorem IsCheapest.le (h : IsCheapest P cost l a) (hb : b ∈ l) (hP : P b) : cost a ≤ cost b := by
  obtain ⟨before, after, rfl, -, hbefore, hafter⟩ := h
  rcases List.mem_append.1 hb with hb | hb
  · exact (hbefore b hb hP).le
  · rcases List.mem_cons.1 hb with rfl | hb
    · exact Nat.le_refl _
    · exact hafter b hb hP

/-- An entry with the property that is not the first one comes later. -/
theorem IsFirst.mem_take {before after : List α} (h : IsFirst P (before ++ b :: after) a) (hb : P b) :
    a ∈ before ++ [b] := by
  obtain ⟨before', after', heq, -, hbefore'⟩ := h
  rcases List.append_eq_append_iff.1 heq with ⟨rest, rfl, hrest⟩ | ⟨rest, rfl, hrest⟩
  · -- the first one stands at or after the entry, which is then itself the first
    cases rest with
    | nil => simp_all
    | cons x rest =>
      obtain ⟨rfl, -⟩ := List.cons_eq_cons.1 hrest
      exact absurd hb (hbefore' _ (by simp))
  · cases rest with
    | nil => simp_all
    | cons x rest =>
      obtain ⟨rfl, -⟩ := List.cons_eq_cons.1 hrest
      simp

theorem find?_eq_some_iff_isFirst {f : α → Bool} (hf : ∀ x, f x = true ↔ P x) :
    l.find? f = some a ↔ IsFirst P l a := by
  rw [List.find?_eq_some_iff_append]
  constructor
  · rintro ⟨ha, before, after, rfl, hbefore⟩
    refine ⟨before, after, rfl, (hf a).1 ha, fun x hx hP => ?_⟩
    simpa [(hf x).2 hP] using hbefore x hx
  · rintro ⟨before, after, rfl, ha, hbefore⟩
    refine ⟨(hf a).2 ha, before, after, rfl, fun x hx => ?_⟩
    simpa [← hf] using hbefore x hx

end Search

theorem cheapest?_eq_none_iff {cost : Routine → Nat} {l : List Routine} :
    cheapest? cost l = none ↔ l = [] := by
  cases l with
  | nil => simp [cheapest?]
  | cons r rest =>
    unfold cheapest?
    split
    · split <;> simp
    · simp

theorem cheapest?_eq_some_iff {cost : Routine → Nat} {l : List Routine} {r : Routine} :
    cheapest? cost l = some r ↔ IsCheapest (fun _ => True) cost l r := by
  constructor
  · intro h
    induction l generalizing r with
    | nil => cases h
    | cons s rest ih =>
      unfold cheapest? at h
      cases hrest : cheapest? cost rest with
      | none =>
        rw [hrest] at h
        cases h
        rw [cheapest?_eq_none_iff.1 hrest]
        exact ⟨[], [], rfl, trivial, by simp, by simp⟩
      | some t =>
        rw [hrest] at h
        dsimp only at h
        have ht := ih hrest
        split at h
        · rename_i hlt
          cases h
          obtain ⟨before, after, rfl, -, hbefore, hafter⟩ := ht
          refine ⟨s :: before, after, rfl, trivial, ?_, hafter⟩
          rintro x hx -
          rcases List.mem_cons.1 hx with rfl | hx
          · exact hlt
          · exact hbefore x hx trivial
        · rename_i hle
          cases h
          refine ⟨[], rest, rfl, trivial, by simp, fun x hx _ => ?_⟩
          exact (Nat.le_of_not_lt hle).trans (ht.le hx trivial)
  · rintro ⟨before, after, rfl, -, hbefore, hafter⟩
    induction before with
    | nil =>
      rw [List.nil_append, cheapest?]
      cases hrest : cheapest? cost after with
      | none => rfl
      | some t => exact if_neg (Nat.not_lt_of_le (hafter t (mem_of_cheapest? hrest) trivial))
    | cons s before ih =>
      rw [List.cons_append, cheapest?, ih fun x hx => hbefore x (List.mem_cons_of_mem s hx)]
      exact if_pos (hbefore s List.mem_cons_self trivial)

/-- The cheapest of those that pass a test. -/
theorem cheapest?_filter_eq_some_iff {cost : Routine → Nat} {l : List Routine} {r : Routine}
    {f : Routine → Bool} {P : Routine → Prop} (hf : ∀ x, f x = true ↔ P x) :
    cheapest? cost (l.filter f) = some r ↔ IsCheapest P cost l r := by
  rw [cheapest?_eq_some_iff]
  constructor
  · rintro ⟨before, after, heq, -, hbefore, hafter⟩
    obtain ⟨before', rest, rfl, rfl, hrest⟩ := List.filter_eq_append_iff.1 heq
    obtain ⟨skipped, after', rfl, hskipped, hr, rfl⟩ := List.filter_eq_cons_iff.1 hrest
    refine ⟨before' ++ skipped, after', by simp, (hf r).1 hr, fun x hx hP => ?_, fun x hx hP => ?_⟩
    · rcases List.mem_append.1 hx with hx | hx
      · exact hbefore x (List.mem_filter.2 ⟨hx, (hf x).2 hP⟩) trivial
      · exact absurd ((hf x).2 hP) (hskipped x hx)
    · exact hafter x (List.mem_filter.2 ⟨hx, (hf x).2 hP⟩) trivial
  · rintro ⟨before, after, rfl, hr, hbefore, hafter⟩
    refine ⟨before.filter f, after.filter f, ?_, trivial, ?_, ?_⟩
    · rw [List.filter_append, List.filter_cons_of_pos ((hf r).2 hr)]
    · intro x hx _
      obtain ⟨hx, hP⟩ := List.mem_filter.1 hx
      exact hbefore x hx ((hf x).1 hP)
    · intro x hx _
      obtain ⟨hx, hP⟩ := List.mem_filter.1 hx
      exact hafter x hx ((hf x).1 hP)

/-! ## Within a class -/

section Class

variable {p : Program} {c : Compound} {name : String} {args : List Ty} {r s : Routine}

/-- The parameters have the types of the arguments, up to `const`. -/
def Routine.Exact (r : Routine) (args : List Ty) : Prop :=
  List.Forall₂ (fun q a => q.ty.unqualified = a.unqualified) r.params args

instance : Decidable (r.Exact args) :=
  inferInstanceAs (Decidable (List.Forall₂ _ _ _))

namespace Program

/-- The parameters accept the arguments. -/
def Accepts (p : Program) (r : Routine) (args : List Ty) : Prop :=
  List.Forall₂ (fun q a => p.accepts q.ty a = true) r.params args

instance : Decidable (p.Accepts r args) :=
  inferInstanceAs (Decidable (List.Forall₂ _ _ _))

/-- A routine of the name that can take the arguments. -/
structure Viable (p : Program) (name : String) (args : List Ty) (r : Routine) : Prop where
  called : r.name.image = name
  taken : r.Exact args ∨ p.Accepts r args

/-- The class has a method for the call. -/
def Offers (p : Program) (name : String) (args : List Ty) (c : Compound) : Prop :=
  ∃ r ∈ c.methods, p.Viable name args r

/-- What a class makes of a call: the first exact match, and if there is none the first
    method of least cost. -/
def Chooses (p : Program) (c : Compound) (name : String) (args : List Ty) (r : Routine) : Prop :=
  IsFirst (fun x => x.name.image = name ∧ x.Exact args) c.methods r ∨
    (∀ x ∈ c.methods, x.name.image = name → ¬ x.Exact args) ∧
      IsCheapest (fun x => x.name.image = name ∧ p.Accepts x args) (·.cost args) c.methods r

theorem Chooses.mem (h : p.Chooses c name args r) : r ∈ c.methods :=
  h.elim IsFirst.mem fun h => h.2.mem

theorem Chooses.viable (h : p.Chooses c name args r) : p.Viable name args r := by
  rcases h with h | ⟨-, h⟩
  · exact ⟨h.holds.1, .inl h.holds.2⟩
  · exact ⟨h.holds.1, .inr h.holds.2⟩

theorem accepts_unqualified (p : Program) (declared actual : Ty) :
    p.accepts declared.unqualified actual = p.accepts declared actual := by
  unfold accepts
  rw [Ty.unqualified_unqualified]

/-- Whether a routine can take the arguments depends on the types of its parameters,
    up to `const`. -/
theorem Viable.congr (h : p.Viable name args r) (hname : s.name.image = r.name.image)
    (hparams : s.params.map (·.ty.unqualified) = r.params.map (·.ty.unqualified)) :
    p.Viable name args s := by
  have hexact (x : Routine) : x.Exact args ↔
      List.Forall₂ (fun t a => t = a.unqualified) (x.params.map (·.ty.unqualified)) args := by
    rw [List.forall₂_map_left_iff]
    rfl
  have haccepts (x : Routine) : p.Accepts x args ↔
      List.Forall₂ (fun t a => p.accepts t a = true) (x.params.map (·.ty.unqualified)) args := by
    simp only [List.forall₂_map_left_iff, accepts_unqualified]
    rfl
  refine ⟨hname.trans h.called, ?_⟩
  rw [hexact, haccepts, hparams, ← hexact, ← haccepts]
  exact h.taken

theorem exact_iff : r.name.image = name ∧ r.Exact args ↔
    (r.name.image == name && r.arity == args.length) = true ∧ r.matchesExactly args = true := by
  rw [Routine.Exact, List.forall₂_iff_zip]
  simp [Routine.matchesExactly, Routine.pairing, Routine.arity, and_assoc]

theorem accepts_iff : r.name.image = name ∧ p.Accepts r args ↔
    p.acceptsArguments r args = true ∧ (r.name.image == name && r.arity == args.length) = true := by
  rw [Accepts, List.forall₂_iff_zip, and_comm (a := p.acceptsArguments r args = true)]
  simp [acceptsArguments, Routine.pairing, Routine.arity, and_assoc]

/-- The two passes over the methods of a class. -/
theorem methodIn?_eq : p.methodIn? c name args =
    (c.methods.find? fun x => x.name.image = name ∧ x.Exact args).or
      (cheapest? (·.cost args) (c.methods.filter fun x => x.name.image = name ∧ p.Accepts x args)) := by
  have hpasses (l : List Routine) : (l.find? (·.matchesExactly args) <|>
      cheapest? (·.cost args) (l.filter (p.acceptsArguments · args))) =
      (l.find? (·.matchesExactly args)).or
        (cheapest? (·.cost args) (l.filter (p.acceptsArguments · args))) := Option.orElse_eq_or
  unfold methodIn?
  dsimp only
  rw [hpasses, List.find?_filter, List.filter_filter]
  simp only [exact_iff, accepts_iff, Bool.decide_and, Bool.decide_eq_true]

theorem methodIn?_eq_some_iff : p.methodIn? c name args = some r ↔ p.Chooses c name args r := by
  rw [methodIn?_eq, Option.or_eq_some_iff, find?_eq_some_iff_isFirst fun _ => decide_eq_true_iff,
    cheapest?_filter_eq_some_iff fun _ => decide_eq_true_iff, List.find?_eq_none]
  simp only [decide_eq_true_iff, not_and]
  rfl

theorem methodIn?_eq_none_iff : p.methodIn? c name args = none ↔ ¬ p.Offers name args c := by
  rw [methodIn?_eq, Option.or_eq_none_iff, List.find?_eq_none, cheapest?_eq_none_iff,
    List.filter_eq_nil_iff]
  simp only [decide_eq_true_iff]
  constructor
  · rintro ⟨hexact, haccepts⟩ ⟨x, hx, hname, htaken⟩
    exact htaken.elim (fun h => hexact x hx ⟨hname, h⟩) fun h => haccepts x hx ⟨hname, h⟩
  · intro hnone
    exact ⟨fun x hx h => hnone ⟨x, hx, h.1, .inl h.2⟩, fun x hx h => hnone ⟨x, hx, h.1, .inr h.2⟩⟩

end Program

end Class

/-! ## Along the lineage -/

namespace Program

variable {p : Program} {cls name : String} {args : List Ty} {r x y : Routine} {d a : Compound}

/-- The nearest class with a method for the call chooses it. -/
def Resolves (p : Program) (cls name : String) (args : List Ty) (r : Routine) : Prop :=
  ∃ c, IsFirst (p.Offers name args) (p.lineage cls) c ∧ p.Chooses c name args r

theorem resolveMethod_eq_ok_iff :
    p.resolveMethod cls name args = .ok r ↔ p.Resolves cls name args r := by
  have hfound : p.resolveMethod cls name args = .ok r ↔ p.resolveMethod? cls name args = some r := by
    unfold resolveMethod
    cases p.resolveMethod? cls name args <;> simp
  rw [hfound, resolveMethod?, List.findSome?_eq_some_iff]
  simp only [methodIn?_eq_some_iff, methodIn?_eq_none_iff]
  constructor
  · rintro ⟨before, c, after, hl, hr, hbefore⟩
    exact ⟨c, ⟨before, after, hl, ⟨r, hr.mem, hr.viable⟩, hbefore⟩, hr⟩
  · rintro ⟨c, ⟨before, after, hl, -, hbefore⟩, hr⟩
    exact ⟨before, c, after, hl, hr, hbefore⟩

theorem resolveMethod_eq_error_iff {cause : Cause} :
    p.resolveMethod cls name args = .error cause ↔
      cause = .unresolvedMethod cls name args ∧ ∀ c ∈ p.lineage cls, ¬ p.Offers name args c := by
  have hnone : p.resolveMethod? cls name args = none ↔ ∀ c ∈ p.lineage cls, ¬ p.Offers name args c := by
    simp only [resolveMethod?, List.findSome?_eq_none_iff, methodIn?_eq_none_iff]
  rw [← hnone]
  unfold resolveMethod
  cases p.resolveMethod? cls name args <;> simp [eq_comm]

/-- There is a method for the call exactly if a class of the lineage has one. -/
theorem exists_resolves_iff :
    (∃ r, p.Resolves cls name args r) ↔ ∃ c ∈ p.lineage cls, p.Offers name args c := by
  simp only [← resolveMethod_eq_ok_iff]
  constructor
  · rintro ⟨r, hr⟩
    obtain ⟨c, hc, -⟩ := resolveMethod_eq_ok_iff.1 hr
    exact ⟨c, hc.mem, hc.holds⟩
  · rintro ⟨c, hc, hoffers⟩
    cases hres : p.resolveMethod cls name args with
    | ok r => exact ⟨r, rfl⟩
    | error cause => exact absurd hoffers ((resolveMethod_eq_error_iff.1 hres).2 c hc)

/-- A method hides those of the same name and parameters in the classes after its
    own. -/
theorem resolves_of_override {before after : List Compound} (hl : p.lineage cls = before ++ d :: after)
    (hx : x ∈ d.methods) (hname : x.name.image = y.name.image)
    (hparams : x.params.map (·.ty.unqualified) = y.params.map (·.ty.unqualified))
    (hy : p.Viable name args y) :
    ∃ c r, c ∈ before ++ [d] ∧ p.Chooses c name args r ∧ p.resolveMethod cls name args = .ok r := by
  have hd : p.Offers name args d := ⟨x, hx, hy.congr hname hparams⟩
  obtain ⟨r, c, hc, hr⟩ := exists_resolves_iff.2 ⟨d, hl ▸ List.mem_append_cons_self, hd⟩
  exact ⟨c, r, (hl ▸ hc).mem_take hd, hr, resolveMethod_eq_ok_iff.2 ⟨c, hc, hr⟩⟩

end Program

/-! ## Calls -/

/-- The value points at an object of the class, whatever its target. -/
def Heap.PointsAt (h : Heap) (r : Ref) (cls : String) : Prop :=
  ∃ q s form fields, h.cell r = .pointer q ∧ h.isNull q = false ∧ h.slotOf q = .ok s ∧
    h.cell (h.flatten s) = .compound (.compound form cls) fields

/-- The operands above a depth, the innermost last. -/
def State.above (s : State) (depth : Nat) : List Ref :=
  (s.values.items.take (s.valueDepth - depth)).reverse

namespace Eval

variable {e : Engine} {ev : Evaluator} {inv : Invoker} {owner : Node} {method : Token}
  {args : List Node} {m m₁ m₂ : Machine} {h : Heap} {o receiver : Ref} {cls : String} {r : Routine}

theorem run_answer {α : Type} {x : Except Cause α} {a : α} (hx : x = .ok a) :
    (Mem.answer x : Mem α) h = .ok a h := by
  rw [hx]
  rfl

theorem run_receiverOf (ho : h.PointsAt o cls) : receiverOf o h = .ok (o, cls) h := by
  obtain ⟨q, s, form, fields, hq, hnull, hs, hobject⟩ := ho
  have hflat : h.flatten o = o := by simp [Heap.flatten, hq]
  have hobjectOf : objectOf h o = .ok (h.flatten s) := by
    unfold objectOf
    rw [hq]
    simp [hnull, hs, Except.map]
  have hclassOf : classOf h (h.flatten s) = .ok cls := by simp [classOf, hobject]
  unfold receiverOf
  rw [Mem.read_bind, hflat, Mem.read_bind, run_bind (run_answer hobjectOf), Mem.read_bind, hq]
  dsimp only
  rw [pure_bind, Mem.read_bind, run_bind (run_answer hclassOf)]
  rfl

section Chosen

variable (ho : valueOf ev owner m = .ok o m₁) (hreceiver : receiverOf o m₁.heap = .ok (receiver, cls) h)
  (hargs : pushValues ev args { m₁ with heap := h } = .ok () m₂)
include ho hreceiver hargs

/-- A call of a method, once the arguments are in place. -/
theorem run_callMethod :
    callMethod e ev inv owner method args m =
      (runChosen e inv cls method receiver (m₂.state.above m₁.state.valueDepth) >>= yieldResult) m₂ := by
  rw [callMethod_eq, run_bind ho, run_bind (run_mem hreceiver)]
  change ((runMethod e ev inv cls method receiver args) >>= yieldResult) _ = _
  unfold runMethod
  rw [bind_assoc, run_ask, bind_assoc, run_bind hargs, bind_assoc, run_ask]
  rfl

theorem run_callMethod_ok (hr : e.program.resolveMethod cls method.image
      ((m₂.state.above m₁.state.valueDepth).map m₂.heap.tyOf) = .ok r) :
    callMethod e ev inv owner method args m =
      (inv r (method.member cls method.image) (some receiver) >>= yieldResult) m₂ := by
  rw [run_callMethod ho hreceiver hargs]
  unfold runChosen
  rw [look_eq, bind_assoc, run_bind (run_mem (x := Mem.read _) rfl), hr]

theorem run_callMethod_error {cause : Cause} (hr : e.program.resolveMethod cls method.image
      ((m₂.state.above m₁.state.valueDepth).map m₂.heap.tyOf) = .error cause) :
    callMethod e ev inv owner method args m = .error (.fault { cause }) m₂ := by
  rw [run_callMethod ho hreceiver hargs]
  unfold runChosen
  rw [look_eq, bind_assoc, run_bind (run_mem (x := Mem.read _) rfl), hr]
  rfl

end Chosen

end Eval

open Eval

/-- **Which method a call means.** There is one exactly if some class of the lineage
    has a method of the name that can take the arguments. It is chosen by the first
    such class: its first exact match, or else the first of its methods of least
    cost. A method of the same parameters in an earlier class always hides it. What is
    called on a pointer is chosen by the class of the object it points at. -/
theorem methods_resolved (e : Engine) (cls name : String) (args : List Ty) :
    ((∃ r, e.program.resolveMethod cls name args = .ok r) ↔
      ∃ c ∈ e.program.lineage cls, ∃ r ∈ c.methods, e.program.Viable name args r) ∧
    (∀ r, e.program.resolveMethod cls name args = .ok r ↔
      ∃ c, IsFirst (fun c => ∃ x ∈ c.methods, e.program.Viable name args x) (e.program.lineage cls) c ∧
        e.program.Chooses c name args r) ∧
    (∀ before d after, e.program.lineage cls = before ++ d :: after → ∀ x ∈ d.methods,
      ∀ a ∈ after, ∀ y ∈ a.methods, x.name.image = y.name.image →
        x.params.map (·.ty.unqualified) = y.params.map (·.ty.unqualified) →
        e.program.Viable name args y → ∃ c r, c ∈ before ++ [d] ∧ e.program.Chooses c name args r ∧
          e.program.resolveMethod cls name args = .ok r) ∧
    ∀ (fuel : Nat) (ev : Evaluator) (node owner : Node) (method : Token) (nodes : List Node)
      (m m₁ m₂ : Machine) (o : Ref), node.construct = .methodCall owner method nodes →
      valueOf ev owner m = .ok o m₁ → m₁.heap.PointsAt o cls → pushValues ev nodes m₁ = .ok () m₂ →
      method.image = name → (m₂.state.above m₁.state.valueDepth).map m₂.heap.tyOf = args →
      (∀ r, e.program.resolveMethod cls name args = .ok r → dispatch e fuel ev node m =
        (invoke e ev fuel r (method.member cls name) (some o) >>= yieldResult) m₂) ∧
      ((¬ ∃ r, e.program.resolveMethod cls name args = .ok r) → dispatch e fuel ev node m =
        .error (.fault { cause := .unresolvedMethod cls name args }) m₂) := by
  refine ⟨?_, fun r => Program.resolveMethod_eq_ok_iff, ?_, ?_⟩
  · simp only [Program.resolveMethod_eq_ok_iff]
    exact Program.exists_resolves_iff
  · intro before d after hl x hx a ha y hy hname hparams hviable
    exact Program.resolves_of_override hl hx hname hparams hviable
  · rintro fuel ev node owner method nodes m m₁ m₂ o hnode ho hcls hargs rfl rfl
    have hdispatch : dispatch e fuel ev node m = callMethod e ev (invoke e ev fuel) owner method nodes m := by
      unfold dispatch
      rw [hnode]
    refine ⟨fun r hr => ?_, fun hnone => ?_⟩
    · rw [hdispatch, run_callMethod_ok ho (run_receiverOf hcls) hargs hr]
    · cases hr : e.program.resolveMethod cls method.image
          ((m₂.state.above m₁.state.valueDepth).map m₂.heap.tyOf) with
      | ok r => exact absurd ⟨r, hr⟩ hnone
      | error cause =>
        rw [hdispatch, run_callMethod_error ho (run_receiverOf hcls) hargs hr,
          (Program.resolveMethod_eq_error_iff.1 hr).1]

namespace Shapes

open Build

/-- A method that takes a value of the given type. -/
def scaled (ty : Ty) (answer : Int64) : Routine where
  name := { image := "scaled" }
  params := [⟨"by", ty⟩]
  returns := .int
  body := block [ret (some (int answer))]

def shape : Compound where
  name := "Shape"
  form := .class_
  methods := [scaled .double 1, scaled .int 2]

def square : Compound where
  name := "Square"
  form := .class_
  parent := some "Shape"
  methods := [scaled .char 3, scaled .int 4]

def engine : Engine where
  program := { compounds := ⟨[("Shape", shape), ("Square", square)], by decide⟩ }

/-- A pointer declared for shapes is bound to a square. -/
def drawn : Machine :=
  leaves (do
    let object ← createValue engine.program square.ty
    let pointer ← toPointer object
    bindName "p" (← castTo pointer (.pointer shape.ty))) {}

def call : Node :=
  method (id "p" (.pointer shape.ty)) "scaled" [int 5] .int

def given : Machine :=
  leaves (pushValues (evaluate engine 8) [int 5]) drawn

/-- The call runs the method of the square, which hides that of the shape. -/
theorem scaled_resolved :
    drawn.heap.cell ⟨2⟩ = .pointer ⟨shape.ty, ⟨0⟩, 0⟩ ∧ drawn.heap.PointsAt ⟨2⟩ "Square" ∧
    engine.program.resolveMethod "Square" "scaled" [.int] = .ok (scaled .int 4) ∧
    dispatch engine 8 (evaluate engine 8) call drawn = (invoke engine (evaluate engine 8) 8
      (scaled .int 4) ⟨"Square::scaled", none⟩ (some ⟨2⟩) >>= yieldResult) given ∧
    (∃ c r, c ∈ [square] ∧ engine.program.Chooses c "scaled" [.int] r ∧
      engine.program.resolveMethod "Square" "scaled" [.int] = .ok r) := by
  have hlineage : engine.program.lineage "Square" = [] ++ square :: [shape] := rfl
  have howner : valueOf (evaluate engine 8) (id "p" (.pointer shape.ty)) drawn = .ok ⟨2⟩ drawn := rfl
  have hpoints : drawn.heap.PointsAt ⟨2⟩ "Square" := ⟨⟨shape.ty, ⟨0⟩, 0⟩, ⟨0⟩, .class_, [], rfl, rfl, rfl, rfl⟩
  have hargs : pushValues (evaluate engine 8) [int 5] drawn = .ok () given := rfl
  have hint : (scaled .int 4).Exact [.int] := .cons rfl .nil
  obtain ⟨-, hfirst, hoverride, hcall⟩ := methods_resolved engine "Square" "scaled" [.int]
  -- the first method of the class takes characters, the second is an exact match
  have hchosen : engine.program.Chooses square "scaled" [.int] (scaled .int 4) :=
    .inl ⟨[scaled .char 3], [], rfl, ⟨rfl, hint⟩, by decide⟩
  have hres := (hfirst _).2 ⟨square, ⟨[], [shape], hlineage, ⟨_, hchosen.mem, hchosen.viable⟩, by simp⟩, hchosen⟩
  refine ⟨rfl, hpoints, hres, ?_, ?_⟩
  · exact (hcall 8 _ call _ _ _ _ _ _ _ rfl howner hpoints hargs rfl rfl).1 _ hres
  · refine hoverride [] square [shape] hlineage (scaled .int 4) hchosen.mem shape (by simp) (scaled .int 2)
      (by simp [shape]) rfl rfl ⟨rfl, .inl (.cons rfl .nil)⟩

end Shapes

end Treewalk
