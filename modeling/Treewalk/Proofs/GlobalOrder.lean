/-
  The order of the globals.

  * `Global.denote`: the number that a global starts with, given those of other
    names;
  * `Settles names order final`: the globals of `order` can be initialised one
    after another, each from the names known before it;
  * `Names.Solves names gs`: every global has the number that its initialiser
    gives. What settles in some order is the least solution (`Settles.within`),
    so the order does not matter;
  * `initializeGlobals_settles` and `initializeGlobals_ends`: the queue of pending
    globals succeeds only with such an order, and whenever there is one.
-/
import Treewalk.Proofs.Denotation
import Treewalk.Proofs.Nesting
import Treewalk.Proofs.Outcome
import Treewalk.Session
import Treewalk.Tree.Build

namespace Treewalk

/-! ## Globals that are numbers -/

/-- A global of a type of numbers with a numeric initialiser, if any. -/
structure Global.Numeric (g : Global) : Prop where
  ty : g.ty.IsNumber
  init : ∀ node, g.init = some node → node.Numeric

/-- The number that a global starts with: that of its initialiser, converted to
    its type, or zero. -/
def Global.denote (size : Ty → Option Nat) (fuel : Nat) (names : Names) (g : Global) : Denoted Primitive :=
  match g.ty.primitive? with
  | some (k, u) =>
    match g.init with
    | some node => (·.converted k u) <$> node.denote size names fuel
    | none => .ok (.zero k u)
  | none => .error none

namespace Global

variable {size : Ty → Option Nat} {fuel : Nat} {names names' : Names} {g : Global} {p : Primitive}

theorem denote_settled (size : Ty → Option Nat) (fuel : Nat) (hnames : names.Within names') (g : Global) :
    (g.denote size fuel names).Settled (g.denote size fuel names') := by
  unfold denote
  rcases g.ty.primitive? with _ | ⟨k, u⟩
  · exact .refl _
  · cases g.init with
    | none => exact .refl _
    | some node => exact .bind (node.denote_settled size hnames fuel) fun _ => .refl _

theorem denote_within (hnames : names.Within names') (h : g.denote size fuel names = .ok p) :
    g.denote size fuel names' = .ok p :=
  (denote_settled size fuel hnames g).ok h

/-- A global has its declared type. -/
theorem ty_of_denote (h : g.denote size fuel names = .ok p) : p.ty = g.ty.unqualified := by
  unfold denote at h
  cases hty : g.ty.primitive? with
  | none =>
    rw [hty] at h
    cases h
  | some ku =>
    rw [hty] at h
    rw [Ty.unqualified_of_primitive? hty]
    cases hinit : g.init with
    | none =>
      rw [hinit] at h
      cases h
      rfl
    | some node =>
      rw [hinit] at h
      cases hq : node.denote size names fuel with
      | error c => simp [hq, Functor.map, Except.map] at h
      | ok q =>
        simp [hq, Functor.map, Except.map] at h
        exact h ▸ rfl

end Global

/-! ## Initialisation in order -/

/-- No names. -/
def Names.empty : Names :=
  fun _ => none

/-- One more name. -/
def Names.bind (names : Names) (name : String) (p : Primitive) : Names :=
  Function.update names name (some p)

section Order

variable (size : Ty → Option Nat) (fuel : Nat)

/-- Initialising the globals one after another makes of the names known before
    those known after. -/
inductive Settles : Names → List Global → Names → Prop
  | nil {names : Names} : Settles names [] names
  | cons {names final : Names} {g : Global} {rest : List Global} {p : Primitive} :
      g.denote size fuel names = .ok p → Settles (names.bind g.name.image p) rest final →
      Settles names (g :: rest) final

/-- Every global has the number that its initialiser gives. -/
def Names.Solves (names : Names) (gs : List Global) : Prop :=
  ∀ g ∈ gs, ∃ p, names g.name.image = some p ∧ g.denote size fuel names = .ok p

end Order

/-- The globals have names of their own, none of them known. -/
structure Names.Free (names : Names) (gs : List Global) : Prop where
  nodup : (gs.map (·.name.image)).Nodup
  unknown : ∀ g ∈ gs, names g.name.image = none

namespace Names

variable {names : Names} {g : Global} {gs gs' : List Global}

theorem bind_self (name : String) (p : Primitive) : names.bind name p name = some p :=
  Function.update_self ..

theorem bind_of_ne {x name : String} (h : x ≠ name) (p : Primitive) : names.bind name p x = names x :=
  Function.update_of_ne h ..

theorem Within.empty (names : Names) : Names.empty.Within names :=
  nofun

theorem Within.bind_of_none {name : String} (h : names name = none) (p : Primitive) :
    names.Within (names.bind name p) := by
  intro x q hx
  have hne : x ≠ name := by
    rintro rfl
    simp [h] at hx
  exact (bind_of_ne hne p).trans hx

theorem Within.bind {other : Names} {name : String} {p : Primitive} (h : names.Within other)
    (hp : other name = some p) : (names.bind name p).Within other := by
  intro x q hx
  by_cases hne : x = name
  · subst hne
    rw [bind_self] at hx
    exact hx ▸ hp
  · rw [bind_of_ne hne] at hx
    exact h hx

theorem Free.bind (h : names.Free (g :: gs)) (p : Primitive) : (names.bind g.name.image p).Free gs := by
  obtain ⟨hnotin, hnodup⟩ := List.nodup_cons.1 h.nodup
  refine ⟨hnodup, fun g' hg' => ?_⟩
  have hne : g'.name.image ≠ g.name.image := fun heq => hnotin (List.mem_map.2 ⟨g', hg', heq⟩)
  rw [bind_of_ne hne]
  exact h.unknown g' (List.mem_cons_of_mem g hg')

theorem Free.perm (h : names.Free gs) (hperm : gs.Perm gs') : names.Free gs' :=
  ⟨(hperm.map _).nodup_iff.1 h.nodup, fun g hg => h.unknown g (hperm.mem_iff.2 hg)⟩

end Names

namespace Settles

variable {size : Ty → Option Nat} {fuel : Nat} {names final other : Names} {order : List Global}

/-- No name is lost or changed. -/
theorem grows (h : Settles size fuel names order final) (hfree : names.Free order) :
    names.Within final := by
  induction h with
  | nil => exact fun _ _ hx => hx
  | @cons names final g rest p hp _ ih =>
    have hbind := Names.Within.bind_of_none (hfree.unknown g List.mem_cons_self) p
    exact hbind.trans (ih (hfree.bind p))

theorem solves (h : Settles size fuel names order final) (hfree : names.Free order) :
    final.Solves size fuel order := by
  induction h with
  | nil => nofun
  | @cons names final g rest p hp hrest ih =>
    have hgrows := hrest.grows (hfree.bind p)
    have hbind := Names.Within.bind_of_none (hfree.unknown g List.mem_cons_self) p
    intro g' hg'
    rcases List.mem_cons.1 hg' with rfl | hg'
    · exact ⟨p, hgrows (Names.bind_self _ p), Global.denote_within (hbind.trans hgrows) hp⟩
    · exact ih (hfree.bind p) g' hg'

/-- What settles is part of every solution. -/
theorem within (h : Settles size fuel names order final) (hnames : names.Within other)
    (hother : other.Solves size fuel order) : final.Within other := by
  induction h with
  | nil => exact hnames
  | @cons names final g rest p hp _ ih =>
    obtain ⟨q, hq, hdenote⟩ := hother g List.mem_cons_self
    rw [Global.denote_within hnames hp] at hdenote
    cases hdenote
    exact ih (hnames.bind hq) fun g' hg' => hother g' (List.mem_cons_of_mem g hg')

/-- While globals are pending, one of them can be initialised: the first that is
    pending in an order in which all settle. -/
theorem progress {start : Names} {pending : List Global} (h : Settles size fuel start order final)
    (hsolves : final.Solves size fuel order) (hstart : start.Within names) (hnames : names.Within final)
    (hcover : ∀ g ∈ order, (∃ p, names g.name.image = some p) ∨ g ∈ pending)
    (hpending : ∀ g ∈ pending, g ∈ order ∧ names g.name.image = none) (hne : pending ≠ []) :
    ∃ g ∈ pending, ∃ p, g.denote size fuel names = .ok p := by
  induction h with
  | nil =>
    obtain ⟨g, hg⟩ := List.exists_mem_of_ne_nil pending hne
    exact absurd (hpending g hg).1 List.not_mem_nil
  | @cons start final g rest p hp _ ih =>
    rcases hcover g List.mem_cons_self with ⟨q, hq⟩ | hg
    · have hpq : some q = some p := by
        obtain ⟨p', hp', hdenote⟩ := hsolves g List.mem_cons_self
        rw [Global.denote_within (hstart.trans hnames) hp] at hdenote
        cases hdenote
        exact (hnames hq).symm.trans hp'
      refine ih (fun g' hg' => hsolves g' (List.mem_cons_of_mem g hg')) (hstart.bind (hpq ▸ hq)) hnames
        (fun g' hg' => hcover g' (List.mem_cons_of_mem g hg')) fun g' hg' => ?_
      obtain ⟨hmem, hnone⟩ := hpending g' hg'
      refine ⟨(List.mem_cons.1 hmem).resolve_left ?_, hnone⟩
      rintro rfl
      simp [hq] at hnone
    · exact ⟨g, hg, p, Global.denote_within hstart hp⟩

end Settles

/-! ## The machine -/

/-- The globals that are known are those given, and calls see them. -/
structure Machine.Initialised (m : Machine) (names : Names) : Prop extends m.Knows names where
  sealed : m.state.globals = m.state.frame

theorem Machine.Initialised.mono {m m' : Machine} {names : Names} (h : m.Initialised names)
    (hs : m'.state = m.state) (hh : m.heap.Spares m'.heap) : m'.Initialised names :=
  ⟨h.toKnows.mono hs hh, hs ▸ h.sealed⟩

/-- The number that a global stands for. -/
def Machine.global? (m : Machine) (name : String) : Option Primitive :=
  (m.state.globals.get? name).bind m.heap.primitive?

theorem Machine.Initialised.global? {m : Machine} {names : Names} (h : m.Initialised names)
    {name : String} {p : Primitive} (hp : names name = some p) : m.global? name = some p := by
  obtain ⟨r, hr, hnumber⟩ := h.bound hp
  have hget : m.state.globals.get? name = some r := h.sealed ▸ hr
  unfold Machine.global? Heap.primitive?
  rw [hget, Option.bind_some, hnumber.flatten, hnumber.cell]

/-- A new number is bound. -/
theorem Machine.Initialised.bind {m : Machine} {names : Names} (h : m.Initialised names) (name : String)
    {r : Ref} {p : Primitive} (hr : m.heap.Number r p) :
    Machine.Initialised { m with state := (m.state.bind name r).sealGlobals } (names.bind name p) where
  receiver := h.receiver
  bound := by
    intro x q hx
    change ∃ r', (m.state.frame.insert name r).get? x = some r' ∧ _
    rw [Dict.get?_insert]
    by_cases hne : x = name
    · subst hne
      rw [Names.bind_self] at hx
      exact ⟨r, if_pos rfl, Option.some.inj hx ▸ hr⟩
    · rw [Names.bind_of_ne hne] at hx
      rw [if_neg hne]
      exact h.bound hx
  unbound := by
    intro x hx
    change (m.state.frame.insert name r).get? x = none
    rw [Dict.get?_insert]
    by_cases hne : x = name
    · subst hne
      rw [Names.bind_self] at hx
      cases hx
    · rw [Names.bind_of_ne hne] at hx
      rw [if_neg hne]
      exact h.unbound hx
  sealed := rfl

namespace Eval

variable {e : Engine} {names : Names} {g : Global} {m : Machine}

theorem Calm.droppingOperands {α : Type} {R : Heap → Heap → Prop} {x : Eval α} {V : Heap → α → Prop}
    {E : Option Cause → Prop} (h : Calm R m x V E) : Calm R m (droppingOperands x) V E := by
  have htruncate {m' : Machine} (hs : m'.state = m.state) : m'.truncate m.state.valueDepth = m' :=
    Machine.truncate_of_le (hs ▸ Nat.le_refl _)
  refine ends_droppingOperands.2 (Ends.mono h ?_ ?_)
  · intro a m' h'
    rw [htruncate h'.1]
    exact h'
  · intro halt m' h'
    rw [htruncate h'.1]
    exact h'

theorem calm_globalValue (hg : g.Numeric) (hm : m.Knows names) :
    Calm Heap.Spares m (globalValue e g)
      (NumberIn fun p => g.denote (sizeOfTy e.program) e.fuel names = .ok p)
      fun c => g.denote (sizeOfTy e.program) e.fuel names = .error c := by
  obtain ⟨k, u, hty, hk⟩ := hg.ty
  unfold globalValue Global.denote
  rw [hty]
  cases hinit : g.init with
  | none => exact Mem.createValue_eq e.program hty hk ▸ .produces (Mem.produces_alloc _ _) rfl
  | some node =>
    have hvalue := (gives_evaluate (e := e) e.fuel (hg.init node hinit) hm).valueOf.droppingOperands
    refine Calm.bind (hvalue.mono (fun _ _ h => h) ?_) ?_
    · intro c hc
      simp [hc, Functor.map, Except.map]
    · rintro r m₁ - - ⟨p, hp, hr⟩
      exact .produces (Mem.produces_initialValue e hr hty hk) (by simp [hp, Functor.map, Except.map])

theorem ends_initializeGlobal (hg : g.Numeric) (hm : m.Initialised names) :
    Ends (initializeGlobal e g) m
      (fun _ m' => ∃ p, g.denote (sizeOfTy e.program) e.fuel names = .ok p ∧
        m'.Initialised (names.bind g.name.image p))
      fun halt m' => g.denote (sizeOfTy e.program) e.fuel names = .error halt.reason ∧
        m'.Initialised names := by
  unfold initializeGlobal
  rw [ends_bind]
  refine Ends.mono (calm_globalValue hg hm.toKnows) ?_ ?_
  · rintro r m' ⟨hs, hh, p, hp, hr⟩
    exact ⟨p, hp, (hm.mono hs hh).bind _ hr⟩
  · rintro halt m' ⟨hs, hh, hc⟩
    exact ⟨hc, hm.mono hs hh⟩

/-! ## The queue -/

section Queue

variable {pending order : List Global} {final : Names}

/-- Globals initialised one after another settle. -/
theorem forM_settles (order : List Global) (hnumeric : ∀ g ∈ order, g.Numeric) (hm : m.Initialised names) :
    Ends (order.forM (initializeGlobal e)) m
      (fun _ _ => ∃ final, Settles (sizeOfTy e.program) e.fuel names order final) fun _ _ => True := by
  induction order generalizing m names with
  | nil => exact ⟨names, .nil⟩
  | cons g rest ih =>
    refine ends_bind.2 ((ends_initializeGlobal (hnumeric g List.mem_cons_self) hm).mono ?_ fun _ _ _ => trivial)
    rintro _ m' ⟨p, hp, hm'⟩
    refine (ih (fun g' hg' => hnumeric g' (List.mem_cons_of_mem g hg')) hm').mono ?_ fun _ _ _ => trivial
    exact fun _ _ ⟨final, hrest⟩ => ⟨final, .cons hp hrest⟩

/-- Globals that settle can be initialised one after another. -/
theorem forM_ends (h : Settles (sizeOfTy e.program) e.fuel names order final)
    (hnumeric : ∀ g ∈ order, g.Numeric) (hm : m.Initialised names) :
    Ends (order.forM (initializeGlobal e)) m (fun _ _ => True) fun _ _ => False := by
  induction h generalizing m with
  | nil => trivial
  | @cons names final g rest p hp _ ih =>
    refine ends_bind.2 ((ends_initializeGlobal (hnumeric g List.mem_cons_self) hm).mono ?_ ?_)
    · rintro _ m' ⟨q, hq, hm'⟩
      cases hp.symm.trans hq
      exact ih (fun g' hg' => hnumeric g' (List.mem_cons_of_mem g hg')) hm'
    · rintro halt m' ⟨hc, -⟩
      cases hp.symm.trans hc

/-- The queue succeeds only with an order in which the pending globals settle. -/
theorem initializeGlobals_settles (pending : List Global) (stalled : Nat)
    (hnumeric : ∀ g ∈ pending, g.Numeric) (hm : m.Initialised names) :
    Ends (initializeGlobals e pending stalled) m
      (fun _ m' => ∃ order final, order.Perm pending ∧
        Settles (sizeOfTy e.program) e.fuel names order final ∧ m'.Initialised final)
      fun _ _ => True := by
  fun_induction initializeGlobals e pending stalled generalizing m names with
  | case1 => exact ⟨[], names, .refl _, .nil, hm⟩
  | case2 stalled g rest ihNext ihLater =>
    rw [ends_bind, ends_attempt]
    refine (ends_initializeGlobal (hnumeric g List.mem_cons_self) hm).mono ?_ ?_
    · rintro _ m' ⟨p, hp, hm'⟩
      refine (ihNext (fun g' hg' => hnumeric g' (List.mem_cons_of_mem g hg')) hm').mono ?_ fun _ _ h => h
      rintro _ m'' ⟨order, final, hperm, hsettles, hm''⟩
      exact ⟨g :: order, final, hperm.cons g, .cons hp hsettles, hm''⟩
    · rintro halt m' ⟨-, hm'⟩
      cases halt with
      | exhausted => trivial
      | fault f =>
        have hrotate : (rest ++ [g]).Perm (g :: rest) := List.perm_append_singleton g rest
        dsimp only
        split
        · rename_i hd
          refine (ihLater f hd (fun g' hg' => hnumeric g' (hrotate.mem_iff.1 hg')) hm').mono ?_ fun _ _ h => h
          rintro _ m'' ⟨order, final, hperm, hsettles, hm''⟩
          exact ⟨order, final, hperm.trans hrotate, hsettles, hm''⟩
        · trivial

/-- Some globals of an order in which all settle are pending, and the others are
    known. -/
structure Pending (order : List Global) (names final : Names) (pending : List Global) : Prop where
  mem : ∀ g ∈ pending, g ∈ order
  free : names.Free pending
  cover : ∀ g ∈ order, (∃ p, names g.name.image = some p) ∨ g ∈ pending
  within : names.Within final

theorem Pending.perm {pending' : List Global} (h : Pending order names final pending)
    (hperm : pending.Perm pending') : Pending order names final pending' where
  mem := fun g hg => h.mem g (hperm.mem_iff.2 hg)
  free := h.free.perm hperm
  cover := fun g hg => (h.cover g hg).imp id hperm.mem_iff.1
  within := h.within

theorem Pending.bind {rest : List Global} {p : Primitive} (h : Pending order names final (g :: rest))
    (hp : final g.name.image = some p) : Pending order (names.bind g.name.image p) final rest where
  mem := fun g' hg' => h.mem g' (List.mem_cons_of_mem g hg')
  free := h.free.bind p
  cover := by
    intro g' hg'
    rcases h.cover g' hg' with ⟨q, hq⟩ | hmem
    · exact .inl ⟨q, Names.Within.bind_of_none (h.free.unknown g List.mem_cons_self) p hq⟩
    · rcases List.mem_cons.1 hmem with rfl | hmem
      · exact .inl ⟨p, Names.bind_self _ p⟩
      · exact .inr hmem
  within := h.within.bind hp

/-- The globals that have been tried in vain are never all of the queue, as one can
    make progress. -/
theorem Pending.exists_untried {size : Ty → Option Nat} {fuel : Nat} {rest untried tried : List Global}
    (hsettles : Settles size fuel .empty order final) (hsolves : final.Solves size fuel order)
    (h : Pending order names final (g :: rest)) (hqueue : g :: rest = untried ++ tried)
    (htried : ∀ g ∈ tried, (g.denote size fuel names).Wanting) :
    ∃ front, untried = g :: front ∧ rest = front ++ tried := by
  cases untried with
  | cons g' front =>
    cases hqueue
    exact ⟨front, rfl, rfl⟩
  | nil =>
    obtain ⟨g', hg', p, hp⟩ := hsettles.progress hsolves (.empty names) h.within h.cover
      (fun g' hg' => ⟨h.mem g' hg', h.free.unknown g' hg'⟩) (List.cons_ne_nil g rest)
    rw [hqueue] at hg'
    obtain ⟨name, hname⟩ := htried g' hg'
    cases hp.symm.trans hname

/-- The queue succeeds if there is an order in which all globals settle. The last
    globals of the queue have been tried since the last success, and wanted for a
    name. -/
theorem initializeGlobals_ends (hsettles : Settles (sizeOfTy e.program) e.fuel .empty order final)
    (hsolves : final.Solves (sizeOfTy e.program) e.fuel order) (hnumeric : ∀ g ∈ order, g.Numeric)
    (hm : m.Initialised names) (hpending : Pending order names final pending) {stalled : Nat}
    {untried tried : List Global} (hqueue : pending = untried ++ tried) (hstalled : stalled = tried.length)
    (htried : ∀ g ∈ tried, (g.denote (sizeOfTy e.program) e.fuel names).Wanting) :
    Ends (initializeGlobals e pending stalled) m (fun _ _ => True) fun _ _ => False := by
  fun_induction initializeGlobals e pending stalled generalizing m names untried tried with
  | case1 => trivial
  | case2 stalled g rest ihNext ihLater =>
    have hg : g ∈ order := hpending.mem g List.mem_cons_self
    obtain ⟨p, hp, hdenote⟩ := hsolves g hg
    have hsettled := Global.denote_settled (sizeOfTy e.program) e.fuel hpending.within g
    rw [ends_bind, ends_attempt]
    refine (ends_initializeGlobal (hnumeric g hg) hm).mono ?_ ?_
    · rintro _ m' ⟨q, hq, hm'⟩
      cases hdenote.symm.trans (hsettled.ok hq)
      exact ihNext hm' (hpending.bind hp) (List.append_nil rest).symm rfl nofun
    · rintro halt m' ⟨hreason, hm'⟩
      -- the initialiser has a value once all is known, so that now a name is wanting
      obtain ⟨name, hwanting⟩ := hsettled.wanting hreason hdenote
      have hwants : halt.reason = some (.undefinedSymbol name) :=
        Except.error.inj (hreason.symm.trans hwanting)
      obtain ⟨front, rfl, rfl⟩ := hpending.exists_untried hsettles hsolves hqueue htried
      cases halt with
      | exhausted => cases hwants
      | fault f =>
        have hd : f.isDeferrable = true ∧ stalled ≤ (front ++ tried).length := by
          refine ⟨?_, by rw [hstalled, List.length_append]; exact Nat.le_add_left ..⟩
          unfold Fault.isDeferrable
          rw [Option.some.inj hwants]
        dsimp only
        rw [if_pos hd]
        refine ihLater f hd hm' (hpending.perm (List.perm_append_singleton g _).symm)
          (List.append_assoc front tried [g]) ?_ ?_
        · rw [hstalled, List.length_append, List.length_singleton]
        · intro g' hg'
          rcases List.mem_append.1 hg' with hg' | hg'
          · exact htried g' hg'
          · exact List.mem_singleton.1 hg' ▸ ⟨name, hwanting⟩

end Queue

end Eval

/-! ## Sessions -/

theorem Session.initialised_fresh (e : Engine) : (fresh e).machine.Initialised .empty where
  receiver := rfl
  bound := nofun
  unbound := fun _ => rfl
  sealed := rfl

theorem Names.Free.of_nodup {gs : List Global} (h : (gs.map (·.name.image)).Nodup) : Names.empty.Free gs :=
  ⟨h, fun _ _ => rfl⟩

/-- The same program with other globals. -/
def Engine.withGlobals (e : Engine) (gs : List Global) : Engine :=
  { e with program := { e.program with globals := gs } }

section Sizes

variable (p : Program) (gs : List Global)

theorem Program.ancestry_withGlobals (n : Nat) (c : Option Compound) :
    ancestry { p with globals := gs } n c = p.ancestry n c := by
  induction n generalizing c with
  | zero => rfl
  | succ n ih =>
    cases c with
    | none => rfl
    | some c => exact congrArg (c :: ·) (ih _)

theorem Program.allFields_withGlobals (name : String) :
    allFields { p with globals := gs } name = p.allFields name := by
  unfold allFields lineage
  rw [ancestry_withGlobals]
  rfl

theorem compoundSize_withGlobals (fuel : Nat) :
    compoundSize { p with globals := gs } fuel = compoundSize p fuel := by
  induction fuel with
  | zero => rfl
  | succ fuel ih =>
    funext name
    ext s
    rw [compoundSize_succ_eq_some_iff, compoundSize_succ_eq_some_iff, ih, p.allFields_withGlobals]

/-- Sizes do not depend on the globals. -/
theorem sizeOfTy_withGlobals : sizeOfTy { p with globals := gs } = sizeOfTy p := by
  funext ty
  unfold sizeOfTy
  rw [compoundSize_withGlobals]
  rfl

end Sizes

namespace Session

variable {e : Engine} {s : Session}

theorem create?_eq_ok (h : create? e = .ok s) :
    Eval.initializeGlobals e e.program.globals 0 (fresh e).machine = .ok () s.machine := by
  unfold create? setUp perform fresh at h
  unfold fresh
  dsimp only at h ⊢
  cases hrun : Eval.initializeGlobals e e.program.globals 0 { heap := { layout := e.layout } } with
  | ok u m =>
    rw [hrun] at h
    cases h
    rfl
  | error halt m =>
    rw [hrun] at h
    cases h

theorem exists_create? {m : Machine}
    (h : Eval.initializeGlobals e e.program.globals 0 (fresh e).machine = .ok () m) :
    ∃ s, create? e = .ok s := by
  unfold fresh at h
  unfold create? setUp perform fresh
  dsimp only at h ⊢
  rw [h]
  exact ⟨_, rfl⟩

/-- A session is created with an order in which the globals settle. -/
theorem settles_of_create? (hnumeric : ∀ g ∈ e.program.globals, g.Numeric) (h : create? e = .ok s) :
    ∃ order final, order.Perm e.program.globals ∧
      Settles (sizeOfTy e.program) e.fuel .empty order final ∧ s.machine.Initialised final :=
  (Eval.initializeGlobals_settles _ 0 hnumeric (initialised_fresh e)).of_ok (create?_eq_ok h)

theorem create?_of_settles {order : List Global} {final : Names}
    (hnodup : (e.program.globals.map (·.name.image)).Nodup)
    (hnumeric : ∀ g ∈ e.program.globals, g.Numeric) (hperm : order.Perm e.program.globals)
    (h : Settles (sizeOfTy e.program) e.fuel .empty order final) : ∃ s, create? e = .ok s := by
  have hfree := Names.Free.of_nodup hnodup
  have hpending : Eval.Pending order .empty final e.program.globals := {
    mem := fun g hg => hperm.mem_iff.2 hg
    free := hfree
    cover := fun g hg => .inr (hperm.mem_iff.1 hg)
    within := .empty final }
  have hends := Eval.initializeGlobals_ends h (h.solves (hfree.perm hperm.symm))
    (fun g hg => hnumeric g (hperm.mem_iff.1 hg)) (initialised_fresh e) hpending
    (List.append_nil _).symm rfl nofun
  cases hrun : Eval.initializeGlobals e e.program.globals 0 (fresh e).machine with
  | ok _ m => exact exists_create? hrun
  | error halt m => exact (hends.of_error hrun).elim

theorem exists_create?_iff (hnodup : (e.program.globals.map (·.name.image)).Nodup)
    (hnumeric : ∀ g ∈ e.program.globals, g.Numeric) :
    (∃ s, create? e = .ok s) ↔ ∃ order final, order.Perm e.program.globals ∧
      Settles (sizeOfTy e.program) e.fuel .empty order final := by
  constructor
  · rintro ⟨s, hs⟩
    obtain ⟨order, final, horder, hsettles, -⟩ := settles_of_create? hnumeric hs
    exact ⟨order, final, horder, hsettles⟩
  · rintro ⟨order, final, horder, hsettles⟩
    exact create?_of_settles hnodup hnumeric horder hsettles

theorem outcome_forM_iff {order : List Global} (hnumeric : ∀ g ∈ order, g.Numeric) :
    outcome (order.forM (Eval.initializeGlobal e)) (fresh e).machine = .ok () ↔
      ∃ final, Settles (sizeOfTy e.program) e.fuel .empty order final := by
  constructor
  · exact (Eval.forM_settles order hnumeric (initialised_fresh e)).of_outcome
  · rintro ⟨final, hsettles⟩
    have hends := Eval.forM_ends hsettles hnumeric (initialised_fresh e)
    unfold outcome
    cases hrun : order.forM (Eval.initializeGlobal e) (fresh e).machine with
    | ok _ m => rfl
    | error halt m => exact (hends.of_error hrun).elim

/-- Globals that are numbers may be declared in any order: a session can be
    created with one order if it can with another, and the globals then start with
    the same numbers, of their declared types. It can be created exactly when the
    globals can be initialised one after another in some order. -/
theorem create?_order_independent (e : Engine) {gs : List Global} (hperm : gs.Perm e.program.globals)
    (hnodup : (e.program.globals.map (·.name.image)).Nodup)
    (hnumeric : ∀ g ∈ e.program.globals, g.Numeric) :
    ((∃ s, create? e = .ok s) ↔ ∃ s', create? (e.withGlobals gs) = .ok s') ∧
    (∀ s s', create? e = .ok s → create? (e.withGlobals gs) = .ok s' → ∀ g ∈ e.program.globals,
      ∃ p, p.ty = g.ty.unqualified ∧ s.machine.global? g.name.image = some p ∧
        s'.machine.global? g.name.image = some p) ∧
    ((∃ s, create? e = .ok s) ↔ ∃ order : List Global, order.Perm e.program.globals ∧
      outcome (order.forM (Eval.initializeGlobal e)) (fresh e).machine = .ok ()) := by
  have hnumeric' : ∀ g ∈ (e.withGlobals gs).program.globals, g.Numeric :=
    fun g hg => hnumeric g (hperm.mem_iff.1 hg)
  have hnodup' : ((e.withGlobals gs).program.globals.map (·.name.image)).Nodup :=
    (hperm.map _).nodup_iff.2 hnodup
  have hsize : sizeOfTy (e.withGlobals gs).program = sizeOfTy e.program := sizeOfTy_withGlobals e.program gs
  refine ⟨?_, ?_, ?_⟩
  · rw [exists_create?_iff hnodup hnumeric, exists_create?_iff hnodup' hnumeric', hsize]
    constructor
    · rintro ⟨order, final, horder, hsettles⟩
      exact ⟨order, final, horder.trans hperm.symm, hsettles⟩
    · rintro ⟨order, final, horder, hsettles⟩
      exact ⟨order, final, horder.trans hperm, hsettles⟩
  · intro s s' hs hs' g hg
    obtain ⟨order, final, horder, hsettles, hm⟩ := settles_of_create? hnumeric hs
    obtain ⟨order', final', horder', hsettles', hm'⟩ := settles_of_create? hnumeric' hs'
    rw [hsize] at hsettles'
    have hfree := Names.Free.of_nodup hnodup
    have hsame : order'.Perm order := horder'.trans (hperm.trans horder.symm)
    have hsolves := hsettles.solves (hfree.perm horder.symm)
    have hsolves' := hsettles'.solves (hfree.perm (hsame.trans horder).symm)
    have hwithin : final.Within final' :=
      hsettles.within (.empty final') fun g' hg' => hsolves' g' (hsame.mem_iff.2 hg')
    obtain ⟨p, hp, hdenote⟩ := hsolves g (horder.mem_iff.2 hg)
    exact ⟨p, Global.ty_of_denote hdenote, hm.global? hp, hm'.global? (hwithin hp)⟩
  · rw [exists_create?_iff hnodup hnumeric]
    constructor
    · rintro ⟨order, final, horder, hsettles⟩
      have hnumeric : ∀ g ∈ order, g.Numeric := fun g hg => hnumeric g (horder.mem_iff.1 hg)
      exact ⟨order, horder, (outcome_forM_iff hnumeric).2 ⟨final, hsettles⟩⟩
    · rintro ⟨order, horder, hrun⟩
      have hnumeric : ∀ g ∈ order, g.Numeric := fun g hg => hnumeric g (horder.mem_iff.1 hg)
      obtain ⟨final, hsettles⟩ := (outcome_forM_iff hnumeric).1 hrun
      exact ⟨order, final, horder, hsettles⟩

/-- A program that declares a global before another that it starts from. -/
def backward : Engine where
  program := { globals := [
    { name := { image := "next" }, ty := .int,
      init := some (Build.binary .add (Build.id "base" .int) (Build.int 1)) },
    { name := { image := "base" }, ty := .int, init := some (Build.int 41) }] }
  fuel := 9

/-- It can be set up in either order. -/
theorem backward_order_independent :
    (∃ s, create? backward = .ok s) ∧
    ∃ s, create? (backward.withGlobals backward.program.globals.reverse) = .ok s := by
  have hnumeric : ∀ g ∈ backward.program.globals, g.Numeric := by
    have hty : Ty.int.IsNumber := ⟨.int, false, rfl, by decide⟩
    simp only [backward, List.forall_mem_cons]
    refine ⟨⟨hty, ?_⟩, ⟨hty, ?_⟩, nofun⟩
    · rintro _ ⟨⟩
      exact .binary .id (.literal nofun)
    · rintro _ ⟨⟩
      exact .literal nofun
  have h := create?_order_independent backward (List.reverse_perm _) (by decide) hnumeric
  have hs : ∃ s, create? backward = .ok s :=
    h.2.2.2 ⟨backward.program.globals.reverse, List.reverse_perm _, by decide +kernel⟩
  exact ⟨hs, h.1.1 hs⟩

end Session

end Treewalk
