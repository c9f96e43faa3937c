/-
  A loop with clauses is a loop that tests.

  * `Loop`: the parts of a loop; `Loop.asFor` is the loop with its clauses, `Loop.asWhile` a
    block with its start and a loop that tests, the step standing after the body;
  * `Loop.Plain`: wherever the loop comes to them, its start and its step end normally or halt,
    and its body does not end with `continue`. So it is if the clauses are expressions or
    declarations and no `continue` stands in the body (`Loop.Plain.of_simple`);
  * `EndsMoved ρ r r'`: both computations end alike, and the second machine is the first with its
    ids moved;
  * `asFor_eq_asWhile`: a plain loop and the loop that tests end alike.

  In between stands `through`, the rounds of the loop that tests without the nodes around them.
  The loop with clauses goes in step with it; the loop that tests has more nodes above its body
  and needs more fuel.
-/
import Treewalk.Proofs.Boundary
import Treewalk.Proofs.Endings
import Treewalk.Proofs.Truth

namespace Treewalk

/-! ## Ends -/

/-- The computation was not given up. -/
def Finishes {α : Type} (r : EStateM.Result Halt Machine α) : Prop :=
  ∀ m, r ≠ .error .exhausted m

/-- Two computations end alike, with the same outcome or for the same cause, and the second
    machine is the first with its ids moved. -/
inductive EndsMoved (ρ : Relocation) :
    EStateM.Result Halt Machine Outcome → EStateM.Result Halt Machine Outcome → Prop
  | ok {m m' : Machine} (o : Outcome) (hm : m.Relocated ρ m') : EndsMoved ρ (.ok o m) (.ok (ρ.outcome o) m')
  | error {m m' : Machine} {halt halt' : Halt} (hhalt : halt'.reason = halt.reason) (hm : m.Relocated ρ m') :
    EndsMoved ρ (.error halt m) (.error halt' m')

theorem Relocation.none_outcome (o : Outcome) : none.outcome o = o := by
  cases o with
  | returned value => exact congrArg Outcome.returned Option.map_id_apply
  | normal | brk | cont => rfl

/-- What there was before is not moved, nor is any block. -/
structure Relocation.Spares (ρ : Relocation) (n : Nat) : Prop where
  ordered : ρ.ordered
  ref : ∀ r : Ref, r.id < n → ρ.ref r = r
  block : ∀ b, ρ.block b = b

theorem Relocation.Spares.none (n : Nat) : Relocation.none.Spares n :=
  ⟨trivial, fun _ _ => rfl, fun _ => rfl⟩

theorem Outcome.Settled.moved {o : Outcome} (ho : o.Settled) (ρ : Relocation) : (ρ.outcome o).Settled := by
  cases o with
  | returned value => exact ⟨by simp [Relocation.outcome], by simp [Relocation.outcome]⟩
  | normal | brk | cont => exact ho

theorem Halt.cause_eq_reason {sync : Bool} {halt : Halt} (h : sync = false → halt ≠ .exhausted) :
    halt.cause sync = some halt.reason := by
  cases halt with
  | fault f => rfl
  | exhausted =>
    cases sync with
    | true => rfl
    | false => exact absurd rfl (h rfl)

theorem Halt.reason_of_cause {sync : Bool} {halt : Halt} {c : Option Cause} (h : halt.cause sync = some c) :
    halt.reason = c := by
  cases halt with
  | fault f => exact Option.some.inj h
  | exhausted =>
    cases sync with
    | true => exact Option.some.inj h
    | false => cases h

theorem finishes_ok {α : Type} (a : α) (m : Machine) : Finishes (.ok a m : EStateM.Result Halt Machine α) := by
  intro m' h
  cases h

theorem finishes_error {α : Type} {halt : Halt} {m : Machine} :
    Finishes (.error halt m : EStateM.Result Halt Machine α) ↔ halt.reason ≠ none := by
  constructor
  · intro h hnone
    cases halt with
    | fault f => cases hnone
    | exhausted => exact h m rfl
  · rintro h m' heq
    cases heq
    exact h rfl

namespace EndsMoved

open Eval

variable {ρ : Relocation} {r r' r'' : EStateM.Result Halt Machine Outcome} {x y : Eval Outcome} {m m' : Machine}

theorem refl (r : EStateM.Result Halt Machine Outcome) : EndsMoved .none r r := by
  cases r with
  | ok o m =>
    have hok := EndsMoved.ok o (Machine.Relocated.refl m)
    rwa [Relocation.none_outcome] at hok
  | error halt m => exact .error rfl (.refl m)

theorem symm (h : EndsMoved .none r r') : EndsMoved .none r' r := by
  cases h with
  | ok o hm =>
    have hok := EndsMoved.ok o hm.symm
    rw [Relocation.none_outcome] at hok ⊢
    exact hok
  | error hhalt hm => exact .error hhalt.symm hm.symm

theorem trans (h : EndsMoved ρ r r') (h' : EndsMoved .none r' r'') : EndsMoved ρ r r'' := by
  cases h with
  | ok o hm =>
    cases h' with
    | ok _ hm' =>
      rw [Relocation.none_outcome]
      exact .ok o (hm.trans hm')
  | error hhalt hm =>
    cases h' with
    | error hhalt' hm' => exact .error (hhalt'.trans hhalt) (hm.trans hm')

theorem of_unmoved (h : EndsMoved .none r r') (h' : EndsMoved ρ r' r'') : EndsMoved ρ r r'' := by
  cases h with
  | ok o hm =>
    rw [Relocation.none_outcome] at h'
    cases h' with
    | ok _ hm' => exact .ok o (hm.of_unmoved hm')
  | error hhalt hm =>
    cases h' with
    | error hhalt' hm' => exact .error (hhalt'.trans hhalt) (hm.of_unmoved hm')

theorem finishes_iff (h : EndsMoved ρ r r') : Finishes r ↔ Finishes r' := by
  cases h with
  | ok o hm => exact iff_of_true (finishes_ok _ _) (finishes_ok _ _)
  | error hhalt hm => rw [finishes_error, finishes_error, hhalt]

theorem exists_ok {o : Outcome} (h : EndsMoved ρ r (.ok o m)) : ∃ o' m', r = .ok o' m' ∧ o = ρ.outcome o' := by
  cases h with
  | ok o' hm => exact ⟨o', _, rfl, rfl⟩

/-- What is followed ends alike, unless it is given up and they are not in step. -/
theorem of_follows {sync : Bool} (h : Follows (Halt.cause sync) (Machine.Relocated ρ) ρ.outcome x y m m')
    (hfinishes : sync = false → Finishes (x m)) : EndsMoved ρ (x m) (y m') := by
  cases hx : x m with
  | ok o m₁ =>
    obtain ⟨m₁', hy, hm₁⟩ := h.of_ok hx
    rw [hy]
    exact .ok o hm₁
  | error halt m₁ =>
    have hhalt : sync = false → halt ≠ .exhausted := by
      rintro hsync rfl
      exact hfinishes hsync m₁ hx
    obtain ⟨halt', m₁', hy, hcause, hm₁⟩ := h.of_error hx _ (Halt.cause_eq_reason hhalt)
    rw [hy]
    exact .error (Halt.reason_of_cause hcause) hm₁

theorem placed (l : Option Location) (x : Eval Outcome) (m : Machine) :
    EndsMoved .none (Eval.placed l x m) (x m) := by
  unfold Eval.placed
  cases x m with
  | ok o m₁ => exact .refl _
  | error halt m₁ => cases halt <;> exact .error rfl (.refl m₁)

theorem inScope
    (h : EndsMoved ρ (x { m with state := m.state.openScope }) (y { m' with state := m'.state.openScope })) :
    EndsMoved ρ (Eval.inScope x m) (Eval.inScope y m') := by
  have hclose {m₁ m₁' : Machine} (hm : m₁.Relocated ρ m₁') : Machine.Relocated ρ
      { m₁ with state := m₁.state.closeScope } { m₁' with state := m₁'.state.closeScope } :=
    ⟨hm.heap, hm.state.closeScope, hm.output⟩
  unfold Eval.inScope bracket
  generalize x { m with state := m.state.openScope } = r at h
  generalize y { m' with state := m'.state.openScope } = r' at h
  cases h with
  | ok o hm => exact .ok o (hclose hm)
  | error hhalt hm => exact .error hhalt (hclose hm)

end EndsMoved

/-! ## Loops -/

/-- The parts of a loop with a start, a condition and a step. -/
structure Loop where
  init : Option Node
  cond : Option Node
  step : Option Node
  body : Node

namespace Loop

variable (l : Loop)

def asFor : Node :=
  Build.forLoop l.init l.cond l.step l.body

/-- The condition, a missing one being `true`. -/
def test : Node :=
  l.cond.getD (Build.boolean true)

/-- The body and the step. -/
def round : List Node :=
  l.body :: l.step.toList

def asWhile : Node :=
  Build.block (l.init.toList ++ [Build.whileLoop l.test (Build.declarations l.round)])

/-- A part of the loop that is next. -/
inductive Point where
  | init
  | cond
  | body
  | step

/-- The machines that the loop comes to, given how nodes are evaluated. -/
inductive Reaches (l : Loop) (ev : Evaluator) (m : Machine) : Point → Machine → Prop
  | init : l.Reaches ev m .init { m with state := m.state.openScope }
  | enter {s s' : Machine} (hs : l.Reaches ev m .init s) (hrun : Eval.clause ev l.init s = .ok () s') :
    l.Reaches ev m .cond s'
  | hold {s s' : Machine} (hs : l.Reaches ev m .cond s) (hrun : Eval.clauseHolds ev l.cond s = .ok true s') :
    l.Reaches ev m .body s'
  | proceed {s s' : Machine} (hs : l.Reaches ev m .body s) (hrun : Eval.execute ev l.body s = .ok .normal s') :
    l.Reaches ev m .step s'
  | again {s s' : Machine} (hs : l.Reaches ev m .step s) (hrun : Eval.clause ev l.step s = .ok () s') :
    l.Reaches ev m .cond s'

/-- Where the loop comes to them, its start and its step end normally or halt, and its body does
    not end with `continue`. -/
structure Plain (l : Loop) (e : Engine) (m : Machine) : Prop where
  init : ∀ k s, l.Reaches (Eval.evaluate e k) m .init s →
    ∀ n ∈ l.init, ∀ o s', Eval.evaluate e k n s = .ok o s' → o = .normal
  step : ∀ k s, l.Reaches (Eval.evaluate e k) m .step s →
    ∀ n ∈ l.step, ∀ o s', Eval.evaluate e k n s = .ok o s' → o = .normal
  body : ∀ k s, l.Reaches (Eval.evaluate e k) m .body s → ∀ s', Eval.evaluate e k l.body s ≠ .ok .cont s'

/-- A loop is plain if its clauses are expressions or declarations, and no `continue` stands in
    its body. -/
theorem Plain.of_simple {l : Loop} (hinit : ∀ n ∈ l.init, n.construct.isSimple)
    (hstep : ∀ n ∈ l.step, n.construct.isSimple) (hbody : l.body.Throughout (· ≠ .cont)) (e : Engine)
    (m : Machine) : l.Plain e m where
  init := fun k _ _ n hn _ _ hrun => (Eval.normally_evaluate e k (hinit n hn)).of_ok hrun
  step := fun k _ _ n hn _ _ hrun => (Eval.normally_evaluate e k (hstep n hn)).of_ok hrun
  body := fun k _ _ _ hrun => (Eval.not_cont_evaluate e k hbody).of_ok hrun rfl

end Loop

namespace Eval

variable {α : Type} {e : Engine} {ev : Evaluator} {ρ : Relocation} {n j k : Nat} {m m' s s' : Machine}
  {x y once once' : Eval Outcome} {test : Eval Bool} {l : Loop}

/-! ## One statement after the other -/

/-- The second, if the first ends normally. -/
def andThen (x y : Eval Outcome) : Eval Outcome := do
  match ← x with
  | .normal => y
  | o => return o

theorem andThen_normal (x : Eval Outcome) : andThen x (pure .normal) = x := by
  unfold andThen
  conv_rhs => rw [← bind_pure x]
  refine congrArg (x >>= ·) (funext fun o => ?_)
  cases o <;> rfl

theorem andThen_assoc (x y z : Eval Outcome) : andThen (andThen x y) z = andThen x (andThen y z) := by
  unfold andThen
  rw [bind_assoc]
  refine congrArg (x >>= ·) (funext fun o => ?_)
  cases o <;> rfl

theorem executeAll_cons (ev : Evaluator) (node : Node) (rest : List Node) :
    executeAll ev (node :: rest) = andThen (execute ev node) (executeAll ev rest) :=
  rfl

theorem executeAll_append (ev : Evaluator) (nodes rest : List Node) :
    executeAll ev (nodes ++ rest) = andThen (executeAll ev nodes) (executeAll ev rest) := by
  induction nodes with
  | nil => rfl
  | cons node nodes ih => rw [List.cons_append, executeAll_cons, executeAll_cons, ih, andThen_assoc]

theorem executeAll_singleton (ev : Evaluator) (node : Node) : executeAll ev [node] = execute ev node :=
  andThen_normal _

/-! ## In step

Where the loop is plain, its clauses do what statements do. -/

theorem execute_ok {node : Node} {o : Outcome} (h : execute ev node s = .ok o s') : ∃ s₁, ev node s = .ok o s₁ := by
  unfold execute droppingOperands bracket at h
  dsimp only [id] at h
  cases hev : ev node s with
  | ok o' s₁ =>
    rw [hev] at h
    cases h
    exact ⟨s₁, rfl⟩
  | error halt s₁ =>
    rw [hev] at h
    cases h

/-- A clause that ends normally or halts is a statement. -/
theorem executeAll_toList {o : Option Node} (ho : ∀ node ∈ o, ∀ r s', ev node s = .ok r s' → r = .normal) :
    executeAll ev o.toList s = (clause ev o >>= fun _ => pure Outcome.normal) s := by
  cases o with
  | none => rfl
  | some node =>
    have hclause : (clause ev (some node) >>= fun _ => pure Outcome.normal) =
        execute ev node >>= fun _ => pure Outcome.normal :=
      bind_map_left _ _ _
    rw [hclause, Option.toList_some, executeAll_singleton]
    cases h : execute ev node s with
    | ok r s₁ =>
      obtain ⟨s₂, hev⟩ := execute_ok h
      rw [run_bind h, ho node rfl r s₂ hev]
      rfl
    | error halt s₁ => rw [run_bind_error h]

/-- The step is a statement after the body. -/
theorem pass_eq_executeAll {step : Option Node} {body : Node} (hbody : ∀ s', ev body s ≠ .ok .cont s')
    (hstep : ∀ s', execute ev body s = .ok .normal s' →
      ∀ node ∈ step, ∀ o s'', ev node s' = .ok o s'' → o = .normal) :
    pass ev step body s = executeAll ev (body :: step.toList) s := by
  rw [executeAll_cons]
  unfold pass andThen
  cases h : execute ev body s with
  | error halt s₁ => rw [run_bind_error h, run_bind_error h]
  | ok o s₁ =>
    rw [run_bind h, run_bind h]
    cases o with
    | normal => exact (executeAll_toList (hstep s₁ h)).symm
    | cont =>
      obtain ⟨s₂, hev⟩ := execute_ok h
      exact absurd hev (hbody s₂)
    | brk | returned => rfl

/-- Rounds are the same if the passes are, wherever the rounds come to. `T` holds where a round
    starts, `B` where its pass does. -/
theorem cycle_congr (T B : Machine → Prop) (hT : ∀ s s', T s → test s = .ok true s' → B s')
    (hB : ∀ s o s', B s → once s = .ok o s' → afterBody o = .next → T s')
    (honce : ∀ s, B s → once s = once' s) (hs : T s) : cycle test once k s = cycle test once' k s := by
  induction k generalizing s with
  | zero => rfl
  | succ k ih =>
    unfold cycle
    cases ht : test s with
    | error halt s₁ => rw [run_bind_error ht, run_bind_error ht]
    | ok b s₁ =>
      rw [run_bind ht, run_bind ht]
      cases b with
      | false => rfl
      | true =>
        have hs₁ := hT s s₁ hs ht
        have hsame := honce s₁ hs₁
        simp only [if_true]
        cases ho : once s₁ with
        | error halt s₂ => rw [run_bind_error ho, run_bind_error (hsame.symm.trans ho)]
        | ok o s₂ =>
          rw [run_bind ho, run_bind (hsame.symm.trans ho)]
          cases hflow : afterBody o with
          | next => exact ih (hB s₁ o s₂ hs₁ ho hflow)
          | exit => rfl

/-- The rounds of the loop that tests, after its start. -/
def through (l : Loop) (ev : Evaluator) (test : Eval Bool) (k : Nat) : Eval Outcome :=
  inScope (andThen (executeAll ev l.init.toList) (cycle test (executeAll ev l.round) k))

theorem run_inScope (h : x { m with state := m.state.openScope } = y { m with state := m.state.openScope }) :
    inScope x m = inScope y m := by
  unfold inScope bracket
  rw [h]

theorem rounds_eq_of_plain (hplain : l.Plain e m) (hs : l.Reaches (evaluate e k) m .cond s) (j : Nat) :
    rounds (evaluate e k) l.cond l.step l.body j s =
      cycle (clauseHolds (evaluate e k) l.cond) (executeAll (evaluate e k) l.round) j s := by
  rw [rounds_eq_cycle]
  refine cycle_congr (l.Reaches (evaluate e k) m .cond) (l.Reaches (evaluate e k) m .body) (fun _ _ => .hold) ?_ ?_ hs
  · intro s₁ o s₂ hs₁ ho hflow
    obtain ⟨o', s₃, hbody, hrest⟩ := bind_eq_ok_iff.1 ho
    cases o' with
    | normal =>
      obtain ⟨_, s₄, hstep, hnormal⟩ := bind_eq_ok_iff.1 hrest
      cases hnormal
      exact .again (.proceed hs₁ hbody) hstep
    | cont =>
      obtain ⟨s₄, hev⟩ := execute_ok hbody
      exact absurd hev (hplain.body k s₁ hs₁ s₄)
    | brk | returned =>
      cases hrest
      cases hflow
  · intro s₁ hs₁
    exact pass_eq_executeAll (hplain.body k s₁ hs₁) fun s₂ hbody => hplain.step k s₂ (.proceed hs₁ hbody)

theorem forLoop_eq_through (hplain : l.Plain e m) (k : Nat) :
    forLoop (evaluate e k) l.init l.cond l.step l.body k m =
      through l (evaluate e k) (clauseHolds (evaluate e k) l.cond) k m := by
  refine run_inScope ?_
  let s : Machine := { m with state := m.state.openScope }
  have hinit : executeAll (evaluate e k) l.init.toList s =
      (clause (evaluate e k) l.init >>= fun _ => pure Outcome.normal) s :=
    executeAll_toList (hplain.init k s .init)
  unfold andThen
  cases h : clause (evaluate e k) l.init s with
  | error halt s₁ => rw [run_bind_error h, run_bind_error (hinit.trans (run_bind_error h))]
  | ok u s₁ =>
    rw [run_bind h, run_bind (hinit.trans (run_bind h))]
    exact rounds_eq_of_plain hplain (.enter .init h) k

/-! ## Missing conditions

Instead of a missing condition the loop that tests evaluates `true`, and so makes a value in
each round that nothing refers to. All that is made afterwards has other ids. -/

theorem run_true (e : Engine) (k : Nat) (m : Machine) :
    holds (evaluate e (k + 1)) (Build.boolean true) m =
      .ok true { m with heap := (m.heap.alloc (.primitive (.char 1))).2 } := by
  have hnumber := Heap.Number.alloc m.heap (.char 1)
  have hn : evaluate e (k + 1) (Build.boolean true) m = .ok .normal
      { m with
        heap := (m.heap.alloc (.primitive (.char 1))).2
        state := m.state.push ⟨m.heap.cells.size⟩ } := rfl
  have hvalue : valueOf (evaluate e (k + 1)) (Build.boolean true) m =
      .ok _ { m with heap := (m.heap.alloc (.primitive (.char 1))).2 } := run_valueOf hn (Nat.le_refl _)
  rw [hnumber.flatten] at hvalue
  rw [run_holds hvalue hnumber.truthOf]
  unfold Machine.truncate State.truncate State.valueDepth
  rw [Stack.truncate_of_size_le (Nat.le_refl _)]
  rfl

/-- Rounds that make a value for each test are rounds without a test, ids moved further each
    time. -/
theorem endsMoved_cycle (honce : ∀ ρ : Relocation, ρ.ordered → Tracks true ρ 0 ρ.outcome once once Outcome.In)
    (htest : ∀ m, ∃ c, test m = .ok true { m with heap := (m.heap.alloc c).2 }) (hm : m.Sound) (hn : n ≤ m.size)
    (hρ : ρ.Spares n) (hmm : m.Relocated ρ m') :
    ∃ σ : Relocation, σ.Spares n ∧ EndsMoved σ (cycle (pure true) once k m) (cycle test once k m') := by
  induction k generalizing m m' ρ with
  | zero => exact ⟨ρ, hρ, .error rfl hmm⟩
  | succ k ih =>
    obtain ⟨c, htest'⟩ := htest m'
    obtain ⟨σ, hσ, hordered, href, hblock⟩ := hmm.alloc hm c
    have honce' := honce σ (hordered hρ.ordered)
    have hspares : σ.Spares n :=
      ⟨hordered hρ.ordered, fun r hr => (href r (Nat.lt_of_lt_of_le hr hn)).trans (hρ.ref r hr), fun b => (hblock b).trans (hρ.block b)⟩
    have hfollows := honce'.follows m _ hm (Nat.zero_le _) hσ
    unfold cycle
    rw [pure_bind, run_bind htest']
    simp only [if_true]
    cases ho : once m with
    | error halt m₁ =>
      obtain ⟨halt', m₁', ho', hcause, hmm₁⟩ := hfollows.of_error ho _ (Halt.cause_eq_reason (by simp))
      rw [run_bind_error ho, run_bind_error ho']
      exact ⟨σ, hspares, .error (Halt.reason_of_cause hcause) hmm₁⟩
    | ok o m₁ =>
      obtain ⟨m₁', ho', hmm₁⟩ := hfollows.of_ok ho
      obtain ⟨hm₁, hle, -⟩ := (honce'.safe m hm (Nat.zero_le _)).of_ok ho
      rw [run_bind ho, run_bind ho']
      cases o with
      | normal | cont => exact ih hm₁ (hn.trans hle) hspares hmm₁
      | brk => exact ⟨σ, hspares, .ok .normal hmm₁⟩
      | returned value => exact ⟨σ, hspares, .ok (.returned value) hmm₁⟩

/-- A test that makes a value each time, in place of none. -/
theorem endsMoved_through (hm : m.Sound) (l : Loop) (e : Engine) (k : Nat) :
    ∃ σ : Relocation, σ.Spares m.size ∧ EndsMoved σ (through l (evaluate e k) (pure true) k m)
      (through l (evaluate e k) (holds (evaluate e k) (Build.boolean true)) k m) := by
  let s : Machine := { m with state := m.state.openScope }
  have hs : s.Sound := ⟨hm.heap, hm.state.openScope⟩
  have hinside : ∃ σ : Relocation, σ.Spares m.size ∧ EndsMoved σ
      (andThen (executeAll (evaluate e k) l.init.toList) (cycle (pure true) (executeAll (evaluate e k) l.round) k) s)
      (andThen (executeAll (evaluate e k) l.init.toList)
        (cycle (holds (evaluate e k) (Build.boolean true)) (executeAll (evaluate e k) l.round) k) s) := by
    unfold andThen
    cases hinit : executeAll (evaluate e k) l.init.toList s with
    | error halt s₁ =>
      rw [run_bind_error hinit, run_bind_error hinit]
      exact ⟨.none, .none _, .refl _⟩
    | ok o s₁ =>
      rw [run_bind hinit, run_bind hinit]
      cases o with
      | normal =>
        obtain ⟨hs₁, hle, -⟩ := (safe_executeAll (safe_evaluate e k) l.init.toList s hs (Nat.zero_le _)).of_ok hinit
        cases k with
        | zero => exact ⟨.none, .none _, .refl _⟩
        | succ k =>
          exact endsMoved_cycle
            (fun ρ hρ => tracks_executeAll (fun n node => tracks_evaluate hρ e (.refl true _) n node) _)
            (fun m => ⟨_, run_true e k m⟩) hs₁ hle (.none _) (.refl s₁)
      | brk | cont | returned => exact ⟨.none, .none _, .refl _⟩
  obtain ⟨σ, hσ, hends⟩ := hinside
  exact ⟨σ, hσ, .inScope hends⟩

/-! ## Nodes around the rounds -/

theorem flat_placed {x : Eval α} (l : Option Location) (hx : Flat x) : Flat (placed l x) :=
  fun m => ends_placed.2 (hx m)

theorem flat_holds (hev : ∀ node, Orderly Heap.Retains (ev node)) (cond : Node) : Flat (holds ev cond) :=
  .bind (flat_droppingOperands (orderly_valueOf (hev cond))) fun _ => flat_mem _

theorem flat_cycle (htest : Flat test) (honce : Flat once) (k : Nat) : Flat (cycle test once k) := by
  induction k with
  | zero => exact .throw trivial
  | succ k ih =>
    refine .bind htest fun b => ?_
    split
    · refine .bind honce fun o => ?_
      split
      · exact ih
      · exact .pure _
    · exact .pure _

/-- Where no operands are left none are dropped. -/
theorem droppingOperands_eq {x : Eval α} (hx : Flat x) : droppingOperands x = x := by
  have htruncate (m m' : Machine) (h : m'.state.values = m.state.values) : m'.truncate m.state.valueDepth = m' := by
    unfold Machine.truncate State.truncate State.valueDepth
    rw [← h, Stack.truncate_of_size_le (Nat.le_refl _)]
  funext m
  have hends := hx m
  unfold droppingOperands bracket
  dsimp only [id]
  cases hm : x m with
  | ok a m' => exact congrArg (EStateM.Result.ok a) (htruncate m m' (hends.of_ok hm))
  | error halt m' => exact congrArg (EStateM.Result.error halt) (htruncate m m' (hends.of_error hm).1)

theorem execute_declarations (e : Engine) (k : Nat) (nodes : List Node) :
    execute (evaluate e (k + 1)) (Build.declarations nodes) =
      placed (Build.declarations nodes).location? (executeAll (evaluate e k) nodes) :=
  droppingOperands_eq (flat_placed _ (flat_executeAll (orderly_evaluate e k) nodes))

theorem execute_whileLoop (e : Engine) (k : Nat) (cond body : Node) :
    execute (evaluate e (k + 1)) (Build.whileLoop cond body) =
      placed (Build.whileLoop cond body).location?
        (cycle (holds (evaluate e k) cond) (execute (evaluate e k) body) k) := by
  rw [← whileLoop_eq_cycle]
  refine droppingOperands_eq (flat_placed _ ?_)
  change Flat (whileLoop (evaluate e k) cond body k)
  rw [whileLoop_eq_cycle]
  have hev := orderly_evaluate e k
  exact flat_cycle (flat_holds hev cond) (flat_droppingOperands (hev body)) k

theorem execute_zero (e : Engine) (node : Node) : execute (evaluate e 0) node = throw .exhausted := by
  change droppingOperands (throw Halt.exhausted) = _
  exact droppingOperands_eq (.throw trivial)

theorem evaluate_asWhile (e : Engine) (k : Nat) (l : Loop) :
    evaluate e (k + 1) l.asWhile = placed l.asWhile.location? (inScope
      (andThen (executeAll (evaluate e k) l.init.toList)
        (execute (evaluate e k) (Build.whileLoop l.test (Build.declarations l.round))))) := by
  rw [← executeAll_singleton, ← executeAll_append]
  rfl

section Around

variable {V : Nat → Outcome → Prop}

theorem tracks_placed_left {sync : Bool} (h : Tracks sync ρ n ρ.outcome x y V) (l : Option Location) :
    Tracks sync ρ n ρ.outcome (placed l x) y V := by
  have hplaced := tracks_placed l none h
  rwa [show placed none y = y from funext (run_placed_none y)] at hplaced

theorem tracks_placed_right {sync : Bool} (h : Tracks sync ρ n ρ.outcome x y V) (l : Option Location) :
    Tracks sync ρ n ρ.outcome x (placed l y) V := by
  have hplaced := tracks_placed none l h
  rwa [show placed none x = x from funext (run_placed_none x)] at hplaced

end Around

theorem tracks_andThen {sync : Bool} {x' y' : Eval Outcome} (hx : Tracks sync ρ n ρ.outcome x x' Outcome.In)
    (hy : ∀ n, Tracks sync ρ n ρ.outcome y y' Outcome.In) :
    Tracks sync ρ n ρ.outcome (andThen x y) (andThen x' y') Outcome.In := by
  refine .bind hx fun n' _ o ho => ?_
  cases o with
  | normal => exact hy n'
  | brk | cont | returned => exact .pure fun _ hle => ho.mono hle

/-- The loop that tests ends as its rounds do, which get no less fuel. -/
theorem tracks_through_of_asWhile (hρ : ρ.ordered) (e : Engine) (l : Loop) (k : Nat) :
    Tracks false ρ n ρ.outcome (evaluate e k l.asWhile) (through l (evaluate e k) (holds (evaluate e k) l.test) k)
      Outcome.In := by
  have hev {j : Nat} (hj : j ≤ k) (n : Nat) (node : Node) :
      Tracks false ρ n ρ.outcome (evaluate e j node) (evaluate e k node) Outcome.In :=
    tracks_evaluate hρ e (.of_le hj) n node
  cases k with
  | zero => exact .given_up rfl _
  | succ k =>
    rw [evaluate_asWhile]
    refine tracks_placed_left (tracks_inScope (tracks_andThen (tracks_executeAll (hev (by omega)) _) fun n => ?_)) _
    cases k with
    | zero =>
      rw [execute_zero]
      exact .given_up rfl _
    | succ k =>
      rw [execute_whileLoop]
      refine tracks_placed_left (tracks_cycle (fun _ => tracks_holds (hev (by omega)) _) (fun n => ?_) ?_) _
      · cases k with
        | zero =>
          rw [execute_zero]
          exact .given_up rfl _
        | succ k =>
          rw [execute_declarations]
          exact tracks_placed_left (tracks_executeAll (hev (by omega)) _) _
      · exact .of_le (by omega)

/-- The loop that tests has three nodes above its body. -/
theorem tracks_asWhile_of_through (hρ : ρ.ordered) (e : Engine) (l : Loop) (k : Nat) :
    Tracks false ρ n ρ.outcome (through l (evaluate e k) (holds (evaluate e k) l.test) k) (evaluate e (k + 3) l.asWhile)
      Outcome.In := by
  have hev {j : Nat} (hj : k ≤ j) (n : Nat) (node : Node) :
      Tracks false ρ n ρ.outcome (evaluate e k node) (evaluate e j node) Outcome.In :=
    tracks_evaluate hρ e (.of_le hj) n node
  rw [evaluate_asWhile]
  refine tracks_placed_right (tracks_inScope (tracks_andThen (tracks_executeAll (hev (by omega)) _) fun n => ?_)) _
  rw [execute_whileLoop]
  refine tracks_placed_right (tracks_cycle (fun _ => tracks_holds (hev (by omega)) _) (fun n => ?_) ?_) _
  · rw [execute_declarations]
    exact tracks_placed_right (tracks_executeAll (hev (by omega)) _) _
  · exact .of_le (by omega)

/-! ## Results -/

/-- A node that finishes with some fuel ends alike with any other. -/
theorem endsMoved_evaluate (hm : m.Sound) (e : Engine) {node : Node} (hj : Finishes (evaluate e j node m))
    (hk : Finishes (evaluate e k node m)) : EndsMoved .none (evaluate e j node m) (evaluate e k node m) := by
  rcases Nat.le_total j k with hle | hle
  · exact .of_follows (follows_evaluate_moved trivial hm (.refl m) e (.of_le hle) node) fun _ => hj
  · exact .symm (.of_follows (follows_evaluate_moved trivial hm (.refl m) e (.of_le hle) node) fun _ => hk)

/-- The loop with clauses goes in step with the rounds of the loop that tests. -/
theorem endsMoved_asFor (hm : m.Sound) (hplain : l.Plain e m) (k : Nat) :
    ∃ ρ : Relocation, ρ.Spares m.size ∧ (l.cond.isSome → ρ = .none) ∧
      EndsMoved ρ (evaluate e (k + 1) l.asFor m) (through l (evaluate e k) (holds (evaluate e k) l.test) k m) := by
  have hplaced : EndsMoved .none (evaluate e (k + 1) l.asFor m)
      (through l (evaluate e k) (clauseHolds (evaluate e k) l.cond) k m) := by
    rw [← forLoop_eq_through hplain]
    exact .placed _ _ m
  obtain ⟨init, cond, step, body⟩ := l
  cases cond with
  | some cond => exact ⟨.none, .none _, fun _ => rfl, hplaced⟩
  | none =>
    obtain ⟨ρ, hρ, hends⟩ := endsMoved_through hm ⟨init, none, step, body⟩ e k
    exact ⟨ρ, hρ, nofun, hplaced.of_unmoved hends⟩

/-- Some fuel is enough for the loop that tests if it was for the rounds. -/
theorem endsMoved_asWhile_of_through (hm : m.Sound)
    (hk : Finishes (through l (evaluate e k) (holds (evaluate e k) l.test) k m)) :
    EndsMoved .none (through l (evaluate e k) (holds (evaluate e k) l.test) k m) (evaluate e (k + 3) l.asWhile m) :=
  .of_follows ((tracks_asWhile_of_through trivial e l k).follows m m hm (Nat.zero_le _) (.refl m)) fun _ => hk

theorem endsMoved_through_of_asWhile (hm : m.Sound) (hk : Finishes (evaluate e k l.asWhile m)) :
    EndsMoved .none (evaluate e k l.asWhile m) (through l (evaluate e k) (holds (evaluate e k) l.test) k m) :=
  .of_follows ((tracks_through_of_asWhile trivial e l k).follows m m hm (Nat.zero_le _) (.refl m)) fun _ => hk

theorem exists_finishes_iff (hm : m.Sound) (hplain : l.Plain e m) :
    (∃ k, Finishes (evaluate e k l.asFor m)) ↔ ∃ k, Finishes (evaluate e k l.asWhile m) := by
  constructor
  · rintro ⟨k, hk⟩
    cases k with
    | zero => exact absurd rfl (hk m)
    | succ k =>
      obtain ⟨ρ, -, -, hends⟩ := endsMoved_asFor hm hplain k
      have hrounds := hends.finishes_iff.1 hk
      exact ⟨k + 3, (endsMoved_asWhile_of_through hm hrounds).finishes_iff.1 hrounds⟩
  · rintro ⟨k, hk⟩
    obtain ⟨ρ, -, -, hends⟩ := endsMoved_asFor hm hplain k
    exact ⟨k + 1, hends.finishes_iff.2 ((endsMoved_through_of_asWhile hm hk).finishes_iff.1 hk)⟩

theorem exists_endsMoved (hm : m.Sound) (hplain : l.Plain e m) (hj : Finishes (evaluate e j l.asFor m))
    (hk : Finishes (evaluate e k l.asWhile m)) :
    ∃ ρ : Relocation, ρ.Spares m.size ∧ (l.cond.isSome → ρ = .none) ∧
      EndsMoved ρ (evaluate e j l.asFor m) (evaluate e k l.asWhile m) := by
  cases j with
  | zero => exact absurd rfl (hj m)
  | succ j =>
    obtain ⟨ρ, hρ, hexact, hfor⟩ := endsMoved_asFor hm hplain j
    have hrounds := hfor.finishes_iff.1 hj
    -- with just enough fuel for the rounds first, and then with any other
    have henough := endsMoved_asWhile_of_through hm hrounds
    have hwhile := endsMoved_evaluate hm e (henough.finishes_iff.1 hrounds) hk
    exact ⟨ρ, hρ, hexact, (hfor.trans henough).trans hwhile⟩

theorem settled_asFor (e : Engine) (l : Loop) (k : Nat) : EndsWith Outcome.Settled (evaluate e k l.asFor) := by
  cases k with
  | zero => exact .throw _
  | succ k => exact .visit l.asFor (settled_forLoop _ _ _ _ _ k)

/-- The start could be left otherwise, if the loop were not plain. -/
theorem settled_asWhile (hm : m.Sound) (hplain : l.Plain e m) {o : Outcome}
    (hrun : evaluate e k l.asWhile m = .ok o m') : o.Settled := by
  have hfinishes : Finishes (evaluate e k l.asWhile m) := hrun ▸ finishes_ok o m'
  obtain ⟨j, hj⟩ := (exists_finishes_iff hm hplain).2 ⟨k, hfinishes⟩
  obtain ⟨ρ, -, -, hends⟩ := exists_endsMoved hm hplain hj hfinishes
  rw [hrun] at hends
  obtain ⟨o', m₁, hfor, rfl⟩ := hends.exists_ok
  exact ((settled_asFor e l j).of_ok hfor).moved ρ

/-- Names stand for the same around a node with a scope of its own, however it ends. -/
theorem named_evaluate (e : Engine) (k : Nat) {node : Node} (hn : node.opensScope) (m : Machine) (name : String) :
    named (leaves (evaluate e k node) m).state name = named m.state name := by
  have hframe := frame_evaluate (e := e) k hn m
  have hcontexts : (leaves (evaluate e k node) m).state.contexts = m.state.contexts :=
    Ends.leaves (P := fun m' : Machine => m'.state.contexts = m.state.contexts)
      ((orderly_evaluate e k node m).mono (fun _ _ h => h.state.contexts) fun _ _ h => h.1.state.contexts)
  unfold named State.receiver? State.lookup?
  rw [hframe, hcontexts]

/-- A plain loop with clauses finishes if and only if the loop that tests does, and both end
    alike. Heap, names, operands and output are the same; only where there is no condition the
    values made in the loop have other ids. Neither loop is left by `break` or `continue`, and
    around them names stand for what they stood for. -/
theorem asFor_eq_asWhile (hm : m.Sound) (hplain : l.Plain e m) :
    ((∃ k, Finishes (evaluate e k l.asFor m)) ↔ ∃ k, Finishes (evaluate e k l.asWhile m)) ∧
    (∀ j k, Finishes (evaluate e j l.asFor m) → Finishes (evaluate e k l.asWhile m) →
      ∃ ρ : Relocation, ρ.Spares m.size ∧ (l.cond.isSome → ρ = .none) ∧
        EndsMoved ρ (evaluate e j l.asFor m) (evaluate e k l.asWhile m)) ∧
    ∀ node ∈ [l.asFor, l.asWhile],
      (∀ k o m', evaluate e k node m = .ok o m' → o.Settled) ∧
      ∀ k name, named (leaves (evaluate e k node) m).state name = named m.state name := by
  refine ⟨exists_finishes_iff hm hplain, fun _ _ => exists_endsMoved hm hplain, fun node hnode => ?_⟩
  rcases List.mem_pair.1 hnode with rfl | rfl
  · exact ⟨fun k _ _ hrun => (settled_asFor e l k).of_ok hrun, fun k name => named_evaluate e k rfl m name⟩
  · exact ⟨fun _ _ _ => settled_asWhile hm hplain, fun k name => named_evaluate e k rfl m name⟩

/-- With two rounds, the second of which is left by `break`. -/
def leftByBreak : Loop where
  init := some (Build.declareInit "i" .int (Build.int 0))
  cond := some (Build.binary .lt (Build.id "i" .int) (Build.int 3))
  step := some (Build.unary (.step .increment) (Build.id "i" .int))
  body := Build.ifThen (Build.binary .eq (Build.id "i" .int) (Build.int 1)) Build.brk

theorem leftByBreak_eq :
    outcome (evaluate noProgram 6 leftByBreak.asFor) {} = .ok .normal ∧
      ∃ k, EndsMoved .none (evaluate noProgram 6 leftByBreak.asFor {})
        (evaluate noProgram k leftByBreak.asWhile {}) := by
  have hleaf {node : Node} (hown : node.construct ≠ .cont) (hnone : node.construct.children = []) :
      node.Throughout (· ≠ .cont) := .mk hown fun c hc => absurd (hnone ▸ hc) List.not_mem_nil
  have hcond : (Build.binary .eq (Build.id "i" .int) (Build.int 1)).Throughout (· ≠ .cont) := by
    refine .mk nofun fun c hc => ?_
    rcases List.mem_pair.1 hc with rfl | rfl <;> exact hleaf nofun rfl
  have hbody : leftByBreak.body.Throughout (· ≠ .cont) := by
    refine .mk nofun fun c hc => ?_
    rcases List.mem_pair.1 hc with rfl | rfl
    · exact hcond
    · exact hleaf nofun rfl
  have hsimple : (∀ n ∈ leftByBreak.init, n.construct.isSimple) ∧ ∀ n ∈ leftByBreak.step, n.construct.isSimple := by
    constructor <;> rintro n ⟨⟩ <;> rfl
  have hend : outcome (evaluate noProgram 6 leftByBreak.asFor) {} = .ok .normal := by decide +kernel
  have hfinishes : Finishes (evaluate noProgram 6 leftByBreak.asFor {}) := by
    intro m' h
    unfold outcome at hend
    rw [h] at hend
    cases hend
  obtain ⟨hiff, hends, -⟩ := asFor_eq_asWhile .empty (.of_simple hsimple.1 hsimple.2 hbody noProgram {})
  obtain ⟨k, hk⟩ := hiff.1 ⟨6, hfinishes⟩
  obtain ⟨ρ, -, hexact, hmoved⟩ := hends 6 k hfinishes hk
  cases hexact rfl
  exact ⟨hend, k, hmoved⟩

end Eval

end Treewalk
