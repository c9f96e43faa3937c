/-
  Runs followed step by step: what a computation gives from a machine of which
  enough is known.

  There is one equation for each of the ways to make computations, and one for each
  of the leaves of a tree; `dispatch_of_evaluate` and those after it lead from a result
  back to how it was found.
-/
import Treewalk.Proofs.Numbers
import Treewalk.Eval.Evaluate
import Treewalk.Tree.Build

namespace Treewalk

section Bind

variable {ε σ α β : Type} {x : EStateM ε σ α} {f : α → EStateM ε σ β} {s s' : σ}

theorem run_bind {a : α} (hx : x s = .ok a s') : (x >>= f) s = f a s' := by
  simp only [bind, EStateM.bind, hx]

theorem run_bind_error {err : ε} (hx : x s = .error err s') : (x >>= f) s = .error err s' := by
  simp only [bind, EStateM.bind, hx]

theorem bind_eq_ok_iff {b : β} : (x >>= f) s = .ok b s' ↔ ∃ a s₁, x s = .ok a s₁ ∧ f a s₁ = .ok b s' := by
  constructor
  · intro h
    cases hx : x s with
    | ok a s₁ => exact ⟨a, s₁, rfl, (run_bind hx).symm.trans h⟩
    | error err s₁ => cases (run_bind_error hx).symm.trans h
  · rintro ⟨a, s₁, hx, hf⟩
    exact (run_bind hx).trans hf

end Bind

namespace Machine

/-- The machine on which the routine of a call runs. -/
def entered (m : Machine) (receiver : Option Ref) (site : Token) : Machine :=
  { m with state := ((m.state.pushContext receiver).enterDiagnostic site).openCall }

/-- The machine once a token is noted: it is the last one, if it has a place. -/
def noted (m : Machine) : Option Token → Machine
  | some t => if t.location.isSome then { m with nearest := some t } else m
  | none => m

variable (m : Machine) (t : Option Token)

theorem noted_eq : ∃ nearest, m.noted t = { m with nearest := nearest } := by
  cases t with
  | none => exact ⟨m.nearest, rfl⟩
  | some t =>
    unfold noted
    dsimp only
    split
    · exact ⟨some t, rfl⟩
    · exact ⟨m.nearest, rfl⟩

@[simp] theorem noted_heap : (m.noted t).heap = m.heap := by
  obtain ⟨nearest, h⟩ := m.noted_eq t
  rw [h]

@[simp] theorem noted_state : (m.noted t).state = m.state := by
  obtain ⟨nearest, h⟩ := m.noted_eq t
  rw [h]

@[simp] theorem noted_output : (m.noted t).output = m.output := by
  obtain ⟨nearest, h⟩ := m.noted_eq t
  rw [h]

end Machine

namespace Eval

variable {α : Type} {e : Engine} {n : Nat} {ev : Evaluator} {m m' : Machine} {h : Heap} {r : Ref}

theorem run_ask {β : Type} (f : State → α) (g : α → Eval β) : (ask f >>= g) m = g (f m.state) m :=
  rfl

theorem run_look {β : Type} (f : Heap → α) (g : α → Eval β) : (look f >>= g) m = g (f m.heap) m :=
  rfl

theorem run_mem {x : Mem α} {a : α} (hx : x m.heap = .ok a h) :
    (liftM x : Eval α) m = .ok a { m with heap := h } := by
  change mem x m = _
  unfold mem
  dsimp only
  rw [hx]

theorem run_mem_error {x : Mem α} {halt : Halt} (hx : x m.heap = .error halt h) :
    (liftM x : Eval α) m = .error halt { m with heap := h } := by
  change mem x m = _
  unfold mem
  dsimp only
  rw [hx]

theorem mem_eq_ok_iff {x : Mem α} {a : α} :
    (liftM x : Eval α) m = .ok a m' ↔ ∃ h, x m.heap = .ok a h ∧ m' = { m with heap := h } := by
  constructor
  · intro hm
    cases hx : x m.heap with
    | ok b h =>
      cases (run_mem hx).symm.trans hm
      exact ⟨h, rfl, rfl⟩
    | error c h => cases (run_mem_error hx).symm.trans hm
  · rintro ⟨h, hx, rfl⟩
    exact run_mem hx

theorem run_look? {f : Heap → Except Cause α} {a : α} (hf : f m.heap = .ok a) : look? f m = .ok a m := by
  unfold look?
  rw [hf]

theorem run_look?_error {f : Heap → Except Cause α} {c : Cause} (hf : f m.heap = .error c) :
    look? f m = .error (.fault { cause := c }) m := by
  unfold look?
  rw [hf]

theorem look?_eq_ok_iff {f : Heap → Except Cause α} {a : α} :
    look? f m = .ok a m' ↔ f m.heap = .ok a ∧ m' = m := by
  constructor
  · intro hm
    unfold look? at hm
    cases hf : f m.heap with
    | ok b =>
      rw [hf] at hm
      cases hm
      exact ⟨rfl, rfl⟩
    | error c =>
      rw [hf] at hm
      cases hm
  · rintro ⟨hf, rfl⟩
    exact run_look? hf

theorem run_alloc (c : Cell) (g : Ref → Eval α) :
    (liftM (Mem.alloc c) >>= g) m = g ⟨m.heap.cells.size⟩ { m with heap := (m.heap.alloc c).2 } :=
  rfl

/-- Runs that end alike end alike once their faults are placed. -/
theorem run_placed {x y : Eval α} (l : Option Location) (hxy : x m = y m') : placed l x m = placed l y m' := by
  unfold placed
  rw [hxy]

theorem run_placed_ok {x : Eval α} {a : α} (l : Option Location) (hx : x m = .ok a m') :
    placed l x m = .ok a m' := by
  unfold placed
  rw [hx]

/-- A fault keeps the place it has, if there is none to give it. -/
theorem run_placed_none (x : Eval α) (m : Machine) : placed none x m = x m := by
  unfold placed
  cases x m with
  | ok a m' => rfl
  | error halt m' =>
    cases halt with
    | fault f =>
      obtain ⟨cause, location⟩ := f
      cases location <;> rfl
    | exhausted => rfl

theorem run_placed_error {x : Eval α} {halt : Halt} (l : Option Location) (hx : x m = .error halt m') :
    placed l x m = .error (halt.orLocation l) m' := by
  unfold placed
  rw [hx]
  cases halt <;> rfl

theorem run_droppingOperands {x : Eval α} {a : α} (hx : x m = .ok a m') :
    droppingOperands x m = .ok a (m'.truncate m.state.valueDepth) := by
  unfold droppingOperands bracket
  dsimp only [id]
  rw [hx]

theorem run_underDiagnostic {x : Eval α} {a : α} {site : Token}
    (hx : x { m with state := m.state.enterDiagnostic site } = .ok a m') :
    underDiagnostic e site x m = .ok a { m' with state := m'.state.exitDiagnostic } := by
  unfold underDiagnostic
  rw [hx]

theorem run_underDiagnostic_error {x : Eval α} {halt : Halt} {site : Token}
    (hx : x { m with state := m.state.enterDiagnostic site } = .error halt m') :
    underDiagnostic e site x m =
      .error halt { m'.capture e with state := (m'.capture e).state.exitDiagnostic } := by
  unfold underDiagnostic
  rw [hx]

theorem note_eq (t : Option Token) (m : Machine) : note t m = .ok () (m.noted t) := by
  cases t <;> rfl

/-- All that noting a token can change is which token came last. -/
theorem run_note (t : Option Token) (m : Machine) : ∃ nearest, note t m = .ok () { m with nearest := nearest } := by
  obtain ⟨nearest, h⟩ := m.noted_eq t
  exact ⟨nearest, h ▸ note_eq t m⟩

theorem run_visit (node : Node) (x : Eval Outcome) (m : Machine) :
    visit node x m = placed node.location? x (m.noted node.token) := by
  unfold visit
  rw [run_bind (note_eq _ m)]

/-- The innermost operand is taken. -/
theorem pop_eq {rest : List Ref} (h : m.state.values.items = r :: rest) :
    ∃ v : Stack Ref, v.items = rest ∧
      pop m = .ok (m.heap.flatten r) { m with state := { m.state with values := v } } := by
  obtain ⟨r', v, hv⟩ := Stack.pop?_isSome (s := m.state.values) (by rw [Stack.size_eq, h]; simp)
  obtain ⟨rfl, hrest⟩ := List.cons.inj (h.symm.trans (Stack.items_of_pop? hv))
  refine ⟨v, hrest.symm, ?_⟩
  unfold pop State.pop?
  rw [hv]
  rfl

/-- The value that a node leaves is taken from the operands again. -/
theorem run_valueOf {node : Node} (hn : ev node m = .ok .normal { m' with state := m'.state.push r })
    (hle : m.state.valueDepth ≤ m'.state.valueDepth) : valueOf ev node m = .ok (m'.heap.flatten r) m' := by
  have hdepth : m.state.valueDepth < (m'.state.push r).valueDepth := Nat.lt_succ_of_le hle
  unfold valueOf
  rw [run_ask, run_bind hn]
  dsimp only
  rw [run_ask, if_pos hdepth]
  rfl

theorem run_valueOf_error {node : Node} {halt : Halt} (hn : ev node m = .error halt m') :
    valueOf ev node m = .error halt m' := by
  unfold valueOf
  rw [run_ask, run_bind_error hn]

/-- A value is what the node has left on top of the operands. -/
theorem exists_of_valueOf {node : Node} (hr : valueOf ev node m = .ok r m') :
    ∃ m₁ v s, ev node m = .ok .normal m₁ ∧ m₁.state.pop? = some (v, s) ∧ r = m₁.heap.flatten v ∧
      m' = { m₁ with state := s } ∧ m.state.valueDepth ≤ s.valueDepth := by
  unfold valueOf at hr
  rw [run_ask] at hr
  obtain ⟨o, m₁, hn, hrest⟩ := bind_eq_ok_iff.1 hr
  cases o with
  | normal =>
    dsimp only at hrest
    rw [run_ask] at hrest
    split at hrest
    · rename_i hdepth
      unfold pop at hrest
      cases hpop : m₁.state.pop? with
      | none => rw [hpop] at hrest; cases hrest
      | some top =>
        obtain ⟨v, s⟩ := top
        rw [hpop] at hrest
        cases hrest
        obtain ⟨⟨_, values⟩, hvalues, ⟨⟩⟩ := Option.map_eq_some_iff.1 hpop
        exact ⟨m₁, v, _, hn, hpop, rfl, rfl, Nat.le_of_lt_succ (hdepth.trans_eq (Stack.size_of_pop? hvalues))⟩
    · cases hrest
  | brk | cont | returned => cases hrest

/-- Taking a value leaves the operands that were there. -/
theorem valueDepth_le_of_valueOf {node : Node} (hr : valueOf ev node m = .ok r m') :
    m.state.valueDepth ≤ m'.state.valueDepth := by
  obtain ⟨_, _, _, -, -, -, rfl, hle⟩ := exists_of_valueOf hr
  exact hle

theorem run_int (i : Int64) :
    valueOf (evaluate e (n + 1)) (Build.int i) m =
      .ok ⟨m.heap.cells.size⟩ { m with heap := (m.heap.alloc (.primitive (.int i))).2 } := by
  have hn : evaluate e (n + 1) (Build.int i) m = .ok .normal
      { m with
        heap := (m.heap.alloc (.primitive (.int i))).2
        state := m.state.push ⟨m.heap.cells.size⟩ } := rfl
  have hvalue : valueOf (evaluate e (n + 1)) (Build.int i) m =
      .ok _ { m with heap := (m.heap.alloc (.primitive (.int i))).2 } := run_valueOf hn (Nat.le_refl _)
  rw [hvalue, (Heap.Number.alloc ..).flatten]

/-- A name gives what it stands for. -/
theorem run_name {node : Node} {x : String} (hnode : node.construct = .id x) (hx : named m.state x = .ok r) :
    valueOf (evaluate e (n + 1)) node m = .ok (m.heap.flatten r) (m.noted node.token) := by
  rw [← m.noted_state node.token] at hx
  have hidentifier : identifier x (m.noted node.token) =
      .ok .normal { m.noted node.token with state := (m.noted node.token).state.push r } := by
    unfold identifier
    rw [run_ask, hx]
    rfl
  have hn : evaluate e (n + 1) node m =
      .ok .normal { m.noted node.token with state := (m.noted node.token).state.push r } := by
    rw [evaluate, run_visit]
    unfold dispatch
    rw [hnode]
    exact run_placed_ok _ hidentifier
  rw [run_valueOf hn (by simp), Machine.noted_heap]

/-- A name without a place leaves the machine as it was. -/
theorem run_id {x : String} (hx : named m.state x = .ok r) (ty : Ty) :
    valueOf (evaluate e (n + 1)) (Build.id x ty) m = .ok (m.heap.flatten r) m :=
  run_name rfl hx

theorem run_string {node : Node} {text : String} (hnode : node.construct = .string text)
    (hr : createString text m.heap = .ok r h) :
    valueOf (evaluate e (n + 1)) node m = .ok (h.flatten r) { m.noted node.token with heap := h } := by
  have hn : evaluate e (n + 1) node m = .ok .normal
      { m.noted node.token with heap := h, state := (m.noted node.token).state.push r } := by
    rw [evaluate, run_visit]
    unfold dispatch
    rw [hnode]
    refine run_placed_ok _ (run_bind (run_mem ?_))
    rw [Machine.noted_heap, hr]
  have hvalue : valueOf (evaluate e (n + 1)) node m = .ok _ { m.noted node.token with heap := h } :=
    run_valueOf hn (by simp)
  exact hvalue

/-- A compound assignment to a name: what the name stands for is found first, and
    read when the other operand has been evaluated. -/
theorem run_compound {x : String} {rhs : Node} {target : Ref} {p : Primitive} (hx : named m.state x = .ok target)
    (hp : m.heap.Number target p) (hr : valueOf (evaluate e (n + 1)) rhs m = .ok r m') (op : BinaryOp) (ty : Ty) :
    assignment (evaluate e (n + 1)) (.compound op) (Build.id x ty) rhs m =
      (do assign target (← binaryOperation op target r); yield target : Eval Outcome) m' := by
  unfold assignment
  rw [run_bind (run_id hx ty), hp.flatten, run_bind hr]

/-- A number that was just made is stored into another, which is left as the result. -/
theorem run_assign_new {target : Ref} {p : Primitive} (hp : m.heap.Number target p) (q : Primitive) :
    (do assign target ⟨m.heap.cells.size⟩; yield target : Eval Outcome)
        { m with heap := (m.heap.alloc (.primitive q)).2 } =
      .ok .normal { m with
        heap := (m.heap.alloc (.primitive q)).2.setCell target (.primitive (q.converted p.kind p.unsigned))
        state := m.state.push target } := by
  have hne : target ≠ ⟨m.heap.cells.size⟩ := fun heq => Nat.lt_irrefl _ (heq ▸ hp.lt)
  have hassign := Mem.assign_number (hp.spared (.alloc m.heap (.primitive q))) (.alloc m.heap q) hne
  rw [run_bind (run_mem (m := { m with heap := _ }) hassign)]
  rfl

/-! ## From results back -/

section Back

variable {k : Nat} {node : Node} {o : Outcome}

theorem dispatch_of_evaluate (hrun : evaluate e (k + 1) node m = .ok o m') :
    ∃ t, dispatch e k (evaluate e k) node { m with nearest := t } = .ok o m' := by
  obtain ⟨t, ht⟩ := m.noted_eq node.token
  rw [evaluate, run_visit, ht] at hrun
  refine ⟨t, ?_⟩
  cases hd : dispatch e k (evaluate e k) node { m with nearest := t } with
  | ok o m₁ => rwa [run_placed_ok _ hd] at hrun
  | error halt m₁ => cases (run_placed_error _ hd).symm.trans hrun

theorem exists_of_yield {value : Nat → Eval Ref}
    (hx : ∀ k₀, dispatch e k₀ (evaluate e k₀) node = value k₀ >>= yield)
    (hr : valueOf (evaluate e k) node m = .ok r m') :
    ∃ k₀ t v, k = k₀ + 1 ∧ value k₀ { m with nearest := t } = .ok v m' ∧ r = m'.heap.flatten v := by
  obtain ⟨m₁, v, s, hn, hpop, rfl, rfl, -⟩ := exists_of_valueOf hr
  cases k with
  | zero => cases hn
  | succ k₀ =>
    obtain ⟨t, hdispatch⟩ := dispatch_of_evaluate hn
    rw [hx] at hdispatch
    obtain ⟨w, m₂, hvalue, ⟨⟩⟩ := bind_eq_ok_iff.1 hdispatch
    cases hpop
    exact ⟨k₀, t, v, rfl, hvalue, rfl⟩

/-- The value of a name is what it stands for. -/
theorem exists_of_id {name : String} (hx : node.construct = .id name) (hr : valueOf (evaluate e k) node m = .ok r m') :
    ∃ v, named m.state name = .ok v ∧ r = m.heap.flatten v ∧ m'.heap = m.heap := by
  obtain ⟨m₁, v, s, hn, hpop, rfl, rfl, -⟩ := exists_of_valueOf hr
  cases k with
  | zero => cases hn
  | succ k₀ =>
    obtain ⟨t, hdispatch⟩ := dispatch_of_evaluate hn
    unfold dispatch at hdispatch
    rw [hx] at hdispatch
    dsimp only at hdispatch
    unfold identifier at hdispatch
    rw [run_ask] at hdispatch
    cases hnamed : named m.state name with
    | error => rw [hnamed] at hdispatch; cases hdispatch
    | ok w =>
      rw [hnamed] at hdispatch
      cases hdispatch
      cases hpop
      exact ⟨v, rfl, rfl, rfl⟩

end Back

/-- An engine for expressions that call nothing. -/
def noProgram : Engine where
  program := {}

end Eval

end Treewalk
