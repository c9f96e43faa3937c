/-
  How a call comes to its routine.

  * `Passed` is the evaluation of one argument, and `Passing ev m l m'`: from `m` the
    evaluations `l` follow one another, each leaving its value as an operand;
  * `Entry` is a routine about to run, with all that it is given, and
    `Enters e ev c m entry`: the call `c` comes to that entry. There is one case for
    each kind of call;
  * `dispatch_of_enters`: from there on the call is the run of the routine, and
    `enters_of_dispatch`: a call that gives a result has come to an entry;
  * `Enters.items`: in a plain program the operands are then the arguments, on top of
    those that were there.
-/
import Treewalk.Proofs.Discipline
import Treewalk.Proofs.MirrorsEval
import Treewalk.Proofs.Resolution

namespace Treewalk

/-! ## Arguments -/

/-- The evaluation of an argument. -/
structure Passed where
  node : Node
  before : Machine
  value : Ref
  after : Machine

namespace Eval

variable {e : Engine} {ev : Evaluator} {fuel : Nat} {m m' : Machine} {l : List Passed} {a : Passed}

/-- The arguments are evaluated one after the other, and their values left as
    operands. -/
inductive Passing (ev : Evaluator) : Machine → List Passed → Machine → Prop
  | nil {m : Machine} : Passing ev m [] m
  | cons {node : Node} {m m₁ m' : Machine} {r : Ref} {l : List Passed} :
      valueOf ev node m = .ok r m₁ → Passing ev { m₁ with state := m₁.state.push r } l m' →
      Passing ev m (⟨node, m, r, m₁⟩ :: l) m'

theorem pushValues_eq_ok_iff {nodes : List Node} {u : Unit} :
    pushValues ev nodes m = .ok u m' ↔ ∃ l, l.map Passed.node = nodes ∧ Passing ev m l m' := by
  induction nodes generalizing m with
  | nil =>
    constructor
    · rintro ⟨⟩
      exact ⟨[], rfl, .nil⟩
    · rintro ⟨l, hl, h⟩
      cases List.map_eq_nil_iff.1 hl
      cases h
      rfl
  | cons node rest ih =>
    unfold pushValues
    rw [bind_eq_ok_iff]
    constructor
    · rintro ⟨r, m₁, hr, hrest⟩
      obtain ⟨l, rfl, hl⟩ := ih.1 hrest
      exact ⟨⟨node, m, r, m₁⟩ :: l, rfl, .cons hr hl⟩
    · rintro ⟨l, hl, h⟩
      cases h with
      | nil => cases hl
      | cons hr h =>
        obtain ⟨rfl, rfl⟩ := List.cons_eq_cons.1 hl
        exact ⟨_, _, hr, ih.2 ⟨_, rfl, h⟩⟩

namespace Passing

/-- Each of the evaluations is a run of the evaluator. -/
theorem valueOf_eq (h : Passing ev m l m') (ha : a ∈ l) : valueOf ev a.node a.before = .ok a.value a.after := by
  induction h with
  | nil => cases ha
  | cons hr _ ih =>
    rcases List.mem_cons.1 ha with rfl | ha
    · exact hr
    · exact ih ha

/-- What every evaluation and every new operand keeps is kept by all of them, up to
    the start of each and from its end on. -/
theorem relates {R : Machine → Machine → Prop} (hrefl : ∀ m, R m m)
    (htrans : ∀ m₁ m₂ m₃, R m₁ m₂ → R m₂ m₃ → R m₁ m₃) (hpush : ∀ m r, R m { m with state := m.state.push r })
    (h : Passing ev m l m') (hl : ∀ a ∈ l, R a.before a.after) :
    R m m' ∧ ∀ a ∈ l, R m a.before ∧ R a.after m' := by
  induction h with
  | nil => exact ⟨hrefl _, by simp⟩
  | @cons node m m₁ m' r l hr _ ih =>
    obtain ⟨hrest, heach⟩ := ih fun a ha => hl a (List.mem_cons_of_mem _ ha)
    have hlater := htrans _ _ _ (hpush m₁ r) hrest
    have hfirst : R m m₁ := hl _ List.mem_cons_self
    refine ⟨htrans _ _ _ hfirst hlater, fun a ha => ?_⟩
    rcases List.mem_cons.1 ha with rfl | ha
    · exact ⟨hrefl _, hlater⟩
    · exact ⟨htrans _ _ _ hfirst (htrans _ _ _ (hpush m₁ r) (heach a ha).1), (heach a ha).2⟩

/-- After an argument come the later ones. -/
theorem later {earlier later : List Passed} (h : Passing ev m (earlier ++ a :: later) m') :
    Passing ev { a.after with state := a.after.state.push a.value } later m' := by
  induction earlier generalizing m with
  | nil => cases h with | cons _ h => exact h
  | cons _ _ ih => cases h with | cons _ h => exact ih h

/-- Where no evaluation leaves more than its value, the operands are the values. -/
theorem items (h : Passing ev m l m') (hy : ∀ a ∈ l, Yields (ev a.node)) :
    m'.state.values.items = (l.map Passed.value).reverse ++ m.state.values.items := by
  induction h with
  | nil => rfl
  | cons hr _ ih =>
    have hlevel := (level_valueOf (hy _ List.mem_cons_self) _).of_ok hr
    rw [ih fun a ha => hy a (List.mem_cons_of_mem _ ha)]
    simp [State.push, Stack.push, hlevel]

end Passing

end Eval

/-! ## Calls -/

/-- A routine about to run, with its arguments in place. -/
structure Entry where
  routine : Routine
  /-- how the call appears in diagnostics -/
  site : Token
  receiver : Option Ref
  passed : List Passed
  machine : Machine
  /-- what the call makes of the result -/
  answer : Option Ref → Eval Outcome

/-- The node calls a routine of the program: neither a builtin, nor a constructor that
    the class does not have. -/
def Program.Calls (p : Program) : Construct Node → Prop
  | .call name _ => Builtin.ofName? name.image = none
  | .methodCall .. => True
  | .construct c _ => ∃ r, p.constructor? c = some r
  | _ => False

/-- The arguments of a call. -/
def Construct.operands {α : Type} : Construct α → List α
  | .call _ args | .methodCall _ _ args | .construct _ args => args
  | _ => []

namespace Eval

variable {e : Engine} {ev : Evaluator} {fuel : Nat} {m m' : Machine} {node : Node} {entry : Entry}
  {o : Outcome}

/-- The call comes to the entry. -/
inductive Enters (e : Engine) (ev : Evaluator) : Construct Node → Machine → Entry → Prop
  | function {name : Token} {f : Routine} {l : List Passed} {m m' : Machine} :
      Builtin.ofName? name.image = none → e.program.function? name.image = some f →
      l.length = f.arity → Passing ev m l m' →
      Enters e ev (.call name (l.map Passed.node)) m ⟨f, name, none, l, m', yieldResult⟩
  | method {owner : Node} {method : Token} {o receiver : Ref} {cls : String} {r : Routine} {h : Heap}
      {l : List Passed} {m m₁ m' : Machine} :
      valueOf ev owner m = .ok o m₁ → receiverOf o m₁.heap = .ok (receiver, cls) h →
      Passing ev { m₁ with heap := h } l m' →
      e.program.resolveMethod cls method.image
        ((m'.state.above m₁.state.valueDepth).map m'.heap.tyOf) = .ok r →
      Enters e ev (.methodCall owner method (l.map Passed.node)) m
        ⟨r, method.member cls method.image, some receiver, l, m', yieldResult⟩
  | construct {c : ConstructorRef} {k : Compound} {object receiver : Ref} {r : Routine} {h₁ h₂ : Heap}
      {l : List Passed} {m m' : Machine} :
      e.program.compound? c.className = some k → createValue e.program k.ty m.heap = .ok object h₁ →
      toPointer object h₁ = .ok receiver h₂ → k.constructors[c.index]? = some r →
      l.length = r.arity → Passing ev { m with heap := h₂ } l m' →
      Enters e ev (.construct c (l.map Passed.node)) m
        ⟨r, r.name.member c.className constructorName, some receiver, l, m', fun _ => yield receiver⟩

theorem pushArguments_of_passing {l : List Passed} {arity : Nat} (harity : l.length = arity)
    (hl : Passing ev m l m') : pushArguments ev (l.map Passed.node) arity m = .ok () m' := by
  unfold pushArguments
  rw [if_neg (by simp [harity])]
  exact pushValues_eq_ok_iff.2 ⟨l, rfl, hl⟩

theorem passing_of_pushArguments {nodes : List Node} {arity : Nat} {u : Unit}
    (h : pushArguments ev nodes arity m = .ok u m') :
    ∃ l : List Passed, l.map Passed.node = nodes ∧ l.length = arity ∧ Passing ev m l m' := by
  unfold pushArguments at h
  split at h
  · obtain ⟨_, _, hfail, -⟩ := bind_eq_ok_iff.1 h
    cases hfail
  · rename_i harity
    obtain ⟨l, rfl, hl⟩ := pushValues_eq_ok_iff.1 h
    exact ⟨l, rfl, by simpa using harity, hl⟩

theorem not_isEmpty_of_getElem? {constructors : List Routine} {i : Nat} {r : Routine} {args : List Node}
    (hr : constructors[i]? = some r) : (!(constructors.isEmpty && args.isEmpty)) = true := by
  cases constructors with
  | nil => cases hr
  | cons => rfl

/-- Once a call has come to its entry, it runs the routine there. -/
theorem dispatch_of_enters (hentry : Enters e ev node.construct m entry) :
    dispatch e fuel ev node m =
      (invoke e ev fuel entry.routine entry.site entry.receiver >>= entry.answer) entry.machine := by
  unfold dispatch
  generalize node.construct = c at hentry
  cases hentry with
  | function hbuiltin hf harity hl =>
    dsimp only
    rw [hbuiltin]
    dsimp only
    unfold callFunction
    rw [hf]
    exact run_bind (pushArguments_of_passing harity hl)
  | @method _ _ _ _ _ _ _ l _ _ _ ho hreceiver hl hr =>
    dsimp only
    exact run_callMethod_ok ho hreceiver (pushValues_eq_ok_iff.2 ⟨l, rfl, hl⟩) hr
  | @construct c k object receiver r h₁ h₂ l m m' hk hobject hreceiver hr harity hl =>
    dsimp only
    unfold callConstructor
    rw [hk]
    dsimp only
    rw [run_bind (run_mem hobject), run_bind (run_mem (m := { m with heap := h₁ }) hreceiver),
      if_pos (not_isEmpty_of_getElem? hr), hr]
    dsimp only
    rw [run_bind (pushArguments_of_passing harity hl)]
    exact congrFun (bind_map_left _ _ _) m'

/-- A call that gives a result has come to its entry. -/
theorem enters_of_dispatch (hcalls : e.program.Calls node.construct)
    (hrun : dispatch e fuel ev node m = .ok o m') : ∃ entry, Enters e ev node.construct m entry := by
  unfold dispatch at hrun
  generalize node.construct = c at hcalls hrun
  cases c with
  | call name args =>
    have hbuiltin : Builtin.ofName? name.image = none := hcalls
    dsimp only at hrun
    rw [hbuiltin] at hrun
    dsimp only at hrun
    unfold callFunction at hrun
    cases hf : e.program.function? name.image with
    | none => rw [hf] at hrun; cases hrun
    | some f =>
      rw [hf] at hrun
      obtain ⟨_, m₁, hargs, -⟩ := bind_eq_ok_iff.1 hrun
      obtain ⟨l, rfl, harity, hl⟩ := passing_of_pushArguments hargs
      exact ⟨_, .function hbuiltin hf harity hl⟩
  | methodCall owner method args =>
    change callMethod e ev (invoke e ev fuel) owner method args m = .ok o m' at hrun
    have hsteps := hrun
    unfold callMethod at hsteps
    obtain ⟨r, m₁, hr, hsteps⟩ := bind_eq_ok_iff.1 hsteps
    obtain ⟨⟨receiver, cls⟩, m₂, hreceiver, hsteps⟩ := bind_eq_ok_iff.1 hsteps
    obtain ⟨h, hreceiver', rfl⟩ := mem_eq_ok_iff.1 hreceiver
    dsimp only at hsteps
    rw [run_ask] at hsteps
    obtain ⟨_, m₃, hargs, -⟩ := bind_eq_ok_iff.1 hsteps
    cases hchosen : e.program.resolveMethod cls method.image
        ((m₃.state.above m₁.state.valueDepth).map m₃.heap.tyOf) with
    | ok r =>
      obtain ⟨l, rfl, hl⟩ := pushValues_eq_ok_iff.1 hargs
      exact ⟨_, .method hr hreceiver' hl hchosen⟩
    | error cause => cases (run_callMethod_error hr hreceiver' hargs hchosen).symm.trans hrun
  | construct c args =>
    obtain ⟨r, hr⟩ := hcalls
    obtain ⟨k, hk, hr⟩ := Option.bind_eq_some_iff.1 hr
    dsimp only at hrun
    unfold callConstructor at hrun
    rw [hk] at hrun
    dsimp only at hrun
    obtain ⟨object, m₁, hobject, hrun⟩ := bind_eq_ok_iff.1 hrun
    obtain ⟨h₁, hobject', rfl⟩ := mem_eq_ok_iff.1 hobject
    obtain ⟨receiver, m₂, hreceiver, hrun⟩ := bind_eq_ok_iff.1 hrun
    obtain ⟨h₂, hreceiver', rfl⟩ := mem_eq_ok_iff.1 hreceiver
    rw [if_pos (not_isEmpty_of_getElem? hr), hr] at hrun
    obtain ⟨_, m₃, hargs, -⟩ := bind_eq_ok_iff.1 hrun
    obtain ⟨l, rfl, harity, hl⟩ := passing_of_pushArguments hargs
    exact ⟨_, .construct hk hobject' hreceiver' hr harity hl⟩
  | _ => exact hcalls.elim

/-! ## What is in place -/

/-- The arguments were evaluated from left to right. -/
theorem Enters.passing {c : Construct Node} (hentry : Enters e ev c m entry) :
    entry.passed.map Passed.node = c.operands ∧ ∃ m₁, Passing ev m₁ entry.passed entry.machine := by
  cases hentry with
  | function _ _ _ hl => exact ⟨rfl, _, hl⟩
  | method _ _ hl _ => exact ⟨rfl, _, hl⟩
  | construct _ _ _ _ _ hl => exact ⟨rfl, _, hl⟩

section Plain

variable (hy : ∀ a ∈ entry.passed, Yields (ev a.node)) (hentry : Enters e ev node.construct m entry)
include hy hentry

/-- The arguments are the innermost operands, and there is one for each parameter. -/
theorem Enters.items : entry.routine.arity = entry.passed.length ∧
    ∃ below, entry.machine.state.values.items = (entry.passed.map Passed.value).reverse ++ below := by
  generalize node.construct = c at hentry
  cases hentry with
  | function _ _ harity hl => exact ⟨harity.symm, _, hl.items hy⟩
  | @method _ _ _ _ _ _ _ l _ m₁ m' _ _ hl hr =>
    have hitems := hl.items hy
    refine ⟨?_, _, hitems⟩
    have hsize : m'.state.valueDepth = l.length + m₁.state.valueDepth := by
      unfold State.valueDepth
      rw [m'.state.values.size_eq, hitems, m₁.state.values.size_eq]
      simp
    have harity := Program.arity_of_resolveMethod hr
    rw [List.length_map, State.above, List.length_reverse, List.length_take, ← m'.state.values.size_eq] at harity
    unfold State.valueDepth at harity hsize
    dsimp only
    omega
  | construct _ _ _ _ harity hl => exact ⟨harity.symm, _, hl.items hy⟩

end Plain

/-- A value is never a slot with something in it. -/
theorem flatten_of_valueOf {r : Ref} (hr : valueOf ev node m = .ok r m') (hm : m'.heap.Sound) :
    m'.heap.flatten r = r := by
  obtain ⟨m₁, v, s, -, -, rfl, rfl, -⟩ := exists_of_valueOf hr
  exact flatten_flatten hm v

section Sound

variable (hev : ∀ n node, Safe n (ev node) Outcome.In)
include hev

/-- The heap stays sound, and every value stays where it is. -/
theorem Passing.sound {l : List Passed} (h : Passing ev m l m') (hm : m.Sound) :
    m'.Sound ∧ m.size ≤ m'.size ∧
      ∀ a ∈ l, a.after.Sound ∧ a.value.In a.after.size ∧ a.after.size ≤ m'.size := by
  induction h with
  | nil => exact ⟨hm, Nat.le_refl _, by simp⟩
  | @cons node m m₁ m' r l hr _ ih =>
    obtain ⟨hm₁, hle, hin⟩ := (safe_valueOf hev node m hm (Nat.zero_le _)).of_ok hr
    obtain ⟨hm', hle', heach⟩ := ih ⟨hm₁.heap, hm₁.state.push hin⟩
    refine ⟨hm', hle.trans hle', fun a ha => ?_⟩
    rcases List.mem_cons.1 ha with rfl | ha
    · exact ⟨hm₁, hin, hle'⟩
    · exact heach a ha

theorem Enters.sound (hentry : Enters e ev node.construct m entry) (hm : m.Sound) :
    entry.machine.Sound ∧
      ∀ a ∈ entry.passed, a.after.heap.flatten a.value = a.value ∧ a.value.In a.after.size ∧
        a.after.size ≤ entry.machine.size := by
  have hpassing : ∃ m₁ : Machine, m₁.Sound ∧ Passing ev m₁ entry.passed entry.machine := by
    generalize node.construct = c at hentry
    cases hentry with
    | function _ _ _ hl => exact ⟨_, hm, hl⟩
    | method ho hreceiver hl _ =>
      obtain ⟨hm₁, -, hin⟩ := (safe_valueOf hev _ _ hm (Nat.zero_le _)).of_ok ho
      obtain ⟨hs, hle, -⟩ := (safe_receiverOf hin _ hm₁.heap (Nat.le_refl _)).of_ok hreceiver
      refine ⟨_, ?_, hl⟩
      exact ⟨hs, hm₁.state.mono hle⟩
    | construct _ hobject hreceiver _ _ hl =>
      obtain ⟨hs₁, hle₁, hin⟩ := (safe_createValue _ _ _ hm.heap (Nat.zero_le _)).of_ok hobject
      obtain ⟨hs₂, hle₂, -⟩ := (safe_toPointer hin _ hs₁ (Nat.le_refl _)).of_ok hreceiver
      refine ⟨_, ?_, hl⟩
      exact ⟨hs₂, hm.state.mono (hle₁.trans hle₂)⟩
  obtain ⟨m₁, hm₁, hl⟩ := hpassing
  obtain ⟨hm', -, heach⟩ := hl.sound hev hm₁
  refine ⟨hm', fun a ha => ?_⟩
  obtain ⟨hafter, hin, hle⟩ := heach a ha
  exact ⟨flatten_of_valueOf (hl.valueOf_eq ha) hafter.heap, hin, hle⟩

end Sound

end Eval

end Treewalk
