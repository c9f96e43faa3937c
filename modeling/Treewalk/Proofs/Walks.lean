/-
  Walks through trees.

  * `NodeEvent`: a node is entered, or left with an outcome;
  * `Eval.Walks e G x m w`: `w` is what happens to nodes when `x` runs from `m`, up to
    the point where it has a result or halts. All nodes that are entered are in `G`.
    Every evaluation is a walk (`walked_evaluate`, `walked_runRoutine`).
-/
import Treewalk.Proofs.Runs
import Treewalk.Proofs.Traversal

namespace Treewalk

/-! ## Events -/

/-- What happens to nodes. -/
inductive NodeEvent where
  | entered (n : Node)
  /-- the innermost node has an outcome -/
  | left
  /-- a node that was left should have had a value; the fault has its place -/
  | blamed (l : Location)

/-- The fault, if there is one, has no place yet. -/
def Halt.Unplaced : Halt → Prop
  | .fault f => f.location = none
  | .exhausted => True

theorem Halt.Raised.unplaced {halt : Halt} (h : halt.Raised) : halt.Unplaced := by
  cases halt with
  | fault f => exact h.2
  | exhausted => trivial

namespace Eval

/-! ## Elementary computations -/

/-- The computation is one step, which neither enters nor ends a call. -/
inductive Elementary : {α : Type} → Eval α → Prop
  | pure {α : Type} (a : α) : Elementary (Pure.pure a)
  | throw {α : Type} (halt : Halt) : Elementary (MonadExcept.throw halt : Eval α)
  | mem {α : Type} (x : Mem α) : Elementary (liftM x : Eval α)
  | ask {α : Type} (f : State → α) : Elementary (ask f)
  | push (r : Ref) : Elementary (push r)
  | pop : Elementary pop
  | bindName (name : String) (r : Ref) : Elementary (bindName name r)
  | print (bytes : Array UInt8) : Elementary (print bytes)
  | note (t : Option Token) : Elementary (note t)

/-- The computation notes no token, and gives no fault a place. -/
abbrev Unmarked {α : Type} (x : Eval α) : Prop :=
  Within (fun m m' => m'.nearest = m.nearest) Halt.Unplaced x

/-- What happens to nodes when the computation runs from the given machine. -/
inductive Walks (e : Engine) (G : Node → Prop) : {α : Type} → Eval α → Machine → List NodeEvent → Prop
  | elementary {α : Type} {x : Eval α} {m : Machine} : Elementary x → Unmarked x → Walks e G x m []
  | blamed {α : Type} {m : Machine} (l : Location) (c : Cause) :
      Walks e G (placed (some l) (fail c) : Eval α) m [.blamed l]
  | bind {α β : Type} {x : Eval α} {f : α → Eval β} {m m' : Machine} {a : α} {w w' : List NodeEvent} :
      x m = .ok a m' → Walks e G x m w → Walks e G (f a) m' w' → Walks e G (x >>= f) m (w ++ w')
  | stop {α β : Type} {x : Eval α} {f : α → Eval β} {m m' : Machine} {halt : Halt} {w : List NodeEvent} :
      x m = .error halt m' → Walks e G x m w → Walks e G (x >>= f) m w
  | visited {x : Eval Outcome} {m m' : Machine} {node : Node} {o : Outcome} {w : List NodeEvent} :
      G node → x (m.noted node.token) = .ok o m' → Walks e G x (m.noted node.token) w →
      Walks e G (visit node x) m (.entered node :: w ++ [.left])
  /-- a node that halts is not left -/
  | interrupted {x : Eval Outcome} {m m' : Machine} {node : Node} {halt : Halt} {w : List NodeEvent} :
      G node → x (m.noted node.token) = .error halt m' → Walks e G x (m.noted node.token) w →
      Walks e G (visit node x) m (.entered node :: w)
  | droppingOperands {α : Type} {x : Eval α} {m : Machine} {w : List NodeEvent} :
      Walks e G x m w → Walks e G (droppingOperands x) m w
  | inScope {α : Type} {x : Eval α} {m : Machine} {w : List NodeEvent} :
      Walks e G x { m with state := m.state.openScope } w → Walks e G (inScope x) m w
  | builtin {ev : Evaluator} {ty : Ty} {b : Builtin} {name : Token} {args : List Node} {m : Machine}
      {w : List NodeEvent} : e.program.Invokes name →
      Walks e G (runBuiltin e ev ty b args) { m with state := m.state.enterDiagnostic name } w →
      Walks e G (callBuiltin e ev ty b name args) m w
  | call {ev : Evaluator} {n : Nat} {r : Routine} {site : Token} {receiver : Option Ref} {m : Machine}
      {w : List NodeEvent} : e.program.Invokes site →
      Walks e G (runRoutine e ev (invoke e ev n) r) (m.entered receiver site) w →
      Walks e G (invoke e ev (n + 1) r site receiver) m w

/-! ## Every evaluation is a walk -/

/-- From every machine the computation is a walk. -/
def Walked (e : Engine) (G : Node → Prop) {α : Type} (x : Eval α) : Prop :=
  ∀ m, ∃ w, Walks e G x m w

variable {α β : Type} {e : Engine} {G : Node → Prop} {x : Eval α}

namespace Walked

theorem pure (a : α) : Walked e G (Pure.pure a : Eval α) :=
  fun _ => ⟨[], .elementary (.pure a) (.pure a)⟩

theorem throw {halt : Halt} (h : halt.Unplaced) : Walked e G (MonadExcept.throw halt : Eval α) :=
  fun _ => ⟨[], .elementary (.throw halt) (.throw h)⟩

theorem bind {f : α → Eval β} (hx : Walked e G x) (hf : ∀ a, Walked e G (f a)) : Walked e G (x >>= f) := by
  intro m
  obtain ⟨w, hw⟩ := hx m
  cases hm : x m with
  | ok a m' =>
    obtain ⟨w', hw'⟩ := hf a m'
    exact ⟨w ++ w', .bind hm hw hw'⟩
  | error halt m' => exact ⟨w, .stop hm hw⟩

theorem map (g : α → β) (hx : Walked e G x) : Walked e G (g <$> x) := by
  rw [map_eq_pure_bind]
  exact hx.bind fun a => .pure (g a)

end Walked

theorem walked_mem {R : Heap → Heap → Prop} {x : Mem α} (hx : Mem.Keeps R x) : Walked e G (liftM x : Eval α) := by
  refine fun _ => ⟨[], .elementary (.mem x) fun m => ?_⟩
  rw [ends_mem]
  exact (hx m.heap).mono (fun _ _ _ => rfl) fun _ _ h => ⟨rfl, h.2.unplaced⟩

theorem walked_ask (f : State → α) : Walked e G (ask f) :=
  fun _ => ⟨[], .elementary (.ask f) fun _ => rfl⟩

theorem walked_push (r : Ref) : Walked e G (push r) :=
  fun _ => ⟨[], .elementary (.push r) fun _ => rfl⟩

theorem walked_pop : Walked e G pop := by
  refine fun _ => ⟨[], .elementary .pop fun m => ?_⟩
  rw [ends_pop]
  split
  · rfl
  · exact ⟨rfl, rfl⟩

theorem walked_bindName (name : String) (r : Ref) : Walked e G (bindName name r) :=
  fun _ => ⟨[], .elementary (.bindName name r) fun _ => rfl⟩

theorem walked_print (bytes : Array UInt8) : Walked e G (print bytes) :=
  fun _ => ⟨[], .elementary (.print bytes) fun _ => rfl⟩

theorem walked_visit {x : Eval Outcome} {node : Node} (hn : G node) (hx : Walked e G x) :
    Walked e G (visit node x) := by
  intro m
  obtain ⟨w, hw⟩ := hx (m.noted node.token)
  cases hm : x (m.noted node.token) with
  | ok o m' => exact ⟨_, .visited hn hm hw⟩
  | error halt m' => exact ⟨_, .interrupted hn hm hw⟩

theorem walked_droppingOperands (hx : Walked e G x) : Walked e G (droppingOperands x) := by
  intro m
  obtain ⟨w, hw⟩ := hx m
  exact ⟨w, .droppingOperands hw⟩

theorem walked_inScope (hx : Walked e G x) : Walked e G (inScope x) := by
  intro m
  obtain ⟨w, hw⟩ := hx { m with state := m.state.openScope }
  exact ⟨w, .inScope hw⟩

theorem walked_bindParameters (params : List Param) : Walked e G (bindParameters params) := by
  have hpop (n : Nat) (taken : List Ref) : Walked e G (popValues n taken) := by
    induction n generalizing taken with
    | zero => exact .pure _
    | succ n ih => exact walked_pop.bind fun r => ih (r :: taken)
  have hbind (l : List (Param × Ref)) : Walked e G (bindAll l) := by
    induction l with
    | nil => exact .pure _
    | cons p rest ih => exact (walked_mem (keeps_conform (R := Heap.Adds) _ _)).bind fun r => (walked_bindName p.1.name r).bind fun _ => ih
  exact (hpop _ _).bind fun args => hbind _

theorem walked_valueOf {ev : Evaluator} {node : Node} (h : Walked e G (ev node)) : Walked e G (valueOf ev node) := by
  have hfail (c : Cause) : Walked e G (placed node.location? (fail c : Eval Ref)) := by
    cases node.location? with
    | none =>
      have hplaced : (placed none (fail c) : Eval Ref) = fail c := funext fun m => run_placed_none _ m
      rw [hplaced]
      exact .throw rfl
    | some l => exact fun m => ⟨_, .blamed l c⟩
  refine (walked_ask _).bind fun depth => h.bind fun o => ?_
  split
  · refine (walked_ask _).bind fun depth' => ?_
    split
    · exact walked_pop
    · exact hfail _
  · exact hfail _

theorem walked_pushValues {ev : Evaluator} {nodes : List Node} (h : ∀ n ∈ nodes, Walked e G (ev n)) :
    Walked e G (pushValues ev nodes) := by
  induction nodes with
  | nil => exact .pure _
  | cons node rest ih =>
    refine (walked_valueOf (h node (by simp))).bind fun r => ?_
    exact (walked_push r).bind fun _ => ih fun n hn => h n (by simp [hn])

theorem walked_identifier (name : String) : Walked e G (identifier name) := by
  refine (walked_ask _).bind fun o => ?_
  split
  · exact (walked_push _).bind fun _ => .pure _
  · exact .throw rfl

theorem walked_look {g : Heap → α} {f : α → Eval β} (h : ∀ heap, Walked e G (f (g heap))) :
    Walked e G (look g >>= f) := by
  intro m
  obtain ⟨w, hw⟩ := h m.heap m
  have hlook : Unmarked (look g) := fun _ => rfl
  exact ⟨_, .bind rfl (.elementary (look_eq g ▸ .mem _) hlook) hw⟩

theorem compositional_walked (e : Engine) (G : Node → Prop) :
    Compositional e (fun _ => True) G e.program.Invokes (Walked e G) fun _ x => Walked e G x where
  site := id
  pure := .pure
  bind := .bind
  throw := fun h => .throw h.unplaced
  mem := fun hx => walked_mem (hx.within Heap.Adds)
  operands := operands_of_bind .bind fun hx => walked_mem (hx Heap.Adds)
  identifier := walked_identifier
  receiver := walked_ask _
  push := walked_push
  bindName := fun _ => walked_bindName
  store := fun _ _ _ hx => walked_mem (hx.within Heap.Retains)
  print := fun _ => walked_print
  release := fun _ p => walked_mem (retains_release p)
  visit := walked_visit
  valueOf := walked_valueOf
  droppingOperands := walked_droppingOperands
  inScope := walked_inScope
  builtin := fun _ _ _ _ _ _ hsite hx m => by
    obtain ⟨w, hw⟩ := hx { m with state := m.state.enterDiagnostic _ }
    exact ⟨w, .builtin hsite hw⟩
  call := fun _ _ _ r site receiver hsite hx m => by
    obtain ⟨w, hw⟩ := (walked_bindParameters r.params).bind (fun _ => hx) (m.entered receiver site)
    exact ⟨w, .call hsite hw⟩
  takes_throw := fun _ h => .throw h.unplaced
  takes_look := walked_look
  takes_map := fun g hx => hx.map g
  pushed := fun h hx => (walked_pushValues h).bind fun _ => hx
  pushedAbove := fun h hf => (walked_ask _).bind fun _ => (walked_pushValues h).bind fun _ =>
    (walked_ask _).bind fun values => hf values

section Closed

variable {C : Routine → Prop} (hG : e.Closed (fun _ => True) G C)
include hG

theorem walked_evaluate (fuel : Nat) {node : Node} (hn : G node) : Walked e G (evaluate e fuel node) :=
  (compositional_walked e G).evaluate hG fuel hn

theorem walked_runRoutine (n : Nat) {r : Routine} (hr : C r) :
    Walked e G (runRoutine e e.evaluator (invoke e e.evaluator n) r) := by
  have hc := compositional_walked e G
  have hev (node : Node) (hn : G node) : Walked e G (e.evaluator node) := walked_evaluate hG e.fuel hn
  have hinv := fun (r : Routine) (hr : C r) => hc.invoke (r := r) hG hev trivial n hr
  exact (walked_bindParameters r.params).bind fun _ => hc.afterParameters hG hev hinv hr

end Closed

end Eval

end Treewalk
