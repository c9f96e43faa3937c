/-
  How many operands an evaluation leaves.

  * `Eval.Level x`: with a result, `x` leaves the operands it has found;
    `Eval.Yields x`: or, if it ends normally, at most one more;
  * statements leave the operands level, whatever stands in them; expressions,
    declarations and builtins leave at most one more if the nodes below do.
-/
import Treewalk.Proofs.Frames

namespace Treewalk

namespace Eval

variable {α β : Type} {x : Eval α} {f : α → Eval β} {e : Engine} {ev : Evaluator}

/-! ## Operands left -/

/-- With a result, the operands are those that were there. -/
def Level (x : Eval α) : Prop :=
  ∀ m, Ends x m (fun _ m' => m'.state.values = m.state.values) fun _ _ => True

/-- The operands after a node: those before, and perhaps a value if the node has
    ended normally. -/
def Left (o : Outcome) (v v' : Stack Ref) : Prop :=
  v' = v ∨ o = .normal ∧ ∃ r, v' = v.push r

/-- With a result, at most one operand was left. -/
def Yields (x : Eval Outcome) : Prop :=
  ∀ m, Ends x m (fun o m' => Left o m.state.values m'.state.values) fun _ _ => True

theorem Level.pure (a : α) : Level (Pure.pure a : Eval α) :=
  fun _ => rfl

theorem Level.bind (hx : Level x) (hf : ∀ a, Level (f a)) : Level (x >>= f) := by
  intro m
  rw [ends_bind]
  exact (hx m).mono (fun a m₁ h => (hf a m₁).mono (fun _ _ h' => h'.trans h) fun _ _ h' => h')
    fun _ _ h => h

theorem Yields.of_level {x : Eval Outcome} (hx : Level x) : Yields x :=
  fun m => (hx m).mono (fun _ _ h => .inl h) fun _ _ h => h

theorem Yields.bind {f : α → Eval Outcome} (hx : Level x) (hf : ∀ a, Yields (f a)) :
    Yields (x >>= f) := by
  intro m
  rw [ends_bind]
  exact (hx m).mono (fun a m₁ h => h ▸ hf a m₁) fun _ _ h => h

theorem Level.discard (hx : Level x) : Level (Functor.discard x) :=
  fun m => (ends_map _).2 (hx m)

theorem Level.mapM {l : List α} {g : α → Eval β} (hg : ∀ a ∈ l, Level (g a)) :
    Level (l.mapM g) := by
  induction l with
  | nil => exact .pure []
  | cons a l ih =>
    rw [List.mapM_cons]
    exact .bind (hg a (by simp)) fun _ => .bind (ih fun a' h => hg a' (by simp [h])) fun _ => .pure _

theorem Level.forM_option {o : Option α} {g : α → Eval PUnit} (hg : ∀ a ∈ o, Level (g a)) :
    Level (o.forM g) := by
  cases o with
  | none => exact .pure _
  | some a => exact hg a rfl

/-! ## Elementary computations -/

theorem level_fail (c : Cause) : Level (fail c : Eval α) :=
  fun _ => trivial

theorem level_throw (halt : Halt) : Level (throw halt : Eval α) :=
  fun _ => trivial

theorem level_mem (x : Mem α) : Level (liftM x : Eval α) := by
  intro m
  rw [ends_mem]
  unfold Ends
  split <;> trivial

theorem level_look (f : Heap → α) : Level (look f) :=
  fun _ => rfl

theorem level_look? (f : Heap → Except Cause α) : Level (look? f) := by
  intro m
  rw [ends_look?]
  split <;> trivial

theorem level_ask (f : State → α) : Level (ask f) :=
  fun _ => rfl

theorem level_bindName (name : String) (r : Ref) : Level (bindName name r) :=
  fun _ => rfl

theorem level_print (bytes : Array UInt8) : Level (print bytes) :=
  fun _ => rfl

theorem yields_yield (r : Ref) : Yields (yield r) :=
  fun _ => .inr ⟨rfl, r, rfl⟩

theorem yields_yieldAs (ty : Ty) (r : Ref) : Yields (yieldAs ty r) :=
  .bind (level_mem _) fun r => yields_yield r

theorem yields_yieldTruth (b : Bool) : Yields (yieldTruth b) :=
  .bind (level_mem _) fun r => yields_yield r

theorem level_droppingOperands (hx : Orderly Heap.Retains x) : Level (droppingOperands x) := by
  intro m
  rw [ends_droppingOperands]
  exact (hx m).mono (fun _ _ h => h.state.truncate_values) fun _ _ _ => trivial

theorem level_inScope (hx : Level x) : Level (inScope x) := by
  intro m
  rw [ends_inScope]
  refine (hx _).mono (fun _ m' h => ?_) fun _ _ h => h
  unfold State.closeScope
  split <;> exact h

theorem yields_underDiagnostic {x : Eval Outcome} (site : Token) (hx : Yields x) :
    Yields (underDiagnostic e site x) := by
  intro m
  rw [ends_underDiagnostic]
  exact (hx _).mono (fun _ _ h => h) fun _ _ h => h

/-- The value of a node is what it has left, so nothing is left of it. -/
theorem level_valueOf {node : Node} (hev : Yields (ev node)) : Level (valueOf ev node) := by
  intro m
  unfold valueOf
  rw [ends_bind, ends_ask, ends_bind]
  refine (hev m).mono (fun o m' h => ?_) fun _ _ h => h
  split
  · rw [ends_bind, ends_ask]
    split
    · rename_i hd
      rcases h with h | ⟨-, r, hr⟩
      · unfold State.valueDepth at hd
        rw [h] at hd
        exact absurd hd (Nat.lt_irrefl _)
      · have hp : m'.state.pop? = some (r, { m'.state with values := m.state.values }) := by
          unfold State.pop?
          rw [hr, Stack.pop?_push]
          rfl
        rw [ends_pop, hp]
    · rw [ends_placed]
      trivial
  · rw [ends_placed]
    trivial

/-! ## Statements

A statement drops what is left, whatever stands in it. -/

section Statements

variable (hev : ∀ n, Orderly Heap.Retains (ev n))
include hev

theorem level_execute (node : Node) : Level (execute ev node) :=
  level_droppingOperands (hev node)

theorem level_holds (cond : Node) : Level (holds ev cond) :=
  .bind (level_droppingOperands (orderly_valueOf (hev cond))) fun _ => level_mem _

theorem level_executeAll (nodes : List Node) : Level (executeAll ev nodes) := by
  induction nodes with
  | nil => exact .pure _
  | cons node rest ih =>
    refine .bind (level_execute hev node) fun o => ?_
    split
    · exact ih
    · exact .pure _

theorem level_conditional (cond t : Node) (f : Option Node) : Level (conditional ev cond t f) := by
  refine .bind (level_holds hev cond) fun b => ?_
  split
  · exact level_execute hev t
  · cases f with
    | some f => exact level_execute hev f
    | none => exact .pure _

theorem level_whileLoop (cond body : Node) (rounds : Nat) :
    Level (whileLoop ev cond body rounds) := by
  induction rounds with
  | zero => exact level_throw _
  | succ rounds ih =>
    refine .bind (level_holds hev cond) fun b => ?_
    split
    · refine .bind (level_execute hev body) fun o => ?_
      split
      · exact ih
      · exact .pure _
    · exact .pure _

theorem level_doWhile (body cond : Node) (rounds : Nat) : Level (doWhile ev body cond rounds) := by
  induction rounds with
  | zero => exact level_throw _
  | succ rounds ih =>
    refine .bind (level_execute hev body) fun o => ?_
    split
    · refine .bind (level_holds hev cond) fun b => ?_
      split
      · exact ih
      · exact .pure _
    · exact .pure _

theorem level_clause (node : Option Node) : Level (clause ev node) := by
  cases node with
  | some node => exact .discard (level_execute hev node)
  | none => exact .pure _

theorem level_clauseHolds (cond : Option Node) : Level (clauseHolds ev cond) := by
  cases cond with
  | some cond => exact level_holds hev cond
  | none => exact .pure _

theorem level_rounds (cond step : Option Node) (body : Node) (n : Nat) :
    Level (rounds ev cond step body n) := by
  induction n with
  | zero => exact level_throw _
  | succ n ih =>
    refine .bind (level_clauseHolds hev cond) fun b => ?_
    split
    · refine .bind (level_execute hev body) fun o => ?_
      split
      · exact .bind (level_clause hev step) fun _ => ih
      · exact .pure _
    · exact .pure _

theorem level_forLoop (init cond step : Option Node) (body : Node) (n : Nat) :
    Level (forLoop ev init cond step body n) :=
  level_inScope (.bind (level_clause hev init) fun _ => level_rounds hev cond step body n)

end Statements

/-! ## Expressions -/

section Expressions

variable {lhs rhs operand cond init : Node} {args dims : List Node}

theorem yields_identifier (name : String) : Yields (identifier name) := by
  refine .bind (level_ask _) fun o => ?_
  cases o with
  | ok r => exact yields_yield r
  | error c => exact .of_level (level_fail c)

theorem yields_sizeOfType (e : Engine) (ty : Ty) : Yields (sizeOfType e ty) := by
  unfold sizeOfType
  split
  · exact .of_level (level_throw _)
  · exact .bind (level_mem _) yields_yield

theorem yields_binary (ty : Ty) (op : BinaryOp) (hl : Yields (ev lhs)) (hr : Yields (ev rhs)) :
    Yields (binary ev ty op lhs rhs) := by
  have hrhs : Yields (do yieldTruth (← truthOf (← valueOf ev rhs))) :=
    .bind (level_valueOf hr) fun _ => .bind (level_mem _) yields_yieldTruth
  refine .bind (level_valueOf hl) fun left => ?_
  split
  · refine .bind (level_mem _) fun b => ?_
    split
    · exact hrhs
    · exact yields_yieldTruth false
  · refine .bind (level_mem _) fun b => ?_
    split
    · exact yields_yieldTruth true
    · exact hrhs
  · exact .bind (level_mem _) fun _ => .bind (level_valueOf hr) fun _ => .bind (level_mem _) fun _ =>
      .bind (level_mem _) (yields_yieldAs ty)

theorem yields_unary (ty : Ty) (op : UnaryOp) (ho : Yields (ev operand)) :
    Yields (unary ev ty op operand) := by
  refine .bind (level_valueOf ho) fun r => ?_
  split
  · exact .bind (level_mem _) fun _ => yields_yield r
  · exact .bind (level_look? _) fun _ => .bind (level_mem _) (yields_yieldAs ty)

theorem yields_postStep (op : StepOp) (ho : Yields (ev operand)) :
    Yields (postStep ev op operand) :=
  .bind (level_valueOf ho) fun _ => .bind (level_mem _) fun _ => .bind (level_mem _) fun _ =>
    yields_yield _

theorem yields_ternary (ty : Ty) {t f : Node} (hc : Yields (ev cond)) (ht : Yields (ev t))
    (hf : Yields (ev f)) : Yields (ternary ev ty cond t f) := by
  refine .bind (level_valueOf hc) fun _ => .bind (level_mem _) fun b => .bind ?_ (yields_yieldAs ty)
  split
  · exact level_valueOf ht
  · exact level_valueOf hf

theorem yields_assignment (op : AssignOp) (hl : Yields (ev lhs)) (hr : Yields (ev rhs)) :
    Yields (assignment ev op lhs rhs) := by
  refine .bind (level_valueOf hl) fun target => .bind (level_valueOf hr) fun source => ?_
  have hassign : ∀ source, Yields (do assign target source; yield target) := fun _ =>
    .bind (level_mem _) fun _ => yields_yield target
  cases op with
  | assign => exact hassign source
  | compound op => exact .bind (level_mem _) hassign

theorem yields_convert (ty : Ty) (ho : Yields (ev operand)) : Yields (convert ev ty operand) := by
  refine .bind (level_valueOf ho) fun r => ?_
  split
  · exact .of_level (.pure _)
  · exact .bind (level_mem _) yields_yield

theorem level_indexed (hl : Yields (ev lhs)) (hr : Yields (ev rhs)) :
    Level (indexed ev lhs rhs) :=
  .bind (level_valueOf hl) fun _ => .bind (level_valueOf hr) fun _ => .bind (level_look? _) fun _ =>
    .pure _

theorem yields_index (hl : Yields (ev lhs)) (hr : Yields (ev rhs)) : Yields (index ev lhs rhs) :=
  .bind (level_indexed hl hr) fun _ => .bind (level_look? _) yields_yield

theorem yields_field (name : String) (ho : Yields (ev operand)) : Yields (field ev operand name) :=
  .bind (level_valueOf ho) fun _ => .bind (level_look? _) yields_yield

theorem yields_deref (ho : Yields (ev operand)) : Yields (deref ev operand) :=
  .bind (level_valueOf ho) fun _ => .bind (level_look? _) yields_yield

/-- Of an element, the parts are evaluated in place of the node itself. -/
theorem yields_addressOf (ho : Yields (ev operand))
    (hc : ∀ c ∈ operand.construct.children, Yields (ev c)) : Yields (addressOf ev operand) := by
  unfold addressOf
  split
  · rename_i container i hi
    rw [hi] at hc
    have hindexed := level_indexed (hc container (by simp)) (hc i (by simp))
    exact .bind hindexed fun _ => .bind (level_look? _) fun _ => .bind (level_mem _) yields_yield
  · exact .bind (level_valueOf ho) fun _ => .bind (level_mem _) yields_yield

theorem level_return {value : Option Node} (hv : ∀ n ∈ value, Yields (ev n)) :
    Level (return_ ev value) := by
  cases value with
  | none => exact .pure _
  | some node => exact .bind (level_valueOf (hv node rfl)) fun _ => .bind (level_mem _) fun _ => .pure _

/-! ## Declarations -/

theorem level_dimension (name : String) (ho : Yields (ev operand)) :
    Level (dimension ev name operand) := by
  refine .bind (level_valueOf ho) fun _ => .bind (level_look _) fun o => ?_
  cases o with
  | none => exact level_fail _
  | some p =>
    dsimp only
    split
    · exact level_fail _
    · exact .pure _

theorem level_declare (ty : Ty) (name : String) (hd : ∀ d ∈ dims, Yields (ev d)) :
    Level (declare e ev ty name dims) := by
  have hbind : ∀ r, Level (do bindName name r; return r) := fun r =>
    .bind (level_bindName name r) fun _ => .pure r
  unfold declare
  split
  · exact .bind (level_mem _) hbind
  · refine .bind (.mapM fun dim hdim => level_dimension name (hd dim hdim)) fun sizes => ?_
    exact .bind (level_mem _) hbind
  · exact .bind (level_fail _) hbind

theorem level_initialized {decl : Node} (hi : Yields (ev init))
    (hd : ∀ d ∈ decl.construct.children, Yields (ev d)) : Level (initialized e ev decl init) := by
  unfold initialized
  split
  · rename_i name dims hc
    rw [hc] at hd
    have hbody : Level (do
        if dims.isEmpty then
          let initial ← valueOf ev init
          bindName name (← initialValue e decl.ty initial)
        else
          let r ← declare e ev decl.ty name dims
          assign r (← valueOf ev init)
        return Outcome.normal) := by
      dsimp only
      split
      · exact .bind (level_valueOf hi) fun _ => .bind (level_mem _) fun r =>
          .bind (level_bindName name r) fun _ => .pure _
      · exact .bind (level_declare decl.ty name hd) fun _ => .bind (level_valueOf hi) fun _ =>
          .bind (level_mem _) fun _ => .pure _
    dsimp only
    split
    · exact .bind (level_fail _) fun _ => hbody
    · exact hbody
  · exact level_fail _

end Expressions

/-! ## Builtins -/

section Builtins

variable {args : List Node} (ha : ∀ a ∈ args, Yields (ev a))
include ha

theorem yields_calloc (ty : Ty) : Yields (do calloc e ev ty args; return .normal) := by
  have hfail (c : Cause) : Yields (do (fail c : Eval Unit); return .normal) :=
    .of_level (.bind (level_fail c) fun _ => .pure _)
  unfold calloc
  split
  · exact hfail _
  rename_i element _
  split
  · exact hfail _
  rename_i count hcount
  rw [bind_assoc]
  refine .bind (level_valueOf (ha count (List.mem_of_find?_eq_some hcount))) fun r => ?_
  rw [bind_assoc]
  refine .bind (level_look _) fun o => ?_
  cases o with
  | none => exact hfail _
  | some p =>
    have hpush : Yields (do
        (do push (← createArray e.program element [p.toInt64.toInt.toNat]))
        return .normal) := by
      rw [bind_assoc]
      exact .bind (level_mem _) yields_yield
    dsimp only
    split
    · rw [bind_assoc]
      exact .bind (level_fail _) fun _ => hpush
    · exact hpush

theorem level_free : Level (free ev args) := by
  unfold free
  split
  · exact .bind (level_valueOf (ha _ (by simp))) fun r => .bind (level_look? _) fun o =>
      .forM_option fun p _ => level_mem _
  · exact level_fail _

theorem level_evaluateAll : Level (evaluateAll ev args) := by
  induction args with
  | nil => exact .pure _
  | cons node rest ih =>
    exact .bind (.discard (level_valueOf (ha node (by simp)))) fun _ => ih fun a h => ha a (by simp [h])

theorem level_printf : Level (printf ev args) := by
  cases args with
  | nil => exact level_fail _
  | cons format rest =>
    refine .bind (level_valueOf (ha format (by simp))) fun r =>
      .bind (level_evaluateAll fun a h => ha a (by simp [h])) fun _ => .bind (level_look _) fun o => ?_
    cases o with
    | none => exact .bind (level_look _) fun _ => level_fail _
    | some p => exact .bind (level_look? _) level_print

theorem yields_callBuiltin (ty : Ty) (b : Builtin) (name : Token) :
    Yields (callBuiltin e ev ty b name args) := by
  refine yields_underDiagnostic name ?_
  cases b with
  | calloc => exact yields_calloc ha ty
  | free => exact .of_level (.bind (level_free ha) fun _ => .pure _)
  | printf => exact .of_level (.bind (level_printf ha) fun _ => .pure _)

end Builtins

end Eval

end Treewalk
