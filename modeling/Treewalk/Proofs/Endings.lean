/-
  How nodes end.

  * `EndsWith P x`: with a result, `x` has an outcome as `P` says;
  * `normally_evaluate`: expressions and declarations end normally, if they end with a result;
  * `settled_whileLoop`, `settled_doWhile`, `settled_forLoop`: a loop ends normally or with
    `return`;
  * `not_cont_evaluate`: a node in which no `continue` stands does not end with one.
-/
import Treewalk.Proofs.MirrorsEval
import Treewalk.Proofs.Trees

namespace Treewalk

/-- The construct is an expression or a declaration, or nothing. -/
def Construct.isSimple {α : Type} : Construct α → Bool
  | .declarations _ | .block _ | .sequence _ | .ite .. | .whileLoop .. | .doWhile .. | .forLoop .. | .ret _ | .brk
  | .cont => false
  | _ => true

/-- Neither `break` nor `continue`. -/
def Outcome.Settled (o : Outcome) : Prop :=
  o ≠ .brk ∧ o ≠ .cont

namespace Eval

variable {α : Type} {e : Engine} {ev : Evaluator} {m m' : Machine} {x : Eval Outcome} {P Q : Outcome → Prop}

/-! ## Outcomes -/

/-- With a result, the computation has an outcome as `P` says. -/
def EndsWith (P : Outcome → Prop) (x : Eval Outcome) : Prop :=
  ∀ m, Ends x m (fun o _ => P o) fun _ _ => True

namespace EndsWith

theorem pure {o : Outcome} (ho : P o) : EndsWith P (Pure.pure o) :=
  fun _ => ho

theorem throw (halt : Halt) : EndsWith P (MonadExcept.throw halt) :=
  fun _ => trivial

theorem mono (hx : EndsWith P x) (hPQ : ∀ o, P o → Q o) : EndsWith Q x :=
  fun m => (hx m).mono (fun o _ => hPQ o) fun _ _ h => h

theorem bind {f : Outcome → Eval Outcome} (hx : EndsWith P x) (hf : ∀ o, P o → EndsWith Q (f o)) :
    EndsWith Q (x >>= f) :=
  fun m => ends_bind.2 ((hx m).mono (fun o m₁ ho => hf o ho m₁) fun _ _ h => h)

/-- What is done last decides. -/
theorem last {x : Eval α} {f : α → Eval Outcome} (hf : ∀ a, EndsWith P (f a)) : EndsWith P (x >>= f) :=
  fun _ => ends_bind.2 (.of_forall hf fun _ _ => trivial)

theorem placed (l : Option Location) (hx : EndsWith P x) : EndsWith P (Eval.placed l x) :=
  fun m => ends_placed.2 (hx m)

theorem droppingOperands (hx : EndsWith P x) : EndsWith P (Eval.droppingOperands x) :=
  fun m => ends_droppingOperands.2 (hx m)

theorem inScope (hx : EndsWith P x) : EndsWith P (Eval.inScope x) :=
  fun _ => ends_inScope.2 (hx _)

theorem underDiagnostic (site : Token) (hx : EndsWith P x) : EndsWith P (Eval.underDiagnostic e site x) :=
  fun _ => ends_underDiagnostic.2 (hx _)

theorem visit (node : Node) (hx : EndsWith P x) : EndsWith P (Eval.visit node x) :=
  .last fun _ => .placed _ hx

theorem of_ok {o : Outcome} (hx : EndsWith P x) (h : x m = .ok o m') : P o :=
  (hx m).of_ok h

end EndsWith

/-! ## Expressions and declarations -/

/-- The computation ends normally or halts. -/
abbrev Normally (x : Eval Outcome) : Prop :=
  EndsWith (· = .normal) x

theorem normally_yield (r : Ref) : Normally (yield r) :=
  .last fun _ => .pure rfl

theorem normally_yieldAs (ty : Ty) (r : Ref) : Normally (yieldAs ty r) :=
  .last normally_yield

theorem normally_yieldTruth (b : Bool) : Normally (yieldTruth b) :=
  .last normally_yield

theorem normally_yieldResult (o : Option Ref) : Normally (yieldResult o) := by
  cases o with
  | some r => exact normally_yield r
  | none => exact .pure rfl

theorem normally_binary (ev : Evaluator) (ty : Ty) (op : BinaryOp) (lhs rhs : Node) :
    Normally (binary ev ty op lhs rhs) := by
  have hrhs : Normally (do yieldTruth (← truthOf (← valueOf ev rhs))) := .last fun _ => .last normally_yieldTruth
  refine .last fun left => ?_
  split
  · refine .last fun b => ?_
    split
    · exact hrhs
    · exact normally_yieldTruth false
  · refine .last fun b => ?_
    split
    · exact normally_yieldTruth true
    · exact hrhs
  · exact .last fun _ => .last fun _ => .last fun _ => .last (normally_yieldAs ty)

theorem normally_unary (ev : Evaluator) (ty : Ty) (op : UnaryOp) (operand : Node) :
    Normally (unary ev ty op operand) := by
  refine .last fun r => ?_
  split
  · exact .last fun _ => normally_yield r
  · exact .last fun _ => .last (normally_yieldAs ty)

theorem normally_callConstructor (e : Engine) (ev : Evaluator) (inv : Invoker) (c : ConstructorRef) (args : List Node) :
    Normally (callConstructor e ev inv c args) := by
  unfold callConstructor
  split
  · exact .throw _
  · refine .last fun _ => .last fun receiver => ?_
    dsimp only
    split
    · split
      · exact .last fun _ => normally_yield receiver
      · exact .last fun _ => .last fun _ => normally_yield receiver
    · exact normally_yield receiver

theorem normally_initialized (e : Engine) (ev : Evaluator) (decl init : Node) :
    Normally (initialized e ev decl init) := by
  have hnormal : Normally (pure .normal) := .pure rfl
  unfold initialized
  split
  · dsimp only
    split
    · exact .throw _
    · split
      · exact .last fun _ => .last fun _ => .last fun _ => hnormal
      · exact .last fun _ => .last fun _ => .last fun _ => hnormal
  · exact .throw _

/-- Only statements end otherwise than normally. -/
theorem normally_dispatch (e : Engine) (k : Nat) (ev : Evaluator) {node : Node}
    (hn : node.construct.isSimple) : Normally (dispatch e k ev node) := by
  unfold dispatch
  generalize node.construct = construct at hn
  cases construct with
  | literal | boolean | string => exact .last normally_yield
  | sizeOf ty =>
    dsimp only
    unfold sizeOfType
    split
    · exact .throw _
    · exact .last normally_yield
  | id name =>
    refine .last fun o => ?_
    cases o with
    | ok r => exact normally_yield r
    | error c => exact .throw _
  | binary op lhs rhs => exact normally_binary _ _ _ _ _
  | unary op operand => exact normally_unary _ _ _ _
  | postStep op operand => exact .last fun _ => .last fun _ => .last fun _ => normally_yield _
  | ternary cond t f => exact .last fun _ => .last fun _ => .last (normally_yieldAs _)
  | assignment op lhs rhs =>
    refine .last fun target => .last fun source => ?_
    have hassign (source : Ref) : Normally (do assign target source; yield target) :=
      .last fun _ => normally_yield target
    cases op with
    | assign => exact hassign source
    | compound op => exact .last hassign
  | cast operand =>
    refine .last fun r => ?_
    split
    · exact .pure rfl
    · exact .last normally_yield
  | index | field | deref => exact .last fun _ => .last normally_yield
  | addressOf operand =>
    dsimp only
    unfold addressOf
    split
    · exact .last fun _ => .last fun _ => .last normally_yield
    · exact .last fun _ => .last normally_yield
  | call name args =>
    dsimp only
    split
    · refine .underDiagnostic _ ?_
      unfold runBuiltin
      split <;> exact .last fun _ => .pure rfl
    · unfold callFunction
      split
      · exact .throw _
      · exact .last fun _ => .last normally_yieldResult
  | methodCall owner method args =>
    refine .last fun _ => .last fun _ => .last fun _ => .last fun _ => .last fun _ => .last fun _ => ?_
    split
    · exact .throw _
    · exact .last normally_yieldResult
  | construct c args => exact normally_callConstructor _ _ _ _ _
  | declaration name dims => exact .last fun _ => .pure rfl
  | initialized decl init => exact normally_initialized _ _ _ _
  | empty => exact .pure rfl
  | declarations | block | sequence | ite | whileLoop | doWhile | forLoop | ret | brk | cont => cases hn

theorem normally_evaluate (e : Engine) (k : Nat) {node : Node} (hn : node.construct.isSimple) :
    Normally (evaluate e k node) := by
  cases k with
  | zero => exact .throw _
  | succ k => exact .visit node (normally_dispatch e k _ hn)

/-! ## Loops -/

theorem settled_cycle (test : Eval Bool) (once : Eval Outcome) (k : Nat) :
    EndsWith Outcome.Settled (cycle test once k) := by
  induction k with
  | zero => exact .throw _
  | succ k ih =>
    refine .last fun b => ?_
    cases b with
    | false => exact .pure (by simp [Outcome.Settled])
    | true =>
      refine .last fun o => ?_
      cases o with
      | normal | cont => exact ih
      | brk | returned => exact .pure (by simp [Outcome.Settled])

theorem settled_whileLoop (ev : Evaluator) (cond body : Node) (k : Nat) :
    EndsWith Outcome.Settled (whileLoop ev cond body k) := by
  rw [whileLoop_eq_cycle]
  exact settled_cycle _ _ k

theorem settled_forLoop (ev : Evaluator) (init cond step : Option Node) (body : Node) (k : Nat) :
    EndsWith Outcome.Settled (forLoop ev init cond step body k) := by
  refine .inScope (.last fun _ => ?_)
  rw [rounds_eq_cycle]
  exact settled_cycle _ _ k

theorem settled_doWhile (ev : Evaluator) (body cond : Node) (k : Nat) :
    EndsWith Outcome.Settled (doWhile ev body cond k) := by
  induction k with
  | zero => exact .throw _
  | succ k ih =>
    refine .last fun o => ?_
    cases o with
    | normal | cont =>
      refine .last fun b => ?_
      cases b with
      | false => exact .pure (by simp [Outcome.Settled])
      | true => exact ih
    | brk | returned => exact .pure (by simp [Outcome.Settled])

/-! ## Statements -/

theorem endsWith_executeAll {nodes : List Node} (hP : P .normal) (h : ∀ n ∈ nodes, EndsWith P (ev n)) :
    EndsWith P (executeAll ev nodes) := by
  induction nodes with
  | nil => exact .pure hP
  | cons node rest ih =>
    refine .bind (.droppingOperands (h node (by simp))) fun o ho => ?_
    split
    · exact ih fun n hn => h n (by simp [hn])
    · exact .pure ho

theorem endsWith_sequence {parts : List Node} (hP : P .normal) (h : ∀ n ∈ parts, EndsWith P (ev n)) :
    EndsWith P (sequence ev parts) := by
  induction parts with
  | nil => exact .pure hP
  | cons node rest ih =>
    refine .bind (h node (by simp)) fun o ho => ?_
    split
    · exact ih fun n hn => h n (by simp [hn])
    · exact .pure ho

theorem endsWith_conditional {cond t : Node} {f : Option Node} (hP : P .normal) (ht : EndsWith P (ev t))
    (hf : ∀ n ∈ f, EndsWith P (ev n)) : EndsWith P (conditional ev cond t f) := by
  refine .last fun b => ?_
  split
  · exact .droppingOperands ht
  · cases f with
    | some n => exact .droppingOperands (hf n rfl)
    | none => exact .pure hP

/-- A node in which no `continue` stands does not end with one. -/
theorem not_cont_evaluate (e : Engine) (k : Nat) {node : Node} (hn : node.Throughout (· ≠ .cont)) :
    EndsWith (· ≠ .cont) (evaluate e k node) := by
  induction k generalizing node with
  | zero => exact .throw _
  | succ k ih =>
    refine .visit node ?_
    have hchild (c : Node) (hc : c ∈ node.construct.children) : EndsWith (· ≠ .cont) (evaluate e k c) :=
      ih (hn.child hc)
    by_cases hsimple : node.construct.isSimple
    · exact (normally_dispatch e k _ hsimple).mono fun o ho => by simp [ho]
    · have hown := hn.own
      unfold dispatch
      generalize node.construct = construct at hown hchild hsimple
      cases construct with
      | declarations decls => exact endsWith_executeAll (by simp) hchild
      | block body => exact .inScope (endsWith_executeAll (by simp) hchild)
      | sequence parts => exact endsWith_sequence (by simp) hchild
      | ite cond t f => exact endsWith_conditional (by simp) (hchild t (by simp)) fun n hn => hchild n (by simp_all)
      | whileLoop cond body => exact (settled_whileLoop _ _ _ _).mono fun _ h => h.2
      | doWhile body cond => exact (settled_doWhile _ _ _ _).mono fun _ h => h.2
      | forLoop init cond step body => exact (settled_forLoop _ _ _ _ _ _).mono fun _ h => h.2
      | ret value =>
        cases value with
        | some node => exact .last fun _ => .last fun _ => .pure (by simp)
        | none => exact .pure (by simp)
      | brk => exact .pure (by simp)
      | cont => exact absurd rfl hown
      | _ => exact absurd rfl hsimple

end Eval

end Treewalk
