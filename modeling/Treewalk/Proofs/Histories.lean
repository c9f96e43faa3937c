/-
  Histories of a state: any operations in any order, matched or not.

  * `State.Op` are the operations, `State.run` carries them out one after another;
  * `Stacks` are the stacks of a state each on its own. Operations on each stack alone keep
    them in step (`Stacks.Lockstep`), since they do what operations on a state do
    (`asStacks_run`);
  * `State.Latest ops c`: `c` is the context that was entered last of those not left again.
    It says what `this` refers to after a history (`receiver?_run`);
  * `State.InCall n ops`: operations between the opening and the closing of a call, where
    `n` scopes are open. What lies below the call stays in place meanwhile
    (`InCall.frames_run`, `InCall.values_run`), and closing the call brings it back;
  * `history_invariant`: all of this holds after every history.
-/
import Treewalk.Proofs.Extends
import Mathlib.Data.List.DropRight
import Mathlib.Data.List.ReduceOption

namespace Treewalk

namespace State

/-! ## Operations -/

/-- An operation on a state. -/
inductive Op where
  | push (r : Ref)
  | pop
  | truncate (depth : Nat)
  | bind (name : String) (r : Ref)
  | sealGlobals
  | openCall
  | closeCall
  | openScope
  | closeScope
  /-- with a receiver for a method, without one for a free function -/
  | pushContext (receiver : Option Ref)
  | popContext
  | enterDiagnostic (site : Token)
  | exitDiagnostic

/-- Carry out an operation. Taking an operand where there is none changes nothing. -/
def apply (s : State) : Op → State
  | .push r => s.push r
  | .pop => (s.pop?.map Prod.snd).getD s
  | .truncate depth => s.truncate depth
  | .bind name r => s.bind name r
  | .sealGlobals => s.sealGlobals
  | .openCall => s.openCall
  | .closeCall => s.closeCall
  | .openScope => s.openScope
  | .closeScope => s.closeScope
  | .pushContext receiver => s.pushContext receiver
  | .popContext => s.popContext
  | .enterDiagnostic site => s.enterDiagnostic site
  | .exitDiagnostic => s.exitDiagnostic

/-- Carry out operations one after another. -/
def run (s : State) (ops : List Op) : State :=
  ops.foldl apply s

end State

open State (Op)

/-! ## Stacks on their own -/

/-- The stacks of a state, each on its own. -/
structure Stacks where
  values : List Ref := []
  globals : Bindings := .empty
  frames : List Bindings := [.empty]
  /-- the number of operands at each open call -/
  callMarks : List Nat := []
  /-- the number of frames at each open call -/
  frameMarks : List Nat := []
  receivers : List Ref := []
  /-- does `this` refer to a receiver, in each context? -/
  visible : List Bool := [false]
  diagnostics : List DiagnosticFrame := []

namespace Stacks

/-- Carry out an operation on each stack that it concerns. -/
def apply (σ : Stacks) : Op → Stacks
  | .push r => { σ with values := r :: σ.values }
  | .pop => { σ with values := σ.values.tail }
  | .truncate depth => { σ with values := σ.values.rtake depth }
  | .bind name r =>
    { σ with
      frames := σ.frames.modifyHead (·.insert name r)
      diagnostics := σ.diagnostics.modifyHead fun d => { d with locals := d.locals.push (name, r) } }
  | .sealGlobals => { σ with globals := σ.frames.headD σ.globals }
  | .openCall =>
    { σ with
      callMarks := σ.values.length :: σ.callMarks
      frameMarks := σ.frames.length :: σ.frameMarks
      frames := σ.globals :: σ.frames }
  | .closeCall =>
    match σ.callMarks, σ.frameMarks with
    | depth :: callMarks, n :: frameMarks =>
      { σ with callMarks, frameMarks, frames := σ.frames.rtake (max n 1), values := σ.values.rtake depth }
    | callMarks, frameMarks => { σ with callMarks := callMarks.tail, frameMarks := frameMarks.tail }
  | .openScope => { σ with frames := σ.frames.headD .empty :: σ.frames }
  | .closeScope => { σ with frames := if 1 < σ.frames.length then σ.frames.tail else σ.frames }
  | .pushContext (some r) => { σ with receivers := r :: σ.receivers, visible := true :: σ.visible }
  | .pushContext none => { σ with visible := false :: σ.visible }
  | .popContext =>
    { σ with
      receivers := if σ.visible.head? = some true then σ.receivers.tail else σ.receivers
      visible := if σ.visible.tail.isEmpty then [false] else σ.visible.tail }
  | .enterDiagnostic site => { σ with diagnostics := { callSite := site } :: σ.diagnostics }
  | .exitDiagnostic => { σ with diagnostics := σ.diagnostics.tail }

def run (σ : Stacks) (ops : List Op) : Stacks :=
  ops.foldl apply σ

/-- What `this` refers to. -/
def receiver? (σ : Stacks) : Option Ref :=
  if σ.visible.head? = some true then σ.receivers.head? else none

/-- There is a frame and a flag, each open call has both its marks, and each flag that is
    set has its receiver. -/
structure Lockstep (σ : Stacks) : Prop where
  frames : σ.frames ≠ []
  visible : σ.visible ≠ []
  marks : σ.callMarks.length = σ.frameMarks.length
  receivers : σ.receivers.length = σ.visible.count true

end Stacks

namespace Stack

variable {α : Type}

theorem items_of_pop?_none {s : Stack α} (h : s.pop? = none) : s.items = [] := by
  unfold pop? at h
  split at h
  · assumption
  · cases h

end Stack

namespace State

variable {s t : State} {op : Op} {ops : List Op}

/-- The stacks of a state. -/
def asStacks (s : State) : Stacks where
  values := s.values.items
  globals := s.globals
  frames := s.frame :: s.enclosing.items
  callMarks := s.marks.map CallMark.values
  frameMarks := s.marks.map CallMark.frames
  receivers := s.receivers
  visible := s.contexts.map Option.isSome ++ [false]
  diagnostics := s.diagnostics

theorem lockstep_asStacks (s : State) : s.asStacks.Lockstep where
  frames := List.cons_ne_nil _ _
  visible := by simp [asStacks]
  marks := by simp [asStacks]
  receivers := by
    show s.contexts.reduceOption.length = (s.contexts.map Option.isSome ++ [false]).count true
    induction s.contexts with
    | nil => rfl
    | cons c rest ih => cases c <;> simp_all

theorem receiver?_asStacks (s : State) : s.asStacks.receiver? = s.receiver? := by
  unfold Stacks.receiver? receiver? asStacks receivers
  cases s.contexts with
  | nil => rfl
  | cons c rest => cases c <;> rfl

/-! ### Operations that depend on what there is -/

theorem exists_pop (s : State) : ∃ values : Stack Ref,
    s.apply .pop = { s with values } ∧ values.items = s.values.items.tail := by
  unfold apply pop?
  cases hp : s.values.pop? with
  | none => exact ⟨s.values, rfl, by rw [Stack.items_of_pop?_none hp]; rfl⟩
  | some p => exact ⟨p.2, rfl, by rw [Stack.items_of_pop? hp]; rfl⟩

theorem exists_closeScope (s : State) : ∃ (frame : Bindings) (enclosing : Stack Bindings),
    s.closeScope = { s with frame, enclosing } ∧ enclosing.items = s.enclosing.items.tail ∧
      frame :: enclosing.items =
        if 1 < s.asStacks.frames.length then s.asStacks.frames.tail else s.asStacks.frames := by
  unfold closeScope
  cases hp : s.enclosing.pop? with
  | none =>
    have hnil := Stack.items_of_pop?_none hp
    exact ⟨s.frame, s.enclosing, rfl, by rw [hnil]; rfl, by simp [asStacks, hnil]⟩
  | some p =>
    have hcons := Stack.items_of_pop? hp
    exact ⟨p.1, p.2, rfl, by rw [hcons]; rfl, by simp [asStacks, hcons]⟩

/-- Dropping frames leaves the outermost one. -/
theorem exists_truncateFrames (s : State) (n : Nat) : ∃ (frame : Bindings) (enclosing : Stack Bindings),
    s.truncateFrames n = { s with frame, enclosing } ∧
      frame :: enclosing.items = (s.frame :: s.enclosing.items).rtake (max n 1) := by
  have hsize := s.enclosing.size_eq
  unfold truncateFrames frameDepth
  split
  · rename_i hle
    refine ⟨s.frame, s.enclosing, rfl, ?_⟩
    rw [List.rtake, List.length_cons, Nat.sub_eq_zero_of_le (by omega), List.drop_zero]
  · rename_i hlt
    have hdrop : (s.frame :: s.enclosing.items).rtake (max n 1) =
        (s.enclosing.truncate (max n 1)).items := by
      rw [List.rtake, List.length_cons, Stack.items_truncate,
        show s.enclosing.items.length + 1 - max n 1 = s.enclosing.items.length - max n 1 + 1 by omega,
        List.drop_succ_cons]
    cases hp : (s.enclosing.truncate (max n 1)).pop? with
    | none =>
      have hnil := congrArg List.length (Stack.items_of_pop?_none hp)
      rw [Stack.items_truncate, List.length_drop, List.length_nil] at hnil
      omega
    | some p => exact ⟨p.1, p.2, rfl, by rw [hdrop, Stack.items_of_pop? hp]⟩

theorem exists_closeCall {m : CallMark} {rest : List CallMark} (hm : s.marks = m :: rest) :
    ∃ (frame : Bindings) (enclosing : Stack Bindings),
      s.closeCall = { s with marks := rest, frame, enclosing, values := s.values.truncate m.values } ∧
        frame :: enclosing.items = (s.frame :: s.enclosing.items).rtake (max m.frames 1) := by
  obtain ⟨frame, enclosing, ht, hframes⟩ := exists_truncateFrames { s with marks := rest } m.frames
  refine ⟨frame, enclosing, ?_, hframes⟩
  unfold closeCall
  rw [hm]
  dsimp only
  rw [ht]
  rfl

theorem closeCall_of_marks_nil (hm : s.marks = []) : s.closeCall = s := by
  unfold closeCall
  rw [hm]

/-! ### Operations on a state and on its stacks -/

/-- An operation on a state is the operation on each of its stacks. -/
theorem asStacks_apply (s : State) (op : Op) : (s.apply op).asStacks = s.asStacks.apply op := by
  cases op with
  | push | sealGlobals | openScope | enterDiagnostic | exitDiagnostic => rfl
  | pop =>
    obtain ⟨values, hpop, hitems⟩ := exists_pop s
    rw [hpop]
    simp [asStacks, receivers, Stacks.apply, hitems]
  | truncate depth =>
    simp [apply, truncate, asStacks, Stacks.apply, receivers, Stack.items_truncate, List.rtake]
  | bind name r =>
    unfold apply bind asStacks Stacks.apply
    cases s.diagnostics <;> rfl
  | openCall =>
    simp [apply, openCall, asStacks, Stacks.apply, receivers, valueDepth, frameDepth, Stack.size_eq]
  | closeCall =>
    cases hm : s.marks with
    | nil => simp [apply, closeCall_of_marks_nil hm, asStacks, Stacks.apply, hm]
    | cons m rest =>
      obtain ⟨frame, enclosing, hclose, hframes⟩ := exists_closeCall hm
      simp only [apply, hclose, asStacks, hframes, Stacks.apply, receivers, hm, Stack.items_truncate,
        List.map_cons, List.rtake]
  | closeScope =>
    obtain ⟨frame, enclosing, hclose, -, hframes⟩ := exists_closeScope s
    simp only [asStacks] at hframes
    simp only [apply, hclose, asStacks, hframes, Stacks.apply, receivers]
  | pushContext receiver => cases receiver <;> rfl
  | popContext =>
    unfold apply popContext asStacks Stacks.apply receivers
    cases s.contexts with
    | nil => rfl
    | cons c rest => cases c <;> simp

theorem asStacks_run (s : State) (ops : List Op) : (s.run ops).asStacks = s.asStacks.run ops := by
  induction ops generalizing s with
  | nil => rfl
  | cons op rest ih => exact (ih (s.apply op)).trans (congrArg (Stacks.run · rest) (asStacks_apply s op))

theorem run_append (s : State) (ops ops' : List Op) : s.run (ops ++ ops') = (s.run ops).run ops' :=
  List.foldl_append

/-! ## Contexts -/

/-- Does the operation enter a context? -/
def Op.enters : Op → Bool
  | pushContext _ => true
  | _ => false

/-- Does the operation leave a context? -/
def Op.exits : Op → Bool
  | popContext => true
  | _ => false

/-- What was entered just before the operations is not left by them: at no time have more
    contexts been left than entered. -/
def StaysOpen (ops : List Op) : Prop :=
  ∀ l, l <+: ops → l.countP Op.exits ≤ l.countP Op.enters

/-- Of the contexts that the operations enter and do not leave, `c` is the one entered
    last. -/
def Latest (ops : List Op) (c : Option Ref) : Prop :=
  ∃ before after, ops = before ++ .pushContext c :: after ∧ StaysOpen after ∧
    ∀ c' between rest, after = between ++ .pushContext c' :: rest → ¬ StaysOpen rest

/-- The number of contexts that are open before the operations and left by them. -/
def exited : List Op → Nat
  | [] => 0
  | .pushContext _ :: rest => exited rest - 1
  | .popContext :: rest => exited rest + 1
  | _ :: rest => exited rest

/-- The contexts that the operations enter and do not leave, innermost first. -/
def entered : List Op → List (Option Ref)
  | [] => []
  | .pushContext c :: rest => entered rest ++ if exited rest = 0 then [c] else []
  | _ :: rest => entered rest

/-- Other operations leave the contexts alone. -/
theorem contexts_apply (s : State) (henters : op.enters = false) (hexits : op.exits = false) :
    (s.apply op).contexts = s.contexts := by
  cases op with
  | pushContext => cases henters
  | popContext => cases hexits
  | pop =>
    obtain ⟨values, hpop, -⟩ := exists_pop s
    rw [hpop]
  | closeCall =>
    show s.closeCall.contexts = s.contexts
    cases hm : s.marks with
    | nil => rw [closeCall_of_marks_nil hm]
    | cons m rest =>
      obtain ⟨frame, enclosing, hclose, -⟩ := exists_closeCall hm
      rw [hclose]
  | closeScope =>
    obtain ⟨frame, enclosing, hclose, -⟩ := exists_closeScope s
    show s.closeScope.contexts = s.contexts
    rw [hclose]
  | _ => rfl

theorem contexts_run (s : State) (ops : List Op) :
    (s.run ops).contexts = entered ops ++ s.contexts.drop (exited ops) := by
  induction ops generalizing s with
  | nil => rfl
  | cons op rest ih =>
    show ((s.apply op).run rest).contexts = _
    rw [ih]
    cases op with
    | pushContext c =>
      simp only [apply, pushContext, entered, exited]
      cases exited rest <;> simp
    | popContext => simp [apply, popContext, entered, exited]
    | _ =>
      rw [contexts_apply s rfl rfl]
      rfl

/-- As many contexts are left as exits have been ahead of entries at most. -/
theorem exited_le_iff {n : Nat} : exited ops ≤ n ↔
    ∀ l, l <+: ops → l.countP Op.exits ≤ l.countP Op.enters + n := by
  induction ops generalizing n with
  | nil => simp [exited]
  | cons op rest ih =>
    have hcons : (∀ l, l <+: op :: rest → l.countP Op.exits ≤ l.countP Op.enters + n) ↔
        ∀ l, l <+: rest → (op :: l).countP Op.exits ≤ (op :: l).countP Op.enters + n := by
      constructor
      · intro h l hl
        exact h _ (List.cons_prefix_cons.2 ⟨rfl, hl⟩)
      · intro h l hl
        rcases List.prefix_cons_iff.1 hl with rfl | ⟨l', rfl, hl'⟩
        · exact Nat.zero_le _
        · exact h l' hl'
    rw [hcons]
    cases op with
    | pushContext c =>
      rw [exited, Nat.sub_le_iff_le_add, ih]
      refine forall₂_congr fun l _ => ?_
      rw [List.countP_cons_of_neg Bool.false_ne_true, List.countP_cons_of_pos rfl]
      omega
    | popContext =>
      have hpop (l : List Op) :
          (.popContext :: l).countP Op.exits ≤ (.popContext :: l).countP Op.enters + n ↔
            l.countP Op.exits + 1 ≤ l.countP Op.enters + n := by
        rw [List.countP_cons_of_pos rfl, List.countP_cons_of_neg Bool.false_ne_true]
      simp only [hpop, exited]
      cases n with
      | zero =>
        constructor
        · intro h
          exact absurd h (Nat.not_succ_le_zero _)
        · intro h
          exact absurd (h [] List.nil_prefix) (Nat.not_succ_le_zero _)
      | succ n =>
        rw [Nat.succ_le_succ_iff, ih]
        exact forall₂_congr fun l _ => Nat.succ_le_succ_iff.symm
    | _ => exact ih

theorem staysOpen_iff : StaysOpen ops ↔ exited ops = 0 := by
  rw [← Nat.le_zero, exited_le_iff]
  rfl

theorem entered_eq_nil_iff : entered ops = [] ↔
    ∀ c before after, ops = before ++ .pushContext c :: after → ¬ StaysOpen after := by
  induction ops with
  | nil => simp [entered]
  | cons op rest ih =>
    have hcons :
        (∀ c before after, op :: rest = before ++ .pushContext c :: after → ¬ StaysOpen after) ↔
          (∀ c, op = .pushContext c → ¬ StaysOpen rest) ∧ entered rest = [] := by
      rw [ih]
      constructor
      · intro h
        refine ⟨fun c hc => h c [] rest (by simp [hc]), fun c before after hrest => ?_⟩
        exact h c (op :: before) after (by simp [hrest])
      · rintro ⟨hop, hrest⟩ c before after heq
        rcases List.cons_eq_append_iff.1 heq with ⟨rfl, hafter⟩ | ⟨before, rfl, hbefore⟩
        · cases hafter
          exact hop c rfl
        · exact hrest c before after hbefore
    rw [hcons]
    cases op with
    | pushContext c => simp [entered, staysOpen_iff, and_comm]
    | _ => simp [entered]

theorem latest_cons {c : Option Ref} : Latest (op :: ops) c ↔
    Latest ops c ∨ op = .pushContext c ∧ exited ops = 0 ∧ entered ops = [] := by
  rw [← staysOpen_iff, entered_eq_nil_iff]
  constructor
  · rintro ⟨before, after, heq, hlater⟩
    rcases List.cons_eq_append_iff.1 heq with ⟨rfl, hafter⟩ | ⟨before, rfl, hbefore⟩
    · cases hafter
      exact .inr ⟨rfl, hlater⟩
    · exact .inl ⟨before, after, hbefore, hlater⟩
  · rintro (⟨before, after, rfl, hlater⟩ | ⟨rfl, hlater⟩)
    · exact ⟨op :: before, after, rfl, hlater⟩
    · exact ⟨[], ops, rfl, hlater⟩

theorem latest_iff {c : Option Ref} : Latest ops c ↔ (entered ops).head? = some c := by
  induction ops with
  | nil => simp [Latest, entered]
  | cons op rest ih =>
    rw [latest_cons, ih]
    cases op with
    | pushContext c' =>
      rw [entered]
      cases entered rest with
      | nil => by_cases hexited : exited rest = 0 <;> simp [hexited]
      | cons => simp
    | _ => simp [entered]

/-- After a history, `this` refers to the receiver of the latest open context. -/
theorem receiver?_run (ops : List Op) (r : Ref) :
    (run {} ops).receiver? = some r ↔ Latest ops (some r) := by
  rw [latest_iff, receiver?, contexts_run]
  simp [Option.join_eq_some_iff]

/-! ## Calls -/

/-- Does the operation open or close a call or a scope? -/
def Op.nests : Op → Bool
  | openCall | closeCall | openScope | closeScope => true
  | _ => false

/-- Does the operation take operands away by itself? -/
def Op.drops : Op → Bool
  | pop | truncate _ => true
  | _ => false

/-- Operations inside a call in which they find `n` scopes open: each call that they open
    they close, and they close no scope but of the same call. Scopes may be left open. -/
inductive InCall : Nat → List Op → Prop
  | done {n : Nat} : InCall n []
  | other {n : Nat} {op : Op} {ops : List Op} : op.nests = false → InCall n ops → InCall n (op :: ops)
  | openScope {n : Nat} {ops : List Op} : InCall (n + 1) ops → InCall n (.openScope :: ops)
  | closeScope {n : Nat} {ops : List Op} : InCall n ops → InCall (n + 1) (.closeScope :: ops)
  | call {n : Nat} {inner ops : List Op} : InCall 0 inner → InCall n ops →
      InCall n (.openCall :: inner ++ .closeCall :: ops)

/-- On the way, no operand is popped or truncated of the outermost `depth` ones. -/
def Spares (depth : Nat) (s : State) : List Op → Prop
  | [] => True
  | op :: ops => (op.drops → depth ≤ (s.apply op).valueDepth) ∧ Spares depth (s.apply op) ops

instance decidableSpares (depth : Nat) (s : State) : (ops : List Op) → Decidable (Spares depth s ops)
  | [] => isTrue trivial
  | op :: ops =>
    have := decidableSpares depth (s.apply op) ops
    inferInstanceAs (Decidable (_ ∧ _))

theorem spares_append {depth : Nat} {ops' : List Op} :
    Spares depth s (ops ++ ops') ↔ Spares depth s ops ∧ Spares depth (s.run ops) ops' := by
  induction ops generalizing s with
  | nil => simp [Spares, run]
  | cons op rest ih =>
    rw [List.cons_append, Spares, ih, Spares, and_assoc]
    rfl

/-! ### One operation -/

/-- An operation that opens and closes nothing leaves marks and enclosing frames alone. -/
theorem enclosing_apply (s : State) (hop : op.nests = false) :
    (s.apply op).enclosing = s.enclosing ∧ (s.apply op).marks = s.marks := by
  cases op with
  | openCall | closeCall | openScope | closeScope => cases hop
  | pop =>
    obtain ⟨values, hpop, -⟩ := exists_pop s
    rw [hpop]
    exact ⟨rfl, rfl⟩
  | _ => exact ⟨rfl, rfl⟩

/-- An operation takes operands from the inner end. -/
theorem values_apply_of_drops (s : State) (hop : op.drops) :
    (s.apply op).values.items <:+ s.values.items := by
  cases op with
  | pop =>
    obtain ⟨values, hpop, hitems⟩ := exists_pop s
    rw [hpop, hitems]
    exact List.tail_suffix _
  | truncate depth =>
    show (s.values.truncate depth).items <:+ _
    rw [Stack.items_truncate]
    exact List.drop_suffix _ _
  | _ => cases hop

theorem suffix_values_apply {base : List Ref} (hop : op.nests = false) (hbase : base <:+ s.values.items)
    (hdrops : op.drops → base.length ≤ (s.apply op).valueDepth) : base <:+ (s.apply op).values.items := by
  cases hd : op.drops with
  | true =>
    refine List.suffix_of_suffix_length_le hbase (values_apply_of_drops s hd) ?_
    rw [← Stack.size_eq]
    exact hdrops hd
  | false =>
    cases op with
    | push r => exact hbase.trans (List.suffix_cons _ _)
    | pop | truncate => cases hd
    | openCall | closeCall | openScope | closeScope => cases hop
    | _ => exact hbase

/-! ### All operations of a call -/

theorem run_call (s : State) (inner ops : List Op) :
    s.run (.openCall :: inner ++ .closeCall :: ops) = (s.openCall.run inner).closeCall.run ops :=
  run_append s (.openCall :: inner) (.closeCall :: ops)

namespace InCall

variable {n : Nat}

/-- Marks stay, and so do the frames around the open scopes. -/
theorem frames_run (h : InCall n ops) (s : State) :
    (s.run ops).marks = s.marks ∧ s.enclosing.items.drop n <:+ (s.run ops).enclosing.items := by
  induction h generalizing s with
  | done => exact ⟨rfl, List.drop_suffix _ _⟩
  | @other n op ops hop _ ih =>
    obtain ⟨henclosing, hmarks⟩ := enclosing_apply s hop
    rw [← henclosing, ← hmarks]
    exact ih (s.apply op)
  | openScope _ ih => exact ih s.openScope
  | @closeScope n ops _ ih =>
    obtain ⟨frame, enclosing, hclose, hitems, -⟩ := exists_closeScope s
    have hrun : s.run (.closeScope :: ops) = { s with frame, enclosing }.run ops := by rw [← hclose]; rfl
    rw [hrun, ← List.drop_tail, ← hitems]
    exact ih { s with frame, enclosing }
  | @call n inner ops _ _ ihinner ihops =>
    -- the inner call gives back what it has found, so the rest starts as if without it
    have hclose := closeCall_eq (s := s) (ihinner s.openCall).1 (ihinner s.openCall).2
    rw [run_call, hclose]
    exact ihops _

/-- Closing the call brings frames and marks back. -/
theorem closeCall_run (h : InCall 0 ops) (s : State) : (s.openCall.run ops).closeCall =
    { s.openCall.run ops with
      marks := s.marks, frame := s.frame, enclosing := s.enclosing
      values := (s.openCall.run ops).values.truncate s.valueDepth } :=
  closeCall_eq (h.frames_run s.openCall).1 (h.frames_run s.openCall).2

/-- Operands that are spared stay. -/
theorem values_run {base : List Ref} (h : InCall n ops) (hbase : base <:+ s.values.items)
    (hspares : Spares base.length s ops) : base <:+ (s.run ops).values.items := by
  induction h generalizing s with
  | done => exact hbase
  | other hop _ ih => exact ih (suffix_values_apply hop hbase hspares.1) hspares.2
  | openScope _ ih => exact ih hbase hspares.2
  | @closeScope n ops _ ih =>
    obtain ⟨frame, enclosing, hclose, -⟩ := exists_closeScope s
    refine ih ?_ hspares.2
    show base <:+ s.closeScope.values.items
    rw [hclose]
    exact hbase
  | @call n inner ops hinner _ ihinner ihops =>
    obtain ⟨⟨-, hin⟩, -, hout⟩ := spares_append.1 hspares
    have hle : base.length ≤ s.valueDepth := hbase.length_le.trans_eq s.values.size_eq.symm
    rw [run_call]
    refine ihops ?_ hout
    rw [hinner.closeCall_run]
    exact Stack.suffix_truncate (ihinner hbase hin) hle

end InCall

/-- A call leaves frames, marks and operands as they were. -/
theorem run_call_restores {body : List Op} (hbody : InCall 0 body)
    (hspares : Spares s.valueDepth s.openCall body) :
    let t := s.run (.openCall :: body ++ [.closeCall])
    t.frame = s.frame ∧ t.enclosing = s.enclosing ∧ t.marks = s.marks ∧ t.values = s.values := by
  have hvalues : s.values.items <:+ (s.openCall.run body).values.items :=
    hbody.values_run (s := s.openCall) List.suffix_rfl (s.values.size_eq ▸ hspares)
  rw [run_call, hbody.closeCall_run]
  exact ⟨rfl, rfl, rfl, Stack.truncate_of_suffix hvalues⟩

/-! ## Any history -/

/-- After every history of a new state, the stacks are as if each had been operated on
    alone, and in step. What `this` refers to is the receiver of the latest context that is
    still open, if that has one. And a call brings frames, marks and operands back, where
    operations in it close only what was opened in it and spare the operands found. -/
theorem history_invariant (ops : List Op) :
    let s := run {} ops
    s.asStacks = Stacks.run {} ops ∧ s.asStacks.Lockstep ∧ s.asStacks.receiver? = s.receiver? ∧
    (∀ r, s.receiver? = some r ↔ Latest ops (some r)) ∧
    ∀ body, InCall 0 body → Spares s.valueDepth s.openCall body →
      let t := s.run (.openCall :: body ++ [.closeCall])
      t.frame = s.frame ∧ t.enclosing = s.enclosing ∧ t.marks = s.marks ∧ t.values = s.values :=
  ⟨asStacks_run {} ops, lockstep_asStacks _, receiver?_asStacks _, receiver?_run ops,
    fun _ hbody hspares => run_call_restores hbody hspares⟩

/-- A context and a call are closed that were not opened, and the frame of a call is
    closed as if it were a scope. -/
def strayOps : List Op :=
  [.popContext, .closeCall, .pushContext (some ⟨0⟩), .pushContext none, .popContext, .pop, .push ⟨1⟩,
    .openCall, .closeScope, .closeScope, .bind "x" ⟨1⟩]

/-- Scopes, a context and operands are left behind, in the call and in one inside it. -/
def untidyBody : List Op :=
  [.openScope, .push ⟨2⟩, .openCall, .openScope, .push ⟨3⟩, .pop, .pop, .push ⟨4⟩, .push ⟨5⟩, .closeCall,
    .truncate 1, .push ⟨6⟩, .openScope, .closeScope, .pushContext none, .sealGlobals]

theorem inCall_untidyBody : InCall 0 untidyBody := by
  have hinner : InCall 0 [.openScope, .push ⟨3⟩, .pop, .pop, .push ⟨4⟩, .push ⟨5⟩] :=
    .openScope (.other rfl (.other rfl (.other rfl (.other rfl (.other rfl .done)))))
  exact .openScope (.other rfl (.call hinner (.other rfl (.other rfl (.openScope (.closeScope
    (.other rfl (.other rfl .done))))))))

theorem strayOps_invariant :
    (run {} strayOps).asStacks.Lockstep ∧ (run {} strayOps).receiver? = some ⟨0⟩ ∧
      (run {} (strayOps ++ (.openCall :: untidyBody ++ [.closeCall]))).values = (run {} strayOps).values := by
  obtain ⟨-, hlockstep, -, hreceiver, hcall⟩ := history_invariant strayOps
  have hspares : Spares (run {} strayOps).valueDepth (run {} strayOps).openCall untidyBody := by decide
  obtain ⟨-, -, -, hvalues⟩ := hcall untidyBody inCall_untidyBody hspares
  rw [run_append]
  exact ⟨hlockstep, (hreceiver ⟨0⟩).2 (latest_iff.2 rfl), hvalues⟩

end State

end Treewalk
