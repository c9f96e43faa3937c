/-
  The trace of a fault is the chain of open calls.

  * `CallEvent`: a call is entered, or has finished; `openAfter l calls`: the calls
    that are open after the events `l`, innermost first;
  * `Eval.Logs e x m l`: `l` is what happens to calls when `x` runs from `m`, up to
    the point where it has a result or halts. Whatever runs a builtin or a routine is
    a call: of a function, a method or a constructor, that of a prior constructor
    included (`Logs.callFunction` and those after it). Every walk through a tree has a
    log (`Walks.exists_logs`);
  * `Logs.chained`: with a result, all calls have finished; a halt leaves the trace of
    those that have not;
  * `fault_trace_eq_chain`: so the trace that is left by a call from outside names
    the calls that were open when the fault arose.
-/
import Treewalk.Proofs.Isolation
import Treewalk.Proofs.Reachable
import Treewalk.Proofs.Walks

namespace Treewalk

/-! ## Events -/

/-- What happens to calls. -/
inductive CallEvent where
  | entered (site : Token)
  /-- the innermost call has finished -/
  | finished

/-- The calls that are open after an event, innermost first. -/
def CallEvent.apply (calls : List Token) : CallEvent → List Token
  | .entered site => site :: calls
  | .finished => calls.tail

/-- The calls that are open after some events, given those open before. -/
def openAfter (l : List CallEvent) (calls : List Token) : List Token :=
  l.foldl CallEvent.apply calls

/-- A line for each call: the innermost has come to `place`, every other one to
    the site of the call before it. -/
def chainLines (place : Option Location) (calls : List Token) : List String :=
  List.zipWith (fun call at_ => { call with location := at_ }.text) calls
    (place :: calls.map Token.location)

@[simp] theorem openAfter_nil (calls : List Token) : openAfter [] calls = calls :=
  rfl

@[simp] theorem openAfter_entered (site : Token) (l : List CallEvent) (calls : List Token) :
    openAfter (.entered site :: l) calls = openAfter l (site :: calls) :=
  rfl

theorem openAfter_append (l l' : List CallEvent) (calls : List Token) :
    openAfter (l ++ l') calls = openAfter l' (openAfter l calls) :=
  List.foldl_append ..

/-- The sites of the open calls, innermost first. -/
def State.sites (s : State) : List Token :=
  s.diagnostics.map DiagnosticFrame.callSite

theorem traceLines_eq_chainLines (place : Option Location) (l : List DiagnosticFrame) :
    Machine.traceLines place l = chainLines place (l.map DiagnosticFrame.callSite) := by
  induction l generalizing place with
  | nil => rfl
  | cons d rest ih => simp [Machine.traceLines, chainLines, ih]

/-! ## Logs -/

namespace Eval

/-- A call that has a result has finished, one that halts has not. -/
def ending {α : Type} (x : Eval α) (m : Machine) : List CallEvent :=
  match x m with
  | .ok .. => [.finished]
  | .error .. => []

/-- What happens to calls when the computation runs from the given machine. Frames
    do not count: it is builtins and routines that are called. -/
inductive Logs (e : Engine) : {α : Type} → Eval α → Machine → List CallEvent → Prop
  | elementary {α : Type} {x : Eval α} {m : Machine} : Elementary x → Logs e x m []
  | bind {α β : Type} {x : Eval α} {f : α → Eval β} {m m' : Machine} {a : α}
      {l l' : List CallEvent} : x m = .ok a m' → Logs e x m l → Logs e (f a) m' l' →
      Logs e (x >>= f) m (l ++ l')
  | stop {α β : Type} {x : Eval α} {f : α → Eval β} {m m' : Machine} {halt : Halt}
      {l : List CallEvent} : x m = .error halt m' → Logs e x m l → Logs e (x >>= f) m l
  | placed {α : Type} {x : Eval α} {m : Machine} {l : List CallEvent} (place : Option Location) :
      Logs e x m l → Logs e (placed place x) m l
  | droppingOperands {α : Type} {x : Eval α} {m : Machine} {l : List CallEvent} :
      Logs e x m l → Logs e (droppingOperands x) m l
  | inScope {α : Type} {x : Eval α} {m : Machine} {l : List CallEvent} :
      Logs e x { m with state := m.state.openScope } l → Logs e (inScope x) m l
  | builtin {ev : Evaluator} {ty : Ty} {b : Builtin} {name : Token} {args : List Node} {m : Machine}
      {l : List CallEvent} : e.program.Invokes name →
      Logs e (runBuiltin e ev ty b args) { m with state := m.state.enterDiagnostic name } l →
      Logs e (callBuiltin e ev ty b name args) m
        (.entered name :: l ++ ending (callBuiltin e ev ty b name args) m)
  | call {ev : Evaluator} {n : Nat} {r : Routine} {site : Token} {receiver : Option Ref} {m : Machine}
      {l : List CallEvent} : e.program.Invokes site →
      Logs e (runRoutine e ev (invoke e ev n) r) (m.entered receiver site) l →
      Logs e (invoke e ev (n + 1) r site receiver) m
        (.entered site :: l ++ ending (invoke e ev (n + 1) r site receiver) m)

variable {α β : Type} {e : Engine} {x : Eval α} {m : Machine} {l : List CallEvent}

theorem entered_not_mem_ending (x : Eval α) (m : Machine) (site : Token) : .entered site ∉ ending x m := by
  unfold ending
  split <;> simp

/-- What is opened and closed around a computation makes no difference to its end. -/
theorem ending_bracket (opening closing : Machine → Machine) (x : Eval α) (m : Machine) :
    ending (bracket opening closing x) m = ending x (opening m) := by
  unfold ending bracket
  cases x (opening m) <;> rfl

/-- Only what the program invokes is entered. -/
theorem Logs.invokes (h : Logs e x m l) {site : Token} (hs : .entered site ∈ l) :
    e.program.Invokes site := by
  induction h with
  | elementary => cases hs
  | bind _ _ _ ih ih' => exact (List.mem_append.1 hs).elim ih ih'
  | stop _ _ ih => exact ih hs
  | placed _ _ ih => exact ih hs
  | droppingOperands _ ih => exact ih hs
  | inScope _ ih => exact ih hs
  | builtin hsite _ ih | call hsite _ ih =>
    rcases List.mem_cons.1 hs with hs | hs
    · cases hs
      exact hsite
    · exact (List.mem_append.1 hs).elim ih fun h => absurd h (entered_not_mem_ending _ _ _)

/-! ## The kinds of calls -/

section Kinds

variable {ev : Evaluator} {n : Nat} {f r : Routine} {args : List Node} {m₁ m₂ m₃ : Machine}
  {l₀ l₁ : List CallEvent}

/-- What only does one thing before the next adds nothing to the log. -/
theorem Logs.after {g : α → Eval β} {a : α} (hm : x m = .ok a m₁) (hx : Elementary x)
    (hl : Logs e (g a) m₁ l) : Logs e (x >>= g) m l :=
  .bind hm (.elementary hx) hl

/-- Nor does what calls nothing afterwards. -/
theorem Logs.andThen {g : α → Eval β} (hl : Logs e x m l) (hg : ∀ a m', Logs e (g a) m' []) :
    Logs e (x >>= g) m l := by
  cases hm : x m with
  | ok a m' =>
    rw [← l.append_nil]
    exact .bind hm hl (hg a m')
  | error halt m' => exact .stop hm hl

theorem Logs.discard (hl : Logs e x m l) : Logs e (Functor.discard x) m l := by
  have hbind : Functor.discard x = x >>= fun _ => pure () := map_eq_pure_bind (fun _ => ()) x
  rw [hbind]
  exact hl.andThen fun _ _ => .elementary (.pure _)

theorem logs_yield (r : Ref) (m : Machine) : Logs e (yield r) m [] :=
  .after rfl (.push r) (.elementary (.pure _))

theorem logs_yieldResult (o : Option Ref) (m : Machine) : Logs e (yieldResult o) m [] := by
  cases o with
  | none => exact .elementary (.pure _)
  | some r => exact logs_yield r m

/-! Each kind of call runs its arguments, then its routine at a site of its own. -/

theorem Logs.callFunction {name : Token} (hf : e.program.function? name.image = some f)
    (hm : pushArguments ev args f.arity m = .ok () m₁) (hargs : Logs e (pushArguments ev args f.arity) m l₀)
    (hl : Logs e (invoke e ev n f name none) m₁ l) :
    Logs e (callFunction e ev (invoke e ev n) name args) m (l₀ ++ l) := by
  unfold Eval.callFunction
  rw [hf]
  exact .bind hm hargs (hl.andThen logs_yieldResult)

theorem Logs.callMethod {owner : Node} {method : Token} {object receiver : Ref} {className : String}
    (howner : valueOf ev owner m = .ok object m₁) (hobject : Logs e (valueOf ev owner) m l₀)
    (hreceiver : (liftM (receiverOf object) : Eval (Ref × String)) m₁ = .ok (receiver, className) m₂)
    (hm : pushValues ev args m₂ = .ok () m₃) (hargs : Logs e (pushValues ev args) m₂ l₁)
    (hr : e.program.resolveMethod className method.image
      ((m₃.state.values.items.take (m₃.state.valueDepth - m₂.state.valueDepth)).reverse.map m₃.heap.tyOf) = .ok r)
    (hl : Logs e (invoke e ev n r (method.member className method.image) (some receiver)) m₃ l) :
    Logs e (callMethod e ev (invoke e ev n) owner method args) m (l₀ ++ (l₁ ++ l)) := by
  refine .bind howner hobject (.after hreceiver (.mem _) (.after rfl (.ask _) (.bind hm hargs ?_)))
  refine .after rfl (.ask _) (.after rfl (look_eq _ ▸ .mem _) ?_)
  dsimp only
  rw [hr]
  exact hl.andThen logs_yieldResult

theorem Logs.callConstructor {c : ConstructorRef} {compound : Compound} {object receiver : Ref}
    (hc : e.program.compound? c.className = some compound) (hr : compound.constructors[c.index]? = some r)
    (hobject : (liftM (createValue e.program compound.ty) : Eval Ref) m = .ok object m₁)
    (hreceiver : (liftM (toPointer object) : Eval Ref) m₁ = .ok receiver m₂)
    (hm : pushArguments ev args r.arity m₂ = .ok () m₃) (hargs : Logs e (pushArguments ev args r.arity) m₂ l₀)
    (hl : Logs e (invoke e ev n r (r.name.member c.className constructorName) (some receiver)) m₃ l) :
    Logs e (callConstructor e ev (invoke e ev n) c args) m (l₀ ++ l) := by
  have hsome : (compound.constructors.isEmpty && args.isEmpty) = false := by
    cases hcs : compound.constructors with
    | nil => rw [hcs] at hr; cases hr
    | cons => rfl
  unfold Eval.callConstructor
  rw [hc]
  refine .after hobject (.mem _) (.after hreceiver (.mem _) ?_)
  dsimp only
  rw [hsome, hr]
  exact .bind hm hargs (hl.discard.andThen fun _ => logs_yield receiver)

/-- The constructor that runs first is called like any other. -/
theorem Logs.runPrior {prior : Prior} {receiver : Ref} (hr : e.program.constructor? prior.target = some r)
    (hreceiver : m.state.receiver? = some receiver)
    (hm : pushArguments ev prior.args r.arity m = .ok () m₁)
    (hargs : Logs e (pushArguments ev prior.args r.arity) m l₀)
    (hl : Logs e (invoke e ev n r (r.name.member prior.target.className constructorName) (some receiver)) m₁ l) :
    Logs e (runPrior e ev (invoke e ev n) prior) m (l₀ ++ l) := by
  unfold Eval.runPrior
  rw [hr]
  refine .after rfl (.ask _) ?_
  dsimp only
  rw [hreceiver]
  exact .bind hm hargs hl.discard

end Kinds

/-! ## What a log says about the trace -/

end Eval

/-- All calls of the log have finished, and no fault was noted. -/
structure Machine.Completes (m : Machine) (l : List CallEvent) (m' : Machine) : Prop where
  sites : m'.state.sites = m.state.sites
  calls : ∀ calls, openAfter l calls = calls
  trace : m'.trace = none

/-- The calls in `left` have not finished. If there are any, the trace names them
    and those around them. -/
structure Machine.Breaks (m : Machine) (l : List CallEvent) (left : List Token) (m' : Machine) :
    Prop where
  sites : m'.state.sites = m.state.sites
  calls : ∀ calls, openAfter l calls = left ++ calls
  trace : m'.trace = if left = [] then none
    else some (chainLines (m'.nearest >>= Token.location) (left ++ m.state.sites))

namespace State

variable (s : State)

@[simp] theorem sites_truncate (n : Nat) : (s.truncate n).sites = s.sites := rfl

@[simp] theorem sites_enterDiagnostic (site : Token) :
    (s.enterDiagnostic site).sites = site :: s.sites := rfl

@[simp] theorem sites_exitDiagnostic : s.exitDiagnostic.sites = s.sites.tail := by
  simp [sites, exitDiagnostic, List.map_tail]

@[simp] theorem sites_bind (name : String) (r : Ref) : (s.bind name r).sites = s.sites := by
  simp only [sites, bind]
  cases s.diagnostics <;> rfl

@[simp] theorem sites_closeScope : s.closeScope.sites = s.sites := by
  simp only [closeScope]
  split <;> rfl

@[simp] theorem sites_truncateFrames (n : Nat) : (s.truncateFrames n).sites = s.sites := by
  simp only [truncateFrames]
  split
  · rfl
  · split <;> rfl

@[simp] theorem sites_closeCall : s.closeCall.sites = s.sites := by
  simp only [closeCall]
  split
  · rfl
  · rw [sites_truncate, sites_truncateFrames]
    rfl

theorem sites_of_pop? {t : State} {r : Ref} (h : s.pop? = some (r, t)) : t.sites = s.sites := by
  simp only [pop?, Option.map_eq_some_iff] at h
  obtain ⟨⟨r', v⟩, -, h⟩ := h
  cases h
  rfl

end State

/-- A call that halts is the outermost of those that have not finished. It notes
    them unless one inside it has done so already. -/
theorem Machine.Breaks.capture {m m' : Machine} {l : List CallEvent} {left : List Token}
    {site : Token} (e : Engine)
    (h : Machine.Breaks { m with state := m.state.enterDiagnostic site } l left m') :
    m.Breaks (.entered site :: l) (left ++ [site])
      { m'.capture e with state := (m'.capture e).state.exitDiagnostic } := by
  have hsites : m'.state.sites = site :: m.state.sites := h.sites
  refine ⟨?_, fun calls => ?_, ?_⟩
  · simp [hsites]
  · simp [h.calls]
  · have htrace := h.trace
    by_cases hleft : left = []
    · have hlines : Machine.traceLines (m'.nearest >>= Token.location) m'.state.diagnostics =
          chainLines (m'.nearest >>= Token.location) (site :: m.state.sites) := by
        rw [traceLines_eq_chainLines, ← hsites]
        rfl
      rw [if_pos hleft] at htrace
      simpa [Machine.capture, htrace, hleft] using hlines
    · rw [if_neg hleft] at htrace
      simp [Machine.capture, htrace]

/-- The same calls are open, and the same trace is noted. -/
structure Machine.Quiet (m m' : Machine) : Prop where
  sites : m'.state.sites = m.state.sites
  trace : m'.trace = m.trace

instance : Std.Refl Machine.Quiet := ⟨fun _ => ⟨rfl, rfl⟩⟩
instance : IsTrans Machine Machine.Quiet :=
  ⟨fun _ _ _ h h' => ⟨h'.sites.trans h.sites, h'.trace.trans h.trace⟩⟩

namespace Eval

variable {α β : Type} {e : Engine} {x : Eval α} {m : Machine} {l : List CallEvent}

/-- With a result all calls have finished, without one the trace names the others. -/
def Chained (x : Eval α) (m : Machine) (l : List CallEvent) : Prop :=
  Ends x m (fun _ m' => m.Completes l m') fun _ m' => ∃ left, m.Breaks l left m'

/-- However the computation ends, it was of no concern to calls. -/
abbrev Quiet (x : Eval α) : Prop :=
  Relates Machine.Quiet x

theorem quiet_mem (x : Mem α) : Quiet (liftM x : Eval α) := by
  intro m
  rw [ends_mem]
  exact .of_forall (fun _ _ => ⟨rfl, rfl⟩) fun _ _ => ⟨⟨rfl, rfl⟩, trivial⟩

theorem Elementary.quiet (hx : Elementary x) : Quiet x := by
  cases hx with
  | pure a => exact .pure a
  | throw halt => exact .throw trivial
  | mem x => exact quiet_mem x
  | ask f => exact fun m => Std.Refl.refl m
  | push r => exact fun m => ⟨rfl, rfl⟩
  | pop =>
    intro m
    rw [ends_pop]
    split
    · rename_i r t ht
      exact ⟨State.sites_of_pop? _ ht, rfl⟩
    · exact ⟨Std.Refl.refl m, trivial⟩
  | bindName name r => exact fun m => ⟨State.sites_bind .., rfl⟩
  | print bytes => exact fun m => ⟨rfl, rfl⟩
  | note t =>
    intro m
    cases t with
    | none => exact Std.Refl.refl m
    | some t =>
      show m.Quiet (if t.location.isSome then { m with nearest := some t } else m)
      split
      · exact ⟨rfl, rfl⟩
      · exact Std.Refl.refl m

theorem Quiet.chained (hx : Quiet x) (htrace : m.trace = none) : Chained x m [] :=
  (hx m).mono (fun _ _ h => ⟨h.sites, fun _ => rfl, h.trace.trans htrace⟩)
    fun _ _ h => ⟨[], h.1.sites, fun _ => rfl, h.1.trace.trans htrace⟩

/-- What is opened and closed around a computation is of no concern to calls. -/
theorem Chained.bracket {opening closing : Machine → Machine} (hx : Chained x (opening m) l)
    (hopen : (opening m).state.sites = m.state.sites)
    (hclose : ∀ m', (closing m').trace = m'.trace ∧ (closing m').nearest = m'.nearest ∧
      (closing m').state.sites = m'.state.sites) :
    Chained (bracket opening closing x) m l := by
  unfold Chained
  rw [ends_bracket]
  refine hx.mono (fun _ m' h => ?_) ?_
  · obtain ⟨htrace, -, hsites⟩ := hclose m'
    exact ⟨hsites.trans (h.sites.trans hopen), h.calls, htrace.trans h.trace⟩
  · rintro _ m' ⟨left, h⟩
    obtain ⟨htrace, hnearest, hsites⟩ := hclose m'
    refine ⟨left, hsites.trans (h.sites.trans hopen), h.calls, ?_⟩
    rw [htrace, hnearest, h.trace, hopen]

/-- A frame is for one call, which has finished if there is a result. -/
theorem Chained.underDiagnostic {site : Token}
    (hx : Chained x { m with state := m.state.enterDiagnostic site } l) :
    Chained (underDiagnostic e site x) m (.entered site :: l ++ ending (underDiagnostic e site x) m) := by
  unfold Chained
  rw [ends_underDiagnostic]
  cases hm : x { m with state := m.state.enterDiagnostic site } with
  | ok a m' =>
    have h := Ends.of_ok hx hm
    have hend : ending (Eval.underDiagnostic e site x) m = [.finished] := by
      unfold ending
      rw [run_underDiagnostic hm]
    rw [ends_iff_of_ok hm, hend]
    refine ⟨?_, fun calls => ?_, h.trace⟩
    · simp [h.sites]
    · rw [List.cons_append, openAfter_entered, openAfter_append, h.calls]
      rfl
  | error halt m' =>
    obtain ⟨left, h⟩ := Ends.of_error hx hm
    have hend : ending (Eval.underDiagnostic e site x) m = [] := by
      unfold ending
      rw [run_underDiagnostic_error hm]
    rw [ends_iff_of_error hm, hend, List.append_nil]
    exact ⟨_, h.capture _⟩

theorem Logs.chained (h : Logs e x m l) (htrace : m.trace = none) : Chained x m l := by
  induction h with
  | elementary hx => exact hx.quiet.chained htrace
  | bind hx _ _ ih ih' =>
    have h₁ := Ends.of_ok (ih htrace) hx
    unfold Chained
    rw [ends_bind, ends_iff_of_ok hx]
    refine (ih' h₁.trace).mono (fun _ m' h₂ => ?_) ?_
    · exact ⟨h₂.sites.trans h₁.sites, fun calls => by rw [openAfter_append, h₁.calls, h₂.calls],
        h₂.trace⟩
    · rintro _ m' ⟨left, h₂⟩
      refine ⟨left, h₂.sites.trans h₁.sites, fun calls => ?_, h₁.sites ▸ h₂.trace⟩
      rw [openAfter_append, h₁.calls, h₂.calls]
  | stop hx _ ih =>
    unfold Chained
    rw [ends_bind, ends_iff_of_error hx]
    exact Ends.of_error (ih htrace) hx
  | placed place _ ih =>
    unfold Chained
    rw [ends_placed]
    exact ih htrace
  | droppingOperands _ ih =>
    exact Chained.bracket (ih htrace) rfl fun _ => ⟨rfl, rfl, rfl⟩
  | inScope _ ih =>
    exact Chained.bracket (ih htrace) rfl fun m' => ⟨rfl, rfl, m'.state.sites_closeScope⟩
  | builtin _ _ ih => exact (ih htrace).underDiagnostic
  | @call ev n r site receiver m l _ _ ih =>
    let m₁ := { m with state := m.state.pushContext receiver }
    have hcall : Chained (inCall (runRoutine e ev (invoke e ev n) r))
        { m₁ with state := m₁.state.enterDiagnostic site } l :=
      Chained.bracket (ih htrace) rfl fun m' => ⟨rfl, rfl, m'.state.sites_closeCall⟩
    have hdiagnosed := Chained.underDiagnostic (e := e) (m := m₁) hcall
    unfold invoke inContext
    rw [ending_bracket]
    exact Chained.bracket hdiagnosed rfl fun m' => ⟨rfl, rfl, rfl⟩

/-! ## Every evaluation has a log -/

/-- From every machine the computation has a log. -/
def Logged (e : Engine) (x : Eval α) : Prop :=
  ∀ m, ∃ l, Logs e x m l

/-- Along a walk calls are entered, and finish. -/
theorem Walks.exists_logs {G : Node → Prop} {w : List NodeEvent} (h : Walks e G x m w) : ∃ l, Logs e x m l := by
  induction h with
  | elementary hx _ => exact ⟨[], .elementary hx⟩
  | blamed l c => exact ⟨[], .placed _ (.elementary (.throw _))⟩
  | bind hm _ _ ih ih' =>
    obtain ⟨l, hl⟩ := ih
    obtain ⟨l', hl'⟩ := ih'
    exact ⟨_, .bind hm hl hl'⟩
  | stop hm _ ih =>
    obtain ⟨l, hl⟩ := ih
    exact ⟨_, .stop hm hl⟩
  | @visited _ m _ node _ _ _ _ _ ih | @interrupted _ m _ node _ _ _ _ _ ih =>
    obtain ⟨l, hl⟩ := ih
    exact ⟨_, .bind (note_eq node.token m) (.elementary (.note _)) (.placed _ hl)⟩
  | droppingOperands _ ih =>
    obtain ⟨l, hl⟩ := ih
    exact ⟨_, .droppingOperands hl⟩
  | inScope _ ih =>
    obtain ⟨l, hl⟩ := ih
    exact ⟨_, .inScope hl⟩
  | builtin hsite _ ih =>
    obtain ⟨l, hl⟩ := ih
    exact ⟨_, .builtin hsite hl⟩
  | call hsite _ ih =>
    obtain ⟨l, hl⟩ := ih
    exact ⟨_, .call hsite hl⟩

theorem Walked.logged {G : Node → Prop} (hx : Walked e G x) : Logged e x := by
  intro m
  obtain ⟨w, hw⟩ := hx m
  exact hw.exists_logs

theorem logged_runRoutine (e : Engine) (n : Nat) (r : Routine) :
    Logged e (runRoutine e e.evaluator (invoke e e.evaluator n) r) :=
  (walked_runRoutine (.all e fun _ => trivial) n trivial).logged

end Eval

/-! ## Calls from outside -/

/-- A call from outside. -/
inductive OutsideCall where
  | runEntry (texts : List String)
  | callFunction (name : String) (args : List Ref)
  | callMethod (owner : Ref) (name : String) (args : List Ref)

/-- What a call from outside is about to run, and on what. -/
structure Callee where
  routine : Routine
  /-- how the call appears in diagnostics -/
  site : Token
  receiver : Option Ref
  args : List Ref

namespace OutsideCall

open Eval

def ask : OutsideCall → Engine → Eval (Option Ref)
  | runEntry texts => fun e => Eval.runEntry e texts
  | callFunction name args => fun e => callFunctionOn e name args
  | callMethod owner name args => fun e => callMethodOn e owner name args

/-- Find what is to be run. -/
def find (e : Engine) : OutsideCall → Eval Callee
  | runEntry texts =>
    match e.program.function? e.entry with
    | none => fail (.missingEntryPoint e.entry)
    | some r => do
      let count ← Mem.alloc (.primitive (.int (.ofNat texts.length)))
      let values ← mem (texts.mapM createString)
      let texts ← arrayOf (.pointer .char) values
      return ⟨r, r.name, none, [count, texts]⟩
  | callFunction name args =>
    match e.program.function? name with
    | none => fail (.undefinedSymbol name)
    | some r =>
      if r.arity ≠ args.length then fail (.malformed (.callArgumentCount name r.arity args.length))
      else return ⟨r, r.name, none, args⟩
  | callMethod owner name args => do
    let (receiver, className) ← receiverOf owner
    let types ← look fun h => args.map h.tyOf
    match e.program.resolveMethod className name types with
    | .error c => fail c
    | .ok r => return ⟨r, r.name.member className name, some receiver, args⟩

theorem quiet_find (e : Engine) (q : OutsideCall) : Quiet (q.find e) := by
  cases q with
  | runEntry texts =>
    simp only [find]
    cases e.program.function? e.entry with
    | none => exact .throw trivial
    | some r =>
      refine .bind (quiet_mem _) fun count => .bind (quiet_mem _) fun values => ?_
      exact .bind (quiet_mem _) fun texts => .pure _
  | callFunction name args =>
    simp only [find]
    cases e.program.function? name with
    | none => exact .throw trivial
    | some r =>
      dsimp only
      split
      · exact .throw trivial
      · exact .pure _
  | callMethod owner name args =>
    refine .bind (quiet_mem _) fun p => .bind (look_eq _ ▸ quiet_mem _) fun types => ?_
    cases e.program.resolveMethod p.2 name types with
    | error c => exact .throw trivial
    | ok r => exact .pure _

/-- The callee is found, then run. -/
theorem ask_eq (q : OutsideCall) (e : Engine) : q.ask e = (do
    modify Machine.forgetFault
    let c ← q.find e
    invokeOn e c.routine c.site c.receiver c.args) := by
  cases q with
  | runEntry texts =>
    refine bind_congr fun _ => ?_
    simp only [find]
    cases e.program.function? e.entry with
    | none => rfl
    | some r => simp only [bind_assoc, pure_bind]
  | callFunction name args =>
    refine bind_congr fun _ => ?_
    simp only [find]
    cases e.program.function? name with
    | none => rfl
    | some r =>
      dsimp only
      split
      · rfl
      · rw [pure_bind]
  | callMethod owner name args =>
    refine bind_congr fun _ => ?_
    simp only [find, bind_assoc]
    refine bind_congr fun p => bind_congr fun types => ?_
    cases e.program.resolveMethod p.2 name types with
    | error c => rfl
    | ok r => simp only [pure_bind]

end OutsideCall

/-! ## Between calls from outside no call is open -/

/-- The same calls are open. -/
def Machine.SameSites (m m' : Machine) : Prop :=
  m'.state.sites = m.state.sites

instance : Std.Refl Machine.SameSites := ⟨fun _ => rfl⟩
instance : IsTrans Machine Machine.SameSites := ⟨fun _ _ _ h h' => Eq.trans h' h⟩

theorem Noted.sites {l l' : List DiagnosticFrame} (h : Noted l l') :
    l'.map DiagnosticFrame.callSite = l.map DiagnosticFrame.callSite := by
  cases l with
  | nil => rw [show l' = [] from h]
  | cons d rest =>
    obtain ⟨more, rfl⟩ := h
    rfl

namespace Eval

variable {α : Type} {e : Engine} {x : Eval α}

/-- However the computation ends, the same calls are open. -/
abbrev Closing (x : Eval α) : Prop :=
  Relates Machine.SameSites x

theorem Orderly.closing (hx : Orderly Heap.Retains x) : Closing x :=
  fun m => (hx m).mono (fun _ _ h => h.state.diagnostics.sites)
    fun _ _ h => ⟨h.1.state.diagnostics.sites, trivial⟩

theorem Framed.closing {c : Prop} (hx : Framed c x) : Closing x := by
  have hsites {m m' : Machine} (h : m.SameFrames m') : m.SameSites m' := by
    unfold Machine.SameFrames State.SameFrames at h
    unfold Machine.SameSites
    rw [h]
    rfl
  exact fun m => (hx m).mono (fun _ _ h => hsites h) fun _ _ h => ⟨hsites h.1, trivial⟩

theorem closing_initializeGlobal (g : Global) : Closing (initializeGlobal e g) := by
  refine .bind (orderly_globalValue g).closing fun r => .bind (orderly_bindName _ r).closing fun _ => ?_
  exact fun m => rfl

end Eval

theorem Request.closing_ask (q : Request) (e : Engine) : Eval.Closing (q.ask e) := by
  cases q with
  | runEntry texts => exact .discard (Eval.framed_runEntry texts).closing
  | callFunction name args => exact .discard (Eval.framed_callFunctionOn name args).closing
  | callMethod owner name args => exact .discard (Eval.framed_callMethodOn owner name args).closing
  | evaluate node => exact .discard (Eval.orderly_evaluateExpression node).closing
  | execute node => exact .discard (Eval.orderly_executeStatement node).closing
  | createValue ty => exact .discard (Eval.orderly_mem (keeps_createValue _ ty)).closing
  | createString text => exact .discard (Eval.orderly_mem (keeps_createString text)).closing

theorem Session.Reachable.sites {s : Session} (hs : s.Reachable) : s.machine.state.sites = [] :=
  hs.invariant (I := fun m => m.state.sites = []) (fun _ => rfl)
    (fun _ g m hm => ((Eval.closing_initializeGlobal g).leaves m).trans hm)
    fun e q m _ hm => ((q.closing_ask e).leaves m).trans hm

/-! ## The trace of a call from outside -/

/-- The machine with the arguments of a call as innermost operands. -/
def Machine.given (m : Machine) (args : List Ref) : Machine :=
  { m with state := args.foldl State.push m.state }

theorem Machine.sites_given (m : Machine) (args : List Ref) :
    (m.given args).state.sites = m.state.sites := by
  suffices h : ∀ s : State, (args.foldl State.push s).sites = s.sites from h m.state
  intro s
  induction args generalizing s with
  | nil => rfl
  | cons r rest ih => exact ih (s.push r)

namespace Eval

theorem forM_push (args : List Ref) (m : Machine) : args.forM push m = .ok () (m.given args) := by
  induction args generalizing m with
  | nil => rfl
  | cons r rest ih => exact ih { m with state := m.state.push r }

end Eval

/-- What happens to calls inside the callee, once it is entered. -/
def Callee.Logs (c : Callee) (e : Engine) (m : Machine) (l : List CallEvent) : Prop :=
  ∃ n, e.fuel = n + 1 ∧
    Eval.Logs e (Eval.runRoutine e e.evaluator (Eval.invoke e e.evaluator n) c.routine)
      ((m.given c.args).entered c.receiver c.site) l

namespace Eval

/-- A call that halts leaves the trace of the calls open inside it, and of itself. -/
theorem breaks_invokeOn {e : Engine} {c : Callee} {m : Machine} {l : List CallEvent}
    (hl : c.Logs e m l) (htrace : m.trace = none) :
    Ends (invokeOn e c.routine c.site c.receiver c.args) m (fun _ _ => True) fun _ m' =>
      ∃ inner, m.Breaks (.entered c.site :: l) (inner ++ [c.site]) m' := by
  obtain ⟨n, hn, hl⟩ := hl
  unfold invokeOn Engine.invoker
  rw [hn, ends_droppingOperands, ends_bind, ends_iff_of_ok (forM_push c.args m), invoke,
    ends_inContext, ends_underDiagnostic]
  -- inside the call it was entered from the machine of the context it runs in
  let m₁ := { m.given c.args with state := (m.given c.args).state.pushContext c.receiver }
  have hchained : Chained (inCall (runRoutine e e.evaluator (invoke e e.evaluator n) c.routine))
      { m₁ with state := m₁.state.enterDiagnostic c.site } l :=
    Chained.bracket (hl.chained htrace) rfl fun m' => ⟨rfl, rfl, m'.state.sites_closeCall⟩
  refine hchained.mono (fun _ _ _ => trivial) ?_
  rintro _ m' ⟨inner, h⟩
  have hcapture := Machine.Breaks.capture (m := m₁) e h
  have hsites : m.state.sites = (m.given c.args).state.sites := (m.sites_given c.args).symm
  refine ⟨inner, ?_, hcapture.calls, ?_⟩
  · exact hcapture.sites.trans hsites.symm
  · rw [hsites]
    exact hcapture.trace

/-- Without fuel nothing is run, and there is no fault. -/
theorem exists_logs_of_fault {e : Engine} {c : Callee} {m m' : Machine} {f : Fault}
    (h : invokeOn e c.routine c.site c.receiver c.args m = .error (.fault f) m') :
    ∃ l, c.Logs e m l := by
  cases hn : e.fuel with
  | zero =>
    have hspent : Ends (invokeOn e c.routine c.site c.receiver c.args) m (fun _ _ => False)
        fun halt _ => halt = .exhausted := by
      unfold invokeOn Engine.invoker
      rw [hn, ends_droppingOperands, ends_bind, ends_iff_of_ok (forM_push c.args m)]
      rfl
    cases hspent.of_error h
  | succ n =>
    obtain ⟨l, hl⟩ := logged_runRoutine e n c.routine ((m.given c.args).entered c.receiver c.site)
    exact ⟨l, n, hn, hl⟩

end Eval

/-- What was found is run. -/
theorem OutsideCall.ask_of_find {q : OutsideCall} {e : Engine} {c : Callee} {m m' : Machine}
    (h : q.find e m.forgetFault = .ok c m') :
    q.ask e m = Eval.invokeOn e c.routine c.site c.receiver c.args m' := by
  have hask : q.ask e m = (q.find e >>= fun c =>
      Eval.invokeOn e c.routine c.site c.receiver c.args) m.forgetFault := by
    rw [ask_eq]
    rfl
  rw [hask]
  simp only [bind, EStateM.bind, h]

/-- **The trace of a fault is the call chain.** A call from outside has found what
    to run, and faults. Whatever is entered inside the callee is a call of the kinds
    that programs make; and the trace names the calls that were open when the fault
    arose, innermost first, the callee last, one line for each, all but the first
    line with the place of the call before it. -/
theorem fault_trace_eq_chain {s : Session} (hs : s.Reachable) (q : OutsideCall) {c : Callee}
    {m : Machine} (hfound : q.find s.engine s.machine.forgetFault = .ok c m) {f : Fault}
    {s' : Session} (hfault : s.perform q.ask = (.error (.fault f), s')) :
    (∃ l, c.Logs s.engine m l) ∧ ∀ l, c.Logs s.engine m l →
      (∀ site, .entered site ∈ l → s.engine.program.Invokes site) ∧
      ∃ inner, openAfter l [c.site] = inner ++ [c.site] ∧
        s'.machine.trace =
          some (chainLines (s'.machine.nearest >>= Token.location) (inner ++ [c.site])) := by
  have hask := Session.eq_error_of_perform hfault
  rw [OutsideCall.ask_of_find hfound] at hask
  have hquiet : s.machine.forgetFault.Quiet m :=
    ((q.quiet_find s.engine) s.machine.forgetFault).of_ok hfound
  have htrace : m.trace = none := hquiet.trace
  have hsites : m.state.sites = [] := hquiet.sites.trans hs.sites
  refine ⟨Eval.exists_logs_of_fault hask, fun l hl => ⟨?_, ?_⟩⟩
  · obtain ⟨n, -, hl⟩ := hl
    exact fun site hsite => hl.invokes hsite
  · obtain ⟨inner, h⟩ := (Eval.breaks_invokeOn hl htrace).of_error hask
    refine ⟨inner, h.calls [] |>.trans (List.append_nil _), ?_⟩
    simpa [hsites] using h.trace

/-! ### A fault inside calls of every kind -/

namespace Poking

def token (image : String) (line : Nat) : Token where
  image := image
  location := some { line }

/-- `printf(gone)` -/
def poke : Routine where
  name := token "poke" 1
  body := .mk (.call (token "printf" 2) [.mk (.id "gone") .int (some (token "gone" 3))]) .void none

/-- `this->poke()` -/
def base : Compound where
  name := "Base"
  form := .class_
  methods := [poke]
  constructors := [{
    name := token "Base" 4
    body := .mk (.methodCall (.mk (.id "this") .void none) (token "poke" 5) []) .void none }]

def derived : Compound where
  name := "Derived"
  form := .class_
  parent := some "Base"
  constructors := [{
    name := token "Derived" 6
    prior := some { target := ⟨"Base", 0⟩ }
    body := .mk (.block []) .void none }]

/-- `Derived()` -/
def start : Routine where
  name := token "start" 7
  body := .mk (.construct ⟨"Derived", 0⟩ []) .void none

/-- The entry point makes an object. A method that is called while it is made prints a name
    that is not there. -/
def session : Session :=
  .fresh {
    program := {
      functions := .ofList [("start", start)]
      compounds := .ofList [("Base", base), ("Derived", derived)] }
    fuel := 20 }

def found : Machine :=
  leaves ((OutsideCall.runEntry []).find session.engine) session.machine.forgetFault

def callee : Callee :=
  ⟨start, start.name, none, [⟨0⟩, ⟨1⟩]⟩

def fault : Fault :=
  { cause := .undefinedSymbol "gone", location := some { line := 3 } }

def after : Session :=
  (session.perform (OutsideCall.runEntry []).ask).2

theorem fault_trace_after :
    session.Reachable ∧
    (OutsideCall.runEntry []).find session.engine session.machine.forgetFault = .ok callee found ∧
    session.perform (OutsideCall.runEntry []).ask = (.error (.fault fault), after) ∧
    (∃ l, callee.Logs session.engine found l) ∧
    ∃ inner, after.machine.trace =
        some (chainLines (after.machine.nearest >>= Token.location) (inner ++ [callee.site])) ∧
      after.machine.trace = some ["printf(line 3)", "Derived::poke(line 2)", "Base::<init>(line 5)",
        "Derived::<init>(line 4)", "start(line 6)"] := by
  have hreach : session.Reachable := .create (Session.create?_of_globals _ rfl)
  have hfound : (OutsideCall.runEntry []).find session.engine session.machine.forgetFault =
      .ok callee found := rfl
  have hfault : session.perform (OutsideCall.runEntry []).ask = (.error (.fault fault), after) := by
    have hresult : (session.perform (OutsideCall.runEntry []).ask).1 = .error (.fault fault) := by
      decide +kernel
    unfold after
    rw [← hresult]
  obtain ⟨⟨l, hl⟩, hall⟩ := fault_trace_eq_chain hreach _ hfound hfault
  obtain ⟨-, inner, -, htrace⟩ := hall l hl
  exact ⟨hreach, hfound, hfault, ⟨l, hl⟩, inner, htrace, by decide +kernel⟩

end Poking

end Treewalk
