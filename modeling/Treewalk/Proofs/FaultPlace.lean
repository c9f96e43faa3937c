/-
  Where a fault is, and where its trace says it is.

  * `Node.Located n`: the node and all its parts have tokens with a place;
  * `lastToken before w`: the token of the node that was entered last in the walk `w`;
  * `Balanced w`: all nodes that were entered have been left;
  * `StopsAt w place`: where a fault is that ends a walk;
  * `Walks.followed`: the token noted last is that of the node entered last, while the
    fault has the place of the innermost node that has not been left;
  * `trace_marks_last_entered`: so the first line of a trace has the place of the node
    that was entered last.
-/
import Treewalk.Proofs.CallChain

namespace Treewalk

/-! ## Nodes with a place -/

/-- The node has a token with a place. -/
def Node.Placed (n : Node) : Prop :=
  ∃ t, n.token = some t ∧ t.location.isSome

/-- So have all its parts. -/
inductive Node.Located : Node → Prop
  | mk {n : Node} : n.Placed → (∀ c ∈ n.construct.children, Located c) → Located n

namespace Node.Located

variable {n c : Node}

theorem own (h : n.Located) : n.Placed := by
  cases h with
  | mk hn _ => exact hn

theorem child (h : n.Located) (hc : c ∈ n.construct.children) : c.Located := by
  cases h with
  | mk _ hchild => exact hchild c hc

end Node.Located

/-- All nodes of the routines have places. -/
def Program.Located (p : Program) : Prop :=
  ∀ r ∈ p.routines, r.Lies Node.Located

theorem Program.Located.closed {e : Engine} (h : e.program.Located) :
    e.Closed (fun _ => True) Node.Located (Routine.Lies Node.Located) :=
  .of_routines (fun _ _ _ => trivial) Node.Located.child h

theorem Node.location?_of_token {n : Node} {t : Token} (h : n.token = some t) : n.location? = t.location := by
  obtain ⟨construct, ty, token⟩ := n
  obtain rfl : token = some t := h
  unfold location?
  rw [closestToken?]
  rfl

namespace Node.Placed

variable {n : Node}

theorem noted (h : n.Placed) (m : Machine) : m.noted n.token = { m with nearest := n.token } := by
  obtain ⟨t, ht, hl⟩ := h
  rw [ht]
  exact if_pos hl

theorem exists_location (h : n.Placed) : ∃ l, n.location? = some l ∧ n.token >>= Token.location = some l := by
  obtain ⟨t, ht, hl⟩ := h
  obtain ⟨l, hl⟩ := Option.isSome_iff_exists.1 hl
  refine ⟨l, ?_, ?_⟩
  · rw [location?_of_token ht, hl]
  · rw [ht]
    exact hl

end Node.Placed

/-! ## Walks -/

/-- The token of the node that was entered last, or else the one given. -/
def lastToken (before : Option Token) : List NodeEvent → Option Token
  | [] => before
  | .entered n :: w => lastToken n.token w
  | .left :: w | .blamed _ :: w => lastToken before w

theorem lastToken_append (before : Option Token) (w w' : List NodeEvent) :
    lastToken before (w ++ w') = lastToken (lastToken before w) w' := by
  fun_induction lastToken before w with
  | case1 => rfl
  | case2 before n w ih | case3 before w ih | case4 before l w ih => exact ih

/-- All nodes that were entered have been left. -/
inductive Balanced : List NodeEvent → Prop
  | nil : Balanced []
  | node {w : List NodeEvent} (n : Node) : Balanced w → Balanced (.entered n :: w ++ [.left])
  | append {w w' : List NodeEvent} : Balanced w → Balanced w' → Balanced (w ++ w')

/-- Where no node is entered no token is noted. -/
theorem lastToken_of_not_entered {before : Option Token} {w : List NodeEvent} (h : ∀ n, .entered n ∉ w) :
    lastToken before w = before := by
  fun_induction lastToken before w with
  | case1 => rfl
  | case2 before n w ih => exact absurd List.mem_cons_self (h n)
  | case3 before w ih | case4 before l w ih => exact ih fun n hn => h n (List.mem_cons_of_mem _ hn)

/-- Where a fault is that ends a walk: at the innermost node that has not been left, or
    at one that was left without a value. It has no place if there is no such node. -/
inductive StopsAt : List NodeEvent → Option Location → Prop
  | outside {w : List NodeEvent} : Balanced w → StopsAt w none
  | inside {w : List NodeEvent} {n : Node} {l : Location} (before : List NodeEvent) : n.Placed →
      n.location? = some l → Balanced w → StopsAt (before ++ .entered n :: w) (some l)
  | blamed (before : List NodeEvent) (l : Location) : StopsAt (before ++ [.blamed l]) (some l)

namespace StopsAt

variable {w w' : List NodeEvent} {place : Option Location}

theorem after (h : StopsAt w' place) (hw : Balanced w) : StopsAt (w ++ w') place := by
  cases h with
  | outside hw' => exact .outside (hw.append hw')
  | inside before hn hl hw' =>
    rw [← List.append_assoc]
    exact .inside _ hn hl hw'
  | blamed before l =>
    rw [← List.append_assoc]
    exact .blamed _ l

/-- A fault without a place gets that of the node it leaves. -/
theorem entered (h : StopsAt w place) {n : Node} (hn : n.Placed) :
    StopsAt (.entered n :: w) (place <|> n.location?) := by
  cases h with
  | outside hw =>
    obtain ⟨l, hl, -⟩ := hn.exists_location
    rw [hl]
    exact .inside [] hn hl hw
  | inside before hn' hl hw => exact .inside (.entered n :: before) hn' hl hw
  | blamed before l => exact .blamed (.entered n :: before) l

end StopsAt

namespace Eval

/-- With a result, all nodes have been left. Without one, the fault has a place in the
    walk. The token of the node that was entered last is noted. -/
def Followed {α : Type} (x : Eval α) (m : Machine) (w : List NodeEvent) : Prop :=
  Ends x m (fun _ m' => m'.nearest = lastToken m.nearest w ∧ Balanced w) fun halt m' =>
    m'.nearest = lastToken m.nearest w ∧ ∀ f, halt = .fault f → StopsAt w f.location

variable {α : Type} {e : Engine} {G : Node → Prop} {x : Eval α} {m : Machine} {w : List NodeEvent}

theorem Unmarked.followed (hx : Unmarked x) (m : Machine) : Followed x m [] := by
  refine (hx m).mono (fun _ _ h => ⟨h, .nil⟩) ?_
  rintro halt m' ⟨hnearest, hplace⟩
  refine ⟨hnearest, ?_⟩
  rintro f rfl
  rw [show f.location = none from hplace]
  exact .outside .nil

/-- What is opened and closed around a computation is of no concern to nodes. -/
theorem Followed.bracket {opening closing : Machine → Machine} (hx : Followed x (opening m) w)
    (hopen : (opening m).nearest = m.nearest) (hclose : ∀ m', (closing m').nearest = m'.nearest) :
    Followed (bracket opening closing x) m w := by
  unfold Followed at hx ⊢
  rw [hopen] at hx
  rw [ends_bracket]
  exact hx.mono (fun _ m' h => ⟨(hclose m').trans h.1, h.2⟩) fun _ m' h => ⟨(hclose m').trans h.1, h.2⟩

theorem Walks.followed (hG : ∀ n, G n → n.Placed) (h : Walks e G x m w) : Followed x m w := by
  induction h with
  | elementary _ hx => exact hx.followed _
  | blamed l c =>
    refine ⟨rfl, ?_⟩
    rintro f ⟨⟩
    exact .blamed [] l
  | bind hx _ _ ih ih' =>
    obtain ⟨hnearest, hw⟩ := Ends.of_ok ih hx
    unfold Followed
    rw [ends_bind, ends_iff_of_ok hx]
    refine ih'.mono (fun _ m' h => ?_) fun _ m' h => ?_
    · exact ⟨by rw [h.1, hnearest, lastToken_append], hw.append h.2⟩
    · exact ⟨by rw [h.1, hnearest, lastToken_append], fun f hf => (h.2 f hf).after hw⟩
  | stop hx _ ih =>
    unfold Followed
    rw [ends_bind, ends_iff_of_error hx]
    exact Ends.of_error ih hx
  | @visited x m m' node o w hn hx _ ih =>
    obtain ⟨hnearest, hw⟩ := Ends.of_ok ih hx
    have hrun : visit node x m = .ok o m' := by
      rw [run_visit]
      exact run_placed_ok _ hx
    rw [(hG node hn).noted] at hnearest
    unfold Followed
    rw [ends_iff_of_ok hrun]
    refine ⟨?_, .node node hw⟩
    rw [hnearest, lastToken_append]
    rfl
  | @interrupted x m m' node halt w hn hx _ ih =>
    obtain ⟨hnearest, hstops⟩ := Ends.of_error ih hx
    have hrun : visit node x m = .error (halt.orLocation node.location?) m' := by
      rw [run_visit]
      exact run_placed_error _ hx
    rw [(hG node hn).noted] at hnearest
    unfold Followed
    rw [ends_iff_of_error hrun]
    refine ⟨hnearest, fun f hf => ?_⟩
    cases halt with
    | fault f' =>
      cases hf
      exact (hstops f' rfl).entered (hG node hn)
    | exhausted => cases hf
  | droppingOperands _ ih => exact ih.bracket rfl fun _ => rfl
  | inScope _ ih => exact ih.bracket rfl fun _ => rfl
  | builtin _ _ ih =>
    unfold Followed callBuiltin
    rw [ends_underDiagnostic]
    exact ih.mono (fun _ _ h => h) fun _ m' h => ⟨(m'.capture_nearest _).trans h.1, h.2⟩
  | call _ _ ih =>
    unfold Followed invoke
    rw [ends_inContext, ends_underDiagnostic, ends_inCall]
    exact ih.mono (fun _ _ h => h) fun _ m' h => ⟨(Machine.capture_nearest ..).trans h.1, h.2⟩

end Eval

/-! ## Calls from outside -/

/-- What happens to nodes inside the callee, once it is entered. -/
def Callee.Walks (c : Callee) (e : Engine) (m : Machine) (w : List NodeEvent) : Prop :=
  ∃ n, e.fuel = n + 1 ∧
    Eval.Walks e Node.Located (Eval.runRoutine e e.evaluator (Eval.invoke e e.evaluator n) c.routine)
      ((m.given c.args).entered c.receiver c.site) w

namespace OutsideCall

open Eval

/-- What is found is a routine of the program. -/
theorem mem_routines_of_find (q : OutsideCall) (e : Engine) (m : Machine) :
    Ends (q.find e) m (fun c _ => c.routine ∈ e.program.routines) fun _ _ => True := by
  cases q with
  | runEntry texts =>
    simp only [find]
    cases hr : e.program.function? e.entry with
    | none => trivial
    | some r =>
      have hmem := Program.mem_routines_of_function? hr
      refine ends_bind.2 (.of_forall (fun count m₁ => ends_bind.2 (.of_forall (fun values m₂ => ?_) ?_)) ?_)
      · exact ends_bind.2 (.of_forall (fun texts m₃ => hmem) fun _ _ => trivial)
      · exact fun _ _ => trivial
      · exact fun _ _ => trivial
  | callFunction name args =>
    simp only [find]
    cases hr : e.program.function? name with
    | none => trivial
    | some r =>
      dsimp only
      split
      · trivial
      · exact Program.mem_routines_of_function? hr
  | callMethod owner name args =>
    simp only [find]
    refine ends_bind.2 (.of_forall (fun p m₁ => ends_bind.2 (.of_forall (fun types m₂ => ?_) ?_)) ?_)
    · cases hr : e.program.resolveMethod p.2 name types with
      | error c => trivial
      | ok r => exact Program.mem_routines_of_resolveMethod hr
    · exact fun _ _ => trivial
    · exact fun _ _ => trivial

end OutsideCall

namespace Eval

theorem followed_invokeOn {e : Engine} {c : Callee} {m : Machine} {w : List NodeEvent} (hw : c.Walks e m w) :
    Ends (invokeOn e c.routine c.site c.receiver c.args) m (fun _ _ => True) fun halt m' =>
      m'.nearest = lastToken m.nearest w ∧ ∀ f, halt = .fault f → StopsAt w f.location := by
  obtain ⟨n, hn, hw⟩ := hw
  unfold invokeOn Engine.invoker
  rw [hn, ends_droppingOperands, ends_bind, ends_iff_of_ok (forM_push c.args m), invoke,
    ends_inContext, ends_underDiagnostic, ends_inCall]
  refine (hw.followed fun n h => h.own).mono (fun _ _ _ => trivial) fun _ m' h => ⟨?_, h.2⟩
  exact (Machine.capture_nearest ..).trans h.1

end Eval

/-- **The first line of a trace has the place of the node that was entered last.** All
    nodes of a program have places. A call from outside has found what to run, and faults
    at some place. The first line of the trace is about the innermost open call, and has the
    place of the node that was entered last in the walk up to there. The place of the fault
    is that of the innermost node that has not been left: all nodes that were entered after
    it have been left, and if there are none, its place is also the one in the first line.
    Or else the fault is at a node that was left without the value it should have had. -/
theorem trace_marks_last_entered {s : Session} (hp : s.engine.program.Located) (q : OutsideCall) {c : Callee}
    {m : Machine} (hfound : q.find s.engine s.machine.forgetFault = .ok c m) {f : Fault} {L : Location}
    {s' : Session} (hfault : s.perform q.ask = (.error (.fault f), s')) (hL : f.location = some L) :
    (∃ w l, c.Walks s.engine m w ∧ c.Logs s.engine m l) ∧
    ∀ w l, c.Walks s.engine m w → c.Logs s.engine m l →
      (∃ site calls rest, openAfter l (c.site :: m.state.sites) = site :: calls ∧ s'.machine.trace =
        some ({ site with location := lastToken m.nearest w >>= Token.location }.text :: rest)) ∧
      ((∃ w₁ n w₂, w = w₁ ++ .entered n :: w₂ ∧ n.location? = some L ∧ Balanced w₂ ∧
          ((∀ n', .entered n' ∉ w₂) → lastToken m.nearest w >>= Token.location = some L)) ∨
        ∃ w₁, w = w₁ ++ [.blamed L]) := by
  have hask := Session.eq_error_of_perform hfault
  rw [OutsideCall.ask_of_find hfound] at hask
  have htrace : m.trace = none := (((q.quiet_find s.engine) s.machine.forgetFault).of_ok hfound).trace
  refine ⟨?_, fun w l hw hl => ?_⟩
  · obtain ⟨l, n, hn, hl⟩ := Eval.exists_logs_of_fault hask
    have hlies := hp c.routine ((q.mem_routines_of_find s.engine _).of_ok hfound)
    obtain ⟨w, hw⟩ := Eval.walked_runRoutine hp.closed n hlies ((m.given c.args).entered c.receiver c.site)
    exact ⟨w, l, ⟨n, hn, hw⟩, n, hn, hl⟩
  obtain ⟨inner, hbreaks⟩ := (Eval.breaks_invokeOn hl htrace).of_error hask
  obtain ⟨hnearest, hstops⟩ := (Eval.followed_invokeOn hw).of_error hask
  have hcalls := hbreaks.calls m.state.sites
  have hlines := hbreaks.trace
  obtain ⟨site, calls, hopen⟩ := List.exists_cons_of_ne_nil (l := inner ++ [c.site] ++ m.state.sites) (by simp)
  rw [if_neg (by simp), hnearest, hopen] at hlines
  refine ⟨⟨site, calls, _, hcalls.trans hopen, hlines⟩, ?_⟩
  have hplace := hstops f rfl
  rw [hL] at hplace
  cases hplace with
  | @inside w₂ n L w₁ hn hl hw₂ =>
    refine .inl ⟨w₁, n, w₂, rfl, hl, hw₂, fun hnone => ?_⟩
    obtain ⟨l, hl', htoken⟩ := hn.exists_location
    rw [lastToken_append]
    change lastToken n.token w₂ >>= Token.location = some L
    rw [lastToken_of_not_entered hnone, htoken, ← hl', hl]
  | blamed w₁ => exact .inr ⟨w₁, rfl⟩

/-! ### A fault after its operands -/

namespace Halving

def token (image : String) (line : Nat) : Token where
  image := image
  location := some { line }

def operand (n : Int64) (line : Nat) : Node :=
  .mk (.literal (.integral n)) .int (some (token "number" line))

def quotient : Node :=
  .mk (.binary .div (operand 1 3) (operand 0 4)) .int (some (token "/" 2))

/-- A function that divides by zero. The operands are on lines of their own. -/
def halve : Routine where
  name := token "halve" 1
  returns := .int
  body := .mk (.block [.mk (.ret (some quotient)) .void (some (token "return" 2))]) .void (some (token "block" 1))

def session : Session :=
  .fresh { program := { functions := .ofList [("halve", halve)] }, fuel := 9 }

def request : OutsideCall :=
  .callFunction "halve" []

def callee : Callee :=
  ⟨halve, halve.name, none, []⟩

def found : Machine :=
  leaves (request.find session.engine) session.machine.forgetFault

def fault : Fault :=
  { cause := .divisionByZero, location := some { line := 2 } }

def after : Session :=
  (session.perform request.ask).2

theorem located : session.engine.program.Located := by
  have hoperand (n : Int64) (line : Nat) : (operand n line).Located :=
    .mk ⟨_, rfl, rfl⟩ (by simp [operand, Node.construct])
  have hquotient : quotient.Located := by
    refine .mk ⟨_, rfl, rfl⟩ ?_
    simp [quotient, Node.construct, hoperand]
  have hbody : halve.body.Located := by
    refine .mk ⟨_, rfl, rfl⟩ ?_
    simp only [halve, Node.construct, Construct.children, List.mem_singleton, forall_eq]
    refine .mk ⟨_, rfl, rfl⟩ ?_
    simp [Node.construct, hquotient]
  have hroutines : session.engine.program.routines = [halve] := rfl
  intro r hr
  rw [hroutines] at hr
  cases List.mem_singleton.1 hr
  exact ⟨hbody, by simp [halve]⟩

theorem faults : session.perform request.ask = (.error (.fault fault), after) := by
  have hresult : (session.perform request.ask).1 = .error (.fault fault) := by decide +kernel
  unfold after
  rw [← hresult]

theorem traced : after.machine.trace = some ["halve(line 4)"] := by
  decide +kernel

/-- The fault is where the quotient is, the first line of the trace where its second
    operand is. -/
theorem line_of_operand :
    session.engine.program.Located ∧ halve.name.location.isSome ∧
    session.perform request.ask = (.error (.fault fault), after) ∧
    fault.location = some { line := 2 } ∧
    after.machine.trace = some ["halve(line 4)"] ∧ after.machine.trace ≠ some ["halve(line 2)"] := by
  have hne : after.machine.trace ≠ some ["halve(line 2)"] := by
    rw [traced]
    decide
  exact ⟨located, rfl, faults, rfl, traced, hne⟩

/-- What was entered since the quotient was are its operands, which have been left. -/
theorem operands_left :
    session.engine.program.Located ∧
    request.find session.engine session.machine.forgetFault = .ok callee found ∧
    session.perform request.ask = (.error (.fault fault), after) ∧
    fault.location = some { line := 2 } ∧
    ∃ w l site calls rest, callee.Walks session.engine found w ∧ callee.Logs session.engine found l ∧
      openAfter l (callee.site :: found.state.sites) = site :: calls ∧
      after.machine.trace =
        some ({ site with location := lastToken found.nearest w >>= Token.location }.text :: rest) ∧
      ((∃ w₁ n w₂, w = w₁ ++ .entered n :: w₂ ∧ n.location? = some { line := 2 } ∧ Balanced w₂) ∨
        ∃ w₁, w = w₁ ++ [.blamed { line := 2 }]) := by
  have hfound : request.find session.engine session.machine.forgetFault = .ok callee found := rfl
  have hlocation : fault.location = some { line := 2 } := rfl
  obtain ⟨⟨w, l, hw, hl⟩, hall⟩ := trace_marks_last_entered located request hfound faults hlocation
  obtain ⟨⟨site, calls, rest, hopen, hline⟩, hplace⟩ := hall w l hw hl
  refine ⟨located, hfound, faults, hlocation, w, l, site, calls, rest, hw, hl, hopen, hline, ?_⟩
  rcases hplace with ⟨w₁, n, w₂, hsplit, hn, hbalanced, -⟩ | hblamed
  · exact .inl ⟨w₁, n, w₂, hsplit, hn, hbalanced⟩
  · exact .inr hblamed

end Halving

end Treewalk
