/-
  Sessions that can be reached have sound heaps.

  * `Session.Reachable s`: `s` was created for a program, and any number of
    requests have been made of it, on values that were there, whether they
    succeeded or not;
  * `heap_invariant`: in the heap of such a session numbers are in range, no slot
    holds a slot, blocks hold slots and compounds only, and nothing contains
    itself; so looking through slots, copies, assignment and texts end on their
    own, never because of their bound on levels.
-/
import Treewalk.Proofs.Discipline
import Treewalk.Proofs.Levels
import Treewalk.Proofs.MirrorsEval

namespace Treewalk

namespace Eval

variable {α : Type} {n : Nat} {e : Engine} {V : Nat → α → Prop}

/-! ## Requests -/

theorem safe_forgetFault : Safe n (modify Machine.forgetFault) Anything :=
  fun _ hm _ => ⟨⟨hm.heap, hm.state⟩, Nat.le_refl _, trivial⟩

theorem safe_invokeOn (r : Routine) (site : Token) {receiver : Option Ref} {args : List Ref}
    (hr : MaybeIn n receiver) (hargs : ∀ a ∈ args, a.In n) :
    Safe n (invokeOn e r site receiver args) MaybeIn := by
  refine safe_droppingOperands (.bind (.forM fun a ha => safe_push (hargs a ha)) fun n' hle _ _ => ?_)
  exact safe_invoker e (hr.mono hle) r site

/-- The texts a program is given are new, each in a slot of one new array. -/
theorem safe_texts (texts : List String) :
    Mem.Safe n (do arrayOf (.pointer .char) (← texts.mapM createString)) Ref.In := by
  refine safe_of_makes (K := fun _ => True) fun h hs => ?_
  have hvalues : Mem.Makes id (¬ ·.IsSlot) (texts.mapM createString) h :=
    Mem.makes_mapM_id hs fun text _ h₁ hs₁ _ => makes_createString hs₁ text
  exact hvalues.bind fun values h₁ hm => Mem.ends_arrayOf hm fun _ => trivial

theorem safe_runEntry (texts : List String) : Safe n (runEntry e texts) MaybeIn := by
  refine .bind safe_forgetFault fun _ _ _ _ => ?_
  split
  · exact safe_fail _
  · rename_i r _
    refine .bind (safe_alloc_number (Primitive.inRange_of ..)) fun n₁ _ count hcount => ?_
    have htexts := safe_mem (n := n₁) (safe_texts texts)
    rw [liftM_bind] at htexts
    rw [← bind_assoc]
    refine .bind htexts fun n₂ hle texts htexts => ?_
    refine safe_invokeOn r r.name nofun fun a ha => ?_
    rcases List.mem_cons.1 ha with rfl | ha
    · exact hcount.mono hle
    · exact List.mem_singleton.1 ha ▸ htexts

theorem safe_callFunctionOn (name : String) {args : List Ref} (hargs : ∀ a ∈ args, a.In n) :
    Safe n (callFunctionOn e name args) MaybeIn := by
  refine .bind safe_forgetFault fun _ hle _ _ => ?_
  split
  · exact safe_fail _
  · rename_i r _
    dsimp only
    split
    · exact .bind (V := Anything) (safe_fail _) fun _ hle' _ _ =>
        safe_invokeOn r r.name nofun fun a ha => (hargs a ha).mono (hle.trans hle')
    · exact safe_invokeOn r r.name nofun fun a ha => (hargs a ha).mono hle

theorem safe_callMethodOn {owner : Ref} (howner : owner.In n) (name : String) {args : List Ref}
    (hargs : ∀ a ∈ args, a.In n) : Safe n (callMethodOn e owner name args) MaybeIn := by
  refine .bind safe_forgetFault fun _ hle₁ _ _ => ?_
  refine .bind (safe_mem (safe_receiverOf (howner.mono hle₁))) fun _ hle₂ p hp => ?_
  obtain ⟨receiver, className⟩ := p
  dsimp only
  refine .bind (safe_look _) fun _ hle₃ types _ => ?_
  split
  · exact safe_fail _
  · refine safe_invokeOn _ _ (MaybeIn.some (hp.mono hle₃)) fun a ha => ?_
    exact (hargs a ha).mono (hle₁.trans (hle₂.trans hle₃))

theorem safe_evaluateExpression (node : Node) : Safe n (evaluateExpression e node) MaybeIn := by
  refine safe_droppingOperands ?_
  refine .bind (V := Anything) (safe_ask fun _ _ _ => trivial) fun _ _ depth _ => ?_
  refine .bind (.discard (safe_evaluate e e.fuel _ node)) fun _ _ _ _ => ?_
  refine .bind (V := Anything) (safe_ask fun _ _ _ => trivial) fun _ _ depth' _ => ?_
  split
  · exact .bind safe_pop fun _ _ r hr => .pure fun _ hle => MaybeIn.some (hr.mono hle)
  · exact .pure fun _ _ => nofun

/-! ## Globals -/

theorem safe_globalValue (g : Global) : Safe n (globalValue e g) Ref.In := by
  unfold globalValue
  split
  · rename_i init _
    refine .bind (safe_droppingOperands (safe_valueOf (safe_evaluate e e.fuel) init)) ?_
    exact fun _ _ initial _ => safe_mem (safe_initialValue e g.ty initial)
  · exact safe_mem (safe_createValue _ _)

theorem safe_initializeGlobal (g : Global) : Safe n (initializeGlobal e g) Anything := by
  refine .bind (safe_globalValue g) fun _ _ r hr => ?_
  refine .bind (safe_bindName _ hr) fun _ _ _ _ => ?_
  exact safe_change fun _ _ _ hs => hs.sealGlobals

end Eval

/-! ## Reachable sessions -/

/-- The values that a request is about. -/
def Request.refs : Request → List Ref
  | .callFunction _ args => args
  | .callMethod owner _ args => owner :: args
  | _ => []

theorem Request.safe_ask {n : Nat} {e : Engine} {q : Request} (hq : ∀ r ∈ q.refs, r.In n) :
    Eval.Safe n (q.ask e) Anything := by
  cases q with
  | runEntry texts => exact .discard (Eval.safe_runEntry texts)
  | callFunction name args => exact .discard (Eval.safe_callFunctionOn name hq)
  | callMethod owner name args =>
    have howner : owner.In n := hq owner List.mem_cons_self
    exact .discard (Eval.safe_callMethodOn howner name fun a ha => hq a (List.mem_cons_of_mem owner ha))
  | evaluate node => exact .discard (Eval.safe_evaluateExpression node)
  | execute node => exact .discard (Eval.safe_execute (Eval.safe_evaluate e e.fuel) node)
  | createValue ty => exact .discard (Eval.safe_mem (safe_createValue e.program ty))
  | createString text => exact .discard (Eval.safe_mem (safe_createString text))

namespace Session

/-- The session was created for a program, and requests have been made of it. -/
inductive Reachable : Session → Prop
  | create {engine : Engine} {s : Session} : create? engine = .ok s → Reachable s
  /-- whatever the answer is -/
  | ask {s : Session} (q : Request) : Reachable s →
      (∀ r ∈ q.refs, r.id < s.machine.heap.cells.size) → Reachable (s.perform fun e => q.ask e).2

variable {s : Session}

theorem machine_perform {α : Type} (s : Session) (x : Engine → Eval α) :
    (s.perform x).2.machine = leaves (x s.engine) s.machine := by
  unfold perform leaves
  cases x s.engine s.machine <;> rfl

theorem eq_error_of_perform {α : Type} {x : Engine → Eval α} {halt : Halt} {s' : Session}
    (hx : s.perform x = (.error halt, s')) : x s.engine s.machine = .error halt s'.machine := by
  unfold perform at hx
  split at hx
  · cases hx
  · rename_i hm
    cases hx
    exact hm

/-- What holds of an empty machine, and is kept by the attempts to make a global and by
    requests, holds of every session. -/
theorem Reachable.invariant {I : Machine → Prop} (hfresh : ∀ e, I (fresh e).machine)
    (hglobal : ∀ e g m, I m → I (leaves (Eval.initializeGlobal e g) m))
    (hask : ∀ e (q : Request) m, (∀ r ∈ q.refs, r.id < m.heap.cells.size) → I m → I (leaves (q.ask e) m))
    (hs : s.Reachable) : I s.machine := by
  induction hs with
  | @create engine s hs =>
    have : Std.Refl fun m m' : Machine => I m → I m' := ⟨fun _ h => h⟩
    have : IsTrans Machine fun m m' => I m → I m' := ⟨fun _ _ _ h h' hm => h' (h hm)⟩
    have hinit := Eval.within_initializeGlobals (R := fun m m' => I m → I m')
      (fun g => .of_leaves (hglobal engine g)) (fun _ _ h => h) engine.program.globals 0
    have hsetUp : I (fresh engine).setUp.2.machine := by
      unfold setUp
      rw [machine_perform]
      exact hinit.leaves _ (hfresh engine)
    unfold create? at hs
    split at hs
    · rename_i s' hs'
      cases hs
      rw [hs'] at hsetUp
      exact hsetUp
    · cases hs
  | @ask s q _ hq ih =>
    rw [machine_perform]
    exact hask s.engine q s.machine hq ih

theorem Reachable.sound (hs : s.Reachable) : s.machine.Sound := by
  have hsafe {α : Type} {x : Eval α} {V : Nat → α → Prop} {m : Machine} (hx : Eval.Safe m.size x V) (hm : m.Sound) :
      (leaves x m).Sound :=
    ((hx m hm (Nat.le_refl _)).mono (fun _ _ h => h.1) fun _ _ h => h.1).leaves
  exact hs.invariant (fun _ => .empty) (fun _ g _ => hsafe (Eval.safe_initializeGlobal g)) fun _ _ _ hq =>
    hsafe (Request.safe_ask hq)

end Session

/-- In the heap of every session that can be reached, numbers are within the
    range of their kind, no slot holds a slot, blocks hold only slots and
    compounds, and nothing contains itself. Therefore looking through slots once
    is enough, and copies, assignment and texts are the same for every bound on
    levels from the one they use on. -/
theorem heap_invariant {s : Session} (hs : s.Reachable) :
    (∀ r p, s.machine.heap.cell r = .primitive p → p.InRange) ∧
    (∀ r ty x, s.machine.heap.cell r = .slot ty (some x) → ¬ (s.machine.heap.cell x).IsSlot) ∧
    (∀ b, ∀ x ∈ s.machine.heap.block b,
      (s.machine.heap.cell x).IsSlot ∨ (s.machine.heap.cell x).IsCompound) ∧
    (∀ r, ¬ Relation.TransGen (fun a x => x ∈ s.machine.heap.parts a) r r) ∧
    (∀ r, s.machine.heap.flatten (s.machine.heap.flatten r) = s.machine.heap.flatten r) ∧
    ∀ k, s.machine.heap.levels ≤ k →
      (∀ r, copyWithin k r s.machine.heap = copy r s.machine.heap) ∧
      (∀ t source, assignWithin k t source s.machine.heap = assign t source s.machine.heap) ∧
      ∀ r, s.machine.heap.textWithin k r = s.machine.heap.text r := by
  have hsound : s.machine.heap.Sound := hs.sound.heap
  refine ⟨hsound.number, hsound.nested, hsound.entry, fun r hcycle => ?_, flatten_flatten hsound,
    fun k hk => ⟨copyWithin_eq_copy hsound hk, assignWithin_eq_assign hsound hk,
      textWithin_eq_text hsound hk⟩⟩
  obtain ⟨x, hx, hback⟩ := Relation.TransGen.head'_iff.1 hcycle
  exact hsound.forest.not_reaches hx hback

/-- A program without globals needs no set-up. -/
theorem Session.create?_of_globals (engine : Engine) (hg : engine.program.globals = []) :
    create? engine = .ok (fresh engine) := by
  have hnone : Eval.initializeGlobals engine engine.program.globals 0 = pure () := by
    rw [hg, Eval.initializeGlobals]
  have hsetUp : (fresh engine).setUp = (.ok (), fresh engine) := by
    unfold setUp perform
    split
    · rename_i a machine hrun
      cases (congrFun hnone _).symm.trans hrun
      rfl
    · rename_i halt machine hrun
      cases (congrFun hnone _).symm.trans hrun
  unfold create?
  rw [hsetUp]

/-- A session in which a function was called and an array of two numbers made. -/
def arraySession : Session :=
  (((Session.fresh { program := Eval.oneProgram, fuel := 9 }).perform fun e =>
    (Request.evaluate Eval.oneCall).ask e).2.perform fun e =>
      (Request.createValue (.array .int (some 2))).ask e).2

theorem arraySession_invariant :
    arraySession.Reachable ∧ arraySession.machine.heap.cell ⟨6⟩ = .slot .int (some ⟨4⟩) ∧
      ¬ (arraySession.machine.heap.cell ⟨4⟩).IsSlot := by
  have hcreate := Session.create?_of_globals { program := Eval.oneProgram, fuel := 9 } rfl
  have hcall := Session.Reachable.ask (.evaluate Eval.oneCall) (.create hcreate) nofun
  have hreach : arraySession.Reachable := .ask (.createValue (.array .int (some 2))) hcall nofun
  have hslot : arraySession.machine.heap.cell ⟨6⟩ = .slot .int (some ⟨4⟩) := by decide +kernel
  exact ⟨hreach, hslot, (heap_invariant hreach).2.1 ⟨6⟩ .int ⟨4⟩ hslot⟩

end Treewalk
