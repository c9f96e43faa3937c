/-
  What a numeric expression stands for.

  * `Node.Numeric n`: an expression without side effects, made of numbers, names,
    operators, conversions and sizes;
  * `Node.denote size names fuel n`: the number it stands for, given the sizes of
    types and the numbers that names stand for; or why there is none;
  * `gives_evaluate`: evaluating a numeric expression gives what it denotes, on
    any machine that knows the names (`Machine.Knows`);
  * `Node.denote_settled`: more names do not change what an expression denotes,
    unless it has failed for want of a name.
-/
import Treewalk.Proofs.Numbers

namespace Treewalk

/-- An expression without side effects that gives a number. A literal zero of
    pointer type is a null pointer and no number. -/
inductive Node.Numeric : Node → Prop
  | literal {l : Literal} {ty : Ty} {t : Option Token} :
      (ty.isPointer = true → (Eval.literalPayload l).beq (.integral 0) = false) →
      Numeric (.mk (.literal l) ty t)
  | boolean {b : Bool} {ty : Ty} {t : Option Token} : Numeric (.mk (.boolean b) ty t)
  | id {name : String} {ty : Ty} {t : Option Token} : Numeric (.mk (.id name) ty t)
  | binary {op : BinaryOp} {lhs rhs : Node} {ty : Ty} {t : Option Token} :
      Numeric lhs → Numeric rhs → Numeric (.mk (.binary op lhs rhs) ty t)
  | unary {op : UnaryOp} {operand : Node} {ty : Ty} {t : Option Token} :
      (∀ s, op ≠ .step s) → Numeric operand → Numeric (.mk (.unary op operand) ty t)
  | ternary {cond thenBranch elseBranch : Node} {ty : Ty} {t : Option Token} :
      Numeric cond → Numeric thenBranch → Numeric elseBranch →
      Numeric (.mk (.ternary cond thenBranch elseBranch) ty t)
  | cast {operand : Node} {ty : Ty} {t : Option Token} :
      ty.IsNumber → Numeric operand → Numeric (.mk (.cast operand) ty t)
  | sizeOf {subject ty : Ty} {t : Option Token} : Numeric (.mk (.sizeOf subject) ty t)

/-- The numbers that names stand for. -/
abbrev Names := String → Option Primitive

/-- A value, or why there is none; there is no cause when the fuel is spent. -/
abbrev Denoted := Except (Option Cause)

theorem Denoted.bind_ok {α β : Type} {d : Denoted α} {a : α} (h : d = .ok a) (f : α → Denoted β) :
    (d >>= f) = f a :=
  h ▸ rfl

theorem Denoted.bind_error {α β : Type} {d : Denoted α} {c : Option Cause} (h : d = .error c)
    (f : α → Denoted β) : (d >>= f) = .error c :=
  h ▸ rfl

/-- The number that a numeric expression stands for. An expression nested deeper
    than the fuel fails without a cause, as do the size of a type that has none and
    what is not numeric. -/
def Node.denote (size : Ty → Option Nat) (names : Names) : Nat → Node → Denoted Primitive
  | 0, _ => .error none
  | fuel + 1, node =>
    match node.construct with
    | .literal l => .ok (l.number node.ty)
    | .boolean b => .ok (.char (if b then 1 else 0))
    | .id name => (names name).elim (.error (some (.undefinedSymbol name))) .ok
    | .binary op lhs rhs => do
      let l ← denote size names fuel lhs
      (op.decidedBy l).elim
        (do (op.applied node.ty l (← denote size names fuel rhs)).mapError some)
        fun b => return .truth b
    | .unary op operand => do
      let p ← denote size names fuel operand
      let q ← (p.signed op).mapError some
      return q.conformed node.ty
    | .ternary cond t f => do
      let c ← denote size names fuel cond
      let p ← denote size names fuel (if c.isZero then f else t)
      return p.conformed node.ty
    | .cast operand => do
      let p ← denote size names fuel operand
      return node.ty.primitive?.elim p fun (k, u) => p.converted k u
    | .sizeOf ty => (size ty).elim (.error none) fun n => .ok (.of .long true (.integral (.ofNat n)))
    | _ => .error none

/-! ## Evaluation gives what is denoted -/

/-- The names that can be seen on a machine are those given, outside all
    methods. -/
structure Machine.Knows (m : Machine) (names : Names) : Prop where
  receiver : m.state.receiver? = none
  bound : ∀ {name p}, names name = some p → ∃ r, m.state.lookup? name = some r ∧ m.heap.Number r p
  unbound : ∀ {name}, names name = none → m.state.lookup? name = none

theorem Machine.Knows.mono {m m' : Machine} {names : Names} (h : m.Knows names)
    (hs : m'.state = m.state) (hh : m.heap.Spares m'.heap) : m'.Knows names where
  receiver := hs ▸ h.receiver
  bound := fun hn => by
    obtain ⟨r, hr, hp⟩ := h.bound hn
    exact ⟨r, hs ▸ hr, hp.spared hh⟩
  unbound := fun hn => hs ▸ h.unbound hn

namespace Eval

variable {e : Engine} {names : Names}

theorem gives_evaluate (fuel : Nat) {node : Node} (hn : node.Numeric) {m : Machine}
    (hm : m.Knows names) :
    Gives Heap.Spares m (evaluate e fuel node)
      (NumberIn fun p => node.denote (sizeOfTy e.program) names fuel = .ok p)
      fun c => node.denote (sizeOfTy e.program) names fuel = .error c := by
  induction fuel generalizing node m with
  | zero => exact ⟨rfl, .refl _, rfl⟩
  | succ fuel ih =>
    refine gives_visit fun m₁ hs₁ hh₁ => ?_
    have hm₁ : m₁.Knows names := hm.mono hs₁ (hh₁ ▸ .refl _)
    have hvalue {n : Node} (hn : n.Numeric) (m₂ : Machine) (hs : m₂.state = m₁.state)
        (hh : m₁.heap.Spares m₂.heap) {E : Option Cause → Prop}
        (hE : ∀ c, n.denote (sizeOfTy e.program) names fuel = .error c → E c) :=
      (ih hn (hm₁.mono hs hh)).valueOf.mono (fun _ _ h => h) hE
    unfold dispatch
    cases hn with
    | literal hl => exact gives_produces (Mem.produces_literal _ hl) rfl
    | boolean => exact gives_produces (Mem.produces_alloc _ _) rfl
    | @id name ty t =>
      have hreceiver : name = receiverName → m₁.state.receiver? = none := fun _ => hm₁.receiver
      have hnamed := named_eq hreceiver
      cases hp : names name with
      | none =>
        rw [hm₁.unbound hp] at hnamed
        exact gives_identifier_error hnamed (by simp [Node.denote, Node.construct, hp])
      | some p =>
        obtain ⟨r, hr, hnumber⟩ := hm₁.bound hp
        rw [hr] at hnamed
        exact gives_identifier hnamed hnumber (by simp [Node.denote, Node.construct, hp])
    | @binary op lhs rhs ty t hl hr =>
      refine gives_binary (M := fun _ r => rhs.denote _ names fuel = .ok r)
        (hvalue hl m₁ rfl (.refl _) fun c hc => Denoted.bind_error hc _) ?_
        (fun l m₂ hs hh hL hnone => hvalue hr m₂ hs hh ?_) ?_ ?_
      · intro l b hL hb
        exact (Denoted.bind_ok hL _).trans (by rw [hb]; rfl)
      · intro c hc
        refine (Denoted.bind_ok hL _).trans ?_
        rw [hnone]
        exact Denoted.bind_error hc _
      · intro l r q hL hnone hM hq
        refine (Denoted.bind_ok hL _).trans ?_
        rw [hnone]
        exact (Denoted.bind_ok hM _).trans (by rw [hq]; rfl)
      · intro l r c hL hnone hM hc
        refine (Denoted.bind_ok hL _).trans ?_
        rw [hnone]
        exact (Denoted.bind_ok hM _).trans (by rw [hc]; rfl)
    | unary hop hx =>
      refine gives_signed hop (hvalue hx m₁ rfl (.refl _) fun c hc => Denoted.bind_error hc _) ?_ ?_
      · intro p q hp hq
        exact (Denoted.bind_ok hp _).trans (by rw [hq]; rfl)
      · intro p c hp hc
        exact (Denoted.bind_ok hp _).trans (by rw [hc]; rfl)
    | @ternary cond t f ty tok hc ht hf =>
      refine gives_ternary (M := fun c p => (if c.isZero then f else t).denote _ names fuel = .ok p)
        (hvalue hc m₁ rfl (.refl _) fun c hc => Denoted.bind_error hc _)
        (fun c m₂ hs hh hL => hvalue ?_ m₂ hs hh ?_) ?_
      · split <;> assumption
      · exact fun d hd => (Denoted.bind_ok hL _).trans (Denoted.bind_error hd _)
      · exact fun c p hL hp => (Denoted.bind_ok hL _).trans (Denoted.bind_ok hp _)
    | cast hty hx =>
      obtain ⟨k, u, hty, hk⟩ := hty
      refine gives_convert hty hk (hvalue hx m₁ rfl (.refl _) fun c hc => Denoted.bind_error hc _) ?_
      exact fun p hp => (Denoted.bind_ok hp _).trans (by rw [Node.ty, hty]; rfl)
    | sizeOf =>
      refine gives_sizeOfType e (fun n hn => ?_) fun hnone => ?_
      · simp [Node.denote, Node.construct, hn]
      · simp [Node.denote, Node.construct, hnone]

end Eval

/-! ## More names -/

/-- All these names stand for the same numbers there. -/
def Names.Within (names names' : Names) : Prop :=
  ∀ ⦃name p⦄, names name = some p → names' name = some p

theorem Names.Within.trans {names names' names'' : Names} (h : names.Within names')
    (h' : names'.Within names'') : names.Within names'' :=
  fun _ _ hx => h' (h hx)

namespace Denoted

variable {α β : Type} {d d' : Denoted α}

/-- There is no value for want of a name. -/
def Wanting (d : Denoted α) : Prop :=
  ∃ name, d = .error (some (.undefinedSymbol name))

/-- The first stands as it is unless it wants for a name. -/
def Settled (d d' : Denoted α) : Prop :=
  d.Wanting ∨ d' = d

theorem Settled.refl (d : Denoted α) : d.Settled d :=
  .inr rfl

theorem Settled.bind {f f' : α → Denoted β} (hd : d.Settled d') (hf : ∀ a, (f a).Settled (f' a)) :
    Settled (d >>= f) (d' >>= f') := by
  rcases hd with ⟨name, rfl⟩ | rfl
  · exact .inl ⟨name, rfl⟩
  · cases d' with
    | error => exact .refl _
    | ok a => exact hf a

/-- A value that is there stays. -/
theorem Settled.ok {a : α} (hd : d.Settled d') (h : d = .ok a) : d' = .ok a := by
  rcases hd with ⟨name, rfl⟩ | rfl
  · cases h
  · exact h

/-- What fails now and has a value later wants for a name. -/
theorem Settled.wanting {a : α} {c : Option Cause} (hd : d.Settled d') (h : d = .error c)
    (h' : d' = .ok a) : d.Wanting := by
  refine hd.resolve_right fun heq => ?_
  rw [h', h] at heq
  cases heq

end Denoted

open Denoted in
theorem Node.denote_settled (size : Ty → Option Nat) {names names' : Names} (hnames : names.Within names')
    (fuel : Nat) (node : Node) :
    (node.denote size names fuel).Settled (node.denote size names' fuel) := by
  induction fuel generalizing node with
  | zero => exact .refl _
  | succ fuel ih =>
    obtain ⟨construct, ty, token⟩ := node
    unfold denote
    cases construct with
    | id name =>
      cases hp : names name with
      | none => exact .inl ⟨name, by simp [Node.construct, hp]⟩
      | some p => exact .inr (by simp [Node.construct, hp, hnames hp])
    | binary op lhs rhs =>
      refine .bind (ih lhs) fun l => ?_
      cases op.decidedBy l with
      | none => exact .bind (ih rhs) fun _ => .refl _
      | some => exact .refl _
    | unary op operand => exact .bind (ih operand) fun _ => .refl _
    | ternary cond => exact .bind (ih cond) fun _ => .bind (ih _) fun _ => .refl _
    | cast operand => exact .bind (ih operand) fun _ => .refl _
    | _ => exact .refl _

end Treewalk
