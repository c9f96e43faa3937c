/-
  The parts of a program.

  * `Construct.children c`: the nodes directly below, and `Node.Throughout P n`:
    `P` holds of `n` and all its parts;
  * `Construct.effects c`: what evaluating a node does besides making values;
  * `Program.routines p`: all functions, methods and constructors. Whatever a call
    runs is among them (`mem_routines_of_function?`,
    `mem_routines_of_constructor?`, `mem_routines_of_resolveMethod`);
  * `Program.Invokes p t`: the token `t` stands for a call that `p` can make;
  * `Node.ReleaseFree n`, `Program.ReleaseFree p`: nothing in `n`, or in the
    routines of `p`, calls `free`.
-/
import Treewalk.Eval.Builtin
import Treewalk.Eval.Call

namespace Treewalk

/-! ## Nodes -/

/-- The nodes directly below. -/
@[simp] def Construct.children {α : Type} : Construct α → List α
  | .literal _ | .boolean _ | .string _ | .id _ | .sizeOf _ | .brk | .cont | .empty => []
  | .binary _ lhs rhs | .assignment _ lhs rhs => [lhs, rhs]
  | .unary _ operand | .postStep _ operand | .cast operand => [operand]
  | .ternary cond t f => [cond, t, f]
  | .index array i => [array, i]
  | .field owner _ => [owner]
  | .deref operand | .addressOf operand => [operand]
  | .call _ args | .construct _ args => args
  | .methodCall owner _ args => owner :: args
  | .declaration _ dims => dims
  | .initialized decl init => [decl, init]
  | .declarations parts | .block parts | .sequence parts => parts
  | .ite cond t f => cond :: t :: f.toList
  | .whileLoop cond body => [cond, body]
  | .doWhile body cond => [body, cond]
  | .forLoop init cond step body => init.toList ++ cond.toList ++ step.toList ++ [body]
  | .ret value => value.toList

/-- The node and all its parts are as `P` says. -/
inductive Node.Throughout (P : Construct Node → Prop) : Node → Prop
  | mk {n : Node} : P n.construct → (∀ c ∈ n.construct.children, Throughout P c) → Throughout P n

namespace Node.Throughout

variable {P : Construct Node → Prop} {n c : Node}

theorem own (h : n.Throughout P) : P n.construct := by
  cases h with
  | mk hn _ => exact hn

theorem child (h : n.Throughout P) (hc : c ∈ n.construct.children) : c.Throughout P := by
  cases h with
  | mk _ hchild => exact hchild c hc

end Node.Throughout

/-! ## Effects -/

/-- What an evaluation may do besides making new values. -/
inductive Effect where
  /-- bind a name -/
  | bind
  /-- store into a value -/
  | store
  | print
  | release
  /-- call a routine or a builtin -/
  | call
  deriving DecidableEq

/-- What a builtin does. -/
def Builtin.effects : Builtin → List Effect
  | .calloc => []
  | .free => [.release]
  | .printf => [.print]

/-- The effects of a node, those of its parts and of the routines it calls
    aside. -/
def Construct.effects {α : Type} : Construct α → List Effect
  | .unary (.step _) _ | .postStep .. | .assignment .. => [.store]
  | .declaration .. => [.bind]
  | .initialized .. => [.bind, .store]
  | .call name _ => .call :: (Builtin.ofName? name.image).elim [] Builtin.effects
  | .methodCall .. | .construct .. => [.call]
  | _ => []

/-! ## Routines -/

/-- All functions, methods and constructors. -/
def Program.routines (p : Program) : List Routine :=
  p.functions.entries.map Prod.snd ++
    p.compounds.entries.flatMap fun c => c.2.methods ++ c.2.constructors

theorem mem_of_cheapest? {cost : Routine → Nat} {l : List Routine} {r : Routine}
    (h : cheapest? cost l = some r) : r ∈ l := by
  induction l generalizing r with
  | nil => cases h
  | cons a rest ih =>
    unfold cheapest? at h
    cases hs : cheapest? cost rest with
    | none => rw [hs] at h; cases h; exact List.mem_cons_self
    | some s =>
      rw [hs] at h
      dsimp only at h
      split at h
      · cases h; exact List.mem_cons_of_mem a (ih hs)
      · cases h; exact List.mem_cons_self

namespace Program

variable {p : Program} {r : Routine} {className name : String} {args : List Ty}

/-- The method chosen is one of the class that takes as many arguments. -/
theorem mem_of_methodIn? {c : Compound} (h : p.methodIn? c name args = some r) :
    r ∈ c.methods ∧ r.arity = args.length := by
  have hm : r ∈ c.methods.filter fun m => m.name.image == name && m.arity == args.length := by
    rcases Option.or_eq_some_iff.1 (Option.orElse_eq_or.symm.trans h) with hf | ⟨-, hc⟩
    · exact List.mem_of_find?_eq_some hf
    · exact (List.mem_filter.1 (mem_of_cheapest? hc)).1
  rw [List.mem_filter, Bool.and_eq_true, beq_iff_eq, beq_iff_eq] at hm
  exact ⟨hm.1, hm.2.2⟩

/-- The method that a call means is one of a class in the lineage. -/
theorem methodIn?_of_resolveMethod (h : p.resolveMethod className name args = .ok r) :
    ∃ c ∈ p.lineage className, p.methodIn? c name args = some r := by
  unfold resolveMethod at h
  split at h
  · rename_i r' hr
    cases h
    exact List.exists_of_findSome?_eq_some hr
  · cases h

theorem arity_of_resolveMethod (h : p.resolveMethod className name args = .ok r) :
    r.arity = args.length := by
  obtain ⟨c, -, hc⟩ := methodIn?_of_resolveMethod h
  exact (mem_of_methodIn? hc).2

theorem resolveMethod_ne : p.resolveMethod className name args ≠ .error .stackUnderflow := by
  unfold resolveMethod
  split <;> simp

theorem mem_routines_of_function? (h : p.function? name = some r) : r ∈ p.routines :=
  List.mem_append_left _ (List.mem_map.2 ⟨_, Dict.mem_of_find? h, rfl⟩)

theorem mem_routines_of_compound {c : Compound} (hc : p.compound? name = some c)
    (hr : r ∈ c.methods ++ c.constructors) : r ∈ p.routines :=
  List.mem_append_right _ (List.mem_flatMap.2 ⟨_, Dict.mem_of_find? hc, hr⟩)

theorem mem_routines_of_constructor? {c : ConstructorRef} (h : p.constructor? c = some r) :
    r ∈ p.routines := by
  obtain ⟨k, hk, hr⟩ := Option.bind_eq_some_iff.1 h
  exact mem_routines_of_compound hk (List.mem_append_right _ (List.mem_of_getElem? hr))

/-- What stands in a lineage is declared. -/
theorem compound?_of_mem_ancestry {n : Nat} {o : Option Compound} {c : Compound}
    (ho : ∀ k ∈ o, ∃ name, p.compound? name = some k) (hc : c ∈ p.ancestry n o) :
    ∃ name, p.compound? name = some c := by
  induction n generalizing o with
  | zero => cases hc
  | succ n ih =>
    cases o with
    | none => cases hc
    | some k =>
      rcases List.mem_cons.1 hc with rfl | hc
      · exact ho c rfl
      · refine ih (fun k' hk' => ?_) hc
        obtain ⟨name, -, hname⟩ := Option.bind_eq_some_iff.1 (Option.mem_def.1 hk')
        exact ⟨name, hname⟩

theorem mem_routines_of_resolveMethod (h : p.resolveMethod className name args = .ok r) :
    r ∈ p.routines := by
  obtain ⟨c, hc, hm⟩ := methodIn?_of_resolveMethod h
  obtain ⟨k, hk⟩ := compound?_of_mem_ancestry (fun k hk => ⟨className, hk⟩) hc
  exact mem_routines_of_compound hk (List.mem_append_left _ (mem_of_methodIn? hm).1)

/-- The token stands for a call in diagnostics: of a builtin, a function, a method
    or a constructor. -/
inductive Invokes (p : Program) : Token → Prop
  | builtin {t : Token} {b : Builtin} : Builtin.ofName? t.image = some b → Invokes p t
  | function {t : Token} {r : Routine} : p.function? t.image = some r → Invokes p t
  /-- from outside a function is called by the name it was declared with -/
  | outside {name : String} {r : Routine} : p.function? name = some r → Invokes p r.name
  | method {t : Token} {className name : String} {args : List Ty} {r : Routine} :
      p.resolveMethod className name args = .ok r → Invokes p (t.member className name)
  | constructor {c : ConstructorRef} {r : Routine} : p.constructor? c = some r →
      Invokes p (r.name.member c.className constructorName)

end Program

/-! ## Releases -/

/-- No part of the node calls `free`. -/
abbrev Node.ReleaseFree : Node → Prop :=
  Throughout fun c => ∀ name args, c = .call name args → name.image ≠ "free"

/-- Neither the body nor the arguments for the prior constructor call `free`. -/
structure Routine.ReleaseFree (r : Routine) : Prop where
  body : r.body.ReleaseFree
  prior : ∀ p ∈ r.prior, ∀ arg ∈ p.args, arg.ReleaseFree

/-- No routine calls `free`. -/
def Program.ReleaseFree (p : Program) : Prop :=
  ∀ r ∈ p.routines, r.ReleaseFree

theorem Builtin.eq_of_ofName?_free {name : String} (h : ofName? name = some .free) :
    name = "free" := by
  unfold ofName? at h
  split at h <;> cases h
  rfl

end Treewalk
