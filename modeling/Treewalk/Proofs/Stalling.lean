/-
  When the initialisation of globals gives up.

  * `Eval.Concluded e m stalled left result`: with `left` still pending, the initialisation
    ends with this result, without a further global being made or put off;
  * `Eval.Stalled since pending`: the attempts `since` were put off, one after the other,
    and their globals are the last of the pending ones;
  * `Eval.Attempts.length_le`: `n` globals take at most `n (n + 3) / 2` attempts;
  * `gives_up_when_stuck`: the initialisation gives up on a missing name only when every
    pending global has been put off since one was last made. All others are there then,
    and calls see them.
-/
import Treewalk.Proofs.Retry
import Mathlib.Tactic.Ring

namespace Treewalk

theorem Fault.isDeferrable_iff {f : Fault} : f.isDeferrable ↔ ∃ name, f.cause = .undefinedSymbol name := by
  unfold isDeferrable
  split
  · rename_i name h
    simp [h]
  · rename_i h
    simpa using h

namespace Eval

variable {e : Engine} {g : Global} {pending rest left : List Global} {stalled : Nat}
  {m m₁ m' : Machine} {l since : List Attempt} {a : Attempt} {f : Fault}

/-! ## The number of attempts -/

theorem attempts_succ (n : Nat) : (n + 1) * (n + 1 + 3) / 2 = n * (n + 3) / 2 + n + 2 := by
  have h : (n + 1) * (n + 1 + 3) = n * (n + 3) + (n + 2) * 2 := by ring
  rw [h, Nat.add_mul_div_right _ _ two_pos, Nat.add_assoc]

/-- What has been put off in vain counts as well. So one success pays for all that was put
    off before it, and for the attempt itself. -/
theorem Attempts.length_le (h : Attempts e pending stalled m l left m') (hstalled : stalled ≤ pending.length) :
    l.length + min 1 left.length + stalled ≤ pending.length * (pending.length + 3) / 2 := by
  induction h with
  | @start pending stalled m =>
    cases pending with
    | nil => simpa using hstalled
    | cons g rest =>
      simp only [List.length_cons, List.length_nil] at hstalled ⊢
      rw [attempts_succ]
      omega
  | @made g rest left stalled m m₁ m' l hg hrest ih =>
    have hl := ih (Nat.zero_le _)
    simp only [List.length_cons] at hstalled ⊢
    rw [attempts_succ]
    omega
  | @deferred g rest left stalled m m₁ m' l f hg hf hle hrest ih =>
    have hlength : (rest ++ [g]).length = rest.length + 1 := by simp
    rw [hlength] at ih
    have hl := ih (Nat.succ_le_succ hle)
    simp only [List.length_cons]
    omega

/-! ## The last attempts -/

/-- The attempts were put off since one was last made, and their globals wait at the end of
    the pending ones. -/
structure Stalled (since : List Attempt) (pending : List Global) : Prop where
  put_off : ∀ a ∈ since, ∃ f ∈ a.fault, f.isDeferrable
  suffix : since.map Attempt.global <:+ pending

namespace Stalled

theorem nil (pending : List Global) : Stalled [] pending :=
  ⟨by simp, List.nil_suffix⟩

/-- A global that is put off goes to the end. -/
theorem later (h : Stalled since (g :: rest)) (hle : since.length ≤ rest.length) (hf : f.isDeferrable)
    (m m₁ : Machine) : Stalled (since ++ [⟨g, m, m₁, some f⟩]) (rest ++ [g]) where
  put_off := by
    intro a ha
    rcases List.mem_append.1 ha with ha | ha
    · exact h.put_off a ha
    · cases List.mem_singleton.1 ha
      exact ⟨f, rfl, hf⟩
  suffix := by
    rcases List.suffix_cons_iff.1 h.suffix with heq | hsuffix
    · have hlength := congrArg List.length heq
      simp only [List.length_map, List.length_cons] at hlength
      omega
    · obtain ⟨ahead, hahead⟩ := hsuffix
      exact ⟨ahead, by simp [← hahead]⟩

/-- With as many put off as are pending, it is these in their order. -/
theorem map_global (h : Stalled since pending) (hle : pending.length ≤ since.length) :
    since.map Attempt.global = pending :=
  h.suffix.eq_of_length_le (by simpa using hle)

end Stalled

/-- How the initialisation ends, once nothing more is made or put off. -/
inductive Concluded (e : Engine) (m : Machine) (stalled : Nat) :
    List Global → EStateM.Result Halt Machine Unit → Prop
  | done : Concluded e m stalled [] (.ok () m)
  | failed {g : Global} {rest : List Global} {f : Fault} {m' : Machine} :
      initializeGlobal e g m = .error (.fault f) m' → (f.isDeferrable → rest.length < stalled) →
      Concluded e m stalled (g :: rest) (.error (.fault (f.orLocation g.name.location)) m')
  | exhausted {g : Global} {rest : List Global} {m' : Machine} :
      initializeGlobal e g m = .error .exhausted m' →
      Concluded e m stalled (g :: rest) (.error .exhausted m')

/-- The attempts, of which the last ones were put off since a global was last made. -/
theorem exists_concluded (hs : Stalled since pending) (hlength : since.length = stalled) (m : Machine) :
    ∃ l earlier since' left m₁, Attempts e pending stalled m l left m₁ ∧ since ++ l = earlier ++ since' ∧
      (∀ a ∈ earlier.getLast?, a.fault = none) ∧ Stalled since' left ∧
      Concluded e m₁ since'.length left (initializeGlobals e pending stalled m) := by
  induction pending, stalled using initializeGlobals.induct generalizing m since with
  | case1 stalled =>
    rw [initializeGlobals]
    exact ⟨[], [], since, [], m, .start, by simp, by simp, hs, .done⟩
  | case2 stalled g rest ihNext ihLater =>
    cases hg : initializeGlobal e g m with
    | ok u m₁ =>
      rw [initializeGlobals_of_ok hg]
      obtain ⟨l, earlier, since', left, m₂, hl, heq, hlast, hs', hend⟩ := ihNext (.nil rest) rfl m₁
      refine ⟨_, since ++ ⟨g, m, m₁, none⟩ :: earlier, since', left, m₂, .made hg hl, ?_, ?_, hs', hend⟩
      · rw [List.nil_append] at heq
        simp [heq]
      · intro a ha
        rw [List.getLast?_append_cons, List.getLast?_cons, Option.mem_some_iff] at ha
        cases hearlier : earlier.getLast? with
        | none => rw [← ha, hearlier]; rfl
        | some b => rw [← ha, hearlier]; exact hlast b hearlier
    | error halt m₁ =>
      cases halt with
      | exhausted =>
        rw [initializeGlobals_of_exhausted hg]
        exact ⟨[], [], since, _, m, .start, by simp, by simp, hs, .exhausted hg⟩
      | fault f =>
        rw [initializeGlobals_of_fault hg]
        split
        · rename_i hd
          obtain ⟨l, earlier, since', left, m₂, hl, heq, hrest⟩ :=
            ihLater f hd (hs.later (hlength.le.trans hd.2) hd.1 m m₁) (by simp [hlength]) m₁
          exact ⟨_, earlier, since', left, m₂, .deferred hg hd.1 hd.2 hl, by simpa using heq, hrest⟩
        · rename_i hd
          refine ⟨[], [], since, _, m, .start, by simp, by simp, hs, .failed hg fun hf => ?_⟩
          rw [hlength]
          exact Nat.lt_of_not_le fun hle => hd ⟨hf, hle⟩

/-! ## What has been made -/

/-- What every attempt preserves holds after all of them. -/
theorem Attempts.preserves (h : Attempts e pending stalled m l left m') {I : Machine → Prop}
    (hI : ∀ g ∈ pending, ∀ m, I m → Ends (initializeGlobal e g) m (fun _ m' => I m') fun _ m' => I m')
    (hm : I m) : I m' := by
  induction h with
  | start => exact hm
  | @made g rest left stalled m m₁ m' l hg hrest ih =>
    have hm₁ := (hI g List.mem_cons_self m hm).of_ok hg
    exact ih (fun g' hg' => hI g' (List.mem_cons_of_mem g hg')) hm₁
  | @deferred g rest left stalled m m₁ m' l f hg hf hle hrest ih =>
    have hm₁ := (hI g List.mem_cons_self m hm).of_error hg
    refine ih (fun g' hg' => hI g' ?_) hm₁
    simpa [or_comm] using hg'

end Eval

/-- The property holds of the names in scope, and of those that calls see. -/
def Machine.Names (m : Machine) (I : Bindings → Prop) : Prop :=
  I m.state.frame ∧ I m.state.globals

/-- The attempt gave the global a value, by which its name goes from then on, also in calls.
    In `m` the name is still there. It still stands for that value, unless another global
    has the name or an initial value binds names itself. -/
def Attempt.Initialized (e : Engine) (globals : List Global) (a : Attempt) (m : Machine) : Prop :=
  ∃ r m₁, Eval.globalValue e a.global a.before = .ok r m₁ ∧
    a.after = { m₁ with state := (m₁.state.bind a.global.name.image r).sealGlobals } ∧
    m.Names (fun d => (d.get? a.global.name.image).isSome) ∧
    ((∀ g ∈ globals, g.Nameless) → (globals.map (·.name.image)).Nodup →
      m.Names (fun d => d.get? a.global.name.image = some r))

theorem Attempt.Initialized.mono {e : Engine} {globals globals' : List Global} {a : Attempt} {m : Machine}
    (h : a.Initialized e globals m) (hsub : globals.Subperm globals') : a.Initialized e globals' m := by
  obtain ⟨r, m₁, hvalue, hafter, hsome, heq⟩ := h
  refine ⟨r, m₁, hvalue, hafter, hsome, fun hnameless hnodup => heq ?_ ?_⟩
  · exact fun g hg => hnameless g (hsub.subset hg)
  · obtain ⟨globals₁, hperm, hsublist⟩ := hsub
    exact (hperm.map _).nodup_iff.1 (hnodup.sublist (hsublist.map _))

namespace Eval

variable {e : Engine} {g : Global} {pending left : List Global} {stalled : Nat}
  {m m₁ m' : Machine} {l : List Attempt} {a : Attempt}

/-- What holds of the names still holds after an attempt, if neither the initial value nor the
    name of the global takes it away. -/
theorem ends_initializeGlobal_names {I : Bindings → Prop}
    (hvalue : Relates (fun m m' : Machine => I m.state.frame → I m'.state.frame) (globalValue e g))
    (hbind : ∀ d r, I d → I (d.insert g.name.image r)) (hm : m.Names I) :
    Ends (initializeGlobal e g) m (fun _ m' => m'.Names I) fun _ m' => m'.Names I := by
  have horderly := orderly_globalValue (e := e) g m
  unfold initializeGlobal
  refine ends_bind.2 (((hvalue m).and horderly).mono (fun r m₁ h => ?_) fun halt m₁ h => ?_)
  · have hframe : I (m₁.state.frame.insert g.name.image r) := hbind _ r (h.1 hm.1)
    exact ⟨hframe, hframe⟩
  · refine ⟨h.1.1 hm.1, ?_⟩
    rw [h.2.1.state.globals]
    exact hm.2

/-- No name is taken away. -/
theorem ends_initializeGlobal_isSome (g : Global) (name : String) (m : Machine)
    (hm : m.Names fun d => (d.get? name).isSome) :
    Ends (initializeGlobal e g) m (fun _ m' => m'.Names fun d => (d.get? name).isSome)
      fun _ m' => m'.Names fun d => (d.get? name).isSome := by
  have hnames : Relates Machine.KeepsNames (globalValue e g) :=
    within_globalValue (tolerates_of_blind _) fun init _ => keepsNames_evaluate e e.fuel init
  refine ends_initializeGlobal_names (fun m => ?_) (fun d r h => ?_) hm
  · exact (hnames m).mono (fun _ _ h => h name) fun _ _ h => ⟨h.1 name, trivial⟩
  · rw [Dict.get?_insert]
    split
    · rfl
    · exact h

/-- A name keeps its value, unless the initial value binds names or the global has it. -/
theorem ends_initializeGlobal_eq_some (hg : g.Nameless) {name : String} (hname : name ≠ g.name.image)
    (r : Ref) (m : Machine) (hm : m.Names fun d => d.get? name = some r) :
    Ends (initializeGlobal e g) m (fun _ m' => m'.Names fun d => d.get? name = some r)
      fun _ m' => m'.Names fun d => d.get? name = some r := by
  have hnames : Relates Machine.SameNames (globalValue e g) :=
    within_globalValue (tolerates_of_blind _) fun init hinit => sameNames_evaluate (hg init hinit) e.fuel
  have hkeep {m m' : Machine} (hsame : m.SameNames m') (h : m.state.frame.get? name = some r) :
      m'.state.frame.get? name = some r := by
    rwa [show m'.state.frame = m.state.frame from hsame]
  refine ends_initializeGlobal_names (fun m => ?_) (fun d r' h => ?_) hm
  · exact (hnames m).mono (fun _ _ h => hkeep h) fun _ _ h => ⟨hkeep h.1, trivial⟩
  · rw [Dict.get?_insert, if_neg hname]
    exact h

/-- What every attempt preserves holds in the end, if it holds when only one more is made. -/
theorem Concluded.leaves {x : Eval Unit} (h : Concluded e m₁ stalled left (x m)) {I : Machine → Prop}
    (hI : ∀ g ∈ left, ∀ m, I m → Ends (initializeGlobal e g) m (fun _ m' => I m') fun _ m' => I m')
    (hm : I m₁) : I (leaves x m) := by
  unfold Treewalk.leaves
  generalize x m = result at h
  cases h with
  | done => exact hm
  | failed hg _ => exact (hI _ List.mem_cons_self m₁ hm).of_error hg
  | exhausted hg => exact (hI _ List.mem_cons_self m₁ hm).of_error hg

/-- Nothing that was made is lost until the end. -/
theorem Attempts.initialized {x : Eval Unit} {start : Machine} {n : Nat}
    (h : Attempts e pending stalled m l left m') (hend : Concluded e m' n left (x start)) :
    ∀ a ∈ l, a.fault = none → a.Initialized e pending (leaves x start) := by
  induction h with
  | start => simp
  | @made g rest left stalled m m₁ m' l hg hrest ih =>
    have hleft : left ⊆ rest := fun g' hg' => hrest.perm.subset (List.mem_append_right _ hg')
    have hkeeps {I : Machine → Prop} (hI : ∀ g ∈ rest, ∀ m, I m →
        Ends (initializeGlobal e g) m (fun _ m' => I m') fun _ m' => I m') (hm : I m₁) :
        I (Treewalk.leaves x start) :=
      hend.leaves (fun g' hg' => hI g' (hleft hg')) (hrest.preserves hI hm)
    intro a ha hf
    rcases List.mem_cons.1 ha with rfl | ha
    · obtain ⟨r, m₂, hvalue, rfl⟩ := exists_globalValue hg
      have hbound : (m₂.state.frame.insert g.name.image r).get? g.name.image = some r := by simp
      have hnow : Machine.Names { m₂ with state := (m₂.state.bind g.name.image r).sealGlobals }
          (·.get? g.name.image = some r) := ⟨hbound, hbound⟩
      refine ⟨r, m₂, hvalue, rfl, ?_, fun hnameless hnodup => ?_⟩
      · refine hkeeps (fun g' _ => ends_initializeGlobal_isSome g' g.name.image) ?_
        exact ⟨Option.isSome_of_eq_some hnow.1, Option.isSome_of_eq_some hnow.2⟩
      · refine hkeeps (I := fun m => m.Names (·.get? g.name.image = some r)) (fun g' hg' => ?_) hnow
        have hne : g.name.image ≠ g'.name.image := fun heq =>
          (List.nodup_cons.1 hnodup).1 (List.mem_map.2 ⟨g', hg', heq.symm⟩)
        exact ends_initializeGlobal_eq_some (hnameless g' (List.mem_cons_of_mem g hg')) hne r
    · exact (ih hend a ha hf).mono (List.sublist_cons_self g rest).subperm
  | @deferred g rest left stalled m m₁ m' l f hg hd hle hrest ih =>
    intro a ha hf
    rcases List.mem_cons.1 ha with rfl | ha
    · cases hf
    · exact (ih hend a ha hf).mono (List.perm_append_singleton g rest).subperm

end Eval

/-- **The initialisation of globals gives up only when it is stuck.** It takes at most
    `n (n + 3) / 2` attempts for `n` globals. Each global is made once or left, and what
    was made is there in the end. If every attempt ends, so does the initialisation. If it
    ends for a name that is missing, then since a global was last made, or else from the
    start, those that are left have been put off for missing names, each of them once and
    in their order; and then the first of them has failed once more. -/
theorem gives_up_when_stuck (e : Engine) (globals : List Global) (m : Machine) :
    ∃ earlier since left m₁, Eval.Attempts e globals 0 m (earlier ++ since) left m₁ ∧
      Eval.Concluded e m₁ since.length left (Eval.initializeGlobals e globals 0 m) ∧
      (earlier ++ since).length + min 1 left.length ≤ globals.length * (globals.length + 3) / 2 ∧
      (made (earlier ++ since) ++ left).Perm globals ∧
      (∀ a ∈ earlier ++ since, a.fault = none →
        a.Initialized e globals (leaves (Eval.initializeGlobals e globals 0) m)) ∧
      ((∀ g ∈ globals, ∀ m, outcome (Eval.initializeGlobal e g) m ≠ .error .exhausted) →
        outcome (Eval.initializeGlobals e globals 0) m ≠ .error .exhausted) ∧
      ∀ f m' name, Eval.initializeGlobals e globals 0 m = .error (.fault f) m' →
        f.cause = .undefinedSymbol name →
        (∀ a ∈ earlier.getLast?, a.fault = none) ∧ since.map Attempt.global = left ∧
          ∀ a ∈ since, ∃ f' ∈ a.fault, ∃ name', f'.cause = .undefinedSymbol name' := by
  obtain ⟨l, earlier, since, left, m₁, hl, heq, hlast, hs, hend⟩ :=
    Eval.exists_concluded (.nil globals) List.length_nil m
  rw [List.nil_append] at heq
  subst heq
  refine ⟨earlier, since, left, m₁, hl, hend, hl.length_le (Nat.zero_le _), hl.perm, hl.initialized hend,
    fun hterminates hexhausted => ?_, fun f m' name hfails hcause => ⟨hlast, ?_, ?_⟩⟩
  · have hexhausted := eq_error_of_outcome hexhausted
    rw [hexhausted] at hend
    cases hend with
    | @exhausted g rest m' hg =>
      have hmem : g ∈ globals := hl.perm.subset (List.mem_append_right _ List.mem_cons_self)
      refine hterminates g hmem m₁ ?_
      unfold outcome
      rw [hg]
  · rw [hfails] at hend
    cases hend with
    | @failed g rest f₁ m' hg hstuck =>
      refine hs.map_global (Nat.succ_le_of_lt (hstuck ?_))
      exact Fault.isDeferrable_iff.2 ⟨name, hcause⟩
  · intro a ha
    obtain ⟨f', hf', hd⟩ := hs.put_off a ha
    exact ⟨f', hf', Fault.isDeferrable_iff.1 hd⟩

/-! ### Two globals that wait for each other -/

namespace Waiting

open Build

def hen : Global where
  name := { image := "hen" }
  ty := .int
  init := some (id "egg" .int)

def farm : Global where
  name := { image := "farm" }
  ty := .int
  init := some (int 41)

def egg : Global where
  name := { image := "egg" }
  ty := .int
  init := some (id "hen" .int)

def engine : Engine where
  program := { globals := [hen, farm, egg] }
  fuel := 9

/-- The machine after these attempts. -/
def after (gs : List Global) : Machine :=
  gs.foldl (fun m g => leaves (Eval.initializeGlobal engine g) m) {}

def missing (name : String) : Fault where
  cause := .undefinedSymbol name

/-- The farm is made at once. Then each of the others is put off, and the egg once more
    looked for in vain. -/
theorem initializeGlobals_eq :
    Eval.initializeGlobals engine [hen, farm, egg] 0 {} =
      .error (.fault (missing "hen")) (after [hen, farm, egg, hen, egg]) := by
  have hhen : Eval.initializeGlobal engine hen {} = .error (.fault (missing "egg")) (after [hen]) :=
    eq_error_of_outcome (by decide +kernel)
  have hfarm : Eval.initializeGlobal engine farm (after [hen]) = .ok () (after [hen, farm]) :=
    eq_ok_of_outcome (by decide +kernel)
  have hegg : Eval.initializeGlobal engine egg (after [hen, farm]) =
      .error (.fault (missing "hen")) (after [hen, farm, egg]) :=
    eq_error_of_outcome (by decide +kernel)
  have hhen' : Eval.initializeGlobal engine hen (after [hen, farm, egg]) =
      .error (.fault (missing "egg")) (after [hen, farm, egg, hen]) :=
    eq_error_of_outcome (by decide +kernel)
  have hegg' : Eval.initializeGlobal engine egg (after [hen, farm, egg, hen]) =
      .error (.fault (missing "hen")) (after [hen, farm, egg, hen, egg]) :=
    eq_error_of_outcome (by decide +kernel)
  rw [Eval.initializeGlobals_of_fault hhen, if_pos (by decide)]
  change Eval.initializeGlobals engine (farm :: [egg, hen]) 1 (after [hen]) = _
  rw [Eval.initializeGlobals_of_ok hfarm, Eval.initializeGlobals_of_fault hegg, if_pos (by decide)]
  change Eval.initializeGlobals engine (hen :: [egg]) 1 (after [hen, farm, egg]) = _
  rw [Eval.initializeGlobals_of_fault hhen', if_pos (by decide)]
  change Eval.initializeGlobals engine (egg :: [hen]) 2 (after [hen, farm, egg, hen]) = _
  rw [Eval.initializeGlobals_of_fault hegg', if_neg (by decide)]
  rfl

/-- So the two are left, and were the last to be put off. -/
theorem stuck :
    ∃ f m', Eval.initializeGlobals engine [hen, farm, egg] 0 {} = .error (.fault f) m' ∧
      f.cause = .undefinedSymbol "hen" ∧ m'.global? "farm" = some (.int 41) ∧
      ∃ earlier since left m₁, Eval.Attempts engine [hen, farm, egg] 0 {} (earlier ++ since) left m₁ ∧
        (earlier ++ since).length + min 1 left.length ≤ 9 ∧
        (made (earlier ++ since) ++ left).Perm [hen, farm, egg] ∧ since.map Attempt.global = left := by
  obtain ⟨earlier, since, left, m₁, hl, -, hlength, hperm, -, -, hstuck⟩ :=
    gives_up_when_stuck engine [hen, farm, egg] {}
  refine ⟨_, _, initializeGlobals_eq, rfl, by decide +kernel, earlier, since, left, m₁, hl, hlength, hperm, ?_⟩
  exact (hstuck _ _ _ initializeGlobals_eq rfl).2.1

end Waiting

end Treewalk
