import Mathlib.Data.Nat.Notation
import Mathlib.Logic.Basic

/-!
# Runs of a transition system

A system is a partial step function; an action that is not possible in a state
has no next state. `Always` speaks about every state of a run and `EachStep`
about every step of it, so that an invariant that needs a condition on the steps
holds in the runs whose steps meet the condition.
-/
namespace SimpleRedis.TransitionRun

variable {σ ι : Type*}

section Runs

variable (step : σ → ι → Option σ)

/-- The state after a list of actions, if each of them is possible. -/
def run (s : σ) : List ι → Option σ
  | [] => some s
  | a :: acts => (step s a).bind fun s' => run s' acts

/-- `P` holds in every state of the run from `s`. -/
def Always (P : σ → Prop) (s : σ) : List ι → Prop
  | [] => P s
  | a :: acts => P s ∧ ∀ s', step s a = some s' → Always P s' acts

/-- `C` holds of every step of the run from `s`. -/
def EachStep (C : σ → ι → Prop) (s : σ) : List ι → Prop
  | [] => True
  | a :: acts => ∀ s', step s a = some s' → C s a ∧ EachStep C s' acts

/-- Some run from `init` ends in the state. -/
def Reachable (init s : σ) : Prop := ∃ acts, run step init acts = some s

end Runs

section Rules

variable {step : σ → ι → Option σ} {I P Q : σ → Prop} {C : σ → ι → Prop}

theorem run_cons {s s' : σ} {a : ι} {acts : List ι} (h : step s a = some s') :
    run step s (a :: acts) = run step s' acts := by
  rw [run, h]
  rfl

theorem run_append (s : σ) (acts acts' : List ι) :
    run step s (acts ++ acts') = (run step s acts).bind fun s' => run step s' acts' := by
  induction acts generalizing s with
  | nil => rfl
  | cons a acts ih =>
      rw [List.cons_append, run, run]
      cases step s a with
      | none => rfl
      | some s' => exact ih s'

theorem run_trans {s s' s'' : σ} {acts acts' : List ι} (h : run step s acts = some s')
    (h' : run step s' acts' = some s'') : run step s (acts ++ acts') = some s'' := by
  rw [run_append, h]
  exact h'

theorem eachStep_cons {s s' : σ} {a : ι} {acts : List ι} (h : step s a = some s') (hC : C s a)
    (hrest : EachStep step C s' acts) : EachStep step C s (a :: acts) := by
  intro t ht
  cases h.symm.trans ht
  exact ⟨hC, hrest⟩

/-- The last state of a run is one of its states. -/
theorem Always.last {s s' : σ} {acts : List ι} (h : Always step P s acts)
    (hrun : run step s acts = some s') : P s' := by
  induction acts generalizing s with
  | nil =>
      cases hrun
      exact h
  | cons a acts ih =>
      obtain ⟨t, ht, hrest⟩ := Option.bind_eq_some_iff.mp hrun
      exact ih (h.2 t ht) hrest

/-- An invariant that needs a condition on the steps. -/
theorem always_of_eachStep (hstep : ∀ s a s', I s → C s a → step s a = some s' → I s')
    (hP : ∀ s, I s → P s) {s : σ} (hs : I s) {acts : List ι} (h : EachStep step C s acts) :
    Always step P s acts := by
  induction acts generalizing s with
  | nil => exact hP s hs
  | cons a acts ih =>
      refine ⟨hP s hs, fun s' hs' => ?_⟩
      obtain ⟨hC, hrest⟩ := h s' hs'
      exact ih (hstep s a s' hs hC hs') hrest

theorem EachStep.mono {D : σ → ι → Prop} (hCD : ∀ s a, C s a → D s a) {s : σ} {acts : List ι}
    (h : EachStep step C s acts) : EachStep step D s acts := by
  induction acts generalizing s with
  | nil => trivial
  | cons a acts ih =>
      intro s' hs'
      obtain ⟨hC, hrest⟩ := h s' hs'
      exact ⟨hCD s a hC, ih hrest⟩

instance decidableEachStep [∀ s a, Decidable (C s a)] :
    (s : σ) → (acts : List ι) → Decidable (EachStep step C s acts)
  | _, [] => .isTrue trivial
  | s, a :: acts =>
      letI (s' : σ) : Decidable (EachStep step C s' acts) := decidableEachStep s' acts
      inferInstanceAs (Decidable (∀ s' ∈ step s a, C s a ∧ EachStep step C s' acts))

/-- A condition on the actions alone. -/
theorem eachStep_of_forall {A : ι → Prop} {s : σ} {acts : List ι} (hA : ∀ a ∈ acts, A a) :
    EachStep step (fun _ => A) s acts := by
  induction acts generalizing s with
  | nil => trivial
  | cons a acts ih =>
      intro s' _
      obtain ⟨hfirst, hrest⟩ := List.forall_mem_cons.mp hA
      exact ⟨hfirst, ih hrest⟩

/-- What every action that meets a condition preserves holds at the end of a run of them. -/
theorem run_invariant_of_forall {A : ι → Prop}
    (hstep : ∀ s a s', I s → A a → step s a = some s' → I s') {s s' : σ} {acts : List ι}
    (hs : I s) (hA : ∀ a ∈ acts, A a) (h : run step s acts = some s') : I s' :=
  (always_of_eachStep hstep (fun _ => id) hs (eachStep_of_forall hA)).last h

/-- What every step preserves holds at the end of a run. -/
theorem run_invariant (hstep : ∀ s a s', I s → step s a = some s' → I s') {s s' : σ}
    {acts : List ι} (hs : I s) (h : run step s acts = some s') : I s' :=
  run_invariant_of_forall (A := fun _ => True) (fun s a s' hI _ => hstep s a s' hI) hs
    (fun _ _ => trivial) h

theorem Reachable.invariant (hstep : ∀ s a s', I s → step s a = some s' → I s') {init s : σ}
    (hinit : I init) (h : Reachable step init s) : I s := by
  obtain ⟨acts, hrun⟩ := h
  exact run_invariant hstep hinit hrun

/-- What every step preserves, of a state and of the actions that have led to it. -/
theorem run_history {H : List ι → σ → Prop}
    (hstep : ∀ past s a s', H past s → step s a = some s' → H (past ++ [a]) s') {s s' : σ}
    {acts : List ι} (hs : H [] s) (h : run step s acts = some s') : H acts s' := by
  have hall : ∀ past t, H past t → run step t acts = some s' → H (past ++ acts) s' := by
    clear hs h
    induction acts with
    | nil =>
        intro past t ht hrun
        cases hrun
        rwa [List.append_nil]
    | cons a acts ih =>
        intro past t ht hrun
        obtain ⟨u, hu, hrest⟩ := Option.bind_eq_some_iff.mp hrun
        have hlast := ih (past ++ [a]) u (hstep past t a u ht hu) hrest
        rwa [List.append_assoc] at hlast
  exact hall [] s hs h

/-- Where a step that brings the rank down is possible as long as there is any, a run ends
without. -/
theorem exists_run_of_rank {rank : σ → ℕ}
    (hstep : ∀ s, I s → rank s ≠ 0 → ∃ a s', step s a = some s' ∧ I s' ∧ rank s' < rank s) {s : σ}
    (hs : I s) : ∃ acts s', run step s acts = some s' ∧ I s' ∧ rank s' = 0 := by
  by_cases hzero : rank s = 0
  · exact ⟨[], s, rfl, hs, hzero⟩
  · obtain ⟨a, t, ht, hI, hlt⟩ := hstep s hs hzero
    obtain ⟨acts, s', hrun, hs', hend⟩ := exists_run_of_rank hstep hI
    exact ⟨a :: acts, s', (run_cons ht).trans hrun, hs', hend⟩
termination_by rank s

/-- A condition that is needed at once is needed in the whole run. -/
theorem always_iff_eachStep (hstep : ∀ s a s', I s → C s a → step s a = some s' → I s')
    (hP : ∀ s, I s → P s)
    (hneed : ∀ s a s', I s → step s a = some s' → P s' → C s a) {s : σ} (hs : I s)
    (acts : List ι) : Always step P s acts ↔ EachStep step C s acts := by
  refine ⟨fun h => ?_, always_of_eachStep hstep hP hs⟩
  induction acts generalizing s with
  | nil => trivial
  | cons a acts ih =>
      intro s' hs'
      have hrest := h.2 s' hs'
      have hP' : P s' := by
        cases acts with
        | nil => exact hrest
        | cons b acts => exact hrest.1
      have hC := hneed s a s' hs hs' hP'
      exact ⟨hC, ih (hstep s a s' hs hC hs') hrest⟩

end Rules

section Simulation

variable {τ κ : Type*} {step : σ → ι → Option σ} {step' : τ → κ → Option τ} {R : σ → τ → Prop}

/-- A run is simulated if every step is, by any number of steps of the other system. -/
theorem run_simulation
    (hstep : ∀ s a s' t, R s t → step s a = some s' →
      ∃ acts t', run step' t acts = some t' ∧ R s' t')
    {s s' : σ} {t : τ} {acts : List ι} (hR : R s t) (h : run step s acts = some s') :
    ∃ acts' t', run step' t acts' = some t' ∧ R s' t' := by
  induction acts generalizing s t with
  | nil =>
      cases h
      exact ⟨[], t, rfl, hR⟩
  | cons a acts ih =>
      obtain ⟨u, hu, hrest⟩ := Option.bind_eq_some_iff.mp h
      obtain ⟨acts₁, t₁, hrun₁, hR₁⟩ := hstep s a u t hR hu
      obtain ⟨acts₂, t₂, hrun₂, hR₂⟩ := ih hR₁ hrest
      exact ⟨acts₁ ++ acts₂, t₂, run_trans hrun₁ hrun₂, hR₂⟩

theorem Reachable.simulation
    (hstep : ∀ s a s' t, R s t → step s a = some s' →
      ∃ acts t', run step' t acts = some t' ∧ R s' t')
    {init s : σ} {init' : τ} (hinit : R init init') (h : Reachable step init s) :
    ∃ t, Reachable step' init' t ∧ R s t := by
  obtain ⟨acts, hrun⟩ := h
  obtain ⟨acts', t, hrun', hR⟩ := run_simulation hstep hinit hrun
  exact ⟨t, ⟨acts', hrun'⟩, hR⟩

end Simulation

end SimpleRedis.TransitionRun
