import Mathlib.Data.List.Basic

/-!
# Labelled transition systems and their invariants

Runs list the events of an execution in order. `restrict` keeps the runs whose
steps all meet a side condition on the state before the step and its event, and
`Invariant.of_run` is the induction that carries an invariant along a run.
-/

namespace TradeServer.Library

theorem foldlM_cons_eq_some {σ ε : Type*} {f : σ → ε → Option σ} {s t : σ} {e : ε}
    {es : List ε} :
    (e :: es).foldlM f s = some t ↔ ∃ u, f s e = some u ∧ es.foldlM f u = some t := by
  simp [Option.bind_eq_some_iff]

structure System (σ ε : Type*) where
  init : σ → Prop
  step : σ → ε → σ → Prop

namespace System

variable {σ ε : Type*} {M : System σ ε}

/-- A finite execution from the first state to the second. -/
inductive Run (M : System σ ε) : σ → List ε → σ → Prop where
  | nil (s : σ) : Run M s [] s
  | snoc {s t u : σ} {es : List ε} {e : ε} :
      Run M s es t → M.step t e u → Run M s (es ++ [e]) u

def Reachable (M : System σ ε) (s : σ) : Prop := ∃ s₀ es, M.init s₀ ∧ M.Run s₀ es s

/-- The same system with the steps that meet `ok` only. -/
def restrict (M : System σ ε) (ok : σ → ε → Prop) : System σ ε where
  init := M.init
  step s e t := ok s e ∧ M.step s e t

/-- `I` holds initially and every step keeps it. -/
structure Invariant (M : System σ ε) (I : σ → Prop) : Prop where
  base : ∀ s, M.init s → I s
  step : ∀ s e t, I s → M.step s e t → I t

theorem Run.cons {s t u : σ} {e : ε} {es : List ε} (h : M.step s e t) (r : M.Run t es u) :
    M.Run s (e :: es) u := by
  induction r with
  | nil => exact .snoc (.nil s) h
  | snoc _ hlast ih => exact .snoc ih hlast

theorem Run.append {s t u : σ} {es fs : List ε} (r : M.Run s es t) (r' : M.Run t fs u) :
    M.Run s (es ++ fs) u := by
  induction r' with
  | nil => simpa using r
  | snoc _ hlast ih => simpa [List.append_assoc] using Run.snoc ih hlast

theorem Run.split {s t : σ} {es fs : List ε} (r : M.Run s (es ++ fs) t) :
    ∃ u, M.Run s es u ∧ M.Run u fs t := by
  generalize h : es ++ fs = gs at r
  induction r generalizing fs with
  | nil =>
    obtain ⟨rfl, rfl⟩ := List.append_eq_nil_iff.mp h
    exact ⟨s, .nil s, .nil s⟩
  | @snoc t u gs e r hlast ih =>
    obtain rfl | ⟨fs, f, rfl⟩ := List.eq_nil_or_concat' fs
    · rw [List.append_nil] at h
      exact ⟨u, h ▸ .snoc r hlast, .nil u⟩
    · rw [← List.append_assoc] at h
      obtain ⟨h, hf⟩ := List.append_inj' h rfl
      obtain ⟨v, r₁, r₂⟩ := ih h
      exact ⟨v, r₁, List.singleton_inj.mp hf ▸ .snoc r₂ hlast⟩

/-- A function whose results are steps runs an execution. -/
theorem Run.of_foldlM {f : σ → ε → Option σ} {s t : σ} {es : List ε}
    (h : ∀ e ∈ es, ∀ u v, f u e = some v → M.step u e v) (hrun : es.foldlM f s = some t) :
    M.Run s es t := by
  induction es generalizing s with
  | nil =>
    obtain rfl := Option.some.inj hrun
    exact .nil s
  | cons e es ih =>
    obtain ⟨u, hu, hrest⟩ := foldlM_cons_eq_some.mp hrun
    exact .cons (h e (by simp) s u hu) (ih (fun e' he' => h e' (by simp [he'])) hrest)

/-- An invariant of single steps is an invariant of whole runs. -/
theorem Run.induct {I : σ → Prop} {s t : σ} {es : List ε} (r : M.Run s es t)
    (hstep : ∀ u e v, I u → M.step u e v → I v) (hs : I s) : I t := by
  induction r with
  | nil => exact hs
  | snoc _ hlast ih => exact hstep _ _ _ ih hlast

theorem Invariant.of_run {I : σ → Prop} (h : M.Invariant I) {s t : σ} {es : List ε}
    (hs : M.init s) (r : M.Run s es t) : I t := r.induct h.step (h.base s hs)

theorem Invariant.of_reachable {I : σ → Prop} (h : M.Invariant I) {s : σ} (hs : M.Reachable s) :
    I s := by
  obtain ⟨s₀, es, h₀, r⟩ := hs
  exact h.of_run h₀ r

end System

/-! ## Runs of a partial function -/

section Runs

variable {σ ε : Type*} (f : σ → ε → Option σ) (P : σ → Prop) (ok : σ → ε → Prop)

/-- A property of all states that a run reaches. -/
def AllStates (s : σ) (es : List ε) : Prop := ∀ pre u, pre <+: es → pre.foldlM f s = some u → P u

/-- A condition on all steps of a run. -/
def AllSteps (s : σ) (es : List ε) : Prop :=
  ∀ pre e u, pre ++ [e] <+: es → pre.foldlM f s = some u → ok u e

variable {f P ok} {s u : σ} {e : ε} {es : List ε}

theorem allStates_nil : AllStates f P s [] ↔ P s := by
  constructor
  · exact fun h => h [] s (List.prefix_refl _) rfl
  · intro h pre u hpre hrun
    obtain rfl := List.prefix_nil.mp hpre
    exact Option.some.inj hrun ▸ h

theorem allStates_cons (hstep : f s e = some u) :
    AllStates f P s (e :: es) ↔ P s ∧ AllStates f P u es := by
  constructor
  · intro h
    refine ⟨h [] s List.nil_prefix rfl, fun pre v hpre hrun => ?_⟩
    exact h (e :: pre) v (List.cons_prefix_cons.mpr ⟨rfl, hpre⟩) (by simp [hstep, hrun])
  · rintro ⟨hs, h⟩ pre v hpre hrun
    cases pre with
    | nil => exact Option.some.inj hrun ▸ hs
    | cons e' pre =>
      obtain ⟨rfl, hrest⟩ := List.cons_prefix_cons.mp hpre
      exact h pre v hrest (by simpa [hstep] using hrun)

theorem allSteps_nil : AllSteps f ok s [] := by
  intro pre e u hpre
  simp at hpre

theorem AllSteps.of_prefix {pre : List ε} (h : AllSteps f ok s es) (hpre : pre <+: es) :
    AllSteps f ok s pre := fun done e u hdone => h done e u (hdone.trans hpre)

theorem allSteps_cons (hstep : f s e = some u) :
    AllSteps f ok s (e :: es) ↔ ok s e ∧ AllSteps f ok u es := by
  constructor
  · intro h
    refine ⟨h [] e s (List.cons_prefix_cons.mpr ⟨rfl, List.nil_prefix⟩) rfl, ?_⟩
    intro pre e' v hpre hrun
    exact h (e :: pre) e' v (List.cons_prefix_cons.mpr ⟨rfl, hpre⟩) (by simp [hstep, hrun])
  · rintro ⟨hs, h⟩ pre e' v hpre hrun
    cases pre with
    | nil =>
      obtain ⟨rfl, -⟩ := List.cons_prefix_cons.mp hpre
      exact Option.some.inj hrun ▸ hs
    | cons e'' pre =>
      obtain ⟨rfl, hrest⟩ := List.cons_prefix_cons.mp hpre
      exact h pre e' v hrest (by simpa [hstep] using hrun)

end Runs

end TradeServer.Library
