import Mathlib.Data.List.Count
import Mathlib.Data.Nat.Basic
import Mathlib.Tactic.SplitIfs
import TradeServer.Library.System

/-!
# Progress

A rank that every step of one kind lowers, and that only steps of another kind raise, bounds
how often the first kind can happen in a run. A run with more of them than the steps before
a lasting goal allow has reached the goal.
-/

namespace TradeServer.Library

/-! ## Counting in a list -/

section Count

variable {α : Type*} {p q : α → Bool} {l : List α} {x : α} {i : Nat}

theorem countP_set_le : (l.set i x).countP p ≤ l.countP p + 1 := by
  obtain hi | hi := lt_or_ge i l.length
  · rw [List.countP_set hi]
    split_ifs <;> omega
  · rw [List.set_eq_of_length_le hi]
    exact Nat.le_succ _

theorem countP_lt_countP (h : ∀ y ∈ l, q y → p y) (hx : x ∈ l) (hp : p x) (hq : ¬ q x) :
    l.countP q < l.countP p := by
  obtain ⟨before, after, rfl⟩ := List.append_of_mem hx
  have hbefore : before.countP q ≤ before.countP p :=
    List.countP_mono_left fun y hy => h y (by simp [hy])
  have hafter : after.countP q ≤ after.countP p :=
    List.countP_mono_left fun y hy => h y (by simp [hy])
  simp only [List.countP_append, List.countP_cons, hp, hq]
  simp only [Bool.false_eq_true, if_true, if_false]
  omega

end Count

namespace System

variable {σ ε : Type*} {M : System σ ε} {I : σ → Prop} {s t : σ} {es : List ε}

/-- Where a step that `works` lowers the rank and one that `adds` raises it by at most `c`. -/
structure Ranked (M : System σ ε) (I : σ → Prop) (rank : σ → Nat) (works adds : ε → Bool)
    (c : Nat) : Prop where
  step : ∀ u e v, I u → M.step u e v → I v ∧
    rank v + (if works e then 1 else 0) ≤ rank u + (if adds e then c else 0)

variable {rank : σ → Nat} {works adds : ε → Bool} {c : Nat}

theorem Ranked.run (h : M.Ranked I rank works adds c) (hs : I s) (r : M.Run s es t) :
    I t ∧ rank t + es.countP works ≤ rank s + c * es.countP adds := by
  induction r with
  | nil => exact ⟨hs, by simp⟩
  | @snoc _ _ _ e _ hlast ih =>
    obtain ⟨hu, hle⟩ := ih
    obtain ⟨hv, hstep⟩ := h.step _ e _ hu hlast
    refine ⟨hv, ?_⟩
    simp only [List.countP_append, List.countP_singleton, Nat.mul_add]
    split_ifs at hstep ⊢ <;> omega

theorem Run.mono {N : System σ ε} (r : M.Run s es t) (h : ∀ u e v, M.step u e v → N.step u e v) :
    N.Run s es t := by
  induction r with
  | nil => exact .nil s
  | snoc _ hlast ih => exact .snoc ih (h _ _ _ hlast)

theorem Reachable.run (h : M.Reachable s) (r : M.Run s es t) : M.Reachable t := by
  obtain ⟨s₀, before, hinit, r'⟩ := h
  exact ⟨s₀, before ++ es, hinit, r'.append r⟩

/-- A run that does not reach a lasting goal is one of steps before the goal. -/
theorem Run.restrict_of_not {goal : σ → Prop} (r : M.Run s es t) (hs : I s)
    (hstep : ∀ u e v, I u → M.step u e v → I v ∧ (goal u → goal v)) (ht : ¬ goal t) :
    (M.restrict fun u _ => ¬ goal u).Run s es t := by
  induction r with
  | nil => exact .nil s
  | snoc r' hlast ih =>
    have hu := r'.induct (fun u e v hu huv => (hstep u e v hu huv).1) hs
    have hgoal := fun hgoal => ht ((hstep _ _ _ hu hlast).2 hgoal)
    exact .snoc (ih hgoal) ⟨hgoal, hlast⟩

end System

end TradeServer.Library
