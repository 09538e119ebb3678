import Mathlib.Algebra.Ring.Nat
import Mathlib.Control.Monad.Writer

/-!
# Computations that record what they do

A partial computation that keeps a record of events next to its result. `value` forgets
the record, and takes the operations of the monad to those of `Option`, so that a function
written again with its events is shown to compute what it computed before. `Records P x`
says that every event of `x` has the property `P`, `Costs w x n` that the events of `x` weigh
`n` at most; both are proved along the text of `x`, where `bind` gives the value that the first
part has.
-/

namespace TradeServer.Library

/-- A partial computation with the list of its events. -/
abbrev Recorded (ε : Type) : Type → Type := WriterT (List ε) Option

namespace Recorded

variable {ε ε' α β : Type} {P : ε → Prop} {w : ε → Nat} {m n : Nat} {x : Recorded ε α}
  {f : α → Recorded ε β}

/-- One event. -/
def emit (e : ε) : Recorded ε PUnit := tell [e]

/-- The result without the record. -/
def value (x : Recorded ε α) : Option α := x.run.map Prod.fst

@[simp] theorem value_pure (a : α) : (pure a : Recorded ε α).value = some a := rfl

@[simp] theorem value_lift (x : Option α) : (liftM x : Recorded ε α).value = x := by
  cases x <;> rfl

@[simp] theorem value_emit (e : ε) : (emit e).value = some PUnit.unit := rfl

/-- The record of the second part goes behind that of the first. -/
theorem run_bind (x : Recorded ε α) (f : α → Recorded ε β) :
    (x >>= f).run = x.run.bind fun r => (f r.1).run.map fun s => (s.1, r.2 ++ s.2) := rfl

@[simp] theorem value_bind (x : Recorded ε α) (f : α → Recorded ε β) :
    (x >>= f).value = x.value.bind fun a => (f a).value := by
  rw [value, run_bind, value]
  cases x.run with
  | none => rfl
  | some r => simp [value, Function.comp_def]

theorem exists_run_of_value {a : α} (h : x.value = some a) : ∃ log, x.run = some (a, log) := by
  obtain ⟨⟨b, log⟩, hrun, rfl⟩ := Option.map_eq_some_iff.mp h
  exact ⟨log, hrun⟩

/-- The same computation with other names for its events. -/
def relabel (g : ε → ε') (x : Recorded ε α) : Recorded ε' α :=
  WriterT.mk (x.run.map fun r => (r.1, r.2.map g))

@[simp] theorem value_relabel (g : ε → ε') (x : Recorded ε α) : (relabel g x).value = x.value := by
  exact Option.map_map ..

/-- Every event of a computation with a result has the property. -/
def Records (P : ε → Prop) (x : Recorded ε α) : Prop :=
  ∀ a log, x.run = some (a, log) → ∀ e ∈ log, P e

theorem records_pure (a : α) : Records P (pure a) := by
  intro b log h e he
  obtain ⟨-, rfl⟩ := Prod.mk.inj (Option.some.inj h)
  exact absurd he List.not_mem_nil

theorem records_lift (x : Option α) : Records P (liftM x : Recorded ε α) := by
  intro b log h e he
  cases x with
  | none => cases h
  | some a =>
    obtain ⟨-, rfl⟩ := Prod.mk.inj (Option.some.inj h)
    exact absurd he List.not_mem_nil

theorem records_emit {e : ε} (he : P e) : Records P (emit e) := by
  intro b log h e' he'
  obtain ⟨-, rfl⟩ := Prod.mk.inj (Option.some.inj h)
  exact List.mem_singleton.mp he' ▸ he

theorem Records.bind (hx : Records P x) (hf : ∀ a, x.value = some a → Records P (f a)) :
    Records P (x >>= f) := by
  intro b log h e he
  rw [run_bind, Option.bind_eq_some_iff] at h
  obtain ⟨⟨a, first⟩, hfirst, h⟩ := h
  obtain ⟨⟨b', second⟩, hsecond, h⟩ := Option.map_eq_some_iff.mp h
  obtain ⟨rfl, rfl⟩ := Prod.mk.inj h
  obtain he | he := List.mem_append.mp he
  · exact hx a first hfirst e he
  · exact hf a (by rw [value, hfirst]; rfl) b' second hsecond e he

/-- The rule for a first part whose value is known. -/
theorem Records.bind_of_value {a : α} (hx : Records P x) (ha : x.value = some a)
    (hf : Records P (f a)) : Records P (x >>= f) :=
  hx.bind fun b hb => by
    obtain rfl := Option.some.inj (ha.symm.trans hb)
    exact hf

theorem Records.lift_bind {y : Option α} {a : α} (ha : y = some a) (hf : Records P (f a)) :
    Records P ((liftM y : Recorded ε α) >>= f) :=
  (records_lift y).bind_of_value (by rw [value_lift, ha]) hf

/-- The events of a computation with a result weigh `n` at most, all together. -/
def Costs (w : ε → Nat) (x : Recorded ε α) (n : Nat) : Prop :=
  ∀ a log, x.run = some (a, log) → (log.map w).sum ≤ n

theorem costs_pure (a : α) : Costs w (pure a) 0 := by
  intro b log h
  obtain ⟨-, rfl⟩ := Prod.mk.inj (Option.some.inj h)
  exact Nat.le_refl 0

theorem costs_lift (x : Option α) : Costs w (liftM x : Recorded ε α) 0 := by
  intro b log h
  cases x with
  | none => cases h
  | some a =>
    obtain ⟨-, rfl⟩ := Prod.mk.inj (Option.some.inj h)
    exact Nat.le_refl 0

theorem costs_emit (e : ε) : Costs w (emit e) (w e) := by
  intro b log h
  obtain ⟨-, rfl⟩ := Prod.mk.inj (Option.some.inj h)
  exact Nat.le_of_eq List.sum_singleton

theorem Costs.mono (h : Costs w x m) (hmn : m ≤ n) : Costs w x n :=
  fun a log hrun => Nat.le_trans (h a log hrun) hmn

theorem Costs.bind (hx : Costs w x m) (hf : ∀ a, x.value = some a → Costs w (f a) n) :
    Costs w (x >>= f) (m + n) := by
  intro b log h
  rw [run_bind, Option.bind_eq_some_iff] at h
  obtain ⟨⟨a, first⟩, hfirst, h⟩ := h
  obtain ⟨⟨b', second⟩, hsecond, h⟩ := Option.map_eq_some_iff.mp h
  obtain ⟨rfl, rfl⟩ := Prod.mk.inj h
  rw [List.map_append, List.sum_append]
  exact Nat.add_le_add (hx a first hfirst)
    (hf a (by rw [value, hfirst]; rfl) b' second hsecond)

/-- The rule for a first part whose value is known. -/
theorem Costs.bind_of_value {a : α} (hx : Costs w x m) (ha : x.value = some a)
    (hf : Costs w (f a) n) : Costs w (x >>= f) (m + n) :=
  hx.bind fun b hb => by
    obtain rfl := Option.some.inj (ha.symm.trans hb)
    exact hf

/-- A step that records nothing costs nothing. -/
theorem Costs.lift_bind {y : Option α} (hf : ∀ a, y = some a → Costs w (f a) n) :
    Costs w ((liftM y : Recorded ε α) >>= f) n :=
  ((costs_lift y).bind fun a ha => hf a (by rwa [value_lift] at ha)).mono (by omega)

theorem Costs.lift_bind_of_eq {y : Option α} {a : α} (ha : y = some a) (hf : Costs w (f a) n) :
    Costs w ((liftM y : Recorded ε α) >>= f) n :=
  .lift_bind fun b hb => by
    obtain rfl := Option.some.inj (ha.symm.trans hb)
    exact hf

theorem Costs.relabel {g : ε → ε'} {w : ε' → Nat} (h : Costs (w ∘ g) x n) :
    Costs w (relabel g x) n := by
  intro a log hrun
  obtain ⟨⟨b, log'⟩, hx, hlog⟩ := Option.map_eq_some_iff.mp hrun
  obtain ⟨rfl, rfl⟩ := Prod.mk.inj hlog
  rw [List.map_map]
  exact h b log' hx

/-- The number of events of one kind, when these weigh one each and the others nothing. -/
theorem Costs.countP_le {q : ε → Bool} {a : α} {log : List ε}
    (h : Costs (fun e => (q e).toNat) x n) (hrun : x.run = some (a, log)) : log.countP q ≤ n := by
  have hsum : log.countP q = (log.map fun e => (q e).toNat).sum := by
    clear hrun
    induction log with
    | nil => rfl
    | cons e log ih => cases hq : q e <;> simp [hq, ih, Nat.add_comm]
  exact hsum ▸ h a log hrun

theorem Costs.length_le {a : α} {log : List ε} (h : Costs (fun _ => 1) x n)
    (hrun : x.run = some (a, log)) : log.length ≤ n := by
  simpa using h.countP_le (q := fun _ => true) hrun

end Recorded

end TradeServer.Library
