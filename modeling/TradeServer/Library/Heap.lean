import Mathlib.Data.List.Nodup
import Mathlib.Data.Finset.Card
import Mathlib.Data.Set.Insert
import Mathlib.Order.Interval.Finset.Nat

/-!
# Typed heaps

A `Heap α` is one arena of dynamically allocated objects of type `α`. Addresses
are never reused, so a dangling pointer stays recognizable: reading an object
that was never allocated, or was freed, yields `none`. Address `NULL` is never
allocated.

Programs over heaps live in the `Option` monad, where `none` is a fault (a read
or a write through a pointer that denotes no live object).
-/

namespace TradeServer.Library

abbrev Addr := Nat

/-- The null pointer. -/
def NULL : Addr := 0

/-- An allocation arena. The two proof fields make an unallocated address unreadable. -/
structure Heap (α : Type*) where
  next : Nat
  cells : Addr → Option α
  next_pos : 0 < next
  unallocated : ∀ p : Nat, p = NULL ∨ next ≤ p → cells p = none

namespace Heap

variable {α : Type*}

def empty : Heap α where
  next := 1
  cells _ := none
  next_pos := Nat.one_pos
  unallocated _ _ := rfl

def load (h : Heap α) (p : Addr) : Option α := h.cells p

/-- The address that the next allocation returns. -/
def fresh (h : Heap α) : Addr := h.next

def alloc (h : Heap α) (v : α) : Heap α where
  next := h.next + 1
  cells q := if q = h.next then some v else h.cells q
  next_pos := Nat.succ_pos _
  unallocated p hp := by
    have := h.next_pos
    have hne : p ≠ h.next := by unfold NULL at hp; omega
    rw [if_neg hne]
    exact h.unallocated p (hp.imp id (fun hp => by omega))

/-- Overwrite the object at `p`, if there is one. -/
def modify (h : Heap α) (p : Addr) (f : α → α) : Heap α where
  next := h.next
  cells q := if q = p then (h.cells q).map f else h.cells q
  next_pos := h.next_pos
  unallocated q hq := by simp [h.unallocated q hq]

def free (h : Heap α) (p : Addr) : Heap α where
  next := h.next
  cells q := if q = p then none else h.cells q
  next_pos := h.next_pos
  unallocated q hq := by simp [h.unallocated q hq]

/-- A checked write: it faults when `p` denotes no live object. -/
def update (h : Heap α) (p : Addr) (f : α → α) : Option (Heap α) :=
  (h.load p).map fun _ => h.modify p f

/-- A checked `free`. -/
def release (h : Heap α) (p : Addr) : Option (Heap α) :=
  (h.load p).map fun _ => h.free p

@[simp] theorem load_empty (p : Addr) : (empty : Heap α).load p = none := rfl

@[simp] theorem load_null (h : Heap α) : h.load NULL = none := h.unallocated _ (.inl rfl)

@[simp] theorem load_fresh (h : Heap α) : h.load h.fresh = none :=
  h.unallocated _ (.inr le_rfl)

@[simp] theorem load_alloc (h : Heap α) (v : α) (q : Addr) :
    (h.alloc v).load q = if q = h.fresh then some v else h.load q := rfl

@[simp] theorem load_modify (h : Heap α) (p : Addr) (f : α → α) (q : Addr) :
    (h.modify p f).load q = if q = p then (h.load q).map f else h.load q := rfl

@[simp] theorem load_free (h : Heap α) (p q : Addr) :
    (h.free p).load q = if q = p then none else h.load q := rfl

@[simp] theorem fresh_modify (h : Heap α) (p : Addr) (f : α → α) :
    (h.modify p f).fresh = h.fresh := rfl

@[simp] theorem fresh_free (h : Heap α) (p : Addr) : (h.free p).fresh = h.fresh := rfl

@[simp] theorem fresh_alloc (h : Heap α) (v : α) : (h.alloc v).fresh = h.fresh + 1 := rfl

@[simp] theorem next_modify (h : Heap α) (p : Addr) (f : α → α) : (h.modify p f).next = h.next :=
  rfl

@[simp] theorem next_free (h : Heap α) (p : Addr) : (h.free p).next = h.next := rfl

@[simp] theorem next_alloc (h : Heap α) (v : α) : (h.alloc v).next = h.next + 1 := rfl

theorem update_of_load {h : Heap α} {p : Addr} {v : α} (hp : h.load p = some v) (f : α → α) :
    h.update p f = some (h.modify p f) := by simp [update, hp]

theorem release_of_load {h : Heap α} {p : Addr} {v : α} (hp : h.load p = some v) :
    h.release p = some (h.free p) := by simp [release, hp]

theorem next_of_update {h h' : Heap α} {p : Addr} {f : α → α} (hu : h.update p f = some h') :
    h'.next = h.next := by
  obtain ⟨v, -, rfl⟩ := Option.map_eq_some_iff.mp hu
  rfl

theorem next_of_release {h h' : Heap α} {p : Addr} (hr : h.release p = some h') :
    h'.next = h.next := by
  obtain ⟨v, -, rfl⟩ := Option.map_eq_some_iff.mp hr
  rfl

theorem ne_null_of_load {h : Heap α} {p : Addr} {v : α} (hp : h.load p = some v) : p ≠ NULL := by
  rintro rfl; simp at hp

theorem lt_next_of_load {h : Heap α} {p : Nat} {v : α} (hp : h.load p = some v) :
    p < h.next := by
  by_contra hlt
  have := h.unallocated p (.inr (Nat.le_of_not_lt hlt))
  simp [load, this] at hp

theorem ne_fresh_of_load {h : Heap α} {p : Addr} {v : α} (hp : h.load p = some v) :
    p ≠ h.fresh := (lt_next_of_load hp).ne

/-- Distinct live addresses are fewer than the allocations made so far. Loops over
linked structures take their fuel from this bound. -/
theorem length_lt_next {h : Heap α} {ps : List Nat} (hnd : ps.Nodup)
    (hlive : ∀ p ∈ ps, h.load p ≠ none) : ps.length < h.next := by
  have hsub : ps.toFinset ⊆ Finset.Ico 1 h.next := by
    intro p hp
    obtain ⟨v, hv⟩ := Option.ne_none_iff_exists'.mp (hlive p (by simpa using hp))
    exact Finset.mem_Ico.mpr ⟨Nat.pos_of_ne_zero (ne_null_of_load hv), lt_next_of_load hv⟩
  have hcard := Finset.card_le_card hsub
  rw [List.toFinset_card_of_nodup hnd, Nat.card_Ico] at hcard
  have := h.next_pos
  omega

/-- `h'` differs from `h` on `S` at most. -/
def AgreesOff (S : Set Addr) (h h' : Heap α) : Prop := ∀ q, q ∉ S → h'.load q = h.load q

theorem AgreesOff.trans {S : Set Addr} {h₁ h₂ h₃ : Heap α} (h : AgreesOff S h₁ h₂)
    (g : AgreesOff S h₂ h₃) : AgreesOff S h₁ h₃ := fun q hq => (g q hq).trans (h q hq)

theorem agreesOff_modify (h : Heap α) {S : Set Addr} {p : Addr} (hp : p ∈ S) (f : α → α) :
    AgreesOff S h (h.modify p f) := by
  intro q hq
  have : q ≠ p := by rintro rfl; exact hq hp
  simp [this]

end Heap

end TradeServer.Library
