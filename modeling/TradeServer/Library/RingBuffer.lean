import Mathlib.Data.List.Basic
import Mathlib.Data.List.Pairwise
import Mathlib.Data.Nat.Basic
import Mathlib.Tactic.SplitIfs

/-!
# A ring of slots and its readers

Items are written to the slots of a ring one after another, over the oldest ones and
without regard to readers. A reader looks at one slot after another and takes an item
only when its key is larger than that of the last one, so it needs no other sign that a
slot is new. `Follows` is what such a reader knows; a reader that is behind by more items
than there are slots loses some, but takes none twice and none out of order.
-/

namespace TradeServer.Library

variable {α : Type*} {key : α → Nat} {blank x y : α} {xs slots taken : List α} {last next : Nat}

/-- An index that wraps when it is used, not when it is incremented. -/
def wrap (n i : Nat) : Nat := if i = n then 0 else i

theorem wrap_eq_mod {n i : Nat} (h : i ≤ n) : wrap n i = i % n := by
  unfold wrap
  split_ifs with hi
  · simp [hi]
  · exact (Nat.mod_eq_of_lt (by omega)).symm

theorem wrap_lt {n i : Nat} (hn : 0 < n) (h : i ≤ n) : wrap n i < n := by
  rw [wrap_eq_mod h]
  exact Nat.mod_lt _ hn

/-- Two positions of one slot are a whole round apart. -/
theorem eq_of_mod_eq {n i m : Nat} (hle : i ≤ m) (hlt : m < i + n) (hmod : m % n = i % n) :
    m = i := by
  have hdvd := Nat.dvd_of_mod_eq_zero (Nat.sub_mod_eq_zero_of_mod_eq hmod)
  have := Nat.eq_zero_of_dvd_of_lt hdvd (by omega)
  omega

/-- Item `m` of `xs` is in slot `m` modulo their number until another one is written there. -/
structure RingBuffer (blank : α) (xs slots : List α) : Prop where
  latest : ∀ m < xs.length, xs.length ≤ m + slots.length → slots[m % slots.length]? = xs[m]?
  fresh : ∀ j < slots.length, xs.length ≤ j → slots[j]? = some blank

namespace RingBuffer

theorem empty (n : Nat) (blank : α) : RingBuffer blank [] (List.replicate n blank) where
  latest m hm := by simp at hm
  fresh j hj _ := by simpa [List.getElem?_replicate] using hj

theorem push (h : RingBuffer blank xs slots) (hpos : 0 < slots.length) :
    RingBuffer blank (xs ++ [x]) (slots.set (xs.length % slots.length) x) where
  latest m hm hle := by
    simp only [List.length_set, List.length_append, List.length_singleton] at hm hle ⊢
    by_cases hlast : m = xs.length
    · subst hlast
      simp [Nat.mod_lt _ hpos]
    · -- fewer than all the slots lie between the two items
      have hne : xs.length % slots.length ≠ m % slots.length :=
        fun heq => hlast (eq_of_mod_eq (by omega) (by omega) heq).symm
      rw [List.getElem?_set_ne hne, List.getElem?_append_left (by omega)]
      exact h.latest m (by omega) (by omega)
  fresh j hj hle := by
    simp only [List.length_set, List.length_append, List.length_singleton] at hj hle
    have hmod : xs.length % slots.length = xs.length := Nat.mod_eq_of_lt (by omega)
    rw [hmod, List.getElem?_set_ne (by omega)]
    exact h.fresh j hj (by omega)

/-- The slot of an item has it or a later one. -/
theorem later (h : RingBuffer blank xs slots) (hpos : 0 < slots.length)
    (hlt : next < xs.length) :
    ∃ m y, next ≤ m ∧ m % slots.length = next % slots.length ∧ xs[m]? = some y ∧
      xs.length ≤ m + slots.length ∧ slots[next % slots.length]? = some y := by
  -- go on by whole rounds
  have hdiv := Nat.div_add_mod (xs.length - 1 - next) slots.length
  have hrem := Nat.mod_lt (xs.length - 1 - next) hpos
  have hm : next + slots.length * ((xs.length - 1 - next) / slots.length) < xs.length := by omega
  have hmod : (next + slots.length * ((xs.length - 1 - next) / slots.length)) % slots.length =
      next % slots.length := by simp
  have hslot := h.latest _ hm (by omega)
  rw [hmod, List.getElem?_eq_getElem hm] at hslot
  exact ⟨_, _, by omega, hmod, List.getElem?_eq_getElem hm, by omega, hslot⟩

/-- A slot is blank or has an item of its own position. -/
theorem read (h : RingBuffer blank xs slots) (hpos : 0 < slots.length)
    (hy : slots[next % slots.length]? = some y) :
    y = blank ∨ ∃ m, m % slots.length = next % slots.length ∧ xs[m]? = some y := by
  have hj := Nat.mod_lt next hpos
  by_cases hle : xs.length ≤ next % slots.length
  · left
    rw [h.fresh _ hj hle] at hy
    exact (Option.some.inj hy).symm
  · right
    -- the latest item at the slot: go back from the end to its residue
    have hback := Nat.mod_lt (xs.length - 1 - next % slots.length) hpos
    have hm : (xs.length - 1 - (xs.length - 1 - next % slots.length) % slots.length) % slots.length
        = next % slots.length := by
      have hdiv := Nat.mod_add_div (xs.length - 1 - next % slots.length) slots.length
      have hsum : xs.length - 1 - (xs.length - 1 - next % slots.length) % slots.length =
          next % slots.length +
            slots.length * ((xs.length - 1 - next % slots.length) / slots.length) := by omega
      rw [hsum, Nat.add_mul_mod_self_left, Nat.mod_mod]
    refine ⟨_, hm, ?_⟩
    rw [← h.latest _ (by omega) (by omega), hm, hy]

end RingBuffer

/-- A reader that has passed the first `next` items and took some of them. -/
structure Follows (key : α → Nat) (xs taken : List α) (last next : Nat) : Prop where
  le : next ≤ xs.length
  sublist : taken.Sublist (xs.take next)
  passed : ∀ m < next, ∀ x, xs[m]? = some x → key x ≤ last

namespace Follows

theorem start (key : α → Nat) : Follows key [] [] 0 0 := ⟨le_rfl, by simp, by simp⟩

theorem push (h : Follows key xs taken last next) : Follows key (xs ++ [x]) taken last next where
  le := by simpa using Nat.le_succ_of_le h.le
  sublist := by
    rw [List.take_append_of_le_length h.le]
    exact h.sublist
  passed m hm y hy := by
    rw [List.getElem?_append_left (lt_of_lt_of_le hm h.le)] at hy
    exact h.passed m hm y hy

/-- An item with a larger key is one of those ahead, and the reader goes on behind it. -/
theorem take (h : Follows key xs taken last next) (hring : RingBuffer blank xs slots)
    (hpos : 0 < slots.length) (hkeys : xs.Pairwise (key · < key ·)) (hblank : key blank = 0)
    (hy : slots[next % slots.length]? = some y) (hnew : last < key y) :
    ∃ m, next ≤ m ∧ m % slots.length = next % slots.length ∧ xs[m]? = some y ∧
      Follows key xs (taken ++ [y]) (key y) (m + 1) := by
  obtain rfl | ⟨m, hmod, hm⟩ := hring.read hpos hy
  · exact absurd hnew (by simp [hblank])
  · have hlt : m < xs.length := (List.getElem?_eq_some_iff.mp hm).1
    have hge : next ≤ m := by
      by_contra hlt
      have := h.passed m (by omega) y hm
      omega
    refine ⟨m, hge, hmod, hm, hlt, ?_, fun j hj z hz => ?_⟩
    · rw [List.take_add_one, hm]
      exact (h.sublist.trans (List.take_sublist_take_left hge)).append (List.Sublist.refl _)
    · obtain rfl | hjm := Nat.eq_or_lt_of_le (Nat.le_of_lt_succ hj)
      · rw [hm] at hz
        exact Nat.le_of_eq (congrArg key (Option.some.inj hz).symm)
      · obtain ⟨hjl, rfl⟩ := List.getElem?_eq_some_iff.mp hz
        obtain ⟨hml, rfl⟩ := List.getElem?_eq_some_iff.mp hm
        exact Nat.le_of_lt (List.pairwise_iff_getElem.mp hkeys j m hjl hml hjm)

end Follows

end TradeServer.Library
