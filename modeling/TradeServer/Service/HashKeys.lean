import TradeServer.DataStructures.HashtableMap
import TradeServer.Service.Orders

/-!
# The keys of orders

`load_orders_helper` builds the key of an order in a buffer of 16 bytes, which has room for the
prefix and fourteen digits. Orders whose ids agree that far share an entry of the table.
-/

namespace TradeServer

open Library

/-- The number of the first fourteen digits. -/
def leadingDigits (n : Nat) : Nat := n / 10 ^ (digits n - 14)

theorem leadingDigits_of_lt {n : Nat} (h : n < 10 ^ 14) : leadingDigits n = n := by
  have hlen := length_decimal_le (show 0 < 14 by omega) h
  rw [length_decimal] at hlen
  rw [leadingDigits, Nat.sub_eq_zero_of_le hlen, Nat.pow_zero, Nat.div_one]

theorem take_decimal (n : Nat) : (decimal n).take 14 = decimal (leadingDigits n) := by
  by_cases hlen : 14 ≤ digits n
  · rw [← length_decimal] at hlen
    rw [leadingDigits, ← length_decimal]
    exact take_toDigits (by omega) (by omega) hlen
  · have hle : digits n ≤ 14 := by omega
    rw [List.take_of_length_le (length_decimal n ▸ hle), leadingDigits, Nat.sub_eq_zero_of_le hle,
      Nat.pow_zero, Nat.div_one]

theorem chars_hashKey (side : Side) (id : Nat) :
    (hashKey side id).chars = side.idPrefix ++ decimal (leadingDigits id) := by
  have hletter : side.idPrefix.length = 1 ∧ ∀ c ∈ side.idPrefix, IsByte c := by
    cases side <;> simp [Side.idPrefix, BUY_ORDER_ID_PREFIX, SELL_ORDER_ID_PREFIX, IsByte]
  have htake : (side.idPrefix ++ decimal id).take 15 =
      side.idPrefix ++ decimal (leadingDigits id) := by
    rw [List.take_append, hletter.1, List.take_of_length_le (by omega), take_decimal]
  rw [hashKey, snprintf, htake, CString.chars_ofBuffer]
  intro c hc
  exact (List.mem_append.mp hc).elim (hletter.2 c) isByte_of_mem_decimal

theorem hashKey_eq_iff {side side' : Side} {id id' : Nat} :
    hashKey side id = hashKey side' id' ↔ side = side' ∧ leadingDigits id = leadingDigits id' := by
  rw [CString.ext_iff, chars_hashKey, chars_hashKey]
  cases side <;> cases side' <;>
    simp [Side.idPrefix, BUY_ORDER_ID_PREFIX, SELL_ORDER_ID_PREFIX, decimal_injective.eq_iff]

/-- Keys of orders with small ids are not cut, so they are all different. -/
theorem hashKey_injective {side side' : Side} {id id' : Nat} (h : id < 10 ^ 14)
    (h' : id' < 10 ^ 14) (heq : hashKey side id = hashKey side' id') : side = side' ∧ id = id' := by
  have hboth := hashKey_eq_iff.mp heq
  rwa [leadingDigits_of_lt h, leadingDigits_of_lt h'] at hboth

/-- The keys of two orders are different: a put of the second order leaves the entry of the first
one as it is, and both are found in a table that no resize has spoiled. -/
structure KeptApart (o o' : Side × Nat) : Prop where
  keys : hashKey o.1 o.2 ≠ hashKey o'.1 o'.2
  entry : ∀ ht chain p', Linked ht chain →
    ∃ ht' a, htPut ht (hashKey o'.1 o'.2) p' = some (ht', a) ∧
      ∀ x e, ht.entries.load x = some e → e.key = hashKey o.1 o.2 →
        x ≠ a ∧ ht'.entries.load x = some e
  lookup : ∀ ht m chain p p', Represents ht m chain →
    m.lookup (hashKey o.1 o.2) = some p → StepOk ht (.put (hashKey o'.1 o'.2) p') →
    ∃ ht' a, htPut ht (hashKey o'.1 o'.2) p' = some (ht', a) ∧
      htGet ht' (hashKey o.1 o.2) = some p ∧ htGet ht' (hashKey o'.1 o'.2) = some p'

theorem keptApart_of_keys {o o' : Side × Nat} (hne : hashKey o.1 o.2 ≠ hashKey o'.1 o'.2) :
    KeptApart o o' where
  keys := hne
  entry ht chain p' h := by
    obtain ⟨ht', a, -, hput, -, hat⟩ := h.htPut (hashKey o'.1 o'.2) p'
    refine ⟨ht', a, hput, fun x e he hkey => ?_⟩
    have hx : x ≠ a := by
      rintro rfl
      exact hne (hkey.symm.trans (hat.old e he))
    exact ⟨hx, (hat.others x hx).trans he⟩
  lookup ht m chain p p' h hp hok := by
    obtain ⟨ht', a, chain', hput, h'⟩ := h.step hok
    refine ⟨ht', a, hput, ?_, ?_⟩
    · rw [h'.observes.get, applyOp, Finmap.lookup_insert_of_ne _ hne, hp]
      rfl
    · rw [h'.observes.get, applyOp, Finmap.lookup_insert]
      rfl

/-- Two orders are kept apart exactly when they differ in the side or in the first fourteen digits
of their ids. -/
theorem keptApart_iff (o o' : Side × Nat) :
    KeptApart o o' ↔ o.1 ≠ o'.1 ∨ leadingDigits o.2 ≠ leadingDigits o'.2 := by
  have hkeys : hashKey o.1 o.2 ≠ hashKey o'.1 o'.2 ↔
      o.1 ≠ o'.1 ∨ leadingDigits o.2 ≠ leadingDigits o'.2 := by
    rw [Ne, hashKey_eq_iff, not_and_or]
  exact ⟨fun h => hkeys.mp h.keys, fun h => keptApart_of_keys (hkeys.mpr h)⟩

/-- The ids `10 ^ 13` and `10 ^ 14` are cut to the same key. -/
theorem long_ids_share_key : ¬ ∀ o o' : Side × Nat, o ≠ o' → o.2 < 2 ^ 64 → o'.2 < 2 ^ 64 →
    KeptApart o o' := by
  intro h
  have hkeys := (h (.BUY, 10 ^ 13) (.BUY, 10 ^ 14) (by decide) (by decide) (by decide)).keys
  exact hkeys (by decide)

end TradeServer
