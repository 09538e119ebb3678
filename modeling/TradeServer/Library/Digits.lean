import Mathlib.Algebra.Group.Nat.Defs
import Mathlib.Data.Nat.Log

/-!
# Numbers and their digits

The digits of a number in a base, the most significant first: how many there are, which
number a leading part of them is, and the number that a row of digits is read as.
-/

namespace TradeServer.Library

variable {b n k : Nat}

theorem length_toDigits (hb : 1 < b) (n : Nat) : (Nat.toDigits b n).length = Nat.log b n + 1 := by
  induction n using Nat.strong_induction_on with
  | _ n ih =>
    by_cases hlt : n < b
    · rw [Nat.toDigits_of_lt_base hlt, Nat.log_of_lt hlt]
      rfl
    · have hle : b ≤ n := not_lt.mp hlt
      have hdiv : n / b < n := Nat.div_lt_self (by omega) hb
      rw [Nat.toDigits_of_base_le hb hle, List.length_append, ih _ hdiv,
        Nat.log_of_one_lt_of_le hb hle]
      rfl

/-- The leading digits are the digits of the number without its last ones. -/
theorem take_toDigits (hb : 1 < b) (hk : 0 < k) (hlen : k ≤ (Nat.toDigits b n).length) :
    (Nat.toDigits b n).take k = Nat.toDigits b (n / b ^ ((Nat.toDigits b n).length - k)) := by
  induction n using Nat.strong_induction_on with
  | _ n ih =>
    by_cases hlt : n < b
    · rw [Nat.toDigits_of_lt_base hlt] at hlen ⊢
      obtain rfl : k = 1 := by simp at hlen; omega
      simp [Nat.toDigits_of_lt_base hlt]
    · have hle : b ≤ n := not_lt.mp hlt
      have hdiv : n / b < n := Nat.div_lt_self (by omega) hb
      have hcut := Nat.toDigits_of_base_le hb hle
      have hsucc : (Nat.toDigits b n).length = (Nat.toDigits b (n / b)).length + 1 := by
        rw [hcut, List.length_append]
        rfl
      rcases Nat.eq_or_lt_of_le hlen with heq | hless
      · rw [heq, Nat.sub_self, Nat.pow_zero, Nat.div_one, List.take_length]
      · have hlen' : k ≤ (Nat.toDigits b (n / b)).length := by omega
        have hexp : (Nat.toDigits b n).length - k =
            (Nat.toDigits b (n / b)).length - k + 1 := by omega
        rw [hexp, hcut, List.take_append_of_le_length hlen', ih _ hdiv hlen',
          Nat.div_div_eq_div_mul, Nat.pow_succ, Nat.mul_comm]

/-- A positive number has no leading zero. -/
theorem head?_toDigits_ne_zero (hb : 1 < b) (hten : b ≤ 10) (hn : 0 < n) :
    (Nat.toDigits b n).head? ≠ some '0' := by
  induction n using Nat.strong_induction_on with
  | _ n ih =>
    by_cases hlt : n < b
    · rw [Nat.toDigits_of_lt_base hlt]
      simp
      omega
    · have hle : b ≤ n := not_lt.mp hlt
      have hpos : 0 < n / b := Nat.div_pos hle (by omega)
      obtain ⟨c, cs, hcs⟩ := List.exists_cons_of_ne_nil (Nat.toDigits_ne_nil (n := n / b) (b := b))
      have hhead := ih _ (Nat.div_lt_self hn hb) hpos
      rw [hcs] at hhead
      rw [Nat.toDigits_of_base_le hb hle, hcs]
      exact hhead

/-- The number that digits are read as. -/
def readDigits (digits : List Char) : Nat := Nat.ofDigitChars 10 digits 0

@[simp] theorem readDigits_toDigits (n : Nat) : readDigits (Nat.toDigits 10 n) = n :=
  Nat.ofDigitChars_ten_toDigits

@[simp] theorem readDigits_zeros (k : Nat) (digits : List Char) :
    readDigits (List.replicate k '0' ++ digits) = readDigits digits := by
  simp [readDigits, Nat.ofDigitChars_append]

end TradeServer.Library
