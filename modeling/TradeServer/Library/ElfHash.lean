import Mathlib.Algebra.Group.Nat.Defs
import Mathlib.Data.List.Induction

/-!
# The ELF hash

The hash is defined for 32-bit words: four bits are shifted in with each byte, and the
four that reach the top are folded back into the second nibble and cleared.
`elfFold` does the folding in words of any width. It loses nothing that the low byte does
not give back, so two words with the same low byte fold to the same number only if they
were the same number (`toNat_elfFold_eq_iff`).
-/

namespace TradeServer.Library

variable {w v i : Nat}

/-- `g = h & 0xF0000000`, `h ^= g >> 24`, `h &= ~g`. -/
def elfFold (h : BitVec w) : BitVec w :=
  let g := h &&& 0xF0000000#w
  (h ^^^ (g >>> 24)) &&& ~~~g

/-- One turn of the hash, with the byte unsigned. -/
def elfStep (h : BitVec 32) (c : Nat) : BitVec 32 := elfFold ((h <<< 4) + BitVec.ofNat 32 c)

def elfHash (bytes : List Nat) : BitVec 32 := bytes.foldl elfStep 0

@[simp] theorem elfHash_nil : elfHash [] = 0 := rfl

@[simp] theorem elfHash_concat (bytes : List Nat) (c : Nat) :
    elfHash (bytes ++ [c]) = elfStep (elfHash bytes) c := by
  simp [elfHash]

theorem getLsbD_elfMask : (0xF0000000#w).getLsbD i = decide (i < w ∧ 28 ≤ i ∧ i < 32) := by
  have h : 0xF0000000 = (2 ^ 4 - 1) <<< 28 := by decide
  rw [BitVec.getLsbD_ofNat, h, Nat.testBit_shiftLeft, Nat.testBit_two_pow_sub_one]
  grind

theorem getLsbD_elfFold (h : BitVec w) : (elfFold h).getLsbD i =
    (!decide (28 ≤ i ∧ i < 32) &&
      (h.getLsbD i ^^ (decide (4 ≤ i ∧ i < 8) && h.getLsbD (i + 24)))) := by
  have hout : ∀ j, j < w ∨ h.getLsbD j = false := fun j => by
    by_cases hj : j < w
    · exact .inl hj
    · exact .inr (BitVec.getLsbD_of_ge _ _ (by omega))
  have := hout i
  have := hout (i + 24)
  simp only [elfFold, BitVec.getLsbD_and, BitVec.getLsbD_xor, BitVec.getLsbD_not,
    BitVec.getLsbD_ushiftRight, getLsbD_elfMask]
  grind

theorem toNat_eq_iff_getLsbD {x : BitVec w} {y : BitVec v} :
    x.toNat = y.toNat ↔ ∀ i, x.getLsbD i = y.getLsbD i where
  mp h i := by rw [← BitVec.testBit_toNat, h, BitVec.testBit_toNat]
  mpr h := Nat.eq_of_testBit_eq fun i => by
    rw [BitVec.testBit_toNat, BitVec.testBit_toNat]
    exact h i

/-- Words with the same low byte fold to the same number only if they are the same. -/
theorem toNat_elfFold_eq_iff {x : BitVec w} {y : BitVec v}
    (hlow : x.toNat % 2 ^ 8 = y.toNat % 2 ^ 8) :
    (elfFold x).toNat = (elfFold y).toNat ↔ x.toNat = y.toNat := by
  have hbyte : ∀ j < 8, x.getLsbD j = y.getLsbD j := by
    intro j hj
    have h := congrArg (Nat.testBit · j) hlow
    simpa only [Nat.testBit_mod_two_pow, hj, decide_true, Bool.true_and,
      BitVec.testBit_toNat] using h
  rw [toNat_eq_iff_getLsbD, toNat_eq_iff_getLsbD]
  simp only [getLsbD_elfFold]
  constructor
  · intro h i
    by_cases htop : 28 ≤ i ∧ i < 32
    · -- the top nibble is seen in the second one
      have hi := h (i - 24)
      have hj := hbyte (i - 24) (by omega)
      grind
    · have hi := h i
      grind
  · intro h i
    rw [h i, h (i + 24)]

theorem toNat_elfFold_lt (h : BitVec 32) : (elfFold h).toNat < 2 ^ 28 := by
  refine Nat.lt_pow_two_of_testBit _ fun i hi => ?_
  rw [BitVec.testBit_toNat, getLsbD_elfFold]
  have := @BitVec.getLsbD_of_ge 32 h i
  grind

theorem toNat_elfHash_lt (bytes : List Nat) : (elfHash bytes).toNat < 2 ^ 28 := by
  induction bytes using List.reverseRecOn with
  | nil => decide
  | append_singleton bytes c _ =>
    rw [elfHash_concat]
    exact toNat_elfFold_lt _

end TradeServer.Library
