import TradeServer.DataStructures.Hashtable
import TradeServer.Library.ElfHash

/-!
# The ELF hash of a key

`hash_function` keeps the 32-bit hash in a `size_t` and adds a plain `char` to it. A byte
from 128 on is extended with ones, and a carry out of bit 31 is kept above the mask; either
way the running value is no longer the ELF hash of what was read. `ElfSafe` says of a key
that neither happens.
-/

namespace TradeServer

open Library

variable {cs pre : List Char} {c : Char} {hash : UInt64}

/-- The running value of `hash_function` after the characters `cs`. -/
def runningHash (cs : List Char) : UInt64 := cs.foldl hashStep 0

/-- The ELF hash of the characters, each an unsigned byte. -/
def elfHashOf (cs : List Char) : Nat := (elfHash (cs.map Char.toNat)).toNat

@[simp] theorem runningHash_nil : runningHash [] = 0 := rfl

@[simp] theorem runningHash_concat (cs : List Char) (c : Char) :
    runningHash (cs ++ [c]) = hashStep (runningHash cs) c := by
  simp [runningHash]

theorem hashFunction_eq (key : CString) (capacity : Nat) :
    hashFunction key capacity = (runningHash key.chars).toNat % capacity := rfl

theorem elfHashOf_lt (cs : List Char) : elfHashOf cs < 2 ^ 28 := toNat_elfHash_lt _

/-- No byte is extended with ones, and no addition carries out of bit 31 of the ELF hash
of what was read before. -/
def ElfSafe (cs : List Char) : Prop :=
  ∀ pre c, pre ++ [c] <+: cs → c.toNat < 128 ∧ 16 * elfHashOf pre + c.toNat < 2 ^ 32

@[simp] theorem elfSafe_nil : ElfSafe [] := fun pre c h => by simp at h

theorem elfSafe_concat : ElfSafe (cs ++ [c]) ↔
    ElfSafe cs ∧ c.toNat < 128 ∧ 16 * elfHashOf cs + c.toNat < 2 ^ 32 := by
  constructor
  · intro h
    exact ⟨fun pre d hpre => h pre d (hpre.trans (List.prefix_append _ _)),
      h cs c (List.prefix_refl _)⟩
  · rintro ⟨h, hc⟩ pre d hpre
    obtain heq | hpre := List.prefix_concat_iff.mp hpre
    · obtain ⟨rfl, hd⟩ := List.append_inj' heq rfl
      obtain rfl : d = c := by simpa using hd
      exact hc
    · exact h pre d hpre

/-- The conditional fold of `hash_function` is the unconditional one of the ELF hash. -/
theorem toBitVec_hashStep (hash : UInt64) (c : Char) :
    (hashStep hash c).toBitVec = elfFold ((hash <<< 4) + signExtend c).toBitVec := by
  simp only [hashStep]
  generalize (hash <<< 4) + signExtend c = x
  by_cases h : x &&& 0xF0000000 = 0
  · have hb : x.toBitVec &&& 0xF0000000#64 = 0#64 := congrArg UInt64.toBitVec h
    simp only [h, ne_eq, not_true_eq_false, if_false, elfFold, hb, BitVec.zero_ushiftRight,
      BitVec.xor_zero, BitVec.not_zero, BitVec.and_allOnes]
  · simp [elfFold, h]

theorem toNat_signExtend (hc : IsByte c) :
    (signExtend c).toNat = if c.toNat < 128 then c.toNat else 2 ^ 64 - 256 + c.toNat := by
  have := hc.2
  unfold signExtend
  split_ifs <;> simp <;> omega

/-- The word before it is folded. -/
theorem toNat_shifted (hhash : hash.toNat < 2 ^ 28) (hc : IsByte c) :
    ((hash <<< 4) + signExtend c).toNat =
      if c.toNat < 128 then 16 * hash.toNat + c.toNat
      else (16 * hash.toNat + (2 ^ 64 - 256 + c.toNat)) % 2 ^ 64 := by
  have := hc.2
  simp only [UInt64.toNat_add, UInt64.toNat_shiftLeft, toNat_signExtend hc]
  split_ifs <;> simp [Nat.shiftLeft_eq] <;> omega

theorem toNat_elfWord (h : BitVec 32) (n : Nat) :
    ((h <<< 4) + BitVec.ofNat 32 n).toNat = (16 * h.toNat + n) % 2 ^ 32 := by
  simp [Nat.shiftLeft_eq, Nat.mul_comm]

/-- From equal values, the next ones are equal just when nothing escapes the mask. -/
theorem toNat_hashStep_eq_iff {h : BitVec 32} (hh : hash.toNat = h.toNat)
    (hlt : h.toNat < 2 ^ 28) (hc : IsByte c) :
    (hashStep hash c).toNat = (elfStep h c.toNat).toNat ↔
      c.toNat < 128 ∧ 16 * h.toNat + c.toNat < 2 ^ 32 := by
  have hx := @toNat_shifted c hash (by omega) hc
  have hy := toNat_elfWord h c.toNat
  have hbyte := hc.2
  rw [← UInt64.toNat_toBitVec] at hx ⊢
  rw [toBitVec_hashStep, elfStep, toNat_elfFold_eq_iff, hx, hy, hh]
  · split_ifs <;> omega
  · rw [hx, hy, hh]
    split_ifs <;> omega

/-- The running values are the ELF hashes of what was read, up to the first character
that is not safe. -/
theorem runningHash_eq_iff (hcs : ∀ c ∈ cs, IsByte c) :
    (∀ pre, pre <+: cs → (runningHash pre).toNat = elfHashOf pre) ↔ ElfSafe cs := by
  induction cs using List.reverseRecOn with
  | nil => simp [elfHashOf]
  | append_singleton cs c ih =>
    have hprev := ih fun d hd => hcs d (by simp [hd])
    have hc : IsByte c := hcs c (by simp)
    rw [elfSafe_concat, ← hprev]
    simp only [List.prefix_concat_iff, forall_eq_or_imp]
    rw [and_comm, and_congr_right_iff]
    intro hrun
    have hstep := toNat_hashStep_eq_iff (hrun cs (List.prefix_refl _)) (elfHashOf_lt cs) hc
    simpa [elfHashOf] using hstep

/-- `hash_function` computes the ELF hash of a key: after each character the running
value is that of the characters read, and the bucket is its remainder. -/
def ElfHashed (key : CString) : Prop :=
  (∀ pre, pre <+: key.chars →
    (runningHash pre).toNat < 2 ^ 28 ∧ (runningHash pre).toNat = elfHashOf pre) ∧
  ∀ capacity, 0 < capacity → hashFunction key capacity = elfHashOf key.chars % capacity

theorem elfHashed_iff (key : CString) : ElfHashed key ↔ ElfSafe key.chars := by
  rw [← runningHash_eq_iff key.bytes]
  constructor
  · intro h pre hpre
    exact (h.1 pre hpre).2
  · intro h
    refine ⟨fun pre hpre => ⟨?_, h pre hpre⟩, fun capacity _ => ?_⟩
    · rw [h pre hpre]
      exact elfHashOf_lt pre
    · rw [hashFunction_eq, h key.chars (List.prefix_refl _)]

/-- A byte that is extended with ones, and seven printable characters after which another
carries out of bit 31. -/
theorem not_elfHashed_high_byte_carry :
    ¬ ElfHashed (.ofBuffer [Char.ofNat 128]) ∧
      ¬ ElfHashed (.ofBuffer ['(', 'x', '}', '-', '-', '+', ')', 'p']) := by
  constructor
  · rintro ⟨h, -⟩
    exact absurd (h _ (List.prefix_refl _)).1 (by decide)
  · rintro ⟨h, -⟩
    exact absurd (h _ (List.prefix_refl _)).1 (by decide)

end TradeServer
