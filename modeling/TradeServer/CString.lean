import Mathlib.Algebra.Group.Nat.Defs
import Mathlib.Data.List.TakeWhile
import Mathlib.Logic.Function.Basic
import TradeServer.Library.Digits

/-!
# C strings

A byte is written as the character with its code. A `CString` is the text that a
`char *` denotes: the bytes before the terminator, none of which is NUL.
-/

namespace TradeServer

open Library

/-- A byte other than NUL. -/
def IsByte (c : Char) : Prop := 0 < c.toNat ∧ c.toNat < 256

instance : DecidablePred IsByte := fun c =>
  inferInstanceAs (Decidable (0 < c.toNat ∧ c.toNat < 256))

theorem IsByte.ne_nul {c : Char} (h : IsByte c) : c ≠ Char.ofNat 0 := by
  rintro rfl
  exact absurd h.1 (by decide)

theorem isByte_of_all {cs : List Char} (h : (cs.all fun c => IsByte c) = true) :
    ∀ c ∈ cs, IsByte c := by simpa using h

/-- The text of a NUL-terminated string. -/
structure CString where
  chars : List Char
  bytes : ∀ c ∈ chars, IsByte c
  deriving DecidableEq

namespace CString

@[ext] theorem ext {s t : CString} (h : s.chars = t.chars) : s = t := by
  cases s; cases t; simp_all

/-- The string that a buffer holds: everything before its first NUL. -/
def ofBuffer (cs : List Char) : CString where
  chars := cs.takeWhile (fun c => IsByte c)
  bytes c hc := by simpa using List.mem_takeWhile_imp hc

def length (s : CString) : Nat := s.chars.length

/-- A text without NUL is stored unchanged. -/
theorem chars_ofBuffer {cs : List Char} (h : ∀ c ∈ cs, IsByte c) : (ofBuffer cs).chars = cs :=
  List.takeWhile_eq_self_iff.mpr (fun c hc => by simpa using h c hc)

/-- A buffer ends at its NUL. -/
theorem chars_ofBuffer_append {cs : List Char} (h : ∀ c ∈ cs, IsByte c) (rest : List Char) :
    (ofBuffer (cs ++ Char.ofNat 0 :: rest)).chars = cs := by
  simp only [ofBuffer]
  rw [List.takeWhile_append_of_pos (by simpa using h)]
  simp [IsByte]

end CString

def strcat (s t : CString) : CString where
  chars := s.chars ++ t.chars
  bytes c hc := (List.mem_append.mp hc).elim (s.bytes c) (t.bytes c)

@[simp] theorem chars_strcat (s t : CString) : (strcat s t).chars = s.chars ++ t.chars := rfl

@[simp] theorem length_strcat (s t : CString) : (strcat s t).length = s.length + t.length :=
  List.length_append

/-- What `%lu` prints. -/
def decimal (n : Nat) : List Char := Nat.toDigits 10 n

theorem decimal_injective : Function.Injective decimal := by
  intro m n h
  have := congrArg (Nat.ofDigitChars 10 · 0) h
  simpa [decimal, Nat.ofDigitChars_ten_toDigits] using this

theorem isByte_of_isDigit {c : Char} (h : c.isDigit) : IsByte c := by
  simp only [Char.isDigit, Bool.and_eq_true, decide_eq_true_eq] at h
  have h1 : 48 ≤ c.toNat := by simpa [UInt32.le_iff_toNat_le] using h.1
  have h2 : c.toNat ≤ 57 := by simpa [UInt32.le_iff_toNat_le] using h.2
  exact ⟨by omega, by omega⟩

theorem isDigit_of_mem_decimal {n : Nat} {c : Char} (h : c ∈ decimal n) : c.isDigit :=
  Nat.isDigit_of_mem_toDigits (by omega) (by omega) h

theorem isByte_of_mem_decimal {n : Nat} {c : Char} (h : c ∈ decimal n) : IsByte c :=
  isByte_of_isDigit (isDigit_of_mem_decimal h)

theorem length_decimal_le {n k : Nat} (hk : 0 < k) (h : n < 10 ^ k) : (decimal n).length ≤ k :=
  (Nat.length_toDigits_le_iff (by omega) hk).mpr h

/-- The number of decimal digits. -/
def digits (n : Nat) : Nat := Nat.log 10 n + 1

theorem length_decimal (n : Nat) : (decimal n).length = digits n := length_toDigits (by omega) n

/-- What `snprintf` leaves in a buffer of `size` bytes: the text, cut so that the
terminator fits. -/
def snprintf (size : Nat) (text : List Char) : CString := .ofBuffer (text.take (size - 1))

theorem chars_snprintf {size : Nat} {text : List Char} (hlen : text.length < size)
    (hbytes : ∀ c ∈ text, IsByte c) : (snprintf size text).chars = text := by
  rw [snprintf, List.take_of_length_le (by omega), CString.chars_ofBuffer hbytes]

theorem mem_of_mem_snprintf {size : Nat} {text : List Char} {c : Char}
    (h : c ∈ (snprintf size text).chars) : c ∈ text :=
  List.mem_of_mem_take ((List.takeWhile_sublist _).subset h)

theorem length_snprintf_le (size : Nat) (text : List Char) :
    (snprintf size text).length ≤ size - 1 :=
  (List.takeWhile_sublist _).length_le.trans (List.length_take_le _ _)

end TradeServer
