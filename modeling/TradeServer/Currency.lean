import TradeServer.CString

/-!
# Prices

`currency.c` counts money in millionths. A floating-point number is given in units of
`2 ^ -64`, which is exact for zero, for a `float` from `2 ^ -40` up, and for all integers.
-/

namespace TradeServer

open Library

def SCALE_FACTOR : Nat := 1000000

/-- `x / y` to the nearest integer, ties to even. -/
def divRoundEven (x y : Nat) : Nat :=
  if 2 * (x % y) < y ∨ 2 * (x % y) = y ∧ x / y % 2 = 0 then x / y else x / y + 1

/-- The floating-point number nearest to `x / y` that has `bits` binary digits. -/
def toFloating (bits x y : Nat) : Nat :=
  let exponent := (x * 2 ^ 64 / y).log2 + 1 - bits
  divRoundEven (x * 2 ^ 64) (y * 2 ^ exponent) * 2 ^ exponent

/-- `round`, ties away from zero. -/
def roundFloating (x : Nat) : Nat := (2 * x + 2 ^ 64) / 2 ^ 65

/-- Leading zeros up to the width of a number. -/
def zeroPad (width : Nat) (text : List Char) : List Char :=
  List.replicate (width - text.length) '0' ++ text

/-- What `%.6f` prints. -/
def formatFloating (x : Nat) : List Char :=
  let n := divRoundEven (x * 10 ^ 6) (2 ^ 64)
  decimal (n / 10 ^ 6) ++ '.' :: zeroPad 6 (decimal (n % 10 ^ 6))

/-- `float_to_currency` of a `float`. -/
def floatToCurrency (amount : Nat) : Nat :=
  roundFloating (toFloating 24 (amount * SCALE_FACTOR) (2 ^ 64))

/-- The quotient of `(float)amount` and `SCALE_FACTOR` is a `float` too. -/
def currencyToFloat (amount : Nat) : Nat :=
  toFloating 24 (toFloating 24 amount 1) (SCALE_FACTOR * 2 ^ 64)

/-- What `%lld` prints for a 64-bit number, which it takes as a signed one. -/
def signedDecimal (n : Nat) : List Char :=
  if n < 2 ^ 63 then decimal n else '-' :: decimal (2 ^ 64 - n)

/-- What `%lld.%06lld` prints for the two parts of an amount. -/
def currencyText (amount : Nat) : List Char :=
  signedDecimal (amount / SCALE_FACTOR) ++
    '.' :: zeroPad 6 (signedDecimal (amount % SCALE_FACTOR))

def currencyToString (bufferSize amount : Nat) : CString :=
  snprintf bufferSize (currencyText amount)

def currencyToStringExtra (bufferSize amount flag : Nat) : CString :=
  snprintf bufferSize (decimal (amount / SCALE_FACTOR) ++
    '.' :: zeroPad 6 (decimal (amount % SCALE_FACTOR)) ++ ':' :: decimal flag)

/-- The quotient is an integer before it is rounded. -/
def fractionalPrice (price multiplier : Nat) : Nat :=
  roundFloating (toFloating 53 (price / floatToCurrency multiplier) 1)

/-! ## Rounding -/

theorem divRoundEven_bounds (x y : Nat) :
    x / y ≤ divRoundEven x y ∧ divRoundEven x y ≤ x / y + 1 := by
  unfold divRoundEven
  split <;> omega

theorem divRoundEven_mul (k : Nat) {y : Nat} (hy : 0 < y) : divRoundEven (k * y) y = k := by
  simp [divRoundEven, Nat.mul_div_cancel k hy, hy]

/-- The unit in the last place is not larger than the number. -/
theorem two_pow_exponent_le {bits : Nat} (hbits : 0 < bits) (q : Nat) :
    2 ^ (q.log2 + 1 - bits) ≤ max q 1 := by
  rcases Nat.eq_zero_or_pos q with rfl | hq
  · have hexp : Nat.log2 0 + 1 - bits = 0 := by
      rw [Nat.log2_zero]
      omega
    rw [hexp]
    decide
  · have hpow : 2 ^ (q.log2 + 1 - bits) ≤ 2 ^ q.log2 :=
      Nat.pow_le_pow_right (by omega) (by omega)
    exact (hpow.trans (Nat.log2_self_le (by omega))).trans (le_max_left q 1)

/-- A number in units that are not larger than it. -/
theorem scaled_bounds {q unit d : Nat} (hpos : 0 < unit) (hunit : unit ≤ max q 1)
    (hlow : q / unit ≤ d) (hhigh : d ≤ q / unit + 1) :
    q ≤ 2 * (d * unit) ∧ d * unit ≤ 2 * q + 1 := by
  have hle : q / unit * unit ≤ q := Nat.div_mul_le_self q unit
  have hlt : q < (q / unit + 1) * unit := Nat.lt_mul_of_div_lt (Nat.lt_succ_self _) hpos
  have hdown : q / unit * unit ≤ d * unit := Nat.mul_le_mul_right unit hlow
  have hup : d * unit ≤ (q / unit + 1) * unit := Nat.mul_le_mul_right unit hhigh
  rw [Nat.add_mul, Nat.one_mul] at hlt hup
  constructor
  · rcases Nat.eq_zero_or_pos q with rfl | hq
    · omega
    · have hone : 1 * unit ≤ q / unit * unit :=
        Nat.mul_le_mul_right unit (Nat.div_pos (by omega) hpos)
      omega
  · omega

/-- Rounding neither halves nor doubles a number. -/
theorem toFloating_bounds {bits : Nat} (hbits : 0 < bits) (x y : Nat) :
    x * 2 ^ 64 / y ≤ 2 * toFloating bits x y ∧ toFloating bits x y ≤ 2 * (x * 2 ^ 64 / y) + 1 := by
  obtain ⟨hlow, hhigh⟩ := divRoundEven_bounds (x * 2 ^ 64)
    (y * 2 ^ ((x * 2 ^ 64 / y).log2 + 1 - bits))
  rw [← Nat.div_div_eq_div_mul] at hlow hhigh
  exact scaled_bounds (Nat.two_pow_pos _) (two_pow_exponent_le hbits _) hlow hhigh

/-- Integers of few digits are floating-point numbers. -/
theorem toFloating_one {bits k : Nat} (hk : k < 2 ^ bits) : toFloating bits k 1 = k * 2 ^ 64 := by
  have hlog : (k * 2 ^ 64).log2 + 1 - bits ≤ 64 := by
    have hlt : k * 2 ^ 64 < 2 ^ (bits + 64) := by
      rw [Nat.pow_add]
      exact Nat.mul_lt_mul_of_pos_right hk (by omega)
    rcases Nat.eq_zero_or_pos k with rfl | hpos
    · rw [Nat.zero_mul, Nat.log2_zero]
      omega
    · have hne : k * 2 ^ 64 ≠ 0 := Nat.mul_ne_zero hpos.ne' (by omega)
      have := (Nat.log2_lt hne).mpr hlt
      omega
  simp only [toFloating, Nat.div_one, Nat.one_mul]
  generalize (k * 2 ^ 64).log2 + 1 - bits = e at hlog ⊢
  have hsplit : k * 2 ^ 64 = k * 2 ^ (64 - e) * 2 ^ e := by
    rw [Nat.mul_assoc, ← Nat.pow_add, Nat.sub_add_cancel hlog]
  rw [hsplit, divRoundEven_mul _ (Nat.two_pow_pos e)]

theorem roundFloating_mul (k : Nat) : roundFloating (k * 2 ^ 64) = k := by
  unfold roundFloating
  omega

/-! ## What is printed -/

/-- A character of a number. -/
def InNumber (c : Char) : Prop := c.isDigit ∨ c = '.' ∨ c = ':'

theorem inNumber_zeroPad {width n : Nat} {c : Char} (h : c ∈ zeroPad width (decimal n)) :
    InNumber c := by
  rcases List.mem_append.mp h with h | h
  · exact .inl (by rw [List.eq_of_mem_replicate h]; decide)
  · exact .inl (isDigit_of_mem_decimal h)

theorem inNumber_formatFloating {x : Nat} {c : Char} (h : c ∈ formatFloating x) : InNumber c := by
  rcases List.mem_append.mp h with h | h
  · exact .inl (isDigit_of_mem_decimal h)
  · rcases List.mem_cons.mp h with rfl | h
    · exact .inr (.inl rfl)
    · exact inNumber_zeroPad h

theorem inNumber_extraText {amount flag : Nat} {c : Char}
    (h : c ∈ decimal (amount / SCALE_FACTOR) ++
      '.' :: zeroPad 6 (decimal (amount % SCALE_FACTOR)) ++ ':' :: decimal flag) : InNumber c := by
  simp only [List.mem_append, List.mem_cons] at h
  rcases h with (h | rfl | h) | rfl | h
  · exact .inl (isDigit_of_mem_decimal h)
  · exact .inr (.inl rfl)
  · exact inNumber_zeroPad h
  · exact .inr (.inr rfl)
  · exact .inl (isDigit_of_mem_decimal h)

theorem inNumber_currencyToStringExtra {bufferSize amount flag : Nat} {c : Char}
    (h : c ∈ (currencyToStringExtra bufferSize amount flag).chars) : InNumber c :=
  inNumber_extraText (mem_of_mem_snprintf h)

theorem length_zeroPad {width : Nat} {text : List Char} (h : text.length ≤ width) :
    (zeroPad width text).length = width := by
  simp [zeroPad, h]

theorem isByte_of_inNumber {c : Char} (h : InNumber c) : IsByte c := by
  obtain h | rfl | rfl := h
  · exact isByte_of_isDigit h
  · decide
  · decide

theorem length_currencyToStringExtra (bufferSize amount flag : Nat) :
    (currencyToStringExtra bufferSize amount flag).length =
      min (bufferSize - 1) (digits (amount / SCALE_FACTOR) + digits flag + 8) := by
  have hfraction : (decimal (amount % SCALE_FACTOR)).length ≤ 6 :=
    length_decimal_le (by decide) (Nat.mod_lt _ (by decide))
  rw [CString.length, currencyToStringExtra, snprintf,
    CString.chars_ofBuffer fun c hc =>
      isByte_of_inNumber (inNumber_extraText (List.mem_of_mem_take hc)), List.length_take]
  simp only [List.length_append, List.length_cons, length_zeroPad hfraction, length_decimal]
  omega

/-! ## What is read back -/

/-- The number of millionths that a text with a dot and six digits behind it stands for. -/
def readCurrency (text : List Char) : Nat :=
  readDigits (text.takeWhile (· ≠ '.')) * SCALE_FACTOR +
    readDigits (((text.dropWhile (· ≠ '.')).drop 1).take 6)

/-- The number behind the colon. -/
def readFlag (text : List Char) : Nat := readDigits ((text.dropWhile (· ≠ ':')).drop 1)

/-- Digits, a dot, and six digits. -/
def IsCurrency (text : List Char) : Prop :=
  ∃ whole fraction, text = whole ++ '.' :: fraction ∧ whole ≠ [] ∧ fraction.length = 6 ∧
    ∀ c ∈ whole ++ fraction, c.isDigit

theorem currencyText_eq {amount : Nat} (ha : amount < 2 ^ 64) :
    currencyText amount =
      decimal (amount / SCALE_FACTOR) ++ '.' :: zeroPad 6 (decimal (amount % SCALE_FACTOR)) := by
  have hwhole : amount / SCALE_FACTOR < 2 ^ 63 := by unfold SCALE_FACTOR; omega
  have hfraction : amount % SCALE_FACTOR < 2 ^ 63 := by unfold SCALE_FACTOR; omega
  rw [currencyText, signedDecimal, signedDecimal, if_pos hwhole, if_pos hfraction]

theorem currencyToStringExtra_eq (bufferSize : Nat) {amount : Nat} (ha : amount < 2 ^ 64)
    (flag : Nat) :
    currencyToStringExtra bufferSize amount flag =
      snprintf bufferSize (currencyText amount ++ ':' :: decimal flag) := by
  rw [currencyToStringExtra, currencyText_eq ha]

theorem isDigit_zeroPad {width n : Nat} {c : Char} (h : c ∈ zeroPad width (decimal n)) :
    c.isDigit := by
  rcases List.mem_append.mp h with h | h
  · rw [List.eq_of_mem_replicate h]
    decide
  · exact isDigit_of_mem_decimal h

/-- No 64-bit amount is as much as `10 ^ 14 - 1`. -/
theorem currencyToFloat_lt {amount : Nat} (ha : amount < 2 ^ 64) :
    currencyToFloat amount < (10 ^ 14 - 1) * 2 ^ 64 := by
  have hfloat := (toFloating_bounds (show 0 < 24 by omega) amount 1).2
  have hquot := (toFloating_bounds (show 0 < 24 by omega) (toFloating 24 amount 1)
    (SCALE_FACTOR * 2 ^ 64)).2
  rw [Nat.div_one] at hfloat
  rw [Nat.mul_div_mul_right _ _ (by omega)] at hquot
  unfold currencyToFloat
  unfold SCALE_FACTOR at hquot ⊢
  omega

/-- At most 14 digits, a dot, and six digits. -/
theorem length_formatFloating_le {x : Nat} (hx : x < (10 ^ 14 - 1) * 2 ^ 64) :
    (formatFloating x).length ≤ 21 := by
  have hround := (divRoundEven_bounds (x * 10 ^ 6) (2 ^ 64)).2
  have hwhole : (decimal (divRoundEven (x * 10 ^ 6) (2 ^ 64) / 10 ^ 6)).length ≤ 14 :=
    length_decimal_le (by omega) (by omega)
  have hfraction : (decimal (divRoundEven (x * 10 ^ 6) (2 ^ 64) % 10 ^ 6)).length ≤ 6 :=
    length_decimal_le (by omega) (Nat.mod_lt _ (by omega))
  rw [formatFloating, List.length_append, List.length_cons, length_zeroPad hfraction]
  omega

/-- The two sides of the dot. -/
theorem currencyText_parts {amount : Nat} (ha : amount < 2 ^ 64) :
    ∃ whole fraction, currencyText amount = whole ++ '.' :: fraction ∧ whole ≠ [] ∧
      fraction.length = 6 ∧ (∀ c ∈ whole ++ fraction, c.isDigit) ∧
      readDigits whole = amount / SCALE_FACTOR ∧ readDigits fraction = amount % SCALE_FACTOR := by
  have hlen : (decimal (amount % SCALE_FACTOR)).length ≤ 6 :=
    length_decimal_le (by decide) (Nat.mod_lt _ (by decide))
  refine ⟨_, _, currencyText_eq ha, Nat.toDigits_ne_nil, length_zeroPad hlen, fun c hc => ?_,
    readDigits_toDigits _, ?_⟩
  · exact (List.mem_append.mp hc).elim isDigit_of_mem_decimal isDigit_zeroPad
  · rw [zeroPad, readDigits_zeros, decimal, readDigits_toDigits]

theorem takeWhile_ne {c : Char} {text rest : List Char} (h : c ∉ text) :
    (text ++ c :: rest).takeWhile (· ≠ c) = text ∧
      (text ++ c :: rest).dropWhile (· ≠ c) = c :: rest := by
  have hall : ∀ d ∈ text, (decide (d ≠ c)) = true := by
    intro d hd
    simpa using ne_of_mem_of_not_mem hd h
  constructor
  · rw [List.takeWhile_append_of_pos hall]
    simp
  · rw [List.dropWhile_append_of_pos hall]
    simp

theorem notMem_of_isDigit {text : List Char} {c : Char} (h : ∀ d ∈ text, d.isDigit)
    (hc : ¬ c.isDigit) : c ∉ text := fun hmem => hc (h c hmem)

/-- The text of an amount is read as the amount, whatever follows it. -/
theorem readCurrency_currencyText {amount : Nat} (ha : amount < 2 ^ 64) (rest : List Char) :
    readCurrency (currencyText amount ++ rest) = amount := by
  obtain ⟨whole, fraction, htext, -, hlen, hdigit, hwhole, hfraction⟩ := currencyText_parts ha
  have hdot : '.' ∉ whole :=
    notMem_of_isDigit (fun d hd => hdigit d (List.mem_append_left _ hd)) (by decide)
  obtain ⟨htake, hdrop⟩ := @takeWhile_ne _ _ (fraction ++ rest) hdot
  rw [htext, List.append_assoc, List.cons_append, readCurrency, htake, hdrop, List.drop_one,
    List.tail_cons, ← hlen, List.take_left, hwhole, hfraction]
  exact Nat.div_add_mod' amount SCALE_FACTOR

theorem readFlag_currencyText {amount : Nat} (ha : amount < 2 ^ 64) (flag : Nat) :
    readFlag (currencyText amount ++ ':' :: decimal flag) = flag := by
  obtain ⟨whole, fraction, htext, -, -, hdigit, -, -⟩ := currencyText_parts ha
  have hcolon : ':' ∉ currencyText amount := by
    rw [htext]
    intro hmem
    have hmem : ':' ∈ whole ++ fraction := by simpa using hmem
    exact absurd (hdigit _ hmem) (by decide)
  rw [readFlag, (takeWhile_ne hcolon).2, List.drop_one, List.tail_cons, decimal,
    readDigits_toDigits]

theorem isByte_currencyText {amount : Nat} (ha : amount < 2 ^ 64) {c : Char}
    (hc : c ∈ currencyText amount) : IsByte c := by
  obtain ⟨whole, fraction, htext, -, -, hdigit, -, -⟩ := currencyText_parts ha
  have hc : c = '.' ∨ c ∈ whole ++ fraction := by
    rw [htext] at hc
    simp only [List.mem_append, List.mem_cons] at hc ⊢
    grind
  rcases hc with rfl | hc
  · decide
  · exact isByte_of_isDigit (hdigit c hc)

theorem chars_currencyToString {bufferSize amount : Nat} (ha : amount < 2 ^ 64)
    (hsize : (currencyText amount).length < bufferSize) :
    (currencyToString bufferSize amount).chars = currencyText amount :=
  chars_snprintf hsize fun _ hc => isByte_currencyText ha hc

theorem chars_currencyToStringExtra {bufferSize amount flag : Nat} (ha : amount < 2 ^ 64)
    (hsize : (currencyText amount ++ ':' :: decimal flag).length < bufferSize) :
    (currencyToStringExtra bufferSize amount flag).chars =
      currencyText amount ++ ':' :: decimal flag := by
  rw [currencyToStringExtra_eq bufferSize ha]
  refine chars_snprintf hsize fun c hc => ?_
  rcases List.mem_append.mp hc with hc | hc
  · exact isByte_currencyText ha hc
  · rcases List.mem_cons.mp hc with rfl | hc
    · decide
    · exact isByte_of_mem_decimal hc

theorem isCurrency_currencyText {amount : Nat} (ha : amount < 2 ^ 64) :
    IsCurrency (currencyText amount) := by
  obtain ⟨whole, fraction, htext, hne, hlen, hdigit, -, -⟩ := currencyText_parts ha
  exact ⟨whole, fraction, htext, hne, hlen, hdigit⟩

/-- Where the buffers have room, the texts are decimal numbers with six fractional digits and are
read back as the amount and the flag, so that no two texts are the same. -/
theorem currency_roundTrips (amount flag : Nat) (ha : amount < 2 ^ 64) :
    (∀ bufferSize, (currencyText amount).length < bufferSize →
      IsCurrency (currencyToString bufferSize amount).chars ∧
      readCurrency (currencyToString bufferSize amount).chars = amount) ∧
    (∀ bufferSize, (currencyText amount ++ ':' :: decimal flag).length < bufferSize →
      (∃ text, IsCurrency text ∧
        (currencyToStringExtra bufferSize amount flag).chars = text ++ ':' :: decimal flag) ∧
      readCurrency (currencyToStringExtra bufferSize amount flag).chars = amount ∧
      readFlag (currencyToStringExtra bufferSize amount flag).chars = flag) ∧
    ∀ amount' flag' bufferSize bufferSize', amount' < 2 ^ 64 →
      ((currencyText amount).length < bufferSize →
        (currencyText amount').length < bufferSize' →
        currencyToString bufferSize amount = currencyToString bufferSize' amount' →
        amount = amount') ∧
      ((currencyText amount ++ ':' :: decimal flag).length < bufferSize →
        (currencyText amount' ++ ':' :: decimal flag').length < bufferSize' →
        currencyToStringExtra bufferSize amount flag =
          currencyToStringExtra bufferSize' amount' flag' →
        amount = amount' ∧ flag = flag') := by
  have hread := readCurrency_currencyText ha []
  have hextra := readCurrency_currencyText ha (':' :: decimal flag)
  have hflag := readFlag_currencyText ha flag
  rw [List.append_nil] at hread
  refine ⟨fun bufferSize hsize => ?_, fun bufferSize hsize => ?_, ?_⟩
  · rw [chars_currencyToString ha hsize]
    exact ⟨isCurrency_currencyText ha, hread⟩
  · rw [chars_currencyToStringExtra ha hsize]
    exact ⟨⟨_, isCurrency_currencyText ha, rfl⟩, hextra, hflag⟩
  · intro amount' flag' bufferSize bufferSize' ha'
    have hread' := readCurrency_currencyText ha' []
    rw [List.append_nil] at hread'
    constructor
    · intro hsize hsize' heq
      have hchars := congrArg CString.chars heq
      rw [chars_currencyToString ha hsize, chars_currencyToString ha' hsize'] at hchars
      rw [← hread, hchars, hread']
    · intro hsize hsize' heq
      have hchars := congrArg CString.chars heq
      rw [chars_currencyToStringExtra ha hsize, chars_currencyToStringExtra ha' hsize'] at hchars
      constructor
      · rw [← hextra, hchars, readCurrency_currencyText ha']
      · rw [← hflag, hchars, readFlag_currencyText ha']

/-- An amount above `2 ^ 63` and a fraction with leading zeros. -/
theorem currency_roundTrips_large :
    (∀ bufferSize, (currencyText 9999999999999000042).length < bufferSize →
      IsCurrency (currencyToString bufferSize 9999999999999000042).chars ∧
      readCurrency (currencyToString bufferSize 9999999999999000042).chars =
        9999999999999000042) ∧
    (∀ bufferSize, (currencyText 9999999999999000042 ++ ':' :: decimal 65535).length < bufferSize →
      (∃ text, IsCurrency text ∧
        (currencyToStringExtra bufferSize 9999999999999000042 65535).chars =
          text ++ ':' :: decimal 65535) ∧
      readCurrency (currencyToStringExtra bufferSize 9999999999999000042 65535).chars =
        9999999999999000042 ∧
      readFlag (currencyToStringExtra bufferSize 9999999999999000042 65535).chars = 65535) ∧
    ∀ amount' flag' bufferSize bufferSize', amount' < 2 ^ 64 →
      ((currencyText 9999999999999000042).length < bufferSize →
        (currencyText amount').length < bufferSize' →
        currencyToString bufferSize 9999999999999000042 = currencyToString bufferSize' amount' →
        9999999999999000042 = amount') ∧
      ((currencyText 9999999999999000042 ++ ':' :: decimal 65535).length < bufferSize →
        (currencyText amount' ++ ':' :: decimal flag').length < bufferSize' →
        currencyToStringExtra bufferSize 9999999999999000042 65535 =
          currencyToStringExtra bufferSize' amount' flag' →
        9999999999999000042 = amount' ∧ 65535 = flag') :=
  currency_roundTrips 9999999999999000042 65535 (by omega)

/-- Two and a half, and the fraction of it for the multiplier `0.02`. -/
example : formatFloating (currencyToFloat 2500000) = ['2', '.', '5', '0', '0', '0', '0', '0'] ∧
    fractionalPrice 2500000 (toFloating 24 2 100) = 125 := by decide

end TradeServer
