import Mathlib.Algebra.Field.Rat
import TradeServer.Service.ClientEvents
import TradeServer.Service.FillPayload

/-!
# Simulated orders

The event of `simulated_order_worker` fits its buffer and has a JSON object as its data. Its bids
and asks are off the last price by a quotient of this price, where a fraction of it was meant.
-/

namespace TradeServer

open Library

/-- `event: BU` and the name of the next field. -/
def dataHeader : List Char :=
  ['e', 'v', 'e', 'n', 't', ':', ' ', 'B', 'U', '\n', 'd', 'a', 't', 'a', ':', ' ']

/-- The price of a simulated buy order. -/
def simulatedBid (price : Nat) (i : Fin orderMultipliers.length) : Nat :=
  (price + (2 ^ 64 - orderFraction price i)) % 2 ^ 64

/-- The price of a simulated sell order. -/
def simulatedAsk (price : Nat) (i : Fin orderMultipliers.length) : Nat :=
  (price + orderFraction price i) % 2 ^ 64

/-- What `[%d,%.6f,%d,%.6f]` prints. -/
def simulatedOrderText (price : Nat) (d : SimulatedDraw) : List Char :=
  '[' :: [','].intercalate
    [decimal d.buyAmount.1, formatFloating (currencyToFloat (simulatedBid price d.buyMultiplier)),
      decimal d.sellAmount.1,
      formatFloating (currencyToFloat (simulatedAsk price d.sellMultiplier))] ++ [']']

/-- The number of six decimals that is printed. -/
def formattedValue (x : Nat) : ℚ := divRoundEven (x * 10 ^ 6) (2 ^ 64) / 10 ^ 6

/-- Four numbers. -/
def simulatedOrderValue (price : Nat) (d : SimulatedDraw) : Json :=
  .array [.number d.buyAmount.1,
    .number (formattedValue (currencyToFloat (simulatedBid price d.buyMultiplier))),
    .number d.sellAmount.1,
    .number (formattedValue (currencyToFloat (simulatedAsk price d.sellMultiplier)))]

/-! ## The orders -/

theorem fourNumbers_eq (a b c d : List Char) :
    '[' :: a ++ [','] ++ b ++ [','] ++ c ++ [','] ++ d ++ [']'] =
      '[' :: [','].intercalate [a, b, c, d] ++ [']'] := by
  simp [List.intercalate_cons_cons, List.intercalate_singleton]

theorem simulatedOrder_eq (price : Nat) (d : SimulatedDraw) :
    simulatedOrder price d = snprintf 64 (simulatedOrderText price d) := by
  rw [simulatedOrderText, ← fourNumbers_eq]
  rfl

theorem isNumber_formatFloating (x : Nat) :
    Json.IsNumber (formatFloating x) (formattedValue x) := by
  unfold formatFloating formattedValue
  generalize divRoundEven (x * 10 ^ 6) (2 ^ 64) = n
  have hlen : (zeroPad 6 (decimal (n % 10 ^ 6))).length = 6 :=
    length_zeroPad (length_decimal_le (by omega) (Nat.mod_lt _ (by omega)))
  have hfraction : Json.IsDigits (zeroPad 6 (decimal (n % 10 ^ 6))) :=
    ⟨List.ne_nil_of_length_pos (by omega), fun c hc => isDigit_zeroPad hc⟩
  have hnumber := Json.isNumber_decimal (Json.isInt_toDigits (n / 10 ^ 6)) hfraction
  have hvalue : ((n / 10 ^ 6 : Nat) : ℚ) + (n % 10 ^ 6 : Nat) / 10 ^ 6 = n / 10 ^ 6 := by
    rw [eq_div_iff (by decide), add_mul, div_mul_cancel₀ _ (by decide)]
    exact_mod_cast Nat.div_add_mod' n (10 ^ 6)
  rw [hlen, readDigits_toDigits, zeroPad, readDigits_zeros, decimal, readDigits_toDigits,
    hvalue] at hnumber
  exact hnumber

theorem simulatedBid_lt (price : Nat) (i : Fin orderMultipliers.length) :
    simulatedBid price i < 2 ^ 64 := Nat.mod_lt _ (Nat.two_pow_pos 64)

theorem simulatedAsk_lt (price : Nat) (i : Fin orderMultipliers.length) :
    simulatedAsk price i < 2 ^ 64 := Nat.mod_lt _ (Nat.two_pow_pos 64)

/-- Two numbers of at most two digits and two of at most 21 characters. -/
theorem length_simulatedOrderText_le (price : Nat) (d : SimulatedDraw) :
    (simulatedOrderText price d).length ≤ 51 := by
  have hbuy := length_decimal_le (show 0 < 2 by omega) (d.buyAmount.2.2.trans_lt (by omega))
  have hsell := length_decimal_le (show 0 < 2 by omega) (d.sellAmount.2.2.trans_lt (by omega))
  have hbid := length_formatFloating_le
    (currencyToFloat_lt (simulatedBid_lt price d.buyMultiplier))
  have hask := length_formatFloating_le
    (currencyToFloat_lt (simulatedAsk_lt price d.sellMultiplier))
  rw [simulatedOrderText, ← fourNumbers_eq]
  simp only [List.length_append, List.length_cons, List.length_nil]
  omega

theorem derives_simulatedOrder (price : Nat) (d : SimulatedDraw) :
    Json.Derives (.value (simulatedOrderValue price d)) (simulatedOrderText price d) :=
  Json.derives_array
    (.cons (.number (Json.isNumber_toDigits _))
      (.cons (.number (isNumber_formatFloating _))
        (.cons (.number (Json.isNumber_toDigits _))
          (.cons (.number (isNumber_formatFloating _)) .nil))))

/-- The buffer has room for the whole order. -/
theorem chars_simulatedOrder (price : Nat) (d : SimulatedDraw) :
    (simulatedOrder price d).chars = simulatedOrderText price d := by
  have hlen := length_simulatedOrderText_le price d
  rw [simulatedOrder_eq]
  refine chars_snprintf (by omega) fun c hc => ?_
  rw [simulatedOrderText, ← fourNumbers_eq] at hc
  have hdigit := fun n => isByte_of_mem_decimal (n := n) (c := c)
  have hnumber := fun x (hx : c ∈ formatFloating x) =>
    isByte_of_inNumber (inNumber_formatFloating hx)
  have hall : ∀ c ∈ ['[', ']', ','], IsByte c := by simp [IsByte]
  have hpunctuation := hall c
  simp only [List.mem_append, List.mem_cons, List.not_mem_nil, or_false] at hc hpunctuation
  grind

/-! ## The event -/

theorem chars_buildSimulatedOrder (price : Nat) (ds : List SimulatedDraw) (data : CString) :
    (buildSimulatedOrder price ds data).chars =
      data.chars ++ [','].intercalate (ds.map (simulatedOrderText price)) := by
  have hcomma : (CString.ofBuffer [',']).chars = [','] := by decide
  fun_induction buildSimulatedOrder price ds data with
  | case1 data => simp [List.intercalate]
  | case2 d data => simp [chars_simulatedOrder, List.intercalate_singleton]
  | case3 d ds data hds ih =>
    rw [ih]
    cases ds with
    | nil => exact absurd rfl hds
    | cons d' ds =>
      simp only [List.map_cons, List.intercalate_cons_cons, chars_strcat, chars_simulatedOrder,
        hcomma, List.append_assoc]

/-- The array of a ticker. -/
def simulatedArray (prices : Ticker → Nat) (draws : Ticker → SimulatedDraws) (i : Ticker) :
    List Char :=
  '[' :: [','].intercalate ((draws i).1.map (simulatedOrderText (prices i))) ++ [']']

theorem chars_simulatedTicker (prices : Ticker → Nat) (draws : Ticker → SimulatedDraws)
    (data : CString) (i : Ticker) :
    (simulatedTicker prices draws data i).chars =
      data.chars ++ (Json.memberText (tickers i).chars (simulatedArray prices draws i) ++
        if i ≠ .ZILBIAN then [','] else []) := by
  by_cases hi : i ≠ .ZILBIAN <;>
    simp only [simulatedTicker, chars_strcat, chars_buildSimulatedOrder, chars_memberPieces,
      if_pos hi, if_neg hi, simulatedArray, Json.memberText, List.append_assoc,
      List.cons_append, List.nil_append, List.append_nil]

/-- The data of the event: an object with the arrays of all tickers. -/
def simulatedData (prices : Ticker → Nat) (draws : Ticker → SimulatedDraws) : List Char :=
  '{' :: [','].intercalate (allTickers.map fun i =>
    Json.memberText (tickers i).chars (simulatedArray prices draws i)) ++ ['}']

theorem chars_simOrderData (prices : Ticker → Nat) (draws : Ticker → SimulatedDraws) :
    (simOrderData prices draws).chars =
      dataHeader ++ simulatedData prices draws ++ ['\n', '\n'] := by
  have hpiece : (CString.ofBuffer orderHeader).chars = dataHeader ++ ['{'] ∧
      (CString.ofBuffer ['}', '\n', '\n']).chars = ['}', '\n', '\n'] := by decide
  simp [simOrderData, allTickers, chars_simulatedTicker, hpiece, simulatedData,
    List.intercalate_cons_cons, List.intercalate_singleton]

/-- The data is one line. -/
theorem isLine_simulatedData (prices : Ticker → Nat) (draws : Ticker → SimulatedDraws) :
    IsLine (simulatedData prices draws) := by
  obtain ⟨body, heq, hline, -⟩ := Continues.foldl (simulatedTicker_continues prices draws)
    allTickers (.ofBuffer orderHeader)
  have hpiece : (CString.ofBuffer orderHeader).chars = dataHeader ++ ['{'] ∧
      (CString.ofBuffer ['}', '\n', '\n']).chars = ['}'] ++ ['\n', '\n'] := by decide
  have hchars := chars_simOrderData prices draws
  rw [simOrderData, chars_strcat, heq, hpiece.1, hpiece.2, ← List.append_assoc] at hchars
  have hdata := List.append_cancel_right hchars
  rw [List.append_assoc, List.append_assoc] at hdata
  rw [← List.append_cancel_left hdata]
  exact isLine_append.mpr ⟨by simp [IsLine], isLine_append.mpr ⟨hline, by simp [IsLine]⟩⟩

theorem derives_simulatedArray (prices : Ticker → Nat) (draws : Ticker → SimulatedDraws)
    (i : Ticker) :
    Json.Derives (.value (.array ((draws i).1.map (simulatedOrderValue (prices i)))))
      (simulatedArray prices draws i) := by
  refine Json.derives_array ?_
  rw [List.forall₂_map_left_iff, List.forall₂_map_right_iff, List.forall₂_same]
  exact fun d _ => derives_simulatedOrder (prices i) d

/-- The event fits its buffer, no order is cut, and the data is an object with one to five
arrays of four numbers for each ticker. -/
theorem simulated_orders_wellFormed (prices : Ticker → Nat) (draws : Ticker → SimulatedDraws) :
    (simOrderData prices draws).length + 1 ≤ SIM_ORDER_LEN ∧
    (∀ i, ∀ d ∈ (draws i).1,
      (simulatedOrder (prices i) d).chars = simulatedOrderText (prices i) d) ∧
    ∃ line, IsLine line ∧
      (simOrderData prices draws).chars = dataHeader ++ line ++ ['\n', '\n'] ∧
      Json.IsText line (.object (allTickers.map fun i => ((tickers i).chars.map Char.toNat,
        .array ((draws i).1.map (simulatedOrderValue (prices i)))))) ∧
      ∀ i, 1 ≤ (draws i).1.length ∧ (draws i).1.length ≤ 5 := by
  refine ⟨(simOrderData_event prices draws).2, fun i d _ => chars_simulatedOrder (prices i) d,
    simulatedData prices draws, isLine_simulatedData prices draws, chars_simOrderData prices draws,
    ?_, fun i => (draws i).2⟩
  exact (Json.derives_object (fun i _ => isPlain_tickers i)
    (fun i _ => derives_simulatedArray prices draws i)).isText

/-! ## The offsets -/

/-- The fraction of a price that a multiplier in millionths stands for. -/
def fractionOf (price millionths : Nat) : Nat :=
  (2 * price * millionths + SCALE_FACTOR) / (2 * SCALE_FACTOR)

/-- The offset is the fraction of the price, and no larger multiplier gives a smaller one. -/
structure IsOffset (price multiplier : Nat) : Prop where
  nearest : price < 2 ^ 43 →
    fractionalPrice price multiplier = fractionOf price (floatToCurrency multiplier)
  monotone : ∀ multiplier', floatToCurrency multiplier ≤ floatToCurrency multiplier' →
    floatToCurrency multiplier' ≤ SCALE_FACTOR →
    fractionalPrice price multiplier ≤ fractionalPrice price multiplier'

/-- An entry of `order_multipliers`. -/
def orderMultiplier (i : Fin orderMultipliers.length) : Nat :=
  toFloating 24 (orderMultipliers.get i) 1000

/-- The bid and the ask do not wrap around, and the price is between them. -/
structure Surrounds (price : Nat) (i : Fin orderMultipliers.length) : Prop where
  underflow : orderFraction price i ≤ price
  overflow : price + orderFraction price i < 2 ^ 64
  bid : simulatedBid price i ≤ price
  ask : price ≤ simulatedAsk price i

theorem fractionalPrice_eq {price multiplier : Nat}
    (h : price / floatToCurrency multiplier < 2 ^ 53) :
    fractionalPrice price multiplier = price / floatToCurrency multiplier := by
  rw [fractionalPrice, toFloating_one h, roundFloating_mul]

/-- Also a rounded quotient is at least half of the quotient. -/
theorem half_le_fractionalPrice (price multiplier : Nat) :
    price / floatToCurrency multiplier / 2 ≤ fractionalPrice price multiplier := by
  have hlow := (toFloating_bounds (show 0 < 53 by omega)
    (price / floatToCurrency multiplier) 1).1
  rw [Nat.div_one] at hlow
  unfold fractionalPrice roundFloating
  omega

/-- The multiplier `1.0`. -/
theorem floatToCurrency_one : floatToCurrency (2 ^ 64) = SCALE_FACTOR := by decide

theorem orderMultiplier_bounds (i : Fin orderMultipliers.length) :
    1000 ≤ floatToCurrency (orderMultiplier i) ∧ floatToCurrency (orderMultiplier i) ≤ 100000 := by
  have hall : ∀ i : Fin orderMultipliers.length, 1000 ≤ floatToCurrency (orderMultiplier i) ∧
      floatToCurrency (orderMultiplier i) ≤ 100000 := by decide
  exact hall i

/-- A quotient that is a rounded fraction, and not below the smallest quotient, is zero. -/
theorem lt_of_quotient_eq {p m : Nat} (hm : 0 < m)
    (hnearest : p / m = (2 * p * m + 1000000) / (2 * 1000000))
    (hmono : p / m ≤ p / 1000000) : p < m ∧ p * m < 500000 := by
  have hprod : 2 * p * m = 2 * (p * m) := Nat.mul_assoc 2 p m
  have hpm : p < m := by
    by_contra hle
    have hone : 0 < p / m := Nat.div_pos (by omega) hm
    rcases Nat.lt_or_ge m 2 with hlt | htwo
    · obtain rfl : m = 1 := by omega
      omega
    · -- the fraction would be twice the smallest quotient
      have hdouble : p * 2 ≤ p * m := Nat.mul_le_mul_left p htwo
      omega
  rw [Nat.div_eq_of_lt hpm] at hnearest
  omega

theorem isOffset_iff {price multiplier : Nat} (hprice : price < 2 ^ 43)
    (hpos : 1 ≤ floatToCurrency multiplier) (hle : floatToCurrency multiplier ≤ SCALE_FACTOR) :
    IsOffset price multiplier ↔
      price < floatToCurrency multiplier ∧ price * floatToCurrency multiplier < 500000 := by
  have hdiv : ∀ m, price / m ≤ price := Nat.div_le_self price
  have heq : ∀ multiplier, fractionalPrice price multiplier = price / floatToCurrency multiplier :=
    fun multiplier => fractionalPrice_eq ((hdiv _).trans_lt (hprice.trans (by omega)))
  constructor
  · rintro ⟨hnearest, hmono⟩
    have hnearest := hnearest hprice
    have hmono := hmono (2 ^ 64) (hle.trans_eq floatToCurrency_one.symm) floatToCurrency_one.le
    rw [heq, heq, floatToCurrency_one] at hmono
    rw [heq] at hnearest
    exact lt_of_quotient_eq hpos hnearest hmono
  · rintro ⟨hlt, hsmall⟩
    have hzero : fractionalPrice price multiplier = 0 := by rw [heq, Nat.div_eq_of_lt hlt]
    refine ⟨fun _ => ?_, fun multiplier' _ _ => hzero.trans_le (Nat.zero_le _)⟩
    have hprod := Nat.mul_assoc 2 price (floatToCurrency multiplier)
    rw [hzero, fractionOf, SCALE_FACTOR]
    omega

theorem surrounds_of_zero {price : Nat} {i : Fin orderMultipliers.length} (hprice : price < 2 ^ 64)
    (hzero : orderFraction price i = 0) : Surrounds price i := by
  constructor
  · omega
  · omega
  · rw [simulatedBid, hzero]
    omega
  · rw [simulatedAsk, hzero]
    omega

/-- For a price of more than 43 bits `1.0` gives a smaller offset than the entries. -/
theorem not_isOffset_of_le {price : Nat} (i : Fin orderMultipliers.length)
    (hprice : price < 2 ^ 64) (hlarge : 2 ^ 43 ≤ price) : ¬ IsOffset price (orderMultiplier i) := by
  intro h
  obtain ⟨hlow, hhigh⟩ := orderMultiplier_bounds i
  have hscale : floatToCurrency (2 ^ 64) = 1000000 := floatToCurrency_one
  have hmono := h.monotone (2 ^ 64) (by omega) floatToCurrency_one.le
  have hone : fractionalPrice price (2 ^ 64) = price / 1000000 := by
    rw [fractionalPrice_eq (by rw [hscale]; omega), hscale]
  have hhalf := half_le_fractionalPrice price (orderMultiplier i)
  have hquot : price / 100000 ≤ price / floatToCurrency (orderMultiplier i) :=
    Nat.div_le_div_left hhigh (by omega)
  rw [hone] at hmono
  omega

/-- The offsets are right if and only if they are zero, and the fractions are too. -/
theorem fractional_price_iff (price multiplier : Nat) (i : Fin orderMultipliers.length)
    (hprice : price < 2 ^ 64)
    (hmultiplier : 1 ≤ floatToCurrency multiplier ∧ floatToCurrency multiplier ≤ SCALE_FACTOR) :
    (price < 2 ^ 43 → (IsOffset price multiplier ↔
      price < floatToCurrency multiplier ∧ price * floatToCurrency multiplier < 500000)) ∧
    (IsOffset price (orderMultiplier i) ∧ Surrounds price i ↔
      price * floatToCurrency (orderMultiplier i) < 500000) := by
  obtain ⟨hlow, hhigh⟩ := orderMultiplier_bounds i
  have hentry : floatToCurrency (orderMultiplier i) ≤ SCALE_FACTOR := hhigh.trans (by decide)
  refine ⟨fun h => isOffset_iff h hmultiplier.1 hmultiplier.2, fun ⟨hoffset, _⟩ => ?_, fun h => ?_⟩
  · have hsmall : price < 2 ^ 43 := by
      by_contra hlarge
      exact not_isOffset_of_le i hprice (not_lt.mp hlarge) hoffset
    exact ((isOffset_iff hsmall (by omega) hentry).mp hoffset).2
  · have hless : price * 1000 ≤ price * floatToCurrency (orderMultiplier i) :=
      Nat.mul_le_mul_left price hlow
    have hlt : price < floatToCurrency (orderMultiplier i) := by omega
    have hzero : orderFraction price i = 0 := by
      have hquot := Nat.div_eq_of_lt hlt
      exact (fractionalPrice_eq (hquot.trans_lt (by omega))).trans hquot
    exact ⟨(isOffset_iff (by omega) (by omega) hentry).mpr ⟨hlt, h⟩, surrounds_of_zero hprice hzero⟩

theorem fractional_price_iff_two_percent :
    (2500000 < 2 ^ 43 → (IsOffset 2500000 (orderMultiplier twoPercent) ↔
      2500000 < floatToCurrency (orderMultiplier twoPercent) ∧
        2500000 * floatToCurrency (orderMultiplier twoPercent) < 500000)) ∧
    (IsOffset 2500000 (orderMultiplier twoPercent) ∧ Surrounds 2500000 twoPercent ↔
      2500000 * floatToCurrency (orderMultiplier twoPercent) < 500000) :=
  fractional_price_iff 2500000 (orderMultiplier twoPercent) twoPercent (by decide) (by decide)

/-- The offset is 125 millionths where two percent are 50000. -/
theorem fractional_price_two_percent :
    fractionalPrice 2500000 (orderMultiplier twoPercent) = 125 ∧
    fractionOf 2500000 (floatToCurrency (orderMultiplier twoPercent)) = 50000 ∧
    ¬ ∀ price multiplier, price < 2 ^ 43 → 1 ≤ floatToCurrency multiplier →
      floatToCurrency multiplier ≤ SCALE_FACTOR →
      fractionalPrice price multiplier = fractionOf price (floatToCurrency multiplier) := by
  have hoffset : fractionalPrice 2500000 (orderMultiplier twoPercent) = 125 := by decide
  have hfraction : fractionOf 2500000 (floatToCurrency (orderMultiplier twoPercent)) = 50000 := by
    decide
  refine ⟨hoffset, hfraction, fun h => ?_⟩
  have heq := h 2500000 (orderMultiplier twoPercent) (by decide) (by decide) (by decide)
  omega

end TradeServer
