import TradeServer.Service.ClientEvents

/-!
# The price event

`market_monitor` writes the prices that it could read one after another, with a comma behind all
but the last ticker. Which reads failed cannot always be told from the text, and the buffers hold
the text of some prices only.
-/

namespace TradeServer

open Library

/-- `read_price_source` with the results of its two calls of `fread`, a `float` and a byte. -/
def readPriceSource (pricePoint : PricePoint) (price flagByte : Option Nat) : PricePoint :=
  match price, flagByte with
  | none, _ => { pricePoint with price := 0 }
  | some _, none => ⟨0, 0⟩
  | some price, some flagByte => ⟨floatToCurrency price, flagByte⟩

/-- The price and the flag, if they could be read. -/
def PricePoint.outcome (p : PricePoint) : Option (Nat × Nat) :=
  if p.price = 0 then none else some (p.price, p.flag)

/-- The text of a price and its flag. -/
def PricePoint.text (p : PricePoint) : List Char := currencyText p.price ++ ':' :: decimal p.flag

/-- Outcomes of the reads of one iteration whose texts fit `tmp_str`. -/
structure Fitting (reads : Ticker → PricePoint) : Prop where
  price : ∀ i, (reads i).price < 2 ^ 64
  flag : ∀ i, (reads i).flag < 2 ^ 8
  fits : ∀ i, (reads i).price ≠ 0 → (reads i).text.length < TMP_PRICE_STR_LEN

/-- The fields of an event as a client splits its data. -/
def dataFields (text : CString) : List (List Char) :=
  ((text.chars.drop priceHeader.length).takeWhile (· ≠ '\n')).splitOn ','

/-- What a client that goes by the position of the fields takes for the price and the flag of a
ticker. -/
def readByPosition (text : CString) (i : Ticker) : Option (Nat × Nat) :=
  match (dataFields text)[allTickers.idxOf i]? with
  | none => none
  | some [] => none
  | some field => some (readCurrency field, readFlag field)

/-! ## The fields of the event -/

/-- The field of a ticker, if its price was read. -/
def fieldsOf (reads : Ticker → PricePoint) (i : Ticker) : List (List Char) :=
  if (reads i).price = 0 then [] else [(reads i).text]

/-- The pieces between the commas. -/
def eventPieces (reads : Ticker → PricePoint) : List (List Char) :=
  [Ticker.ANDTHEN, .FORIS4, .SPARK].flatMap (fieldsOf reads) ++ [(fieldsOf reads .ZILBIAN).flatten]

namespace Fitting

variable {reads reads' : Ticker → PricePoint}

theorem chars_field (h : Fitting reads) {i : Ticker} (hi : (reads i).price ≠ 0) :
    (currencyToStringExtra TMP_PRICE_STR_LEN (reads i).price (reads i).flag).chars =
      (reads i).text :=
  chars_currencyToStringExtra (h.price i) (h.fits i hi)

theorem chars_priceTicker (h : Fitting reads) (data : CString) (i : Ticker) :
    (priceTicker reads data i).chars =
      data.chars ++ if i ≠ .ZILBIAN then pendingText (fieldsOf reads i)
        else (fieldsOf reads i).flatten := by
  have hcomma : (CString.ofBuffer [',']).chars = [','] := by decide
  by_cases hread : (reads i).price = 0
  · simp [priceTicker, fieldsOf, hread, pendingText]
  · by_cases hi : i ≠ .ZILBIAN
    · simp only [priceTicker, if_neg hread, if_pos hi, chars_strcat, h.chars_field hread, hcomma]
      simp [fieldsOf, hread, pendingText]
    · simp only [priceTicker, if_neg hread, if_neg hi, chars_strcat, h.chars_field hread]
      simp [fieldsOf, hread]

theorem chars_ssePriceData (h : Fitting reads) :
    (ssePriceData reads).chars = priceHeader ++ [','].intercalate (eventPieces reads) ++
      ['\n', '\n'] := by
  have hpieces : (CString.ofBuffer priceHeader).chars = priceHeader ∧
      (CString.ofBuffer ['\n', '\n']).chars = ['\n', '\n'] := by decide
  simp only [ssePriceData, allTickers, List.foldl_cons, List.foldl_nil, chars_strcat,
    h.chars_priceTicker, hpieces, eventPieces, ← pendingText_append]
  simp [pendingText]

theorem comma_notMem_text (h : Fitting reads) (i : Ticker) : ',' ∉ (reads i).text := by
  obtain ⟨whole, fraction, htext, -, -, hdigit, -, -⟩ := currencyText_parts (h.price i)
  intro hmem
  have hmem : ',' ∈ whole ++ fraction ∨ ',' ∈ decimal (reads i).flag := by
    simpa [PricePoint.text, htext, or_assoc] using hmem
  rcases hmem with hmem | hmem
  · exact absurd (hdigit _ hmem) (by decide)
  · exact absurd (isDigit_of_mem_decimal hmem) (by decide)

theorem comma_notMem_pieces (h : Fitting reads) : ∀ piece ∈ eventPieces reads, ',' ∉ piece := by
  have hfield : ∀ i, ∀ piece ∈ fieldsOf reads i, ',' ∉ piece := by
    intro i piece hpiece
    unfold fieldsOf at hpiece
    split at hpiece
    · simp at hpiece
    · rw [List.mem_singleton.mp hpiece]
      exact h.comma_notMem_text i
  intro piece hpiece
  rcases List.mem_append.mp hpiece with hpiece | hpiece
  · obtain ⟨i, -, hpiece⟩ := List.mem_flatMap.mp hpiece
    exact hfield i piece hpiece
  · rw [List.mem_singleton.mp hpiece]
    intro hmem
    obtain ⟨piece, hpiece, hmem⟩ := List.mem_flatten.mp hmem
    exact hfield _ piece hpiece hmem

/-- A client splits the data into the pieces. -/
theorem dataFields_ssePriceData (h : Fitting reads) :
    dataFields (ssePriceData reads) = eventPieces reads := by
  obtain ⟨body, hbody, hline, -⟩ := Continues.foldl (priceTicker_continues reads) allTickers
    (.ofBuffer priceHeader)
  have hchars := h.chars_ssePriceData
  have hpieces : (CString.ofBuffer priceHeader).chars = priceHeader ∧
      (CString.ofBuffer ['\n', '\n']).chars = ['\n', '\n'] := by decide
  rw [ssePriceData, chars_strcat, hbody, hpieces.1, hpieces.2] at hchars
  obtain rfl := List.append_cancel_left (List.append_cancel_right hchars)
  have htake := (@takeWhile_ne _ _ ['\n'] hline.1).1
  rw [dataFields, h.chars_ssePriceData, List.append_assoc, List.drop_left, htake]
  exact List.splitOn_intercalate ',' h.comma_notMem_pieces (by simp [eventPieces])

/-- The text of an event has the same pieces as any event with that text. -/
theorem pieces_eq (h : Fitting reads) (h' : Fitting reads')
    (heq : ssePriceData reads' = ssePriceData reads) : eventPieces reads' = eventPieces reads := by
  rw [← h'.dataFields_ssePriceData, heq, h.dataFields_ssePriceData]

end Fitting

/-! ## Decoding the event -/

theorem text_ne_nil (p : PricePoint) : p.text ≠ [] := by simp [PricePoint.text]

theorem fieldsOf_cases (reads : Ticker → PricePoint) (i : Ticker) :
    (reads i).price = 0 ∧ fieldsOf reads i = [] ∨
      (reads i).price ≠ 0 ∧ fieldsOf reads i = [(reads i).text] := by
  by_cases hread : (reads i).price = 0 <;> simp [fieldsOf, hread]

namespace Fitting

variable {reads reads' : Ticker → PricePoint}

/-- The text of a price is read as its outcome. -/
theorem outcome_of_read (h : Fitting reads) {i : Ticker} (hi : (reads i).price ≠ 0) :
    (reads i).outcome = some (readCurrency (reads i).text, readFlag (reads i).text) := by
  rw [PricePoint.outcome, if_neg hi, PricePoint.text, readCurrency_currencyText (h.price i),
    readFlag_currencyText (h.price i)]

/-- A field is the text of one outcome only. -/
theorem outcome_eq (h : Fitting reads) (h' : Fitting reads') {i : Ticker}
    (heq : fieldsOf reads' i = fieldsOf reads i) : (reads' i).outcome = (reads i).outcome := by
  rcases fieldsOf_cases reads i with ⟨hread, hfields⟩ | ⟨hread, hfields⟩ <;>
    rcases fieldsOf_cases reads' i with ⟨hread', hfields'⟩ | ⟨hread', hfields'⟩ <;>
    rw [hfields, hfields'] at heq
  · simp [PricePoint.outcome, hread, hread']
  · simp at heq
  · simp at heq
  · have htext : (reads' i).text = (reads i).text := by simpa using heq
    rw [h.outcome_of_read hread, h'.outcome_of_read hread', htext]

/-- Which fields an event has is clear when the first three tickers have all theirs or none. -/
theorem fieldsOf_eq (h : Fitting reads) (h' : Fitting reads')
    (heq : ssePriceData reads' = ssePriceData reads)
    (hreads : (∀ i ≠ .ZILBIAN, (reads i).price ≠ 0) ∨ ∀ i ≠ .ZILBIAN, (reads i).price = 0)
    (i : Ticker) : fieldsOf reads' i = fieldsOf reads i := by
  obtain ⟨hfirst, hlast⟩ := List.append_inj' (h.pieces_eq h' heq) rfl
  simp only [List.flatMap_cons, List.flatMap_nil, List.append_nil] at hfirst
  have hA := fieldsOf_cases reads' .ANDTHEN
  have hF := fieldsOf_cases reads' .FORIS4
  have hS := fieldsOf_cases reads' .SPARK
  cases i with
  | ZILBIAN =>
    have hne := text_ne_nil (reads .ZILBIAN)
    have hne' := text_ne_nil (reads' .ZILBIAN)
    rcases fieldsOf_cases reads .ZILBIAN with ⟨-, hfields⟩ | ⟨-, hfields⟩ <;>
      rcases fieldsOf_cases reads' .ZILBIAN with ⟨-, hfields'⟩ | ⟨-, hfields'⟩ <;>
      simp_all
  | _ =>
    rcases hreads with hreads | hreads
    · have hone : ∀ i ≠ .ZILBIAN, fieldsOf reads i = [(reads i).text] := fun i hi =>
        if_neg (hreads i hi)
      rw [hone .ANDTHEN (by decide), hone .FORIS4 (by decide), hone .SPARK (by decide)] at hfirst
      -- three fields need three tickers
      rcases hA with ⟨-, hA⟩ | ⟨-, hA⟩ <;> rcases hF with ⟨-, hF⟩ | ⟨-, hF⟩ <;>
        rcases hS with ⟨-, hS⟩ | ⟨-, hS⟩ <;> simp_all
    · have hnil : ∀ i ≠ .ZILBIAN, fieldsOf reads i = [] := fun i hi => if_pos (hreads i hi)
      rw [hnil .ANDTHEN (by decide), hnil .FORIS4 (by decide), hnil .SPARK (by decide)] at hfirst
      simp_all

/-- The reads with those of two tickers exchanged. -/
def exchanged (reads : Ticker → PricePoint) (a b : Ticker) (i : Ticker) : PricePoint :=
  if i = a then reads b else if i = b then reads a else reads i

theorem exchange (h : Fitting reads) (a b : Ticker) : Fitting (exchanged reads a b) := by
  have hall : ∀ i, ∃ j, exchanged reads a b i = reads j := by
    intro i
    unfold exchanged
    split_ifs
    · exact ⟨b, rfl⟩
    · exact ⟨a, rfl⟩
    · exact ⟨i, rfl⟩
  refine ⟨fun i => ?_, fun i => ?_, fun i hi => ?_⟩ <;> obtain ⟨j, hj⟩ := hall i <;> rw [hj]
  · exact h.price j
  · exact h.flag j
  · exact h.fits j (hj ▸ hi)

/-- A field can move to a neighbor whose read failed. -/
theorem ssePriceData_exchanged (h : Fitting reads) {a b : Ticker}
    (hab : (a, b) = (.ANDTHEN, .FORIS4) ∨ (a, b) = (.FORIS4, .SPARK))
    (hfail : (reads a).price = 0 ∨ (reads b).price = 0) :
    ssePriceData (exchanged reads a b) = ssePriceData reads := by
  have hpieces : eventPieces (exchanged reads a b) = eventPieces reads := by
    rcases hab with hab | hab <;> obtain ⟨rfl, rfl⟩ := Prod.mk.inj hab <;>
      rcases hfail with hfail | hfail <;>
      simp [eventPieces, fieldsOf, exchanged, hfail]
  exact CString.ext (by
    rw [(h.exchange a b).chars_ssePriceData, h.chars_ssePriceData, hpieces])

/-- The text determines what was read exactly when the reads of the first three tickers all
succeeded or all failed. -/
theorem decodes_iff (h : Fitting reads) :
    (∀ reads', Fitting reads' → ssePriceData reads' = ssePriceData reads →
      ∀ i, (reads' i).outcome = (reads i).outcome) ↔
    (∀ i ≠ .ZILBIAN, (reads i).price ≠ 0) ∨ ∀ i ≠ .ZILBIAN, (reads i).price = 0 := by
  constructor
  · intro hdecodes
    have hsame : ∀ a b, (a, b) = (.ANDTHEN, .FORIS4) ∨ (a, b) = (.FORIS4, .SPARK) →
        ((reads a).price = 0 ↔ (reads b).price = 0) := by
      intro a b hab
      have hout : ((reads a).price = 0 ∨ (reads b).price = 0) →
          (reads b).outcome = (reads a).outcome := by
        intro hfail
        have := hdecodes _ (h.exchange a b) (h.ssePriceData_exchanged hab hfail) a
        simpa [Fitting.exchanged] using this
      by_cases ha : (reads a).price = 0 <;> by_cases hb : (reads b).price = 0 <;>
        simp_all [PricePoint.outcome]
    have h₁ := hsame _ _ (.inl rfl)
    have h₂ := hsame _ _ (.inr rfl)
    by_cases hA : (reads .ANDTHEN).price = 0
    · right
      rintro (_ | _ | _ | _) hi <;> simp_all
    · left
      rintro (_ | _ | _ | _) hi <;> simp_all
  · intro hreads reads' h' heq i
    exact h.outcome_eq h' (h.fieldsOf_eq h' heq hreads i)

/-- The field at a place, as a client reads it. -/
theorem readByPosition_eq (h : Fitting reads) {i j : Ticker}
    (hplace : (eventPieces reads)[allTickers.idxOf i]? = some (fieldsOf reads j).flatten) :
    readByPosition (ssePriceData reads) i = (reads j).outcome := by
  rw [readByPosition, h.dataFields_ssePriceData, hplace]
  obtain ⟨hread, hfields⟩ | ⟨hread, hfields⟩ := fieldsOf_cases reads j
  · simp [hfields, PricePoint.outcome, hread]
  · obtain ⟨c, text, htext⟩ := List.exists_cons_of_ne_nil (text_ne_nil (reads j))
    rw [hfields, List.flatten_singleton, h.outcome_of_read hread, htext]

/-- With the fields of the first three tickers, each field is at the place of its ticker. -/
theorem readByPosition_of_read (h : Fitting reads) (hreads : ∀ i ≠ .ZILBIAN, (reads i).price ≠ 0)
    (i : Ticker) : readByPosition (ssePriceData reads) i = (reads i).outcome := by
  have hone : ∀ i ≠ .ZILBIAN, fieldsOf reads i = [(reads i).text] := fun i hi =>
    if_neg (hreads i hi)
  apply h.readByPosition_eq
  simp only [eventPieces, List.flatMap_cons, List.flatMap_nil, hone .ANDTHEN (by decide),
    hone .FORIS4 (by decide), hone .SPARK (by decide)]
  cases i with
  | ZILBIAN => rfl
  | _ => simp [hone, allTickers]

/-- The first field is taken for the price of the first ticker. -/
theorem readByPosition_of_fail (h : Fitting reads)
    (hreads : ∀ i ≠ .ZILBIAN, (reads i).price = 0) :
    readByPosition (ssePriceData reads) .ANDTHEN = (reads .ZILBIAN).outcome ∧
      ∀ i ≠ .ANDTHEN, readByPosition (ssePriceData reads) i = none := by
  have hnil : ∀ i ≠ .ZILBIAN, fieldsOf reads i = [] := fun i hi => if_pos (hreads i hi)
  have hpieces : eventPieces reads = [(fieldsOf reads .ZILBIAN).flatten] := by
    simp [eventPieces, hnil]
  constructor
  · exact h.readByPosition_eq (by rw [hpieces]; rfl)
  · intro i hi
    rw [readByPosition, h.dataFields_ssePriceData, hpieces]
    cases i with
    | ANDTHEN => exact absurd rfl hi
    | _ => rfl

end Fitting

/-- The text of an event determines what was read, and a client that goes by the position of the
fields reads it, exactly when the first three tickers were read or none was. -/
theorem price_event_decodes_iff (reads : Ticker → PricePoint) (h : Fitting reads) :
    ((∀ reads', Fitting reads' → ssePriceData reads' = ssePriceData reads →
      ∀ i, (reads' i).outcome = (reads i).outcome) ∧
      ∀ i, readByPosition (ssePriceData reads) i = (reads i).outcome) ↔
    (∀ i ≠ .ZILBIAN, (reads i).price ≠ 0) ∨ ∀ i, (reads i).price = 0 := by
  rw [h.decodes_iff]
  constructor
  · rintro ⟨hreads | hreads, hposition⟩
    · exact .inl hreads
    · right
      have hfirst := (h.readByPosition_of_fail hreads).1.symm.trans (hposition .ANDTHEN)
      intro i
      by_cases hi : i = .ZILBIAN
      · subst hi
        simpa [PricePoint.outcome, hreads] using hfirst
      · exact hreads i hi
  · rintro (hreads | hreads)
    · exact ⟨.inl hreads, h.readByPosition_of_read hreads⟩
    · refine ⟨.inr fun i _ => hreads i, fun i => ?_⟩
      have hnone : ∀ i, (reads i).outcome = none := fun i => if_pos (hreads i)
      obtain ⟨hfirst, hrest⟩ := h.readByPosition_of_fail fun i _ => hreads i
      by_cases hi : i = .ANDTHEN
      · rw [hi, hfirst, hnone, hnone]
      · rw [hrest i hi, hnone]

/-- The price of one ticker is read. -/
def onlyRead (i : Ticker) : Ticker → PricePoint := fun j => if j = i then ⟨2500000, 1⟩ else ⟨0, 0⟩

theorem fitting_onlyRead (i : Ticker) : Fitting (onlyRead i) := by
  constructor <;> intro j <;> cases i <;> cases j <;> decide

/-- All prices but that of the last ticker are read. -/
def firstThreeRead : Ticker → PricePoint := fun i =>
  if i = .ZILBIAN then ⟨0, 0⟩ else ⟨2500000, 1⟩

theorem price_event_decodes_first_three :
    (∀ reads', Fitting reads' → ssePriceData reads' = ssePriceData firstThreeRead →
      ∀ i, (reads' i).outcome = (firstThreeRead i).outcome) ∧
    ∀ i, readByPosition (ssePriceData firstThreeRead) i = (firstThreeRead i).outcome := by
  have hfit : Fitting firstThreeRead := by
    constructor <;> intro i <;> cases i <;> decide
  exact (price_event_decodes_iff _ hfit).mpr (.inl fun i hi => by simp [firstThreeRead, hi])

/-- A price is shown under the name of another ticker. -/
theorem price_event_same_text : ¬ ∀ reads reads', Fitting reads → Fitting reads' →
    (∃ i, (reads i).outcome ≠ (reads' i).outcome) → ssePriceData reads ≠ ssePriceData reads' := by
  intro hdistinct
  refine hdistinct (onlyRead .ANDTHEN) (onlyRead .FORIS4) (fitting_onlyRead _) (fitting_onlyRead _)
    ⟨.ANDTHEN, by decide⟩ ?_
  decide

/-! ## The size of the event -/

/-- The width of a field with its comma. -/
def fieldWidth (reads : Ticker → PricePoint) (i : Ticker) : Nat :=
  if (reads i).price = 0 then 0
  else digits ((reads i).price / SCALE_FACTOR) + digits (reads i).flag + 8 +
    if i ≠ .ZILBIAN then 1 else 0

/-- Every text is whole and stays in its buffer, at each turn of the loop. -/
structure FitsBuffers (reads : Ticker → PricePoint) : Prop where
  whole : ∀ i, (reads i).price ≠ 0 →
    (currencyToStringExtra TMP_PRICE_STR_LEN (reads i).price (reads i).flag).chars = (reads i).text
  turns : ∀ done, done <+: allTickers →
    (done.foldl (priceTicker reads) (.ofBuffer priceHeader)).length + 1 ≤ SSE_PRICE_DATA_LEN
  event : (ssePriceData reads).length + 1 ≤ SSE_PRICE_DATA_LEN

theorem length_text {p : PricePoint} (hp : p.price < 2 ^ 64) :
    p.text.length = digits (p.price / SCALE_FACTOR) + digits p.flag + 8 := by
  have hlen : (decimal (p.price % SCALE_FACTOR)).length ≤ 6 :=
    length_decimal_le (by decide) (Nat.mod_lt _ (by decide))
  rw [PricePoint.text, currencyText_eq hp]
  simp only [List.length_append, List.length_cons, length_zeroPad hlen, length_decimal]
  omega

theorem Fitting.heldWidth_eq {reads : Ticker → PricePoint} (h : Fitting reads) :
    heldWidth reads = fieldWidth reads := by
  funext i
  unfold heldWidth fieldWidth
  split_ifs with hread
  · rfl
  all_goals
    have hfits := h.fits i hread
    rw [length_text (h.price i)] at hfits
    rw [Nat.min_eq_right (Nat.le_sub_one_of_lt hfits)]

theorem Fitting.length_foldl {reads : Ticker → PricePoint} (h : Fitting reads) (is : List Ticker)
    (data : CString) : (is.foldl (priceTicker reads) data).length =
      data.length + (is.map (fieldWidth reads)).sum := by
  rw [length_foldl_priceTicker, h.heldWidth_eq]

theorem Fitting.length_ssePriceData {reads : Ticker → PricePoint} (h : Fitting reads) :
    (ssePriceData reads).length = 17 + (allTickers.map (fieldWidth reads)).sum := by
  rw [TradeServer.length_ssePriceData, h.heldWidth_eq]

/-- A text that is whole in `tmp_str` has at most 13 digits before and behind its dot. -/
theorem digits_le_of_whole {p : PricePoint} (hp : p.price < 2 ^ 64)
    (hwhole : (currencyToStringExtra TMP_PRICE_STR_LEN p.price p.flag).chars = p.text) :
    digits (p.price / SCALE_FACTOR) + digits p.flag ≤ 13 := by
  have hcut := length_snprintf_le TMP_PRICE_STR_LEN (currencyText p.price ++ ':' :: decimal p.flag)
  rw [← currencyToStringExtra_eq _ hp, CString.length, hwhole, length_text hp,
    TMP_PRICE_STR_LEN] at hcut
  omega

theorem fitting_of_digits_le {reads : Ticker → PricePoint}
    (hreads : ∀ i, (reads i).price < 2 ^ 64 ∧ (reads i).flag < 2 ^ 8)
    (hdigits : ∀ i, (reads i).price ≠ 0 →
      digits ((reads i).price / SCALE_FACTOR) + digits (reads i).flag ≤ 13) : Fitting reads := by
  refine ⟨fun i => (hreads i).1, fun i => (hreads i).2, fun i hi => ?_⟩
  have := hdigits i hi
  rw [length_text (hreads i).1, TMP_PRICE_STR_LEN]
  omega

/-- The buffers hold the text exactly when no price has more than 13 digits with its flag, and all
fields have 71 characters at most. -/
theorem price_event_fits_iff (reads : Ticker → PricePoint)
    (hreads : ∀ i, (reads i).price < 2 ^ 64 ∧ (reads i).flag < 2 ^ 8) :
    FitsBuffers reads ↔
    (∀ i, (reads i).price ≠ 0 →
      digits ((reads i).price / SCALE_FACTOR) + digits (reads i).flag ≤ 13) ∧
    (allTickers.map (fieldWidth reads)).sum ≤ 71 := by
  constructor
  · intro hfits
    have hdigits : ∀ i, (reads i).price ≠ 0 →
        digits ((reads i).price / SCALE_FACTOR) + digits (reads i).flag ≤ 13 :=
      fun i hi => digits_le_of_whole (hreads i).1 (hfits.whole i hi)
    have hevent := hfits.event
    rw [(fitting_of_digits_le hreads hdigits).length_ssePriceData, SSE_PRICE_DATA_LEN] at hevent
    exact ⟨hdigits, by omega⟩
  · rintro ⟨hdigits, hsum⟩
    have h := fitting_of_digits_le hreads hdigits
    refine ⟨fun i hi => h.chars_field hi, fun done hdone => ?_, ?_⟩
    · obtain ⟨rest, hrest⟩ := hdone
      have hheader : (CString.ofBuffer priceHeader).length = 15 := by decide
      rw [← hrest, List.map_append, List.sum_append] at hsum
      rw [h.length_foldl, hheader, SSE_PRICE_DATA_LEN]
      omega
    · rw [h.length_ssePriceData, SSE_PRICE_DATA_LEN]
      omega

/-- Every ticker is at two and a half. -/
def lowPrices : Ticker → PricePoint := fun _ =>
  readPriceSource ⟨0, 0⟩ (some (5 * 2 ^ 63)) (some 1)

theorem price_event_fits_low :
    FitsBuffers lowPrices ↔
    (∀ i, (lowPrices i).price ≠ 0 →
      digits ((lowPrices i).price / SCALE_FACTOR) + digits (lowPrices i).flag ≤ 13) ∧
    (allTickers.map (fieldWidth lowPrices)).sum ≤ 71 :=
  price_event_fits_iff lowPrices fun i => by cases i <;> decide

/-- Every ticker is at `2 ^ 27`. -/
def highPrices : Ticker → PricePoint := fun _ =>
  readPriceSource ⟨0, 0⟩ (some (2 ^ 27 * 2 ^ 64)) (some 0)

/-- Four prices of nine digits do not fit. -/
theorem price_event_overflows :
    (∀ i, (highPrices i).price < 2 ^ 64 ∧ (highPrices i).flag < 2 ^ 8) ∧
      (ssePriceData highPrices).length + 1 = 93 ∧ ¬ FitsBuffers highPrices := by
  have hlen : (ssePriceData highPrices).length + 1 = 93 := by decide
  refine ⟨fun i => by cases i <;> decide, hlen, fun h => ?_⟩
  have := h.event
  rw [hlen] at this
  exact absurd this (by decide)

end TradeServer
