import TradeServer.Library.Records
import TradeServer.Service.Fills

/-!
# Fill data for the clients

A filled order becomes a record in the list of its ticker. The lists are sent together when
one of them is full or when enough time has passed since they were sent last. An order has
`filled_at` as the bytes of its buffer.
-/

namespace TradeServer

open Library

def MAX_FILL_DATA_SIZE : Nat := 2048

def FILL_DISPATCH_INTERVAL : Int := 2

/-- The size of `fill_data_buffer`. -/
def FILL_DATA_BUFFER_SIZE : Nat := MAX_FILL_DATA_SIZE * 4 + 20 * 4

structure FilledOrder extends TradeOrder where
  filledAt : List Char

structure FillData where
  fills : Ticker → CString
  fillCount : Nat

/-- The lists, the time they were sent last, and the texts sent so far. -/
structure FillBatch where
  fillData : FillData
  lastFillDispatchTime : Int
  payloads : List CString

def getTickerIdx (tickerName : CString) : Option Ticker :=
  allTickers.find? (tickers · = tickerName)

/-- What `[%u,"%c",%u,%llu,%s]` prints for an order. -/
def fillRecord (order : FilledOrder) : List Char :=
  '[' :: decimal order.userId ++ [',', '"', order.side, '"', ','] ++ decimal order.amount ++
    [','] ++ decimal order.price ++ [','] ++ (CString.ofBuffer (order.filledAt.drop 11)).chars ++
    [']']

/-- Writes past the lists when there is no such ticker. -/
def updateFillData (fillData : FillData) (order : FilledOrder) : Option (FillData × Bool) := do
  let tickerIdx ← getTickerIdx order.ticker
  let fillStr := snprintf 128 (fillRecord order ++ [','])
  if fillStr.length + (fillData.fills tickerIdx).length ≥ MAX_FILL_DATA_SIZE then
    some (fillData, false)
  else
    some ({ fills := Function.update fillData.fills tickerIdx
              (strcat (fillData.fills tickerIdx) fillStr)
            fillCount := (fillData.fillCount + 1) % 2 ^ 16 }, true)

/-- `fills[i]` after its last comma was set to NUL; `len` is an `unsigned short`. -/
def withoutLastComma (fill : CString) : CString :=
  let len := fill.length % 2 ^ 16
  if len ≠ 0 then .ofBuffer (fill.chars.take (len - 1)) else fill

/-- The loop body of `dispatch_fill_data`, with `fill_data_buffer`. -/
def dispatchTicker (state : CString × FillData) (i : Ticker) : CString × FillData :=
  let (buffer, fillData) := state
  let buffer := strcat buffer (.ofBuffer ['"'])
  let buffer := strcat buffer (tickers i)
  let buffer := strcat buffer (.ofBuffer ['"', ':', '['])
  let buffer := strcat buffer (withoutLastComma (fillData.fills i))
  let buffer := strcat buffer (.ofBuffer [']'])
  let buffer := if i ≠ .ZILBIAN then strcat buffer (.ofBuffer [',']) else buffer
  (buffer, { fillData with fills := Function.update fillData.fills i (.ofBuffer []) })

/-- The text that is sent, and the lists after it. -/
def dispatchFillData (fillData : FillData) : CString × FillData :=
  let (buffer, fillData) := allTickers.foldl dispatchTicker (.ofBuffer ['{'], fillData)
  (strcat buffer (.ofBuffer ['}']), { fillData with fillCount := 0 })

/-- `dispatch_fill_data` in place; it has no return statement, so `result` can be any time. -/
def FillBatch.dispatch (b : FillBatch) (result : Int) : FillBatch :=
  let (payload, fillData) := dispatchFillData b.fillData
  ⟨fillData, result, b.payloads ++ [payload]⟩

/-- A call of `process_order_for_clients`, with the clock at the call. -/
structure FillCall where
  order : FilledOrder
  now : Int
  /-- What the call takes as the result of `dispatch_fill_data`. -/
  result : Int

def processOrderForClients (b : FillBatch) (call : FillCall) : Option FillBatch := do
  let (fillData, added) ← updateFillData b.fillData call.order
  let b := { b with fillData := fillData }
  if !added then
    let b := b.dispatch call.result
    let (fillData, _) ← updateFillData b.fillData call.order
    some { b with fillData := fillData }
  else if call.now > b.lastFillDispatchTime + FILL_DISPATCH_INTERVAL then
    some (b.dispatch call.result)
  else some b

/-- The start of the program. -/
def fillInit : FillBatch := ⟨⟨fun _ => .ofBuffer [], 0⟩, 0, []⟩

/-- The start of the service, with the clock at `trade_service_init`. -/
def fillStart (start : Int) : FillBatch := { fillInit with lastFillDispatchTime := start }

def fillRun (b : FillBatch) (calls : List FillCall) : Option FillBatch :=
  calls.foldlM processOrderForClients b

/-- A timestamp has digits where this text has zeros. -/
def timestampPattern : List Char :=
  ['0', '0', '0', '0', '-', '0', '0', '-', '0', '0', ' ', '0', '0', ':', '0', '0', ':', '0', '0']

def IsTimestamp (text : List Char) : Prop :=
  List.Forall₂ (fun p c => if p = '0' then c.isDigit = true else c = p) timestampPattern text

/-- An order that `process_order_for_clients` can get; `strncpy` fills an empty `filled_at` with
NUL. -/
structure Fillable (order : FilledOrder) : Prop where
  ticker : ∃ i, order.ticker = tickers i
  side : order.side = 'B' ∨ order.side = 'S'
  userId : order.userId < 2 ^ 32
  amount : order.amount < 2 ^ 32
  price : order.price < 2 ^ 64
  filledAt : order.filledAt = List.replicate 20 (Char.ofNat 0) ∨
    ∃ text, order.filledAt = text ++ [Char.ofNat 0] ∧ IsTimestamp text

/-- The records of a ticker in a text that was sent. -/
def sentRecords (i : Ticker) (payload : CString) : List (List Char) :=
  ((readLists payload.chars).filter (·.1 = (tickers i).chars)).map Prod.snd

/-- The records of the orders of a ticker. -/
def recordsOf (i : Ticker) (calls : List FillCall) : List (List Char) :=
  (calls.filter (·.order.ticker = tickers i)).map (fillRecord ·.order)

/-! ## The record of an order -/

theorem IsTimestamp.mem_time {text : List Char} (h : IsTimestamp text) {c : Char}
    (hc : c ∈ text.drop 11) : c.isDigit ∨ c = ':' := by
  have hdrop := List.forall₂_drop 11 h
  obtain ⟨i, hi, rfl⟩ := List.getElem_of_mem hc
  have hlen : i < (timestampPattern.drop 11).length := by rwa [hdrop.length_eq]
  have hi' := (List.forall₂_iff_get.mp hdrop).2 i hlen hi
  have hp : ∀ p ∈ timestampPattern.drop 11, p = '0' ∨ p = ':' := by simp [timestampPattern]
  rcases hp _ (List.get_mem _ ⟨i, hlen⟩) with hp | hp
  · exact .inl (by rwa [if_pos hp] at hi')
  · rw [if_neg (by rw [hp]; decide)] at hi'
    exact .inr (hi'.trans hp)

/-- The time of day is copied up to the terminator. -/
theorem IsTimestamp.chars_time {text : List Char} (h : IsTimestamp text) :
    (CString.ofBuffer ((text ++ [Char.ofNat 0]).drop 11)).chars = text.drop 11 := by
  have hlen : text.length = 19 := by simpa [timestampPattern] using h.length_eq.symm
  have hbyte : ∀ c ∈ text.drop 11, IsByte c := by
    intro c hc
    rcases h.mem_time hc with hc | rfl
    · exact isByte_of_isDigit hc
    · decide
  rw [List.drop_append_of_le_length (by omega)]
  exact CString.chars_ofBuffer_append hbyte []

namespace Fillable

variable {order : FilledOrder}

/-- The text of `filled_at + 11` is a time of day or empty. -/
theorem time_chars (h : Fillable order) :
    (CString.ofBuffer (order.filledAt.drop 11)).chars.length ≤ 8 ∧
      ∀ c ∈ (CString.ofBuffer (order.filledAt.drop 11)).chars, c.isDigit ∨ c = ':' := by
  rcases h.filledAt with hempty | ⟨text, heq, htext⟩
  · have hnone : (CString.ofBuffer (order.filledAt.drop 11)).chars = [] := by rw [hempty]; decide
    simp [hnone]
  · have hlen : text.length = 19 := by simpa [timestampPattern] using htext.length_eq.symm
    rw [heq, htext.chars_time]
    exact ⟨by simp [hlen], fun c => htext.mem_time⟩

/-- Between its brackets a record has digits, the side, and the separators. -/
theorem exists_body (h : Fillable order) :
    ∃ body, fillRecord order = '[' :: body ++ [']'] ∧ body.length ≤ 55 ∧
      ∀ c ∈ body, c.isDigit ∨ c ∈ [',', '"', 'B', 'S', ':'] := by
  obtain ⟨hlen, htime⟩ := h.time_chars
  have hu := length_decimal_le (show 0 < 10 by omega) (h.userId.trans (by omega))
  have ha := length_decimal_le (show 0 < 10 by omega) (h.amount.trans (by omega))
  have hp := length_decimal_le (show 0 < 20 by omega) (h.price.trans (by omega))
  refine ⟨decimal order.userId ++ [',', '"', order.side, '"', ','] ++ decimal order.amount ++
    [','] ++ decimal order.price ++ [','] ++ (CString.ofBuffer (order.filledAt.drop 11)).chars,
    by simp [fillRecord], by simp; omega, fun c hc => ?_⟩
  have hside := h.side
  have hdigit := fun n => isDigit_of_mem_decimal (n := n) (c := c)
  have := htime c
  simp only [List.mem_append, List.mem_cons, List.not_mem_nil, or_false] at hc ⊢
  grind

theorem isRecord (h : Fillable order) : IsRecord (fillRecord order) := by
  obtain ⟨body, heq, -, hbody⟩ := h.exists_body
  refine ⟨body, heq, fun hmem => ?_⟩
  exact absurd (hbody _ hmem) (by decide)

/-- The record and its comma fit the buffer, so nothing is cut off. -/
theorem chars_fillStr (h : Fillable order) :
    (snprintf 128 (fillRecord order ++ [','])).chars = fillRecord order ++ [','] := by
  obtain ⟨body, heq, hlen, hbody⟩ := h.exists_body
  refine chars_snprintf (by simp [heq]; omega) fun c hc => ?_
  have hc : c ∈ ['[', ']', ','] ∨ c ∈ body := by simp [heq] at hc ⊢; tauto
  rcases hc with hc | hc
  · have hall : ∀ c ∈ ['[', ']', ','], IsByte c := by simp [IsByte]
    exact hall c hc
  · rcases hbody c hc with hc | hc
    · exact isByte_of_isDigit hc
    · have hall : ∀ c ∈ [',', '"', 'B', 'S', ':'], IsByte c := by simp [IsByte]
      exact hall c hc

theorem length_fillStr (h : Fillable order) :
    (snprintf 128 (fillRecord order ++ [','])).length ≤ 58 := by
  obtain ⟨body, heq, hlen, -⟩ := h.exists_body
  rw [CString.length, h.chars_fillStr, heq]
  simp
  omega

end Fillable

/-! ## The lists and what is sent of them -/

theorem isAlphanum_tickers (i : Ticker) : ∀ c ∈ (tickers i).chars, c.isAlphanum := by
  have hall : (tickers i).chars.all Char.isAlphanum = true := by cases i <;> decide
  exact List.all_eq_true.mp hall

theorem tickers_injective : Function.Injective tickers := by
  intro i j h
  cases i <;> cases j <;> first | rfl | exact absurd h (by decide)

theorem getTickerIdx_tickers (i : Ticker) : getTickerIdx (tickers i) = some i := by
  cases i <;> decide

/-- The buffer of a list has its records, each with a comma, and room for the terminator. -/
structure HoldsRecords (fill : CString) (rs : List (List Char)) : Prop where
  text : fill.chars = pendingText rs
  lt : fill.length < MAX_FILL_DATA_SIZE
  isRecord : ∀ r ∈ rs, IsRecord r

namespace HoldsRecords

variable {fill : CString} {rs : List (List Char)} {order : FilledOrder}

theorem nil : HoldsRecords (.ofBuffer []) [] where
  text := rfl
  lt := (by decide : 0 < MAX_FILL_DATA_SIZE)
  isRecord _ hr := absurd hr List.not_mem_nil

theorem readRecords_eq (h : HoldsRecords fill rs) : readRecords fill.chars = rs := by
  rw [h.text, readRecords_pendingText h.isRecord]

theorem append (h : HoldsRecords fill rs) (ho : Fillable order)
    (hroom : (snprintf 128 (fillRecord order ++ [','])).length + fill.length < MAX_FILL_DATA_SIZE) :
    HoldsRecords (strcat fill (snprintf 128 (fillRecord order ++ [','])))
      (rs ++ [fillRecord order]) where
  text := by simp [ho.chars_fillStr, h.text, pendingText]
  lt := by rw [length_strcat]; omega
  isRecord r hr := (List.mem_append.mp hr).elim (h.isRecord r)
    fun hr => List.mem_singleton.mp hr ▸ ho.isRecord

/-- The last comma is taken away, if there is one. -/
theorem chars_withoutLastComma (h : HoldsRecords fill rs) :
    (withoutLastComma fill).chars = [','].intercalate rs := by
  have hmod : fill.length % 2 ^ 16 = fill.length := Nat.mod_eq_of_lt (h.lt.trans (by decide))
  rw [withoutLastComma, hmod, ← dropLast_pendingText, ← h.text]
  by_cases hlen : fill.length = 0
  · simp [List.length_eq_zero_iff.mp hlen, CString.length]
  · rw [if_pos hlen, List.dropLast_eq_take]
    exact CString.chars_ofBuffer fun c hc => fill.bytes c (List.mem_of_mem_take hc)

end HoldsRecords

/-- The lists of all tickers hold their records. -/
def Holding (fillData : FillData) (rs : Ticker → List (List Char)) : Prop :=
  ∀ i, HoldsRecords (fillData.fills i) (rs i)

/-- What stands around the list of a ticker in a JSON text. -/
theorem chars_memberPieces : (CString.ofBuffer ['"']).chars = ['"'] ∧
    (CString.ofBuffer [']']).chars = [']'] ∧ (CString.ofBuffer [',']).chars = [','] ∧
    (CString.ofBuffer ['"', ':', '[']).chars = ['"', ':', '['] := by decide

namespace Holding

variable {fillData : FillData} {rs : Ticker → List (List Char)} {order : FilledOrder} {i : Ticker}

theorem update (h : Holding fillData rs) {fill : CString} {ts : List (List Char)}
    (hfill : HoldsRecords fill ts) (n : Nat) :
    Holding ⟨Function.update fillData.fills i fill, n⟩ (Function.update rs i ts) := by
  intro j
  by_cases hj : j = i
  · subst hj
    simpa using hfill
  · simpa [hj] using h j

/-- Either the record is appended or there is no room for it. -/
theorem updateFillData (h : Holding fillData rs) (ho : Fillable order)
    (hi : order.ticker = tickers i) :
    (∃ fillData', TradeServer.updateFillData fillData order = some (fillData', true) ∧
      Holding fillData' (Function.update rs i (rs i ++ [fillRecord order]))) ∨
    TradeServer.updateFillData fillData order = some (fillData, false) ∧
      MAX_FILL_DATA_SIZE ≤ 58 + (fillData.fills i).length := by
  have hlen := ho.length_fillStr
  by_cases hfull : (snprintf 128 (fillRecord order ++ [','])).length + (fillData.fills i).length ≥
      MAX_FILL_DATA_SIZE
  · right
    refine ⟨?_, by omega⟩
    simp only [TradeServer.updateFillData, hi, getTickerIdx_tickers, if_pos hfull,
      Option.bind_eq_bind, Option.bind_some]
  · left
    refine ⟨_, ?_, h.update ((h i).append ho (by omega)) ((fillData.fillCount + 1) % 2 ^ 16)⟩
    simp only [TradeServer.updateFillData, hi, getTickerIdx_tickers, if_neg hfull,
      Option.bind_eq_bind, Option.bind_some]

theorem chars_dispatchTicker (h : Holding fillData rs) (buffer : CString) (i : Ticker) :
    (TradeServer.dispatchTicker (buffer, fillData) i).1.chars =
      buffer.chars ++ (listText (tickers i).chars (rs i) ++
        if i ≠ .ZILBIAN then [','] else []) := by
  have htext := (h i).chars_withoutLastComma
  by_cases hi : i ≠ .ZILBIAN <;>
    simp only [TradeServer.dispatchTicker, chars_strcat, htext, chars_memberPieces, listText,
      if_pos hi, if_neg hi, List.append_assoc, List.cons_append, List.nil_append,
      List.append_nil]

theorem foldl_dispatchTicker (h : Holding fillData rs) (buffer : CString) {is : List Ticker}
    (his : is.Nodup) :
    (is.foldl TradeServer.dispatchTicker (buffer, fillData)).1.chars = buffer.chars ++
        is.flatMap (fun i => listText (tickers i).chars (rs i) ++
          if i ≠ .ZILBIAN then [','] else []) ∧
      Holding (is.foldl TradeServer.dispatchTicker (buffer, fillData)).2
        (fun i => if i ∈ is then [] else rs i) := by
  induction is generalizing buffer fillData rs with
  | nil => simpa using h
  | cons i is ih =>
    obtain ⟨hi, hnd⟩ := List.nodup_cons.mp his
    have hnext : Holding (TradeServer.dispatchTicker (buffer, fillData) i).2
        (Function.update rs i []) := h.update .nil _
    obtain ⟨hchars, hhold⟩ := ih hnext (TradeServer.dispatchTicker (buffer, fillData) i).1 hnd
    constructor
    · rw [List.foldl_cons, List.flatMap_cons, ← List.append_assoc, ← h.chars_dispatchTicker]
      refine hchars.trans (congrArg _ (List.flatMap_congr fun j hj => ?_))
      have hji : j ≠ i := fun heq => hi (heq ▸ hj)
      rw [Function.update_of_ne hji]
    · intro j
      have hj := hhold j
      by_cases hji : j = i <;> simp_all [Function.update_apply]

/-- `dispatch_fill_data` sends all records and leaves the lists empty. -/
theorem dispatchFillData (h : Holding fillData rs) :
    (TradeServer.dispatchFillData fillData).1.chars =
        '{' :: [','].intercalate (allTickers.map fun i => listText (tickers i).chars (rs i)) ++
          ['}'] ∧
      Holding (TradeServer.dispatchFillData fillData).2 fun _ => [] := by
  obtain ⟨hchars, hhold⟩ := h.foldl_dispatchTicker (.ofBuffer ['{'])
    (show allTickers.Nodup by decide)
  have hall : ∀ i, i ∈ allTickers := by intro i; cases i <;> decide
  constructor
  · rw [TradeServer.dispatchFillData, chars_strcat, hchars]
    have hpiece : (CString.ofBuffer ['{']).chars = ['{'] ∧
        (CString.ofBuffer ['}']).chars = ['}'] := by decide
    simp [allTickers, hpiece]
  · intro i
    have hi := hhold i
    simp only [if_pos (hall i)] at hi
    exact hi

theorem sentRecords_dispatchFillData (h : Holding fillData rs) (i : Ticker) :
    sentRecords i (TradeServer.dispatchFillData fillData).1 = rs i := by
  rw [sentRecords, h.dispatchFillData.1, readLists_join (fun i _ => isAlphanum_tickers i)
    (fun i _ => (h i).isRecord)]
  cases i <;> simp [allTickers, List.filter_map, Function.comp_def,
    CString.ext_iff.symm, tickers_injective.eq_iff]

/-- Every list loses its comma, so four full lists fit the buffer. -/
theorem length_dispatchFillData (h : Holding fillData rs) :
    (TradeServer.dispatchFillData fillData).1.length < FILL_DATA_BUFFER_SIZE := by
  have hlen : ∀ i, ([','].intercalate (rs i)).length ≤ MAX_FILL_DATA_SIZE - 2 := by
    intro i
    have hlt := (h i).lt
    rw [← dropLast_pendingText, ← (h i).text, List.length_dropLast]
    rw [CString.length] at hlt
    omega
  have h1 := hlen .ANDTHEN
  have h2 := hlen .FORIS4
  have h3 := hlen .SPARK
  have h4 := hlen .ZILBIAN
  have hnames : (tickers .ANDTHEN).chars.length = 7 ∧ (tickers .FORIS4).chars.length = 6 ∧
      (tickers .SPARK).chars.length = 5 ∧ (tickers .ZILBIAN).chars.length = 7 := by decide
  rw [CString.length, h.dispatchFillData.1]
  simp only [allTickers, List.map_cons, List.map_nil, List.intercalate_cons_cons,
    List.intercalate_singleton, listText, List.length_append, List.length_cons, List.length_nil,
    hnames, MAX_FILL_DATA_SIZE, FILL_DATA_BUFFER_SIZE] at *
  omega

end Holding

/-! ## Runs -/

/-- After the calls: every record is sent or held, and everything sent fits the buffer. -/
structure FillsConserved (b : FillBatch) (rs : Ticker → List (List Char))
    (calls : List FillCall) : Prop where
  holding : Holding b.fillData rs
  records : ∀ i, b.payloads.flatMap (sentRecords i) ++ rs i = recordsOf i calls
  fits : ∀ p ∈ b.payloads, p.length < FILL_DATA_BUFFER_SIZE

namespace FillsConserved

variable {b : FillBatch} {rs : Ticker → List (List Char)} {calls : List FillCall} {call : FillCall}

theorem init (start : Int) :
    FillsConserved (fillStart start) (fun _ => []) [] where
  holding _ := .nil
  records _ := rfl
  fits _ hp := absurd hp List.not_mem_nil

theorem dispatch (h : FillsConserved b rs calls) (result : Int) :
    FillsConserved (b.dispatch result) (fun _ => []) calls where
  holding := h.holding.dispatchFillData.2
  records i := by
    rw [← h.records i]
    simp [FillBatch.dispatch, h.holding.sentRecords_dispatchFillData]
  fits p hp := by
    rcases List.mem_append.mp hp with hp | hp
    · exact h.fits p hp
    · exact List.mem_singleton.mp hp ▸ h.holding.length_dispatchFillData

theorem recordsOf_append (i : Ticker) (calls : List FillCall) (call : FillCall) :
    recordsOf i (calls ++ [call]) =
      recordsOf i calls ++
        if call.order.ticker = tickers i then [fillRecord call.order] else [] := by
  by_cases hi : call.order.ticker = tickers i <;> simp [recordsOf, hi]

/-- The record of the order is held. -/
theorem append (h : FillsConserved b rs calls) {fillData : FillData} {i : Ticker}
    (hi : call.order.ticker = tickers i)
    (hfill : Holding fillData (Function.update rs i (rs i ++ [fillRecord call.order]))) :
    FillsConserved { b with fillData := fillData }
      (Function.update rs i (rs i ++ [fillRecord call.order])) (calls ++ [call]) where
  holding := hfill
  records j := by
    rw [recordsOf_append, ← h.records j, hi]
    by_cases hj : j = i
    · subst hj
      simp
    · simp [hj, tickers_injective.eq_iff, Ne.symm hj]
  fits := h.fits

theorem step (h : FillsConserved b rs calls) (hcall : Fillable call.order) :
    ∃ b' rs', processOrderForClients b call = some b' ∧
      FillsConserved b' rs' (calls ++ [call]) := by
  obtain ⟨i, hi⟩ := hcall.ticker
  rcases h.holding.updateFillData hcall hi with ⟨fillData, hupdate, hfill⟩ | ⟨hupdate, -⟩
  · have happend := h.append hi hfill
    by_cases hnow : call.now > b.lastFillDispatchTime + FILL_DISPATCH_INTERVAL
    · refine ⟨_, _, ?_, happend.dispatch call.result⟩
      simp [processOrderForClients, hupdate, hnow]
    · refine ⟨_, _, ?_, happend⟩
      simp [processOrderForClients, hupdate, hnow]
  · have hdispatch := h.dispatch call.result
    -- the lists are empty now, so the second try has room
    rcases hdispatch.holding.updateFillData hcall hi with ⟨fillData, hagain, hfill⟩ | ⟨-, hfull⟩
    · refine ⟨_, _, ?_, hdispatch.append hi hfill⟩
      simp [processOrderForClients, hupdate, hagain]
    · have hempty := (hdispatch.holding i).text
      rw [CString.length, hempty] at hfull
      exact absurd hfull (by decide)

end FillsConserved

/-- Whatever the clock shows at the start, every record is sent or pending, each once and in order,
and all buffers are large enough. -/
theorem fillRun_conserves (start : Int) (calls : List FillCall)
    (hcalls : ∀ call ∈ calls, Fillable call.order) :
    ∃ b, fillRun (fillStart start) calls = some b ∧
      (∀ i, b.payloads.flatMap (sentRecords i) ++ readRecords (b.fillData.fills i).chars =
        recordsOf i calls) ∧
      (∀ i, (b.fillData.fills i).length < MAX_FILL_DATA_SIZE) ∧
      ∀ p ∈ b.payloads, p.length < FILL_DATA_BUFFER_SIZE := by
  have hrun : ∃ b rs, fillRun (fillStart start) calls = some b ∧
      FillsConserved b rs calls := by
    induction calls using List.reverseRecOn with
    | nil => exact ⟨_, _, rfl, .init start⟩
    | append_singleton calls call ih =>
      obtain ⟨b, rs, hb, h⟩ := ih fun c hc => hcalls c (by simp [hc])
      obtain ⟨b', rs', hstep, h'⟩ := h.step (hcalls call (by simp))
      refine ⟨b', rs', ?_, h'⟩
      rw [fillRun] at hb ⊢
      simp [List.foldlM_append, hb, hstep]
  obtain ⟨b, rs, hb, h⟩ := hrun
  refine ⟨b, hb, fun i => ?_, fun i => (h.holding i).lt, h.fits⟩
  rw [(h.holding i).readRecords_eq, h.records i]

/-- A buy order that was filled at half past nine. -/
def morningFill : FilledOrder where
  id := 7
  userId := 12
  ticker := tickers .SPARK
  side := 'B'
  status := 'F'
  type := 'L'
  amount := 10
  price := 2500000
  createdAt := 0
  filledAt := ['2', '0', '2', '4', '-', '0', '5', '-', '0', '1', ' ', '0', '9', ':', '3', '0', ':',
    '0', '0', Char.ofNat 0]

theorem fillable_morningFill : Fillable morningFill where
  ticker := ⟨.SPARK, rfl⟩
  side := .inl rfl
  userId := by decide
  amount := by decide
  price := by decide
  filledAt := .inr ⟨morningFill.filledAt.take 19, rfl, by
    simp [IsTimestamp, timestampPattern, morningFill, List.forall₂_cons]⟩

/-- The first call is too early to send the record, the second one sends it. -/
theorem fillRun_conserves_two_calls :
    ∃ b, fillRun (fillStart 100)
        [⟨morningFill, 101, 105⟩, ⟨morningFill, 103, 105⟩] = some b ∧
      (∀ i, b.payloads.flatMap (sentRecords i) ++ readRecords (b.fillData.fills i).chars =
        recordsOf i [⟨morningFill, 101, 105⟩, ⟨morningFill, 103, 105⟩]) ∧
      (∀ i, (b.fillData.fills i).length < MAX_FILL_DATA_SIZE) ∧
      ∀ p ∈ b.payloads, p.length < FILL_DATA_BUFFER_SIZE :=
  fillRun_conserves 100 _ (by simp [fillable_morningFill])

end TradeServer
