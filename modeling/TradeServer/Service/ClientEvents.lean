import Mathlib.Algebra.GroupWithZero.Nat
import TradeServer.Currency
import TradeServer.Library.EventStream
import TradeServer.Service.FillData
import TradeServer.Sse.Delivery

/-!
# The events for the clients

Three producers queue texts for the clients: `market_monitor` its prices,
`simulated_order_worker` its orders, and `dispatch_fill_data` the filled orders. The first
two write complete events of an event stream, the third one does not.
-/

namespace TradeServer

open Library

/-! ## The producers -/

def TMP_PRICE_STR_LEN : Nat := 22

def SSE_PRICE_DATA_LEN : Nat := 89

def SIM_ORDER_LEN : Nat := 2048

structure PricePoint where
  price : Nat
  flag : Nat

/-- `event: Y` and the name of the next field. -/
def priceHeader : List Char :=
  ['e', 'v', 'e', 'n', 't', ':', ' ', 'Y', '\n', 'd', 'a', 't', 'a', ':', ' ']

/-- The part of the loop body of `market_monitor` that writes `sse_price_data`; the price is 0
when it could not be read. -/
def priceTicker (reads : Ticker → PricePoint) (data : CString) (i : Ticker) : CString :=
  if (reads i).price = 0 then data
  else
    let data := strcat data (currencyToStringExtra TMP_PRICE_STR_LEN (reads i).price (reads i).flag)
    if i ≠ .ZILBIAN then strcat data (.ofBuffer [',']) else data

def ssePriceData (reads : Ticker → PricePoint) : CString :=
  strcat (allTickers.foldl (priceTicker reads) (.ofBuffer priceHeader)) (.ofBuffer ['\n', '\n'])

/-- `order_multipliers`, in thousandths. -/
def orderMultipliers : List Nat :=
  [20, 5, 4, 3, 2, 10, 20, 15, 11, 12, 13, 1, 2, 3, 4, 15, 11, 100, 50, 25]

/-- What `r_between` returns. -/
def RBetween (min max : Nat) : Type := { n : Nat // min ≤ n ∧ n ≤ max }

/-- The random numbers for one simulated order. -/
structure SimulatedDraw where
  buyAmount : RBetween 2 17
  buyMultiplier : Fin orderMultipliers.length
  sellAmount : RBetween 3 15
  sellMultiplier : Fin orderMultipliers.length

/-- `fractional_price` for a multiplier of the table. -/
def orderFraction (price : Nat) (i : Fin orderMultipliers.length) : Nat :=
  fractionalPrice price (toFloating 24 (orderMultipliers.get i) 1000)

/-- What `[%d,%.6f,%d,%.6f]` prints in a buffer of 64 bytes; prices are 64-bit numbers. -/
def simulatedOrder (price : Nat) (d : SimulatedDraw) : CString :=
  let buyPrice := (price + (2 ^ 64 - orderFraction price d.buyMultiplier)) % 2 ^ 64
  let sellPrice := (price + orderFraction price d.sellMultiplier) % 2 ^ 64
  snprintf 64 ('[' :: decimal d.buyAmount.1 ++ [','] ++ formatFloating (currencyToFloat buyPrice) ++
    [','] ++ decimal d.sellAmount.1 ++ [','] ++ formatFloating (currencyToFloat sellPrice) ++ [']'])

/-- `build_simulated_order`, with the draws for its orders. -/
def buildSimulatedOrder (price : Nat) : List SimulatedDraw → CString → CString
  | [], data => data
  | [d], data => strcat data (simulatedOrder price d)
  | d :: ds, data =>
    buildSimulatedOrder price ds (strcat (strcat data (simulatedOrder price d)) (.ofBuffer [',']))

/-- The draws for one ticker: `rand_int` of them. -/
def SimulatedDraws : Type := { ds : List SimulatedDraw // 1 ≤ ds.length ∧ ds.length ≤ 5 }

/-- `event: BU` and the name of the next field, with the bracket of the object. -/
def orderHeader : List Char :=
  ['e', 'v', 'e', 'n', 't', ':', ' ', 'B', 'U', '\n', 'd', 'a', 't', 'a', ':', ' ', '{']

def simulatedTicker (prices : Ticker → Nat) (draws : Ticker → SimulatedDraws) (data : CString)
    (i : Ticker) : CString :=
  let data := strcat (strcat data (.ofBuffer ['"'])) (tickers i)
  let data := strcat data (.ofBuffer ['"', ':', '['])
  let data := strcat (buildSimulatedOrder (prices i) (draws i).1 data) (.ofBuffer [']'])
  if i ≠ .ZILBIAN then strcat data (.ofBuffer [',']) else data

def simOrderData (prices : Ticker → Nat) (draws : Ticker → SimulatedDraws) : CString :=
  strcat (allTickers.foldl (simulatedTicker prices draws) (.ofBuffer orderHeader))
    (.ofBuffer ['}', '\n', '\n'])

/-- What a producer has at hand when it queues a text. -/
inductive ClientEvent where
  | prices (reads : Ticker → PricePoint)
  | simulatedOrders (prices : Ticker → Nat) (draws : Ticker → SimulatedDraws)
  | fills (fillData : FillData)

/-- The argument of `sse_server_queue_data`. -/
def ClientEvent.text : ClientEvent → CString
  | .prices reads => ssePriceData reads
  | .simulatedOrders lastPrices draws => simOrderData lastPrices draws
  | .fills fillData => (dispatchFillData fillData).1

def ClientEvent.IsFills : ClientEvent → Prop
  | .fills _ => True
  | .prices .. => False
  | .simulatedOrders .. => False

/-- The buffer in which the producer builds its text. -/
def ClientEvent.bufferSize : ClientEvent → Nat
  | .prices _ => SSE_PRICE_DATA_LEN
  | .simulatedOrders .. => SIM_ORDER_LEN
  | .fills _ => FILL_DATA_BUFFER_SIZE

/-- The text and its terminator stay in the buffer. -/
def ClientEvent.Fits (e : ClientEvent) : Prop := e.text.length < e.bufferSize

/-- The width of a field with its comma, as far as `tmp_str` holds it. -/
def heldWidth (reads : Ticker → PricePoint) (i : Ticker) : Nat :=
  if (reads i).price = 0 then 0
  else min (TMP_PRICE_STR_LEN - 1)
      (digits ((reads i).price / SCALE_FACTOR) + digits (reads i).flag + 8) +
    if i ≠ .ZILBIAN then 1 else 0

/-- A complete event that its buffer holds: not a fill batch, and not the prices when their fields
are too wide. -/
def ClientEvent.IsSound : ClientEvent → Prop
  | .prices reads => (allTickers.map (heldWidth reads)).sum ≤ 71
  | .simulatedOrders .. => True
  | .fills _ => False

/-- The calls of `client_writer_queue_data` with their times, and the texts in the slots that they
write. -/
def queueAll : ClientWriter → List (Nat × CString) → Option (ClientWriter × List CString)
  | w, [] => some (w, [])
  | w, (now, data) :: rest => do
    let (w', _) ← clientWriterQueueData w now data
    let node ← w'.dataQueue[wrap w.dataQueueSize w.lastDataWriteIdx]?
    let (w'', stored) ← queueAll w' rest
    some (w'', node.data :: stored)

/-- The slots have the texts, each text is an event, and the stream of the slots is read as these
events. -/
def Separable (texts stored : List CString) : Prop :=
  stored = texts ∧ ∃ es : List Event, texts.map (·.chars) = es.map Event.text ∧
    readEvents (stored.flatMap (·.chars)) = es.map Event.lines

/-! ## Texts without line ends -/

theorem isLine_cons {c : Char} {l : List Char} :
    IsLine (c :: l) ↔ c ≠ '\n' ∧ c ≠ '\r' ∧ IsLine l := by
  simp only [IsLine, List.mem_cons, not_or]
  tauto

theorem isLine_of_inNumber {l : List Char} (h : ∀ c ∈ l, InNumber c) : IsLine l := by
  constructor <;> intro hmem <;> exact absurd (h _ hmem) (by simp [InNumber])

/-- `data'` continues `data` by at most `n` characters, none of them a line end. -/
def Continues (n : Nat) (data data' : CString) : Prop :=
  ∃ body, data'.chars = data.chars ++ body ∧ IsLine body ∧ body.length ≤ n

namespace Continues

variable {m n : Nat} {data data' data'' t : CString}

theorem refl (data : CString) : Continues 0 data data :=
  ⟨[], by simp, by simp [IsLine], by simp⟩

theorem trans (h : Continues m data data') (h' : Continues n data' data'') :
    Continues (m + n) data data'' := by
  obtain ⟨body, heq, hline, hlen⟩ := h
  obtain ⟨body', heq', hline', hlen'⟩ := h'
  exact ⟨body ++ body', by simp [heq', heq], isLine_append.mpr ⟨hline, hline'⟩, by simp; omega⟩

theorem mono (h : Continues m data data') (hmn : m ≤ n) : Continues n data data' := by
  obtain ⟨body, heq, hline, hlen⟩ := h
  exact ⟨body, heq, hline, hlen.trans hmn⟩

theorem append (h : Continues m data data') (ht : IsLine t.chars) (hlen : t.length ≤ n) :
    Continues (m + n) data (strcat data' t) :=
  h.trans ⟨t.chars, rfl, ht, hlen⟩

theorem foldl {f : CString → Ticker → CString} (hf : ∀ data i, Continues n data (f data i))
    (is : List Ticker) (data : CString) : Continues (is.length * n) data (is.foldl f data) := by
  induction is generalizing data with
  | nil => exact (refl data).mono (by simp)
  | cons i is ih => exact ((hf data i).trans (ih (f data i))).mono (by simp [Nat.add_mul]; omega)

end Continues

theorem continues_separator (i : Ticker) (data : CString) :
    Continues 1 data (if i ≠ .ZILBIAN then strcat data (.ofBuffer [',']) else data) := by
  split
  · exact (Continues.refl data).append (n := 1) (by decide) (by decide)
  · exact (Continues.refl data).mono (by omega)

theorem priceTicker_continues (reads : Ticker → PricePoint) (data : CString) (i : Ticker) :
    Continues 22 data (priceTicker reads data i) := by
  unfold priceTicker
  split
  · exact (Continues.refl data).mono (by omega)
  · have hline : IsLine
        (currencyToStringExtra TMP_PRICE_STR_LEN (reads i).price (reads i).flag).chars :=
      isLine_of_inNumber fun c hc => inNumber_currencyToStringExtra hc
    have hprice := (Continues.refl data).append hline (length_snprintf_le _ _)
    exact (hprice.trans (continues_separator i _)).mono (by decide)

theorem isLine_simulatedOrder (price : Nat) (d : SimulatedDraw) :
    IsLine (simulatedOrder price d).chars := by
  have hmem : ∀ c ∈ (simulatedOrder price d).chars, InNumber c ∨ c ∈ ['[', ',', ']'] := by
    intro c hc
    have hc := mem_of_mem_snprintf hc
    have hdigit := fun n => isDigit_of_mem_decimal (n := n) (c := c)
    have hnum := fun x => inNumber_formatFloating (x := x) (c := c)
    simp only [List.mem_append, List.mem_cons, List.not_mem_nil, or_false] at hc ⊢
    grind [InNumber]
  constructor <;> intro hc <;> exact absurd (hmem _ hc) (by simp [InNumber])

theorem buildSimulatedOrder_continues (price : Nat) (ds : List SimulatedDraw) (data : CString) :
    Continues (64 * ds.length) data (buildSimulatedOrder price ds data) := by
  fun_induction buildSimulatedOrder price ds data with
  | case1 data => exact .refl data
  | case2 d data =>
    exact ((Continues.refl data).append (isLine_simulatedOrder price d)
      (length_snprintf_le _ _)).mono (by simp)
  | case3 d ds data hds ih =>
    have hone := (Continues.refl data).append (isLine_simulatedOrder price d)
      (length_snprintf_le _ _)
    have hcomma := hone.append (t := .ofBuffer [',']) (n := 1) (by decide) (by decide)
    refine (hcomma.trans ih).mono ?_
    simp only [List.length_cons]
    omega

theorem isLine_tickers (i : Ticker) : IsLine (tickers i).chars ∧ (tickers i).length ≤ 7 := by
  cases i <;> decide

theorem simulatedTicker_continues (prices : Ticker → Nat) (draws : Ticker → SimulatedDraws)
    (data : CString) (i : Ticker) : Continues 333 data (simulatedTicker prices draws data i) := by
  have hlen := (draws i).2.2
  have hquote := (Continues.refl data).append (t := .ofBuffer ['"']) (n := 1)
    (by decide) (by decide)
  have hname := hquote.append (isLine_tickers i).1 (isLine_tickers i).2
  have hopen := hname.append (t := .ofBuffer ['"', ':', '[']) (n := 3) (by decide) (by decide)
  have horders := hopen.trans (buildSimulatedOrder_continues (prices i) (draws i).1 _)
  have hclose := horders.append (t := .ofBuffer [']']) (n := 1) (by decide) (by decide)
  exact (hclose.trans (continues_separator i _)).mono (by omega)

/-! ## Events -/

/-- An event of a given type with one line of data. -/
def eventOf (type data : List Char) (htype : IsLine type) (hdata : IsLine data) : Event where
  lines := [['e', 'v', 'e', 'n', 't', ':', ' '] ++ type, ['d', 'a', 't', 'a', ':', ' '] ++ data]
  ne_nil := by simp
  fields l hl := by
    have hheads : IsLine ['e', 'v', 'e', 'n', 't', ':', ' '] ∧
        IsLine ['d', 'a', 't', 'a', ':', ' '] := by simp [IsLine]
    rcases List.mem_cons.mp hl with rfl | hl
    · exact ⟨isLine_append.mpr ⟨hheads.1, htype⟩, ['e', 'v', 'e', 'n', 't'], ' ' :: type, by simp⟩
    · obtain rfl := List.mem_singleton.mp hl
      exact ⟨isLine_append.mpr ⟨hheads.2, hdata⟩, ['d', 'a', 't', 'a'], ' ' :: data, by simp⟩

/-- The prices are one event. -/
theorem ssePriceData_event (reads : Ticker → PricePoint) :
    ∃ e : Event, (ssePriceData reads).chars = e.text := by
  obtain ⟨body, heq, hline, -⟩ := Continues.foldl (priceTicker_continues reads) allTickers
    (.ofBuffer priceHeader)
  have hheader : (CString.ofBuffer priceHeader).chars = priceHeader ∧
      (CString.ofBuffer ['\n', '\n']).chars = ['\n', '\n'] := by decide
  refine ⟨eventOf ['Y'] body (by simp [IsLine]) hline, ?_⟩
  rw [ssePriceData, chars_strcat, heq, hheader.1, hheader.2]
  simp [eventOf, Event.text, priceHeader]

/-! The width of the prices -/

theorem length_priceTicker (reads : Ticker → PricePoint) (data : CString) (i : Ticker) :
    (priceTicker reads data i).length = data.length + heldWidth reads i := by
  have hcomma : (CString.ofBuffer [',']).length = 1 := by decide
  have hfield := length_currencyToStringExtra TMP_PRICE_STR_LEN (reads i).price (reads i).flag
  unfold priceTicker heldWidth
  split_ifs
  · rfl
  · rw [length_strcat, length_strcat, hfield, hcomma, Nat.add_assoc]
  · rw [length_strcat, hfield]
    rfl

theorem length_foldl_priceTicker (reads : Ticker → PricePoint) (is : List Ticker)
    (data : CString) : (is.foldl (priceTicker reads) data).length =
      data.length + (is.map (heldWidth reads)).sum := by
  induction is generalizing data with
  | nil => rfl
  | cons i is ih =>
    rw [List.foldl_cons, ih, length_priceTicker, List.map_cons, List.sum_cons, Nat.add_assoc]

theorem length_ssePriceData (reads : Ticker → PricePoint) :
    (ssePriceData reads).length = 17 + (allTickers.map (heldWidth reads)).sum := by
  have hpieces : (CString.ofBuffer priceHeader).length = 15 ∧
      (CString.ofBuffer ['\n', '\n']).length = 2 := by decide
  rw [ssePriceData, length_strcat, length_foldl_priceTicker, hpieces.1, hpieces.2]
  omega

theorem heldWidth_le (reads : Ticker → PricePoint) (i : Ticker) : heldWidth reads i ≤ 22 := by
  unfold heldWidth TMP_PRICE_STR_LEN
  split_ifs <;> omega

theorem length_ssePriceData_lt (reads : Ticker → PricePoint) :
    (ssePriceData reads).length < MAX_DATA_SEND_LEN := by
  have h₁ := heldWidth_le reads .ANDTHEN
  have h₂ := heldWidth_le reads .FORIS4
  have h₃ := heldWidth_le reads .SPARK
  have h₄ := heldWidth_le reads .ZILBIAN
  rw [length_ssePriceData]
  simp only [allTickers, List.map_cons, List.map_nil, List.sum_cons, List.sum_nil,
    MAX_DATA_SEND_LEN]
  omega

theorem simOrderData_event (prices : Ticker → Nat) (draws : Ticker → SimulatedDraws) :
    (∃ e : Event, (simOrderData prices draws).chars = e.text) ∧
      (simOrderData prices draws).length < SIM_ORDER_LEN := by
  obtain ⟨body, heq, hline, hlen⟩ := Continues.foldl (simulatedTicker_continues prices draws)
    allTickers (.ofBuffer orderHeader)
  have hheader : (CString.ofBuffer orderHeader).chars = orderHeader ∧
      (CString.ofBuffer ['}', '\n', '\n']).chars = ['}', '\n', '\n'] := by decide
  constructor
  · refine ⟨eventOf ['B', 'U'] ('{' :: body ++ ['}']) (by simp [IsLine]) ?_, ?_⟩
    · exact isLine_append.mpr ⟨isLine_cons.mpr ⟨by decide, by decide, hline⟩, by simp [IsLine]⟩
    · rw [simOrderData, chars_strcat, heq, hheader.1, hheader.2]
      simp [eventOf, Event.text, orderHeader]
  · rw [CString.length, simOrderData, chars_strcat, heq, hheader.1, hheader.2]
    simp only [allTickers, orderHeader, SIM_ORDER_LEN, List.length_append, List.length_cons,
      List.length_nil] at hlen ⊢
    omega

/-- What is not a fill batch is an event and fits a slot. -/
theorem ClientEvent.text_event (e : ClientEvent) (he : ¬ e.IsFills) :
    (∃ ev : Event, e.text.chars = ev.text) ∧ e.text.length < MAX_DATA_SEND_LEN := by
  cases e with
  | prices reads =>
    exact ⟨ssePriceData_event reads, length_ssePriceData_lt reads⟩
  | simulatedOrders lastPrices draws => exact simOrderData_event lastPrices draws
  | fills fillData => exact absurd trivial he

theorem ClientEvent.isSound_iff (e : ClientEvent) : e.IsSound ↔ ¬ e.IsFills ∧ e.Fits := by
  cases e with
  | prices reads =>
    have hlen := length_ssePriceData reads
    simp only [IsSound, IsFills, Fits, text, bufferSize, hlen, SSE_PRICE_DATA_LEN,
      not_false_eq_true, true_and]
    omega
  | simulatedOrders lastPrices draws =>
    exact ⟨fun _ => ⟨not_false, (simOrderData_event lastPrices draws).2⟩, fun _ => trivial⟩
  | fills fillData => exact ⟨False.elim, fun h => h.1 trivial⟩

/-- A fill batch does not end with a blank line. -/
theorem dispatchFillData_not_event (fillData : FillData) (e : Event) :
    (dispatchFillData fillData).1.chars ≠ e.text := by
  intro heq
  have hlast : (dispatchFillData fillData).1.chars.getLast? = some '}' := by
    have hbrace : (CString.ofBuffer ['}']).chars = ['}'] := by decide
    simp [dispatchFillData, hbrace]
  simp [heq, e.getLast?_text] at hlast

/-! ## The queue -/

/-- Every call succeeds and stores what fits of its text. -/
theorem queueAll_eq {w : ClientWriter} (hpos : 0 < w.dataQueueSize)
    (hlen : w.dataQueue.length = w.dataQueueSize) (hidx : w.lastDataWriteIdx ≤ w.dataQueueSize)
    (calls : List (Nat × CString)) :
    ∃ w', queueAll w calls = some (w', calls.map (copyData ·.2)) := by
  induction calls generalizing w with
  | nil => exact ⟨w, rfl⟩
  | cons call calls ih =>
    obtain ⟨now, data⟩ := call
    have hwrap := wrap_lt hpos hidx
    let w₁ : ClientWriter := { w with
      lastDataWriteIdx := wrap w.dataQueueSize w.lastDataWriteIdx + 1
      dataQueue := w.dataQueue.set (wrap w.dataQueueSize w.lastDataWriteIdx)
        ⟨w.nextId now, copyData data⟩
      msgCount := (w.msgCount + 1) % 2 ^ 32 }
    have hstep : clientWriterQueueData w now data = some (w₁, [.queued ⟨w.nextId now, data⟩]) :=
      if_pos (hlen ▸ hwrap)
    have hslot : w₁.dataQueue[wrap w.dataQueueSize w.lastDataWriteIdx]? =
        some ⟨w.nextId now, copyData data⟩ := List.getElem?_set_self (hlen ▸ hwrap)
    obtain ⟨w', hrest⟩ := ih (show 0 < w₁.dataQueueSize from hpos)
      ((List.length_set ..).trans hlen) hwrap
    refine ⟨w', ?_⟩
    simp only [queueAll, hstep, hslot, hrest, Option.bind_eq_bind, Option.bind_some, List.map_cons]

theorem queueAll_init {n : Nat} (hn : 1 ≤ n) (calls : List (Nat × CString)) :
    ∃ w, queueAll (clientWriterInit n) calls = some (w, calls.map (copyData ·.2)) :=
  queueAll_eq (show 0 < (clientWriterInit n).dataQueueSize from hn) (by simp [clientWriterInit])
    (by simp [clientWriterInit]) calls

theorem separable_of_events {texts : List CString}
    (h : ∀ t ∈ texts, (∃ e : Event, t.chars = e.text) ∧ t.length < MAX_DATA_SEND_LEN) :
    Separable texts (texts.map copyData) := by
  have hcopy : texts.map copyData = texts := by
    calc texts.map copyData = texts.map id := List.map_congr_left fun t ht => copyData_eq (h t ht).2
      _ = texts := List.map_id texts
  obtain ⟨es, hes⟩ : ∃ es : List Event, texts.map (·.chars) = es.map Event.text := by
    clear hcopy
    induction texts with
    | nil => exact ⟨[], rfl⟩
    | cons t texts ih =>
      obtain ⟨e, he⟩ := (h t (by simp)).1
      obtain ⟨es, hes⟩ := ih fun t' ht' => h t' (by simp [ht'])
      exact ⟨e :: es, by simp [he, hes]⟩
  refine ⟨hcopy, es, hes, ?_⟩
  have hstream : texts.flatMap (·.chars) = es.flatMap Event.text := by
    rw [List.flatMap_def, hes, ← List.flatMap_def]
  rw [hcopy, hstream, readEvents_flatMap_text]

theorem Separable.event {texts stored : List CString} (h : Separable texts stored) {t : CString}
    (ht : t ∈ texts) : ∃ e : Event, t.chars = e.text := by
  obtain ⟨-, es, hes, -⟩ := h
  have hmem : t.chars ∈ es.map Event.text := hes ▸ List.mem_map_of_mem ht
  obtain ⟨e, -, he⟩ := List.mem_map.mp hmem
  exact ⟨e, he.symm⟩

/-- The clients can tell the queued events apart exactly when no fill batch is among them. Their
texts stay in the buffers of the producers too when no prices are too wide. -/
theorem queued_separable_iff {n : Nat} (hn : 1 ≤ n) (es : List (Nat × ClientEvent)) :
    ∃ w stored, queueAll (clientWriterInit n) (es.map fun e => (e.1, e.2.text)) =
        some (w, stored) ∧
      (Separable (es.map (·.2.text)) stored ↔ ∀ e ∈ es, ¬ e.2.IsFills) ∧
      (Separable (es.map (·.2.text)) stored ∧ (∀ e ∈ es, e.2.Fits) ↔ ∀ e ∈ es, e.2.IsSound) := by
  obtain ⟨w, hqueue⟩ := queueAll_init hn (es.map fun e => (e.1, e.2.text))
  refine ⟨w, _, hqueue, ?_⟩
  rw [List.map_map]
  have hiff : Separable (es.map (·.2.text)) (es.map ((copyData ·.2) ∘ fun e => (e.1, e.2.text))) ↔
      ∀ e ∈ es, ¬ e.2.IsFills := by
    constructor
    · intro hsep e he hfills
      obtain ⟨now, event⟩ := e
      cases event with
      | fills fillData =>
        obtain ⟨ev, hev⟩ := hsep.event (List.mem_map_of_mem he)
        exact dispatchFillData_not_event fillData ev hev
      | _ => exact hfills
    · intro hes
      have hall : ∀ t ∈ es.map (·.2.text),
          (∃ e : Event, t.chars = e.text) ∧ t.length < MAX_DATA_SEND_LEN := by
        intro t ht
        obtain ⟨e, he, rfl⟩ := List.mem_map.mp ht
        exact e.2.text_event (hes e he)
      simpa [Function.comp_def] using separable_of_events hall
  refine ⟨hiff, ?_⟩
  simp only [hiff, ClientEvent.isSound_iff, ← forall₂_and]

/-- The entry `0.02`. -/
def twoPercent : Fin orderMultipliers.length := ⟨0, by decide⟩

/-- A price event and an event with a simulated order for each ticker. -/
def quietEvents : List (Nat × ClientEvent) :=
  [(1, .prices fun _ => ⟨2500000, 1⟩),
    (4, .simulatedOrders (fun _ => 2500000) fun _ =>
      ⟨[⟨⟨2, by decide⟩, twoPercent, ⟨3, by decide⟩, twoPercent⟩], by decide⟩)]

theorem queued_separable_quiet : ∃ w stored,
    queueAll (clientWriterInit 100) (quietEvents.map fun e => (e.1, e.2.text)) = some (w, stored) ∧
      Separable (quietEvents.map (·.2.text)) stored ∧ ∀ e ∈ quietEvents, e.2.Fits := by
  obtain ⟨w, stored, hqueue, -, hsound⟩ := queued_separable_iff (n := 100) (by decide) quietEvents
  refine ⟨w, stored, hqueue, hsound.mpr fun e he => ?_⟩
  simp only [quietEvents, List.mem_cons, List.not_mem_nil, or_false] at he
  obtain rfl | rfl := he
  · unfold ClientEvent.IsSound
    decide
  · trivial

/-- The batch of one filled order is no event. -/
theorem fill_batch_not_separable :
    ∃ fillData, updateFillData fillInit.fillData morningFill = some (fillData, true) ∧
      ∃ w stored, queueAll (clientWriterInit 100) [(1, (dispatchFillData fillData).1)] =
          some (w, stored) ∧
        ¬ Separable [(dispatchFillData fillData).1] stored := by
  have hempty : Holding fillInit.fillData fun _ => [] := fun _ => .nil
  rcases hempty.updateFillData fillable_morningFill
      (rfl : _ = tickers .SPARK) with ⟨fillData, hadded, -⟩ | ⟨-, hfull⟩
  · obtain ⟨w, hqueue⟩ := queueAll_init (n := 100) (by decide) [(1, (dispatchFillData fillData).1)]
    refine ⟨fillData, hadded, w, _, hqueue, fun hsep => ?_⟩
    obtain ⟨e, he⟩ := hsep.event (List.mem_singleton_self _)
    exact dispatchFillData_not_event fillData e he
  · exact absurd hfull (by decide)

end TradeServer
