import TradeServer.Library.Json
import TradeServer.Service.FillData

/-!
# The fill data as JSON

`dispatch_fill_data` sends the lists of all tickers as an object of arrays. The time of day in a
record has no quotes, so that a text with a record is no JSON.
-/

namespace TradeServer

open Library

/-- The lists after orders for all of which they had room, since `previous` was sent. -/
def acceptFills (previous : FillData) (orders : List FilledOrder) : Option FillData :=
  orders.foldlM (fun fillData order => do
    let (fillData, added) ← updateFillData fillData order
    if added then some fillData else none) (dispatchFillData previous).2

/-- An order that was filled at some time. -/
structure Timestamped (order : FilledOrder) : Prop extends Fillable order where
  timestamp : ∃ text, order.filledAt = text ++ [Char.ofNat 0] ∧ IsTimestamp text

/-- A text as a JSON string. -/
def jsonString (text : List Char) : Json := .string (text.map Char.toNat)

/-- The tuple of an order. -/
def fillValue (order : FilledOrder) : Json :=
  .array [.number order.userId, jsonString [order.side], .number order.amount,
    .number order.price, jsonString ((order.filledAt.drop 11).take 8)]

def fillsOf (orders : List FilledOrder) (i : Ticker) : List FilledOrder :=
  orders.filter (·.ticker = tickers i)

/-- The fills of each ticker under its name. -/
def fillsValue (orders : List FilledOrder) : Json :=
  .object (allTickers.map fun i =>
    ((tickers i).chars.map Char.toNat, .array ((fillsOf orders i).map fillValue)))

/-! ## The lists -/

theorem foldl_dispatchTicker_fills (is : List Ticker) (state : CString × FillData) (i : Ticker) :
    (is.foldl dispatchTicker state).2.fills i =
      if i ∈ is then .ofBuffer [] else state.2.fills i := by
  induction is generalizing state with
  | nil => simp
  | cons j is ih =>
    rw [List.foldl_cons, ih]
    by_cases hij : i = j <;> simp [dispatchTicker, hij]

/-- The lists are empty after they were sent. -/
theorem holding_dispatched (previous : FillData) :
    Holding (dispatchFillData previous).2 fun _ => [] := by
  intro i
  have hfill : (dispatchFillData previous).2.fills i = .ofBuffer [] := by
    simp only [dispatchFillData]
    rw [foldl_dispatchTicker_fills, if_pos (by cases i <;> decide)]
  rw [hfill]
  exact .nil

variable {previous : FillData}

theorem acceptFills_append {orders : List FilledOrder} {order : FilledOrder} {fillData : FillData}
    (haccept : acceptFills previous (orders ++ [order]) = some fillData) :
    ∃ before, acceptFills previous orders = some before ∧
      updateFillData before order = some (fillData, true) := by
  simp only [acceptFills, List.foldlM_append, List.foldlM_cons, List.foldlM_nil,
    Option.bind_eq_bind, Option.bind_eq_some_iff] at haccept
  obtain ⟨before, hbefore, after, ⟨⟨next, added⟩, hupdate, hadded⟩, hafter⟩ := haccept
  refine ⟨before, hbefore, ?_⟩
  cases added <;> simp_all

/-- Each list has the records of the orders of its ticker. -/
theorem acceptFills_holding {orders : List FilledOrder} {fillData : FillData}
    (h : ∀ order ∈ orders, Fillable order) (haccept : acceptFills previous orders = some fillData) :
    Holding fillData fun i => (fillsOf orders i).map fillRecord := by
  induction orders using List.reverseRecOn generalizing fillData with
  | nil =>
    obtain rfl := Option.some.inj haccept
    exact holding_dispatched previous
  | append_singleton orders order ih =>
    obtain ⟨before, hbefore, hupdate⟩ := acceptFills_append haccept
    have hold := ih (fun o ho => h o (by simp [ho])) hbefore
    have ho : Fillable order := h order (by simp)
    obtain ⟨i, hi⟩ := ho.ticker
    have hlists : (fun j => (fillsOf (orders ++ [order]) j).map fillRecord) =
        Function.update (fun j => (fillsOf orders j).map fillRecord) i
          ((fillsOf orders i).map fillRecord ++ [fillRecord order]) := by
      funext j
      by_cases hj : j = i
      · simp [hj, fillsOf, hi]
      · simp [hj, fillsOf, hi, tickers_injective.eq_iff, Ne.symm hj]
    rw [hlists]
    rcases hold.updateFillData ho hi with ⟨after, hafter, hhold⟩ | ⟨hfull, -⟩
    · rw [hafter] at hupdate
      obtain ⟨rfl, -⟩ := Prod.mk.inj (Option.some.inj hupdate)
      exact hhold
    · rw [hfull] at hupdate
      exact absurd (Prod.mk.inj (Option.some.inj hupdate)).2 (by decide)

/-! ## The text -/

theorem isPlain_tickers (i : Ticker) : ∀ c ∈ (tickers i).chars, Json.IsPlain c := by
  cases i <;> simp [Json.IsPlain, tickers, CString.ofBuffer, IsByte]

/-- The list of a ticker is a member of the object. -/
theorem listText_eq (name : List Char) (ts : List (List Char)) :
    listText name ts = Json.memberText name ('[' :: [','].intercalate ts ++ [']']) := by
  simp [listText, Json.memberText]

theorem passes_listText_nil (i : Ticker) : Json.Passes (listText (tickers i).chars []) := by
  rw [listText_eq]
  exact (Json.derives_member (isPlain_tickers i) (Json.derives_array .nil)).passes

/-- A time of day starts with two digits and a colon. -/
theorem IsTimestamp.drop_eq {text : List Char} (h : IsTimestamp text) :
    ∃ a b rest, text.drop 11 = a :: b :: ':' :: rest ∧ a.isDigit ∧ b.isDigit := by
  have hdrop := List.forall₂_drop 11 h
  simp only [timestampPattern, List.drop_succ_cons, List.drop_zero,
    List.forall₂_cons_left_iff] at hdrop
  obtain ⟨a, _, ha, ⟨b, _, hb, ⟨c, rest, hc, -, rfl⟩, rfl⟩, hrest⟩ := hdrop
  obtain rfl : c = ':' := by simpa using hc
  exact ⟨a, b, rest, hrest, by simpa using ha, by simpa using hb⟩

theorem Timestamped.time_eq {order : FilledOrder} (h : Timestamped order) :
    ∃ a b rest, (CString.ofBuffer (order.filledAt.drop 11)).chars = a :: b :: ':' :: rest ∧
      a.isDigit ∧ b.isDigit := by
  obtain ⟨text, heq, htext⟩ := h.timestamp
  rw [heq, htext.chars_time]
  exact htext.drop_eq

/-- Digits, commas and opening brackets. -/
theorem passes_numbers {text : List Char} (h : ∀ c ∈ text, c.isDigit ∨ c = ',' ∨ c = '[') :
    Json.Passes text := by
  refine Json.passes_of_notMem fun c hc => ?_
  constructor <;> rintro rfl <;> exact absurd (h _ hc) (by decide)

/-- The scan gets to the colon of the time. -/
theorem rejects_fillRecord {order : FilledOrder} (h : Timestamped order) :
    Json.Rejects (fillRecord order) := by
  obtain ⟨a, b, rest, htime, ha, hb⟩ := h.time_eq
  have hsplit : fillRecord order = ('[' :: decimal order.userId ++ [',']) ++
      (('"' :: [order.side] ++ ['"']) ++
        ((',' :: decimal order.amount ++ ',' :: decimal order.price ++ [',', a]) ++
          ([b, ':'] ++ (rest ++ [']'])))) := by
    simp [fillRecord, htime]
  have hdigit := fun n c => isDigit_of_mem_decimal (n := n) (c := c)
  have hside : ∀ c ∈ [order.side], Json.IsPlain c := by
    rcases h.side with hside | hside <;> simp [hside, Json.IsPlain]
  have hfirst : Json.Passes ('[' :: decimal order.userId ++ [',']) :=
    passes_numbers fun c hc => by
      have := hdigit order.userId c
      simp only [List.mem_append, List.mem_cons, List.not_mem_nil, or_false] at hc
      grind
  have hsecond : Json.Passes
      (',' :: decimal order.amount ++ ',' :: decimal order.price ++ [',', a]) :=
    passes_numbers fun c hc => by
      have := hdigit order.amount c
      have := hdigit order.price c
      simp only [List.mem_append, List.mem_cons, List.not_mem_nil, or_false] at hc
      grind
  have hstring : Json.Passes ('"' :: [order.side] ++ ['"']) := (Json.derives_string hside).passes
  have htail : Json.Rejects ([b, ':'] ++ (rest ++ [']'])) := (Json.rejects_colon hb).append _
  rw [hsplit]
  exact hfirst.append_rejects (hstring.append_rejects (hsecond.append_rejects htail))

theorem passes_listOpen (i : Ticker) :
    Json.Passes ('"' :: (tickers i).chars ++ ['"', ':', '[']) := by
  intro b
  have hsplit : '"' :: (tickers i).chars ++ ['"', ':', '['] =
      ('"' :: (tickers i).chars ++ ['"']) ++ [':', '['] := by simp
  have hname := Json.isChars_of_isPlain (isPlain_tickers i)
  refine ⟨false, ?_⟩
  rw [hsplit, Json.Scan.run_append, Json.run_string hname b]
  rfl

theorem rejects_listText {orders : List FilledOrder} (i : Ticker)
    (h : ∀ order ∈ orders, Timestamped order) (hne : orders ≠ []) :
    Json.Rejects (listText (tickers i).chars (orders.map fillRecord)) := by
  have hall : ∀ t ∈ orders.map fillRecord, Json.Rejects t := by
    intro t ht
    obtain ⟨order, horder, rfl⟩ := List.mem_map.mp ht
    exact rejects_fillRecord (h order horder)
  obtain ⟨order, horder⟩ := List.exists_mem_of_ne_nil _ hne
  have hrecords := Json.rejects_intercalate (fun t ht => .inr (hall t ht))
    ⟨fillRecord order, List.mem_map_of_mem horder, rejects_fillRecord (h order horder)⟩
  exact ((passes_listOpen i).append_rejects hrecords).append _

/-- A text with a record is no JSON. -/
theorem rejects_payload {orders : List FilledOrder} {fillData : FillData}
    (h : ∀ order ∈ orders, Timestamped order)
    (haccept : acceptFills previous orders = some fillData) (hne : orders ≠ []) :
    Json.Rejects (dispatchFillData fillData).1.chars := by
  have hhold := acceptFills_holding (fun order horder => (h order horder).toFillable) haccept
  have hfills : ∀ i, ∀ order ∈ fillsOf orders i, Timestamped order :=
    fun i order horder => h order (List.mem_filter.mp horder).1
  obtain ⟨order, horder⟩ := List.exists_mem_of_ne_nil _ hne
  obtain ⟨i, hi⟩ := (h order horder).ticker
  have hmem : order ∈ fillsOf orders i := by simp [fillsOf, horder, hi]
  have hlists : Json.Rejects ([','].intercalate (allTickers.map fun i =>
      listText (tickers i).chars ((fillsOf orders i).map fillRecord))) := by
    apply Json.rejects_intercalate
    · intro t ht
      obtain ⟨j, -, rfl⟩ := List.mem_map.mp ht
      by_cases hj : fillsOf orders j = []
      · rw [hj]
        exact .inl (passes_listText_nil j)
      · exact .inr (rejects_listText j (hfills j) hj)
    · exact ⟨_, List.mem_map_of_mem (by cases i <;> decide : i ∈ allTickers),
        rejects_listText i (hfills i) (List.ne_nil_of_mem hmem)⟩
  rw [hhold.dispatchFillData.1]
  exact ((Json.passes_singleton (by decide)).append_rejects hlists).append _

/-- The text without records is JSON. -/
theorem isText_dispatched (previous : FillData) :
    Json.IsText (dispatchFillData (dispatchFillData previous).2).1.chars (fillsValue []) := by
  rw [(holding_dispatched previous).dispatchFillData.1]
  simp only [listText_eq]
  exact (Json.derives_object (fun i _ => isPlain_tickers i)
    (fun i _ => Json.derives_array .nil)).isText

/-- The text is JSON, and that of the fills, if and only if there are no fills. -/
theorem fill_payload_decodes_iff (previous : FillData) (orders : List FilledOrder)
    (fillData : FillData) (h : ∀ order ∈ orders, Timestamped order)
    (haccept : acceptFills previous orders = some fillData) :
    ((∃ v, Json.IsText (dispatchFillData fillData).1.chars v) ↔ orders = []) ∧
      (Json.IsText (dispatchFillData fillData).1.chars (fillsValue orders) ↔ orders = []) := by
  have hnone : orders ≠ [] → ∀ v, ¬ Json.IsText (dispatchFillData fillData).1.chars v :=
    fun hne v => (rejects_payload h haccept hne).not_isText v
  have hempty : orders = [] →
      Json.IsText (dispatchFillData fillData).1.chars (fillsValue orders) := by
    rintro rfl
    obtain rfl := Option.some.inj haccept
    exact isText_dispatched previous
  constructor
  · refine ⟨fun ⟨v, hv⟩ => ?_, fun heq => ⟨_, hempty heq⟩⟩
    by_contra hne
    exact hnone hne v hv
  · refine ⟨fun hv => ?_, hempty⟩
    by_contra hne
    exact hnone hne _ hv

theorem timestamped_morningFill : ∀ order ∈ [morningFill], Timestamped order := by
  intro order horder
  obtain rfl := List.mem_singleton.mp horder
  refine ⟨fillable_morningFill, morningFill.filledAt.take 19, rfl, ?_⟩
  simp [IsTimestamp, timestampPattern, morningFill, List.forall₂_cons]

theorem acceptFills_morningFill :
    ∃ fillData, acceptFills fillInit.fillData [morningFill] = some fillData := ⟨_, rfl⟩

theorem fill_payload_decodes_morningFill :
    ∃ fillData, acceptFills fillInit.fillData [morningFill] = some fillData ∧
      ((∃ v, Json.IsText (dispatchFillData fillData).1.chars v) ↔ [morningFill] = []) ∧
      (Json.IsText (dispatchFillData fillData).1.chars (fillsValue [morningFill]) ↔
        [morningFill] = []) := by
  obtain ⟨fillData, haccept⟩ := acceptFills_morningFill
  exact ⟨fillData, haccept, fill_payload_decodes_iff fillInit.fillData [morningFill] fillData
    timestamped_morningFill haccept⟩

/-- The text ends with `[[12,"B",10,2500000,09:30:00]],"ZILBIAN":[]}`. -/
theorem fill_payload_no_json :
    (∀ order ∈ [morningFill], Timestamped order) ∧
    ∃ fillData, acceptFills fillInit.fillData [morningFill] = some fillData ∧
      ∀ v, ¬ Json.IsText (dispatchFillData fillData).1.chars v := by
  obtain ⟨fillData, haccept⟩ := acceptFills_morningFill
  refine ⟨timestamped_morningFill, fillData, haccept, fun v => ?_⟩
  exact (rejects_payload timestamped_morningFill haccept (by simp)).not_isText v

end TradeServer
