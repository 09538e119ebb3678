import TradeServer.Database.TblTradeOrder
import TradeServer.Service.FillData
import TradeServer.Service.FillOnce

/-!
# Paying for filled orders

The body of `fill_order` after its early `return 0`: the order is marked as filled in memory, its
row in the order table is updated, and then the wallet of its user. The two updates are statements
of their own, and each can fail. Restarts of the service load the open rows again.
-/

namespace TradeServer

open Library

/-- The loop of `strtolower` from index `i` on: `none` outside the buffer and when `fuel` rounds are
not enough. Its condition reads the first byte in every round. -/
def strtolowerFrom : Nat → Nat → List Char → Option (List Char)
  | 0, _, _ => none
  | fuel + 1, i, str => do
    let first ← str.head?
    if first = Char.ofNat 0 then some str
    else
      let c ← str[i]?
      strtolowerFrom fuel ((i + 1) % 2 ^ 16) (str.set i c.toLower)

def strtolower (str : List Char) : Option (List Char) := strtolowerFrom (str.length + 1) 0 str

/-- What `strtolower` is for. The one above returns for no ticker. -/
def lowerCase (str : List Char) : Option (List Char) := some (str.map Char.toLower)

/-- The clock in one call: the text for `filled_at`, `time(NULL)`, and what the call takes as the
result of `dispatch_fill_data`. -/
structure FillTimes where
  filledAt : List Char
  now : Int
  result : Int

/-- What `fill_order` reads and writes outside the order books. -/
structure Ledger where
  /-- The order table. -/
  rows : List TradeOrder
  /-- Its column `filled_at`, by order id. -/
  filledAt : Nat → List Char
  /-- The currency table, by user id and column. -/
  wallets : Nat → CString → Nat
  /-- The `status` and `filled_at` that were written to the order in memory, by order id. -/
  written : Nat → Option (Char × List Char)
  clients : Option FillBatch
  /-- The clock in the calls to come. -/
  times : List FillTimes
  /-- The results of the statements to come. -/
  results : List Bool
  /-- The orders whose wallet update was applied, in sequence. -/
  paid : List TradeOrder

/-- The two `UPDATE` statements with what they set. -/
inductive Update where
  | tradeOrder (status : Char) (filledAt : List Char) (id : Nat)
  | userCurrency (column : CString) (amount : Nat) (userId : Nat)

def Ledger.apply (w : Ledger) : Update → Ledger
  | .tradeOrder status filledAt id =>
    { w with
      rows := w.rows.map fun r => if r.id = id then { r with status := status } else r
      filledAt := Function.update w.filledAt id filledAt }
  | .userCurrency column amount userId =>
    { w with
      wallets := Function.update w.wallets userId
        (Function.update (w.wallets userId) column (w.wallets userId column + amount)) }

/-- After the given results every statement fails. -/
def nextResult : List Bool → Bool
  | [] => false
  | result :: _ => result

/-- `db_execute_query` applies its update, or fails and applies nothing. -/
def dbExecuteQuery (update : Update) (w : Ledger) : Bool × Ledger :=
  let next := { w with results := w.results.tail }
  if nextResult w.results then (true, next.apply update) else (false, next)

/-- The bytes of `ticker` after it was printed. -/
def tickerBuffer (order : TradeOrder) : List Char :=
  let text := (snprintf TICKER_LEN order.ticker.chars).chars
  text ++ List.replicate (TICKER_LEN - text.length) (Char.ofNat 0)

/-- What the user gets: the amount of the ticker for a buy order, its price for a sell order. -/
def walletUpdate (order : TradeOrder) (ticker : CString) : Update :=
  if order.side = 'B' then .userCurrency ticker order.amount order.userId
  else .userCurrency (.ofBuffer ['b', 'y', 'b', 's']) (order.price * order.amount) order.userId

/-- What an update adds to a column of the wallet of a user. -/
def Update.credit (userId : Nat) (column : CString) : Update → Nat
  | .tradeOrder _ _ _ => 0
  | .userCurrency column' amount userId' =>
    if userId' = userId ∧ column' = column then amount else 0

/-- What paying for an order adds to it. -/
def credit (lower : List Char → Option (List Char)) (userId : Nat) (column : CString)
    (order : TradeOrder) : Nat :=
  ((lower (tickerBuffer order)).map fun ticker =>
    (walletUpdate order (.ofBuffer ticker)).credit userId column).getD 0

/-- `fill_order` after its early return, with `lower` for `strtolower`. The result is `none` when
`lower` does not return. -/
def fillOrder (lower : List Char → Option (List Char)) (order : TradeOrder) (w : Ledger) :
    Option Bool × Ledger :=
  let times := w.times.headD ⟨[], 0, 0⟩
  let w := { w with
    times := w.times.tail
    written := Function.update w.written order.id (some ('F', times.filledAt)) }
  let (updated, w) := dbExecuteQuery (.tradeOrder 'F' times.filledAt order.id) w
  if !updated then (some false, w)
  else
    match lower (tickerBuffer order) with
    | none => (none, w)
    | some ticker =>
      let (updated, w) := dbExecuteQuery (walletUpdate order (.ofBuffer ticker)) w
      if !updated then (some false, w)
      else
        let filled : FilledOrder := { order with status := 'F', filledAt := times.filledAt }
        (some true, { w with
          paid := w.paid ++ [order]
          clients := w.clients.bind (processOrderForClients · ⟨filled, times.now, times.result⟩) })

/-! ## Calls on record -/

/-- A call of `fill_order` with the worlds around it; `result` is `none` if it does not return. -/
structure CallRecord (σ : Type) where
  order : TradeOrder
  before : σ
  result : Option Bool
  after : σ

/-- A world with the calls so far; `hung` when the last one does not return. -/
structure Recorded (σ : Type) where
  world : σ
  calls : List (CallRecord σ)
  hung : Bool

/-- Calls of `f` on record. After one that does not return there are no more. -/
def recorded {σ : Type} (f : TradeOrder → σ → Option Bool × σ) : FillOrder (Recorded σ) :=
  fun order s =>
    if s.hung then (false, s)
    else
      let (result, world) := f order s.world
      (result.getD false, ⟨world, s.calls ++ [⟨order, s.world, result, world⟩], result.isNone⟩)

/-! ## Runs -/

structure Payments extends Recorded Ledger where
  svc : Service

/-- What a start of the service reads: the initial prices, the rows of its queries before their
`LIMIT`, and the clock at its readings. -/
structure Startup where
  unset : Nat
  prices : Ticker → Nat
  all : Ticker → Side → Option (List TradeOrder)
  now : Nat × Nat
  lastFillDispatchTime : Int

inductive PaymentEvent where
  | insert (o : TradeOrder)
  | price (ticker : Ticker) (price : Nat)
  | fill (ticker : Ticker) (currentPrice : Nat) (times : List FillTimes) (results : List Bool)
  | restart (start : Startup)

/-- The query for the book `b` in a start. -/
def Startup.query (start : Startup) (b : BookId) : Query :=
  ⟨b.2, b.1, start.now.1 - BACKLOAD_WEEKS * 604800, MAX_LOAD_ORDERS⟩

def Startup.answers (start : Startup) (ticker : Ticker) (side : Side) :
    Option (List TradeOrder) :=
  (start.all ticker side).map (·.take MAX_LOAD_ORDERS)

/-- The fetches of the start fail or return the open rows. -/
def Startup.Fetches (start : Startup) (rows : List TradeOrder) : Prop :=
  ∀ b ∈ loadSequence, ∀ all ∈ start.all b.1 b.2, ResultOf (start.query b) rows all

instance (start : Startup) (rows : List TradeOrder) : Decidable (start.Fetches rows) :=
  inferInstanceAs (Decidable (∀ b ∈ loadSequence, ∀ all ∈ start.all b.1 b.2, _))

/-- A new row of the order table. -/
def NewRow (rows : List TradeOrder) (o : TradeOrder) : Prop :=
  o.status = 'O' ∧ o.id < 10 ^ 14 ∧ o.id ∉ rows.map (·.id)

instance (rows : List TradeOrder) : DecidablePred (NewRow rows) := fun _ =>
  inferInstanceAs (Decidable (_ ∧ _ ∧ _))

/-- The clock and the results for the calls to come. -/
def Payments.withInputs (s : Payments) (times : List FillTimes) (results : List Bool) :
    Recorded Ledger :=
  { s.toRecorded with world := { s.world with times := times, results := results } }

def paymentStep (lower : List Char → Option (List Char)) (s : Payments) :
    PaymentEvent → Option Payments
  | .insert o =>
    if NewRow s.world.rows o then
      some { s with world := { s.world with rows := s.world.rows ++ [o] } }
    else none
  | .price ticker price =>
    if s.hung then none
    else some { s with
      svc := { s.svc with lastPrices := Function.update s.svc.lastPrices ticker price } }
  | .fill ticker currentPrice times results =>
    if s.hung then none
    else
      (processFills (recorded (fillOrder lower)) s.svc ticker currentPrice
        (s.withInputs times results)).map fun result => ⟨result.2.2, result.1⟩
  | .restart start =>
    if start.Fetches s.world.rows then
      (initService (tradeServiceInit start.unset) start.prices start.answers start.now).map
        fun result =>
          { svc := result.1
            world := { s.world with
              written := fun _ => none
              clients := some (fillStart start.lastFillDispatchTime) }
            calls := s.calls
            hung := false }
    else none

/-! ## Agreement of rows and wallets -/

/-- A row is filled if and only if the wallet of its user was credited for it, at most once. -/
def Ledger.Agrees (w : Ledger) : Prop :=
  ∀ r ∈ w.rows, (r.status = 'F' ↔ r.id ∈ w.paid.map (·.id)) ∧ (w.paid.map (·.id)).count r.id ≤ 1

/-- The wallets of `w'` are those of `w` with what was paid since. -/
def WalletsFollow (lower : List Char → Option (List Char)) (w w' : Ledger) : Prop :=
  ∀ userId column, w'.wallets userId column + (w.paid.map (credit lower userId column)).sum =
    w.wallets userId column + (w'.paid.map (credit lower userId column)).sum

/-- The status of an order in memory. -/
def Ledger.status (w : Ledger) (order : TradeOrder) : Char :=
  ((w.written order.id).map Prod.fst).getD order.status

def Ledger.rowStatus (w : Ledger) (id : Nat) : Option Char :=
  (w.rows.find? (·.id = id)).map (·.status)

namespace CallRecord

def Agrees (c : CallRecord Ledger) : Prop := c.before.Agrees ∧ (c.result ≠ none → c.after.Agrees)

/-- If the call returned 0, the order and its row have the status they had before it. -/
def Kept (c : CallRecord Ledger) : Prop :=
  c.result = some false → c.after.status c.order = c.before.status c.order ∧
    c.after.rowStatus c.order.id = c.before.rowStatus c.order.id

/-- The database applies the update of the row. -/
def RowUpdated (c : CallRecord Ledger) : Prop := nextResult c.before.results = true

/-- The name of the column is made, and the database applies the update of the wallet. -/
def WalletUpdated (lower : List Char → Option (List Char)) (c : CallRecord Ledger) : Prop :=
  (lower (tickerBuffer c.order)).isSome ∧ nextResult c.before.results.tail = true

end CallRecord

/-- All moments between two calls so far. -/
def Payments.Agrees (s : Payments) : Prop :=
  (s.hung = false → s.world.Agrees) ∧ ∀ c ∈ s.calls, c.Agrees

def Payments.Sound (s : Payments) : Prop := s.Agrees ∧ ∀ c ∈ s.calls, c.Kept

/-- No service was started yet, and filled rows were credited once. -/
structure PaymentStart (s : Payments) : Prop where
  svc : ∃ unset, s.svc = tradeServiceInit unset
  hung : s.hung = false
  calls : s.calls = []
  ids : RowIds s.world.rows
  agrees : s.world.Agrees
  paid : ∀ o ∈ s.world.paid, o.id ∈ s.world.rows.map (·.id)

/-! ## `strtolower` -/

theorem toLower_ne_nul {c : Char} (hne : c ≠ Char.ofNat 0) : c.toLower ≠ Char.ofNat 0 := by
  by_cases hup : c.val ≥ 'A'.val ∧ c.val ≤ 'Z'.val
  · have hlower : c.toLower = _ := dif_pos hup
    rw [hlower]
    intro h
    have hsum : (c.toNat + 32) % 2 ^ 32 = 0 := congrArg Char.toNat h
    have hle : c.toNat ≤ 90 := hup.2
    omega
  · have hsame : c.toLower = c := dif_neg hup
    rwa [hsame]

/-- No number of rounds is enough for a text with a first byte. -/
theorem strtolowerFrom_eq_none {c : Char} (hc : c ≠ Char.ofNat 0) (str : List Char)
    (fuel i : Nat) : strtolowerFrom fuel i (c :: str) = none := by
  induction fuel generalizing c str i with
  | zero => rfl
  | succ fuel ih =>
    cases hi : (c :: str)[i]? with
    | none => simp [strtolowerFrom, hc, hi]
    | some d =>
      cases i with
      | zero =>
        obtain rfl : c = d := by simpa using hi
        simpa [strtolowerFrom, hc] using ih (toLower_ne_nul hc) str 1
      | succ i => simpa [strtolowerFrom, hc, hi] using ih hc _ _

/-- The buffer begins with the first character of the ticker. -/
theorem tickerBuffer_eq_cons {order : TradeOrder} (h : order.ticker.chars ≠ []) :
    ∃ first tail, IsByte first ∧ tickerBuffer order = first :: tail := by
  obtain ⟨first, rest, hticker⟩ := List.exists_cons_of_ne_nil h
  have hbyte : IsByte first := order.ticker.bytes first (by simp [hticker])
  simp [tickerBuffer, snprintf, CString.ofBuffer, hticker, TICKER_LEN, hbyte]

/-- With `strtolower` no wallet is updated, except for an order without a ticker. -/
theorem not_walletUpdated_strtolower {c : CallRecord Ledger} (h : c.order.ticker.chars ≠ []) :
    ¬ c.WalletUpdated strtolower := by
  obtain ⟨first, tail, hfirst, htail⟩ := tickerBuffer_eq_cons h
  simp [CallRecord.WalletUpdated, strtolower, htail, strtolowerFrom_eq_none hfirst.ne_nul]

/-- In a buffer with `rest` behind the terminator, `strtolower` returns, each character
of the string is in lower case, and the other bytes are as they were. -/
def LowersInPlace (s : CString) (rest : List Char) : Prop :=
  ∃ fuel, strtolowerFrom fuel 0 (s.chars ++ Char.ofNat 0 :: rest) =
    some (s.chars.map Char.toLower ++ Char.ofNat 0 :: rest)

/-- `fill_order` gets the lower-cased ticker as the name of a column. -/
def NamesColumn (order : TradeOrder) : Prop :=
  ∃ fuel ticker, strtolowerFrom fuel 0 (tickerBuffer order) = some ticker ∧
    (CString.ofBuffer ticker).chars = order.ticker.chars.map Char.toLower

/-- Only the empty string ends the loop, so `strtolower` is right there and nowhere else. -/
theorem strtolower_iff_empty (s : CString) (rest : List Char) (order : TradeOrder) :
    (LowersInPlace s rest ↔ s.chars = []) ∧ (NamesColumn order ↔ order.ticker.chars = []) := by
  constructor
  · constructor
    · rintro ⟨fuel, hrun⟩
      by_contra hne
      obtain ⟨first, tail, hs⟩ := List.exists_cons_of_ne_nil hne
      have hfirst : IsByte first := s.bytes first (by simp [hs])
      rw [hs, List.cons_append, strtolowerFrom_eq_none hfirst.ne_nul] at hrun
      cases hrun
    · intro h
      exact ⟨1, by simp [h, strtolowerFrom]⟩
  · constructor
    · rintro ⟨fuel, ticker, hrun, -⟩
      by_contra hne
      obtain ⟨first, tail, hfirst, htail⟩ := tickerBuffer_eq_cons hne
      rw [htail, strtolowerFrom_eq_none hfirst.ne_nul] at hrun
      cases hrun
    · intro h
      refine ⟨1, tickerBuffer order, ?_, ?_⟩ <;>
        simp [h, tickerBuffer, snprintf, CString.ofBuffer, TICKER_LEN, strtolowerFrom,
          IsByte, List.replicate]

/-- A ticker in the buffer of `fill_order`. -/
theorem not_lowersInPlace_ticker :
    ¬ LowersInPlace (.ofBuffer ['S', 'P', 'A', 'R', 'K']) [Char.ofNat 0, Char.ofNat 0] := by
  rintro ⟨fuel, hrun⟩
  rw [CString.chars_ofBuffer (by simp [IsByte]), List.cons_append,
    strtolowerFrom_eq_none (by decide)] at hrun
  cases hrun

/-! ## Updates -/

@[simp] theorem results_apply (w : Ledger) (update : Update) :
    (w.apply update).results = w.results := by cases update <;> rfl

@[simp] theorem written_apply (w : Ledger) (update : Update) :
    (w.apply update).written = w.written := by cases update <;> rfl

@[simp] theorem paid_apply (w : Ledger) (update : Update) : (w.apply update).paid = w.paid := by
  cases update <;> rfl

@[simp] theorem rows_apply_walletUpdate (w : Ledger) (order : TradeOrder) (ticker : CString) :
    (w.apply (walletUpdate order ticker)).rows = w.rows := by
  rw [walletUpdate]
  split_ifs <;> rfl

theorem rows_apply_tradeOrder (w : Ledger) (filledAt : List Char) (id : Nat) :
    (w.apply (.tradeOrder 'F' filledAt id)).rows = markFilled id w.rows := rfl

@[simp] theorem wallets_apply (w : Ledger) (update : Update) (userId : Nat) (column : CString) :
    (w.apply update).wallets userId column =
      w.wallets userId column + update.credit userId column := by
  cases update with
  | tradeOrder status filledAt id => rfl
  | userCurrency column' amount userId' =>
    by_cases huser : userId' = userId
    · subst huser
      by_cases hcolumn : column' = column
      · subst hcolumn
        simp [Ledger.apply, Update.credit]
      · simp [Ledger.apply, Update.credit, hcolumn, Ne.symm hcolumn]
    · simp [Ledger.apply, Update.credit, huser, Ne.symm huser]

/-! ## One call -/

/-- What a call does to the table and to the payments. -/
inductive CallCase (lower : List Char → Option (List Char)) (c : CallRecord Ledger) : Prop where
  | failed (hrow : ¬ c.RowUpdated) (hresult : c.result = some false)
      (hrows : c.after.rows = c.before.rows) (hpaid : c.after.paid = c.before.paid)
  | torn (hrow : c.RowUpdated) (hwallet : ¬ c.WalletUpdated lower) (hresult : c.result ≠ some true)
      (hrows : c.after.rows = markFilled c.order.id c.before.rows)
      (hpaid : c.after.paid = c.before.paid)
  | filled (hrow : c.RowUpdated) (hwallet : c.WalletUpdated lower) (hresult : c.result = some true)
      (hrows : c.after.rows = markFilled c.order.id c.before.rows)
      (hpaid : c.after.paid = c.before.paid ++ [c.order])

/-- The record of a call. -/
def callRecord (lower : List Char → Option (List Char)) (order : TradeOrder) (w : Ledger) :
    CallRecord Ledger :=
  ⟨order, w, (fillOrder lower order w).1, (fillOrder lower order w).2⟩

section Call

variable (lower : List Char → Option (List Char)) (order : TradeOrder) (w : Ledger)

theorem callRecord_cases : CallCase lower (callRecord lower order w) := by
  by_cases hrow : nextResult w.results = true
  · cases hlower : lower (tickerBuffer order) with
    | none =>
      refine .torn hrow (by simp [CallRecord.WalletUpdated, callRecord, hlower]) ?_ ?_ ?_ <;>
        simp [callRecord, fillOrder, dbExecuteQuery, hrow, hlower, rows_apply_tradeOrder]
    | some ticker =>
      by_cases hwallet : nextResult w.results.tail = true
      · refine .filled hrow ⟨by simp [callRecord, hlower], hwallet⟩ ?_ ?_ ?_ <;>
          simp [callRecord, fillOrder, dbExecuteQuery, hrow, hlower, hwallet, rows_apply_tradeOrder]
      · refine .torn hrow (by simp [CallRecord.WalletUpdated, callRecord, hwallet]) ?_ ?_ ?_ <;>
          simp [callRecord, fillOrder, dbExecuteQuery, hrow, hlower, hwallet, rows_apply_tradeOrder]
  · refine .failed hrow ?_ ?_ ?_ <;> simp [callRecord, fillOrder, dbExecuteQuery, hrow]

theorem written_fillOrder : (fillOrder lower order w).2.written =
    Function.update w.written order.id (some ('F', (w.times.headD ⟨[], 0, 0⟩).filledAt)) := by
  by_cases hrow : nextResult w.results = true
  · cases hlower : lower (tickerBuffer order) with
    | none => simp [fillOrder, dbExecuteQuery, hrow, hlower]
    | some ticker =>
      by_cases hwallet : nextResult w.results.tail = true <;>
        simp [fillOrder, dbExecuteQuery, hrow, hlower, hwallet]
  · simp [fillOrder, dbExecuteQuery, hrow]

/-- A call writes to the status of its own order only. -/
theorem status_fillOrder (o : TradeOrder) :
    (fillOrder lower order w).2.status o = if o.id = order.id then 'F' else w.status o := by
  rw [Ledger.status, written_fillOrder]
  by_cases h : o.id = order.id <;> simp [h, Ledger.status]

theorem walletsFollow_fillOrder : WalletsFollow lower w (fillOrder lower order w).2 := by
  intro userId column
  by_cases hrow : nextResult w.results = true
  · cases hlower : lower (tickerBuffer order) with
    | none => simp [fillOrder, dbExecuteQuery, hrow, hlower, Update.credit]
    | some ticker =>
      by_cases hwallet : nextResult w.results.tail = true
      · simp [fillOrder, dbExecuteQuery, hrow, hlower, hwallet, Update.credit, credit]
        omega
      · simp [fillOrder, dbExecuteQuery, hrow, hlower, hwallet, Update.credit]
  · simp [fillOrder, dbExecuteQuery, hrow]

end Call

/-! ## One ledger -/

/-- The ledger as long as no call was torn. -/
structure Ledger.Settled (w : Ledger) : Prop where
  ids : RowIds w.rows
  agrees : w.Agrees
  paid : ∀ o ∈ w.paid, o.id ∈ w.rows.map (·.id)

section Ledger

variable {w w' : Ledger} {order r : TradeOrder}

theorem Ledger.Agrees.congr (h : w.Agrees) (hrows : w'.rows = w.rows) (hpaid : w'.paid = w.paid) :
    w'.Agrees := by
  rw [Ledger.Agrees, hrows, hpaid]
  exact h

theorem Ledger.Settled.congr (h : w.Settled) (hrows : w'.rows = w.rows)
    (hpaid : w'.paid = w.paid) : w'.Settled :=
  ⟨hrows ▸ h.ids, h.agrees.congr hrows hpaid, by rw [hrows, hpaid]; exact h.paid⟩

theorem Ledger.Agrees.not_paid (h : w.Agrees) (hr : r ∈ w.rows) (hopen : r.status = 'O') :
    r.id ∉ w.paid.map (·.id) := by
  intro hm
  have hfilled := (h r hr).1.mpr hm
  simp [hopen] at hfilled

/-- An open row that is filled without its payment breaks the agreement. -/
theorem Ledger.Agrees.torn (h : w.Agrees) (hr : r ∈ w.rows) (hopen : r.status = 'O')
    (hid : r.id = order.id) (hrows : w'.rows = markFilled order.id w.rows)
    (hpaid : w'.paid = w.paid) : ¬ w'.Agrees := by
  intro h'
  have hmem : { r with status := 'F' } ∈ w'.rows := by
    rw [hrows, markFilled]
    exact List.mem_map.mpr ⟨r, hr, by rw [if_pos hid]⟩
  exact h.not_paid hr hopen (hpaid ▸ (h' _ hmem).1.mp rfl)

/-- With its payment it keeps it. -/
theorem Ledger.Settled.filled (h : w.Settled) (hr : r ∈ w.rows) (hopen : r.status = 'O')
    (hid : r.id = order.id) (hrows : w'.rows = markFilled order.id w.rows)
    (hpaid : w'.paid = w.paid ++ [order]) : w'.Settled := by
  have hnot := h.agrees.not_paid hr hopen
  rw [markFilled_eq] at hrows
  refine ⟨hrows ▸ h.ids.markAll _, fun r' hr' => ?_, fun o ho => ?_⟩
  · rw [hrows] at hr'
    obtain ⟨r₀, hr₀, rfl⟩ := List.mem_map.mp hr'
    rw [hpaid, List.map_append]
    by_cases heq : r₀.id = order.id
    · obtain rfl := h.ids.eq_of_id hr₀ hr (heq.trans hid.symm)
      simp [heq, List.count_append, List.count_eq_zero_of_not_mem (heq ▸ hnot)]
    · have hother : ¬ order.id = r₀.id := fun h => heq h.symm
      simpa [heq, hother, List.count_append] using h.agrees r₀ hr₀
  · rw [hrows, ids_markAll]
    rw [hpaid, List.mem_append, List.mem_singleton] at ho
    rcases ho with ho | rfl
    · exact h.paid o ho
    · exact hid ▸ List.mem_map_of_mem hr

end Ledger

/-! ## One scan -/

section Scan

variable {σ : Type} {f : TradeOrder → σ → Option Bool × σ} {s : Recorded σ}

theorem recorded_of_running (hs : s.hung = false) (order : TradeOrder) :
    recorded f order s = ((f order s.world).1.getD false, ⟨(f order s.world).2,
      s.calls ++ [⟨order, s.world, (f order s.world).1, (f order s.world).2⟩],
      (f order s.world).1.isNone⟩) := by
  simp [recorded, hs]

theorem fillAll_of_hung (hs : s.hung = true) (xs : List (Addr × TradeOrder)) :
    (fillAll (recorded f) xs s).2 = s := by
  induction xs with
  | nil => rfl
  | cons x xs ih => simpa [fillAll, recorded, hs] using ih

theorem calls_fillAll (xs : List (Addr × TradeOrder)) (s : Recorded σ) :
    ∃ new, (fillAll (recorded f) xs s).2.calls = s.calls ++ new := by
  induction xs generalizing s with
  | nil => exact ⟨[], by simp [fillAll]⟩
  | cons x xs ih =>
    by_cases hs : s.hung = true
    · exact ⟨[], by rw [fillAll_of_hung hs, List.append_nil]⟩
    · obtain ⟨new, hnew⟩ := ih (recorded f x.2 s).2
      rw [recorded_of_running (by simpa using hs)] at hnew
      refine ⟨⟨x.2, s.world, (f x.2 s.world).1, (f x.2 s.world).2⟩ :: new, ?_⟩
      simpa [fillAll, recorded_of_running (show s.hung = false by simpa using hs)] using hnew

end Scan

theorem WalletsFollow.trans {lower : List Char → Option (List Char)} {w w' w'' : Ledger}
    (h : WalletsFollow lower w w') (h' : WalletsFollow lower w' w'') :
    WalletsFollow lower w w'' := by
  intro userId column
  have h := h userId column
  have h' := h' userId column
  omega

theorem walletsFollow_fillAll (lower : List Char → Option (List Char))
    (xs : List (Addr × TradeOrder)) (s : Recorded Ledger) :
    WalletsFollow lower s.world (fillAll (recorded (fillOrder lower)) xs s).2.world := by
  induction xs generalizing s with
  | nil => exact fun _ _ => rfl
  | cons x xs ih =>
    refine WalletsFollow.trans ?_ (ih (recorded (fillOrder lower) x.2 s).2)
    by_cases hs : s.hung = true
    · simp [recorded, hs, WalletsFollow]
    · simpa [recorded, hs] using walletsFollow_fillOrder lower x.2 s.world

/-- The row is updated and the wallet is not. -/
def CallRecord.Torn (lower : List Char → Option (List Char)) (c : CallRecord Ledger) : Prop :=
  c.RowUpdated ∧ ¬ c.WalletUpdated lower

/-- The calls `new` of a scan for the orders `xs` either have a torn one, which shows in the table,
or keep the ledger. -/
inductive ScanCase (lower : List Char → Option (List Char)) (xs : List (Addr × TradeOrder))
    (s t : Recorded Ledger) (fills : List Fill) (new : List (CallRecord Ledger)) : Prop where
  | torn (htorn : ∃ c ∈ new, c.Torn lower)
      (hseen : (∃ c ∈ new, ¬ c.Agrees) ∨ (t.hung = true ∧ ¬ t.world.Agrees))
  | settled (hwhole : ∀ c ∈ new, ¬ c.Torn lower) (hagrees : ∀ c ∈ new, c.Agrees)
      (hhung : t.hung = false) (hworld : t.world.Settled)
      (hrows : t.world.rows = markAll (filledIds fills) s.world.rows)
      (hkept : (∀ x ∈ xs, s.world.status x.2 = 'O') →
        (∃ c ∈ new, ¬ c.RowUpdated ∧ ¬ c.Kept) ∨
          ((∀ c ∈ new, c.RowUpdated ∧ c.Kept) ∧
            ∀ o, o.id ∉ filledIds fills → t.world.status o = s.world.status o))

namespace ScanCase

variable {lower : List Char → Option (List Char)} {xs : List (Addr × TradeOrder)}
  {x : Addr × TradeOrder} {s s₁ t : Recorded Ledger} {fills : List Fill}
  {c : CallRecord Ledger} {new : List (CallRecord Ledger)}

theorem cons_torn (htorn : ∃ c ∈ new, c.Torn lower)
    (hseen : (∃ c ∈ new, ¬ c.Agrees) ∨ (t.hung = true ∧ ¬ t.world.Agrees)) :
    ScanCase lower xs s t fills (c :: new) := by
  refine .torn ?_ (hseen.imp_left ?_)
  · obtain ⟨d, hd, h⟩ := htorn
    exact ⟨d, List.mem_cons_of_mem _ hd, h⟩
  · rintro ⟨d, hd, h⟩
    exact ⟨d, List.mem_cons_of_mem _ hd, h⟩

/-- A call whose row is not updated leaves the table alone, but not its order in memory. -/
theorem cons_failed (h : ScanCase lower xs s₁ t fills new) (hc : callRecord lower x.2 s.world = c)
    (hs₁ : s₁.world = c.after) (hagrees : c.Agrees) (hrow : ¬ c.RowUpdated)
    (hresult : c.result = some false) (hrows : c.after.rows = s.world.rows) :
    ScanCase lower (x :: xs) s t (⟨x.1, x.2, false⟩ :: fills) (c :: new) := by
  cases h with
  | torn htorn hseen => exact .cons_torn htorn hseen
  | settled hwhole hagrees' hhung hworld hmark hkept =>
    refine .settled (List.forall_mem_cons.mpr ⟨fun h => hrow h.1, hwhole⟩)
      (List.forall_mem_cons.mpr ⟨hagrees, hagrees'⟩) hhung hworld ?_
      fun hO => .inl ⟨c, by simp, hrow, fun hk => ?_⟩
    · simpa [hs₁, hrows, filledIds] using hmark
    · subst hc
      have hsame : (fillOrder lower x.2 s.world).2.status x.2 = s.world.status x.2 := (hk hresult).1
      rw [status_fillOrder, if_pos rfl, hO x (by simp)] at hsame
      simp at hsame

/-- A call that is made in full closes its row. -/
theorem cons_filled (h : ScanCase lower xs s₁ t fills new) (hc : callRecord lower x.2 s.world = c)
    (hs₁ : s₁.world = c.after) (hagrees : c.Agrees) (hrow : c.RowUpdated)
    (hwallet : c.WalletUpdated lower) (hresult : c.result = some true)
    (hrows : c.after.rows = markFilled x.2.id s.world.rows) (hne : ∀ y ∈ xs, y.2.id ≠ x.2.id) :
    ScanCase lower (x :: xs) s t (⟨x.1, x.2, true⟩ :: fills) (c :: new) := by
  cases h with
  | torn htorn hseen => exact .cons_torn htorn hseen
  | settled hwhole hagrees' hhung hworld hmark hkept =>
    refine .settled (List.forall_mem_cons.mpr ⟨fun h => h.2 hwallet, hwhole⟩)
      (List.forall_mem_cons.mpr ⟨hagrees, hagrees'⟩) hhung hworld ?_ fun hO => ?_
    · rw [hmark, hs₁, hrows, markFilled_eq, markAll_append]
      simp [filledIds]
    · have hstatus : ∀ o, o.id ≠ x.2.id → s₁.world.status o = s.world.status o := fun o ho => by
        rw [hs₁, ← hc]
        exact (status_fillOrder lower x.2 s.world o).trans (if_neg ho)
      have hO₁ : ∀ y ∈ xs, s₁.world.status y.2 = 'O' := fun y hy => by
        rw [hstatus y.2 (hne y hy), hO y (by simp [hy])]
      rcases hkept hO₁ with ⟨d, hd, hnot⟩ | ⟨hall, hsame⟩
      · exact .inl ⟨d, List.mem_cons_of_mem _ hd, hnot⟩
      refine .inr ⟨List.forall_mem_cons.mpr ⟨⟨hrow, fun h => by simp [hresult] at h⟩, hall⟩, ?_⟩
      intro o ho
      simp only [filledIds, List.filter_cons_of_pos, List.map_cons, List.mem_cons, not_or] at ho
      rw [hsame o ho.2, hstatus o ho.1]

end ScanCase

/-- The calls for different orders with open rows. -/
theorem scan_cases (lower : List Char → Option (List Char)) {xs : List (Addr × TradeOrder)}
    (hids : (xs.map (·.2.id)).Nodup) {s : Recorded Ledger} (hs : s.hung = false)
    (hworld : s.world.Settled)
    (hopen : ∀ x ∈ xs, ∃ r ∈ s.world.rows, r.id = x.2.id ∧ r.status = 'O') :
    ∃ new, (fillAll (recorded (fillOrder lower)) xs s).2.calls = s.calls ++ new ∧
      ScanCase lower xs s (fillAll (recorded (fillOrder lower)) xs s).2
        (fillAll (recorded (fillOrder lower)) xs s).1 new := by
  induction xs generalizing s with
  | nil =>
    refine ⟨[], by simp [fillAll], .settled (by simp) (by simp) hs hworld ?_ ?_⟩
    · simp [fillAll, filledIds]
    · exact fun _ => .inr ⟨by simp, fun _ _ => rfl⟩
  | cons x xs ih =>
    obtain ⟨hx, hids⟩ := List.nodup_cons.mp hids
    obtain ⟨r, hr, hid, hropen⟩ := hopen x (by simp)
    have hcase := callRecord_cases lower x.2 s.world
    obtain ⟨c, hc⟩ : ∃ c, callRecord lower x.2 s.world = c := ⟨_, rfl⟩
    have hbefore : c.before = s.world := by rw [← hc]; rfl
    have horder : c.order = x.2 := by rw [← hc]; rfl
    rw [hc] at hcase
    let s₁ : Recorded Ledger := ⟨c.after, s.calls ++ [c], c.result.isNone⟩
    have hcons : fillAll (recorded (fillOrder lower)) (x :: xs) s =
        (⟨x.1, x.2, c.result.getD false⟩ :: (fillAll (recorded (fillOrder lower)) xs s₁).1,
          (fillAll (recorded (fillOrder lower)) xs s₁).2) := by
      simp only [fillAll, recorded_of_running hs, s₁, ← hc, callRecord]
    rw [hcons]
    cases hcase with
    | failed hrow hresult hrows hpaid =>
      rw [hbefore] at hrows hpaid
      have hs₁ : s₁.hung = false := by simp [s₁, hresult]
      have hworld₁ : c.after.Settled := hworld.congr hrows hpaid
      obtain ⟨new, hnew, hscan⟩ := @ih hids s₁ hs₁ hworld₁ fun y hy => by
        simpa [s₁, hrows] using hopen y (by simp [hy])
      refine ⟨c :: new, by simpa [s₁] using hnew, ?_⟩
      rw [hresult]
      exact hscan.cons_failed hc rfl ⟨hbefore ▸ hworld.agrees, fun _ => hworld₁.agrees⟩ hrow hresult
        hrows
    | torn hrow hwallet hresult hrows hpaid =>
      rw [hbefore] at hrows hpaid
      have hbroken : ¬ c.after.Agrees := hworld.agrees.torn hr hropen hid (horder ▸ hrows) hpaid
      obtain ⟨new, hnew⟩ := @calls_fillAll _ (fillOrder lower) xs s₁
      refine ⟨c :: new, by simpa [s₁] using hnew, .torn ⟨c, by simp, hrow, hwallet⟩ ?_⟩
      -- the call returns 0, or it is the last one
      cases hres : c.result with
      | none =>
        rw [fillAll_of_hung (show s₁.hung = true by simp [s₁, hres])]
        exact .inr ⟨by simp [s₁, hres], hbroken⟩
      | some result => exact .inl ⟨c, by simp, fun h => hbroken (h.2 (by simp [hres]))⟩
    | filled hrow hwallet hresult hrows hpaid =>
      rw [hbefore, horder] at hrows hpaid
      have hs₁ : s₁.hung = false := by simp [s₁, hresult]
      have hworld₁ : c.after.Settled := hworld.filled hr hropen hid hrows hpaid
      have hne : ∀ y ∈ xs, y.2.id ≠ x.2.id := fun y hy heq =>
        hx (List.mem_map.mpr ⟨y, hy, heq⟩)
      obtain ⟨new, hnew, hscan⟩ := @ih hids s₁ hs₁ hworld₁ fun y hy => by
        obtain ⟨r', hr', hid', hopen'⟩ := hopen y (by simp [hy])
        refine ⟨r', ?_, hid', hopen'⟩
        rw [show s₁.world.rows = _ from hrows, markFilled_eq]
        simpa [hid', hne y hy] using @mem_markAll [x.2.id] _ _ hr'
      refine ⟨c :: new, by simpa [s₁] using hnew, ?_⟩
      rw [hresult]
      exact hscan.cons_filled hc rfl ⟨hbefore ▸ hworld.agrees, fun _ => hworld₁.agrees⟩ hrow hwallet
        hresult hrows hne

end TradeServer
