import TradeServer.Library.System
import TradeServer.Service.FillScan
import TradeServer.Service.HashKeys

/-!
# The service and its database over time

Orders are inserted while the service runs its cycles of `load_orders`, whose queries
are steps of their own, and scans for fills between the cycles. The order table and
`db_timestamp` share a clock of seconds; rows have the second of their insertion.
-/

namespace TradeServer

open Library

structure Market where
  clock : Nat
  rows : List TradeOrder
  svc : Service
  /-- The queries to come in the running cycle, none between cycles. -/
  cycle : Option (List BookId)
  /-- The calls of `fill_order` so far. -/
  fills : List Fill
  /-- The backload limit at the start of the service. -/
  since : Nat
  /-- The rows at the start of the latest cycle. -/
  snapshot : List TradeOrder
  /-- The orders that came into the running cycle too late for the query of their book. -/
  late : List TradeOrder

inductive MarketEvent where
  | tick
  | insert (o : TradeOrder)
  | beginCycle
  /-- The next query; `all` are its rows before the `LIMIT`. -/
  | query (all : List TradeOrder)
  | refresh
  | fill (ticker : Ticker) (currentPrice : Nat) (outcomes : List Bool)
  | price (ticker : Ticker) (price : Nat)

/-- The order belongs to the book of its ticker and side. -/
def BookId.Has (b : BookId) (o : TradeOrder) : Prop := o.ticker = tickers b.1 ∧ o.side = b.2.char

instance (b : BookId) (o : TradeOrder) : Decidable (b.Has o) :=
  inferInstanceAs (Decidable (o.ticker = tickers b.1 ∧ o.side = b.2.char))

/-- `UPDATE ... SET status='F' WHERE id=...` -/
def markFilled (id : Nat) (rows : List TradeOrder) : List TradeOrder :=
  rows.map fun r => if r.id = id then { r with status := 'F' } else r

/-- `fill_order` with results given in advance, on the rows of the order table. -/
def fillRow : FillOrder (List TradeOrder × List Bool) := fun o (rows, outcomes) =>
  let filled := outcomes.headD false
  (filled, if filled then markFilled o.id rows else rows, outcomes.tail)

/-- Rows with ids of their own that fit the hash key. -/
structure RowIds (rows : List TradeOrder) : Prop where
  nodup : (rows.map (·.id)).Nodup
  small : ∀ r ∈ rows, r.id < 10 ^ 14

/-- A new row: open, with the current second and an id of its own that fits the hash key. -/
def Insertable (s : Market) (o : TradeOrder) : Prop :=
  o.createdAt = s.clock ∧ o.status = 'O' ∧ o.id < 10 ^ 14 ∧ o.id ∉ s.rows.map (·.id)

instance (s : Market) : DecidablePred (Insertable s) := fun _ =>
  inferInstanceAs (Decidable (_ ∧ _ ∧ _ ∧ _))

/-- `all` is a result of the query before its `LIMIT`. -/
def ResultOf (q : Query) (rows all : List TradeOrder) : Prop :=
  all.Perm (rows.filter q.Matches) ∧ all.Pairwise q.Before

instance (q : Query) (rows all : List TradeOrder) : Decidable (ResultOf q rows all) :=
  inferInstanceAs (Decidable (_ ∧ _))

/-- The order is late when the query of its book is over. -/
def lateInsert (cycle : Option (List BookId)) (o : TradeOrder) : List TradeOrder :=
  match cycle with
  | some pending => if ∃ b ∈ loadSequence, BookId.Has b o ∧ b ∉ pending then [o] else []
  | none => []

def marketStep (s : Market) : MarketEvent → Option Market
  | .tick => some { s with clock := s.clock + 1 }
  | .insert o =>
    if Insertable s o then
      some { s with rows := s.rows ++ [o], late := s.late ++ lateInsert s.cycle o }
    else none
  | .beginCycle =>
    if s.cycle = none then
      some { s with cycle := some loadSequence, snapshot := s.rows, late := [] }
    else none
  | .query all =>
    match s.cycle with
    | some (b :: pending) =>
      let q := loadQuery s.svc b.1 b.2
      if ResultOf q s.rows all then
        (loadOrdersHelper s.svc b.1 b.2 (some (all.take q.limit))).map fun result =>
          { s with
            svc := result.1
            cycle := some pending
            late := s.late ++ (all.drop q.limit).filter (· ∉ s.snapshot) }
      else none
    | _ => none
  | .refresh =>
    if s.cycle = some [] then
      some { s with svc := { s.svc with lastOrderReadTime := s.clock }, cycle := none }
    else none
  | .fill ticker currentPrice outcomes =>
    if s.cycle = none then
      (processFills fillRow s.svc ticker currentPrice (s.rows, outcomes)).map fun result =>
        { s with svc := result.1, fills := s.fills ++ result.2.1, rows := result.2.2.1 }
    else none
  | .price ticker price =>
    some { s with
      svc := { s.svc with lastPrices := Function.update s.svc.lastPrices ticker price } }

/-- The service as `init_service` has it before its load, and a table of rows with ids of their
own. -/
structure MarketStart (s : Market) : Prop where
  svc : ∃ unset lastPrices, s.svc = { tradeServiceInit unset with
    lastPrices := lastPrices, lastOrderReadTime := s.since }
  since : s.since = s.clock - BACKLOAD_WEEKS * 604800
  cycle : s.cycle = none
  fills : s.fills = []
  snapshot : s.snapshot = []
  ids : RowIds s.rows
  past : ∀ o ∈ s.rows, o.createdAt ≤ s.clock

def market : System Market MarketEvent where
  init := MarketStart
  step s e t := marketStep s e = some t

def marketRun (s : Market) (es : List MarketEvent) : Option Market := es.foldlM marketStep s

theorem marketRun_append (s : Market) (es es' : List MarketEvent) :
    marketRun s (es ++ es') = (marketRun s es).bind (marketRun · es') := by
  simp [marketRun, List.foldlM_append]

/-- An empty table twelve weeks after the start of the clock, and a price of 5 for every ticker. -/
def emptyMarket : Market where
  clock := 7257600
  rows := []
  svc := { tradeServiceInit 0 with lastPrices := fun _ => 5, lastOrderReadTime := 0 }
  cycle := none
  fills := []
  since := 0
  snapshot := []
  late := []

theorem marketStart_emptyMarket : MarketStart emptyMarket :=
  ⟨⟨0, fun _ => 5, rfl⟩, by decide, rfl, rfl, rfl, ⟨by simp [emptyMarket], by simp [emptyMarket]⟩,
    by simp [emptyMarket]⟩

/-- A buy order for the first ticker, inserted at once. -/
def firstOrder : TradeOrder := ⟨7, 1, tickers .ANDTHEN, 'B', 'O', 'L', 10, 4, 7257600⟩

/-- A cycle whose first query returns the rows and whose other queries return nothing. -/
def cycleOf (rows : List TradeOrder) : List MarketEvent :=
  [.beginCycle, .query rows] ++ List.replicate 7 (.query []) ++ [.refresh]

theorem RowIds.append {rows : List TradeOrder} {o : TradeOrder} (h : RowIds rows)
    (hsmall : o.id < 10 ^ 14) (hfresh : o.id ∉ rows.map (·.id)) : RowIds (rows ++ [o]) := by
  refine ⟨?_, fun r hr => ?_⟩
  · rw [List.map_append, List.nodup_append]
    refine ⟨h.nodup, by simp, fun i hi j hj => ?_⟩
    obtain rfl : j = o.id := by simpa using hj
    exact fun heq => hfresh (heq ▸ hi)
  · rcases List.mem_append.mp hr with hr | hr
    · exact h.small r hr
    · obtain rfl := List.mem_singleton.mp hr
      exact hsmall

theorem RowIds.insert {s : Market} {o : TradeOrder} (h : RowIds s.rows) (ho : Insertable s o) :
    RowIds (s.rows ++ [o]) := by
  obtain ⟨-, -, hsmall, hfresh⟩ := ho
  exact h.append hsmall hfresh

/-- Rows with the same id are the same. -/
theorem RowIds.eq_of_id {rows : List TradeOrder} (h : RowIds rows) {r r' : TradeOrder}
    (hr : r ∈ rows) (hr' : r' ∈ rows) (heq : r.id = r'.id) : r = r' :=
  List.inj_on_of_nodup_map h.nodup hr hr' heq

theorem mem_loadSequence (b : BookId) : b ∈ loadSequence := by
  obtain ⟨ticker, side⟩ := b
  cases ticker <;> cases side <;> decide

/-- A query returns every open order of its book in its window. -/
theorem ResultOf.mem {svc : Service} {b : BookId} {rows all : List TradeOrder} {o : TradeOrder}
    (h : ResultOf (loadQuery svc b.1 b.2) rows all) (hrow : o ∈ rows) (hb : b.Has o)
    (hopen : o.status = 'O') (hwindow : svc.lastOrderReadTime ≤ o.createdAt) : o ∈ all :=
  h.1.symm.subset (List.mem_filter.mpr
    ⟨hrow, decide_eq_true ⟨hb.2, hopen, hb.1, hwindow⟩⟩)

/-- What it returns is in the table and matches. -/
theorem ResultOf.of_mem {q : Query} {rows all : List TradeOrder} {o : TradeOrder}
    (h : ResultOf q rows all) (ho : o ∈ all) : o ∈ rows ∧ q.Matches o := by
  simpa using h.1.subset ho

/-! ## Keys of the items -/

/-- The entries of all items have the keys of their orders. -/
def Keyed (svc : Service) (W : Books) (P : TradeOrder → Prop) : Prop :=
  ∀ b k n a, (n, a) ∈ (W b).get k →
    ∃ e o, svc.htOrders.entries.load a = some e ∧ svc.orderOf a = some o ∧
      e.key = hashKey b.2 o.id ∧ P o

namespace Keyed

variable {svc svc' : Service} {W : Books} {P : TradeOrder → Prop} {b : BookId} {o : TradeOrder}
  {n a : Addr}

theorem extend (hkeyed : Keyed svc W P) (h : Holds svc W) {os : Heap TradeOrder}
    (hos : Extends svc.orders os) : Keyed { svc with orders := os } W P := by
  intro b k n a hm
  rw [h.orderOf_extend hos hm]
  exact hkeyed b k n a hm

/-- An item leads to an order of the same id as before, also when its entry is put again. -/
theorem orderOf_load (hkeyed : Keyed svc W P) (hsmall : ∀ o, P o → o.id < 10 ^ 14)
    (hL : Loaded svc svc' W b o n a) (ho : P o) {b' : BookId} {k' : Nat} {n' a' : Addr}
    (hm : (n', a') ∈ (W b').get k') :
    ∃ e o₀ o₁, svc'.htOrders.entries.load a' = some e ∧ e.key = hashKey b'.2 o₁.id ∧
      svc.orderOf a' = some o₀ ∧ svc'.orderOf a' = some o₁ ∧ o₁.id = o₀.id ∧ P o₀ ∧ P o₁ := by
  obtain ⟨e, o₀, he, ho₀, hkey, hP⟩ := hkeyed b' k' n' a' hm
  by_cases ha : a' = a
  · subst ha
    obtain ⟨hside, hid⟩ := hashKey_injective (hsmall o ho) (hsmall o₀ hP)
      ((hL.entry_old e he).symm.trans hkey)
    obtain ⟨e', he', hkey', -⟩ := hL.entry
    exact ⟨e', o₀, o, he', by rw [hkey', hside], ho₀, hL.orderOf_self, hid, hP, ho⟩
  · exact ⟨e, o₀, o₀, by rwa [hL.entry_other a' ha], hkey, ho₀, by rwa [hL.orderOf_other a' ha],
      rfl, hP, hP⟩

theorem load (hkeyed : Keyed svc W P) (h : Holds svc W) (hsmall : ∀ o, P o → o.id < 10 ^ 14)
    (hL : Loaded svc svc' W b o n a) (ho : P o) :
    Keyed svc' (Function.update W b ((W b).push o.price (n, a))) P := by
  intro b' k' n' a' hm
  rcases (mem_push_iff (h.sorted b)).mp hm with ⟨rfl, -, heq⟩ | hm
  · obtain ⟨rfl, rfl⟩ := Prod.mk.inj heq
    obtain ⟨e, he, hkey, -⟩ := hL.entry
    exact ⟨e, o, he, hL.orderOf_self, hkey, ho⟩
  · obtain ⟨e, -, o₁, he, hkey, -, ho₁, -, -, hP⟩ := hkeyed.orderOf_load hsmall hL ho hm
    exact ⟨e, o₁, he, ho₁, hkey, hP⟩

end Keyed

/-! ## Steps -/

theorem loadOrdersHelper_result {svc svc' : Service} {ticker : Ticker} {side : Side}
    {answer : Option (List TradeOrder)} {r : Bool}
    (h : loadOrdersHelper svc ticker side answer = some (svc', r)) : r = true := by
  cases answer with
  | none => exact (Prod.mk.inj (Option.some.inj h)).2.symm
  | some rows =>
    simp only [loadOrdersHelper, Option.bind_eq_bind, Option.bind_eq_some_iff] at h
    obtain ⟨svc₁, -, heq⟩ := h
    exact (Prod.mk.inj (Option.some.inj heq)).2.symm

/-- The steps one by one. -/
inductive MarketCase (s : Market) : MarketEvent → Market → Prop where
  | tick : MarketCase s .tick { s with clock := s.clock + 1 }
  | insert {o : TradeOrder} (ho : Insertable s o) : MarketCase s (.insert o)
      { s with rows := s.rows ++ [o], late := s.late ++ lateInsert s.cycle o }
  | beginCycle (hc : s.cycle = none) : MarketCase s .beginCycle
      { s with cycle := some loadSequence, snapshot := s.rows, late := [] }
  | query {all : List TradeOrder} {b : BookId} {pending : List BookId} {svc : Service}
      (hc : s.cycle = some (b :: pending))
      (hres : ResultOf (loadQuery s.svc b.1 b.2) s.rows all)
      (hload : loadOrdersHelper s.svc b.1 b.2 (some (all.take MAX_LOAD_ORDERS)) =
        some (svc, true)) :
      MarketCase s (.query all)
        { s with
          svc := svc
          cycle := some pending
          late := s.late ++ (all.drop MAX_LOAD_ORDERS).filter (· ∉ s.snapshot) }
  | refresh (hc : s.cycle = some []) : MarketCase s .refresh
      { s with svc := { s.svc with lastOrderReadTime := s.clock }, cycle := none }
  | fill {ticker : Ticker} {currentPrice : Nat} {outcomes rest : List Bool} {svc : Service}
      {fills : List Fill} {rows : List TradeOrder} (hc : s.cycle = none)
      (hrun : processFills fillRow s.svc ticker currentPrice (s.rows, outcomes) =
        some (svc, fills, rows, rest)) :
      MarketCase s (.fill ticker currentPrice outcomes)
        { s with svc := svc, fills := s.fills ++ fills, rows := rows }
  | price {ticker : Ticker} {price : Nat} : MarketCase s (.price ticker price)
      { s with svc := { s.svc with lastPrices := Function.update s.svc.lastPrices ticker price } }

theorem marketStep_cases {s t : Market} {e : MarketEvent} (hstep : marketStep s e = some t) :
    MarketCase s e t := by
  cases e with
  | tick => exact Option.some.inj hstep ▸ .tick
  | insert o =>
    by_cases ho : Insertable s o
    · simp only [marketStep, if_pos ho, Option.some_inj] at hstep
      exact hstep ▸ .insert ho
    · simp [marketStep, ho] at hstep
  | beginCycle =>
    by_cases hc : s.cycle = none
    · simp only [marketStep, if_pos hc, Option.some_inj] at hstep
      exact hstep ▸ .beginCycle hc
    · simp [marketStep, hc] at hstep
  | query all =>
    rcases hc : s.cycle with _ | _ | ⟨b, pending⟩
    · simp [marketStep, hc] at hstep
    · simp [marketStep, hc] at hstep
    · by_cases hres : ResultOf (loadQuery s.svc b.1 b.2) s.rows all
      · simp only [marketStep, hc, if_pos hres, Option.map_eq_some_iff] at hstep
        obtain ⟨⟨svc, r⟩, hload, rfl⟩ := hstep
        obtain rfl := loadOrdersHelper_result hload
        exact .query hc hres hload
      · simp [marketStep, hc, hres] at hstep
  | refresh =>
    by_cases hc : s.cycle = some []
    · simp only [marketStep, if_pos hc, Option.some_inj] at hstep
      exact hstep ▸ .refresh hc
    · simp [marketStep, hc] at hstep
  | fill ticker currentPrice outcomes =>
    by_cases hc : s.cycle = none
    · simp only [marketStep, if_pos hc, Option.map_eq_some_iff] at hstep
      obtain ⟨⟨svc, fills, rows, rest⟩, hrun, rfl⟩ := hstep
      exact .fill hc hrun
    · simp [marketStep, hc] at hstep
  | price ticker price => exact Option.some.inj hstep ▸ .price

/-! ## Cycles -/

/-- What happens while a cycle runs. -/
def MarketEvent.InCycle : MarketEvent → Prop
  | .tick => True
  | .insert _ => True
  | .query _ => True
  | _ => False

theorem loadAll_congr {answers answers' : Ticker → Side → Option (List TradeOrder)}
    {seq : List (Ticker × Side)} (h : ∀ b ∈ seq, answers b.1 b.2 = answers' b.1 b.2)
    (svc : Service) : loadAll answers svc seq = loadAll answers' svc seq := by
  induction seq generalizing svc with
  | nil => rfl
  | cons b seq ih =>
    have hrest := fun svc => ih (fun b' hb' => h b' (by simp [hb'])) svc
    simp only [loadAll, h b (by simp), hrest]

/-- Queries for the books, one after another, with some answers of the database. -/
inductive Queried : Service → List BookId → Service → Prop where
  | nil (svc : Service) : Queried svc [] svc
  | cons {svc svc₁ svc₂ : Service} {b : BookId} {pending : List BookId}
      {answer : Option (List TradeOrder)} :
      loadOrdersHelper svc b.1 b.2 answer = some (svc₁, true) → Queried svc₁ pending svc₂ →
        Queried svc (b :: pending) svc₂

/-- They are the rest of `load_orders_all_tickers`. -/
theorem Queried.loadAll {svc svc' : Service} {pending : List BookId} (h : Queried svc pending svc')
    (hnd : pending.Nodup) :
    ∃ answers, TradeServer.loadAll answers svc pending = some (svc', true) := by
  induction h with
  | nil svc => exact ⟨fun _ _ => none, rfl⟩
  | @cons svc svc₁ svc₂ b pending answer hload _ ih =>
    obtain ⟨hb, hnd⟩ := List.nodup_cons.mp hnd
    obtain ⟨answers, hall⟩ := ih hnd
    refine ⟨fun ticker side => if (ticker, side) = b then answer else answers ticker side, ?_⟩
    have hother : TradeServer.loadAll
        (fun ticker side => if (ticker, side) = b then answer else answers ticker side) svc₁
          pending = TradeServer.loadAll answers svc₁ pending :=
      loadAll_congr (fun b' hb' => if_neg fun heq : b' = b => hb (heq ▸ hb')) svc₁
    have hsame : TradeServer.loadAll answers svc₁ pending = some (svc₂, true) := hall
    simp only [TradeServer.loadAll, if_true, hload, Option.bind_eq_bind, Option.bind_some, hother,
      hsame]

/-- A step in a cycle: the next query, or nothing that the service sees. -/
def InCycleStep (svc svc' : Service) (cycle cycle' : Option (List BookId)) : Prop :=
  (svc' = svc ∧ cycle' = cycle) ∨ ∃ b pending answer, cycle = some (b :: pending) ∧
    cycle' = some pending ∧ loadOrdersHelper svc b.1 b.2 answer = some (svc', true)

/-- Whatever happens between the queries. -/
theorem Queried.of_run {σ ε : Type*} {f : σ → ε → Option σ} {svc : σ → Service}
    {cycle : σ → Option (List BookId)} {es : List ε}
    (hstep : ∀ e ∈ es, ∀ s t, f s e = some t → InCycleStep (svc s) (svc t) (cycle s) (cycle t))
    {s t : σ} (hrun : es.foldlM f s = some t) {pending : List BookId}
    (hs : cycle s = some pending) (ht : cycle t = some []) : Queried (svc s) pending (svc t) := by
  induction es generalizing s pending with
  | nil =>
    obtain rfl := Option.some.inj hrun
    obtain rfl := Option.some.inj (hs.symm.trans ht)
    exact .nil _
  | cons e es ih =>
    obtain ⟨u, hu, hrest⟩ := foldlM_cons_eq_some.mp hrun
    have ih := fun {pending} => @ih (fun e' he' => hstep e' (by simp [he'])) u hrest pending
    rcases hstep e (by simp) s u hu with ⟨hsvc, hcycle⟩ | ⟨b, rest, answer, hcycle, hnext, hload⟩
    · exact hsvc ▸ ih (hcycle.trans hs)
    · obtain rfl := Option.some.inj (hs.symm.trans hcycle)
      exact .cons hload (ih hnext)

theorem marketStep_inCycle {e : MarketEvent} (he : e.InCycle) {s t : Market}
    (hstep : marketStep s e = some t) : InCycleStep s.svc t.svc s.cycle t.cycle := by
  cases marketStep_cases hstep with
  | tick => exact .inl ⟨rfl, rfl⟩
  | insert ho => exact .inl ⟨rfl, rfl⟩
  | query hc hres hload => exact .inr ⟨_, _, _, hc, rfl, hload⟩
  | beginCycle hc => exact absurd he not_false
  | refresh hc => exact absurd he not_false
  | fill hc hrun => exact absurd he not_false
  | price => exact absurd he not_false

/-- A cycle is a call of `load_orders` with some answers of the database. -/
theorem cycle_runs_loadOrders {es : List MarketEvent} (hes : ∀ e ∈ es, e.InCycle) {s t : Market}
    (hrun : marketRun s (.beginCycle :: es ++ [.refresh]) = some t) :
    ∃ answers now, loadOrders s.svc answers now = some (t.svc, true) := by
  obtain ⟨u, hbegin, hqueries⟩ : ∃ u, marketStep s .beginCycle = some u ∧
      (marketRun u es).bind (marketStep · .refresh) = some t := by
    simpa [marketRun, Option.bind_eq_some_iff, List.foldlM_append] using hrun
  obtain ⟨v, hv, hrefresh⟩ := Option.bind_eq_some_iff.mp hqueries
  cases marketStep_cases hbegin with
  | beginCycle hc =>
    cases marketStep_cases hrefresh with
    | refresh hc' =>
      have hqueried := Queried.of_run (fun e he s t => marketStep_inCycle (hes e he)) hv rfl hc'
      obtain ⟨answers, hall⟩ := hqueried.loadAll (by decide)
      exact ⟨answers, v.clock, by simp only [loadOrders, loadOrdersAllTickers, hall,
        Option.bind_eq_bind, Option.bind_some]⟩

end TradeServer
