import TradeServer.Service.FillScan

/-!
# The prices that `market_monitor` scans

In every iteration and for every ticker, `fill_order` is called for the orders that rest
between the price just read and the latest price read before it, and for no others.
-/

namespace TradeServer

open Library

/-- The latest successful read; 0 is a failed one. -/
def latestPrice (first : Nat) (reads : List Nat) : Nat :=
  reads.foldl (fun last price => if price = 0 then last else price) first

/-- The read succeeded and the market moved to it across `k`. -/
def Crosses (last price k : Nat) : Prop := price ≠ 0 ∧ min last price ≤ k ∧ k ≤ max last price

instance (last price k : Nat) : Decidable (Crosses last price k) :=
  inferInstanceAs (Decidable (price ≠ 0 ∧ min last price ≤ k ∧ k ≤ max last price))

/-- Whatever lies between two latest prices was crossed by a read between them. -/
def NoneSkipped (first : Nat) (reads : List Nat) : Prop :=
  ∀ before moves k, reads = before ++ moves →
    latestPrice first reads ≠ latestPrice first before →
    min (latestPrice first before) (latestPrice first reads) ≤ k →
    k ≤ max (latestPrice first before) (latestPrice first reads) →
    ∃ before' price after, moves = before' ++ price :: after ∧
      Crosses (latestPrice first (before ++ before')) price k

/-- Iterations of `market_monitor`, with the service and the world after them. -/
def monitorRun {σ : Type} (fillOrder : FillOrder σ) (rs : List Readings) (s : Service × σ) :
    Option (Service × σ) :=
  rs.foldlM (fun s r => (marketMonitor fillOrder s.1 r s.2).map fun x => (x.1, x.2.2)) s

/-- The calls that are due for a ticker when `price` is read. -/
def due (svc : Service) (W : Books) (ticker : Ticker) (price : Nat) : List (Addr × TradeOrder) :=
  if price = 0 then []
  else withOrders svc.htOrders.entries svc.orders (W.crossed ticker (svc.lastPrices ticker) price)

theorem latestPrice_append (first : Nat) (reads reads' : List Nat) :
    latestPrice first (reads ++ reads') = latestPrice (latestPrice first reads) reads' := by
  simp [latestPrice]

theorem latestPrice_singleton (first price : Nat) :
    latestPrice first [price] = if price = 0 then first else price := rfl

theorem latestPrice_ne_zero {first : Nat} (h : first ≠ 0) (reads : List Nat) :
    latestPrice first reads ≠ 0 := by
  induction reads using List.reverseRecOn with
  | nil => exact h
  | append_singleton reads price ih =>
    rw [latestPrice_append, latestPrice_singleton]
    split_ifs with hp
    · exact ih
    · exact hp

/-- Consecutive scans share an endpoint. -/
theorem crosses_between {first k : Nat} {reads : List Nat} (hne : latestPrice first reads ≠ first)
    (hlo : min first (latestPrice first reads) ≤ k)
    (hhi : k ≤ max first (latestPrice first reads)) :
    ∃ before price after, reads = before ++ price :: after ∧
      Crosses (latestPrice first before) price k := by
  induction reads generalizing first with
  | nil => exact absurd rfl hne
  | cons price reads ih =>
    by_cases hc : Crosses first price k
    · exact ⟨[], price, reads, rfl, hc⟩
    have hcons : ∀ rest, latestPrice first (price :: rest) =
        latestPrice (if price = 0 then first else price) rest := fun _ => rfl
    rw [hcons] at hne hlo hhi
    -- the rest of the reads moves from the new price on
    obtain ⟨before, price', after, hsplit, hcross⟩ :=
      @ih (if price = 0 then first else price)
        (by
          intro heq
          rw [heq] at hne hlo hhi
          by_cases hp : price = 0
          · simp [hp] at hne
          · rw [if_neg hp] at hlo hhi
            exact hc ⟨hp, hlo, hhi⟩)
        (by
          by_cases hp : price = 0
          · simpa [hp] using hlo
          · simp only [if_neg hp, Crosses] at hlo hhi hc ⊢
            omega)
        (by
          by_cases hp : price = 0
          · simpa [hp] using hhi
          · simp only [if_neg hp, Crosses] at hlo hhi hc ⊢
            omega)
    exact ⟨price :: before, price', after, by simp [hsplit], by rwa [hcons]⟩

theorem noneSkipped (first : Nat) (reads : List Nat) : NoneSkipped first reads := by
  rintro before moves k rfl hne hlo hhi
  rw [latestPrice_append] at hne hlo hhi
  obtain ⟨before', price, after, hsplit, hcross⟩ := crosses_between hne hlo hhi
  exact ⟨before', price, after, hsplit, by rwa [latestPrice_append]⟩

namespace Holds

variable {svc : Service} {W : Books} {σ : Type} (fillOrder : FillOrder σ)

/-- One ticker: the due calls are made, and only its own books change. -/
theorem monitorTicker (h : Holds svc W) {ticker : Ticker} (hlast : svc.lastPrices ticker ≠ 0)
    (price : Nat) (world : σ) :
    ∃ svc' fills world' W', TradeServer.monitorTicker fillOrder svc ticker price world =
        some (svc', fills, world') ∧ Holds svc' W' ∧
      fills.map (fun f => (f.node, f.order)) = due svc W ticker price ∧
      svc'.lastPrices = Function.update svc.lastPrices ticker
        (latestPrice (svc.lastPrices ticker) [price]) ∧
      (∀ t p, t ≠ ticker → due svc' W' t p = due svc W t p) := by
  by_cases hp : price = 0
  · exact ⟨svc, [], world, W, by simp [TradeServer.monitorTicker, hp], h, by simp [due, hp],
      by simp [latestPrice_singleton, hp], fun _ _ _ => rfl⟩
  obtain ⟨svc', hrun, h', hht, horders, hprices, -⟩ := h.processFills fillOrder hlast price world
  generalize hc : callsOn fillOrder svc.htOrders.entries svc.orders
    (W.crossed ticker (svc.lastPrices ticker) price) world = calls at hrun h'
  refine ⟨{ svc' with lastPrices := Function.update svc'.lastPrices ticker price }, calls.1,
    calls.2,
    W.without (filledNodes calls.1), by simp [TradeServer.monitorTicker, hp, hrun],
    h'.setTimes _ _, ?_, by simp [latestPrice_singleton, hp, hprices], ?_⟩
  · rw [← hc, callsOn, fillAll_calls, due, if_neg hp]
  · intro t p ht
    have hother : ∀ side, W.without (filledNodes calls.1) (t, side) = W (t, side) := by
      intro side
      rw [← hc]
      refine h.without_filled (fun x hx => ?_) fillOrder world
      obtain ⟨side', k, -, -, hm⟩ := (Books.mem_crossed h.sorted).mp hx
      exact ⟨(ticker, side'), k, by simp [Ne.symm ht], hm⟩
    simp only [due, hht, horders, hprices, Function.update_of_ne ht, Books.crossed, hother]

theorem monitorTickers (h : Holds svc W) (prices : Ticker → Nat) {ts : List Ticker}
    (hts : ts.Nodup) (hlast : ∀ t, svc.lastPrices t ≠ 0) (world : σ) :
    ∃ svc' log world' W', TradeServer.monitorTickers fillOrder prices ts svc world =
        some (svc', log, world') ∧ Holds svc' W' ∧ log.map Prod.fst = ts ∧
      (∀ t fills, (t, fills) ∈ log →
        fills.map (fun f => (f.node, f.order)) = due svc W t (prices t)) ∧
      ∀ t, svc'.lastPrices t =
        if t ∈ ts then latestPrice (svc.lastPrices t) [prices t] else svc.lastPrices t := by
  induction ts generalizing svc W world with
  | nil => exact ⟨svc, [], world, W, rfl, h, rfl, by simp, by simp⟩
  | cons ticker ts ih =>
    obtain ⟨hticker, hts⟩ := List.nodup_cons.mp hts
    obtain ⟨svc₁, fills, world₁, W₁, hrun₁, h₁, hfills, hprices₁, hdue⟩ :=
      h.monitorTicker fillOrder (hlast ticker) (prices ticker) world
    have hlast₁ : ∀ t, svc₁.lastPrices t ≠ 0 := by
      intro t
      rw [hprices₁]
      by_cases ht : t = ticker
      · subst ht
        rw [Function.update_self]
        exact latestPrice_ne_zero (hlast t) _
      · rw [Function.update_of_ne ht]
        exact hlast t
    obtain ⟨svc₂, log, world₂, W₂, hrun₂, h₂, hlog, hrest, hprices₂⟩ := ih h₁ hts hlast₁ world₁
    refine ⟨svc₂, (ticker, fills) :: log, world₂, W₂,
      by simp [TradeServer.monitorTickers, hrun₁, hrun₂],
      h₂, by simp [hlog], fun t fills' hm => ?_, fun t => ?_⟩
    · rcases List.mem_cons.mp hm with heq | hm
      · obtain ⟨rfl, rfl⟩ := Prod.mk.inj heq
        exact hfills
      · have ht : t ≠ ticker :=
          fun ht => hticker (by rw [← ht, ← hlog]; exact List.mem_map_of_mem hm)
        rw [hrest t fills' hm, hdue t _ ht]
    · rw [hprices₂, hprices₁]
      by_cases ht : t = ticker
      · subst ht
        simp [hticker]
      · simp [ht]

/-- One iteration. -/
theorem marketMonitor (h : Holds svc W) (hlast : ∀ t, svc.lastPrices t ≠ 0) (r : Readings)
    (world : σ) :
    ∃ svc' log world' W', TradeServer.marketMonitor fillOrder svc r world =
        some (svc', log, world') ∧ Holds svc' W' ∧ log.map Prod.fst = allTickers ∧
      (∀ t fills, (t, fills) ∈ log →
        fills.map (fun f => (f.node, f.order)) = due svc W t (r.prices t)) ∧
      ∀ t, svc'.lastPrices t = latestPrice (svc.lastPrices t) [r.prices t] := by
  obtain ⟨svc₁, log, world', W₁, hrun₁, h₁, hlog, hdue, hprices₁⟩ :=
    h.monitorTickers fillOrder r.prices (show allTickers.Nodup by decide) hlast world
  obtain ⟨svc', W', hload, h', hprices⟩ := h₁.loadOrders r.answers r.now
  refine ⟨svc', log, world', W', by simp [TradeServer.marketMonitor, hrun₁, hload], h', hlog, hdue,
    fun t => ?_⟩
  have ht : t ∈ allTickers := by cases t <;> simp [allTickers]
  rw [hprices, hprices₁, if_pos ht]

/-- The due calls are those for the resting orders whose prices are crossed. -/
theorem mem_due (h : Holds svc W) {ticker : Ticker} {price : Nat} {n : Addr} {o : TradeOrder} :
    (n, o) ∈ due svc W ticker price ↔ ∃ side k a, svc.Listed (ticker, side) k n a ∧
      svc.orderOf a = some o ∧ Crosses (svc.lastPrices ticker) price k := by
  simp only [h.listed_iff]
  by_cases hp : price = 0
  · simp [due, hp, Crosses]
  · simp only [due, if_neg hp, mem_withOrders, Books.mem_crossed h.sorted]
    constructor
    · rintro ⟨a, ⟨side, k, hlo, hhi, hm⟩, ho⟩
      exact ⟨side, k, a, hm, ho, hp, hlo, hhi⟩
    · rintro ⟨side, k, a, hm, ho, -, hlo, hhi⟩
      exact ⟨a, ⟨side, k, hlo, hhi, hm⟩, ho⟩

/-- A list node is due at most once. -/
theorem due_nodup (h : Holds svc W) (ticker : Ticker) (price : Nat) :
    ((due svc W ticker price).map Prod.fst).Nodup := by
  by_cases hp : price = 0
  · simp [due, hp]
  · rw [due, if_neg hp]
    exact (h.crossed_nodup _ _ _).sublist withOrders_nodes

end Holds

theorem monitorRun_append {σ : Type} (fillOrder : FillOrder σ) (rs : List Readings) (r : Readings)
    (s : Service × σ) :
    monitorRun fillOrder (rs ++ [r]) s = (monitorRun fillOrder rs s).bind fun s =>
      (marketMonitor fillOrder s.1 r s.2).map fun x => (x.1, x.2.2) := by
  simp [monitorRun, List.foldlM_append]

/-- The state after any number of iterations. -/
theorem monitorRun_holds {σ : Type} (fillOrder : FillOrder σ) {svc : Service} {W : Books}
    (h : Holds svc W) (hlast : ∀ t, svc.lastPrices t ≠ 0) (rs : List Readings) (world : σ) :
    ∃ svc' world' W', monitorRun fillOrder rs (svc, world) = some (svc', world') ∧ Holds svc' W' ∧
      ∀ t, svc'.lastPrices t = latestPrice (svc.lastPrices t) (rs.map (·.prices t)) := by
  induction rs using List.reverseRecOn with
  | nil => exact ⟨svc, world, W, rfl, h, fun _ => rfl⟩
  | append_singleton rs r ih =>
    obtain ⟨svc₁, world₁, W₁, hrun₁, h₁, hprices₁⟩ := ih
    have hlast₁ : ∀ t, svc₁.lastPrices t ≠ 0 := fun t => by
      rw [hprices₁]
      exact latestPrice_ne_zero (hlast t) _
    obtain ⟨svc', log, world', W', hrun, h', -, -, hprices⟩ :=
      h₁.marketMonitor fillOrder hlast₁ r world₁
    refine ⟨svc', world', W', by simp [monitorRun_append, hrun₁, hrun], h', fun t => ?_⟩
    rw [hprices, hprices₁, ← latestPrice_append, List.map_append]
    rfl

theorem initService_holds (unset : Nat) (first : Ticker → Nat)
    (answers : Ticker → Side → Option (List TradeOrder)) (now : Nat × Nat) :
    ∃ svc W, initService (tradeServiceInit unset) first answers now = some (svc, true) ∧
      Holds svc W ∧ svc.lastPrices = first := by
  have h := holds_tradeServiceInit unset
  obtain ⟨svc, W, hrun, h', hprices⟩ := @Holds.loadOrders
    { tradeServiceInit unset with
      lastPrices := fun t => if first t = 0 then (tradeServiceInit unset).lastPrices t else first t
      lastOrderReadTime := now.1 - BACKLOAD_WEEKS * 604800 }
    _ (h.setTimes _ _) answers now.2
  refine ⟨svc, W, hrun, h', hprices.trans (funext fun t => ?_)⟩
  by_cases ht : first t = 0 <;> simp [ht, tradeServiceInit]

theorem mem_map_calls {fills : List Fill} {n : Addr} {o : TradeOrder} :
    (n, o) ∈ fills.map (fun f => (f.node, f.order)) ↔ ∃ filled, ⟨n, o, filled⟩ ∈ fills := by
  rw [List.mem_map]
  constructor
  · rintro ⟨⟨n', o', filled⟩, hf, heq⟩
    obtain ⟨rfl, rfl⟩ := Prod.mk.inj heq
    exact ⟨filled, hf⟩
  · rintro ⟨filled, hf⟩
    exact ⟨_, hf, rfl⟩

/-- Once `init_service` has a last price for every ticker, each iteration calls `fill_order` once
for every order that rests at a price between the one just read and the latest one before it, and
for no other order; a failed read leads to no call. -/
theorem marketMonitor_scans_crossed {σ : Type} (fillOrder : FillOrder σ) (unset : Nat)
    (first : Ticker → Nat) (answers : Ticker → Side → Option (List TradeOrder)) (now : Nat × Nat)
    (hfirst : ∀ t, first t ≠ 0) (world : σ) (rs : List Readings) (r : Readings) :
    ∃ svc₀ svc svc' log world₁ world₂,
      initService (tradeServiceInit unset) first answers now = some (svc₀, true) ∧
      monitorRun fillOrder rs (svc₀, world) = some (svc, world₁) ∧
      marketMonitor fillOrder svc r world₁ = some (svc', log, world₂) ∧
      log.map Prod.fst = allTickers ∧
      ∀ ticker fills, (ticker, fills) ∈ log →
        (∀ side k n a o, svc.Listed (ticker, side) k n a → svc.orderOf a = some o →
          ((∃ filled, ⟨n, o, filled⟩ ∈ fills) ↔
            Crosses (latestPrice (first ticker) (rs.map (·.prices ticker))) (r.prices ticker) k)) ∧
        (∀ f ∈ fills, ∃ side k a, svc.Listed (ticker, side) k f.node a ∧
          svc.orderOf a = some f.order) ∧
        (fills.map (·.node)).Nodup ∧
        NoneSkipped (first ticker) ((rs ++ [r]).map (·.prices ticker)) := by
  obtain ⟨svc₀, W₀, hinit, h₀, hprices₀⟩ := initService_holds unset first answers now
  obtain ⟨svc, world₁, W, hrun, h, hprices⟩ :=
    monitorRun_holds fillOrder h₀ (fun t => by rw [hprices₀]; exact hfirst t) rs world
  rw [hprices₀] at hprices
  obtain ⟨svc', log, world₂, W', hmon, -, hlog, hdue, -⟩ := h.marketMonitor fillOrder
    (fun t => by rw [hprices]; exact latestPrice_ne_zero (hfirst t) _) r world₁
  refine ⟨svc₀, svc, svc', log, world₁, world₂, hinit, hrun, hmon, hlog, fun ticker fills hm => ?_⟩
  have hfills := hdue ticker fills hm
  have hcall : ∀ n o, (∃ filled, ⟨n, o, filled⟩ ∈ fills) ↔
      (n, o) ∈ due svc W ticker (r.prices ticker) := fun n o => by rw [← hfills, mem_map_calls]
  refine ⟨fun side k n a o hlisted ho => ?_, fun f hf => ?_, ?_, noneSkipped _ _⟩
  · rw [hcall, h.mem_due, hprices]
    constructor
    · rintro ⟨side', k', a', hlisted', -, hcross⟩
      rw [h.listed_iff] at hlisted hlisted'
      obtain ⟨-, rfl, -⟩ := h.node_unique hlisted hlisted'
      exact hcross
    · intro hcross
      exact ⟨side, k, a, hlisted, ho, hcross⟩
  · obtain ⟨side, k, a, hlisted, ho, -⟩ := h.mem_due.mp ((hcall f.node f.order).mp ⟨f.filled, hf⟩)
    exact ⟨side, k, a, hlisted, ho⟩
  · have : fills.map (·.node) = (due svc W ticker (r.prices ticker)).map Prod.fst := by
      rw [← hfills, List.map_map]
      rfl
    rw [this]
    exact h.due_nodup ticker _

/-- The answers of a database with one buy order for SPARK, at 4. -/
def oneBuyOrder (ticker : Ticker) (side : Side) : Option (List TradeOrder) :=
  some (if (ticker, side) = (.SPARK, .BUY) then
    [⟨7, 1, tickers .SPARK, 'B', 'O', 'L', 10, 4, 100⟩] else [])

/-- A buy order at 4, a last price of 5, a failed read and then a price of 3: the order is listed
and passed. -/
theorem marketMonitor_scans_after_failed_read :
    ∃ svc₀ svc svc' log fills n a o filled,
      initService (tradeServiceInit 0) (fun _ => 5) oneBuyOrder (90, 100) = some (svc₀, true) ∧
      monitorRun (fun _ world => (true, world)) [⟨fun _ => 0, fun _ _ => none, 102⟩] (svc₀, ()) =
        some (svc, ()) ∧
      marketMonitor (fun _ world => (true, world)) svc ⟨fun _ => 3, fun _ _ => none, 104⟩ () =
        some (svc', log, ()) ∧
      (.SPARK, fills) ∈ log ∧ svc.Listed (.SPARK, .BUY) 4 n a ∧ svc.orderOf a = some o ∧
      o.id = 7 ∧ ⟨n, o, filled⟩ ∈ fills := by
  have hlisted : ((initService (tradeServiceInit 0) (fun _ => 5) oneBuyOrder (90, 100)).bind
      fun s => (monitorRun (fun _ world => (true, world)) [⟨fun _ => 0, fun _ _ => none, 102⟩]
        (s.1, ())).bind fun s => (s.1.walk (.SPARK, .BUY)).bind fun W =>
          (W.get 4).head?.bind fun p => (s.1.orderOf p.2).map (·.id)) = some 7 := by
    decide +kernel
  obtain ⟨svc₀, svc, svc', log, _, _, hinit, hrun, hmon, htickers, hscan⟩ :=
    marketMonitor_scans_crossed (fun _ (world : Unit) => (true, world)) 0 (fun _ => 5)
      oneBuyOrder (90, 100) (fun _ => by decide) ()
      [⟨fun _ => 0, fun _ _ => none, 102⟩] ⟨fun _ => 3, fun _ _ => none, 104⟩
  rw [hinit, Option.bind_some, hrun, Option.bind_some] at hlisted
  obtain ⟨W, hwalk, hlisted⟩ := Option.bind_eq_some_iff.mp hlisted
  obtain ⟨⟨n, a⟩, hhead, hlisted⟩ := Option.bind_eq_some_iff.mp hlisted
  obtain ⟨o, ho, hid⟩ := Option.map_eq_some_iff.mp hlisted
  have hbook : svc.Listed (.SPARK, .BUY) 4 n a := ⟨W, hwalk, List.mem_of_mem_head? hhead⟩
  have hspark : Ticker.SPARK ∈ log.map Prod.fst := by rw [htickers]; decide
  obtain ⟨⟨_, fills⟩, hm, rfl⟩ := List.mem_map.mp hspark
  obtain ⟨filled, hfill⟩ := ((hscan _ fills hm).1 .BUY 4 n a o hbook ho).mpr (by decide)
  exact ⟨svc₀, svc, svc', log, fills, n, a, o, filled, hinit, hrun, hmon, hm, hbook, ho, hid,
    hfill⟩

end TradeServer
