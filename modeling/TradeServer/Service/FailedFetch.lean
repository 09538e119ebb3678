import TradeServer.Service.LoadComplete

/-!
# Cycles with failed fetches

A fetch that fails looks like an empty result: `load_orders_helper` reports success, the
cycle goes on, and the window of the queries is refreshed. The orders that the fetch should
have returned are behind the window from then on, unless they are of the second of the
refresh.
-/

namespace TradeServer

open Library

structure FetchMarket extends Market where
  /-- The orders that failed fetches of the latest cycle should have returned. -/
  missed : List (BookId × TradeOrder)
  /-- A fetch of the latest cycle failed. -/
  failed : Bool
  /-- The window of the queries of the latest cycle. -/
  window : Nat

inductive FetchEvent where
  | market (e : MarketEvent)
  /-- The next fetch fails; `all` are the rows of its query before the `LIMIT`. -/
  | failedQuery (all : List TradeOrder)

def fetchStep (s : FetchMarket) : FetchEvent → Option FetchMarket
  | .market e => (marketStep s.toMarket e).map fun m =>
    match e with
    | .beginCycle => ⟨m, [], false, s.svc.lastOrderReadTime⟩
    | _ => { s with toMarket := m }
  | .failedQuery all =>
    match s.cycle with
    | some (b :: pending) =>
      let q := loadQuery s.svc b.1 b.2
      if ResultOf q s.rows all then
        (loadOrdersHelper s.svc b.1 b.2 none).map fun result =>
          { s with
            svc := result.1
            cycle := some pending
            missed := s.missed ++ (all.take q.limit).map (b, ·)
            failed := true }
      else none
    | _ => none

def fetchRun (s : FetchMarket) (es : List FetchEvent) : Option FetchMarket := es.foldlM fetchStep s

/-- Insertions and loads. -/
def FetchEvent.Loads : FetchEvent → Prop
  | .market e => ¬ e.IsFill
  | .failedQuery _ => True

/-- The steps one by one. -/
inductive FetchStep (s : FetchMarket) : FetchEvent → FetchMarket → Prop where
  | begin (hc : s.cycle = none) : FetchStep s (.market .beginCycle)
      ⟨{ s.toMarket with cycle := some loadSequence, snapshot := s.rows, late := [] }, [], false,
        s.svc.lastOrderReadTime⟩
  | refresh (hc : s.cycle = some []) : FetchStep s (.market .refresh)
      { s with svc := { s.svc with lastOrderReadTime := s.clock }, cycle := none }
  | query {all : List TradeOrder} {b : BookId} {pending : List BookId} {m : Market}
      (hc : s.cycle = some (b :: pending)) (hnext : m.cycle = some pending)
      (hrows : m.rows = s.rows) :
      FetchStep s (.market (.query all)) { s with toMarket := m }
  | failedQuery {all : List TradeOrder} {b : BookId} {pending : List BookId}
      (hc : s.cycle = some (b :: pending))
      (hres : ResultOf (loadQuery s.svc b.1 b.2) s.rows all) :
      FetchStep s (.failedQuery all)
        { s with
          cycle := some pending
          missed := s.missed ++ (all.take MAX_LOAD_ORDERS).map (b, ·)
          failed := true }
  /-- A step that leaves the cycle and the books alone. -/
  | other {e : MarketEvent} {m : Market} {lastPrices : Ticker → Nat} (hc : m.cycle = s.cycle)
      (hsvc : m.svc = { s.svc with lastPrices := lastPrices }) (hrows : s.rows ⊆ m.rows)
      (hend : e ≠ .refresh) (hbegin : e ≠ .beginCycle) :
      FetchStep s (.market e) { s with toMarket := m }

theorem fetchStep_cases {s t : FetchMarket} {e : FetchEvent} (he : e.Loads)
    (hstep : fetchStep s e = some t) : FetchStep s e t := by
  cases e with
  | failedQuery all =>
    rcases hc : s.cycle with _ | _ | ⟨b, pending⟩
    · simp [fetchStep, hc] at hstep
    · simp [fetchStep, hc] at hstep
    · by_cases hres : ResultOf (loadQuery s.svc b.1 b.2) s.rows all
      · simp only [fetchStep, hc, if_pos hres, loadOrdersHelper, Option.map_some,
          Option.some_inj] at hstep
        subst hstep
        exact .failedQuery hc hres
      · simp [fetchStep, hc, hres] at hstep
  | market e =>
    obtain ⟨m, hm, rfl⟩ := Option.map_eq_some_iff.mp hstep
    cases marketStep_cases hm with
    | tick => exact .other rfl rfl (List.Subset.refl _) (by simp) (by simp)
    | insert ho => exact .other rfl rfl (List.subset_append_left _ _) (by simp) (by simp)
    | beginCycle hc => exact .begin hc
    | query hc hres hload => exact .query hc rfl rfl
    | refresh hc => exact .refresh hc
    | fill hc hrun => exact absurd trivial he
    | price => exact .other rfl rfl (List.Subset.refl _) (by simp) (by simp)

/-- What happens while a cycle runs. -/
def FetchEvent.InCycle : FetchEvent → Prop
  | .market e => e.InCycle
  | .failedQuery _ => True

/-- A cycle with failed fetches is a call of `load_orders` with some answers of the database. -/
theorem fetch_cycle_runs_loadOrders {es : List FetchEvent} (hes : ∀ e ∈ es, e.InCycle)
    {s u v t : FetchMarket} (hbegin : fetchStep s (.market .beginCycle) = some u)
    (hrun : fetchRun u es = some v) (hrefresh : fetchStep v (.market .refresh) = some t) :
    ∃ answers, loadOrders s.svc answers v.clock = some (t.svc, true) := by
  have hstep : ∀ e ∈ es, ∀ s t, fetchStep s e = some t →
      InCycleStep s.svc t.svc s.cycle t.cycle := by
    intro e he s t hst
    cases e with
    | market e =>
      obtain ⟨m, hm, rfl⟩ := Option.map_eq_some_iff.mp hst
      have hin := marketStep_inCycle (hes _ he) hm
      cases e <;> exact hin
    | failedQuery all =>
      cases fetchStep_cases (e := .failedQuery all) trivial hst with
      | failedQuery hc hres => exact .inr ⟨_, _, none, hc, rfl, rfl⟩
  cases fetchStep_cases (by simp [FetchEvent.Loads, MarketEvent.IsFill]) hbegin with
  | other _ _ _ _ hne => exact absurd rfl hne
  | begin hc =>
    cases fetchStep_cases (by simp [FetchEvent.Loads, MarketEvent.IsFill]) hrefresh with
    | other _ _ _ hne => exact absurd rfl hne
    | refresh hc' =>
      obtain ⟨answers, hall⟩ := (Queried.of_run hstep hrun rfl hc').loadAll (by decide)
      exact ⟨answers, by simp [loadOrders, loadOrdersAllTickers, hall]⟩

/-! ## Runs -/

namespace FetchStep

variable {s t : FetchMarket} {e : FetchEvent}

end FetchStep

end TradeServer
