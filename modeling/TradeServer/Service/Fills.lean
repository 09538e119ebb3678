import TradeServer.Service.Orders

/-!
# Filling orders in `trade_service.c`

`fill_order` is a parameter: a call gets the order, may change the state `σ` of the
world outside the service, and tells whether it succeeded. Every call is recorded
with the list node that it was made for. The locking of `process_fills` is left to
the model of the threads.
-/

namespace TradeServer

open Library

/-- One call of `fill_order`: the list node, the order that it leads to, and the result. -/
structure Fill where
  node : Addr
  order : TradeOrder
  filled : Bool
  deriving DecidableEq

/-- What a visit can change: the order lists, the record of calls and the world. -/
structure Visit (σ : Type) where
  lists : DlHeap
  fills : List Fill
  world : σ

abbrev FillOrder (σ : Type) := TradeOrder → σ → Bool × σ

section Visitor

variable {σ : Type} (fillOrder : FillOrder σ) (entries : Heap HtEntry) (orders : Heap TradeOrder)

/-- The order that a list node leads to: `((ht_entry_t *) current_node->data)->value`. -/
def orderOf (entry : Addr) : Option TradeOrder := do
  let e ← entries.load entry
  orders.load e.value

/-- The loop of `order_visitor` from `currentNode` on. -/
def visitFrom (orderList : Addr) : Nat → Addr → Visit σ → Option (Visit σ)
  | 0, _, _ => none
  | fuel + 1, currentNode, v =>
    if currentNode = NULL then some v
    else do
      let n ← v.lists.nodes.load currentNode
      let order ← orderOf entries orders n.data
      let (filled, world) := fillOrder order v.world
      let v := { v with fills := v.fills ++ [⟨currentNode, order, filled⟩], world := world }
      if filled then
        let lists ← dlListRemove v.lists orderList currentNode
        visitFrom orderList fuel n.next { v with lists := lists }
      else visitFrom orderList fuel n.next v

def orderVisitor (orderList : Addr) (v : Visit σ) : Option (Visit σ) := do
  let l ← v.lists.lists.load orderList
  let head ← v.lists.nodes.load l.head
  visitFrom fillOrder entries orders orderList v.lists.nodes.next head.next v

end Visitor

/-- The visit of one tree by `process_fills`. -/
def visitBook {σ : Type} (fillOrder : FillOrder σ) (svc : Service) (ticker : Ticker) (side : Side)
    (lowPrice highPrice : Nat) (v : Visit σ) : Option (Visit σ) :=
  rbtVisitNodesInRange svc.books.nodes svc.books.NIL lowPrice highPrice
    (orderVisitor fillOrder svc.htOrders.entries svc.orders) svc.books.nodes.next
    (svc.orderBooks ticker side) v

/-- `process_fills`: the service, the calls that it made and the world after it. -/
def processFills {σ : Type} (fillOrder : FillOrder σ) (svc : Service) (ticker : Ticker)
    (currentPrice : Nat) (world : σ) : Option (Service × List Fill × σ) :=
  if svc.lastPrices ticker = 0 then some (svc, [], world)
  else do
    let last := svc.lastPrices ticker
    let (lowPrice, highPrice) :=
      if currentPrice > last then (last, currentPrice) else (currentPrice, last)
    let v ← visitBook fillOrder svc ticker .BUY lowPrice highPrice ⟨svc.books.dl, [], world⟩
    let v ← visitBook fillOrder svc ticker .SELL lowPrice highPrice v
    some ({ svc with books := { svc.books with dl := v.lists } }, v.fills, v.world)

/-- The loop body of `market_monitor` for one ticker, given the price that was read. -/
def monitorTicker {σ : Type} (fillOrder : FillOrder σ) (svc : Service) (ticker : Ticker)
    (price : Nat) (world : σ) : Option (Service × List Fill × σ) :=
  if price = 0 then some (svc, [], world)
  else do
    let (svc, fills, world) ← processFills fillOrder svc ticker price world
    some ({ svc with lastPrices := Function.update svc.lastPrices ticker price }, fills, world)

/-- The reads of one iteration, with the calls of `fill_order` for each ticker. -/
def monitorTickers {σ : Type} (fillOrder : FillOrder σ) (prices : Ticker → Nat) :
    List Ticker → Service → σ → Option (Service × List (Ticker × List Fill) × σ)
  | [], svc, world => some (svc, [], world)
  | ticker :: rest, svc, world => do
    let (svc, fills, world) ← monitorTicker fillOrder svc ticker (prices ticker) world
    let (svc, more, world) ← monitorTickers fillOrder prices rest svc world
    some (svc, (ticker, fills) :: more, world)

def allTickers : List Ticker := [.ANDTHEN, .FORIS4, .SPARK, .ZILBIAN]

/-- What one iteration of `market_monitor` reads from outside: the prices, 0 for a failed read,
the answers of the database, and the clock after the load. -/
structure Readings where
  prices : Ticker → Nat
  answers : Ticker → Side → Option (List TradeOrder)
  now : Nat

def marketMonitor {σ : Type} (fillOrder : FillOrder σ) (svc : Service) (r : Readings) (world : σ) :
    Option (Service × List (Ticker × List Fill) × σ) := do
  let (svc, fills, world) ← monitorTickers fillOrder r.prices allTickers svc world
  let (svc, _) ← loadOrders svc r.answers r.now
  some (svc, fills, world)

/-- `init_service` once the database, redis and the price files are open; `now` are the clock
readings before and after the load. -/
def initService (svc : Service) (prices : Ticker → Nat)
    (answers : Ticker → Side → Option (List TradeOrder)) (now : Nat × Nat) :
    Option (Service × Bool) :=
  loadOrders { svc with
    lastPrices := fun ticker => if prices ticker = 0 then svc.lastPrices ticker else prices ticker
    lastOrderReadTime := now.1 - BACKLOAD_WEEKS * 604800 } answers now.2

end TradeServer
