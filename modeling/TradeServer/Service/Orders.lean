import TradeServer.DataStructures.Hashtable
import TradeServer.DataStructures.RbTree

/-!
# Loading orders in `trade_service.c`

The service keeps the orders it parsed, the hash table of all of them, and a buy and
a sell tree for each ticker. Times are seconds on the clock of the database; a
timestamp text and its second are not told apart. Allocations succeed.
-/

namespace TradeServer

open Library

inductive Ticker where
  | ANDTHEN
  | FORIS4
  | SPARK
  | ZILBIAN
  deriving DecidableEq

/-- The array `tickers`. -/
def tickers : Ticker → CString
  | .ANDTHEN => .ofBuffer ['A', 'N', 'D', 'T', 'H', 'E', 'N']
  | .FORIS4 => .ofBuffer ['F', 'O', 'R', 'I', 'S', '4']
  | .SPARK => .ofBuffer ['S', 'P', 'A', 'R', 'K']
  | .ZILBIAN => .ofBuffer ['Z', 'I', 'L', 'B', 'I', 'A', 'N']

/-- The two trees of an order book. -/
inductive Side where
  | BUY
  | SELL
  deriving DecidableEq

/-- The `side` argument of `load_orders_helper`. -/
def Side.char : Side → Char
  | .BUY => 'B'
  | .SELL => 'S'

def BUY_ORDER_ID_PREFIX : List Char := ['b']

def SELL_ORDER_ID_PREFIX : List Char := ['s']

def Side.idPrefix : Side → List Char
  | .BUY => BUY_ORDER_ID_PREFIX
  | .SELL => SELL_ORDER_ID_PREFIX

def MAX_LOAD_ORDERS : Nat := 5000

def HT_ORDER_CAPACITY : Nat := 25013

def BACKLOAD_WEEKS : Nat := 12

/-- A row of the order table. -/
structure TradeOrder where
  id : Nat
  userId : Nat
  ticker : CString
  side : Char
  status : Char
  type : Char
  amount : Nat
  price : Nat
  createdAt : Nat
  deriving DecidableEq

/-- `WHERE side='%c' and status='O' and ticker='%s' and created_at >= '%s' ORDER BY price %s,
created_at ASC LIMIT %d`, ascending for buy orders and descending for sell orders. -/
structure Query where
  side : Side
  ticker : Ticker
  createdFrom : Nat
  limit : Nat

def Query.Matches (q : Query) (o : TradeOrder) : Prop :=
  o.side = q.side.char ∧ o.status = 'O' ∧ o.ticker = tickers q.ticker ∧ q.createdFrom ≤ o.createdAt

instance (q : Query) : DecidablePred q.Matches := fun o =>
  inferInstanceAs (Decidable (o.side = q.side.char ∧ o.status = 'O' ∧ o.ticker = tickers q.ticker ∧
    q.createdFrom ≤ o.createdAt))

/-- `ORDER BY`: the first order may come before the second one. -/
def Query.Before (q : Query) (o o' : TradeOrder) : Prop :=
  match q.side with
  | .BUY => o.price < o'.price ∨ o.price = o'.price ∧ o.createdAt ≤ o'.createdAt
  | .SELL => o'.price < o.price ∨ o.price = o'.price ∧ o.createdAt ≤ o'.createdAt

instance (q : Query) (o o' : TradeOrder) : Decidable (q.Before o o') := by
  unfold Query.Before
  cases q.side <;> exact inferInstance

structure Service where
  htOrders : Hashtable
  books : RbHeap
  orders : Heap TradeOrder
  orderBooks : Ticker → Side → Addr
  lastPrices : Ticker → Nat
  lastOrderReadTime : Nat

/-- The key of an order in a buffer of 16 bytes. -/
def hashKey (side : Side) (id : Nat) : CString := snprintf 16 (side.idPrefix ++ decimal id)

/-- Callback that maps a hash table entry to its list node. -/
def htNodeToDllNode : DataCallback Hashtable := fun htNode dllNode ht => do
  let es ← ht.entries.update htNode ({ · with ref := dllNode })
  some { ht with entries := es }

/-- The rows of a result set become orders in memory, in the same sequence. -/
def parseTblTradeOrder (os : Heap TradeOrder) : List TradeOrder → Heap TradeOrder × List Addr
  | [] => (os, [])
  | row :: rows =>
    let (os', rest) := parseTblTradeOrder (os.alloc row) rows
    (os', os.fresh :: rest)

/-- The loop of `load_orders_helper` for one parsed order. -/
def loadOrder (ticker : Ticker) (side : Side) (svc : Service) (currentResult : Addr) :
    Option Service := do
  let order ← svc.orders.load currentResult
  let (ht, entry) ← htPut svc.htOrders (hashKey side order.id) currentResult
  if entry ≠ NULL then
    let (books, root, ht) ← rbtInsert svc.books (svc.orderBooks ticker side) order.price entry
      (some htNodeToDllNode) ht
    some { svc with
      htOrders := ht
      books := books
      orderBooks := Function.update svc.orderBooks ticker
        (Function.update (svc.orderBooks ticker) side root) }
  else
    let os ← svc.orders.release currentResult
    some { svc with htOrders := ht, orders := os }

def loadQuery (svc : Service) (ticker : Ticker) (side : Side) : Query :=
  ⟨side, ticker, svc.lastOrderReadTime, MAX_LOAD_ORDERS⟩

/-- `answer` is what the database returns for `loadQuery`, `none` if the fetch fails. Both ways
the result is 1. -/
def loadOrdersHelper (svc : Service) (ticker : Ticker) (side : Side)
    (answer : Option (List TradeOrder)) : Option (Service × Bool) :=
  match answer with
  | none => some (svc, true)
  | some rows => do
    let (os, results) := parseTblTradeOrder svc.orders rows
    let svc ← results.foldlM (loadOrder ticker side) { svc with orders := os }
    some (svc, true)

/-- The queries of `load_orders_all_tickers` in their sequence. -/
def loadSequence : List (Ticker × Side) :=
  [.ANDTHEN, .FORIS4, .SPARK, .ZILBIAN].flatMap fun ticker => [(ticker, .BUY), (ticker, .SELL)]

/-- The loop of `load_orders_all_tickers`, which returns when a query fails. -/
def loadAll (answers : Ticker → Side → Option (List TradeOrder)) :
    Service → List (Ticker × Side) → Option (Service × Bool)
  | svc, [] => some (svc, true)
  | svc, (ticker, side) :: rest => do
    let (svc, result) ← loadOrdersHelper svc ticker side (answers ticker side)
    if result then loadAll answers svc rest else some (svc, false)

def loadOrdersAllTickers (svc : Service)
    (answers : Ticker → Side → Option (List TradeOrder)) : Option (Service × Bool) :=
  loadAll answers svc loadSequence

/-- `load_orders`, with the clock at its end. -/
def loadOrders (svc : Service) (answers : Ticker → Side → Option (List TradeOrder)) (now : Nat) :
    Option (Service × Bool) := do
  let (svc, result) ← loadOrdersAllTickers svc answers
  some ({ svc with lastOrderReadTime := now }, result)

/-- The trees of all tickers after `trade_service_init`: eight calls of `rbt_init`. -/
def initBooks (unset : Nat) : RbHeap × (Ticker → Side → Addr) :=
  loadSequence.foldl (fun (m, roots) (ticker, side) =>
    let (m, root) := rbtInit unset m
    (m, Function.update roots ticker (Function.update (roots ticker) side root)))
    (.empty, fun _ _ => NULL)

/-- `trade_service_init`; the service is zeroed memory otherwise. -/
def tradeServiceInit (unset : Nat) : Service where
  htOrders := htInit HT_ORDER_CAPACITY false
  books := (initBooks unset).1
  orders := .empty
  orderBooks := (initBooks unset).2
  lastPrices _ := 0
  lastOrderReadTime := 0

end TradeServer
