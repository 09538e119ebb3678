import TradeServer.Library.Locks
import TradeServer.Sse.ClientWriter

/-!
# The mutexes of the server

All threads of the server with what they lock, unlock and join, and the control flow around it;
everything else is left out. The only nesting is that of a logger in the lock of the queue, so
no threads wait for each other in a circle, unless `process_fills` returns with its lock held.
-/

namespace TradeServer.Locking

open Library Locks

inductive Thread where
  | main
  | server
  | monitor
  | worker
  | writer (k : Fin NUM_CLIENT_LISTS)
  deriving DecidableEq

inductive Mutex where
  | exitLock
  | lastPriceLock
  | dqLock
  | clmLock (k : Fin NUM_CLIENT_LISTS)
  | htOrders
  | serviceLogger
  | serverLogger
  | writerLogger
  | threadLogger (k : Fin NUM_CLIENT_LISTS)
  deriving DecidableEq

abbrev Code := Cmd Thread Mutex

/-! ## The functions -/

def loggerWrite (logger : Mutex) : Code := .call (.block [.lock logger, .unlock logger])

def loggerClose (logger : Mutex) : Code := .call (.block [.lock logger, .unlock logger])

def threadCheckExitFlag : Code :=
  .call (.block [
    .lock .exitLock,
    .maybe (.block [.unlock .exitLock, .exit]),
    .unlock .exitLock])

def clientWriterQueueData : Code := .call (.block [.lock .dqLock, .unlock .dqLock])

def sseServerQueueData : Code := .call clientWriterQueueData

def htPut : Code :=
  .call (.block [
    .maybe .ret,
    .lock .htOrders,
    -- the table could not be resized
    .maybe (.block [.unlock .htOrders, .ret]),
    -- the chain, with the entry of the key
    .repeated (.maybe (.block [.unlock .htOrders, .ret])),
    -- no new entry
    .maybe (.block [.unlock .htOrders, .ret]),
    .unlock .htOrders])

def loadOrdersHelper : Code := .call (.block [.maybe .ret, .repeated htPut])

def loadOrdersAllTickers : Code :=
  .call (.repeated (.block [loadOrdersHelper, .maybe .ret, loadOrdersHelper, .maybe .ret]))

def loadOrders : Code := .call loadOrdersAllTickers

def dispatchFillData : Code := .call sseServerQueueData

def processOrderForClients : Code := .call (.choice dispatchFillData (.maybe dispatchFillData))

def fillOrder : Code :=
  .call (.block [
    -- the source returns here always
    .maybe .ret,
    .maybe (.block [loggerWrite .serviceLogger, .ret]),
    .maybe (.block [loggerWrite .serviceLogger, .ret]),
    processOrderForClients])

def orderVisitor : Code := .call (.repeated fillOrder)

def rbtVisitNodesInRange : Code := .call (.repeated orderVisitor)

/-- `priceMissing`: the ticker may have no last price. -/
def processFills (priceMissing : Bool) : Code :=
  .call (.block [
    .lock .lastPriceLock,
    if priceMissing then .maybe .ret else .skip,
    .unlock .lastPriceLock,
    rbtVisitNodesInRange,
    rbtVisitNodesInRange])

def marketMonitor (priceMissing : Bool) : Code :=
  .loop (.block [
    threadCheckExitFlag,
    -- the tickers; one whose price could not be read is left out
    .repeated (.maybe (.block [
      processFills priceMissing,
      .lock .lastPriceLock,
      .unlock .lastPriceLock])),
    sseServerQueueData,
    loadOrders])

def simulatedOrderWorker : Code :=
  .loop (.block [
    threadCheckExitFlag,
    .repeated (.block [.lock .lastPriceLock, .unlock .lastPriceLock]),
    sseServerQueueData])

def clientWriteThread (k : Fin NUM_CLIENT_LISTS) : Code :=
  .loop (.block [
    .lock (.clmLock k),
    .maybe (.block [
      .unlock (.clmLock k),
      loggerWrite (.threadLogger k),
      loggerClose (.threadLogger k),
      .ret]),
    .unlock (.clmLock k),
    .loop (.block [
      .lock .dqLock,
      .maybe (.block [loggerWrite (.threadLogger k), .unlock .dqLock, .brk]),
      .unlock .dqLock,
      .maybe (loggerWrite (.threadLogger k)),
      -- the clients, with the failed sends
      .repeated (.maybe (loggerWrite (.threadLogger k)))])])

def clientWriterStop : Code :=
  .call (.block [
    .lock (.clmLock 0), .unlock (.clmLock 0),
    .lock (.clmLock 1), .unlock (.clmLock 1),
    .lock (.clmLock 2), .unlock (.clmLock 2),
    loggerWrite .writerLogger,
    .join (.writer 0), .join (.writer 1), .join (.writer 2),
    loggerWrite .writerLogger,
    loggerClose .writerLogger])

def clientWriterAddClient : Code :=
  .call (.maybe (.block [.maybe (loggerWrite .writerLogger), .ret]))

def sseServerDestroy : Code :=
  .call (.block [
    loggerWrite .serverLogger,
    clientWriterStop,
    loggerClose .serverLogger])

/-- A new connection, which may fail in four ways. -/
def acceptClient : Code :=
  .choice (.maybe (loggerWrite .serverLogger))
    (.choice .skip
      (.choice (loggerWrite .serverLogger)
        (.choice (loggerWrite .serverLogger)
          (.block [loggerWrite .serverLogger, clientWriterAddClient]))))

def readClient : Code :=
  .maybe (.block [.maybe (loggerWrite .serverLogger), loggerWrite .serverLogger])

def serverThread : Code :=
  .block [
    .loop (.block [
      .maybe .brk,
      .choice (.maybe (.block [loggerWrite .serverLogger, .brk]))
        (.repeated (.choice acceptClient readClient))]),
    sseServerDestroy]

def tradeServiceStop : Code :=
  .call (.block [
    .maybe .ret,
    .lock .exitLock, .unlock .exitLock,
    .join .monitor, .join .worker,
    loggerWrite .serviceLogger])

def tradeServiceDestroy : Code := .call (.block [.maybe .ret, .maybe (loggerClose .serviceLogger)])

def sseServerStop : Code := loggerWrite .serverLogger

/-- The threads from the time that all of them run. The server's own `main` sleeps forever; the
test programs stop the service or the server. -/
def code (priceMissing : Bool) : Thread → Code
  | .main => .choice (.loop .skip)
      (.choice (.block [tradeServiceStop, tradeServiceDestroy]) sseServerStop)
  | .server => serverThread
  | .monitor => marketMonitor priceMissing
  | .worker => simulatedOrderWorker
  | .writer k => clientWriteThread k

/-! ## The order -/

def rank : Mutex → Nat
  | .threadLogger _ => 1
  | _ => 0

def level : Thread → Nat
  | .main => 1
  | .server => 1
  | _ => 0

theorem passes_code (t : Thread) : passes rank level t (code false t) := by
  cases t with
  | writer k =>
    revert k
    decide
  | _ => decide

theorem rank_lt (l : Mutex) : rank l < 2 := by cases l <;> simp [rank]

/-- The monitor is at the lock of the last prices, and holds it. -/
def locksAgain (s : Config Thread Mutex) : Bool :=
  match s.stack .monitor with
  | .cmd (.lock .lastPriceLock) :: _ => s.owner .lastPriceLock = some .monitor
  | _ => false

/-- `process_fills` is called for the first ticker and returns early. -/
def earlyReturn : List (Thread × Bool) :=
  (List.replicate 13 false ++ true :: List.replicate 5 false ++ [true, false, false]).map
    (.monitor, ·)

theorem earlyReturn_locksAgain : (earlyReturn.foldlM (fun s e => Config.step s e.1 e.2)
    ⟨fun t => [.cmd (code true t)], fun _ => none⟩).map locksAgain = some true := by
  decide +kernel

theorem not_disciplined_of_locksAgain {order : Mutex → Nat} {s : Config Thread Mutex}
    (h : locksAgain s) : ¬ Disciplined order s := by
  intro hs
  unfold locksAgain at h
  split at h
  · next k hk => exact hs.locks _ _ _ hk (by simpa using h)
  · simp at h

/-- Whatever the threads do, none of them waits for threads that all wait, a mutex is unlocked by
its owner only, locked by no thread twice and always after those that its thread has in one order
of all mutexes, and all are free when their threads are done: this holds as long as `process_fills`
is not called for a ticker without a last price, and only then. -/
theorem disciplined_iff (priceMissing : Bool) :
    (∃ order : Mutex → Nat, ∀ s, (program (code priceMissing)).Reachable s → Disciplined order s) ↔
      priceMissing = false := by
  constructor
  · rintro ⟨order, h⟩
    by_contra hmissing
    obtain rfl : priceMissing = true := by simpa using hmissing
    obtain ⟨s, hrun, hs⟩ := Option.map_eq_some_iff.mp earlyReturn_locksAgain
    exact not_disciplined_of_locksAgain hs
      (h s ⟨_, earlyReturn, rfl, .of_foldlM (fun _ _ _ _ hstep => hstep) hrun⟩)
  · rintro rfl
    exact ⟨rank, fun s hs => disciplined_of_passes rank_lt passes_code hs⟩

end TradeServer.Locking
