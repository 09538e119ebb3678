import TradeServer.Library.Progress
import TradeServer.Service.PriceLock

/-!
# Stopping the service

`trade_service_stop` sets the exit flag and joins the two threads, which look at the flag at the
top of their loops only. The regions of `exit_lock` are one turn each, and so are the visits of
`process_fills`: `fill_order` returns at its first statement. Nothing but the early return of
`process_fills` keeps a stop from its end.
-/

namespace TradeServer

open Library

/-- Where `trade_service_stop` is. -/
inductive ServiceStopPc where
  | setFlag
  | joinMonitor
  | joinWorker
  | returned
  deriving DecidableEq

/-- The threads of the service while another thread is in `trade_service_stop` or before it. -/
structure StoppingService where
  threads : Threads
  exitFlag : Bool
  pc : ServiceStopPc

inductive ServiceEvent where
  /-- A turn of a thread; `price` is what a read gives. -/
  | turn (thread : Thread) (price : Nat)
  | stop

/-- What a thread gets in its turn: the exit flag at the top of its loop. -/
def StoppingService.input (s : StoppingService) (thread : Thread) (price : Nat) : Nat :=
  match thread with
  | .monitor => if s.threads.monitor = .top then s.exitFlag.toNat else price
  | .worker => s.exitFlag.toNat

/-- The next turn of `trade_service_stop`; `pthread_join` does not return before the thread does. -/
def tradeServiceStopTurn (s : StoppingService) : Option StoppingService :=
  match s.pc with
  | .setFlag => some { s with exitFlag := true, pc := .joinMonitor }
  | .joinMonitor =>
    if s.threads.monitor = .exited then some { s with pc := .joinWorker } else none
  | .joinWorker => if s.threads.worker = .exited then some { s with pc := .returned } else none
  | .returned => none

def StoppingService.next (s : StoppingService) : ServiceEvent → Option StoppingService
  | .turn thread price =>
    (threadStep s.threads ⟨thread, s.input thread price⟩).map ({ s with threads := · })
  | .stop => tradeServiceStopTurn s

/-- The service with the last prices that `init_service` leaves. -/
def startedService (lastPrices : Ticker → Nat) : StoppingService :=
  ⟨⟨.top, .top, none, lastPrices⟩, false, .setFlag⟩

def stoppingService (lastPrices : Ticker → Nat) : System StoppingService ServiceEvent where
  init s := s = startedService lastPrices
  step s e t := s.next e = some t

/-- After the exit flag is set the threads and the stop have 50 turns at most, whatever their
order, and one of them has a turn until the stop has returned. -/
structure StopReturns (lastPrices : Ticker → Nat) : Prop where
  bounded : ∀ s es t, (stoppingService lastPrices).Reachable s → s.exitFlag = true →
    (stoppingService lastPrices).Run s es t → es.length ≤ 50
  proceeds : ∀ s, (stoppingService lastPrices).Reachable s → s.exitFlag = true →
    s.pc ≠ .returned → ∃ e t, (stoppingService lastPrices).step s e t

/-- The monitor waits for the lock that it holds itself, the stop waits for the monitor, and nobody
has a turn. -/
structure StuckAt (ticker : Ticker) (s : StoppingService) : Prop where
  waits : ∃ price rest, s.threads.monitor = .priceLock ticker price rest
  holds : s.threads.holder = some .monitor
  joins : s.exitFlag = true ∧ s.pc = .joinMonitor
  noTurn : ∀ e, s.next e = none

/-! ## How long it takes -/

/-- The turns of the monitor up to its exit when the flag is set; each ticker takes eight. -/
def MonitorPc.turnsLeft : MonitorPc → Nat
  | .top => 1
  | .read tickers => 8 * tickers.length + 2
  | .fillLock _ _ rest => 8 * rest.length + 9
  | .fillTest _ _ rest => 8 * rest.length + 8
  | .fillUnlock _ _ rest => 8 * rest.length + 7
  | .visit _ _ rest => 8 * rest.length + 6
  | .priceLock _ _ rest => 8 * rest.length + 5
  | .priceSet _ _ rest => 8 * rest.length + 4
  | .priceUnlock rest => 8 * rest.length + 3
  | .exited => 0

def WorkerPc.turnsLeft : WorkerPc → Nat
  | .top => 1
  | .lock tickers => 3 * tickers.length + 2
  | .build rest => 3 * rest.length + 4
  | .unlock rest => 3 * rest.length + 3
  | .exited => 0

def ServiceStopPc.turnsLeft : ServiceStopPc → Nat
  | .setFlag => 3
  | .joinMonitor => 2
  | .joinWorker => 1
  | .returned => 0

/-- What a turn of the monitor does. -/
inductive MonitorTurn (s : Threads) (input : Nat) : Threads → Prop where
  | begin (hpc : s.monitor = .top) (hi : input = 0) :
      MonitorTurn s input { s with monitor := .read allTickers }
  | exit (hpc : s.monitor = .top) (hi : input ≠ 0) :
      MonitorTurn s input { s with monitor := .exited }
  | done (hpc : s.monitor = .read []) : MonitorTurn s input { s with monitor := .top }
  | unread {ticker : Ticker} {rest : List Ticker} (hpc : s.monitor = .read (ticker :: rest))
      (hi : input = 0) : MonitorTurn s input { s with monitor := .read rest }
  | read {ticker : Ticker} {rest : List Ticker} (hpc : s.monitor = .read (ticker :: rest))
      (hi : input ≠ 0) : MonitorTurn s input { s with monitor := .fillLock ticker input rest }
  | fillLock {ticker : Ticker} {price : Nat} {rest : List Ticker}
      (hpc : s.monitor = .fillLock ticker price rest) (hfree : s.holder = none) :
      MonitorTurn s input
        { s with holder := some .monitor, monitor := .fillTest ticker price rest }
  | early {ticker : Ticker} {price : Nat} {rest : List Ticker}
      (hpc : s.monitor = .fillTest ticker price rest) (hlast : s.lastPrices ticker = 0) :
      MonitorTurn s input { s with monitor := .priceLock ticker price rest }
  | fillTest {ticker : Ticker} {price : Nat} {rest : List Ticker}
      (hpc : s.monitor = .fillTest ticker price rest) (hlast : s.lastPrices ticker ≠ 0) :
      MonitorTurn s input { s with monitor := .fillUnlock ticker price rest }
  | fillUnlock {ticker : Ticker} {price : Nat} {rest : List Ticker}
      (hpc : s.monitor = .fillUnlock ticker price rest) (hheld : s.holder = some .monitor) :
      MonitorTurn s input { s with holder := none, monitor := .visit ticker price rest }
  | visit {ticker : Ticker} {price : Nat} {rest : List Ticker}
      (hpc : s.monitor = .visit ticker price rest) :
      MonitorTurn s input { s with monitor := .priceLock ticker price rest }
  | priceLock {ticker : Ticker} {price : Nat} {rest : List Ticker}
      (hpc : s.monitor = .priceLock ticker price rest) (hfree : s.holder = none) :
      MonitorTurn s input
        { s with holder := some .monitor, monitor := .priceSet ticker price rest }
  | priceSet {ticker : Ticker} {price : Nat} {rest : List Ticker}
      (hpc : s.monitor = .priceSet ticker price rest) :
      MonitorTurn s input { s with
        lastPrices := Function.update s.lastPrices ticker price, monitor := .priceUnlock rest }
  | priceUnlock {rest : List Ticker} (hpc : s.monitor = .priceUnlock rest)
      (hheld : s.holder = some .monitor) :
      MonitorTurn s input { s with holder := none, monitor := .read rest }

section Threads

variable {s t : Threads} {input : Nat}

theorem monitorStep_cases (h : monitorStep s input = some t) : MonitorTurn s input t := by
  cases hpc : s.monitor with
  | top =>
    simp only [monitorStep, hpc, Option.some_inj] at h
    subst h
    split_ifs with hi
    · exact .begin hpc hi
    · exact .exit hpc hi
  | read tickers =>
    cases tickers with
    | nil =>
      simp only [monitorStep, hpc, Option.some_inj] at h
      exact h ▸ .done hpc
    | cons ticker rest =>
      simp only [monitorStep, hpc, Option.some_inj] at h
      subst h
      split_ifs with hi
      · exact .unread hpc hi
      · exact .read hpc hi
  | fillLock ticker price rest =>
    simp only [monitorStep, hpc, Option.map_eq_some_iff, Threads.acquire_eq_some] at h
    obtain ⟨_, ⟨hfree, rfl⟩, rfl⟩ := h
    exact .fillLock hpc hfree
  | fillTest ticker price rest =>
    simp only [monitorStep, hpc, Option.some_inj] at h
    subst h
    split_ifs with hlast
    · exact .early hpc hlast
    · exact .fillTest hpc hlast
  | fillUnlock ticker price rest =>
    simp only [monitorStep, hpc, Option.map_eq_some_iff, Threads.release_eq_some] at h
    obtain ⟨_, ⟨hheld, rfl⟩, rfl⟩ := h
    exact .fillUnlock hpc hheld
  | visit ticker price rest =>
    simp only [monitorStep, hpc, Option.some_inj] at h
    exact h ▸ .visit hpc
  | priceLock ticker price rest =>
    simp only [monitorStep, hpc, Option.map_eq_some_iff, Threads.acquire_eq_some] at h
    obtain ⟨_, ⟨hfree, rfl⟩, rfl⟩ := h
    exact .priceLock hpc hfree
  | priceSet ticker price rest =>
    simp only [monitorStep, hpc, Option.some_inj] at h
    exact h ▸ .priceSet hpc
  | priceUnlock rest =>
    simp only [monitorStep, hpc, Option.map_eq_some_iff, Threads.release_eq_some] at h
    obtain ⟨_, ⟨hheld, rfl⟩, rfl⟩ := h
    exact .priceUnlock hpc hheld
  | exited => simp [monitorStep, hpc] at h

/-- Only a new round of the loop takes the monitor away from its exit. -/
theorem monitorStep_turnsLeft (h : monitorStep s input = some t) :
    t.worker = s.worker ∧ (s.monitor = .top ∧ input = 0 ∧ t.monitor = .read allTickers ∨
      t.monitor.turnsLeft < s.monitor.turnsLeft) := by
  cases monitorStep_cases h with
  | begin hpc hi => exact ⟨rfl, .inl ⟨hpc, hi, rfl⟩⟩
  | exit hpc => exact ⟨rfl, .inr (by simp [hpc, MonitorPc.turnsLeft])⟩
  | done hpc => exact ⟨rfl, .inr (by simp [hpc, MonitorPc.turnsLeft])⟩
  | unread hpc => exact ⟨rfl, .inr (by simp [hpc, MonitorPc.turnsLeft])⟩
  | read hpc =>
    refine ⟨rfl, .inr ?_⟩
    simp only [hpc, MonitorPc.turnsLeft, List.length_cons]
    omega
  | fillLock hpc => exact ⟨rfl, .inr (by simp [hpc, MonitorPc.turnsLeft])⟩
  | early hpc => exact ⟨rfl, .inr (by simp [hpc, MonitorPc.turnsLeft])⟩
  | fillTest hpc => exact ⟨rfl, .inr (by simp [hpc, MonitorPc.turnsLeft])⟩
  | fillUnlock hpc => exact ⟨rfl, .inr (by simp [hpc, MonitorPc.turnsLeft])⟩
  | visit hpc => exact ⟨rfl, .inr (by simp [hpc, MonitorPc.turnsLeft])⟩
  | priceLock hpc => exact ⟨rfl, .inr (by simp [hpc, MonitorPc.turnsLeft])⟩
  | priceSet hpc => exact ⟨rfl, .inr (by simp [hpc, MonitorPc.turnsLeft])⟩
  | priceUnlock hpc => exact ⟨rfl, .inr (by simp [hpc, MonitorPc.turnsLeft])⟩

theorem workerStep_turnsLeft (h : workerStep s input = some t) :
    t.monitor = s.monitor ∧ t.lastPrices = s.lastPrices ∧
      (s.worker = .top ∧ input = 0 ∧ t.worker = .lock allTickers ∨
        t.worker.turnsLeft < s.worker.turnsLeft) := by
  cases hpc : s.worker with
  | top =>
    simp only [workerStep, hpc, Option.some_inj] at h
    subst h
    by_cases hi : input = 0 <;> simp [hi, WorkerPc.turnsLeft]
  | lock tickers =>
    cases tickers with
    | nil =>
      simp only [workerStep, hpc, Option.some_inj] at h
      subst h
      simp [WorkerPc.turnsLeft]
    | cons ticker rest =>
      simp only [workerStep, hpc, Option.map_eq_some_iff, Threads.acquire_eq_some] at h
      obtain ⟨_, ⟨-, rfl⟩, rfl⟩ := h
      simp [WorkerPc.turnsLeft]
      omega
  | build rest =>
    simp only [workerStep, hpc, Option.some_inj] at h
    subst h
    simp [WorkerPc.turnsLeft]
  | unlock rest =>
    simp only [workerStep, hpc, Option.map_eq_some_iff, Threads.release_eq_some] at h
    obtain ⟨_, ⟨-, rfl⟩, rfl⟩ := h
    simp [WorkerPc.turnsLeft]
  | exited => simp [workerStep, hpc] at h

end Threads

section Bounds

variable {lastPrices : Ticker → Nat} {s t : StoppingService} {e : ServiceEvent}

def StoppingService.turnsLeft (s : StoppingService) : Nat :=
  s.threads.monitor.turnsLeft + s.threads.worker.turnsLeft + s.pc.turnsLeft

/-- Each thread is within one round of its loop, and `trade_service_stop` sets the flag. -/
structure WithinRound (s : StoppingService) : Prop where
  monitor : s.threads.monitor.turnsLeft ≤ 34
  worker : s.threads.worker.turnsLeft ≤ 14
  flag : s.exitFlag = true ↔ s.pc ≠ .setFlag

theorem turn_cases {thread : Thread} {price : Nat} (h : s.next (.turn thread price) = some t) :
    ∃ u, threadStep s.threads ⟨thread, s.input thread price⟩ = some u ∧
      { s with threads := u } = t :=
  Option.map_eq_some_iff.mp h

theorem tradeServiceStopTurn_cases (h : tradeServiceStopTurn s = some t) :
    s.pc = .setFlag ∧ t = { s with exitFlag := true, pc := .joinMonitor } ∨
    s.pc = .joinMonitor ∧ s.threads.monitor = .exited ∧ t = { s with pc := .joinWorker } ∨
    s.pc = .joinWorker ∧ s.threads.worker = .exited ∧ t = { s with pc := .returned } := by
  cases hpc : s.pc with
  | setFlag =>
    simp only [tradeServiceStopTurn, hpc, Option.some_inj] at h
    exact .inl ⟨rfl, h.symm⟩
  | joinMonitor =>
    simp only [tradeServiceStopTurn, hpc, Option.ite_none_right_eq_some, Option.some_inj] at h
    exact .inr (.inl ⟨rfl, h.1, h.2.symm⟩)
  | joinWorker =>
    simp only [tradeServiceStopTurn, hpc, Option.ite_none_right_eq_some, Option.some_inj] at h
    exact .inr (.inr ⟨rfl, h.1, h.2.symm⟩)
  | returned => simp [tradeServiceStopTurn, hpc] at h

namespace WithinRound

theorem started : WithinRound (startedService lastPrices) where
  monitor := by simp [startedService, MonitorPc.turnsLeft]
  worker := by simp [startedService, WorkerPc.turnsLeft]
  flag := by simp [startedService]

theorem step (h : WithinRound s) (hstep : s.next e = some t) : WithinRound t := by
  cases e with
  | turn thread price =>
    obtain ⟨u, hu, rfl⟩ := turn_cases hstep
    cases thread with
    | monitor =>
      obtain ⟨hworker, ⟨-, -, hread⟩ | hless⟩ := monitorStep_turnsLeft hu
      · exact ⟨by simp [hread, MonitorPc.turnsLeft, allTickers], hworker ▸ h.worker, h.flag⟩
      · exact ⟨hless.le.trans h.monitor, hworker ▸ h.worker, h.flag⟩
    | worker =>
      obtain ⟨hmonitor, -, ⟨-, -, hlock⟩ | hless⟩ := workerStep_turnsLeft hu
      · exact ⟨hmonitor ▸ h.monitor, by simp [hlock, WorkerPc.turnsLeft, allTickers], h.flag⟩
      · exact ⟨hmonitor ▸ h.monitor, hless.le.trans h.worker, h.flag⟩
  | stop =>
    obtain ⟨hpc, rfl⟩ | ⟨hpc, -, rfl⟩ | ⟨hpc, -, rfl⟩ := tradeServiceStopTurn_cases hstep
    · exact ⟨h.monitor, h.worker, by simp⟩
    · exact ⟨h.monitor, h.worker, by simp [h.flag, hpc]⟩
    · exact ⟨h.monitor, h.worker, by simp [h.flag, hpc]⟩

theorem invariant : (stoppingService lastPrices).Invariant WithinRound where
  base := by
    rintro s rfl
    exact started
  step _ _ _ hs hstep := hs.step hstep

theorem turnsLeft_le (h : WithinRound s) (hflag : s.exitFlag = true) : s.turnsLeft ≤ 50 := by
  have hpc : s.pc.turnsLeft ≤ 2 := by
    cases hs : s.pc with
    | setFlag => exact absurd hs (h.flag.mp hflag)
    | _ => simp [ServiceStopPc.turnsLeft]
  have hmonitor := h.monitor
  have hworker := h.worker
  unfold StoppingService.turnsLeft
  omega

end WithinRound

/-- After the flag is set no thread begins another round. -/
theorem next_turnsLeft (hflag : s.exitFlag = true) (hpc : s.pc ≠ .setFlag)
    (h : s.next e = some t) : t.exitFlag = true ∧ t.turnsLeft + 1 ≤ s.turnsLeft := by
  cases e with
  | turn thread price =>
    obtain ⟨u, hu, rfl⟩ := turn_cases h
    refine ⟨hflag, ?_⟩
    cases thread with
    | monitor =>
      obtain ⟨hworker, ⟨htop, hinput, -⟩ | hless⟩ := monitorStep_turnsLeft hu
      · simp [StoppingService.input, htop, hflag] at hinput
      · simp only [StoppingService.turnsLeft, hworker]
        omega
    | worker =>
      obtain ⟨hmonitor, -, ⟨-, hinput, -⟩ | hless⟩ := workerStep_turnsLeft hu
      · simp [StoppingService.input, hflag] at hinput
      · simp only [StoppingService.turnsLeft, hmonitor]
        omega
  | stop =>
    obtain ⟨hs, -⟩ | ⟨hs, -, rfl⟩ | ⟨hs, -, rfl⟩ := tradeServiceStopTurn_cases h
    · exact absurd hs hpc
    · exact ⟨hflag, by simp [StoppingService.turnsLeft, hs, ServiceStopPc.turnsLeft]⟩
    · exact ⟨hflag, by simp [StoppingService.turnsLeft, hs, ServiceStopPc.turnsLeft]⟩

theorem ranked_service : (stoppingService lastPrices).Ranked
    (fun s => WithinRound s ∧ s.exitFlag = true) StoppingService.turnsLeft
    (fun _ => true) (fun _ => false) 0 where
  step := by
    rintro s e t ⟨hs, hflag⟩ hstep
    obtain ⟨hflag', hless⟩ := next_turnsLeft hflag (hs.flag.mp hflag) hstep
    exact ⟨⟨hs.step hstep, hflag'⟩, by simpa using hless⟩

theorem service_run_le {es : List ServiceEvent} (h : (stoppingService lastPrices).Reachable s)
    (hflag : s.exitFlag = true) (r : (stoppingService lastPrices).Run s es t) :
    es.length ≤ 50 := by
  have hs : WithinRound s := WithinRound.invariant.of_reachable h
  have hrun := (ranked_service.run ⟨hs, hflag⟩ r).2
  have hle := hs.turnsLeft_le hflag
  simp only [List.countP_true, Nat.zero_mul, Nat.add_zero] at hrun
  omega

end Bounds

/-! ## With last prices -/

/-- The price that the monitor has read, if it still needs it, is one. -/
def MonitorPc.PriceRead : MonitorPc → Prop
  | .fillLock _ price _ => price ≠ 0
  | .fillTest _ price _ => price ≠ 0
  | .fillUnlock _ price _ => price ≠ 0
  | .visit _ price _ => price ≠ 0
  | .priceLock _ price _ => price ≠ 0
  | .priceSet _ price _ => price ≠ 0
  | _ => True

def Threads.Exited (s : Threads) : Thread → Prop
  | .monitor => s.monitor = .exited
  | .worker => s.worker = .exited

/-- All tickers have a last price, and the lock is kept as it should be. -/
structure PricesKept (s : Threads) : Prop where
  lock : LockInv s
  last : ∀ ticker, s.lastPrices ticker ≠ 0
  read : s.monitor.PriceRead

section Progress

variable {s t : Threads} {thread : Thread}

theorem monitorStep_prices {input : Nat} (hlast : ∀ ticker, s.lastPrices ticker ≠ 0)
    (hread : s.monitor.PriceRead) (h : monitorStep s input = some t) :
    (∀ ticker, t.lastPrices ticker ≠ 0) ∧ t.monitor.PriceRead := by
  cases monitorStep_cases h with
  | begin => exact ⟨hlast, trivial⟩
  | exit => exact ⟨hlast, trivial⟩
  | done => exact ⟨hlast, trivial⟩
  | unread => exact ⟨hlast, trivial⟩
  | read hpc hi => exact ⟨hlast, hi⟩
  | fillLock hpc => exact ⟨hlast, by simpa [hpc, MonitorPc.PriceRead] using hread⟩
  | early hpc hzero => exact absurd hzero (hlast _)
  | fillTest hpc => exact ⟨hlast, by simpa [hpc, MonitorPc.PriceRead] using hread⟩
  | fillUnlock hpc => exact ⟨hlast, by simpa [hpc, MonitorPc.PriceRead] using hread⟩
  | visit hpc => exact ⟨hlast, by simpa [hpc, MonitorPc.PriceRead] using hread⟩
  | priceLock hpc => exact ⟨hlast, by simpa [hpc, MonitorPc.PriceRead] using hread⟩
  | @priceSet ticker price rest hpc =>
    have hprice : price ≠ 0 := by simpa [hpc, MonitorPc.PriceRead] using hread
    refine ⟨fun other => ?_, trivial⟩
    obtain rfl | ho := eq_or_ne other ticker
    · simpa using hprice
    · simpa [ho] using hlast other
  | priceUnlock => exact ⟨hlast, trivial⟩

theorem PricesKept.step (h : PricesKept s) {e : Turn} (hstep : threadStep s e = some t) :
    PricesKept t := by
  have hlock : LockInv t := h.lock.step (fun ticker _ _ _ _ => h.last ticker) hstep
  obtain ⟨thread, input⟩ := e
  cases thread with
  | monitor =>
    obtain ⟨hlast, hread⟩ := monitorStep_prices h.last h.read hstep
    exact ⟨hlock, hlast, hread⟩
  | worker =>
    obtain ⟨hmonitor, hlast, -⟩ := workerStep_turnsLeft hstep
    exact ⟨hlock, hlast ▸ h.last, hmonitor ▸ h.read⟩

/-- A thread that has the lock where it needs it, and is not at a lock that is held, has a turn. -/
theorem threadStep_isSome (hregion : s.InRegion thread → s.holder = some thread)
    (hlock : s.Acquiring thread → s.holder = none) (hexit : ¬ s.Exited thread) (input : Nat) :
    (threadStep s ⟨thread, input⟩).isSome := by
  cases thread with
  | monitor =>
    simp only [Threads.InRegion, Threads.Acquiring, Threads.Exited] at hregion hlock hexit
    simp only [threadStep]
    cases hpc : s.monitor with
    | top => simp [monitorStep, hpc]
    | read tickers => cases tickers <;> simp [monitorStep, hpc]
    | fillLock ticker price rest =>
      have hfree := hlock (by simp [hpc])
      simp [monitorStep, hpc, Threads.acquire, hfree]
    | fillTest ticker price rest => simp [monitorStep, hpc]
    | fillUnlock ticker price rest =>
      have hheld := hregion (by simp [hpc])
      simp [monitorStep, hpc, Threads.release, hheld]
    | visit ticker price rest => simp [monitorStep, hpc]
    | priceLock ticker price rest =>
      have hfree := hlock (by simp [hpc])
      simp [monitorStep, hpc, Threads.acquire, hfree]
    | priceSet ticker price rest => simp [monitorStep, hpc]
    | priceUnlock rest =>
      have hheld := hregion (by simp [hpc])
      simp [monitorStep, hpc, Threads.release, hheld]
    | exited => exact absurd hpc hexit
  | worker =>
    simp only [Threads.InRegion, Threads.Acquiring, Threads.Exited] at hregion hlock hexit
    simp only [threadStep]
    cases hpc : s.worker with
    | top => simp [workerStep, hpc]
    | lock tickers =>
      cases tickers with
      | nil => simp [workerStep, hpc]
      | cons ticker rest =>
        have hfree := hlock (by simp [hpc])
        simp [workerStep, hpc, Threads.acquire, hfree]
    | build rest => simp [workerStep, hpc]
    | unlock rest =>
      have hheld := hregion (by simp [hpc])
      simp [workerStep, hpc, Threads.release, hheld]
    | exited => exact absurd hpc hexit

theorem Threads.Exited.not_inRegion (h : s.Exited thread) : ¬ s.InRegion thread := by
  cases thread with
  | monitor => simp_all [Threads.Exited, Threads.InRegion]
  | worker => simp_all [Threads.Exited, Threads.InRegion]

/-- The thread itself has a turn or, if it waits for the lock, the one that holds it. -/
theorem LockInv.exists_turn (h : LockInv s) (hexit : ¬ s.Exited thread) :
    ∃ other, ∀ input, (threadStep s ⟨other, input⟩).isSome := by
  have hregion := fun other => (h.holds other).mpr
  cases hholder : s.holder with
  | none => exact ⟨thread, threadStep_isSome (hregion thread) (fun _ => hholder) hexit⟩
  | some other =>
    have hin := (h.holds other).mp hholder
    refine ⟨other, threadStep_isSome (hregion other) ?_ fun hother => hother.not_inRegion hin⟩
    exact fun ha => absurd hin (LockInv.not_inRegion ha)

end Progress

section Stop

variable {lastPrices : Ticker → Nat} {s : StoppingService}

theorem exists_next (h : LockInv s.threads) (hpc : s.pc ≠ .returned) :
    ∃ e t, s.next e = some t := by
  have hwait : ∀ thread, ¬ s.threads.Exited thread → ∃ e t, s.next e = some t := by
    intro thread hexit
    obtain ⟨other, hturn⟩ := h.exists_turn hexit
    obtain ⟨u, hu⟩ := Option.isSome_iff_exists.mp (hturn (s.input other 0))
    exact ⟨.turn other 0, { s with threads := u }, by simp [StoppingService.next, hu]⟩
  cases hs : s.pc with
  | setFlag => exact ⟨.stop, _, by simp only [StoppingService.next, tradeServiceStopTurn, hs]; rfl⟩
  | joinMonitor =>
    by_cases hexit : s.threads.monitor = .exited
    · exact ⟨.stop, { s with pc := .joinWorker }, by
        simp [StoppingService.next, tradeServiceStopTurn, hs, hexit]⟩
    · exact hwait .monitor hexit
  | joinWorker =>
    by_cases hexit : s.threads.worker = .exited
    · exact ⟨.stop, { s with pc := .returned }, by
        simp [StoppingService.next, tradeServiceStopTurn, hs, hexit]⟩
    · exact hwait .worker hexit
  | returned => exact absurd hs hpc

theorem pricesKept_invariant (hlast : ∀ ticker, lastPrices ticker ≠ 0) :
    (stoppingService lastPrices).Invariant fun s => PricesKept s.threads where
  base := by
    rintro s rfl
    exact ⟨lockInv_of_init ⟨rfl, rfl, rfl⟩, hlast, trivial⟩
  step s e t hs hstep := by
    cases e with
    | turn thread price =>
      obtain ⟨u, hu, rfl⟩ := turn_cases hstep
      exact hs.step hu
    | stop =>
      obtain ⟨-, rfl⟩ | ⟨-, -, rfl⟩ | ⟨-, -, rfl⟩ := tradeServiceStopTurn_cases hstep
      · exact hs
      · exact hs
      · exact hs

end Stop

/-! ## Without a last price -/

section Stuck

variable {lastPrices : Ticker → Nat} {ticker : Ticker} {before after : List Ticker}

/-- The monitor passes the tickers whose prices it cannot read. -/
theorem failedReads_run (worker : WorkerPc) (holder : Option Thread) :
    (stoppingService lastPrices).Run
      ⟨⟨.read (before ++ after), worker, holder, lastPrices⟩, false, .setFlag⟩
      (List.replicate before.length (.turn .monitor 0))
      ⟨⟨.read after, worker, holder, lastPrices⟩, false, .setFlag⟩ := by
  induction before with
  | nil => exact .nil _
  | cons ticker before ih => exact .cons rfl ih

/-- The monitor waits for the lock that it holds, and the caller of the stop for the monitor. -/
def stuckService (lastPrices : Ticker → Nat) (ticker : Ticker) (rest : List Ticker) :
    StoppingService :=
  ⟨⟨.priceLock ticker 1 rest, .exited, some .monitor, lastPrices⟩, true, .joinMonitor⟩

theorem stuckService_reachable (hlast : lastPrices ticker = 0)
    (hsplit : allTickers = before ++ ticker :: after) :
    (stoppingService lastPrices).Reachable (stuckService lastPrices ticker after) := by
  have htop : (startedService lastPrices).next (.turn .monitor 0) =
      some ⟨⟨.read (before ++ ticker :: after), .top, none, lastPrices⟩, false, .setFlag⟩ := by
    simp [startedService, StoppingService.next, StoppingService.input, threadStep, monitorStep,
      hsplit]
  have htest : StoppingService.next
      ⟨⟨.fillTest ticker 1 after, .top, some .monitor, lastPrices⟩, false, .setFlag⟩
      (.turn .monitor 0) =
        some ⟨⟨.priceLock ticker 1 after, .top, some .monitor, lastPrices⟩, false, .setFlag⟩ := by
    simp [StoppingService.next, threadStep, monitorStep, hlast]
  have hfill : (stoppingService lastPrices).Run
      ⟨⟨.read (ticker :: after), .top, none, lastPrices⟩, false, .setFlag⟩
      [.turn .monitor 1, .turn .monitor 0, .turn .monitor 0, .stop, .turn .worker 0]
      (stuckService lastPrices ticker after) :=
    .cons rfl (.cons rfl (.cons htest (.cons rfl (.cons rfl (.nil _)))))
  exact ⟨_, _, rfl, .cons htop ((failedReads_run .top none).append hfill)⟩

theorem stuckService_next (e : ServiceEvent) :
    (stuckService lastPrices ticker after).next e = none := by
  cases e with
  | turn thread price => cases thread <;> rfl
  | stop => rfl

theorem exists_stuckAt (hlast : lastPrices ticker = 0) :
    ∃ s, (stoppingService lastPrices).Reachable s ∧ StuckAt ticker s := by
  have hmem : ticker ∈ allTickers := by cases ticker <;> decide
  obtain ⟨before, after, hsplit⟩ := List.append_of_mem hmem
  exact ⟨_, stuckService_reachable hlast hsplit, ⟨1, after, rfl⟩, rfl, ⟨rfl, rfl⟩,
    stuckService_next⟩

end Stuck

/-- When the service is stopped, both threads exit and `trade_service_stop` returns, whatever the
order of the turns and the prices that are read, exactly if `init_service` has read a last price
for every ticker. Without one for a ticker, the service can get stuck at its price. -/
theorem trade_service_stop_returns_iff (lastPrices : Ticker → Nat) :
    (StopReturns lastPrices ↔ ∀ ticker, lastPrices ticker ≠ 0) ∧
      ∀ ticker, lastPrices ticker = 0 →
        ∃ s, (stoppingService lastPrices).Reachable s ∧ StuckAt ticker s := by
  refine ⟨⟨fun h ticker hlast => ?_, fun hlast => ?_⟩, fun ticker hlast => exists_stuckAt hlast⟩
  · obtain ⟨s, hs, hstuck⟩ := exists_stuckAt hlast
    obtain ⟨hflag, hpc⟩ := hstuck.joins
    obtain ⟨e, t, hstep⟩ := h.proceeds s hs hflag (by simp [hpc])
    exact absurd ((hstuck.noTurn e).symm.trans hstep) (by simp)
  · refine ⟨fun s es t hs hflag r => service_run_le hs hflag r, fun s hs hflag hpc => ?_⟩
    exact exists_next ((pricesKept_invariant hlast).of_reachable hs).lock hpc

end TradeServer
