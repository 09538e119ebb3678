import TradeServer.Library.System
import TradeServer.Service.Fills

/-!
# The lock of the last prices

`market_monitor` and `simulated_order_worker` run as two threads that share the mutex
`last_price_lock`, which a thread waits for also when it holds it itself. `process_fills`
returns early, with the lock held, when the ticker has no last price; without that
return, a thread holds the lock exactly inside its lock/unlock regions.
-/

namespace TradeServer

open Library

inductive Thread where
  | monitor
  | worker
  deriving DecidableEq

/-- Where `market_monitor` is, with the price that was read for a ticker and the tickers after
it. -/
inductive MonitorPc where
  | top
  | read (tickers : List Ticker)
  /-- Before the lock of `process_fills`, -/
  | fillLock (ticker : Ticker) (price : Nat) (rest : List Ticker)
  /-- at its test of the last price, -/
  | fillTest (ticker : Ticker) (price : Nat) (rest : List Ticker)
  /-- before its unlock, -/
  | fillUnlock (ticker : Ticker) (price : Nat) (rest : List Ticker)
  /-- and in its two visits. -/
  | visit (ticker : Ticker) (price : Nat) (rest : List Ticker)
  /-- `process_fills` has returned; before the second lock, -/
  | priceLock (ticker : Ticker) (price : Nat) (rest : List Ticker)
  | priceSet (ticker : Ticker) (price : Nat) (rest : List Ticker)
  | priceUnlock (rest : List Ticker)
  | exited
  deriving DecidableEq

inductive WorkerPc where
  | top
  | lock (tickers : List Ticker)
  | build (rest : List Ticker)
  | unlock (rest : List Ticker)
  | exited
  deriving DecidableEq

structure Threads where
  monitor : MonitorPc
  worker : WorkerPc
  holder : Option Thread
  lastPrices : Ticker → Nat

/-- A turn of a thread. `input` is the price that is read, 0 for a failed read, or the exit flag. -/
structure Turn where
  thread : Thread
  input : Nat

/-- `pthread_mutex_lock`: no step while the mutex is held. -/
def Threads.acquire (s : Threads) (thread : Thread) : Option Threads :=
  if s.holder = none then some { s with holder := some thread } else none

/-- `pthread_mutex_unlock` by the holder. -/
def Threads.release (s : Threads) (thread : Thread) : Option Threads :=
  if s.holder = some thread then some { s with holder := none } else none

theorem Threads.acquire_eq_some {s t : Threads} {thread : Thread} :
    s.acquire thread = some t ↔ s.holder = none ∧ { s with holder := some thread } = t := by
  unfold Threads.acquire
  split <;> simp_all

theorem Threads.release_eq_some {s t : Threads} {thread : Thread} :
    s.release thread = some t ↔ s.holder = some thread ∧ { s with holder := none } = t := by
  unfold Threads.release
  split <;> simp_all

def monitorStep (s : Threads) (input : Nat) : Option Threads :=
  match s.monitor with
  | .top => some { s with monitor := if input = 0 then .read allTickers else .exited }
  | .read [] => some { s with monitor := .top }
  | .read (ticker :: rest) =>
    some { s with monitor := if input = 0 then .read rest else .fillLock ticker input rest }
  | .fillLock ticker price rest =>
    (s.acquire .monitor).map ({ · with monitor := .fillTest ticker price rest })
  | .fillTest ticker price rest =>
    some { s with monitor :=
      if s.lastPrices ticker = 0 then .priceLock ticker price rest
      else .fillUnlock ticker price rest }
  | .fillUnlock ticker price rest =>
    (s.release .monitor).map ({ · with monitor := .visit ticker price rest })
  | .visit ticker price rest => some { s with monitor := .priceLock ticker price rest }
  | .priceLock ticker price rest =>
    (s.acquire .monitor).map ({ · with monitor := .priceSet ticker price rest })
  | .priceSet ticker price rest =>
    some { s with
      lastPrices := Function.update s.lastPrices ticker price, monitor := .priceUnlock rest }
  | .priceUnlock rest => (s.release .monitor).map ({ · with monitor := .read rest })
  | .exited => none

def workerStep (s : Threads) (input : Nat) : Option Threads :=
  match s.worker with
  | .top => some { s with worker := if input = 0 then .lock allTickers else .exited }
  | .lock [] => some { s with worker := .top }
  | .lock (_ :: rest) => (s.acquire .worker).map ({ · with worker := .build rest })
  | .build rest => some { s with worker := .unlock rest }
  | .unlock rest => (s.release .worker).map ({ · with worker := .lock rest })
  | .exited => none

def threadStep (s : Threads) (e : Turn) : Option Threads :=
  match e.thread with
  | .monitor => monitorStep s e.input
  | .worker => workerStep s e.input

/-- Both threads are started after `init_service`, which may leave any last prices. -/
def threads : System Threads Turn where
  init s := s.monitor = .top ∧ s.worker = .top ∧ s.holder = none
  step s e t := threadStep s e = some t

/-- The thread is at a call of `pthread_mutex_lock`. -/
def Threads.Acquiring (s : Threads) : Thread → Prop
  | .monitor => match s.monitor with
    | .fillLock _ _ _ => True
    | .priceLock _ _ _ => True
    | _ => False
  | .worker => match s.worker with
    | .lock (_ :: _) => True
    | _ => False

/-- The thread is between a lock and its unlock. -/
def Threads.InRegion (s : Threads) : Thread → Prop
  | .monitor => match s.monitor with
    | .fillTest _ _ _ => True
    | .fillUnlock _ _ _ => True
    | .priceSet _ _ _ => True
    | .priceUnlock _ => True
    | _ => False
  | .worker => match s.worker with
    | .build _ => True
    | .unlock _ => True
    | _ => False

structure LockDiscipline (s : Threads) : Prop where
  no_self_lock : ∀ thread, s.Acquiring thread → s.holder ≠ some thread
  /-- `process_fills` returns without the lock. -/
  returned : ∀ ticker price rest, s.monitor = .priceLock ticker price rest →
    s.holder ≠ some .monitor
  free : (∀ thread, ¬ s.InRegion thread) → s.holder = none
  /-- A waiting thread gets the lock after a few turns of the other one. -/
  proceeds : ∀ thread, s.Acquiring thread → ∃ es t, es.length ≤ 2 ∧
    (∀ e ∈ es, e.thread ≠ thread) ∧ threads.Run s es t ∧ t.holder = none ∧ t.Acquiring thread

/-- `process_fills` is called only for a ticker that has a last price. -/
def HasLastPrice (s : Threads) (e : Turn) : Prop :=
  ∀ ticker rest, e.thread = .monitor → s.monitor = .read (ticker :: rest) → e.input ≠ 0 →
    s.lastPrices ticker ≠ 0

/-- `process_fills` runs for tickers with a last price, so it does not return early. -/
def NoEarlyReturn (s : Threads) : Prop :=
  ∀ ticker price rest, s.monitor = .fillLock ticker price rest ∨
    s.monitor = .fillTest ticker price rest → s.lastPrices ticker ≠ 0

/-- A thread holds the lock exactly in its regions. -/
structure LockInv (s : Threads) : Prop where
  holds : ∀ thread, s.holder = some thread ↔ s.InRegion thread
  price : NoEarlyReturn s

namespace LockInv

variable {s t : Threads} {thread : Thread}

theorem kept (h : LockInv s) (hholder : t.holder = s.holder)
    (hregion : ∀ thread, t.InRegion thread ↔ s.InRegion thread) (hprice : NoEarlyReturn t) :
    LockInv t :=
  ⟨fun thread => by rw [hholder, hregion, h.holds], hprice⟩

theorem acquired (h : LockInv s) (hs : s.holder = none) (ht : t.holder = some thread)
    (hin : t.InRegion thread)
    (hother : ∀ other, other ≠ thread → (t.InRegion other ↔ s.InRegion other))
    (hprice : NoEarlyReturn t) : LockInv t := by
  refine ⟨fun other => ?_, hprice⟩
  by_cases ho : other = thread
  · subst ho
    exact iff_of_true ht hin
  · have hout : ¬ s.InRegion other := by simp [← h.holds, hs]
    rw [ht, hother other ho]
    exact iff_of_false (fun heq => ho (Option.some.inj heq).symm) hout

theorem released (h : LockInv s) (hs : s.holder = some thread) (ht : t.holder = none)
    (hout : ¬ t.InRegion thread)
    (hother : ∀ other, other ≠ thread → (t.InRegion other ↔ s.InRegion other))
    (hprice : NoEarlyReturn t) : LockInv t := by
  refine ⟨fun other => ?_, hprice⟩
  rw [ht]
  by_cases ho : other = thread
  · subst ho
    exact iff_of_false (by simp) hout
  · have hout' : ¬ s.InRegion other := by
      rw [← h.holds, hs]
      exact fun heq => ho (Option.some.inj heq).symm
    rw [hother other ho]
    exact iff_of_false (by simp) hout'

theorem monitor_turn (h : LockInv s) {input : Nat}
    (hok : ∀ ticker rest, s.monitor = .read (ticker :: rest) → input ≠ 0 → s.lastPrices ticker ≠ 0)
    (hstep : monitorStep s input = some t) : LockInv t := by
  cases hpc : s.monitor with
  | top =>
    simp only [monitorStep, hpc, Option.some_inj] at hstep
    subst hstep
    refine h.kept rfl (fun thread => ?_) ?_
    · cases thread <;> by_cases hi : input = 0 <;> simp [Threads.InRegion, hpc, hi]
    · by_cases hi : input = 0 <;> simp [NoEarlyReturn, hi]
  | read tickers =>
    cases tickers with
    | nil =>
      simp only [monitorStep, hpc, Option.some_inj] at hstep
      subst hstep
      refine h.kept rfl (fun thread => ?_) (by simp [NoEarlyReturn])
      cases thread <;> simp [Threads.InRegion, hpc]
    | cons ticker rest =>
      simp only [monitorStep, hpc, Option.some_inj] at hstep
      subst hstep
      refine h.kept rfl (fun thread => ?_) ?_
      · cases thread <;> by_cases hi : input = 0 <;> simp [Threads.InRegion, hpc, hi]
      · by_cases hi : input = 0
        · simp [NoEarlyReturn, hi]
        · simpa [NoEarlyReturn, hi] using hok ticker rest hpc hi
  | fillLock ticker price rest =>
    simp only [monitorStep, hpc, Option.map_eq_some_iff, Threads.acquire_eq_some] at hstep
    obtain ⟨_, ⟨hfree, rfl⟩, rfl⟩ := hstep
    refine h.acquired hfree rfl trivial (fun other ho => ?_) ?_
    · cases other <;> simp [Threads.InRegion] at ho ⊢
    · simpa [NoEarlyReturn] using h.price ticker price rest (.inl hpc)
  | fillTest ticker price rest =>
    have hlast := h.price ticker price rest (.inr hpc)
    simp only [monitorStep, hpc, if_neg hlast, Option.some_inj] at hstep
    subst hstep
    refine h.kept rfl (fun thread => ?_) (by simp [NoEarlyReturn])
    cases thread <;> simp [Threads.InRegion, hpc]
  | fillUnlock ticker price rest =>
    simp only [monitorStep, hpc, Option.map_eq_some_iff, Threads.release_eq_some] at hstep
    obtain ⟨_, ⟨hheld, rfl⟩, rfl⟩ := hstep
    refine h.released hheld rfl not_false (fun other ho => ?_) (by simp [NoEarlyReturn])
    cases other <;> simp [Threads.InRegion] at ho ⊢
  | visit ticker price rest =>
    simp only [monitorStep, hpc, Option.some_inj] at hstep
    subst hstep
    refine h.kept rfl (fun thread => ?_) (by simp [NoEarlyReturn])
    cases thread <;> simp [Threads.InRegion, hpc]
  | priceLock ticker price rest =>
    simp only [monitorStep, hpc, Option.map_eq_some_iff, Threads.acquire_eq_some] at hstep
    obtain ⟨_, ⟨hfree, rfl⟩, rfl⟩ := hstep
    refine h.acquired hfree rfl trivial (fun other ho => ?_) (by simp [NoEarlyReturn])
    cases other <;> simp [Threads.InRegion] at ho ⊢
  | priceSet ticker price rest =>
    simp only [monitorStep, hpc, Option.some_inj] at hstep
    subst hstep
    refine h.kept rfl (fun thread => ?_) (by simp [NoEarlyReturn])
    cases thread <;> simp [Threads.InRegion, hpc]
  | priceUnlock rest =>
    simp only [monitorStep, hpc, Option.map_eq_some_iff, Threads.release_eq_some] at hstep
    obtain ⟨_, ⟨hheld, rfl⟩, rfl⟩ := hstep
    refine h.released hheld rfl not_false (fun other ho => ?_) (by simp [NoEarlyReturn])
    cases other <;> simp [Threads.InRegion] at ho ⊢
  | exited => simp [monitorStep, hpc] at hstep

theorem worker_turn (h : LockInv s) {input : Nat} (hstep : workerStep s input = some t) :
    LockInv t := by
  cases hpc : s.worker with
  | top =>
    simp only [workerStep, hpc, Option.some_inj] at hstep
    subst hstep
    refine h.kept rfl (fun thread => ?_) h.price
    cases thread <;> by_cases hi : input = 0 <;> simp [Threads.InRegion, hpc, hi, allTickers]
  | lock tickers =>
    cases tickers with
    | nil =>
      simp only [workerStep, hpc, Option.some_inj] at hstep
      subst hstep
      refine h.kept rfl (fun thread => ?_) h.price
      cases thread <;> simp [Threads.InRegion, hpc]
    | cons ticker rest =>
      simp only [workerStep, hpc, Option.map_eq_some_iff, Threads.acquire_eq_some] at hstep
      obtain ⟨_, ⟨hfree, rfl⟩, rfl⟩ := hstep
      refine h.acquired hfree rfl trivial (fun other ho => ?_) h.price
      cases other <;> simp [Threads.InRegion] at ho ⊢
  | build rest =>
    simp only [workerStep, hpc, Option.some_inj] at hstep
    subst hstep
    refine h.kept rfl (fun thread => ?_) h.price
    cases thread <;> simp [Threads.InRegion, hpc]
  | unlock rest =>
    simp only [workerStep, hpc, Option.map_eq_some_iff, Threads.release_eq_some] at hstep
    obtain ⟨_, ⟨hheld, rfl⟩, rfl⟩ := hstep
    refine h.released hheld rfl not_false (fun other ho => ?_) h.price
    cases other <;> simp [Threads.InRegion] at ho ⊢
  | exited => simp [workerStep, hpc] at hstep

theorem step (h : LockInv s) {e : Turn} (hok : HasLastPrice s e) (hstep : threads.step s e t) :
    LockInv t := by
  obtain ⟨thread, input⟩ := e
  cases thread with
  | monitor => exact h.monitor_turn (fun ticker rest => hok ticker rest rfl) hstep
  | worker => exact h.worker_turn hstep

theorem not_inRegion (h : s.Acquiring thread) : ¬ s.InRegion thread := by
  cases thread with
  | monitor => cases hpc : s.monitor <;> simp [Threads.Acquiring, Threads.InRegion, hpc] at h ⊢
  | worker => cases hpc : s.worker <;> simp [Threads.Acquiring, Threads.InRegion, hpc] at h ⊢

/-- The monitor leaves a region by at most two turns of its own. -/
theorem monitor_leaves (h : LockInv s) (hin : s.InRegion .monitor) :
    ∃ es t, es.length ≤ 2 ∧ (∀ e ∈ es, e.thread = .monitor) ∧ threads.Run s es t ∧
      t.holder = none ∧ t.worker = s.worker := by
  have hheld := (h.holds .monitor).mpr hin
  cases hpc : s.monitor with
  | fillTest ticker price rest =>
    have hlast := h.price ticker price rest (.inr hpc)
    have htest : monitorStep s 0 = some { s with monitor := .fillUnlock ticker price rest } := by
      simp [monitorStep, hpc, hlast]
    have hunlock : monitorStep { s with monitor := .fillUnlock ticker price rest } 0 =
        some { s with monitor := .visit ticker price rest, holder := none } := by
      simp [monitorStep, Threads.release, hheld]
    exact ⟨[⟨.monitor, 0⟩, ⟨.monitor, 0⟩], _, by simp, by simp,
      .cons htest (.cons hunlock (.nil _)), rfl, rfl⟩
  | fillUnlock ticker price rest =>
    have hunlock : monitorStep s 0 =
        some { s with monitor := .visit ticker price rest, holder := none } := by
      simp [monitorStep, hpc, Threads.release, hheld]
    exact ⟨[⟨.monitor, 0⟩], _, by simp, by simp, .cons hunlock (.nil _), rfl, rfl⟩
  | priceSet ticker price rest =>
    have hset : monitorStep s 0 = some { s with
        lastPrices := Function.update s.lastPrices ticker price
        monitor := .priceUnlock rest } := by
      simp [monitorStep, hpc]
    have hunlock : monitorStep { s with
        lastPrices := Function.update s.lastPrices ticker price, monitor := .priceUnlock rest } 0 =
        some { s with
          lastPrices := Function.update s.lastPrices ticker price
          monitor := .read rest
          holder := none } := by
      simp [monitorStep, Threads.release, hheld]
    exact ⟨[⟨.monitor, 0⟩, ⟨.monitor, 0⟩], _, by simp, by simp,
      .cons hset (.cons hunlock (.nil _)), rfl, rfl⟩
  | priceUnlock rest =>
    have hunlock : monitorStep s 0 = some { s with monitor := .read rest, holder := none } := by
      simp [monitorStep, hpc, Threads.release, hheld]
    exact ⟨[⟨.monitor, 0⟩], _, by simp, by simp, .cons hunlock (.nil _), rfl, rfl⟩
  | _ => simp [Threads.InRegion, hpc] at hin

theorem worker_leaves (h : LockInv s) (hin : s.InRegion .worker) :
    ∃ es t, es.length ≤ 2 ∧ (∀ e ∈ es, e.thread = .worker) ∧ threads.Run s es t ∧
      t.holder = none ∧ t.monitor = s.monitor := by
  have hheld := (h.holds .worker).mpr hin
  cases hpc : s.worker with
  | build rest =>
    have hbuild : workerStep s 0 = some { s with worker := .unlock rest } := by
      simp [workerStep, hpc]
    have hunlock : workerStep { s with worker := .unlock rest } 0 =
        some { s with worker := .lock rest, holder := none } := by
      simp [workerStep, Threads.release, hheld]
    exact ⟨[⟨.worker, 0⟩, ⟨.worker, 0⟩], _, by simp, by simp,
      .cons hbuild (.cons hunlock (.nil _)), rfl, rfl⟩
  | unlock rest =>
    have hunlock : workerStep s 0 = some { s with worker := .lock rest, holder := none } := by
      simp [workerStep, hpc, Threads.release, hheld]
    exact ⟨[⟨.worker, 0⟩], _, by simp, by simp, .cons hunlock (.nil _), rfl, rfl⟩
  | _ => simp [Threads.InRegion, hpc] at hin

theorem discipline (h : LockInv s) : LockDiscipline s where
  no_self_lock thread ha heq := not_inRegion ha ((h.holds thread).mp heq)
  returned ticker price rest hpc heq := by
    have hin := (h.holds .monitor).mp heq
    simp [Threads.InRegion, hpc] at hin
  free hout := by
    cases hholder : s.holder with
    | none => rfl
    | some thread => exact absurd ((h.holds thread).mp hholder) (hout thread)
  proceeds thread ha := by
    cases hholder : s.holder with
    | none => exact ⟨[], s, by simp, by simp, .nil s, hholder, ha⟩
    | some other =>
      have hin := (h.holds other).mp hholder
      cases thread with
      | monitor =>
        cases other with
        | monitor => exact absurd hin (not_inRegion ha)
        | worker =>
          obtain ⟨es, t, hlen, hes, hrun, hfree, hmonitor⟩ := h.worker_leaves hin
          refine ⟨es, t, hlen, fun e he => by simp [hes e he], hrun, hfree, ?_⟩
          simpa [Threads.Acquiring, hmonitor] using ha
      | worker =>
        cases other with
        | monitor =>
          obtain ⟨es, t, hlen, hes, hrun, hfree, hworker⟩ := h.monitor_leaves hin
          refine ⟨es, t, hlen, fun e he => by simp [hes e he], hrun, hfree, ?_⟩
          simpa [Threads.Acquiring, hworker] using ha
        | worker => exact absurd hin (not_inRegion ha)

end LockInv

theorem lockInv_of_init {s : Threads} (h : threads.init s) : LockInv s := by
  obtain ⟨hm, hw, hfree⟩ := h
  refine ⟨fun thread => ?_, by simp [NoEarlyReturn, hm]⟩
  cases thread <;> simp [Threads.InRegion, hm, hw, hfree]

/-- In every run in which `process_fills` is called only for tickers with a last price, no thread
locks what it holds, `process_fills` returns without the lock, the lock is free outside the
regions, and a waiting thread gets it. -/
theorem lock_discipline {s : Threads} (h : (threads.restrict HasLastPrice).Reachable s) :
    LockDiscipline s := by
  have hinv : (threads.restrict HasLastPrice).Invariant LockInv :=
    ⟨fun s hs => lockInv_of_init hs, fun s e t hs hstep => hs.step hstep.1 hstep.2⟩
  exact (hinv.of_reachable h).discipline

/-- The threads after `init_service`, with one last price for all tickers. -/
def threadsAfter (lastPrice : Nat) : Threads := ⟨.top, .top, none, fun _ => lastPrice⟩

/-- A price is read for the first ticker, and the monitor runs up to its second lock. -/
def firstRead : List Turn := [⟨.monitor, 0⟩, ⟨.monitor, 5⟩, ⟨.monitor, 0⟩, ⟨.monitor, 0⟩]

theorem lock_discipline_with_last_price :
    ∃ s, firstRead.foldlM threadStep (threadsAfter 4) = some s ∧
    LockDiscipline s := by
  have hprice : (4 : Nat) ≠ 0 := by omega
  exact ⟨_, rfl, lock_discipline ⟨threadsAfter 4, firstRead, ⟨rfl, rfl, rfl⟩,
    .cons ⟨fun _ _ _ _ _ => hprice, rfl⟩ (.cons ⟨fun _ _ _ _ _ => hprice, rfl⟩
      (.cons ⟨fun _ _ _ _ _ => hprice, rfl⟩ (.cons ⟨fun _ _ _ _ _ => hprice, rfl⟩ (.nil _))))⟩⟩

/-- The first price of the first ticker could not be read at the start. The next read succeeds, and
the monitor waits for the lock that it holds. -/
theorem early_return_keeps_lock : ¬ ∀ s, threads.Reachable s → LockDiscipline s := by
  intro h
  have hrun : firstRead.foldlM threadStep (threadsAfter 0) =
      some ⟨.priceLock .ANDTHEN 5 [.FORIS4, .SPARK, .ZILBIAN], .top, some .monitor, fun _ => 0⟩ :=
    rfl
  have hdis := h _ ⟨threadsAfter 0, firstRead, ⟨rfl, rfl, rfl⟩,
    .of_foldlM (fun _ _ _ _ hstep => hstep) hrun⟩
  exact hdis.no_self_lock .monitor trivial rfl

end TradeServer
