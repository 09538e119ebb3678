import TradeServer.Sse.Delivery
import TradeServer.Sse.Passes

/-!
# Stopping the write threads

`client_writer_stop` sets the flags of the threads one by one and then joins the threads one
after another. A thread looks at its flag between two passes over the queue only, so it is
the size of the queue, and what is queued meanwhile, that bounds how long a stop takes.
-/

namespace TradeServer

open Library

variable {n : Nat} {k : Fin NUM_CLIENT_LISTS} {s t : Stopping} {es : List StopEvent}

/-- Where `client_writer_stop` is: at a flag, at a join, or back in its caller. -/
inductive StopPc where
  | setFlag (i : Nat)
  | join (i : Nat)
  | returned
  deriving DecidableEq

/-- The client writer while one thread is in `client_writer_stop` or before it. -/
structure Stopping where
  server : Broadcast
  pc : StopPc

def Stopping.writer (s : Stopping) : ClientWriter := s.server.writer

def ClientWriter.setStop (w : ClientWriter) (k : Fin NUM_CLIENT_LISTS) : ClientWriter :=
  w.setClm k { w.clm k with stop := true }

/-- The next turn of `client_writer_stop`: a round of one of its loops. -/
def clientWriterStopTurn (s : Stopping) : Option Stopping :=
  match s.pc with
  | .setFlag i =>
    if h : i < NUM_CLIENT_LISTS then
      some ⟨{ s.server with writer := s.writer.setStop ⟨i, h⟩ }, .setFlag (i + 1)⟩
    else some { s with pc := .join 0 }
  | .join i =>
    if h : i < NUM_CLIENT_LISTS then
      -- `pthread_join` does not return before the thread does
      if (s.writer.thread ⟨i, h⟩).pc = .exited then some { s with pc := .join (i + 1) } else none
    else some { s with pc := .returned }
  | .returned => none

inductive StopEvent where
  | writer (e : WriterEvent)
  | stop

def StopEvent.isStop : StopEvent → Bool
  | .stop => true
  | _ => false

def StopEvent.isQueueData : StopEvent → Bool
  | .writer e => e.isQueueData
  | _ => false

def StopEvent.isTurn (k : Fin NUM_CLIENT_LISTS) : StopEvent → Bool
  | .writer e => e.isTurn k
  | _ => false

def Stopping.next (s : Stopping) : StopEvent → Option Stopping
  | .writer e => (s.server.next e).map ({ s with server := · })
  | .stop => clientWriterStopTurn s

def stopping (n : Nat) : System Stopping StopEvent where
  init s := s = ⟨⟨clientWriterInit n, []⟩, .setFlag 0⟩
  step s e t := s.next e = some t

/-- Descriptors are positive, and it is `client_writer_stop` that sets the flags. -/
def StopEvent.Allowed (_ : Stopping) : StopEvent → Prop
  | .writer .stop => False
  | .writer (.addClient clientFd) => 0 < clientFd
  | _ => True

/-- The first loop sets all flags, whatever it is called on. -/
theorem stopTurns_setFlag (hpc : s.pc = .setFlag 0) :
    (List.replicate (NUM_CLIENT_LISTS + 1) StopEvent.stop).foldlM Stopping.next s =
      some ⟨{ s.server with writer := clientWriterStop s.writer }, .join 0⟩ := by
  obtain ⟨⟨w, log⟩, pc⟩ := s
  obtain rfl : pc = .setFlag 0 := hpc
  have hclm : (((w.setStop 0).setStop 1).setStop 2) = clientWriterStop w := by
    simp only [ClientWriter.setStop, ClientWriter.setClm, clientWriterStop,
      ClientWriter.mk.injEq, and_self, and_true]
    funext k
    obtain ⟨_ | _ | _ | k, hk⟩ := k
    · rfl
    · rfl
    · rfl
    · exact absurd hk (by simp [NUM_CLIENT_LISTS])
  simp only [Stopping.writer, ← hclm]
  rfl

/-! ## The steps -/

/-- The slots that the threads read are slots of the queue. -/
structure InBounds (n : Nat) (w : ClientWriter) : Prop where
  size : w.dataQueueSize = n
  length : w.dataQueue.length = n
  read : ∀ k, w.nextIdx k ≤ n

namespace InBounds

variable {w w' : ClientWriter} {e : WriterEvent} {es : List Effect}

theorem init (n : Nat) : InBounds n (clientWriterInit n) :=
  ⟨rfl, List.length_replicate, fun _ => Nat.zero_le _⟩

theorem wrap_read_lt (h : InBounds n w) (hn : 0 < n) (hpc : (w.thread k).pc = .read) :
    wrap w.dataQueueSize (w.clm k).lastDataReadIdx < n := by
  have hle := h.read k
  simp only [ClientWriter.nextIdx, hpc] at hle
  rw [h.size]
  exact wrap_lt hn hle

/-- A turn of thread `j` that leaves the place of the others. -/
theorem turn (h : InBounds n w) (j : Fin NUM_CLIENT_LISTS) (hsize : w'.dataQueueSize = n)
    (hlength : w'.dataQueue.length = n) (hj : w'.nextIdx j ≤ n)
    (hother : ∀ k ≠ j, w'.thread k = w.thread k ∧ w'.clm k = w.clm k) : InBounds n w' := by
  refine ⟨hsize, hlength, fun k => ?_⟩
  obtain rfl | hk := eq_or_ne k j
  · exact hj
  · obtain ⟨hthread, hclm⟩ := hother k hk
    rw [ClientWriter.nextIdx_congr hthread (by rw [hclm])]
    exact h.read k

theorem step (h : InBounds n w) (hn : 0 < n) (hstep : WriterStep w e w' es) : InBounds n w' := by
  have hplace : ∀ j, w'.nextIdx j = w.nextIdx j → w'.nextIdx j ≤ n := fun j hj => hj ▸ h.read j
  cases hstep with
  | queueData => exact ⟨h.size, by simpa using h.length, h.read⟩
  | full => exact ⟨h.size, h.length, h.read⟩
  | stop => exact ⟨h.size, h.length, h.read⟩
  | @addClient _ _ j =>
    exact h.turn j h.size h.length (hplace j (by simp [ClientWriter.nextIdx]))
      fun k hk => by simp [hk]
  | @wake j _ pc hpc hnext =>
    refine h.turn j h.size h.length (hplace j ?_) fun k hk => by simp [hk]
    obtain rfl | rfl := hnext <;> simp [ClientWriter.nextIdx, hpc]
  | @skip j _ node hpc hnode =>
    refine h.turn j h.size h.length ?_ fun k hk => by simp [hk]
    simpa [ClientWriter.nextIdx] using (h.wrap_read_lt hn hpc).le
  | @read j _ node hpc hnode =>
    refine h.turn j h.size h.length ?_ fun k hk => by simp [hk]
    simpa [ClientWriter.nextIdx, Nat.add_one_le_iff] using h.wrap_read_lt hn hpc
  | @passed j _ i hpc =>
    exact h.turn j h.size h.length (hplace j (by simp [ClientWriter.nextIdx, hpc]))
      fun k hk => by simp [hk]
  | @lost j _ i hpc =>
    exact h.turn j h.size h.length (hplace j (by simp [ClientWriter.nextIdx, hpc]))
      fun k hk => by simp [hk]
  | @fail j _ _ i hpc =>
    exact h.turn j h.size h.length (hplace j (by simp [ClientWriter.nextIdx, hpc]))
      fun k hk => by simp [hk]
  | @sent j _ _ i hpc =>
    exact h.turn j h.size h.length (hplace j (by simp [ClientWriter.nextIdx, hpc]))
      fun k hk => by simp [hk]

end InBounds

/-! ## The call -/

/-- The flags that `client_writer_stop` has set. -/
def StopPc.Flagged : StopPc → Fin NUM_CLIENT_LISTS → Prop
  | .setFlag i, k => k.val < i
  | _, _ => True

/-- The threads that it has joined. -/
def StopPc.Joined : StopPc → Fin NUM_CLIENT_LISTS → Prop
  | .setFlag _, _ => False
  | .join i, k => k.val < i
  | .returned, _ => True

/-- The turns that `client_writer_stop` has before it. -/
def StopPc.turnsLeft : StopPc → Nat
  | .setFlag i => (NUM_CLIENT_LISTS - i) + 1 + (NUM_CLIENT_LISTS + 1)
  | .join i => (NUM_CLIENT_LISTS - i) + 1
  | .returned => 0

structure StoppingInv (n : Nat) (s : Stopping) : Prop where
  list : ∀ k, ListInv k s.server
  bounds : InBounds n s.writer
  flags : ∀ k, s.pc.Flagged k → (s.writer.clm k).stop = true
  joined : ∀ k, s.pc.Joined k → (s.writer.thread k).pc = .exited

/-- What a turn of `client_writer_stop` does. -/
inductive StopTurn (s : Stopping) : Stopping → Prop where
  | setFlag {i : Nat} (hpc : s.pc = .setFlag i) (hi : i < NUM_CLIENT_LISTS) :
      StopTurn s ⟨{ s.server with writer := s.writer.setStop ⟨i, hi⟩ }, .setFlag (i + 1)⟩
  | flagsSet {i : Nat} (hpc : s.pc = .setFlag i) (hi : NUM_CLIENT_LISTS ≤ i) :
      StopTurn s { s with pc := .join 0 }
  | join {i : Nat} (hpc : s.pc = .join i) (hi : i < NUM_CLIENT_LISTS)
      (hexit : (s.writer.thread ⟨i, hi⟩).pc = .exited) : StopTurn s { s with pc := .join (i + 1) }
  | joined {i : Nat} (hpc : s.pc = .join i) (hi : NUM_CLIENT_LISTS ≤ i) :
      StopTurn s { s with pc := .returned }

theorem clientWriterStopTurn_cases (h : clientWriterStopTurn s = some t) :
    StopTurn s t := by
  unfold clientWriterStopTurn at h
  split at h
  · next i hpc =>
    split_ifs at h with hi
    · exact Option.some.inj h ▸ .setFlag hpc hi
    · exact Option.some.inj h ▸ .flagsSet hpc (not_lt.mp hi)
  · next i hpc =>
    split_ifs at h with hi hexit
    · exact Option.some.inj h ▸ .join hpc hi hexit
    · exact Option.some.inj h ▸ .joined hpc (not_lt.mp hi)
  · simp at h

namespace ClientWriter

variable {w : ClientWriter} {j : Fin NUM_CLIENT_LISTS}

@[simp] theorem thread_setStop : (w.setStop j).thread = w.thread := rfl

@[simp] theorem view_setStop : (w.setStop j).view k = w.view k := by
  obtain rfl | hk := eq_or_ne k j
  · simp [setStop, view]
  · simp [setStop, view, hk]

@[simp] theorem stop_setStop : ((w.setStop j).clm k).stop = (decide (k = j) || (w.clm k).stop) := by
  obtain rfl | hk := eq_or_ne k j
  · simp [setStop]
  · simp [setStop, hk]

theorem nextIdx_setStop : (w.setStop j).nextIdx k = w.nextIdx k := by
  obtain rfl | hk := eq_or_ne k j
  · simp [setStop, nextIdx]
  · simp [setStop, nextIdx, hk]

end ClientWriter

theorem ListInv.setStop {s : Broadcast} {j : Fin NUM_CLIENT_LISTS} (h : ListInv k s) :
    ListInv k { s with writer := s.writer.setStop j } :=
  ⟨by simpa using h.thread, by simpa using h.added, by simpa using h.served⟩

namespace StoppingInv

variable {e : StopEvent}

theorem init (n : Nat) : StoppingInv n ⟨⟨clientWriterInit n, []⟩, .setFlag 0⟩ where
  list k := .init k n
  bounds := .init n
  flags _ hk := absurd hk (Nat.not_lt_zero _)
  joined _ hk := hk.elim

theorem stopTurn (h : StoppingInv n s) (hstep : StopTurn s t) : StoppingInv n t := by
  cases hstep with
  | @setFlag i hpc hi =>
    refine ⟨fun k => (h.list k).setStop, ?_, fun k hk => ?_, fun k hk => hk.elim⟩
    · refine ⟨h.bounds.size, h.bounds.length, fun k => ?_⟩
      exact (ClientWriter.nextIdx_setStop).trans_le (h.bounds.read k)
    · simp only [Stopping.writer, ClientWriter.stop_setStop, Bool.or_eq_true, decide_eq_true_eq]
      obtain heq | hlt := Nat.eq_or_lt_of_le (Nat.le_of_lt_succ hk)
      · exact .inl (Fin.ext heq)
      · exact .inr (h.flags k (by rw [hpc]; exact hlt))
  | flagsSet hpc hi =>
    refine ⟨h.list, h.bounds, fun k _ => h.flags k ?_, fun k hk => absurd hk (Nat.not_lt_zero _)⟩
    rw [hpc]
    exact k.isLt.trans_le hi
  | @join i hpc hi hexit =>
    refine ⟨h.list, h.bounds, fun k _ => h.flags k (by rw [hpc]; trivial), fun k hk => ?_⟩
    obtain heq | hlt := Nat.eq_or_lt_of_le (Nat.le_of_lt_succ hk)
    · obtain rfl : k = ⟨i, hi⟩ := Fin.ext heq
      exact hexit
    · exact h.joined k (by rw [hpc]; exact hlt)
  | joined hpc hi =>
    refine ⟨h.list, h.bounds, fun k _ => h.flags k (by rw [hpc]; trivial), fun k _ => ?_⟩
    exact h.joined k (by rw [hpc]; exact k.isLt.trans_le hi)

theorem writer {u : Broadcast} (h : StoppingInv n s) (hn : 0 < n) {e : WriterEvent}
    (hok : StopEvent.Allowed s (.writer e)) (hstep : s.server.next e = some u) :
    StoppingInv n { s with server := u } := by
  obtain ⟨es, hw, -⟩ := Broadcast.next_cases hstep
  have hne : e ≠ .stop := fun he => by simp [he, StopEvent.Allowed] at hok
  refine ⟨fun k => (h.list k).step (fun clientFd he => ?_) hstep, h.bounds.step hn hw,
    fun k hk => (hw.stop_eq hne k).trans (h.flags k hk), fun k hk => hw.exited (h.joined k hk)⟩
  subst he
  exact hok

theorem step (h : StoppingInv n s) (hn : 0 < n) (hok : StopEvent.Allowed s e)
    (hstep : s.next e = some t) : StoppingInv n t := by
  cases e with
  | writer e =>
    obtain ⟨u, hu, rfl⟩ := Option.map_eq_some_iff.mp hstep
    exact h.writer hn hok hu
  | stop => exact h.stopTurn (clientWriterStopTurn_cases hstep)

end StoppingInv

theorem stoppingInv (hn : 0 < n) :
    ((stopping n).restrict StopEvent.Allowed).Invariant (StoppingInv n) where
  base := by
    rintro s rfl
    exact .init n
  step s e t hs := by
    rintro ⟨hok, hstep⟩
    exact hs.step hn hok hstep

/-! ## How long it takes -/

/-- The turns of thread `k` after its flag is set. -/
def Stopping.turnsLeft (k : Fin NUM_CLIENT_LISTS) (s : Stopping) : Nat :=
  (s.writer.thread k).turnsLeft s.writer.dataQueue 1

/-- Once its flag is set, every turn of a thread counts. -/
theorem writer_turnsLeft {u : Broadcast} {e : WriterEvent} (h : StoppingInv n s)
    (hflag : (s.writer.clm k).stop = true) (hstep : s.server.next e = some u) :
    (u.writer.thread k).turnsLeft u.writer.dataQueue 1 + (if e.isTurn k then 1 else 0) ≤
      s.turnsLeft k + if e.isQueueData then PASS_TURNS else 0 := by
  obtain ⟨⟨w, es⟩, hw, rfl⟩ := Option.map_eq_some_iff.mp hstep
  have hcases := writerStep_cases hw
  unfold Stopping.turnsLeft Stopping.writer
  cases passStep hw (h.list k).thread.length with
  | other he hthread =>
    have hpass := Nat.mul_le_mul_left PASS_TURNS
      (hcases.newTo_le (s.server.writer.thread k))
    rw [Nat.mul_add, mul_ite, Nat.mul_one, Nat.mul_zero] at hpass
    simp only [WriteThread.turnsLeft, hthread, he, Bool.false_eq_true, if_false]
    split <;> omega
  | wake hpc hid hnext =>
    rw [show (s.server.writer.clm k).stop = true from hflag, if_pos rfl] at hnext
    simp [WriteThread.turnsLeft, hpc, hnext, WriterEvent.isTurn]
  | skip hpc hnode hid hnext =>
    simp only [WriteThread.turnsLeft, hpc, hnext, WriterEvent.isTurn, decide_true, if_true]
    omega
  | read hpc hnode hid hlast hnext =>
    have hless := WriteThread.turnsLeft_read (a := 1) hpc hnext (List.mem_of_getElem? hnode) hid
      hlast.ge 1
    rw [hcases.dataQueue rfl]
    simp only [WriterEvent.isTurn, decide_true, if_true]
    exact Nat.le_add_right_of_le hless
  | send hpc hi hid hnext =>
    have hless := WriteThread.turnsLeft_send (a := 1) hpc hi hid hnext s.server.writer.dataQueue 1
    rw [hcases.dataQueue rfl]
    simp only [WriterEvent.isTurn, decide_true, if_true]
    exact Nat.le_add_right_of_le hless

theorem ranked_thread (hn : 0 < n) (k : Fin NUM_CLIENT_LISTS) :
    ((stopping n).restrict StopEvent.Allowed).Ranked
      (fun s => StoppingInv n s ∧ (s.writer.clm k).stop = true)
      (fun s => s.turnsLeft k) (·.isTurn k) (·.isQueueData) PASS_TURNS where
  step := by
    rintro s e t ⟨hs, hflag⟩ ⟨hok, hstep⟩
    refine ⟨⟨hs.step hn hok hstep, ?_⟩, ?_⟩
    · cases e with
      | writer e =>
        obtain ⟨u, hu, rfl⟩ := Option.map_eq_some_iff.mp hstep
        obtain ⟨es, hw, -⟩ := Broadcast.next_cases hu
        have hne : e ≠ .stop := fun he => by simp [he, StopEvent.Allowed] at hok
        exact (hw.stop_eq hne k).trans hflag
      | stop => cases clientWriterStopTurn_cases hstep <;> simp_all [Stopping.writer]
    · cases e with
      | writer e =>
        obtain ⟨u, hu, rfl⟩ := Option.map_eq_some_iff.mp hstep
        exact writer_turnsLeft hs hflag hu
      | stop =>
        have : t.writer.thread = s.writer.thread ∧ t.writer.dataQueue = s.writer.dataQueue := by
          cases clientWriterStopTurn_cases hstep <;> exact ⟨rfl, rfl⟩
        simp [Stopping.turnsLeft, this, StopEvent.isTurn, StopEvent.isQueueData]

theorem ranked_stop (hn : 0 < n) : ((stopping n).restrict StopEvent.Allowed).Ranked
    (StoppingInv n) (fun s => s.pc.turnsLeft) (·.isStop) (fun _ => false) 0 where
  step := by
    rintro s e t hs ⟨hok, hstep⟩
    refine ⟨hs.step hn hok hstep, ?_⟩
    cases e with
    | writer e =>
      obtain ⟨u, hu, rfl⟩ := Option.map_eq_some_iff.mp hstep
      simp [StopEvent.isStop]
    | stop =>
      cases clientWriterStopTurn_cases hstep with
      | setFlag hpc hi =>
        simp [StopEvent.isStop, hpc, StopPc.turnsLeft]
        omega
      | flagsSet hpc hi =>
        simp only [StopEvent.isStop, hpc, StopPc.turnsLeft, if_true]
        omega
      | join hpc hi hexit =>
        simp [StopEvent.isStop, hpc, StopPc.turnsLeft]
        omega
      | joined hpc hi => simp [StopEvent.isStop, hpc, StopPc.turnsLeft]

/-- The turns of `client_writer_stop` set the flags one after another. -/
theorem flag_of_turns (hn : 0 < n) (hs : StoppingInv n s) (hpc : s.pc = .setFlag 0)
    (r : ((stopping n).restrict StopEvent.Allowed).Run s es t)
    (hk : k.val < es.countP (·.isStop)) : (t.writer.clm k).stop = true := by
  obtain ⟨ht, hcount⟩ := (ranked_stop hn).run hs r
  refine ht.flags k ?_
  cases htpc : t.pc with
  | setFlag i =>
    simp only [hpc, htpc, StopPc.turnsLeft] at hcount
    have := k.isLt
    exact show k.val < i by omega
  | _ => trivial

/-- As long as the call has not returned, it or a thread that is told to stop can take a turn. -/
theorem StoppingInv.proceeds (h : StoppingInv n s) (hn : 0 < n) (hpc : s.pc ≠ .returned) :
    (∃ t, s.next .stop = some t) ∨ ∃ k, (s.writer.clm k).stop = true ∧
      ∀ bytes, ∃ t, s.next (.writer (.turn k bytes)) = some t := by
  cases hs : s.pc with
  | setFlag i =>
    left
    simp only [Stopping.next, clientWriterStopTurn, hs]
    split_ifs <;> exact ⟨_, rfl⟩
  | join i =>
    by_cases hi : i < NUM_CLIENT_LISTS
    · by_cases hexit : (s.writer.thread ⟨i, hi⟩).pc = .exited
      · left
        refine ⟨{ s with pc := .join (i + 1) }, ?_⟩
        simp only [Stopping.next, clientWriterStopTurn, hs, dif_pos hi, if_pos hexit]
      · refine .inr ⟨⟨i, hi⟩, h.flags _ (by rw [hs]; trivial), fun bytes => ?_⟩
        have hturn := (h.list ⟨i, hi⟩).turn_isSome ?_ hexit bytes
        · obtain ⟨r, hr⟩ := Option.isSome_iff_exists.mp hturn
          exact ⟨_, by rw [Stopping.next, Broadcast.next, hr]; rfl⟩
        · by_cases hread : (s.writer.thread ⟨i, hi⟩).pc = .read
          · exact .inl ((h.bounds.wrap_read_lt hn hread).trans_eq h.bounds.length.symm)
          · exact .inr hread
    · left
      refine ⟨{ s with pc := .returned }, ?_⟩
      simp only [Stopping.next, clientWriterStopTurn, hs, dif_neg hi]
  | returned => exact absurd hs hpc

/-- Thread `k` has exited between two passes: its clients were sent all that it read. -/
structure Finished (k : Fin NUM_CLIENT_LISTS) (s : Broadcast) : Prop where
  exited : (s.writer.thread k).pc = .exited
  sent : ∀ before i clientFd after, s.log = before ++ .added k i clientFd :: after →
    (∀ x ∈ sends k i s.log, x.ok = true) → ∃ first ≤ (reads k before).length,
      (reads k before).length ≤ first + 1 ∧
        (sends k i s.log).map (·.message) = (reads k s.log).drop first

theorem ListInv.finished {s : Broadcast} (h : ListInv k s)
    (hpc : (s.writer.thread k).pc = .exited) : Finished k s where
  exited := hpc
  sent before i clientFd after hsplit hok := by
    obtain ⟨-, -, -, first, hle, hge, hserved⟩ := h.served before i clientFd after hsplit
    refine ⟨first, hle, hge, ?_⟩
    obtain hl | hl := hserved.state
    · rw [hl.messages, passedBy_eq_reads (by simp [ClientWriter.view, hpc])]
    · obtain ⟨l, x, hsends, -, hx⟩ := hl.last
      have := hok x (by simp [hsends])
      simp [hx] at this

/-- From its call on, `client_writer_stop` takes a bounded number of turns. A thread takes, from the
turn on that sets its flag, a number that is bounded by the size of the queue, and one more pass for
each message that is queued meanwhile. One more turn is possible until the call returns, and then
all threads have exited with their last pass complete. -/
theorem client_writer_stop_returns (hn : 1 ≤ n)
    (h : ((stopping n).restrict StopEvent.Allowed).Reachable s) (hpc : s.pc = .setFlag 0)
    (r : ((stopping n).restrict StopEvent.Allowed).Run s es t) :
    es.countP (·.isStop) ≤ 2 * (NUM_CLIENT_LISTS + 1) ∧
    (∀ (k : Fin NUM_CLIENT_LISTS) before after, es = before ++ after →
      k.val < before.countP (·.isStop) → after.countP (·.isTurn k) ≤
        2 + PASS_TURNS * (n + 1) + PASS_TURNS * after.countP (·.isQueueData)) ∧
    (t.pc ≠ .returned → (∃ u, t.next .stop = some u) ∨ ∃ k, (t.writer.clm k).stop = true ∧
      ∀ bytes, ∃ u, t.next (.writer (.turn k bytes)) = some u) ∧
    (t.pc = .returned → ∀ k, Finished k t.server) := by
  have hs := (stoppingInv hn).of_reachable h
  have ht : StoppingInv n t := r.induct (stoppingInv hn).step hs
  refine ⟨?_, ?_, ht.proceeds hn, fun hret k => (ht.list k).finished ?_⟩
  · have hcount := ((ranked_stop hn).run hs r).2
    simp only [hpc, StopPc.turnsLeft] at hcount
    omega
  · rintro k before after rfl hk
    obtain ⟨u, hbefore, hafter⟩ := r.split
    have hu := hbefore.induct (stoppingInv hn).step hs
    have hflag := flag_of_turns hn hs hpc hbefore hk
    have hcount := ((ranked_thread hn k).run ⟨hu, hflag⟩ hafter).2
    have hle : u.turnsLeft k ≤ 2 + PASS_TURNS * (u.writer.dataQueue.length + 1) :=
      WriteThread.turnsLeft_le (by omega)
    rw [hu.bounds.length] at hle
    omega
  · exact ht.joined k (by rw [hret]; trivial)

/-- A run of the allowed events. -/
def stoppingRun (s : Stopping) (es : List StopEvent) : Option Stopping :=
  es.foldlM Stopping.next s

theorem run_of_stoppingRun (hok : ∀ e ∈ es, StopEvent.Allowed s e) (h : stoppingRun s es = some t) :
    ((stopping n).restrict StopEvent.Allowed).Run s es t :=
  .of_foldlM (fun e he _ _ hv => ⟨hok e he, hv⟩) h

/-- The first thread is in a pass when the stop is asked for. -/
theorem client_writer_stop_returns_in_pass : ∃ s es t,
    ((stopping 1).restrict StopEvent.Allowed).Reachable s ∧ s.pc = .setFlag 0 ∧
      ((stopping 1).restrict StopEvent.Allowed).Run s es t ∧ t.pc = .returned ∧
        (∀ k, Finished k t.server) ∧ (sends 0 0 t.server.log).length = 1 := by
  let before : List StopEvent := [.writer (.addClient 5), .writer (.queueData 1 (.ofBuffer ['a'])),
    .writer (.turn 0 0), .writer (.turn 0 0)]
  let after : List StopEvent := [.stop, .stop, .stop, .stop, .writer (.turn 0 1),
    .writer (.turn 0 0), .writer (.turn 0 0), .writer (.turn 2 0), .writer (.turn 0 0), .stop,
    .writer (.turn 1 0), .stop, .stop, .stop]
  have hlog : (stoppingRun ⟨⟨clientWriterInit 1, []⟩, .setFlag 0⟩ before).bind (fun s =>
      (stoppingRun s after).map fun t => (s.pc, t.pc, (sends 0 0 t.server.log).length)) =
        some (StopPc.setFlag 0, StopPc.returned, 1) := by
    decide +kernel
  obtain ⟨s, hbefore, hlog⟩ := Option.bind_eq_some_iff.mp hlog
  obtain ⟨t, hafter, hlog⟩ := Option.map_eq_some_iff.mp hlog
  simp only [Prod.mk.injEq] at hlog
  obtain ⟨hs, ht, hsends⟩ := hlog
  have hreach : ((stopping 1).restrict StopEvent.Allowed).Reachable s :=
    ⟨_, before, rfl, run_of_stoppingRun (by simp [before, StopEvent.Allowed]) hbefore⟩
  have hrun : ((stopping 1).restrict StopEvent.Allowed).Run s after t :=
    run_of_stoppingRun (by simp [after, StopEvent.Allowed]) hafter
  obtain ⟨-, -, -, hfinished⟩ := client_writer_stop_returns le_rfl hreach hs hrun
  exact ⟨s, after, t, hreach, hs, hrun, ht, hfinished ht, hsends⟩

end TradeServer
