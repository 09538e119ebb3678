import TradeServer.Sse.WriteThread

/-!
# Delivery of queued messages

The queue is a ring that the producers overwrite, and each write thread is a reader of
it. A thread reads a subsequence of the queued messages; it reads all of them as long as
it is never behind by more than the size of the queue.
-/

namespace TradeServer

open Library

variable {k : Fin NUM_CLIENT_LISTS} {n next : Nat} {s t : Broadcast} {e : WriterEvent}

/-- The promises of the callers: increasing ids, messages that fit, positive descriptors. -/
def Promised (s : Broadcast) : WriterEvent → Prop
  | .queueData now data => 0 < s.writer.nextId now ∧
      (∀ m ∈ queued s.log, m.id < s.writer.nextId now) ∧ data.length < MAX_DATA_SEND_LEN
  | .addClient clientFd => 0 < clientFd
  | _ => True

instance (s : Broadcast) (e : WriterEvent) : Decidable (Promised s e) :=
  match e with
  | .queueData _ _ => inferInstanceAs (Decidable (_ ∧ _ ∧ _))
  | .addClient _ => inferInstanceAs (Decidable (_ < _))
  | .turn _ _ => .isTrue trivial
  | .stop => .isTrue trivial

/-- At each read of thread `k`, at most `n` queued messages are unread. -/
def NeverBehind (n : Nat) (k : Fin NUM_CLIENT_LISTS) (log : List Effect) : Prop :=
  ∀ before m after, log = before ++ .read k m :: after →
    (queued before).length ≤ (reads k before).length + n

structure Delivers (n : Nat) (k : Fin NUM_CLIENT_LISTS) (s : Broadcast) : Prop where
  sublist : (reads k s.log).Sublist (queued s.log)
  nodup : (reads k s.log).Nodup
  nothing_lost : NeverBehind n k s.log → reads k s.log <+: queued s.log
  /-- A slot is sent what the thread reads from the time it is added, up to a failed send. -/
  contiguous : ∀ before i clientFd after, s.log = before ++ .added k i clientFd :: after →
    sends k i before = [] ∧ (∀ x ∈ sends k i s.log, x.clientFd = clientFd) ∧
      ∃ first ≤ (reads k before).length, (reads k before).length ≤ first + 1 ∧
        (sends k i s.log).map (·.message) <+: (reads k s.log).drop first ∧
        ((∀ x ∈ sends k i s.log, x.ok = true) →
          (sends k i s.log).map (·.message) =
            (passedBy k i (s.writer.view k) s.log).drop first)
  stops : ∀ before x after, s.log = before ++ .sent x :: after → x.clm = k → x.ok = false →
    sends k x.slot after = []

theorem copyData_eq {data : CString} (h : data.length < MAX_DATA_SEND_LEN) :
    copyData data = data := by
  have htake : data.chars.take (MAX_DATA_SEND_LEN - 1) = data.chars :=
    List.take_of_length_le (Nat.le_sub_one_of_lt h)
  ext1
  rw [copyData, htake, CString.chars_ofBuffer data.bytes]

/-- The queue is a ring of the queued messages. -/
structure QueueInv (n : Nat) (s : Broadcast) : Prop where
  size : s.writer.dataQueueSize = n
  length : s.writer.dataQueue.length = n
  idx_le : s.writer.lastDataWriteIdx ≤ n
  idx : s.writer.lastDataWriteIdx % n = (queued s.log).length % n
  ring : RingBuffer emptyNode (queued s.log) s.writer.dataQueue
  sorted : (queued s.log).Pairwise (·.id < ·.id)
  fits : ∀ m ∈ s.writer.dataQueue, copyData m.data = m.data

theorem QueueInv.init (n : Nat) : QueueInv n ⟨clientWriterInit n, []⟩ where
  size := rfl
  length := List.length_replicate
  idx_le := Nat.zero_le _
  idx := rfl
  ring := .empty n emptyNode
  sorted := .nil
  fits m hm := by
    obtain rfl := List.eq_of_mem_replicate hm
    decide

theorem QueueInv.congr (h : QueueInv n s) (hsize : t.writer.dataQueueSize = s.writer.dataQueueSize)
    (hqueue : t.writer.dataQueue = s.writer.dataQueue)
    (hidx : t.writer.lastDataWriteIdx = s.writer.lastDataWriteIdx)
    (hqueued : queued t.log = queued s.log) : QueueInv n t :=
  ⟨hsize.trans h.size, hqueue ▸ h.length, hidx ▸ h.idx_le, by rw [hidx, hqueued, h.idx],
    by rw [hqueued, hqueue]; exact h.ring, hqueued ▸ h.sorted, hqueue ▸ h.fits⟩

theorem QueueInv.step (h : QueueInv n s) (hn : 0 < n) (hok : Promised s e)
    (hstep : s.next e = some t) : QueueInv n t := by
  obtain ⟨es, hw, hlog⟩ := Broadcast.next_cases hstep
  obtain ⟨w, log⟩ := t
  obtain rfl : log = s.log ++ es := hlog
  cases hw with
  | @queueData now data hidx =>
    obtain ⟨hpos, hlast, hfit⟩ := hok
    have hwrap : wrap s.writer.dataQueueSize s.writer.lastDataWriteIdx =
        (queued s.log).length % n := by
      rw [h.size, wrap_eq_mod h.idx_le, h.idx]
    have hqueued : queued (s.log ++ [.queued ⟨s.writer.nextId now, data⟩]) =
        queued s.log ++ [⟨s.writer.nextId now, data⟩] := queued_append _ _
    refine ⟨h.size, by simpa using h.length, ?_, ?_, ?_, ?_, fun m hm => ?_⟩
    · rw [hwrap]
      exact Nat.mod_lt _ hn
    · rw [hwrap, hqueued, List.length_append]
      exact Nat.mod_add_mod _ _ _
    · rw [hqueued, copyData_eq hfit, hwrap]
      have := h.ring.push (x := ⟨s.writer.nextId now, data⟩) (h.length ▸ hn)
      rwa [h.length] at this
    · rw [hqueued]
      refine List.pairwise_append.mpr ⟨h.sorted, List.pairwise_singleton _ _, ?_⟩
      simpa using hlast
    · obtain hm | rfl := List.mem_or_eq_of_mem_set hm
      · exact h.fits m hm
      · simp [copyData_eq hfit]
  | _ => exact h.congr rfl rfl rfl (by simp [queued])

theorem NeverBehind.of_append {log es : List Effect} (h : NeverBehind n k (log ++ es)) :
    NeverBehind n k log :=
  fun before m after hsplit => h before m (after ++ es) (by simp [hsplit])

/-- The slot that thread `k` reads next, before it wraps. -/
def ClientWriter.nextIdx (w : ClientWriter) (k : Fin NUM_CLIENT_LISTS) : Nat :=
  match (w.thread k).pc with
  | .send _ => (w.clm k).lastDataReadIdx + 1
  | _ => (w.clm k).lastDataReadIdx

theorem ClientWriter.nextIdx_congr {v w : ClientWriter} (hthread : w.thread k = v.thread k)
    (hidx : (w.clm k).lastDataReadIdx = (v.clm k).lastDataReadIdx) :
    w.nextIdx k = v.nextIdx k := by
  simp only [nextIdx, hthread, hidx]

/-- Thread `k` reads the ring of the queue; it has passed `next` messages. -/
structure ReaderInv (n next : Nat) (k : Fin NUM_CLIENT_LISTS) (s : Broadcast) : Prop where
  follows : Follows (·.id) (queued s.log) (reads k s.log) (s.writer.thread k).lastDataId next
  idx_le : s.writer.nextIdx k ≤ n
  idx : s.writer.nextIdx k % n = next % n
  exact : NeverBehind n k s.log →
    next = (reads k s.log).length ∧ reads k s.log = (queued s.log).take next

namespace ReaderInv

theorem init (n : Nat) (k : Fin NUM_CLIENT_LISTS) : ReaderInv n 0 k ⟨clientWriterInit n, []⟩ where
  follows := .start _
  idx_le := Nat.zero_le _
  idx := rfl
  exact _ := ⟨rfl, rfl⟩

/-- A step that leaves the queue and what the thread read. -/
theorem congr {w : ClientWriter} {es : List Effect} (h : ReaderInv n next k s)
    (hqueued : queued es = []) (hreads : reads k es = [])
    (hid : (w.thread k).lastDataId = (s.writer.thread k).lastDataId)
    (hle : w.nextIdx k ≤ n) (hidx : w.nextIdx k % n = s.writer.nextIdx k % n) :
    ReaderInv n next k ⟨w, s.log ++ es⟩ := by
  have hqueued' : queued (s.log ++ es) = queued s.log := by simp [hqueued]
  have hreads' : reads k (s.log ++ es) = reads k s.log := by simp [hreads]
  refine ⟨?_, hle, hidx.trans h.idx, fun hbehind => ?_⟩
  · rw [hqueued', hreads', hid]
    exact h.follows
  · rw [hqueued', hreads']
    exact h.exact hbehind.of_append

/-- A step that leaves the slot that is next. -/
theorem keep {w : ClientWriter} {es : List Effect} (h : ReaderInv n next k s)
    (hqueued : queued es = []) (hreads : reads k es = [])
    (hid : (w.thread k).lastDataId = (s.writer.thread k).lastDataId)
    (hnext : w.nextIdx k = s.writer.nextIdx k) : ReaderInv n next k ⟨w, s.log ++ es⟩ :=
  h.congr hqueued hreads hid (hnext ▸ h.idx_le) (by rw [hnext])

/-- A step of another thread or list. -/
theorem other {w : ClientWriter} {es : List Effect} (h : ReaderInv n next k s)
    (hqueued : queued es = []) (hreads : reads k es = [])
    (hthread : w.thread k = s.writer.thread k)
    (hidx : (w.clm k).lastDataReadIdx = (s.writer.clm k).lastDataReadIdx) :
    ReaderInv n next k ⟨w, s.log ++ es⟩ :=
  h.keep hqueued hreads (by rw [hthread]) (ClientWriter.nextIdx_congr hthread hidx)

theorem queueData (h : ReaderInv n next k s) {w : ClientWriter} {m : ClientDataNode}
    (hclm : w.clm = s.writer.clm) (hthread : w.thread = s.writer.thread) :
    ReaderInv n next k ⟨w, s.log ++ [.queued m]⟩ := by
  have hqueued : queued (s.log ++ [.queued m]) = queued s.log ++ [m] := queued_append _ _
  have hreads : reads k (s.log ++ [.queued m]) = reads k s.log := by simp [reads]
  have hnext : w.nextIdx k = s.writer.nextIdx k :=
    ClientWriter.nextIdx_congr (by rw [hthread]) (by rw [hclm])
  refine ⟨?_, hnext ▸ h.idx_le, hnext ▸ h.idx, fun hbehind => ?_⟩
  · rw [hqueued, hreads, hthread]
    exact h.follows.push
  · obtain ⟨hlen, htake⟩ := h.exact hbehind.of_append
    rw [hqueued, hreads, List.take_append_of_le_length h.follows.le]
    exact ⟨hlen, htake⟩

/-- A read takes the next message, or a later one when the thread is too far behind. -/
theorem read (h : ReaderInv n next k s) (hn : 0 < n) (hq : QueueInv n s) {w : ClientWriter}
    {node : ClientDataNode} (hpc : (s.writer.thread k).pc = .read)
    (hnode : s.writer.dataQueue[wrap s.writer.dataQueueSize
      (s.writer.clm k).lastDataReadIdx]? = some node)
    (hid : (s.writer.thread k).lastDataId < node.id)
    (hlast : (w.thread k).lastDataId = node.id)
    (hidx : w.nextIdx k = wrap s.writer.dataQueueSize (s.writer.clm k).lastDataReadIdx + 1) :
    ∃ next', ReaderInv n next' k ⟨w, s.log ++ [.read k ⟨node.id, copyData node.data⟩]⟩ := by
  have hcopy : (⟨node.id, copyData node.data⟩ : ClientDataNode) = node := by
    rw [hq.fits node (List.mem_of_getElem? hnode)]
  have hcur : s.writer.nextIdx k = (s.writer.clm k).lastDataReadIdx := by
    simp only [ClientWriter.nextIdx, hpc]
  have hwrap : wrap s.writer.dataQueueSize (s.writer.clm k).lastDataReadIdx = next % n := by
    rw [hq.size, wrap_eq_mod (hcur ▸ h.idx_le), ← hcur, h.idx]
  rw [hwrap] at hnode hidx
  obtain ⟨m, hge, hmod, hm, hfollows⟩ := h.follows.take hq.ring (hq.length ▸ hn) hq.sorted rfl
    (by rw [hq.length, hnode]) hid
  rw [hq.length] at hmod
  have hqueued : queued (s.log ++ [.read k node]) = queued s.log := by simp [queued]
  have hreads : reads k (s.log ++ [.read k node]) = reads k s.log ++ [node] := by simp
  refine ⟨m + 1, ?_⟩
  rw [hcopy]
  refine ⟨?_, ?_, ?_, fun hbehind => ?_⟩
  · rw [hqueued, hreads, hlast]
    exact hfollows
  · rw [hidx]
    exact Nat.mod_lt _ hn
  · rw [hidx, ← hmod]
    exact Nat.mod_add_mod _ _ _
  · obtain ⟨hlen, htake⟩ := h.exact hbehind.of_append
    have hunread := hbehind s.log node [] rfl
    obtain rfl := eq_of_mod_eq hge (by have := (List.getElem?_eq_some_iff.mp hm).1; omega) hmod
    rw [hqueued, hreads, List.take_add_one, hm, ← htake]
    exact ⟨by simp [hlen], rfl⟩

open ClientWriter in
theorem step (h : ReaderInv n next k s) (hn : 0 < n) (hq : QueueInv n s)
    (hstep : s.next e = some t) : ∃ next', ReaderInv n next' k t := by
  obtain ⟨es, hw, hlog⟩ := Broadcast.next_cases hstep
  obtain ⟨w, log⟩ := t
  obtain rfl : log = s.log ++ es := hlog
  cases hw with
  | @queueData now data hidx => exact ⟨next, h.queueData rfl rfl⟩
  | full => exact ⟨next, h.other rfl rfl rfl rfl⟩
  | stop => exact ⟨next, h.other rfl rfl rfl rfl⟩
  | @addClient _ _ j _ hroom hidx =>
    refine ⟨next, h.other rfl rfl rfl ?_⟩
    obtain rfl | hj := eq_or_ne k j
    · simp
    · simp [hj]
  | @wake j _ pc hpc hnext =>
    obtain rfl | hj := eq_or_ne k j
    · exact ⟨next, h.keep rfl rfl (by simp)
        (by obtain rfl | rfl := hnext <;> simp [nextIdx, hpc])⟩
    · exact ⟨next, h.other rfl rfl (by simp [hj]) (by simp)⟩
  | @skip j _ node hpc hnode hid =>
    obtain rfl | hj := eq_or_ne k j
    · have hle := h.idx_le
      simp only [nextIdx, hpc] at hle
      have hwrap := wrap_eq_mod hle
      rw [hq.size, hwrap]
      refine ⟨next, h.congr rfl rfl (by simp) ?_ ?_⟩
      · simpa [nextIdx] using (Nat.mod_lt _ hn).le
      · simp [nextIdx, hpc]
    · exact ⟨next, h.other rfl rfl (by simp [hj]) (by simp [hj])⟩
  | @read j _ node hpc hnode hid =>
    obtain rfl | hj := eq_or_ne k j
    · exact h.read hn hq hpc hnode hid (by simp) (by simp [nextIdx])
    · exact ⟨next, h.other rfl (by simp [reads, hj.symm]) (by simp [hj]) (by simp [hj])⟩
  | @passed j _ i hpc hfd =>
    obtain rfl | hj := eq_or_ne k j
    · exact ⟨next, h.keep rfl rfl (by simp) (by simp [nextIdx, hpc])⟩
    · exact ⟨next, h.other rfl rfl (by simp [hj]) (by simp [hj])⟩
  | @lost j _ i hpc hfd =>
    obtain rfl | hj := eq_or_ne k j
    · exact ⟨next, h.keep rfl rfl (by simp) (by simp [nextIdx, hpc])⟩
    · exact ⟨next, h.other rfl rfl (by simp [hj]) (by simp)⟩
  | @fail j _ _ i hpc hfd hend hlost hbytes =>
    obtain rfl | hj := eq_or_ne k j
    · exact ⟨next, h.keep rfl rfl (by simp) (by simp [nextIdx, hpc])⟩
    · exact ⟨next, h.other rfl rfl (by simp [hj]) (by simp [hj])⟩
  | @sent j _ _ i hpc hfd hend hlost hbytes =>
    obtain rfl | hj := eq_or_ne k j
    · exact ⟨next, h.keep rfl rfl (by simp) (by simp [nextIdx, hpc])⟩
    · exact ⟨next, h.other rfl rfl (by simp [hj]) (by simp)⟩

end ReaderInv

/-- The ring with all its readers and lists. -/
structure BroadcastInv (n : Nat) (s : Broadcast) : Prop where
  queue : QueueInv n s
  reader : ∀ k, ∃ next, ReaderInv n next k s
  list : ∀ k, ListInv k s
  round : s.writer.roundRobinIdx ≤ NUM_CLIENT_LISTS

theorem broadcastInv (hn : 0 < n) :
    ((broadcast n).restrict Promised).Invariant (BroadcastInv n) where
  base := by
    rintro s rfl
    exact ⟨.init n, fun k => ⟨0, .init n k⟩, fun k => .init k n, Nat.zero_le _⟩
  step s e t hs := by
    rintro ⟨hok, hstep⟩
    refine ⟨hs.queue.step hn hok hstep, fun k => ?_, fun k => ?_, ?_⟩
    · obtain ⟨next, hnext⟩ := hs.reader k
      exact hnext.step hn hs.queue hstep
    · refine (hs.list k).step (fun clientFd he => ?_) hstep
      subst he
      exact hok
    · obtain ⟨w, log⟩ := t
      obtain ⟨es, hw, -⟩ := Broadcast.next_cases hstep
      cases hw with
      | full hround => exact hround
      | addClient hround => exact hround
      | _ => exact hs.round

theorem ListInv.stops (h : ListInv k s) {before after : List Effect} {x : Send}
    (hsplit : s.log = before ++ .sent x :: after) (hk : x.clm = k) (hok : x.ok = false) :
    sends k x.slot after = [] := by
  have hsends : sends k x.slot s.log = sends k x.slot before ++ x :: sends k x.slot after := by
    rw [hsplit, sends_append, List.append_cancel_left_eq]
    simp [sends, hk]
  have hi : x.slot < (s.writer.view k).lastClientInsertIdx := by
    by_contra hge
    simp [h.thread.unsent x.slot (not_lt.mp hge)] at hsends
  obtain ⟨clientFd, first, hserved⟩ := h.served_of_lt hi
  obtain hl | hl := hserved.state
  · have := hl.ok x (by simp [hsends])
    simp [hok] at this
  · obtain ⟨l, y, hl, hall, -⟩ := hl.last
    obtain ⟨after', rfl⟩ | ⟨before', -, hy⟩ := split_append (hl.symm.trans hsends)
    · have := hall x (by simp)
      simp [hok] at this
    · obtain ⟨-, -, hafter⟩ := by simpa [List.append_eq_singleton_iff] using hy.symm
      exact hafter

/-- A thread reads queued messages in order and never twice, it misses none while it is not behind
by more than the queue holds, and its slots are sent what it reads until a send fails. -/
theorem broadcast_delivers (hn : 1 ≤ n) (h : ((broadcast n).restrict Promised).Reachable s)
    (k : Fin NUM_CLIENT_LISTS) : Delivers n k s := by
  have hs := (broadcastInv hn).of_reachable h
  obtain ⟨next, hreader⟩ := hs.reader k
  have hlist := hs.list k
  refine ⟨hreader.follows.sublist.trans (List.take_sublist _ _), ?_, fun hbehind => ?_, ?_,
    fun before x after => hlist.stops⟩
  · exact hlist.thread.sorted.imp fun hlt heq => by simp [heq] at hlt
  · rw [(hreader.exact hbehind).2]
    exact List.take_prefix _ _
  · intro before i clientFd after hsplit
    obtain ⟨-, -, hbefore, first, hle, hge, hserved⟩ := hlist.served before i clientFd after hsplit
    refine ⟨hbefore, hserved.fds, first, hle, hge, hserved.messages_prefix, fun hok => ?_⟩
    obtain hl | hl := hserved.state
    · exact hl.messages
    · obtain ⟨l, x, hsends, -, hx⟩ := hl.last
      have := hok x (by simp [hsends])
      simp [hx] at this

/-- A run that keeps the promises. -/
def broadcastRun (n : Nat) (es : List WriterEvent) : Option Broadcast :=
  es.foldlM (fun s e => if Promised s e then s.next e else none) ⟨clientWriterInit n, []⟩

theorem reachable_of_broadcastRun {es : List WriterEvent} (h : broadcastRun n es = some s) :
    ((broadcast n).restrict Promised).Reachable s := by
  refine ⟨_, es, rfl, .of_foldlM (fun e _ u v hv => ?_) h⟩
  split_ifs at hv with hok
  exact ⟨hok, hv⟩

/-- In a queue of one slot the second message is overwritten; the send of the third one fails. -/
theorem broadcast_delivers_in_one_slot : ∃ s, ((broadcast 1).restrict Promised).Reachable s ∧
    Delivers 1 0 s ∧ (queued s.log).map (·.id) = [10000000, 20000001, 30000002] ∧
      (sends 0 0 s.log).map (fun x => (x.message.id, x.ok)) =
        [(10000000, true), (30000002, false)] := by
  have hlog : (broadcastRun 1 [.addClient 5, .queueData 1 (.ofBuffer ['a']), .turn 0 0, .turn 0 0,
      .queueData 2 (.ofBuffer ['b']), .queueData 3 (.ofBuffer ['c']), .turn 0 1, .turn 0 0,
      .turn 0 0, .turn 0 0, .turn 0 0, .turn 0 0]).map (fun s => ((queued s.log).map (·.id),
        (sends 0 0 s.log).map fun x => (x.message.id, x.ok))) =
      some ([10000000, 20000001, 30000002], [(10000000, true), (30000002, false)]) := by
    decide +kernel
  obtain ⟨s, hrun, hs⟩ := Option.map_eq_some_iff.mp hlog
  have hreach := reachable_of_broadcastRun hrun
  exact ⟨s, hreach, broadcast_delivers le_rfl hreach 0, (Prod.mk.inj hs).1, (Prod.mk.inj hs).2⟩

/-- The client writer never leaves an array: every step but that of a stopped thread is defined. -/
theorem broadcast_proceeds (hn : 1 ≤ n) (h : ((broadcast n).restrict Promised).Reachable s)
    (e : WriterEvent) (he : ∀ k bytes, e = .turn k bytes → (s.writer.thread k).pc ≠ .exited) :
    ∃ t, s.next e = some t := by
  have hs := (broadcastInv hn).of_reachable h
  suffices hstep : (writerStep s.writer e).isSome by
    obtain ⟨r, hr⟩ := Option.isSome_iff_exists.mp hstep
    exact ⟨_, by rw [Broadcast.next, hr, Option.map_some]⟩
  cases e with
  | queueData now data =>
    have hidx : wrap s.writer.dataQueueSize s.writer.lastDataWriteIdx <
        s.writer.dataQueue.length := by
      rw [hs.queue.size, hs.queue.length]
      exact wrap_lt hn hs.queue.idx_le
    simp [writerStep, clientWriterQueueData, hidx]
  | addClient clientFd =>
    have hround : wrap NUM_CLIENT_LISTS s.writer.roundRobinIdx < NUM_CLIENT_LISTS :=
      wrap_lt (by decide) hs.round
    have hthread := (hs.list ⟨_, hround⟩).thread
    have hlen := hthread.length
    have hidx := hthread.idx_le
    simp only [ClientWriter.view] at hlen hidx
    simp only [writerStep, clientWriterAddClient, clientWriterSelectManager, dif_pos hround,
      Option.bind_some]
    split_ifs
    · rfl
    · rfl
    · omega
  | turn k bytes =>
    refine (hs.list k).turn_isSome ?_ (he k bytes rfl) bytes
    by_cases hpc : (s.writer.thread k).pc = .read
    · obtain ⟨next, hreader⟩ := hs.reader k
      have hle := hreader.idx_le
      simp only [ClientWriter.nextIdx, hpc] at hle
      rw [hs.queue.size, hs.queue.length]
      exact .inl (wrap_lt hn hle)
    · exact .inr hpc
  | stop => rfl

end TradeServer
