import TradeServer.Sse.Delivery
import TradeServer.Sse.Passes

/-!
# Messages arrive

A thread goes to sleep only after it has passed every message of the queue, so after a
bounded number of its turns it has sent what was queued before, however many clients it has
and whatever is queued meanwhile.
-/

namespace TradeServer

open Library

variable {k : Fin NUM_CLIENT_LISTS} {n : Nat} {s t : Broadcast} {e : WriterEvent}
  {es : List WriterEvent} {ms : List ClientDataNode}

/-- The ids of the queue are positive, the thread has read the message of its last id, and it
exits only when it is told to. -/
structure AwakeInv (k : Fin NUM_CLIENT_LISTS) (s : Broadcast) : Prop where
  positive : ∀ m ∈ queued s.log, 0 < m.id
  last : (s.writer.thread k).lastDataId = 0 ∨
    ∃ m ∈ reads k s.log, m.id = (s.writer.thread k).lastDataId
  exited : (s.writer.thread k).pc = .exited → (s.writer.clm k).stop = true

theorem ThreadStep.last {v v' : ThreadView} {es log : List Effect} (h : ThreadStep k v e v' es)
    (hlast : v.thread.lastDataId = 0 ∨ ∃ m ∈ reads k log, m.id = v.thread.lastDataId) :
    v.thread.lastDataId ≤ v'.thread.lastDataId ∧ (v'.thread.lastDataId = 0 ∨
      ∃ m ∈ reads k (log ++ es), m.id = v'.thread.lastDataId) := by
  have hkeep : v.thread.lastDataId = 0 ∨
      ∃ m ∈ reads k (log ++ es), m.id = v.thread.lastDataId := by
    apply hlast.imp_right
    rintro ⟨m, hm, hid⟩
    exact ⟨m, by simp [hm], hid⟩
  cases h with
  | @read _ node hpc hid => exact ⟨hid.le, .inr ⟨node, by simp, rfl⟩⟩
  | _ => exact ⟨le_rfl, hkeep⟩

namespace AwakeInv

theorem init (n : Nat) (k : Fin NUM_CLIENT_LISTS) : AwakeInv k ⟨clientWriterInit n, []⟩ where
  positive m hm := by simp [queued] at hm
  last := .inl rfl
  exited h := by simp [clientWriterInit] at h

theorem step (h : AwakeInv k s) (hlist : ListInv k s) (hok : Promised s e)
    (hstep : s.next e = some t) : AwakeInv k t := by
  obtain ⟨⟨w, es⟩, hw, rfl⟩ := Option.map_eq_some_iff.mp hstep
  have hcases := writerStep_cases hw
  refine ⟨?_, ((hcases.view k).last h.last).2, fun hexit => ?_⟩
  · intro m hm
    rw [queued_append, List.mem_append] at hm
    obtain hm | hm := hm
    · exact h.positive m hm
    · cases hcases with
      | queueData =>
        obtain rfl : m = _ := by simpa [queued] using hm
        exact hok.1
      | _ => simp [queued] at hm
  · replace hexit : (w.thread k).pc = .exited := hexit
    by_cases he : e = .stop
    · subst he
      obtain ⟨rfl, -⟩ := Prod.mk.inj (Option.some.inj hw)
      rfl
    · rw [hcases.stop_eq he k]
      cases passStep hw hlist.thread.length with
      | other _ hthread => exact h.exited (by rw [← hthread]; exact hexit)
      | wake _ _ hnext =>
        rw [hexit] at hnext
        by_contra hflag
        simp [if_neg hflag] at hnext
      | skip _ _ _ hnext => simp [hexit] at hnext
      | read _ _ _ _ hnext => simp [hexit] at hnext
      | send _ _ _ hnext => simp [hexit] at hnext

end AwakeInv

/-! ## Where a thread is -/

/-- Thread `k` is past the messages, and its pass over the last of them is done. -/
def PastAll (k : Fin NUM_CLIENT_LISTS) (ms : List ClientDataNode) (s : Broadcast) : Prop :=
  ∀ m ∈ ms, m.id ≤ (s.writer.thread k).lastDataId ∧
    (∀ i, (s.writer.thread k).pc = .send i → m.id < (s.writer.thread k).lastDataId)

/-- A thread at the queue is past all messages before its place. -/
theorem ReaderInv.pastAll_of_le {next : Nat} (h : ReaderInv n next k s)
    (hpc : (s.writer.thread k).pc = .read) (hms : ms <+: queued s.log)
    (hle : ms.length ≤ next) : PastAll k ms s := by
  intro m hm
  obtain ⟨j, hj, rfl⟩ := List.getElem_of_mem hm
  refine ⟨h.follows.passed j (by omega) _ ?_, fun i hi => by simp [hpc] at hi⟩
  rw [hms.getElem hj]
  exact List.getElem?_eq_getElem _

structure CatchUpInv (n : Nat) (k : Fin NUM_CLIENT_LISTS) (s : Broadcast) : Prop where
  broadcast : BroadcastInv n s
  awake : AwakeInv k s

theorem catchUpInv (hn : 0 < n) (k : Fin NUM_CLIENT_LISTS) :
    ((broadcast n).restrict Promised).Invariant (CatchUpInv n k) where
  base s hs := ⟨(broadcastInv hn).base s hs, hs ▸ .init n k⟩
  step s e t hs hstep := ⟨(broadcastInv hn).step s e t hs.broadcast hstep,
    hs.awake.step (hs.broadcast.list k) hstep.1 hstep.2⟩

namespace CatchUpInv

/-- What the thread has not passed has higher ids. -/
theorem ahead (h : CatchUpInv n k s) {next : Nat} (hreader : ReaderInv n next k s) {m : Nat}
    {x : ClientDataNode} (hm : next ≤ m) (hx : (queued s.log)[m]? = some x) :
    (s.writer.thread k).lastDataId < x.id := by
  obtain hzero | ⟨y, hy, hid⟩ := h.awake.last
  · rw [hzero]
    exact h.awake.positive x (List.mem_of_getElem? hx)
  · -- the last message read is at a place before `next`
    have hmem := hreader.follows.sublist.subset hy
    obtain ⟨j, hj, rfl⟩ := List.getElem_of_mem hmem
    rw [List.length_take] at hj
    obtain ⟨hlt, rfl⟩ := List.getElem?_eq_some_iff.mp hx
    rw [← hid, List.getElem_take]
    exact List.pairwise_iff_getElem.mp h.broadcast.queue.sorted j m (by omega) hlt (by omega)

/-- The slot that the thread reads is that of the first message that it has not passed. -/
theorem slot_eq (h : CatchUpInv n k s) {next : Nat} (hreader : ReaderInv n next k s)
    (hpc : (s.writer.thread k).pc = .read) :
    wrap s.writer.dataQueueSize (s.writer.clm k).lastDataReadIdx =
      next % s.writer.dataQueue.length := by
  have hcur : s.writer.nextIdx k = (s.writer.clm k).lastDataReadIdx := by
    simp only [ClientWriter.nextIdx, hpc]
  rw [h.broadcast.queue.size, h.broadcast.queue.length, wrap_eq_mod (hcur ▸ hreader.idx_le),
    ← hcur, hreader.idx]

/-- Where the slot is not new to the thread, it has passed all that is queued. -/
theorem caught_up (h : CatchUpInv n k s) (hn : 0 < n) {node : ClientDataNode}
    (hpc : (s.writer.thread k).pc = .read)
    (hnode : s.writer.dataQueue[wrap s.writer.dataQueueSize
      (s.writer.clm k).lastDataReadIdx]? = some node)
    (hid : node.id ≤ (s.writer.thread k).lastDataId) : PastAll k (queued s.log) s := by
  obtain ⟨next, hreader⟩ := h.broadcast.reader k
  have hq := h.broadcast.queue
  rw [h.slot_eq hreader hpc] at hnode
  refine hreader.pastAll_of_le hpc List.prefix_rfl (not_lt.mp fun hlt => ?_)
  -- the latest item at the slot is not before `next`, so it would be new
  obtain ⟨m, y, hm, -, hy, -, hslot⟩ := hq.ring.later (hq.length ▸ hn) hlt
  obtain rfl := Option.some.inj (hslot.symm.trans hnode)
  exact absurd hid (not_le.mpr (h.ahead hreader hm hy))

/-- What is read is not before the message that an earlier queue had at the slot, and that one is
new to the thread while it has messages of that queue before it. -/
theorem read_slot {u : Broadcast} (h : CatchUpInv n k u) (hn : 0 < n) (hs : QueueInv n s)
    (hms : queued s.log <+: queued u.log) (hbehind : ¬ PastAll k (queued s.log) u)
    {node : ClientDataNode} (hpc : (u.writer.thread k).pc = .read)
    (hnode : u.writer.dataQueue[wrap u.writer.dataQueueSize
      (u.writer.clm k).lastDataReadIdx]? = some node) :
    ∃ d ∈ s.writer.dataQueue, (u.writer.thread k).lastDataId < d.id ∧ d.id ≤ node.id := by
  obtain ⟨next, hreader⟩ := h.broadcast.reader k
  have hq := h.broadcast.queue
  have hlt : next < (queued s.log).length :=
    not_le.mp fun hle => hbehind (hreader.pastAll_of_le hpc hms hle)
  obtain ⟨m, d, hm, hmod, hd, hlast, hslot⟩ := hs.ring.later (hs.length ▸ hn) hlt
  obtain ⟨m', y, hm', hmod', hy, hlast', hslot'⟩ :=
    hq.ring.later (hq.length ▸ hn) (hlt.trans_le hms.length_le)
  rw [h.slot_eq hreader hpc, hslot'] at hnode
  obtain rfl := Option.some.inj hnode
  obtain ⟨hlt_m, rfl⟩ := List.getElem?_eq_some_iff.mp hd
  obtain ⟨hlt_m', rfl⟩ := List.getElem?_eq_some_iff.mp hy
  have hd' : (queued u.log)[m]? = some (queued s.log)[m] := by
    rw [List.getElem?_eq_getElem (hlt_m.trans_le hms.length_le), hms.getElem hlt_m]
  refine ⟨_, List.mem_of_getElem? hslot, h.ahead hreader hm hd', ?_⟩
  -- both are at the slot, and the later queue has no older message there
  have hle : m ≤ m' := by
    by_contra hgt
    rw [hs.length] at hmod
    rw [hq.length] at hmod' hlast'
    have := eq_of_mod_eq (n := n) (by omega) (by have := hms.length_le; omega)
      (hmod.trans hmod'.symm)
    omega
  obtain rfl | hne := Nat.eq_or_lt_of_le hle
  · rw [hms.getElem hlt_m]
  · rw [hms.getElem hlt_m]
    exact (List.pairwise_iff_getElem.mp hq.sorted m m' _ hlt_m' hne).le

end CatchUpInv

/-- A thread that is past the messages stays so. -/
theorem PastAll.step (h : PastAll k ms s) (hs : CatchUpInv n k s) (hstep : s.next e = some t) :
    PastAll k ms t := by
  obtain ⟨es, hw, -⟩ := Broadcast.next_cases hstep
  have hview := hw.view k
  have hle := (hview.last hs.awake.last).1
  simp only [ClientWriter.view] at hle
  intro m hm
  obtain ⟨hid, hsend⟩ := h m hm
  refine ⟨hid.trans hle, fun i hi => ?_⟩
  generalize hv : s.writer.view k = v at hview
  generalize hv' : t.writer.view k = v' at hview
  have hpc : v.thread.pc = (s.writer.thread k).pc := by rw [← hv]; rfl
  have hpc' : v'.thread.pc = .send i := by rw [← hv']; exact hi
  have hlast : v.thread.lastDataId = (s.writer.thread k).lastDataId := by rw [← hv]; rfl
  have hlast' : v'.thread.lastDataId = (t.writer.thread k).lastDataId := by rw [← hv']; rfl
  rw [← hlast']
  rw [← hlast] at hid
  cases hview with
  | read _ hnew => exact hid.trans_lt hnew
  | other => exact hlast ▸ hsend i (hpc ▸ hpc')
  | add => exact hlast ▸ hsend i (hpc ▸ hpc')
  | idle _ hnext => exact absurd hpc' (hnext i)
  | passed => simp at hpc'
  | lost hat => exact hlast ▸ hsend _ (hpc ▸ hat)
  | fail hat => exact hlast ▸ hsend _ (hpc ▸ hat)
  | sent hat => exact hlast ▸ hsend _ (hpc ▸ hat)

/-! ## How long it takes -/

/-- The turns of a thread before it has passed what is queued. -/
def Broadcast.turnsBehind (k : Fin NUM_CLIENT_LISTS) (s : Broadcast) : Nat :=
  (s.writer.thread k).turnsLeft s.writer.dataQueue
    (3 + PASS_TURNS * (s.writer.thread k).newTo s.writer.dataQueue)

theorem turnsBehind_le (h : CatchUpInv n k s) : s.turnsBehind k ≤ 2 + PASS_TURNS * (n + 1) := by
  rw [← h.broadcast.queue.length]
  exact WriteThread.turnsLeft_le
    (Nat.add_le_add_left (Nat.mul_le_mul_left _ WriteThread.newTo_le) 3)

/-- The steps of a run in which thread `k` is not told to stop. -/
def Kept (s : Broadcast) (e : WriterEvent) : Prop := Promised s e ∧ e ≠ .stop

/-- Before the thread has passed what was queued in `s`, each of its turns counts, and no step of
the others takes it back. -/
theorem ranked_behind (hn : 0 < n) (hs : QueueInv n s) :
    (((broadcast n).restrict Kept).restrict fun u _ => ¬ PastAll k (queued s.log) u).Ranked
      (fun u => CatchUpInv n k u ∧ queued s.log <+: queued u.log ∧
        (u.writer.clm k).stop = false)
      (fun u => (u.writer.thread k).turnsLeft s.writer.dataQueue
        (3 + PASS_TURNS * (u.writer.thread k).newTo s.writer.dataQueue))
      (·.isTurn k) (fun _ => false) 0 where
  step := by
    rintro u e v ⟨hu, hms, hflag⟩ ⟨hbehind, ⟨hok, hne⟩, hstep⟩
    have hv := (catchUpInv hn k).step u e v hu ⟨hok, hstep⟩
    obtain ⟨⟨w, es⟩, hw, rfl⟩ := Option.map_eq_some_iff.mp hstep
    refine ⟨⟨hv, hms.trans (by simp), ((writerStep_cases hw).stop_eq hne k).trans hflag⟩, ?_⟩
    simp only [Bool.false_eq_true, if_false, Nat.add_zero]
    cases passStep hw (hu.broadcast.list k).thread.length with
    | other he hthread => simp [hthread, he]
    | wake hpc hid hnext =>
      simp only [hflag, Bool.false_eq_true, if_false] at hnext
      simp only [WriterEvent.isTurn, decide_true, if_true]
      exact WriteThread.turnsLeft_wake hpc hnext hid _ _
    | skip hpc hnode hid hnext =>
      -- the thread would have passed all messages
      have hpast := hu.caught_up hn hpc hnode hid
      exact absurd (fun m hm => hpast m (hms.subset hm)) hbehind
    | read hpc hnode hid hlast hnext =>
      obtain ⟨d, hd, hnew, hle⟩ := hu.read_slot hn hs hms hbehind hpc hnode
      simp only [WriterEvent.isTurn, decide_true, if_true]
      exact WriteThread.turnsLeft_read hpc hnext hd hnew (hlast ▸ hle) _
    | send hpc hi hid hnext =>
      simp only [WriterEvent.isTurn, decide_true, if_true]
      exact WriteThread.turnsLeft_send hpc hi hid hnext _ _

/-- The messages have been read, and each client of the list was sent those from its time on. -/
structure Arrived (k : Fin NUM_CLIENT_LISTS) (ms : List ClientDataNode) (t : Broadcast) :
    Prop where
  read : ms <+: reads k t.log
  sent : ∀ before i clientFd after, t.log = before ++ .added k i clientFd :: after →
    (∀ x ∈ sends k i t.log, x.ok = true) → ∃ first ≤ (reads k before).length,
      (reads k before).length ≤ first + 1 ∧
        ms.drop first <+: (sends k i t.log).map (·.message)

/-- What a thread is past of, it has read, as long as it was never too far behind. -/
theorem CatchUpInv.read_of_pastAll (h : CatchUpInv n k t) (hms : ms <+: queued t.log)
    (hpast : PastAll k ms t) (hbehind : NeverBehind n k t.log) : ms <+: reads k t.log := by
  obtain ⟨next, hreader⟩ := h.broadcast.reader k
  rw [(hreader.exact hbehind).2]
  refine List.prefix_of_prefix_length_le hms (List.take_prefix _ _) ?_
  by_contra hlt
  rw [List.length_take] at hlt
  -- the first message that was not passed is one of those
  have hlen := hms.length_le
  have hx : ms[next]? = some ms[next] := List.getElem?_eq_getElem (by omega)
  have hq : (queued t.log)[next]? = some ms[next] := by
    obtain ⟨rest, hrest⟩ := hms
    rw [← hrest, List.getElem?_append_left (by omega), hx]
  have hahead := h.ahead hreader le_rfl hq
  exact absurd (hpast _ (List.getElem_mem _)).1 (not_le.mpr hahead)

/-- The pass over the last of the messages is done at every slot. -/
theorem CatchUpInv.passed_of_pastAll (h : CatchUpInv n k t) (hread : ms <+: reads k t.log)
    (hpast : PastAll k ms t) (i : Nat) : ms <+: passedBy k i (t.writer.view k) t.log := by
  cases hpc : (t.writer.thread k).pc with
  | send j =>
    rw [passedBy_send hpc]
    split_ifs
    · obtain ⟨l, hl⟩ := (h.broadcast.list k).thread.sending j hpc
      rw [hl] at hread ⊢
      rw [List.dropLast_concat]
      obtain rfl | hms := List.prefix_concat_iff.mp hread
      · -- the message of the pass is none of those
        have := (hpast (t.writer.view k).message (by simp)).2 j hpc
        exact absurd this (lt_irrefl _)
      · exact hms
    · exact hread
  | _ => rwa [passedBy_eq_reads (by simp [ClientWriter.view, hpc])]

theorem CatchUpInv.arrived (h : CatchUpInv n k t) (hms : ms <+: queued t.log)
    (hpast : PastAll k ms t) (hbehind : NeverBehind n k t.log) : Arrived k ms t where
  read := h.read_of_pastAll hms hpast hbehind
  sent before i clientFd after hsplit hok := by
    obtain ⟨-, -, -, first, hle, hge, hserved⟩ :=
      (h.broadcast.list k).served before i clientFd after hsplit
    have hread := h.read_of_pastAll hms hpast hbehind
    refine ⟨first, hle, hge, ?_⟩
    obtain hl | hl := hserved.state
    · rw [hl.messages]
      exact (h.passed_of_pastAll hread hpast i).drop first
    · obtain ⟨l, x, hsends, -, hx⟩ := hl.last
      have := hok x (by simp [hsends])
      simp [hx] at this

/-- What a run keeps for a thread that is not told to stop, and what its turns bring. -/
theorem catchUpInv_run (hs : CatchUpInv n k s) (hn : 0 < n)
    (hflag : (s.writer.clm k).stop = false) (r : ((broadcast n).restrict Kept).Run s es t) :
    CatchUpInv n k t ∧ queued s.log <+: queued t.log ∧ (t.writer.clm k).stop = false ∧
      (s.turnsBehind k < es.countP (·.isTurn k) → PastAll k (queued s.log) t) := by
  have hstep : ∀ u e v, CatchUpInv n k u ∧ queued s.log <+: queued u.log ∧
      (u.writer.clm k).stop = false → ((broadcast n).restrict Kept).step u e v →
      (CatchUpInv n k v ∧ queued s.log <+: queued v.log ∧ (v.writer.clm k).stop = false) ∧
        (PastAll k (queued s.log) u → PastAll k (queued s.log) v) := by
    rintro u e v ⟨hu, hms, hkept⟩ ⟨⟨hok, hne⟩, huv⟩
    have hv := (catchUpInv hn k).step u e v hu ⟨hok, huv⟩
    obtain ⟨es, hw, hlog⟩ := Broadcast.next_cases huv
    exact ⟨⟨hv, hms.trans (by simp [hlog]), (hw.stop_eq hne k).trans hkept⟩,
      fun hpast => hpast.step hu huv⟩
  obtain ⟨ht, hms, hkept⟩ :=
    r.induct (fun u e v hu huv => (hstep u e v hu huv).1) ⟨hs, List.prefix_rfl, hflag⟩
  refine ⟨ht, hms, hkept, fun hturns => ?_⟩
  by_contra hpast
  have hcount := ((ranked_behind hn hs.broadcast.queue).run ⟨hs, List.prefix_rfl, hflag⟩
    (r.restrict_of_not ⟨hs, List.prefix_rfl, hflag⟩ hstep hpast)).2
  unfold Broadcast.turnsBehind at hturns
  omega

/-- A thread that is not told to stop can always take its turn, and it needs at most
`turnsBehind` of them until what was queued has arrived at its clients, whatever is queued
meanwhile. -/
theorem queued_messages_arrive (hn : 1 ≤ n) (h : ((broadcast n).restrict Promised).Reachable s)
    (hflag : (s.writer.clm k).stop = false) (r : ((broadcast n).restrict Kept).Run s es t)
    (hbehind : NeverBehind n k t.log) :
    s.turnsBehind k ≤ 2 + PASS_TURNS * (n + 1) ∧
    (s.turnsBehind k < es.countP (·.isTurn k) → Arrived k (queued s.log) t) ∧
    ∀ bytes, ∃ u, t.next (.turn k bytes) = some u := by
  have hs := (catchUpInv hn k).of_reachable h
  obtain ⟨ht, hms, hkept, hpast⟩ := catchUpInv_run hs hn hflag r
  refine ⟨turnsBehind_le hs, fun hturns => ht.arrived hms (hpast hturns) hbehind, fun bytes => ?_⟩
  have hrun : ((broadcast n).restrict Promised).Run s es t :=
    r.mono fun _ _ _ huv => ⟨huv.1.1, huv.2⟩
  refine broadcast_proceeds hn (h.run hrun) _ fun j bytes' he hexit => ?_
  obtain ⟨rfl, -⟩ := WriterEvent.turn.inj he
  simp [ht.awake.exited hexit] at hkept

theorem NeverBehind.of_length_le {log : List Effect} (h : (queued log).length ≤ n) :
    NeverBehind n k log := by
  intro before m after hsplit
  rw [hsplit, queued_append, List.length_append] at h
  omega

/-- A message that one client was sent. -/
theorem queued_messages_arrive_one_client : ∃ s t, ((broadcast 1).restrict Promised).Reachable s ∧
    Arrived 0 (queued s.log) t ∧ (queued s.log).map (·.id) = [10000000] ∧
      (sends 0 0 t.log).map (·.clientFd) = [5] := by
  let after : List WriterEvent := [.turn 0 0, .turn 0 0, .turn 0 0]
  have hlog : (broadcastRun 1 [.addClient 5, .queueData 1 (.ofBuffer ['a']), .turn 0 0, .turn 0 0,
      .turn 0 1, .turn 0 0]).bind (fun s => (after.foldlM Broadcast.next s).map fun t =>
        ((s.writer.clm 0).stop, s.turnsBehind 0, (queued s.log).map (·.id),
          (queued t.log).length, (sends 0 0 t.log).map (·.clientFd))) =
      some (false, 2, [10000000], 1, [5]) := by
    decide +kernel
  obtain ⟨s, hbefore, hlog⟩ := Option.bind_eq_some_iff.mp hlog
  obtain ⟨t, hafter, hlog⟩ := Option.map_eq_some_iff.mp hlog
  simp only [Prod.mk.injEq] at hlog
  obtain ⟨hflag, hturns, hid, hlen, hsent⟩ := hlog
  have hreach := reachable_of_broadcastRun hbefore
  have hrun : ((broadcast 1).restrict Kept).Run s after t := by
    refine .of_foldlM (fun e he u v hv => ⟨?_, hv⟩) hafter
    obtain rfl : e = .turn 0 0 := by simpa [after] using he
    exact ⟨trivial, by simp⟩
  obtain ⟨-, harrived, -⟩ :=
    queued_messages_arrive le_rfl hreach hflag hrun (.of_length_le hlen.le)
  refine ⟨s, t, hreach, harrived ?_, hid, hsent⟩
  rw [hturns]
  decide

end TradeServer
