import Mathlib.Data.List.Chain
import TradeServer.Sse.WriteThread

/-!
# The ids of messages

An id is the time in units of `10 ^ -7` seconds plus the number of the message in 32 bits. The
number runs past the second it was counted in; the ids fall back only where it wraps.
-/

namespace TradeServer

open Library

/-- The clock at each call of `client_writer_queue_data`. -/
def readings (es : List WriterEvent) : List Nat :=
  es.filterMap fun
    | .queueData now _ => some now
    | _ => none

/-- Readings of a clock that starts after 0, does not go back and stays below `2 ^ 39`. -/
structure Clock (ts : List Nat) : Prop where
  pos : ∀ t ∈ ts, 0 < t
  lt : ∀ t ∈ ts, t < 2 ^ 39
  mono : ts.Pairwise (· ≤ ·)

/-- The ids that the messages get. -/
def messageIds (ts : List Nat) : List Nat :=
  ts.mapIdx fun i t => (t * 10000000 + i % 2 ^ 32) % 2 ^ 64

/-- Where the counter wraps, 430 seconds passed since the message before. -/
def WrapsSlowly (ts : List Nat) : Prop :=
  ∀ i, ∀ h : i + 1 < ts.length, (i + 1) % 2 ^ 32 = 0 → ts[i] + 430 ≤ ts[i + 1]

/-- Thread `k` rejects a message only after it read that one or one queued later. -/
def AcceptsNew (k : Fin NUM_CLIENT_LISTS) (s : Broadcast) : Prop :=
  ∀ i (m : ClientDataNode), (queued s.log)[i]? = some m → m.id ≤ (s.writer.thread k).lastDataId →
    ∃ r ∈ reads k s.log, ∃ j : Nat, i ≤ j ∧ ((queued s.log).map (·.id))[j]? = some r.id

/-! ## The ids of a sequence of readings -/

theorem messageIds_append (ts : List Nat) (t : Nat) :
    messageIds (ts ++ [t]) = messageIds ts ++ [(t * 10000000 + ts.length % 2 ^ 32) % 2 ^ 64] := by
  simp [messageIds, List.mapIdx_append]

namespace Clock

variable {ts : List Nat}

@[simp] theorem length_messageIds (ts : List Nat) : (messageIds ts).length = ts.length := by
  simp [messageIds]

theorem getElem_messageIds (h : Clock ts) {i : Nat} (hi : i < (messageIds ts).length)
    (hlen : i < ts.length) : (messageIds ts)[i] = ts[i] * 10000000 + i % 2 ^ 32 := by
  have hlt := h.lt ts[i] (List.getElem_mem hlen)
  simp only [messageIds, List.getElem_mapIdx]
  omega

theorem pos_of_mem (h : Clock ts) {id : Nat} (hid : id ∈ messageIds ts) : 0 < id := by
  obtain ⟨i, hi, rfl⟩ := List.getElem_of_mem hid
  have hlen : i < ts.length := by simpa using hi
  have hpos := h.pos ts[i] (List.getElem_mem hlen)
  rw [h.getElem_messageIds hi hlen]
  omega

/-- The counter adds one to an id, or takes all of it back. -/
theorem messageIds_lt_iff (h : Clock ts) {i : Nat} (hi : i + 1 < (messageIds ts).length)
    (hlen : i + 1 < ts.length) :
    (messageIds ts)[i] < (messageIds ts)[i + 1] ↔
      ((i + 1) % 2 ^ 32 = 0 → ts[i] + 430 ≤ ts[i + 1]) := by
  have hmono := List.pairwise_iff_getElem.mp h.mono i (i + 1) (by omega) hlen (by omega)
  rw [h.getElem_messageIds hi hlen, h.getElem_messageIds (by omega) (by omega)]
  omega

theorem increasing_iff (h : Clock ts) :
    (messageIds ts).Pairwise (· < ·) ↔ WrapsSlowly ts := by
  rw [← List.isChain_iff_pairwise, List.isChain_iff_getElem]
  have hlen := length_messageIds ts
  constructor
  · intro hall i hi
    exact (h.messageIds_lt_iff (hlen ▸ hi) hi).mp (hall i (hlen ▸ hi))
  · intro hall i hi
    exact (h.messageIds_lt_iff hi (hlen ▸ hi)).mpr (hall i (hlen ▸ hi))

end Clock

/-! ## Runs of the client writer -/

/-- After the readings `ts`: the queue and the threads know no other ids than those given. -/
structure IdInv (ts : List Nat) (s : Broadcast) : Prop where
  count : s.writer.msgCount = ts.length % 2 ^ 32
  ids : (queued s.log).map (·.id) = messageIds ts
  slots : ∀ node ∈ s.writer.dataQueue, node.id = 0 ∨ node.id ∈ messageIds ts
  reads : ∀ k, ∀ r ∈ reads k s.log, r.id ∈ messageIds ts
  last : ∀ k, (s.writer.thread k).lastDataId = 0 ∨
    ∃ r ∈ TradeServer.reads k s.log, r.id = (s.writer.thread k).lastDataId

namespace IdInv

variable {ts : List Nat} {s t : Broadcast} {e : WriterEvent}

theorem init (n : Nat) : IdInv [] ⟨clientWriterInit n, []⟩ where
  count := rfl
  ids := rfl
  slots node hnode := .inl (by rw [List.eq_of_mem_replicate hnode]; rfl)
  reads k r hr := by simp [TradeServer.reads] at hr
  last k := .inl rfl

/-- A step that queues and reads nothing. -/
theorem congr (h : IdInv ts s) {w : ClientWriter} {es : List Effect}
    (hcount : w.msgCount = s.writer.msgCount) (hqueue : w.dataQueue = s.writer.dataQueue)
    (hqueued : queued es = []) (hreads : ∀ k, TradeServer.reads k es = [])
    (hlast : ∀ k, (w.thread k).lastDataId = (s.writer.thread k).lastDataId) :
    IdInv ts ⟨w, s.log ++ es⟩ where
  count := hcount.trans h.count
  ids := by simpa [hqueued] using h.ids
  slots := by simpa [hqueue] using h.slots
  reads k := by simpa [hreads] using h.reads k
  last k := by simpa [hreads, hlast] using h.last k

theorem queueData (h : IdInv ts s) (now : Nat) (data : CString) {w : ClientWriter} {idx : Nat}
    (hcount : w.msgCount = (s.writer.msgCount + 1) % 2 ^ 32)
    (hqueue : w.dataQueue = s.writer.dataQueue.set idx ⟨s.writer.nextId now, copyData data⟩)
    (hthread : w.thread = s.writer.thread) :
    IdInv (ts ++ [now]) ⟨w, s.log ++ [.queued ⟨s.writer.nextId now, data⟩]⟩ := by
  have hid : s.writer.nextId now = (now * 10000000 + ts.length % 2 ^ 32) % 2 ^ 64 := by
    rw [ClientWriter.nextId, h.count]
  have hmem : ∀ id ∈ messageIds ts, id ∈ messageIds (ts ++ [now]) := by
    intro id hid
    rw [messageIds_append]
    exact List.mem_append_left _ hid
  have hreads : ∀ k, TradeServer.reads k (s.log ++ [.queued ⟨s.writer.nextId now, data⟩]) =
      TradeServer.reads k s.log := fun k => by simp [TradeServer.reads]
  refine ⟨?_, ?_, fun node hnode => ?_, fun k r hr => ?_, fun k => ?_⟩
  · rw [hcount, h.count, List.length_append, List.length_singleton]
    omega
  · rw [queued_append, List.map_append, h.ids, messageIds_append, ← hid]
    rfl
  · rw [hqueue] at hnode
    rcases List.mem_or_eq_of_mem_set hnode with hnode | rfl
    · exact (h.slots node hnode).imp_right (hmem _)
    · right
      simp [messageIds_append, hid]
  · rw [hreads] at hr
    exact hmem _ (h.reads k r hr)
  · rw [hreads, hthread]
    exact h.last k

theorem read (h : IdInv ts s) {w : ClientWriter} {j : Fin NUM_CLIENT_LISTS}
    {node : ClientDataNode} (hcount : w.msgCount = s.writer.msgCount)
    (hqueue : w.dataQueue = s.writer.dataQueue) (hnode : node ∈ s.writer.dataQueue)
    (hid : (s.writer.thread j).lastDataId < node.id)
    (hself : (w.thread j).lastDataId = node.id)
    (hother : ∀ k, k ≠ j → w.thread k = s.writer.thread k) :
    IdInv ts ⟨w, s.log ++ [.read j ⟨node.id, copyData node.data⟩]⟩ := by
  refine ⟨hcount.trans h.count, by simpa [queued] using h.ids, by simpa [hqueue] using h.slots,
    fun k r hr => ?_, fun k => ?_⟩
  · rw [reads_append, List.mem_append] at hr
    rcases hr with hr | hr
    · exact h.reads k r hr
    · obtain rfl | hk := eq_or_ne k j
      · rw [reads_read, List.mem_singleton] at hr
        subst hr
        exact (h.slots node hnode).resolve_left (by omega)
      · simp [TradeServer.reads, hk.symm] at hr
  · obtain rfl | hk := eq_or_ne k j
    · exact .inr ⟨⟨node.id, copyData node.data⟩, by simp, hself.symm⟩
    · rw [hother k hk, reads_append]
      obtain hzero | ⟨r, hr, heq⟩ := h.last k
      · exact .inl hzero
      · exact .inr ⟨r, List.mem_append_left _ hr, heq⟩

theorem lastDataId_setThread {w : ClientWriter} {j k : Fin NUM_CLIENT_LISTS} {u : WriteThread}
    (h : u.lastDataId = (w.thread j).lastDataId) :
    ((w.setThread j u).thread k).lastDataId = (w.thread k).lastDataId := by
  obtain rfl | hk := eq_or_ne k j
  · simp [h]
  · simp [hk]

theorem step (h : IdInv ts s) (hstep : s.next e = some t) : IdInv (ts ++ readings [e]) t := by
  obtain ⟨es, hw, hlog⟩ := Broadcast.next_cases hstep
  obtain ⟨w, log⟩ := t
  obtain rfl : log = s.log ++ es := hlog
  cases hw with
  | @queueData now data hidx => exact h.queueData now data rfl rfl rfl
  | @read j _ node hpc hnode hid =>
    rw [show readings [_] = [] from rfl, List.append_nil]
    exact h.read rfl rfl (List.mem_of_getElem? hnode) hid (by simp) fun k hk => by simp [hk]
  | _ =>
    rw [show readings [_] = [] from rfl, List.append_nil]
    apply h.congr
    · rfl
    · rfl
    · rfl
    · intro k
      simp [TradeServer.reads]
    · intro k
      first | rfl | exact lastDataId_setThread rfl

end IdInv

variable {n : Nat} {es : List WriterEvent} {s : Broadcast}

theorem idInv_run (r : (broadcast n).Run ⟨clientWriterInit n, []⟩ es s) :
    IdInv (readings es) s := by
  generalize hinit : (⟨clientWriterInit n, []⟩ : Broadcast) = s₀ at r
  induction r with
  | nil =>
    subst hinit
    exact .init n
  | snoc _ hstep ih =>
    rw [readings, List.filterMap_append]
    exact ih.step hstep

/-- Increasing ids are what the test of the threads relies on. -/
theorem IdInv.acceptsNew {ts : List Nat} (h : IdInv ts s) (hclock : Clock ts)
    (hinc : (messageIds ts).Pairwise (· < ·)) (k : Fin NUM_CLIENT_LISTS) : AcceptsNew k s := by
  intro i m hm hle
  have hi : (messageIds ts)[i]? = some m.id := by
    rw [← h.ids, List.getElem?_map, hm, Option.map_some]
  have hpos := hclock.pos_of_mem (List.mem_of_getElem? hi)
  obtain hzero | ⟨r, hr, hlast⟩ := h.last k
  · omega
  obtain ⟨j, hj⟩ := List.mem_iff_getElem?.mp (h.reads k r hr)
  refine ⟨r, hr, j, ?_, by rw [h.ids, hj]⟩
  -- an id at a later place is larger
  by_contra hlt
  obtain ⟨hilen, hi⟩ := List.getElem?_eq_some_iff.mp hi
  obtain ⟨hjlen, hj⟩ := List.getElem?_eq_some_iff.mp hj
  have := List.pairwise_iff_getElem.mp hinc j i hjlen hilen (by omega)
  omega

/-- In every run the ids increase, and no thread rejects a message that is new to it, if and only
if at least 430 seconds pass before each message whose number is a multiple of `2 ^ 32`. -/
theorem ids_increase_iff (r : (broadcast n).Run ⟨clientWriterInit n, []⟩ es s)
    (hclock : Clock (readings es)) :
    ((queued s.log).map (·.id)).Pairwise (· < ·) ∧ (∀ k, AcceptsNew k s) ↔
      WrapsSlowly (readings es) := by
  have h := idInv_run r
  rw [h.ids, hclock.increasing_iff]
  constructor
  · exact fun hall => hall.1
  · exact fun hslow => ⟨hslow, h.acceptsNew hclock (hclock.increasing_iff.mpr hslow)⟩

/-! ## Runs that only queue -/

def queueOnly (ts : List Nat) : List WriterEvent := ts.map fun t => .queueData t (.ofBuffer [])

theorem readings_queueOnly (ts : List Nat) : readings (queueOnly ts) = ts := by
  simp [readings, queueOnly, List.filterMap_map]

/-- A queue with a slot takes any number of messages. -/
theorem exists_run_queueOnly (hn : 0 < n) (ts : List Nat) :
    ∃ s, (broadcast n).Run ⟨clientWriterInit n, []⟩ (queueOnly ts) s := by
  suffices hruns : ∃ s, (broadcast n).Run ⟨clientWriterInit n, []⟩ (queueOnly ts) s ∧
      s.writer.dataQueueSize = n ∧ s.writer.dataQueue.length = n ∧
      s.writer.lastDataWriteIdx ≤ n by
    obtain ⟨s, r, -⟩ := hruns
    exact ⟨s, r⟩
  induction ts using List.reverseRecOn with
  | nil => exact ⟨_, .nil _, rfl, List.length_replicate, Nat.zero_le _⟩
  | append_singleton ts t ih =>
    obtain ⟨s, r, hsize, hlen, hle⟩ := ih
    have hidx : wrap s.writer.dataQueueSize s.writer.lastDataWriteIdx < n :=
      wrap_lt (hsize.symm ▸ hn) (hsize.symm ▸ hle) |>.trans_eq hsize
    have hw : clientWriterQueueData s.writer t (.ofBuffer []) =
        some ({ s.writer with
          lastDataWriteIdx := wrap s.writer.dataQueueSize s.writer.lastDataWriteIdx + 1
          dataQueue := s.writer.dataQueue.set
            (wrap s.writer.dataQueueSize s.writer.lastDataWriteIdx)
              ⟨s.writer.nextId t, copyData (.ofBuffer [])⟩
          msgCount := (s.writer.msgCount + 1) % 2 ^ 32 },
          [.queued ⟨s.writer.nextId t, .ofBuffer []⟩]) := if_pos (hlen.symm ▸ hidx)
    have hstep : s.next (.queueData t (.ofBuffer [])) = some _ :=
      Option.map_eq_some_iff.mpr ⟨_, hw, rfl⟩
    rw [queueOnly, List.map_append]
    exact ⟨_, .snoc r hstep, hsize, by simpa using hlen, hidx⟩

theorem ids_increase_two_seconds : ∃ s,
    (broadcast 1).Run ⟨clientWriterInit 1, []⟩ (queueOnly [1, 1, 2]) s ∧
      ((queued s.log).map (·.id)).Pairwise (· < ·) := by
  obtain ⟨s, r⟩ := exists_run_queueOnly Nat.one_pos [1, 1, 2]
  have hreadings := readings_queueOnly [1, 1, 2]
  have hclock : Clock (readings (queueOnly [1, 1, 2])) := by
    rw [hreadings]
    exact ⟨by decide, by decide, by decide⟩
  refine ⟨s, r, ((ids_increase_iff r hclock).mpr fun i hi hwrap => ?_).1⟩
  simp only [hreadings, List.length_cons, List.length_nil] at hi
  omega

theorem not_wrapsSlowly_replicate {m : Nat} (t : Nat) (hm : 2 ^ 32 < m) :
    ¬ WrapsSlowly (List.replicate m t) := by
  intro h
  have := h (2 ^ 32 - 1) (by rw [List.length_replicate]; omega) (by omega)
  rw [List.getElem_replicate, List.getElem_replicate] at this
  omega

/-- `2 ^ 32 + 1` messages in one second: the last one gets the id of the first one. -/
theorem ids_fall_back : ¬ ∀ (n : Nat) (es : List WriterEvent) (s : Broadcast),
    (broadcast n).Run ⟨clientWriterInit n, []⟩ es s → Clock (readings es) →
      ((queued s.log).map (·.id)).Pairwise (· < ·) ∧ ∀ k, AcceptsNew k s := by
  intro hall
  obtain ⟨m, hm⟩ : ∃ m, 2 ^ 32 < m := ⟨2 ^ 32 + 1, by omega⟩
  obtain ⟨s, r⟩ := exists_run_queueOnly Nat.one_pos (List.replicate m 1)
  have hreadings := readings_queueOnly (List.replicate m 1)
  have hmem : ∀ t ∈ List.replicate m 1, t = 1 := fun t => List.eq_of_mem_replicate
  have hclock : Clock (List.replicate m 1) :=
    ⟨fun t ht => by rw [hmem t ht]; omega, fun t ht => by rw [hmem t ht]; omega,
      List.pairwise_replicate.mpr (.inr le_rfl)⟩
  have hinc := (hall 1 _ s r (hreadings.symm ▸ hclock)).1
  rw [(idInv_run r).ids, hreadings, hclock.increasing_iff] at hinc
  exact not_wrapsSlowly_replicate 1 hm hinc

end TradeServer
