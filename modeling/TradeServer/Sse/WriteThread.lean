import Mathlib.Data.List.Infix
import TradeServer.Sse.ClientWriter

/-!
# What a write thread sends

The messages that a thread reads have increasing ids, whatever is queued. A slot of its
list is sent every message that the thread reads from then on, in order and once, until
one send fails.
-/

namespace TradeServer

open Library

variable {k j : Fin NUM_CLIENT_LISTS} {i : Nat}

/-- The messages queued in a log. -/
def queued (log : List Effect) : List ClientDataNode :=
  log.filterMap fun
    | .queued message => some message
    | _ => none

/-- The messages that thread `k` read. -/
def reads (k : Fin NUM_CLIENT_LISTS) (log : List Effect) : List ClientDataNode :=
  log.filterMap fun
    | .read j message => if j = k then some message else none
    | _ => none

/-- The sends for slot `i` of list `k`. -/
def sends (k : Fin NUM_CLIENT_LISTS) (i : Nat) (log : List Effect) : List Send :=
  log.filterMap fun
    | .sent send => if send.clm = k ∧ send.slot = i then some send else none
    | _ => none

@[simp] theorem queued_append (l l' : List Effect) : queued (l ++ l') = queued l ++ queued l' :=
  List.filterMap_append ..

@[simp] theorem reads_append (l l' : List Effect) : reads k (l ++ l') = reads k l ++ reads k l' :=
  List.filterMap_append ..

@[simp] theorem sends_append (l l' : List Effect) :
    sends k i (l ++ l') = sends k i l ++ sends k i l' := List.filterMap_append ..

@[simp] theorem reads_added {clientFd : Int} : reads k [.added j i clientFd] = [] := rfl

@[simp] theorem reads_read {m : ClientDataNode} : reads k [.read k m] = [m] := by simp [reads]

@[simp] theorem reads_sent {x : Send} : reads k [.sent x] = [] := rfl

@[simp] theorem sends_added {clientFd : Int} {i' : Nat} : sends k i [.added j i' clientFd] = [] :=
  rfl

@[simp] theorem sends_read {m : ClientDataNode} : sends k i [.read j m] = [] := rfl

@[simp] theorem sends_sent {x : Send} :
    sends k i [.sent x] = if x.clm = k ∧ x.slot = i then [x] else [] := by
  split_ifs with h <;> simp [sends, h]

/-- The effect belongs to list `k`. -/
def Effect.Of (k : Fin NUM_CLIENT_LISTS) : Effect → Prop
  | .queued _ => False
  | .added j _ _ => j = k
  | .read j _ => j = k
  | .sent send => send.clm = k

theorem reads_eq_nil {es : List Effect} (h : ∀ e ∈ es, ¬ e.Of k) : reads k es = [] := by
  apply List.filterMap_eq_nil_iff.mpr
  intro e he
  replace h := h e he
  cases e <;> simp_all [Effect.Of]

theorem sends_eq_nil {es : List Effect} (h : ∀ e ∈ es, ¬ e.Of k) : sends k i es = [] := by
  apply List.filterMap_eq_nil_iff.mpr
  intro e he
  replace h := h e he
  cases e <;> simp_all [Effect.Of]

/-- The list of thread `k` and the thread itself. -/
structure ThreadView where
  clientFdArr : List Int
  lastClientInsertIdx : Nat
  thread : WriteThread

def ClientWriter.view (w : ClientWriter) (k : Fin NUM_CLIENT_LISTS) : ThreadView :=
  ⟨(w.clm k).clientFdArr, (w.clm k).lastClientInsertIdx, w.thread k⟩

/-- The message in the send buffer of a thread. -/
def ThreadView.message (v : ThreadView) : ClientDataNode :=
  ⟨v.thread.lastDataId, v.thread.sendBuffer⟩

/-- The steps as list `k` and its thread see them. -/
inductive ThreadStep (k : Fin NUM_CLIENT_LISTS) (v : ThreadView) :
    WriterEvent → ThreadView → List Effect → Prop where
  | other {e : WriterEvent} {es : List Effect} (hes : ∀ e ∈ es, ¬ e.Of k) : ThreadStep k v e v es
  | add {clientFd : Int} (hroom : v.lastClientInsertIdx ≠ NUM_CLIENTS_PER_LIST)
      (hidx : v.lastClientInsertIdx < v.clientFdArr.length) :
      ThreadStep k v (.addClient clientFd)
        { v with
          clientFdArr := v.clientFdArr.set v.lastClientInsertIdx clientFd
          lastClientInsertIdx := v.lastClientInsertIdx + 1 }
        [.added k v.lastClientInsertIdx clientFd]
  | idle {bytes : Int} {pc : WritePc} (hpc : ∀ i, v.thread.pc ≠ .send i)
      (hnext : ∀ i, pc ≠ .send i) :
      ThreadStep k v (.turn k bytes) { v with thread := { v.thread with pc := pc } } []
  | read {bytes : Int} {node : ClientDataNode} (hpc : v.thread.pc = .read)
      (hid : v.thread.lastDataId < node.id) :
      ThreadStep k v (.turn k bytes) { v with thread := ⟨.send 0, node.id, node.data⟩ }
        [.read k node]
  | passed {bytes : Int} {i : Nat} (hpc : v.thread.pc = .send i)
      (hfd : v.clientFdArr[i]? = some 0) :
      ThreadStep k v (.turn k bytes) { v with thread := { v.thread with pc := .read } } []
  | lost {bytes : Int} {i : Nat} (hpc : v.thread.pc = .send i)
      (hfd : v.clientFdArr[i]? = some (-1)) :
      ThreadStep k v (.turn k bytes) { v with thread := { v.thread with pc := .send (i + 1) } } []
  | fail {bytes clientFd : Int} {i : Nat} (hpc : v.thread.pc = .send i)
      (hfd : v.clientFdArr[i]? = some clientFd) (hend : clientFd ≠ 0) (hlost : clientFd ≠ -1)
      (hbytes : bytes ≠ v.thread.sendBuffer.length) :
      ThreadStep k v (.turn k bytes)
        { v with
          clientFdArr := v.clientFdArr.set i (-1)
          thread := { v.thread with pc := .send (i + 1) } }
        [.sent ⟨k, i, clientFd, v.message, false⟩]
  | sent {bytes clientFd : Int} {i : Nat} (hpc : v.thread.pc = .send i)
      (hfd : v.clientFdArr[i]? = some clientFd) (hend : clientFd ≠ 0) (hlost : clientFd ≠ -1)
      (hbytes : bytes = v.thread.sendBuffer.length) :
      ThreadStep k v (.turn k bytes) { v with thread := { v.thread with pc := .send (i + 1) } }
        [.sent ⟨k, i, clientFd, v.message, true⟩]

namespace ClientWriter

variable {w : ClientWriter} {c : ClientListManager} {u : WriteThread}

@[simp] theorem view_setClm_self :
    (w.setClm k c).view k = ⟨c.clientFdArr, c.lastClientInsertIdx, w.thread k⟩ := by
  simp [view]

@[simp] theorem view_setThread_self :
    (w.setThread k u).view k = { w.view k with thread := u } := by
  simp [view]

theorem view_setClm_of_ne (h : k ≠ j) : (w.setClm j c).view k = w.view k := by
  simp [view, h]

theorem view_setThread_of_ne (h : k ≠ j) : (w.setThread j u).view k = w.view k := by
  simp [view, h]

end ClientWriter

open ClientWriter in
theorem WriterStep.view {w w' : ClientWriter} {e : WriterEvent} {es : List Effect}
    (h : WriterStep w e w' es) (k : Fin NUM_CLIENT_LISTS) :
    ThreadStep k (w.view k) e (w'.view k) es := by
  cases h with
  | queueData => exact .other (by simp [Effect.Of])
  | full => exact .other (by simp)
  | stop => exact .other (by simp)
  | @addClient _ _ j _ hroom hidx =>
    obtain rfl | hj := eq_or_ne k j
    · rw [view_setClm_self]
      exact .add hroom hidx
    · rw [view_setClm_of_ne hj]
      exact .other (by simp [Effect.Of, hj.symm])
  | @wake j _ pc hpc hnext =>
    obtain rfl | hj := eq_or_ne k j
    · rw [view_setThread_self]
      exact .idle (by simp [ClientWriter.view, hpc]) (by obtain rfl | rfl := hnext <;> simp)
    · rw [view_setThread_of_ne hj]
      exact .other (by simp)
  | @skip j _ node hpc hnode hid =>
    obtain rfl | hj := eq_or_ne k j
    · rw [view_setThread_self, view_setClm_self]
      exact .idle (by simp [ClientWriter.view, hpc]) (by simp)
    · rw [view_setThread_of_ne hj, view_setClm_of_ne hj]
      exact .other (by simp)
  | @read j _ node hpc hnode hid =>
    obtain rfl | hj := eq_or_ne k j
    · rw [view_setThread_self, view_setClm_self]
      exact @ThreadStep.read k (w.view k) _ ⟨node.id, copyData node.data⟩ hpc hid
    · rw [view_setThread_of_ne hj, view_setClm_of_ne hj]
      exact .other (by simp [Effect.Of, hj.symm])
  | @passed j _ i hpc hfd =>
    obtain rfl | hj := eq_or_ne k j
    · rw [view_setThread_self, view_setClm_self]
      exact .passed hpc hfd
    · rw [view_setThread_of_ne hj, view_setClm_of_ne hj]
      exact .other (by simp)
  | @lost j _ i hpc hfd =>
    obtain rfl | hj := eq_or_ne k j
    · rw [view_setThread_self]
      exact .lost hpc hfd
    · rw [view_setThread_of_ne hj]
      exact .other (by simp)
  | @fail j _ _ i hpc hfd hend hlost hbytes =>
    obtain rfl | hj := eq_or_ne k j
    · rw [view_setClm_self, thread_setThread, Function.update_self]
      exact .fail hpc hfd hend hlost hbytes
    · rw [view_setClm_of_ne hj, view_setThread_of_ne hj]
      exact .other (by simp [Effect.Of, hj.symm])
  | @sent j _ _ i hpc hfd hend hlost hbytes =>
    obtain rfl | hj := eq_or_ne k j
    · rw [view_setThread_self]
      exact .sent hpc hfd hend hlost hbytes
    · rw [view_setThread_of_ne hj]
      exact .other (by simp [Effect.Of, hj.symm])

/-- The messages of thread `k` that are done with slot `i`: all it read, but for the one whose
pass is still before the slot. -/
def passedBy (k : Fin NUM_CLIENT_LISTS) (i : Nat) (v : ThreadView) (log : List Effect) :
    List ClientDataNode :=
  match v.thread.pc with
  | .send j => if j ≤ i then (reads k log).dropLast else reads k log
  | _ => reads k log

/-- The array of a list and what its thread has read. -/
structure ThreadInv (k : Fin NUM_CLIENT_LISTS) (v : ThreadView) (log : List Effect) : Prop where
  length : v.clientFdArr.length = NUM_CLIENTS_PER_LIST + 1
  idx_le : v.lastClientInsertIdx ≤ NUM_CLIENTS_PER_LIST
  used : ∀ i < v.lastClientInsertIdx, v.clientFdArr[i]? ≠ some 0
  unused : ∀ i ≤ NUM_CLIENTS_PER_LIST, v.lastClientInsertIdx ≤ i → v.clientFdArr[i]? = some 0
  unsent : ∀ i, v.lastClientInsertIdx ≤ i → sends k i log = []
  sorted : (reads k log).Pairwise (·.id < ·.id)
  last : ∀ m ∈ reads k log, m.id ≤ v.thread.lastDataId
  sending : ∀ i, v.thread.pc = .send i → ∃ l, reads k log = l ++ [v.message]
  place : ∀ i, v.thread.pc = .send i → i ≤ v.lastClientInsertIdx

namespace ThreadInv

variable {v v' : ThreadView} {e : WriterEvent} {log es : List Effect}

theorem init (k : Fin NUM_CLIENT_LISTS) (n : Nat) :
    ThreadInv k ((clientWriterInit n).view k) [] where
  length := List.length_replicate
  idx_le := Nat.zero_le _
  used i hi := absurd hi (Nat.not_lt_zero i)
  unused i hi _ := by
    have : i < NUM_CLIENTS_PER_LIST + 1 := by omega
    simpa [ClientWriter.view, clientWriterInit, List.getElem?_replicate]
  unsent i _ := rfl
  sorted := .nil
  last m hm := by simp [reads] at hm
  sending i hi := by simp [ClientWriter.view, clientWriterInit] at hi
  place i hi := by simp [ClientWriter.view, clientWriterInit] at hi

/-- A descriptor in the array belongs to a slot that was given out. -/
theorem lt_of_fd (h : ThreadInv k v log) {clientFd : Int} (hfd : v.clientFdArr[i]? = some clientFd)
    (hend : clientFd ≠ 0) : i < v.lastClientInsertIdx := by
  by_contra hi
  have hlen := (List.getElem?_eq_some_iff.mp hfd).1
  rw [h.length] at hlen
  rw [h.unused i (by omega) (by omega)] at hfd
  exact hend (Option.some.inj hfd).symm

/-- The thread moves, and no message is read. -/
theorem move (h : ThreadInv k v log) {pc : WritePc} {log' : List Effect}
    (hreads : reads k log' = reads k log)
    (hsends : ∀ i, v.lastClientInsertIdx ≤ i → sends k i log' = sends k i log)
    (hpc : ∀ i, pc = .send i → (∃ j, v.thread.pc = .send j) ∧ i ≤ v.lastClientInsertIdx) :
    ThreadInv k { v with thread := { v.thread with pc := pc } } log' where
  length := h.length
  idx_le := h.idx_le
  used := h.used
  unused := h.unused
  unsent i hi := (hsends i hi).trans (h.unsent i hi)
  sorted := hreads ▸ h.sorted
  last := hreads ▸ h.last
  sending i hi := by
    obtain ⟨⟨j, hj⟩, -⟩ := hpc i hi
    rw [hreads]
    exact h.sending j hj
  place i hi := (hpc i hi).2

/-- A slot that was given out loses its client. -/
theorem lose (h : ThreadInv k v log) (hi : i < v.lastClientInsertIdx) :
    ThreadInv k { v with clientFdArr := v.clientFdArr.set i (-1) } log where
  length := by simpa using h.length
  idx_le := h.idx_le
  used j hj := by
    obtain rfl | hne := eq_or_ne j i
    · have hle := h.idx_le
      simp [show j < v.clientFdArr.length by rw [h.length]; omega]
    · rw [List.getElem?_set_ne hne.symm]
      exact h.used j hj
  unused j hj hge := by
    rw [List.getElem?_set_ne (by simp only at hge; omega)]
    exact h.unused j hj hge
  unsent := h.unsent
  sorted := h.sorted
  last := h.last
  sending := h.sending
  place := h.place

/-- The next slot is given out. -/
theorem add (h : ThreadInv k v log) {clientFd : Int} (hfd : clientFd ≠ 0)
    (hroom : v.lastClientInsertIdx ≠ NUM_CLIENTS_PER_LIST)
    (hidx : v.lastClientInsertIdx < v.clientFdArr.length) :
    ThreadInv k
      { v with
        clientFdArr := v.clientFdArr.set v.lastClientInsertIdx clientFd
        lastClientInsertIdx := v.lastClientInsertIdx + 1 }
      (log ++ [.added k v.lastClientInsertIdx clientFd]) where
  length := by simpa using h.length
  idx_le := lt_of_le_of_ne h.idx_le hroom
  used i hi := by
    obtain rfl | hne := eq_or_ne i v.lastClientInsertIdx
    · simpa [hidx] using hfd
    · rw [List.getElem?_set_ne hne.symm]
      exact h.used i (by simp only at hi; omega)
  unused i hi hge := by
    rw [List.getElem?_set_ne (by simp only at hge; omega)]
    exact h.unused i hi (by simp only at hge; omega)
  unsent i hi := by simpa using h.unsent i (Nat.le_of_succ_le hi)
  sorted := by simpa using h.sorted
  last := by simpa using h.last
  sending := by simpa [ThreadView.message] using h.sending
  place i hi := (h.place i hi).trans (Nat.le_succ _)

/-- The thread reads a message with a higher id. -/
theorem read (h : ThreadInv k v log) {node : ClientDataNode}
    (hid : v.thread.lastDataId < node.id) :
    ThreadInv k { v with thread := ⟨.send 0, node.id, node.data⟩ } (log ++ [.read k node]) where
  length := h.length
  idx_le := h.idx_le
  used := h.used
  unused := h.unused
  unsent i hi := by simpa using h.unsent i hi
  sorted := by
    rw [reads_append, reads_read]
    refine List.pairwise_append.mpr ⟨h.sorted, List.pairwise_singleton _ _, ?_⟩
    simpa using fun m hm => (h.last m hm).trans_lt hid
  last m hm := by
    rw [reads_append, reads_read, List.mem_append, List.mem_singleton] at hm
    obtain hm | rfl := hm
    · exact (h.last m hm).trans hid.le
    · exact le_rfl
  sending i hi := ⟨reads k log, by simp [ThreadView.message]⟩
  place i hi := by
    obtain rfl : 0 = i := WritePc.send.inj hi
    exact Nat.zero_le _

theorem step (h : ThreadInv k v log) (hpos : ∀ clientFd, e = .addClient clientFd → 0 < clientFd)
    (hstep : ThreadStep k v e v' es) : ThreadInv k v' (log ++ es) := by
  cases hstep with
  | other hes =>
    apply @move _ _ _ h v.thread.pc
    · simp [reads_eq_nil hes]
    · simp [sends_eq_nil hes]
    · exact fun i hi => ⟨⟨i, hi⟩, h.place i hi⟩
  | add hroom hidx => exact h.add (Int.ne_of_gt (hpos _ rfl)) hroom hidx
  | idle hpc hnext => exact h.move (by simp) (by simp) fun i hi => absurd hi (hnext i)
  | read hpc hid => exact h.read hid
  | passed hpc hfd => exact h.move (by simp) (by simp) (by simp)
  | @lost _ i hpc hfd =>
    apply h.move (by simp) (by simp)
    intro j hj
    exact ⟨⟨i, hpc⟩, WritePc.send.inj hj ▸ h.lt_of_fd hfd (by omega)⟩
  | @fail _ clientFd i hpc hfd hend hlost hbytes =>
    have hi := h.lt_of_fd hfd hend
    apply (h.lose hi).move (by simp)
    · intro j hj
      have hne : i ≠ j := by simp only at hj; omega
      simp [hne]
    · exact fun j hj => ⟨⟨i, hpc⟩, WritePc.send.inj hj ▸ hi⟩
  | @sent _ clientFd i hpc hfd hend hlost hbytes =>
    have hi := h.lt_of_fd hfd hend
    apply h.move (by simp)
    · intro j hj
      have hne : i ≠ j := by omega
      simp [hne]
    · exact fun j hj => ⟨⟨i, hpc⟩, WritePc.send.inj hj ▸ hi⟩

end ThreadInv

theorem passedBy_eq_reads {v : ThreadView} {log : List Effect} (h : ∀ j, v.thread.pc ≠ .send j) :
    passedBy k i v log = reads k log := by
  unfold passedBy
  split
  · next j hj => exact absurd hj (h j)
  · rfl

theorem passedBy_send {v : ThreadView} {log : List Effect} {j : Nat} (h : v.thread.pc = .send j) :
    passedBy k i v log = if j ≤ i then (reads k log).dropLast else reads k log := by
  simp only [passedBy, h]

theorem passedBy_past {v : ThreadView} {log : List Effect} (h : v.thread.pc = .send (i + 1)) :
    passedBy k i v log = reads k log := by
  rw [passedBy_send h, if_neg (by omega)]

/-- The pass moves on from another slot. -/
theorem passedBy_next {v v' : ThreadView} {log log' : List Effect} {j : Nat} (hne : i ≠ j)
    (h : v.thread.pc = .send j) (h' : v'.thread.pc = .send (j + 1))
    (hreads : reads k log' = reads k log) : passedBy k i v' log' = passedBy k i v log := by
  rw [passedBy_send h, passedBy_send h', hreads]
  simp only [show j + 1 ≤ i ↔ j ≤ i by omega]

theorem passedBy_prefix {v : ThreadView} {log : List Effect} :
    passedBy k i v log <+: reads k log := by
  unfold passedBy
  split
  · split_ifs
    · exact List.dropLast_prefix _
    · exact List.prefix_rfl
  · exact List.prefix_rfl

/-- The client of slot `i` got every message from number `first` on. -/
structure Live (k : Fin NUM_CLIENT_LISTS) (i : Nat) (clientFd : Int) (first : Nat) (v : ThreadView)
    (log : List Effect) : Prop where
  fd : v.clientFdArr[i]? = some clientFd
  ok : ∀ x ∈ sends k i log, x.ok = true
  messages : (sends k i log).map (·.message) = (passedBy k i v log).drop first

/-- It got them until a send failed. -/
structure Lost (k : Fin NUM_CLIENT_LISTS) (i : Nat) (first : Nat) (v : ThreadView)
    (log : List Effect) : Prop where
  fd : v.clientFdArr[i]? = some (-1)
  last : ∃ l x, sends k i log = l ++ [x] ∧ (∀ y ∈ l, y.ok = true) ∧ x.ok = false
  messages : (sends k i log).map (·.message) <+: (reads k log).drop first

/-- A slot that has its client. -/
structure Served (k : Fin NUM_CLIENT_LISTS) (i : Nat) (clientFd : Int) (first : Nat)
    (v : ThreadView) (log : List Effect) : Prop where
  first_le : first ≤ (passedBy k i v log).length
  fds : ∀ x ∈ sends k i log, x.clientFd = clientFd
  state : Live k i clientFd first v log ∨ Lost k i first v log

namespace Served

variable {v v' : ThreadView} {e : WriterEvent} {log es log' : List Effect} {clientFd : Int}
    {first : Nat}

theorem congr (h : Served k i clientFd first v log)
    (hfd : v'.clientFdArr[i]? = v.clientFdArr[i]?) (hsends : sends k i log' = sends k i log)
    (hpassed : passedBy k i v' log' = passedBy k i v log)
    (hreads : reads k log <+: reads k log') : Served k i clientFd first v' log' := by
  refine ⟨hpassed ▸ h.first_le, hsends ▸ h.fds, h.state.imp (fun hl => ?_) (fun hl => ?_)⟩
  · exact ⟨hfd.trans hl.fd, hsends ▸ hl.ok, by rw [hsends, hpassed, hl.messages]⟩
  · exact ⟨hfd.trans hl.fd, hsends ▸ hl.last, hsends ▸ hl.messages.trans (hreads.drop first)⟩

/-- A new slot gets the messages whose pass has not come to it. -/
theorem start (h : ThreadInv k v log) (hidx : v.lastClientInsertIdx < v.clientFdArr.length) :
    Served k v.lastClientInsertIdx clientFd (passedBy k v.lastClientInsertIdx v log).length
      { v with
        clientFdArr := v.clientFdArr.set v.lastClientInsertIdx clientFd
        lastClientInsertIdx := v.lastClientInsertIdx + 1 }
      (log ++ [.added k v.lastClientInsertIdx clientFd]) := by
  have hsends :
      sends k v.lastClientInsertIdx (log ++ [.added k v.lastClientInsertIdx clientFd]) = [] := by
    simpa using h.unsent _ le_rfl
  refine ⟨by simp [passedBy], by simp [hsends], .inl ⟨by simp [hidx], by simp [hsends], ?_⟩⟩
  simp [hsends, passedBy]

/-- What the slot is sent is a run of what the thread reads. -/
theorem messages_prefix (h : Served k i clientFd first v log) :
    (sends k i log).map (·.message) <+: (reads k log).drop first := by
  obtain hl | hl := h.state
  · rw [hl.messages]
    exact passedBy_prefix.drop first
  · exact hl.messages

/-- The turn of the thread at the slot itself. -/
theorem at_slot (h : Served k i clientFd first v log) (hv : ThreadInv k v log)
    (hpc : v.thread.pc = .send i) : first ≤ (reads k log).length ∧
      (reads k log).drop first = ((reads k log).dropLast.drop first) ++ [v.message] := by
  obtain ⟨l, hl⟩ := hv.sending i hpc
  have hle := h.first_le
  rw [passedBy_send hpc, if_pos le_rfl, hl, List.dropLast_concat] at hle
  rw [hl, List.dropLast_concat]
  exact ⟨by simp; omega, List.drop_append_of_le_length hle⟩

/-- A send at the slot itself continues its run. -/
theorem sendTo (h : Served k i clientFd first v log) (hv : ThreadInv k v log)
    (hpc : v.thread.pc = .send i) {fd : Int} (hfd : v.clientFdArr[i]? = some fd)
    (hlost : fd ≠ -1) :
    fd = clientFd ∧ (∀ x ∈ sends k i log, x.ok = true) ∧
      (reads k log).drop first = (sends k i log).map (·.message) ++ [v.message] := by
  obtain hl | hl := h.state
  · have hmessages := hl.messages
    rw [passedBy_send hpc, if_pos le_rfl] at hmessages
    exact ⟨Option.some.inj (hfd.symm.trans hl.fd), hl.ok,
      hmessages ▸ (h.at_slot hv hpc).2⟩
  · rw [hl.fd, Option.some_inj] at hfd
    exact absurd hfd.symm hlost

theorem step (h : Served k i clientFd first v log) (hv : ThreadInv k v log)
    (hi : i < v.lastClientInsertIdx) (hpos : 0 < clientFd) (hstep : ThreadStep k v e v' es) :
    Served k i clientFd first v' (log ++ es) := by
  cases hstep with
  | other hes =>
    refine h.congr rfl (by simp [sends_eq_nil hes]) ?_ (by simp [reads_eq_nil hes])
    simp [passedBy, reads_eq_nil hes]
  | add hroom hidx =>
    exact h.congr (by simp [List.getElem?_set_ne hi.ne']) (by simp) (by simp [passedBy]) (by simp)
  | idle hpc hnext =>
    refine h.congr rfl (by simp) ?_ (by simp)
    rw [passedBy_eq_reads hnext, passedBy_eq_reads hpc, List.append_nil]
  | @read _ node hpc hid =>
    refine h.congr rfl (by simp) ?_ (by simp)
    rw [passedBy_send rfl, passedBy_eq_reads (by simp [hpc])]
    simp
  | @passed _ j hpc hfd =>
    have hij : ¬ j ≤ i := fun hle => hv.used j (lt_of_le_of_lt hle hi) hfd
    refine h.congr rfl (by simp) ?_ (by simp)
    rw [passedBy_eq_reads (by simp), passedBy_send hpc, if_neg hij, List.append_nil]
  | @lost _ j hpc hfd =>
    obtain rfl | hne := eq_or_ne i j
    · obtain hl | hl := h.state
      · rw [hl.fd, Option.some_inj] at hfd
        omega
      · rw [List.append_nil]
        refine ⟨?_, h.fds, .inr ⟨hl.fd, hl.last, hl.messages⟩⟩
        rw [passedBy_past rfl]
        exact (h.at_slot hv hpc).1
    · exact h.congr rfl (by simp) (passedBy_next hne hpc rfl (by simp)) (by simp)
  | @fail _ fd j hpc hfd hend hlost hbytes =>
    obtain rfl | hne := eq_or_ne i j
    · obtain ⟨rfl, hok, hrun⟩ := h.sendTo hv hpc hfd hlost
      refine ⟨?_, ?_, .inr ⟨by simp [(List.getElem?_eq_some_iff.mp hfd).1], ?_, ?_⟩⟩
      · rw [passedBy_past rfl]
        simpa using (h.at_slot hv hpc).1
      · simpa [or_imp, forall_and] using h.fds
      · exact ⟨sends k i log, ⟨k, i, fd, v.message, false⟩, by simp, hok, rfl⟩
      · simp [hrun]
    · exact h.congr (by simp [List.getElem?_set_ne hne.symm]) (by simp [hne.symm])
        (passedBy_next hne hpc rfl (by simp)) (by simp)
  | @sent _ fd j hpc hfd hend hlost hbytes =>
    obtain rfl | hne := eq_or_ne i j
    · obtain ⟨rfl, hok, hrun⟩ := h.sendTo hv hpc hfd hlost
      refine ⟨?_, ?_, .inl ⟨hfd, ?_, ?_⟩⟩
      · rw [passedBy_past rfl]
        simpa using (h.at_slot hv hpc).1
      · simpa [or_imp, forall_and] using h.fds
      · simpa [or_imp, forall_and] using hok
      · rw [passedBy_past rfl]
        simp [hrun]
    · exact h.congr rfl (by simp [hne.symm]) (passedBy_next hne hpc rfl (by simp)) (by simp)

end Served

theorem length_reads_le {v : ThreadView} {log : List Effect} :
    (passedBy k i v log).length ≤ (reads k log).length ∧
      (reads k log).length ≤ (passedBy k i v log).length + 1 := by
  unfold passedBy
  split
  · split_ifs
    · simp only [List.length_dropLast]
      omega
    · simp
  · simp

/-- Only `client_writer_add_client` gives out slots and puts descriptors into the array. -/
theorem ThreadStep.keep {v v' : ThreadView} {e : WriterEvent} {es : List Effect}
    (h : ThreadStep k v e v' es) (he : ∀ clientFd, e ≠ .addClient clientFd) :
    v'.lastClientInsertIdx = v.lastClientInsertIdx ∧ ∀ (i : Nat) (clientFd : Int), clientFd ≠ -1 →
      v'.clientFdArr[i]? = some clientFd → v.clientFdArr[i]? = some clientFd := by
  cases h with
  | add => exact absurd rfl (he _)
  | @fail _ fd j hpc hfd hend hlost hbytes =>
    refine ⟨rfl, fun i clientFd hne hi => ?_⟩
    obtain rfl | hij := eq_or_ne i j
    · rw [List.getElem?_set_self (List.getElem?_eq_some_iff.mp hfd).1, Option.some_inj] at hi
      exact absurd hi.symm hne
    · rwa [List.getElem?_set_ne hij.symm] at hi
  | _ => exact ⟨rfl, fun i clientFd _ hi => hi⟩

/-- A thread sends to the descriptors in the array of its list. -/
theorem ThreadStep.of_sent {v v' : ThreadView} {e : WriterEvent} {es : List Effect} {x : Send}
    (h : ThreadStep x.clm v e v' es) (hx : .sent x ∈ es) :
    v.clientFdArr[x.slot]? = some x.clientFd ∧ x.clientFd ≠ 0 ∧ x.clientFd ≠ -1 := by
  generalize hk : x.clm = k at h
  cases h with
  | other hnot => exact absurd hk (hnot _ hx)
  | fail hpc hfd hend hlost hbytes =>
    obtain rfl := by simpa using hx
    exact ⟨hfd, hend, hlost⟩
  | sent hpc hfd hend hlost hbytes =>
    obtain rfl := by simpa using hx
    exact ⟨hfd, hend, hlost⟩
  | _ => simp at hx

/-- List `k`, its thread and every slot that was given out. -/
structure ListInv (k : Fin NUM_CLIENT_LISTS) (s : Broadcast) : Prop where
  thread : ThreadInv k (s.writer.view k) s.log
  added : ∀ i < (s.writer.view k).lastClientInsertIdx, ∃ clientFd, .added k i clientFd ∈ s.log
  served : ∀ before i clientFd after, s.log = before ++ .added k i clientFd :: after →
    0 < clientFd ∧ i < (s.writer.view k).lastClientInsertIdx ∧ sends k i before = [] ∧
      ∃ first ≤ (reads k before).length, (reads k before).length ≤ first + 1 ∧
        Served k i clientFd first (s.writer.view k) s.log

/-- An element of a list that grew is an old or a new one. -/
theorem split_append {α : Type*} {l es before after : List α} {x : α}
    (h : l ++ es = before ++ x :: after) :
    (∃ after', l = before ++ x :: after') ∨ ∃ before', before = l ++ before' ∧
      es = before' ++ x :: after := by
  obtain ⟨m, rfl, hm⟩ | ⟨m, rfl, hm⟩ := List.append_eq_append_iff.mp h
  · exact .inr ⟨m, rfl, hm⟩
  · cases m with
    | nil => exact .inr ⟨[], by simp, by simpa using hm.symm⟩
    | cons y m =>
      obtain ⟨rfl, -⟩ := List.cons.inj hm
      exact .inl ⟨m, rfl⟩

theorem ThreadStep.idx_cases {v v' : ThreadView} {e : WriterEvent} {es : List Effect}
    (h : ThreadStep k v e v' es) : v'.lastClientInsertIdx = v.lastClientInsertIdx ∨
      v'.lastClientInsertIdx = v.lastClientInsertIdx + 1 ∧
        ∃ clientFd, .added k v.lastClientInsertIdx clientFd ∈ es := by
  cases h with
  | add hroom hidx => exact .inr ⟨rfl, _, List.mem_singleton_self _⟩
  | _ => exact .inl rfl

theorem ThreadStep.of_added {v v' : ThreadView} {e : WriterEvent} {before after : List Effect}
    {clientFd : Int} (h : ThreadStep k v e v' (before ++ .added k i clientFd :: after)) :
    before = [] ∧ after = [] ∧ e = .addClient clientFd ∧ i = v.lastClientInsertIdx ∧
      i < v.clientFdArr.length ∧ v' = { v with
        clientFdArr := v.clientFdArr.set i clientFd, lastClientInsertIdx := i + 1 } := by
  generalize hes : before ++ Effect.added k i clientFd :: after = es at h
  have hmem : Effect.added k i clientFd ∈ es := by simp [← hes]
  cases h with
  | other hnot => exact absurd rfl (hnot _ hmem)
  | add hroom hidx =>
    obtain ⟨rfl, ⟨rfl, rfl⟩, rfl⟩ := by simpa [List.append_eq_singleton_iff] using hes
    exact ⟨rfl, rfl, rfl, rfl, hidx, rfl⟩
  | _ => simp at hmem

namespace ListInv

variable {s t : Broadcast} {e : WriterEvent}

theorem init (k : Fin NUM_CLIENT_LISTS) (n : Nat) : ListInv k ⟨clientWriterInit n, []⟩ where
  thread := .init k n
  added i hi := absurd hi (Nat.not_lt_zero i)
  served before i clientFd after h := by simp at h

theorem step (h : ListInv k s) (hpos : ∀ clientFd, e = .addClient clientFd → 0 < clientFd)
    (hstep : s.next e = some t) : ListInv k t := by
  obtain ⟨es, hw, hlog⟩ := Broadcast.next_cases hstep
  have hview := hw.view k
  refine ⟨hlog ▸ h.thread.step hpos hview, fun i hi => ?_, fun before i clientFd after hsplit => ?_⟩
  · obtain heq | ⟨heq, clientFd, hmem⟩ := hview.idx_cases
    · obtain ⟨clientFd, hmem⟩ := h.added i (heq ▸ hi)
      exact ⟨clientFd, by simp [hlog, hmem]⟩
    · obtain rfl | hlt := Nat.eq_or_lt_of_le (Nat.le_of_lt_succ (heq ▸ hi))
      · exact ⟨clientFd, by simp [hlog, hmem]⟩
      · obtain ⟨clientFd, hmem⟩ := h.added i hlt
        exact ⟨clientFd, by simp [hlog, hmem]⟩
  rw [hlog] at hsplit ⊢
  obtain ⟨after', hold⟩ | ⟨before', rfl, rfl⟩ := split_append hsplit
  · obtain ⟨hfd, hi, hbefore, first, hle, hge, hserved⟩ := h.served before i clientFd after' hold
    refine ⟨hfd, ?_, hbefore, first, hle, hge, hserved.step h.thread hi hfd hview⟩
    obtain heq | ⟨heq, -⟩ := hview.idx_cases <;> omega
  · obtain ⟨rfl, rfl, rfl, rfl, hidx, hv⟩ := hview.of_added
    rw [hv, List.nil_append, List.append_nil]
    exact ⟨hpos _ rfl, Nat.lt_succ_self _, h.thread.unsent _ le_rfl, _, length_reads_le.1,
      length_reads_le.2, .start h.thread hidx⟩

/-- A slot that was given out is served. -/
theorem served_of_lt (h : ListInv k s) (hi : i < (s.writer.view k).lastClientInsertIdx) :
    ∃ clientFd first, Served k i clientFd first (s.writer.view k) s.log := by
  obtain ⟨clientFd, hmem⟩ := h.added i hi
  obtain ⟨before, after, hsplit⟩ := List.append_of_mem hmem
  obtain ⟨-, -, -, first, -, -, hserved⟩ := h.served before i clientFd after hsplit
  exact ⟨clientFd, first, hserved⟩

theorem nodup_messages (h : ListInv k s) (i : Nat) :
    ((sends k i s.log).map (·.message)).Nodup := by
  obtain hi | hi := lt_or_ge i (s.writer.view k).lastClientInsertIdx
  · obtain ⟨clientFd, first, hserved⟩ := h.served_of_lt hi
    have hnodup : (reads k s.log).Nodup := h.thread.sorted.imp fun hlt heq => by simp [heq] at hlt
    exact hnodup.sublist (hserved.messages_prefix.sublist.trans (List.drop_sublist _ _))
  · simp [h.thread.unsent i hi]

/-- A thread that has not exited can take its turn where its read stays in the queue. -/
theorem turn_isSome (h : ListInv k s)
    (hread : wrap s.writer.dataQueueSize (s.writer.clm k).lastDataReadIdx <
      s.writer.dataQueue.length ∨ (s.writer.thread k).pc ≠ .read)
    (hpc : (s.writer.thread k).pc ≠ .exited) (bytes : Int) :
    (writerStep s.writer (.turn k bytes)).isSome := by
  cases hpc' : (s.writer.thread k).pc with
  | sleep => simp [writerStep, clientWriteThread, hpc']
  | read =>
    obtain hidx | hne := hread
    · simp [writerStep, clientWriteThread, hpc', hidx]
    · exact absurd hpc' hne
  | send i =>
    have hidx : i < (s.writer.clm k).clientFdArr.length := by
      have hlen := h.thread.length
      have hplace := (h.thread.place i hpc').trans h.thread.idx_le
      simp only [ClientWriter.view] at hlen hplace
      omega
    simp [writerStep, clientWriteThread, hpc', hidx]
  | exited => exact absurd hpc' hpc

end ListInv

end TradeServer
