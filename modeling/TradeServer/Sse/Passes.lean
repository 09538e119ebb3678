import TradeServer.Library.Progress
import TradeServer.Sse.ClientLists

/-!
# The passes of a write thread

Between two sleeps a thread makes one pass over its clients for every message that it reads.
Each read uses up a slot of the queue that was new to the thread, so the turns up to the next
sleep are bounded, and a message that is queued meanwhile costs one more pass at most.
-/

namespace TradeServer

open Library

variable {w w' : ClientWriter} {k : Fin NUM_CLIENT_LISTS} {e : WriterEvent} {es : List Effect}
  {bytes : Int} {a : Nat}

/-- The messages with a higher id than the last one of the thread. -/
def WriteThread.newTo (t : WriteThread) (slots : List ClientDataNode) : Nat :=
  slots.countP (t.lastDataId < ·.id)

/-- The turns of one read and the pass after it, with the turn at the end of the list. -/
def PASS_TURNS : Nat := NUM_CLIENTS_PER_LIST + 2

/-- The turns that a thread can take with a read for each message of `slots` that is new to it;
`asleep` is their number when it sleeps. -/
def WriteThread.turnsLeft (t : WriteThread) (slots : List ClientDataNode) (asleep : Nat) : Nat :=
  match t.pc with
  | .exited => 0
  | .sleep => asleep
  | .read => 2 + PASS_TURNS * t.newTo slots
  | .send i => 2 + PASS_TURNS * t.newTo slots + (NUM_CLIENTS_PER_LIST + 1 - i)

def WriterEvent.isQueueData : WriterEvent → Bool
  | .queueData _ _ => true
  | _ => false

def WriterEvent.isTurn (k : Fin NUM_CLIENT_LISTS) : WriterEvent → Bool
  | .turn j _ => j = k
  | _ => false

namespace WriteThread

variable {v v' : WriteThread} {slots : List ClientDataNode} {d node : ClientDataNode}

theorem newTo_le : v.newTo slots ≤ slots.length := List.countP_le_length

/-- A read uses up the messages up to the one that it takes. -/
theorem newTo_lt (hd : d ∈ slots) (hnew : v.lastDataId < d.id) (hle : d.id ≤ v'.lastDataId) :
    v'.newTo slots < v.newTo slots := by
  apply countP_lt_countP _ hd
  · simpa using hnew
  · simpa using hle
  · intro m _ hm
    exact decide_eq_true ((hnew.trans_le hle).trans (of_decide_eq_true hm))

theorem turnsLeft_le (ha : a ≤ 3 + PASS_TURNS * slots.length) :
    v.turnsLeft slots a ≤ 2 + PASS_TURNS * (slots.length + 1) := by
  have hnew := Nat.mul_le_mul_left PASS_TURNS (@newTo_le v slots)
  unfold turnsLeft
  split <;> simp only [PASS_TURNS, NUM_CLIENTS_PER_LIST] at hnew ha ⊢ <;> omega

end WriteThread

/-- What a step means for the passes of thread `k`. -/
inductive PassStep (k : Fin NUM_CLIENT_LISTS) (w w' : ClientWriter) : WriterEvent → Prop where
  | other {e : WriterEvent} (he : e.isTurn k = false) (hthread : w'.thread k = w.thread k) :
      PassStep k w w' e
  | wake {bytes : Int} (hpc : (w.thread k).pc = .sleep)
      (hid : (w'.thread k).lastDataId = (w.thread k).lastDataId)
      (hnext : (w'.thread k).pc = if (w.clm k).stop then .exited else .read) :
      PassStep k w w' (.turn k bytes)
  | skip {bytes : Int} {node : ClientDataNode} (hpc : (w.thread k).pc = .read)
      (hnode : w.dataQueue[wrap w.dataQueueSize (w.clm k).lastDataReadIdx]? = some node)
      (hid : node.id ≤ (w.thread k).lastDataId)
      (hnext : (w'.thread k).pc = .sleep) : PassStep k w w' (.turn k bytes)
  | read {bytes : Int} {node : ClientDataNode} (hpc : (w.thread k).pc = .read)
      (hnode : w.dataQueue[wrap w.dataQueueSize (w.clm k).lastDataReadIdx]? = some node)
      (hid : (w.thread k).lastDataId < node.id) (hlast : (w'.thread k).lastDataId = node.id)
      (hnext : (w'.thread k).pc = .send 0) : PassStep k w w' (.turn k bytes)
  | send {bytes : Int} {i : Nat} (hpc : (w.thread k).pc = .send i) (hi : i ≤ NUM_CLIENTS_PER_LIST)
      (hid : (w'.thread k).lastDataId = (w.thread k).lastDataId)
      (hnext : (w'.thread k).pc = .send (i + 1) ∨ (w'.thread k).pc = .read) :
      PassStep k w w' (.turn k bytes)

/-- A thread that wakes has a turn less than it had asleep. -/
theorem WriteThread.turnsLeft_wake {v v' : WriteThread} (hpc : v.pc = .sleep)
    (hnext : v'.pc = .read) (hid : v'.lastDataId = v.lastDataId) (slots : List ClientDataNode)
    (b : Nat) :
    v'.turnsLeft slots b < v.turnsLeft slots (3 + PASS_TURNS * v.newTo slots) := by
  have hnew : v'.newTo slots = v.newTo slots := by rw [newTo, newTo, hid]
  simp only [turnsLeft, hpc, hnext, hnew]
  omega

/-- A read of a message that is not before one of the slots takes a turn and a pass off. -/
theorem WriteThread.turnsLeft_read {v v' : WriteThread} {slots : List ClientDataNode}
    {d : ClientDataNode} (hpc : v.pc = .read) (hnext : v'.pc = .send 0) (hd : d ∈ slots)
    (hnew : v.lastDataId < d.id) (hle : d.id ≤ v'.lastDataId) (b : Nat) :
    v'.turnsLeft slots b < v.turnsLeft slots a := by
  have hpass := Nat.mul_le_mul_left PASS_TURNS (Nat.succ_le_of_lt (newTo_lt hd hnew hle))
  simp only [turnsLeft, hpc, hnext]
  simp only [PASS_TURNS, NUM_CLIENTS_PER_LIST] at hpass ⊢
  omega

/-- The thread goes on to the next client, or is done with the message. -/
theorem WriteThread.turnsLeft_send {v v' : WriteThread} {i : Nat} (hpc : v.pc = .send i)
    (hi : i ≤ NUM_CLIENTS_PER_LIST) (hid : v'.lastDataId = v.lastDataId)
    (hnext : v'.pc = .send (i + 1) ∨ v'.pc = .read) (slots : List ClientDataNode) (b : Nat) :
    v'.turnsLeft slots b < v.turnsLeft slots a := by
  have hnew : v'.newTo slots = v.newTo slots := by rw [newTo, newTo, hid]
  obtain hnext | hnext := hnext
  · simp only [turnsLeft, hpc, hnext, hnew]
    omega
  · simp only [turnsLeft, hpc, hnext, hnew]
    omega

theorem WriterStep.dataQueue (h : WriterStep w e w' es) (he : e.isQueueData = false) :
    w'.dataQueue = w.dataQueue := by
  cases h with
  | queueData => simp [WriterEvent.isQueueData] at he
  | _ => rfl

theorem WriterStep.other (h : WriterStep w e w' es) (he : e.isTurn k = false) :
    w'.thread k = w.thread k := by
  cases h <;> simp_all [WriterEvent.isTurn, clientWriterStop, Function.update_of_ne, eq_comm]

/-- A queued message is written to one slot. -/
theorem WriterStep.newTo_le (h : WriterStep w e w' es) (t : WriteThread) :
    t.newTo w'.dataQueue ≤ t.newTo w.dataQueue + if e.isQueueData then 1 else 0 := by
  cases he : e.isQueueData with
  | false =>
    rw [h.dataQueue he]
    exact Nat.le_add_right _ _
  | true =>
    cases h with
    | queueData => exact countP_set_le
    | _ => simp [WriterEvent.isQueueData] at he

theorem clientWriteThread_wake (h : clientWriteThread w k bytes = some (w', es))
    (hpc : (w.thread k).pc = .sleep) : (w'.thread k).lastDataId = (w.thread k).lastDataId ∧
      (w'.thread k).pc = if (w.clm k).stop then .exited else .read := by
  simp only [clientWriteThread, hpc] at h
  obtain ⟨rfl, -⟩ := Prod.mk.inj (Option.some.inj h)
  exact ⟨by simp, by simp⟩

theorem passStep (h : writerStep w e = some (w', es))
    (hlen : (w.clm k).clientFdArr.length = NUM_CLIENTS_PER_LIST + 1) : PassStep k w w' e := by
  have hcases := writerStep_cases h
  cases he : e.isTurn k with
  | false => exact .other he (hcases.other he)
  | true =>
    have hslot : ∀ {i : Nat} {clientFd : Int}, (w.clm k).clientFdArr[i]? = some clientFd →
        i ≤ NUM_CLIENTS_PER_LIST := by
      intro i clientFd hfd
      have := (List.getElem?_eq_some_iff.mp hfd).1
      omega
    cases hcases with
    | wake hpc =>
      obtain rfl := of_decide_eq_true he
      obtain ⟨hid, hnext⟩ := clientWriteThread_wake h hpc
      exact .wake hpc hid hnext
    | skip hpc hnode hid =>
      obtain rfl := of_decide_eq_true he
      exact .skip hpc hnode hid (by simp)
    | read hpc hnode hid =>
      obtain rfl := of_decide_eq_true he
      exact .read hpc hnode hid (by simp) (by simp)
    | passed hpc hfd =>
      obtain rfl := of_decide_eq_true he
      exact .send hpc (hslot hfd) (by simp) (by simp)
    | lost hpc hfd =>
      obtain rfl := of_decide_eq_true he
      exact .send hpc (hslot hfd) (by simp) (by simp)
    | fail hpc hfd =>
      obtain rfl := of_decide_eq_true he
      exact .send hpc (hslot hfd) (by simp) (by simp)
    | sent hpc hfd =>
      obtain rfl := of_decide_eq_true he
      exact .send hpc (hslot hfd) (by simp) (by simp)
    | _ => simp [WriterEvent.isTurn] at he

/-- Only `client_writer_stop` sets a flag. -/
theorem WriterStep.stop_eq (h : WriterStep w e w' es) (he : e ≠ .stop)
    (k : Fin NUM_CLIENT_LISTS) : (w'.clm k).stop = (w.clm k).stop := by
  cases h with
  | stop => exact absurd rfl he
  | @addClient _ _ j => obtain rfl | hj := eq_or_ne k j <;> simp_all
  | @skip j => obtain rfl | hj := eq_or_ne k j <;> simp_all
  | @read j => obtain rfl | hj := eq_or_ne k j <;> simp_all
  | @passed j => obtain rfl | hj := eq_or_ne k j <;> simp_all
  | @fail j => obtain rfl | hj := eq_or_ne k j <;> simp_all
  | _ => rfl

theorem WriterStep.exited (h : WriterStep w e w' es) (hpc : (w.thread k).pc = .exited) :
    (w'.thread k).pc = .exited := by
  cases he : e.isTurn k with
  | false => rw [h.other he, hpc]
  | true => cases h <;> simp_all [WriterEvent.isTurn]

end TradeServer
