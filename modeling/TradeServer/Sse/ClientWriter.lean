import Mathlib.Logic.Function.Basic
import TradeServer.CString
import TradeServer.Library.RingBuffer
import TradeServer.Library.System

/-!
# The client writer

Producers put messages into a queue that all write threads share. Each thread reads the
queue at its own place and sends what it reads to the clients of its list. One turn of a
thread is its locked read of the queue or its work on one client.
-/

namespace TradeServer

open Library

def MAX_DATA_SEND_LEN : Nat := 2048

abbrev NUM_CLIENT_LISTS : Nat := 3

def NUM_CLIENTS_PER_LIST : Nat := 1000

structure ClientDataNode where
  id : Nat
  data : CString
  deriving DecidableEq

structure ClientListManager where
  clientFdArr : List Int
  lastClientInsertIdx : Nat
  lastDataReadIdx : Nat
  stop : Bool

/-- Where a `client_write_thread` is: before its sleep, at the read of the queue, or at a client. -/
inductive WritePc where
  | sleep
  | read
  | send (i : Nat)
  | exited
  deriving DecidableEq

/-- The local variables of `client_write_thread`. -/
structure WriteThread where
  pc : WritePc
  lastDataId : Nat
  sendBuffer : CString

structure ClientWriter where
  clm : Fin NUM_CLIENT_LISTS → ClientListManager
  thread : Fin NUM_CLIENT_LISTS → WriteThread
  roundRobinIdx : Nat
  msgCount : Nat
  dataQueue : List ClientDataNode
  dataQueueSize : Nat
  lastDataWriteIdx : Nat

/-- A call of `send_sse_event` for a slot of a client list. -/
structure Send where
  clm : Fin NUM_CLIENT_LISTS
  slot : Nat
  clientFd : Int
  message : ClientDataNode
  ok : Bool
  deriving DecidableEq

/-- What a step shows. -/
inductive Effect where
  | queued (message : ClientDataNode)
  | added (clm : Fin NUM_CLIENT_LISTS) (slot : Nat) (clientFd : Int)
  | read (clm : Fin NUM_CLIENT_LISTS) (message : ClientDataNode)
  | sent (send : Send)
  deriving DecidableEq

namespace ClientWriter

variable {w : ClientWriter} {k : Fin NUM_CLIENT_LISTS}

def setClm (w : ClientWriter) (k : Fin NUM_CLIENT_LISTS) (clm : ClientListManager) : ClientWriter :=
  { w with clm := Function.update w.clm k clm }

def setThread (w : ClientWriter) (k : Fin NUM_CLIENT_LISTS) (t : WriteThread) : ClientWriter :=
  { w with thread := Function.update w.thread k t }

variable {c : ClientListManager} {t : WriteThread}

@[simp] theorem clm_setClm : (w.setClm k c).clm = Function.update w.clm k c := rfl

@[simp] theorem thread_setClm : (w.setClm k c).thread = w.thread := rfl

@[simp] theorem dataQueue_setClm : (w.setClm k c).dataQueue = w.dataQueue := rfl

@[simp] theorem clm_setThread : (w.setThread k t).clm = w.clm := rfl

@[simp] theorem thread_setThread : (w.setThread k t).thread = Function.update w.thread k t := rfl

@[simp] theorem dataQueue_setThread : (w.setThread k t).dataQueue = w.dataQueue := rfl

end ClientWriter

/-- `memcpy` of a buffer of `MAX_DATA_SEND_LEN` bytes, the last one set to NUL. -/
def copyData (data : CString) : CString := .ofBuffer (data.chars.take (MAX_DATA_SEND_LEN - 1))

def emptyNode : ClientDataNode := ⟨0, .ofBuffer []⟩

def clientWriterInit (dataQueueSize : Nat) : ClientWriter where
  clm _ := ⟨List.replicate (NUM_CLIENTS_PER_LIST + 1) 0, 0, 0, false⟩
  thread _ := ⟨.sleep, 0, .ofBuffer []⟩
  roundRobinIdx := 0
  msgCount := 0
  dataQueue := List.replicate dataQueueSize emptyNode
  dataQueueSize := dataQueueSize
  lastDataWriteIdx := 0

/-- The id that `client_writer_queue_data` gives a message at the time `now`. -/
def ClientWriter.nextId (w : ClientWriter) (now : Nat) : Nat :=
  (now * 10000000 + w.msgCount) % 2 ^ 64

def clientWriterQueueData (w : ClientWriter) (now : Nat) (data : CString) :
    Option (ClientWriter × List Effect) :=
  let idx := wrap w.dataQueueSize w.lastDataWriteIdx
  if idx < w.dataQueue.length then
    some ({ w with
      lastDataWriteIdx := idx + 1
      dataQueue := w.dataQueue.set idx ⟨w.nextId now, copyData data⟩
      msgCount := (w.msgCount + 1) % 2 ^ 32 }, [.queued ⟨w.nextId now, data⟩])
  else none

def clientWriterSelectManager (w : ClientWriter) : Option (ClientWriter × Fin NUM_CLIENT_LISTS) :=
  let idx := wrap NUM_CLIENT_LISTS w.roundRobinIdx
  if h : idx < NUM_CLIENT_LISTS then some ({ w with roundRobinIdx := idx + 1 }, ⟨idx, h⟩) else none

def clientWriterAddClient (w : ClientWriter) (clientFd : Int) :
    Option (ClientWriter × List Effect) :=
  (clientWriterSelectManager w).bind fun (w, k) =>
    let clm := w.clm k
    let idx := clm.lastClientInsertIdx
    if idx = NUM_CLIENTS_PER_LIST then some (w, [])
    else if idx < clm.clientFdArr.length then
      some (w.setClm k { clm with
        clientFdArr := clm.clientFdArr.set idx clientFd
        lastClientInsertIdx := idx + 1 }, [.added k idx clientFd])
    else none

/-- `bytes` is the result of `write`. -/
def sendSseEvent (data : CString) (bytes : Int) : Int := if bytes = data.length then 0 else -1

/-- The next turn of a write thread; `bytes` is the result of its `write`, if it has one. -/
def clientWriteThread (w : ClientWriter) (k : Fin NUM_CLIENT_LISTS) (bytes : Int) :
    Option (ClientWriter × List Effect) :=
  let clm := w.clm k
  let t := w.thread k
  match t.pc with
  | .sleep => some (w.setThread k { t with pc := if clm.stop then .exited else .read }, [])
  | .read =>
    let idx := wrap w.dataQueueSize clm.lastDataReadIdx
    let w := w.setClm k { clm with lastDataReadIdx := idx }
    w.dataQueue[idx]?.map fun node =>
      if node.id ≤ t.lastDataId then (w.setThread k { t with pc := .sleep }, [])
      else
        (w.setThread k ⟨.send 0, node.id, copyData node.data⟩,
          [.read k ⟨node.id, copyData node.data⟩])
  | .send i =>
    clm.clientFdArr[i]?.map fun clientFd =>
      if clientFd = 0 then
        ((w.setClm k { clm with lastDataReadIdx := clm.lastDataReadIdx + 1 }).setThread k
          { t with pc := .read }, [])
      else
        let w := w.setThread k { t with pc := .send (i + 1) }
        let message := ⟨t.lastDataId, t.sendBuffer⟩
        if clientFd = -1 then (w, [])
        else if sendSseEvent t.sendBuffer bytes < 0 then
          (w.setClm k { clm with clientFdArr := clm.clientFdArr.set i (-1) },
            [.sent ⟨k, i, clientFd, message, false⟩])
        else (w, [.sent ⟨k, i, clientFd, message, true⟩])
  | .exited => none

def clientWriterStop (w : ClientWriter) : ClientWriter :=
  { w with clm := fun k => { w.clm k with stop := true } }

inductive WriterEvent where
  | queueData (now : Nat) (data : CString)
  | addClient (clientFd : Int)
  | turn (k : Fin NUM_CLIENT_LISTS) (bytes : Int)
  | stop

def writerStep (w : ClientWriter) : WriterEvent → Option (ClientWriter × List Effect)
  | .queueData now data => clientWriterQueueData w now data
  | .addClient clientFd => clientWriterAddClient w clientFd
  | .turn k bytes => clientWriteThread w k bytes
  | .stop => some (clientWriterStop w, [])

/-- A client writer and what it has shown so far. -/
structure Broadcast where
  writer : ClientWriter
  log : List Effect

/-- A step of the writer with its effects added to the log. -/
def Broadcast.next (s : Broadcast) (e : WriterEvent) : Option Broadcast :=
  (writerStep s.writer e).map fun (w, es) => ⟨w, s.log ++ es⟩

def broadcast (dataQueueSize : Nat) : System Broadcast WriterEvent where
  init s := s = ⟨clientWriterInit dataQueueSize, []⟩
  step s e t := s.next e = some t

/-- The steps one by one. -/
inductive WriterStep (w : ClientWriter) : WriterEvent → ClientWriter → List Effect → Prop where
  | queueData {now : Nat} {data : CString}
      (hidx : wrap w.dataQueueSize w.lastDataWriteIdx < w.dataQueue.length) :
      WriterStep w (.queueData now data)
        { w with
          lastDataWriteIdx := wrap w.dataQueueSize w.lastDataWriteIdx + 1
          dataQueue := w.dataQueue.set (wrap w.dataQueueSize w.lastDataWriteIdx)
            ⟨w.nextId now, copyData data⟩
          msgCount := (w.msgCount + 1) % 2 ^ 32 }
        [.queued ⟨w.nextId now, data⟩]
  | full {clientFd : Int} {idx : Nat} (hround : idx ≤ NUM_CLIENT_LISTS) :
      WriterStep w (.addClient clientFd) { w with roundRobinIdx := idx } []
  | addClient {clientFd : Int} {idx : Nat} {k : Fin NUM_CLIENT_LISTS}
      (hround : idx ≤ NUM_CLIENT_LISTS)
      (hroom : (w.clm k).lastClientInsertIdx ≠ NUM_CLIENTS_PER_LIST)
      (hidx : (w.clm k).lastClientInsertIdx < (w.clm k).clientFdArr.length) :
      WriterStep w (.addClient clientFd)
        (({ w with roundRobinIdx := idx } : ClientWriter).setClm k { w.clm k with
          clientFdArr := (w.clm k).clientFdArr.set (w.clm k).lastClientInsertIdx clientFd
          lastClientInsertIdx := (w.clm k).lastClientInsertIdx + 1 })
        [.added k (w.clm k).lastClientInsertIdx clientFd]
  | stop : WriterStep w .stop (clientWriterStop w) []
  | wake {k : Fin NUM_CLIENT_LISTS} {bytes : Int} {pc : WritePc} (hpc : (w.thread k).pc = .sleep)
      (hnext : pc = .exited ∨ pc = .read) :
      WriterStep w (.turn k bytes) (w.setThread k { w.thread k with pc := pc }) []
  | skip {k : Fin NUM_CLIENT_LISTS} {bytes : Int} {node : ClientDataNode}
      (hpc : (w.thread k).pc = .read)
      (hnode : w.dataQueue[wrap w.dataQueueSize (w.clm k).lastDataReadIdx]? = some node)
      (hid : node.id ≤ (w.thread k).lastDataId) :
      WriterStep w (.turn k bytes)
        ((w.setClm k { w.clm k with
          lastDataReadIdx := wrap w.dataQueueSize (w.clm k).lastDataReadIdx }).setThread k
            { w.thread k with pc := .sleep }) []
  | read {k : Fin NUM_CLIENT_LISTS} {bytes : Int} {node : ClientDataNode}
      (hpc : (w.thread k).pc = .read)
      (hnode : w.dataQueue[wrap w.dataQueueSize (w.clm k).lastDataReadIdx]? = some node)
      (hid : (w.thread k).lastDataId < node.id) :
      WriterStep w (.turn k bytes)
        ((w.setClm k { w.clm k with
          lastDataReadIdx := wrap w.dataQueueSize (w.clm k).lastDataReadIdx }).setThread k
            ⟨.send 0, node.id, copyData node.data⟩)
        [.read k ⟨node.id, copyData node.data⟩]
  | passed {k : Fin NUM_CLIENT_LISTS} {bytes : Int} {i : Nat} (hpc : (w.thread k).pc = .send i)
      (hfd : (w.clm k).clientFdArr[i]? = some 0) :
      WriterStep w (.turn k bytes)
        ((w.setClm k { w.clm k with
          lastDataReadIdx := (w.clm k).lastDataReadIdx + 1 }).setThread k
            { w.thread k with pc := .read }) []
  | lost {k : Fin NUM_CLIENT_LISTS} {bytes : Int} {i : Nat} (hpc : (w.thread k).pc = .send i)
      (hfd : (w.clm k).clientFdArr[i]? = some (-1)) :
      WriterStep w (.turn k bytes) (w.setThread k { w.thread k with pc := .send (i + 1) }) []
  | fail {k : Fin NUM_CLIENT_LISTS} {bytes clientFd : Int} {i : Nat}
      (hpc : (w.thread k).pc = .send i) (hfd : (w.clm k).clientFdArr[i]? = some clientFd)
      (hend : clientFd ≠ 0) (hlost : clientFd ≠ -1)
      (hbytes : bytes ≠ (w.thread k).sendBuffer.length) :
      WriterStep w (.turn k bytes)
        ((w.setThread k { w.thread k with pc := .send (i + 1) }).setClm k
          { w.clm k with clientFdArr := (w.clm k).clientFdArr.set i (-1) })
        [.sent ⟨k, i, clientFd, ⟨(w.thread k).lastDataId, (w.thread k).sendBuffer⟩, false⟩]
  | sent {k : Fin NUM_CLIENT_LISTS} {bytes clientFd : Int} {i : Nat}
      (hpc : (w.thread k).pc = .send i) (hfd : (w.clm k).clientFdArr[i]? = some clientFd)
      (hend : clientFd ≠ 0) (hlost : clientFd ≠ -1)
      (hbytes : bytes = (w.thread k).sendBuffer.length) :
      WriterStep w (.turn k bytes) (w.setThread k { w.thread k with pc := .send (i + 1) })
        [.sent ⟨k, i, clientFd, ⟨(w.thread k).lastDataId, (w.thread k).sendBuffer⟩, true⟩]

theorem clientWriterQueueData_cases {w w' : ClientWriter} {now : Nat} {data : CString}
    {es : List Effect} (h : clientWriterQueueData w now data = some (w', es)) :
    WriterStep w (.queueData now data) w' es := by
  dsimp only [clientWriterQueueData] at h
  split_ifs at h with hidx
  obtain ⟨rfl, rfl⟩ := Prod.mk.inj (Option.some.inj h)
  exact .queueData hidx

theorem clientWriterAddClient_cases {w w' : ClientWriter} {clientFd : Int} {es : List Effect}
    (h : clientWriterAddClient w clientFd = some (w', es)) :
    WriterStep w (.addClient clientFd) w' es := by
  obtain ⟨⟨v, k⟩, hv, h⟩ := Option.bind_eq_some_iff.mp h
  dsimp only [clientWriterSelectManager] at hv
  split_ifs at hv with hround
  obtain ⟨rfl, -⟩ := Prod.mk.inj (Option.some.inj hv)
  dsimp only at h
  split_ifs at h with hfull hidx
  · obtain ⟨rfl, rfl⟩ := Prod.mk.inj (Option.some.inj h)
    exact .full hround
  · obtain ⟨rfl, rfl⟩ := Prod.mk.inj (Option.some.inj h)
    exact .addClient hround hfull hidx

theorem sendSseEvent_neg {data : CString} {bytes : Int} :
    sendSseEvent data bytes < 0 ↔ bytes ≠ data.length := by
  unfold sendSseEvent
  split_ifs with h <;> simp [h]

theorem clientWriteThread_cases {w w' : ClientWriter} {k : Fin NUM_CLIENT_LISTS} {bytes : Int}
    {es : List Effect} (h : clientWriteThread w k bytes = some (w', es)) :
    WriterStep w (.turn k bytes) w' es := by
  dsimp only [clientWriteThread] at h
  cases hpc : (w.thread k).pc with
  | sleep =>
    simp only [hpc] at h
    obtain ⟨rfl, rfl⟩ := Prod.mk.inj (Option.some.inj h)
    exact .wake hpc (by split_ifs <;> simp)
  | read =>
    simp only [hpc, Option.map_eq_some_iff] at h
    obtain ⟨node, hnode, h⟩ := h
    split_ifs at h with hid
    · obtain ⟨rfl, rfl⟩ := Prod.mk.inj h
      exact .skip hpc hnode hid
    · obtain ⟨rfl, rfl⟩ := Prod.mk.inj h
      exact .read hpc hnode (not_le.mp hid)
  | send i =>
    simp only [hpc, Option.map_eq_some_iff] at h
    obtain ⟨clientFd, hfd, h⟩ := h
    split_ifs at h with hend hlost hneg
    · obtain ⟨rfl, rfl⟩ := Prod.mk.inj h
      exact .passed hpc (hend ▸ hfd)
    · obtain ⟨rfl, rfl⟩ := Prod.mk.inj h
      exact .lost hpc (hlost ▸ hfd)
    · obtain ⟨rfl, rfl⟩ := Prod.mk.inj h
      exact .fail hpc hfd hend hlost (sendSseEvent_neg.mp hneg)
    · obtain ⟨rfl, rfl⟩ := Prod.mk.inj h
      exact .sent hpc hfd hend hlost (not_not.mp (mt sendSseEvent_neg.mpr hneg))
  | exited => simp [hpc] at h

theorem writerStep_cases {w w' : ClientWriter} {e : WriterEvent} {es : List Effect}
    (h : writerStep w e = some (w', es)) : WriterStep w e w' es := by
  cases e with
  | queueData now data => exact clientWriterQueueData_cases h
  | addClient clientFd => exact clientWriterAddClient_cases h
  | turn k bytes => exact clientWriteThread_cases h
  | stop =>
    obtain ⟨rfl, rfl⟩ := Prod.mk.inj (Option.some.inj h)
    exact .stop

theorem Broadcast.next_cases {s t : Broadcast} {e : WriterEvent} (h : s.next e = some t) :
    ∃ es, WriterStep s.writer e t.writer es ∧ t.log = s.log ++ es := by
  obtain ⟨⟨w, es⟩, hw, rfl⟩ := Option.map_eq_some_iff.mp h
  exact ⟨es, writerStep_cases hw, rfl⟩

end TradeServer
