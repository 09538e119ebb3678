import Mathlib.Data.List.Nodup
import Mathlib.Data.List.Perm.Subperm
import TradeServer.Sse.WriteThread

/-!
# Descriptors of connections

`server_thread` accepts a connection, registers its descriptor with the client writer and
closes it when the client is gone, without a word to the client lists. A descriptor that is
closed while a slot still has it goes to the next connection, which is then in two slots.
-/

namespace TradeServer

open Library

/-- A connection. The number of accepts before it tells it from others that had its descriptor. -/
structure Connection where
  fd : Nat
  serial : Nat
  deriving DecidableEq

/-- Where `server_thread` is: at `epoll_pwait`, or with a new connection before a call. -/
inductive ServerPc where
  | wait
  | nonBlocking (c : Connection)
  | epollAdd (c : Connection)
  | headers (c : Connection)
  | addClient (c : Connection)
  deriving DecidableEq

/-- A `write` to the descriptor of a slot. -/
structure Write where
  send : Send
  /-- The connection that was added to the slot, -/
  registered : Option Connection
  /-- and the open one that has the descriptor. -/
  receiver : Option Connection
  deriving DecidableEq

structure SseServer where
  broadcast : Broadcast
  pc : ServerPc
  /-- The descriptors in use that are not connections. -/
  reserved : List Nat
  conns : List Connection
  accepted : Nat
  /-- The connections of the slots of a list, in order. -/
  registered : Fin NUM_CLIENT_LISTS → List Connection
  writes : List Write

inductive ServerEvent where
  | accept
  /-- The next call for the new connection. -/
  | setup (ok : Bool)
  | addClient
  /-- An event for a connected client; `count` is the result of `read`. -/
  | data (fd : Nat) (count : Int)
  | queueData (now : Nat) (data : CString)
  | turn (k : Fin NUM_CLIENT_LISTS) (bytes : Int)

def SseServer.inUse (s : SseServer) : List Nat := s.reserved ++ s.conns.map (·.fd)

/-- The descriptor that `accept` returns. -/
def lowestUnused (used : List Nat) : Nat := ((List.range (used.length + 1)).find? (· ∉ used)).getD 0

def SseServer.close (s : SseServer) (fd : Nat) : SseServer :=
  { s with conns := s.conns.filter (·.fd ≠ fd) }

/-- After a call for the new connection, which is closed when the call fails. -/
def SseServer.proceed (s : SseServer) (c : Connection) (ok : Bool) (pc : ServerPc) : SseServer :=
  if ok then { s with pc := pc } else { s.close c.fd with pc := .wait }

/-- The connection belongs to the slot that it was added to. -/
def register (registered : Fin NUM_CLIENT_LISTS → List Connection) (c : Connection) :
    List Effect → Fin NUM_CLIENT_LISTS → List Connection
  | [.added k _ _] => Function.update registered k (registered k ++ [c])
  | _ => registered

/-- The writes of a turn. -/
def SseServer.write (s : SseServer) (es : List Effect) : List Write :=
  es.filterMap fun
    | .sent x => some ⟨x, (s.registered x.clm)[x.slot]?, s.conns.find? (·.fd = x.clientFd)⟩
    | _ => none

/-- The result of `write` in the next turn of a thread: an error when the descriptor is closed. -/
def SseServer.writeResult (s : SseServer) (k : Fin NUM_CLIENT_LISTS) (bytes : Int) : Int :=
  match (s.broadcast.writer.thread k).pc with
  | .send i =>
    if ∃ fd ∈ s.inUse, (s.broadcast.writer.clm k).clientFdArr[i]? = some (fd : Int) then bytes
    else -1
  | _ => bytes

def serverStep (s : SseServer) : ServerEvent → Option SseServer
  | .accept =>
    if s.pc = .wait then
      let c : Connection := ⟨lowestUnused s.inUse, s.accepted⟩
      some { s with conns := s.conns ++ [c], accepted := s.accepted + 1, pc := .nonBlocking c }
    else none
  | .setup ok =>
    match s.pc with
    | .nonBlocking c => some (s.proceed c ok (.epollAdd c))
    | .epollAdd c => some (s.proceed c ok (.headers c))
    | .headers c => some (s.proceed c ok (.addClient c))
    | _ => none
  | .addClient =>
    match s.pc with
    | .addClient c =>
      (writerStep s.broadcast.writer (.addClient c.fd)).map fun (w, es) =>
        { s with
          broadcast := ⟨w, s.broadcast.log ++ es⟩
          registered := register s.registered c es
          pc := .wait }
    | _ => none
  | .data fd count =>
    if s.pc = .wait ∧ fd ∈ s.conns.map (·.fd) then some (if count ≤ 0 then s.close fd else s)
    else none
  | .queueData now data =>
    (writerStep s.broadcast.writer (.queueData now data)).map fun (w, es) =>
      { s with broadcast := ⟨w, s.broadcast.log ++ es⟩ }
  | .turn k bytes =>
    (writerStep s.broadcast.writer (.turn k (s.writeResult k bytes))).map fun (w, es) =>
      { s with broadcast := ⟨w, s.broadcast.log ++ es⟩, writes := s.writes ++ s.write es }

def sseServerInit (dataQueueSize : Nat) (reserved : List Nat) : SseServer where
  broadcast := ⟨clientWriterInit dataQueueSize, []⟩
  pc := .wait
  reserved := reserved
  conns := []
  accepted := 0
  registered _ := []
  writes := []

/-- The server before its first connection. The listening socket and the epoll instance have
descriptors, so the lowest one is in use. -/
def sseServer : System SseServer ServerEvent where
  init s := ∃ dataQueueSize reserved, 0 ∈ reserved ∧ s = sseServerInit dataQueueSize reserved
  step s e t := serverStep s e = some t

/-- Slot `i` of list `k` has the descriptor. -/
def SseServer.Holds (s : SseServer) (k : Fin NUM_CLIENT_LISTS) (i fd : Nat) : Prop :=
  (s.broadcast.writer.clm k).clientFdArr[i]? = some (fd : Int)

structure OneConnection (s : SseServer) : Prop where
  one_slot : ∀ c ∈ s.conns, ∀ k i k' i', s.Holds k i c.fd → s.Holds k' i' c.fd → k = k' ∧ i = i'
  at_most_once : ∀ c, ((s.writes.filter (·.receiver = some c)).map (·.send.message)).Nodup
  /-- A pass writes to the connection of the slot, which is open. -/
  not_closed : ∀ x ∈ s.writes, ∃ c, x.registered = some c ∧ x.receiver = some c

/-- A connected client is closed only when no slot has its descriptor. -/
def ClosesUnregistered (s : SseServer) : ServerEvent → Prop
  | .data fd count => count ≤ 0 → ∀ k, (fd : Int) ∉ (s.broadcast.writer.clm k).clientFdArr
  | _ => True

theorem lowestUnused_spec (used : List Nat) :
    lowestUnused used ∉ used ∧ ∀ m < lowestUnused used, m ∈ used := by
  cases hfind : (List.range (used.length + 1)).find? (· ∉ used) with
  | none =>
    have hall : List.range (used.length + 1) ⊆ used := by
      intro m hm
      simpa using List.find?_eq_none.mp hfind m hm
    have := (List.nodup_range.subperm hall).length_le
    simp only [List.length_range] at this
    omega
  | some m =>
    rw [lowestUnused, hfind, Option.getD_some]
    obtain ⟨hm, -, hbefore⟩ := List.find?_range_eq_some.mp hfind
    exact ⟨by simpa using hm, fun j hj => by simpa using hbefore j hj⟩

theorem SseServer.mem_write {s : SseServer} {es : List Effect} {x : Write} (hx : x ∈ s.write es) :
    .sent x.send ∈ es ∧ x.registered = (s.registered x.send.clm)[x.send.slot]? ∧
      x.receiver = s.conns.find? (·.fd = x.send.clientFd) := by
  obtain ⟨e, he, hx⟩ := List.mem_filterMap.mp hx
  cases e with
  | sent y =>
    obtain rfl := Option.some.inj hx
    exact ⟨he, rfl, rfl⟩
  | _ => simp at hx

theorem SseServer.sends_write {s : SseServer} {k : Fin NUM_CLIENT_LISTS} {i : Nat}
    (es : List Effect) :
    ((s.write es).map (·.send)).filter (fun x => x.clm = k ∧ x.slot = i) = sends k i es := by
  induction es with
  | nil => rfl
  | cons e es ih =>
    cases e with
    | sent x =>
      by_cases hx : x.clm = k ∧ x.slot = i
      · simpa [write, sends, hx] using ih
      · simpa [write, sends, hx] using ih
    | _ => exact ih

/-- The connection that `server_thread` works on. -/
def ServerPc.connection : ServerPc → Option Connection
  | .wait => none
  | .nonBlocking c => some c
  | .epollAdd c => some c
  | .headers c => some c
  | .addClient c => some c

/-- The connections and the slots that have their descriptors. -/
structure ServerInv (s : SseServer) : Prop where
  zero : 0 ∈ s.reserved
  list : ∀ k, ListInv k s.broadcast
  nodup : (s.conns.map (·.fd)).Nodup
  reserved : ∀ c ∈ s.conns, c.fd ∉ s.reserved
  pc : ∀ c, s.pc.connection = some c →
    c ∈ s.conns ∧ c.serial < s.accepted ∧ ∀ k, c ∉ s.registered k
  serial : ∀ k, ∀ c ∈ s.registered k, c.serial < s.accepted
  length : ∀ k, (s.registered k).length = (s.broadcast.writer.view k).lastClientInsertIdx
  slot : ∀ k (i : Nat) (clientFd : Int),
    (s.broadcast.writer.view k).clientFdArr[i]? = some clientFd →
    clientFd ≠ 0 → clientFd ≠ -1 →
      ∃ c ∈ s.conns, (s.registered k)[i]? = some c ∧ (c.fd : Int) = clientFd
  unique : ∀ k (i : Nat) k' (i' : Nat) c,
    (s.registered k)[i]? = some c → (s.registered k')[i']? = some c →
    k = k' ∧ i = i'
  sends : ∀ k i, (s.writes.map (·.send)).filter (fun x => x.clm = k ∧ x.slot = i) =
    sends k i s.broadcast.log
  writes : ∀ x ∈ s.writes, ∃ c, x.registered = some c ∧ x.receiver = some c ∧
    (s.registered x.send.clm)[x.send.slot]? = some c

namespace ServerInv

variable {s t : SseServer} {e : ServerEvent}

theorem init (n : Nat) {reserved : List Nat} (h : 0 ∈ reserved) :
    ServerInv (sseServerInit n reserved) where
  zero := h
  list k := .init k n
  nodup := List.nodup_nil
  reserved c hc := by simp [sseServerInit] at hc
  pc c hc := by simp [sseServerInit, ServerPc.connection] at hc
  serial k c hc := by simp [sseServerInit] at hc
  length k := rfl
  slot k i clientFd hfd hend := by
    obtain rfl := List.eq_of_mem_replicate (List.mem_of_getElem? hfd)
    exact absurd rfl hend
  unique k i k' i' c hc := by simp [sseServerInit] at hc
  sends k i := rfl
  writes x hx := by simp [sseServerInit] at hx

theorem eq_of_fd (h : ServerInv s) {c c' : Connection} (hc : c ∈ s.conns) (hc' : c' ∈ s.conns)
    (heq : c.fd = c'.fd) : c = c' :=
  List.inj_on_of_nodup_map h.nodup hc hc' heq

theorem fd_pos (h : ServerInv s) {c : Connection} (hc : c ∈ s.conns) : 0 < (c.fd : Int) := by
  have := ne_of_mem_of_not_mem h.zero (h.reserved c hc)
  omega

/-- The connection that is registered in a slot with its descriptor. -/
theorem of_holds (h : ServerInv s) {c : Connection} (hc : c ∈ s.conns) {k : Fin NUM_CLIENT_LISTS}
    {i : Nat} (hi : s.Holds k i c.fd) : (s.registered k)[i]? = some c := by
  have hend := h.fd_pos hc
  obtain ⟨c', hc', hreg, hfd⟩ := h.slot k i c.fd hi (by omega) (by omega)
  rwa [h.eq_of_fd hc hc' (by omega)]

theorem oneConnection (h : ServerInv s) : OneConnection s where
  one_slot c hc k i k' i' hi hi' := h.unique k i k' i' c (h.of_holds hc hi) (h.of_holds hc hi')
  at_most_once c := by
    -- all writes to the connection come from the slot of the first one
    cases hL : s.writes.filter (·.receiver = some c) with
    | nil => simp
    | cons y L =>
      have hslot : ∀ x ∈ s.writes, x.receiver = some c →
          (s.registered x.send.clm)[x.send.slot]? = some c := by
        intro x hx hrec
        obtain ⟨c', -, hrec', hreg⟩ := h.writes x hx
        rwa [Option.some.inj (hrec.symm.trans hrec')]
      obtain ⟨hy, hrec⟩ : y ∈ s.writes ∧ y.receiver = some c := by
        have hmem : y ∈ s.writes.filter (·.receiver = some c) := by simp [hL]
        simpa using hmem
      have hsub : (s.writes.filter (·.receiver = some c)).Sublist
          (s.writes.filter fun x => x.send.clm = y.send.clm ∧ x.send.slot = y.send.slot) := by
        have heq : s.writes.filter (·.receiver = some c) =
            (s.writes.filter fun x => x.send.clm = y.send.clm ∧ x.send.slot = y.send.slot).filter
              (·.receiver = some c) := by
          rw [List.filter_filter]
          apply List.filter_congr
          intro x hx
          by_cases hrec' : x.receiver = some c
          · simp [hrec', h.unique _ _ _ _ c (hslot x hx hrec') (hslot y hy hrec)]
          · simp [hrec']
        rw [heq]
        exact List.filter_sublist
      rw [← hL]
      refine List.Nodup.sublist (hsub.map _) ?_
      have := (h.list y.send.clm).nodup_messages y.send.slot
      rw [← h.sends, List.filter_map, List.map_map] at this
      exact this
  not_closed x hx := by
    obtain ⟨c, hreg, hrec, -⟩ := h.writes x hx
    exact ⟨c, hreg, hrec⟩

/-- A step of `server_thread` that leaves the client writer. -/
theorem with_conns (h : ServerInv s) {conns : List Connection} {pc : ServerPc} {accepted : Nat}
    (hnodup : (conns.map (·.fd)).Nodup) (hreserved : ∀ c ∈ conns, c.fd ∉ s.reserved)
    (hle : s.accepted ≤ accepted)
    (hpc : ∀ c, pc.connection = some c → c ∈ conns ∧ c.serial < accepted ∧
      ∀ k, c ∉ s.registered k)
    (hkeep : ∀ k (i : Nat), ∀ c ∈ s.conns, s.Holds k i c.fd → (s.registered k)[i]? = some c →
      c ∈ conns) :
    ServerInv { s with conns := conns, pc := pc, accepted := accepted } where
  zero := h.zero
  list := h.list
  nodup := hnodup
  reserved := hreserved
  pc := hpc
  serial k c hc := (h.serial k c hc).trans_le hle
  length := h.length
  slot k i clientFd hfd hend hlost := by
    obtain ⟨c, hc, hreg, rfl⟩ := h.slot k i clientFd hfd hend hlost
    exact ⟨c, hkeep k i c hc hfd hreg, hreg, rfl⟩
  unique := h.unique
  sends := h.sends
  writes := h.writes

theorem accept (h : ServerInv s) (hstep : serverStep s .accept = some t) : ServerInv t := by
  dsimp only [serverStep] at hstep
  split_ifs at hstep with hpc
  obtain rfl := Option.some.inj hstep
  have hnew : lowestUnused s.inUse ∉ s.reserved ∧ lowestUnused s.inUse ∉ s.conns.map (·.fd) :=
    not_or.mp fun hmem => (lowestUnused_spec s.inUse).1 (List.mem_append.mpr hmem)
  refine h.with_conns ?_ (fun c hc => ?_) (Nat.le_succ _) (fun c hc => ?_)
    (fun k i c hc _ _ => List.mem_append_left _ hc)
  · rw [List.map_append]
    refine List.nodup_append.mpr ⟨h.nodup, List.nodup_singleton _, fun fd hfd fd' hfd' heq => ?_⟩
    have hfd' : fd' = lowestUnused s.inUse := by simpa using hfd'
    exact hnew.2 (hfd' ▸ heq ▸ hfd)
  · obtain hc | rfl := by simpa using hc
    · exact h.reserved c hc
    · exact hnew.1
  · obtain rfl : _ = c := Option.some.inj hc
    refine ⟨by simp, Nat.lt_succ_self _, fun k hmem => ?_⟩
    exact Nat.lt_irrefl _ (h.serial k _ hmem)

/-- The connection in setup is in no slot, so it can be closed. -/
theorem proceed (h : ServerInv s) {c : Connection} (hpc : s.pc.connection = some c) (ok : Bool)
    {pc : ServerPc} (hnext : pc.connection = some c) : ServerInv (s.proceed c ok pc) := by
  obtain ⟨hc, hserial, hnot⟩ := h.pc c hpc
  cases ok with
  | true =>
    refine h.with_conns h.nodup h.reserved le_rfl (fun c' hc' => ?_) (fun k i c hc _ _ => hc)
    obtain rfl := Option.some.inj (hnext.symm.trans hc')
    exact h.pc c hpc
  | false =>
    refine h.with_conns (h.nodup.sublist (List.filter_sublist.map _))
      (fun c' hc' => h.reserved c' (List.mem_of_mem_filter hc')) le_rfl
      (by simp [ServerPc.connection])
      (fun k i c' hc' _ hreg => ?_)
    refine List.mem_filter.mpr ⟨hc', ?_⟩
    have hne : c' ≠ c := fun heq => hnot k (heq ▸ List.mem_of_getElem? hreg)
    simpa using fun heq => hne (h.eq_of_fd hc' hc heq)

theorem data (h : ServerInv s) {fd : Nat} {count : Int}
    (hok : ClosesUnregistered s (.data fd count))
    (hstep : serverStep s (.data fd count) = some t) : ServerInv t := by
  dsimp only [serverStep] at hstep
  split_ifs at hstep with hpc hcount
  · obtain rfl := Option.some.inj hstep
    refine h.with_conns (h.nodup.sublist (List.filter_sublist.map _))
      (fun c hc => h.reserved c (List.mem_of_mem_filter hc)) le_rfl
      (by simp [hpc.1, ServerPc.connection])
      (fun k i c hc hi _ => List.mem_filter.mpr ⟨hc, ?_⟩)
    have hne : c.fd ≠ fd := fun heq => hok hcount k (heq ▸ List.mem_of_getElem? hi)
    simpa using hne
  · obtain rfl := Option.some.inj hstep
    exact h

theorem find_fd (h : ServerInv s) {c : Connection} (hc : c ∈ s.conns) :
    s.conns.find? (fun c' => (c'.fd : Int) = c.fd) = some c := by
  cases hfind : s.conns.find? (fun c' => (c'.fd : Int) = c.fd) with
  | none => simpa using List.find?_eq_none.mp hfind c hc
  | some c' =>
    have heq : (c'.fd : Int) = c.fd := by simpa using List.find?_some hfind
    rw [h.eq_of_fd (List.mem_of_find?_eq_some hfind) hc (by omega)]

/-- A step of a producer or of a write thread. -/
theorem with_writer (h : ServerInv s) {e : WriterEvent} {w : ClientWriter} {es : List Effect}
    (hw : writerStep s.broadcast.writer e = some (w, es))
    (he : ∀ clientFd, e ≠ .addClient clientFd) :
    ServerInv { s with
      broadcast := ⟨w, s.broadcast.log ++ es⟩, writes := s.writes ++ s.write es } where
  zero := h.zero
  list k := (h.list k).step (fun clientFd heq => absurd heq (he clientFd))
    (by rw [Broadcast.next, hw, Option.map_some])
  nodup := h.nodup
  reserved := h.reserved
  pc := h.pc
  serial := h.serial
  length k := (h.length k).trans (((writerStep_cases hw).view k).keep he).1.symm
  slot k i clientFd hfd hend hlost :=
    h.slot k i clientFd ((((writerStep_cases hw).view k).keep he).2 i clientFd hlost hfd) hend hlost
  unique := h.unique
  sends k i := by
    rw [List.map_append, List.filter_append, h.sends, SseServer.sends_write, sends_append]
  writes x hx := by
    obtain hx | hx := List.mem_append.mp hx
    · exact h.writes x hx
    · obtain ⟨hsent, hreg, hrec⟩ := SseServer.mem_write hx
      obtain ⟨hfd, hend, hlost⟩ := ((writerStep_cases hw).view x.send.clm).of_sent hsent
      obtain ⟨c, hc, hslot, heq⟩ := h.slot _ _ _ hfd hend hlost
      rw [← heq, h.find_fd hc] at hrec
      exact ⟨c, hreg.trans hslot, hrec, hslot⟩

/-- A registration adds the connection behind those of its list. -/
theorem getElem?_update {registered : Fin NUM_CLIENT_LISTS → List Connection}
    {j k : Fin NUM_CLIENT_LISTS} {i : Nat} {c c' : Connection} :
    (Function.update registered j (registered j ++ [c]) k)[i]? = some c' ↔
      (registered k)[i]? = some c' ∨ k = j ∧ i = (registered j).length ∧ c = c' := by
  obtain rfl | hk := eq_or_ne k j
  · rw [Function.update_self]
    obtain hi | rfl | hi := lt_trichotomy i (registered k).length
    · simp [List.getElem?_append_left hi, hi.ne]
    · simp
    · have hnone : (registered k ++ [c])[i]? = none := by simp; omega
      simp [hnone, hi.ne', List.getElem?_eq_none hi.le]
  · simp [hk]

theorem addClient (h : ServerInv s) (hstep : serverStep s .addClient = some t) : ServerInv t := by
  cases hpc : s.pc with
  | addClient c =>
    obtain ⟨hc, hserial, hnot⟩ := h.pc c (by rw [hpc]; rfl)
    simp only [serverStep, hpc, Option.map_eq_some_iff] at hstep
    obtain ⟨⟨w, es⟩, hw, rfl⟩ := hstep
    have hlist : ∀ k, ListInv k ⟨w, s.broadcast.log ++ es⟩ := fun k =>
      (h.list k).step (fun clientFd heq => WriterEvent.addClient.inj heq ▸ h.fd_pos hc)
        (by rw [Broadcast.next, hw, Option.map_some])
    cases writerStep_cases hw with
    | full =>
      exact ⟨h.zero, hlist, h.nodup, h.reserved, by simp [ServerPc.connection], h.serial, h.length,
        h.slot, h.unique, fun k i => by simpa using h.sends k i, h.writes⟩
    | @addClient _ _ j _ hroom hidx =>
      have hlen : (s.registered j).length = (s.broadcast.writer.clm j).lastClientInsertIdx :=
        h.length j
      refine ⟨h.zero, hlist, h.nodup, h.reserved, by simp [ServerPc.connection],
        ?_, ?_, ?_, ?_, ?_, ?_⟩
      · intro k c' hc'
        obtain ⟨i, hi⟩ := List.mem_iff_getElem?.mp hc'
        obtain hold | ⟨-, -, rfl⟩ := getElem?_update.mp hi
        · exact h.serial k c' (List.mem_of_getElem? hold)
        · exact hserial
      · intro k
        obtain rfl | hk := eq_or_ne k j
        · simp [register, hlen]
        · simpa [register, hk, ClientWriter.view] using h.length k
      · intro k i clientFd hfd hend hlost
        obtain rfl | hk := eq_or_ne k j
        · rw [ClientWriter.view_setClm_self] at hfd
          obtain rfl | hi := eq_or_ne i (s.broadcast.writer.clm k).lastClientInsertIdx
          · rw [List.getElem?_set_self hidx, Option.some_inj] at hfd
            exact ⟨c, hc, getElem?_update.mpr (.inr ⟨rfl, hlen.symm, rfl⟩), hfd⟩
          · rw [List.getElem?_set_ne hi.symm] at hfd
            obtain ⟨c', hc', hreg, heq⟩ := h.slot k i clientFd hfd hend hlost
            exact ⟨c', hc', getElem?_update.mpr (.inl hreg), heq⟩
        · rw [ClientWriter.view_setClm_of_ne hk] at hfd
          obtain ⟨c', hc', hreg, heq⟩ := h.slot k i clientFd hfd hend hlost
          exact ⟨c', hc', getElem?_update.mpr (.inl hreg), heq⟩
      · intro k i k' i' c' hi hi'
        obtain hold | ⟨rfl, rfl, rfl⟩ := getElem?_update.mp hi
        · obtain hold' | ⟨rfl, rfl, rfl⟩ := getElem?_update.mp hi'
          · exact h.unique k i k' i' c' hold hold'
          · exact absurd (List.mem_of_getElem? hold) (hnot k)
        · obtain hold' | ⟨rfl, rfl, -⟩ := getElem?_update.mp hi'
          · exact absurd (List.mem_of_getElem? hold') (hnot k')
          · exact ⟨rfl, rfl⟩
      · exact fun k i => by simpa using h.sends k i
      · intro x hx
        obtain ⟨c', hreg, hrec, hslot⟩ := h.writes x hx
        exact ⟨c', hreg, hrec, getElem?_update.mpr (.inl hslot)⟩
  | _ => simp [serverStep, hpc] at hstep

theorem setup (h : ServerInv s) {ok : Bool} (hstep : serverStep s (.setup ok) = some t) :
    ServerInv t := by
  cases hpc : s.pc with
  | nonBlocking c =>
    simp only [serverStep, hpc, Option.some_inj] at hstep
    exact hstep ▸ h.proceed (by rw [hpc]; rfl) ok rfl
  | epollAdd c =>
    simp only [serverStep, hpc, Option.some_inj] at hstep
    exact hstep ▸ h.proceed (by rw [hpc]; rfl) ok rfl
  | headers c =>
    simp only [serverStep, hpc, Option.some_inj] at hstep
    exact hstep ▸ h.proceed (by rw [hpc]; rfl) ok rfl
  | _ => simp [serverStep, hpc] at hstep

theorem step (h : ServerInv s) (hok : ClosesUnregistered s e) (hstep : serverStep s e = some t) :
    ServerInv t := by
  cases e with
  | accept => exact h.accept hstep
  | setup ok => exact h.setup hstep
  | addClient => exact h.addClient hstep
  | data fd count => exact h.data hok hstep
  | queueData now data =>
    obtain ⟨⟨w, es⟩, hw, rfl⟩ := Option.map_eq_some_iff.mp hstep
    have ht := h.with_writer hw (by simp)
    cases writerStep_cases hw
    simpa [SseServer.write] using ht
  | turn k bytes =>
    obtain ⟨⟨w, es⟩, hw, rfl⟩ := Option.map_eq_some_iff.mp hstep
    exact h.with_writer hw (by simp)

end ServerInv

/-- In every run in which the server closes clients only when no slot has their descriptor, no
descriptor of an open connection is in two slots, each message is written to a client at most once,
and no pass writes to a descriptor whose connection is closed. -/
theorem one_connection {s : SseServer} (h : (sseServer.restrict ClosesUnregistered).Reachable s) :
    OneConnection s := by
  have hinv : (sseServer.restrict ClosesUnregistered).Invariant ServerInv := by
    refine ⟨?_, fun s e t hs hstep => hs.step hstep.1 hstep.2⟩
    rintro s ⟨n, reserved, hzero, rfl⟩
    exact .init n hzero
  exact (hinv.of_reachable h).oneConnection

instance (s : SseServer) (e : ServerEvent) : Decidable (ClosesUnregistered s e) :=
  match e with
  | .data _ _ => inferInstanceAs (Decidable (_ → _))
  | .accept => .isTrue trivial
  | .setup _ => .isTrue trivial
  | .addClient => .isTrue trivial
  | .queueData _ _ => .isTrue trivial
  | .turn _ _ => .isTrue trivial

/-- The server of a process that uses the descriptors below 5. -/
def freshServer : SseServer := sseServerInit 8 [0, 1, 2, 3, 4]

/-- A client connects. -/
def connect : List ServerEvent := [.accept, .setup true, .setup true, .setup true, .addClient]

/-- A client connects and disconnects, and another one connects. -/
def reconnect (between : List ServerEvent) : List ServerEvent :=
  connect ++ between ++ [.data 5 0] ++ connect

/-- The write to a client fails before it is closed; its descriptor is used again. -/
theorem one_connection_after_failed_write : ∃ s,
    (sseServer.restrict ClosesUnregistered).Reachable s ∧ OneConnection s ∧ s.conns = [⟨5, 1⟩] := by
  have hconns : ((reconnect
      [.queueData 1 (.ofBuffer ['a']), .turn 0 0, .turn 0 0, .turn 0 (-1)]).foldlM
      (fun s e => if ClosesUnregistered s e then serverStep s e else none)
        freshServer).map (·.conns) = some [⟨5, 1⟩] := by decide +kernel
  obtain ⟨s, hrun, hs⟩ := Option.map_eq_some_iff.mp hconns
  have hreach : (sseServer.restrict ClosesUnregistered).Reachable s := by
    refine ⟨freshServer, _, ⟨8, [0, 1, 2, 3, 4], by decide, rfl⟩,
      .of_foldlM (fun e _ u v hv => ?_) hrun⟩
    split_ifs at hv with hok
    exact ⟨hok, hv⟩
  exact ⟨s, hreach, one_connection hreach, hs⟩

/-- A client disconnects and another one connects before the next pass. It has the descriptor of the
first one, which is now in a slot of the first list and in one of the second. -/
theorem reused_descriptor_in_two_slots : ¬ ∀ s, sseServer.Reachable s → OneConnection s := by
  intro h
  have hslots : ((reconnect []).foldlM serverStep freshServer).map (fun s =>
      (s.conns, (s.broadcast.writer.clm 0).clientFdArr[0]?,
        (s.broadcast.writer.clm 1).clientFdArr[0]?)) =
      some ([⟨5, 1⟩], some 5, some 5) := by decide +kernel
  obtain ⟨s, hrun, hs⟩ := Option.map_eq_some_iff.mp hslots
  simp only [Prod.mk.injEq] at hs
  have hone := h s ⟨freshServer, _, ⟨8, [0, 1, 2, 3, 4], by decide, rfl⟩,
    .of_foldlM (fun _ _ _ _ hstep => hstep) hrun⟩
  have hsame := hone.one_slot ⟨5, 1⟩ (by simp [hs.1]) 0 0 1 0 hs.2.1 hs.2.2
  exact absurd hsame.1 (by decide)

end TradeServer
