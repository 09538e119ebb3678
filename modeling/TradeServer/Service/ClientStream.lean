import Mathlib.Data.Set.List
import TradeServer.Service.ClientEvents
import TradeServer.Sse.CatchUp

/-!
# What a client reads

From the queue to the client: the events that the producers queue are what a client reads from
its connection, in their order and each once, whatever the other threads do. A write that the
network takes in part ends the connection and shows no event.
-/

namespace TradeServer

open Library

variable {k : Fin NUM_CLIENT_LISTS} {n : Nat} {s t : Broadcast}

/-- The producers queue complete events; fill batches and prices that are too wide are left out. -/
def Announced (s : Broadcast) (e : WriterEvent) : Prop :=
  Promised s e ∧ ∀ now data, e = .queueData now data →
    ∃ ev : ClientEvent, ev.IsSound ∧ data = ev.text

/-- What comes through of the sends of a connection: the texts that `write` took whole, and a
part of one that it did not. -/
def Received (xs : List Send) (text : List Char) : Prop :=
  ∃ part, text = (xs.filter (·.ok)).flatMap (·.message.data.chars) ++ part ∧
    (part = [] ∨ ∃ x ∈ xs, x.ok = false ∧ part <+: x.message.data.chars ∧
      part.length < x.message.data.length)

/-- The sends of a connection that succeed come first. -/
theorem Served.filter_ok {i : Nat} {clientFd : Int} {first : Nat} {v : ThreadView}
    {log : List Effect} (h : Served k i clientFd first v log) :
    (sends k i log).filter (·.ok) <+: sends k i log := by
  obtain hl | hl := h.state
  · rw [List.filter_eq_self.mpr hl.ok]
  · obtain ⟨l, y, hsends, hok, hy⟩ := hl.last
    have hfilter : (sends k i log).filter (·.ok) = l := by
      rw [hsends, List.filter_append, List.filter_eq_self.mpr hok]
      simp [hy]
    exact ⟨[y], by rw [hfilter, hsends]⟩

/-- What comes through of texts of events is read as these events. -/
theorem Received.readEvents {xs : List Send} {es : List Event} {text : List Char}
    (h : Received xs text) (hok : xs.filter (·.ok) <+: xs)
    (hes : xs.map (·.message.data.chars) <+: es.map Event.text) :
    Library.readEvents text = (es.take (xs.countP (·.ok))).map Event.lines := by
  obtain ⟨part, rfl, hpart⟩ := h
  have htake : (xs.filter (·.ok)).map (·.message.data.chars) =
      (es.take (xs.countP (·.ok))).map Event.text := by
    have hprefix := (hok.map (·.message.data.chars)).trans hes
    rw [List.prefix_iff_eq_take.mp hprefix, List.length_map, List.map_take,
      List.countP_eq_length_filter]
  rw [List.flatMap_def, htake, ← List.flatMap_def]
  obtain rfl | ⟨x, hx, hx_ok, hprefix, hlen⟩ := hpart
  · rw [List.append_nil, readEvents_flatMap_text]
  · have hmem : x.message.data.chars ∈ es.map Event.text :=
      hes.subset (List.mem_map_of_mem hx)
    obtain ⟨e, -, he⟩ := List.mem_map.mp hmem
    rw [CString.length, ← he] at hlen
    exact readEvents_flatMap_text_append _ (he ▸ hprefix) hlen

/-- All that is queued are events. -/
def EventsQueued (s : Broadcast) : Prop :=
  ∀ m ∈ queued s.log, ∃ e : Event, m.data.chars = e.text

theorem EventsQueued.step {e : WriterEvent} (h : EventsQueued s) (hok : Announced s e)
    (hstep : s.next e = some t) : EventsQueued t := by
  obtain ⟨es, hw, hlog⟩ := Broadcast.next_cases hstep
  obtain ⟨w, log⟩ := t
  obtain rfl : log = s.log ++ es := hlog
  intro m hm
  rw [queued_append, List.mem_append] at hm
  obtain hm | hm := hm
  · exact h m hm
  · cases hw with
    | @queueData now data =>
      obtain rfl : m = ⟨s.writer.nextId now, data⟩ := by simpa [queued] using hm
      obtain ⟨ev, hev, rfl⟩ := hok.2 now data rfl
      exact (ev.text_event (ev.isSound_iff.mp hev).1).1
    | _ => simp [queued] at hm

theorem EventsQueued.exists_events (h : EventsQueued s) :
    ∃ es : List Event, (queued s.log).map (·.data.chars) = es.map Event.text := by
  have hmem : (queued s.log).map (·.data.chars) ∈ Set.range (List.map Event.text) := by
    rw [Set.range_list_map]
    intro text htext
    obtain ⟨m, hm, rfl⟩ := List.mem_map.mp htext
    obtain ⟨e, he⟩ := h m hm
    exact ⟨e, he.symm⟩
  obtain ⟨es, hes⟩ := hmem
  exact ⟨es, hes.symm⟩

/-- The events `es` are what the producers queued. The connection at slot `i` of list `k` was
added after `before`, and its text is read as the events from number `first` on, one for each
send that succeeded. -/
structure Reads (k : Fin NUM_CLIENT_LISTS) (i : Nat) (before : List Effect) (es : List Event)
    (first : Nat) (text : List Char) (s : Broadcast) : Prop where
  events : (queued s.log).map (·.data.chars) = es.map Event.text
  first_le : first ≤ (reads k before).length
  le_first : (reads k before).length ≤ first + 1
  read : readEvents text =
    ((es.drop first).take ((sends k i s.log).countP (·.ok))).map Event.lines

theorem clientReads (h : CatchUpInv n k s) (hevents : EventsQueued s)
    (hbehind : NeverBehind n k s.log) {before after : List Effect} {i : Nat} {clientFd : Int}
    (hadd : s.log = before ++ .added k i clientFd :: after) {text : List Char}
    (hrec : Received (sends k i s.log) text) :
    ∃ es first, Reads k i before es first text s ∧ ∀ ms, ms <+: queued s.log → PastAll k ms s →
      (∀ x ∈ sends k i s.log, x.ok = true) →
        ((es.take ms.length).drop first).map Event.lines <+: readEvents text := by
  obtain ⟨es, hes⟩ := hevents.exists_events
  obtain ⟨next, hreader⟩ := h.broadcast.reader k
  obtain ⟨-, -, -, first, hle, hge, hserved⟩ := (h.broadcast.list k).served before i clientFd
    after hadd
  have hqueued : reads k s.log <+: queued s.log := by
    rw [(hreader.exact hbehind).2]
    exact List.take_prefix _ _
  have hsent : (sends k i s.log).map (·.message.data.chars) <+: (es.drop first).map Event.text := by
    have hmessages := (hserved.messages_prefix.trans (hqueued.drop first)).map (·.data.chars)
    rw [List.map_map, List.map_drop, hes, ← List.map_drop] at hmessages
    exact hmessages
  have hread := hrec.readEvents hserved.filter_ok hsent
  refine ⟨es, first, ⟨hes, hle, hge, hread⟩, fun ms hms hpast hall => ?_⟩
  -- no send failed, so the slot got all that the thread has passed
  have hmessages : (sends k i s.log).map (·.message) =
      (passedBy k i (s.writer.view k) s.log).drop first := by
    obtain hl | hl := hserved.state
    · exact hl.messages
    · obtain ⟨l, x, hsends, -, hx⟩ := hl.last
      have hx_ok := hall x (by simp [hsends])
      simp [hx] at hx_ok
  have hpassed := h.passed_of_pastAll (h.read_of_pastAll hms hpast hbehind) hpast i
  have hcount : ms.length - first ≤ (sends k i s.log).countP (·.ok) := by
    have hlen := (hpassed.drop first).length_le
    rw [← hmessages, List.length_drop, List.length_map] at hlen
    rwa [List.countP_eq_length.mpr hall]
  rw [hread, List.drop_take]
  exact (List.take_prefix_take_left hcount).map _

theorem Announced.promised {s : Broadcast} {e : WriterEvent} (h : Announced s e) : Promised s e :=
  h.1

/-- Whatever the threads do, each client reads the queued events one after another from the time
that it is added, as long as its thread is not behind by more than the queue holds. As long as no
send fails, it has read all events that were queued before enough turns of the thread. -/
theorem events_reach_clients (hn : 1 ≤ n) (h : ((broadcast n).restrict Announced).Reachable s)
    (hflag : (s.writer.clm k).stop = false) {turns : List WriterEvent}
    (r : ((broadcast n).restrict fun u e => Announced u e ∧ e ≠ .stop).Run s turns t)
    (hbehind : NeverBehind n k t.log) {before after : List Effect} {i : Nat} {clientFd : Int}
    (hadd : t.log = before ++ .added k i clientFd :: after) {text : List Char}
    (hrec : Received (sends k i t.log) text) :
    ∃ es first, Reads k i before es first text t ∧
      ((∀ x ∈ sends k i t.log, x.ok = true) →
        s.turnsBehind k < turns.countP (·.isTurn k) →
          ((es.take (queued s.log).length).drop first).map Event.lines <+: readEvents text) := by
  obtain ⟨s₀, steps, hinit, r₀⟩ := h
  have hs := (catchUpInv hn k).of_reachable
    ⟨s₀, steps, hinit, r₀.mono fun _ _ _ huv => ⟨huv.1.promised, huv.2⟩⟩
  have hempty : EventsQueued s₀ := by
    obtain rfl : s₀ = _ := hinit
    simp [EventsQueued, queued]
  have hevents := r.induct (fun _ _ _ hu huv => hu.step huv.1.1 huv.2)
    (r₀.induct (fun _ _ _ hu huv => hu.step huv.1 huv.2) hempty)
  obtain ⟨ht, hms, -, hpast⟩ := catchUpInv_run hs hn hflag
    (r.mono fun _ _ _ huv => ⟨⟨huv.1.1.promised, huv.1.2⟩, huv.2⟩)
  obtain ⟨es, first, hreads, harrive⟩ := clientReads ht hevents hbehind hadd hrec
  exact ⟨es, first, hreads, fun hall hturns => harrive _ hms (hpast hturns) hall⟩

theorem announced_run {es : List WriterEvent} (h : broadcastRun n es = some s)
    (hes : ∀ now data, .queueData now data ∈ es →
      ∃ ev : ClientEvent, ev.IsSound ∧ data = ev.text) :
    ((broadcast n).restrict Announced).Reachable s := by
  refine ⟨_, es, rfl, .of_foldlM (fun e he u v hv => ?_) h⟩
  split_ifs at hv with hok
  exact ⟨⟨hok, fun now data heq => hes now data (heq ▸ he)⟩, hv⟩

/-- The only price that could be read, for one client. -/
theorem events_reach_clients_one_price : ∃ t text es first, Reads 0 0 [] es first text t ∧
    ((es.take 1).drop first).map Event.lines <+: readEvents text ∧
    text = ['e', 'v', 'e', 'n', 't', ':', ' ', 'Y', '\n', 'd', 'a', 't', 'a', ':', ' ', '2', '.',
      '5', '0', '0', '0', '0', '0', ':', '1', '\n', '\n'] := by
  let prices : Ticker → PricePoint := fun i => if i = .ZILBIAN then ⟨2500000, 1⟩ else ⟨0, 0⟩
  have hsound : (ClientEvent.prices prices).IsSound := by
    unfold ClientEvent.IsSound
    decide +kernel
  let before : List WriterEvent := [.addClient 5, .queueData 1 (ssePriceData prices), .turn 0 0,
    .turn 0 0, .turn 0 27, .turn 0 0]
  let after : List WriterEvent := [.turn 0 0, .turn 0 0, .turn 0 0]
  have hlog : (broadcastRun 1 before).bind (fun s => (after.foldlM Broadcast.next s).map fun t =>
      (((s.writer.clm 0).stop, s.turnsBehind 0), ((queued s.log).length, (queued t.log).length),
        t.log.head?, sends 0 0 t.log)) =
      some ((false, 2), (1, 1), some (.added 0 0 5),
        [⟨0, 0, 5, ⟨10000000, ssePriceData prices⟩, true⟩]) := by
    decide +kernel
  obtain ⟨s, hbefore, hlog⟩ := Option.bind_eq_some_iff.mp hlog
  obtain ⟨t, hafter, hlog⟩ := Option.map_eq_some_iff.mp hlog
  simp only [Prod.mk.injEq] at hlog
  obtain ⟨⟨hflag, hturns⟩, ⟨hqueued, hlen⟩, hhead, hsent⟩ := hlog
  obtain ⟨rest, hrest⟩ := List.head?_eq_some_iff.mp hhead
  have hreach : ((broadcast 1).restrict Announced).Reachable s := by
    refine announced_run hbefore fun now data hmem => ⟨.prices prices, hsound, ?_⟩
    simp only [before, List.mem_cons, WriterEvent.queueData.injEq, reduceCtorEq, false_or,
      List.not_mem_nil, or_false] at hmem
    exact hmem.2
  have hrun : ((broadcast 1).restrict fun u e => Announced u e ∧ e ≠ .stop).Run s after t := by
    refine .of_foldlM (fun e he u v hv => ⟨?_, hv⟩) hafter
    obtain rfl : e = .turn 0 0 := by simpa [after] using he
    exact ⟨⟨trivial, by simp⟩, by simp⟩
  have hadd : t.log = [] ++ .added 0 0 5 :: rest := hrest
  have hrec : Received (sends 0 0 t.log) (ssePriceData prices).chars :=
    ⟨[], by simp [hsent], .inl rfl⟩
  obtain ⟨es, first, hreads, harrived⟩ :=
    events_reach_clients le_rfl hreach hflag hrun (.of_length_le hlen.le) hadd hrec
  refine ⟨t, _, es, first, hreads, ?_, by decide +kernel⟩
  rw [hqueued] at harrived
  refine harrived (by simp [hsent]) ?_
  rw [hturns]
  decide

end TradeServer
