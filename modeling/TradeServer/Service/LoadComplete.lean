import TradeServer.Service.Market

/-!
# Which orders a cycle of loads reaches

An order that was in the table when a cycle began is in its book when the cycle ends, as
long as `LIMIT` cuts off no new order, and every order that comes too late for the query
of its book comes in the second in which the window of the queries is refreshed.
-/

namespace TradeServer

open Library

def MarketEvent.IsFill : MarketEvent → Prop
  | .fill _ _ _ => True
  | _ => False

/-- Insertions and cycles only: all orders stay open. -/
def loader : System Market MarketEvent := market.restrict fun _ e => ¬ e.IsFill

/-- An open order of book `b`, not older than the backload limit. -/
structure Eligible (since : Nat) (b : BookId) (o : TradeOrder) : Prop where
  book : b.Has o
  status : o.status = 'O'
  since : since ≤ o.createdAt

/-- Between cycles every order that the latest cycle found in the table is in its book. -/
def NoneLost (s : Market) : Prop :=
  s.cycle = none → ∀ o ∈ s.snapshot, ∀ b, Eligible s.since b o → s.svc.InBook b o

/-- The steps at which no order gets lost. -/
def KeepsAll (s : Market) : MarketEvent → Prop
  | .query all => ∀ b pending, s.cycle = some (b :: pending) →
      ∀ o ∈ all.drop MAX_LOAD_ORDERS, o ∈ s.snapshot → s.svc.InBook b o
  | .refresh => ∀ o ∈ s.late, s.clock ≤ o.createdAt
  | _ => True

structure Complete (s : Market) (W : Books) : Prop where
  holds : Holds s.svc W
  keyed : Keyed s.svc W (· ∈ s.rows)
  ids : RowIds s.rows
  past : s.svc.lastOrderReadTime ≤ s.clock
  /-- What is not in its book yet is in the window of the queries. -/
  window : ∀ b, ∀ o ∈ s.rows, Eligible s.since b o →
    s.svc.InBook b o ∨ s.svc.lastOrderReadTime ≤ o.createdAt
  /-- A query leaves out late orders only. -/
  queried : ∀ pending, s.cycle = some pending → ∀ b, b ∉ pending →
    ∀ o ∈ s.rows, Eligible s.since b o → s.svc.InBook b o ∨ o ∈ s.late
  snapshot : ∀ b, (∀ pending, s.cycle = some pending → b ∉ pending) →
    ∀ o ∈ s.snapshot, Eligible s.since b o → s.svc.InBook b o
  found : ∀ o ∈ s.snapshot, o ∈ s.rows

/-! ## Loading -/

/-- What a load keeps: the keys, and the orders that are in their books. -/
structure Loads (rows : List TradeOrder) (svc svc' : Service) (W' : Books) : Prop where
  holds : Holds svc' W'
  keyed : Keyed svc' W' (· ∈ rows)
  inBook : ∀ b o, svc.InBook b o → svc'.InBook b o

section Load

variable {svc : Service} {W : Books} {rows : List TradeOrder}

theorem Loads.extend (h : Holds svc W) (hkeyed : Keyed svc W (· ∈ rows)) {os : Heap TradeOrder}
    (hos : Extends svc.orders os) : Loads rows svc { svc with orders := os } W where
  holds := h.extend hos
  keyed := hkeyed.extend h hos
  inBook b o hin := by
    obtain ⟨n, a, hm, ho⟩ := h.inBook_iff.mp hin
    exact (h.extend hos).inBook_iff.mpr ⟨n, a, hm, orderOf_extends hos ho⟩

/-- One row: an order of the same key is the same order. -/
theorem Loads.load (h : Holds svc W) (hkeyed : Keyed svc W (· ∈ rows))
    (hids : RowIds rows) {svc' : Service} {b : BookId} {o : TradeOrder} {n a : Addr}
    (hL : Loaded svc svc' W b o n a) (ho : o ∈ rows) :
    Loads rows svc svc' (Function.update W b ((W b).push o.price (n, a))) ∧ svc'.InBook b o := by
  refine ⟨⟨hL.holds, hkeyed.load h hids.small hL ho, fun b' o' hin => ?_⟩, ?_⟩
  · obtain ⟨n', a', hm, ho'⟩ := h.inBook_iff.mp hin
    -- an old item keeps its order, also when its entry is the one that is put again
    obtain ⟨-, o₀, o₁, -, -, hold, hnew, hid, hr₀, hr₁⟩ := hkeyed.orderOf_load hids.small hL ho hm
    obtain rfl := hids.eq_of_id hr₁ hr₀ hid
    obtain rfl := Option.some.inj (ho'.symm.trans hold)
    exact hL.holds.inBook_iff.mpr ⟨n', a', (mem_push_iff (h.sorted b)).mpr (.inr hm), hnew⟩
  · exact hL.holds.inBook_iff.mpr ⟨n, a, (mem_push_iff (h.sorted b)).mpr (.inl ⟨rfl, rfl, rfl⟩),
      hL.orderOf_self⟩

/-- All rows of an answer are in the book after it. -/
theorem Loads.loadOrdersHelper (h : Holds svc W) (hkeyed : Keyed svc W (· ∈ rows))
    (hids : RowIds rows) {b : BookId} {answer : List TradeOrder}
    (hrows : ∀ o ∈ answer, o ∈ rows) :
    ∃ svc' W', TradeServer.loadOrdersHelper svc b.1 b.2 (some answer) = some (svc', true) ∧
      Loads rows svc svc' W' ∧ (∀ o ∈ answer, svc'.InBook b o) ∧
      svc'.lastOrderReadTime = svc.lastOrderReadTime := by
  obtain ⟨svc', W', hrun, -, hJ, -, htime⟩ := @Holds.loadOrdersHelper b answer
    (fun done svc' W' => Loads rows svc svc' W' ∧ ∀ o ∈ done, svc'.InBook b o) svc W h
    (fun os hos => ⟨Loads.extend h hkeyed hos, by simp⟩)
    (fun done o svc₁ W₁ svc₂ n a hpre ⟨h₁, hdone⟩ _ hL => by
      obtain ⟨h₂, hin⟩ := Loads.load h₁.holds h₁.keyed hids hL
        (hrows o (hpre.subset (by simp)))
      refine ⟨⟨h₂.holds, h₂.keyed, fun b' o' ho' => h₂.inBook b' o' (h₁.inBook b' o' ho')⟩, ?_⟩
      intro o' ho'
      rcases List.mem_append.mp ho' with ho' | ho'
      · exact h₂.inBook b o' (hdone o' ho')
      · obtain rfl := List.mem_singleton.mp ho'
        exact hin)
  exact ⟨svc', W', hrun, hJ.1, hJ.2, htime⟩

end Load

namespace Complete

variable {s t : Market} {W : Books}

theorem insert (h : Complete s W) {o : TradeOrder} (ho : Insertable s o) :
    Complete { s with rows := s.rows ++ [o], late := s.late ++ lateInsert s.cycle o } W := by
  have hrow : ∀ r ∈ s.rows ++ [o], r ∈ s.rows ∨ r = o := fun r hr => by simpa using hr
  refine ⟨h.holds, fun b k n a hm => ?_, h.ids.insert ho, h.past, fun b r hr he => ?_,
    fun pending hc b hb r hr he => ?_, h.snapshot, fun r hr => List.mem_append_left _
        (h.found r hr)⟩
  · obtain ⟨e, o', he, ho', hkey, hr⟩ := h.keyed b k n a hm
    exact ⟨e, o', he, ho', hkey, List.mem_append_left _ hr⟩
  · rcases hrow r hr with hr | rfl
    · exact h.window b r hr he
    · exact .inr (ho.1 ▸ h.past)
  · rcases hrow r hr with hr | rfl
    · exact (h.queried pending hc b hb r hr he).imp_right (List.mem_append_left _)
    · have hlate : ∃ b ∈ loadSequence, BookId.Has b r ∧ b ∉ pending :=
        ⟨b, mem_loadSequence b, he.book, hb⟩
      have hc' : s.cycle = some pending := hc
      right
      simp [hc', lateInsert, hlate]

/-- The query itself: what is eligible is in its book, or it is new and was cut off. -/
theorem queried_now (h : Complete s W) {all : List TradeOrder} (hok : KeepsAll s (.query all))
    {b : BookId} {pending : List BookId} (hc : s.cycle = some (b :: pending))
    (hres : ResultOf (loadQuery s.svc b.1 b.2) s.rows all) {svc : Service}
    (hbefore : ∀ b o, s.svc.InBook b o → svc.InBook b o)
    (hin : ∀ o ∈ all.take MAX_LOAD_ORDERS, svc.InBook b o) {o : TradeOrder} (ho : o ∈ s.rows)
    (he : Eligible s.since b o) :
    svc.InBook b o ∨ (o ∉ s.snapshot ∧ o ∈ all.drop MAX_LOAD_ORDERS) := by
  rcases h.window b o ho he with hold | hwin
  · exact .inl (hbefore b o hold)
  have hm : o ∈ all := hres.mem ho he.book he.status hwin
  rw [← List.take_append_drop MAX_LOAD_ORDERS all, List.mem_append] at hm
  rcases hm with hm | hm
  · exact .inl (hin o hm)
  · by_cases hsnap : o ∈ s.snapshot
    · exact .inl (hbefore b o (hok b pending hc o hm hsnap))
    · exact .inr ⟨hsnap, hm⟩

theorem query (h : Complete s W) {all : List TradeOrder} (hok : KeepsAll s (.query all))
    {b : BookId} {pending : List BookId} (hc : s.cycle = some (b :: pending))
    (hres : ResultOf (loadQuery s.svc b.1 b.2) s.rows all) {svc : Service}
    (hload : TradeServer.loadOrdersHelper s.svc b.1 b.2 (some (all.take MAX_LOAD_ORDERS)) =
      some (svc, true)) :
    ∃ W', Complete
      { s with
        svc := svc
        cycle := some pending
        late := s.late ++ (all.drop MAX_LOAD_ORDERS).filter (· ∉ s.snapshot) } W' := by
  obtain ⟨svc', W', hrun, hloads, hin, htime⟩ := @Loads.loadOrdersHelper _ _ _ h.holds h.keyed
    h.ids b (all.take MAX_LOAD_ORDERS) fun o ho => (hres.of_mem (List.mem_of_mem_take ho)).1
  obtain ⟨rfl, -⟩ := Prod.mk.inj (Option.some.inj (hrun.symm.trans hload))
  have hquery := fun {o} => @queried_now s W h all hok b pending hc hres svc' hloads.inBook hin o
  refine ⟨W', hloads.holds, hloads.keyed, h.ids, htime ▸ h.past, fun b' o ho he => ?_,
    fun pending' hc' b' hb' o ho he => ?_, fun b' hb' o ho he => ?_, h.found⟩
  · rw [htime]
    exact (h.window b' o ho he).imp_left (hloads.inBook b' o)
  · obtain rfl := Option.some.inj hc'
    by_cases hb : b' = b
    · subst hb
      rcases hquery ho he with hin | ⟨hsnap, hm⟩
      · exact .inl hin
      · right
        simp only [List.mem_append, List.mem_filter]
        exact .inr ⟨hm, decide_eq_true hsnap⟩
    · have hb'' : b' ∉ b :: pending := by simp [hb, hb']
      exact (h.queried _ hc b' hb'' o ho he).imp (hloads.inBook b' o) (List.mem_append_left _)
  · by_cases hb : b' = b
    · subst hb
      rcases hquery (h.found o ho) he with hin | ⟨hsnap, -⟩
      · exact hin
      · exact absurd ho hsnap
    · have hb'' : ∀ pending', s.cycle = some pending' → b' ∉ pending' := by
        intro pending' hc'
        obtain rfl := Option.some.inj (hc.symm.trans hc')
        simp [hb, hb' pending rfl]
      exact hloads.inBook b' o (h.snapshot b' hb'' o ho he)

/-- The window moves to the current second, which the late orders have. -/
theorem refresh (h : Complete s W) (hok : KeepsAll s .refresh) (hc : s.cycle = some []) :
    Complete { s with svc := { s.svc with lastOrderReadTime := s.clock }, cycle := none } W where
  holds := h.holds.setTimes _ _
  keyed := h.keyed
  ids := h.ids
  past := le_refl _
  window b o ho he := (h.queried [] hc b (by simp) o ho he).imp_right (hok o)
  queried pending hc' := by simp at hc'
  snapshot b _ o ho he := h.snapshot b (fun pending hc' => by
    obtain rfl := Option.some.inj (hc.symm.trans hc')
    simp) o ho he
  found := h.found

theorem step (h : Complete s W) {e : MarketEvent} (hok : KeepsAll s e) (hstep : loader.step s e t) :
    ∃ W', Complete t W' := by
  obtain ⟨hfill, hstep⟩ := hstep
  cases marketStep_cases hstep with
  | tick =>
    exact ⟨W, h.holds, h.keyed, h.ids, Nat.le_succ_of_le h.past, h.window, h.queried, h.snapshot,
      h.found⟩
  | insert ho => exact ⟨W, h.insert ho⟩
  | beginCycle hc =>
    refine ⟨W, h.holds, h.keyed, h.ids, h.past, h.window, ?_, ?_, fun _ ho => ho⟩
    · intro pending hc' b hb
      obtain rfl := Option.some.inj hc'
      exact absurd (mem_loadSequence b) hb
    · intro b hb
      exact absurd (mem_loadSequence b) (hb _ rfl)
  | query hc hres hload => exact h.query hok hc hres hload
  | refresh hc => exact ⟨W, h.refresh hok hc⟩
  | fill hc hrun => exact absurd trivial hfill
  | price =>
    exact ⟨W, h.holds.setTimes _ _, h.keyed, h.ids, h.past, h.window, h.queried, h.snapshot,
      h.found⟩

end Complete

theorem complete_of_start {s : Market} (h : MarketStart s) : Complete s (fun _ => []) := by
  obtain ⟨unset, lastPrices, hsvc⟩ := h.svc
  have hlast : s.svc.lastOrderReadTime = s.since := by rw [hsvc]
  refine ⟨hsvc ▸ (holds_tradeServiceInit unset).setTimes _ _, ?_, h.ids, ?_, fun b o _ he => ?_, ?_,
    ?_, ?_⟩
  · intro b k n a hm
    simp at hm
  · rw [hlast, h.since]
    exact Nat.sub_le _ _
  · exact .inr (hlast ▸ he.since)
  · simp [h.cycle]
  · simp [h.snapshot]
  · simp [h.snapshot]

theorem complete_of_reachable {s : Market} (h : (loader.restrict KeepsAll).Reachable s) :
    ∃ W, Complete s W := by
  have hinv : (loader.restrict KeepsAll).Invariant fun s => ∃ W, Complete s W := by
    refine ⟨fun s hs => ⟨_, complete_of_start hs⟩, ?_⟩
    rintro s e t ⟨W, hW⟩ ⟨hok, hstep⟩
    exact hW.step hok hstep
  exact hinv.of_reachable h

/-- In every run of insertions and cycles in which no `LIMIT` cuts off a new order, and all orders
that come late come in the second of the refresh, every order that was in the table when a cycle
began is in its book when the cycle ends. -/
theorem none_lost {s : Market} (h : (loader.restrict KeepsAll).Reachable s) : NoneLost s := by
  obtain ⟨W, hW⟩ := complete_of_reachable h
  intro hc o ho b he
  exact hW.snapshot b (by simp [hc]) o ho he

/-! ## A late order before a full answer -/

/-- Whatever rows a query returns, they are loaded. -/
theorem Complete.exists_query {s : Market} {W : Books} (h : Complete s W) {all : List TradeOrder}
    {b : BookId} {pending : List BookId} (hc : s.cycle = some (b :: pending))
    (hres : ResultOf (loadQuery s.svc b.1 b.2) s.rows all) :
    ∃ svc, svc.lastOrderReadTime = s.svc.lastOrderReadTime ∧ marketStep s (.query all) = some
      { s with
        svc := svc
        cycle := some pending
        late := s.late ++ (all.drop MAX_LOAD_ORDERS).filter (· ∉ s.snapshot) } := by
  obtain ⟨svc, -, hload, -, -, htime⟩ := @Loads.loadOrdersHelper _ _ _ h.holds h.keyed h.ids b
    (all.take MAX_LOAD_ORDERS) fun o ho => (hres.of_mem (List.mem_of_mem_take ho)).1
  refine ⟨svc, htime, ?_⟩
  have hload : TradeServer.loadOrdersHelper s.svc b.1 b.2
      (some (all.take (loadQuery s.svc b.1 b.2).limit)) = some (svc, true) := hload
  simp only [marketStep, hc, if_pos hres, hload, Option.map_some]
  rfl

/-- An order like the first one. -/
def crowdOrder (id : Nat) : TradeOrder := { firstOrder with id := id }

/-- The orders of this kind with the ids below `n`. -/
def crowd (n : Nat) : List TradeOrder := (List.range n).map crowdOrder

theorem crowd_succ (n : Nat) : crowd (n + 1) = crowd n ++ [crowdOrder n] := by
  simp [crowd, List.range_succ]

theorem eq_of_mem_crowd {n : Nat} {o : TradeOrder} (ho : o ∈ crowd n) :
    o = crowdOrder o.id ∧ o.id < n := by
  obtain ⟨i, hi, rfl⟩ := List.mem_map.mp ho
  exact ⟨rfl, List.mem_range.mp hi⟩

theorem crowd_other_book (n : Nat) : ∀ b ∈ loadSequence.tail, ∀ o ∈ crowd n, ¬ BookId.Has b o := by
  rintro b hb o ho ⟨hticker, hside⟩
  rw [(eq_of_mem_crowd ho).1] at hticker hside
  have hfirst : ∀ b ∈ loadSequence.tail, ¬ BookId.Has b firstOrder := by decide
  exact hfirst b hb ⟨hticker, hside⟩

theorem insertable_crowd {s : Market} {n : Nat} (hclock : s.clock = firstOrder.createdAt)
    (hrows : s.rows = crowd n) (hn : n < 10 ^ 14) : Insertable s (crowdOrder n) := by
  refine ⟨hclock.symm, rfl, hn, fun hm => ?_⟩
  obtain ⟨o, ho, hid⟩ := List.mem_map.mp hm
  exact absurd ((eq_of_mem_crowd (hrows ▸ ho)).2) (by rw [hid]; exact lt_irrefl n)

theorem run_lossless_snoc {s₀ s t : Market} {es : List MarketEvent} {e : MarketEvent}
    (hrun : (loader.restrict KeepsAll).Run s₀ es s) (hstep : marketStep s e = some t)
    (hok : KeepsAll s e) (hfill : ¬ e.IsFill) : (loader.restrict KeepsAll).Run s₀ (es ++ [e]) t :=
  hrun.snoc ⟨hok, hfill, hstep⟩

theorem run_crowd {n : Nat} (hn : n < 10 ^ 14) : (loader.restrict KeepsAll).Run emptyMarket
    ((crowd n).map .insert) { emptyMarket with rows := crowd n } := by
  induction n with
  | zero => exact .nil _
  | succ n ih =>
    have hstep : marketStep { emptyMarket with rows := crowd n } (.insert (crowdOrder n)) =
        some { emptyMarket with rows := crowd (n + 1) } := by
      rw [marketStep, if_pos (insertable_crowd rfl rfl (by omega)), crowd_succ]
      rfl
    have hmap : (crowd (n + 1)).map MarketEvent.insert =
        (crowd n).map MarketEvent.insert ++ [.insert (crowdOrder n)] := by
      rw [crowd_succ, List.map_append]
      rfl
    rw [hmap]
    exact run_lossless_snoc (ih (by omega)) hstep trivial not_false

/-- The rest of a cycle, with queries for books that no order belongs to. -/
theorem run_rest_of_cycle {s : Market} {es : List MarketEvent} {pending : List BookId}
    (hrun : (loader.restrict KeepsAll).Run emptyMarket es s) (hc : s.cycle = some pending)
    (hempty : ∀ b ∈ pending, ∀ o ∈ s.rows, ¬ b.Has o)
    (hlate : ∀ o ∈ s.late, s.clock ≤ o.createdAt) :
    ∃ svc, svc.lastOrderReadTime = s.clock ∧ (loader.restrict KeepsAll).Run emptyMarket
      (es ++ List.replicate pending.length (.query []) ++ [.refresh])
      { s with svc := svc, cycle := none } := by
  induction pending generalizing s es with
  | nil =>
    have hstep : marketStep s .refresh = some
        { s with svc := { s.svc with lastOrderReadTime := s.clock }, cycle := none } := by
      rw [marketStep, if_pos hc]
    exact ⟨_, rfl, by simpa using run_lossless_snoc hrun hstep hlate not_false⟩
  | cons b pending ih =>
    obtain ⟨W, hW⟩ := complete_of_reachable ⟨_, _, marketStart_emptyMarket, hrun⟩
    have hnone : s.rows.filter (loadQuery s.svc b.1 b.2).Matches = [] :=
      List.filter_eq_nil_iff.mpr fun o ho hm =>
        hempty b (by simp) o ho ⟨(of_decide_eq_true hm).2.2.1, (of_decide_eq_true hm).1⟩
    obtain ⟨svc, -, hstep⟩ := @Complete.exists_query s W hW [] b pending hc ⟨by rw [hnone], .nil⟩
    have hrun := run_lossless_snoc hrun hstep (by simp [KeepsAll]) not_false
    obtain ⟨svc', htime, hrun'⟩ := ih hrun rfl (fun b' hb' => hempty b' (by simp [hb']))
      (by simpa using hlate)
    exact ⟨svc', htime, by simpa [List.replicate_succ] using hrun'⟩

/-- The start of a cycle, with all orders in some sequence in its first answer. -/
theorem run_first_query {s : Market} {es : List MarketEvent} {n : Nat} {all : List TradeOrder}
    (hrun : (loader.restrict KeepsAll).Run emptyMarket es s) (hc : s.cycle = none)
    (hrows : s.rows = crowd n) (htime : s.svc.lastOrderReadTime ≤ firstOrder.createdAt)
    (hall : all.Perm (crowd n))
    (hkeep : ∀ o ∈ all.drop MAX_LOAD_ORDERS, s.svc.InBook (.ANDTHEN, .BUY) o) :
    ∃ svc, svc.lastOrderReadTime = s.svc.lastOrderReadTime ∧
      (loader.restrict KeepsAll).Run emptyMarket (es ++ [.beginCycle, .query all])
        { s with
          svc := svc
          cycle := some loadSequence.tail
          snapshot := crowd n
          late := [] } := by
  have hbegin : marketStep s .beginCycle =
      some { s with cycle := some loadSequence, snapshot := crowd n, late := [] } := by
    rw [marketStep, if_pos hc, hrows]
  have hrun := run_lossless_snoc hrun hbegin trivial not_false
  obtain ⟨W, hW⟩ := complete_of_reachable ⟨_, _, marketStart_emptyMarket, hrun⟩
  have hmem : ∀ o ∈ all, o = crowdOrder o.id := fun o ho => (eq_of_mem_crowd (hall.subset ho)).1
  have hfilter : s.rows.filter (loadQuery s.svc .ANDTHEN .BUY).Matches = crowd n := by
    rw [hrows]
    refine List.filter_eq_self.mpr fun o ho => decide_eq_true ?_
    rw [(eq_of_mem_crowd ho).1]
    exact ⟨rfl, rfl, rfl, htime⟩
  have hres : ResultOf (loadQuery s.svc .ANDTHEN .BUY) s.rows all := by
    refine ⟨hfilter ▸ hall, List.pairwise_of_forall_mem_list fun o ho o' ho' => .inr ?_⟩
    rw [hmem o ho, hmem o' ho']
    exact ⟨rfl, le_rfl⟩
  obtain ⟨svc, htime', hstep⟩ := @Complete.exists_query _ W hW all (.ANDTHEN, .BUY)
    loadSequence.tail rfl hres
  have hcut : (all.drop MAX_LOAD_ORDERS).filter (· ∉ crowd n) = [] :=
    List.filter_eq_nil_iff.mpr fun o ho => by simpa using hall.subset (List.mem_of_mem_drop ho)
  have hkeeps : KeepsAll { s with cycle := some loadSequence, snapshot := crowd n, late := [] }
      (.query all) := by
    rintro b pending hpending o ho -
    obtain ⟨rfl, -⟩ := List.cons.inj (Option.some.inj hpending)
    exact hkeep o ho
  simp only [hcut, List.append_nil] at hstep
  exact ⟨svc, htime', by simpa using run_lossless_snoc hrun hstep hkeeps not_false⟩

/-- As many orders as a query may return; one more comes too late for its query in their second,
and in the next cycle it displaces another one from the answer. -/
theorem none_lost_late_before_full : ∃ s, (loader.restrict KeepsAll).Run emptyMarket
    ((crowd MAX_LOAD_ORDERS).map .insert ++ [.beginCycle, .query (crowd MAX_LOAD_ORDERS)] ++
      [.insert (crowdOrder MAX_LOAD_ORDERS)] ++ List.replicate 7 (.query []) ++
      [.refresh] ++ [.beginCycle, .query (crowdOrder MAX_LOAD_ORDERS ::
        crowd MAX_LOAD_ORDERS)] ++ List.replicate 7 (.query []) ++ [.refresh]) s ∧
    NoneLost s ∧ s.cycle = none ∧ s.snapshot = crowd (MAX_LOAD_ORDERS + 1) := by
  generalize hn : MAX_LOAD_ORDERS = n
  have hcut : (crowd n).drop MAX_LOAD_ORDERS = [] := by simp [hn, crowd]
  have hsize : 0 < n ∧ n < 10 ^ 14 := hn ▸ by decide
  obtain ⟨svc₁, htime₁, hrun⟩ := run_first_query (n := n) (run_crowd hsize.2) rfl rfl
    (Nat.zero_le _) (.refl _) (by simp [hcut])
  have hinsert : marketStep
      { emptyMarket with
        rows := crowd n
        svc := svc₁
        cycle := some loadSequence.tail
        snapshot := crowd n }
      (.insert (crowdOrder n)) = some
      { emptyMarket with
        rows := crowd (n + 1)
        svc := svc₁
        cycle := some loadSequence.tail
        snapshot := crowd n
        late := [crowdOrder n] } := by
    rw [marketStep, if_pos (insertable_crowd rfl rfl hsize.2), crowd_succ]
    rfl
  obtain ⟨svc₂, htime₂, hrun⟩ := run_rest_of_cycle
    (run_lossless_snoc hrun hinsert trivial not_false) rfl (crowd_other_book _)
    (List.forall_mem_singleton.mpr le_rfl)
  have hbooked := none_lost ⟨_, _, marketStart_emptyMarket, hrun⟩ rfl
  have hkeep : ∀ o ∈ (crowdOrder n :: crowd n).drop MAX_LOAD_ORDERS,
      svc₂.InBook (.ANDTHEN, .BUY) o := by
    obtain ⟨m, rfl⟩ : ∃ m, n = m + 1 := ⟨n - 1, (Nat.succ_pred_eq_of_pos hsize.1).symm⟩
    intro o ho
    rw [hn, List.drop_succ_cons] at ho
    have ho := List.mem_of_mem_drop ho
    obtain ⟨heq, -⟩ := eq_of_mem_crowd ho
    exact hbooked o ho _ ⟨heq ▸ ⟨rfl, rfl⟩, heq ▸ rfl, Nat.zero_le _⟩
  obtain ⟨svc₃, -, hrun⟩ := run_first_query (n := n + 1) hrun rfl rfl htime₂.le
    (crowd_succ n ▸ (List.perm_append_singleton _ _).symm) hkeep
  obtain ⟨svc₄, -, hrun⟩ := run_rest_of_cycle hrun rfl (crowd_other_book _) (by simp)
  exact ⟨_, hrun, none_lost ⟨_, _, marketStart_emptyMarket, hrun⟩, rfl, rfl⟩

/-- An order is inserted after the query of its book, and the window is refreshed a second later.
The next cycle does not find it. -/
theorem late_order_lost : ¬ ∀ s, loader.Reachable s → NoneLost s := by
  intro h
  have hstate : (marketRun emptyMarket
      ([MarketEvent.beginCycle, MarketEvent.query [], MarketEvent.insert firstOrder,
          MarketEvent.tick] ++ List.replicate 7 (MarketEvent.query []) ++ [MarketEvent.refresh] ++
        cycleOf [])).map
        (fun s => (s.cycle, s.since, s.snapshot, decide (s.svc.walk (.ANDTHEN, .BUY) = some []))) =
      some (none, 0, [firstOrder], true) := by decide
  obtain ⟨s, hrun, hs⟩ := Option.map_eq_some_iff.mp hstate
  simp only [Prod.mk.injEq, decide_eq_true_eq] at hs
  obtain ⟨hcycle, hsince, hsnapshot, hwalk⟩ := hs
  have hreach : loader.Reachable s := by
    refine ⟨emptyMarket, _, marketStart_emptyMarket,
      .of_foldlM (fun e he u v hstep => ⟨?_, hstep⟩) hrun⟩
    simp only [cycleOf, List.mem_append, List.mem_replicate, List.mem_cons, List.not_mem_nil,
      or_false] at he
    rcases he with (((rfl | rfl | rfl | rfl) | ⟨-, rfl⟩) | rfl) | ((rfl | rfl) | ⟨-, rfl⟩) | rfl <;>
      exact not_false
  have heligible : Eligible s.since (.ANDTHEN, .BUY) firstOrder :=
    ⟨by decide, by decide, by rw [hsince]; exact Nat.zero_le _⟩
  obtain ⟨n, a, ⟨W, hW, hm⟩, -⟩ := h s hreach hcycle firstOrder (by simp [hsnapshot]) _ heligible
  obtain rfl := Option.some.inj (hwalk.symm.trans hW)
  simp at hm

end TradeServer
