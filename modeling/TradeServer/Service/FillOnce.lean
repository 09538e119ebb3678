import TradeServer.Service.Market

/-!
# No order is filled twice

As long as no query returns an order that already rests in a book, every resting order
has one list node and an open row, and every filled order has a closed row.
-/

namespace TradeServer

open Library

/-- The ids of the successful calls. -/
def filledIds (fills : List Fill) : List Nat := (fills.filter (·.filled)).map (·.order.id)

/-- Some list node leads to an order with this id. -/
def Service.Resting (svc : Service) (id : Nat) : Prop :=
  ∃ b k n a o, svc.Listed b k n a ∧ svc.orderOf a = some o ∧ o.id = id

/-- The rows after the orders with these ids were filled. -/
def markAll (ids : List Nat) (rows : List TradeOrder) : List TradeOrder :=
  rows.map fun r => if r.id ∈ ids then { r with status := 'F' } else r

/-- No query returns an order that rests in a book. -/
def ReturnsNew (s : Market) : MarketEvent → Prop
  | .query all => ∀ o ∈ all.take MAX_LOAD_ORDERS, ¬ s.svc.Resting o.id
  | _ => True

/-- Every item has an order of its own, with an open row. -/
structure BooksOnce (svc : Service) (W : Books) (rows : List TradeOrder) : Prop where
  holds : Holds svc W
  keyed : Keyed svc W (fun o => o.id < 10 ^ 14)
  single : ∀ b k n a o b' k' n' a' o', (n, a) ∈ (W b).get k → (n', a') ∈ (W b').get k' →
    svc.orderOf a = some o → svc.orderOf a' = some o' → o.id = o'.id → n = n'
  opened : ∀ b k n a o, (n, a) ∈ (W b).get k → svc.orderOf a = some o →
    ∃ r ∈ rows, r.id = o.id ∧ r.status = 'O'

structure Once (s : Market) (W : Books) : Prop where
  books : BooksOnce s.svc W s.rows
  ids : RowIds s.rows
  closed : ∀ id ∈ filledIds s.fills, ∃ r ∈ s.rows, r.id = id ∧ r.status ≠ 'O'
  once : (filledIds s.fills).Nodup

/-! ## Loading -/

theorem Holds.resting_iff {svc : Service} {W : Books} (h : Holds svc W) {id : Nat} :
    svc.Resting id ↔ ∃ b k n a o, (n, a) ∈ (W b).get k ∧ svc.orderOf a = some o ∧ o.id = id := by
  simp only [Service.Resting, h.listed_iff]

/-- The items of `W'` are those of `W` with their orders, and items of book `b` for orders in
`os`. -/
def AddsTo (b : BookId) (os : List TradeOrder) (svc svc' : Service) (W W' : Books) : Prop :=
  ∀ b' k n a o, (n, a) ∈ (W' b').get k → svc'.orderOf a = some o →
    (b' = b ∧ o ∈ os) ∨ ((n, a) ∈ (W b').get k ∧ svc.orderOf a = some o)

namespace AddsTo

variable {b : BookId} {os os' : List TradeOrder} {svc svc₁ svc₂ : Service} {W W₁ W₂ : Books}

theorem trans (h : AddsTo b os svc svc₁ W W₁) (h' : AddsTo b os' svc₁ svc₂ W₁ W₂) :
    AddsTo b (os ++ os') svc svc₂ W W₂ := by
  intro b' k n a o hm ho
  rcases h' b' k n a o hm ho with ⟨hb, ho'⟩ | ⟨hm, ho⟩
  · exact .inl ⟨hb, List.mem_append_right _ ho'⟩
  · exact (h b' k n a o hm ho).imp_left fun ⟨hb, ho'⟩ => ⟨hb, List.mem_append_left _ ho'⟩

theorem resting (h : AddsTo b os svc svc₁ W W₁) (hW : Holds svc W) (hW₁ : Holds svc₁ W₁) {id : Nat}
    (hr : svc₁.Resting id) : svc.Resting id ∨ ∃ o ∈ os, o.id = id := by
  obtain ⟨b', k, n, a, o, hm, ho, rfl⟩ := hW₁.resting_iff.mp hr
  rcases h b' k n a o hm ho with ⟨-, ho'⟩ | ⟨hm, ho⟩
  · exact .inr ⟨o, ho', rfl⟩
  · exact .inl (hW.resting_iff.mpr ⟨b', k, n, a, o, hm, ho, rfl⟩)

end AddsTo

namespace BooksOnce

variable {svc : Service} {W : Books} {rows : List TradeOrder} {b : BookId}

theorem setTimes (h : BooksOnce svc W rows) (lastPrices : Ticker → Nat) (lastOrderReadTime : Nat) :
    BooksOnce { svc with lastPrices := lastPrices, lastOrderReadTime := lastOrderReadTime }
      W rows :=
  ⟨h.holds.setTimes _ _, h.keyed, h.single, h.opened⟩

theorem append (h : BooksOnce svc W rows) (o : TradeOrder) : BooksOnce svc W (rows ++ [o]) := by
  refine ⟨h.holds, h.keyed, h.single, fun b k n a o' hm ho' => ?_⟩
  obtain ⟨r, hr, hopen⟩ := h.opened b k n a o' hm ho'
  exact ⟨r, List.mem_append_left _ hr, hopen⟩

/-- An order that does not rest in a book shares its entry with no item. -/
theorem entry_ne (h : BooksOnce svc W rows) {svc' : Service} {b : BookId} {o : TradeOrder}
    {n a : Addr} (hL : Loaded svc svc' W b o n a) (hid : o.id < 10 ^ 14)
    (hnew : ¬ svc.Resting o.id) {b' : BookId} {k' : Nat} {n' a' : Addr}
    (hm : (n', a') ∈ (W b').get k') : a' ≠ a := by
  rintro rfl
  obtain ⟨e, o', he, ho', hkey, hid'⟩ := h.keyed b' k' n' a' hm
  have hkeys := (hL.entry_old e he).symm.trans hkey
  exact hnew (h.holds.resting_iff.mpr
    ⟨b', k', n', a', o', hm, ho', (hashKey_injective hid hid' hkeys).2.symm⟩)

theorem load (h : BooksOnce svc W rows) {svc' : Service} {b : BookId} {o : TradeOrder} {n a : Addr}
    (hL : Loaded svc svc' W b o n a) (hid : o.id < 10 ^ 14)
    (hopen : ∃ r ∈ rows, r.id = o.id ∧ r.status = 'O') (hnew : ¬ svc.Resting o.id) :
    BooksOnce svc' (Function.update W b ((W b).push o.price (n, a))) rows ∧
      AddsTo b [o] svc svc' W (Function.update W b ((W b).push o.price (n, a))) := by
  have hs := h.holds.sorted b
  have hne := fun {b' k' n' a'} (hm : (n', a') ∈ (W b').get k') => h.entry_ne hL hid hnew hm
  -- an item is the new one, or an old one with its old order
  have hitem : ∀ b' k' n' a' o',
      (n', a') ∈ (Function.update W b ((W b).push o.price (n, a)) b').get k' →
      svc'.orderOf a' = some o' →
      (b' = b ∧ n' = n ∧ o' = o) ∨ ((n', a') ∈ (W b').get k' ∧ svc.orderOf a' = some o') := by
    intro b' k' n' a' o' hm ho'
    rcases (mem_push_iff hs).mp hm with ⟨hb, -, heq⟩ | hm
    · obtain ⟨rfl, rfl⟩ := Prod.mk.inj heq
      exact .inl ⟨hb, rfl, Option.some.inj (ho'.symm.trans hL.orderOf_self)⟩
    · exact .inr ⟨hm, by rwa [← hL.orderOf_other a' (hne hm)]⟩
  refine ⟨⟨hL.holds, h.keyed.load h.holds (fun _ => id) hL hid, ?_, ?_⟩, ?_⟩
  · intro b₁ k₁ n₁ a₁ o₁ b₂ k₂ n₂ a₂ o₂ h₁ h₂ ho₁ ho₂ heq
    rcases hitem _ _ _ _ _ h₁ ho₁ with ⟨-, rfl, rfl⟩ | ⟨hm₁, ho₁⟩ <;>
      rcases hitem _ _ _ _ _ h₂ ho₂ with ⟨-, rfl, rfl⟩ | ⟨hm₂, ho₂⟩
    · rfl
    · exact absurd (h.holds.resting_iff.mpr ⟨_, _, _, _, _, hm₂, ho₂, heq.symm⟩) hnew
    · exact absurd (h.holds.resting_iff.mpr ⟨_, _, _, _, _, hm₁, ho₁, heq⟩) hnew
    · exact h.single _ _ _ _ _ _ _ _ _ _ hm₁ hm₂ ho₁ ho₂ heq
  · intro b' k' n' a' o' hm ho'
    rcases hitem _ _ _ _ _ hm ho' with ⟨-, -, rfl⟩ | ⟨hm, ho'⟩
    · exact hopen
    · exact h.opened b' k' n' a' o' hm ho'
  · intro b' k' n' a' o' hm ho'
    rcases hitem _ _ _ _ _ hm ho' with ⟨hb, -, rfl⟩ | hold
    · exact .inl ⟨hb, List.mem_singleton_self _⟩
    · exact .inr hold

theorem extend (h : BooksOnce svc W rows) {os : Heap TradeOrder} (hos : Extends svc.orders os) :
    BooksOnce { svc with orders := os } W rows ∧
      AddsTo b [] svc { svc with orders := os } W W := by
  have hsame := fun {b k n a} (hm : (n, a) ∈ (W b).get k) => h.holds.orderOf_extend hos hm
  refine ⟨⟨h.holds.extend hos, h.keyed.extend h.holds hos, ?_, ?_⟩, ?_⟩
  · intro b k n a o b' k' n' a' o' hm hm' ho ho' heq
    rw [hsame hm] at ho
    rw [hsame hm'] at ho'
    exact h.single b k n a o b' k' n' a' o' hm hm' ho ho' heq
  · intro b k n a o hm ho
    rw [hsame hm] at ho
    exact h.opened b k n a o hm ho
  · intro b k n a o hm ho
    rw [hsame hm] at ho
    exact .inr ⟨hm, ho⟩

/-- A query that returns open rows of orders that do not rest in a book. -/
theorem loadOrdersHelper (h : BooksOnce svc W rows) (b : BookId) {answer : List TradeOrder}
    (hids : (answer.map (·.id)).Nodup) (hsmall : ∀ o ∈ answer, o.id < 10 ^ 14)
    (hopen : ∀ o ∈ answer, o ∈ rows ∧ o.status = 'O')
    (hnew : ∀ o ∈ answer, ¬ svc.Resting o.id) :
    ∃ svc' W', TradeServer.loadOrdersHelper svc b.1 b.2 (some answer) = some (svc', true) ∧
      BooksOnce svc' W' rows ∧ AddsTo b answer svc svc' W W' := by
  obtain ⟨svc', W', hrun, -, ⟨h', hadds⟩, -⟩ := @Holds.loadOrdersHelper b answer
    (fun done svc' W' => BooksOnce svc' W' rows ∧ AddsTo b done svc svc' W W') svc W h.holds
    (fun os hos => h.extend hos)
    (fun done o svc₁ W₁ svc₂ n a hpre ⟨h₁, hadds⟩ _ hL => by
      have hmem : o ∈ answer := hpre.subset (by simp)
      have hnd : (done ++ [o]).Nodup := (List.Nodup.of_map _ hids).sublist hpre.sublist
      have hnot : ¬ svc₁.Resting o.id := fun hr => by
        rcases hadds.resting h.holds h₁.holds hr with hr | ⟨o', ho', heq⟩
        · exact hnew o hmem hr
        · have hmem' : o' ∈ answer := hpre.subset (List.mem_append_left _ ho')
          have hsame := List.inj_on_of_nodup_map hids hmem' hmem heq
          exact (List.nodup_append.mp hnd).2.2 o' ho' o (by simp) hsame
      obtain ⟨h₂, hadds'⟩ := h₁.load hL (hsmall o hmem)
        ⟨o, (hopen o hmem).1, rfl, (hopen o hmem).2⟩ hnot
      exact ⟨h₂, hadds.trans hadds'⟩)
  exact ⟨svc', W', hrun, h', hadds⟩

end BooksOnce

/-! ## Filling -/

theorem markFilled_eq (id : Nat) (rows : List TradeOrder) :
    markFilled id rows = markAll [id] rows := by
  simp [markFilled, markAll]

@[simp] theorem markAll_nil (rows : List TradeOrder) : markAll [] rows = rows := by simp [markAll]

theorem markAll_append (ids ids' : List Nat) (rows : List TradeOrder) :
    markAll ids' (markAll ids rows) = markAll (ids ++ ids') rows := by
  simp only [markAll, List.map_map, List.mem_append]
  apply List.map_congr_left
  intro r _
  by_cases h : r.id ∈ ids <;> by_cases h' : r.id ∈ ids' <;> simp [h, h']

@[simp] theorem ids_markAll (ids : List Nat) (rows : List TradeOrder) :
    (markAll ids rows).map (·.id) = rows.map (·.id) := by
  simp only [markAll, List.map_map]
  apply List.map_congr_left
  intro r _
  by_cases h : r.id ∈ ids <;> simp [h]

theorem RowIds.markAll {rows : List TradeOrder} (h : RowIds rows) (ids : List Nat) :
    RowIds (markAll ids rows) := by
  refine ⟨by simpa using h.nodup, fun r hr => ?_⟩
  obtain ⟨r', hr', heq⟩ := List.mem_map.mp (ids_markAll ids rows ▸ List.mem_map_of_mem hr)
  exact heq ▸ h.small r' hr'

theorem mem_markAll {ids : List Nat} {rows : List TradeOrder} {r : TradeOrder} (hr : r ∈ rows) :
    (if r.id ∈ ids then { r with status := 'F' } else r) ∈ markAll ids rows :=
  List.mem_map_of_mem hr

theorem filledIds_append (fills fills' : List Fill) :
    filledIds (fills ++ fills') = filledIds fills ++ filledIds fills' := by
  simp [filledIds]

/-- The rows after a list of calls. -/
theorem fillAll_fillRow (xs : List (Addr × TradeOrder)) (rows : List TradeOrder)
    (outcomes : List Bool) :
    (fillAll fillRow xs (rows, outcomes)).2.1 =
      markAll (filledIds (fillAll fillRow xs (rows, outcomes)).1) rows := by
  induction xs generalizing rows outcomes with
  | nil => simp [fillAll, filledIds]
  | cons x xs ih =>
    by_cases hf : outcomes.headD false
    · simp only [fillAll, fillRow, hf, if_true, ih, markFilled_eq, markAll_append]
      simp [filledIds]
    · simp only [fillAll, fillRow, hf, ih]
      simp [filledIds]

theorem filledIds_sublist {σ : Type} (fillOrder : FillOrder σ) (xs : List (Addr × TradeOrder))
    (world : σ) : (filledIds (fillAll fillOrder xs world).1).Sublist (xs.map (·.2.id)) := by
  have hcalls := congrArg (List.map fun x => x.2.id) (@fillAll_calls σ fillOrder xs world)
  rw [← hcalls, List.map_map]
  exact List.filter_sublist.map _

theorem mem_filledIds {fills : List Fill} {id : Nat} :
    id ∈ filledIds fills ↔ ∃ f ∈ fills, f.filled = true ∧ f.order.id = id := by
  simp [filledIds, and_assoc]

namespace BooksOnce

variable {svc : Service} {W : Books} {rows : List TradeOrder}

/-- A scan passes different orders, all of them with open rows. -/
theorem crossed_orders (h : BooksOnce svc W rows) (ticker : Ticker) (last current : Nat) :
    let xs := withOrders svc.htOrders.entries svc.orders (W.crossed ticker last current)
    (∀ x ∈ xs, ∃ b k a, (x.1, a) ∈ (W b).get k ∧ svc.orderOf a = some x.2) ∧
      (xs.map (·.2.id)).Nodup := by
  intro xs
  have hitem : ∀ x ∈ xs, ∃ b k a, (x.1, a) ∈ (W b).get k ∧ svc.orderOf a = some x.2 := by
    rintro ⟨n, o⟩ hx
    obtain ⟨a, ha, ho⟩ := mem_withOrders.mp hx
    obtain ⟨side, k, -, -, hm⟩ := (Books.mem_crossed h.holds.sorted).mp ha
    exact ⟨_, k, a, hm, ho⟩
  have hnodes : (xs.map Prod.fst).Nodup := (h.holds.crossed_nodup _ _ _).sublist withOrders_nodes
  refine ⟨hitem, List.Nodup.map_on (fun x hx y hy heq => ?_) (List.Nodup.of_map _ hnodes)⟩
  obtain ⟨b, k, a, hm, ho⟩ := hitem x hx
  obtain ⟨b', k', a', hm', ho'⟩ := hitem y hy
  exact List.inj_on_of_nodup_map hnodes hx hy (h.single _ _ _ _ _ _ _ _ _ _ hm hm' ho ho' heq)

/-- An item that stays shares its id with no filled order, since that order would have its node. -/
theorem not_filled (h : BooksOnce svc W rows) {fills : List Fill}
    (hcalls : ∀ f ∈ fills, ∃ b k a, (f.node, a) ∈ (W b).get k ∧ svc.orderOf a = some f.order)
    {b : BookId} {k : Nat} {n a : Addr} {o : TradeOrder}
    (hm : (n, a) ∈ (W.without (filledNodes fills) b).get k) (ho : svc.orderOf a = some o) :
    o.id ∉ filledIds fills := by
  intro hmem
  obtain ⟨hm, hn⟩ := Books.mem_without.mp hm
  obtain ⟨f, hf, hfilled, hfid⟩ := mem_filledIds.mp hmem
  obtain ⟨b', k', a', hm', ho'⟩ := hcalls f hf
  have hnode := h.single _ _ _ _ _ _ _ _ _ _ hm hm' ho ho' hfid.symm
  exact hn (mem_filledNodes.mpr ⟨f, hf, hfilled, hnode.symm⟩)

/-- A scan with any `fill_order`: the calls are for different orders of the books, and the orders
of the failed ones stay. -/
theorem scan (h : BooksOnce svc W rows) {σ : Type} (fillOrder : FillOrder σ) (ticker : Ticker)
    (currentPrice : Nat) (world : σ) :
    ∃ xs svc' W', TradeServer.processFills fillOrder svc ticker currentPrice world =
        some (svc', fillAll fillOrder xs world) ∧
      (∀ x ∈ xs, ∃ b k a, (x.1, a) ∈ (W b).get k ∧ svc.orderOf a = some x.2) ∧
      (xs.map (·.2.id)).Nodup ∧
      BooksOnce svc' W' (markAll (filledIds (fillAll fillOrder xs world).1) rows) ∧
      ∀ b k n a, (n, a) ∈ (W' b).get k → (n, a) ∈ (W b).get k ∧
        svc'.orderOf a = svc.orderOf a ∧
        ∀ o, svc.orderOf a = some o → o.id ∉ filledIds (fillAll fillOrder xs world).1 := by
  by_cases hlast : svc.lastPrices ticker = 0
  · refine ⟨[], svc, W, by simp [TradeServer.processFills, hlast, fillAll], by simp, by simp, ?_,
      fun b k n a hm => ⟨hm, rfl, by simp [fillAll, filledIds]⟩⟩
    simpa [fillAll, filledIds] using h
  obtain ⟨svc', hrun, h', hht, horders, -⟩ :=
    h.holds.processFills fillOrder hlast currentPrice world
  obtain ⟨hitem, hids⟩ := h.crossed_orders ticker (svc.lastPrices ticker) currentPrice
  simp only [callsOn] at hrun h'
  generalize withOrders svc.htOrders.entries svc.orders
    (W.crossed ticker (svc.lastPrices ticker) currentPrice) = xs at hrun h' hitem hids
  have hcalls := @fillAll_calls _ fillOrder xs world
  generalize hc : fillAll fillOrder xs world = c at hrun h' hcalls
  have horderOf : ∀ a, svc'.orderOf a = svc.orderOf a := fun a => by
    simp only [Service.orderOf, hht, horders]
  have hleft := fun {b k n a o} => @not_filled _ _ _ h c.1
    (fun f hf => hitem (f.node, f.order) (hcalls ▸ List.mem_map_of_mem hf)) b k n a o
  refine ⟨xs, svc', W.without (filledNodes c.1), by rw [hc, hrun], hitem, hids, ?_,
    fun b k n a hm => ?_⟩
  · rw [hc]
    refine ⟨h', ?_, ?_, ?_⟩
    · intro b k n a hm
      rw [horderOf, hht]
      exact h.keyed b k n a (Books.mem_without.mp hm).1
    · intro b k n a o b' k' n' a' o' hm hm' ho ho'
      rw [horderOf] at ho ho'
      exact h.single b k n a o b' k' n' a' o' (Books.mem_without.mp hm).1
        (Books.mem_without.mp hm').1 ho ho'
    · intro b k n a o hm ho
      rw [horderOf] at ho
      obtain ⟨r, hr, hid, hopen⟩ := h.opened b k n a o (Books.mem_without.mp hm).1 ho
      refine ⟨r, ?_, hid, hopen⟩
      simpa [hid, hleft hm ho] using @mem_markAll (filledIds c.1) rows r hr
  · rw [hc]
    exact ⟨(Books.mem_without.mp hm).1, horderOf a, fun o ho => hleft hm ho⟩

theorem processFills (h : BooksOnce svc W rows) (ticker : Ticker) (currentPrice : Nat)
    (outcomes : List Bool) :
    ∃ svc' fills outcomes' W', TradeServer.processFills fillRow svc ticker currentPrice
        (rows, outcomes) = some (svc', fills, markAll (filledIds fills) rows, outcomes') ∧
      BooksOnce svc' W' (markAll (filledIds fills) rows) ∧ (filledIds fills).Nodup ∧
      (∀ id ∈ filledIds fills, ∃ r ∈ rows, r.id = id ∧ r.status = 'O') := by
  obtain ⟨xs, svc', W', hrun, hitem, hids, h', -⟩ := h.scan fillRow ticker currentPrice
    (rows, outcomes)
  have hrows := fillAll_fillRow xs rows outcomes
  have hsub := filledIds_sublist fillRow xs (rows, outcomes)
  have hcalls := @fillAll_calls _ fillRow xs (rows, outcomes)
  obtain ⟨⟨fills, rows', outcomes'⟩, hc⟩ : ∃ c, fillAll fillRow xs (rows, outcomes) = c := ⟨_, rfl⟩
  rw [hc] at hrun h' hrows hcalls hsub
  obtain rfl : rows' = markAll (filledIds fills) rows := hrows
  refine ⟨svc', fills, outcomes', W', hrun, h', hids.sublist hsub, fun id hmem => ?_⟩
  obtain ⟨f, hf, -, rfl⟩ := mem_filledIds.mp hmem
  obtain ⟨b, k, a, hm, ho⟩ := hitem (f.node, f.order) (hcalls ▸ List.mem_map_of_mem hf)
  exact h.opened b k f.node a f.order hm ho

end BooksOnce

namespace Once

variable {s t : Market} {W : Books}

theorem insert (h : Once s W) {o : TradeOrder} (ho : Insertable s o) {late : List TradeOrder} :
    Once { s with rows := s.rows ++ [o], late := late } W := by
  refine ⟨h.books.append o, h.ids.insert ho, fun id hid => ?_, h.once⟩
  obtain ⟨r, hr, hclosed⟩ := h.closed id hid
  exact ⟨r, List.mem_append_left _ hr, hclosed⟩

theorem query (h : Once s W) {all : List TradeOrder} (hok : ReturnsNew s (.query all))
    {b : BookId} (hres : ResultOf (loadQuery s.svc b.1 b.2) s.rows all) {svc : Service}
    (hload : TradeServer.loadOrdersHelper s.svc b.1 b.2 (some (all.take MAX_LOAD_ORDERS)) =
      some (svc, true)) : ∃ W', BooksOnce svc W' s.rows := by
  have hsub : (all.take MAX_LOAD_ORDERS).Sublist all := List.take_sublist _ _
  have hall : ∀ o ∈ all.take MAX_LOAD_ORDERS, o ∈ s.rows ∧ o.status = 'O' := by
    intro o ho
    obtain ⟨hrow, -, hopen, -⟩ := hres.of_mem (hsub.subset ho)
    exact ⟨hrow, hopen⟩
  have hids : (all.map (·.id)).Nodup :=
    (hres.1.map _).nodup_iff.mpr (h.ids.nodup.sublist (List.filter_sublist.map _))
  obtain ⟨svc', W', hrun, hbooks, -⟩ := h.books.loadOrdersHelper b (hids.sublist (hsub.map _))
    (fun o ho => h.ids.small o (hall o ho).1) hall hok
  obtain ⟨rfl, -⟩ := Prod.mk.inj (Option.some.inj (hrun.symm.trans hload))
  exact ⟨W', hbooks⟩

/-- The orders that a scan fills were open before and are closed after it. -/
theorem fill (h : Once s W) {ticker : Ticker} {currentPrice : Nat} {outcomes rest : List Bool}
    {svc : Service} {fills : List Fill} {rows : List TradeOrder}
    (hfill : TradeServer.processFills fillRow s.svc ticker currentPrice (s.rows, outcomes) =
      some (svc, fills, rows, rest)) :
    ∃ W', Once { s with svc := svc, fills := s.fills ++ fills, rows := rows } W' := by
  obtain ⟨svc', fills', outcomes', W', hrun, hbooks, hnodup, hopen⟩ :=
    h.books.processFills ticker currentPrice outcomes
  obtain ⟨rfl, rfl, rfl, rfl⟩ : svc' = svc ∧ fills' = fills ∧
      markAll (filledIds fills') s.rows = rows ∧ outcomes' = rest := by
    simpa only [Option.some_inj, Prod.mk.injEq] using hrun.symm.trans hfill
  refine ⟨W', hbooks, h.ids.markAll _, fun id hid => ?_, ?_⟩
  · rw [filledIds_append, List.mem_append] at hid
    rcases hid with hid | hid
    · obtain ⟨r, hr, rfl, hclosed⟩ := h.closed id hid
      refine ⟨_, @mem_markAll (filledIds fills') s.rows r hr, ?_, ?_⟩
      · split_ifs <;> rfl
      · split_ifs
        · exact (show 'F' ≠ 'O' by decide)
        · exact hclosed
    · obtain ⟨r, hr, rfl, -⟩ := hopen id hid
      refine ⟨_, @mem_markAll (filledIds fills') s.rows r hr, ?_, ?_⟩
      · rw [if_pos hid]
      · rw [if_pos hid]
        exact (show 'F' ≠ 'O' by decide)
  · rw [filledIds_append, List.nodup_append]
    refine ⟨h.once, hnodup, fun id hid id' hid' heq => ?_⟩
    subst heq
    obtain ⟨r, hr, hrid, hclosed⟩ := h.closed id hid
    obtain ⟨r', hr', hrid', hopen'⟩ := hopen id hid'
    obtain rfl := h.ids.eq_of_id hr hr' (hrid.trans hrid'.symm)
    exact hclosed hopen'

theorem step (h : Once s W) {e : MarketEvent} (hok : ReturnsNew s e) (hstep : market.step s e t) :
    ∃ W', Once t W' := by
  cases marketStep_cases hstep with
  | tick => exact ⟨W, h.books, h.ids, h.closed, h.once⟩
  | insert ho => exact ⟨W, h.insert ho⟩
  | beginCycle hc => exact ⟨W, h.books, h.ids, h.closed, h.once⟩
  | query hc hres hload =>
    obtain ⟨W', hbooks⟩ := h.query hok hres hload
    exact ⟨W', hbooks, h.ids, h.closed, h.once⟩
  | refresh hc => exact ⟨W, h.books.setTimes _ _, h.ids, h.closed, h.once⟩
  | fill hc hrun => exact h.fill hrun
  | price => exact ⟨W, h.books.setTimes _ _, h.ids, h.closed, h.once⟩

end Once

theorem booksOnce_tradeServiceInit (unset : Nat) (rows : List TradeOrder) :
    BooksOnce (tradeServiceInit unset) (fun _ => []) rows := by
  refine ⟨holds_tradeServiceInit unset, ?_, ?_, ?_⟩
  · intro b k n a hm
    simp at hm
  · intro b k n a o b' k' n' a' o' hm
    simp at hm
  · intro b k n a o hm
    simp at hm

theorem once_of_start {s : Market} (h : MarketStart s) : Once s (fun _ => []) := by
  obtain ⟨unset, lastPrices, hsvc⟩ := h.svc
  refine ⟨hsvc ▸ (booksOnce_tradeServiceInit unset s.rows).setTimes _ _, h.ids, ?_, ?_⟩
  · simp [h.fills, filledIds]
  · simp [h.fills, filledIds]

/-- In every run whose queries return no order that rests in a book, no order is filled twice. -/
theorem filled_once {s : Market} (h : (market.restrict ReturnsNew).Reachable s) :
    (filledIds s.fills).Nodup := by
  have hinv : (market.restrict ReturnsNew).Invariant fun s => ∃ W, Once s W := by
    refine ⟨fun s hs => ⟨_, once_of_start hs⟩, ?_⟩
    rintro s e t ⟨W, hW⟩ ⟨hok, hstep⟩
    exact hW.step hok hstep
  obtain ⟨W, hW⟩ := hinv.of_reachable h
  exact hW.once

/-- The order is loaded by one cycle and filled. -/
theorem filled_once_after_one_cycle : ∃ s, marketRun emptyMarket (.insert firstOrder ::
    cycleOf [firstOrder] ++ [.fill .ANDTHEN 3 [true]]) = some s ∧ filledIds s.fills = [7] ∧
      (filledIds s.fills).Nodup := by
  have hfills : (marketRun emptyMarket (.insert firstOrder :: cycleOf [firstOrder] ++
      [.fill .ANDTHEN 3 [true]])).map (filledIds ·.fills) = some [7] := by decide
  obtain ⟨s, hrun, hs⟩ := Option.map_eq_some_iff.mp hfills
  refine ⟨s, hrun, hs, filled_once ?_⟩
  -- nothing rests in a book before the first query
  let v : Market := { emptyMarket with
    rows := [firstOrder], cycle := some loadSequence, snapshot := [firstOrder] }
  have hv : marketRun emptyMarket [.insert firstOrder, .beginCycle] = some v := rfl
  have hnew : ReturnsNew v (.query [firstOrder]) := by
    rintro o - hr
    obtain ⟨b, k, n, a, o', hm, -⟩ :=
      (once_of_start marketStart_emptyMarket).books.holds.resting_iff.mp hr
    simp at hm
  have hsplit : MarketEvent.insert firstOrder :: cycleOf [firstOrder] ++
      [MarketEvent.fill .ANDTHEN 3 [true]] =
    [MarketEvent.insert firstOrder, MarketEvent.beginCycle] ++ ([MarketEvent.query [firstOrder]] ++
      (List.replicate 7 (MarketEvent.query []) ++
        [MarketEvent.refresh, MarketEvent.fill .ANDTHEN 3 [true]])) := rfl
  rw [hsplit, marketRun_append, hv, Option.bind_some, marketRun_append,
    Option.bind_eq_some_iff] at hrun
  obtain ⟨u, hquery, hrest⟩ := hrun
  have hstep : marketStep v (.query [firstOrder]) = some u := by simpa [marketRun] using hquery
  refine ⟨emptyMarket, _, marketStart_emptyMarket,
    .append (.of_foldlM ?_ hv) (.cons ⟨hnew, hstep⟩ (.of_foldlM ?_ hrest))⟩
  · intro e he s t hstep
    simp only [List.mem_cons, List.not_mem_nil, or_false] at he
    rcases he with rfl | rfl <;> exact ⟨trivial, hstep⟩
  · intro e he s t hstep
    simp only [List.mem_append, List.mem_replicate, List.mem_cons, List.not_mem_nil, or_false] at he
    rcases he with ⟨-, rfl⟩ | rfl | rfl
    · exact ⟨by simp [ReturnsNew], hstep⟩
    · exact ⟨trivial, hstep⟩
    · exact ⟨trivial, hstep⟩

/-- An order is inserted and loaded in one second. A cycle in the next second loads it again, and it
is filled twice. -/
theorem reloaded_order_filled_twice : ¬ ∀ s, market.Reachable s → (filledIds s.fills).Nodup := by
  intro h
  have hfills : (marketRun emptyMarket (.insert firstOrder :: cycleOf [firstOrder] ++
      .tick :: cycleOf [firstOrder] ++ [.fill .ANDTHEN 3 [true, true]])).map (filledIds ·.fills) =
        some [7, 7] := by decide
  obtain ⟨s, hrun, hs⟩ := Option.map_eq_some_iff.mp hfills
  have := h s ⟨emptyMarket, _, marketStart_emptyMarket,
    .of_foldlM (fun _ _ _ _ hstep => hstep) hrun⟩
  simp [hs] at this

end TradeServer
