import TradeServer.DataStructures.RbTreeRange
import TradeServer.Service.Books
import TradeServer.Service.Fills

/-!
# The scan of the order books for fills

A visit of a range of prices is a fold over the lists in the range, and `order_visitor`
calls `fill_order` once for each item of a list, in order. `fillAll` is what the calls
do to the world; the lists keep the items whose calls failed.
-/

namespace TradeServer

open Library

/-- The calls for a list of nodes with their orders, one after another. -/
def fillAll {σ : Type} (fillOrder : FillOrder σ) : List (Addr × TradeOrder) → σ → List Fill × σ
  | [], world => ([], world)
  | (node, order) :: rest, world =>
    let (filled, world) := fillOrder order world
    let (fills, world) := fillAll fillOrder rest world
    (⟨node, order, filled⟩ :: fills, world)

/-- The nodes whose orders were filled. -/
def filledNodes (fills : List Fill) : List Addr := (fills.filter (·.filled)).map (·.node)

/-- The items of a list with the orders that they lead to. -/
def withOrders (entries : Heap HtEntry) (orders : Heap TradeOrder) (items : List (Addr × Addr)) :
    List (Addr × TradeOrder) :=
  items.filterMap fun x => (orderOf entries orders x.2).map (x.1, ·)

def Queue.keep (q : Queue) (S : List Addr) : Queue :=
  { q with items := q.items.filter (fun x => x.1 ∉ S) }

/-- Every list without the nodes in `S`. -/
def keepQueues (S : List Addr) (L : Addr → Option Queue) : Addr → Option Queue :=
  fun p => (L p).map (·.keep S)

section FillAll

variable {σ : Type} {fillOrder : FillOrder σ}

theorem fillAll_append (xs ys : List (Addr × TradeOrder)) (world : σ) :
    fillAll fillOrder (xs ++ ys) world =
      ((fillAll fillOrder xs world).1 ++ (fillAll fillOrder ys (fillAll fillOrder xs world).2).1,
        (fillAll fillOrder ys (fillAll fillOrder xs world).2).2) := by
  induction xs generalizing world with
  | nil => simp [fillAll]
  | cons x xs ih => simp [fillAll, ih]

/-- Each item is passed to `fill_order` once, in order. -/
theorem fillAll_calls (xs : List (Addr × TradeOrder)) (world : σ) :
    (fillAll fillOrder xs world).1.map (fun f => (f.node, f.order)) = xs := by
  induction xs generalizing world with
  | nil => rfl
  | cons x xs ih => simp [fillAll, ih]

theorem mem_filledNodes {fills : List Fill} {a : Addr} :
    a ∈ filledNodes fills ↔ ∃ f ∈ fills, f.filled = true ∧ f.node = a := by
  simp [filledNodes, and_assoc]

theorem filledNodes_append (fills fills' : List Fill) :
    filledNodes (fills ++ fills') = filledNodes fills ++ filledNodes fills' := by
  simp [filledNodes]

theorem filledNodes_cons (f : Fill) (fills : List Fill) :
    filledNodes (f :: fills) =
      if f.filled then f.node :: filledNodes fills else filledNodes fills := by
  by_cases h : f.filled <;> simp [filledNodes, h]

theorem filledNodes_fillAll {xs : List (Addr × TradeOrder)} {world : σ} {a : Addr}
    (h : a ∈ filledNodes (fillAll fillOrder xs world).1) : a ∈ xs.map Prod.fst := by
  obtain ⟨f, hf, -, rfl⟩ := mem_filledNodes.mp h
  have := List.mem_map_of_mem (f := fun f : Fill => (f.node, f.order)) hf
  rw [fillAll_calls] at this
  exact List.mem_map.mpr ⟨_, this, rfl⟩

theorem mem_withOrders {entries : Heap HtEntry} {orders : Heap TradeOrder}
    {items : List (Addr × Addr)} {n : Addr} {o : TradeOrder} :
    (n, o) ∈ withOrders entries orders items ↔
      ∃ a, (n, a) ∈ items ∧ orderOf entries orders a = some o := by
  simp only [withOrders, List.mem_filterMap, Option.map_eq_some_iff, Prod.mk.injEq]
  constructor
  · rintro ⟨⟨n', a⟩, hm, o', ho, rfl, rfl⟩
    exact ⟨a, hm, ho⟩
  · rintro ⟨a, hm, ho⟩
    exact ⟨(n, a), hm, o, ho, rfl, rfl⟩

theorem withOrders_cons {entries : Heap HtEntry} {orders : Heap TradeOrder} {n a : Addr}
    {items : List (Addr × Addr)} {o : TradeOrder} (ho : orderOf entries orders a = some o) :
    withOrders entries orders ((n, a) :: items) = (n, o) :: withOrders entries orders items := by
  simp [withOrders, ho]

theorem withOrders_append (entries : Heap HtEntry) (orders : Heap TradeOrder)
    (items items' : List (Addr × Addr)) :
    withOrders entries orders (items ++ items') =
      withOrders entries orders items ++ withOrders entries orders items' :=
  List.filterMap_append

theorem withOrders_nodes {entries : Heap HtEntry} {orders : Heap TradeOrder}
    {items : List (Addr × Addr)} :
    ((withOrders entries orders items).map Prod.fst).Sublist (items.map Prod.fst) := by
  induction items with
  | nil => exact List.Sublist.slnil
  | cons x items ih =>
    obtain ⟨n, a⟩ := x
    cases ho : orderOf entries orders a with
    | none => simpa [withOrders, ho] using ih.cons n
    | some o => simpa [withOrders_cons ho] using ih.cons_cons n

end FillAll

section Lists

theorem Queue.keep_nil (q : Queue) : q.keep [] = q := by simp [Queue.keep]

theorem Queue.keep_erase (q : Queue) (a : Addr) (S : List Addr) :
    (q.erase a).keep S = q.keep (a :: S) := by
  simp [Queue.keep, Queue.erase, List.filter_filter, Bool.and_comm]

variable {L : Addr → Option Queue}

theorem keepQueues_append (S S' : List Addr) :
    keepQueues S' (keepQueues S L) = keepQueues (S ++ S') L := by
  funext p
  cases hL : L p <;> simp [keepQueues, hL, Queue.keep, List.filter_filter, Bool.and_comm]

/-- Lists that share no node with `S` keep their items. -/
theorem keepQueues_of_disjoint {m : DlHeap} (h : Queues m L) {p p' : Addr} {q : Queue}
    (hp : L p = some q) {S : List Addr} (hS : ∀ a ∈ S, a ∈ q.nodes) (hne : p' ≠ p) :
    keepQueues S L p' = L p' := by
  cases hL : L p' with
  | none => simp [keepQueues, hL]
  | some q' =>
    have hdis := h.disjoint hL hp hne
    have hall : ∀ x ∈ q'.items, x.1 ∉ S := fun x hx hxS => hdis (Queue.mem_nodes hx) (hS _ hxS)
    have hkeep : q'.keep S = q' := by
      rw [Queue.keep, List.filter_eq_self.mpr (by simpa using hall)]
    simp [keepQueues, hL, hkeep]

theorem update_keep {m : DlHeap} (h : Queues m L) {p : Addr} {q : Queue} (hp : L p = some q)
    {S : List Addr} (hS : ∀ a ∈ S, a ∈ q.nodes) :
    Function.update L p (some (q.keep S)) = keepQueues S L := by
  funext p'
  by_cases hne : p' = p
  · subst hne
    simp [keepQueues, hp]
  · rw [Function.update_of_ne hne, keepQueues_of_disjoint h hp hS hne]

end Lists

section Visitor

variable {σ : Type} (fillOrder : FillOrder σ) (entries : Heap HtEntry) (orders : Heap TradeOrder)

/-- All items lead to orders. -/
def Resolved (items : List (Addr × Addr)) : Prop :=
  ∀ x ∈ items, ∃ o, orderOf entries orders x.2 = some o

/-- The calls for the items of a list. -/
def callsOn (items : List (Addr × Addr)) (world : σ) : List Fill × σ :=
  fillAll fillOrder (withOrders entries orders items) world

variable {fillOrder entries orders} {L : Addr → Option Queue}

@[simp] theorem callsOn_nil (world : σ) : callsOn fillOrder entries orders [] world = ([], world) :=
  rfl

theorem callsOn_cons {n a : Addr} {o : TradeOrder} (ho : orderOf entries orders a = some o)
    (items : List (Addr × Addr)) (world : σ) :
    callsOn fillOrder entries orders ((n, a) :: items) world =
      let result := fillOrder o world
      let calls := callsOn fillOrder entries orders items result.2
      (⟨n, o, result.1⟩ :: calls.1, calls.2) := by
  simp [callsOn, withOrders_cons ho, fillAll]

theorem callsOn_append (items items' : List (Addr × Addr)) (world : σ) :
    callsOn fillOrder entries orders (items ++ items') world =
      let calls := callsOn fillOrder entries orders items world
      let calls' := callsOn fillOrder entries orders items' calls.2
      (calls.1 ++ calls'.1, calls'.2) := by
  simp [callsOn, withOrders_append, fillAll_append]

theorem filledNodes_callsOn {items : List (Addr × Addr)} {world : σ} {a : Addr}
    (h : a ∈ filledNodes (callsOn fillOrder entries orders items world).1) :
    a ∈ items.map Prod.fst := withOrders_nodes.subset (filledNodes_fillAll h)

/-- The loop of `order_visitor` from any item on. -/
theorem visitFrom_run {lists : DlHeap} (hQ : Queues lists L) {p : Addr} {q : Queue}
    (hp : L p = some q) {done rest : List (Addr × Addr)} (hq : q.items = done ++ rest)
    (hrest : Resolved entries orders rest) {fuel : Nat} (hfuel : rest.length < fuel)
    (fills : List Fill) (world : σ) :
    let calls := callsOn fillOrder entries orders rest world
    ∃ lists', visitFrom fillOrder entries orders p fuel (firstOr NULL rest) ⟨lists, fills, world⟩ =
        some ⟨lists', fills ++ calls.1, calls.2⟩ ∧
      Queues lists' (Function.update L p (some (q.keep (filledNodes calls.1)))) := by
  induction rest generalizing lists L q done fuel fills world with
  | nil =>
    obtain ⟨fuel, rfl⟩ : ∃ k, fuel = k + 1 := ⟨fuel - 1, by omega⟩
    refine ⟨lists, by simp [visitFrom], ?_⟩
    simpa [filledNodes, Queue.keep_nil, ← hp] using hQ
  | cons x rest ih =>
    obtain ⟨n, a⟩ := x
    obtain ⟨fuel, rfl⟩ : ∃ k, fuel = k + 1 := ⟨fuel - 1, by omega⟩
    obtain ⟨o, ho⟩ := hrest (n, a) (by simp)
    obtain ⟨prev, hn⟩ := hQ.load_item hp hq
    have hlen : rest.length < fuel := by simpa using hfuel
    have hres : Resolved entries orders rest := fun x hx => hrest x (by simp [hx])
    cases hf : (fillOrder o world).1 with
    | true =>
      obtain ⟨lists₁, hremove, hQ₁, -⟩ := hQ.remove hp hq
      obtain ⟨lists', hrun, hQ'⟩ := ih hQ₁ (Function.update_self ..) (hQ.erase_items hp hq) hres
        hlen
        (fills ++ [⟨n, o, true⟩]) (fillOrder o world).2
      refine ⟨lists', ?_, ?_⟩
      · simp [visitFrom, Heap.ne_null_of_load hn, hn, ho, hf, hremove, hrun, callsOn_cons ho]
      · simpa [callsOn_cons ho, hf, filledNodes_cons, Queue.keep_erase] using hQ'
    | false =>
      obtain ⟨lists', hrun, hQ'⟩ := ih hQ hp
        (show q.items = (done ++ [(n, a)]) ++ rest by simp [hq]) hres hlen
        (fills ++ [⟨n, o, false⟩]) (fillOrder o world).2
      refine ⟨lists', ?_, ?_⟩
      · simp [visitFrom, Heap.ne_null_of_load hn, hn, ho, hf, hrun, callsOn_cons ho]
      · simpa [callsOn_cons ho, hf, filledNodes_cons] using hQ'

/-- One list. -/
theorem orderVisitor_run {lists : DlHeap} (hQ : Queues lists L) {p : Addr} {q : Queue}
    (hp : L p = some q) (hitems : Resolved entries orders q.items) (fills : List Fill) (world : σ) :
    let calls := callsOn fillOrder entries orders q.items world
    ∃ lists', orderVisitor fillOrder entries orders p ⟨lists, fills, world⟩ =
        some ⟨lists', fills ++ calls.1, calls.2⟩ ∧
      Queues lists' (keepQueues (filledNodes calls.1) L) := by
  have hs := hQ.stored hp
  have hlive : ∀ a ∈ q.nodes, lists.nodes.load a ≠ none := fun a ha => by
    obtain ⟨n, hn⟩ := hs.live ha
    simp [hn]
  have hlen := Heap.length_lt_next hs.nodup hlive
  have hfuel : q.items.length < lists.nodes.next := by
    simp only [Queue.nodes, Queue.cells, List.length_map, List.length_cons] at hlen
    omega
  obtain ⟨lists', hrun, hQ'⟩ :=
    @visitFrom_run _ fillOrder _ _ _ _ hQ _ _ hp [] _ rfl hitems _ hfuel fills world
  refine ⟨lists', ?_, ?_⟩
  · simp [orderVisitor, hs.list, hQ.load_head hp, hrun]
  · rwa [update_keep hQ hp fun a ha => ?_] at hQ'
    obtain ⟨x, hx, rfl⟩ := List.mem_map.mp (filledNodes_callsOn ha)
    exact Queue.mem_nodes hx

/-- All lists of some nodes, one after another. -/
theorem visitLists_run {bs : List (Nat × Ref)} (hlisted : ∀ b ∈ bs, ∃ q, L b.2.list = some q)
    (hown : bs.Pairwise (·.2.list ≠ ·.2.list)) {lists : DlHeap} (hQ : Queues lists L)
    (hitems : Resolved entries orders (bs.flatMap fun b => (L b.2.list).elim [] Queue.items))
    (fills : List Fill) (world : σ) :
    let calls := callsOn fillOrder entries orders
      (bs.flatMap fun b => (L b.2.list).elim [] Queue.items) world
    ∃ lists', bs.foldlM (fun v b => orderVisitor fillOrder entries orders b.2.list v)
        ⟨lists, fills, world⟩ = some ⟨lists', fills ++ calls.1, calls.2⟩ ∧
      Queues lists' (keepQueues (filledNodes calls.1) L) := by
  induction bs generalizing L lists fills world with
  | nil =>
    refine ⟨lists, by simp, ?_⟩
    have hid : keepQueues [] L = L := by
      funext p
      cases hL : L p <;> simp [keepQueues, hL, Queue.keep_nil]
    simpa [filledNodes, hid] using hQ
  | cons b bs ih =>
    obtain ⟨hb, hown⟩ := List.pairwise_cons.mp hown
    obtain ⟨q, hq⟩ := hlisted b (by simp)
    simp only [List.flatMap_cons, hq, Option.elim_some] at hitems ⊢
    have hitems' := fun x hx => hitems x (List.mem_append_right _ hx)
    obtain ⟨lists₁, hrun₁, hQ₁⟩ := @orderVisitor_run _ fillOrder _ _ _ _ hQ _ _ hq
      (fun x hx => hitems x (List.mem_append_left _ hx)) fills world
    -- the first list shares no node with the other ones
    have hsame : ∀ b' ∈ bs, keepQueues (filledNodes (callsOn fillOrder entries orders q.items
        world).1) L b'.2.list = L b'.2.list := by
      intro b' hb'
      refine keepQueues_of_disjoint hQ hq (fun a ha => ?_) (Ne.symm (hb b' hb'))
      obtain ⟨x, hx, rfl⟩ := List.mem_map.mp (filledNodes_callsOn ha)
      exact Queue.mem_nodes hx
    have hflat : (bs.flatMap fun b => (keepQueues (filledNodes (callsOn fillOrder entries orders
        q.items world).1) L b.2.list).elim [] Queue.items) =
        bs.flatMap fun b => (L b.2.list).elim [] Queue.items :=
      List.flatMap_congr fun b' hb' => by rw [hsame b' hb']
    obtain ⟨lists', hrun, hQ'⟩ := ih
      (fun b' hb' => by rw [hsame b' hb']; exact hlisted b' (by simp [hb'])) hown hQ₁
      (hflat ▸ hitems') (fills ++ (callsOn fillOrder entries orders q.items world).1)
      (callsOn fillOrder entries orders q.items world).2
    rw [hflat] at hrun hQ'
    refine ⟨lists', ?_, ?_⟩
    · simp [hrun₁, hrun, callsOn_append]
    · simpa [callsOn_append, filledNodes_append, keepQueues_append] using hQ'

end Visitor

theorem levels_keepQueues (S : List Addr) (L : Addr → Option Queue) (t : BookTree) :
    levels (keepQueues S L) t = (levels L t).keep (fun x => x.1 ∉ S) := by
  simp only [levels, Levels.keep, List.map_map]
  apply List.map_congr_left
  intro b _
  cases hL : L b.2.list <;> simp [keepQueues, hL, Queue.keep]

/-- Removing items from lists leaves the trees as they are. -/
theorem Forest.keepQueues {ι : Type*} {m : RbHeap} {root : ι → Addr} {T : ι → BookTree}
    {L : Addr → Option Queue} (F : Forest m root T L) {lists : DlHeap} {S : List Addr}
    (hQ : Queues lists (keepQueues S L)) :
    Forest { m with dl := lists } root T (TradeServer.keepQueues S L) where
  nilBlack := F.nilBlack
  tree := F.tree
  disjoint := F.disjoint
  redBlack := F.redBlack
  ordered := F.ordered
  queues := hQ
  listed hb := by
    obtain ⟨q, hq⟩ := F.listed hb
    exact ⟨q.keep S, by simp [TradeServer.keepQueues, hq]⟩
  own := F.own

/-- The visit of the prices in a range of one tree. -/
theorem Forest.visitRange {ι : Type*} {m : RbHeap} {root : ι → Addr} {T : ι → BookTree}
    {L : Addr → Option Queue} (F : Forest m root T L) (i : ι) (lo hi : Nat) {σ : Type}
    (fillOrder : FillOrder σ) {entries : Heap HtEntry} {orders : Heap TradeOrder}
    (hitems : Resolved entries orders ((levels L (T i)).inRange lo hi)) (fills : List Fill)
    (world : σ) :
    let calls := callsOn fillOrder entries orders ((levels L (T i)).inRange lo hi) world
    ∃ lists', rbtVisitNodesInRange m.nodes m.NIL lo hi (orderVisitor fillOrder entries orders)
        m.nodes.next (root i) ⟨m.dl, fills, world⟩ = some ⟨lists', fills ++ calls.1, calls.2⟩ ∧
      Forest { m with dl := lists' } root T (TradeServer.keepQueues (filledNodes calls.1) L) := by
  have hflat : (levels L (T i)).inRange lo hi =
      ((T i).toList.filter fun b => lo ≤ b.1 ∧ b.1 ≤ hi).flatMap
        fun b => (L b.2.list).elim [] Queue.items := by
    simp [levels, Levels.inRange, List.filter_map, List.flatMap_map, Function.comp_def]
  have hown : ((T i).toList.filter fun b => lo ≤ b.1 ∧ b.1 ≤ hi).Pairwise
      (·.2.list ≠ ·.2.list) := by
    have hne : (T i).toList.Pairwise (· ≠ ·) := (F.ordered i).imp fun hlt hb => by simp [hb] at hlt
    refine (hne.imp_of_mem fun hb hb' hne hl => hne (F.own hb hb' hl).2).filter _
  rw [hflat] at hitems ⊢
  obtain ⟨lists', hrun, hQ⟩ := @visitLists_run _ fillOrder _ _ _ _
    (fun b hb => F.listed (List.mem_of_mem_filter hb)) hown _ F.queues hitems fills world
  refine ⟨lists', ?_, F.keepQueues hQ⟩
  rw [(F.tree i).root, rbtVisitNodesInRange_run (F.ordered i) (F.tree i).stored (F.tree i).nil
    lo hi _ (F.tree i).size_lt]
  exact hrun

/-- The books without the list nodes in `S`. -/
def Books.without (W : Books) (S : List Addr) : Books := fun b => (W b).keep (fun x => x.1 ∉ S)

/-- The items between the last price of a ticker and the current one, buy orders first. -/
def Books.crossed (W : Books) (ticker : Ticker) (last current : Nat) : List (Addr × Addr) :=
  (W (ticker, .BUY)).inRange (min last current) (max last current) ++
    (W (ticker, .SELL)).inRange (min last current) (max last current)

theorem Books.mem_without {W : Books} {S : List Addr} {b : BookId} {k : Nat} {x : Addr × Addr} :
    x ∈ (W.without S b).get k ↔ x ∈ (W b).get k ∧ x.1 ∉ S := by
  simp [Books.without]

theorem Books.mem_crossed {W : Books} (hW : ∀ b, (W b).Sorted) {ticker : Ticker}
    {last current : Nat} {x : Addr × Addr} :
    x ∈ W.crossed ticker last current ↔
      ∃ side k, min last current ≤ k ∧ k ≤ max last current ∧ x ∈ (W (ticker, side)).get k := by
  simp only [Books.crossed, List.mem_append, Levels.mem_inRange (hW _)]
  constructor
  · rintro (⟨k, h⟩ | ⟨k, h⟩)
    · exact ⟨.BUY, k, h⟩
    · exact ⟨.SELL, k, h⟩
  · rintro ⟨side, k, h⟩
    cases side
    · exact .inl ⟨k, h⟩
    · exact .inr ⟨k, h⟩

namespace Holds

variable {svc : Service} {W : Books}

theorem resolved (h : Holds svc W) {items : List (Addr × Addr)}
    (hitems : ∀ x ∈ items, ∃ b k, x ∈ (W b).get k) :
    Resolved svc.htOrders.entries svc.orders items := by
  intro x hx
  obtain ⟨b, k, hm⟩ := hitems x hx
  exact h.orders b k x.1 x.2 hm

/-- Nodes of other books do not matter to a book. -/
theorem without_other (h : Holds svc W) {b : BookId} {S : List Addr}
    (hS : ∀ n ∈ S, ∃ b' k a, b' ≠ b ∧ (n, a) ∈ (W b').get k) : W.without S b = W b := by
  apply Levels.keep_of_forall
  intro l hl x hx
  simp only [decide_eq_true_eq]
  intro hmem
  obtain ⟨b', k, a, hne, hm⟩ := hS _ hmem
  have hx' : (x.1, x.2) ∈ (W b).get l.1 := by rwa [Levels.get_of_mem (h.sorted _) hl]
  exact hne (h.node_unique hm hx').1

theorem level_nodup (h : Holds svc W) {b : BookId} {l : Nat × List (Addr × Addr)} (hl : l ∈ W b) :
    (l.2.map Prod.fst).Nodup := by
  obtain ⟨T, L, F, hW⟩ := h.trees
  rw [← hW b] at hl
  obtain ⟨c, hc, rfl⟩ := List.mem_map.mp hl
  obtain ⟨q, hq⟩ := F.listed hc
  have hnd := (F.queues.stored hq).nodup
  simp only [Queue.nodes, Queue.cells, List.map_cons, List.nodup_cons] at hnd
  simpa [hq] using hnd.2

/-- No list node comes up twice in a range of a book. -/
theorem inRange_nodup (h : Holds svc W) (b : BookId) (lo hi : Nat) :
    (((W b).inRange lo hi).map Prod.fst).Nodup := by
  rw [Levels.inRange, List.map_flatMap, List.nodup_flatMap]
  refine ⟨fun l hl => h.level_nodup (List.mem_of_mem_filter hl), ?_⟩
  refine ((h.sorted b).imp_of_mem fun {l l'} hl hl' hlt => ?_).filter _
  simp only [Function.onFun, List.disjoint_left, List.mem_map]
  rintro _ ⟨x, hx, rfl⟩ ⟨y, hy, hyx⟩
  have hx' : (x.1, x.2) ∈ (W b).get l.1 := by
    rwa [Levels.get_of_mem (h.sorted _) hl]
  have hy' : (x.1, y.2) ∈ (W b).get l'.1 := by
    rwa [← hyx, Levels.get_of_mem (h.sorted _) hl']
  exact hlt.ne (h.node_unique hx' hy').2.1

/-- No list node comes up twice in a scan. -/
theorem crossed_nodup (h : Holds svc W) (ticker : Ticker) (last current : Nat) :
    ((W.crossed ticker last current).map Prod.fst).Nodup := by
  rw [Books.crossed, List.map_append, List.nodup_append']
  refine ⟨h.inRange_nodup _ _ _, h.inRange_nodup _ _ _, ?_⟩
  simp only [List.disjoint_left, List.mem_map]
  rintro _ ⟨x, hx, rfl⟩ ⟨y, hy, hyx⟩
  obtain ⟨k, -, -, hx⟩ := (Levels.mem_inRange (h.sorted _)).mp hx
  obtain ⟨k', -, -, hy⟩ := (Levels.mem_inRange (h.sorted _)).mp hy
  have hy' : (x.1, y.2) ∈ (W (ticker, .SELL)).get k' := by rwa [← hyx]
  have := (h.node_unique hx hy').1
  simp at this

theorem resolved_inRange (h : Holds svc W) (b : BookId) (lo hi : Nat) :
    Resolved svc.htOrders.entries svc.orders ((W b).inRange lo hi) := by
  refine h.resolved fun x hx => ?_
  obtain ⟨k, -, -, hk⟩ := (Levels.mem_inRange (h.sorted _)).mp hx
  exact ⟨b, k, hk⟩

/-- Filled orders of other books do not matter to a book. -/
theorem without_filled (h : Holds svc W) {b : BookId} {items : List (Addr × Addr)}
    (hitems : ∀ x ∈ items, ∃ b' k, b' ≠ b ∧ x ∈ (W b').get k) {σ : Type}
    (fillOrder : FillOrder σ) (world : σ) :
    W.without (filledNodes (callsOn fillOrder svc.htOrders.entries svc.orders items world).1) b =
      W b := by
  refine h.without_other fun n hn => ?_
  obtain ⟨⟨n, a⟩, hm, rfl⟩ := List.mem_map.mp (filledNodes_callsOn hn)
  obtain ⟨b', k, hne, hm⟩ := hitems _ hm
  exact ⟨b', k, a, hne, hm⟩

/-- `process_fills` calls `fill_order` for the crossed orders and takes out the filled ones. -/
theorem processFills (h : Holds svc W) {σ : Type} (fillOrder : FillOrder σ) {ticker : Ticker}
    (hlast : svc.lastPrices ticker ≠ 0) (current : Nat) (world : σ) :
    let calls := callsOn fillOrder svc.htOrders.entries svc.orders
      (W.crossed ticker (svc.lastPrices ticker) current) world
    ∃ svc', TradeServer.processFills fillOrder svc ticker current world =
        some (svc', calls.1, calls.2) ∧
      Holds svc' (W.without (filledNodes calls.1)) ∧ svc'.htOrders = svc.htOrders ∧
      svc'.orders = svc.orders ∧ svc'.lastPrices = svc.lastPrices ∧
      svc'.lastOrderReadTime = svc.lastOrderReadTime := by
  obtain ⟨T, L, F, hW⟩ := h.trees
  have hrange : (if current > svc.lastPrices ticker then (svc.lastPrices ticker, current)
      else (current, svc.lastPrices ticker)) =
      (min (svc.lastPrices ticker) current, max (svc.lastPrices ticker) current) := by
    split_ifs with hlt
    · simp [min_eq_left hlt.le, max_eq_right hlt.le]
    · simp [min_eq_right (not_lt.mp hlt), max_eq_left (not_lt.mp hlt)]
  obtain ⟨lists₁, hrun₁, F₁⟩ := F.visitRange (ticker, .BUY)
    (min (svc.lastPrices ticker) current) (max (svc.lastPrices ticker) current) fillOrder
    (by rw [hW]; exact h.resolved_inRange _ _ _) [] world
  rw [hW] at hrun₁ F₁
  -- no buy order is an item of the sell tree
  have hbuys : ∀ x ∈ (W (ticker, .BUY)).inRange (min (svc.lastPrices ticker) current)
      (max (svc.lastPrices ticker) current),
      ∃ b k, b ≠ (ticker, Side.SELL) ∧ x ∈ (W b).get k := by
    intro x hx
    obtain ⟨k, -, -, hm⟩ := (Levels.mem_inRange (h.sorted _)).mp hx
    exact ⟨(ticker, .BUY), k, by simp, hm⟩
  have hsell := h.without_filled hbuys fillOrder world
  generalize hc₁ : callsOn fillOrder svc.htOrders.entries svc.orders _ world = c₁ at hrun₁ F₁ hsell
  rw [Books.without, ← hW, ← levels_keepQueues, hW] at hsell
  obtain ⟨lists₂, hrun₂, F₂⟩ := F₁.visitRange (ticker, .SELL)
    (min (svc.lastPrices ticker) current) (max (svc.lastPrices ticker) current) fillOrder
    (by rw [hsell]; exact h.resolved_inRange _ _ _) c₁.1 c₁.2
  rw [hsell] at hrun₂ F₂
  generalize hc₂ : callsOn fillOrder svc.htOrders.entries svc.orders _ c₁.2 = c₂ at hrun₂ F₂
  have hcalls : callsOn fillOrder svc.htOrders.entries svc.orders
      (W.crossed ticker (svc.lastPrices ticker) current) world = (c₁.1 ++ c₂.1, c₂.2) := by
    simp only [Books.crossed, callsOn_append, hc₁, hc₂]
  simp only [hcalls]
  refine ⟨{ svc with books := { svc.books with dl := lists₂ } }, ?_, ⟨⟨T, _, F₂, fun b => ?_⟩,
    h.table, ?_⟩, rfl, rfl, rfl, rfl⟩
  · rw [TradeServer.processFills, if_neg hlast]
    have hv₁ : visitBook fillOrder svc ticker .BUY (min (svc.lastPrices ticker) current)
        (max (svc.lastPrices ticker) current) ⟨svc.books.dl, [], world⟩ =
        some ⟨lists₁, c₁.1, c₁.2⟩ := hrun₁
    have hv₂ : visitBook fillOrder svc ticker .SELL (min (svc.lastPrices ticker) current)
        (max (svc.lastPrices ticker) current) ⟨lists₁, c₁.1, c₁.2⟩ =
        some ⟨lists₂, c₁.1 ++ c₂.1, c₂.2⟩ := hrun₂
    simp only [hrange, hv₁, hv₂, Option.bind_eq_bind, Option.bind_some]
  · rw [keepQueues_append, levels_keepQueues, hW, ← filledNodes_append, Books.without]
  · intro b k n a hm
    exact h.orders b k n a (Books.mem_without.mp hm).1

end Holds

end TradeServer
