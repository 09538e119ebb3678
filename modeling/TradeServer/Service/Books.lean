import TradeServer.DataStructures.HashtableChains
import TradeServer.DataStructures.RbTreeRuns
import TradeServer.Service.Orders

/-!
# The order books of the service

`Holds svc W` is the invariant of the service: its eight trees hold the levels `W`,
whose items pair a list node with a hash table entry, and every entry leads to an
order. `loadOrder` pushes one item and sets what its entry leads to, whether the
entry is new or not.
-/

namespace TradeServer

open Library

abbrev BookId := Ticker × Side

/-- The order that a hash table entry leads to. -/
def Service.orderOf (svc : Service) (entry : Addr) : Option TradeOrder := do
  let e ← svc.htOrders.entries.load entry
  svc.orders.load e.value

def Service.root (svc : Service) (b : BookId) : Addr := svc.orderBooks b.1 b.2

/-- Prices with their queues of list nodes and entries, for every book. -/
abbrev Books := BookId → Levels Nat (Addr × Addr)

structure Holds (svc : Service) (W : Books) : Prop where
  trees : ∃ T L, Forest svc.books svc.root T L ∧ ∀ b, levels L (T b) = W b
  table : ∃ chain, Linked svc.htOrders chain
  orders : ∀ b k n a, (n, a) ∈ (W b).get k → ∃ o, svc.orderOf a = some o

/-- `os'` has all orders of `os`. -/
def Extends (os os' : Heap TradeOrder) : Prop := ∀ p o, os.load p = some o → os'.load p = some o

/-- The levels of one book, read by a walk of its tree. -/
def Service.walk (svc : Service) (b : BookId) : Option (Levels Nat (Addr × Addr)) :=
  inorder List.tail svc.books svc.books.nodes.next (svc.root b)

/-- List node `n` of book `b` is at price `k` and leads to entry `a`. -/
def Service.Listed (svc : Service) (b : BookId) (k : Nat) (n a : Addr) : Prop :=
  ∃ W, svc.walk b = some W ∧ (n, a) ∈ W.get k

/-- The book of `b` has the order at its price. -/
def Service.InBook (svc : Service) (b : BookId) (o : TradeOrder) : Prop :=
  ∃ n a, svc.Listed b o.price n a ∧ svc.orderOf a = some o

theorem orderOf_extends {svc : Service} {os : Heap TradeOrder} (hos : Extends svc.orders os)
    {a : Addr} {o : TradeOrder} (h : svc.orderOf a = some o) :
    ({ svc with orders := os } : Service).orderOf a = some o := by
  simp only [Service.orderOf, Option.bind_eq_bind, Option.bind_eq_some_iff] at h ⊢
  obtain ⟨e, he, ho⟩ := h
  exact ⟨e, he, hos _ _ ho⟩

/-- Parsed rows are new orders. -/
theorem parseTblTradeOrder_spec (os : Heap TradeOrder) (rows : List TradeOrder) :
    Extends os (parseTblTradeOrder os rows).1 ∧
      List.Forall₂ (fun p row => (parseTblTradeOrder os rows).1.load p = some row)
        (parseTblTradeOrder os rows).2 rows := by
  induction rows generalizing os with
  | nil => exact ⟨fun _ _ h => h, .nil⟩
  | cons row rows ih =>
    obtain ⟨hext, hrows⟩ := ih (os.alloc row)
    refine ⟨fun p o hp => hext p o ?_, .cons (hext _ _ ?_) hrows⟩
    · simp [Heap.ne_fresh_of_load hp, hp]
    · simp

/-- The items at a price are those of the list at its tree node. -/
theorem Forest.mem_get_levels {ι : Type*} {m : RbHeap} {root : ι → Addr} {T : ι → BookTree}
    {L : Addr → Option Queue} (F : Forest m root T L) {i : ι} {k : Nat} {x : Addr × Addr} :
    x ∈ (levels L (T i)).get k ↔
      ∃ b q, b ∈ (T i).toList ∧ b.1 = k ∧ L b.2.list = some q ∧ x ∈ q.items := by
  rw [← Levels.mem_items (levels_sorted (F.ordered i))]
  simp only [Levels.items, levels, List.mem_flatMap, List.mem_map, Prod.mk.injEq]
  constructor
  · rintro ⟨_, ⟨b, hb, rfl⟩, y, hy, rfl, rfl⟩
    obtain ⟨q, hq⟩ := F.listed hb
    exact ⟨b, q, hb, rfl, hq, by simpa [hq] using hy⟩
  · rintro ⟨b, q, hb, rfl, hq, hx⟩
    exact ⟨_, ⟨b, hb, rfl⟩, x, by simpa [hq] using hx, rfl, rfl⟩

namespace Holds

variable {svc : Service} {W : Books}

theorem walk (h : Holds svc W) (b : BookId) : svc.walk b = some (W b) := by
  obtain ⟨T, L, F, hW⟩ := h.trees
  rw [Service.walk, F.inorder_tail b, hW]

theorem listed_iff (h : Holds svc W) {b : BookId} {k : Nat} {n a : Addr} :
    svc.Listed b k n a ↔ (n, a) ∈ (W b).get k := by
  simp [Service.Listed, h.walk]

theorem inBook_iff (h : Holds svc W) {b : BookId} {o : TradeOrder} :
    svc.InBook b o ↔ ∃ n a, (n, a) ∈ (W b).get o.price ∧ svc.orderOf a = some o := by
  simp [Service.InBook, h.listed_iff]

theorem sorted (h : Holds svc W) (b : BookId) : (W b).Sorted := by
  obtain ⟨T, L, F, hW⟩ := h.trees
  exact hW b ▸ levels_sorted (F.ordered b)

/-- The books do not depend on prices and times. -/
theorem setTimes (h : Holds svc W) (lastPrices : Ticker → Nat) (lastOrderReadTime : Nat) :
    Holds { svc with lastPrices := lastPrices, lastOrderReadTime := lastOrderReadTime } W :=
  ⟨h.trees, h.table, h.orders⟩

/-- New orders in memory do not change what the items lead to. -/
theorem orderOf_extend (h : Holds svc W) {os : Heap TradeOrder} (hos : Extends svc.orders os)
    {b : BookId} {k : Nat} {n a : Addr} (hm : (n, a) ∈ (W b).get k) :
    ({ svc with orders := os } : Service).orderOf a = svc.orderOf a := by
  obtain ⟨o, ho⟩ := h.orders b k n a hm
  rw [ho, orderOf_extends hos ho]

theorem extend (h : Holds svc W) {os : Heap TradeOrder} (hos : Extends svc.orders os) :
    Holds { svc with orders := os } W where
  trees := h.trees
  table := h.table
  orders b k n a hm := by
    obtain ⟨o, ho⟩ := h.orders b k n a hm
    exact ⟨o, orderOf_extends hos ho⟩

/-- The list node of an item is live and leads to its entry. -/
theorem node_live (h : Holds svc W) {b : BookId} {k : Nat} {n a : Addr}
    (hm : (n, a) ∈ (W b).get k) : ∃ v, svc.books.dl.nodes.load n = some v ∧ v.data = a := by
  obtain ⟨T, L, F, hW⟩ := h.trees
  rw [← hW b, F.mem_get_levels] at hm
  obtain ⟨c, q, -, -, hq, hx⟩ := hm
  obtain ⟨xs, ys, hsplit⟩ := List.append_of_mem hx
  obtain ⟨prev, hn⟩ := F.queues.load_item hq hsplit
  exact ⟨_, hn, rfl⟩

/-- A list node is at one price of one book and leads to one entry. -/
theorem node_unique (h : Holds svc W) {b b' : BookId} {k k' : Nat} {n a a' : Addr}
    (hm : (n, a) ∈ (W b).get k) (hm' : (n, a') ∈ (W b').get k') : b = b' ∧ k = k' ∧ a = a' := by
  obtain ⟨T, L, F, hW⟩ := h.trees
  rw [← hW, F.mem_get_levels] at hm hm'
  obtain ⟨c, q, hc, rfl, hq, hx⟩ := hm
  obtain ⟨c', q', hc', rfl, hq', hx'⟩ := hm'
  by_cases hlist : c.2.list = c'.2.list
  · obtain ⟨rfl, rfl⟩ := F.own hc hc' hlist
    rw [hq, Option.some_inj] at hq'
    subst hq'
    have hnd := (F.queues.stored hq).nodup
    simp only [Queue.nodes, Queue.cells, List.map_cons, List.nodup_cons] at hnd
    exact ⟨rfl, rfl, congrArg Prod.snd (List.inj_on_of_nodup_map hnd.2 hx hx' rfl)⟩
  · have hn : n ∈ q.nodes := Queue.mem_nodes hx
    have hn' : n ∈ q'.nodes := Queue.mem_nodes hx'
    exact absurd hn' (F.queues.disjoint hq hq' hlist hn)

end Holds

/-- What loading one order into book `b` does: its list node `n` and its entry `a` are the last
item at its price, and `a` leads to the order. -/
structure Loaded (svc svc' : Service) (W : Books) (b : BookId) (o : TradeOrder) (n a : Addr) :
    Prop where
  holds : Holds svc' (Function.update W b ((W b).push o.price (n, a)))
  orders : svc'.orders = svc.orders
  lastPrices : svc'.lastPrices = svc.lastPrices
  lastOrderReadTime : svc'.lastOrderReadTime = svc.lastOrderReadTime
  orderOf_self : svc'.orderOf a = some o
  orderOf_other : ∀ x, x ≠ a → svc'.orderOf x = svc.orderOf x
  entry : ∃ e, svc'.htOrders.entries.load a = some e ∧ e.key = hashKey b.2 o.id ∧ e.ref = n
  entry_other : ∀ x, x ≠ a → svc'.htOrders.entries.load x = svc.htOrders.entries.load x
  table : ∃ ht p, htPut svc.htOrders (hashKey b.2 o.id) p = some (ht, a) ∧
    svc'.htOrders = { ht with entries := ht.entries.modify a ({ · with ref := n }) }
  /-- An entry that was there had the same key. -/
  entry_old : ∀ e, svc.htOrders.entries.load a = some e → e.key = hashKey b.2 o.id
  fresh : svc.books.dl.nodes.load n = none

theorem mem_push_iff {W : Books} {b b' : BookId} {k k' : Nat} {x y : Addr × Addr}
    (hs : (W b).Sorted) :
    y ∈ (Function.update W b ((W b).push k x) b').get k' ↔
      (b' = b ∧ k' = k ∧ y = x) ∨ y ∈ (W b').get k' := by
  by_cases hb : b' = b
  · subst hb
    rw [Function.update_self, Levels.get_push hs]
    by_cases hk : k' = k
    · simp [hk, or_comm]
    · simp [hk]
  · simp [hb]

/-- The service after an order was put at entry `a` and list node `n`. -/
def Service.afterOrder (svc : Service) (b : BookId) (ht : Hashtable) (a n : Addr) (m : RbHeap)
    (root : Addr) : Service :=
  { svc with
    htOrders := { ht with entries := ht.entries.modify a ({ · with ref := n }) }
    books := m
    orderBooks := Function.update svc.orderBooks b.1
      (Function.update (svc.orderBooks b.1) b.2 root) }

section AfterOrder

variable {svc : Service} {W : Books} {b : BookId} {ht : Hashtable} {m' : RbHeap}
  {root' : BookId → Addr} {p a n root : Addr} {o : TradeOrder}

theorem root_afterOrder (hroot : ∀ c, c ≠ b → root' c = svc.root c) :
    (svc.afterOrder b ht a n m' (root' b)).root = root' := by
  funext c
  change Function.update svc.orderBooks b.1
    (Function.update (svc.orderBooks b.1) b.2 (root' b)) c.1 c.2 = root' c
  by_cases hc : c = b
  · subst hc
    simp
  · rw [hroot c hc]
    by_cases h1 : c.1 = b.1
    · have h2 : c.2 ≠ b.2 := fun h2 => hc (Prod.ext h1 h2)
      rw [h1, Function.update_self, Function.update_of_ne h2, Service.root, h1]
    · rw [Function.update_of_ne h1, Service.root]

theorem orderOf_afterOrder (hval : ∃ e, ht.entries.load a = some e ∧ e.value = p)
    (ho : svc.orders.load p = some o) : (svc.afterOrder b ht a n m' root).orderOf a = some o := by
  obtain ⟨e, he, rfl⟩ := hval
  simp [Service.orderOf, Service.afterOrder, he, ho]

theorem orderOf_afterOrder_of_ne {x : Addr} (hx : x ≠ a)
    (hload : ht.entries.load x = svc.htOrders.entries.load x) :
    (svc.afterOrder b ht a n m' root).orderOf x = svc.orderOf x := by
  simp [Service.orderOf, Service.afterOrder, hx, hload]

end AfterOrder

/-- Loading an order always succeeds. -/
theorem Holds.loadOrder {svc : Service} {W : Books} (h : Holds svc W) (b : BookId) {p : Addr}
    {o : TradeOrder} (ho : svc.orders.load p = some o) :
    ∃ svc' n a, TradeServer.loadOrder b.1 b.2 svc p = some svc' ∧ Loaded svc svc' W b o n a := by
  obtain ⟨T, L, F, hW⟩ := h.trees
  obtain ⟨chain, hlinked⟩ := h.table
  obtain ⟨ht, a, chain', hput, hlinked', ⟨e, he, hkey, hval⟩, hothers, hold⟩ :=
    hlinked.htPut (hashKey b.2 o.id) p
  obtain ⟨m', root', T', L', n, hins, hI⟩ := F.insert b o.price a (some htNodeToDllNode) ht
  have hcall : callbackResult (some htNodeToDllNode) a n ht =
      some { ht with entries := ht.entries.modify a ({ · with ref := n }) } := by
    simp [callbackResult, htNodeToDllNode, Heap.update_of_load he]
  rw [hcall, Option.map_some, show svc.root b = svc.orderBooks b.1 b.2 from rfl] at hins
  have hroot : (svc.afterOrder b ht a n m' (root' b)).root = root' :=
    root_afterOrder fun c hc => (hI.tree_other c hc).2.1
  have hself : (svc.afterOrder b ht a n m' (root' b)).orderOf a = some o :=
    orderOf_afterOrder ⟨e, he, hval⟩ ho
  have hother : ∀ x, x ≠ a →
      (svc.afterOrder b ht a n m' (root' b)).orderOf x = svc.orderOf x :=
    fun x hx => orderOf_afterOrder_of_ne hx (hothers x hx)
  refine ⟨svc.afterOrder b ht a n m' (root' b), n, a, ?_, ⟨⟨T', L', ?_, ?_⟩, ⟨chain', ?_⟩, ?_⟩,
    rfl, rfl, rfl, hself, hother, ?_, ?_, ⟨ht, p, hput, rfl⟩, hold, hI.fresh⟩
  · simp [TradeServer.loadOrder, ho, hput, Heap.ne_null_of_load he, hins, Service.afterOrder]
  · rw [hroot]
    exact hI.forest
  · intro c
    by_cases hc : c = b
    · subst hc
      rw [hI.levels_self, Function.update_self, hW]
    · rw [hI.levels_other c hc, Function.update_of_ne hc, hW]
  · exact hlinked'.setRef a n
  · intro c k n' a' hm
    rw [mem_push_iff (h.sorted b)] at hm
    by_cases ha : a' = a
    · exact ⟨o, by rw [ha, hself]⟩
    · rcases hm with ⟨-, -, hx⟩ | hm
      · exact absurd (Prod.mk.inj hx).2 ha
      · rw [hother a' ha]
        exact h.orders c k n' a' hm
  · exact ⟨{ e with ref := n }, by simp [Service.afterOrder, he], hkey, rfl⟩
  · intro x hx
    simp [Service.afterOrder, hx, hothers x hx]

/-- The loop over the rows of a result set keeps whatever each row keeps. -/
theorem Holds.loadRows {b : BookId} {rows : List TradeOrder}
    {J : List TradeOrder → Service → Books → Prop}
    (hstep : ∀ done o svc W svc' n a, done ++ [o] <+: rows → J done svc W → Holds svc W →
      Loaded svc svc' W b o n a →
        J (done ++ [o]) svc' (Function.update W b ((W b).push o.price (n, a))))
    {svc : Service} {W : Books} (h : Holds svc W) {done rest : List TradeOrder}
    (hrows : done ++ rest = rows) {ps : List Addr}
    (hps : List.Forall₂ (fun p o => svc.orders.load p = some o) ps rest) (hJ : J done svc W) :
    ∃ svc' W', ps.foldlM (TradeServer.loadOrder b.1 b.2) svc = some svc' ∧ Holds svc' W' ∧
      J rows svc' W' ∧ svc'.lastPrices = svc.lastPrices ∧
      svc'.lastOrderReadTime = svc.lastOrderReadTime := by
  induction rest generalizing done ps svc W with
  | nil =>
    cases hps
    rw [List.append_nil] at hrows
    subst hrows
    exact ⟨svc, W, rfl, h, hJ, rfl, rfl⟩
  | cons o rest ih =>
    cases hps with
    | @cons p _ ps _ hp hps =>
      obtain ⟨svc₁, n, a, hload, hL⟩ := h.loadOrder b hp
      have hJ₁ := hstep done o svc W svc₁ n a ⟨rest, by simp [← hrows]⟩ hJ h hL
      have hps₁ : List.Forall₂ (fun p o => svc₁.orders.load p = some o) ps rest := by
        simpa only [hL.orders] using hps
      obtain ⟨svc₂, W₂, hfold, h₂, hJ₂, hprice, htime⟩ := ih hL.holds
        (by rw [← hrows, List.append_assoc]; rfl) hps₁ hJ₁
      refine ⟨svc₂, W₂, ?_, h₂, hJ₂, hprice.trans hL.lastPrices, htime.trans hL.lastOrderReadTime⟩
      simp [hload, hfold]

/-- One query with its result set, whatever the rows are. -/
theorem Holds.loadOrdersHelper {b : BookId} {rows : List TradeOrder}
    {J : List TradeOrder → Service → Books → Prop} {svc : Service} {W : Books} (h : Holds svc W)
    (hstart : ∀ os, Extends svc.orders os → J [] { svc with orders := os } W)
    (hstep : ∀ done o svc W svc' n a, done ++ [o] <+: rows → J done svc W → Holds svc W →
      Loaded svc svc' W b o n a →
        J (done ++ [o]) svc' (Function.update W b ((W b).push o.price (n, a)))) :
    ∃ svc' W', TradeServer.loadOrdersHelper svc b.1 b.2 (some rows) = some (svc', true) ∧
      Holds svc' W' ∧ J rows svc' W' ∧ svc'.lastPrices = svc.lastPrices ∧
      svc'.lastOrderReadTime = svc.lastOrderReadTime := by
  obtain ⟨hext, hrows⟩ := parseTblTradeOrder_spec svc.orders rows
  obtain ⟨svc', W', hfold, h', hJ, hprice, htime⟩ := Holds.loadRows hstep (h.extend hext)
    (List.nil_append rows) hrows (hstart _ hext)
  refine ⟨svc', W', ?_, h', hJ, hprice, htime⟩
  simp only [TradeServer.loadOrdersHelper, Option.bind_eq_bind, hfold, Option.bind_some]

/-- The queries of a cycle keep whatever each of them keeps. -/
theorem Holds.loadAll {answers : Ticker → Side → Option (List TradeOrder)}
    {I : Service → Books → Prop} {seq : List (Ticker × Side)}
    (hstep : ∀ b ∈ seq, ∀ svc W, Holds svc W → I svc W → ∃ svc' W',
      TradeServer.loadOrdersHelper svc b.1 b.2 (answers b.1 b.2) = some (svc', true) ∧
        Holds svc' W' ∧ I svc' W')
    {svc : Service} {W : Books} (h : Holds svc W) (hI : I svc W) :
    ∃ svc' W', TradeServer.loadAll answers svc seq = some (svc', true) ∧ Holds svc' W' ∧
      I svc' W' := by
  induction seq generalizing svc W with
  | nil => exact ⟨svc, W, rfl, h, hI⟩
  | cons b seq ih =>
    obtain ⟨svc₁, W₁, hrun, h₁, hI₁⟩ := hstep b (by simp) svc W h hI
    obtain ⟨svc₂, W₂, hrest, h₂, hI₂⟩ := ih (fun b' hb' => hstep b' (by simp [hb'])) h₁ hI₁
    exact ⟨svc₂, W₂, by simp [TradeServer.loadAll, hrun, hrest], h₂, hI₂⟩

/-- A load keeps the books and the prices, whatever the database answers. -/
theorem Holds.loadOrders {svc : Service} {W : Books} (h : Holds svc W)
    (answers : Ticker → Side → Option (List TradeOrder)) (now : Nat) :
    ∃ svc' W', TradeServer.loadOrders svc answers now = some (svc', true) ∧ Holds svc' W' ∧
      svc'.lastPrices = svc.lastPrices := by
  obtain ⟨svc', W', hrun, h', hprices⟩ := @Holds.loadAll answers
    (fun svc' _ => svc'.lastPrices = svc.lastPrices) loadSequence (fun b _ svc₁ W₁ h₁ hp => by
      cases hans : answers b.1 b.2 with
      | none => exact ⟨svc₁, W₁, rfl, h₁, hp⟩
      | some rows =>
        obtain ⟨svc₂, W₂, hrun, h₂, -, hp₂, -⟩ := @Holds.loadOrdersHelper b rows
          (fun _ _ _ => True) svc₁ W₁ h₁ (fun _ _ => trivial) fun _ _ _ _ _ _ _ _ _ _ _ => trivial
        exact ⟨svc₂, W₂, hrun, h₂, hp₂.trans hp⟩) svc W h rfl
  refine ⟨{ svc' with lastOrderReadTime := now }, W', ?_, h'.setTimes _ _, hprices⟩
  simp [TradeServer.loadOrders, loadOrdersAllTickers, hrun]

/-- The trees of all tickers are `NIL` at the start. -/
theorem initBooks_eq (unset : Nat) :
    initBooks unset = ((rbtInit unset .empty).1, fun _ _ => (rbtInit unset .empty).2) := by
  refine Prod.ext rfl (funext₂ fun ticker side => ?_)
  cases ticker <;> cases side <;> rfl

theorem holds_tradeServiceInit (unset : Nat) : Holds (tradeServiceInit unset) (fun _ => []) where
  trees := by
    refine ⟨fun _ => .nil, fun _ => none, ?_, fun _ => rfl⟩
    have hroot : (tradeServiceInit unset).root = fun _ => (rbtInit unset .empty).2 := by
      funext b
      simp only [Service.root, tradeServiceInit, initBooks_eq]
    rw [hroot]
    exact forest_rbtInit unset BookId
  table := ⟨_, linked_htInit _ _⟩
  orders _ _ _ _ h := by simp at h

end TradeServer
