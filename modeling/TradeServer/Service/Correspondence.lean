import TradeServer.DataStructures.HashtableMap
import TradeServer.Library.System
import TradeServer.Service.FillScan

/-!
# The hash table and the order books

`Corresponds` says that the entries of the table and the list nodes of the books point
at each other. Loads and scans keep it as long as no put finds its key in the table, no
resize splits a chain and no order is filled.
-/

namespace TradeServer

open Library

/-- The entry that a lookup of the key ends at, null when there is none. -/
def Hashtable.find (ht : Hashtable) (key : CString) : Option Addr :=
  (findEntry ht.entries key ht.entries.next NULL (ht.buckets (hashFunction key ht.capacity))).map
    Prod.snd

/-- A put of the key adds an entry and leaves all entries where lookups find them. -/
structure CleanPut (ht : Hashtable) (key : CString) : Prop where
  absent : ∀ a e, ht.entries.load a = some e → e.key ≠ key
  whole : NeedsResize ht → RehomesWhole ht

/-- Entries and list nodes are in bijection: `ref` and `data` are inverse to each other. -/
structure Corresponds (svc : Service) : Prop where
  /-- The `ref` of an entry is a live node with the entry as its data, in the tree of the
  order's ticker and side under its price. -/
  entry : ∀ a e, svc.htOrders.entries.load a = some e →
    ∃ o b, svc.orders.load e.value = some o ∧ o.ticker = tickers b.1 ∧ o.side = b.2.char ∧
      svc.Listed b o.price e.ref a ∧ ∃ v, svc.books.dl.nodes.load e.ref = some v ∧ v.data = a
  /-- The data of a node is an entry that refers to the node and is found under the key of its
  order. -/
  node : ∀ b k n a, svc.Listed b k n a →
    ∃ e o, svc.htOrders.entries.load a = some e ∧ e.ref = n ∧ svc.orders.load e.value = some o ∧
      o.price = k ∧ svc.htOrders.find (hashKey b.2 o.id) = some a

inductive LoadEvent where
  | load (answers : Ticker → Side → Option (List TradeOrder)) (now : Nat)
  | fill (ticker : Ticker) (currentPrice : Nat) (outcomes : List Bool)
  | price (ticker : Ticker) (price : Nat)

/-- `fill_order` with results given in advance; calls past the end fail. -/
def scripted : FillOrder (List Bool) := fun _ outcomes =>
  (outcomes.headD false, outcomes.tail)

def loadStep (svc : Service) : LoadEvent → Option Service
  | .load answers now => (loadOrders svc answers now).map Prod.fst
  | .fill ticker currentPrice outcomes =>
    (processFills scripted svc ticker currentPrice outcomes).map Prod.fst
  | .price ticker price =>
    some { svc with lastPrices := Function.update svc.lastPrices ticker price }

/-- The rows of every answer satisfy the `WHERE` clause of their query. -/
def Answered (svc : Service) (answers : Ticker → Side → Option (List TradeOrder)) : Prop :=
  ∀ b ∈ loadSequence, ∀ rows, answers b.1 b.2 = some rows →
    ∀ o ∈ rows, (loadQuery svc b.1 b.2).Matches o

/-- Loads with any answers, scans with any outcomes and any prices, after `trade_service_init`. -/
def loadSystem : System Service LoadEvent where
  init svc := ∃ unset lastPrices lastOrderReadTime, svc =
    { tradeServiceInit unset with lastPrices := lastPrices, lastOrderReadTime := lastOrderReadTime }
  step svc e svc' := loadStep svc e = some svc' ∧
    match e with
    | .load answers _ => Answered svc answers
    | _ => True

/-- Each order of the list is put under a new key and no resize splits a chain. -/
def CleanLoads (b : BookId) : Service → List Addr → Prop
  | _, [] => True
  | svc, p :: ps =>
    (∀ o, svc.orders.load p = some o → CleanPut svc.htOrders (hashKey b.2 o.id)) ∧
      ∀ svc', loadOrder b.1 b.2 svc p = some svc' → CleanLoads b svc' ps

def CleanAnswer (b : BookId) (svc : Service) : Option (List TradeOrder) → Prop
  | none => True
  | some rows =>
    CleanLoads b { svc with orders := (parseTblTradeOrder svc.orders rows).1 }
      (parseTblTradeOrder svc.orders rows).2

def CleanCycle (answers : Ticker → Side → Option (List TradeOrder)) :
    Service → List (Ticker × Side) → Prop
  | _, [] => True
  | svc, b :: seq =>
    CleanAnswer b svc (answers b.1 b.2) ∧
      ∀ svc' r, loadOrdersHelper svc b.1 b.2 (answers b.1 b.2) = some (svc', r) →
        CleanCycle answers svc' seq

/-- All puts of a load are clean, and no order is filled. -/
def LoadEvent.Clean (svc : Service) : LoadEvent → Prop
  | .load answers _ => CleanCycle answers svc loadSequence
  | .fill _ _ outcomes => true ∉ outcomes
  | .price _ _ => True

/-! ## The table on its own -/

/-- Every live entry is found under its key. -/
structure Indexed (ht : Hashtable) : Prop where
  represents : ∃ m chain, Represents ht m chain ∧
    ∀ a e, ht.entries.load a = some e → m.lookup e.key = some e.value
  unique : ∀ a a' e e', ht.entries.load a = some e → ht.entries.load a' = some e' →
    e.key = e'.key → a = a'

namespace Indexed

variable {ht : Hashtable}

theorem htInit (cap : Nat) (free : Bool) : Indexed (htInit cap free) :=
  ⟨⟨∅, _, represents_htInit cap free, by simp [TradeServer.htInit]⟩, by simp [TradeServer.htInit]⟩

theorem find (h : Indexed ht) {a : Addr} {e : HtEntry} (he : ht.entries.load a = some e) :
    ht.find e.key = some a := by
  obtain ⟨m, chain, hr, hlookup⟩ := h.represents
  obtain ⟨i, a', e', ha', he', hkey, -⟩ := (hr.lookup _ _).mp (hlookup a e he)
  obtain rfl := h.unique a' a e' e he' he hkey
  rcases hr.linked.search e.key with habs | ⟨xs, b, f, ys, hm⟩
  · have hi := hr.home i a' e' ha' he'
    rw [hkey] at hi
    exact absurd hkey (habs a' (hi ▸ ha') e' he')
  · obtain rfl := h.unique b a' f e hm.load he hm.key_eq
    simp [Hashtable.find, hr.linked.find_match hm]

theorem setRef (h : Indexed ht) (a ref : Addr) :
    Indexed { ht with entries := ht.entries.modify a ({ · with ref := ref }) } := by
  obtain ⟨m, chain, hr, hlookup⟩ := h.represents
  -- entries keep their keys and values
  have hback : ∀ b e, (ht.entries.modify a ({ · with ref := ref })).load b = some e →
      ∃ e₀, ht.entries.load b = some e₀ ∧ e₀.key = e.key ∧ e₀.value = e.value := by
    intro b e he
    by_cases hb : b = a
    · subst hb
      obtain ⟨e₀, he₀, rfl⟩ : ∃ e₀, ht.entries.load b = some e₀ ∧ { e₀ with ref := ref } = e := by
        simpa using he
      exact ⟨e₀, he₀, rfl, rfl⟩
    · exact ⟨e, by simpa [hb] using he, rfl, rfl⟩
  have hforth : ∀ b e₀, ht.entries.load b = some e₀ →
      ∃ e, (ht.entries.modify a ({ · with ref := ref })).load b = some e ∧ e.key = e₀.key ∧
        e.value = e₀.value := by
    intro b e₀ he₀
    by_cases hb : b = a
    · subst hb
      exact ⟨{ e₀ with ref := ref }, by simp [he₀], rfl, rfl⟩
    · exact ⟨e₀, by simp [hb, he₀], rfl, rfl⟩
  refine ⟨⟨m, chain, ⟨hr.linked.setRef a ref, ?_, ?_, ?_, hr.size⟩, ?_⟩, ?_⟩
  · intro i b e hb he
    obtain ⟨e₀, he₀, hkey, -⟩ := hback b e he
    rw [← hkey]
    exact hr.home i b e₀ hb he₀
  · intro i b c e f hb hc he hf hkey
    obtain ⟨e₀, he₀, hek, -⟩ := hback b e he
    obtain ⟨f₀, hf₀, hfk, -⟩ := hback c f hf
    exact hr.keys i b c e₀ f₀ hb hc he₀ hf₀ (by rw [hek, hfk, hkey])
  · intro key value
    rw [hr.lookup]
    constructor
    · rintro ⟨i, b, e₀, hb, he₀, rfl, rfl⟩
      obtain ⟨e, he, hkey, hval⟩ := hforth b e₀ he₀
      exact ⟨i, b, e, hb, he, hkey, hval⟩
    · rintro ⟨i, b, e, hb, he, rfl, rfl⟩
      obtain ⟨e₀, he₀, hkey, hval⟩ := hback b e he
      exact ⟨i, b, e₀, hb, he₀, hkey, hval⟩
  · intro b e he
    obtain ⟨e₀, he₀, hkey, hval⟩ := hback b e he
    rw [← hkey, ← hval]
    exact hlookup b e₀ he₀
  · intro b c e f he hf hkey
    obtain ⟨e₀, he₀, hek, -⟩ := hback b e he
    obtain ⟨f₀, hf₀, hfk, -⟩ := hback c f hf
    exact h.unique b c e₀ f₀ he₀ hf₀ (by rw [hek, hfk, hkey])

/-- A clean put adds one entry. -/
theorem put (h : Indexed ht) {key : CString} {value a : Addr} {ht' : Hashtable}
    (hclean : CleanPut ht key) (hput : htPut ht key value = some (ht', a)) :
    Indexed ht' ∧ ht.entries.load a = none := by
  obtain ⟨m, chain, hr, hlookup⟩ := h.represents
  obtain ⟨ht₁, a₁, chain₁, hput₁, -, hat⟩ := hr.linked.htPut key value
  obtain ⟨rfl, rfl⟩ := Prod.mk.inj (Option.some.inj (hput.symm.trans hput₁))
  obtain ⟨ht₂, r, chain', hstep, hr'⟩ := hr.step (show StepOk ht (.put key value) from hclean.whole)
  obtain ⟨rfl, rfl⟩ := Prod.mk.inj (Option.some.inj (hput.symm.trans hstep))
  have hnone : ht.entries.load a = none := by
    cases ha : ht.entries.load a with
    | none => rfl
    | some e => exact absurd (hat.old e ha) (hclean.absent a e ha)
  obtain ⟨e, he, rfl, rfl⟩ := hat.stored
  refine ⟨⟨⟨_, chain', hr', fun b f hf => ?_⟩, fun b c f g hf hg hkey => ?_⟩, hnone⟩
  · by_cases hb : b = a
    · subst hb
      obtain rfl := Option.some.inj (he.symm.trans hf)
      simp [applyOp]
    · rw [hat.others b hb] at hf
      simpa [applyOp, Finmap.lookup_insert_of_ne _ (hclean.absent b f hf)] using hlookup b f hf
  · by_cases hb : b = a <;> by_cases hc : c = a
    · rw [hb, hc]
    · subst hb
      obtain rfl := Option.some.inj (he.symm.trans hf)
      rw [hat.others c hc] at hg
      exact absurd hkey.symm (hclean.absent c g hg)
    · subst hc
      obtain rfl := Option.some.inj (he.symm.trans hg)
      rw [hat.others b hb] at hf
      exact absurd hkey (hclean.absent b f hf)
    · rw [hat.others b hb] at hf
      rw [hat.others c hc] at hg
      exact h.unique b c f g hf hg hkey

end Indexed

/-! ## The table with the books -/

/-- `Corresponds` on the level of the books `W`. -/
structure Matched (svc : Service) (W : Books) : Prop where
  holds : Holds svc W
  indexed : Indexed svc.htOrders
  entry : ∀ a e, svc.htOrders.entries.load a = some e →
    ∃ o b, svc.orders.load e.value = some o ∧ o.ticker = tickers b.1 ∧ o.side = b.2.char ∧
      e.key = hashKey b.2 o.id ∧ (e.ref, a) ∈ (W b).get o.price
  node : ∀ b k n a, (n, a) ∈ (W b).get k → ∃ e, svc.htOrders.entries.load a = some e ∧ e.ref = n

theorem Books.without_nil (W : Books) : W.without [] = W :=
  funext fun b => Levels.keep_of_forall (by simp)

theorem filledNodes_scripted {xs : List (Addr × TradeOrder)} {outcomes : List Bool}
    (h : true ∉ outcomes) : filledNodes (fillAll scripted xs outcomes).1 = [] := by
  induction xs generalizing outcomes with
  | nil => rfl
  | cons x xs ih =>
    cases outcomes with
    | nil => simp [fillAll, scripted, filledNodes_cons, ih h]
    | cons r rs =>
      simp only [List.mem_cons, not_or, Bool.true_eq] at h
      simp [fillAll, scripted, filledNodes_cons, h.1, ih h.2]

namespace Matched

variable {svc : Service} {W : Books}

theorem corresponds (h : Matched svc W) : Corresponds svc where
  entry a e he := by
    obtain ⟨o, b, ho, hticker, hside, -, hm⟩ := h.entry a e he
    exact ⟨o, b, ho, hticker, hside, h.holds.listed_iff.mpr hm, h.holds.node_live hm⟩
  node b k n a hlisted := by
    have hm := h.holds.listed_iff.mp hlisted
    obtain ⟨e, he, rfl⟩ := h.node b k n a hm
    obtain ⟨o, b', ho, -, -, hkey, hm'⟩ := h.entry a e he
    obtain ⟨rfl, rfl, -⟩ := h.holds.node_unique hm hm'
    exact ⟨e, o, he, rfl, ho, rfl, hkey ▸ h.indexed.find he⟩

theorem setTimes (h : Matched svc W) (lastPrices : Ticker → Nat) (lastOrderReadTime : Nat) :
    Matched { svc with lastPrices := lastPrices, lastOrderReadTime := lastOrderReadTime } W :=
  ⟨h.holds.setTimes _ _, h.indexed, h.entry, h.node⟩

theorem extend (h : Matched svc W) {os : Heap TradeOrder} (hos : Extends svc.orders os) :
    Matched { svc with orders := os } W where
  holds := h.holds.extend hos
  indexed := h.indexed
  entry a e he := by
    obtain ⟨o, b, ho, hrest⟩ := h.entry a e he
    exact ⟨o, b, hos _ _ ho, hrest⟩
  node := h.node

/-- One order under a new key. -/
theorem load (h : Matched svc W) {svc' : Service} {b : BookId} {o : TradeOrder} {n a : Addr}
    (hL : Loaded svc svc' W b o n a) (hticker : o.ticker = tickers b.1) (hside : o.side = b.2.char)
    (hclean : CleanPut svc.htOrders (hashKey b.2 o.id)) :
    Matched svc' (Function.update W b ((W b).push o.price (n, a))) := by
  obtain ⟨ht, p, hput, hht⟩ := hL.table
  obtain ⟨hindexed, hnone⟩ := h.indexed.put hclean hput
  obtain ⟨e, he, hkey, rfl⟩ := hL.entry
  have hold : ∀ x f, svc.htOrders.entries.load x = some f → x ≠ a := by
    rintro x f hf rfl
    simp [hnone] at hf
  refine ⟨hL.holds, hht ▸ hindexed.setRef a e.ref, fun x f hf => ?_, fun b' k n' a' hm => ?_⟩
  · by_cases hx : x = a
    · subst hx
      obtain rfl := Option.some.inj (he.symm.trans hf)
      have ho : svc'.orders.load e.value = some o := by
        simpa [Service.orderOf, he] using hL.orderOf_self
      exact ⟨o, b, ho, hticker, hside, hkey, (mem_push_iff (h.holds.sorted b)).mpr
        (.inl ⟨rfl, rfl, rfl⟩)⟩
    · rw [hL.entry_other x hx] at hf
      obtain ⟨o', b', ho', ht', hs', hk', hm⟩ := h.entry x f hf
      exact ⟨o', b', by rwa [hL.orders], ht', hs', hk',
        (mem_push_iff (h.holds.sorted b)).mpr (.inr hm)⟩
  · rcases (mem_push_iff (h.holds.sorted b)).mp hm with ⟨-, -, heq⟩ | hm
    · obtain ⟨rfl, rfl⟩ := Prod.mk.inj heq
      exact ⟨e, he, rfl⟩
    · obtain ⟨f, hf, href⟩ := h.node b' k n' a' hm
      exact ⟨f, by rwa [hL.entry_other a' (hold a' f hf)], href⟩

/-- The loop over the rows of an answer. -/
theorem loadRows (h : Matched svc W) {b : BookId} {rows : List TradeOrder} {ps : List Addr}
    (hps : List.Forall₂ (fun p o => svc.orders.load p = some o) ps rows)
    (hrows : ∀ o ∈ rows, o.ticker = tickers b.1 ∧ o.side = b.2.char)
    (hclean : CleanLoads b svc ps) :
    ∃ svc' W', ps.foldlM (loadOrder b.1 b.2) svc = some svc' ∧ Matched svc' W' := by
  induction rows generalizing ps svc W with
  | nil =>
    cases hps
    exact ⟨svc, W, rfl, h⟩
  | cons o rows ih =>
    cases hps with
    | @cons p _ ps _ hp hps =>
      obtain ⟨hput, hrest⟩ := hclean
      obtain ⟨svc₁, n, a, hload, hL⟩ := h.holds.loadOrder b hp
      have ho := hrows o (by simp)
      have hps₁ : List.Forall₂ (fun p o => svc₁.orders.load p = some o) ps rows := by
        simpa only [hL.orders] using hps
      obtain ⟨svc', W', hrun, h'⟩ := ih (h.load hL ho.1 ho.2 (hput o hp)) hps₁
        (fun o' ho' => hrows o' (by simp [ho'])) (hrest svc₁ hload)
      exact ⟨svc', W', by simp [hload, hrun], h'⟩

theorem loadOrdersHelper (h : Matched svc W) {b : BookId} {answer : Option (List TradeOrder)}
    (hrows : ∀ rows, answer = some rows → ∀ o ∈ rows, o.ticker = tickers b.1 ∧ o.side = b.2.char)
    (hclean : CleanAnswer b svc answer) :
    ∃ svc' W', TradeServer.loadOrdersHelper svc b.1 b.2 answer = some (svc', true) ∧
      Matched svc' W' := by
  cases answer with
  | none => exact ⟨svc, W, rfl, h⟩
  | some rows =>
    obtain ⟨hext, hps⟩ := parseTblTradeOrder_spec svc.orders rows
    obtain ⟨svc', W', hrun, h'⟩ := (h.extend hext).loadRows hps (hrows rows rfl) hclean
    refine ⟨svc', W', ?_, h'⟩
    simp only [TradeServer.loadOrdersHelper, Option.bind_eq_bind, hrun, Option.bind_some]

theorem loadAll (h : Matched svc W) {answers : Ticker → Side → Option (List TradeOrder)}
    {seq : List (Ticker × Side)}
    (hrows : ∀ b ∈ seq, ∀ rows, answers b.1 b.2 = some rows →
      ∀ o ∈ rows, o.ticker = tickers b.1 ∧ o.side = b.2.char)
    (hclean : CleanCycle answers svc seq) :
    ∃ svc' W', TradeServer.loadAll answers svc seq = some (svc', true) ∧ Matched svc' W' := by
  induction seq generalizing svc W with
  | nil => exact ⟨svc, W, rfl, h⟩
  | cons b seq ih =>
    obtain ⟨hanswer, hrest⟩ := hclean
    obtain ⟨svc₁, W₁, hrun, h₁⟩ := h.loadOrdersHelper (hrows b (by simp)) hanswer
    obtain ⟨svc', W', hrun', h'⟩ := ih h₁ (fun b' hb' => hrows b' (by simp [hb']))
      (hrest svc₁ true hrun)
    exact ⟨svc', W', by simp [TradeServer.loadAll, hrun, hrun'], h'⟩

/-- A scan in which every call fails. -/
theorem processFills (h : Matched svc W) {ticker : Ticker} {currentPrice : Nat}
    {outcomes : List Bool} (hclean : true ∉ outcomes) :
    ∃ svc' W', (TradeServer.processFills scripted svc ticker currentPrice outcomes).map Prod.fst =
      some svc' ∧ Matched svc' W' := by
  by_cases hlast : svc.lastPrices ticker = 0
  · exact ⟨svc, W, by simp [TradeServer.processFills, hlast], h⟩
  obtain ⟨svc', hrun, h', hht, horders, -⟩ := h.holds.processFills scripted hlast currentPrice
    outcomes
  rw [callsOn, filledNodes_scripted hclean, Books.without_nil] at h'
  refine ⟨svc', W, by rw [hrun]; rfl, h', hht ▸ h.indexed, ?_, ?_⟩
  · rw [hht, horders]
    exact h.entry
  · rw [hht]
    exact h.node

/-- Clean steps keep entries and nodes matched. -/
theorem step (h : Matched svc W) {e : LoadEvent} {svc' : Service} (hclean : e.Clean svc)
    (hstep : loadSystem.step svc e svc') : ∃ W', Matched svc' W' := by
  obtain ⟨hrun, hanswers⟩ := hstep
  cases e with
  | load answers now =>
    obtain ⟨svc₁, W₁, hload, h₁⟩ := h.loadAll (fun b hb rows hrows o ho =>
      have hm := hanswers b hb rows hrows o ho
      ⟨hm.2.2.1, hm.1⟩) hclean
    obtain rfl : { svc₁ with lastOrderReadTime := now } = svc' := by
      simpa [loadStep, loadOrders, loadOrdersAllTickers, hload] using hrun
    exact ⟨W₁, h₁.setTimes _ _⟩
  | fill ticker currentPrice outcomes =>
    obtain ⟨svc₁, W₁, hfill, h₁⟩ := @processFills _ _ h ticker currentPrice _ hclean
    obtain rfl := Option.some.inj (hfill.symm.trans hrun)
    exact ⟨W₁, h₁⟩
  | price ticker price =>
    obtain rfl := Option.some.inj hrun
    exact ⟨W, h.setTimes _ _⟩

end Matched

theorem matched_tradeServiceInit (unset : Nat) : Matched (tradeServiceInit unset)
    (fun _ => []) where
  holds := holds_tradeServiceInit unset
  indexed := .htInit _ _
  entry a e he := by simp [tradeServiceInit, htInit] at he
  node b k n a hm := by simp at hm

/-- In every run whose loads put new keys only, split no chain in a resize, and whose scans fill
no order, the entries of the table and the list nodes of the books are in bijection. -/
theorem corresponds_of_clean {svc : Service}
    (h : (loadSystem.restrict fun svc e => e.Clean svc).Reachable svc) : Corresponds svc := by
  have hinv : (loadSystem.restrict fun svc e => e.Clean svc).Invariant
      fun svc => ∃ W, Matched svc W := by
    refine ⟨?_, ?_⟩
    · rintro _ ⟨unset, lastPrices, lastOrderReadTime, rfl⟩
      exact ⟨_, (matched_tradeServiceInit unset).setTimes _ _⟩
    · rintro svc e svc' ⟨W, hW⟩ ⟨hclean, hstep⟩
      exact hW.step hclean hstep
  obtain ⟨W, hW⟩ := hinv.of_reachable h
  exact hW.corresponds

/-- A buy order for the first ticker. -/
def andthenOrder : TradeOrder := ⟨7, 1, tickers .ANDTHEN, 'B', 'O', 'L', 10, 4, 100⟩

/-- The answers of a database with that order only. -/
def andthenAnswers : Ticker → Side → Option (List TradeOrder) := fun ticker side =>
  some (if (ticker, side) = (.ANDTHEN, .BUY) then [andthenOrder] else [])

/-- After `init_service` with a price of 5 for every ticker, before its load. -/
def started : Service :=
  { tradeServiceInit 0 with lastPrices := fun _ => 5, lastOrderReadTime := 90 }

/-- One load and one call of `fill_order`. -/
def loadAndCall (outcome : Bool) : Option Service :=
  [LoadEvent.load andthenAnswers 100, .fill .ANDTHEN 3 [outcome]].foldlM loadStep started

theorem answered_started : Answered started andthenAnswers := by
  rintro ⟨ticker, side⟩ - rows hrows o ho
  obtain rfl := Option.some.inj hrows
  by_cases hb : (ticker, side) = (.ANDTHEN, .BUY)
  · obtain ⟨rfl, rfl⟩ := Prod.mk.inj hb
    obtain rfl : o = andthenOrder := by simpa using ho
    decide
  · simp [hb] at ho

theorem cleanCycle_of_empty {answers : Ticker → Side → Option (List TradeOrder)}
    {seq : List (Ticker × Side)} (h : ∀ b ∈ seq, answers b.1 b.2 = some []) (svc : Service) :
    CleanCycle answers svc seq := by
  induction seq generalizing svc with
  | nil => trivial
  | cons b seq ih =>
    refine ⟨?_, fun svc' _ _ => ih (fun b' hb' => h b' (by simp [hb'])) svc'⟩
    rw [h b (by simp)]
    trivial

theorem loadAndCall_split {outcome : Bool} {svc : Service} (h : loadAndCall outcome = some svc) :
    ∃ svc₁, loadSystem.step started (.load andthenAnswers 100) svc₁ ∧
      loadSystem.step svc₁ (.fill .ANDTHEN 3 [outcome]) svc := by
  obtain ⟨svc₁, h₁, h₂⟩ : ∃ svc₁, loadStep started (.load andthenAnswers 100) = some svc₁ ∧
      loadStep svc₁ (.fill .ANDTHEN 3 [outcome]) = some svc := by
    simpa [loadAndCall, Option.bind_eq_some_iff] using h
  exact ⟨svc₁, ⟨h₁, answered_started⟩, h₂, trivial⟩

/-- The order is loaded under a new key, and the call for it fails. -/
theorem corresponds_after_failed_call : ∃ svc, loadAndCall false = some svc ∧ Corresponds svc := by
  obtain ⟨svc, hrun⟩ : ∃ svc, loadAndCall false = some svc :=
    Option.isSome_iff_exists.mp (by decide)
  obtain ⟨svc₁, h₁, h₂⟩ := loadAndCall_split hrun
  have hclean : LoadEvent.Clean started (.load andthenAnswers 100) := by
    refine ⟨⟨fun o _ => ⟨fun a e he => ?_, fun hn => ?_⟩, fun _ _ => trivial⟩, fun svc' _ _ => ?_⟩
    · simp [started, tradeServiceInit, htInit] at he
    · exact absurd hn (by decide)
    · exact cleanCycle_of_empty (by decide) svc'
  have hclean' : LoadEvent.Clean svc₁ (.fill .ANDTHEN 3 [false]) := by
    show true ∉ [false]
    decide
  exact ⟨svc, hrun, corresponds_of_clean ⟨started, _, ⟨0, fun _ => 5, 90, rfl⟩,
    .snoc (.snoc (.nil _) ⟨hclean, h₁⟩) ⟨hclean', h₂⟩⟩⟩

/-- Once the order is filled, its entry is still in the table but no node leads to it. -/
theorem filled_order_keeps_entry : ¬ ∀ svc, loadSystem.Reachable svc → Corresponds svc := by
  intro h
  obtain ⟨svc, hrun⟩ : ∃ svc, loadAndCall true = some svc :=
    Option.isSome_iff_exists.mp (by decide)
  obtain ⟨svc₁, h₁, h₂⟩ := loadAndCall_split hrun
  have hcorr := h svc ⟨started, _, ⟨0, fun _ => 5, 90, rfl⟩, .snoc (.snoc (.nil _) h₁) h₂⟩
  have hentry : ((loadAndCall true).bind (·.htOrders.entries.load 1)).isSome := by decide
  rw [hrun, Option.bind_some] at hentry
  obtain ⟨e, he⟩ := Option.isSome_iff_exists.mp hentry
  obtain ⟨o, b, -, -, -, ⟨W, hW, hm⟩, -⟩ := hcorr.entry 1 e he
  have hwalk : (loadAndCall true).bind (·.walk b) = some [] ∨
      (loadAndCall true).bind (·.walk b) = some [(4, [])] := by
    obtain ⟨ticker, side⟩ := b
    cases ticker <;> cases side <;> decide
  rw [hrun, Option.bind_some, hW] at hwalk
  rcases hwalk with hwalk | hwalk
  · obtain rfl := Option.some.inj hwalk
    simp at hm
  · obtain rfl := Option.some.inj hwalk
    simp [Levels.get] at hm

end TradeServer
