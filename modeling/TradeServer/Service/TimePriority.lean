import TradeServer.Service.Correspondence
import TradeServer.Service.Market

/-!
# Time priority

The lists of the books are sorted by `created_at`: a batch is sorted at each price, and it
starts where the window of the batch before ended. An entry that is put again keeps its
`created_at`, so an item that is already listed keeps its place.
-/

namespace TradeServer

open Library

/-- The times of the orders at a price, read from the head of their list to its tail. -/
def Service.timesAt (svc : Service) (b : BookId) (k : Nat) : Option (List Nat) := do
  let W ← svc.walk b
  (W.get k).mapM fun x => (svc.orderOf x.2).map (·.createdAt)

def TimePriority (svc : Service) : Prop :=
  ∀ b k, ∃ ts, svc.timesAt b k = some ts ∧ ts.Pairwise (· ≤ ·)

/-- The list node of a call is in the list at the price. -/
def Service.Offers (svc : Service) (b : BookId) (k : Nat) (f : Fill) : Prop :=
  ∃ a, svc.Listed b k f.node a

/-- Whatever `fill_order` does, it gets the earlier orders of a list before the later ones. -/
def OfferedInOrder (svc : Service) : Prop :=
  ∀ (σ : Type) (fillOrder : FillOrder σ) (ticker : Ticker) (current : Nat) (world : σ) svc' fills
    world', processFills fillOrder svc ticker current world = some (svc', fills, world') →
    ∀ b k, fills.Pairwise fun f f' =>
      svc.Offers b k f → svc.Offers b k f' → f.order.createdAt ≤ f'.order.createdAt

/-- The order has the time of its id, and an id that fits the hash key. -/
def Dated (created : Nat → Nat) (o : TradeOrder) : Prop :=
  o.id < 10 ^ 14 ∧ o.createdAt = created o.id

instance (created : Nat → Nat) : DecidablePred (Dated created) := fun _ =>
  inferInstanceAs (Decidable (_ ∧ _))

/-- A load whose queries are made at moments of a clock that does not go back: their rows are
sorted, and none of them is later than its query. -/
structure Timely (created : Nat → Nat) (svc : Service)
    (answers : Ticker → Side → Option (List TradeOrder)) (moment : BookId → Nat) (now : Nat) :
    Prop where
  clock : (svc.lastOrderReadTime :: loadSequence.map moment ++ [now]).Pairwise (· ≤ ·)
  dated : ∀ (b : BookId) rows, answers b.1 b.2 = some rows → ∀ o ∈ rows,
    Dated created o ∧ o.createdAt ≤ moment b
  sorted : ∀ (b : BookId) rows, answers b.1 b.2 = some rows →
    rows.Pairwise (loadQuery svc b.1 b.2).Before

def LoadEvent.Timely (created : Nat → Nat) (svc : Service) : LoadEvent → Prop
  | .load answers now => ∃ moment, TradeServer.Timely created svc answers moment now
  | .fill _ _ _ => True
  | .price _ _ => True

/-! ## Books in order -/

/-- The time of the order that an entry leads to. -/
def Service.timeOf (svc : Service) (a : Addr) : Nat :=
  ((svc.orderOf a).map (·.createdAt)).getD 0

/-- Lists sorted by time, with times that `P` allows. -/
structure InOrder (created : Nat → Nat) (svc : Service) (W : Books)
    (P : BookId → Nat → Nat → Prop) : Prop where
  holds : Holds svc W
  keyed : Keyed svc W (Dated created)
  sorted : ∀ b k, ((W b).get k).Pairwise fun x y => svc.timeOf x.2 ≤ svc.timeOf y.2
  known : ∀ b k, ∀ x ∈ (W b).get k, P b k (svc.timeOf x.2)

namespace InOrder

variable {created : Nat → Nat} {svc svc' : Service} {W W' : Books}
  {P Q : BookId → Nat → Nat → Prop} {b : BookId} {o : TradeOrder} {n a : Addr}

theorem mono (h : InOrder created svc W P) (hPQ : ∀ b k t, P b k t → Q b k t) :
    InOrder created svc W Q :=
  ⟨h.holds, h.keyed, h.sorted, fun b k x hx => hPQ _ _ _ (h.known b k x hx)⟩

/-- Items keep their order when their times stay. -/
theorem congr (h : InOrder created svc W P) (hholds : Holds svc' W')
    (hkeyed : Keyed svc' W' (Dated created)) (hsub : ∀ b k, ((W' b).get k).Sublist ((W b).get k))
    (htime : ∀ b k, ∀ x ∈ (W b).get k, svc'.timeOf x.2 = svc.timeOf x.2) :
    InOrder created svc' W' P where
  holds := hholds
  keyed := hkeyed
  sorted b k := by
    refine ((h.sorted b k).imp_of_mem fun hx hy hle => ?_).sublist (hsub b k)
    rwa [htime b k _ hx, htime b k _ hy]
  known b k x hx := by
    have hx := (hsub b k).subset hx
    rw [htime b k x hx]
    exact h.known b k x hx

theorem setTimes (h : InOrder created svc W P) (lastPrices : Ticker → Nat)
    (lastOrderReadTime : Nat) :
    InOrder created { svc with lastPrices := lastPrices, lastOrderReadTime := lastOrderReadTime }
      W P :=
  ⟨h.holds.setTimes _ _, h.keyed, h.sorted, h.known⟩

theorem extend (h : InOrder created svc W P) {os : Heap TradeOrder}
    (hos : Extends svc.orders os) : InOrder created { svc with orders := os } W P := by
  refine h.congr (h.holds.extend hos) (h.keyed.extend h.holds hos) (fun _ _ => .refl _) ?_
  intro b k x hx
  rw [Service.timeOf, h.holds.orderOf_extend hos hx, Service.timeOf]

/-- An order that is not earlier than any order in its list goes to the end of it. -/
theorem load (h : InOrder created svc W P) (hL : Loaded svc svc' W b o n a)
    (ho : Dated created o) (hlast : ∀ t, P b o.price t → t ≤ o.createdAt) :
    InOrder created svc' (Function.update W b ((W b).push o.price (n, a)))
      (fun b' k t => P b' k t ∨ b' = b ∧ k = o.price ∧ t = o.createdAt) := by
  have hs := h.holds.sorted b
  have hself : svc'.timeOf a = o.createdAt := by simp [Service.timeOf, hL.orderOf_self]
  have htime : ∀ b' k, ∀ x ∈ (W b').get k, svc'.timeOf x.2 = svc.timeOf x.2 := by
    intro b' k x hx
    obtain ⟨-, o₀, o₁, -, -, ho₀, ho₁, hid, hd₀, hd₁⟩ :=
      h.keyed.orderOf_load (fun _ hd => hd.1) hL ho hx
    simp [Service.timeOf, ho₀, ho₁, hd₀.2, hd₁.2, hid]
  have hold : ∀ b' k, ((W b').get k).Pairwise fun x y => svc'.timeOf x.2 ≤ svc'.timeOf y.2 := by
    intro b' k
    refine (h.sorted b' k).imp_of_mem fun hx hy hle => ?_
    rwa [htime b' k _ hx, htime b' k _ hy]
  refine ⟨hL.holds, h.keyed.load h.holds (fun _ hd => hd.1) hL ho, fun b' k => ?_,
    fun b' k x hx => ?_⟩
  · by_cases hb : b' = b
    · subst hb
      rw [Function.update_self, Levels.get_push hs]
      split_ifs with hk
      · refine List.pairwise_append.mpr ⟨hold _ _, List.pairwise_singleton _ _, ?_⟩
        intro x hx y hy
        obtain rfl := List.mem_singleton.mp hy
        rw [htime _ _ _ hx, hself]
        exact hlast _ (h.known _ _ x hx)
      · exact hold _ _
    · rw [Function.update_of_ne hb]
      exact hold b' k
  · rcases (mem_push_iff hs).mp hx with ⟨rfl, rfl, rfl⟩ | hx
    · exact .inr ⟨rfl, rfl, hself⟩
    · rw [htime _ _ _ hx]
      exact .inl (h.known b' k x hx)

/-- A batch that is sorted at each price and not earlier than what is listed. -/
theorem query (h : InOrder created svc W P) {rows : List TradeOrder}
    (hdated : ∀ o ∈ rows, Dated created o)
    (hsorted : rows.Pairwise fun o o' => o.price = o'.price → o.createdAt ≤ o'.createdAt)
    (hlast : ∀ o ∈ rows, ∀ t, P b o.price t → t ≤ o.createdAt) :
    ∃ svc' W', TradeServer.loadOrdersHelper svc b.1 b.2 (some rows) = some (svc', true) ∧
      InOrder created svc' W'
        (fun b' k t => P b' k t ∨ b' = b ∧ ∃ o ∈ rows, k = o.price ∧ t = o.createdAt) ∧
      svc'.lastOrderReadTime = svc.lastOrderReadTime := by
  obtain ⟨svc', W', hrun, -, hJ, -, htime⟩ := @Holds.loadOrdersHelper b rows
    (fun done svc W => InOrder created svc W
      (fun b' k t => P b' k t ∨ b' = b ∧ ∃ o ∈ done, k = o.price ∧ t = o.createdAt)) svc W h.holds
    (fun os hos => (h.extend hos).mono fun _ _ _ => .inl)
    (fun done o svc₁ W₁ svc₂ n a hpre h₁ _ hL => by
      have hmem : o ∈ rows := hpre.subset (by simp)
      have hbefore := (List.pairwise_append.mp (hsorted.sublist hpre.sublist)).2.2
      refine (h₁.load hL (hdated o hmem) fun t ht => ?_).mono fun b' k t ht => ?_
      · rcases ht with ht | ⟨-, o', ho', hprice, rfl⟩
        · exact hlast o hmem t ht
        · exact hbefore o' ho' o (by simp) hprice.symm
      · rcases ht with (ht | ⟨rfl, o', ho', ht⟩) | ⟨rfl, ht⟩
        · exact .inl ht
        · exact .inr ⟨rfl, o', by simp [ho'], ht⟩
        · exact .inr ⟨rfl, o, by simp, ht⟩)
  exact ⟨svc', W', hrun, hJ, htime⟩

/-- The rest of a cycle: the lists of the books to come end before the window `w`. -/
theorem loadAll {answers : Ticker → Side → Option (List TradeOrder)} {w now : Nat}
    {seq : List (Ticker × Side)} (hnd : seq.Nodup)
    (hrows : ∀ b ∈ seq, ∀ rows, answers b.1 b.2 = some rows →
      (∀ o ∈ rows, Dated created o ∧ w ≤ o.createdAt ∧ o.createdAt ≤ now) ∧
        rows.Pairwise fun o o' => o.price = o'.price → o.createdAt ≤ o'.createdAt)
    (h : InOrder created svc W fun b _ t => (b ∈ seq → t ≤ w) ∧ t ≤ now) :
    ∃ svc' W', TradeServer.loadAll answers svc seq = some (svc', true) ∧
      InOrder created svc' W' fun _ _ t => t ≤ now := by
  induction seq generalizing svc W with
  | nil => exact ⟨svc, W, rfl, h.mono fun _ _ _ ht => ht.2⟩
  | cons b seq ih =>
    obtain ⟨hb, hnd⟩ := List.nodup_cons.mp hnd
    have hnext : ∃ svc₁ W₁, TradeServer.loadOrdersHelper svc b.1 b.2 (answers b.1 b.2) =
        some (svc₁, true) ∧ InOrder created svc₁ W₁ fun b _ t => (b ∈ seq → t ≤ w) ∧ t ≤ now := by
      cases hans : answers b.1 b.2 with
      | none =>
        exact ⟨svc, W, rfl, h.mono fun b' _ t ht => ⟨fun hb' => ht.1 (by simp [hb']), ht.2⟩⟩
      | some rows =>
        obtain ⟨hdated, hsorted⟩ := hrows b (by simp) rows hans
        obtain ⟨svc₁, W₁, hrun, h₁, -⟩ := h.query (fun o ho => (hdated o ho).1) hsorted
          (fun o ho t ht => (ht.1 List.mem_cons_self).trans (hdated o ho).2.1)
        refine ⟨svc₁, W₁, hrun, h₁.mono fun b' k t ht => ?_⟩
        rcases ht with ht | ⟨rfl, o, ho, -, rfl⟩
        · exact ⟨fun hb' => ht.1 (by simp [hb']), ht.2⟩
        · exact ⟨fun hb' => absurd hb' hb, (hdated o ho).2.2⟩
    obtain ⟨svc₁, W₁, hrun, h₁⟩ := hnext
    obtain ⟨svc₂, W₂, hrest, h₂⟩ := ih hnd (fun b' hb' => hrows b' (by simp [hb'])) h₁
    exact ⟨svc₂, W₂, by simp [TradeServer.loadAll, hrun, hrest], h₂⟩

/-! ## What is read and offered -/

theorem timesAt_eq (h : InOrder created svc W P) (b : BookId) (k : Nat) :
    svc.timesAt b k = some (((W b).get k).map fun x => svc.timeOf x.2) := by
  have hread : ∀ xs : List (Addr × Addr), (∀ x ∈ xs, x ∈ (W b).get k) →
      xs.mapM (fun x => (svc.orderOf x.2).map (·.createdAt)) =
        some (xs.map fun x => svc.timeOf x.2) := by
    intro xs hxs
    induction xs with
    | nil => rfl
    | cons x xs ih =>
      obtain ⟨o, ho⟩ := h.holds.orders b k x.1 x.2 (hxs x (by simp))
      simp [ih fun y hy => hxs y (by simp [hy]), ho, Service.timeOf]
  rw [Service.timesAt, h.holds.walk b]
  exact hread _ fun _ hx => hx

theorem timePriority (h : InOrder created svc W P) : TimePriority svc := fun b k =>
  ⟨_, h.timesAt_eq b k, List.pairwise_map.mpr (h.sorted b k)⟩

/-- The crossed items of a list come in the order of the list. -/
theorem crossed_sorted (h : InOrder created svc W P) (ticker : Ticker) (last current : Nat)
    (b : BookId) (k : Nat) : (W.crossed ticker last current).Pairwise fun x y =>
      x ∈ (W b).get k → y ∈ (W b).get k → svc.timeOf x.2 ≤ svc.timeOf y.2 := by
  have hrange : ∀ side lo hi, ((W (ticker, side)).inRange lo hi).Pairwise fun x y =>
      x ∈ (W b).get k → y ∈ (W b).get k → svc.timeOf x.2 ≤ svc.timeOf y.2 := by
    intro side lo hi
    refine Levels.pairwise_inRange (h.holds.sorted _) (fun k' => ?_) ?_ lo hi
    · refine (h.sorted (ticker, side) k').imp fun hle _ _ => hle
    · -- a list node is at one price only
      intro k₁ k₂ x y hlt hx hy hx' hy'
      have h₁ := (h.holds.node_unique hx hx').2.1
      have h₂ := (h.holds.node_unique hy hy').2.1
      omega
  refine List.pairwise_append.mpr ⟨hrange _ _ _, hrange _ _ _, fun x hx y hy hx' hy' => ?_⟩
  obtain ⟨k₁, -, -, hx⟩ := (Levels.mem_inRange (h.holds.sorted _)).mp hx
  obtain ⟨k₂, -, -, hy⟩ := (Levels.mem_inRange (h.holds.sorted _)).mp hy
  have hside := (h.holds.node_unique hx hx').1.trans (h.holds.node_unique hy hy').1.symm
  simp at hside

theorem offeredInOrder (h : InOrder created svc W P) : OfferedInOrder svc := by
  intro σ fillOrder ticker current world svc' fills world' hrun b k
  by_cases hlast : svc.lastPrices ticker = 0
  · simp only [TradeServer.processFills, if_pos hlast, Option.some_inj, Prod.mk.injEq] at hrun
    simp [← hrun.2.1]
  obtain ⟨svc₁, hfill, -⟩ := h.holds.processFills fillOrder hlast current world
  have hfills := (Prod.mk.inj (Prod.mk.inj (Option.some.inj (hfill.symm.trans hrun))).2).1
  have hcalls := @fillAll_calls _ fillOrder (withOrders svc.htOrders.entries svc.orders
    (W.crossed ticker (svc.lastPrices ticker) current)) world
  rw [← callsOn, hfills] at hcalls
  -- a call is about an item of the books and the order that it leads to
  have hitem : ∀ x ∈ W.crossed ticker (svc.lastPrices ticker) current,
      (∃ a, svc.Listed b k x.1 a) → x ∈ (W b).get k := by
    rintro x hx ⟨a, ha⟩
    obtain ⟨side, k', -, -, hx⟩ := (Books.mem_crossed h.holds.sorted).mp hx
    rw [h.holds.listed_iff] at ha
    obtain ⟨-, -, rfl⟩ := h.holds.node_unique ha hx
    exact ha
  have hpairs : (withOrders svc.htOrders.entries svc.orders
      (W.crossed ticker (svc.lastPrices ticker) current)).Pairwise fun p p' =>
        (∃ a, svc.Listed b k p.1 a) → (∃ a, svc.Listed b k p'.1 a) →
          p.2.createdAt ≤ p'.2.createdAt := by
    refine List.pairwise_filterMap.mpr
      ((h.crossed_sorted ticker _ current b k).imp_of_mem fun {x y} hx hy hle p hp p' hp' => ?_)
    obtain ⟨o, ho, rfl⟩ := Option.map_eq_some_iff.mp hp
    obtain ⟨o', ho', rfl⟩ := Option.map_eq_some_iff.mp hp'
    intro hin hin'
    have hle := hle (hitem x hx hin) (hitem y hy hin')
    have ho : svc.orderOf x.2 = some o := ho
    have ho' : svc.orderOf y.2 = some o' := ho'
    simpa [Service.timeOf, ho, ho'] using hle
  rw [← hcalls, List.pairwise_map] at hpairs
  exact hpairs

end InOrder

/-! ## Runs -/

/-- The window of the next queries starts where the times of the lists end. -/
def UpToWindow (created : Nat → Nat) (svc : Service) (W : Books) : Prop :=
  InOrder created svc W fun _ _ t => t ≤ svc.lastOrderReadTime

namespace UpToWindow

variable {created : Nat → Nat} {svc svc' : Service} {W : Books}

theorem load (h : UpToWindow created svc W)
    {answers : Ticker → Side → Option (List TradeOrder)} {moment : BookId → Nat} {now : Nat}
    (hans : Answered svc answers) (htimely : Timely created svc answers moment now) :
    ∃ svc' W', loadOrders svc answers now = some (svc', true) ∧ UpToWindow created svc' W' := by
  have hclock := htimely.clock
  simp only [List.cons_append, List.pairwise_cons, List.pairwise_append, List.mem_append,
    List.mem_map, List.mem_singleton] at hclock
  have hw : svc.lastOrderReadTime ≤ now := hclock.1 now (.inr rfl)
  obtain ⟨svc₁, W₁, hrun, h₁⟩ := @InOrder.loadAll created svc W answers svc.lastOrderReadTime now
    loadSequence (by decide) (fun b hb rows hrows => by
      refine ⟨fun o ho => ?_, (htimely.sorted b rows hrows).imp fun hbefore hprice => ?_⟩
      · have hm := hans b hb rows hrows o ho
        obtain ⟨hdated, hle⟩ := htimely.dated b rows hrows o ho
        exact ⟨hdated, hm.2.2.2, hle.trans (hclock.2.2.2 _ ⟨b, hb, rfl⟩ now rfl)⟩
      · unfold Query.Before at hbefore
        split at hbefore <;> omega)
    (InOrder.mono h fun _ _ t ht => ⟨fun _ => ht, ht.trans hw⟩)
  refine ⟨{ svc₁ with lastOrderReadTime := now }, W₁, ?_, h₁.setTimes _ _⟩
  simp [loadOrders, loadOrdersAllTickers, hrun]

theorem fill (h : UpToWindow created svc W) {σ : Type} {fillOrder : FillOrder σ}
    {ticker : Ticker} {current : Nat} {world world' : σ} {fills : List Fill}
    (hrun : TradeServer.processFills fillOrder svc ticker current world =
      some (svc', fills, world')) : ∃ W', UpToWindow created svc' W' := by
  by_cases hlast : svc.lastPrices ticker = 0
  · simp only [TradeServer.processFills, if_pos hlast, Option.some_inj, Prod.mk.injEq] at hrun
    exact ⟨W, hrun.1 ▸ h⟩
  obtain ⟨svc₁, hfill, hholds, hht, horders, -, htime⟩ :=
    h.holds.processFills fillOrder hlast current world
  obtain rfl := congrArg Prod.fst (Option.some.inj (hfill.symm.trans hrun))
  have horderOf : ∀ a, svc₁.orderOf a = svc.orderOf a := by
    intro a
    rw [Service.orderOf, hht, horders, Service.orderOf]
  refine ⟨W.without _, (InOrder.congr h hholds ?_ ?_ ?_).mono fun _ _ t ht => htime ▸ ht⟩
  · intro b k n a hm
    rw [hht, horderOf]
    exact h.keyed b k n a (Books.mem_without.mp hm).1
  · intro b k
    simp [Books.without]
  · intro b k x _
    simp [Service.timeOf, horderOf]

theorem step (h : UpToWindow created svc W) {e : LoadEvent} (htimely : e.Timely created svc)
    (hstep : loadSystem.step svc e svc') : ∃ W', UpToWindow created svc' W' := by
  obtain ⟨hrun, hanswers⟩ := hstep
  cases e with
  | load answers now =>
    obtain ⟨moment, htimely⟩ := htimely
    obtain ⟨svc₁, W₁, hload, h₁⟩ := h.load hanswers htimely
    obtain rfl : svc₁ = svc' := by simpa [loadStep, hload] using hrun
    exact ⟨W₁, h₁⟩
  | fill ticker currentPrice outcomes =>
    obtain ⟨⟨svc₁, fills, world⟩, hfill, rfl⟩ := Option.map_eq_some_iff.mp hrun
    exact h.fill hfill
  | price ticker price =>
    obtain rfl := Option.some.inj hrun
    exact ⟨W, InOrder.setTimes h _ _⟩

end UpToWindow

/-- Whatever the queries return and whatever is filled, the lists stay sorted by time, and the
orders of a list are offered in that order. -/
theorem time_priority (created : Nat → Nat) {svc : Service}
    (h : (loadSystem.restrict fun svc e => e.Timely created svc).Reachable svc) :
    TimePriority svc ∧ OfferedInOrder svc := by
  have hinv : (loadSystem.restrict fun svc e => e.Timely created svc).Invariant
      fun svc => ∃ W, UpToWindow created svc W := by
    refine ⟨?_, ?_⟩
    · rintro svc ⟨unset, lastPrices, w, rfl⟩
      have hholds := (holds_tradeServiceInit unset).setTimes lastPrices w
      exact ⟨_, hholds, fun b k n a hm => by simp at hm, fun b k => by simp, fun b k x hx => by
        simp at hx⟩
    · rintro svc e svc' ⟨W, hW⟩ ⟨htimely, hstep⟩
      exact hW.step htimely hstep
  obtain ⟨W, hW⟩ := hinv.of_reachable h
  exact ⟨InOrder.timePriority hW, InOrder.offeredInOrder hW⟩

/-- Two buy orders at one price, a second apart. -/
def firstBuy : TradeOrder := ⟨7, 1, tickers .ANDTHEN, 'B', 'O', 'L', 10, 4, 11⟩

def secondBuy : TradeOrder := ⟨8, 2, tickers .ANDTHEN, 'B', 'O', 'L', 10, 4, 12⟩

/-- The rows of the first buy query, and none for the others. -/
def buyRows (rows : List TradeOrder) : Ticker → Side → Option (List TradeOrder)
  | .ANDTHEN, .BUY => some rows
  | _, _ => some []

/-- A load of buy orders whose times are four later than their ids, with all queries at its end. -/
theorem buyRows_step {svc svc' : Service} {rows : List TradeOrder} {now : Nat}
    (hrun : loadStep svc (.load (buyRows rows) now) = some svc')
    (hmatch : ∀ o ∈ rows, (loadQuery svc .ANDTHEN .BUY).Matches o)
    (hdated : ∀ o ∈ rows, Dated (· + 4) o ∧ o.createdAt ≤ now)
    (hsorted : rows.Pairwise (loadQuery svc .ANDTHEN .BUY).Before)
    (hnow : svc.lastOrderReadTime ≤ now) :
    (loadSystem.restrict fun svc e => e.Timely (· + 4) svc).step svc (.load (buyRows rows) now)
      svc' := by
  have hrows : ∀ (b : BookId) rows', buyRows rows b.1 b.2 = some rows' →
      b = (.ANDTHEN, .BUY) ∧ rows' = rows ∨ rows' = [] := by
    rintro ⟨ticker, side⟩ rows' h
    cases ticker <;> cases side <;> simp_all [buyRows]
  refine ⟨⟨fun _ => now, ?_, fun b rows' h => ?_, fun b rows' h => ?_⟩, hrun, fun b _ rows' h => ?_⟩
  · simp [loadSequence, hnow]
  all_goals rcases hrows b rows' h with ⟨rfl, rfl⟩ | rfl
  · exact hdated
  · simp
  · exact hsorted
  · exact List.Pairwise.nil
  · exact hmatch
  · simp

/-- The second load returns the first order again. -/
theorem time_priority_two_loads :
    ∃ svc svc', loadStep (tradeServiceInit 0) (.load (buyRows [firstBuy]) 11) = some svc ∧
      loadStep svc (.load (buyRows [firstBuy, secondBuy]) 12) = some svc' ∧
      svc'.timesAt (.ANDTHEN, .BUY) 4 = some [11, 11, 12] ∧
      TimePriority svc' ∧ OfferedInOrder svc' := by
  have hfirst : (loadStep (tradeServiceInit 0) (.load (buyRows [firstBuy]) 11)).map
      (·.lastOrderReadTime) = some 11 := by decide
  have hboth : ((loadStep (tradeServiceInit 0) (.load (buyRows [firstBuy]) 11)).bind
      (loadStep · (.load (buyRows [firstBuy, secondBuy]) 12))).map
        (·.timesAt (.ANDTHEN, .BUY) 4) = some (some [11, 11, 12]) := by decide
  obtain ⟨svc, hrun, htime⟩ := Option.map_eq_some_iff.mp hfirst
  rw [hrun, Option.bind_some] at hboth
  obtain ⟨svc', hrun', htimes⟩ := Option.map_eq_some_iff.mp hboth
  have hquery : loadQuery svc .ANDTHEN .BUY = ⟨.BUY, .ANDTHEN, 11, MAX_LOAD_ORDERS⟩ := by
    rw [loadQuery, htime]
  refine ⟨svc, svc', hrun, hrun', htimes, time_priority (· + 4) ⟨tradeServiceInit 0, _,
    ⟨0, fun _ => 0, 0, rfl⟩, .snoc (.snoc (.nil _) (buyRows_step hrun ?_ ?_ ?_ ?_))
      (buyRows_step hrun' ?_ ?_ ?_ ?_)⟩⟩
  · decide
  · decide
  · decide
  · decide
  · rw [hquery]
    decide
  · decide
  · rw [hquery]
    decide
  · rw [htime]
    decide

end TradeServer
