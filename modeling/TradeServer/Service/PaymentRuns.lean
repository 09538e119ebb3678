import TradeServer.Service.Monitor
import TradeServer.Service.Payment

/-!
# Runs with failing updates

As long as no call of `fill_order` is torn between its two updates, the filled rows are the paid
ones and every resting order has an open row. A torn call shows when it returns, or at the next
restart if it does not.
-/

namespace TradeServer

open Library

/-- Every item of a book is for an open row of its book. -/
def FromTable (svc : Service) (W : Books) (rows : List TradeOrder) : Prop :=
  ∀ b k n a o, (n, a) ∈ (W b).get k → svc.orderOf a = some o → o ∈ rows ∧ o.status = 'O' ∧ b.Has o

/-! ## Restarts -/

theorem BookId.Has.unique {b b' : BookId} {o : TradeOrder} (h : b.Has o) (h' : b'.Has o) :
    b = b' := by
  have hticker : b.1 = b'.1 := tickers_injective (h.1.symm.trans h'.1)
  have hside : b.2 = b'.2 := by
    have hchar := h.2.symm.trans h'.2
    cases hb : b.2 <;> cases hb' : b'.2 <;> simp [hb, hb', Side.char] at hchar ⊢
  exact Prod.ext hticker hside

/-- Queries for different books on one table. -/
theorem BooksOnce.loadAll {rows : List TradeOrder} (hids : RowIds rows)
    {answers : Ticker → Side → Option (List TradeOrder)} {seq : List BookId} (hnd : seq.Nodup)
    (hanswers : ∀ b ∈ seq, ∀ answer ∈ answers b.1 b.2, (answer.map (·.id)).Nodup ∧
      ∀ o ∈ answer, o ∈ rows ∧ o.status = 'O' ∧ b.Has o)
    {svc : Service} {W : Books} (h : BooksOnce svc W rows) (hfrom : FromTable svc W rows)
    (hempty : ∀ b ∈ seq, ∀ k, (W b).get k = []) :
    ∃ svc' W', TradeServer.loadAll answers svc seq = some (svc', true) ∧
      BooksOnce svc' W' rows ∧ FromTable svc' W' rows := by
  induction seq generalizing svc W with
  | nil => exact ⟨svc, W, rfl, h, hfrom⟩
  | cons b seq ih =>
    obtain ⟨hb, hnd⟩ := List.nodup_cons.mp hnd
    have ih := fun {svc W} => @ih hnd (fun b' hb' => hanswers b' (by simp [hb'])) svc W
    cases hans : answers b.1 b.2 with
    | none =>
      obtain ⟨svc', W', hrun, h'⟩ := ih h hfrom fun b' hb' => hempty b' (by simp [hb'])
      exact ⟨svc', W', by simp [TradeServer.loadAll, hans, TradeServer.loadOrdersHelper, hrun], h'⟩
    | some answer =>
      obtain ⟨hanswer, hrows⟩ := hanswers b (by simp) answer hans
      -- an order of this book would rest in it, and nothing does
      have hnew : ∀ o ∈ answer, ¬ svc.Resting o.id := by
        intro o ho hr
        obtain ⟨b', k, n, a, o', hm, ho', hid⟩ := h.holds.resting_iff.mp hr
        obtain ⟨hrow', -, hb'⟩ := hfrom b' k n a o' hm ho'
        obtain ⟨hrow, -, hbo⟩ := hrows o ho
        obtain rfl := hids.eq_of_id hrow' hrow hid
        obtain rfl := hb'.unique hbo
        simp [hempty b' (by simp) k] at hm
      obtain ⟨svc₁, W₁, hrun₁, h₁, hadds⟩ := h.loadOrdersHelper b hanswer
        (fun o ho => hids.small o (hrows o ho).1) (fun o ho => ⟨(hrows o ho).1, (hrows o ho).2.1⟩)
        hnew
      have hfrom₁ : FromTable svc₁ W₁ rows := by
        intro b' k n a o hm ho
        rcases hadds b' k n a o hm ho with ⟨rfl, ho'⟩ | ⟨hm, ho⟩
        · exact hrows o ho'
        · exact hfrom b' k n a o hm ho
      have hempty₁ : ∀ b' ∈ seq, ∀ k, (W₁ b').get k = [] := by
        intro b' hb' k
        refine List.eq_nil_iff_forall_not_mem.mpr ?_
        rintro ⟨n, a⟩ hm
        obtain ⟨o, ho⟩ := h₁.holds.orders b' k n a hm
        rcases hadds b' k n a o hm ho with ⟨rfl, -⟩ | ⟨hm, -⟩
        · exact hb hb'
        · simp [hempty b' (by simp [hb']) k] at hm
      obtain ⟨svc', W', hrun, h'⟩ := ih h₁ hfrom₁ hempty₁
      exact ⟨svc', W', by simp [TradeServer.loadAll, hans, hrun₁, hrun], h'⟩

/-- A start of the service on a table. -/
theorem booksOnce_initService {rows : List TradeOrder} (hids : RowIds rows) {start : Startup}
    (hstart : start.Fetches rows) :
    ∃ svc W, initService (tradeServiceInit start.unset) start.prices start.answers start.now =
        some (svc, true) ∧
      BooksOnce svc W rows ∧ FromTable svc W rows := by
  have hanswers : ∀ b : BookId, b ∈ loadSequence →
      ∀ answer ∈ start.answers b.1 b.2, (answer.map (·.id)).Nodup ∧
        ∀ o ∈ answer, o ∈ rows ∧ o.status = 'O' ∧ b.Has o := by
    intro b hb answer hanswer
    obtain ⟨all, hall, rfl⟩ := Option.map_eq_some_iff.mp hanswer
    have hres := hstart b hb all hall
    have hsub : (all.take MAX_LOAD_ORDERS).Sublist all := List.take_sublist _ _
    have hall : (all.map (·.id)).Nodup :=
      (hres.1.map _).nodup_iff.mpr (hids.nodup.sublist (List.filter_sublist.map _))
    refine ⟨hall.sublist (hsub.map _), fun o ho => ?_⟩
    obtain ⟨hrow, hside, hopen, hticker, -⟩ := hres.of_mem (hsub.subset ho)
    exact ⟨hrow, hopen, hticker, hside⟩
  have hfresh := (booksOnce_tradeServiceInit start.unset rows).setTimes
    (fun ticker => if start.prices ticker = 0 then 0 else start.prices ticker)
    (start.now.1 - BACKLOAD_WEEKS * 604800)
  obtain ⟨svc, W, hrun, h, hfrom⟩ := @BooksOnce.loadAll rows hids start.answers loadSequence
    (by decide) hanswers _ _ hfresh (fun b k n a o hm => by simp at hm) (by simp)
  refine ⟨{ svc with lastOrderReadTime := start.now.2 }, W, ?_, h.setTimes _ _, hfrom⟩
  simp only [initService, TradeServer.loadOrders, loadOrdersAllTickers]
  exact congrArg (Option.bind · _) hrun

/-! ## Steps -/

/-- The steps one by one. -/
inductive PaymentCase (lower : List Char → Option (List Char)) (s : Payments) :
    PaymentEvent → Payments → Prop where
  | insert {o : TradeOrder} (ho : NewRow s.world.rows o) : PaymentCase lower s (.insert o)
      { s with world := { s.world with rows := s.world.rows ++ [o] } }
  | price {ticker : Ticker} {price : Nat} (hs : s.hung = false) :
      PaymentCase lower s (.price ticker price)
        { s with svc := { s.svc with lastPrices := Function.update s.svc.lastPrices ticker price } }
  | fill {ticker : Ticker} {currentPrice : Nat} {times : List FillTimes} {results : List Bool}
      {svc : Service} {fills : List Fill} {record : Recorded Ledger} (hs : s.hung = false)
      (hrun : processFills (recorded (fillOrder lower)) s.svc ticker currentPrice
        (s.withInputs times results) = some (svc, fills, record)) :
      PaymentCase lower s (.fill ticker currentPrice times results) ⟨record, svc⟩
  | restart {start : Startup} {svc : Service} {result : Bool}
      {clients : Option FillBatch} (hstart : start.Fetches s.world.rows)
      (hrun : initService (tradeServiceInit start.unset) start.prices start.answers start.now =
        some (svc, result)) :
      PaymentCase lower s (.restart start)
        { svc := svc
          world := { s.world with written := fun _ => none, clients := clients }
          calls := s.calls
          hung := false }

theorem paymentStep_cases {lower : List Char → Option (List Char)} {s t : Payments}
    {e : PaymentEvent} (hstep : paymentStep lower s e = some t) : PaymentCase lower s e t := by
  cases e with
  | insert o =>
    by_cases ho : NewRow s.world.rows o
    · simp only [paymentStep, if_pos ho, Option.some_inj] at hstep
      exact hstep ▸ .insert ho
    · simp [paymentStep, ho] at hstep
  | price ticker price =>
    by_cases hs : s.hung = true
    · simp [paymentStep, hs] at hstep
    · simp only [paymentStep, if_neg hs, Option.some_inj] at hstep
      exact hstep ▸ .price (by simpa using hs)
  | fill ticker currentPrice times results =>
    by_cases hs : s.hung = true
    · simp [paymentStep, hs] at hstep
    · simp only [paymentStep, if_neg hs, Option.map_eq_some_iff] at hstep
      obtain ⟨⟨svc, fills, record⟩, hrun, rfl⟩ := hstep
      exact .fill (by simpa using hs) hrun
  | restart start =>
    by_cases hstart : start.Fetches s.world.rows
    · simp only [paymentStep, if_pos hstart, Option.map_eq_some_iff] at hstep
      obtain ⟨⟨svc, result⟩, hrun, rfl⟩ := hstep
      exact .restart hstart hrun
    · simp [paymentStep, hstart] at hstep

/-- The service between calls, as long as no call was torn. -/
structure Running (lower : List Char → Option (List Char)) (s : Payments) (W : Books) : Prop where
  hung : s.hung = false
  books : BooksOnce s.svc W s.world.rows
  world : s.world.Settled
  whole : ∀ c ∈ s.calls, ¬ c.Torn lower
  agrees : ∀ c ∈ s.calls, c.Agrees
  kept : (∃ c ∈ s.calls, ¬ c.RowUpdated ∧ ¬ c.Kept) ∨
    ((∀ c ∈ s.calls, c.RowUpdated ∧ c.Kept) ∧
      ∀ b k n a o, (n, a) ∈ (W b).get k → s.svc.orderOf a = some o → s.world.status o = 'O')

/-- A torn call that shows now, or that has not returned. -/
def Broken (lower : List Char → Option (List Char)) (s : Payments) : Prop :=
  (∃ c ∈ s.calls, c.Torn lower) ∧ (¬ s.Agrees ∨ (s.hung = true ∧ ¬ s.world.Agrees))

section Steps

variable {lower : List Char → Option (List Char)} {s t : Payments} {W : Books}

theorem Ledger.Settled.insert {w : Ledger} (h : w.Settled) {o : TradeOrder}
    (ho : NewRow w.rows o) : ({ w with rows := w.rows ++ [o] } : Ledger).Settled := by
  obtain ⟨hopen, hsmall, hfresh⟩ := ho
  refine ⟨h.ids.append hsmall hfresh, fun r hr => ?_, fun o' ho' => ?_⟩
  · rcases List.mem_append.mp hr with hr | hr
    · exact h.agrees r hr
    · obtain rfl := List.mem_singleton.mp hr
      have hnot : r.id ∉ w.paid.map (·.id) := fun hm => by
        obtain ⟨o', ho', heq⟩ := List.mem_map.mp hm
        exact hfresh (heq ▸ h.paid o' ho')
      exact ⟨by simp [hopen, hnot], by simp [List.count_eq_zero_of_not_mem hnot]⟩
  · rw [List.map_append]
    exact List.mem_append_left _ (h.paid o' ho')

theorem Running.fill (h : Running lower s W) {ticker : Ticker} {currentPrice : Nat}
    {times : List FillTimes} {results : List Bool} {svc : Service} {fills : List Fill}
    {record : Recorded Ledger}
    (hfill : processFills (recorded (fillOrder lower)) s.svc ticker currentPrice
      (s.withInputs times results) = some (svc, fills, record)) :
    (∃ W', Running lower ⟨record, svc⟩ W') ∨ Broken lower ⟨record, svc⟩ := by
  let s₁ := s.withInputs times results
  obtain ⟨xs, svc', W', hrun, hitem, hids, hbooks, hleft⟩ :=
    h.books.scan (recorded (fillOrder lower)) ticker currentPrice s₁
  have hopen : ∀ x ∈ xs, ∃ r ∈ s₁.world.rows, r.id = x.2.id ∧ r.status = 'O' := by
    intro x hx
    obtain ⟨b, k, a, hm, ho⟩ := hitem x hx
    exact h.books.opened b k x.1 a x.2 hm ho
  have hworld : s₁.world.Settled := h.world.congr rfl rfl
  obtain ⟨new, hnew, hscan⟩ := @scan_cases lower xs hids s₁ h.hung hworld hopen
  obtain ⟨rfl, heq⟩ : svc' = svc ∧
      fillAll (recorded (fillOrder lower)) xs s₁ = (fills, record) := by
    simpa using hrun.symm.trans hfill
  rw [heq] at hbooks hleft hnew hscan
  have hcalls : record.calls = s.calls ++ new := hnew
  cases hscan with
  | torn htorn hseen =>
    obtain ⟨d, hd, hdtorn⟩ := htorn
    refine .inr ⟨⟨d, by simp [hcalls, hd], hdtorn⟩, hseen.imp_left ?_⟩
    rintro ⟨d, hd, hnot⟩ hall
    exact hnot (hall.2 d (by simp [hcalls, hd]))
  | settled hwhole hagrees hhung hsettled hrows hkept =>
    refine .inl ⟨W', hhung, by rw [hrows]; exact hbooks, hsettled, ?_, ?_, ?_⟩
    · simpa only [hcalls] using List.forall_mem_append.mpr ⟨h.whole, hwhole⟩
    · simpa only [hcalls] using List.forall_mem_append.mpr ⟨h.agrees, hagrees⟩
    · simp only [hcalls]
      rcases h.kept with ⟨d, hd, hdnot⟩ | ⟨hall, hO⟩
      · exact .inl ⟨d, List.mem_append_left _ hd, hdnot⟩
      have hxs : ∀ x ∈ xs, s₁.world.status x.2 = 'O' := by
        intro x hx
        obtain ⟨b, k, a, hm, ho⟩ := hitem x hx
        exact hO b k x.1 a x.2 hm ho
      rcases hkept hxs with ⟨d, hd, hdnot⟩ | ⟨hall', hsame⟩
      · exact .inl ⟨d, List.mem_append_right _ hd, hdnot⟩
      · refine .inr ⟨List.forall_mem_append.mpr ⟨hall, hall'⟩, fun b k n a o hm ho => ?_⟩
        obtain ⟨hm, hsvc, hother⟩ := hleft b k n a hm
        rw [hsvc] at ho
        rw [hsame o (hother o ho)]
        exact hO b k n a o hm ho

theorem Running.step (h : Running lower s W) {e : PaymentEvent}
    (hstep : paymentStep lower s e = some t) : (∃ W', Running lower t W') ∨ Broken lower t := by
  cases paymentStep_cases hstep with
  | insert ho =>
    exact .inl ⟨W, h.hung, h.books.append _, h.world.insert ho, h.whole, h.agrees, h.kept⟩
  | price hs => exact .inl ⟨W, h.hung, h.books.setTimes _ _, h.world, h.whole, h.agrees, h.kept⟩
  | fill hs hrun => exact h.fill hrun
  | restart hstart hrun =>
    obtain ⟨svc', W', hrun', hbooks, hfrom⟩ := booksOnce_initService h.world.ids hstart
    obtain ⟨rfl, -⟩ := Prod.mk.inj (Option.some.inj (hrun'.symm.trans hrun))
    refine .inl ⟨W', rfl, hbooks, h.world.congr rfl rfl, h.whole, h.agrees, ?_⟩
    refine h.kept.imp_right fun hall => ⟨hall.1, fun b k n a o hm ho => ?_⟩
    exact (hfrom b k n a o hm ho).2.1

/-- Calls stay on record, and the wallets change by what is paid. -/
structure KeepsRecord (lower : List Char → Option (List Char)) (s t : Payments) : Prop where
  holds : ∃ W, Holds t.svc W
  calls : s.calls ⊆ t.calls
  wallets : WalletsFollow lower s.world t.world

theorem keepsRecord_step {e : PaymentEvent} (hs : ∃ W, Holds s.svc W)
    (hstep : paymentStep lower s e = some t) : KeepsRecord lower s t := by
  obtain ⟨W, h⟩ := hs
  cases paymentStep_cases hstep with
  | insert ho => exact ⟨⟨W, h⟩, List.Subset.refl _, fun _ _ => rfl⟩
  | price hs => exact ⟨⟨W, h.setTimes _ _⟩, List.Subset.refl _, fun _ _ => rfl⟩
  | @fill ticker currentPrice times results svc fills record hs hrun =>
    by_cases hlast : s.svc.lastPrices ticker = 0
    · simp only [processFills, if_pos hlast, Option.some_inj, Prod.mk.injEq] at hrun
      obtain ⟨rfl, -, rfl⟩ := hrun
      exact ⟨⟨W, h⟩, List.Subset.refl _, fun _ _ => rfl⟩
    · obtain ⟨svc₁, hrun₁, h₁, -⟩ := h.processFills (recorded (fillOrder lower)) hlast currentPrice
        (s.withInputs times results)
      obtain ⟨rfl, -, rfl⟩ : _ ∧ _ ∧ _ := by
        simpa only [Option.some_inj, Prod.mk.injEq] using hrun₁.symm.trans hrun
      obtain ⟨new, hnew⟩ := @calls_fillAll _ (fillOrder lower) (withOrders s.svc.htOrders.entries
        s.svc.orders (W.crossed ticker (s.svc.lastPrices ticker) currentPrice))
        (s.withInputs times results)
      exact ⟨⟨_, h₁⟩, fun c hc => hnew ▸ List.mem_append_left _ hc, walletsFollow_fillAll lower _ _⟩
  | @restart start svc result clients hstart hrun =>
    obtain ⟨svc', W', hinit, h', -⟩ :=
      initService_holds start.unset start.prices start.answers start.now
    obtain ⟨rfl, -⟩ := Prod.mk.inj (Option.some.inj (hinit.symm.trans hrun))
    exact ⟨⟨W', h'⟩, List.Subset.refl _, fun _ _ => rfl⟩

/-- A call that does not return shows after the restart. -/
theorem not_agrees_of_hung {es : List PaymentEvent} (hs : s.hung = true) (hw : ¬ s.world.Agrees)
    (hrun : es.foldlM (paymentStep lower) s = some t) (ht : t.hung = false) :
    ¬ AllStates (paymentStep lower) Payments.Agrees s es := by
  induction es generalizing s with
  | nil =>
    obtain rfl := Option.some.inj hrun
    simp [hs] at ht
  | cons e es ih =>
    obtain ⟨u, hu, hrest⟩ := foldlM_cons_eq_some.mp hrun
    rw [allStates_cons hu]
    rintro ⟨-, hall⟩
    cases paymentStep_cases hu with
    | insert ho =>
      refine ih ?_ ?_ hrest hall
      · exact hs
      · exact fun h => hw fun r hr => h r (List.mem_append_left _ hr)
    | price hrunning => simp [hs] at hrunning
    | fill hrunning hfill => simp [hs] at hrunning
    | restart hstart hinit =>
      have hagrees := hall [] _ List.nil_prefix rfl
      exact hw ((hagrees.1 rfl).congr rfl rfl)

/-- A torn call shows in some state of every run that goes on to a moment between calls. -/
theorem Broken.not_agrees (h : Broken lower s) {es : List PaymentEvent}
    (hrun : es.foldlM (paymentStep lower) s = some t) (ht : t.hung = false) :
    ¬ AllStates (paymentStep lower) Payments.Agrees s es := by
  rcases h.2 with hnot | ⟨hs, hw⟩
  · exact fun hall => hnot (hall [] s List.nil_prefix rfl)
  · exact not_agrees_of_hung hs hw hrun ht

theorem keepsRecord_run {es : List PaymentEvent} (hs : ∃ W, Holds s.svc W)
    (hrun : es.foldlM (paymentStep lower) s = some t) : KeepsRecord lower s t := by
  induction es generalizing s with
  | nil =>
    obtain rfl := Option.some.inj hrun
    exact ⟨hs, List.Subset.refl _, fun _ _ => rfl⟩
  | cons e es ih =>
    obtain ⟨u, hu, hrest⟩ := foldlM_cons_eq_some.mp hrun
    have hsu := keepsRecord_step hs hu
    have hut := ih hsu.holds hrest
    exact ⟨hut.holds, List.Subset.trans hsu.calls hut.calls, hsu.wallets.trans hut.wallets⟩

/-! ## Runs -/

theorem Running.agrees_now (h : Running lower s W) : s.Agrees := ⟨fun _ => h.world.agrees, h.agrees⟩

/-- A run without torn calls ends between calls, and filled rows are paid in all its states. A torn
call has not returned at the end, or it shows before. -/
theorem Running.run (h : Running lower s W) {es : List PaymentEvent}
    (hrun : es.foldlM (paymentStep lower) s = some t) :
    ((∃ W', Running lower t W') ∧ AllStates (paymentStep lower) Payments.Agrees s es) ∨
      ((∃ c ∈ t.calls, c.Torn lower) ∧
        ¬ (t.hung = false ∧ AllStates (paymentStep lower) Payments.Agrees s es)) := by
  induction es generalizing s W with
  | nil =>
    obtain rfl := Option.some.inj hrun
    exact .inl ⟨⟨W, h⟩, allStates_nil.mpr h.agrees_now⟩
  | cons e es ih =>
    obtain ⟨u, hu, hrest⟩ := foldlM_cons_eq_some.mp hrun
    rw [allStates_cons hu, and_iff_right h.agrees_now]
    rcases h.step hu with ⟨W', h'⟩ | hbroken
    · exact ih h' hrest
    · obtain ⟨c, hc, htorn⟩ := hbroken.1
      have hkeeps := keepsRecord_run (keepsRecord_step ⟨W, h.books.holds⟩ hu).holds hrest
      exact .inr ⟨⟨c, hkeeps.calls hc, htorn⟩,
        fun ⟨ht, hall⟩ => hbroken.not_agrees hrest ht hall⟩

end Steps

theorem Running.of_start {lower : List Char → Option (List Char)} {s : Payments}
    (h : PaymentStart s) : Running lower s (fun _ => []) := by
  obtain ⟨unset, hsvc⟩ := h.svc
  refine ⟨h.hung, hsvc ▸ booksOnce_tradeServiceInit unset _, ⟨h.ids, h.agrees, h.paid⟩, ?_, ?_, ?_⟩
  · simp [h.calls]
  · simp [h.calls]
  · exact .inr ⟨by simp [h.calls], fun b k n a o hm => by simp at hm⟩

/-- In every run the wallets change by what is paid, also where calls are torn. -/
theorem wallets_follow_payments {lower : List Char → Option (List Char)} {s : Payments}
    (h : PaymentStart s) (es : List PaymentEvent) :
    AllStates (paymentStep lower) (fun u => WalletsFollow lower s.world u.world) s es := by
  have hstart : Running lower s (fun _ => []) := .of_start h
  exact fun _ _ _ hu => (keepsRecord_run ⟨_, hstart.books.holds⟩ hu).wallets

/-- In every run the filled rows are the paid ones at all moments between calls, and no call is left
hanging, exactly when no call has its row updated without the wallet. The failed calls also keep the
status of the order and of its row exactly when both updates of every call are made. The wallets
change by what the paid orders bring to their users, and by nothing else. -/
theorem payments_agree_iff {lower : List Char → Option (List Char)} {s t : Payments}
    (h : PaymentStart s) {es : List PaymentEvent}
    (hrun : es.foldlM (paymentStep lower) s = some t) :
    (t.hung = false ∧ AllStates (paymentStep lower) Payments.Agrees s es ↔
      ∀ c ∈ t.calls, c.RowUpdated → c.WalletUpdated lower) ∧
    (t.hung = false ∧ AllStates (paymentStep lower) Payments.Sound s es ↔
      ∀ c ∈ t.calls, c.RowUpdated ∧ c.WalletUpdated lower) ∧
    AllStates (paymentStep lower) (fun u => WalletsFollow lower s.world u.world) s es := by
  rw [← and_assoc]
  refine ⟨?_, wallets_follow_payments h es⟩
  have hstart : Running lower s (fun _ => []) := .of_start h
  have hmono : AllStates (paymentStep lower) Payments.Sound s es →
      AllStates (paymentStep lower) Payments.Agrees s es :=
    fun hall pre u hpre hu => (hall pre u hpre hu).1
  rcases hstart.run hrun with ⟨⟨W, hW⟩, hagrees⟩ | ⟨⟨c, hc, htorn⟩, hnot⟩
  · have hwhole : ∀ c ∈ t.calls, c.RowUpdated → c.WalletUpdated lower := fun c hc hrow =>
      not_not.mp fun hwallet => hW.whole c hc ⟨hrow, hwallet⟩
    refine ⟨iff_of_true ⟨hW.hung, hagrees⟩ hwhole, fun ⟨_, hall⟩ => ?_, fun hall => ⟨hW.hung, ?_⟩⟩
    · rcases hW.kept with ⟨c, hc, -, hnot⟩ | ⟨hall', -⟩
      · exact absurd ((hall es t (List.prefix_refl _) hrun).2 c hc) hnot
      · exact fun c hc => ⟨(hall' c hc).1, hwhole c hc (hall' c hc).1⟩
    · intro pre u hpre hu
      refine ⟨hagrees pre u hpre hu, fun c hc => ?_⟩
      obtain ⟨rest, rfl⟩ := hpre
      have hrest : rest.foldlM (paymentStep lower) u = some t := by
        simpa [List.foldlM_append, hu] using hrun
      have hsu := keepsRecord_run ⟨_, hstart.books.holds⟩ hu
      have hmem := (keepsRecord_run hsu.holds hrest).calls hc
      rcases hW.kept with ⟨d, hd, hnot, -⟩ | ⟨hkept, -⟩
      · exact absurd (hall d hd).1 hnot
      · exact (hkept c hmem).2
  · exact ⟨iff_of_false hnot fun hall => htorn.2 (hall c hc htorn.1),
      iff_of_false (fun hall => hnot ⟨hall.1, hmono hall.2⟩) fun hall => htorn.2 (hall c hc).2⟩

/-- A table with one open order, and no service. -/
def unpaidOrder : Payments where
  world := ⟨[firstOrder], fun _ => [], fun _ _ => 0, fun _ => none, none, [], [], []⟩
  calls := []
  hung := false
  svc := tradeServiceInit 0

theorem paymentStart_unpaidOrder : PaymentStart unpaidOrder where
  svc := ⟨0, rfl⟩
  hung := rfl
  calls := rfl
  ids := ⟨by simp [unpaidOrder], by simp [unpaidOrder, firstOrder]⟩
  agrees := by simp [Ledger.Agrees, unpaidOrder, firstOrder]
  paid := by simp [unpaidOrder]

/-- A start in the second of the order, whose first query returns the rows. -/
def startWith (rows : List TradeOrder) : Startup where
  unset := 0
  prices _ := 5
  all ticker side := if ticker = .ANDTHEN ∧ side = .BUY then some rows else some []
  now := (7257600, 7257600)
  lastFillDispatchTime := 7257600

/-- The price crosses the order, and the updates have these results. -/
def fillWith (results : List Bool) : PaymentEvent := .fill .ANDTHEN 3 [] results

def paidRun : List PaymentEvent := [.restart (startWith [firstOrder]), fillWith [true, true]]

/-- Both updates are made. -/
theorem payments_agree_after_both_updates : ∃ t,
    paidRun.foldlM (paymentStep lowerCase) unpaidOrder = some t ∧
      t.world.paid.map (·.id) = [7] ∧
      AllStates (paymentStep lowerCase) Payments.Sound unpaidOrder paidRun ∧
      WalletsFollow lowerCase unpaidOrder.world t.world := by
  have hstate : (paidRun.foldlM (paymentStep lowerCase) unpaidOrder).map (fun t =>
      (t.world.paid.map (·.id), t.calls.all fun c => nextResult c.before.results &&
        (nextResult c.before.results.tail && (lowerCase (tickerBuffer c.order)).isSome))) =
      some ([7], true) := by decide
  obtain ⟨t, hrun, ht⟩ := Option.map_eq_some_iff.mp hstate
  simp only [Prod.mk.injEq, List.all_eq_true, Bool.and_eq_true] at ht
  obtain ⟨hpaid, hcalls⟩ := ht
  obtain ⟨-, hsound, hwallets⟩ := payments_agree_iff paymentStart_unpaidOrder hrun
  refine ⟨t, hrun, hpaid, (hsound.mpr fun c hc => ?_).2, hwallets paidRun t List.prefix_rfl hrun⟩
  obtain ⟨hrow, hwallet, hlower⟩ := hcalls c hc
  exact ⟨hrow, hlower, hwallet⟩

/-- The update of the row fails. -/
def failedRun : List PaymentEvent := [.restart (startWith [firstOrder]), fillWith [false]]

/-- The update of the row is made and the one of the wallet is not. After the restart the row is not
loaded again. -/
def tornRun : List PaymentEvent :=
  [.restart (startWith [firstOrder]), fillWith [true, false], .restart (startWith []),
    fillWith [true, true]]

/-- A failed update leaves an order that is filled in memory. A wallet that was not updated after
the row is never credited, whether `strtolower` returns or not. -/
theorem failed_updates_break_payments : PaymentStart unpaidOrder ∧
    (∃ t, failedRun.foldlM (paymentStep strtolower) unpaidOrder = some t ∧ t.hung = false ∧
      ¬ ∀ c ∈ t.calls, c.Kept) ∧
    (∃ t, tornRun.foldlM (paymentStep strtolower) unpaidOrder = some t ∧ t.hung = false ∧
      ¬ t.world.Agrees) ∧
    ∃ t, tornRun.foldlM (paymentStep lowerCase) unpaidOrder = some t ∧ t.hung = false ∧
      ¬ t.world.Agrees := by
  have hfailed : (failedRun.foldlM (paymentStep strtolower) unpaidOrder).map (fun t =>
      (t.hung, t.calls.map fun c => (c.result, c.before.status c.order, c.after.status c.order))) =
        some (false, [(some false, 'O', 'F')]) := by decide
  have htorn : ∀ lower ∈ [strtolower, lowerCase],
      (tornRun.foldlM (paymentStep lower) unpaidOrder).map (fun t =>
        (t.hung, t.world.rows.map (·.status), t.world.paid.map (·.id))) =
          some (false, ['F'], []) := by
    intro lower hlower
    rcases List.mem_pair.mp hlower with rfl | rfl <;> decide
  have hbroken : ∀ lower ∈ [strtolower, lowerCase],
      ∃ t, tornRun.foldlM (paymentStep lower) unpaidOrder = some t ∧ t.hung = false ∧
        ¬ t.world.Agrees := by
    intro lower hlower
    obtain ⟨t, hrun, ht⟩ := Option.map_eq_some_iff.mp (htorn lower hlower)
    simp only [Prod.mk.injEq] at ht
    obtain ⟨hhung, hrows, hpaid⟩ := ht
    refine ⟨t, hrun, hhung, fun hagrees => ?_⟩
    obtain ⟨r, hr, hfilled⟩ : ∃ r ∈ t.world.rows, r.status = 'F' :=
      List.mem_map.mp (hrows ▸ List.mem_singleton_self _)
    have hmem := (hagrees r hr).1.mp hfilled
    simp [hpaid] at hmem
  refine ⟨paymentStart_unpaidOrder, ?_, hbroken _ (by simp), hbroken _ (by simp)⟩
  obtain ⟨t, hrun, ht⟩ := Option.map_eq_some_iff.mp hfailed
  simp only [Prod.mk.injEq] at ht
  obtain ⟨hhung, hcalls⟩ := ht
  refine ⟨t, hrun, hhung, fun hkept => ?_⟩
  obtain ⟨c, hc, heq⟩ : ∃ c ∈ t.calls,
      (c.result, c.before.status c.order, c.after.status c.order) = (some false, 'O', 'F') :=
    List.mem_map.mp (hcalls ▸ List.mem_singleton_self _)
  simp only [Prod.mk.injEq] at heq
  obtain ⟨hresult, hbefore, hafter⟩ := heq
  have hsame := (hkept c hc hresult).1
  rw [hbefore, hafter] at hsame
  simp at hsame

end TradeServer
