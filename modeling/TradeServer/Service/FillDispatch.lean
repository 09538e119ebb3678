import Mathlib.Algebra.GroupWithZero.Nat
import TradeServer.Service.FillPayload

/-!
# When the lists are sent

`process_order_for_clients` takes the result of `dispatch_fill_data` for the time of the
dispatch, but that function ends without a return statement. The timestamp is right as
long as nothing was sent, and from then on it is whatever the call left behind.
-/

namespace TradeServer

open Library

/-- The text that `update_fill_data` adds to a list. -/
def fillStr (order : FilledOrder) : CString := snprintf 128 (fillRecord order ++ [','])

/-- The lists with the record at the end of that of its ticker, and a count. -/
def appended (fillData : FillData) (i : Ticker) (order : FilledOrder) (count : Nat) : FillData :=
  ⟨Function.update fillData.fills i (strcat (fillData.fills i) (fillStr order)), count⟩

/-- The record has no room in the list of its ticker. -/
def Full (fillData : FillData) (order : FilledOrder) : Prop :=
  ∃ i, order.ticker = tickers i ∧
    MAX_FILL_DATA_SIZE ≤ (fillStr order).length + (fillData.fills i).length

/-- More than the interval has passed since `latest`. -/
def Due (latest now : Int) : Prop := latest + FILL_DISPATCH_INTERVAL < now

/-- In a run from `b`, a call sends the lists just when one of them is full or they are
due, and the timestamp is always the clock reading of the latest dispatch. `latest` is
that reading at the start of the run. -/
def DispatchesWhenDue : FillBatch → Int → List FillCall → Prop
  | b, latest, [] => b.lastFillDispatchTime = latest
  | b, latest, call :: calls =>
    b.lastFillDispatchTime = latest ∧ ∃ b', processOrderForClients b call = some b' ∧
      (b'.payloads ≠ b.payloads ↔ Full b.fillData call.order ∨ Due latest call.now) ∧
      DispatchesWhenDue b' (if b'.payloads = b.payloads then latest else call.now) calls

/-- In a run from `b`, the result of each dispatch happens to be the clock reading. -/
def ReturnsClock : FillBatch → List FillCall → Prop
  | _, [] => True
  | b, call :: calls =>
    (Full b.fillData call.order ∨ Due b.lastFillDispatchTime call.now →
      call.result = call.now) ∧
      ∀ b', processOrderForClients b call = some b' → ReturnsClock b' calls

/-- An order and the clock, without what `dispatch_fill_data` returns. -/
def FillCall.input (call : FillCall) : FilledOrder × Int := (call.order, call.now)

/-- The space that the records of a ticker take in its list. -/
def listSize (i : Ticker) (inputs : List (FilledOrder × Int)) : Nat :=
  ((inputs.filter (·.1.ticker = tickers i)).map fun x => (fillStr x.1).length).sum

/-- The records fit the lists after those already there, and no call is due. -/
def Quiet (b : FillBatch) (inputs : List (FilledOrder × Int)) : Prop :=
  (∀ i, (b.fillData.fills i).length + listSize i inputs < MAX_FILL_DATA_SIZE) ∧
    ∀ x ∈ inputs, ¬ Due b.lastFillDispatchTime x.2

variable {b : FillBatch} {fillData : FillData} {order : FilledOrder} {call : FillCall}
  {calls : List FillCall} {inputs : List (FilledOrder × Int)} {i : Ticker}

theorem length_fillStr_lt (order : FilledOrder) : (fillStr order).length < MAX_FILL_DATA_SIZE :=
  (length_snprintf_le 128 _).trans_lt (by decide)

theorem full_iff (hi : order.ticker = tickers i) : Full fillData order ↔
    MAX_FILL_DATA_SIZE ≤ (fillStr order).length + (fillData.fills i).length := by
  constructor
  · rintro ⟨j, hj, h⟩
    obtain rfl : i = j := tickers_injective (hi.symm.trans hj)
    exact h
  · intro h
    exact ⟨i, hi, h⟩

theorem updateFillData_full (hi : order.ticker = tickers i) (h : Full fillData order) :
    updateFillData fillData order = some (fillData, false) := by
  have hfull := (full_iff hi).mp h
  simp only [updateFillData, hi, getTickerIdx_tickers, Option.bind_eq_bind, Option.bind_some]
  exact if_pos hfull

theorem updateFillData_room (hi : order.ticker = tickers i) (h : ¬ Full fillData order) :
    ∃ n, updateFillData fillData order = some (appended fillData i order n, true) := by
  have hroom := mt (full_iff hi).mpr h
  refine ⟨(fillData.fillCount + 1) % 2 ^ 16, ?_⟩
  simp only [updateFillData, hi, getTickerIdx_tickers, Option.bind_eq_bind, Option.bind_some]
  exact if_neg hroom

/-- After a dispatch every record has room. -/
theorem not_full_dispatched (fillData : FillData) (order : FilledOrder) :
    ¬ Full (dispatchFillData fillData).2 order := by
  rintro ⟨i, -, h⟩
  have hnil : ((dispatchFillData fillData).2.fills i).length = 0 :=
    congrArg List.length (holding_dispatched fillData i).text
  have hlen := length_fillStr_lt order
  omega

/-- A call that is neither full nor due only appends the record. -/
theorem processOrderForClients_quiet (hi : call.order.ticker = tickers i)
    (hfull : ¬ Full b.fillData call.order)
    (hdue : ¬ Due b.lastFillDispatchTime call.now) :
    ∃ n, processOrderForClients b call =
      some { b with fillData := appended b.fillData i call.order n } := by
  obtain ⟨n, hn⟩ := updateFillData_room hi hfull
  refine ⟨n, ?_⟩
  simp only [processOrderForClients, hn, Option.bind_eq_bind, Option.bind_some]
  exact if_neg hdue

/-- Any other call sends the lists and takes the result for the time. -/
theorem processOrderForClients_sends (hi : call.order.ticker = tickers i)
    (h : Full b.fillData call.order ∨ Due b.lastFillDispatchTime call.now) :
    ∃ b', processOrderForClients b call = some b' ∧ b'.payloads ≠ b.payloads ∧
      b'.lastFillDispatchTime = call.result := by
  by_cases hfull : Full b.fillData call.order
  · obtain ⟨n, hn⟩ := updateFillData_room hi (not_full_dispatched b.fillData call.order)
    refine ⟨{ b.dispatch call.result with
      fillData := appended (dispatchFillData b.fillData).2 i call.order n }, ?_, ?_, rfl⟩
    · simp only [processOrderForClients, updateFillData_full hi hfull, FillBatch.dispatch, hn,
        Option.bind_eq_bind, Option.bind_some, Bool.not_false, if_true]
    · simp [FillBatch.dispatch]
  · have hdue := h.resolve_left hfull
    obtain ⟨n, hn⟩ := updateFillData_room hi hfull
    refine ⟨FillBatch.dispatch { b with fillData := appended b.fillData i call.order n }
      call.result, ?_, ?_, rfl⟩
    · simp only [processOrderForClients, hn, Option.bind_eq_bind, Option.bind_some]
      exact if_pos hdue
    · simp [FillBatch.dispatch]

/-- The timestamp follows the dispatches just when every dispatch happens to return the
clock reading. -/
theorem dispatchesWhenDue_iff {latest : Int}
    (hcalls : ∀ call ∈ calls, ∃ i, call.order.ticker = tickers i)
    (hb : b.lastFillDispatchTime = latest) :
    DispatchesWhenDue b latest calls ↔ ReturnsClock b calls := by
  induction calls generalizing b latest with
  | nil => simp [DispatchesWhenDue, ReturnsClock, hb]
  | cons call calls ih =>
    subst hb
    obtain ⟨i, hi⟩ := hcalls call (by simp)
    have ih := fun b' latest' => @ih b' latest' fun c hc => hcalls c (by simp [hc])
    simp only [DispatchesWhenDue, ReturnsClock, true_and]
    by_cases h : Full b.fillData call.order ∨ Due b.lastFillDispatchTime call.now
    · obtain ⟨b', hrun, hsent, hlast⟩ := processOrderForClients_sends hi h
      simp only [hrun, Option.some.injEq, exists_eq_left', forall_eq', hsent, h, ne_eq,
        not_false_eq_true, forall_const, if_false, true_and]
      constructor
      · intro hrest
        have hclock : b'.lastFillDispatchTime = call.now := by
          cases calls with
          | nil => exact hrest
          | cons c cs => exact hrest.1
        exact ⟨hlast.symm.trans hclock, (ih b' call.now hclock).mp hrest⟩
      · rintro ⟨hclock, hrest⟩
        exact (ih b' call.now (hlast.trans hclock)).mpr hrest
    · obtain ⟨hfull, hdue⟩ := not_or.mp h
      obtain ⟨n, hrun⟩ := processOrderForClients_quiet hi hfull hdue
      simp only [hrun, Option.some.injEq, exists_eq_left', forall_eq', h, ne_eq, not_true_eq_false,
        if_true, true_and, false_imp_iff]
      exact ih _ _ rfl

@[simp] theorem listSize_cons (x : FilledOrder × Int) : listSize i (x :: inputs) =
    (if x.1.ticker = tickers i then (fillStr x.1).length else 0) + listSize i inputs := by
  by_cases hx : x.1.ticker = tickers i <;> simp [listSize, hx]

theorem length_appended (hi : order.ticker = tickers i) (n : Nat) (j : Ticker) :
    ((appended fillData i order n).fills j).length = (fillData.fills j).length +
      if order.ticker = tickers j then (fillStr order).length else 0 := by
  by_cases hj : j = i
  · subst hj
    simp [appended, hi]
  · simp [appended, hi, hj, tickers_injective.eq_iff, Ne.symm hj]

/-- In a quiet run nothing is sent. -/
theorem returnsClock_of_quiet (hcalls : ∀ call ∈ calls, ∃ i, call.order.ticker = tickers i)
    (h : Quiet b (calls.map FillCall.input)) : ReturnsClock b calls := by
  induction calls generalizing b with
  | nil => trivial
  | cons call calls ih =>
    obtain ⟨i, hi⟩ := hcalls call (by simp)
    obtain ⟨hsize, hdue⟩ := h
    simp only [List.map_cons, listSize_cons, FillCall.input] at hsize
    have hquiet : ¬ Due b.lastFillDispatchTime call.now := hdue call.input (by simp)
    have hroom : ¬ Full b.fillData call.order := by
      have := hsize i
      rw [if_pos hi] at this
      rw [full_iff hi]
      omega
    refine ⟨fun hsends => absurd hsends (not_or.mpr ⟨hroom, hquiet⟩), fun b' hrun => ?_⟩
    obtain ⟨n, hn⟩ := processOrderForClients_quiet hi hroom hquiet
    obtain rfl := Option.some.inj (hn.symm.trans hrun)
    refine ih (fun c hc => hcalls c (by simp [hc])) ⟨fun j => ?_, fun x hx => ?_⟩
    · have := hsize j
      rw [length_appended hi]
      omega
    · exact hdue x (by simp at hx ⊢; exact .inr hx)

/-- A run in which no dispatch returns the clock reading is right only if it is quiet. -/
theorem quiet_of_returnsClock (hcalls : ∀ call ∈ calls, ∃ i, call.order.ticker = tickers i)
    (hresult : ∀ call ∈ calls, call.result ≠ call.now)
    (hfills : ∀ i, (b.fillData.fills i).length < MAX_FILL_DATA_SIZE)
    (h : ReturnsClock b calls) : Quiet b (calls.map FillCall.input) := by
  induction calls generalizing b with
  | nil => simpa [Quiet, listSize] using hfills
  | cons call calls ih =>
    obtain ⟨i, hi⟩ := hcalls call (by simp)
    obtain ⟨hroom, hquiet⟩ := not_or.mp (mt h.1 (hresult call (by simp)))
    obtain ⟨n, hn⟩ := processOrderForClients_quiet hi hroom hquiet
    have hlists : ∀ j, ((appended b.fillData i call.order n).fills j).length <
        MAX_FILL_DATA_SIZE := by
      intro j
      have := hfills j
      rw [length_appended hi]
      split_ifs with hj
      · have hfull := mt (full_iff hj).mpr hroom
        omega
      · omega
    have hrest := ih (fun c hc => hcalls c (by simp [hc])) (fun c hc => hresult c (by simp [hc]))
      hlists (h.2 _ hn)
    refine ⟨fun j => ?_, fun x hx => ?_⟩
    · have := hrest.1 j
      rw [length_appended hi] at this
      simp only [List.map_cons, listSize_cons, FillCall.input]
      omega
    · obtain rfl | hx := List.mem_cons.mp hx
      · exact hquiet
      · exact hrest.2 x hx

/-- A run is right just when every dispatch returns the clock reading. With any results it
is right just when nothing is sent: the records of each ticker fit its list, and no call
comes more than the interval after the start. -/
theorem fillRun_dispatchesWhenDue_iff (start : Int) :
    (∀ calls : List FillCall, (∀ call ∈ calls, ∃ i, call.order.ticker = tickers i) →
      (DispatchesWhenDue (fillStart start) start calls ↔ ReturnsClock (fillStart start) calls)) ∧
    ∀ inputs : List (FilledOrder × Int), (∀ x ∈ inputs, ∃ i, x.1.ticker = tickers i) →
      ((∀ calls, calls.map FillCall.input = inputs →
          DispatchesWhenDue (fillStart start) start calls) ↔
        (∀ i, listSize i inputs < MAX_FILL_DATA_SIZE) ∧ ∀ x ∈ inputs, ¬ Due start x.2) := by
  refine ⟨fun calls hcalls => dispatchesWhenDue_iff hcalls rfl, fun inputs hinputs => ?_⟩
  have hstart : Quiet (fillStart start) inputs ↔
      (∀ i, listSize i inputs < MAX_FILL_DATA_SIZE) ∧ ∀ x ∈ inputs, ¬ Due start x.2 := by
    simp [Quiet, fillStart, fillInit, CString.length, CString.ofBuffer]
  rw [← hstart]
  have htickers : ∀ calls : List FillCall, calls.map FillCall.input = inputs →
      ∀ call ∈ calls, ∃ i, call.order.ticker = tickers i := by
    rintro calls rfl call hcall
    exact hinputs call.input (List.mem_map_of_mem hcall)
  constructor
  · intro h
    -- any result but the clock reading
    let calls : List FillCall := inputs.map fun x => ⟨x.1, x.2, x.2 + 1⟩
    have hmap : calls.map FillCall.input = inputs := by
      simp [calls, FillCall.input, Function.comp_def]
    have hclock := (dispatchesWhenDue_iff (htickers calls hmap) rfl).mp (h calls hmap)
    have hresult : ∀ call ∈ calls, call.result ≠ call.now := by
      intro call hcall
      obtain ⟨x, -, rfl⟩ := List.mem_map.mp hcall
      simp
    rw [← hmap]
    refine quiet_of_returnsClock (htickers calls hmap) hresult (fun i => ?_) hclock
    exact (by decide : 0 < MAX_FILL_DATA_SIZE)
  · rintro h calls rfl
    exact (dispatchesWhenDue_iff (htickers calls rfl) rfl).mpr
      (returnsClock_of_quiet (htickers calls rfl) h)

theorem ticker_morningFill : ∃ i, morningFill.ticker = tickers i := ⟨.SPARK, rfl⟩

/-- Two calls within the interval are right whatever a dispatch would return; a third one
that is due is right when it gets the clock reading. -/
theorem fillRun_dispatchesWhenDue_two_calls :
    (∀ result₁ result₂, DispatchesWhenDue (fillStart 100) 100
      [⟨morningFill, 101, result₁⟩, ⟨morningFill, 102, result₂⟩]) ∧
    DispatchesWhenDue (fillStart 100) 100 [⟨morningFill, 103, 103⟩] := by
  obtain ⟨hclock, hquiet⟩ := fillRun_dispatchesWhenDue_iff 100
  constructor
  · intro result₁ result₂
    refine (hquiet [(morningFill, 101), (morningFill, 102)] ?_).mpr ⟨?_, ?_⟩ _ rfl
    · simp [ticker_morningFill]
    · intro i
      cases i <;> decide
    · simp [Due, FILL_DISPATCH_INTERVAL]
  · refine (hclock _ (by simp [ticker_morningFill])).mpr ⟨fun _ => rfl, fun b' _ => ?_⟩
    trivial

/-- A call three seconds after the start sends the lists and gets 0 for the time; the next
one, in the same second, sends them again. -/
theorem not_dispatchesWhenDue_undefined_time :
    ¬ DispatchesWhenDue (fillStart 100) 100 [⟨morningFill, 103, 0⟩, ⟨morningFill, 103, 0⟩] := by
  intro h
  obtain ⟨hclock, -⟩ := (dispatchesWhenDue_iff (by simp [ticker_morningFill]) rfl).mp h
  exact absurd (hclock (.inr (by simp [Due, fillStart, FILL_DISPATCH_INTERVAL]))) (by decide)

end TradeServer
