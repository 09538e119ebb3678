import Mathlib.Data.Bool.AllAny
import TradeServer.Service.Monitor
import TradeServer.Service.PriceEvent

/-!
# From the price files to the clients

A price file is a sequence of records of five bytes. Iteration `n` of `market_monitor` reads
record `n` of every file, after `init_service` has read the first ones. What it leaves in the
service, in Redis and in the queue of events is a function of the files.
-/

namespace TradeServer

open Library

/-! ## Price files -/

/-- The bits of a `float` in a file, the lowest byte first. -/
def floatBits (bytes : List UInt8) : Nat :=
  bytes.foldr (fun byte bits => byte.toNat + 2 ^ 8 * bits) 0

/-- The magnitude of a finite `float`, in units of the smallest one, `2 ^ -149`. -/
def floatMagnitude (bits : Nat) : Nat :=
  let exponent := bits / 2 ^ 23 % 2 ^ 8
  let fraction := bits % 2 ^ 23
  if exponent = 0 then fraction else (2 ^ 23 + fraction) * 2 ^ (exponent - 1)

/-- The magnitude in units of `2 ^ -64`. -/
def floatValue (bits : Nat) : Nat := floatMagnitude bits / 2 ^ 85

/-- The result of `float_to_currency` is defined: the `float` is finite, and the rounded product is
not negative and has 64 bits. -/
def Convertible (bits : Nat) : Prop :=
  bits / 2 ^ 23 % 2 ^ 8 ≠ 2 ^ 8 - 1 ∧
    floatToCurrency (floatValue bits) < if bits < 2 ^ 31 then 2 ^ 64 else 1

instance (bits : Nat) : Decidable (Convertible bits) := inferInstanceAs (Decidable (_ ∧ _))

/-- The units are small enough: what is not a multiple of them is worth nothing. -/
theorem floatValue_exact (bits : Nat) : floatValue bits * 2 ^ 85 = floatMagnitude bits ∨
    floatMagnitude bits < 2 ^ 109 ∧ floatToCurrency (floatValue bits) = 0 := by
  have hfraction := Nat.mod_lt bits (show 0 < 2 ^ 23 by omega)
  obtain hexp | hexp := Nat.lt_or_ge (bits / 2 ^ 23 % 2 ^ 8) 86
  · right
    have hlt : floatMagnitude bits < 2 ^ 109 := by
      simp only [floatMagnitude]
      split_ifs
      · omega
      · have hpow : 2 ^ (bits / 2 ^ 23 % 2 ^ 8 - 1) ≤ 2 ^ 84 :=
          Nat.pow_le_pow_right (by omega) (by omega)
        calc (2 ^ 23 + bits % 2 ^ 23) * 2 ^ (bits / 2 ^ 23 % 2 ^ 8 - 1)
            ≤ (2 ^ 23 + bits % 2 ^ 23) * 2 ^ 84 := Nat.mul_le_mul_left _ hpow
          _ < 2 ^ 109 := by omega
    have hvalue : floatValue bits < 2 ^ 24 := by
      unfold floatValue
      omega
    have hbound := (toFloating_bounds (show 0 < 24 by omega)
      (floatValue bits * SCALE_FACTOR) (2 ^ 64)).2
    rw [Nat.mul_div_cancel _ (by omega)] at hbound
    unfold SCALE_FACTOR at hbound
    refine ⟨hlt, ?_⟩
    unfold floatToCurrency roundFloating SCALE_FACTOR
    omega
  · left
    have hsplit : floatMagnitude bits = (2 ^ 23 + bits % 2 ^ 23) *
        2 ^ (bits / 2 ^ 23 % 2 ^ 8 - 86) * 2 ^ 85 := by
      rw [Nat.mul_assoc, ← Nat.pow_add, floatMagnitude, if_neg (by omega)]
      congr 2
      omega
    rw [floatValue, hsplit, Nat.mul_div_cancel _ (by omega)]

/-- One item of `size` bytes and the rest of a file. Part of an item is read too, and is lost. -/
def fread (size : Nat) (fh : List UInt8) : Option (List UInt8) × List UInt8 :=
  if size ≤ fh.length then (some (fh.take size), fh.drop size) else (none, [])

/-- `read_price_source` on a file. -/
def readPriceFile (fh : List UInt8) (pricePoint : PricePoint) :
    Option (PricePoint × List UInt8) :=
  match fread 4 fh with
  | (none, fh) => some (readPriceSource pricePoint none none, fh)
  | (some price, fh) =>
    if Convertible (floatBits price) then
      let (flagByte, fh) := fread 1 fh
      some (readPriceSource pricePoint (some (floatValue (floatBits price)))
        (flagByte.map fun byte => (byte.headD 0).toNat), fh)
    else none

/-- Record `k` of a file; its price is 0 if the file has no such record. -/
def recordAt (file : List UInt8) (k : Nat) : PricePoint :=
  match file.drop (5 * k) with
  | b₀ :: b₁ :: b₂ :: b₃ :: flagByte :: _ =>
    ⟨floatToCurrency (floatValue (floatBits [b₀, b₁, b₂, b₃])), flagByte.toNat⟩
  | _ => ⟨0, 0⟩

/-- The `float` of record `k`, if the file has one, is converted. -/
def ConvertibleAt (file : List UInt8) (k : Nat) : Prop :=
  ∀ bytes ∈ (fread 4 (file.drop (5 * k))).1, Convertible (floatBits bytes)

instance (file : List UInt8) (k : Nat) : Decidable (ConvertibleAt file k) :=
  inferInstanceAs (Decidable (∀ bytes ∈ _, Convertible (floatBits bytes)))

theorem readPriceFile_record {file : List UInt8} {k : Nat} (h : ConvertibleAt file k)
    (p : PricePoint) :
    ∃ read, readPriceFile (file.drop (5 * k)) p = some read ∧
      read.2 = file.drop (5 * (k + 1)) ∧ read.1.price = (recordAt file k).price ∧
      (read.1.price ≠ 0 → read.1 = recordAt file k) := by
  have hdrop : file.drop (5 * (k + 1)) = (file.drop (5 * k)).drop 5 := by
    rw [List.drop_drop, Nat.mul_succ]
  unfold ConvertibleAt at h
  unfold recordAt
  rw [hdrop]
  generalize file.drop (5 * k) = rest at h
  match rest with
  | [] | [_] | [_, _] | [_, _, _] => simp [readPriceFile, fread, readPriceSource]
  | [_, _, _, _] =>
    simp only [fread, List.length_cons] at h
    simp_all [readPriceFile, fread, readPriceSource]
  | _ :: _ :: _ :: _ :: _ :: rest =>
    simp only [fread, List.length_cons] at h
    simp_all [readPriceFile, fread, readPriceSource]

/-! ## Redis -/

section Redis

variable {ρ : Type} (redisCommand : CString → ρ → Option CString × ρ)

/-- The string that `redis_get` returns. -/
def redisGet (redis : ρ) (key : CString) : Option CString :=
  if 123 < key.length then none
  else (redisCommand (strcat (.ofBuffer "get ".toList) key) redis).1

def redisCmd (redis : ρ) (cmd : CString) : ρ := (redisCommand cmd redis).2

def updateRedisTickerPrice (redis : ρ) (ticker : Ticker) (priceStr : CString) : ρ :=
  redisCmd redisCommand redis (snprintf 128 ("set ".toList ++ (tickers ticker).chars ++
    "-price_v2 ".toList ++ priceStr.chars))

/-- The key of a ticker. -/
def priceKey (ticker : Ticker) : CString := strcat (tickers ticker) (.ofBuffer "-price_v2".toList)

/-- A text that is one word of a command and no format. -/
def IsArgument (s : CString) : Prop := s.chars ≠ [] ∧ ∀ c ∈ s.chars, c ≠ ' ' ∧ c ≠ '%'

/-- `SET key value` and `GET key`, as commands of words. -/
structure KeepsValues : Prop where
  get_set : ∀ (redis : ρ) (key value name cmd : CString), IsArgument key → IsArgument value →
    IsArgument name → cmd.chars = "set ".toList ++ key.chars ++ ' ' :: value.chars →
    (redisCommand (strcat (.ofBuffer "get ".toList) name) (redisCommand cmd redis).2).1 =
      if name = key then some value
      else (redisCommand (strcat (.ofBuffer "get ".toList) name) redis).1

theorem isArgument_priceKey (ticker : Ticker) : IsArgument (priceKey ticker) :=
  ⟨by cases ticker <;> decide, List.all_iff_forall_prop.mp (by cases ticker <;> decide)⟩

theorem priceKey_injective : Function.Injective priceKey := by
  intro i j
  cases i <;> cases j <;> decide

theorem isArgument_price (price flag : Nat) :
    IsArgument (currencyToStringExtra TMP_PRICE_STR_LEN price flag) := by
  have hsigns : ∀ c ∈ ['.', ':'], c ≠ ' ' ∧ c ≠ '%' :=
    List.all_iff_forall_prop.mp (by decide)
  refine ⟨?_, fun c hc => ?_⟩
  · obtain ⟨c, rest, hdigits⟩ := List.exists_cons_of_ne_nil
      (Nat.toDigits_ne_nil (n := price / SCALE_FACTOR) (b := 10))
    have hbyte : IsByte c := isByte_of_mem_decimal (n := price / SCALE_FACTOR)
      (by rw [decimal, hdigits]; exact List.mem_cons_self)
    rw [currencyToStringExtra, decimal, hdigits, snprintf, TMP_PRICE_STR_LEN]
    simp [CString.ofBuffer, hbyte]
  · rcases inNumber_currencyToStringExtra hc with hdigit | rfl | rfl
    · constructor <;> rintro rfl <;> exact absurd hdigit (by decide)
    · exact hsigns _ (by simp)
    · exact hsigns _ (by simp)

variable {redisCommand}

/-- After an update the key of the ticker has the new text, and the other ones are as before. -/
theorem redisGet_update (h : KeepsValues redisCommand) (redis : ρ) (ticker i : Ticker)
    (price flag : Nat) :
    let text := currencyToStringExtra TMP_PRICE_STR_LEN price flag
    redisGet redisCommand (updateRedisTickerPrice redisCommand redis ticker text) (priceKey i) =
      if i = ticker then some text else redisGet redisCommand redis (priceKey i) := by
  intro text
  have hkey : (priceKey i).length ≤ 16 := by cases i <;> decide
  have hticker : (tickers ticker).length ≤ 7 := by cases ticker <;> decide
  have htext : text.length ≤ 21 := length_snprintf_le _ _
  have hchars : (snprintf 128 ("set ".toList ++ (tickers ticker).chars ++ "-price_v2 ".toList ++
      text.chars)).chars = "set ".toList ++ (priceKey ticker).chars ++ ' ' :: text.chars := by
    refine (chars_snprintf ?_ ?_).trans ?_
    · simp only [CString.length] at hticker htext
      simp
      omega
    · simp only [List.forall_mem_append]
      exact ⟨⟨⟨isByte_of_all (by decide), (tickers ticker).bytes⟩, isByte_of_all (by decide)⟩,
        text.bytes⟩
    · have hname : (CString.ofBuffer "-price_v2".toList).chars = "-price_v2".toList := by decide
      rw [priceKey, chars_strcat, hname]
      simp
  have hset := h.get_set redis (priceKey ticker) text (priceKey i) _ (isArgument_priceKey ticker)
    (isArgument_price price flag) (isArgument_priceKey i) hchars
  simp only [priceKey_injective.eq_iff] at hset
  have hget : ∀ redis, redisGet redisCommand redis (priceKey i) =
      (redisCommand (strcat (.ofBuffer "get ".toList) (priceKey i)) redis).1 := fun _ =>
    if_neg (by omega)
  rw [hget, hget]
  exact hset

end Redis

/-! ## The feed -/

/-- What `market_monitor` keeps about prices, with the texts it queued for the clients. -/
structure PriceFeed (ρ : Type) where
  priceSources : Ticker → List UInt8
  currentPrice : PricePoint
  lastPrices : Ticker → PricePoint
  redis : ρ
  ssePriceData : CString
  queued : List CString

section Feed

variable {ρ : Type} (redisCommand : CString → ρ → Option CString × ρ)

/-- The loop body of `init_service`, with `currentPrice` for its `pp`. -/
def loadLastPrice (s : PriceFeed ρ) (i : Ticker) : Option (PriceFeed ρ) := do
  let (pp, fh) ← readPriceFile (s.priceSources i) s.currentPrice
  let s := { s with priceSources := Function.update s.priceSources i fh, currentPrice := pp }
  if pp.price = 0 then some s
  else some { s with
    lastPrices := Function.update s.lastPrices i { s.lastPrices i with price := pp.price } }

/-- The state at the start of `market_monitor`. -/
def feedInit (files : Ticker → List UInt8) (redis : ρ) : Option (PriceFeed ρ) := do
  let s ← allTickers.foldlM loadLastPrice
    ⟨files, ⟨0, 0⟩, fun _ => ⟨0, 0⟩, redis, .ofBuffer [], []⟩
  some { s with currentPrice := ⟨0, 0⟩ }

/-- The loop body of `market_monitor` for one ticker. Without a last price `process_fills` keeps
the lock that the thread then waits for. -/
def feedTicker (s : PriceFeed ρ) (i : Ticker) : Option (PriceFeed ρ) := do
  let (p, fh) ← readPriceFile (s.priceSources i) s.currentPrice
  let s := { s with priceSources := Function.update s.priceSources i fh, currentPrice := p }
  if p.price = 0 then some s
  else if (s.lastPrices i).price = 0 then none
  else some { s with
    lastPrices := Function.update s.lastPrices i p
    redis := updateRedisTickerPrice redisCommand s.redis i
      (currencyToStringExtra TMP_PRICE_STR_LEN p.price p.flag)
    ssePriceData := priceTicker (fun _ => p) s.ssePriceData i }

/-- One iteration of `market_monitor`. Its text must not leave `sse_price_data`. -/
def feedIteration (s : PriceFeed ρ) : Option (PriceFeed ρ) := do
  let s ← allTickers.foldlM (feedTicker redisCommand)
    { s with ssePriceData := .ofBuffer priceHeader }
  let event := strcat s.ssePriceData (.ofBuffer ['\n', '\n'])
  if event.length < SSE_PRICE_DATA_LEN then
    some { s with ssePriceData := event, queued := s.queued ++ [event] }
  else none

def feedRun (files : Ticker → List UInt8) (redis : ρ) : Nat → Option (PriceFeed ρ)
  | 0 => feedInit files redis
  | n + 1 => (feedRun files redis n).bind (feedIteration redisCommand)

/-- The ticker after `n` iterations: its last price is the latest one in the file, and the key in
Redis shows it once an iteration has read one. -/
structure TickerAt (files : Ticker → List UInt8) (redis : ρ) (n : Nat) (s : PriceFeed ρ)
    (i : Ticker) : Prop where
  source : s.priceSources i = (files i).drop (5 * (n + 1))
  price : (s.lastPrices i).price = latestPrice (recordAt (files i) 0).price
    ((List.range n).map fun k => (recordAt (files i) (k + 1)).price)
  unread : (∀ k < n, (recordAt (files i) (k + 1)).price = 0) →
    redisGet redisCommand s.redis (priceKey i) = redisGet redisCommand redis (priceKey i)
  read : ∀ k < n, (recordAt (files i) (k + 1)).price ≠ 0 →
    (∀ j < n, k < j → (recordAt (files i) (j + 1)).price = 0) →
    s.lastPrices i = recordAt (files i) (k + 1) ∧
      redisGet redisCommand s.redis (priceKey i) = some (currencyToStringExtra TMP_PRICE_STR_LEN
        (recordAt (files i) (k + 1)).price (recordAt (files i) (k + 1)).flag)

variable {redisCommand} {files : Ticker → List UInt8} {redis : ρ} {n : Nat}
  {s t : PriceFeed ρ} {i j : Ticker}

/-- What a ticker has is all that counts for it. -/
theorem TickerAt.congr (h : TickerAt redisCommand files redis n s i)
    (hsource : t.priceSources i = s.priceSources i) (hlast : t.lastPrices i = s.lastPrices i)
    (hredis : redisGet redisCommand t.redis (priceKey i) =
      redisGet redisCommand s.redis (priceKey i)) :
    TickerAt redisCommand files redis n t i := by
  obtain ⟨hs, hp, hu, hr⟩ := h
  constructor
  · rw [hsource, hs]
  · rw [hlast, hp]
  · rwa [hredis]
  · rwa [hredis, hlast]

theorem latestPrice_records (first : Nat) (reads : Nat → Nat) (n : Nat) :
    latestPrice first ((List.range (n + 1)).map reads) =
      if reads n = 0 then latestPrice first ((List.range n).map reads) else reads n := by
  rw [List.range_succ, List.map_append, latestPrice_append, List.map_singleton,
    latestPrice_singleton]

/-- A read that fails leaves the ticker as it is. -/
theorem TickerAt.skip (h : TickerAt redisCommand files redis n s i)
    (hfailed : (recordAt (files i) (n + 1)).price = 0)
    (hsource : t.priceSources i = (files i).drop (5 * (n + 1 + 1)))
    (hlast : t.lastPrices i = s.lastPrices i)
    (hredis : redisGet redisCommand t.redis (priceKey i) =
      redisGet redisCommand s.redis (priceKey i)) :
    TickerAt redisCommand files redis (n + 1) t i := by
  refine ⟨hsource, ?_, fun hall => ?_, fun k hk hne hrest => ?_⟩
  · rw [hlast, h.price, latestPrice_records, if_pos hfailed]
  · rw [hredis]
    exact h.unread fun k hk => hall k (by omega)
  · rw [hredis, hlast]
    rcases Nat.lt_succ_iff_lt_or_eq.mp hk with hk | rfl
    · exact h.read k hk hne fun j hj => hrest j (by omega)
    · exact absurd hfailed hne

/-- A price that is read is the latest one. -/
theorem TickerAt.take (hread : (recordAt (files i) (n + 1)).price ≠ 0)
    (hsource : t.priceSources i = (files i).drop (5 * (n + 1 + 1)))
    (hlast : t.lastPrices i = recordAt (files i) (n + 1))
    (hredis : redisGet redisCommand t.redis (priceKey i) = some (currencyToStringExtra
      TMP_PRICE_STR_LEN (recordAt (files i) (n + 1)).price
      (recordAt (files i) (n + 1)).flag)) :
    TickerAt redisCommand files redis (n + 1) t i := by
  refine ⟨hsource, ?_, fun hall => ?_, fun k hk hne hrest => ?_⟩
  · rw [hlast, latestPrice_records, if_neg hread]
  · exact absurd (hall n (by omega)) hread
  · rcases Nat.lt_succ_iff_lt_or_eq.mp hk with hk | rfl
    · exact absurd (hrest n (by omega) hk) hread
    · exact ⟨hlast, hredis⟩

/-- The reads of iteration `n`. -/
def readsAt (files : Ticker → List UInt8) (n : Nat) (i : Ticker) : PricePoint :=
  recordAt (files i) n

/-- One ticker goes on to its next record. -/
theorem feedTicker_step (hlaw : KeepsValues redisCommand)
    (hconv : ConvertibleAt (files i) (n + 1)) (hfirst : (recordAt (files i) 0).price ≠ 0)
    (h : TickerAt redisCommand files redis n s i) :
    ∃ t, feedTicker redisCommand s i = some t ∧
      TickerAt redisCommand files redis (n + 1) t i ∧
      (∀ j ≠ i, ∀ m, TickerAt redisCommand files redis m s j →
        TickerAt redisCommand files redis m t j) ∧
      t.ssePriceData = priceTicker (readsAt files (n + 1)) s.ssePriceData i ∧
      t.queued = s.queued := by
  obtain ⟨⟨p, fh⟩, hread, hfh, hprice, hpoint⟩ := readPriceFile_record hconv s.currentPrice
  rw [← h.source] at hread
  simp only at hfh hprice hpoint
  have hsource : Function.update s.priceSources i fh i = (files i).drop (5 * (n + 1 + 1)) := by
    rw [Function.update_self, hfh]
  by_cases hp : p.price = 0
  · rw [hp] at hprice
    refine ⟨{ s with priceSources := Function.update s.priceSources i fh, currentPrice := p },
      by simp only [feedTicker, hread, Option.bind_eq_bind, Option.bind_some, if_pos hp],
      h.skip hprice.symm hsource rfl rfl, ?_, ?_, rfl⟩
    · intro j hj m hm
      exact hm.congr (Function.update_of_ne hj _ _) rfl rfl
    · simp [priceTicker, readsAt, ← hprice]
  · have hlock : (s.lastPrices i).price ≠ 0 := h.price ▸ latestPrice_ne_zero hfirst _
    have hrecord := hpoint hp
    have hlast : Function.update s.lastPrices i p i = recordAt (files i) (n + 1) := by
      rw [Function.update_self, hrecord]
    have hshown := redisGet_update hlaw s.redis i
    refine ⟨{ s with
        priceSources := Function.update s.priceSources i fh
        currentPrice := p
        lastPrices := Function.update s.lastPrices i p
        redis := updateRedisTickerPrice redisCommand s.redis i
          (currencyToStringExtra TMP_PRICE_STR_LEN p.price p.flag)
        ssePriceData := priceTicker (fun _ => p) s.ssePriceData i },
      by simp only [feedTicker, hread, Option.bind_eq_bind, Option.bind_some, if_neg hp,
        if_neg hlock],
      .take (hprice ▸ hp) hsource hlast ?_, ?_, ?_, rfl⟩
    · rw [← hrecord]
      exact (hshown i _ _).trans (if_pos rfl)
    · intro j hj m hm
      exact hm.congr (Function.update_of_ne hj _ _) (Function.update_of_ne hj _ _)
        ((hshown j _ _).trans (if_neg hj))
    · simp [priceTicker, readsAt, ← hrecord]

theorem feedTickers_run (hlaw : KeepsValues redisCommand)
    (hconv : ∀ i, ConvertibleAt (files i) (n + 1))
    (hfirst : ∀ i, (recordAt (files i) 0).price ≠ 0) {ts : List Ticker} (hts : ts.Nodup)
    (h : ∀ i ∈ ts, TickerAt redisCommand files redis n s i) :
    ∃ t, ts.foldlM (feedTicker redisCommand) s = some t ∧
      (∀ i ∈ ts, TickerAt redisCommand files redis (n + 1) t i) ∧
      (∀ j ∉ ts, ∀ m, TickerAt redisCommand files redis m s j →
        TickerAt redisCommand files redis m t j) ∧
      t.ssePriceData = ts.foldl (priceTicker (readsAt files (n + 1))) s.ssePriceData ∧
      t.queued = s.queued := by
  induction ts generalizing s with
  | nil => exact ⟨s, rfl, by simp, fun _ _ _ hm => hm, rfl, rfl⟩
  | cons i ts ih =>
    obtain ⟨hi, hts⟩ := List.nodup_cons.mp hts
    obtain ⟨u, hu, hui, huj, hdata, hqueued⟩ := feedTicker_step hlaw (hconv i) (hfirst i)
      (h i (by simp))
    have hne : ∀ j ∈ ts, j ≠ i := fun j hj heq => hi (heq ▸ hj)
    obtain ⟨t, ht, htin, htout, htdata, htqueued⟩ :=
      ih hts fun j hj => huj j (hne j hj) n (h j (by simp [hj]))
    refine ⟨t, foldlM_cons_eq_some.mpr ⟨u, hu, ht⟩, ?_, fun j hj m hm => ?_, ?_,
      htqueued.trans hqueued⟩
    · exact List.forall_mem_cons.mpr ⟨htout i hi _ hui, htin⟩
    · obtain ⟨hji, hjts⟩ := not_or.mp (mt List.mem_cons.mpr hj)
      exact htout j hjts m (huj j hji m hm)
    · rw [htdata, hdata, List.foldl_cons]

/-- The state after `n` iterations. -/
structure FeedAt (redisCommand : CString → ρ → Option CString × ρ)
    (files : Ticker → List UInt8) (redis : ρ) (n : Nat) (s : PriceFeed ρ) : Prop where
  tickers : ∀ i, TickerAt redisCommand files redis n s i
  queued : s.queued = (List.range n).map fun k => ssePriceData (readsAt files (k + 1))

theorem FeedAt.step (hlaw : KeepsValues redisCommand)
    (hconv : ∀ i, ConvertibleAt (files i) (n + 1))
    (hfirst : ∀ i, (recordAt (files i) 0).price ≠ 0)
    (hfits : (ClientEvent.prices (readsAt files (n + 1))).IsSound)
    (h : FeedAt redisCommand files redis n s) :
    ∃ t, feedIteration redisCommand s = some t ∧
      FeedAt redisCommand files redis (n + 1) t := by
  obtain ⟨t, ht, htickers, -, hdata, hqueued⟩ := feedTickers_run hlaw hconv hfirst
    (show allTickers.Nodup by decide) (s := { s with ssePriceData := .ofBuffer priceHeader })
    fun i _ => (h.tickers i).congr rfl rfl rfl
  have hevent : strcat t.ssePriceData (.ofBuffer ['\n', '\n']) =
      ssePriceData (readsAt files (n + 1)) := by rw [hdata, ssePriceData]
  have hlt : (strcat t.ssePriceData (.ofBuffer ['\n', '\n'])).length < SSE_PRICE_DATA_LEN :=
    hevent ▸ ((ClientEvent.isSound_iff _).mp hfits).2
  have hiteration : feedIteration redisCommand s = some { t with
      ssePriceData := strcat t.ssePriceData (.ofBuffer ['\n', '\n'])
      queued := t.queued ++ [strcat t.ssePriceData (.ofBuffer ['\n', '\n'])] } := by
    simp only [feedIteration, ht, Option.bind_eq_bind, Option.bind_some, if_pos hlt]
  refine ⟨_, hiteration, fun i => ?_, ?_⟩
  · exact (htickers i (by cases i <;> decide)).congr rfl rfl rfl
  · rw [List.range_succ, List.map_append, ← h.queued, hqueued, hevent]
    rfl

/-- The first record gives the last price. -/
theorem loadLastPrice_step (hconv : ConvertibleAt (files i) 0)
    (hsource : s.priceSources i = files i) (hlast : (s.lastPrices i).price = 0) :
    ∃ t, loadLastPrice s i = some t ∧ t.priceSources i = (files i).drop (5 * 1) ∧
      (t.lastPrices i).price = (recordAt (files i) 0).price ∧
      (∀ j ≠ i, t.priceSources j = s.priceSources j ∧ t.lastPrices j = s.lastPrices j) ∧
      t.redis = s.redis ∧ t.queued = s.queued := by
  obtain ⟨⟨p, fh⟩, hread, hfh, hprice, -⟩ := readPriceFile_record hconv s.currentPrice
  rw [Nat.mul_zero, List.drop_zero, ← hsource] at hread
  simp only at hfh hprice
  by_cases hp : p.price = 0
  · refine ⟨{ s with priceSources := Function.update s.priceSources i fh, currentPrice := p },
      by simp only [loadLastPrice, hread, Option.bind_eq_bind, Option.bind_some, if_pos hp],
      by simpa using hfh, by rw [← hprice, hp, hlast], fun j hj => ⟨?_, rfl⟩, rfl, rfl⟩
    exact Function.update_of_ne hj _ _
  · refine ⟨{ s with
        priceSources := Function.update s.priceSources i fh
        currentPrice := p
        lastPrices :=
          Function.update s.lastPrices i { s.lastPrices i with price := p.price } },
      by simp only [loadLastPrice, hread, Option.bind_eq_bind, Option.bind_some, if_neg hp],
      by simpa using hfh, by simpa using hprice, fun j hj => ⟨?_, ?_⟩, rfl, rfl⟩
    · exact Function.update_of_ne hj _ _
    · exact Function.update_of_ne hj _ _

theorem loadLastPrices_run (hconv : ∀ i, ConvertibleAt (files i) 0) {ts : List Ticker}
    (hts : ts.Nodup) {s : PriceFeed ρ}
    (h : ∀ i ∈ ts, s.priceSources i = files i ∧ (s.lastPrices i).price = 0) :
    ∃ t, ts.foldlM loadLastPrice s = some t ∧
      (∀ i ∈ ts, t.priceSources i = (files i).drop (5 * 1) ∧
        (t.lastPrices i).price = (recordAt (files i) 0).price) ∧
      (∀ j ∉ ts, t.priceSources j = s.priceSources j ∧ t.lastPrices j = s.lastPrices j) ∧
      t.redis = s.redis ∧ t.queued = s.queued := by
  induction ts generalizing s with
  | nil => exact ⟨s, rfl, by simp, fun _ _ => ⟨rfl, rfl⟩, rfl, rfl⟩
  | cons i ts ih =>
    obtain ⟨hi, hts⟩ := List.nodup_cons.mp hts
    obtain ⟨hs, hl⟩ := h i (by simp)
    obtain ⟨u, hu, hsource, hprice, hother, hredis, hqueued⟩ :=
      loadLastPrice_step (hconv i) hs hl
    have hne : ∀ j ∈ ts, j ≠ i := fun j hj heq => hi (heq ▸ hj)
    obtain ⟨t, ht, hin, hout, hredis', hqueued'⟩ := ih hts fun j hj => by
      rw [(hother j (hne j hj)).1, (hother j (hne j hj)).2]
      exact h j (by simp [hj])
    refine ⟨t, foldlM_cons_eq_some.mpr ⟨u, hu, ht⟩, List.forall_mem_cons.mpr ⟨?_, hin⟩,
      fun j hj => ?_, hredis'.trans hredis, hqueued'.trans hqueued⟩
    · rw [(hout i hi).1, (hout i hi).2]
      exact ⟨hsource, hprice⟩
    · obtain ⟨hji, hjts⟩ := not_or.mp (mt List.mem_cons.mpr hj)
      rw [(hout j hjts).1, (hout j hjts).2]
      exact hother j hji

theorem feedAt_init (hconv : ∀ i, ConvertibleAt (files i) 0) :
    ∃ s, feedInit files redis = some s ∧ FeedAt redisCommand files redis 0 s := by
  obtain ⟨t, ht, hin, -, hredis, hqueued⟩ := loadLastPrices_run hconv
    (show allTickers.Nodup by decide)
    (s := ⟨files, ⟨0, 0⟩, fun _ => ⟨0, 0⟩, redis, .ofBuffer [], []⟩) fun i _ => ⟨rfl, rfl⟩
  refine ⟨{ t with currentPrice := ⟨0, 0⟩ },
    by simp only [feedInit, ht, Option.bind_eq_bind, Option.bind_some], fun i => ?_, hqueued⟩
  obtain ⟨hsource, hprice⟩ := hin i (by cases i <;> decide)
  exact ⟨hsource, hprice, fun _ => congrArg (redisGet redisCommand · _) hredis,
    fun k hk => absurd hk (by omega)⟩

/-- The records that iteration `n` and those before it read: their floats are converted, the first
ones are prices, and the texts of the others fit their buffer. -/
structure Readable (files : Ticker → List UInt8) (n : Nat) : Prop where
  converted : ∀ i, ∀ k ≤ n, ConvertibleAt (files i) k
  first : ∀ i, (recordAt (files i) 0).price ≠ 0
  fits : ∀ k < n, (ClientEvent.prices (readsAt files (k + 1))).IsSound

theorem feedRun_at (hlaw : KeepsValues redisCommand) (h : Readable files n) :
    ∃ s, feedRun redisCommand files redis n = some s ∧
      FeedAt redisCommand files redis n s := by
  induction n with
  | zero => exact feedAt_init fun i => h.converted i 0 le_rfl
  | succ n ih =>
    obtain ⟨s, hs, hat⟩ := ih ⟨fun i k hk => h.converted i k (by omega), h.first,
      fun k hk => h.fits k (by omega)⟩
    obtain ⟨t, ht, hat'⟩ := hat.step hlaw (fun i => h.converted i (n + 1) le_rfl) h.first
      (h.fits n (by omega))
    exact ⟨t, by rw [feedRun, hs]; exact ht, hat'⟩

/-- After any number of iterations the events are those of the records read so far, and each
ticker has the price of its latest record in the service, in its key in Redis, and as the bound of
the next scan of the order books. -/
theorem price_feed_follows_files (hlaw : KeepsValues redisCommand) (n : Nat)
    (h : Readable files n) :
    ∃ s, feedRun redisCommand files redis n = some s ∧
      FeedAt redisCommand files redis n s ∧
      ∀ (σ : Type) (fillOrder : FillOrder σ) (world : σ) unset answers now (rs : List Readings),
        (∀ i, rs.map (·.prices i) =
          (List.range n).map fun k => (readsAt files (k + 1) i).price) →
        ∃ svc svc' world', initService (tradeServiceInit unset)
            (fun i => (readsAt files 0 i).price) answers now = some (svc, true) ∧
          monitorRun fillOrder rs (svc, world) = some (svc', world') ∧
          ∀ i, svc'.lastPrices i = (s.lastPrices i).price := by
  obtain ⟨s, hs, hat⟩ : ∃ s, feedRun redisCommand files redis n = some s ∧ _ :=
    feedRun_at hlaw h
  refine ⟨s, hs, hat, fun σ fillOrder world unset answers now rs hrs => ?_⟩
  obtain ⟨svc, W, hinit, hW, hlast⟩ :=
    initService_holds unset (fun i => (readsAt files 0 i).price) answers now
  obtain ⟨svc', world', W', hrun, -, hprices⟩ :=
    monitorRun_holds fillOrder hW (fun i => by rw [hlast]; exact h.first i) rs world
  refine ⟨svc, svc', world', hinit, hrun, fun i => ?_⟩
  rw [hprices, hlast, hrs, (hat.tickers i).price]
  rfl

end Feed

/-- A server that keeps its values in a list. -/
def tableCommand (cmd : CString) (table : List (List Char × CString)) :
    Option CString × List (List Char × CString) :=
  match cmd.chars.splitOn ' ' with
  | [verb, key, value] =>
    if verb = "set".toList then (none, (key, .ofBuffer value) :: table) else (none, table)
  | [verb, key] => if verb = "get".toList then (table.lookup key, table) else (none, table)
  | _ => (none, table)

theorem keepsValues_tableCommand : KeepsValues tableCommand where
  get_set := by
    intro table key value name cmd hkey hvalue hname hcmd
    have hwords : ∀ w : CString, IsArgument w → ' ' ∉ w.chars := fun w hw hmem =>
      (hw.2 _ hmem).1 rfl
    have hset : cmd.chars.splitOn ' ' = ["set".toList, key.chars, value.chars] := by
      have hsplit := List.splitOn_intercalate ' '
        (show ∀ w ∈ ["set".toList, key.chars, value.chars], ' ' ∉ w by
          simpa using ⟨hwords key hkey, hwords value hvalue⟩) (by simp)
      rw [hcmd, ← hsplit]
      simp [List.intercalate]
    have hget : (strcat (.ofBuffer "get ".toList) name).chars.splitOn ' ' =
        ["get".toList, name.chars] := by
      have hsplit := List.splitOn_intercalate ' '
        (show ∀ w ∈ ["get".toList, name.chars], ' ' ∉ w by simpa using hwords name hname) (by simp)
      have hverb : (CString.ofBuffer "get ".toList).chars = "get ".toList := by decide
      rw [chars_strcat, hverb, ← hsplit]
      simp [List.intercalate]
    have hstored : CString.ofBuffer value.chars = value :=
      CString.ext (CString.chars_ofBuffer value.bytes)
    simp only [tableCommand, hset, hget, hstored, if_pos]
    by_cases heq : name = key
    · simp [heq]
    · have hne : (name.chars == key.chars) = false := by simpa [← CString.ext_iff] using heq
      simp [List.lookup_cons, heq, hne]

/-- The records `1.0f` and `1.5f`, and part of a third one. -/
def shortFile : List UInt8 := [0, 0, 128, 63, 7, 0, 0, 192, 63, 9, 0, 0]

theorem readable_shortFile : Readable (fun _ => shortFile) 5 where
  converted _ := by decide +kernel
  first _ := by decide +kernel
  fits := show ∀ k < 5, (allTickers.map (heldWidth (readsAt (fun _ => shortFile) (k + 1)))).sum ≤ 71
    by decide +kernel

/-- Files with two records and part of a third one, after five iterations. -/
theorem price_feed_follows_short_files :
    ∃ s, feedRun tableCommand (fun _ => shortFile) [] 5 = some s ∧
      FeedAt tableCommand (fun _ => shortFile) [] 5 s ∧
      ∀ i, s.lastPrices i = ⟨1500000, 9⟩ ∧ redisGet tableCommand s.redis (priceKey i) =
        some (currencyToStringExtra TMP_PRICE_STR_LEN 1500000 9) := by
  obtain ⟨s, hs, hat, -⟩ :=
    price_feed_follows_files keepsValues_tableCommand 5 readable_shortFile
  refine ⟨s, hs, hat, fun i => ?_⟩
  have hrecord : recordAt shortFile 1 = ⟨1500000, 9⟩ := by
    rw [recordAt, PricePoint.mk.injEq]
    decide +kernel
  have hread := (hat.tickers i).read 0 (by omega) (by decide +kernel) (by decide +kernel)
  simpa only [Nat.zero_add, hrecord] using hread

end TradeServer
