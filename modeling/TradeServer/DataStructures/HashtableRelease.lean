import TradeServer.DataStructures.HashtableEntries

/-!
# The release of the stored values

A run hands some values back through `ht_remove` and passes others to `free_func`. What is in
neither list at the end is a value of an entry that `ht_destroy` did not free, because the
entry is not the first of its chain or is on no chain.
-/

namespace TradeServer

open Library

/-- One operation, next to the values that `ht_remove` returned so far. -/
def ledgerStep (s : Hashtable × List Addr) (op : HtOp) : Option (Hashtable × List Addr) :=
  (htStep s.1 op).map fun r => (r.1, s.2 ++ taken s.1 op)

def ledgerRun (ht : Hashtable) (ops : List HtOp) : Option (Hashtable × List Addr) :=
  ops.foldlM ledgerStep (ht, [])

/-- Each value that was put was returned once and never freed, or freed once and never
returned. -/
def ReleasedOnce (put returned freed : List Addr) : Prop :=
  ∀ v ∈ put, returned.count v = 1 ∧ freed.count v = 0 ∨ returned.count v = 0 ∧ freed.count v = 1

/-- The run of the operations and of `ht_destroy` after them releases every value once. -/
def ReleasesOnce (ht : Hashtable) (ops : List HtOp) : Prop :=
  ∃ ht' returned left freed, ledgerRun ht ops = some (ht', returned) ∧
    htDestroy ht' = some (left, freed) ∧ ReleasedOnce (putValues ops) returned freed

/-- No chain has a second entry. -/
def Singles (ht : Hashtable) : Prop :=
  ∀ i < ht.capacity, ∀ e, ht.entries.load (ht.buckets i) = some e → e.next = NULL

/-! ## `ht_destroy` -/

/-- After the first `k` buckets: their first entries are gone, and the values of these went to
`free_func`. -/
structure Destroyed (ht : Hashtable) (k : Nat) (left : Heap HtEntry) (freed : List Addr) :
    Prop where
  load : ∀ a e, left.load a = some e ↔
    ht.entries.load a = some e ∧ ∀ i < k, a ≠ ht.buckets i
  values : ht.freeFunc = true → ∀ v,
    (left.objects.map (·.2.value)).count v + freed.count v = held ht v + ht.freed.count v

theorem Destroyed.next_bucket {ht : Hashtable} {k : Nat} {left : Heap HtEntry}
    {freed : List Addr} (hd : Destroyed ht k left freed) {e : HtEntry}
    (he : left.load (ht.buckets k) = some e) :
    Destroyed ht (k + 1) (left.free (ht.buckets k))
      (if ht.freeFunc then freed ++ [e.value] else freed) where
  load a f := by
    rw [Heap.load_free]
    by_cases ha : a = ht.buckets k
    · subst ha
      simp only [if_true, reduceCtorEq, false_iff, not_and, not_forall]
      exact fun _ => ⟨k, by simp⟩
    · rw [if_neg ha, hd.load]
      refine and_congr_right fun _ => ⟨fun hi i hik => ?_, fun hi i hik => hi i (by omega)⟩
      rcases Nat.lt_succ_iff_lt_or_eq.mp hik with hik | rfl
      · exact hi i hik
      · exact ha
  values hfree v := by
    have hcount := ((Heap.objects_free he).map (·.2.value)).count_eq v
    have hvalues := hd.values hfree v
    simp only [List.map_cons, List.count_cons] at hcount
    simp only [hfree, if_true, List.count_append, List.count_singleton]
    omega

theorem destroy_fold {ht : Hashtable} {chain : Nat → List Addr} (h : Linked ht chain) (k : Nat)
    (hk : k ≤ ht.capacity) :
    ∃ left freed, (List.range k).foldlM (destroyBucket ht) (ht.entries, ht.freed) =
      some (left, freed) ∧ Destroyed ht k left freed := by
  induction k with
  | zero =>
    refine ⟨_, _, rfl, by simp, fun _ v => ?_⟩
    simp [held, entryValues, Function.comp_def]
  | succ k ih =>
    obtain ⟨left, freed, hrun, hd⟩ := ih (Nat.le_of_succ_le hk)
    rw [List.range_succ, List.foldlM_append, hrun]
    by_cases hb : ht.buckets k = NULL
    · refine ⟨left, freed, by simp [destroyBucket, hb], fun a e => ?_, hd.values⟩
      rw [hd.load]
      refine and_congr_right fun ha => ⟨fun hi i hik => ?_, fun hi i hik => hi i (by omega)⟩
      rcases Nat.lt_succ_iff_lt_or_eq.mp hik with hik | rfl
      · exact hi i hik
      · exact hb ▸ Heap.ne_null_of_load ha
    · obtain ⟨e, he⟩ : ∃ e, ht.entries.load (ht.buckets k) = some e := by
        rcases h.bucket_cases (Nat.lt_of_succ_le hk) with ⟨hnull, -⟩ | ⟨e, rest, hc, he, -⟩
        · exact absurd hnull hb
        · exact ⟨e, he⟩
      -- the first entries of different buckets are different
      have hleft : left.load (ht.buckets k) = some e := by
        refine (hd.load _ e).mpr ⟨he, fun i hi heq => ?_⟩
        have hi' := h.head_mem (show i < ht.capacity by omega) (heq ▸ he)
        have hk' := h.head_mem (Nat.lt_of_succ_le hk) he
        exact hi.ne (h.disjoint i k _ hi' (heq ▸ hk'))
      refine ⟨_, _, ?_, hd.next_bucket hleft⟩
      simp [destroyBucket, hb, hleft, Heap.release_of_load hleft]

theorem Linked.htDestroy {ht : Hashtable} {chain : Nat → List Addr} (h : Linked ht chain) :
    ∃ left freed, TradeServer.htDestroy ht = some (left, freed) ∧
      Destroyed ht ht.capacity left freed := destroy_fold h ht.capacity le_rfl

/-- Nothing is left exactly when every live entry is the only one of a chain. -/
theorem Destroyed.empty_iff {ht : Hashtable} {chain : Nat → List Addr} (h : Linked ht chain)
    {left : Heap HtEntry} {freed : List Addr} (hd : Destroyed ht ht.capacity left freed) :
    left.objects = [] ↔ AllOnChains ht chain ∧ Singles ht := by
  have hempty : left.objects = [] ↔
      ∀ a e, ht.entries.load a = some e → ∃ i < ht.capacity, a = ht.buckets i := by
    rw [List.eq_nil_iff_forall_not_mem, Prod.forall]
    simp only [Heap.mem_objects, hd.load, not_and, not_forall, not_not, exists_prop]
  rw [hempty]
  constructor
  · intro hfirst
    refine ⟨fun a ha => ?_, fun i hi e he => ?_⟩
    · obtain ⟨e, he⟩ := Heap.mem_live.mp ha
      obtain ⟨i, hi, rfl⟩ := hfirst a e he
      exact ⟨i, h.head_mem hi he⟩
    · rcases h.bucket_cases hi with ⟨hnull, -⟩ | ⟨e', rest, hc, he', hrest⟩
      · simp [hnull] at he
      obtain rfl := Option.some.inj (he'.symm.trans he)
      cases rest with
      | nil => exact hrest
      | cons b rest =>
        -- a second entry would be the first one of its own bucket, which is this bucket
        have hb : b ∈ chain i := by simp [hc]
        obtain ⟨f, hf⟩ := h.live hb
        obtain ⟨j, hj, rfl⟩ := hfirst b f hf
        obtain rfl := h.disjoint i j _ hb (h.head_mem hj hf)
        have hnd := h.nodup i
        simp [hc] at hnd
  · rintro ⟨hc, hs⟩ a e he
    obtain ⟨i, hai⟩ := hc a (Heap.mem_live.mpr ⟨e, he⟩)
    have hi := h.lt_capacity hai
    refine ⟨i, hi, ?_⟩
    rcases h.bucket_cases hi with ⟨-, h0⟩ | ⟨e', rest, hch, he', hrest⟩
    · simp [h0] at hai
    · rw [hs i hi e' he'] at hrest
      rw [hch, hrest.unique Chain.null_nil] at hai
      exact List.mem_singleton.mp hai

/-! ## Runs -/

theorem ledgerRun_append (ht : Hashtable) (ops : List HtOp) (op : HtOp) :
    ledgerRun ht (ops ++ [op]) = (ledgerRun ht ops).bind (ledgerStep · op) := by
  simp [ledgerRun, List.foldlM_append]

theorem putValues_append (ops : List HtOp) (op : HtOp) :
    putValues (ops ++ [op]) = putValues ops ++ putValues [op] := List.filterMap_append

/-- Along every run the values put are in entries, with the caller, or freed. -/
theorem ledgerRun_balanced (cap : Nat) (ops : List HtOp) :
    ∃ ht returned, ledgerRun (htInit cap true) ops = some (ht, returned) ∧
      htRun (htInit cap true) ops = some ht ∧ ht.freeFunc = true ∧
      ∀ v, held ht v + returned.count v + ht.freed.count v = (putValues ops).count v := by
  induction ops using List.reverseRecOn with
  | nil => exact ⟨_, _, rfl, rfl, rfl, fun v => by simp [held, entryValues, htInit, putValues]⟩
  | append_singleton ops op ih =>
    obtain ⟨ht, returned, hledger, hrun, hfree, hcount⟩ := ih
    obtain ⟨ht₁, chain, hrun₁, h, -⟩ := entries_htRun cap true ops
    obtain rfl := Option.some.inj (hrun.symm.trans hrun₁)
    obtain ⟨ht', r, chain', hstep, -, -, hb⟩ := h.step_balanced op
    refine ⟨ht', returned ++ taken ht op, by simp [ledgerRun_append, hledger, ledgerStep, hstep],
      by simp [htRun_append, hrun, hstep], hb.freeFunc.trans hfree, fun v => ?_⟩
    have hvalues := hb.values hfree v
    have hold := hcount v
    rw [putValues_append, List.count_append, List.count_append]
    omega

/-- What `returned` and `freed` miss of distinct values is what stays behind in entries. -/
theorem releasedOnce_iff {put returned freed left : List Addr} (hnd : put.Nodup)
    (hcount : ∀ v, left.count v + returned.count v + freed.count v = put.count v) :
    ReleasedOnce put returned freed ↔ left = [] := by
  constructor
  · intro h
    rw [List.eq_nil_iff_forall_not_mem]
    intro v hv
    have hpos := List.count_pos_iff.mpr hv
    have hle := List.nodup_iff_count_le_one.mp hnd v
    have hput : v ∈ put := List.count_pos_iff.mp (by have := hcount v; omega)
    have := hcount v
    rcases h v hput with ⟨h1, h2⟩ | ⟨h1, h2⟩ <;> omega
  · rintro rfl v hv
    have hone := List.count_eq_one_of_mem hnd hv
    have := hcount v
    rw [List.count_nil] at this
    omega

/-- `free_func` and `ht_remove` release every value once on exactly the runs in which no resize
moves two chains to one bucket and every chain is down to one entry when `ht_destroy` comes. -/
theorem htRun_releases_iff (cap : Nat) (ops : List HtOp) (hnd : (putValues ops).Nodup) :
    ReleasesOnce (htInit cap true) ops ↔ ResizesApart (htInit cap true) ops ∧
      ∀ ht, htRun (htInit cap true) ops = some ht → Singles ht := by
  obtain ⟨ht, returned, hledger, hrun, hfree, hcount⟩ := ledgerRun_balanced cap ops
  obtain ⟨ht₁, chain, hrun₁, h, -, -, hiff⟩ := entries_htRun cap true ops
  obtain rfl := Option.some.inj (hrun.symm.trans hrun₁)
  obtain ⟨left, freed, hdestroy, hd⟩ := h.htDestroy
  have hreleased : ReleasedOnce (putValues ops) returned freed ↔
      left.objects.map (·.2.value) = [] := by
    refine releasedOnce_iff hnd fun v => ?_
    have := hd.values hfree v
    have := hcount v
    omega
  rw [List.map_eq_nil_iff, hd.empty_iff h, hiff] at hreleased
  constructor
  · rintro ⟨ht', returned', left', freed', hledger', hdestroy', hr⟩
    obtain ⟨rfl, rfl⟩ := Prod.mk.inj (Option.some.inj (hledger'.symm.trans hledger))
    obtain ⟨rfl, rfl⟩ := Prod.mk.inj (Option.some.inj (hdestroy'.symm.trans hdestroy))
    obtain ⟨hap, hs⟩ := hreleased.mp hr
    exact ⟨hap, fun ht' hrun' => Option.some.inj (hrun.symm.trans hrun') ▸ hs⟩
  · rintro ⟨hap, hs⟩
    exact ⟨ht, returned, left, freed, hledger, hdestroy, hreleased.mpr ⟨hap, hs ht hrun⟩⟩

/-- Two keys in two buckets; one of them is removed before the end. -/
theorem htRun_releases_two_keys :
    ReleasesOnce (htInit 4 true) [.put (key "a") 11, .put (key "b") 12, .remove (key "b")] := by
  refine (htRun_releases_iff 4 _ (by decide)).mpr
    ⟨(resizesWhole_of_room 4 true (by decide)).1.apart, fun ht hrun i hi e he => ?_⟩
  have hnext : (htRun (htInit 4 true)
      [.put (key "a") 11, .put (key "b") 12, .remove (key "b")]).map (fun ht =>
        (List.range ht.capacity).all fun i =>
          (ht.entries.load (ht.buckets i)).all (·.next = NULL)) = some true := by decide
  rw [hrun, Option.map_some, Option.some.injEq, List.all_eq_true] at hnext
  simpa [he] using hnext i (List.mem_range.mpr hi)

/-- Keys `a` and `e` share a bucket of four, and `ht_destroy` frees the first entry only. -/
theorem htRun_leaks_value : ¬ ∀ (cap : Nat) (ops : List HtOp), (putValues ops).Nodup →
    ReleasesOnce (htInit cap true) ops := by
  intro hall
  obtain ⟨ht, returned, left, freed, hrun, hdestroy, hr⟩ :=
    hall 4 [.put (key "a") 11, .put (key "e") 12] (by decide)
  have heval : ((ledgerRun (htInit 4 true) [.put (key "a") 11, .put (key "e") 12]).bind fun s =>
      (htDestroy s.1).map fun r => (s.2, r.2)) = some ([], [12]) := by decide
  rw [hrun, Option.bind_some, hdestroy, Option.map_some, Option.some.injEq, Prod.mk.injEq] at heval
  obtain ⟨rfl, rfl⟩ := heval
  exact absurd (hr 11 (by decide)) (by decide)

end TradeServer
