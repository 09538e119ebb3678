import TradeServer.DataStructures.Hashtable

/-!
# The collision chains of a table

`Linked ht chain` names the entries of every bucket. It is kept by all operations,
also by a resize that leaves entries in a bucket their keys do not hash to; what
a resize does to the chains is stated by `Linked.resize`.
-/

namespace TradeServer

open Library

/-- `chain i` is the collision chain of bucket `i`, and no entry is on two chains. -/
structure Linked (ht : Hashtable) (chain : Nat → List Addr) : Prop where
  capacity_pos : 0 < ht.capacity
  chains : ∀ i < ht.capacity, Chain HtEntry.next ht.entries (ht.buckets i) (chain i)
  outside : ∀ i, ht.capacity ≤ i → chain i = []
  disjoint : ∀ i j a, a ∈ chain i → a ∈ chain j → i = j

/-- No entry among `as` has the key. -/
def KeyAbsent (es : Heap HtEntry) (key : CString) (as : List Addr) : Prop :=
  ∀ a ∈ as, ∀ e, es.load a = some e → e.key ≠ key

/-- `a` is the first entry of `xs ++ a :: ys` with the key. -/
structure FirstMatch (es : Heap HtEntry) (key : CString) (as xs : List Addr) (a : Addr)
    (e : HtEntry) (ys : List Addr) : Prop where
  split : as = xs ++ a :: ys
  load : es.load a = some e
  key_eq : e.key = key
  before : KeyAbsent es key xs

theorem findEntry_of_absent {es : Heap HtEntry} {key : CString} {fuel : Nat} {prev p : Addr}
    {as : List Addr} (c : Chain HtEntry.next es p as) (hfuel : as.length < fuel)
    (h : KeyAbsent es key as) : findEntry es key fuel prev p = some (as.getLastD prev, NULL) := by
  induction as generalizing prev p fuel with
  | nil =>
    obtain ⟨fuel, rfl⟩ := Nat.exists_eq_succ_of_ne_zero (Nat.ne_of_gt hfuel)
    simp [findEntry, show p = NULL from c]
  | cons a as ih =>
    obtain ⟨fuel, rfl⟩ := Nat.exists_eq_succ_of_ne_zero (Nat.ne_zero_of_lt hfuel)
    have hp := c.ne_null
    obtain ⟨rfl, e, he, rest⟩ := c
    have hkey : e.key ≠ key := h p (by simp) e he
    simp only [findEntry, if_neg hp, he, Option.bind_eq_bind, Option.bind_some, if_neg hkey]
    rw [ih rest (by simpa using hfuel) (fun b hb => h b (by simp [hb])), List.getLastD_cons]

theorem findEntry_of_match {es : Heap HtEntry} {key : CString} {fuel : Nat} {prev p a : Addr}
    {as xs ys : List Addr} {e : HtEntry} (c : Chain HtEntry.next es p as) (hfuel : as.length < fuel)
    (h : FirstMatch es key as xs a e ys) :
    findEntry es key fuel prev p = some (xs.getLastD prev, a) := by
  obtain ⟨rfl, ha, hkey, hbefore⟩ := h
  induction xs generalizing prev p fuel with
  | nil =>
    obtain ⟨fuel, rfl⟩ := Nat.exists_eq_succ_of_ne_zero (Nat.ne_zero_of_lt hfuel)
    have hp := c.ne_null
    obtain ⟨rfl, -⟩ := c
    simp [findEntry, hp, ha, hkey]
  | cons x xs ih =>
    obtain ⟨fuel, rfl⟩ := Nat.exists_eq_succ_of_ne_zero (Nat.ne_zero_of_lt hfuel)
    have hp : p ≠ NULL := Chain.ne_null c
    obtain ⟨rfl, e', he', rest⟩ := c
    have hne : e'.key ≠ key := hbefore p (by simp) e' he'
    simp only [findEntry, if_neg hp, he', Option.bind_eq_bind, Option.bind_some, if_neg hne]
    rw [ih (fun b hb => hbefore b (by simp [hb])) rest (by simpa using hfuel),
      List.getLastD_cons]

/-- A chain either lacks the key or has a first entry with it. -/
theorem absent_or_firstMatch {es : Heap HtEntry} {as : List Addr} (key : CString)
    (live : ∀ a ∈ as, ∃ e, es.load a = some e) :
    KeyAbsent es key as ∨ ∃ xs a e ys, FirstMatch es key as xs a e ys := by
  induction as with
  | nil => exact .inl (by simp [KeyAbsent])
  | cons a as ih =>
    obtain ⟨e, he⟩ := live a (by simp)
    by_cases hkey : e.key = key
    · exact .inr ⟨[], a, e, as, rfl, he, hkey, by simp [KeyAbsent]⟩
    · have hhead : ∀ e', es.load a = some e' → e'.key ≠ key := by
        intro e' he'
        obtain rfl := Option.some.inj (he.symm.trans he')
        exact hkey
      rcases ih (fun b hb => live b (by simp [hb])) with habs | ⟨xs, b, e', ys, hm⟩
      · exact .inl (by simpa [KeyAbsent] using ⟨hhead, habs⟩)
      · refine .inr ⟨a :: xs, b, e', ys, by simp [hm.split], hm.load, hm.key_eq, ?_⟩
        simpa [KeyAbsent] using ⟨hhead, hm.before⟩

namespace Linked

variable {ht : Hashtable} {chain : Nat → List Addr}

theorem live (h : Linked ht chain) {i : Nat} {a : Addr} (ha : a ∈ chain i) :
    ∃ e, ht.entries.load a = some e := by
  by_cases hi : i < ht.capacity
  · exact (h.chains i hi).live a ha
  · simp [h.outside i (Nat.le_of_not_lt hi)] at ha

theorem lt_capacity (h : Linked ht chain) {i : Nat} {a : Addr} (ha : a ∈ chain i) :
    i < ht.capacity := by
  by_contra hi
  simp [h.outside i (Nat.le_of_not_lt hi)] at ha

theorem nodup (h : Linked ht chain) (i : Nat) : (chain i).Nodup := by
  by_cases hi : i < ht.capacity
  · exact (h.chains i hi).nodup
  · simp [h.outside i (Nat.le_of_not_lt hi)]

/-- The chain that the operations on `key` walk. -/
theorem home (h : Linked ht chain) (key : CString) :
    Chain HtEntry.next ht.entries (ht.buckets (hashFunction key ht.capacity))
      (chain (hashFunction key ht.capacity)) :=
  h.chains _ (hashFunction_lt key h.capacity_pos)

theorem find_absent (h : Linked ht chain) {key : CString}
    (habs : KeyAbsent ht.entries key (chain (hashFunction key ht.capacity))) :
    findEntry ht.entries key ht.entries.next NULL (ht.buckets (hashFunction key ht.capacity)) =
      some ((chain (hashFunction key ht.capacity)).getLastD NULL, NULL) :=
  findEntry_of_absent (h.home key) (h.home key).length_lt habs

theorem find_match (h : Linked ht chain) {key : CString} {a : Addr} {xs ys : List Addr}
    {e : HtEntry}
    (hm : FirstMatch ht.entries key (chain (hashFunction key ht.capacity)) xs a e ys) :
    findEntry ht.entries key ht.entries.next NULL (ht.buckets (hashFunction key ht.capacity)) =
      some (xs.getLastD NULL, a) :=
  findEntry_of_match (h.home key) (h.home key).length_lt hm

theorem search (h : Linked ht chain) (key : CString) :
    KeyAbsent ht.entries key (chain (hashFunction key ht.capacity)) ∨
      ∃ xs a e ys,
        FirstMatch ht.entries key (chain (hashFunction key ht.capacity)) xs a e ys :=
  absent_or_firstMatch key fun _ => h.live

end Linked

theorem htInit_capacity_pos (cap : Nat) (free : Bool) : 0 < (htInit cap free).capacity := by
  unfold htInit INITIAL_CAPACITY
  dsimp only
  split <;> omega

theorem linked_htInit (cap : Nat) (free : Bool) : Linked (htInit cap free) (fun _ => []) where
  capacity_pos := htInit_capacity_pos cap free
  chains _ _ := Chain.null_nil
  outside _ _ := rfl
  disjoint _ _ _ h := by simp at h

/-! ## Storing a value -/

/-- The table after `ht_put` found the key in entry `a`. -/
def Hashtable.overwrite (ht : Hashtable) (a : Addr) (old value : Addr) : Hashtable :=
  { ht with
    entries := ht.entries.modify a ({ · with value := value })
    freed := if ht.freeFunc then ht.freed ++ [old] else ht.freed }

/-- The table after `ht_put` created an entry. -/
def Hashtable.addEntry (ht : Hashtable) (key : CString) (value : Addr) : Hashtable :=
  { ht with
    entries := ht.entries.alloc ⟨key, value, ht.buckets (hashFunction key ht.capacity), NULL⟩
    buckets := Function.update ht.buckets (hashFunction key ht.capacity) ht.entries.fresh
    size := ht.size + 1 }

theorem putEntry_of_match {ht : Hashtable} {chain : Nat → List Addr} (h : Linked ht chain)
    {key : CString} (value : Addr) {a : Addr} {xs ys : List Addr} {e : HtEntry}
    (hm : FirstMatch ht.entries key (chain (hashFunction key ht.capacity)) xs a e ys) :
    putEntry ht key value = some (ht.overwrite a e.value value, a) := by
  have ha : a ≠ NULL := Heap.ne_null_of_load hm.load
  simp [putEntry, h.find_match hm, ha, hm.load, Heap.update_of_load hm.load, Hashtable.overwrite]

theorem putEntry_of_absent {ht : Hashtable} {chain : Nat → List Addr} (h : Linked ht chain)
    {key : CString} (value : Addr)
    (habs : KeyAbsent ht.entries key (chain (hashFunction key ht.capacity))) :
    putEntry ht key value = some (ht.addEntry key value, ht.entries.fresh) := by
  simp [putEntry, h.find_absent habs, Hashtable.addEntry]

namespace Linked

variable {ht : Hashtable} {chain : Nat → List Addr}

theorem overwrite (h : Linked ht chain) (a old value : Addr) :
    Linked (ht.overwrite a old value) chain where
  capacity_pos := h.capacity_pos
  chains i hi := (h.chains i hi).frame fun b _ e he => by
    by_cases hb : b = a
    · subst hb; simp [Hashtable.overwrite, he]
    · simp [Hashtable.overwrite, he, hb]
  outside := h.outside
  disjoint := h.disjoint

theorem addEntry (h : Linked ht chain) (key : CString) (value : Addr) :
    Linked (ht.addEntry key value) (Function.update chain (hashFunction key ht.capacity)
      (ht.entries.fresh :: chain (hashFunction key ht.capacity))) := by
  have hfresh : ∀ i, ht.entries.fresh ∉ chain i := by
    intro i hi
    obtain ⟨e, he⟩ := h.live hi
    simp at he
  constructor
  · exact h.capacity_pos
  · intro i hi
    by_cases hk : i = hashFunction key ht.capacity
    · subst hk
      simpa [Hashtable.addEntry] using (h.home key).push _ rfl
    · simp only [Hashtable.addEntry, Function.update_of_ne hk]
      apply (h.chains i hi).frame_of_eq
      intro a ha
      have : a ≠ ht.entries.fresh := fun he => hfresh i (he ▸ ha)
      simp [this]
  · intro i hi
    have hk : i ≠ hashFunction key ht.capacity := by
      have := hashFunction_lt key h.capacity_pos
      change ht.capacity ≤ i at hi
      omega
    simpa [Function.update_of_ne hk] using h.outside i hi
  · intro i j a hi hj
    by_cases hki : i = hashFunction key ht.capacity <;>
      by_cases hkj : j = hashFunction key ht.capacity
    · rw [hki, hkj]
    · subst hki
      simp only [Function.update_self, List.mem_cons, Function.update_of_ne hkj] at hi hj
      rcases hi with rfl | hi
      · exact absurd hj (hfresh j)
      · exact h.disjoint _ _ _ hi hj
    · subst hkj
      simp only [Function.update_self, List.mem_cons, Function.update_of_ne hki] at hi hj
      rcases hj with rfl | hj
      · exact absurd hi (hfresh i)
      · exact h.disjoint _ _ _ hi hj
    · simp only [Function.update_of_ne hki, Function.update_of_ne hkj] at hi hj
      exact h.disjoint _ _ _ hi hj

end Linked

/-! ## Removing an entry -/

/-- The table after `ht_remove` unlinked `a`, whose predecessor on the chain is `prev`. -/
def Hashtable.unlink (ht : Hashtable) (index prev a next : Addr) : Hashtable :=
  if prev = NULL then
    { ht with
      entries := ht.entries.free a
      buckets := Function.update ht.buckets index next
      size := ht.size - 1 }
  else
    { ht with
      entries := (ht.entries.modify prev ({ · with next := next })).free a
      size := ht.size - 1 }

theorem htRemove_of_absent {ht : Hashtable} {chain : Nat → List Addr} (h : Linked ht chain)
    {key : CString} (habs : KeyAbsent ht.entries key (chain (hashFunction key ht.capacity))) :
    htRemove ht key = some (ht, NULL) := by
  simp [htRemove, h.find_absent habs]

/-- The predecessor that the walk stops with is live, unless the match came first. -/
theorem Linked.prev_cases {ht : Hashtable} {chain : Nat → List Addr} (h : Linked ht chain)
    {i : Nat} {xs ys : List Addr} {a : Addr} (hs : chain i = xs ++ a :: ys) :
    xs = [] ∧ xs.getLastD NULL = NULL ∨
      ∃ zs b e, xs = zs ++ [b] ∧ xs.getLastD NULL = b ∧ b ≠ NULL ∧ ht.entries.load b = some e := by
  rcases List.eq_nil_or_concat xs with rfl | ⟨zs, b, hxs⟩
  · exact .inl ⟨rfl, rfl⟩
  · rw [List.concat_eq_append] at hxs
    subst hxs
    obtain ⟨e, he⟩ := h.live (i := i) (a := b) (by rw [hs]; simp)
    exact .inr ⟨zs, b, e, rfl, by simp, Heap.ne_null_of_load he, he⟩

theorem htRemove_of_match {ht : Hashtable} {chain : Nat → List Addr} (h : Linked ht chain)
    {key : CString} {a : Addr} {xs ys : List Addr} {e : HtEntry}
    (hm : FirstMatch ht.entries key (chain (hashFunction key ht.capacity)) xs a e ys) :
    htRemove ht key =
      some (ht.unlink (hashFunction key ht.capacity) (xs.getLastD NULL) a e.next, e.value) := by
  have ha : a ≠ NULL := Heap.ne_null_of_load hm.load
  rcases h.prev_cases hm.split with ⟨-, hprev⟩ | ⟨zs, b, eb, rfl, hprev, hb, hload⟩
  · have hrel := Heap.release_of_load hm.load
    simp [htRemove, h.find_match hm, ha, hm.load, hprev, hrel, Hashtable.unlink,
      -List.getLastD_eq_getLast?]
  · have hne : a ≠ b := by
      have hnd := h.nodup (hashFunction key ht.capacity)
      rw [hm.split] at hnd
      rintro rfl
      simp [List.nodup_append] at hnd
    have hload' : (ht.entries.modify b ({ · with next := e.next })).load a = some e := by
      simp [hne, hm.load]
    simp [htRemove, h.find_match hm, ha, hm.load, hprev, hb, Heap.update_of_load hload,
      Heap.release_of_load hload', Hashtable.unlink, -List.getLastD_eq_getLast?]

@[simp] theorem Hashtable.unlink_capacity (ht : Hashtable) (index prev a next : Addr) :
    (ht.unlink index prev a next).capacity = ht.capacity := by
  unfold Hashtable.unlink; split <;> rfl

@[simp] theorem Hashtable.unlink_size (ht : Hashtable) (index prev a next : Addr) :
    (ht.unlink index prev a next).size = ht.size - 1 := by
  unfold Hashtable.unlink; split <;> rfl

namespace Linked

variable {ht : Hashtable} {chain : Nat → List Addr}

/-- Unlinking `a` takes `a` off its chain and nothing else off any chain. -/
theorem mem_unlinked (h : Linked ht chain) {i : Nat} {xs ys : List Addr} {a : Addr}
    (hs : chain i = xs ++ a :: ys) (j : Nat) (b : Addr) :
    b ∈ Function.update chain i (xs ++ ys) j ↔ b ∈ chain j ∧ b ≠ a := by
  have hnd := h.nodup i
  rw [hs, List.nodup_middle, List.nodup_cons] at hnd
  by_cases hj : j = i
  · subst hj
    rw [Function.update_self, hs]
    constructor
    · intro hb
      refine ⟨by simp only [List.mem_append, List.mem_cons] at hb ⊢; tauto, ?_⟩
      rintro rfl
      exact hnd.1 hb
    · rintro ⟨hb, hne⟩
      simp only [List.mem_append, List.mem_cons] at hb ⊢
      tauto
  · rw [Function.update_of_ne hj]
    refine ⟨fun hb => ⟨hb, ?_⟩, fun hb => hb.1⟩
    rintro rfl
    exact hj (h.disjoint j i b hb (by simp [hs]))

/-- The chain that lost `a`. -/
theorem unlink_self (h : Linked ht chain) {i : Nat} {xs ys : List Addr} {a : Addr} {e : HtEntry}
    (hs : chain i = xs ++ a :: ys) (he : ht.entries.load a = some e) :
    Chain HtEntry.next (ht.unlink i (xs.getLastD NULL) a e.next).entries
      ((ht.unlink i (xs.getLastD NULL) a e.next).buckets i) (xs ++ ys) := by
  have hc := h.chains i (h.lt_capacity (a := a) (by simp [hs]))
  have hnd := h.nodup i
  rw [hs] at hc hnd
  obtain ⟨hnot, hnd⟩ := List.nodup_cons.mp (List.nodup_middle.mp hnd)
  have hne : ∀ q ∈ xs ++ ys, q ≠ a := fun q hq hqa => hnot (hqa ▸ hq)
  rcases h.prev_cases hs with ⟨rfl, hprev⟩ | ⟨zs, b, eb, rfl, hprev, hb, hload⟩
  · obtain ⟨-, e', he', rest⟩ := hc
    obtain rfl := Option.some.inj (he'.symm.trans he)
    simp only [Hashtable.unlink, hprev, if_true, Function.update_self, List.nil_append]
    apply rest.frame_of_eq
    intro q hq
    simp [hne q hq]
  · have hba : b ≠ a := hne b (by simp)
    simp only [Hashtable.unlink, hprev, if_neg hb, List.append_assoc, List.singleton_append]
      at hc hnd hne ⊢
    apply hc.unlink he (fun w hw => ⟨{ w with next := e.next }, by simp [hba, hw], rfl⟩)
    intro q hq
    have hqb : q ≠ b := by
      rintro rfl
      exact (List.nodup_cons.mp (List.nodup_middle.mp hnd)).1 hq
    have hqa : q ≠ a := hne q (by simp only [List.mem_append, List.mem_cons] at hq ⊢; tauto)
    simp [hqa, hqb]

/-- The chains of the other buckets. -/
theorem unlink_other (h : Linked ht chain) {i j : Nat} {xs ys : List Addr} {a next : Addr}
    (hs : chain i = xs ++ a :: ys) (hj : j < ht.capacity) (hji : j ≠ i) :
    Chain HtEntry.next (ht.unlink i (xs.getLastD NULL) a next).entries
      ((ht.unlink i (xs.getLastD NULL) a next).buckets j) (chain j) := by
  have hbuckets : (ht.unlink i (xs.getLastD NULL) a next).buckets j = ht.buckets j := by
    unfold Hashtable.unlink
    split
    · exact Function.update_of_ne hji _ _
    · rfl
  have hne : ∀ q ∈ chain j, q ∉ xs ++ a :: ys := by
    intro q hq hqi
    exact hji (h.disjoint j i q hq (hs ▸ hqi))
  rw [hbuckets]
  apply (h.chains j hj).frame
  intro q hq v hv
  have hqa : q ≠ a := fun hc => hne q hq (by simp [hc])
  rcases h.prev_cases hs with ⟨rfl, hprev⟩ | ⟨zs, b, eb, rfl, hprev, hb, hload⟩
  · exact ⟨v, by simp [Hashtable.unlink, hprev, hqa, hv, -List.getLastD_eq_getLast?], rfl⟩
  · have hqb : q ≠ b := fun hc => hne q hq (by simp [hc])
    exact ⟨v, by simp [Hashtable.unlink, hprev, hb, hqa, hqb, hv, -List.getLastD_eq_getLast?],
      rfl⟩

theorem unlink (h : Linked ht chain) {i : Nat} {xs ys : List Addr} {a : Addr} {e : HtEntry}
    (hs : chain i = xs ++ a :: ys) (he : ht.entries.load a = some e) :
    Linked (ht.unlink i (xs.getLastD NULL) a e.next) (Function.update chain i (xs ++ ys)) := by
  have hi : i < ht.capacity := h.lt_capacity (a := a) (by simp [hs])
  have hsub := h.mem_unlinked hs
  have hcap := ht.unlink_capacity i (xs.getLastD NULL) a e.next
  constructor
  · rw [hcap]
    exact h.capacity_pos
  · intro j hj
    rw [hcap] at hj
    by_cases hji : j = i
    · subst hji
      rw [Function.update_self]
      exact h.unlink_self hs he
    · rw [Function.update_of_ne hji]
      exact h.unlink_other hs hj hji
  · intro j hj
    rw [hcap] at hj
    have : j ≠ i := by omega
    simpa [Function.update_of_ne this] using h.outside j hj
  · intro j k b hj hk
    exact h.disjoint j k b ((hsub j b).mp hj).1 ((hsub k b).mp hk).1

end Linked

/-! ## Growing the bucket array -/

/-- `resize_hashtable` moves the chain of bucket `i` to bucket `j` of `n`. -/
def MovesTo (ht : Hashtable) (n i j : Nat) : Prop :=
  ∃ head, ht.entries.load (ht.buckets i) = some head ∧ hashFunction head.key n = j

theorem rehome_fold {ht : Hashtable} {chain : Nat → List Addr} (h : Linked ht chain) (n k : Nat)
    (hk : k ≤ ht.capacity) :
    ∃ nb, (List.range k).foldlM (rehome ht n) (fun _ => NULL) = some nb ∧
      ∀ j, (nb j = NULL ∧ ∀ i < k, ¬ MovesTo ht n i j) ∨
        ∃ i < k, MovesTo ht n i j ∧ nb j = ht.buckets i := by
  induction k with
  | zero => exact ⟨fun _ => NULL, rfl, fun j => .inl ⟨rfl, by simp⟩⟩
  | succ k ih =>
    obtain ⟨nb, hnb, hspec⟩ := ih (Nat.le_of_succ_le hk)
    rw [List.range_succ, List.foldlM_append, hnb]
    by_cases hb : ht.buckets k = NULL
    · refine ⟨nb, by simp [rehome, hb], fun j => ?_⟩
      have hstay : ¬ MovesTo ht n k j := by rintro ⟨head, hhead, -⟩; simp [hb] at hhead
      rcases hspec j with ⟨h0, hno⟩ | ⟨i, hi, hm, heq⟩
      · refine .inl ⟨h0, fun i hi => ?_⟩
        rcases Nat.lt_succ_iff_lt_or_eq.mp hi with hi | rfl
        · exact hno i hi
        · exact hstay
      · exact .inr ⟨i, by omega, hm, heq⟩
    · obtain ⟨as, has⟩ : ∃ as, as = chain k := ⟨_, rfl⟩
      have hc := h.chains k (by omega)
      rw [← has] at hc
      cases as with
      | nil => exact absurd hc hb
      | cons a as =>
        obtain ⟨ha, head, hload, -⟩ := hc
        rw [← ha] at hload
        refine ⟨Function.update nb (hashFunction head.key n) (ht.buckets k),
          by simp [rehome, hb, hload], fun j => ?_⟩
        by_cases hj : j = hashFunction head.key n
        · subst hj
          exact .inr ⟨k, by omega, ⟨head, hload, rfl⟩, by simp⟩
        · have hstay : ¬ MovesTo ht n k j := by
            rintro ⟨head', hhead, rfl⟩
            obtain rfl := Option.some.inj (hload.symm.trans hhead)
            exact hj rfl
          rw [Function.update_of_ne hj]
          rcases hspec j with ⟨h0, hno⟩ | ⟨i, hi, hm, heq⟩
          · refine .inl ⟨h0, fun i hi => ?_⟩
            rcases Nat.lt_succ_iff_lt_or_eq.mp hi with hi | rfl
            · exact hno i hi
            · exact hstay
          · exact .inr ⟨i, by omega, hm, heq⟩

/-- A resize moves whole chains: a new bucket is empty, or holds the chain of an old
bucket whose head hashes to it. -/
theorem Linked.resize {ht : Hashtable} {chain : Nat → List Addr} (h : Linked ht chain) {n : Nat}
    (hn : 0 < n) :
    ∃ nb chain', resizeHashtable ht n = some { ht with buckets := nb, capacity := n } ∧
      Linked { ht with buckets := nb, capacity := n } chain' ∧
      ∀ j, (chain' j = [] ∧ ∀ i < ht.capacity, ¬ MovesTo ht n i j) ∨
        ∃ i < ht.capacity, MovesTo ht n i j ∧ chain' j = chain i := by
  obtain ⟨nb, hnb, hspec⟩ := rehome_fold h n ht.capacity le_rfl
  have hex : ∀ j, ∃ as, Chain HtEntry.next ht.entries (nb j) as ∧
      ((as = [] ∧ ∀ i < ht.capacity, ¬ MovesTo ht n i j) ∨
        ∃ i < ht.capacity, MovesTo ht n i j ∧ as = chain i) := by
    intro j
    rcases hspec j with ⟨h0, hno⟩ | ⟨i, hi, hm, heq⟩
    · exact ⟨[], h0, .inl ⟨rfl, hno⟩⟩
    · exact ⟨chain i, heq ▸ h.chains i hi, .inr ⟨i, hi, hm, rfl⟩⟩
  choose chain' hchain hfrom using hex
  refine ⟨nb, chain', by simp [resizeHashtable, hnb], ⟨hn, fun j _ => hchain j, ?_, ?_⟩, hfrom⟩
  · intro j hj
    rcases hfrom j with ⟨h0, -⟩ | ⟨i, hi, ⟨head, hload, rfl⟩, -⟩
    · exact h0
    · exact absurd hj (Nat.not_le_of_lt (hashFunction_lt _ hn))
  · intro j k a hj hk
    rcases hfrom j with ⟨h0, -⟩ | ⟨i, hi, ⟨head, hload, rfl⟩, heq⟩
    · simp [h0] at hj
    rcases hfrom k with ⟨h0, -⟩ | ⟨i', hi', ⟨head', hload', rfl⟩, heq'⟩
    · simp [h0] at hk
    rw [heq] at hj
    rw [heq'] at hk
    obtain rfl := h.disjoint i i' a hj hk
    obtain rfl := Option.some.inj (hload.symm.trans hload')
    rfl

/-! ## `ht_put` on any well linked table -/

/-- What `ht_put` does to the entries: entry `a` has the key and the value, and the others are
untouched. A resize moves no entry in memory. -/
structure PutAt (ht ht' : Hashtable) (key : CString) (value a : Addr) : Prop where
  stored : ∃ e, ht'.entries.load a = some e ∧ e.key = key ∧ e.value = value
  others : ∀ x, x ≠ a → ht'.entries.load x = ht.entries.load x
  old : ∀ e, ht.entries.load a = some e → e.key = key

theorem Linked.putEntry {ht : Hashtable} {chain : Nat → List Addr} (h : Linked ht chain)
    (key : CString) (value : Addr) :
    ∃ ht' a chain', TradeServer.putEntry ht key value = some (ht', a) ∧ Linked ht' chain' ∧
      PutAt ht ht' key value a := by
  rcases h.search key with habs | ⟨xs, a, e, ys, hm⟩
  · refine ⟨_, _, _, putEntry_of_absent h value habs, h.addEntry key value, ?_, ?_, ?_⟩
    · simp [Hashtable.addEntry]
    · intro x hx
      simp [Hashtable.addEntry, hx]
    · simp
  · refine ⟨_, _, _, putEntry_of_match h value hm, h.overwrite a e.value value, ?_, ?_, ?_⟩
    · simp [Hashtable.overwrite, hm.load, hm.key_eq]
    · intro x hx
      simp [Hashtable.overwrite, hx]
    · intro e' he'
      obtain rfl := Option.some.inj (he'.symm.trans hm.load)
      exact hm.key_eq

theorem Linked.htPut {ht : Hashtable} {chain : Nat → List Addr} (h : Linked ht chain)
    (key : CString) (value : Addr) :
    ∃ ht' a chain', TradeServer.htPut ht key value = some (ht', a) ∧ Linked ht' chain' ∧
      PutAt ht ht' key value a := by
  by_cases hn : NeedsResize ht
  · obtain ⟨nb, chain', hres, hlinked, -⟩ := h.resize (Nat.mul_pos h.capacity_pos Nat.two_pos)
    obtain ⟨ht', a, chain'', hput, hlinked', hat⟩ := hlinked.putEntry key value
    exact ⟨ht', a, chain'', by simp [TradeServer.htPut, hn, hres, hput], hlinked',
      hat.stored, hat.others, hat.old⟩
  · obtain ⟨ht', a, chain', hput, hlinked', hat⟩ := h.putEntry key value
    exact ⟨ht', a, chain', by simp [TradeServer.htPut, hn, hput], hlinked', hat⟩

/-- Setting the reference of an entry disturbs no chain. -/
theorem Linked.setRef {ht : Hashtable} {chain : Nat → List Addr} (h : Linked ht chain)
    (a ref : Addr) :
    Linked { ht with entries := ht.entries.modify a ({ · with ref := ref }) } chain where
  capacity_pos := h.capacity_pos
  chains i hi := (h.chains i hi).frame fun b _ e he => by
    by_cases hb : b = a
    · subst hb; simp [he]
    · simp [he, hb]
  outside := h.outside
  disjoint := h.disjoint

end TradeServer
