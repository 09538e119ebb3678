import TradeServer.DataStructures.HashtableMap
import TradeServer.Library.HeapObjects

/-!
# The entries of a table

An entry that a resize drops stays allocated, and no later operation reaches it again.
`AllOnChains` says that no entry was dropped. A step keeps it unless the step resizes a table
in which two chains move to one bucket.
-/

namespace TradeServer

open Library

/-- Every entry that `ht_put` created and `ht_remove` did not free is at one position of one
chain, the chains hold nothing else, and `size` counts them. -/
def Conserved (ht : Hashtable) : Prop :=
  ∃ chain : Nat → List Addr,
    (∀ i < ht.capacity, Chain HtEntry.next ht.entries (ht.buckets i) (chain i)) ∧
      ((List.range ht.capacity).flatMap chain).Nodup ∧
      (∀ a, a ∈ (List.range ht.capacity).flatMap chain ↔ a ∈ ht.entries.live) ∧
      ht.size = ((List.range ht.capacity).flatMap chain).length

/-- Every live entry is on a chain. -/
def AllOnChains (ht : Hashtable) (chain : Nat → List Addr) : Prop :=
  ∀ a ∈ ht.entries.live, ∃ i, a ∈ chain i

/-- No two chains move to one bucket of the doubled table. -/
def HeadsApart (ht : Hashtable) : Prop :=
  ∀ i < ht.capacity, ∀ j < ht.capacity, ∀ k, MovesTo ht (ht.capacity * 2) i k →
    MovesTo ht (ht.capacity * 2) j k → i = j

/-- The operation does not resize a table in which two chains move to one bucket. -/
def StepApart (ht : Hashtable) : HtOp → Prop
  | .put _ _ => NeedsResize ht → HeadsApart ht
  | _ => True

/-- No operation of the run drops a chain. -/
def ResizesApart (ht : Hashtable) (ops : List HtOp) : Prop :=
  ∀ done op, done ++ [op] <+: ops → ∀ ht', htRun ht done = some ht' → StepApart ht' op

/-- The live entries with their values. -/
def entryValues (ht : Hashtable) : List (Addr × Addr) :=
  ht.entries.objects.map fun x => (x.1, x.2.value)

theorem map_fst_entryValues (ht : Hashtable) : (entryValues ht).map Prod.fst = ht.entries.live := by
  simp [entryValues, Heap.live]

/-- The values that a run stores. -/
def putValues (ops : List HtOp) : List Addr :=
  ops.filterMap fun
    | .put _ value => some value
    | _ => none

/-- The value that `ht_remove` takes out of the table; none when the key is absent. -/
def taken (ht : Hashtable) : HtOp → List Addr
  | .remove key =>
    match findEntry ht.entries key ht.entries.next NULL
        (ht.buckets (hashFunction key ht.capacity)) with
    | some (_, entry) => if entry = NULL then [] else ((htRemove ht key).map Prod.snd).toList
    | none => []
  | _ => []

/-- How many live entries hold the value. -/
def held (ht : Hashtable) (value : Addr) : Nat := ((entryValues ht).map Prod.snd).count value

/-- What a step leaves in balance: `size` counts the live entries, and every value is in an
entry, was handed to the caller, or was passed to `free_func`. -/
structure Balanced (ht : Hashtable) (op : HtOp) (ht' : Hashtable) : Prop where
  freeFunc : ht'.freeFunc = ht.freeFunc
  size : ht.size = (entryValues ht).length → ht'.size = (entryValues ht').length
  values : ht.freeFunc = true → ∀ v, held ht' v + (taken ht op).count v + ht'.freed.count v =
    held ht v + ht.freed.count v + (putValues [op]).count v

theorem MovesTo.eq {ht : Hashtable} {n i j k : Nat} (hj : MovesTo ht n i j)
    (hk : MovesTo ht n i k) : j = k := by
  obtain ⟨head, hload, rfl⟩ := hj
  obtain ⟨head', hload', rfl⟩ := hk
  rw [Option.some.inj (hload.symm.trans hload')]

namespace Linked

variable {ht : Hashtable} {chain : Nat → List Addr}

/-- A table with complete chains and a true count is what `Conserved` asks for. -/
theorem conserved_iff (h : Linked ht chain) (hsize : ht.size = (entryValues ht).length) :
    Conserved ht ↔ AllOnChains ht chain := by
  constructor
  · rintro ⟨chain', hchain', -, hmem, -⟩ a ha
    obtain ⟨i, hi, hai⟩ := List.mem_flatMap.mp ((hmem a).mpr ha)
    have hi := List.mem_range.mp hi
    exact ⟨i, (hchain' i hi).unique (h.chains i hi) ▸ hai⟩
  · intro hc
    have hnd : ((List.range ht.capacity).flatMap chain).Nodup := by
      refine List.nodup_flatMap.mpr ⟨fun i _ => h.nodup i, ?_⟩
      refine List.nodup_range.imp fun {i j} hne a hai haj => ?_
      exact hne (h.disjoint i j a hai haj)
    have hmem : ∀ a, a ∈ (List.range ht.capacity).flatMap chain ↔ a ∈ ht.entries.live := by
      intro a
      rw [List.mem_flatMap, Heap.mem_live]
      constructor
      · rintro ⟨i, -, hai⟩
        exact h.live hai
      · intro ha
        obtain ⟨i, hai⟩ := hc a (Heap.mem_live.mpr ha)
        exact ⟨i, List.mem_range.mpr (h.lt_capacity hai), hai⟩
    refine ⟨chain, h.chains, hnd, hmem, ?_⟩
    have hperm := (List.perm_ext_iff_of_nodup hnd ht.entries.nodup_live).mpr hmem
    rw [hperm.length_eq, hsize, ← map_fst_entryValues, List.length_map]

/-! ## One operation -/

/-- A bucket is empty, or holds the first entry of its chain. -/
theorem bucket_cases (h : Linked ht chain) {i : Nat} (hi : i < ht.capacity) :
    ht.buckets i = NULL ∧ chain i = [] ∨
      ∃ e rest, chain i = ht.buckets i :: rest ∧ ht.entries.load (ht.buckets i) = some e ∧
        Chain HtEntry.next ht.entries e.next rest := by
  have hc := h.chains i hi
  obtain ⟨as, has⟩ : ∃ as, as = chain i := ⟨_, rfl⟩
  rw [← has] at hc ⊢
  cases as with
  | nil => exact .inl ⟨hc, rfl⟩
  | cons a as =>
    obtain ⟨rfl, e, he, hrest⟩ := hc
    exact .inr ⟨e, as, rfl, he, hrest⟩

/-- The bucket of an entry on a chain moves somewhere. -/
theorem exists_movesTo (h : Linked ht chain) {i : Nat} {a : Addr} (ha : a ∈ chain i) (n : Nat) :
    ∃ k, MovesTo ht n i k := by
  rcases h.bucket_cases (h.lt_capacity ha) with ⟨-, h0⟩ | ⟨e, rest, -, he, -⟩
  · simp [h0] at ha
  · exact ⟨_, e, he, rfl⟩

/-- A live entry in a bucket is the head of its chain. -/
theorem head_mem (h : Linked ht chain) {i : Nat} (hi : i < ht.capacity) {e : HtEntry}
    (he : ht.entries.load (ht.buckets i) = some e) : ht.buckets i ∈ chain i := by
  rcases h.bucket_cases hi with ⟨hnull, -⟩ | ⟨e, rest, hc, -, -⟩
  · simp [hnull] at he
  · simp [hc]

/-- A resize keeps every entry reachable if no two chains move to one bucket, and not otherwise. -/
theorem allOnChains_resize (h : Linked ht chain) :
    ∃ ht' chain', resizeHashtable ht (ht.capacity * 2) = some ht' ∧ Linked ht' chain' ∧
      ht'.entries = ht.entries ∧ ht'.size = ht.size ∧ ht'.freed = ht.freed ∧
      ht'.freeFunc = ht.freeFunc ∧
      (AllOnChains ht' chain' ↔ AllOnChains ht chain ∧ HeadsApart ht) := by
  obtain ⟨nb, chain', hres, hlinked, hfrom⟩ :=
    h.resize (Nat.mul_pos h.capacity_pos Nat.two_pos)
  refine ⟨_, chain', hres, hlinked, rfl, rfl, rfl, rfl, fun hc => ⟨fun a ha => ?_, ?_⟩, ?_⟩
  · obtain ⟨j, haj⟩ := hc a ha
    rcases hfrom j with ⟨h0, -⟩ | ⟨i, -, -, heq⟩
    · simp [h0] at haj
    · exact ⟨i, heq ▸ haj⟩
  · -- the heads of two chains that move to `k` are both in the one chain that ends up there
    have hhead : ∀ i < ht.capacity, ∀ k, MovesTo ht (ht.capacity * 2) i k →
        chain' k = chain i := by
      intro i hi k hk
      have hmem := h.head_mem hi hk.choose_spec.1
      obtain ⟨j, haj⟩ := hc _ (Heap.mem_live.mpr (h.live hmem))
      rcases hfrom j with ⟨h0, -⟩ | ⟨i', -, hm, heq⟩
      · simp [h0] at haj
      · obtain rfl := h.disjoint _ _ _ hmem (heq ▸ haj)
        rw [hk.eq hm, heq]
    intro i hi j hj k hik hjk
    have hmem := h.head_mem hi hik.choose_spec.1
    refine h.disjoint i j _ hmem ?_
    rwa [← hhead j hj k hjk, hhead i hi k hik]
  · rintro ⟨hc, hapart⟩ a ha
    obtain ⟨i, hai⟩ := hc a ha
    obtain ⟨k, hk⟩ := h.exists_movesTo hai (ht.capacity * 2)
    rcases hfrom k with ⟨-, hno⟩ | ⟨i', hi', hm, heq⟩
    · exact absurd hk (hno i (h.lt_capacity hai))
    · obtain rfl := hapart i' hi' i (h.lt_capacity hai) k hm hk
      exact ⟨k, heq ▸ hai⟩

theorem entryValues_addEntry (ht : Hashtable) (key : CString) (value : Addr) :
    entryValues (ht.addEntry key value) = entryValues ht ++ [(ht.entries.fresh, value)] := by
  simp [entryValues, Hashtable.addEntry, Heap.objects_alloc]

/-- Overwriting swaps one value for another. -/
theorem entryValues_overwrite {a : Addr} {e : HtEntry} (he : ht.entries.load a = some e)
    (value : Addr) :
    ∃ rest, (entryValues ht).Perm ((a, e.value) :: rest) ∧
      (entryValues (ht.overwrite a e.value value)).Perm ((a, value) :: rest) :=
  ⟨_, (Heap.objects_free he).map _, (Heap.objects_modify he _).map _⟩

/-- `ht_remove` frees one entry; the change of a link does not show. -/
theorem entryValues_unlink (h : Linked ht chain) {i : Nat} {xs ys : List Addr} {a : Addr}
    {e : HtEntry} (hs : chain i = xs ++ a :: ys) (he : ht.entries.load a = some e) :
    (entryValues ht).Perm
      ((a, e.value) :: entryValues (ht.unlink i (xs.getLastD NULL) a e.next)) := by
  rcases h.prev_cases hs with ⟨-, hprev⟩ | ⟨zs, b, eb, rfl, hprev, hb, hload⟩
  · rw [hprev]
    exact (Heap.objects_free he).map _
  · have hne : a ≠ b := by
      have hnd := h.nodup i
      rw [hs] at hnd
      rintro rfl
      simp [List.nodup_append] at hnd
    have he' : (ht.entries.modify b ({ · with next := e.next })).load a = some e := by
      simp [hne, he]
    have hset := ht.entries.objects_modify_map b HtEntry.value ({ · with next := e.next })
      fun _ => rfl
    rw [entryValues, ← hset, hprev, entryValues, Hashtable.unlink, if_neg hb]
    exact (Heap.objects_free he').map _

theorem allOnChains_addEntry (key : CString) (value : Addr) :
    AllOnChains (ht.addEntry key value) (Function.update chain (hashFunction key ht.capacity)
        (ht.entries.fresh :: chain (hashFunction key ht.capacity))) ↔ AllOnChains ht chain := by
  have hlive : ∀ a, a ∈ (ht.addEntry key value).entries.live ↔
      a ∈ ht.entries.live ∨ a = ht.entries.fresh := by
    intro a
    rw [← map_fst_entryValues, entryValues_addEntry, ← map_fst_entryValues]
    simp
  have hon : ∀ a, (∃ i, a ∈ Function.update chain (hashFunction key ht.capacity)
      (ht.entries.fresh :: chain (hashFunction key ht.capacity)) i) ↔
        (∃ i, a ∈ chain i) ∨ a = ht.entries.fresh := by
    intro a
    constructor
    · rintro ⟨i, hi⟩
      by_cases hk : i = hashFunction key ht.capacity
      · subst hk
        rw [Function.update_self, List.mem_cons] at hi
        exact hi.symm.imp_left fun hi => ⟨_, hi⟩
      · rw [Function.update_of_ne hk] at hi
        exact .inl ⟨i, hi⟩
    · rintro (⟨i, hi⟩ | rfl)
      · by_cases hk : i = hashFunction key ht.capacity
        · subst hk
          exact ⟨_, by rw [Function.update_self]; exact List.mem_cons_of_mem _ hi⟩
        · exact ⟨i, by rwa [Function.update_of_ne hk]⟩
      · exact ⟨hashFunction key ht.capacity, by simp⟩
  have hne : ∀ a ∈ ht.entries.live, a ≠ ht.entries.fresh := by
    intro a ha
    obtain ⟨v, hv⟩ := Heap.mem_live.mp ha
    exact Heap.ne_fresh_of_load hv
  simp only [AllOnChains, hlive, hon]
  exact ⟨fun hc a ha => (hc a (.inl ha)).resolve_right (hne a ha),
    fun hc a ha => ha.imp_left (hc a)⟩

theorem allOnChains_overwrite {a : Addr} {e : HtEntry} (he : ht.entries.load a = some e)
    (value : Addr) : AllOnChains (ht.overwrite a e.value value) chain ↔ AllOnChains ht chain := by
  obtain ⟨rest, hold, hnew⟩ := entryValues_overwrite he value
  have hlive : ∀ b, b ∈ (ht.overwrite a e.value value).entries.live ↔ b ∈ ht.entries.live := by
    intro b
    rw [← map_fst_entryValues, ← map_fst_entryValues, (hold.map _).mem_iff, (hnew.map _).mem_iff]
    rfl
  simp only [AllOnChains, hlive]

theorem allOnChains_unlink (h : Linked ht chain) {i : Nat} {xs ys : List Addr} {a : Addr}
    {e : HtEntry} (hs : chain i = xs ++ a :: ys) (he : ht.entries.load a = some e) :
    AllOnChains (ht.unlink i (xs.getLastD NULL) a e.next) (Function.update chain i (xs ++ ys)) ↔
      AllOnChains ht chain := by
  have hperm := (h.entryValues_unlink hs he).map Prod.fst
  rw [map_fst_entryValues, List.map_cons, map_fst_entryValues] at hperm
  have hnot := (List.nodup_cons.mp (hperm.nodup_iff.mp ht.entries.nodup_live)).1
  simp only [AllOnChains, h.mem_unlinked hs, hperm.mem_iff, exists_and_right]
  constructor
  · intro hc b hb
    rcases List.mem_cons.mp hb with rfl | hb
    · exact ⟨i, by simp [hs]⟩
    · exact (hc b hb).1
  · intro hc b hb
    exact ⟨hc b (List.mem_cons_of_mem _ hb), fun hba => hnot (hba ▸ hb)⟩

/-- `ht_put` after its load test creates an entry on a chain, or swaps a value for another. -/
theorem putEntry_balanced (h : Linked ht chain) (key : CString) (value : Addr) :
    ∃ ht' r chain', TradeServer.putEntry ht key value = some (ht', r) ∧ Linked ht' chain' ∧
      (AllOnChains ht' chain' ↔ AllOnChains ht chain) ∧ Balanced ht (.put key value) ht' := by
  rcases h.search key with habs | ⟨xs, a, e, ys, hm⟩
  · refine ⟨_, _, _, putEntry_of_absent h value habs, h.addEntry key value,
      allOnChains_addEntry key value, rfl, fun hsize => ?_, fun _ v => ?_⟩
    · rw [entryValues_addEntry, List.length_append, ← hsize]
      rfl
    · simp only [held, entryValues_addEntry, taken, putValues, List.map_append, List.map_cons,
        List.map_nil, List.count_append, List.count_nil, List.filterMap_cons, List.filterMap_nil]
      simp only [Hashtable.addEntry]
      omega
  · obtain ⟨rest, hold, hnew⟩ := entryValues_overwrite hm.load value
    refine ⟨_, _, _, putEntry_of_match h value hm, h.overwrite a e.value value,
      allOnChains_overwrite hm.load value, rfl, fun hsize => ?_, fun hfree v => ?_⟩
    · have hlen := hold.length_eq.trans hnew.length_eq.symm
      exact hsize.trans hlen
    · have hold := (hold.map Prod.snd).count_eq v
      have hnew := (hnew.map Prod.snd).count_eq v
      simp only [List.map_cons, List.count_cons] at hold hnew
      simp only [held, taken, putValues, List.filterMap_cons, List.filterMap_nil, List.count_nil,
        List.count_singleton, Hashtable.overwrite, hfree, if_true, List.count_append] at hold hnew ⊢
      omega

theorem remove_balanced (h : Linked ht chain) (key : CString) :
    ∃ ht' r chain', htRemove ht key = some (ht', r) ∧ Linked ht' chain' ∧
      (AllOnChains ht' chain' ↔ AllOnChains ht chain) ∧ Balanced ht (.remove key) ht' := by
  rcases h.search key with habs | ⟨xs, a, e, ys, hm⟩
  · refine ⟨ht, NULL, chain, htRemove_of_absent h habs, h, Iff.rfl, rfl, id, fun _ v => ?_⟩
    simp [taken, h.find_absent habs, putValues]
  · have hperm := h.entryValues_unlink hm.split hm.load
    refine ⟨_, _, _, htRemove_of_match h hm, h.unlink hm.split hm.load,
      h.allOnChains_unlink hm.split hm.load, ?_, fun hsize => ?_, fun _ v => ?_⟩
    · unfold Hashtable.unlink
      split <;> rfl
    · have hlen := hperm.length_eq
      rw [Hashtable.unlink_size, hsize, hlen, List.length_cons, Nat.add_sub_cancel]
    · have htaken : taken ht (.remove key) = [e.value] := by
        simp [taken, h.find_match hm, Heap.ne_null_of_load hm.load, htRemove_of_match h hm]
      have hfreed : (ht.unlink (hashFunction key ht.capacity) (xs.getLastD NULL) a e.next).freed =
          ht.freed := by
        unfold Hashtable.unlink
        split <;> rfl
      have hcount := (hperm.map Prod.snd).count_eq v
      simp only [List.map_cons, List.count_cons] at hcount
      simp only [held, htaken, hfreed, putValues, List.filterMap_cons, List.filterMap_nil,
        List.count_nil, List.count_singleton, hcount]
      omega

/-- One operation: what it stores, hands over and frees balances, and it keeps every entry
reachable exactly if its resize does. -/
theorem step_balanced (h : Linked ht chain) (op : HtOp) :
    ∃ ht' r chain', htStep ht op = some (ht', r) ∧ Linked ht' chain' ∧
      (AllOnChains ht' chain' ↔ AllOnChains ht chain ∧ StepApart ht op) ∧ Balanced ht op ht' := by
  cases op with
  | put key value =>
    by_cases hn : NeedsResize ht
    · obtain ⟨ht₁, chain₁, hres, h₁, hentries, hsize, hfreed, hfunc, hiff₁⟩ := h.allOnChains_resize
      obtain ⟨ht', r, chain', hput, h', hiff, hb⟩ := h₁.putEntry_balanced key value
      have hev : entryValues ht₁ = entryValues ht := by rw [entryValues, entryValues, hentries]
      refine ⟨ht', r, chain', by
        simp [htStep, TradeServer.htPut, hn, hres, hput], h', ?_,
        hb.freeFunc.trans hfunc, fun hs => hb.size (by rw [hsize, hev, hs]), fun hf v => ?_⟩
      · rw [hiff, hiff₁, StepApart]
        simp [hn]
      · have := hb.values (hfunc.trans hf) v
        simpa only [held, hev, hfreed, taken] using this
    · obtain ⟨ht', r, chain', hput, h', hiff, hb⟩ := h.putEntry_balanced key value
      exact ⟨ht', r, chain', by simp [htStep, TradeServer.htPut, hn, hput], h',
        hiff.trans (by simp [StepApart, hn]), hb⟩
  | get key =>
    obtain ⟨r, hr⟩ : ∃ r, htGet ht key = some r := by
      rcases h.search key with habs | ⟨xs, a, e, ys, hm⟩
      · exact ⟨NULL, by simp [htGet, h.find_absent habs]⟩
      · have ha : a ≠ NULL := Heap.ne_null_of_load hm.load
        exact ⟨e.value, by simp [htGet, h.find_match hm, ha, hm.load]⟩
    exact ⟨ht, r, chain, by simp [htStep, hr], h, by simp [StepApart], rfl, id,
      fun _ v => by simp [taken, putValues]⟩
  | remove key =>
    obtain ⟨ht', r, chain', hrem, h', hiff, hb⟩ := h.remove_balanced key
    exact ⟨ht', r, chain', hrem, h', hiff.trans (by simp [StepApart]), hb⟩

end Linked

/-! ## Runs -/

theorem ResizesApart.of_prefix {ht : Hashtable} {done ops : List HtOp} (h : ResizesApart ht ops)
    (hp : done <+: ops) : ResizesApart ht done := fun d o hd => h d o (hd.trans hp)

theorem resizesApart_append {ht ht' : Hashtable} {ops : List HtOp} {op : HtOp}
    (hrun : htRun ht ops = some ht') :
    ResizesApart ht (ops ++ [op]) ↔ ResizesApart ht ops ∧ StepApart ht' op := by
  constructor
  · intro h
    exact ⟨h.of_prefix (List.prefix_append _ _), h ops op (List.prefix_refl _) ht' hrun⟩
  · rintro ⟨h, hop⟩ done o hd ht₁ hrun₁
    rcases List.prefix_concat_iff.mp hd with heq | hlt
    · obtain ⟨rfl, rfl⟩ : done = ops ∧ o = op := by simpa using List.append_inj' heq rfl
      obtain rfl := Option.some.inj (hrun₁.symm.trans hrun)
      exact hop
    · exact h done o hlt ht₁ hrun₁

/-- A table in which every entry is in the bucket of its key keeps its chains apart. -/
theorem Represents.headsApart {ht : Hashtable} {m : KeyMap} {chain : Nat → List Addr}
    (h : Represents ht m chain) : HeadsApart ht := fun _ hi _ hj _ hik hjk =>
  (h.mod_of_movesTo hi hik).symm.trans (h.mod_of_movesTo hj hjk)

/-- An entry is dropped only after another resize misplaced one. -/
theorem ResizesWhole.apart {cap : Nat} {free : Bool} {ops : List HtOp}
    (h : ResizesWhole (htInit cap free) ops) : ResizesApart (htInit cap free) ops := by
  intro done op hd ht hrun
  obtain ⟨ht', chain, hrun', hrep⟩ :=
    represents_htRun cap free (h.of_prefix ((List.prefix_append _ _).trans hd))
  obtain rfl := Option.some.inj (hrun.symm.trans hrun')
  cases op with
  | put key value => exact fun _ => hrep.headsApart
  | get key => trivial
  | remove key => trivial

/-- Every run keeps the table linked and the count true, and keeps every entry reachable exactly
if all its resizes do. -/
theorem entries_htRun (cap : Nat) (free : Bool) (ops : List HtOp) :
    ∃ ht chain, htRun (htInit cap free) ops = some ht ∧ Linked ht chain ∧ ht.freeFunc = free ∧
      ht.size = (entryValues ht).length ∧
      (AllOnChains ht chain ↔ ResizesApart (htInit cap free) ops) := by
  induction ops using List.reverseRecOn with
  | nil =>
    refine ⟨_, _, rfl, linked_htInit cap free, rfl, by simp [entryValues, htInit], ?_⟩
    refine iff_of_true (fun a ha => ?_) fun done op hd => by simp at hd
    simp [htInit] at ha
  | append_singleton ops op ih =>
    obtain ⟨ht, chain, hrun, h, hfree, hsize, hiff⟩ := ih
    obtain ⟨ht', r, chain', hstep, h', hiff', hb⟩ := h.step_balanced op
    refine ⟨ht', chain', by simp [htRun_append, hrun, hstep], h', hb.freeFunc.trans hfree,
      hb.size hsize, ?_⟩
    rw [hiff', hiff, resizesApart_append hrun]

/-- The table conserves its entries on exactly the runs in which no resize moves two chains to
one bucket. -/
theorem htRun_conserved_iff (cap : Nat) (free : Bool) (ops : List HtOp) :
    (∀ done, done <+: ops → ∃ ht, htRun (htInit cap free) done = some ht ∧ Conserved ht) ↔
      ResizesApart (htInit cap free) ops := by
  constructor
  · intro hall
    obtain ⟨ht, hrun, hc⟩ := hall ops (List.prefix_refl _)
    obtain ⟨ht', chain, hrun', h, -, hsize, hiff⟩ := entries_htRun cap free ops
    obtain rfl := Option.some.inj (hrun.symm.trans hrun')
    exact hiff.mp ((h.conserved_iff hsize).mp hc)
  · intro hap done hd
    obtain ⟨ht, chain, hrun, h, -, hsize, hiff⟩ := entries_htRun cap free done
    exact ⟨ht, hrun, (h.conserved_iff hsize).mpr (hiff.mpr (hap.of_prefix hd))⟩

/-- The third `ht_put` doubles the table to six buckets and leaves `d` behind `a`, which hashes to
another one; without `a` it heads a chain, and the next resize moves it and `p` to bucket four of
twelve. -/
theorem htRun_drops_entry : ¬ ∀ (cap : Nat) (free : Bool) (ops : List HtOp),
    ∀ done, done <+: ops → ∃ ht, htRun (htInit cap free) done = some ht ∧ Conserved ht := by
  intro hall
  let ops : List HtOp := [.put (key "d") 11, .put (key "a") 12, .put (key "p") 13,
    .remove (key "a"), .put (key "b") 14, .put (key "c") 15]
  have hmoves : ((htRun (htInit 3 false) ops).bind fun ht =>
      (ht.entries.load (ht.buckets 1)).bind fun e => (ht.entries.load (ht.buckets 4)).map fun f =>
        (ht.capacity, ht.size, hashFunction e.key 12, hashFunction f.key 12)) =
      some (6, 4, 4, 4) := by decide
  obtain ⟨ht, hrun, hc⟩ := hall 3 false (ops ++ [.put (key "e") 16]) _ (List.prefix_refl _)
  obtain ⟨ht', chain, hrun', h, -, hsize, hiff⟩ :=
    entries_htRun 3 false (ops ++ [.put (key "e") 16])
  obtain rfl := Option.some.inj (hrun.symm.trans hrun')
  have hapart := hiff.mp ((h.conserved_iff hsize).mp hc)
  obtain ⟨ht₀, -, hrun₀, -⟩ := entries_htRun 3 false ops
  simp only [hrun₀, Option.bind_some, Option.bind_eq_some_iff, Option.map_eq_some_iff,
    Prod.mk.injEq] at hmoves
  obtain ⟨e, he, f, hf, hcap, hsize, hke, hkf⟩ := hmoves
  have hheads := hapart ops _ (List.prefix_refl _) ht₀ hrun₀ (by simp [NeedsResize, hcap, hsize])
  rw [HeadsApart, hcap] at hheads
  exact absurd (hheads 1 (by omega) 4 (by omega) 4 ⟨e, he, hke⟩ ⟨f, hf, hkf⟩) (by decide)

end TradeServer
