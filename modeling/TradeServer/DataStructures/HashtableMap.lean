import Mathlib.Data.Finmap
import TradeServer.DataStructures.HashtableChains

/-!
# The hash table as a finite map

`mapOf` is what a sequence of operations should leave behind. `Represents` adds to
the chains of a table that every entry is in the bucket of its key; the operations
keep it, except for a resize that moves an entry to a bucket its key does not hash
to. `htRun_refines_iff` says that the table behaves as the finite map exactly when
no resize does that.
-/

namespace TradeServer

open Library

abbrev KeyMap := Finmap (fun _ : CString => Addr)

inductive HtOp where
  | put (key : CString) (value : Addr)
  | get (key : CString)
  | remove (key : CString)
  deriving DecidableEq

/-- The effect of an operation on the table, with the pointer it returns. -/
def htStep (ht : Hashtable) : HtOp → Option (Hashtable × Addr)
  | .put key value => htPut ht key value
  | .get key => (htGet ht key).map (ht, ·)
  | .remove key => htRemove ht key

def htRun (ht : Hashtable) (ops : List HtOp) : Option Hashtable :=
  ops.foldlM (fun ht op => (htStep ht op).map Prod.fst) ht

def applyOp (m : KeyMap) : HtOp → KeyMap
  | .put key value => m.insert key value
  | .get _ => m
  | .remove key => m.erase key

/-- The latest value put under each key and not removed since. -/
def mapOf (ops : List HtOp) : KeyMap := ops.foldl applyOp ∅

/-- The pointer that stands for a lookup: null when the key is absent. -/
def orNull (v : Option Addr) : Addr := v.getD NULL

/-- All that callers see of the table is the map. -/
structure Observes (ht : Hashtable) (m : KeyMap) : Prop where
  get : ∀ key, htGet ht key = some (orNull (m.lookup key))
  remove : ∀ key, (htRemove ht key).map Prod.snd = some (orNull (m.lookup key))
  size : ht.size = m.keys.card

/-- After every prefix of the operations the table shows the map. -/
def RefinesMap (ht : Hashtable) (ops : List HtOp) : Prop :=
  ∀ done, done <+: ops → ∃ ht', htRun ht done = some ht' ∧ Observes ht' (mapOf done)

/-- Every entry hashes to the same bucket of the doubled table as the head of its
chain, the only entry `resize_hashtable` looks at. -/
def RehomesWhole (ht : Hashtable) : Prop :=
  ∀ i < ht.capacity, ∀ head, ht.entries.load (ht.buckets i) = some head →
    ∀ as, Chain HtEntry.next ht.entries (ht.buckets i) as →
      ∀ a ∈ as, ∀ e, ht.entries.load a = some e →
        hashFunction e.key (ht.capacity * 2) = hashFunction head.key (ht.capacity * 2)

/-- The operation does not resize a table in which a resize misplaces an entry. -/
def StepOk (ht : Hashtable) : HtOp → Prop
  | .put _ _ => NeedsResize ht → RehomesWhole ht
  | _ => True

/-- No operation of the run misplaces an entry. -/
def ResizesWhole (ht : Hashtable) (ops : List HtOp) : Prop :=
  ∀ done op, done ++ [op] <+: ops → ∀ ht', htRun ht done = some ht' → StepOk ht' op

/-- Values handed to `ht_put` are not null. -/
def HtOp.ValueOk : HtOp → Prop
  | .put _ value => value ≠ NULL
  | _ => True

instance : DecidablePred HtOp.ValueOk
  | .put _ value => inferInstanceAs (Decidable (value ≠ NULL))
  | .get _ => .isTrue trivial
  | .remove _ => .isTrue trivial

/-- The entries of the table are the pairs of the map, each in the bucket of its key. -/
structure Represents (ht : Hashtable) (m : KeyMap) (chain : Nat → List Addr) : Prop where
  linked : Linked ht chain
  home : ∀ i a e, a ∈ chain i → ht.entries.load a = some e → hashFunction e.key ht.capacity = i
  keys : ∀ i a b e f, a ∈ chain i → b ∈ chain i → ht.entries.load a = some e →
    ht.entries.load b = some f → e.key = f.key → a = b
  lookup : ∀ key value, m.lookup key = some value ↔
    ∃ i a e, a ∈ chain i ∧ ht.entries.load a = some e ∧ e.key = key ∧ e.value = value
  size : ht.size = m.keys.card

theorem represents_htInit (cap : Nat) (free : Bool) :
    Represents (htInit cap free) ∅ (fun _ => []) where
  linked := linked_htInit cap free
  home _ _ _ h := by simp at h
  keys _ _ _ _ _ h := by simp at h
  lookup key value := by simp
  size := by simp [htInit]

/-- Entry `a` of chain `i` holds the key and the value. -/
def Stores (ht : Hashtable) (chain : Nat → List Addr) (i : Nat) (a : Addr) (key : CString)
    (value : Addr) : Prop :=
  a ∈ chain i ∧ ∃ e, ht.entries.load a = some e ∧ e.key = key ∧ e.value = value

section Stores

variable {ht : Hashtable} {chain : Nat → List Addr} {key k : CString} {value v a b : Addr}
  {e : HtEntry} {xs ys : List Addr} {i : Nat}

theorem stores_overwrite (h : Linked ht chain)
    (hm : FirstMatch ht.entries key (chain (hashFunction key ht.capacity)) xs a e ys) :
    Stores (ht.overwrite a e.value value) chain i b k v ↔ b ≠ a ∧ Stores ht chain i b k v ∨
      b = a ∧ i = hashFunction key ht.capacity ∧ k = key ∧ v = value := by
  by_cases hb : b = a
  · subst hb
    have hbi : b ∈ chain i ↔ i = hashFunction key ht.capacity :=
      ⟨fun hi => h.disjoint _ _ b hi (by simp [hm.split]), fun hi => by simp [hi, hm.split]⟩
    simp [Stores, Hashtable.overwrite, hm.load, hm.key_eq, hbi, eq_comm (b := k), eq_comm (b := v)]
  · simp [Stores, Hashtable.overwrite, hb]

theorem stores_addEntry (h : Linked ht chain) :
    Stores (ht.addEntry key value) (Function.update chain (hashFunction key ht.capacity)
        (ht.entries.fresh :: chain (hashFunction key ht.capacity))) i b k v ↔
      b ≠ ht.entries.fresh ∧ Stores ht chain i b k v ∨
        b = ht.entries.fresh ∧ i = hashFunction key ht.capacity ∧ k = key ∧ v = value := by
  have hmem : b ∈ Function.update chain (hashFunction key ht.capacity)
      (ht.entries.fresh :: chain (hashFunction key ht.capacity)) i ↔
        b ∈ chain i ∨ b = ht.entries.fresh ∧ i = hashFunction key ht.capacity := by
    by_cases hi : i = hashFunction key ht.capacity
    · subst hi
      simp [or_comm]
    · simp [hi]
  rw [Stores, hmem]
  by_cases hb : b = ht.entries.fresh
  · subst hb
    have hnot : ht.entries.fresh ∉ chain i := by
      intro hc
      obtain ⟨e, he⟩ := h.live hc
      simp at he
    simp [Hashtable.addEntry, hnot, eq_comm]
  · simp [Stores, Hashtable.addEntry, hb]

/-- Unlinking an entry changes no more than the link of its predecessor. -/
theorem load_unlink {next prev : Addr} (hb : b ≠ a) (k : CString) (v : Addr) :
    (∃ f, (ht.unlink i prev a next).entries.load b = some f ∧ f.key = k ∧ f.value = v) ↔
      ∃ f, ht.entries.load b = some f ∧ f.key = k ∧ f.value = v := by
  unfold Hashtable.unlink
  by_cases hp : prev = NULL
  · simp [hp, hb]
  · by_cases hbp : b = prev
    · subst hbp
      simp [hp, hb]
    · simp [hp, hb, hbp]

theorem stores_unlink (h : Linked ht chain) {j : Nat} {next prev : Addr}
    (hs : chain j = xs ++ a :: ys) :
    Stores (ht.unlink j prev a next) (Function.update chain j (xs ++ ys)) i b k v ↔
      b ≠ a ∧ Stores ht chain i b k v := by
  rw [Stores, h.mem_unlinked hs, Stores]
  by_cases hb : b = a
  · simp [hb]
  · rw [load_unlink hb]
    tauto

theorem keyAbsent_iff :
    KeyAbsent ht.entries k (chain i) ↔ ∀ a v, ¬ Stores ht chain i a k v := by
  constructor
  · rintro habs a v ⟨ha, e, he, hk, -⟩
    exact habs a ha e he hk
  · intro hno a ha e he hk
    exact hno a e.value ⟨ha, e, he, hk, rfl⟩

/-- Putting one key does not make another one appear. -/
theorem htGet_of_putEntry (h : Linked ht chain) (hk : key ≠ k)
    (habs : KeyAbsent ht.entries k (chain (hashFunction k ht.capacity))) {ht' : Hashtable}
    (hput : putEntry ht key value = some (ht', a)) : htGet ht' k = some NULL := by
  rw [keyAbsent_iff] at habs
  rcases h.search key with habs' | ⟨xs, a, e, ys, hm⟩
  · rw [putEntry_of_absent h value habs'] at hput
    obtain ⟨rfl, -⟩ := Prod.mk.inj (Option.some.inj hput)
    simp only [htGet, (h.addEntry key value).find_absent (keyAbsent_iff.mpr fun b v hb => by
      rcases (stores_addEntry h).mp hb with ⟨-, hb⟩ | ⟨-, -, hk', -⟩
      · exact habs b v hb
      · exact hk hk'.symm)]
    simp
  · rw [putEntry_of_match h value hm] at hput
    obtain ⟨rfl, -⟩ := Prod.mk.inj (Option.some.inj hput)
    simp only [htGet, (h.overwrite a e.value value).find_absent (keyAbsent_iff.mpr fun b v hb => by
      rcases (stores_overwrite h hm).mp hb with ⟨-, hb⟩ | ⟨-, -, hk', -⟩
      · exact habs b v hb
      · exact hk hk'.symm)]
    simp

end Stores

namespace Represents

variable {ht : Hashtable} {m : KeyMap} {chain : Nat → List Addr} {key : CString}

theorem of_stores (hl : Linked ht chain)
    (home : ∀ {i a k v}, Stores ht chain i a k v → hashFunction k ht.capacity = i)
    (unique : ∀ {i a b k v w}, Stores ht chain i a k v → Stores ht chain i b k w → a = b)
    (lookup : ∀ k v, m.lookup k = some v ↔ ∃ i a, Stores ht chain i a k v)
    (size : ht.size = m.keys.card) : Represents ht m chain where
  linked := hl
  home i a e ha he := home ⟨ha, e, he, rfl, rfl⟩
  keys i a b e f ha hb he hf hkey := unique ⟨ha, e, he, rfl, rfl⟩ ⟨hb, f, hf, hkey.symm, rfl⟩
  lookup k v := by
    rw [lookup]
    exact ⟨fun ⟨i, a, ha, e, he⟩ => ⟨i, a, e, ha, he⟩, fun ⟨i, a, e, ha, he⟩ => ⟨i, a, ha, e, he⟩⟩
  size := size

theorem home_of_stores (h : Represents ht m chain) {i : Nat} {a v : Addr} {k : CString}
    (ha : Stores ht chain i a k v) : hashFunction k ht.capacity = i := by
  obtain ⟨hai, e, he, rfl, -⟩ := ha
  exact h.home i a e hai he

theorem unique_of_stores (h : Represents ht m chain) {i : Nat} {a b v w : Addr} {k : CString}
    (ha : Stores ht chain i a k v) (hb : Stores ht chain i b k w) : a = b := by
  obtain ⟨hai, e, he, rfl, -⟩ := ha
  obtain ⟨hbi, f, hf, hkey, -⟩ := hb
  exact h.keys i a b e f hai hbi he hf hkey.symm

theorem lookup_iff_stores (h : Represents ht m chain) (k : CString) (v : Addr) :
    m.lookup k = some v ↔ ∃ i a, Stores ht chain i a k v := by
  rw [h.lookup]
  exact ⟨fun ⟨i, a, e, ha, he⟩ => ⟨i, a, ha, e, he⟩, fun ⟨i, a, ha, e, he⟩ => ⟨i, a, e, ha, he⟩⟩

theorem lookup_of_match (h : Represents ht m chain) {a : Addr} {e : HtEntry} {xs ys : List Addr}
    (hm : FirstMatch ht.entries key (chain (hashFunction key ht.capacity)) xs a e ys) :
    m.lookup key = some e.value :=
  (h.lookup key e.value).mpr
    ⟨hashFunction key ht.capacity, a, e, by simp [hm.split], hm.load, hm.key_eq, rfl⟩

theorem mem_keys_of_match (h : Represents ht m chain) {a : Addr} {e : HtEntry}
    {xs ys : List Addr}
    (hm : FirstMatch ht.entries key (chain (hashFunction key ht.capacity)) xs a e ys) :
    key ∈ m.keys := by
  rw [Finmap.mem_keys, ← Finmap.lookup_isSome, h.lookup_of_match hm]
  rfl

theorem lookup_of_absent (h : Represents ht m chain)
    (habs : KeyAbsent ht.entries key (chain (hashFunction key ht.capacity))) :
    m.lookup key = none := by
  by_contra hne
  obtain ⟨value, hv⟩ := Option.ne_none_iff_exists'.mp hne
  obtain ⟨i, a, e, ha, he, rfl, -⟩ := (h.lookup key value).mp hv
  obtain rfl := h.home i a e ha he
  exact habs a ha e he rfl

/-- A table that represents a map shows it. -/
theorem observes (h : Represents ht m chain) : Observes ht m where
  get key := by
    rcases h.linked.search key with habs | ⟨xs, a, e, ys, hm⟩
    · simp [htGet, h.linked.find_absent habs, h.lookup_of_absent habs, orNull]
    · have ha : a ≠ NULL := Heap.ne_null_of_load hm.load
      simp [htGet, h.linked.find_match hm, h.lookup_of_match hm, ha, hm.load, orNull]
  remove key := by
    rcases h.linked.search key with habs | ⟨xs, a, e, ys, hm⟩
    · simp [htRemove_of_absent h.linked habs, h.lookup_of_absent habs, orNull]
    · simp [htRemove_of_match h.linked hm, h.lookup_of_match hm, orNull]
  size := h.size

/-- An operation that writes the key and the value at entry `a` inserts them. -/
theorem insertAt (h : Represents ht m chain) {ht' : Hashtable} {chain' : Nat → List Addr}
    {a value : Addr} (hl : Linked ht' chain') (hcap : ht'.capacity = ht.capacity)
    (hkey : ∀ {i b k v}, Stores ht chain i b k v → (b = a ↔ k = key))
    (hst : ∀ {i b k v}, Stores ht' chain' i b k v ↔ b ≠ a ∧ Stores ht chain i b k v ∨
      b = a ∧ i = hashFunction key ht.capacity ∧ k = key ∧ v = value)
    (hsize : ht'.size = (insert key m.keys).card) :
    Represents ht' (m.insert key value) chain' := by
  apply of_stores hl
  · intro i b k v hb
    rw [hcap]
    rcases hst.mp hb with ⟨-, hb⟩ | ⟨-, rfl, rfl, -⟩
    · exact h.home_of_stores hb
    · rfl
  · intro i b c k v w hb hc
    rcases hst.mp hb with ⟨hba, hb⟩ | ⟨rfl, -, rfl, -⟩ <;>
      rcases hst.mp hc with ⟨hca, hc⟩ | ⟨rfl, -, hk, -⟩
    · exact h.unique_of_stores hb hc
    · exact absurd ((hkey hb).mpr hk) hba
    · exact absurd ((hkey hc).mpr rfl) hca
    · rfl
  · intro k v
    by_cases hk : k = key
    · subst hk
      rw [Finmap.lookup_insert]
      constructor
      · intro hv
        exact ⟨_, a, hst.mpr (.inr ⟨rfl, rfl, rfl, (Option.some.inj hv).symm⟩)⟩
      · rintro ⟨i, b, hb⟩
        rcases hst.mp hb with ⟨hba, hb⟩ | ⟨-, -, -, rfl⟩
        · exact absurd ((hkey hb).mpr rfl) hba
        · rfl
    · rw [Finmap.lookup_insert_of_ne _ hk, h.lookup_iff_stores]
      constructor
      · rintro ⟨i, b, hb⟩
        exact ⟨i, b, hst.mpr (.inl ⟨mt (hkey hb).mp hk, hb⟩)⟩
      · rintro ⟨i, b, hb⟩
        rcases hst.mp hb with ⟨-, hb⟩ | ⟨-, -, hk', -⟩
        · exact ⟨i, b, hb⟩
        · exact absurd hk' hk
  · rw [hsize]
    congr 1
    ext k
    rw [Finmap.mem_keys, Finmap.mem_insert, Finset.mem_insert, Finmap.mem_keys]

/-- An operation that takes the entry of the key away erases the key. -/
theorem eraseAt (h : Represents ht m chain) {ht' : Hashtable} {chain' : Nat → List Addr} {a : Addr}
    (hl : Linked ht' chain') (hcap : ht'.capacity = ht.capacity)
    (hkey : ∀ {i b k v}, Stores ht chain i b k v → (b = a ↔ k = key))
    (hst : ∀ {i b k v}, Stores ht' chain' i b k v ↔ b ≠ a ∧ Stores ht chain i b k v)
    (hsize : ht'.size = (m.keys.erase key).card) : Represents ht' (m.erase key) chain' := by
  apply of_stores hl
  · intro i b k v hb
    rw [hcap]
    exact h.home_of_stores (hst.mp hb).2
  · intro i b c k v w hb hc
    exact h.unique_of_stores (hst.mp hb).2 (hst.mp hc).2
  · intro k v
    by_cases hk : k = key
    · subst hk
      rw [Finmap.lookup_erase]
      refine ⟨by simp, ?_⟩
      rintro ⟨i, b, hb⟩
      obtain ⟨hba, hb⟩ := hst.mp hb
      exact absurd ((hkey hb).mpr rfl) hba
    · rw [Finmap.lookup_erase_ne hk, h.lookup_iff_stores]
      constructor
      · rintro ⟨i, b, hb⟩
        exact ⟨i, b, hst.mpr ⟨mt (hkey hb).mp hk, hb⟩⟩
      · rintro ⟨i, b, hb⟩
        exact ⟨i, b, (hst.mp hb).2⟩
  · rw [hsize, Finmap.keys_erase]

/-- The matched entry is the only one with its key. -/
theorem eq_match_iff (h : Represents ht m chain) {a : Addr} {e : HtEntry} {xs ys : List Addr}
    (hm : FirstMatch ht.entries key (chain (hashFunction key ht.capacity)) xs a e ys) {i : Nat}
    {b v : Addr} {k : CString} (hb : Stores ht chain i b k v) : b = a ↔ k = key := by
  have ha : Stores ht chain (hashFunction key ht.capacity) a key e.value :=
    ⟨by simp [hm.split], e, hm.load, hm.key_eq, rfl⟩
  constructor
  · rintro rfl
    obtain ⟨-, f, hf, rfl, -⟩ := hb
    rw [Option.some.inj (hf.symm.trans hm.load), hm.key_eq]
  · rintro rfl
    obtain rfl := h.home_of_stores hb
    exact h.unique_of_stores hb ha

theorem put_match (h : Represents ht m chain) (value : Addr) {a : Addr} {e : HtEntry}
    {xs ys : List Addr}
    (hm : FirstMatch ht.entries key (chain (hashFunction key ht.capacity)) xs a e ys) :
    Represents (ht.overwrite a e.value value) (m.insert key value) chain := by
  apply h.insertAt (h.linked.overwrite a e.value value) rfl (h.eq_match_iff hm)
    (stores_overwrite h.linked hm)
  rw [Finset.insert_eq_of_mem (h.mem_keys_of_match hm)]
  exact h.size

theorem put_absent (h : Represents ht m chain) (value : Addr)
    (habs : KeyAbsent ht.entries key (chain (hashFunction key ht.capacity))) :
    Represents (ht.addEntry key value) (m.insert key value)
      (Function.update chain (hashFunction key ht.capacity)
        (ht.entries.fresh :: chain (hashFunction key ht.capacity))) := by
  apply h.insertAt (h.linked.addEntry key value) rfl _ (stores_addEntry h.linked)
  · rw [Finset.card_insert_of_notMem, ← h.size]
    · rfl
    · rw [Finmap.mem_keys, ← Finmap.lookup_isSome, h.lookup_of_absent habs]
      simp
  · intro i b k v hb
    obtain ⟨hbi, f, hf, rfl, -⟩ := id hb
    refine iff_of_false (Heap.ne_fresh_of_load hf) fun hk => ?_
    obtain rfl := h.home_of_stores hb
    exact habs b (hk ▸ hbi) f hf hk

theorem remove_match (h : Represents ht m chain) {a : Addr} {e : HtEntry} {xs ys : List Addr}
    (hm : FirstMatch ht.entries key (chain (hashFunction key ht.capacity)) xs a e ys) :
    Represents (ht.unlink (hashFunction key ht.capacity) (xs.getLastD NULL) a e.next)
      (m.erase key) (Function.update chain (hashFunction key ht.capacity) (xs ++ ys)) := by
  apply h.eraseAt (h.linked.unlink hm.split hm.load) (ht.unlink_capacity ..) (h.eq_match_iff hm)
    (stores_unlink h.linked hm.split)
  rw [Finset.card_erase_of_mem (h.mem_keys_of_match hm), ← h.size]
  exact ht.unlink_size ..

theorem erase_absent (h : Represents ht m chain)
    (habs : KeyAbsent ht.entries key (chain (hashFunction key ht.capacity))) :
    m.erase key = m := by
  have hnone := h.lookup_of_absent habs
  apply Finmap.ext_lookup
  intro k
  by_cases hk : k = key
  · subst hk; rw [Finmap.lookup_erase, hnone]
  · rw [Finmap.lookup_erase_ne hk]

/-- A bucket moves to one of the two buckets its keys can hash to. -/
theorem mod_of_movesTo (h : Represents ht m chain) {i j : Nat} (hi : i < ht.capacity)
    (hmv : MovesTo ht (ht.capacity * 2) i j) : j % ht.capacity = i := by
  obtain ⟨head, hload, rfl⟩ := hmv
  rw [hashFunction_double_mod]
  obtain ⟨as, has⟩ : ∃ as, as = chain i := ⟨_, rfl⟩
  have hc := h.linked.chains i hi
  rw [← has] at hc
  cases as with
  | nil => rw [show ht.buckets i = NULL from hc] at hload; simp at hload
  | cons a as =>
    obtain ⟨ha, -⟩ := hc
    rw [ha] at hload
    exact h.home i a head (by simp [← has]) hload

/-- A resize that moves every chain to where all its keys belong keeps the map. -/
theorem resize (h : Represents ht m chain) (hwhole : RehomesWhole ht) :
    ∃ ht' chain', resizeHashtable ht (ht.capacity * 2) = some ht' ∧ Represents ht' m chain' := by
  have hpos : 0 < ht.capacity * 2 := Nat.mul_pos h.linked.capacity_pos Nat.two_pos
  obtain ⟨nb, chain', hres, hlinked, hfrom⟩ := h.linked.resize hpos
  refine ⟨_, chain', hres, hlinked, ?_, ?_, ?_, h.size⟩
  · intro j a e ha he
    rcases hfrom j with ⟨h0, -⟩ | ⟨i, hi, ⟨head, hload, rfl⟩, heq⟩
    · simp [h0] at ha
    · exact hwhole i hi head hload _ (h.linked.chains i hi) a (heq ▸ ha) e he
  · intro j a b e f ha hb he hf hkey
    rcases hfrom j with ⟨h0, -⟩ | ⟨i, hi, -, heq⟩
    · simp [h0] at ha
    · exact h.keys i a b e f (heq ▸ ha) (heq ▸ hb) he hf hkey
  · intro key value
    rw [h.lookup]
    constructor
    · rintro ⟨i, a, e, ha, he, rfl, rfl⟩
      have hi := h.linked.lt_capacity ha
      obtain ⟨head, hload⟩ : ∃ head, ht.entries.load (ht.buckets i) = some head := by
        have hc := h.linked.chains i hi
        obtain ⟨as, has⟩ : ∃ as, as = chain i := ⟨_, rfl⟩
        rw [← has] at hc ha
        cases as with
        | nil => simp at ha
        | cons b as => obtain ⟨hb, v, hv, -⟩ := hc; exact ⟨v, hb ▸ hv⟩
      have hj := hwhole i hi head hload _ (h.linked.chains i hi) a ha e he
      rcases hfrom (hashFunction e.key (ht.capacity * 2)) with ⟨-, hno⟩ | ⟨i', hi', hmv, heq⟩
      · exact absurd ⟨head, hload, hj.symm⟩ (hno i hi)
      · have : i' = i := by
          rw [← h.mod_of_movesTo hi' hmv, hashFunction_double_mod, h.home i a e ha he]
        subst this
        exact ⟨_, a, e, heq ▸ ha, he, rfl, rfl⟩
    · rintro ⟨j, a, e, ha, he, rfl, rfl⟩
      rcases hfrom j with ⟨h0, -⟩ | ⟨i, hi, -, heq⟩
      · simp [h0] at ha
      · exact ⟨i, a, e, heq ▸ ha, he, rfl, rfl⟩

theorem putEntry (h : Represents ht m chain) (key : CString) (value : Addr) :
    ∃ ht' r chain', putEntry ht key value = some (ht', r) ∧
      Represents ht' (m.insert key value) chain' := by
  rcases h.linked.search key with habs | ⟨xs, a, e, ys, hm⟩
  · exact ⟨_, _, _, putEntry_of_absent h.linked value habs, h.put_absent value habs⟩
  · exact ⟨_, _, _, putEntry_of_match h.linked value hm, h.put_match value hm⟩

/-- A step that misplaces no entry keeps the table in step with the map. -/
theorem step (h : Represents ht m chain) {op : HtOp} (hok : StepOk ht op) :
    ∃ ht' r chain', htStep ht op = some (ht', r) ∧ Represents ht' (applyOp m op) chain' := by
  cases op with
  | put key value =>
    by_cases hn : NeedsResize ht
    · obtain ⟨ht₁, chain₁, hres, h₁⟩ := h.resize (hok hn)
      obtain ⟨ht', r, chain', hput, h'⟩ := h₁.putEntry key value
      exact ⟨ht', r, chain', by simp [htStep, htPut, hn, hres, hput], h'⟩
    · obtain ⟨ht', r, chain', hput, h'⟩ := h.putEntry key value
      exact ⟨ht', r, chain', by simp [htStep, htPut, hn, hput], h'⟩
  | get key =>
    exact ⟨ht, orNull (m.lookup key), chain, by simp [htStep, h.observes.get key], h⟩
  | remove key =>
    rcases h.linked.search key with habs | ⟨xs, a, e, ys, hm⟩
    · refine ⟨ht, NULL, chain, htRemove_of_absent h.linked habs, ?_⟩
      simpa [applyOp, h.erase_absent habs] using h
    · exact ⟨_, _, _, htRemove_of_match h.linked hm, h.remove_match hm⟩

/-- After a resize that misplaces an entry, the key of that entry is not found. -/
theorem lost_key (h : Represents ht m chain) (hbad : ¬ RehomesWhole ht) :
    ∃ key ht' chain', resizeHashtable ht (ht.capacity * 2) = some ht' ∧ Linked ht' chain' ∧
      ht'.size = ht.size ∧ key ∈ m ∧ chain' (hashFunction key ht'.capacity) = [] := by
  have hpos : 0 < ht.capacity * 2 := Nat.mul_pos h.linked.capacity_pos Nat.two_pos
  obtain ⟨nb, chain', hres, hlinked, hfrom⟩ := h.linked.resize hpos
  simp only [RehomesWhole, not_forall] at hbad
  obtain ⟨i, hi, head, hload, as, has, a, ha, e, he, hne⟩ := hbad
  obtain rfl := has.unique (h.linked.chains i hi)
  refine ⟨e.key, _, chain', hres, hlinked, rfl, ?_, ?_⟩
  · exact Finmap.mem_iff.mpr ⟨e.value, (h.lookup _ _).mpr ⟨i, a, e, ha, he, rfl, rfl⟩⟩
  · rcases hfrom (hashFunction e.key (ht.capacity * 2)) with ⟨h0, -⟩ | ⟨i', hi', hmv, -⟩
    · exact h0
    · have : i' = i := by
        rw [← h.mod_of_movesTo hi' hmv, hashFunction_double_mod, h.home i a e ha he]
      subst this
      obtain ⟨head', hload', hj⟩ := hmv
      obtain rfl := Option.some.inj (hload.symm.trans hload')
      exact absurd hj.symm hne

/-- A misplacing resize is observable at once: the lost key is not found, or it is the
key being put and is counted twice. -/
theorem put_breaks (h : Represents ht m chain)
    (hvalues : ∀ key value, m.lookup key = some value → value ≠ NULL) (hn : NeedsResize ht)
    (hbad : ¬ RehomesWhole ht) {value r : Addr} {ht' : Hashtable}
    (hput : htPut ht key value = some (ht', r)) : ¬ Observes ht' (m.insert key value) := by
  obtain ⟨lost, ht₁, chain₁, hres, hlinked, hsize, hmem, hempty⟩ := h.lost_key hbad
  have hput₁ : TradeServer.putEntry ht₁ key value = some (ht', r) := by
    simpa [htPut, hn, hres] using hput
  have habs : KeyAbsent ht₁.entries lost (chain₁ (hashFunction lost ht₁.capacity)) := by
    simp [hempty, KeyAbsent]
  intro hobs
  by_cases hk : key = lost
  · subst hk
    rw [putEntry_of_absent hlinked value habs] at hput₁
    obtain ⟨rfl, -⟩ := Prod.mk.inj (Option.some.inj hput₁)
    have hkeys : (m.insert key value).keys = m.keys := by
      ext k
      rw [Finmap.mem_keys, Finmap.mem_insert, Finmap.mem_keys]
      exact or_iff_right_of_imp (fun hk => hk ▸ hmem)
    have := hobs.size
    rw [hkeys, ← h.size] at this
    simp only [Hashtable.addEntry] at this
    omega
  · obtain ⟨v, hv⟩ := Finmap.mem_iff.mp hmem
    have hget := hobs.get lost
    rw [Finmap.lookup_insert_of_ne _ (Ne.symm hk), hv] at hget
    rw [htGet_of_putEntry hlinked hk habs hput₁] at hget
    exact hvalues lost v hv (Option.some.inj hget).symm

end Represents

/-! ## Runs -/

theorem htRun_append (ht : Hashtable) (ops : List HtOp) (op : HtOp) :
    htRun ht (ops ++ [op]) = (htRun ht ops).bind fun ht' => (htStep ht' op).map Prod.fst := by
  simp [htRun, List.foldlM_append]

theorem mapOf_append (ops : List HtOp) (op : HtOp) :
    mapOf (ops ++ [op]) = applyOp (mapOf ops) op := by simp [mapOf]

theorem lookup_mapOf_ne_null {ops : List HtOp} (hops : ∀ op ∈ ops, op.ValueOk) (key : CString)
    (value : Addr) (h : (mapOf ops).lookup key = some value) : value ≠ NULL := by
  induction ops using List.reverseRecOn with
  | nil => simp [mapOf] at h
  | append_singleton ops op ih =>
    have ih' := ih (fun op hop => hops op (by simp [hop]))
    rw [mapOf_append] at h
    cases op with
    | put k v =>
      by_cases hk : key = k
      · subst hk
        rw [applyOp, Finmap.lookup_insert] at h
        obtain rfl := Option.some.inj h
        exact hops (.put key v) (by simp)
      · rw [applyOp, Finmap.lookup_insert_of_ne _ hk] at h
        exact ih' h
    | get k => exact ih' h
    | remove k =>
      by_cases hk : key = k
      · subst hk; simp [applyOp] at h
      · rw [applyOp, Finmap.lookup_erase_ne hk] at h
        exact ih' h

theorem ResizesWhole.prefix {ht : Hashtable} {ops : List HtOp} {op : HtOp}
    (h : ResizesWhole ht (ops ++ [op])) : ResizesWhole ht ops :=
  fun done o hd => h done o (hd.trans (List.prefix_append _ _))

theorem ResizesWhole.concat {ht : Hashtable} {ops : List HtOp} {op : HtOp}
    (h : ResizesWhole ht ops) (hop : ∀ ht', htRun ht ops = some ht' → StepOk ht' op) :
    ResizesWhole ht (ops ++ [op]) := by
  intro done o hd ht' hrun
  rcases List.prefix_concat_iff.mp hd with heq | hlt
  · obtain ⟨rfl, rfl⟩ : done = ops ∧ o = op := by simpa using List.append_inj' heq rfl
    exact hop ht' hrun
  · exact h done o hlt ht' hrun

/-- Along a run without a misplacing resize the table represents the map. -/
theorem represents_htRun (cap : Nat) (free : Bool) {ops : List HtOp}
    (h : ResizesWhole (htInit cap free) ops) :
    ∃ ht chain, htRun (htInit cap free) ops = some ht ∧ Represents ht (mapOf ops) chain := by
  induction ops using List.reverseRecOn with
  | nil => exact ⟨_, _, rfl, represents_htInit cap free⟩
  | append_singleton ops op ih =>
    obtain ⟨ht, chain, hrun, hrep⟩ := ih h.prefix
    obtain ⟨ht', r, chain', hstep, hrep'⟩ := hrep.step (h ops op (List.prefix_refl _) ht hrun)
    exact ⟨ht', chain', by simp [htRun_append, hrun, hstep], by rwa [mapOf_append]⟩

theorem ResizesWhole.of_prefix {ht : Hashtable} {done ops : List HtOp} (h : ResizesWhole ht ops)
    (hp : done <+: ops) : ResizesWhole ht done := fun d o hd => h d o (hd.trans hp)

/-- `ht_put`, `ht_get` and `ht_remove` implement a finite map on exactly the runs in
which no resize moves an entry to a bucket its key does not hash to. -/
theorem htRun_refines_iff (cap : Nat) (free : Bool) (ops : List HtOp)
    (hops : ∀ op ∈ ops, op.ValueOk) :
    RefinesMap (htInit cap free) ops ↔ ResizesWhole (htInit cap free) ops := by
  constructor
  · intro h
    induction ops using List.reverseRecOn with
    | nil => intro done op hd; simp at hd
    | append_singleton ops op ih =>
      have hprev : ResizesWhole (htInit cap free) ops :=
        ih (fun o ho => hops o (by simp [ho])) fun d hd => h d (hd.trans (List.prefix_append _ _))
      intro done o hd ht' hrun
      rcases List.prefix_concat_iff.mp hd with heq | hlt
      · obtain ⟨rfl, rfl⟩ : done = ops ∧ o = op := by
          simpa using List.append_inj' heq rfl
        obtain ⟨ht, chain, hrun', hrep⟩ := represents_htRun cap free hprev
        obtain rfl := Option.some.inj (hrun'.symm.trans hrun)
        cases o with
        | put key value =>
          intro hn
          by_contra hbad
          obtain ⟨ht₂, hrun₂, hobs⟩ := h _ (List.prefix_refl _)
          rw [htRun_append, hrun, Option.bind_some, Option.map_eq_some_iff] at hrun₂
          obtain ⟨⟨ht₃, r⟩, hput, rfl⟩ := hrun₂
          rw [mapOf_append] at hobs
          exact hrep.put_breaks (lookup_mapOf_ne_null fun o ho => hops o (by simp [ho])) hn hbad
            hput hobs
        | get key => trivial
        | remove key => trivial
      · exact hprev done o hlt ht' hrun
  · intro h done hd
    obtain ⟨ht, chain, hrun, hrep⟩ := represents_htRun cap free (h.of_prefix hd)
    exact ⟨ht, hrun, hrep.observes⟩

/-- A step on a table with room keeps its capacity and adds one entry at most. -/
theorem Represents.step_of_room {ht ht' : Hashtable} {m : KeyMap} {chain : Nat → List Addr}
    (h : Represents ht m chain) {op : HtOp} {r : Addr} (hroom : ¬ NeedsResize ht)
    (hstep : htStep ht op = some (ht', r)) :
    ht'.capacity = ht.capacity ∧ ht'.size ≤ ht.size + 1 := by
  cases op with
  | put key value =>
    have hput : TradeServer.putEntry ht key value = some (ht', r) := by
      simpa [htStep, htPut, hroom] using hstep
    rcases h.linked.search key with habs | ⟨xs, a, e, ys, hm⟩
    · rw [putEntry_of_absent h.linked value habs] at hput
      obtain ⟨rfl, -⟩ := Prod.mk.inj (Option.some.inj hput)
      exact ⟨rfl, le_rfl⟩
    · rw [putEntry_of_match h.linked value hm] at hput
      obtain ⟨rfl, -⟩ := Prod.mk.inj (Option.some.inj hput)
      exact ⟨rfl, Nat.le_succ _⟩
  | get key =>
    simp only [htStep, h.observes.get key, Option.map_some, Option.some.injEq, Prod.mk.injEq]
      at hstep
    exact ⟨by rw [← hstep.1], by rw [← hstep.1]; omega⟩
  | remove key =>
    rcases h.linked.search key with habs | ⟨xs, a, e, ys, hm⟩
    · rw [htStep, htRemove_of_absent h.linked habs] at hstep
      obtain ⟨rfl, -⟩ := Prod.mk.inj (Option.some.inj hstep)
      exact ⟨rfl, Nat.le_succ _⟩
    · rw [htStep, htRemove_of_match h.linked hm] at hstep
      obtain ⟨rfl, -⟩ := Prod.mk.inj (Option.some.inj hstep)
      exact ⟨by simp, by simp; omega⟩

/-- Runs too short to pass the load threshold never resize. -/
theorem resizesWhole_of_room (cap : Nat) (free : Bool) {ops : List HtOp}
    (h : 4 * ops.length ≤ 3 * (htInit cap free).capacity) :
    ResizesWhole (htInit cap free) ops ∧ ∀ ht, htRun (htInit cap free) ops = some ht →
      ht.capacity = (htInit cap free).capacity ∧ ht.size ≤ ops.length := by
  induction ops using List.reverseRecOn with
  | nil =>
    refine ⟨fun done op hd => by simp at hd, fun ht hrun => ?_⟩
    obtain rfl := Option.some.inj hrun
    exact ⟨rfl, le_rfl⟩
  | append_singleton ops op ih =>
    simp only [List.length_append, List.length_singleton] at h
    obtain ⟨hprev, hsize⟩ := ih (by omega)
    obtain ⟨ht, chain, hrun, hrep⟩ := represents_htRun cap free hprev
    obtain ⟨hc, hs⟩ := hsize ht hrun
    have hroom : ¬ NeedsResize ht := by unfold NeedsResize; omega
    refine ⟨hprev.concat fun ht' hrun' => ?_, fun ht' hrun' => ?_⟩
    · obtain rfl := Option.some.inj (hrun'.symm.trans hrun)
      cases op with
      | put key value => exact fun hn => absurd hn hroom
      | get key => trivial
      | remove key => trivial
    · rw [htRun_append, hrun, Option.bind_some, Option.map_eq_some_iff] at hrun'
      obtain ⟨⟨ht'', r⟩, hstep, rfl⟩ := hrun'
      obtain ⟨hc', hs'⟩ := hrep.step_of_room hroom hstep
      exact ⟨hc'.trans hc, by simp only [List.length_append, List.length_singleton]; omega⟩

/-- A resize moves no entry apart from its key where keys of one bucket go to one bucket. -/
theorem Represents.rehomesWhole {ht : Hashtable} {m : KeyMap} {chain : Nat → List Addr}
    (h : Represents ht m chain) (hkeys : ∀ k ∈ m.keys, ∀ k' ∈ m.keys,
      hashFunction k ht.capacity = hashFunction k' ht.capacity →
        hashFunction k (ht.capacity * 2) = hashFunction k' (ht.capacity * 2)) :
    RehomesWhole ht := by
  intro i hi head hhead as c a ha e he
  obtain rfl := (h.linked.chains i hi).unique c
  have hfirst : ht.buckets i ∈ chain i := by
    cases hc : chain i with
    | nil => simp [hc] at ha
    | cons b bs =>
      obtain ⟨heq, -⟩ := hc ▸ c
      simp [← heq]
  have hkey : ∀ b f, b ∈ chain i → ht.entries.load b = some f → f.key ∈ m.keys :=
    fun b f hb hf => Finmap.mem_iff.mpr ⟨f.value, (h.lookup _ _).mpr ⟨i, b, f, hb, hf, rfl, rfl⟩⟩
  exact hkeys _ (hkey a e ha he) _ (hkey _ head hfirst hhead)
    ((h.home i a e ha he).trans (h.home i _ head hfirst hhead).symm)

/-- A key as the tests of the table write it. -/
def key (s : String) : CString := .ofBuffer s.toList

/-- Keys `a` and `i` share a bucket of four, and of eight too. -/
theorem htRun_refines_across_resize :
    let ops : List HtOp := [.put (key "a") 11, .put (key "i") 12, .put (key "b") 13] ++
      [.put (key "c") 14]
    RefinesMap (htInit 4 true) ops ∧ (htRun (htInit 4 true) ops).map (·.capacity) = some 8 := by
  intro ops
  have hroom := @resizesWhole_of_room 4 true
    [.put (key "a") 11, .put (key "i") 12, .put (key "b") 13] (by decide)
  refine ⟨(htRun_refines_iff 4 true _ (by decide)).mpr (hroom.1.concat fun ht hrun _ => ?_),
    by decide⟩
  obtain ⟨ht', chain, hrun', h⟩ := represents_htRun 4 true hroom.1
  obtain rfl := Option.some.inj (hrun'.symm.trans hrun)
  refine h.rehomesWhole ?_
  rw [(hroom.2 _ hrun).1]
  decide

/-- Keys `a` and `e` share a bucket of four but not of eight: the fourth `ht_put`
doubles the table, and `a` is gone. -/
theorem htRun_loses_key : ¬ ∀ (cap : Nat) (free : Bool) (ops : List HtOp),
    (∀ op ∈ ops, op.ValueOk) → RefinesMap (htInit cap free) ops := by
  intro h
  let ops : List HtOp := [.put (key "a") 11, .put (key "e") 12, .put (key "b") 13,
      .put (key "c") 14]
  obtain ⟨ht, hrun, hobs⟩ := h 4 false ops (by decide) ops (List.prefix_refl _)
  have hget : (htRun (htInit 4 false) ops).bind (htGet · (key "a")) = some NULL := by decide
  have hmap : (mapOf ops).lookup (key "a") = some 11 := by decide
  rw [hrun, Option.bind_some, hobs.get, hmap] at hget
  exact absurd hget (by decide)

end TradeServer
