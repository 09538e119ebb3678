import TradeServer.DataStructures.RbTreeFixUp
import TradeServer.Library.Levels

/-!
# Forests of red-black trees with a shared sentinel

`Forest m root T L` is the invariant of all trees in one memory: the trees `T i` with their
roots, disjoint from each other, and the contents `L` of their list objects. `levels`
reads a tree as a sorted list of prices with their queues, and `rbt_insert` is a
`push` there.
-/

namespace TradeServer

open Library

/-- A tree as prices with their queues of nodes and data. -/
def levels (L : Addr → Option Queue) (t : BookTree) : Levels Nat (Addr × Addr) :=
  t.toList.map fun b => (b.1, (L b.2.list).elim [] Queue.items)

structure Forest {ι : Type*} (m : RbHeap) (root : ι → Addr) (T : ι → BookTree)
    (L : Addr → Option Queue) : Prop where
  nilBlack : NilBlack m.nodes m.NIL
  tree : ∀ i, TreeAt m.nodes m.NIL (root i) (T i)
  disjoint : ∀ {i j}, i ≠ j → (addrs (T i)).Disjoint (addrs (T j))
  redBlack : ∀ i, (T i).RedBlack
  ordered : ∀ i, Ordered (T i)
  queues : Queues m.dl L
  /-- Every tree node has a list object -/
  listed : ∀ {i b}, b ∈ (T i).toList → ∃ q, L b.2.list = some q
  /-- of its own. -/
  own : ∀ {i j b b'}, b ∈ (T i).toList → b' ∈ (T j).toList → b.2.list = b'.2.list → i = j ∧ b = b'

/-- The address at which a search ends. -/
def foundAddr (NIL : Addr) : List BookFrame × BookTree → Addr
  | (fs, .nil) => up NIL fs
  | (_, .node _ _ _ v _) => v.addr

/-- The loop of `rbt_insert` follows the search of the tree. -/
theorem searchFor_run {h : Heap RbtNode} {NIL root : Addr} {fs : List BookFrame} {t : BookTree}
    (H : TreeAt h NIL root (plug fs t)) {fuel : Nat} (hfuel : t.size < fuel) (key : Nat) :
    searchFor h NIL key fuel (up NIL fs) (rootAddr NIL t) =
      some (foundAddr NIL (descend key fs t)) := by
  induction t generalizing fs fuel with
  | nil =>
    obtain ⟨fuel, rfl⟩ : ∃ k, fuel = k + 1 := ⟨fuel - 1, by omega⟩
    simp [searchFor, descend, foundAddr]
  | node c l k v r ihl ihr =>
    obtain ⟨fuel, rfl⟩ : ∃ k, fuel = k + 1 := ⟨fuel - 1, by omega⟩
    rw [ColorTree.size_node] at hfuel
    obtain ⟨hv, -, -⟩ := (stored_plug.mp H.stored).1
    have hne : v.addr ≠ NIL := H.rootAddr_ne_nil (by simp)
    simp only [searchFor, rootAddr, if_neg hne, hv, Option.bind_eq_bind, Option.bind_some, descend]
    split_ifs with h1 h2
    · rfl
    · exact @ihl (⟨.left, c, k, v, r⟩ :: fs) H fuel (by omega)
    · exact @ihr (⟨.right, c, k, v, l⟩ :: fs) H fuel (by omega)

/-- The frame above the gap of a key compares with the key as its side says. -/
theorem side_of_between {key : Nat} {f : BookFrame} {fs : List BookFrame}
    (h : Between key (f :: fs)) :
    key ≠ f.key ∧ (if key < f.key then Dir.left else .right) = f.dir := by
  obtain ⟨hb, ha⟩ := h
  cases hd : f.dir with
  | left =>
    have : key < f.key := ha (f.key, f.val) (by simp [after, Frame.after, hd])
    exact ⟨this.ne, if_pos this⟩
  | right =>
    have : f.key < key := hb (f.key, f.val) (by simp [before, Frame.before, hd])
    exact ⟨this.ne', if_neg this.not_gt⟩

/-- The new red leaf that `rbt_new_node` makes, with its parent set. -/
def newLeaf (key : Nat) (addr list : Addr) : BookTree := .node .red .nil key ⟨addr, list⟩ .nil

section Leaf

variable {h : Heap RbtNode} {NIL root : Addr} {f : BookFrame} {fs : List BookFrame}

/-- The node at a new leaf is of no tree yet. -/
theorem TreeAt.leaf_fresh (H : TreeAt h NIL root (plug fs .nil)) (hN : NilBlack h NIL) (key : Nat)
    (list : Addr) :
    (∀ q ∈ ctxAddrs fs, q ≠ h.fresh) ∧ (addrs (plug fs (newLeaf key h.fresh list))).Nodup ∧
      NIL ∉ addrs (plug fs (newLeaf key h.fresh list)) := by
  obtain ⟨unset, hN⟩ := hN
  have hNf : NIL ≠ h.fresh := Heap.ne_fresh_of_load hN
  have hfresh : ∀ q ∈ ctxAddrs fs, q ≠ h.fresh := by
    intro q hq
    obtain ⟨n, hn⟩ := H.stored.live (mem_addrs_plug.mpr (.inr hq))
    exact Heap.ne_fresh_of_load hn
  refine ⟨hfresh, ?_, ?_⟩
  · rw [nodup_addrs_plug]
    refine ⟨by simp [addrs, newLeaf], (nodup_addrs_plug.mp H.nodup).2.1, ?_⟩
    simpa [addrs, newLeaf] using fun hc => hfresh _ hc rfl
  · rw [mem_addrs_plug, not_or]
    exact ⟨by simpa [addrs, newLeaf] using hNf, fun hc => H.nil (mem_addrs_plug.mpr (.inr hc))⟩

/-- The first node of a tree. -/
theorem TreeAt.addRoot (H : TreeAt h NIL root .nil) (hN : NilBlack h NIL) (key : Nat)
    (list : Addr) :
    ∃ h', (h.alloc ⟨key, list, .red, NIL, NIL, NIL⟩).update h.fresh (·.setParent NIL) = some h' ∧
      TreeAt h' NIL h.fresh (newLeaf key h.fresh list) ∧ h'.next = h.next + 1 ∧
      ∀ q, q ≠ h.fresh → h'.load q = h.load q := by
  obtain ⟨-, hnd, hnil⟩ := TreeAt.leaf_fresh (show TreeAt _ _ _ (plug [] .nil) from H) hN key list
  refine ⟨_, Heap.update_of_load (v := ⟨key, list, .red, NIL, NIL, NIL⟩) (by simp) _,
    ⟨rfl, ⟨by simp [RbtNode.setParent], trivial, trivial⟩, hnd, hnil⟩, by simp,
    fun q hq => by simp [hq]⟩

/-- Linking a new leaf below a node. -/
theorem TreeAt.addLeaf (H : TreeAt h NIL root (plug (f :: fs) .nil)) (hN : NilBlack h NIL)
    (key : Nat) (list : Addr) :
    ∃ h₁ h', (h.alloc ⟨key, list, .red, NIL, NIL, NIL⟩).update f.val.addr
          (·.setChild f.dir h.fresh) = some h₁ ∧
      h₁.update h.fresh (·.setParent f.val.addr) = some h' ∧
      TreeAt h' NIL root (plug (f :: fs) (newLeaf key h.fresh list)) ∧ h'.next = h.next + 1 ∧
      ∀ q, q ≠ h.fresh → q ∉ ctxAddrs (f :: fs) → h'.load q = h.load q := by
  obtain ⟨hfresh, hnd, hnil⟩ := H.leaf_fresh hN key list
  have hl := H.load_frame
  have hf : f.val.addr ≠ h.fresh := hfresh _ (mem_ctxAddrs_cons.mpr (.inl rfl))
  have hu₁ : (h.alloc ⟨key, list, .red, NIL, NIL, NIL⟩).update f.val.addr
      (·.setChild f.dir h.fresh) = some _ :=
    Heap.update_of_load (by rw [Heap.load_alloc, if_neg hf]; exact hl) _
  have hu₂ : ((h.alloc ⟨key, list, .red, NIL, NIL, NIL⟩).modify f.val.addr
      (·.setChild f.dir h.fresh)).update h.fresh (·.setParent f.val.addr) = some _ :=
    Heap.update_of_load (v := ⟨key, list, .red, NIL, NIL, NIL⟩) (by simp [Ne.symm hf]) _
  refine ⟨_, _, hu₁, hu₂, ⟨?_, stored_plug.mpr ⟨⟨?_, trivial, trivial⟩, ?_⟩, hnd, hnil⟩,
    by simp, ?_⟩
  · rw [H.root]
    exact rootAddr_plug_cons
  · simp [Ne.symm hf, RbtNode.setParent]
  · refine (stored_plug.mp H.stored).2.relink (nodup_addrs_plug.mp H.nodup).2.1 ?_
      fun q hq hqf => ?_
    · simp [hf, rootAddr, newLeaf]
    · simp [hfresh q hq, hqf]
  · intro q hq hqc
    have hqf : q ≠ f.val.addr := fun hc => hqc (mem_ctxAddrs_cons.mpr (.inl hc))
    simp [hq, hqf]

/-- `fix_up` after the new leaf was linked: the tree keeps its order and balance and has one
more binding. -/
theorem TreeAt.fixUp_leaf {key : Nat} {addr list : Addr}
    (H : TreeAt h NIL root (plug fs (newLeaf key addr list))) (hN : NilBlack h NIL)
    (hrb : (plug fs (.nil : BookTree)).RedBlack) (ho : Ordered (plug fs (.nil : BookTree)))
    (hb : Between key fs) :
    ∃ h' root' t', TradeServer.fixUp NIL h.next root h addr = some (root', h') ∧
        TreeAt h' NIL root' t' ∧
      t'.RedBlack ∧ Ordered t' ∧ t'.toList = before fs ++ (key, ⟨addr, list⟩) :: after fs ∧
      Confined (addrs (plug fs (newLeaf key addr list))) h h' := by
  have hsize := H.size_lt
  have hlen := length_add_size_le fs (newLeaf key addr list)
  have hone : (newLeaf key addr list).size = 1 := rfl
  obtain ⟨h', root', hrun, H', c⟩ := H.fixUp rfl hN (topBlack_of_rootColor hrb.rootBlack)
    (show fs.length + 2 ≤ h.next by omega)
  have hlist : ((repair fs (newLeaf key addr list)).setColor .black).toList =
      (plug fs (newLeaf key addr list)).toList := by
    rw [ColorTree.toList_setColor, toList_repair fs (by simp [newLeaf])]
  refine ⟨h', root', _, hrun, H', redBlack_insert hrb key ⟨addr, list⟩, ?_, ?_, c⟩
  · rw [Ordered, hlist]
    exact ho.insert hb rfl
  · rw [hlist, toList_plug]
    simp [newLeaf]

end Leaf

/-- The result of an optional callback. -/
def callbackResult {σ : Type} (dataCallback : Option (DataCallback σ)) (data n : Addr) (s : σ) :
    Option σ := dataCallback.elim (some s) fun callback => callback data n s

/-- A new tree node carries a new list that holds the data. -/
theorem rbtNewNode_run {m : RbHeap} {L : Addr → Option Queue} (hq : Queues m.dl L) (key : Nat)
    (data : Addr) {σ : Type} (dataCallback : Option (DataCallback σ)) (s : σ) :
    ∃ dl' q n, q.items = [(n, data)] ∧ m.dl.nodes.load n = none ∧
      Queues dl' (Function.update L m.dl.lists.fresh (some q)) ∧
      rbtNewNode m key data dataCallback s =
        (dataCallback.elim (some s) (fun callback => callback data n s)).map fun s =>
          (⟨m.NIL, m.nodes.alloc ⟨key, m.dl.lists.fresh, .red, m.NIL, m.NIL, m.NIL⟩, dl'⟩,
            m.nodes.fresh, s) := by
  have hinit := hq.init
  have hlist : (dlListInit m.dl).2 = m.dl.lists.fresh := rfl
  rw [hlist] at hinit
  obtain ⟨dl', hq', hins⟩ := hinit.insert (Function.update_self _ _ _) data dataCallback s
  rw [Function.update_idem] at hq'
  refine ⟨dl', _, (dlListInit m.dl).1.nodes.fresh, rfl, ?_, hq', ?_⟩
  · refine m.dl.nodes.unallocated _ (.inr ?_)
    simp [dlListInit, dlListNewNode, Heap.fresh]
  · have hpair : dlListInit m.dl = ((dlListInit m.dl).1, m.dl.lists.fresh) := rfl
    rw [rbtNewNode, hpair]
    simp only [hins]
    cases dataCallback with
    | none => rfl
    | some callback =>
      cases hc : callback data (dlListInit m.dl).1.nodes.fresh s <;> simp [hc]

/-- One binding as a price with its queue. -/
def level (L : Addr → Option Queue) (b : Nat × Ref) : Nat × List (Addr × Addr) :=
  (b.1, (L b.2.list).elim [] Queue.items)

theorem levels_eq (L : Addr → Option Queue) (t : BookTree) :
    levels L t = t.toList.map (level L) := rfl

theorem map_level_update {L : Addr → Option Queue} {list : Addr} {q : Option Queue}
    {X : List (Nat × Ref)} (h : ∀ b ∈ X, b.2.list ≠ list) :
    X.map (level (Function.update L list q)) = X.map (level L) := by
  apply List.map_congr_left
  intro b hb
  rw [level, level, Function.update_of_ne (h b hb)]

/-- A change of one list object shows in the binding that carries it. -/
theorem levels_update {L : Addr → Option Queue} {t : BookTree} {B A : List (Nat × Ref)}
    {key : Nat} {v : Ref} (ht : t.toList = B ++ (key, v) :: A)
    (hne : ∀ b ∈ B ++ A, b.2.list ≠ v.list) (q : Queue) :
    levels (Function.update L v.list (some q)) t =
      B.map (level L) ++ (key, q.items) :: A.map (level L) := by
  simp only [List.mem_append, or_imp, forall_and] at hne
  rw [levels_eq, ht, List.map_append, List.map_cons, map_level_update hne.1,
    map_level_update hne.2, level, Function.update_self, Option.elim_some]

theorem levels_congr {L L' : Addr → Option Queue} {t : BookTree}
    (h : ∀ b ∈ t.toList, L' b.2.list = L b.2.list) : levels L' t = levels L t :=
  List.map_congr_left fun b hb => by rw [h b hb]

theorem levels_sorted {L : Addr → Option Queue} {t : BookTree} (h : Ordered t) :
    (levels L t).Sorted := List.pairwise_map.mpr h

theorem keys_levels (L : Addr → Option Queue) (t : BookTree) :
    (levels L t).keys = t.toList.map Prod.fst := by simp [levels, Levels.keys]

namespace Forest

variable {ι : Type*} {m : RbHeap} {root : ι → Addr} {T : ι → BookTree}
  {L : Addr → Option Queue}

theorem list_ne_fresh (F : Forest m root T L) {i : ι} {b : Nat × Ref} (hb : b ∈ (T i).toList) :
    b.2.list ≠ m.dl.lists.fresh := by
  intro hc
  obtain ⟨q, hq⟩ := F.listed hb
  rw [hc, F.queues.fresh_list] at hq
  simp at hq

/-- An insertion at a known key appends to its queue. -/
theorem append (F : Forest m root T L) {i : ι} {key : Nat} {v : Ref} {B A : List (Nat × Ref)}
    (hT : (T i).toList = B ++ (key, v) :: A) (data : Addr) {σ : Type}
    (dataCallback : Option (DataCallback σ)) (s : σ) :
    ∃ dl' L', Forest { m with dl := dl' } root T L' ∧
      levels L' (T i) = (levels L (T i)).push key (m.dl.nodes.fresh, data) ∧
      (∀ j, j ≠ i → levels L' (T j) = levels L (T j)) ∧
      dlListInsert m.dl v.list data dataCallback s =
        (dataCallback.elim (some s) (fun callback => callback data m.dl.nodes.fresh s)).map
          (fun s => (dl', s)) := by
  have hv : (key, v) ∈ (T i).toList := by simp [hT]
  obtain ⟨q, hq⟩ := F.listed hv
  obtain ⟨dl', hq', hins⟩ := F.queues.insert hq data dataCallback s
  -- no other node of the forest has this list
  have hother : ∀ {j : ι} {b : Nat × Ref}, b ∈ (T j).toList → (j, b) ≠ (i, (key, v)) →
      b.2.list ≠ v.list := by
    intro j b hb hne heq
    obtain ⟨rfl, rfl⟩ := F.own hb hv heq
    exact hne rfl
  refine ⟨dl', _, ⟨F.nilBlack, F.tree, F.disjoint, F.redBlack, F.ordered, hq', fun {j b} hb => ?_,
    F.own⟩, ?_, fun j hj => ?_, hins⟩
  · by_cases hb' : b.2.list = v.list
    · exact ⟨_, by rw [hb', Function.update_self]⟩
    · rw [Function.update_of_ne hb']
      exact F.listed hb
  · have ho := F.ordered i
    rw [Ordered, hT, List.pairwise_append, List.pairwise_cons] at ho
    obtain ⟨-, ⟨hA, -⟩, hB⟩ := ho
    have hrest : ∀ b ∈ B ++ A, b.2.list ≠ v.list := by
      intro b hb
      rw [List.mem_append] at hb
      apply hother (j := i) (by rw [hT]; rcases hb with hb | hb <;> simp [hb])
      intro hc
      obtain rfl : b = (key, v) := (Prod.mk.inj hc).2
      rcases hb with hb | hb
      · exact absurd (hB _ hb _ (by simp)) (lt_irrefl _)
      · exact absurd (hA _ hb) (lt_irrefl _)
    have hold : levels L (T i) = B.map (level L) ++ (key, q.items) :: A.map (level L) := by
      rw [← levels_update hT hrest q, ← hq, Function.update_eq_self]
    rw [levels_update hT hrest, hold]
    refine (Levels.push_mid fun b hb => ?_).symm
    obtain ⟨c, hc, rfl⟩ := List.mem_map.mp hb
    exact hB c hc (key, v) (by simp)
  · refine levels_congr fun b hb => Function.update_of_ne (hother hb fun hc => ?_) _ _
    exact hj (Prod.mk.inj hc).1

variable [DecidableEq ι]

/-- A relation between any two values of a function, after a change of one of them. -/
theorem forall_update₂ {α : Type*} {f : ι → α} {i : ι} {a : α} {P : ι → ι → α → α → Prop}
    (hself : P i i a a) (hleft : ∀ k, k ≠ i → P i k a (f k)) (hright : ∀ j, j ≠ i → P j i (f j) a)
    (hrest : ∀ j k, j ≠ i → k ≠ i → P j k (f j) (f k)) (j k : ι) :
    P j k (Function.update f i a j) (Function.update f i a k) := by
  by_cases hj : j = i
  · subst hj
    by_cases hk : k = j
    · subst hk
      simpa using hself
    · simpa [Function.update_of_ne hk] using hleft k hk
  · by_cases hk : k = i
    · subst hk
      simpa [Function.update_of_ne hj] using hright j hj
    · simpa [Function.update_of_ne hj, Function.update_of_ne hk] using hrest j k hj hk

/-- One tree is replaced by a tree over its own addresses and new ones. -/
theorem replace (F : Forest m root T L) (m' : RbHeap) {i : ι} {root' : Addr} {t' : BookTree}
    {L' : Addr → Option Queue} (hNIL : m'.NIL = m.NIL) (ht : TreeAt m'.nodes m.NIL root' t')
    (hrb : t'.RedBlack) (ho : Ordered t') (hq : Queues m'.dl L')
    (hnew : ∀ q ∈ addrs t', q ∈ addrs (T i) ∨ m.nodes.load q = none)
    (hframe : ∀ q, q ∉ addrs t' → m'.nodes.load q = m.nodes.load q)
    (hkeep : ∀ p q, L p = some q → ∃ q', L' p = some q')
    (hlisted : ∀ b ∈ t'.toList, ∃ q, L' b.2.list = some q)
    (hown : ∀ b ∈ t'.toList, ∀ b' ∈ t'.toList, b.2.list = b'.2.list → b = b')
    (hothers : ∀ j, j ≠ i → ∀ b ∈ t'.toList, ∀ b' ∈ (T j).toList, b.2.list ≠ b'.2.list) :
    Forest m' (Function.update root i root') (Function.update T i t') L' := by
  have hdis : ∀ j, j ≠ i → (addrs (T j)).Disjoint (addrs t') := by
    intro j hj q hqj hqt
    rcases hnew q hqt with hqi | hqn
    · exact F.disjoint hj hqj hqi
    · obtain ⟨n, hn⟩ := (F.tree j).stored.live hqj
      simp [hqn] at hn
  refine ⟨?_, fun j => ?_, @fun j k => ?_,
    (Function.forall_update_iff T fun _ t => t.RedBlack).mpr ⟨hrb, fun j _ => F.redBlack j⟩,
    (Function.forall_update_iff T fun _ t => Ordered t).mpr ⟨ho, fun j _ => F.ordered j⟩, hq,
    fun {j b} hb => ?_, fun {j k b b'} hb hb' => ?_⟩
  · obtain ⟨unset, hN⟩ := F.nilBlack
    exact ⟨unset, by rw [hNIL, hframe _ ht.nil]; exact hN⟩
  · rw [hNIL]
    by_cases hj : j = i
    · subst hj
      simpa using ht
    · rw [Function.update_of_ne hj, Function.update_of_ne hj]
      exact (F.tree j).frame fun q hqj => hframe q fun hqt => hdis j hj hqj hqt
  · exact forall_update₂ (P := fun j k (s t : BookTree) => j ≠ k → (addrs s).Disjoint (addrs t))
      (fun hne => absurd rfl hne) (fun k hk _ => (hdis k hk).symm) (fun j hj _ => hdis j hj)
      (fun j k _ _ hjk => F.disjoint hjk) j k
  · by_cases hj : j = i
    · subst hj
      exact hlisted b (by simpa using hb)
    · rw [Function.update_of_ne hj] at hb
      obtain ⟨q, hq'⟩ := F.listed hb
      exact hkeep _ q hq'
  · refine forall_update₂ (P := fun j k (s t : BookTree) => ∀ b ∈ s.toList, ∀ b' ∈ t.toList,
      b.2.list = b'.2.list → j = k ∧ b = b') ?_ ?_ ?_ ?_ j k b hb b' hb'
    · exact fun b hb b' hb' heq => ⟨rfl, hown b hb b' hb' heq⟩
    · exact fun k hk b hb b' hb' heq => absurd heq (hothers k hk b hb b' hb')
    · exact fun j hj b hb b' hb' heq => absurd heq.symm (hothers j hj b' hb' b hb)
    · exact fun j k _ _ b hb b' hb' heq => F.own hb hb' heq

section Binding

variable {i : ι} {key : Nat} {B A : List (Nat × Ref)} {t' : BookTree} {q : Queue}
  (hT : (T i).toList = B ++ A)
  (hlist : t'.toList = B ++ (key, ⟨m.nodes.fresh, m.dl.lists.fresh⟩) :: A)

include hT hlist

/-- One tree gets a binding with a new node and a new list object. -/
theorem addBinding (F : Forest m root T L) {h' : Heap RbtNode} {root' : Addr} {dl' : DlHeap}
    (ht : TreeAt h' m.NIL root' t') (hrb : t'.RedBlack) (ho : Ordered t')
    (hQ : Queues dl' (Function.update L m.dl.lists.fresh (some q)))
    (hload : ∀ p, p ∉ addrs t' → h'.load p = m.nodes.load p) :
    Forest ⟨m.NIL, h', dl'⟩ (Function.update root i root') (Function.update T i t')
      (Function.update L m.dl.lists.fresh (some q)) := by
  have hmem : ∀ b ∈ t'.toList, b = (key, ⟨m.nodes.fresh, m.dl.lists.fresh⟩) ∨
      b ∈ (T i).toList := by
    intro b hb
    rw [hlist] at hb
    rw [hT]
    simp only [List.mem_append, List.mem_cons] at hb ⊢
    tauto
  apply F.replace ⟨m.NIL, h', dl'⟩ rfl ht hrb ho hQ
  · intro p hp
    obtain ⟨b, hb, rfl⟩ := List.mem_map.mp hp
    rcases hmem b hb with rfl | hb
    · exact .inr (Heap.load_fresh _)
    · exact .inl (List.mem_map_of_mem hb)
  · exact hload
  · intro p q' hp
    by_cases hpf : p = m.dl.lists.fresh
    · exact ⟨q, by rw [hpf, Function.update_self]⟩
    · exact ⟨q', by rw [Function.update_of_ne hpf]; exact hp⟩
  · intro b hb
    rcases hmem b hb with rfl | hb
    · exact ⟨q, Function.update_self _ _ _⟩
    · rw [Function.update_of_ne (F.list_ne_fresh hb)]
      exact F.listed hb
  · intro b hb b' hb' heq
    rcases hmem b hb with rfl | hb <;> rcases hmem b' hb' with rfl | hb'
    · rfl
    · exact absurd heq.symm (F.list_ne_fresh hb')
    · exact absurd heq (F.list_ne_fresh hb)
    · exact (F.own hb hb' heq).2
  · intro j hj b hb b' hb' heq
    rcases hmem b hb with rfl | hb
    · exact F.list_ne_fresh hb' heq.symm
    · exact hj (F.own hb hb' heq).1.symm

omit [DecidableEq ι] in
/-- The new binding is a new level of its price. -/
theorem levels_addBinding (F : Forest m root T L) (ho : Ordered t') {x : Addr × Addr}
    (hq : q.items = [x]) :
    levels (Function.update L m.dl.lists.fresh (some q)) t' = (levels L (T i)).push key x := by
  have hne : ∀ b ∈ B ++ A, b.2.list ≠ m.dl.lists.fresh :=
    fun b hb => F.list_ne_fresh (i := i) (by rwa [hT])
  rw [Ordered, hlist, List.pairwise_append, List.pairwise_cons] at ho
  obtain ⟨-, ⟨hA, -⟩, hB⟩ := ho
  rw [levels_update hlist hne, hq, levels_eq, hT, List.map_append]
  refine (Levels.push_between (fun b hb => ?_) fun a ha => ?_).symm
  · obtain ⟨c, hc, rfl⟩ := List.mem_map.mp hb
    exact hB c hc _ List.mem_cons_self
  · obtain ⟨c, hc, rfl⟩ := List.mem_map.mp ha
    exact hA c hc

end Binding

/-- The tail of an insertion of a new key: `fix_up` on a tree with a new leaf. -/
theorem insertLeaf (F : Forest m root T L) {i : ι} {key : Nat} {gs : List BookFrame}
    (hT : plug gs .nil = T i) (hb : Between key gs) {h₃ : Heap RbtNode} {root₃ : Addr}
    (H₃ : TreeAt h₃ m.NIL root₃ (plug gs (newLeaf key m.nodes.fresh m.dl.lists.fresh)))
    (hframe : ∀ q, q ≠ m.nodes.fresh → q ∉ ctxAddrs gs → h₃.load q = m.nodes.load q)
    {dl' : DlHeap} {q : Queue} {x : Addr × Addr} (hq : q.items = [x])
    (hQ : Queues dl' (Function.update L m.dl.lists.fresh (some q))) :
    ∃ h' root' t', fixUp m.NIL h₃.next root₃ h₃ m.nodes.fresh = some (root', h') ∧
      Forest ⟨m.NIL, h', dl'⟩ (Function.update root i root') (Function.update T i t')
        (Function.update L m.dl.lists.fresh (some q)) ∧
      levels (Function.update L m.dl.lists.fresh (some q)) t' =
        (levels L (T i)).push key x ∧
      ∀ p, p ∉ addrs t' → h'.load p = m.nodes.load p := by
  have hnil : m.NIL ∉ ctxAddrs gs := by
    intro hc
    exact (F.tree i).nil (hT ▸ mem_addrs_plug.mpr (.inr hc))
  have hN₃ : NilBlack h₃ m.NIL := by
    obtain ⟨unset, hN⟩ := F.nilBlack
    exact ⟨unset, (hframe _ (Heap.ne_fresh_of_load hN) hnil).trans hN⟩
  obtain ⟨h', root', t', hrun, H', hrb, ho, hlist, c⟩ := H₃.fixUp_leaf hN₃
    (by rw [hT]; exact F.redBlack i) (by rw [hT]; exact F.ordered i) hb
  have hTl : (T i).toList = before gs ++ after gs := by
    rw [← hT, toList_plug]
    simp
  have hload : ∀ p, p ∉ addrs t' → h'.load p = m.nodes.load p := by
    intro p hp
    have hp' : p ≠ m.nodes.fresh ∧ p ∉ ctxAddrs gs := by
      simp only [addrs, hlist, List.map_append, List.map_cons, List.mem_append, List.mem_cons,
        not_or] at hp
      simp only [ctxAddrs, List.map_append, List.mem_append, not_or]
      tauto
    refine (c.load fun hc => ?_).trans (hframe p hp'.1 hp'.2)
    rcases mem_addrs_plug.mp hc with hc | hc
    · exact hp'.1 (by simpa [addrs, newLeaf] using hc)
    · exact hp'.2 hc
  exact ⟨h', root', t', hrun, F.addBinding hTl hlist H' hrb ho hQ hload,
    F.levels_addBinding hTl hlist ho hq, hload⟩

/-- What an insertion into tree `i` leaves: the new list node `n` holds the data at the end of
the queue of its key, and the other trees are untouched. -/
structure Inserted (m m' : RbHeap) (root root' : ι → Addr) (T T' : ι → BookTree)
    (L L' : Addr → Option Queue) (i : ι) (key data n : Addr) : Prop where
  forest : Forest m' root' T' L'
  levels_self : levels L' (T' i) = (levels L (T i)).push key (n, data)
  levels_other : ∀ j, j ≠ i → levels L' (T' j) = levels L (T j)
  fresh : m.dl.nodes.load n = none
  nil : m'.NIL = m.NIL ∧ m'.nodes.load m.NIL = m.nodes.load m.NIL
  tree_other : ∀ j, j ≠ i → T' j = T j ∧ root' j = root j ∧
    ∀ p ∈ addrs (T j), m'.nodes.load p = m.nodes.load p

/-- The parts of `Inserted` that hold for a new key, whatever the position. -/
theorem inserted_of_leaf (F : Forest m root T L) {i : ι} {key data n : Nat} {h' : Heap RbtNode}
    {root' : Addr} {t' : BookTree} {dl' : DlHeap} {q : Queue}
    (hn : m.dl.nodes.load n = none)
    (F' : Forest ⟨m.NIL, h', dl'⟩ (Function.update root i root') (Function.update T i t')
      (Function.update L m.dl.lists.fresh (some q)))
    (hlev : levels (Function.update L m.dl.lists.fresh (some q)) t' =
      (levels L (T i)).push key (n, data))
    (hload : ∀ p, p ∉ addrs t' → h'.load p = m.nodes.load p) :
    Inserted m ⟨m.NIL, h', dl'⟩ root (Function.update root i root') T (Function.update T i t') L
      (Function.update L m.dl.lists.fresh (some q)) i key data n where
  forest := F'
  levels_self := by rwa [Function.update_self]
  levels_other j hj := by
    rw [Function.update_of_ne hj]
    exact levels_congr fun b hb => Function.update_of_ne (F.list_ne_fresh hb) _ _
  fresh := hn
  nil := by
    refine ⟨rfl, hload _ ?_⟩
    simpa using (F'.tree i).nil
  tree_other j hj := by
    refine ⟨Function.update_of_ne hj _ _, Function.update_of_ne hj _ _, fun p hp => hload p ?_⟩
    intro hpt
    have := F'.disjoint hj
    rw [Function.update_of_ne hj, Function.update_self] at this
    exact this hp hpt

/-- An insertion succeeds, calls back once with the new list node, and pushes the data. -/
theorem insert (F : Forest m root T L) (i : ι) (key : Nat) (data : Addr) {σ : Type}
    (dataCallback : Option (DataCallback σ)) (s : σ) :
    ∃ m' root' T' L' n,
      rbtInsert m (root i) key data dataCallback s =
        (callbackResult dataCallback data n s).map (fun s => (m', root' i, s)) ∧
      Inserted m m' root root' T T' L L' i key data n := by
  have H : TreeAt m.nodes m.NIL (root i) (plug [] (T i)) := F.tree i
  have hsearch := searchFor_run H H.size_lt key
  rw [show up m.NIL [] = m.NIL from rfl, ← (F.tree i).root] at hsearch
  have hplug := plug_descend key [] (T i)
  have hgap : Between key ([] : List BookFrame) := ⟨by simp [before], by simp [after]⟩
  have hbetween := between_descend (show Ordered (plug [] (T i)) from F.ordered i) hgap
  obtain ⟨gs, s', hd⟩ : ∃ gs s', descend key [] (T i) = (gs, s') := ⟨_, _, rfl⟩
  rw [hd] at hsearch hplug hbetween
  simp only [plug_nil] at hplug hbetween
  have hTi := F.tree i
  cases s' with
  | node c l k v r =>
    -- the key is there
    obtain rfl : k = key := key_of_descend hd
    rw [← hplug] at hTi
    obtain ⟨hv, -, -⟩ := (stored_plug.mp hTi.stored).1
    have hne : v.addr ≠ m.NIL := hTi.rootAddr_ne_nil (by simp)
    have hlist : (T i).toList = (before gs ++ l.toList) ++ (k, v) :: (r.toList ++ after gs) := by
      rw [← hplug, toList_plug]
      simp
    obtain ⟨dl', L', F', hself, hother, hins⟩ := F.append hlist data dataCallback s
    refine ⟨{ m with dl := dl' }, root, T, L', m.dl.nodes.fresh, ?_, F', hself, hother,
      Heap.load_fresh _, ⟨rfl, rfl⟩, fun j hj => ⟨rfl, rfl, fun p hp => rfl⟩⟩
    simp only [rbtInsert, hsearch, foundAddr, if_neg hne, hv, hins, if_true, Option.bind_eq_bind,
      Option.bind_some, callbackResult]
    cases dataCallback.elim (some s) (fun callback => callback data m.dl.nodes.fresh s) <;> rfl
  | nil =>
    obtain ⟨dl', q, n, hq, hn, hQ, hnew⟩ := rbtNewNode_run F.queues key data dataCallback s
    rw [← hplug] at hTi
    cases gs with
    | nil =>
      obtain ⟨h₃, hu, H₃, -, hframe⟩ := hTi.addRoot F.nilBlack key m.dl.lists.fresh
      obtain ⟨h', root', t', hrun, F', hlev, hload⟩ := F.insertLeaf hplug hbetween H₃
        (fun p hp _ => hframe p hp) hq hQ
      refine ⟨_, _, _, _, n, ?_, F.inserted_of_leaf hn F' hlev hload⟩
      simp only [rbtInsert, hsearch, foundAddr, up, if_true, hnew, callbackResult,
        Option.bind_eq_bind, Option.bind_some, Function.update_self]
      cases dataCallback.elim (some s) (fun callback => callback data n s) with
      | none => rfl
      | some s => simp only [Option.map_some, Option.bind_some, hu, hrun]
    | cons f gs =>
      obtain ⟨h₂, h₃, hu₁, hu₂, H₃, -, hframe⟩ := hTi.addLeaf F.nilBlack key m.dl.lists.fresh
      obtain ⟨h', root', t', hrun, F', hlev, hload⟩ := F.insertLeaf hplug hbetween H₃
        hframe hq hQ
      obtain ⟨hkey, hside⟩ := side_of_between hbetween
      have hfl := hTi.load_frame
      have hne := hTi.frame_ne_nil
      refine ⟨_, _, _, _, n, ?_, F.inserted_of_leaf hn F' hlev hload⟩
      simp only [rbtInsert, hsearch, foundAddr, up_cons, if_neg hne, hfl, cell_key, if_neg hkey,
        hside, hnew, callbackResult, Option.bind_eq_bind, Option.bind_some, Function.update_self]
      cases dataCallback.elim (some s) (fun callback => callback data n s) with
      | none => rfl
      | some s => simp only [Option.map_some, Option.bind_some, hu₁, hu₂, hrun]

end Forest

end TradeServer
