import TradeServer.DataStructures.RbTreeDestroy

/-!
# The account of the memory of trees

An insertion allocates a list node, and for a new key a tree node, its list and a dummy as
well; `fix_up` allocates nothing. `Accounted` says that the live objects are those of the
trees and `NIL`, and nothing else.
-/

namespace TradeServer

open Library Heap

/-! ## What an insertion allocates -/

section Live

variable {NIL root root' x z z' : Addr} {h h' : Heap RbtNode} {d : Dir}

theorem sameLive_adopt {child p : Addr} (hu : adopt NIL h child p = some h') : SameLive h h' := by
  unfold adopt at hu
  split_ifs at hu with hc
  · exact .update hu
  · cases hu
    exact .refl h

theorem sameLive_replaceChild {parent y : Addr}
    (hu : replaceChild NIL root h parent x y = some (root', h')) : SameLive h h' := by
  unfold replaceChild at hu
  split_ifs at hu with hp
  · cases hu
    exact .refl h
  · simp only [Option.bind_eq_bind, Option.bind_eq_some_iff, Option.some.injEq] at hu
    obtain ⟨pn, -, h₁, hu, heq⟩ := hu
    cases heq
    exact .update hu

theorem sameLive_rotate (hu : rotate d NIL root h x = some (root', h')) : SameLive h h' := by
  simp only [rotate, Option.bind_eq_bind, Option.bind_eq_some_iff, Option.some.injEq] at hu
  obtain ⟨xn, -, yn, -, h₁, hu₁, h₂, hu₂, xn', -, h₃, hu₃, ⟨root₄, h₄⟩, hu₄, h₅, hu₅, h₆, hu₆,
    heq⟩ := hu
  cases heq
  exact (SameLive.update hu₁).trans <| (sameLive_adopt hu₂).trans <| (SameLive.update hu₃).trans <|
    (sameLive_replaceChild hu₄).trans <| (SameLive.update hu₅).trans <| .update hu₆

theorem sameLive_fixUpOuter (hu : fixUpOuter d NIL root h z = some (root', h')) :
    SameLive h h' := by
  simp only [fixUpOuter, rotateTo_eq, Option.bind_eq_bind, Option.bind_eq_some_iff] at hu
  obtain ⟨zn, -, h₁, hu₁, pn, -, h₂, hu₂, hu₃⟩ := hu
  exact ((SameLive.update hu₁).trans (.update hu₂)).trans (sameLive_rotate hu₃)

theorem sameLive_fixUpRotate (hu : fixUpRotate d NIL root h z = some (root', h', z')) :
    SameLive h h' := by
  simp only [fixUpRotate, rotateTo_eq, Option.bind_eq_bind, Option.bind_eq_some_iff] at hu
  obtain ⟨zn, -, pn, -, hu⟩ := hu
  split_ifs at hu with hc <;>
    simp only [Option.bind_eq_some_iff, Option.some.injEq] at hu
  · obtain ⟨⟨root₁, h₁⟩, hu₁, ⟨root₂, h₂⟩, hu₂, heq⟩ := hu
    cases heq
    exact (sameLive_rotate hu₁).trans (sameLive_fixUpOuter hu₂)
  · obtain ⟨⟨root₁, h₁⟩, hu₁, heq⟩ := hu
    cases heq
    exact sameLive_fixUpOuter hu₁

theorem sameLive_fixUpSide (hu : fixUpSide d NIL root h z = some (root', h', z')) :
    SameLive h h' := by
  simp only [fixUpSide, Option.bind_eq_bind, Option.bind_eq_some_iff] at hu
  obtain ⟨zn, -, pn, -, gn, -, un, -, hu⟩ := hu
  split_ifs at hu with hc
  · simp only [Option.bind_eq_some_iff, Option.some.injEq] at hu
    obtain ⟨h₁, hu₁, h₂, hu₂, h₃, hu₃, heq⟩ := hu
    cases heq
    exact ((SameLive.update hu₁).trans (.update hu₂)).trans (.update hu₃)
  · exact sameLive_fixUpRotate hu

theorem sameLive_fixUp {fuel : Nat} (hu : fixUp NIL fuel root h z = some (root', h')) :
    SameLive h h' := by
  induction fuel generalizing root h z with
  | zero => simp [fixUp] at hu
  | succ fuel ih =>
    simp only [fixUp, Option.bind_eq_bind, Option.bind_eq_some_iff] at hu
    obtain ⟨zn, -, pn, -, hu⟩ := hu
    split_ifs at hu with hc
    · simp only [Option.bind_eq_some_iff] at hu
      obtain ⟨gn, -, ⟨root₁, h₁, z₁⟩, hu₁, hu₂⟩ := hu
      exact (sameLive_fixUpSide hu₁).trans (ih hu₂)
    · simp only [Option.bind_eq_some_iff, Option.some.injEq] at hu
      obtain ⟨h₁, hu₁, heq⟩ := hu
      cases heq
      exact .update hu₁

end Live

/-- One more list node, and with a new key a tree node, a list and a dummy. -/
structure Allocated (m m' : RbHeap) (new : Nat) : Prop where
  nodes : m'.nodes.live.length = m.nodes.live.length + new
  lists : m'.dl.lists.live.length = m.dl.lists.live.length + new
  listNodes : m'.dl.nodes.live.length = m.dl.nodes.live.length + new + 1

theorem length_live_dlListInsert {σ : Type} {m m' : DlHeap} {dlList data : Addr}
    {dataCallback : Option (DataCallback σ)} {s s' : σ} (hne : dlList ≠ NULL)
    (hins : dlListInsert m dlList data dataCallback s = some (m', s')) :
    m'.lists.live.length = m.lists.live.length ∧
      m'.nodes.live.length = m.nodes.live.length + 1 := by
  simp only [dlListInsert, if_neg hne, dlListNewNode, Option.bind_eq_bind,
    Option.bind_eq_some_iff] at hins
  obtain ⟨l, -, ns₁, hu₁, ns₂, hu₂, ls, hu₃, hrest⟩ := hins
  obtain rfl : m' = ⟨ls, ns₂⟩ := by
    cases dataCallback with
    | none => exact (congrArg Prod.fst (Option.some.inj hrest)).symm
    | some callback =>
      simp only [Option.bind_eq_some_iff, Option.some.injEq] at hrest
      obtain ⟨s₁, -, heq⟩ := hrest
      exact (congrArg Prod.fst heq).symm
  exact ⟨(SameLive.update hu₃).length_live,
    ((SameLive.update hu₁).trans (.update hu₂)).length_live.trans length_live_alloc⟩

theorem allocated_rbtNewNode {σ : Type} {m m' : RbHeap} {key data newNode : Addr}
    {dataCallback : Option (DataCallback σ)} {s s' : σ}
    (hnew : rbtNewNode m key data dataCallback s = some (m', newNode, s')) :
    Allocated m m' 1 := by
  simp only [rbtNewNode, Option.bind_eq_bind, Option.bind_eq_some_iff, Option.some.injEq] at hnew
  obtain ⟨⟨dl, s₁⟩, hins, heq⟩ := hnew
  cases heq
  have hne : (dlListInit m.dl).2 ≠ NULL := Nat.pos_iff_ne_zero.mp m.dl.lists.next_pos
  obtain ⟨hlists, hnodes⟩ := length_live_dlListInsert hne hins
  refine ⟨length_live_alloc, hlists.trans length_live_alloc, hnodes.trans ?_⟩
  exact congrArg (· + 1) length_live_alloc

theorem notMem_keys {gs : List BookFrame} {key : Nat}
    (hb : Between key gs) : key ∉ (plug gs (.nil : BookTree)).toList.map Prod.fst := by
  intro hmem
  obtain ⟨b, hb', rfl⟩ := List.mem_map.mp hmem
  rw [toList_plug, ColorTree.toList_nil, List.append_nil, List.mem_append] at hb'
  rcases hb' with hb' | hb'
  · exact lt_irrefl _ (hb.1 b hb')
  · exact lt_irrefl _ (hb.2 b hb')

/-- The search decides whether an insertion allocates: it stops at the key where it is there. -/
theorem Forest.allocated_insert {ι : Type*} {m m' : RbHeap} {root : ι → Addr} {T : ι → BookTree}
    {L : Addr → Option Queue} (F : Forest m root T L) {i : ι} {key : Nat} {data root' : Addr}
    {σ : Type} {dataCallback : Option (DataCallback σ)} {s s' : σ}
    (hins : rbtInsert m (root i) key data dataCallback s = some (m', root', s')) :
    Allocated m m' (if key ∈ (T i).toList.map Prod.fst then 0 else 1) := by
  have H : TreeAt m.nodes m.NIL (root i) (plug [] (T i)) := F.tree i
  have hsearch := searchFor_run H H.size_lt key
  rw [show up m.NIL [] = m.NIL from rfl, ← (F.tree i).root] at hsearch
  have hplug := plug_descend key [] (T i)
  have hgap : Between key ([] : List BookFrame) := ⟨by simp [before], by simp [after]⟩
  have hbetween := between_descend (show Ordered (plug [] (T i)) from F.ordered i) hgap
  obtain ⟨gs, t, hd⟩ : ∃ gs t, descend key [] (T i) = (gs, t) := ⟨_, _, rfl⟩
  rw [hd] at hsearch hplug hbetween
  simp only [plug_nil] at hplug hbetween
  have hTi := F.tree i
  cases t with
  | node c l k v r =>
    obtain rfl : k = key := key_of_descend hd
    rw [← hplug] at hTi
    obtain ⟨hv, -, -⟩ := (stored_plug.mp hTi.stored).1
    have hne : v.addr ≠ m.NIL := hTi.rootAddr_ne_nil (by simp)
    have hmem : (k, v) ∈ (T i).toList := by
      rw [← hplug, toList_plug]
      simp
    obtain ⟨q, hq⟩ := F.listed hmem
    simp only [rbtInsert, hsearch, foundAddr, if_neg hne, hv, if_true, Option.bind_eq_bind,
      Option.bind_some, Option.bind_eq_some_iff, Option.some.injEq] at hins
    obtain ⟨⟨dl, s₁⟩, hins, heq⟩ := hins
    cases heq
    obtain ⟨hlists, hnodes⟩ := length_live_dlListInsert (F.queues.ne_null hq) hins
    rw [if_pos (List.mem_map_of_mem hmem)]
    exact ⟨rfl, hlists, hnodes⟩
  | nil =>
    rw [if_neg (hplug ▸ notMem_keys hbetween)]
    rw [← hplug] at hTi
    cases gs with
    | nil =>
      simp only [rbtInsert, hsearch, foundAddr, up, if_true, Option.bind_eq_bind, Option.bind_some,
        Option.bind_eq_some_iff, Option.some.injEq] at hins
      obtain ⟨⟨m₁, newNode, s₁⟩, hnew, h₁, hu₁, ⟨root₂, h₂⟩, hu₂, heq⟩ := hins
      cases heq
      have A := allocated_rbtNewNode hnew
      exact ⟨((SameLive.update hu₁).trans (sameLive_fixUp hu₂)).length_live.trans A.nodes, A.lists,
        A.listNodes⟩
    | cons f gs =>
      obtain ⟨hkey, -⟩ := side_of_between hbetween
      simp only [rbtInsert, hsearch, foundAddr, up_cons, if_neg hTi.frame_ne_nil, hTi.load_frame,
        cell_key, if_neg hkey, Option.bind_eq_bind, Option.bind_some, Option.bind_eq_some_iff,
        Option.some.injEq] at hins
      obtain ⟨⟨m₁, newNode, s₁⟩, hnew, h₁, hu₁, h₂, hu₂, ⟨root₃, h₃⟩, hu₃, heq⟩ := hins
      cases heq
      have A := allocated_rbtNewNode hnew
      exact ⟨(((SameLive.update hu₁).trans (.update hu₂)).trans
        (sameLive_fixUp hu₃)).length_live.trans A.nodes, A.lists, A.listNodes⟩

/-! ## The account of a memory -/

/-- The live objects are those of the first `n` trees, with the contents `W`, and `NIL`. -/
structure Accounted (m : RbHeap) (n : Nat) (W : Nat → Levels Nat (Addr × Addr)) : Prop where
  nodes : m.nodes.live.length = 1 + ∑ i ∈ Finset.range n, (W i).length
  lists : m.dl.lists.live.length = ∑ i ∈ Finset.range n, (W i).length
  listNodes : m.dl.nodes.live.length =
    ∑ i ∈ Finset.range n, ((W i).length + (W i).items.length)

theorem sum_range_change {f g : Nat → Nat} {n i : Nat} (hi : i < n)
    (h : ∀ j, j ≠ i → g j = f j) :
    ∑ j ∈ Finset.range n, g j + f i = ∑ j ∈ Finset.range n, f j + g i := by
  have hf := Finset.add_sum_erase (Finset.range n) f (Finset.mem_range.mpr hi)
  have hg := Finset.add_sum_erase (Finset.range n) g (Finset.mem_range.mpr hi)
  have hrest : ∑ j ∈ (Finset.range n).erase i, g j = ∑ j ∈ (Finset.range n).erase i, f j :=
    Finset.sum_congr rfl fun j hj => h j (Finset.ne_of_mem_erase hj)
  omega

namespace Accounted

variable {m m' : RbHeap} {n i : Nat} {W W' : Nat → Levels Nat (Addr × Addr)}

/-- A tree changes its share and the memory changes alike. -/
theorem change (A : Accounted m n W) (hi : i < n) (hother : ∀ j, j ≠ i → W' j = W j)
    (hnodes : m'.nodes.live.length + (W i).length = m.nodes.live.length + (W' i).length)
    (hlists : m'.dl.lists.live.length + (W i).length = m.dl.lists.live.length + (W' i).length)
    (hlistNodes : m'.dl.nodes.live.length + ((W i).length + (W i).items.length) =
      m.dl.nodes.live.length + ((W' i).length + (W' i).items.length)) : Accounted m' n W' := by
  have hsum := sum_range_change (f := fun j => (W j).length) (g := fun j => (W' j).length) hi
    fun j hj => by rw [hother j hj]
  have hsum' := sum_range_change (f := fun j => (W j).length + (W j).items.length)
    (g := fun j => (W' j).length + (W' j).items.length) hi fun j hj => by rw [hother j hj]
  obtain ⟨h₁, h₂, h₃⟩ := A
  exact ⟨by omega, by omega, by omega⟩

theorem insert (A : Accounted m n W) (hi : i < n) {key : Nat} {x : Addr × Addr}
    (hsorted : (W i).Sorted) (ha : Allocated m m' (if key ∈ (W i).keys then 0 else 1))
    (hself : W' i = (W i).push key x) (hother : ∀ j, j ≠ i → W' j = W j) :
    Accounted m' n W' := by
  have hlen := Levels.length_push hsorted key x
  have hitems := Levels.length_items_push key x (W i)
  obtain ⟨h₁, h₂, h₃⟩ := ha
  exact A.change hi hother (by rw [hself]; omega) (by rw [hself]; omega) (by rw [hself]; omega)

end Accounted

theorem length_levels (L : Addr → Option Queue) (t : BookTree) :
    (levels L t).length = t.size := by simp [levels, ColorTree.size]

theorem Forest.length_listNodes {ι : Type*} {m : RbHeap} {root : ι → Addr} {T : ι → BookTree}
    {L : Addr → Option Queue} (F : Forest m root T L) (i : ι) :
    (listNodes L (T i)).length = (levels L (T i)).length + (levels L (T i)).items.length := by
  have hL : ∀ b ∈ (T i).toList, ∃ q, L b.2.list = some q := fun b hb => F.listed hb
  simp only [listNodes, levels, Levels.items]
  generalize (T i).toList = bs at hL ⊢
  induction bs with
  | nil => rfl
  | cons b bs ih =>
    obtain ⟨q, hq⟩ := hL b (by simp)
    have hrest := ih fun c hc => hL c (by simp [hc])
    have hhead : q.nodes.length = q.items.length + 1 := by simp [Queue.nodes, Queue.cells]
    simp only [List.flatMap_cons, List.length_append, List.map_cons, List.length_cons, hq,
      Option.elim_some, List.length_map, hhead] at hrest ⊢
    omega

theorem Accounted.destroy {m m' : RbHeap} {n i : Nat} {root : Nat → Addr} {T T' : Nat → BookTree}
    {L L' : Addr → Option Queue} (A : Accounted m n fun j => levels L (T j))
    (F : Forest m root T L) (hi : i < n) (D : TreeDestroyed m m' L (T i)) (hself : T' i = .nil)
    (hother : ∀ j, j ≠ i → levels L' (T' j) = levels L (T j)) :
    Accounted m' n fun j => levels L' (T' j) := by
  have hnodes := D.nodes.length_live (F.tree i).nodup fun p hp =>
    mem_live.mpr ((F.tree i).stored.live hp)
  have hlists := D.lists.length_live (F.nodup_listAddrs i) fun p hp => by
    obtain ⟨b, hb, rfl⟩ := List.mem_map.mp hp
    obtain ⟨q, hq⟩ := F.listed hb
    exact mem_live.mpr ⟨_, (F.queues.stored hq).list⟩
  have hlistNodes := D.listNodes.length_live (F.nodup_listNodes i) fun p hp => by
    obtain ⟨b, hb, hp⟩ := List.mem_flatMap.mp hp
    obtain ⟨q, hq⟩ := F.listed hb
    rw [hq] at hp
    exact mem_live.mpr ((F.queues.stored hq).live hp)
  rw [F.length_listNodes] at hlistNodes
  have haddrs : (addrs (T i)).length = (levels L (T i)).length := by simp [addrs, levels]
  have hlistAddrs : (listAddrs (T i)).length = (levels L (T i)).length := by
    simp [listAddrs, levels]
  have hempty : levels L' (T' i) = [] := by rw [hself]; rfl
  rw [haddrs] at hnodes
  rw [hlistAddrs] at hlists
  refine A.change hi hother ?_ ?_ ?_
  · rw [hempty]
    exact hnodes
  · rw [hempty]
    exact hlists
  · rw [hempty]
    exact hlistNodes

end TradeServer
