import TradeServer.Library.DoublyLinked

/-!
# The queue of `dl_list.c`

A list object and its nodes live in two heaps. The first node is a dummy whose
data is `NULL`; `Queue` names it and the nodes behind it. `Queues m L` says that
the list objects in the domain of `L` are well formed and share no node, and the
operations change `L` at the list they are called on only.
-/

namespace TradeServer

open Library

structure DllNode where
  data : Addr
  prev : Addr
  next : Addr
  deriving DecidableEq

structure DlList where
  head : Addr
  tail : Addr
  iter : Addr
  deriving DecidableEq

structure DlHeap where
  lists : Heap DlList
  nodes : Heap DllNode

def DlHeap.empty : DlHeap := ⟨.empty, .empty⟩

def dlListNewNode (m : DlHeap) (data : Addr) : DlHeap × Addr :=
  ({ m with nodes := m.nodes.alloc ⟨data, NULL, NULL⟩ }, m.nodes.fresh)

def dlListInit (m : DlHeap) : DlHeap × Addr :=
  let (m, head) := dlListNewNode m NULL
  ({ m with lists := m.lists.alloc ⟨head, head, head⟩ }, m.lists.fresh)

/-- A `data_callback`, called with the data and the new node. -/
abbrev DataCallback (σ : Type) := Addr → Addr → σ → Option σ

def dlListInsert {σ : Type} (m : DlHeap) (dlList data : Addr)
    (dataCallback : Option (DataCallback σ))
    (s : σ) : Option (DlHeap × σ) :=
  if dlList = NULL then some (m, s)
  else do
    let l ← m.lists.load dlList
    let (m, newNode) := dlListNewNode m data
    let ns ← m.nodes.update newNode ({ · with prev := l.tail })
    let ns ← ns.update l.tail ({ · with next := newNode })
    let ls ← m.lists.update dlList ({ · with tail := newNode })
    match dataCallback with
    | none => some (⟨ls, ns⟩, s)
    | some callback => do
      let s ← callback data newNode s
      some (⟨ls, ns⟩, s)

def dlListRemove (m : DlHeap) (dlList node : Addr) : Option DlHeap :=
  if node = NULL then some m
  else do
    let l ← m.lists.load dlList
    let m ←
      if node = l.tail then do
        let t ← m.nodes.load l.tail
        let ls ← m.lists.update dlList ({ · with tail := t.prev })
        let ns ← m.nodes.update t.prev ({ · with next := NULL })
        some ⟨ls, ns⟩
      else do
        let n ← m.nodes.load node
        let ns ← m.nodes.update n.prev ({ · with next := n.next })
        let n ← ns.load node
        let ns ← ns.update n.next ({ · with prev := n.prev })
        some { m with nodes := ns }
    let ns ← m.nodes.release node
    some { m with nodes := ns }

/-- What a list object holds: its dummy head, and the nodes behind it with their data. -/
structure Queue where
  head : Addr
  items : List (Addr × Addr)

namespace Queue

/-- All nodes, the dummy first. -/
def cells (q : Queue) : List (Addr × Addr) := (q.head, NULL) :: q.items

def nodes (q : Queue) : List Addr := q.cells.map Prod.fst

def push (q : Queue) (node data : Addr) : Queue := { q with items := q.items ++ [(node, data)] }

def erase (q : Queue) (node : Addr) : Queue :=
  { q with items := q.items.filter (fun x => x.1 ≠ node) }

@[simp] theorem nodes_push (q : Queue) (node data : Addr) :
    (q.push node data).nodes = q.nodes ++ [node] := by simp [nodes, cells, push]

@[simp] theorem head_erase (q : Queue) (node : Addr) : (q.erase node).head = q.head := rfl

theorem mem_nodes {q : Queue} {x : Addr × Addr} (hx : x ∈ q.items) : x.1 ∈ q.nodes :=
  List.mem_map_of_mem (List.mem_cons_of_mem _ hx)

theorem nodes_erase (q : Queue) (node : Addr) : (q.erase node).nodes.Sublist q.nodes := by
  simp only [nodes, cells, erase, List.map_cons]
  exact (List.filter_sublist.map _).cons_cons _

end Queue

/-- The list object at `p` holds `q`. -/
structure QueueAt (m : DlHeap) (p : Addr) (q : Queue) : Prop where
  list : m.lists.load p = some ⟨q.head, lastOr NULL q.cells, q.head⟩
  seg : Seg DllNode.mk m.nodes NULL q.cells NULL
  nodup : q.nodes.Nodup

structure Queues (m : DlHeap) (L : Addr → Option Queue) : Prop where
  stored : ∀ {p q}, L p = some q → QueueAt m p q
  disjoint : ∀ {p p' q q'}, L p = some q → L p' = some q' → p ≠ p' → q.nodes.Disjoint q'.nodes

theorem queues_empty : Queues .empty (fun _ => none) := ⟨by simp, by simp⟩

theorem QueueAt.live {m : DlHeap} {p : Addr} {q : Queue} (h : QueueAt m p q) {a : Addr}
    (ha : a ∈ q.nodes) : ∃ n, m.nodes.load a = some n := h.seg.live a ha

/-- A queue is undisturbed by changes elsewhere. -/
theorem QueueAt.frame {m m' : DlHeap} {p : Addr} {q : Queue} (h : QueueAt m p q)
    (hl : m'.lists.load p = m.lists.load p) (hn : ∀ a ∈ q.nodes, m'.nodes.load a = m.nodes.load a) :
    QueueAt m' p q := ⟨hl.trans h.list, h.seg.frame hn, h.nodup⟩

namespace Queues

variable {m : DlHeap} {L : Addr → Option Queue}

theorem fresh_list (h : Queues m L) : L m.lists.fresh = none := by
  cases hL : L m.lists.fresh with
  | none => rfl
  | some q => exact absurd (h.stored hL).list (by simp)

theorem ne_null (h : Queues m L) {p : Addr} {q : Queue} (hp : L p = some q) : p ≠ NULL :=
  Heap.ne_null_of_load (h.stored hp).list

/-- The common shape of the operations: one queue is replaced, by nodes of its own and new ones,
and the other queues keep their cells. -/
theorem replace (h : Queues m L) {m' : DlHeap} {p : Addr} {q' : Queue} (hq' : QueueAt m' p q')
    (hl : ∀ p', p' ≠ p → (∃ q, L p' = some q) → m'.lists.load p' = m.lists.load p')
    (hn : ∀ p' q, p' ≠ p → L p' = some q → q.nodes.Disjoint q'.nodes ∧
      ∀ a ∈ q.nodes, m'.nodes.load a = m.nodes.load a) :
    Queues m' (Function.update L p (some q')) where
  stored {p₁ q₁} h₁ := by
    by_cases hp : p₁ = p
    · subst hp
      obtain rfl : q' = q₁ := by simpa using h₁
      exact hq'
    · rw [Function.update_of_ne hp] at h₁
      exact (h.stored h₁).frame (hl p₁ hp ⟨q₁, h₁⟩) (hn p₁ q₁ hp h₁).2
  disjoint {p₁ p₂ q₁ q₂} h₁ h₂ hne := by
    by_cases hp₁ : p₁ = p
    · subst hp₁
      obtain rfl : q' = q₁ := by simpa using h₁
      rw [Function.update_of_ne (Ne.symm hne)] at h₂
      exact (hn p₂ q₂ (Ne.symm hne) h₂).1.symm
    · rw [Function.update_of_ne hp₁] at h₁
      by_cases hp₂ : p₂ = p
      · subst hp₂
        obtain rfl : q' = q₂ := by simpa using h₂
        exact (hn p₁ q₁ hp₁ h₁).1
      · rw [Function.update_of_ne hp₂] at h₂
        exact h.disjoint h₁ h₂ hne

theorem ne_fresh (h : Queues m L) {p a : Addr} {q : Queue} (hp : L p = some q)
    (ha : a ∈ q.nodes) : a ≠ m.nodes.fresh := by
  obtain ⟨n, hn⟩ := (h.stored hp).live ha
  exact Heap.ne_fresh_of_load hn

/-- A new list is empty, and its dummy is a new node. -/
theorem init (h : Queues m L) :
    Queues (dlListInit m).1 (Function.update L (dlListInit m).2 (some ⟨m.nodes.fresh, []⟩)) := by
  refine h.replace ⟨?_, ?_, ?_⟩ ?_ ?_
  · simp [dlListInit, dlListNewNode, lastOr, Queue.cells]
  · simp [dlListInit, dlListNewNode, Queue.cells, firstOr]
  · simp [Queue.nodes, Queue.cells]
  · intro p hp _
    have : p ≠ m.lists.fresh := hp
    simp [dlListInit, dlListNewNode, this]
  · intro p q _ hL
    refine ⟨?_, fun a ha => ?_⟩
    · simpa [Queue.nodes, Queue.cells] using fun ha => h.ne_fresh hL ha rfl
    · simp [dlListInit, dlListNewNode, h.ne_fresh hL ha]

/-- Node `t` is the last one of a queue, the dummy when the queue is empty. -/
structure Tail (m : DlHeap) (q : Queue) (us : List (Addr × Addr)) (t d : Addr) : Prop where
  cells : q.cells = us ++ [(t, d)]
  node : m.nodes.load t = some ⟨d, lastOr NULL us, NULL⟩
  ne_fresh : t ≠ m.nodes.fresh
  before : ∀ b ∈ us.map Prod.fst, b ≠ t ∧ b ≠ m.nodes.fresh

theorem tail (h : Queues m L) {p : Addr} {q : Queue} (hp : L p = some q) :
    ∃ us t d, Tail m q us t d := by
  obtain ⟨us, ⟨t, d⟩, hcells⟩ :=
    List.eq_nil_or_concat' q.cells |>.resolve_left (by simp [Queue.cells])
  have hseg := (h.stored hp).seg
  have hnd := (h.stored hp).nodup
  have hmem : ∀ a, a ∈ us.map Prod.fst ∨ a = t → a ∈ q.nodes := by
    intro a ha
    rw [Queue.nodes, hcells]
    simpa using ha
  rw [hcells] at hseg
  simp only [Queue.nodes, hcells, List.map_append, List.map_cons, List.map_nil,
    List.nodup_append, List.mem_singleton] at hnd
  exact ⟨us, t, d, hcells, hseg.load_mid, h.ne_fresh hp (hmem t (.inr rfl)), fun b hb =>
    ⟨hnd.2.2 b hb t rfl, h.ne_fresh hp (hmem b (.inl hb))⟩⟩

theorem Tail.mem {q : Queue} {us : List (Addr × Addr)} {t d : Addr} (ht : Tail m q us t d) :
    t ∈ q.nodes := by simp [Queue.nodes, ht.cells]

/-- The heap after an insertion behind `t`. -/
def pushed (m : DlHeap) (p t data : Addr) : DlHeap :=
  ⟨m.lists.modify p ({ · with tail := m.nodes.fresh }),
    ((m.nodes.alloc ⟨data, NULL, NULL⟩).modify m.nodes.fresh ({ · with prev := t })).modify t
      ({ · with next := m.nodes.fresh })⟩

theorem load_pushed {p t data a : Addr} (hat : a ≠ t) (ha : a ≠ m.nodes.fresh) :
    (pushed m p t data).nodes.load a = m.nodes.load a := by
  simp [pushed, hat, ha]

theorem dlListInsert_run (h : Queues m L) {p : Addr} {q : Queue} (hp : L p = some q)
    {us : List (Addr × Addr)} {t d : Addr} (ht : Tail m q us t d) (data : Addr) {σ : Type}
    (dataCallback : Option (DataCallback σ)) (s : σ) :
    dlListInsert m p data dataCallback s =
      (dataCallback.elim (some s) (fun callback => callback data m.nodes.fresh s)).map
        (fun s => (pushed m p t data, s)) := by
  have hlist := (h.stored hp).list
  have htail : lastOr NULL q.cells = t := by simp [ht.cells, lastOr]
  have hu₁ : (m.nodes.alloc ⟨data, NULL, NULL⟩).update m.nodes.fresh ({ · with prev := t }) =
      some ((m.nodes.alloc ⟨data, NULL, NULL⟩).modify m.nodes.fresh ({ · with prev := t })) :=
    Heap.update_of_load (v := ⟨data, NULL, NULL⟩) (by simp) _
  have hu₂ : ((m.nodes.alloc ⟨data, NULL, NULL⟩).modify m.nodes.fresh
      ({ · with prev := t })).update t ({ · with next := m.nodes.fresh }) = some _ :=
    Heap.update_of_load (v := ⟨d, lastOr NULL us, NULL⟩) (by simp [ht.ne_fresh, ht.node]) _
  have hu₃ := Heap.update_of_load hlist ({ · with tail := m.nodes.fresh })
  simp only [dlListInsert, if_neg (h.ne_null hp), hlist, htail, dlListNewNode,
    Option.bind_eq_bind, Option.bind_some, hu₁, hu₂, hu₃]
  cases dataCallback with
  | none => rfl
  | some callback => cases hc : callback data m.nodes.fresh s <;> simp [hc, pushed]

theorem queueAt_pushed (h : Queues m L) {p : Addr} {q : Queue} (hp : L p = some q)
    {us : List (Addr × Addr)} {t d : Addr} (ht : Tail m q us t d) (data : Addr) :
    QueueAt (pushed m p t data) p (q.push m.nodes.fresh data) := by
  obtain ⟨hlist, hseg, hnd⟩ := h.stored hp
  refine ⟨?_, ?_, ?_⟩
  · simp [pushed, hlist, Queue.push, Queue.cells, lastOr]
  · have hpush : (q.push m.nodes.fresh data).cells =
        us ++ [(t, d)] ++ [(m.nodes.fresh, data)] := by
      rw [← ht.cells]
      rfl
    rw [ht.cells] at hseg
    rw [hpush]
    apply hseg.push
    · simp [pushed, ht.ne_fresh, ht.node]
    · simp [pushed, Ne.symm ht.ne_fresh]
    · intro b hb
      exact load_pushed (ht.before b hb).1 (ht.before b hb).2
  · rw [Queue.nodes_push]
    refine List.nodup_append.mpr ⟨hnd, by simp, fun a ha b hb => ?_⟩
    rw [List.mem_singleton.mp hb]
    exact h.ne_fresh hp ha

/-- An insertion appends one new node and calls back with it. -/
theorem insert (h : Queues m L) {p : Addr} {q : Queue} (hp : L p = some q) (data : Addr)
    {σ : Type} (dataCallback : Option (DataCallback σ)) (s : σ) :
    ∃ m', Queues m' (Function.update L p (some (q.push m.nodes.fresh data))) ∧
      dlListInsert m p data dataCallback s =
        (dataCallback.elim (some s) (fun callback => callback data m.nodes.fresh s)).map
          (fun s => (m', s)) := by
  obtain ⟨us, t, d, ht⟩ := h.tail hp
  refine ⟨pushed m p t data, ?_, h.dlListInsert_run hp ht data dataCallback s⟩
  apply h.replace (h.queueAt_pushed hp ht data)
  · intro p' hp' _
    simp [pushed, hp']
  · intro p' q' hp' hL
    have hdis := h.disjoint hL hp hp'
    refine ⟨?_, fun a ha => ?_⟩
    · rw [Queue.nodes_push, List.disjoint_append_right]
      exact ⟨hdis, by simpa using fun hmem => h.ne_fresh hL hmem rfl⟩
    · have hat : a ≠ t := fun hat => hdis ha (hat ▸ ht.mem)
      exact load_pushed hat (h.ne_fresh hL ha)

/-- The dummy head points at the first item. -/
theorem load_head (h : Queues m L) {p : Addr} {q : Queue} (hp : L p = some q) :
    m.nodes.load q.head = some ⟨NULL, NULL, firstOr NULL q.items⟩ := (h.stored hp).seg.1

/-- Each item points at the one behind it. -/
theorem load_item (h : Queues m L) {p : Addr} {q : Queue} (hp : L p = some q)
    {xs ys : List (Addr × Addr)} {a d : Addr} (hq : q.items = xs ++ (a, d) :: ys) :
    ∃ prev, m.nodes.load a = some ⟨d, prev, firstOr NULL ys⟩ := by
  have hseg := (h.stored hp).seg
  rw [Queue.cells, hq, ← List.cons_append] at hseg
  exact ⟨_, hseg.load_mid⟩

theorem erase_items (h : Queues m L) {p : Addr} {q : Queue} (hp : L p = some q)
    {xs ys : List (Addr × Addr)} {a d : Addr} (hq : q.items = xs ++ (a, d) :: ys) :
    (q.erase a).items = xs ++ ys := by
  have hnd := (h.stored hp).nodup
  simp only [Queue.nodes, Queue.cells, hq, List.map_cons, List.map_append, List.nodup_cons,
    List.nodup_append, List.mem_map, List.mem_cons] at hnd
  obtain ⟨-, -, ⟨ha, -⟩, hxs⟩ := hnd
  have hx : ∀ x ∈ xs, x.1 ≠ a := fun x hx => hxs x.1 ⟨x, hx, rfl⟩ a (.inl rfl)
  have hy : ∀ y ∈ ys, y.1 ≠ a := fun y hy hya => ha ⟨y, hy, hya⟩
  simp only [Queue.erase, hq, List.filter_append, List.filter_cons, ne_eq, not_true_eq_false,
    decide_false, Bool.false_eq_true, if_false]
  rw [List.filter_eq_self.mpr (by simpa using hx), List.filter_eq_self.mpr (by simpa using hy)]

/-- Node `a` of a queue, behind node `l`. -/
structure Behind (m : DlHeap) (q : Queue) (us : List (Addr × Addr)) (l e a d : Addr)
    (ys : List (Addr × Addr)) : Prop where
  cells : q.cells = us ++ (l, e) :: (a, d) :: ys
  erased : (q.erase a).cells = us ++ (l, e) :: ys
  left : m.nodes.load l = some ⟨e, lastOr NULL us, a⟩
  node : m.nodes.load a = some ⟨d, l, firstOr NULL ys⟩
  ne : l ≠ a
  left_notMem : l ∉ ys.map Prod.fst
  notMem : a ∉ ys.map Prod.fst
  before : ∀ b ∈ us.map Prod.fst, b ≠ l ∧ b ≠ a ∧ b ∉ ys.map Prod.fst

/-- Every item is behind a node, the first one behind the dummy. -/
theorem behind (h : Queues m L) {p : Addr} {q : Queue} (hp : L p = some q)
    {xs ys : List (Addr × Addr)} {a d : Addr} (hq : q.items = xs ++ (a, d) :: ys) :
    ∃ us l e, Behind m q us l e a d ys := by
  obtain ⟨us, l, e, hus⟩ : ∃ us l e, (q.head, NULL) :: xs = us ++ [(l, e)] := by
    obtain ⟨us, x, hx⟩ := List.eq_nil_or_concat' ((q.head, NULL) :: xs) |>.resolve_left (by simp)
    exact ⟨us, x.1, x.2, hx⟩
  have hcells : q.cells = us ++ (l, e) :: (a, d) :: ys := by
    rw [Queue.cells, hq, ← List.cons_append, hus]
    simp
  have hcells' : (q.erase a).cells = us ++ (l, e) :: ys := by
    rw [Queue.cells, h.erase_items hp hq, ← List.cons_append, Queue.head_erase, hus]
    simp
  have hseg := (h.stored hp).seg
  have hnd := (h.stored hp).nodup
  rw [hcells] at hseg
  rw [Queue.nodes, hcells] at hnd
  simp only [List.map_append, List.map_cons, List.nodup_append, List.nodup_cons,
    List.mem_cons, not_or] at hnd
  obtain ⟨-, ⟨⟨hla, hlys⟩, hays, -⟩, hdis⟩ := hnd
  refine ⟨us, l, e, hcells, hcells', hseg.load_mid, ?_, hla, hlys, hays, fun b hb => ?_⟩
  · simpa using (Seg.append_iff.mp hseg).2.2.1
  · exact ⟨hdis b hb l (.inl rfl), hdis b hb a (.inr (.inl rfl)),
      fun hmem => hdis b hb b (.inr (.inr hmem)) rfl⟩

theorem Behind.mem_nodes {q : Queue} {us ys : List (Addr × Addr)} {l e a d : Addr}
    (hB : Behind m q us l e a d ys) (b : Addr) :
    b ∈ q.nodes ↔ b ∈ us.map Prod.fst ∨ b = l ∨ b = a ∨ b ∈ ys.map Prod.fst := by
  rw [Queue.nodes, hB.cells]
  simp

/-- The node behind `a`, and the nodes that are none of the three. -/
theorem Behind.right {q : Queue} {us ys : List (Addr × Addr)} {l e a d r f p : Addr}
    (hB : Behind m q us l e a d ((r, f) :: ys)) (hs : QueueAt m p q) :
    m.nodes.load r = some ⟨f, a, firstOr NULL ys⟩ ∧ l ≠ r ∧ a ≠ r ∧
      ∀ b ∈ (us ++ ys).map Prod.fst, b ≠ l ∧ b ≠ a ∧ b ≠ r := by
  have hseg := hs.seg
  have hnd := hs.nodup
  have hbefore := hB.before
  have hleft := hB.left_notMem
  have hnot := hB.notMem
  rw [hB.cells] at hseg
  rw [Queue.nodes, hB.cells] at hnd
  have hys : r ∉ ys.map Prod.fst := by
    simp only [List.map_append, List.map_cons, List.nodup_append, List.nodup_cons] at hnd
    exact hnd.2.1.2.2.1
  simp only [List.map_cons, List.mem_cons, not_or] at hleft hnot hbefore
  refine ⟨by simpa using (Seg.append_iff.mp hseg).2.2.2.1, hleft.1, hnot.1, fun b hb => ?_⟩
  obtain hb | hb := List.mem_append.mp (List.map_append ▸ hb)
  · exact ⟨(hbefore b hb).1, (hbefore b hb).2.1, (hbefore b hb).2.2.1⟩
  · exact ⟨ne_of_mem_of_not_mem hb hleft.2, ne_of_mem_of_not_mem hb hnot.2,
      ne_of_mem_of_not_mem hb hys⟩

/-- An operation on the nodes of one queue that leaves the queue without `a`. -/
theorem erased (h : Queues m L) {p : Addr} {q : Queue} (hp : L p = some q) {m' : DlHeap} {a : Addr}
    (hm' : QueueAt m' p (q.erase a)) (hlists : ∀ p', p' ≠ p → m'.lists.load p' = m.lists.load p')
    (hnodes : ∀ b, b ∉ q.nodes → m'.nodes.load b = m.nodes.load b) :
    Queues m' (Function.update L p (some (q.erase a))) := by
  apply h.replace hm' (fun p' hp' _ => hlists p' hp')
  intro p' q' hp' hL
  have hdis := h.disjoint hL hp hp'
  exact ⟨fun b hb hb' => hdis hb ((Queue.nodes_erase q a).subset hb'),
    fun b hb => hnodes b (fun hb' => hdis hb hb')⟩

theorem remove_last (h : Queues m L) {p : Addr} {q : Queue} (hp : L p = some q)
    {us : List (Addr × Addr)} {l e a d : Addr} (hB : Behind m q us l e a d []) :
    ∃ m', dlListRemove m p a = some m' ∧ Queues m' (Function.update L p (some (q.erase a))) ∧
      m'.nodes.load a = none := by
  have hs := h.stored hp
  have htail : lastOr NULL q.cells = a := by simp [hB.cells, lastOr]
  refine ⟨⟨m.lists.modify p ({ · with tail := l }),
    (m.nodes.modify l ({ · with next := NULL })).free a⟩, ?_, h.erased hp ⟨?_, ?_, ?_⟩ ?_ ?_, ?_⟩
  · have hu₁ := Heap.update_of_load hs.list ({ · with tail := l })
    have hu₂ := Heap.update_of_load hB.left ({ · with next := NULL })
    have hu₃ : (m.nodes.modify l ({ · with next := NULL })).release a = some _ :=
      Heap.release_of_load (v := ⟨d, l, NULL⟩) (by simp [Ne.symm hB.ne, hB.node, firstOr])
    simp only [dlListRemove, if_neg (Heap.ne_null_of_load hB.node), hs.list, htail, hB.node,
      Option.bind_eq_bind, Option.bind_some, if_true, hu₁, hu₂, hu₃]
  · have hlast : lastOr NULL (us ++ [(l, e)]) = l := by simp [lastOr]
    simp [hs.list, hB.erased, hlast]
  · have hseg : Seg DllNode.mk m.nodes NULL (us ++ [(l, e)] ++ [(a, d)]) NULL := by
      simpa [hB.cells] using hs.seg
    rw [hB.erased]
    refine hseg.dropLast ?_ fun b hb => ?_
    · simp [hB.ne, hB.left]
    · simp [hB.before b hb]
  · exact hs.nodup.sublist (Queue.nodes_erase q a)
  · intro p' hp'
    simp [hp']
  · intro b hb
    rw [hB.mem_nodes] at hb
    push Not at hb
    simp [hb.2.1, hb.2.2.1]
  · simp

theorem remove_inner (h : Queues m L) {p : Addr} {q : Queue} (hp : L p = some q)
    {us ys : List (Addr × Addr)} {l e a d r f : Addr} (hB : Behind m q us l e a d ((r, f) :: ys)) :
    ∃ m', dlListRemove m p a = some m' ∧ Queues m' (Function.update L p (some (q.erase a))) ∧
      m'.nodes.load a = none := by
  have hs := h.stored hp
  have hseg : Seg DllNode.mk m.nodes NULL (us ++ (l, e) :: (a, d) :: (r, f) :: ys) NULL :=
    hB.cells ▸ hs.seg
  obtain ⟨hr, hlr, har, hothers⟩ := hB.right hs
  have htail : a ≠ lastOr NULL q.cells := by
    have hlast : lastOr NULL q.cells = lastOr NULL ((r, f) :: ys) := by simp [hB.cells, lastOr]
    rw [hlast]
    exact (ne_of_mem_of_not_mem (lastOr_mem NULL (r, f) ys) hB.notMem).symm
  refine ⟨{ m with nodes := ((m.nodes.modify l ({ · with next := r })).modify r
    ({ · with prev := l })).free a }, ?_, h.erased hp ⟨?_, ?_, ?_⟩ ?_ ?_, ?_⟩
  · have hu₁ : m.nodes.update l ({ · with next := r }) = some _ := Heap.update_of_load hB.left _
    have ha₁ : (m.nodes.modify l ({ · with next := r })).load a = some ⟨d, l, r⟩ := by
      simp [Ne.symm hB.ne, hB.node, firstOr]
    have hu₂ : (m.nodes.modify l ({ · with next := r })).update r ({ · with prev := l }) =
        some _ :=
      Heap.update_of_load (v := ⟨f, a, firstOr NULL ys⟩) (by simp [Ne.symm hlr, hr]) _
    have hu₃ : ((m.nodes.modify l ({ · with next := r })).modify r
        ({ · with prev := l })).release a = some _ :=
      Heap.release_of_load (v := ⟨d, l, r⟩) (by simp [Ne.symm hB.ne, har, hB.node, firstOr])
    simp only [dlListRemove, if_neg (Heap.ne_null_of_load hB.node), hs.list, if_neg htail, hB.node,
      firstOr, Option.bind_eq_bind, Option.bind_some, hu₁, ha₁, hu₂, hu₃]
  · have hlast : lastOr NULL (q.erase a).cells = lastOr NULL q.cells := by
      simp [hB.cells, hB.erased, lastOr]
    simpa [hlast] using hs.list
  · rw [hB.erased]
    refine hseg.unlink ?_ ?_ fun b hb => ?_
    · simp [hB.ne, hlr, hB.left]
    · simp [Ne.symm hlr, Ne.symm har, hr]
    · simp [hothers b hb]
  · exact hs.nodup.sublist (Queue.nodes_erase q a)
  · exact fun _ _ => rfl
  · intro b hb
    rw [hB.mem_nodes] at hb
    simp only [List.map_cons, List.mem_cons] at hb
    push Not at hb
    simp [hb.2.1, hb.2.2.1, hb.2.2.2.1]
  · simp

/-- A removal takes out one node and frees it. -/
theorem remove (h : Queues m L) {p : Addr} {q : Queue} (hp : L p = some q)
    {xs ys : List (Addr × Addr)} {a d : Addr} (hq : q.items = xs ++ (a, d) :: ys) :
    ∃ m', dlListRemove m p a = some m' ∧ Queues m' (Function.update L p (some (q.erase a))) ∧
      m'.nodes.load a = none := by
  obtain ⟨us, l, e, hB⟩ := h.behind hp hq
  cases ys with
  | nil => exact h.remove_last hp hB
  | cons y ys => exact h.remove_inner hp hB

end Queues

end TradeServer
