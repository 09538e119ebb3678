import TradeServer.Library.Chain

/-!
# Doubly linked segments in a heap

`Seg mk h prev xs next` lists the cells of a segment exactly: the cell at each
address of `xs` is `mk` of its data, its predecessor and its successor, where
`prev` and `next` are the neighbors at the two ends.
-/

namespace TradeServer.Library

variable {α δ : Type*}

/-- The first address of `xs`, or `next` past its end. -/
def firstOr (next : Addr) : List (Addr × δ) → Addr
  | [] => next
  | x :: _ => x.1

/-- The last address of `xs`, or `prev` before its start. -/
def lastOr (prev : Addr) : List (Addr × δ) → Addr
  | [] => prev
  | x :: xs => lastOr x.1 xs

def Seg (mk : δ → Addr → Addr → α) (h : Heap α) : Addr → List (Addr × δ) → Addr → Prop
  | _, [], _ => True
  | prev, (a, d) :: xs, next => h.load a = some (mk d prev (firstOr next xs)) ∧ Seg mk h a xs next

@[simp] theorem firstOr_nil (next : Addr) : firstOr next ([] : List (Addr × δ)) = next := rfl

@[simp] theorem firstOr_cons (next : Addr) (x : Addr × δ) (xs : List (Addr × δ)) :
    firstOr next (x :: xs) = x.1 := rfl

@[simp] theorem firstOr_append (next : Addr) (xs ys : List (Addr × δ)) :
    firstOr next (xs ++ ys) = firstOr (firstOr next ys) xs := by cases xs <;> rfl

@[simp] theorem lastOr_append (prev : Addr) (xs ys : List (Addr × δ)) :
    lastOr prev (xs ++ ys) = lastOr (lastOr prev xs) ys := by
  induction xs generalizing prev with
  | nil => rfl
  | cons x xs ih => exact ih x.1

theorem lastOr_mem (prev : Addr) (x : Addr × δ) (xs : List (Addr × δ)) :
    lastOr prev (x :: xs) ∈ (x :: xs).map Prod.fst := by
  induction xs generalizing x prev with
  | nil => simp [lastOr]
  | cons y ys ih => exact List.mem_cons_of_mem _ (ih x.1 y)

namespace Seg

variable {mk : δ → Addr → Addr → α} {h h' : Heap α} {prev next : Addr} {xs ys : List (Addr × δ)}

@[simp] theorem nil : Seg mk h prev [] next := trivial

@[simp] theorem cons_iff {a : Addr} {d : δ} :
    Seg mk h prev ((a, d) :: xs) next ↔
      h.load a = some (mk d prev (firstOr next xs)) ∧ Seg mk h a xs next := Iff.rfl

/-- A segment splits at any place; the halves are each other's neighbors. -/
theorem append_iff :
    Seg mk h prev (xs ++ ys) next ↔
      Seg mk h prev xs (firstOr next ys) ∧ Seg mk h (lastOr prev xs) ys next := by
  induction xs generalizing prev with
  | nil => simp [lastOr]
  | cons x xs ih =>
    obtain ⟨a, d⟩ := x
    simp only [List.cons_append, cons_iff, firstOr_append, ih, and_assoc, lastOr]

theorem live (s : Seg mk h prev xs next) : ∀ a ∈ xs.map Prod.fst, ∃ v, h.load a = some v := by
  induction xs generalizing prev with
  | nil => simp
  | cons x xs ih =>
    obtain ⟨a, d⟩ := x
    obtain ⟨hv, rest⟩ := s
    intro b hb
    rcases List.mem_cons.mp hb with rfl | hb
    · exact ⟨_, hv⟩
    · exact ih rest b hb

/-- A segment depends on its own cells only. -/
theorem frame (s : Seg mk h prev xs next) (hf : ∀ a ∈ xs.map Prod.fst, h'.load a = h.load a) :
    Seg mk h' prev xs next := by
  induction xs generalizing prev with
  | nil => trivial
  | cons x xs ih =>
    obtain ⟨a, d⟩ := x
    obtain ⟨hv, rest⟩ := s
    refine ⟨(hf a (by simp)).trans hv, ih rest (fun b hb => hf b ?_)⟩
    simp only [List.map_cons, List.mem_cons]
    exact Or.inr hb

/-- Each cell sits between its neighbors. -/
theorem load_mid {a : Addr} {d : δ} (s : Seg mk h prev (xs ++ (a, d) :: ys) next) :
    h.load a = some (mk d (lastOr prev xs) (firstOr next ys)) :=
  (append_iff.mp s).2.1

/-- A node linked behind the last one extends the segment. -/
theorem push {l a : Addr} {d e : δ} (s : Seg mk h prev (xs ++ [(l, d)]) NULL)
    (hl : h'.load l = some (mk d (lastOr prev xs) a)) (ha : h'.load a = some (mk e l NULL))
    (hf : ∀ b ∈ xs.map Prod.fst, h'.load b = h.load b) :
    Seg mk h' prev (xs ++ [(l, d)] ++ [(a, e)]) NULL := by
  obtain ⟨hxs, -, -⟩ := append_iff.mp s
  rw [List.append_assoc, append_iff]
  exact ⟨hxs.frame hf, hl, ha, trivial⟩

/-- Unlinking the last node. -/
theorem dropLast {l a : Addr} {d e : δ} (s : Seg mk h prev (xs ++ [(l, d)] ++ [(a, e)]) NULL)
    (hl : h'.load l = some (mk d (lastOr prev xs) NULL))
    (hf : ∀ b ∈ xs.map Prod.fst, h'.load b = h.load b) : Seg mk h' prev (xs ++ [(l, d)]) NULL := by
  rw [List.append_assoc, append_iff] at s
  exact append_iff.mpr ⟨s.1.frame hf, hl, trivial⟩

/-- Linking both neighbors of a node to each other takes it off the segment. -/
theorem unlink {l a r : Addr} {d e f : δ}
    (s : Seg mk h prev (xs ++ (l, d) :: (a, e) :: (r, f) :: ys) next)
    (hl : h'.load l = some (mk d (lastOr prev xs) r))
    (hr : h'.load r = some (mk f l (firstOr next ys)))
    (hf : ∀ b ∈ (xs ++ ys).map Prod.fst, h'.load b = h.load b) :
    Seg mk h' prev (xs ++ (l, d) :: (r, f) :: ys) next := by
  simp only [List.map_append, List.mem_append] at hf
  obtain ⟨hxs, -, -, -, hys⟩ := append_iff.mp s
  exact append_iff.mpr ⟨hxs.frame fun b hb => hf b (.inl hb), hl, hr,
    hys.frame fun b hb => hf b (.inr hb)⟩

/-- The walk along the successors, from the first cell on. -/
theorem chain_next {link : α → Addr} (hlink : ∀ d p n, link (mk d p n) = n)
    (s : Seg mk h prev xs NULL) : Chain link h (firstOr NULL xs) (xs.map Prod.fst) := by
  induction xs generalizing prev with
  | nil => rfl
  | cons x xs ih =>
    obtain ⟨a, d⟩ := x
    obtain ⟨hv, rest⟩ := s
    refine ⟨rfl, _, hv, ?_⟩
    rw [hlink]
    exact ih rest

/-- The walk along the predecessors, from the last cell back. -/
theorem chain_prev {link : α → Addr} (hlink : ∀ d p n, link (mk d p n) = p)
    (s : Seg mk h NULL xs next) : Chain link h (lastOr NULL xs) (xs.map Prod.fst).reverse := by
  induction xs using List.reverseRecOn generalizing next with
  | nil => rfl
  | append_singleton xs x ih =>
    obtain ⟨a, d⟩ := x
    obtain ⟨hxs, hv, -⟩ := append_iff.mp s
    rw [lastOr_append, List.map_append, List.reverse_append]
    refine ⟨rfl, _, hv, ?_⟩
    rw [hlink]
    exact ih hxs

end Seg

end TradeServer.Library
