import TradeServer.Library.Heap

/-!
# Singly linked chains in a heap

`Chain link h p as` says that following `link` from `p` visits exactly the
addresses `as` and then reaches `NULL`. Chains are acyclic by construction, a
heap has at most one chain from each pointer, and a chain depends on its own
cells only.
-/

namespace TradeServer.Library

variable {α : Type*}

def Chain (link : α → Addr) (h : Heap α) : Addr → List Addr → Prop
  | p, [] => p = NULL
  | p, a :: as => p = a ∧ ∃ v, h.load a = some v ∧ Chain link h (link v) as

namespace Chain

variable {link : α → Addr} {h h' : Heap α} {p : Addr} {as bs : List Addr}

@[simp] theorem nil_iff : Chain link h p [] ↔ p = NULL := Iff.rfl

theorem null_nil : Chain link h NULL [] := rfl

/-- A nonempty chain starts at the pointer. -/
theorem ne_null {a : Addr} (c : Chain link h p (a :: as)) : p ≠ NULL := by
  obtain ⟨rfl, v, hv, -⟩ := c
  exact Heap.ne_null_of_load hv

theorem live (c : Chain link h p as) : ∀ a ∈ as, ∃ v, h.load a = some v := by
  induction as generalizing p with
  | nil => simp
  | cons a as ih =>
    obtain ⟨rfl, v, hv, rest⟩ := c
    intro b hb
    rcases List.mem_cons.mp hb with rfl | hb
    · exact ⟨v, hv⟩
    · exact ih rest b hb

/-- A pointer has one chain only. -/
theorem unique (c : Chain link h p as) (d : Chain link h p bs) : as = bs := by
  induction as generalizing p bs with
  | nil =>
    cases bs with
    | nil => rfl
    | cons b bs => exact absurd c d.ne_null
  | cons a as ih =>
    cases bs with
    | nil => exact absurd d c.ne_null
    | cons b bs =>
      obtain ⟨rfl, v, hv, rest⟩ := c
      obtain ⟨rfl, w, hw, rest'⟩ := d
      obtain rfl : v = w := Option.some.inj (hv.symm.trans hw)
      rw [ih rest rest']

/-- Every address on a chain starts the rest of it. -/
theorem suffix {a : Addr} {xs ys : List Addr} (c : Chain link h p (xs ++ a :: ys)) :
    Chain link h a (a :: ys) := by
  induction xs generalizing p with
  | nil => obtain ⟨rfl, rest⟩ := c; exact ⟨rfl, rest⟩
  | cons x xs ih => obtain ⟨-, v, -, rest⟩ := c; exact ih rest

/-- Chains are acyclic. -/
theorem nodup (c : Chain link h p as) : as.Nodup := by
  induction as generalizing p with
  | nil => exact List.nodup_nil
  | cons a as ih =>
    have hrest := c
    obtain ⟨rfl, v, hv, rest⟩ := hrest
    refine List.nodup_cons.mpr ⟨fun hmem => ?_, ih rest⟩
    obtain ⟨xs, ys, rfl⟩ := List.append_of_mem hmem
    -- the same address would start two chains of different lengths
    have := congrArg List.length (c.unique rest.suffix)
    simp only [List.length_append, List.length_cons] at this
    omega

theorem length_lt (c : Chain link h p as) : as.length < h.next :=
  Heap.length_lt_next c.nodup fun a ha => by
    obtain ⟨v, hv⟩ := c.live a ha
    simp [hv]

/-- A chain survives every change that keeps the links of its own cells. -/
theorem frame (c : Chain link h p as)
    (hf : ∀ a ∈ as, ∀ v, h.load a = some v → ∃ w, h'.load a = some w ∧ link w = link v) :
    Chain link h' p as := by
  induction as generalizing p with
  | nil => exact c
  | cons a as ih =>
    obtain ⟨rfl, v, hv, rest⟩ := c
    obtain ⟨w, hw, hlink⟩ := hf p (by simp) v hv
    refine ⟨rfl, w, hw, ?_⟩
    rw [hlink]
    exact ih rest (fun b hb => hf b (by simp [hb]))

theorem frame_of_eq (c : Chain link h p as) (hf : ∀ a ∈ as, h'.load a = h.load a) :
    Chain link h' p as :=
  c.frame fun a ha v hv => ⟨v, (hf a ha).trans hv, rfl⟩

/-- Pushing a fresh cell in front of a chain. -/
theorem push (c : Chain link h p as) (v : α) (hv : link v = p) :
    Chain link (h.alloc v) h.fresh (h.fresh :: as) := by
  refine ⟨rfl, v, by simp, ?_⟩
  rw [hv]
  apply c.frame_of_eq
  intro a ha
  obtain ⟨w, hw⟩ := c.live a ha
  simp [Heap.ne_fresh_of_load hw]

/-- A chain up to one of its cells goes on with what this cell is linked to. -/
theorem relink {b : Addr} {w : α} {xs ys ds : List Addr} (c : Chain link h p (xs ++ b :: ys))
    (hf : ∀ q ∈ xs, h'.load q = h.load q) (hb : h'.load b = some w)
    (d : Chain link h' (link w) ds) : Chain link h' p (xs ++ b :: ds) := by
  induction xs generalizing p with
  | nil =>
    obtain ⟨rfl, -⟩ := c
    exact ⟨rfl, w, hb, d⟩
  | cons x xs ih =>
    obtain ⟨rfl, v, hv, rest⟩ := c
    exact ⟨rfl, v, (hf p (by simp)).trans hv, ih rest (fun q hq => hf q (by simp [hq]))⟩

/-- Linking the cell before `a` to the cell after it takes `a` off the chain. -/
theorem unlink {b a : Addr} {v : α} {xs ys : List Addr}
    (c : Chain link h p (xs ++ b :: a :: ys)) (ha : h.load a = some v)
    (hb : ∀ w, h.load b = some w → ∃ w', h'.load b = some w' ∧ link w' = link v)
    (hf : ∀ q ∈ xs ++ ys, h'.load q = h.load q) : Chain link h' p (xs ++ b :: ys) := by
  induction xs generalizing p with
  | nil =>
    obtain ⟨rfl, w, hw, -, v', hv', rest⟩ := c
    obtain rfl : v' = v := Option.some.inj (hv'.symm.trans ha)
    obtain ⟨w', hw', hlink⟩ := hb w hw
    refine ⟨rfl, w', hw', ?_⟩
    rw [hlink]
    exact rest.frame_of_eq (fun q hq => hf q (by simpa using hq))
  | cons x xs ih =>
    obtain ⟨rfl, w, hw, rest⟩ := c
    refine ⟨rfl, w, (hf p (by simp)).trans hw, ih rest (fun q hq => hf q ?_)⟩
    simpa using Or.inr (List.mem_append.mp hq)

end Chain

end TradeServer.Library
