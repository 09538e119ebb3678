import Mathlib.Algebra.BigOperators.Group.Finset.Basic
import TradeServer.Library.HeapObjects

/-!
# What a program frees

`Freed S h h'` says that a program took exactly the objects at `S` out of the heap. Programs
one after another free the objects of both. `SameLive` is the part of a program that only
writes to objects. Both say how many objects are left, and owners whose shares add up to this
number have all live objects.
-/

namespace TradeServer.Library.Heap

variable {α : Type*} {h h₁ h₂ : Heap α} {S S' : List Addr} {p : Addr} {v : α}

structure Freed (S : List Addr) (h h' : Heap α) : Prop where
  next : h'.next = h.next
  load : ∀ q, h'.load q = if q ∈ S then none else h.load q

namespace Freed

theorem refl (h : Heap α) : Freed [] h h := ⟨rfl, by simp⟩

theorem free (h : Heap α) (p : Addr) : Freed [p] h (h.free p) := ⟨rfl, by simp⟩

theorem trans (f : Freed S h h₁) (f' : Freed S' h₁ h₂) : Freed (S ++ S') h h₂ where
  next := f'.next.trans f.next
  load q := by
    rw [f'.load, f.load]
    by_cases hq : q ∈ S <;> by_cases hq' : q ∈ S' <;> simp [hq, hq']

theorem congr (f : Freed S h h₁) (hS : ∀ q, q ∈ S ↔ q ∈ S') : Freed S' h h₁ where
  next := f.next
  load q := by simp only [f.load, hS]

theorem load_of_notMem (f : Freed S h h₁) (hp : p ∉ S) : h₁.load p = h.load p := by
  rw [f.load, if_neg hp]

theorem mem_live (f : Freed S h h₁) : p ∈ h₁.live ↔ p ∈ h.live ∧ p ∉ S := by
  simp only [Heap.mem_live, f.load]
  by_cases hp : p ∈ S <;> simp [hp]

/-- Freeing distinct live objects leaves the others. -/
theorem length_live (f : Freed S h h₁) (hnd : S.Nodup) (hsub : ∀ p ∈ S, p ∈ h.live) :
    h₁.live.length + S.length = h.live.length := by
  have hdis : S.Disjoint h₁.live := fun p hp hp' => (f.mem_live.mp hp').2 hp
  have hperm : (S ++ h₁.live).Perm h.live := by
    refine (List.perm_ext_iff_of_nodup (hnd.append h₁.nodup_live hdis) h.nodup_live).mpr
      fun p => ?_
    rw [List.mem_append, f.mem_live]
    by_cases hp : p ∈ S
    · simp only [hp, true_or, hsub p hp]
    · simp only [hp, false_or, not_false_eq_true, and_true]
  have hlen := hperm.length_eq
  rw [List.length_append] at hlen
  omega

end Freed

/-! ## How many objects are live -/

theorem length_live_alloc : (h.alloc v).live.length = h.live.length + 1 := by
  simp [live, objects_alloc]

/-- The same addresses are live. -/
def SameLive (h h' : Heap α) : Prop := ∀ p, p ∈ h'.live ↔ p ∈ h.live

namespace SameLive

theorem refl (h : Heap α) : SameLive h h := fun _ => Iff.rfl

theorem trans (s : SameLive h h₁) (s' : SameLive h₁ h₂) : SameLive h h₂ :=
  fun p => (s' p).trans (s p)

theorem update {f : α → α} (hu : h.update p f = some h₁) : SameLive h h₁ := by
  obtain ⟨w, hw, rfl⟩ := Option.map_eq_some_iff.mp hu
  intro q
  simp only [Heap.mem_live, load_modify]
  by_cases hq : q = p
  · subst hq
    simp [hw]
  · rw [if_neg hq]

theorem length_live (s : SameLive h h₁) : h₁.live.length = h.live.length :=
  ((List.perm_ext_iff_of_nodup h₁.nodup_live h.nodup_live).mpr s).length_eq

end SameLive

/-- Shares that are apart and as many as the live objects leave no other object live. -/
theorem mem_live_iff_of_shares (own : List Addr) (n : Nat) (S : Nat → List Addr)
    (hown : own.Nodup) (hnd : ∀ i, (S i).Nodup) (hdis : ∀ i j, i ≠ j → (S i).Disjoint (S j))
    (hapart : ∀ i, own.Disjoint (S i)) (hsub : ∀ p ∈ own, p ∈ h.live)
    (hsub' : ∀ i, ∀ p ∈ S i, p ∈ h.live)
    (hlen : h.live.length = own.length + ∑ i ∈ Finset.range n, (S i).length) :
    p ∈ h.live ↔ p ∈ own ∨ ∃ i < n, p ∈ S i := by
  have hall : (own ++ (List.range n).flatMap S).Nodup := by
    refine hown.append (List.nodup_flatMap.mpr ⟨fun i _ => hnd i, ?_⟩) fun q hq hq' => ?_
    · exact List.nodup_range.imp fun hne => hdis _ _ hne
    · obtain ⟨i, -, hq'⟩ := List.mem_flatMap.mp hq'
      exact hapart i hq hq'
  have hlive : own ++ (List.range n).flatMap S ⊆ h.live := by
    intro q hq
    rcases List.mem_append.mp hq with hq | hq
    · exact hsub q hq
    · obtain ⟨i, -, hq⟩ := List.mem_flatMap.mp hq
      exact hsub' i q hq
  have hcount : (own ++ (List.range n).flatMap S).length = h.live.length := by
    rw [List.length_append, List.length_flatMap, hlen]
    rfl
  rw [← ((List.subperm_of_subset hall hlive).perm_of_length_le hcount.ge).mem_iff]
  simp

end TradeServer.Library.Heap
