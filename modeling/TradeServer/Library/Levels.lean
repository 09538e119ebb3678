import Mathlib.Data.List.Induction
import Mathlib.Data.List.Pairwise
import Mathlib.Order.Lattice
import Mathlib.Tactic.Tauto

/-!
# First-in first-out queues under sorted keys

A `Levels κ α` lists the keys in increasing order, each with its queue. `push`
appends to the queue of a key, which it creates when the key is new.
-/

namespace TradeServer.Library

abbrev Levels (κ α : Type*) := List (κ × List α)

namespace Levels

variable {κ α : Type*} [LinearOrder κ]

def keys (W : Levels κ α) : List κ := W.map Prod.fst

def Sorted (W : Levels κ α) : Prop := W.Pairwise (·.1 < ·.1)

/-- The queue of a key, empty when the key is not there. -/
def get : Levels κ α → κ → List α
  | [], _ => []
  | (k', xs) :: W, k => if k = k' then xs else get W k

def push (k : κ) (x : α) : Levels κ α → Levels κ α
  | [] => [(k, [x])]
  | (k', xs) :: W =>
    if k < k' then (k, [x]) :: (k', xs) :: W
    else if k = k' then (k', xs ++ [x]) :: W
    else (k', xs) :: push k x W

/-- All items with their keys, in order. -/
def items (W : Levels κ α) : List (κ × α) := W.flatMap fun l => l.2.map (l.1, ·)

/-- The pushes of a list, one after another. -/
def pushAll (xs : List (κ × α)) : Levels κ α := xs.foldl (fun W x => push x.1 x.2 W) []

@[simp] theorem get_nil (k : κ) : get ([] : Levels κ α) k = [] := rfl

theorem sorted_nil : Sorted ([] : Levels κ α) := List.Pairwise.nil

theorem mem_keys_push {k k' : κ} {x : α} {W : Levels κ α} :
    k' ∈ keys (push k x W) ↔ k' = k ∨ k' ∈ keys W := by
  induction W with
  | nil => simp [push, keys]
  | cons l W ih =>
    obtain ⟨l, xs⟩ := l
    unfold push
    split_ifs with h1 h2
    · simp [keys]
    · subst h2
      simp [keys]
    · simp only [keys, List.map_cons, List.mem_cons] at ih ⊢
      rw [ih]
      tauto

theorem Sorted.push {k : κ} {x : α} {W : Levels κ α} (h : Sorted W) : Sorted (push k x W) := by
  induction W with
  | nil => exact List.pairwise_singleton _ _
  | cons l W ih =>
    obtain ⟨l, xs⟩ := l
    obtain ⟨hl, hW⟩ := List.pairwise_cons.mp h
    unfold Levels.push
    split_ifs with h1 h2
    · refine List.pairwise_cons.mpr ⟨fun b hb => ?_, h⟩
      rcases List.mem_cons.mp hb with rfl | hb
      · exact h1
      · exact h1.trans (hl b hb)
    · exact List.pairwise_cons.mpr ⟨hl, hW⟩
    · refine List.pairwise_cons.mpr ⟨fun b hb => ?_, ih hW⟩
      have hb' : b.1 ∈ keys (Levels.push k x W) := List.mem_map_of_mem hb
      rcases mem_keys_push.mp hb' with hk | hk
      · simpa only [hk] using lt_of_le_of_ne (not_lt.mp h1) (Ne.symm h2)
      · obtain ⟨c, hc, hcb⟩ := List.mem_map.mp hk
        simpa only [← hcb] using hl c hc

theorem get_of_not_mem {W : Levels κ α} {k : κ} (h : k ∉ keys W) : get W k = [] := by
  induction W with
  | nil => rfl
  | cons l W ih =>
    simp only [keys, List.map_cons, List.mem_cons, not_or] at h
    simp only [get, if_neg h.1]
    exact ih h.2

/-- A push changes the queue of its own key only. -/
theorem get_push {W : Levels κ α} (h : Sorted W) (k k' : κ) (x : α) :
    get (push k x W) k' = if k' = k then get W k ++ [x] else get W k' := by
  induction W with
  | nil => simp [push, get]
  | cons l W ih =>
    obtain ⟨l, xs⟩ := l
    obtain ⟨hl, hW⟩ := List.pairwise_cons.mp h
    unfold push
    split_ifs with h1 h2 h3 h4 h5
    · have : k ∉ keys ((l, xs) :: W) := by
        simp only [keys, List.map_cons, List.mem_cons, not_or]
        refine ⟨h1.ne, fun hm => ?_⟩
        obtain ⟨b, hb, rfl⟩ := List.mem_map.mp hm
        exact absurd (h1.trans (hl b hb)) (lt_irrefl _)
      rw [get_of_not_mem this, h2]
      simp [get]
    · simp [get, h2]
    · subst h3 h4
      simp [get]
    · subst h3
      simp [get, h4]
    · subst h5
      have := ih hW
      simpa [get, h3] using this
    · have := ih hW
      simp only [get, this, if_neg h5]

theorem get_of_mem {W : Levels κ α} (h : Sorted W) {k : κ} {xs : List α} (hm : (k, xs) ∈ W) :
    get W k = xs := by
  induction W with
  | nil => simp at hm
  | cons l W ih =>
    obtain ⟨l, ys⟩ := l
    obtain ⟨hl, hW⟩ := List.pairwise_cons.mp h
    rcases List.mem_cons.mp hm with heq | hm
    · cases heq
      simp [get]
    · have : k ≠ l := (hl _ hm).ne'
      simp only [get, if_neg this]
      exact ih hW hm

/-- A push of a new key goes to the gap where the key belongs. -/
theorem push_between {k : κ} {x : α} {B A : Levels κ α} (hB : ∀ b ∈ B, b.1 < k)
    (hA : ∀ a ∈ A, k < a.1) : push k x (B ++ A) = B ++ (k, [x]) :: A := by
  induction B with
  | nil =>
    cases A with
    | nil => rfl
    | cons a A => simp [push, hA a (by simp)]
  | cons b B ih =>
    have hb := hB b (by simp)
    simp [push, hb.not_gt, hb.ne', ih fun c hc => hB c (by simp [hc])]

/-- A push of a known key extends its queue. -/
theorem push_mid {k : κ} {x : α} {B A : Levels κ α} {xs : List α} (hB : ∀ b ∈ B, b.1 < k) :
    push k x (B ++ (k, xs) :: A) = B ++ (k, xs ++ [x]) :: A := by
  induction B with
  | nil => simp [push]
  | cons b B ih =>
    have hb := hB b (by simp)
    simp [push, hb.not_gt, hb.ne', ih fun c hc => hB c (by simp [hc])]

@[simp] theorem pushAll_nil : pushAll ([] : List (κ × α)) = [] := rfl

theorem pushAll_concat (xs : List (κ × α)) (x : κ × α) :
    pushAll (xs ++ [x]) = push x.1 x.2 (pushAll xs) := by
  simp [pushAll]

theorem sorted_pushAll (xs : List (κ × α)) : Sorted (pushAll xs) := by
  induction xs using List.reverseRecOn with
  | nil => exact sorted_nil
  | append_singleton xs x ih =>
    rw [pushAll_concat]
    exact ih.push

theorem mem_keys_pushAll {xs : List (κ × α)} {k : κ} :
    k ∈ keys (pushAll xs) ↔ ∃ x ∈ xs, x.1 = k := by
  induction xs using List.reverseRecOn with
  | nil => simp [keys]
  | append_singleton xs x ih =>
    rw [pushAll_concat, mem_keys_push, ih]
    simp only [List.mem_append, List.mem_singleton]
    constructor
    · rintro (rfl | ⟨y, hy, rfl⟩)
      · exact ⟨x, .inr rfl, rfl⟩
      · exact ⟨y, .inl hy, rfl⟩
    · rintro ⟨y, hy | rfl, rfl⟩
      · exact .inr ⟨y, hy, rfl⟩
      · exact .inl rfl

/-- Each queue holds what was pushed under its key, in the order of the pushes. -/
theorem get_pushAll (xs : List (κ × α)) (k : κ) :
    get (pushAll xs) k = (xs.filter (·.1 = k)).map Prod.snd := by
  induction xs using List.reverseRecOn with
  | nil => rfl
  | append_singleton xs x ih =>
    rw [pushAll_concat, get_push (sorted_pushAll xs), List.filter_append, List.map_append]
    by_cases hk : k = x.1
    · subst hk
      simp [ih]
    · simp [hk, Ne.symm hk, ih]

/-- A push adds a level for a new key only. -/
theorem length_push {W : Levels κ α} (h : Sorted W) (k : κ) (x : α) :
    (push k x W).length = W.length + if k ∈ keys W then 0 else 1 := by
  induction W with
  | nil => simp [push, keys]
  | cons l W ih =>
    obtain ⟨l, xs⟩ := l
    obtain ⟨hl, hW⟩ := List.pairwise_cons.mp h
    unfold push
    split_ifs with h1 h2 h3 h4 h5
    · rcases List.mem_cons.mp h2 with heq | hk
      · exact absurd heq h1.ne
      · obtain ⟨b, hb, rfl⟩ := List.mem_map.mp hk
        exact absurd (h1.trans (hl b hb)) (lt_irrefl _)
    · rfl
    · rfl
    · exact absurd (by simp [keys, h3]) h4
    · have hk : k ∈ keys W := (List.mem_cons.mp h5).resolve_left h3
      simp [ih hW, hk]
    · have hk : k ∉ keys W := fun hk => h5 (List.mem_cons_of_mem _ hk)
      simp [ih hW, hk]

theorem length_items_push (k : κ) (x : α) (W : Levels κ α) :
    (items (push k x W)).length = (items W).length + 1 := by
  induction W with
  | nil => simp [push, items]
  | cons l W ih =>
    obtain ⟨l, xs⟩ := l
    unfold push
    split_ifs with h1 h2
    · simp [items, Nat.add_comm]
    · simp only [items, List.flatMap_cons, List.length_append, List.length_map,
        List.length_singleton]
      omega
    · simp only [items, List.flatMap_cons, List.length_append] at ih ⊢
      omega

theorem length_items_pushAll (xs : List (κ × α)) : (items (pushAll xs)).length = xs.length := by
  induction xs using List.reverseRecOn with
  | nil => rfl
  | append_singleton xs x ih => rw [pushAll_concat, length_items_push, ih, List.length_append]; rfl

theorem mem_items {W : Levels κ α} (h : Sorted W) {k : κ} {x : α} :
    (k, x) ∈ items W ↔ x ∈ get W k := by
  simp only [items, List.mem_flatMap, List.mem_map, Prod.mk.injEq, exists_eq_right_right]
  constructor
  · rintro ⟨⟨k', xs⟩, hl, hx, rfl⟩
    rwa [get_of_mem h hl]
  · intro hx
    by_cases hk : k ∈ keys W
    · obtain ⟨⟨k', xs⟩, hl, rfl⟩ := List.mem_map.mp hk
      exact ⟨(k', xs), hl, by rwa [get_of_mem h hl] at hx, rfl⟩
    · simp [get_of_not_mem hk] at hx

/-- The items whose keys lie in a closed interval, in order. -/
def inRange (lo hi : κ) (W : Levels κ α) : List α :=
  (W.filter fun l => lo ≤ l.1 ∧ l.1 ≤ hi).flatMap Prod.snd

/-- The items that satisfy `p`; no key disappears. -/
def keep (p : α → Bool) (W : Levels κ α) : Levels κ α := W.map fun l => (l.1, l.2.filter p)

theorem mem_inRange {W : Levels κ α} (h : Sorted W) {lo hi : κ} {x : α} :
    x ∈ inRange lo hi W ↔ ∃ k, lo ≤ k ∧ k ≤ hi ∧ x ∈ get W k := by
  simp only [inRange, List.mem_flatMap, List.mem_filter, decide_eq_true_eq]
  constructor
  · rintro ⟨⟨k, xs⟩, ⟨hl, hk⟩, hx⟩
    exact ⟨k, hk.1, hk.2, by rwa [get_of_mem h hl]⟩
  · rintro ⟨k, hlo, hhi, hx⟩
    obtain ⟨⟨k', xs⟩, hl, hx', rfl⟩ : ∃ l ∈ W, x ∈ l.2 ∧ l.1 = k := by
      simpa [items] using (mem_items h).mpr hx
    exact ⟨(k', xs), ⟨hl, hlo, hhi⟩, hx'⟩

/-- A relation of items at one key and of items at different keys. -/
theorem pairwise_inRange {W : Levels κ α} (h : Sorted W) {R : α → α → Prop}
    (hlevel : ∀ k, (get W k).Pairwise R)
    (hcross : ∀ k k' x y, k < k' → x ∈ get W k → y ∈ get W k' → R x y) (lo hi : κ) :
    (inRange lo hi W).Pairwise R := by
  rw [inRange, List.pairwise_flatMap]
  refine ⟨fun l hl => ?_, ?_⟩
  · have := hlevel l.1
    rwa [get_of_mem h (List.mem_filter.mp hl).1] at this
  · refine (h.imp_of_mem fun {l l'} hl hl' hlt x hx y hy => ?_).filter _
    exact hcross l.1 l'.1 x y hlt (by rwa [get_of_mem h hl]) (by rwa [get_of_mem h hl'])

@[simp] theorem get_keep (p : α → Bool) (W : Levels κ α) (k : κ) :
    get (keep p W) k = (get W k).filter p := by
  induction W with
  | nil => rfl
  | cons l W ih =>
    obtain ⟨l, xs⟩ := l
    simp only [keep, List.map_cons, get] at ih ⊢
    split_ifs
    · rfl
    · exact ih

omit [LinearOrder κ] in
theorem keep_of_forall {p : α → Bool} {W : Levels κ α} (h : ∀ l ∈ W, ∀ x ∈ l.2, p x = true) :
    keep p W = W := by
  refine (List.map_congr_left fun l hl => ?_).trans W.map_id
  rw [List.filter_eq_self.mpr (h l hl), id]

end Levels

end TradeServer.Library
