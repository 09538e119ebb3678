import Mathlib.Algebra.BigOperators.Group.List.Basic
import Mathlib.Algebra.GroupWithZero.Nat
import Mathlib.Data.List.TakeDrop

/-!
# Lines and reads of a bounded size

A text is read in pieces of at most `n` characters, each of which ends behind a newline if
there is one. A line with its newline that is longer than `n` falls into several pieces,
and whoever takes a piece for a line is then one line behind. `LinesFit` says when that
does not show.
-/

namespace TradeServer.Library

variable {n k : Nat} {cs r rest l : List Char}

/-- The lines of a text with their newlines; the last one may have none. -/
def rawLines : List Char → List (List Char)
  | [] => []
  | c :: cs =>
    if c = '\n' then ['\n'] :: rawLines cs
    else
      match rawLines cs with
      | [] => [[c]]
      | l :: ls => (c :: l) :: ls

/-- A line without its newline. -/
def chomp (l : List Char) : List Char := if l.getLast? = some '\n' then l.dropLast else l

def textLines (cs : List Char) : List (List Char) := (rawLines cs).map chomp

/-- What one read takes, and the rest. -/
def nextPiece : Nat → List Char → List Char × List Char
  | 0, cs => ([], cs)
  | _ + 1, [] => ([], [])
  | n + 1, c :: cs =>
    if c = '\n' then ([c], cs) else (c :: (nextPiece n cs).1, (nextPiece n cs).2)

/-- What the first `k` reads take; there are fewer when the text ends before. -/
def pieces (n : Nat) : Nat → List Char → List (List Char)
  | 0, _ => []
  | k + 1, cs =>
    if cs = [] then [] else (nextPiece n cs).1 :: pieces n k (nextPiece n cs).2

/-- The number of pieces of at most `n` characters in a text. -/
def pieceCount (n : Nat) (cs : List Char) : Nat :=
  ((rawLines cs).map fun l => (l.length + (n - 1)) / n).sum

/-- No line is longer than `n`, and behind one of just `n` characters, whose newline is a
piece of its own, there are only empty lines. -/
def LinesFit (n : Nat) (ls : List (List Char)) : Prop :=
  (∀ l ∈ ls, l.length ≤ n) ∧ ls.Pairwise fun l m => l.length = n → m = []

/-! ## Reads -/

theorem nextPiece_append (n : Nat) (cs : List Char) :
    (nextPiece n cs).1 ++ (nextPiece n cs).2 = cs := by
  induction n generalizing cs with
  | zero => simp [nextPiece]
  | succ n ih =>
    cases cs with
    | nil => rfl
    | cons c cs =>
      unfold nextPiece
      split_ifs
      · rfl
      · simp [ih cs]

theorem length_nextPiece_le (n : Nat) (cs : List Char) : (nextPiece n cs).1.length ≤ n := by
  induction n generalizing cs with
  | zero => simp [nextPiece]
  | succ n ih =>
    cases cs with
    | nil => simp [nextPiece]
    | cons c cs =>
      unfold nextPiece
      split_ifs
      · simp
      · simpa using ih cs

theorem nextPiece_ne_nil (hn : 0 < n) (h : cs ≠ []) : (nextPiece n cs).1 ≠ [] := by
  obtain ⟨n, rfl⟩ : ∃ m, n = m + 1 := ⟨n - 1, by omega⟩
  obtain ⟨c, cs, rfl⟩ := List.exists_cons_of_ne_nil h
  unfold nextPiece
  split_ifs <;> simp

/-- A piece is a part of the text, not empty and of the right size. -/
theorem mem_pieces (hn : 0 < n) {p : List Char} (h : p ∈ pieces n k cs) :
    p ≠ [] ∧ p.length ≤ n ∧ p ⊆ cs := by
  induction k generalizing cs with
  | zero => simp [pieces] at h
  | succ k ih =>
    unfold pieces at h
    split_ifs at h with hcs
    · simp at h
    · have happend := nextPiece_append n cs
      obtain rfl | h := List.mem_cons.mp h
      · refine ⟨nextPiece_ne_nil hn hcs, length_nextPiece_le n cs, fun c hc => ?_⟩
        rw [← happend]
        exact List.mem_append_left _ hc
      · obtain ⟨hne, hlen, hsub⟩ := ih h
        refine ⟨hne, hlen, fun c hc => ?_⟩
        rw [← happend]
        exact List.mem_append_right _ (hsub hc)

/-! ## The first line -/

/-- `r` is the first line of a text, with its newline, and `rest` is behind it. -/
structure FirstLine (r rest : List Char) : Prop where
  ne_nil : r ≠ []
  inner : '\n' ∉ r.dropLast
  ends : r.getLast? = some '\n' ∨ rest = []

theorem exists_firstLine (h : cs ≠ []) : ∃ r rest, cs = r ++ rest ∧ FirstLine r rest := by
  induction cs with
  | nil => exact absurd rfl h
  | cons c cs ih =>
    by_cases hc : c = '\n'
    · exact ⟨[c], cs, rfl, by simp, by simp, by simp [hc]⟩
    · by_cases hcs : cs = []
      · exact ⟨[c], [], by simp [hcs], by simp, by simp, .inr rfl⟩
      · obtain ⟨r, rest, rfl, hr⟩ := ih hcs
        refine ⟨c :: r, rest, rfl, by simp, ?_, ?_⟩
        · rw [List.dropLast_cons_of_ne_nil hr.ne_nil, List.mem_cons, not_or]
          exact ⟨Ne.symm hc, hr.inner⟩
        · rw [List.getLast?_cons_of_ne_nil hr.ne_nil]
          exact hr.ends

/-- The tail of a first line that does not start with a newline is one again. -/
theorem FirstLine.tail {c d : Char} (h : FirstLine (c :: d :: r) rest) :
    c ≠ '\n' ∧ FirstLine (d :: r) rest := by
  obtain ⟨-, hinner, hends⟩ := h
  rw [List.dropLast_cons_of_ne_nil (by simp), List.mem_cons, not_or] at hinner
  rw [List.getLast?_cons_of_ne_nil (by simp)] at hends
  exact ⟨Ne.symm hinner.1, by simp, hinner.2, hends⟩

theorem FirstLine.rawLines_eq (h : FirstLine r rest) :
    rawLines (r ++ rest) = r :: rawLines rest := by
  induction r with
  | nil => exact absurd rfl h.ne_nil
  | cons c r ih =>
    cases r with
    | nil =>
      by_cases hc : c = '\n'
      · simp [rawLines, hc]
      · obtain rfl : rest = [] := h.ends.resolve_left (by simpa using hc)
        simp [rawLines, hc]
    | cons d r =>
      obtain ⟨hc, hr⟩ := h.tail
      have hrest := ih hr
      rw [List.cons_append, rawLines, if_neg hc, hrest]

theorem FirstLine.nextPiece_eq (h : FirstLine r rest) : nextPiece n (r ++ rest) =
    if r.length ≤ n then (r, rest) else (r.take n, r.drop n ++ rest) := by
  induction n generalizing r with
  | zero => simp [nextPiece, h.ne_nil]
  | succ n ih =>
    cases r with
    | nil => exact absurd rfl h.ne_nil
    | cons c r =>
      cases r with
      | nil =>
        by_cases hc : c = '\n'
        · simp [nextPiece, hc]
        · obtain rfl : rest = [] := h.ends.resolve_left (by simpa using hc)
          cases n <;> simp [nextPiece, hc]
      | cons d r =>
        obtain ⟨hc, hr⟩ := h.tail
        have hrest := ih hr
        simp only [List.cons_append] at hrest
        simp only [List.cons_append, nextPiece, if_neg hc, hrest, List.length_cons,
          Nat.add_le_add_iff_right]
        split_ifs <;> simp

/-- A line that is too long for a piece is cut before its newline. -/
theorem FirstLine.cut (h : FirstLine r rest) (hn : n < r.length) :
    '\n' ∉ r.take n ∧ FirstLine (r.drop n) rest := by
  obtain ⟨-, hinner, hends⟩ := h
  refine ⟨fun hmem => hinner ?_, by simpa using hn, fun hmem => hinner ?_, ?_⟩
  · rw [List.dropLast_eq_take]
    exact (List.take_sublist_take_left (by omega)).subset hmem
  · rw [List.dropLast_drop_eq_drop_dropLast] at hmem
    exact List.mem_of_mem_drop hmem
  · rw [List.getLast?_drop, if_neg (by omega)]
    exact hends

/-! ## Lines without their newlines -/

theorem chomp_of_notMem (h : '\n' ∉ l) : chomp l = l := by
  rw [chomp, if_neg fun hlast => h (List.mem_of_getLast? hlast)]

theorem length_chomp (l : List Char) :
    (chomp l).length = if l.getLast? = some '\n' then l.length - 1 else l.length := by
  unfold chomp
  split_ifs <;> simp

theorem FirstLine.textLines_eq (h : FirstLine r rest) :
    textLines (r ++ rest) = chomp r :: textLines rest := by
  rw [textLines, h.rawLines_eq]
  rfl

theorem FirstLine.eq_newline (h : FirstLine r rest) (hr : chomp r = []) : r = ['\n'] := by
  unfold chomp at hr
  split_ifs at hr with hlast
  · rw [← List.dropLast_append_getLast? _ hlast, hr]
    rfl
  · exact absurd hr h.ne_nil

theorem firstLine_newline (rest : List Char) : FirstLine ['\n'] rest :=
  ⟨by simp, by simp, .inl rfl⟩

/-! ## Pieces -/

theorem FirstLine.pieces_eq (h : FirstLine r rest) : pieces n (k + 1) (r ++ rest) =
    if r.length ≤ n then r :: pieces n k rest
    else r.take n :: pieces n k (r.drop n ++ rest) := by
  have hne : r ++ rest ≠ [] := by simp [h.ne_nil]
  rw [pieces, if_neg hne, h.nextPiece_eq]
  split_ifs <;> rfl

theorem FirstLine.pieceCount_eq (h : FirstLine r rest) :
    pieceCount n (r ++ rest) = (r.length + (n - 1)) / n + pieceCount n rest := by
  simp [pieceCount, h.rawLines_eq]

theorem length_pieces (hn : 0 < n) (k : Nat) (cs : List Char) :
    (pieces n k cs).length = min k (pieceCount n cs) := by
  induction k generalizing cs with
  | zero => simp [pieces]
  | succ k ih =>
    by_cases hcs : cs = []
    · simp [hcs, pieces, pieceCount, rawLines]
    · obtain ⟨r, rest, rfl, h⟩ := exists_firstLine hcs
      have hpos := List.length_pos_iff.mpr h.ne_nil
      rw [h.pieces_eq, h.pieceCount_eq]
      split_ifs with hr
      · have hone : (r.length + (n - 1)) / n = 1 := Nat.div_eq_of_lt_le (by omega) (by omega)
        rw [List.length_cons, ih, hone]
        omega
      · have hmore : (r.length + (n - 1)) / n = ((r.drop n).length + (n - 1)) / n + 1 := by
          rw [← Nat.add_div_right _ hn, List.length_drop]
          congr 1
          omega
        rw [List.length_cons, ih, (h.cut (by omega)).2.pieceCount_eq, hmore]
        omega

theorem length_textLines_le (hn : 0 < n) (cs : List Char) :
    (textLines cs).length ≤ pieceCount n cs := by
  have hlines : ∀ l ∈ rawLines cs, l ≠ [] := by
    induction cs with
    | nil => simp [rawLines]
    | cons c cs ih =>
      unfold rawLines
      split_ifs
      · simpa using ih
      · split <;> simp_all
  have hsum := List.length_le_sum_of_one_le
    ((rawLines cs).map fun l => (l.length + (n - 1)) / n) fun i hi => by
      obtain ⟨l, hl, rfl⟩ := List.mem_map.mp hi
      have := List.length_pos_iff.mpr (hlines l hl)
      exact (Nat.one_le_div_iff hn).mpr (by omega)
  simpa [textLines, pieceCount] using hsum

/-! ## Pieces taken for lines -/

theorem linesFit_cons {ls : List (List Char)} : LinesFit n (l :: ls) ↔
    l.length ≤ n ∧ (l.length = n → ∀ m ∈ ls, m = []) ∧ LinesFit n ls := by
  simp only [LinesFit, List.forall_mem_cons, List.pairwise_cons]
  grind

theorem linesFit_of_nil {ls : List (List Char)} (h : ∀ m ∈ ls, m = []) : LinesFit n ls :=
  ⟨fun l hl => by simp [h l hl],
    List.pairwise_iff_forall_sublist.mpr fun hsub _ => h _ (hsub.subset (by simp))⟩

/-- One newline too many shows unless all lines are empty. -/
theorem chomp_pieces_newline_iff (hn : 0 < n) (hk : k ≤ (textLines cs).length) :
    (pieces n k ('\n' :: cs)).map chomp = (textLines cs).take k ↔
      ∀ m ∈ (textLines cs).take k, m = [] := by
  induction k generalizing cs with
  | zero => simp [pieces]
  | succ k ih =>
    have hcs : cs ≠ [] := by
      rintro rfl
      simp [textLines, rawLines] at hk
    obtain ⟨r, rest, rfl, h⟩ := exists_firstLine hcs
    have hpieces := (firstLine_newline (r ++ rest)).pieces_eq (n := n) (k := k)
    rw [if_pos (by simpa using Nat.succ_le_of_lt hn), List.singleton_append] at hpieces
    have hblank : chomp ['\n'] = [] := rfl
    rw [hpieces, h.textLines_eq, List.map_cons, List.take_succ_cons, List.forall_mem_cons]
    rw [h.textLines_eq, List.length_cons, Nat.add_le_add_iff_right] at hk
    by_cases hr : chomp r = []
    · obtain rfl := h.eq_newline hr
      simpa [hblank] using ih hk
    · simp [hblank, hr, Ne.symm hr]

/-- The first pieces are the first lines just when these fit. -/
theorem chomp_pieces_iff (hn : 0 < n) (hk : k ≤ (textLines cs).length) :
    (pieces n k cs).map chomp = (textLines cs).take k ↔ LinesFit n ((textLines cs).take k) := by
  induction k generalizing cs with
  | zero => simp [pieces, LinesFit]
  | succ k ih =>
    have hcs : cs ≠ [] := by
      rintro rfl
      simp [textLines, rawLines] at hk
    obtain ⟨r, rest, rfl, h⟩ := exists_firstLine hcs
    have hlen := length_chomp r
    rw [h.textLines_eq, List.length_cons, Nat.add_le_add_iff_right] at hk
    rw [h.pieces_eq, h.textLines_eq, List.take_succ_cons, linesFit_cons]
    split_ifs with hr
    · have hfull : (chomp r).length = n → textLines rest = [] := by
        intro heq
        obtain hlast | rfl := h.ends
        · have := List.length_pos_iff.mpr h.ne_nil
          rw [if_pos hlast] at hlen
          omega
        · rfl
      have hle : (chomp r).length ≤ n := by
        rw [hlen]
        split_ifs <;> omega
      rw [List.map_cons, List.cons_inj_right, ih hk]
      exact ⟨fun hfit => ⟨hle, fun heq => by simp [hfull heq], hfit⟩, fun hfit => hfit.2.2⟩
    · obtain ⟨hnot, -⟩ := h.cut (show n < r.length by omega)
      rw [List.map_cons, chomp_of_notMem hnot]
      by_cases heq : (chomp r).length = n
      · -- only the newline is left over
        have hlast : r.getLast? = some '\n' := by
          by_contra hlast
          rw [if_neg hlast] at hlen
          omega
        have hsplit : chomp r ++ ['\n'] = r := by
          rw [chomp, if_pos hlast]
          exact List.dropLast_append_getLast? _ hlast
        have htake : (chomp r ++ ['\n']).take n = chomp r := List.take_left' heq
        have hdrop : (chomp r ++ ['\n']).drop n = ['\n'] := List.drop_left' heq
        rw [hsplit] at htake hdrop
        rw [htake, hdrop, List.cons_inj_right, List.singleton_append,
          chomp_pieces_newline_iff hn hk]
        exact ⟨fun hnil => ⟨by omega, fun _ => hnil, linesFit_of_nil hnil⟩,
          fun hfit => hfit.2.1 heq⟩
      · constructor
        · intro hsame
          have hhead := congrArg List.length (List.cons_eq_cons.mp hsame).1
          rw [List.length_take] at hhead
          omega
        · intro hfit
          rw [hlen] at heq hfit
          split_ifs at heq hfit <;> omega

end TradeServer.Library
