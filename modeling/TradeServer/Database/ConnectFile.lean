import TradeServer.Database.TblTradeOrder
import TradeServer.Library.TextLines

/-!
# The connection file

`read_mysql_connect_file` takes each read of `fgets` for a line. A read has room for 31
characters and the newline is one of them, so that a line of 31 characters takes two reads
and a longer one is not refused but cut into lines.
-/

namespace TradeServer

open Library

/-- What is left of the file is read up to the end of a line; null at the end of the file. -/
def fgets (size : Nat) (fh : List Char) : Option (List Char × List Char) :=
  if fh = [] then none else some (nextPiece (size - 1) fh)

/-- `vars[line_idx]` after the body of the loop. -/
def connectVar (buffer : List Char) : List Char :=
  let len := buffer.length % 2 ^ 16
  let var := strncpy 32 (.ofBuffer buffer)
  if buffer[len - 1]? = some '\n' then var.set (len - 1) NUL else var

/-- The first argument bounds the number of turns of the loop. -/
def readConnectVars : Nat → Nat → (Nat → List Char) → List Char →
    Option (Nat × (Nat → List Char))
  | 0, _, _, _ => none
  | fuel + 1, lineIdx, vars, fh =>
    let lineIdx := (lineIdx + 1) % 2 ^ 16
    if lineIdx < 4 then
      match fgets 32 fh with
      | none => some (lineIdx, vars)
      | some (buffer, fh) =>
        readConnectVars fuel lineIdx (Function.update vars lineIdx (connectVar buffer)) fh
    else some (lineIdx, vars)

/-- The content of the file is `none` if it cannot be opened; `line_idx` starts at the
largest `unsigned short`. -/
def readMysqlConnectFile (vars : Nat → List Char) (file : Option CString) :
    Option (Bool × (Nat → List Char)) :=
  match file with
  | none => some (false, vars)
  | some file => do
    let (lineIdx, vars) ← readConnectVars 5 (2 ^ 16 - 1) vars file.chars
    if lineIdx ≠ 4 then some (false, vars) else some (true, vars)

/-- Whatever `vars` holds before, the result is 1 just when there are four lines that fit,
and then these are the variables. -/
def ReadsConnectFile (file : CString) : Prop :=
  let lines := textLines file.chars
  ∀ vars, ∃ result vars', readMysqlConnectFile vars (some file) = some (result, vars') ∧
    (result = true ↔ 4 ≤ lines.length ∧ ∀ line ∈ lines.take 4, line.length ≤ 31) ∧
    (result = true → ∀ i < 4, lines[i]? = some (CString.ofBuffer (vars' i)).chars)

/-! ## The variables -/

/-- A variable is the text that was read, without its newline. -/
theorem chars_connectVar {buffer : List Char} (hne : buffer ≠ []) (hlen : buffer.length ≤ 31)
    (hbytes : ∀ c ∈ buffer, IsByte c) :
    (CString.ofBuffer (connectVar buffer)).chars = chomp buffer := by
  have hmod : buffer.length % 2 ^ 16 = buffer.length := Nat.mod_eq_of_lt (by omega)
  have hcopy : strncpy 32 (.ofBuffer buffer) =
      buffer ++ NUL :: List.replicate (31 - buffer.length) NUL := by
    rw [strncpy, CString.length, CString.chars_ofBuffer hbytes, List.take_of_length_le (by omega),
      ← List.replicate_succ]
    congr 2
    omega
  have hlast : buffer[buffer.length - 1]? = buffer.getLast? := List.getLast?_eq_getElem?.symm
  simp only [connectVar, hmod, hlast, hcopy, chomp]
  split_ifs with hnewline
  · -- the newline is overwritten
    obtain ⟨line, rfl⟩ : ∃ line, buffer = line ++ ['\n'] :=
      ⟨_, (List.dropLast_append_getLast? _ hnewline).symm⟩
    have hset : ((line ++ ['\n']) ++ NUL :: List.replicate (31 - (line ++ ['\n']).length) NUL).set
        ((line ++ ['\n']).length - 1) NUL =
          line ++ NUL :: NUL :: List.replicate (31 - (line ++ ['\n']).length) NUL := by
      simp
    rw [hset, List.dropLast_concat]
    exact CString.chars_ofBuffer_append (fun c hc => hbytes c (by simp [hc])) _
  · exact CString.chars_ofBuffer_append hbytes _

/-! ## The loop -/

/-- With `k` variables to go, the loop stores the next `k` pieces, or all if there are fewer. -/
theorem readConnectVars_run {k lineIdx : Nat} (hk : k ≤ 4)
    (hidx : (lineIdx + 1) % 2 ^ 16 = 4 - k) (vars : Nat → List Char) (fh : List Char) :
    ∃ vars', readConnectVars (k + 1) lineIdx vars fh =
        some (4 - k + (pieces 31 k fh).length, vars') ∧
      (∀ i < 4 - k, vars' i = vars i) ∧
      ∀ i (h : i < (pieces 31 k fh).length),
        vars' (4 - k + i) = connectVar (pieces 31 k fh)[i] := by
  induction k generalizing lineIdx vars fh with
  | zero =>
    refine ⟨vars, ?_, by simp, by simp [pieces]⟩
    simp only [readConnectVars, hidx, pieces]
    rfl
  | succ k ih =>
    have hlt : 4 - (k + 1) < 4 := by omega
    by_cases hfh : fh = []
    · refine ⟨vars, ?_, by simp, by simp [pieces, hfh]⟩
      simp only [readConnectVars, hidx, hlt, if_true, fgets, hfh, pieces]
      rfl
    · have hpieces : pieces 31 (k + 1) fh =
          (nextPiece 31 fh).1 :: pieces 31 k (nextPiece 31 fh).2 := by rw [pieces, if_neg hfh]
      have hnext : (4 - (k + 1) + 1) % 2 ^ 16 = 4 - k := by omega
      obtain ⟨vars', hrun, hold, hnew⟩ := ih (by omega) hnext
        (Function.update vars (4 - (k + 1)) (connectVar (nextPiece 31 fh).1)) (nextPiece 31 fh).2
      refine ⟨vars', ?_, fun i hi => ?_, fun i hi => ?_⟩
      · rw [readConnectVars, hidx, if_pos hlt, fgets, if_neg hfh]
        simp only [hrun, hpieces, List.length_cons]
        congr 2
        omega
      · rw [hold i (by omega), Function.update_of_ne (by omega)]
      · simp only [hpieces]
        cases i with
        | zero =>
          have hfirst := hold (4 - (k + 1)) (by omega)
          rwa [Function.update_self] at hfirst
        | succ i =>
          rw [hpieces, List.length_cons] at hi
          have hlater := hnew i (by omega)
          rwa [show 4 - k + i = 4 - (k + 1) + (i + 1) by omega] at hlater

/-- The function succeeds when there are four pieces, which are then the variables. -/
theorem readMysqlConnectFile_run (vars : Nat → List Char) (file : CString) :
    ∃ vars', readMysqlConnectFile vars (some file) =
        some (decide (4 ≤ pieceCount 31 file.chars), vars') ∧
      (4 ≤ pieceCount 31 file.chars → ∀ i < 4,
        ((pieces 31 4 file.chars).map chomp)[i]? = some (CString.ofBuffer (vars' i)).chars) := by
  obtain ⟨vars', hrun, -, hvars⟩ := @readConnectVars_run 4 (2 ^ 16 - 1) le_rfl rfl vars file.chars
  have hlen := length_pieces (show 0 < 31 by omega) 4 file.chars
  refine ⟨vars', ?_, fun hcount i hi => ?_⟩
  · rw [Nat.sub_self, Nat.zero_add] at hrun
    simp only [readMysqlConnectFile, hrun, hlen, Option.bind_eq_bind, Option.bind_some]
    by_cases hcount : 4 ≤ pieceCount 31 file.chars
    · simp [hcount]
    · simp [hcount]
  · have hi' : i < (pieces 31 4 file.chars).length := by omega
    obtain ⟨hne, hle, hsub⟩ := mem_pieces (by omega) (List.getElem_mem hi')
    have hvar := hvars i hi'
    rw [Nat.sub_self, Nat.zero_add] at hvar
    rw [List.getElem?_map, List.getElem?_eq_getElem hi', hvar,
      chars_connectVar hne hle fun c hc => file.bytes c (hsub hc)]
    rfl

/-- Only the pieces of the file count. -/
theorem readsConnectFile_iff_pieces (file : CString) : ReadsConnectFile file ↔
    (4 ≤ pieceCount 31 file.chars ↔ 4 ≤ (textLines file.chars).length ∧
      ∀ line ∈ (textLines file.chars).take 4, line.length ≤ 31) ∧
    (4 ≤ pieceCount 31 file.chars → ∀ i < 4,
      (textLines file.chars)[i]? = ((pieces 31 4 file.chars).map chomp)[i]?) := by
  constructor
  · intro h
    obtain ⟨result, vars', hrun, hresult, hvars⟩ := h fun _ => []
    obtain ⟨vars'', hrun', hpieces⟩ := readMysqlConnectFile_run (fun _ => []) file
    obtain ⟨rfl, rfl⟩ := Prod.mk.inj (Option.some.inj (hrun'.symm.trans hrun))
    rw [decide_eq_true_iff] at hresult hvars
    exact ⟨hresult, fun hcount i hi => (hvars hcount i hi).trans (hpieces hcount i hi).symm⟩
  · rintro ⟨hresult, hlines⟩ vars
    obtain ⟨vars', hrun, hpieces⟩ := readMysqlConnectFile_run vars file
    refine ⟨_, vars', hrun, ?_, fun htrue i hi => ?_⟩
    · rwa [decide_eq_true_iff]
    · rw [decide_eq_true_iff] at htrue
      exact (hlines htrue i hi).trans (hpieces htrue i hi)

/-- The file is read as it should be just when the reads of the first four lines are the
lines, or when there are fewer than four lines and no more than three reads. -/
theorem readsConnectFile_iff (file : CString) : ReadsConnectFile file ↔
    4 ≤ (textLines file.chars).length ∧ LinesFit 31 ((textLines file.chars).take 4) ∨
      (textLines file.chars).length < 4 ∧ pieceCount 31 file.chars < 4 := by
  have hpos : 0 < 31 := by omega
  have hcount := length_textLines_le hpos file.chars
  rw [readsConnectFile_iff_pieces]
  obtain hlt | hle := Nat.lt_or_ge (textLines file.chars).length 4
  · simp only [hlt, Nat.not_le.mpr hlt, false_and, true_and, false_or, iff_false, Nat.not_le]
    exact ⟨fun h => h.1, fun h => ⟨h, fun hmany => absurd hmany (Nat.not_le.mpr h)⟩⟩
  · have hmany : 4 ≤ pieceCount 31 file.chars := by omega
    simp only [hle, hmany, Nat.not_lt.mpr hle, true_and, false_and, or_false, true_iff,
      forall_const]
    have hfit := chomp_pieces_iff hpos hle
    constructor
    · rintro ⟨-, hlines⟩
      refine hfit.mp (List.ext_getElem? fun i => ?_)
      by_cases hi : i < 4
      · rw [List.getElem?_take_of_lt hi, hlines i hi]
      · have hlen := length_pieces hpos 4 file.chars
        rw [List.getElem?_eq_none (by simp; omega), List.getElem?_eq_none (by simp; omega)]
    · intro h
      refine ⟨h.1, fun i hi => ?_⟩
      rw [hfit.mpr h, List.getElem?_take_of_lt hi]

/-- Four lines, the first of which has `n` characters. -/
def connectFile (n : Nat) : CString where
  chars := List.replicate n 'h' ++ ['\n', 'u', '\n', 'p', '\n', 'd', '\n']
  bytes c hc := by
    simp only [List.mem_append, List.mem_replicate, List.mem_cons, List.not_mem_nil,
      or_false] at hc
    obtain ⟨-, rfl⟩ | rfl | rfl | rfl | rfl | rfl | rfl | rfl := hc <;> simp [IsByte]

/-- With 31 characters the user becomes empty; a line of 32 characters is accepted. -/
theorem not_readsConnectFile_long_line :
    ¬ ReadsConnectFile (connectFile 31) ∧ ¬ ReadsConnectFile (connectFile 32) := by
  constructor
  · rw [readsConnectFile_iff_pieces]
    rintro ⟨-, hlines⟩
    have huser := hlines (by decide) 1 (by omega)
    exact absurd huser (by decide)
  · rw [readsConnectFile_iff_pieces]
    rintro ⟨hresult, -⟩
    have hfits := (hresult.mp (by decide)).2
    exact absurd hfits (by decide)

end TradeServer
