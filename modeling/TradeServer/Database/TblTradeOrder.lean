import TradeServer.CString
import TradeServer.Library.Chain

/-!
# Parsing the order table

`parse_tbl_trade_order` makes a list of nodes of the rows of a result set, behind a dummy head.
It converts the columns with `strtoul`, `strtol` and `strtoull`, which saturate, and drops the
upper half of a user id. `unsigned long` has 64 bits.
-/

namespace TradeServer

open Library

def TICKER_LEN : Nat := 8

def TIMESTAMP_LEN : Nat := 20

def UINT_MAX : Nat := 2 ^ 32 - 1

/-- A row as the database client returns it; `none` is a null pointer. -/
structure MysqlRow where
  id : CString
  userId : CString
  ticker : CString
  side : Option CString
  status : Option CString
  type : Option CString
  amount : CString
  price : CString
  createdAt : Option CString
  filledAt : Option CString

/-- `st_tbl_trade_order_t`, with its buffers as they are in memory. -/
structure TblTradeOrder where
  id : Nat
  userId : Nat
  ticker : List Char
  side : Char
  status : Char
  type : Char
  amount : Nat
  price : Nat
  createdAt : List Char
  filledAt : List Char
  next : Addr

/-! ## The C library -/

def NUL : Char := Char.ofNat 0

def isspace (c : Char) : Bool := c ∈ [' ', '\t', '\n', Char.ofNat 11, Char.ofNat 12, '\r']

/-- What the `strto` functions read in base 10: whether there is a minus sign, and the digits. -/
def scanInteger (text : List Char) : Bool × List Char :=
  match text.dropWhile isspace with
  | '-' :: rest => (true, rest.takeWhile Char.isDigit)
  | '+' :: rest => (false, rest.takeWhile Char.isDigit)
  | rest => (false, rest.takeWhile Char.isDigit)

def strtoul (s : CString) : Nat :=
  let (negative, digits) := scanInteger s.chars
  if 2 ^ 64 ≤ readDigits digits then 2 ^ 64 - 1
  else if negative then (2 ^ 64 - readDigits digits) % 2 ^ 64
  else readDigits digits

def strtoull (s : CString) : Nat := strtoul s

def strtol (s : CString) : Int :=
  let (negative, digits) := scanInteger s.chars
  let value : Int := if negative then -readDigits digits else readDigits digits
  max (-2 ^ 63) (min value (2 ^ 63 - 1))

/-- `strncpy` into a buffer of `size` bytes. -/
def strncpy (size : Nat) (s : CString) : List Char :=
  s.chars.take size ++ List.replicate (size - s.length) NUL

/-! ## The parser -/

/-- A copy in a buffer whose last byte is set to NUL. -/
def boundedCopy (size : Nat) (s : CString) : List Char := (strncpy size s).set (size - 1) NUL

/-- The first byte of a column. -/
def firstByte (column : Option CString) : Char := (column.bind (·.chars.head?)).getD NUL

def parseAmount (s : CString) : Nat :=
  let tmpUl := strtoul s
  if tmpUl ≤ UINT_MAX then tmpUl else 0

/-- The new node of a row. -/
def buildOrder (row : MysqlRow) : TblTradeOrder where
  id := strtoul row.id
  userId := (strtol row.userId % 2 ^ 32).toNat
  ticker := boundedCopy TICKER_LEN row.ticker
  side := firstByte row.side
  status := firstByte row.status
  type := firstByte row.type
  amount := parseAmount row.amount
  price := strtoull row.price
  createdAt := boundedCopy TIMESTAMP_LEN (row.createdAt.getD (.ofBuffer []))
  filledAt := boundedCopy TIMESTAMP_LEN (row.filledAt.getD (.ofBuffer []))
  next := NULL

/-- The loop body: the node is linked behind `current`. -/
def appendRow (s : Heap TblTradeOrder × Addr) (row : MysqlRow) :
    Option (Heap TblTradeOrder × Addr) := do
  let (os, current) := s
  let tto := os.fresh
  let os ← (os.alloc (buildOrder row)).update current ({ · with next := tto })
  some (os, tto)

/-- `unset` is what the memory of the dummy head holds. -/
def parseOrderRows (unset : TblTradeOrder) (os : Heap TblTradeOrder)
    (result : Option (List MysqlRow)) : Option (Heap TblTradeOrder × Addr) :=
  match result with
  | none => some (os, NULL)
  | some rows => do
    let head := os.fresh
    let (os, _) ← rows.foldlM appendRow (os.alloc { unset with next := NULL }, head)
    some (os, head)

/-! ## What the columns say -/

/-- A decimal number with or without a sign. -/
def IsInteger (text : List Char) : Prop :=
  ∃ digits, (text = digits ∨ text = '-' :: digits ∨ text = '+' :: digits) ∧ digits ≠ [] ∧
    ∀ c ∈ digits, c.isDigit

/-- The number that a text stands for. -/
def integerOf : List Char → Int
  | '-' :: digits => -readDigits digits
  | '+' :: digits => readDigits digits
  | digits => readDigits digits

/-- The numeric columns are decimal numbers, of any sign and length. -/
structure MysqlRow.Numeric (row : MysqlRow) : Prop where
  id : IsInteger row.id.chars
  userId : IsInteger row.userId.chars
  amount : IsInteger row.amount.chars
  price : IsInteger row.price.chars

/-- An order has what the columns of its row say. -/
structure Faithful (o : TblTradeOrder) (row : MysqlRow) : Prop where
  id : (o.id : Int) = integerOf row.id.chars
  userId : (o.userId : Int) = integerOf row.userId.chars
  ticker : CString.ofBuffer o.ticker = row.ticker
  amount : (o.amount : Int) = integerOf row.amount.chars
  price : (o.price : Int) = integerOf row.price.chars

/-- The result is a list of the faithful orders of some rows, in their sequence. -/
def LoadsFaithfully (rows : List MysqlRow) : Prop :=
  ∀ unset os, ∃ os' head nodes kept, parseOrderRows unset os (some rows) = some (os', head) ∧
    Chain TblTradeOrder.next os' head (head :: nodes) ∧ kept.Sublist rows ∧
    List.Forall₂ (fun row node => ∃ o, os'.load node = some o ∧ Faithful o row) kept nodes

/-- Every column fits its field. -/
structure MysqlRow.InRange (row : MysqlRow) : Prop where
  id : 0 ≤ integerOf row.id.chars ∧ integerOf row.id.chars < 2 ^ 64
  userId : 0 ≤ integerOf row.userId.chars ∧ integerOf row.userId.chars < 2 ^ 32
  ticker : row.ticker.length < TICKER_LEN
  amount : 0 ≤ integerOf row.amount.chars ∧ integerOf row.amount.chars < 2 ^ 32
  price : 0 ≤ integerOf row.price.chars ∧ integerOf row.price.chars < 2 ^ 64

/-! ## Conversions -/

theorem isspace_of_isDigit {c : Char} (h : c.isDigit) : isspace c = false := by
  cases hspace : isspace c with
  | false => rfl
  | true =>
    have hmem : c ∈ [' ', '\t', '\n', Char.ofNat 11, Char.ofNat 12, '\r'] := by
      simpa [isspace] using hspace
    have hnone : ∀ d ∈ [' ', '\t', '\n', Char.ofNat 11, Char.ofNat 12, '\r'],
        d.isDigit = false := by simp
    simp [hnone c hmem] at h

/-- The sign and the digits make up the number. -/
theorem integerOf_eq {text : List Char} (h : IsInteger text) :
    integerOf text = if (scanInteger text).1 then -(readDigits (scanInteger text).2 : Int)
      else (readDigits (scanInteger text).2 : Int) := by
  obtain ⟨digits, htext, hne, hdigit⟩ := h
  have htake : digits.takeWhile Char.isDigit = digits := List.takeWhile_eq_self_iff.mpr hdigit
  rcases htext with rfl | rfl | rfl
  · obtain ⟨c, cs, rfl⟩ := List.exists_cons_of_ne_nil hne
    have hc : c.isDigit := hdigit c (by simp)
    have hminus : c ≠ '-' := by rintro rfl; exact absurd hc (by decide)
    have hplus : c ≠ '+' := by rintro rfl; exact absurd hc (by decide)
    simp [integerOf, scanInteger, isspace_of_isDigit hc, htake, hminus, hplus]
  · simp [integerOf, scanInteger, isspace, htake]
  · simp [integerOf, scanInteger, isspace, htake]

variable {s : CString}

/-- `strtoul` saturates above, and wraps around below. -/
theorem strtoul_eq_iff (h : IsInteger s.chars) :
    (strtoul s : Int) = integerOf s.chars ↔ 0 ≤ integerOf s.chars ∧ integerOf s.chars < 2 ^ 64 := by
  rw [integerOf_eq h]
  simp only [strtoul]
  split_ifs <;> omega

theorem strtol_eq (h : IsInteger s.chars) :
    strtol s = max (-2 ^ 63) (min (integerOf s.chars) (2 ^ 63 - 1)) := by
  rw [integerOf_eq h]
  rfl

/-- The lower half of a saturated number is the number if it fits. -/
theorem userId_eq_iff (h : IsInteger s.chars) :
    ((strtol s % 2 ^ 32).toNat : Int) = integerOf s.chars ↔
      0 ≤ integerOf s.chars ∧ integerOf s.chars < 2 ^ 32 := by
  rw [strtol_eq h]
  omega

/-- The amount is checked, but `0` stands for what does not fit. -/
theorem parseAmount_eq_iff (h : IsInteger s.chars) :
    (parseAmount s : Int) = integerOf s.chars ↔
      0 ≤ integerOf s.chars ∧ integerOf s.chars < 2 ^ 32 := by
  rw [integerOf_eq h]
  simp only [parseAmount, strtoul, UINT_MAX]
  split_ifs <;> omega

@[simp] theorem length_strncpy (size : Nat) (s : CString) : (strncpy size s).length = size := by
  simp only [strncpy, List.length_append, List.length_take, List.length_replicate, CString.length]
  omega

theorem boundedCopy_eq {size : Nat} (hsize : 0 < size) (s : CString) :
    boundedCopy size s = s.chars.take (size - 1) ++
      NUL :: List.replicate (size - 1 - s.length) NUL := by
  have hlen : size - 1 < (strncpy size s).length := by simp; omega
  have htake : (strncpy size s).take (size - 1) =
      s.chars.take (size - 1) ++ List.replicate (size - 1 - s.length) NUL := by
    have hone : min (size - 1) size = size - 1 := by omega
    have htwo : min (size - 1 - min size s.chars.length) (size - s.length) =
        size - 1 - s.length := by
      rw [CString.length]
      omega
    simp only [strncpy, List.take_append, List.take_take, List.take_replicate, List.length_take,
      hone, htwo]
  have hdrop : (strncpy size s).drop (size - 1 + 1) = [] := by
    rw [List.drop_eq_nil_iff, length_strncpy]
    omega
  rw [boundedCopy, List.set_eq_take_append_cons_drop, if_pos hlen, htake, hdrop, List.append_assoc,
    ← List.replicate_succ', List.replicate_succ]

/-- The copy keeps what fits before its last byte. -/
theorem chars_boundedCopy {size : Nat} (hsize : 0 < size) (s : CString) :
    (CString.ofBuffer (boundedCopy size s)).chars = s.chars.take (size - 1) := by
  rw [boundedCopy_eq hsize]
  exact CString.chars_ofBuffer_append (fun c hc => s.bytes c (List.mem_of_mem_take hc)) _

theorem ticker_eq_iff (s : CString) :
    CString.ofBuffer (boundedCopy TICKER_LEN s) = s ↔ s.length < TICKER_LEN := by
  rw [CString.ext_iff, chars_boundedCopy (by decide), List.take_eq_self_iff]
  exact Nat.le_sub_one_iff_lt (by decide)

theorem faithful_buildOrder_iff {row : MysqlRow} (h : row.Numeric) :
    Faithful (buildOrder row) row ↔ row.InRange := by
  constructor
  · rintro ⟨hid, hUser, hTicker, hAmount, hPrice⟩
    exact ⟨(strtoul_eq_iff h.id).mp hid, (userId_eq_iff h.userId).mp hUser,
      (ticker_eq_iff _).mp hTicker, (parseAmount_eq_iff h.amount).mp hAmount,
      (strtoul_eq_iff h.price).mp hPrice⟩
  · rintro ⟨hid, hUser, hTicker, hAmount, hPrice⟩
    exact ⟨(strtoul_eq_iff h.id).mpr hid, (userId_eq_iff h.userId).mpr hUser,
      (ticker_eq_iff _).mpr hTicker, (parseAmount_eq_iff h.amount).mpr hAmount,
      (strtoul_eq_iff h.price).mpr hPrice⟩

/-! ## The list -/

/-- A node is the one built from a row, linked somewhere. -/
def LoadedAs (os : Heap TblTradeOrder) (row : MysqlRow) (node : Addr) : Prop :=
  ∃ next, os.load node = some { buildOrder row with next := next }

/-- The loop has made the nodes of `rows`, and `current` is the last of the list. -/
structure Loading (os : Heap TblTradeOrder) (head current : Addr) (rows : List MysqlRow)
    (nodes : List Addr) : Prop where
  chain : Chain TblTradeOrder.next os head (head :: nodes)
  last : ∃ front, head :: nodes = front ++ [current]
  loaded : List.Forall₂ (LoadedAs os) rows nodes

variable {os : Heap TblTradeOrder} {head current : Addr} {rows : List MysqlRow}
  {nodes : List Addr}

/-- What the new memory holds. -/
theorem appendRow_eq {last : TblTradeOrder} (hlast : os.load current = some last) (row : MysqlRow) :
    ∃ os', appendRow (os, current) row = some (os', os.fresh) ∧
      os'.load current = some { last with next := os.fresh } ∧
      os'.load os.fresh = some (buildOrder row) ∧
      ∀ q, q ≠ current → q ≠ os.fresh → os'.load q = os.load q := by
  have hne : current ≠ os.fresh := Heap.ne_fresh_of_load hlast
  have hload : (os.alloc (buildOrder row)).load current = some last := by simp [hne, hlast]
  refine ⟨(os.alloc (buildOrder row)).modify current ({ · with next := os.fresh }), ?_, ?_, ?_, ?_⟩
  · simp only [appendRow, Heap.update_of_load hload]
    rfl
  · simp [hne, hlast]
  · simp [hne.symm]
  · intro q hq hfresh
    simp [hq, hfresh]

theorem appendRow_spec (h : Loading os head current rows nodes) (row : MysqlRow) :
    ∃ os', appendRow (os, current) row = some (os', os.fresh) ∧
      Loading os' head os.fresh (rows ++ [row]) (nodes ++ [os.fresh]) := by
  obtain ⟨hchain, ⟨front, hfront⟩, hloaded⟩ := h
  have hlive := hchain.live
  have hnodup := hchain.nodup
  rw [hfront] at hchain hnodup
  obtain ⟨last, hlast⟩ := hlive current (by simp [hfront])
  obtain ⟨os', happend, hcurrent, hnew, hrest⟩ := appendRow_eq hlast row
  have hold : ∀ q ∈ head :: nodes, q ≠ os.fresh := fun q hq =>
    Heap.ne_fresh_of_load (hlive q hq).choose_spec
  refine ⟨os', happend, ?_, ⟨head :: nodes, rfl⟩, ?_⟩
  · -- the chain up to `current` goes on with the new node
    have hkeep : ∀ q ∈ front, os'.load q = os.load q := by
      intro q hq
      have hcur : q ≠ current := by
        rintro rfl
        exact (List.nodup_append.mp hnodup).2.2 q hq q (by simp) rfl
      exact hrest q hcur (hold q (by simp [hfront, hq]))
    have hnode : Chain TblTradeOrder.next os' os.fresh [os.fresh] := ⟨rfl, _, hnew, rfl⟩
    have hchain' := hchain.relink hkeep hcurrent hnode
    rw [← List.cons_append, hfront, List.append_assoc]
    exact hchain'
  · refine List.rel_append (hloaded.imp ?_) (.cons ⟨NULL, hnew⟩ .nil)
    rintro row' node ⟨next, hnode⟩
    by_cases hcur : node = current
    · subst hcur
      obtain rfl := Option.some.inj (hlast.symm.trans hnode)
      exact ⟨os.fresh, hcurrent⟩
    · exact ⟨next, (hrest node hcur (Heap.ne_fresh_of_load hnode)).trans hnode⟩

theorem foldlM_appendRow (rest : List MysqlRow) (h : Loading os head current rows nodes) :
    ∃ os' current' nodes', rest.foldlM appendRow (os, current) = some (os', current') ∧
      Loading os' head current' (rows ++ rest) nodes' := by
  induction rest generalizing os current rows nodes with
  | nil => exact ⟨os, current, nodes, rfl, by simpa using h⟩
  | cons row rest ih =>
    obtain ⟨os₁, hstep, h₁⟩ := appendRow_spec h row
    obtain ⟨os', current', nodes', hrun, h'⟩ := ih h₁
    refine ⟨os', current', nodes', ?_, by simpa using h'⟩
    rw [List.foldlM_cons, hstep]
    exact hrun

/-- The parser makes one node of each row. -/
theorem parseOrderRows_eq (unset : TblTradeOrder) (os : Heap TblTradeOrder)
    (rows : List MysqlRow) :
    ∃ os' nodes, parseOrderRows unset os (some rows) = some (os', os.fresh) ∧
      Chain TblTradeOrder.next os' os.fresh (os.fresh :: nodes) ∧
      List.Forall₂ (LoadedAs os') rows nodes := by
  have hinit : Loading (os.alloc { unset with next := NULL }) os.fresh os.fresh [] [] :=
    ⟨Chain.null_nil.push _ rfl, ⟨[], rfl⟩, .nil⟩
  obtain ⟨os', current, nodes, hrun, h⟩ := foldlM_appendRow rows hinit
  refine ⟨os', nodes, ?_, h.chain, h.loaded⟩
  simp only [parseOrderRows, hrun]
  rfl

/-- No row is left out, so that each must fit. -/
theorem inRange_of_loadsFaithfully (h : ∀ row ∈ rows, row.Numeric) (hload : LoadsFaithfully rows) :
    ∀ row ∈ rows, row.InRange := by
  intro row hrow
  obtain ⟨os', nodes, hparse, hchain, hloaded⟩ := parseOrderRows_eq (buildOrder row) .empty rows
  obtain ⟨os'', head, nodes', kept, hparse', hchain', hsub, hfaithful⟩ :=
    hload (buildOrder row) .empty
  obtain ⟨rfl, rfl⟩ := Prod.mk.inj (Option.some.inj (hparse.symm.trans hparse'))
  obtain rfl : nodes = nodes' := List.tail_eq_of_cons_eq (hchain.unique hchain')
  obtain rfl : kept = rows :=
    hsub.eq_of_length (hfaithful.length_eq.trans hloaded.length_eq.symm)
  obtain ⟨i, hi, rfl⟩ := List.mem_iff_getElem.mp hrow
  have hi' : i < nodes.length := hloaded.length_eq ▸ hi
  obtain ⟨next, hnode⟩ := hloaded.get hi hi'
  obtain ⟨o, ho, hfits⟩ := hfaithful.get hi hi'
  obtain rfl := Option.some.inj (hnode.symm.trans ho)
  -- the link is no column
  exact (faithful_buildOrder_iff (h _ hrow)).mp
    ⟨hfits.id, hfits.userId, hfits.ticker, hfits.amount, hfits.price⟩

/-- The rows are loaded faithfully if and only if all columns fit. -/
theorem loadsFaithfully_iff (rows : List MysqlRow) (h : ∀ row ∈ rows, row.Numeric) :
    LoadsFaithfully rows ↔ ∀ row ∈ rows, row.InRange := by
  refine ⟨inRange_of_loadsFaithfully h, fun hrange unset os => ?_⟩
  obtain ⟨os', nodes, hparse, hchain, hloaded⟩ := parseOrderRows_eq unset os rows
  refine ⟨os', os.fresh, nodes, rows, hparse, hchain, .refl rows, ?_⟩
  have hbuilt : ∀ row ∈ rows, Faithful (buildOrder row) row :=
    fun row hrow => (faithful_buildOrder_iff (h row hrow)).mpr (hrange row hrow)
  refine ((List.forall₂_and_left rows nodes).mpr ⟨hbuilt, hloaded⟩).imp ?_
  rintro row node ⟨hrow, next, hnode⟩
  exact ⟨_, hnode, hrow.id, hrow.userId, hrow.ticker, hrow.amount, hrow.price⟩

/-! ## A row -/

def column (n : Nat) : CString := ⟨decimal n, fun _ => isByte_of_mem_decimal⟩

theorem isInteger_column (n : Nat) : IsInteger (column n).chars :=
  ⟨decimal n, .inl rfl, Nat.toDigits_ne_nil, fun _ => isDigit_of_mem_decimal⟩

/-- A limit order of the user, open since noon. -/
def openRow (userId : Nat) : MysqlRow where
  id := column 7
  userId := column userId
  ticker := ⟨['S', 'P', 'A', 'R', 'K'], by simp [IsByte]⟩
  side := some ⟨['B'], by simp [IsByte]⟩
  status := some ⟨['O'], by simp [IsByte]⟩
  type := some ⟨['L'], by simp [IsByte]⟩
  amount := column 3
  price := column 2500000
  createdAt := some ⟨['2', '0', '2', '5', '-', '0', '1', '-', '0', '2', ' ', '1', '2', ':', '0',
    '0', ':', '0', '0'], by simp [IsByte]⟩
  filledAt := none

theorem openRow_numeric (userId : Nat) : ∀ row ∈ [openRow userId], row.Numeric := by
  intro row hrow
  obtain rfl := List.mem_singleton.mp hrow
  exact ⟨isInteger_column _, isInteger_column _, isInteger_column _, isInteger_column _⟩

theorem loadsFaithfully_openRow :
    LoadsFaithfully [openRow 5] ↔ ∀ row ∈ [openRow 5], row.InRange :=
  loadsFaithfully_iff [openRow 5] (openRow_numeric 5)

/-- An order of user `2 ^ 32 + 5` is loaded as one of user `5`. -/
theorem openRow_other_user :
    (∀ row ∈ [openRow 4294967301], row.Numeric) ∧ (buildOrder (openRow 4294967301)).userId = 5 ∧
      ¬ LoadsFaithfully [openRow 4294967301] := by
  refine ⟨openRow_numeric _, by decide, fun hload => ?_⟩
  have hrange := inRange_of_loadsFaithfully (openRow_numeric _) hload _ (List.mem_singleton_self _)
  exact absurd hrange.userId.2 (by decide)

end TradeServer
