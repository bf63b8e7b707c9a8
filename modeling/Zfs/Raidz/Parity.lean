import Zfs.Raidz.Code

/-!
# Parity and reconstruction

The parity columns are the two parities of each row of bytes, and the reconstruction functions solve
for the lost bytes of each row.
-/

namespace Zfs

open ByteBuffer DualParity Function RaidzMap List

namespace RaidzMap

variable (rm : RaidzMap) (c k : ℕ)

/-- The byte of a column at a position; short columns are full of 0s. -/
def byteAt (c : ℕ) : BitVec 8 :=
  if k < (rm.rmCol c).rcSize then (rm.rmCol c).rcData k else 0

/-- A byte of a column as an element of the field. -/
def dataAt : Gf256 := (rm.rmCol c).rcData k

/-- The bytes of the columns at a position. -/
def row : ℕ → Gf256 := rm.byteAt k

/-- Columns are made of words, and none is longer than the parity. -/
structure Words (rm : RaidzMap) : Prop where
  /-- The parity is made of words. -/
  parity : 8 ∣ (rm.rmCol 0).rcSize
  /-- So are the data columns, and none is longer. -/
  data : ∀ c, rm.rmFirstdatacol ≤ c → c < rm.rmCols →
    8 ∣ (rm.rmCol c).rcSize ∧ (rm.rmCol c).rcSize ≤ (rm.rmCol 0).rcSize

@[simp]
theorem setCol_self (rm : RaidzMap) (c : ℕ) (rc : RaidzCol) : (rm.setCol c rc).rmCol c = rc :=
  update_self _ _ _

theorem setCol_of_ne {c c' : ℕ} (other : c' ≠ c) (rc : RaidzCol) :
    (rm.setCol c rc).rmCol c' = rm.rmCol c' := update_of_ne other _ _

theorem setData_self (data : Buffer) :
    ((rm.setData c data).rmCol c).rcData = data := by
  rw [setData, setCol_self]

end RaidzMap

theorem bytewise_copy (src : Buffer) : Bytewise (fun i _ => loadWord src i) fun k _ => src k :=
  fun i _ _ small => wordByte_loadWord src i small

theorem bytewise_clear : Bytewise (fun _ _ => 0) fun _ _ => 0 := fun _ _ j _ => wordByte_zero j

theorem bytewise_xor (src : Buffer) :
    Bytewise (fun i word => word ^^^ loadWord src i) fun k byte => byte ^^^ src k := by
  intro i word j small
  rw [wordByte_xor, wordByte_loadWord src i small]

theorem bytewise_mul2 : Bytewise (fun _ word => vdevRaidzMul2Word word) fun _ => vdevRaidzMul2 :=
  fun _ word _ small => wordByte_mul2Word word small

theorem bytewise_mul2_xor (src : Buffer) :
    Bytewise (fun i word => vdevRaidzMul2Word word ^^^ loadWord src i)
      fun k byte => vdevRaidzMul2 byte ^^^ src k := by
  intro i word j small
  rw [wordByte_xor, wordByte_loadWord src i small, wordByte_mul2Word word small]

theorem bytewise_exp2 (src : Buffer) (exp : ℕ) :
    Bytewise (fun i word => mapBytes (fun b => vdevRaidzExp2 b exp) (word ^^^ loadWord src i))
      fun k byte => vdevRaidzExp2 (byte ^^^ src k) exp := by
  intro i word j small
  rw [wordByte_mapBytes _ _ small, wordByte_xor, wordByte_loadWord src i small]

section Columns

variable {rm : RaidzMap} {c k size : ℕ}

variable (words : 8 ∣ (rm.rmCol c).rcSize) (dst_words : 8 ∣ size) (inside : k < size) (dst : Buffer)

include words dst_words inside

theorem copy_pad :
    forWords (min ((rm.rmCol c).rcSize / 8) (size / 8)) (size / 8) (fun _ _ => 0)
      (forWords 0 (min ((rm.rmCol c).rcSize / 8) (size / 8))
        (fun i _ => loadWord (rm.rmCol c).rcData i) dst) k = rm.byteAt k c := by
  rw [forWords_apply bytewise_clear, forWords_apply (bytewise_copy _), byteAt]
  by_cases here : k < (rm.rmCol c).rcSize
  · rw [if_neg (by omega), if_pos (by omega), if_pos here]
  · rw [if_pos (by omega), if_neg here]

theorem xor_col :
    forWords 0 (min ((rm.rmCol c).rcSize / 8) (size / 8))
      (fun i word => word ^^^ loadWord (rm.rmCol c).rcData i) dst k = dst k ^^^ rm.byteAt k c := by
  rw [forWords_apply (bytewise_xor _), byteAt]
  by_cases here : k < (rm.rmCol c).rcSize
  · rw [if_pos (by omega), if_pos here]
  · rw [if_neg (by omega), if_neg here]
    exact BitVec.xor_zero.symm

theorem mul2_col :
    forWords (min ((rm.rmCol c).rcSize / 8) (size / 8)) (size / 8)
      (fun _ word => vdevRaidzMul2Word word)
      (forWords 0 (min ((rm.rmCol c).rcSize / 8) (size / 8))
        (fun i word => vdevRaidzMul2Word word ^^^ loadWord (rm.rmCol c).rcData i) dst) k =
      vdevRaidzMul2 (dst k) ^^^ rm.byteAt k c := by
  rw [forWords_apply bytewise_mul2, forWords_apply (bytewise_mul2_xor _), byteAt]
  by_cases here : k < (rm.rmCol c).rcSize
  · rw [if_neg (by omega), if_pos (by omega), if_pos here]
  · rw [if_pos (by omega), if_neg (by omega), if_neg here]
    exact BitVec.xor_zero.symm

end Columns

variable {β : Type} {step : β → ℕ → β} {first last cols : ℕ}

theorem foldl_columns {Holds : ℕ → β → Prop} {state : β} (start : Holds first state)
    (next : ∀ c state, first ≤ c → c < last → Holds c state → Holds (c + 1) (step state c))
    (order : first ≤ last) : Holds last ((range' first (last - first)).foldl step state) := by
  have run : ∀ count, first + count ≤ last →
      Holds (first + count) ((range' first count).foldl step state) := by
    intro count
    induction count with
    | zero => exact fun _ => start
    | succ count ih =>
      intro inside
      rw [range'_1_concat, foldl_append]
      exact next (first + count) _ (by omega) (by omega) (ih (by omega))
  have whole := run (last - first) (by omega)
  rwa [Nat.add_sub_cancel' order] at whole

/-- A loop over columns whose first round sets what the others carry on. -/
theorem foldl_columns_set {Holds : ℕ → β → Prop}
    (start : ∀ state, Holds (first + 1) (step state first))
    (next : ∀ c state, first < c → c < last → Holds c state → Holds (c + 1) (step state c))
    (order : first < last) (state : β) :
    Holds last ((range' first (last - first)).foldl step state) := by
  let Later (c : ℕ) (state : β) : Prop := first < c → Holds c state
  have run : Later last ((range' first (last - first)).foldl step state) := by
    refine foldl_columns (fun bad => absurd bad (lt_irrefl first))
      (fun c state lower upper holds _ => ?_)
      order.le
    rcases lower.eq_or_lt with rfl | later
    · exact start state
    · exact next c state later upper (holds later)
  exact run order

variable {rm : RaidzMap} {k : ℕ}

namespace RaidzMap

theorem Words.min_eq (words : rm.Words) {c : ℕ} (lower : rm.rmFirstdatacol ≤ c)
    (upper : c < rm.rmCols) :
    (rm.rmCol c).rcSize / 8 = min ((rm.rmCol c).rcSize / 8) ((rm.rmCol 0).rcSize / 8) :=
  (Nat.min_eq_left (Nat.div_le_div_right (words.data c lower upper).2)).symm

/-- The sum of a row. -/
def rowP (rm : RaidzMap) (k : ℕ) : Gf256 := sumParity (rm.row k) rm.rmFirstdatacol rm.rmCols

/-- The weighted sum of a row. -/
def rowQ (rm : RaidzMap) (k : ℕ) : Gf256 :=
  turnParity raidzTurn (rm.row k) rm.rmFirstdatacol rm.rmCols

end RaidzMap

theorem sumParity_one (row : ℕ → Gf256) (first : ℕ) :
    sumParity row first (first + 1) = row first := by
  rw [sumParity_succ row le_rfl, sumParity, Finset.Ico_self, Finset.sum_empty, zero_add]

theorem turnParity_one (row : ℕ → Gf256) (first : ℕ) :
    turnParity raidzTurn row first (first + 1) = row first := by
  rw [turnParity_succ raidzTurn row le_rfl, turnParity, Finset.Ico_self, Finset.sum_empty, map_zero,
    zero_add]

theorem generateParityP_data (words : rm.Words) (some_data : rm.rmFirstdatacol < rm.rmCols)
    (full : (rm.rmCol rm.rmFirstdatacol).rcSize = (rm.rmCol 0).rcSize)
    (inside : k < (rm.rmCol 0).rcSize) :
    ((vdevRaidzGenerateParityP rm).rmCol 0).rcData k = rm.rowP k := by
  rw [vdevRaidzGenerateParityP, setData_self]
  let Holds (c : ℕ) (p : Buffer) : Prop := p k = sumParity (rm.row k) rm.rmFirstdatacol c
  refine @foldl_columns_set _ _ _ _ Holds (fun p => ?_) (fun c p lower upper holds => ?_)
    some_data _
  · simp only [Holds]
    rw [generateParityPCol, if_pos rfl, forWords_apply (bytewise_copy _), sumParity_one,
      Nat.mul_div_cancel' (words.data _ le_rfl some_data).1, full, if_pos (by omega)]
    exact (if_pos (full ▸ inside)).symm
  · simp only [Holds] at holds ⊢
    rw [generateParityPCol, if_neg (by omega), words.min_eq lower.le upper,
      xor_col (words.data c lower.le upper).1 words.parity inside, holds, sumParity_succ _ lower.le]
    rfl

/-- What `vdev_raidz_generate_parity_pq` makes of P and Q. -/
theorem generatedPq_apply (words : rm.Words) (some_data : rm.rmFirstdatacol < rm.rmCols)
    (inside : k < (rm.rmCol 0).rcSize) :
    (generatedPq rm).1 k = rm.rowP k ∧ (generatedPq rm).2 k = rm.rowQ k := by
  let Holds (c : ℕ) (parity : Buffer × Buffer) : Prop :=
    parity.1 k = sumParity (rm.row k) rm.rmFirstdatacol c ∧
      parity.2 k = turnParity raidzTurn (rm.row k) rm.rmFirstdatacol c
  refine @foldl_columns_set _ _ _ _ Holds (fun parity => ?_) (fun c parity lower upper holds => ?_)
    some_data _
  · have column := (words.data _ le_rfl some_data).1
    simp only [Holds]
    rw [generateParityPqCol, if_pos rfl, words.min_eq le_rfl some_data]
    exact ⟨(copy_pad column words.parity inside _).trans (sumParity_one _ _).symm,
      (copy_pad column words.parity inside _).trans (turnParity_one _ _).symm⟩
  · have column := (words.data c lower.le upper).1
    rw [generateParityPqCol, if_neg (by omega), words.min_eq lower.le upper]
    constructor
    · simp only
      rw [xor_col column words.parity inside, holds.1, sumParity_succ _ lower.le]
      rfl
    · simp only
      rw [mul2_col column words.parity inside, holds.2, turnParity_succ _ _ lower.le]
      rfl

theorem update_row_of_ne {x c : ℕ} (other : c ≠ x) :
    update (rm.row k) x 0 c = rm.row k c := update_of_ne other _ _

theorem reconstructP_data (words : rm.Words) {x : ℕ} (lower : rm.rmFirstdatacol ≤ x)
    (upper : x < rm.rmCols) (inside : k < (rm.rmCol x).rcSize) :
    (vdevRaidzReconstructP rm x).dataAt x k =
      rm.dataAt 0 k + sumParity (update (rm.row k) x 0) rm.rmFirstdatacol rm.rmCols := by
  have column := (words.data x lower upper).1
  rw [dataAt, vdevRaidzReconstructP, setData_self]
  let Holds (c : ℕ) (dst : Buffer) : Prop := dst k = rm.dataAt 0 k +
    sumParity (update (rm.row k) x 0) rm.rmFirstdatacol c
  refine @foldl_columns _ _ _ _ Holds _ ?_ (fun c dst c_lower c_upper holds => ?_)
    (lower.trans upper.le)
  · simp only [Holds]
    rw [forWords_apply (bytewise_copy _), if_pos (by omega), sumParity, Finset.Ico_self,
      Finset.sum_empty, add_zero]
    rfl
  · simp only [Holds] at holds ⊢
    rw [sumParity_succ _ c_lower, ← add_assoc, ← holds, reconstructPCol]
    split_ifs with same
    · rw [same, update_self]
      exact BitVec.xor_zero.symm
    · rw [xor_col (words.data c c_lower c_upper).1 column inside, update_row_of_ne same]
      rfl

/-- The first loop of `vdev_raidz_reconstruct_q` leaves out its column. -/
theorem reconstructQCol_apply (words : rm.Words) {x c : ℕ} (x_words : 8 ∣ (rm.rmCol x).rcSize)
    (inside : k < (rm.rmCol x).rcSize) (lower : rm.rmFirstdatacol ≤ c) (upper : c < rm.rmCols)
    (dst : Buffer) :
    reconstructQCol rm x dst c k =
      if c = rm.rmFirstdatacol then update (rm.row k) x 0 c
      else raidzTurn.map (dst k) + update (rm.row k) x 0 c := by
  have column := (words.data c lower upper).1
  simp only [reconstructQCol]
  by_cases same : c = x
  · subst same
    rw [if_pos rfl, Nat.zero_min, update_self]
    split_ifs
    · rw [forWords_apply bytewise_clear, if_pos (by omega)]
      rfl
    · rw [forWords_apply bytewise_mul2, if_pos (by omega), forWords_of_le _ (by omega)]
      exact BitVec.xor_zero.symm
  · rw [if_neg same, update_row_of_ne same]
    by_cases start : c = rm.rmFirstdatacol
    · rw [if_pos start, if_pos start]
      exact copy_pad column x_words inside dst
    · rw [if_neg start, if_neg start]
      exact mul2_col column x_words inside dst

theorem reconstructQ_data (words : rm.Words) {x : ℕ} (lower : rm.rmFirstdatacol ≤ x)
    (upper : x < rm.rmCols) (inside : k < (rm.rmCol x).rcSize) :
    (vdevRaidzReconstructQ rm x).dataAt x k = raidzTurn.map^[255 - (rm.rmCols - 1 - x)]
      (turnParity raidzTurn (update (rm.row k) x 0) rm.rmFirstdatacol rm.rmCols +
        rm.dataAt 1 k) := by
  have column := (words.data x lower upper).1
  rw [dataAt, vdevRaidzReconstructQ, setData_self]
  let Holds (c : ℕ) (dst : Buffer) : Prop :=
    dst k = turnParity raidzTurn (update (rm.row k) x 0) rm.rmFirstdatacol c
  have others : Holds rm.rmCols (rm.dataCols.foldl (reconstructQCol rm x) (rm.rmCol x).rcData) := by
    refine foldl_columns_set (fun dst => ?_) (fun c dst c_lower c_upper holds => ?_)
      (lower.trans_lt upper) _
    · simp only [Holds]
      rw [reconstructQCol_apply words column inside le_rfl (lower.trans_lt upper), if_pos rfl,
        turnParity_one]
    · simp only [Holds] at holds ⊢
      rw [reconstructQCol_apply words column inside c_lower.le c_upper, if_neg (by omega), holds,
        turnParity_succ _ _ c_lower.le]
  simp only [Holds] at others
  rw [forWords_apply (bytewise_exp2 _ _), if_pos (by omega), exp2_eq_iterate _ (by omega), others]
  rfl

theorem foldl_reconstructPqByte (ysize aexp bexp : ℕ) (p q pxy qxy : Buffer)
    (data : Buffer × Buffer) {count k : ℕ} (inside : k < count) :
    let solved := vdevRaidzExp2 (p k ^^^ pxy k) aexp ^^^ vdevRaidzExp2 (q k ^^^ qxy k) bexp
    let result := (range count).foldl (reconstructPqByte ysize aexp bexp p q pxy qxy) data
    result.1 k = solved ∧ (k < ysize → result.2 k = p k ^^^ pxy k ^^^ solved) := by
  induction count with
  | zero => omega
  | succ count ih =>
    simp only [range_succ, foldl_append, foldl_cons, foldl_nil]
    generalize (range count).foldl (reconstructPqByte ysize aexp bexp p q pxy qxy) data =
      state at ih
    rw [reconstructPqByte]
    rcases Nat.lt_succ_iff_lt_or_eq.mp inside with before | rfl
    · obtain ⟨x_eq, y_eq⟩ := ih before
      split_ifs <;> exact ⟨by simp [before.ne, x_eq], fun short => by simp [before.ne, y_eq short]⟩
    · by_cases short : k < ysize <;> simp [short]

theorem pq_exponents {x y : ℕ} (order : x < y) (upper : y < cols) (narrow : cols ≤ 255) :
    let a := vdevRaidzPow2 (255 + x - y)
    let b := vdevRaidzPow2 (255 - (cols - 1 - x))
    let log := vdevRaidzLog2 (a ^^^ 1)
    let aexp := vdevRaidzLog2 (vdevRaidzExp2 a (255 - log))
    let bexp := vdevRaidzLog2 (vdevRaidzExp2 b (255 - log))
    aexp ≤ 255 ∧ bexp ≤ 255 ∧
      (∀ byte, vdevRaidzMul2^[log] byte = vdevRaidzMul2^[255 - (y - x)] byte ^^^ byte) ∧
      (∀ byte, vdevRaidzMul2^[aexp + log] byte = vdevRaidzMul2^[255 - (y - x)] byte) ∧
      ∀ byte, vdevRaidzMul2^[bexp + log + (cols - 1 - x)] byte = byte := by
  intro a b log aexp bexp
  have exp_eq : 255 + x - y = 255 - (y - x) := by omega
  have log_lt : log < 255 := log2_lt _
  refine ⟨(log2_lt _).le, (log2_lt _).le, fun byte => ?_, fun byte => ?_, fun byte => ?_⟩
  · have sum := iterate_log2_add_one (by omega : 0 < 255 - (y - x)) (by omega) byte
    rw [← exp_eq] at sum ⊢
    exact sum
  · have power := @iterate_log2_exp2 (255 + x - y) (255 - log) (by omega) (by omega)
    rw [iterate_add_apply, power, ← iterate_add_apply,
      show 255 - log + (255 + x - y) + log = 255 - (y - x) + 255 by omega,
      iterate_add_apply, iterate_mul2_period]
  · have power := @iterate_log2_exp2 (255 - (cols - 1 - x)) (255 - log) (by omega) (by omega)
    rw [Nat.add_assoc, iterate_add_apply, power, ← iterate_add_apply,
      show 255 - log + (255 - (cols - 1 - x)) + (log + (cols - 1 - x)) = 255 + 255 by omega,
      iterate_add_apply, iterate_mul2_period, iterate_mul2_period]

/-- The two exponents solve for the first of two lost bytes. -/
theorem recover_pq {row : ℕ → Gf256} {x y : ℕ} (lower : first ≤ x) (order : x < y)
    (upper : y < cols) (narrow : cols ≤ 255) {sum weighted : BitVec 8}
    (sum_eq : sum = sumParity row first cols + sumParity (update (update row x 0) y 0) first cols)
    (weighted_eq : weighted = turnParity raidzTurn row first cols +
      turnParity raidzTurn (update (update row x 0) y 0) first cols) :
    let a := vdevRaidzPow2 (255 + x - y)
    let b := vdevRaidzPow2 (255 - (cols - 1 - x))
    let tmp := 255 - vdevRaidzLog2 (a ^^^ 1)
    vdevRaidzExp2 sum (vdevRaidzLog2 (vdevRaidzExp2 a tmp)) ^^^
      vdevRaidzExp2 weighted (vdevRaidzLog2 (vdevRaidzExp2 b tmp)) = row x := by
  intro a b tmp
  obtain ⟨a_small, b_small, log_eq, a_eq, b_eq⟩ := pq_exponents order upper narrow
  have short : y - x ≤ raidzTurn.period := by
    simp only [raidzTurn]
    omega
  have solved := @recover_both _ _ raidzTurn row first cols x y lower order upper short _ _ _ log_eq
    a_eq b_eq
  rw [← sum_eq, ← weighted_eq] at solved
  rw [exp2_eq_iterate sum a_small, exp2_eq_iterate weighted b_small]
  exact solved

/-- Two maps of one layout. -/
structure SameLayout (rm orig : RaidzMap) : Prop where
  cols : rm.rmCols = orig.rmCols
  first : rm.rmFirstdatacol = orig.rmFirstdatacol
  size : ∀ c, (rm.rmCol c).rcSize = (orig.rmCol c).rcSize

/-- A column holds its original contents. -/
def SameData (rm orig : RaidzMap) (c : ℕ) : Prop :=
  ∀ k < (orig.rmCol c).rcSize, rm.dataAt c k = orig.dataAt c k

/-- P holds the sum of the data columns. -/
structure RaidzMap.Coded (rm : RaidzMap) : Prop where
  words : rm.Words
  narrow : rm.rmCols ≤ 255
  sorted : ∀ c c', rm.rmFirstdatacol ≤ c → c ≤ c' → c' < rm.rmCols →
    (rm.rmCol c').rcSize ≤ (rm.rmCol c).rcSize
  p : ∀ k < (rm.rmCol 0).rcSize, rm.dataAt 0 k = rm.rowP k

/-- Q holds the weighted sum of the data columns, too. -/
structure RaidzMap.CodedPq (rm : RaidzMap) : Prop extends rm.Coded where
  two : rm.rmFirstdatacol = 2
  wide : (rm.rmCol 1).rcSize = (rm.rmCol 0).rcSize
  q : ∀ k < (rm.rmCol 0).rcSize, rm.dataAt 1 k = rm.rowQ k

variable {orig : RaidzMap}

theorem SameLayout.words (layout : SameLayout rm orig) (words : orig.Words) : rm.Words := by
  refine ⟨by rw [layout.size]; exact words.parity, fun c lower upper => ?_⟩
  rw [layout.size, layout.size]
  exact words.data c (layout.first ▸ lower) (layout.cols ▸ upper)

theorem SameData.row_eq (layout : SameLayout rm orig) {c : ℕ} (same : SameData rm orig c) (k : ℕ) :
    rm.row k c = orig.row k c := by
  change rm.byteAt k c = orig.byteAt k c
  rw [byteAt, byteAt, layout.size]
  split_ifs with inside
  · exact same k inside
  · rfl

theorem RaidzMap.row_of_lt {c : ℕ} (inside : k < (rm.rmCol c).rcSize) :
    rm.row k c = rm.dataAt c k :=
  if_pos inside

theorem update_row_eq (layout : SameLayout rm orig) {x c : ℕ}
    (same : c ≠ x → SameData rm orig c) :
    update (rm.row k) x 0 c = update (orig.row k) x 0 c := by
  by_cases here : c = x
  · rw [here, update_self, update_self]
  · rw [update_of_ne here, update_of_ne here, (same here).row_eq layout]

section Single

variable (layout : SameLayout rm orig) {x : ℕ} (lower : orig.rmFirstdatacol ≤ x)
  (upper : x < orig.rmCols)
  (others : ∀ c, orig.rmFirstdatacol ≤ c → c < orig.rmCols → c ≠ x → SameData rm orig c)

include layout lower upper others

/-- `vdev_raidz_reconstruct_p` restores the only lost data column. -/
theorem reconstructP_restores (coded : orig.Coded) (parity : SameData rm orig 0) :
    SameData (vdevRaidzReconstructP rm x) orig x := by
  intro k inside
  have below : k < (orig.rmCol 0).rcSize := inside.trans_le (coded.words.data x lower upper).2
  rw [reconstructP_data (layout.words coded.words) (layout.first ▸ lower) (layout.cols ▸ upper)
    (by rwa [layout.size]), parity k below, coded.p k below, rowP, layout.first, layout.cols,
    ← row_of_lt inside]
  rw [sumParity_congr fun c c_lower c_upper => update_row_eq layout (others c c_lower c_upper)]
  exact recover_sum raidzTurn lower upper

/-- `vdev_raidz_reconstruct_q` restores the only lost data column. -/
theorem reconstructQ_restores (coded : orig.CodedPq) (parity : SameData rm orig 1) :
    SameData (vdevRaidzReconstructQ rm x) orig x := by
  intro k inside
  have below : k < (orig.rmCol 0).rcSize := inside.trans_le (coded.words.data x lower upper).2
  have narrow := coded.narrow
  rw [reconstructQ_data (layout.words coded.words) (layout.first ▸ lower) (layout.cols ▸ upper)
    (by rwa [layout.size]), parity k (coded.wide ▸ below), coded.q k below, rowQ, layout.first,
    layout.cols, ← row_of_lt inside]
  rw [turnParity_congr raidzTurn fun c c_lower c_upper =>
    update_row_eq layout (others c c_lower c_upper), add_comm]
  refine recover_turn raidzTurn lower upper fun value => ?_
  rw [show 255 - (orig.rmCols - 1 - x) + (orig.rmCols - 1 - x) = 255 by omega]
  exact raidzTurn.iterate_period value

end Single

section Double

variable {x y : ℕ} {fresh : ℕ → Buffer}

theorem reconstructPqMap_col {c : ℕ} (data : 2 ≤ c) : (reconstructPqMap rm x y fresh).rmCol c =
    if c = x ∨ c = y then { rm.rmCol c with rcSize := 0 } else rm.rmCol c := by
  have not_p : c ≠ 0 := by omega
  have not_q : c ≠ 1 := by omega
  obtain rfl | other := eq_or_ne c y <;> obtain rfl | other' := eq_or_ne c x <;>
    simp [reconstructPqMap, setData, setSize, setCol, *]

theorem reconstructPqMap_size_p (x_data : 2 ≤ x) (y_data : 2 ≤ y) :
    ((reconstructPqMap rm x y fresh).rmCol 0).rcSize = (rm.rmCol 0).rcSize := by
  have x_ne : 0 ≠ x := by omega
  have y_ne : 0 ≠ y := by omega
  simp [reconstructPqMap, setData, setSize, setCol, x_ne, y_ne]

theorem reconstructPqMap_words (words : rm.Words) (two : rm.rmFirstdatacol = 2) (x_data : 2 ≤ x)
    (y_data : 2 ≤ y) : (reconstructPqMap rm x y fresh).Words := by
  refine ⟨by rw [reconstructPqMap_size_p x_data y_data]; exact words.parity, ?_⟩
  intro c (lower : rm.rmFirstdatacol ≤ c) (upper : c < rm.rmCols)
  rw [reconstructPqMap_size_p x_data y_data, reconstructPqMap_col (two ▸ lower)]
  split_ifs
  · exact ⟨dvd_zero 8, Nat.zero_le _⟩
  · exact words.data c lower upper

theorem reconstructPqMap_row {c : ℕ} (data : 2 ≤ c) :
    (reconstructPqMap rm x y fresh).row k c =
      update (update (rm.row k) x 0) y 0 c := by
  change (reconstructPqMap rm x y fresh).byteAt k c = _
  rw [byteAt, reconstructPqMap_col data, update_apply, update_apply]
  by_cases y_lost : c = y
  · rw [if_pos (Or.inr y_lost), if_pos y_lost]
    rfl
  · by_cases x_lost : c = x
    · rw [if_pos (Or.inl x_lost), if_neg y_lost, if_pos x_lost]
      rfl
    · rw [if_neg (not_or.mpr ⟨x_lost, y_lost⟩), if_neg y_lost, if_neg x_lost]
      rfl

theorem generatedPq_others (words : rm.Words) (two : rm.rmFirstdatacol = 2) (x_data : 2 ≤ x)
    (order : x < y) (upper : y < rm.rmCols) (inside : k < (rm.rmCol 0).rcSize) :
    let others := update (update (rm.row k) x 0) y 0
    (generatedPq (reconstructPqMap rm x y fresh)).1 k =
        sumParity others rm.rmFirstdatacol rm.rmCols ∧
      (generatedPq (reconstructPqMap rm x y fresh)).2 k =
        turnParity raidzTurn others rm.rmFirstdatacol rm.rmCols := by
  have y_data : 2 ≤ y := by omega
  have some_data : rm.rmFirstdatacol < rm.rmCols := by omega
  obtain ⟨p_eq, q_eq⟩ := @generatedPq_apply (reconstructPqMap rm x y fresh) k
    (reconstructPqMap_words words two x_data y_data) some_data
    (by rw [reconstructPqMap_size_p x_data y_data]; exact inside)
  have same : ∀ c, rm.rmFirstdatacol ≤ c → c < rm.rmCols →
      (reconstructPqMap rm x y fresh).row k c =
        update (update (rm.row k) x 0) y 0 c :=
    fun c lower _ => reconstructPqMap_row (two ▸ lower)
  exact ⟨p_eq.trans (@sumParity_congr Gf256 _ _ _ _ _ same),
    q_eq.trans (turnParity_congr raidzTurn same)⟩

/-- What `vdev_raidz_reconstruct_pq` makes of the two columns. -/
theorem reconstructPq_data (order : x < y) (inside : k < (rm.rmCol x).rcSize) :
    let parity := generatedPq (reconstructPqMap rm x y fresh)
    let a := vdevRaidzPow2 (255 + x - y)
    let b := vdevRaidzPow2 (255 - (rm.rmCols - 1 - x))
    let tmp := 255 - vdevRaidzLog2 (a ^^^ 1)
    let solved := vdevRaidzExp2 ((rm.rmCol 0).rcData k ^^^ parity.1 k)
        (vdevRaidzLog2 (vdevRaidzExp2 a tmp)) ^^^
      vdevRaidzExp2 ((rm.rmCol 1).rcData k ^^^ parity.2 k) (vdevRaidzLog2 (vdevRaidzExp2 b tmp))
    (vdevRaidzReconstructPq rm x y fresh).dataAt x k = solved ∧ (k < (rm.rmCol y).rcSize →
      (vdevRaidzReconstructPq rm x y fresh).dataAt y k =
        (rm.rmCol 0).rcData k ^^^ parity.1 k ^^^ solved) := by
  intro parity a b tmp solved
  have loop := foldl_reconstructPqByte (rm.rmCol y).rcSize (vdevRaidzLog2 (vdevRaidzExp2 a tmp))
    (vdevRaidzLog2 (vdevRaidzExp2 b tmp)) (rm.rmCol 0).rcData (rm.rmCol 1).rcData parity.1 parity.2
    ((rm.rmCol x).rcData, (rm.rmCol y).rcData) inside
  simp only [dataAt, vdevRaidzReconstructPq]
  constructor
  · rw [setData, setCol_of_ne _ order.ne, setData_self]
    exact loop.1
  · rw [setData_self]
    exact loop.2

/-- `vdev_raidz_reconstruct_pq` restores the only two lost data columns. -/
theorem reconstructPq_restores (coded : orig.CodedPq) (layout : SameLayout rm orig)
    (lower : orig.rmFirstdatacol ≤ x) (order : x < y)
    (upper : y < orig.rmCols)
    (others : ∀ c, orig.rmFirstdatacol ≤ c → c < orig.rmCols → c ≠ x → c ≠ y → SameData rm orig c)
    (p_same : SameData rm orig 0) (q_same : SameData rm orig 1) :
    SameData (vdevRaidzReconstructPq rm x y fresh) orig x ∧
    SameData (vdevRaidzReconstructPq rm x y fresh) orig y := by
  have shorter := coded.sorted x y lower order.le upper
  have x_fits := (coded.words.data x lower (order.trans upper)).2
  have words := layout.words coded.words
  -- in every row below the end of column x, the parity of both maps differs by the lost bytes
  have rows : ∀ k < (orig.rmCol x).rcSize,
      ((rm.rmCol 0).rcData k ^^^ (generatedPq (reconstructPqMap rm x y fresh)).1 k =
        sumParity (orig.row k) orig.rmFirstdatacol orig.rmCols +
          sumParity (update (update (orig.row k) x 0) y 0) orig.rmFirstdatacol
            orig.rmCols) ∧
      ((rm.rmCol 1).rcData k ^^^ (generatedPq (reconstructPqMap rm x y fresh)).2 k =
        turnParity raidzTurn (orig.row k) orig.rmFirstdatacol orig.rmCols +
          turnParity raidzTurn (update (update (orig.row k) x 0) y 0)
            orig.rmFirstdatacol orig.rmCols) := by
    intro k inside
    have below := inside.trans_le x_fits
    obtain ⟨p_eq, q_eq⟩ := @generatedPq_others rm k x y fresh words (layout.first.trans coded.two)
      (coded.two ▸ lower) order (layout.cols ▸ upper) (by rw [layout.size]; exact below)
    have same : ∀ c, orig.rmFirstdatacol ≤ c → c < orig.rmCols →
        update (update (rm.row k) x 0) y 0 c =
          update (update (orig.row k) x 0) y 0 c := by
      intro c c_lower c_upper
      by_cases y_lost : c = y
      · rw [y_lost, update_self, update_self]
      · rw [update_of_ne y_lost, update_of_ne y_lost]
        exact update_row_eq layout fun x_kept => others c c_lower c_upper x_kept y_lost
    rw [layout.first, layout.cols] at p_eq q_eq
    rw [sumParity_congr same] at p_eq
    rw [turnParity_congr raidzTurn same] at q_eq
    have p_data : (rm.rmCol 0).rcData k = orig.rowP k := (p_same k below).trans (coded.p k below)
    have q_data : (rm.rmCol 1).rcData k = orig.rowQ k :=
      (q_same k (coded.wide ▸ below)).trans (coded.q k below)
    rw [p_data, q_data, p_eq, q_eq]
    exact ⟨rfl, rfl⟩
  have solved : ∀ k < (orig.rmCol x).rcSize,
      (vdevRaidzReconstructPq rm x y fresh).dataAt x k = orig.row k x := by
    intro k inside
    have data := (@reconstructPq_data rm k x y fresh order (by rwa [layout.size])).1
    rw [layout.cols] at data
    exact data.trans (recover_pq lower order upper coded.narrow (rows k inside).1 (rows k inside).2)
  refine ⟨fun k inside => (solved k inside).trans (row_of_lt inside), fun k inside => ?_⟩
  have inside_x := inside.trans_le shorter
  have data := @reconstructPq_data rm k x y fresh order (by rwa [layout.size])
  have y_data := data.2 (by rwa [layout.size])
  rw [data.1.symm.trans (solved k inside_x), (rows k inside_x).1,
    sumParity_add_update₂ raidzTurn lower order upper] at y_data
  refine y_data.trans ?_
  rw [← row_of_lt inside]
  have cancel : orig.row k y + orig.row k x + orig.row k x = orig.row k y := by
    rw [add_assoc, raidzTurn.double, add_zero]
  exact cancel

end Double

end Zfs
