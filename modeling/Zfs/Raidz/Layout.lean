import Zfs.Raidz.Parity

/-!
# Blocks on a RAID-Z vdev

The columns of a block: their sizes are whole sectors that do not grow from one column to the next,
and their parity restores any lost data.
-/

namespace Zfs

open ByteBuffer DualParity Function RaidzMap

/-- A RAID-Z vdev, as `vdev_raidz_open` accepts it. -/
structure RaidzVdev where
  /-- The logarithm of the unit. -/
  vdevAshift : ℕ
  /-- The number of devices. -/
  vdevChildren : ℕ
  /-- The number of parity columns. -/
  vdevNparity : ℕ
  /-- A unit is a sector or more. -/
  sector : 9 ≤ vdevAshift
  /-- At most `VDEV_RAIDZ_MAXPARITY`. -/
  parity : vdevNparity = 1 ∨ vdevNparity = 2
  /-- There is a data column. -/
  wide : vdevNparity < vdevChildren
  /-- The field has 255 powers of 2. -/
  narrow : vdevChildren ≤ 255

/-- Where a block is on a RAID-Z vdev. -/
structure RaidzBlock where
  vd : RaidzVdev
  /-- The offset on the vdev. -/
  ioOffset : ℕ
  ioSize : ℕ

namespace RaidzBlock

variable (block : RaidzBlock) (ioData : Buffer) (fresh : ℕ → Buffer)

/-- The columns of a block with its contents. -/
def mapAlloc : RaidzMap :=
  vdevRaidzMapAlloc block.ioOffset block.ioSize ioData block.vd.vdevAshift block.vd.vdevChildren
    block.vd.vdevNparity fresh

/-- The sectors that every column has. -/
def fullSectors : ℕ :=
  (block.ioSize >>> block.vd.vdevAshift) / (block.vd.vdevChildren - block.vd.vdevNparity)

/-- The sectors that remain. -/
def extraSectors : ℕ :=
  (block.ioSize >>> block.vd.vdevAshift) -
    block.fullSectors * (block.vd.vdevChildren - block.vd.vdevNparity)

/-- The number of columns that have another sector. -/
def bigCols : ℕ := if block.extraSectors = 0 then 0 else block.extraSectors + block.vd.vdevNparity

/-- The number of columns. -/
def cols : ℕ := if block.fullSectors = 0 then block.bigCols else block.vd.vdevChildren

/-- The size of a column. -/
def size (c : ℕ) : ℕ := colSize block.fullSectors block.bigCols block.vd.vdevAshift c

/-- Where a data column starts in the block. -/
def start (c : ℕ) : ℕ :=
  ((List.range' block.vd.vdevNparity (c - block.vd.vdevNparity)).map block.size).sum

theorem mapAlloc_first : (block.mapAlloc ioData fresh).rmFirstdatacol = block.vd.vdevNparity := by
  rw [mapAlloc, vdevRaidzMapAlloc]
  split <;> rfl

theorem mapAlloc_cols : (block.mapAlloc ioData fresh).rmCols = block.cols := by
  rw [mapAlloc, vdevRaidzMapAlloc]
  split <;> rfl

theorem mapAlloc_col (c : ℕ) : ∃ devidx offset, (block.mapAlloc ioData fresh).rmCol c =
    ⟨devidx, offset, block.size c, if c < block.vd.vdevNparity then fresh c
      else fun k => ioData (block.start c + k), 0, false, false⟩ := by
  rw [mapAlloc, vdevRaidzMapAlloc]
  split
  · by_cases second : c = 1
    · subst second
      exact ⟨_, _, setCol_self _ _ _⟩
    · rw [setCol_of_ne _ second]
      by_cases parity : c = 0
      · subst parity
        exact ⟨_, _, setCol_self _ _ _⟩
      · rw [setCol_of_ne _ parity]
        exact ⟨_, _, rfl⟩
  · exact ⟨_, _, rfl⟩

theorem mapAlloc_size (c : ℕ) : ((block.mapAlloc ioData fresh).rmCol c).rcSize = block.size c := by
  obtain ⟨_, _, same⟩ := block.mapAlloc_col ioData fresh c
  rw [same]

theorem size_words (c : ℕ) : 8 ∣ block.size c := by
  have unit : 8 ∣ 2 ^ block.vd.vdevAshift :=
    pow_dvd_pow 2 (by have := block.vd.sector; omega : 3 ≤ _)
  rw [size, colSize, Nat.shiftLeft_eq]
  exact unit.mul_left _

theorem size_le {c c' : ℕ} (order : c ≤ c') : block.size c' ≤ block.size c := by
  rw [size, size, colSize, colSize, Nat.shiftLeft_eq, Nat.shiftLeft_eq]
  refine Nat.mul_le_mul_right _ (Nat.add_le_add_left ?_ _)
  split_ifs <;> omega

theorem bigCols_lt : block.bigCols < block.vd.vdevChildren := by
  have wide := block.vd.wide
  have positive : 0 < block.vd.vdevChildren - block.vd.vdevNparity := by omega
  have remainder := Nat.mod_lt (block.ioSize >>> block.vd.vdevAshift) positive
  rw [Nat.mod_eq_sub_div_mul] at remainder
  have extra_lt : block.extraSectors < block.vd.vdevChildren - block.vd.vdevNparity := remainder
  rw [bigCols]
  split_ifs <;> omega

theorem cols_le : block.cols ≤ block.vd.vdevChildren := by
  rw [cols]
  split_ifs
  · exact block.bigCols_lt.le
  · exact le_rfl

theorem size_first : block.size block.vd.vdevNparity = block.size 0 := by
  simp only [size, colSize, bigCols]
  split_ifs <;> first | rfl | omega

/-- A block has data columns, or no bytes at all. -/
theorem cols_cases : block.vd.vdevNparity < block.cols ∨ block.cols = 0 ∧ block.size 0 = 0 := by
  have wide := block.vd.wide
  by_cases none : block.fullSectors = 0
  · rw [cols, if_pos none]
    by_cases big : block.bigCols = 0
    · refine .inr ⟨big, ?_⟩
      rw [size, colSize, none, big]
      exact Nat.zero_shiftLeft _
    · simp only [bigCols] at big ⊢
      split_ifs at big ⊢ with whole
      · exact absurd rfl big
      · omega
  · rw [cols, if_neg none]
    exact .inl wide

theorem mapAlloc_words : (block.mapAlloc ioData fresh).Words := by
  refine ⟨by rw [mapAlloc_size]; exact block.size_words 0, fun c _ _ => ?_⟩
  rw [mapAlloc_size, mapAlloc_size]
  exact ⟨block.size_words c, block.size_le (Nat.zero_le c)⟩

end RaidzBlock

theorem setData_fields (rm : RaidzMap) (c c' : ℕ) (data : Buffer) :
    { (rm.setData c data).rmCol c' with rcData := (rm.rmCol c').rcData } = rm.rmCol c' := by
  rw [setData]
  by_cases here : c' = c
  · rw [here, setCol_self]
  · rw [setCol_of_ne _ here]

theorem setData_layout (rm : RaidzMap) (c : ℕ) (data : Buffer) :
    SameLayout (rm.setData c data) rm where
  cols := rfl
  first := rfl
  size c' := (congrArg RaidzCol.rcSize (setData_fields rm c c' data) :)

theorem SameLayout.trans {first second third : RaidzMap} (left : SameLayout first second)
    (right : SameLayout second third) : SameLayout first third where
  cols := left.cols.trans right.cols
  first := left.first.trans right.first
  size c := (left.size c).trans (right.size c)

section Generated

variable {rm : RaidzMap} {c k : ℕ}

theorem row_setData {c' : ℕ} (other : c ≠ c') (data : Buffer) :
    (rm.setData c' data).row k c = rm.row k c := by
  change (rm.setData c' data).byteAt k c = rm.byteAt k c
  rw [byteAt, byteAt, setData, setCol_of_ne _ other]

theorem generateParityP_col (parity : 0 < rm.rmFirstdatacol) (data : rm.rmFirstdatacol ≤ c) :
    (vdevRaidzGenerateParityP rm).rmCol c = rm.rmCol c :=
  setCol_of_ne _ (by omega) _

theorem generateParityPq_col (two : rm.rmFirstdatacol = 2) (data : rm.rmFirstdatacol ≤ c) :
    (vdevRaidzGenerateParityPq rm).rmCol c = rm.rmCol c :=
  (setCol_of_ne _ (by omega) _).trans (setCol_of_ne _ (by omega) _)

theorem generateParityPq_row (two : rm.rmFirstdatacol = 2) (data : rm.rmFirstdatacol ≤ c) :
    (vdevRaidzGenerateParityPq rm).row k c = rm.row k c :=
  (row_setData (by omega) _).trans (row_setData (by omega) _)

end Generated

namespace RaidzBlock

variable (block : RaidzBlock) (ioData : Buffer) (fresh : ℕ → Buffer)

theorem mapAlloc_parity : 0 < (block.mapAlloc ioData fresh).rmFirstdatacol := by
  rw [mapAlloc_first]
  have parity := block.vd.parity
  omega

/-- What all maps of the block have in common. -/
theorem coded_of_layout {rm : RaidzMap} (layout : SameLayout rm (block.mapAlloc ioData fresh))
    (p : block.vd.vdevNparity < block.cols → ∀ k < block.size 0, rm.dataAt 0 k = rm.rowP k) :
    rm.Coded where
  words := layout.words (block.mapAlloc_words ioData fresh)
  narrow := by
    rw [layout.cols, mapAlloc_cols]
    exact block.cols_le.trans block.vd.narrow
  sorted c c' _ order _ := by
    rw [layout.size, layout.size, mapAlloc_size, mapAlloc_size]
    exact block.size_le order
  p k inside := by
    rw [layout.size, mapAlloc_size] at inside
    rcases block.cols_cases with some_data | ⟨_, empty⟩
    · exact p some_data k inside
    · omega

theorem generateParityP_coded :
    let rm := block.mapAlloc ioData fresh
    (vdevRaidzGenerateParityP rm).Coded := by
  intro rm
  refine block.coded_of_layout ioData fresh (setData_layout _ _ _) fun some_data k inside => ?_
  rw [← block.mapAlloc_size ioData fresh] at inside
  rw [← block.mapAlloc_first ioData fresh, ← block.mapAlloc_cols ioData fresh] at some_data
  have full : (rm.rmCol rm.rmFirstdatacol).rcSize = (rm.rmCol 0).rcSize := by
    rw [mapAlloc_size, mapAlloc_size, mapAlloc_first]
    exact block.size_first
  refine (generateParityP_data (block.mapAlloc_words ioData fresh) some_data full inside).trans ?_
  have parity := block.mapAlloc_parity ioData fresh
  exact @sumParity_congr Gf256 _ _ _ _ _ fun c lower _ => (row_setData (by omega) _).symm

theorem generateParityPq_coded (two : block.vd.vdevNparity = 2) :
    let rm := block.mapAlloc ioData fresh
    (vdevRaidzGenerateParityPq rm).CodedPq := by
  intro rm
  have first : rm.rmFirstdatacol = 2 := (block.mapAlloc_first ioData fresh).trans two
  have layout : SameLayout (vdevRaidzGenerateParityPq rm) rm :=
    (setData_layout _ 1 _).trans (setData_layout _ 0 _)
  have parity : block.vd.vdevNparity < block.cols → ∀ k < block.size 0,
      (vdevRaidzGenerateParityPq rm).dataAt 0 k = (vdevRaidzGenerateParityPq rm).rowP k ∧
        (vdevRaidzGenerateParityPq rm).dataAt 1 k = (vdevRaidzGenerateParityPq rm).rowQ k := by
    intro some_data k inside
    rw [← block.mapAlloc_size ioData fresh] at inside
    rw [← block.mapAlloc_first ioData fresh, ← block.mapAlloc_cols ioData fresh] at some_data
    have same : ∀ c, rm.rmFirstdatacol ≤ c → c < rm.rmCols →
        rm.row k c = (vdevRaidzGenerateParityPq rm).row k c :=
      fun c lower _ => (generateParityPq_row first lower).symm
    have generated := generatedPq_apply (block.mapAlloc_words ioData fresh) some_data inside
    rw [dataAt, dataAt, vdevRaidzGenerateParityPq, setData_self,
      setData, setCol_of_ne _ zero_ne_one, setData_self]
    exact ⟨generated.1.trans (@sumParity_congr Gf256 _ _ _ _ _ same),
      generated.2.trans (turnParity_congr raidzTurn same)⟩
  have coded : (vdevRaidzGenerateParityPq rm).Coded :=
    block.coded_of_layout ioData fresh layout fun some_data k inside =>
      (parity some_data k inside).1
  refine { coded with two := first, wide := ?_, q := fun k inside => ?_ }
  · rw [layout.size, layout.size, mapAlloc_size, mapAlloc_size]
    refine le_antisymm (block.size_le zero_le_one) ?_
    rw [← size_first, two]
    exact block.size_le one_le_two
  · rw [layout.size, mapAlloc_size] at inside
    rcases block.cols_cases with some_data | ⟨_, empty⟩
    · exact (parity some_data k inside).2
    · omega

end RaidzBlock

/-- A map is the original one, with the lost columns restored. -/
structure Restores (orig : RaidzMap) (lost : List ℕ) (rm : RaidzMap) : Prop where
  /-- The map is the original one. -/
  header : { rm with rmCol := orig.rmCol } = orig
  /-- The other columns stay. -/
  others : ∀ c, c ∉ lost → rm.rmCol c = orig.rmCol c
  /-- The lost columns have their fields. -/
  fields : ∀ c ∈ lost, { rm.rmCol c with rcData := (orig.rmCol c).rcData } = orig.rmCol c
  /-- The lost columns have their data. -/
  contents : ∀ c ∈ lost, SameData rm orig c

section Reconstruct

variable {orig : RaidzMap} {x y : ℕ}

variable (rm : RaidzMap) (c : ℕ)

theorem setData_setData (junk data : Buffer) :
    (rm.setData c junk).setData c data = rm.setData c data := by
  simp only [setData, setCol, update_self, update_idem]

theorem setData_comm {c c' : ℕ} (other : c ≠ c') (data data' : Buffer) :
    (rm.setData c data).setData c' data' = (rm.setData c' data').setData c data := by
  simp only [setData, setCol, update_of_ne other,
    update_of_ne other.symm, update_comm other]

theorem setData_overwrite {c c' : ℕ} (other : c ≠ c') (junk junk' data data' : Buffer) :
    (((rm.setData c junk).setData c' junk').setData c data).setData c' data' =
      (rm.setData c data).setData c' data' := by
  rw [setData_comm (rm.setData c junk) other.symm junk' data, setData_setData, setData_setData]

theorem setData_other {c c' : ℕ} (other : c' ≠ c) (data : Buffer) :
    SameData (rm.setData c data) rm c' := by
  intro k _
  rw [dataAt, setData, setCol_of_ne _ other, dataAt]

/-- A map that differs in the contents of one column only. -/
theorem Restores.single {data : Buffer} (same : SameData (orig.setData x data) orig x) :
    Restores orig [x] (orig.setData x data) where
  header := rfl
  others c other := setCol_of_ne _ (by simpa using other) _
  fields c _ := setData_fields orig x c data
  contents c here := by
    rw [List.mem_singleton.mp here]
    exact same

theorem Restores.pair {dataX dataY : Buffer}
    (x_same : SameData ((orig.setData x dataX).setData y dataY) orig x)
    (y_same : SameData ((orig.setData x dataX).setData y dataY) orig y) :
    Restores orig [x, y] ((orig.setData x dataX).setData y dataY) where
  header := rfl
  others c other := by
    simp only [List.mem_cons, List.not_mem_nil, or_false, not_or] at other
    exact (setCol_of_ne _ other.2 _).trans (setCol_of_ne _ other.1 _)
  fields c _ := by
    have outer := setData_fields (orig.setData x dataX) y c dataY
    have inner := setData_fields orig x c dataX
    rw [← inner, ← outer]
  contents c here := by
    rcases List.mem_pair.mp here with rfl | rfl
    · exact x_same
    · exact y_same

theorem reconstructPq_eq (x y : ℕ) (fresh : ℕ → Buffer) :
    ∃ dataX dataY, vdevRaidzReconstructPq rm x y fresh = (rm.setData x dataX).setData y dataY :=
  ⟨_, _, rfl⟩

variable (lower : orig.rmFirstdatacol ≤ x)

include lower

theorem reconstructP_correct (coded : orig.Coded) (parity : 0 < orig.rmFirstdatacol)
    (upper : x < orig.rmCols) (junk : Buffer) :
    Restores orig [x] (vdevRaidzReconstructP (orig.setData x junk) x) := by
  have restored := reconstructP_restores (setData_layout orig x junk) lower upper
      (fun c _ _ other => setData_other orig other junk) coded
      (setData_other orig (by omega) junk)
  rw [vdevRaidzReconstructP, setData_setData] at restored ⊢
  exact .single restored

theorem reconstructQ_correct (coded : orig.CodedPq) (upper : x < orig.rmCols) (junk : Buffer) :
    Restores orig [x] (vdevRaidzReconstructQ (orig.setData x junk) x) := by
  have two := coded.two
  have restored := reconstructQ_restores (setData_layout orig x junk) lower upper
      (fun c _ _ other => setData_other orig other junk) coded
      (setData_other orig (by omega) junk)
  rw [vdevRaidzReconstructQ, setData_setData] at restored ⊢
  exact .single restored

theorem reconstructPq_correct (coded : orig.CodedPq) (order : x < y) (upper : y < orig.rmCols)
    (junkX junkY : Buffer) (fresh : ℕ → Buffer) :
    Restores orig [x, y]
      (vdevRaidzReconstructPq ((orig.setData x junkX).setData y junkY) x y fresh) := by
  have two := coded.two
  have layout := (setData_layout (orig.setData x junkX) y junkY).trans (setData_layout orig x junkX)
  have others : ∀ c, c ≠ x → c ≠ y → SameData ((orig.setData x junkX).setData y junkY) orig c := by
    intro c c_ne_x c_ne_y k inside
    have inside_x : k < ((orig.setData x junkX).rmCol c).rcSize := by
      rw [(setData_layout orig x junkX).size]
      exact inside
    exact (setData_other _ c_ne_y junkY k inside_x).trans (setData_other orig c_ne_x junkX k inside)
  obtain ⟨x_same, y_same⟩ := reconstructPq_restores coded layout lower order upper
    (fun c _ _ => others c) (others 0 (by omega) (by omega)) (others 1 (by omega) (by omega))
  obtain ⟨dataX, dataY, solved⟩ := reconstructPq_eq ((orig.setData x junkX).setData y junkY)
    x y fresh
  rw [setData_overwrite orig order.ne] at solved
  rw [solved] at x_same y_same ⊢
  exact .pair x_same y_same

end Reconstruct

theorem RaidzMap.mem_dataCols {rm : RaidzMap} {c : ℕ} :
    c ∈ rm.dataCols ↔ rm.rmFirstdatacol ≤ c ∧ c < rm.rmCols := by
  rw [dataCols, List.mem_range'_1]
  omega

/-- A lost data column is restored from P or from Q, and two of them from both. -/
theorem raidz_reconstruct_correct (block : RaidzBlock) (ioData : Buffer)
    (fresh scratch : ℕ → Buffer)
    (junkX junkY : Buffer) {x : ℕ} (lost : x ∈ (block.mapAlloc ioData fresh).dataCols) :
    let rm := block.mapAlloc ioData fresh
    let coded := vdevRaidzGenerateParityP rm
    let codedPq := vdevRaidzGenerateParityPq rm
    ((∀ c ∈ rm.dataCols, coded.rmCol c = rm.rmCol c) ∧
      Restores coded [x] (vdevRaidzReconstructP (coded.setData x junkX) x)) ∧
    (block.vd.vdevNparity = 2 →
      (∀ c ∈ rm.dataCols, codedPq.rmCol c = rm.rmCol c) ∧
      Restores codedPq [x] (vdevRaidzReconstructP (codedPq.setData x junkX) x) ∧
      Restores codedPq [x] (vdevRaidzReconstructQ (codedPq.setData x junkX) x) ∧
      ∀ y ∈ rm.dataCols, x < y → Restores codedPq [x, y]
        (vdevRaidzReconstructPq ((codedPq.setData x junkX).setData y junkY) x y scratch)) := by
  intro rm coded codedPq
  obtain ⟨lower, upper⟩ := mem_dataCols.mp lost
  have parity : 0 < rm.rmFirstdatacol := block.mapAlloc_parity ioData fresh
  have p_lower : coded.rmFirstdatacol ≤ x := lower
  have pq_lower : codedPq.rmFirstdatacol ≤ x := lower
  refine ⟨⟨fun c data => generateParityP_col parity (mem_dataCols.mp data).1, ?_⟩, ?_⟩
  · exact reconstructP_correct p_lower (block.generateParityP_coded ioData fresh) parity upper junkX
  · intro two
    have pq : codedPq.CodedPq := block.generateParityPq_coded ioData fresh two
    have first : rm.rmFirstdatacol = 2 := pq.two
    refine ⟨fun c data => generateParityPq_col first (mem_dataCols.mp data).1, ?_, ?_, ?_⟩
    · exact reconstructP_correct pq_lower pq.toCoded parity upper junkX
    · exact reconstructQ_correct pq_lower pq upper junkX
    · intro y y_lost order
      have y_upper : y < codedPq.rmCols := (mem_dataCols.mp y_lost).2
      exact reconstructPq_correct pq_lower pq order y_upper junkX junkY scratch

/-- A block of four sectors on five children with double parity. -/
def fourSectors : RaidzBlock where
  vd := ⟨9, 5, 2, by decide, by decide, by decide, by decide⟩
  ioOffset := 0
  ioSize := 2048

/-- The columns of `fourSectors` with a byte pattern, and their parity. -/
def fourSectorsPq : RaidzMap :=
  vdevRaidzGenerateParityPq (fourSectors.mapAlloc (fun k => .ofNat 8 k) fun _ _ => 0)

/-- Columns 2 and 4 of `fourSectors` differ in length, and both are restored. -/
theorem raidz_reconstruct_fourSectors :
    (fourSectors.size 2 = 1024 ∧ fourSectors.size 4 = 512) ∧
    Restores fourSectorsPq [2, 4] (vdevRaidzReconstructPq
      ((fourSectorsPq.setData 2 fun _ => 255).setData 4 fun _ => 7) 2 4 fun _ _ => 0) := by
  refine ⟨by decide, ?_⟩
  have restored := raidz_reconstruct_correct fourSectors (fun k => .ofNat 8 k) (fun _ _ => 0)
    (fun _ _ => 0) (fun _ => 255) (fun _ => 7) (x := 2) (by decide)
  exact (restored.2 rfl).2.2.2 4 (by decide) (by decide)

end Zfs
