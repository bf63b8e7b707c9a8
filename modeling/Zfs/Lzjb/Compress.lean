import Zfs.Lzjb.RoundTrip

/-!
# Compressing blocks

`zio_compress_data` and `zio_decompress_data` with the table of compression functions.  The two
functions of zlib are given, with the contents of the memory that is not initialized.
-/

namespace Zfs

open ByteBuffer List

def spaMinblocksize : ℕ := 512

/-- The entries of `zio_compress_table`. -/
inductive ZioCompress where
  | inherit | on | off | lzjb | empty
  /-- The levels are 1 to 9. -/
  | gzip (level : Fin 9)
  deriving DecidableEq, Repr

/-- `z_compress_level` and `z_uncompress`; nothing in case of an error. -/
structure Zlib where
  /-- Compress at a level, into a buffer of some length. -/
  zCompressLevel : ℕ → List (BitVec 8) → ℕ → Option (List (BitVec 8))
  /-- Decompress to some length. -/
  zUncompress : List (BitVec 8) → ℕ → Option (List (BitVec 8))

/-- What zlib shortens it restores, whatever follows. -/
structure Zlib.Correct (zlib : Zlib) : Prop where
  /-- The output is not empty, and fits. -/
  fits : ∀ {level src room out}, zlib.zCompressLevel level src room = some out →
    out ≠ [] ∧ out.length ≤ room
  /-- Decompression restores the input. -/
  restores : ∀ {level src room out}, zlib.zCompressLevel level src room = some out →
    ∀ padding, zlib.zUncompress (out ++ padding) src.length = some src

/-- What the compressors find besides their arguments. -/
structure CompressWorld where
  zlib : Zlib
  /-- The address of the source. -/
  srcAddress : ℕ
  /-- The table as it was found. -/
  lempel : BitVec 8 → BitVec 16
  /-- A new buffer. -/
  fresh : Buffer

variable (world : CompressWorld)

def gzipCompress (input : LzjbInput) (dst : Buffer) (n : ℕ) : ℕ × Buffer :=
  match world.zlib.zCompressLevel n ((range input.sLen).map input.src) input.dLen with
  | none =>
    if input.dLen ≠ input.sLen then
      (input.sLen, dst)
    else
      (input.sLen, fun i => if i < input.sLen then input.src i else dst i)
  | some out => (out.length, fun i => out.getD i (dst i))

def gzipDecompress (src : List (BitVec 8)) (dLen : ℕ) (dst : Buffer) : ℤ × Buffer :=
  match world.zlib.zUncompress src dLen with
  | none => (-1, dst)
  | some out => (0, fun i => out.getD i (dst i))

def ZioCompress.ciCompress : ZioCompress → Option (LzjbInput → Buffer → Except Halt (ℕ × Buffer))
  | .lzjb => some fun input dst => lzjbCompress input world.lempel dst
  | .gzip level => some fun input dst => .ok (gzipCompress world input dst (level + 1))
  | _ => none

def ZioCompress.ciDecompress :
    ZioCompress → Option (List (BitVec 8) → ℕ → Buffer → Except Halt (ℤ × Buffer))
  | .lzjb => some lzjbDecompress
  | .gzip _ => some fun src dLen dst => .ok (gzipDecompress world src dLen dst)
  | _ => none

/-- The output parameters of `zio_compress_data`. -/
structure CompressOut where
  /-- The compressed data. -/
  destp : Option Buffer
  /-- Their size. -/
  destsizep : ℕ
  /-- The size of the buffer. -/
  destbufsizep : ℕ

variable (cpfunc : ZioCompress) (src : Buffer) (srcsize : ℕ)

/-- `zio_compress_data`: what it returns, and the output parameters. -/
def zioCompressData (out : CompressOut) : Except Halt (ℕ × CompressOut) :=
  if (range ((srcsize + 7) / 8)).all fun i => loadWord src i = 0 then
    .ok (1, ⟨none, 0, 0⟩)
  else if cpfunc = .empty then
    .ok (0, out)
  else
    let destbufsize := p2align (sub64 srcsize (srcsize >>> 3)) spaMinblocksize
    if destbufsize = 0 then
      .ok (0, out)
    else
      match cpfunc.ciCompress world with
      | none => .error .panic
      | some ciCompress => do
        let (ciosize, dest) ← ciCompress ⟨src, world.srcAddress, srcsize, destbufsize⟩ world.fresh
        if destbufsize < ciosize then
          return (0, out)
        else
          let gapsize := sub64 (p2roundup ciosize spaMinblocksize) ciosize
          let dest := fun i => if ciosize ≤ i ∧ i < ciosize + gapsize then 0 else dest i
          return (1, ⟨some dest, ciosize + gapsize, destbufsize⟩)

def zioDecompressData (dest : Buffer) (destsize : ℕ) : Except Halt (ℤ × Buffer) :=
  match cpfunc.ciDecompress world with
  | none => .error .panic
  | some ciDecompress => ciDecompress ((range srcsize).map src) destsize dest

variable {world cpfunc src srcsize}

theorem lzjbDecompress_nil {dLen : ℕ} (positive : 0 < dLen) (dst : Buffer) :
    lzjbDecompress [] dLen dst = .error .panic := by
  rw [lzjbDecompress, lzjbDecompressLoop, if_pos positive]
  rfl

/-- What a compressor shortens is not empty, and its decompressor restores it. -/
theorem ciCompress_restores (correct : world.zlib.Correct)
    (compressor : (cpfunc.ciCompress world).isSome) (input : LzjbInput)
    (shorter : input.dLen < input.sLen) (dst : Buffer) :
    ∃ ciCompress ciDecompress n out, cpfunc.ciCompress world = some ciCompress ∧
    cpfunc.ciDecompress world = some ciDecompress ∧ ciCompress input dst = .ok (n, out) ∧
    (n ≤ input.dLen → 0 < n ∧ ∀ (result : Buffer) padding, ∃ restored,
      ciDecompress ((range n).map out ++ padding) input.sLen result = .ok (0, restored) ∧
      ∀ i < input.sLen, restored i = input.src i) := by
  cases cpfunc with
  | inherit | on | off | empty => cases compressor
  | lzjb =>
    obtain ⟨n, out, returned, restores⟩ := lzjbCompress_restores input world.lempel dst
    refine ⟨_, _, n, out, rfl, rfl, returned, fun fits => ?_⟩
    have decompressed := (restores (fits.trans_lt shorter)).2.2
    refine ⟨Nat.pos_of_ne_zero ?_, fun result padding =>
      ⟨_, decompressed result padding, fun i inside => if_pos inside⟩⟩
    rintro rfl
    have := decompressed dst []
    rw [range_zero, map_nil, nil_append, lzjbDecompress_nil (by omega)] at this
    cases this
  | gzip level =>
    cases called : world.zlib.zCompressLevel (level + 1) ((range input.sLen).map input.src)
        input.dLen with
    | none =>
      refine ⟨_, _, input.sLen, dst, rfl, rfl, ?_, fun fits => absurd fits (not_le.mpr shorter)⟩
      simp only [gzipCompress, called, if_pos shorter.ne]
    | some out =>
      refine ⟨_, _, out.length, fun i => out.getD i (dst i), rfl, rfl, ?_, fun fits => ?_⟩
      · simp only [gzipCompress, called]
      · refine ⟨length_pos_of_ne_nil (correct.fits called).1, fun result padding => ?_⟩
        have same : (range out.length).map (fun i => out.getD i (dst i)) = out := by
          apply ext_getElem (by simp)
          simp +contextual
        have restored := correct.restores called padding
        rw [length_map, length_range] at restored
        rw [same]
        refine ⟨_, by simp only [gzipDecompress, restored]; rfl, fun i inside => ?_⟩
        simp [inside]

/-- The loop over the words sees whether a block of whole sectors is all zeros. -/
theorem allzero_iff (sectors : spaMinblocksize ∣ srcsize) :
    ((range ((srcsize + 7) / 8)).all fun i => loadWord src i = 0) = true ↔
      ∀ i < srcsize, src i = 0 := by
  have words : (srcsize + 7) / 8 * 8 = srcsize := by
    obtain ⟨count, rfl⟩ := sectors
    rw [spaMinblocksize]
    omega
  simp only [all_eq_true, mem_range, decide_eq_true_eq]
  constructor
  · intro zero i inside
    have byte := congrArg (fun word => wordByte word (i % 8)) (zero (i / 8) (by omega))
    simp only [wordByte_loadWord _ _ (Nat.mod_lt i (by decide)), wordByte_zero] at byte
    rwa [show 8 * (i / 8) + i % 8 = i by omega] at byte
  · intro zero i inside
    refine eq_of_wordByte fun j small => ?_
    rw [wordByte_loadWord _ _ small, wordByte_zero]
    exact zero _ (by omega)

theorem map_padded (dest : Buffer) {n stop : ℕ} (order : n ≤ stop) :
    (range stop).map (fun i => if n ≤ i ∧ i < stop then 0 else dest i) =
      (range n).map dest ++ replicate (stop - n) 0 := by
  apply ext_getElem (by simp [Nat.add_sub_cancel' order])
  intro i inside _
  rw [getElem_append]
  simp only [length_map, length_range] at inside ⊢
  split_ifs with written
  · simp [not_le.mpr written]
  · simp [not_lt.mp written, inside]

/-- A block is compressed to whole sectors, and restored. -/
theorem zio_compress_data_correct (world : CompressWorld) (correct : world.zlib.Correct)
    (cpfunc : ZioCompress) (compressor : (cpfunc.ciCompress world).isSome) (src : Buffer)
    (srcsize : ℕ) (sectors : spaMinblocksize ∣ srcsize) (bounded : srcsize < 2 ^ 64)
    (out : CompressOut) :
    ∃ ret out', zioCompressData world cpfunc src srcsize out = .ok (ret, out') ∧
    (ret = 0 ∧ out' = out ∨ ret = 1 ∧ spaMinblocksize ∣ out'.destsizep ∧
      8 * out'.destsizep ≤ 7 * srcsize ∧ (out'.destsizep = 0 ↔ ∀ i < srcsize, src i = 0) ∧
      (out'.destsizep ≠ 0 → ∃ dest, out'.destp = some dest ∧ ∀ result : Buffer, ∃ restored,
        zioDecompressData world cpfunc dest out'.destsizep result srcsize = .ok (0, restored) ∧
        ∀ i < srcsize, restored i = src i)) := by
  rw [zioCompressData]
  split_ifs with allzero uncompressed
  · exact ⟨_, _, rfl, .inr ⟨rfl, dvd_zero _, Nat.zero_le _,
      iff_of_true rfl ((allzero_iff sectors).mp allzero), fun nonzero => absurd rfl nonzero⟩⟩
  · exact ⟨_, _, rfl, .inl ⟨rfl, rfl⟩⟩
  rw [allzero_iff sectors] at allzero
  have eighth : sub64 srcsize (srcsize >>> 3) = srcsize - srcsize / 8 := by
    rw [Nat.shiftRight_eq_div_pow]
    exact sub64_eq (Nat.div_le_self ..) bounded
  have room_eq := p2align_two_pow (by omega : srcsize - srcsize / 8 < 2 ^ 64) (by decide : 9 < 64)
  simp only [eighth, show spaMinblocksize = 2 ^ 9 from rfl, room_eq]
  set room := (srcsize - srcsize / 8) / 2 ^ 9 * 2 ^ 9
  split_ifs with none
  · exact ⟨_, _, rfl, .inl ⟨rfl, rfl⟩⟩
  obtain ⟨ciCompress, ciDecompress, n, dest, compress, decompress, returned, restores⟩ :=
    ciCompress_restores correct compressor ⟨src, world.srcAddress, srcsize, room⟩
      (by simp only [room]; omega) world.fresh
  simp only [compress, returned]
  by_cases long : room < n
  · exact ⟨_, _, if_pos long, .inl ⟨rfl, rfl⟩⟩
  obtain ⟨positive, restored⟩ := restores (not_lt.mp long)
  obtain ⟨lower, upper, aligned⟩ := p2roundup_bounds (k := 9) (by omega : n + 2 ^ 9 < 2 ^ 64)
  refine ⟨_, _, if_neg long, .inr ⟨rfl, ?_, ?_, ?_, fun _ => ⟨_, rfl, fun result => ?_⟩⟩⟩
  all_goals simp only [sub64_eq lower (by omega : p2roundup n (2 ^ 9) < 2 ^ 64),
    Nat.add_sub_cancel' lower]
  · exact aligned
  · obtain ⟨count, rfl⟩ := sectors
    obtain ⟨rounded, eq⟩ := aligned
    simp only [room, spaMinblocksize, eq] at *
    omega
  · exact iff_of_false (by omega) allzero
  · obtain ⟨restored, decompressed, text⟩ :=
      restored result (replicate (p2roundup n (2 ^ 9) - n) 0)
    refine ⟨restored, ?_, text⟩
    simp only [zioDecompressData, decompress, map_padded dest lower]
    exact decompressed

/-- A zlib that keeps one of equal bytes, and different bytes as they are. -/
def equalBytesZlib : Zlib where
  zCompressLevel _ src room :=
    let out := if src.all (· = src.headD 0) then [1, src.headD 0] else 0 :: src
    if out.length ≤ room then some out else none
  zUncompress
    | flag :: src, n => some (if flag = 1 then replicate n (src.headD 0) else src.take n)
    | [], _ => none

theorem equalBytesZlib_correct : equalBytesZlib.Correct := by
  constructor
  all_goals
    intro level src room out compressed
    simp only [equalBytesZlib] at compressed
    split_ifs at compressed with equal fits fits
    all_goals cases compressed
  · exact ⟨cons_ne_nil _ _, fits⟩
  · exact ⟨cons_ne_nil _ _, fits⟩
  · intro padding
    simp only [all_eq_true, decide_eq_true_eq] at equal
    exact congrArg some (eq_replicate_of_mem equal).symm
  · intro padding
    exact congrArg some take_left

/-- Two sectors of equal bytes become one. -/
theorem zio_compress_data_equalBytes :
    let world : CompressWorld := ⟨equalBytesZlib, 4096, fun _ => 0, fun _ => 255⟩
    ∃ out', zioCompressData world (.gzip 5) (fun _ => 7) 1024 ⟨none, 1, 1⟩ = .ok (1, out') ∧
    spaMinblocksize ∣ out'.destsizep ∧ 8 * out'.destsizep ≤ 7 * 1024 := by
  intro world
  obtain ⟨ret, out', returned, ⟨rfl, -⟩ | ⟨rfl, sectors, short, -⟩⟩ :=
    zio_compress_data_correct world equalBytesZlib_correct (.gzip 5) rfl (fun _ => 7) 1024
      (by decide) (by decide) ⟨none, 1, 1⟩
  · have result : (zioCompressData world (.gzip 5) (fun _ => 7) 1024
        ⟨none, 1, 1⟩).toOption.map Prod.fst = some 1 := by decide +kernel
    rw [returned] at result
    cases result
  · exact ⟨out', returned, sectors, short⟩

end Zfs
