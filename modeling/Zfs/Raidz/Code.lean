import Zfs.Raidz.Field

/-!
# RAID-Z columns and parity

The functions of `vdev_raidz.c` that lay a block out in columns, generate its parity and reconstruct
columns from it.  Every column has its own buffer; the data columns together are the block.
-/

namespace Zfs

open ByteBuffer

structure RaidzCol where
  /-- The child device. -/
  rcDevidx : ℕ
  /-- The offset on it. -/
  rcOffset : ℕ
  /-- The number of bytes. -/
  rcSize : ℕ
  rcData : Buffer
  /-- The error of the I/O. -/
  rcError : ℕ
  rcTried : Bool
  rcSkipped : Bool

structure RaidzMap where
  /-- The number of columns. -/
  rmCols : ℕ
  /-- The number of columns with a unit more. -/
  rmBigcols : ℕ
  rmAsize : ℕ
  /-- The number of missing data columns. -/
  rmMissingdata : ℕ
  /-- The number of missing parity columns. -/
  rmMissingparity : ℕ
  /-- First data column/parity count. -/
  rmFirstdatacol : ℕ
  rmCol : ℕ → RaidzCol

namespace RaidzMap

/-- Replace a column. -/
def setCol (rm : RaidzMap) (c : ℕ) (rc : RaidzCol) : RaidzMap :=
  { rm with rmCol := Function.update rm.rmCol c rc }

/-- Replace the contents of a column. -/
def setData (rm : RaidzMap) (c : ℕ) (data : Buffer) : RaidzMap :=
  rm.setCol c { rm.rmCol c with rcData := data }

/-- Replace the size of a column. -/
def setSize (rm : RaidzMap) (c size : ℕ) : RaidzMap :=
  rm.setCol c { rm.rmCol c with rcSize := size }

/-- The data columns in order. -/
def dataCols (rm : RaidzMap) : List ℕ :=
  List.range' rm.rmFirstdatacol (rm.rmCols - rm.rmFirstdatacol)

end RaidzMap

def roundup (value unit : ℕ) : ℕ := (value + (unit - 1)) / unit * unit

/-- The size of a column in `vdev_raidz_map_alloc`. -/
def colSize (q bc unitShift c : ℕ) : ℕ := (q + if c < bc then 1 else 0) <<< unitShift

/-- `vdev_raidz_map_alloc`, with buffers for the parity. -/
def vdevRaidzMapAlloc (ioOffset ioSize : ℕ) (ioData : Buffer) (unitShift dcols nparity : ℕ)
    (fresh : ℕ → Buffer) : RaidzMap :=
  let b := ioOffset >>> unitShift
  let s := ioSize >>> unitShift
  let f := b % dcols
  let o := (b / dcols) <<< unitShift
  let q := s / (dcols - nparity)
  let r := s - q * (dcols - nparity)
  let bc := if r = 0 then 0 else r + nparity
  let acols := if q = 0 then bc else dcols
  let size := colSize q bc unitShift
  -- the data columns follow each other in the block
  let start := fun c => ((List.range' nparity (c - nparity)).map size).sum
  let col := fun c =>
    { rcDevidx := if dcols ≤ f + c then f + c - dcols else f + c
      rcOffset := if dcols ≤ f + c then o + 1 <<< unitShift else o
      rcSize := size c
      rcData := if c < nparity then fresh c else fun k => ioData (start c + k)
      rcError := 0
      rcTried := false
      rcSkipped := false : RaidzCol }
  let rm :=
    { rmCols := acols
      rmBigcols := bc
      rmAsize := roundup ((List.range acols).map size).sum ((nparity + 1) <<< unitShift)
      rmMissingdata := 0
      rmMissingparity := 0
      rmFirstdatacol := nparity
      rmCol := col : RaidzMap }
  -- the parity of single-parity RAID-Z is switched every 1MB
  if nparity = 1 ∧ ioOffset &&& 1 <<< 20 ≠ 0 then
    (rm.setCol 0 { col 0 with rcDevidx := (col 1).rcDevidx, rcOffset := (col 1).rcOffset }).setCol 1
      { col 1 with rcDevidx := (col 0).rcDevidx, rcOffset := (col 0).rcOffset }
  else
    rm

variable (rm : RaidzMap)

/-- One column of `vdev_raidz_generate_parity_p`. -/
def generateParityPCol (p : Buffer) (c : ℕ) : Buffer :=
  let src := (rm.rmCol c).rcData
  let ccount := (rm.rmCol c).rcSize / 8
  if c = rm.rmFirstdatacol then
    forWords 0 ccount (fun i _ => loadWord src i) p
  else
    forWords 0 ccount (fun i word => word ^^^ loadWord src i) p

def vdevRaidzGenerateParityP : RaidzMap :=
  rm.setData 0 (rm.dataCols.foldl (generateParityPCol rm) (rm.rmCol 0).rcData)

/-- One column of `vdev_raidz_generate_parity_pq`. -/
def generateParityPqCol (pcount : ℕ) (parity : Buffer × Buffer) (c : ℕ) :
    Buffer × Buffer :=
  let src := (rm.rmCol c).rcData
  let ccount := (rm.rmCol c).rcSize / 8
  let (p, q) := parity
  if c = rm.rmFirstdatacol then
    (forWords ccount pcount (fun _ _ => 0) (forWords 0 ccount (fun i _ => loadWord src i) p),
      forWords ccount pcount (fun _ _ => 0) (forWords 0 ccount (fun i _ => loadWord src i) q))
  else
    (forWords 0 ccount (fun i word => word ^^^ loadWord src i) p,
      -- short columns are treated as though they were full of 0s
      forWords ccount pcount (fun _ word => vdevRaidzMul2Word word)
        (forWords 0 ccount (fun i word => vdevRaidzMul2Word word ^^^ loadWord src i) q))

/-- The contents of P and Q that `vdev_raidz_generate_parity_pq` makes. -/
def generatedPq : Buffer × Buffer :=
  rm.dataCols.foldl (generateParityPqCol rm ((rm.rmCol 0).rcSize / 8))
    ((rm.rmCol 0).rcData, (rm.rmCol 1).rcData)

def vdevRaidzGenerateParityPq : RaidzMap :=
  (rm.setData 0 (generatedPq rm).1).setData 1 (generatedPq rm).2

/-- One column of `vdev_raidz_reconstruct_p`. -/
def reconstructPCol (x : ℕ) (dst : Buffer) (c : ℕ) : Buffer :=
  if c = x then
    dst
  else
    let count := min ((rm.rmCol c).rcSize / 8) ((rm.rmCol x).rcSize / 8)
    forWords 0 count (fun i word => word ^^^ loadWord (rm.rmCol c).rcData i) dst

def vdevRaidzReconstructP (x : ℕ) : RaidzMap :=
  let xcount := (rm.rmCol x).rcSize / 8
  let dst := forWords 0 xcount (fun i _ => loadWord (rm.rmCol 0).rcData i) (rm.rmCol x).rcData
  rm.setData x (rm.dataCols.foldl (reconstructPCol rm x) dst)

/-- One column of the first loop of `vdev_raidz_reconstruct_q`. -/
def reconstructQCol (x : ℕ) (dst : Buffer) (c : ℕ) : Buffer :=
  let src := (rm.rmCol c).rcData
  let xcount := (rm.rmCol x).rcSize / 8
  let ccount := if c = x then 0 else (rm.rmCol c).rcSize / 8
  let count := min ccount xcount
  if c = rm.rmFirstdatacol then
    forWords count xcount (fun _ _ => 0) (forWords 0 count (fun i _ => loadWord src i) dst)
  else
    forWords count xcount (fun _ word => vdevRaidzMul2Word word)
      (forWords 0 count (fun i word => vdevRaidzMul2Word word ^^^ loadWord src i) dst)

def vdevRaidzReconstructQ (x : ℕ) : RaidzMap :=
  let xcount := (rm.rmCol x).rcSize / 8
  let exp := 255 - (rm.rmCols - 1 - x)
  let dst := rm.dataCols.foldl (reconstructQCol rm x) (rm.rmCol x).rcData
  rm.setData x (forWords 0 xcount (fun i word =>
    mapBytes (fun b => vdevRaidzExp2 b exp) (word ^^^ loadWord (rm.rmCol 1).rcData i)) dst)

/-- One byte of the loop of `vdev_raidz_reconstruct_pq`. -/
def reconstructPqByte (ysize aexp bexp : ℕ) (p q pxy qxy : Buffer)
    (data : Buffer × Buffer) (i : ℕ) :
    Buffer × Buffer :=
  let xd := Function.update data.1 i
    (vdevRaidzExp2 (p i ^^^ pxy i) aexp ^^^ vdevRaidzExp2 (q i ^^^ qxy i) bexp)
  if i < ysize then
    (xd, Function.update data.2 i (p i ^^^ pxy i ^^^ xd i))
  else
    (xd, data.2)

/-- The map while `vdev_raidz_reconstruct_pq` generates parity. -/
def reconstructPqMap (x y : ℕ) (fresh : ℕ → Buffer) : RaidzMap :=
  (((rm.setData 0 (fresh 0)).setData 1 (fresh 1)).setSize x 0).setSize y 0

/-- `vdev_raidz_reconstruct_pq`, with its two buffers. -/
def vdevRaidzReconstructPq (x y : ℕ) (fresh : ℕ → Buffer) : RaidzMap :=
  let xsize := (rm.rmCol x).rcSize
  let ysize := (rm.rmCol y).rcSize
  let (pxy, qxy) := generatedPq (reconstructPqMap rm x y fresh)
  let a := vdevRaidzPow2 (255 + x - y)
  let b := vdevRaidzPow2 (255 - (rm.rmCols - 1 - x))
  let tmp := 255 - vdevRaidzLog2 (a ^^^ 1)
  let aexp := vdevRaidzLog2 (vdevRaidzExp2 a tmp)
  let bexp := vdevRaidzLog2 (vdevRaidzExp2 b tmp)
  let (xd, yd) := (List.range xsize).foldl
    (reconstructPqByte ysize aexp bexp (rm.rmCol 0).rcData (rm.rmCol 1).rcData pxy qxy)
    ((rm.rmCol x).rcData, (rm.rmCol y).rcData)
  (rm.setData x xd).setData y yd

end Zfs
