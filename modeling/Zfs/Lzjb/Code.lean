import Zfs.Library.BackReference
import Zfs.Library.ByteBuffer
import Zfs.Machine

/-!
# LZJB

`lzjb_compress` and `lzjb_decompress`.  Pointers are offsets into their buffers; only the offset
arithmetic of the compressor reads the address of the source.
-/

namespace Zfs

open ByteBuffer BackReference Function

def matchMin : ℕ := 3

def matchMax : ℕ := (1 <<< 6) + (matchMin - 1)

def offsetMask : ℕ := (1 <<< (16 - 6)) - 1

/-- The variables of `lzjb_compress`. -/
structure LzjbWriter where
  /-- Where it reads. -/
  src : ℕ
  /-- Where it writes. -/
  dst : ℕ
  /-- Where the flags of the current group are. -/
  copymap : ℕ
  /-- The flag of the next item. -/
  copymask : ℕ
  /-- The low bits of the addresses where the three bytes of a hash were last seen. -/
  lempel : BitVec 8 → BitVec 16
  out : Buffer

/-- What an iteration of `lzjb_compress` does. -/
inductive LzjbStep where
  | go (state : LzjbWriter)
  | done (length : ℕ) (out : Buffer)

section Compress

/-- The source, its address, and both lengths. -/
structure LzjbInput where
  /-- The source. -/
  src : Buffer
  /-- Its address. -/
  sStart : ℕ
  /-- Its length. -/
  sLen : ℕ
  /-- The length of the destination. -/
  dLen : ℕ

variable (input : LzjbInput)

variable (state : LzjbWriter)

/-- Start a group of eight items: its flags come first. -/
def lzjbGroup : LzjbStep :=
  if state.copymask <<< 1 = 1 <<< 8 then
    if input.dLen ≤ state.dst + 1 + 2 * 8 then
      if input.dLen ≠ input.sLen then
        .done input.sLen state.out
      else
        .done input.sLen fun i => if i < input.sLen then input.src i else state.out i
    else
      .go { state with
        copymask := 1
        copymap := state.dst
        out := update state.out state.dst 0
        dst := state.dst + 1 }
  else
    .go { state with copymask := state.copymask <<< 1 }

/-- Write a byte as it is. -/
def lzjbLiteral : LzjbWriter :=
  { state with
    out := update state.out state.dst (input.src state.src)
    dst := state.dst + 1
    src := state.src + 1 }

/-- The slot of `lempel` for the next three bytes: the low byte of the sum. -/
def lzjbHash (src : ℕ) : BitVec 8 :=
  (input.src src + 13) ^^^ (input.src (src + 1) - 13) ^^^ input.src (src + 2)

/-- The distance that `lempel` gives for the next three bytes. -/
def lzjbOffset : ℕ :=
  (BitVec.ofNat 64 (input.sStart + state.src) -
    (state.lempel (lzjbHash input state.src)).setWidth 64).toNat &&& offsetMask

/-- The length of a match, from `MATCH_MIN` to `MATCH_MAX`. -/
def lzjbMatchLength (src cpy : ℕ) : ℕ :=
  ((List.range' matchMin (matchMax - matchMin)).find? fun mlen =>
    input.src (src + mlen) ≠ input.src (cpy + mlen)).getD matchMax

/-- Write a reference. -/
def lzjbCopy (offset : ℕ) : LzjbWriter :=
  let mlen := lzjbMatchLength input state.src (state.src - offset)
  let out := update state.out state.copymap
    (state.out state.copymap ||| BitVec.ofNat 8 state.copymask)
  let out := update out state.dst
    (BitVec.ofNat 8 (((mlen - matchMin) <<< (8 - 6)) ||| (offset >>> 8)))
  let out := update out (state.dst + 1) (BitVec.ofNat 8 offset)
  { state with out, dst := state.dst + 2, src := state.src + mlen }

/-- The item for the next bytes. -/
def lzjbItem : LzjbWriter :=
  if input.sLen < state.src + matchMax then
    lzjbLiteral input state
  else
    let offset := lzjbOffset input state
    let lempel := update state.lempel (lzjbHash input state.src)
      (BitVec.ofNat 16 (input.sStart + state.src))
    let seen := { state with lempel }
    -- the table holds hints: the three bytes are compared
    if offset ≤ state.src ∧ offset ≠ 0 ∧
        ∀ k < matchMin, input.src (state.src + k) = input.src (state.src - offset + k) then
      lzjbCopy input seen offset
    else
      lzjbLiteral input seen

/-- An iteration of `lzjb_compress`. -/
def lzjbCompressStep : LzjbStep :=
  match lzjbGroup input state with
  | .go state => .go (lzjbItem input state)
  | .done length out => .done length out

/-- The loop of `lzjb_compress`: length and destination. -/
def lzjbCompressLoop : ℕ → LzjbWriter → Except Halt (ℕ × Buffer)
  | 0, _ => .error .fuel
  | fuel + 1, state =>
    if state.src < input.sLen then
      match lzjbCompressStep input state with
      | .go state => lzjbCompressLoop fuel state
      | .done length out => .ok (length, out)
    else
      .ok (state.dst, state.out)

/-- `lzjb_compress`, from any table and destination. -/
def lzjbCompress (lempel : BitVec 8 → BitVec 16) (out : Buffer) : Except Halt (ℕ × Buffer) :=
  lzjbCompressLoop input (input.sLen + 1) ⟨0, 0, 0, 1 <<< (8 - 1), lempel, out⟩

end Compress

/-- The variables of `lzjb_decompress`. -/
structure LzjbReader where
  src : ℕ
  dst : ℕ
  /-- The flags of the current group. -/
  copymap : BitVec 8
  copymask : ℕ
  out : Buffer

section Decompress

variable (src : List (BitVec 8)) (dLen : ℕ)

/-- Read a byte of the source: there is nothing behind its end. -/
def lzjbLoad (i : ℕ) : Except Halt (BitVec 8) :=
  match src[i]? with
  | some byte => .ok byte
  | none => .error .panic

variable (state : LzjbReader)

/-- Read the flags at the start of a group. -/
def lzjbFlags : Except Halt LzjbReader :=
  if state.copymask <<< 1 = 1 <<< 8 then do
    let byte ← lzjbLoad src state.src
    .ok { state with copymask := 1, copymap := byte, src := state.src + 1 }
  else
    .ok { state with copymask := state.copymask <<< 1 }

/-- Follow a reference; nothing if it points before the destination. -/
def lzjbPaste (high low : BitVec 8) : Option LzjbReader :=
  let mlen := (high.toNat >>> (8 - 6)) + matchMin
  let offset := ((high.toNat <<< 8) ||| low.toNat) &&& offsetMask
  if state.dst < offset then
    none
  else
    let count := min mlen (dLen - state.dst)
    some { state with
      src := state.src + 2
      dst := state.dst + count
      out := copyForward state.out state.dst (state.dst - offset) count }

/-- Read an item; nothing if the source is damaged. -/
def lzjbExpand : Except Halt (Option LzjbReader) :=
  if state.copymap.toNat &&& state.copymask ≠ 0 then do
    let high ← lzjbLoad src state.src
    let low ← lzjbLoad src (state.src + 1)
    .ok (lzjbPaste dLen state high low)
  else do
    let byte ← lzjbLoad src state.src
    .ok (some { state with
      src := state.src + 1
      dst := state.dst + 1
      out := update state.out state.dst byte })

/-- An iteration of `lzjb_decompress`. -/
def lzjbDecompressStep : Except Halt (Option LzjbReader) := do
  let state ← lzjbFlags src state
  lzjbExpand src dLen state

/-- The loop of `lzjb_decompress`: what it returns and the destination. -/
def lzjbDecompressLoop : ℕ → LzjbReader → Except Halt (ℤ × Buffer)
  | 0, _ => .error .fuel
  | fuel + 1, state =>
    if state.dst < dLen then
      match lzjbDecompressStep src dLen state with
      | .error halt => .error halt
      | .ok none => .ok (-1, state.out)
      | .ok (some state) => lzjbDecompressLoop fuel state
    else
      .ok (0, state.out)

/-- `lzjb_decompress`, from any contents of the destination. -/
def lzjbDecompress (out : Buffer) : Except Halt (ℤ × Buffer) :=
  lzjbDecompressLoop src dLen (dLen + 1) ⟨0, 0, 0, 1 <<< (8 - 1), out⟩

end Decompress

end Zfs
