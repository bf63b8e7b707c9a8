import Zfs.Lzjb.Code

/-!
# LZJB round trip

The decompressor follows the compressor item by item.  The flags of a group are completed while its
items are written, so an iteration of the compressor is compared with the final destination, apart
from the flags of the items to come.
-/

namespace Zfs

open ByteBuffer BackReference Function List Nat

variable {input : LzjbInput}

/-- A match is as long as the bytes that were compared. -/
theorem lzjbMatchLength_spec {src cpy : ℕ}
    (first : ∀ k < matchMin, input.src (src + k) = input.src (cpy + k)) :
    matchMin ≤ lzjbMatchLength input src cpy ∧ lzjbMatchLength input src cpy ≤ matchMax ∧
    ∀ k < lzjbMatchLength input src cpy, input.src (src + k) = input.src (cpy + k) := by
  rw [lzjbMatchLength]
  cases found : (range' matchMin (matchMax - matchMin)).find? fun mlen =>
      input.src (src + mlen) ≠ input.src (cpy + mlen) with
  | none =>
    refine ⟨by decide, le_rfl, fun k small => ?_⟩
    by_cases early : k < matchMin
    · exact first k early
    · have same := find?_eq_none.mp found k (by
        rw [mem_range'_1]
        exact ⟨by omega, by simp only [Option.getD_none] at small; omega⟩)
      simpa using same
  | some mlen =>
    obtain ⟨_, member, before⟩ := find?_range'_eq_some.mp found
    rw [mem_range'_1] at member
    refine ⟨member.1, by simp only [Option.getD_some]; omega, fun k small => ?_⟩
    by_cases early : k < matchMin
    · exact first k early
    · simpa using before k (by omega) small

/-- A byte was written as it is. -/
structure Literal (input : LzjbInput) (state next : LzjbWriter) : Prop where
  src : next.src = state.src + 1
  dst : next.dst = state.dst + 1
  copymap : next.copymap = state.copymap
  copymask : next.copymask = state.copymask
  out : next.out = update state.out state.dst (input.src state.src)

/-- A reference to earlier bytes was written. -/
structure Reference (input : LzjbInput) (state next : LzjbWriter) (offset mlen : ℕ) : Prop where
  back : 0 < offset
  inside : offset ≤ state.src
  near : offset ≤ offsetMask
  long : matchMin ≤ mlen
  short : mlen ≤ matchMax
  source : state.src + mlen ≤ input.sLen
  same : ∀ k < mlen, input.src (state.src + k) = input.src (state.src - offset + k)
  src : next.src = state.src + mlen
  dst : next.dst = state.dst + 2
  copymap : next.copymap = state.copymap
  copymask : next.copymask = state.copymask
  out : next.out = update (update (update state.out state.copymap
      (state.out state.copymap ||| BitVec.ofNat 8 state.copymask)) state.dst
      (BitVec.ofNat 8 (((mlen - matchMin) <<< (8 - 6)) ||| (offset >>> 8))))
      (state.dst + 1) (BitVec.ofNat 8 offset)

theorem lzjbItem_cases (state : LzjbWriter) :
    Literal input state (lzjbItem input state) ∨
      ∃ offset mlen, Reference input state (lzjbItem input state) offset mlen := by
  rw [lzjbItem]
  split_ifs with tail
  · exact .inl ⟨rfl, rfl, rfl, rfl, rfl⟩
  · dsimp only
    split_ifs with hit
    · obtain ⟨inside, back, first⟩ := hit
      obtain ⟨long, short, same⟩ := lzjbMatchLength_spec first
      exact .inr ⟨_, _, pos_of_ne_zero back, inside, and_le_right, long, short, by omega, same,
        rfl, rfl, rfl, rfl, rfl⟩
    · exact .inl ⟨rfl, rfl, rfl, rfl, rfl⟩

theorem lzjbItem_src_lt (state : LzjbWriter) : state.src < (lzjbItem input state).src := by
  rcases lzjbItem_cases state with item | ⟨offset, mlen, item⟩
  · rw [item.src]
    omega
  · have long := item.long
    rw [matchMin] at long
    rw [item.src]
    omega

theorem lzjbGroup_cases (state : LzjbWriter) :
    (∃ out, lzjbGroup input state = .done input.sLen out) ∨
      (state.copymask <<< 1 ≠ 1 <<< 8 ∧
        lzjbGroup input state = .go { state with copymask := state.copymask <<< 1 }) ∨
      (state.copymask <<< 1 = 1 <<< 8 ∧ state.dst + 17 < input.dLen ∧
        lzjbGroup input state = .go { state with
          copymask := 1
          copymap := state.dst
          out := update state.out state.dst 0
          dst := state.dst + 1 }) := by
  rw [lzjbGroup]
  split_ifs with full tight differs
  · exact .inl ⟨_, rfl⟩
  · exact .inl ⟨_, rfl⟩
  · exact .inr (.inr ⟨full, by omega, rfl⟩)
  · exact .inr (.inl ⟨full, rfl⟩)

theorem lzjbGroup_src {state grouped : LzjbWriter} (group : lzjbGroup input state = .go grouped) :
    grouped.src = state.src := by
  rcases @lzjbGroup_cases input state with ⟨out, done⟩ | ⟨_, go⟩ | ⟨_, _, go⟩
  · rw [done] at group
    cases group
  · rw [go] at group
    cases group
    rfl
  · rw [go] at group
    cases group
    rfl

theorem lzjbCompressLoop_returns (fuel : ℕ) (state : LzjbWriter)
    (enough : input.sLen - state.src < fuel) :
    ∃ length out, lzjbCompressLoop input fuel state = .ok (length, out) := by
  induction fuel generalizing state with
  | zero => omega
  | succ fuel ih =>
    rw [lzjbCompressLoop]
    split_ifs with more
    · rw [lzjbCompressStep]
      cases group : lzjbGroup input state with
      | done length out => exact ⟨length, out, rfl⟩
      | go grouped =>
        have advance := @lzjbItem_src_lt input grouped
        rw [lzjbGroup_src group] at advance
        exact ih _ (by omega)
    · exact ⟨_, _, rfl⟩

/-- The runs of `lzjb_compress` that end at the end of the source. -/
inductive LzjbRun (input : LzjbInput) : LzjbWriter → ℕ → Buffer → Prop where
  | stop {state : LzjbWriter} (finished : input.sLen ≤ state.src) :
    LzjbRun input state state.dst state.out
  | item {state grouped : LzjbWriter} {n : ℕ} {out : Buffer} (more : state.src < input.sLen)
    (group : lzjbGroup input state = .go grouped)
    (rest : LzjbRun input (lzjbItem input grouped) n out) : LzjbRun input state n out

variable {fuel offset mlen dLen : ℕ}

/-- A short result comes from the end of the source. -/
theorem lzjbCompressLoop_run {n : ℕ} {state : LzjbWriter} {out : Buffer}
    (returned : lzjbCompressLoop input fuel state = .ok (n, out)) (short : n < input.sLen) :
    LzjbRun input state n out := by
  induction fuel generalizing state with
  | zero => cases returned
  | succ fuel ih =>
    rw [lzjbCompressLoop] at returned
    split_ifs at returned with more
    · rw [lzjbCompressStep] at returned
      rcases @lzjbGroup_cases input state with ⟨_, done⟩ | ⟨_, go⟩ | ⟨_, _, go⟩
      · rw [done] at returned
        cases returned
        exact absurd short (lt_irrefl _)
      · rw [go] at returned
        exact .item more go (ih returned)
      · rw [go] at returned
        exact .item more go (ih returned)
    · cases returned
      exact .stop (not_lt.mp more)

/-- The state inside a group, before the item of a flag. -/
structure Grouped (input : LzjbInput) (state : LzjbWriter) (bit : ℕ) : Prop where
  small : bit < 8
  mask : state.copymask = 2 ^ bit
  map : state.copymap < state.dst
  clear : ∀ b, bit ≤ b → (state.out state.copymap).getLsbD b = false
  room : state.dst + 2 * (8 - bit) < input.dLen

/-- The state between two items, after the item of a flag. -/
structure Ready (input : LzjbInput) (state : LzjbWriter) (bit : ℕ) : Prop where
  small : bit < 8
  mask : state.copymask = 2 ^ bit
  map : bit < 7 → state.copymap < state.dst
  clear : ∀ b, bit < b → b < 8 → (state.out state.copymap).getLsbD b = false
  room : bit < 7 → state.dst + 2 * (7 - bit) < input.dLen
  fits : state.dst ≤ input.dLen

theorem two_pow_shiftLeft_one (bit : ℕ) : 2 ^ bit <<< 1 = 2 ^ (bit + 1) := by
  rw [Nat.shiftLeft_eq, pow_one, pow_succ]

theorem two_pow_shift_full {bit : ℕ} : 2 ^ bit <<< 1 = 1 <<< 8 ↔ bit = 7 := by
  rw [two_pow_shiftLeft_one, show 1 <<< 8 = 2 ^ 8 from rfl, Nat.pow_right_inj (le_refl 2)]
  omega

/-- The next flag of the group, or the first one of a new group. -/
theorem Ready.group {state grouped : LzjbWriter} {bit : ℕ} (ready : Ready input state bit)
    (group : lzjbGroup input state = .go grouped) :
    (bit < 7 ∧ grouped = { state with copymask := 2 ^ (bit + 1) } ∧
        Grouped input grouped (bit + 1)) ∨
      (bit = 7 ∧ grouped = { state with
          copymask := 1
          copymap := state.dst
          out := update state.out state.dst 0
          dst := state.dst + 1 } ∧ Grouped input grouped 0) := by
  have small := ready.small
  rcases @lzjbGroup_cases input state with ⟨_, done⟩ | ⟨next, go⟩ | ⟨full, fits, go⟩
  · rw [done] at group
    cases group
  · rw [ready.mask, Ne, two_pow_shift_full] at next
    rw [go, ready.mask, two_pow_shiftLeft_one] at group
    cases group
    have early : bit < 7 := by omega
    have room := ready.room early
    refine .inl ⟨early, rfl, by omega, rfl, ready.map early, fun b later => ?_, ?_⟩
    · by_cases inside : b < 8
      · exact ready.clear b (by omega) inside
      · exact BitVec.getLsbD_of_ge _ _ (by omega)
    · change state.dst + 2 * (8 - (bit + 1)) < input.dLen
      omega
  · rw [ready.mask, two_pow_shift_full] at full
    rw [go] at group
    cases group
    refine .inr ⟨full, rfl, by omega, rfl, lt_succ_self _, fun b _ => ?_, ?_⟩
    · simp
    · change state.dst + 1 + 2 * 8 < input.dLen
      omega

theorem Ready.grouped {state grouped : LzjbWriter} {bit : ℕ} (ready : Ready input state bit)
    (group : lzjbGroup input state = .go grouped) : ∃ flag, Grouped input grouped flag := by
  rcases ready.group group with ⟨_, _, inside⟩ | ⟨_, _, inside⟩
  · exact ⟨_, inside⟩
  · exact ⟨_, inside⟩

theorem Grouped.literal {state next : LzjbWriter} {bit : ℕ} (grouped : Grouped input state bit)
    (item : Literal input state next) : Ready input next bit := by
  have map := grouped.map
  have room := grouped.room
  have small := grouped.small
  refine ⟨small, item.copymask.trans grouped.mask, fun _ => ?_, fun b later _ => ?_,
    fun _ => ?_, ?_⟩
  · rw [item.copymap, item.dst]
    omega
  · rw [item.out, item.copymap, update_of_ne map.ne]
    exact grouped.clear b later.le
  · rw [item.dst]
    omega
  · rw [item.dst]
    omega

theorem getLsbD_flag (byte : BitVec 8) {bit b : ℕ} (small : bit < 8) :
    (byte ||| BitVec.ofNat 8 (2 ^ bit)).getLsbD b = (byte.getLsbD b || decide (b = bit)) := by
  rw [BitVec.getLsbD_or, BitVec.getLsbD_ofNat, testBit_two_pow]
  by_cases same : bit = b
  · simp [same, same ▸ small]
  · simp [same, Ne.symm same]

theorem Grouped.reference {state next : LzjbWriter} {bit : ℕ} (grouped : Grouped input state bit)
    (item : Reference input state next offset mlen) : Ready input next bit := by
  have map := grouped.map
  have room := grouped.room
  have small := grouped.small
  refine ⟨small, item.copymask.trans grouped.mask, fun _ => ?_, fun b later _ => ?_,
    fun _ => ?_, ?_⟩
  · rw [item.copymap, item.dst]
    omega
  · rw [item.out, item.copymap, update_of_ne (by omega), update_of_ne map.ne,
      update_self, grouped.mask, getLsbD_flag _ small, grouped.clear b later.le]
    simp [later.ne']
  · rw [item.dst]
    omega
  · rw [item.dst]
    omega

/-- What is written stays, apart from flags not settled. -/
structure Final (state : LzjbWriter) (settled n : ℕ) (out : Buffer) : Prop where
  dst_le : state.dst ≤ n
  kept : ∀ i < state.dst, i ≠ state.copymap → out i = state.out i
  flags : state.copymap < state.dst → ∀ b < settled,
    (out state.copymap).getLsbD b = (state.out state.copymap).getLsbD b
  behind : ∀ i, n ≤ i → out i = state.out i

section Final

variable {state next grouped : LzjbWriter} {bit n : ℕ} {out : Buffer}

theorem Final.literal (inside : Grouped input state bit) (item : Literal input state next)
    (final : Final next (bit + 1) n out) :
    Final state bit n out ∧ state.dst < n ∧ out state.dst = input.src state.src ∧
    (out state.copymap).getLsbD bit = false := by
  obtain ⟨dst_le, kept, flags, behind⟩ := final
  have map := inside.map
  rw [item.dst, item.copymap, item.out] at *
  have settled := flags (by omega)
  rw [update_of_ne map.ne] at settled
  refine ⟨⟨by omega, fun i before other => ?_, fun _ b small => ?_,
    fun i after => ?_⟩, by omega, ?_, ?_⟩
  · rw [kept i (by omega) other, update_of_ne (by omega)]
  · exact settled b (by omega)
  · rw [behind i after, update_of_ne (by omega)]
  · rw [kept _ (by omega) (by omega), update_self]
  · rw [settled bit (by omega)]
    exact inside.clear bit le_rfl

theorem Final.reference (inside : Grouped input state bit)
    (item : Reference input state next offset mlen) (final : Final next (bit + 1) n out) :
    Final state bit n out ∧ state.dst + 1 < n ∧
    out state.dst = BitVec.ofNat 8 (((mlen - matchMin) <<< (8 - 6)) ||| (offset >>> 8)) ∧
    out (state.dst + 1) = BitVec.ofNat 8 offset ∧
    (out state.copymap).getLsbD bit = true := by
  obtain ⟨dst_le, kept, flags, behind⟩ := final
  have map := inside.map
  rw [item.dst, item.copymap, item.out] at *
  have settled : ∀ b < bit + 1, (out state.copymap).getLsbD b =
      ((state.out state.copymap).getLsbD b || decide (b = bit)) := by
    intro b small
    rw [flags (by omega) b small, update_of_ne (by omega), update_of_ne map.ne,
      update_self, inside.mask, getLsbD_flag _ inside.small]
  refine ⟨⟨by omega, fun i before other => ?_, fun _ b small => ?_, fun i after => ?_⟩, by omega,
    ?_, ?_, ?_⟩
  · rw [kept i (by omega) other, update_of_ne (by omega), update_of_ne (by omega),
      update_of_ne other]
  · rw [settled b (by omega)]
    simp [small.ne]
  · rw [behind i after, update_of_ne (by omega), update_of_ne (by omega),
      update_of_ne (by omega)]
  · rw [kept _ (by omega) (by omega), update_of_ne (by omega), update_self]
  · rw [kept _ (by omega) (by omega), update_self]
  · rw [settled bit (by omega)]
    simp

theorem Final.group (ready : Ready input state bit) (group : lzjbGroup input state = .go grouped)
    {flag : ℕ} (mask : grouped.copymask = 2 ^ flag) (final : Final grouped flag n out) :
    Final state (bit + 1) n out := by
  obtain ⟨dst_le, kept, flags, behind⟩ := final
  rcases ready.group group with ⟨_, rfl, _⟩ | ⟨_, rfl, _⟩
  · obtain rfl : bit + 1 = flag := Nat.pow_right_injective le_rfl mask
    exact ⟨dst_le, kept, flags, behind⟩
  · simp only at dst_le kept behind
    have before : ∀ i < state.dst, out i = state.out i := by
      intro i inside
      rw [kept i (lt_succ_of_lt inside) inside.ne, update_of_ne inside.ne]
    refine ⟨le_of_succ_le dst_le, fun i inside _ => before i inside, fun map b _ => ?_,
      fun i after => ?_⟩
    · rw [before _ map]
    · rw [behind i after, update_of_ne]
      exact (lt_of_succ_le (dst_le.trans after)).ne'

/-- What `lzjb_compress` has written stays until it returns. -/
theorem LzjbRun.final (run : LzjbRun input state n out) (ready : Ready input state bit) :
    Final state (bit + 1) n out ∧ n ≤ input.dLen := by
  induction run generalizing bit with
  | stop _ => exact ⟨⟨le_rfl, fun _ _ _ => rfl, fun _ _ _ => rfl, fun _ _ => rfl⟩, ready.fits⟩
  | @item state grouped n out _ group _ ih =>
    obtain ⟨flag, inside⟩ := ready.grouped group
    rcases @lzjbItem_cases input grouped with item | ⟨offset, mlen, item⟩
    · obtain ⟨later, fits⟩ := ih (inside.literal item)
      exact ⟨(later.literal inside item).1.group ready group inside.mask, fits⟩
    · obtain ⟨later, fits⟩ := ih (inside.reference item)
      exact ⟨(later.reference inside item).1.group ready group inside.mask, fits⟩

end Final

/-- The two bytes of a reference. -/
theorem reference_decode (long : matchMin ≤ mlen) (short : mlen ≤ matchMax)
    (near : offset ≤ offsetMask) :
    let high := BitVec.ofNat 8 (((mlen - matchMin) <<< (8 - 6)) ||| (offset >>> 8))
    let low := BitVec.ofNat 8 offset
    (high.toNat >>> (8 - 6)) + matchMin = mlen ∧
      ((high.toNat <<< 8) ||| low.toNat) &&& offsetMask = offset := by
  intro high low
  have min_eq : matchMin = 3 := rfl
  have max_eq : matchMax = 66 := rfl
  have mask_eq : offsetMask = 2 ^ 10 - 1 := rfl
  rw [min_eq] at long
  rw [max_eq] at short
  rw [mask_eq] at near
  have high_eq : high.toNat = (mlen - 3) * 4 + offset / 256 := by
    have packed : ((mlen - matchMin) <<< (8 - 6)) ||| (offset >>> 8) =
        (mlen - 3) * 4 + offset / 256 := by
      rw [min_eq, shiftRight_eq_div_pow, ← shiftLeft_add_eq_or_of_lt (by omega),
        shiftLeft_eq]
    rw [BitVec.toNat_ofNat, packed]
    omega
  have low_eq : low.toNat = offset % 256 := BitVec.toNat_ofNat _ _
  constructor
  · rw [high_eq, shiftRight_eq_div_pow, min_eq]
    omega
  · rw [mask_eq, and_two_pow_sub_one_eq_mod, ← shiftLeft_add_eq_or_of_lt low.isLt,
      shiftLeft_eq, high_eq, low_eq]
    omega

theorem flag_ne_zero (byte : BitVec 8) (bit : ℕ) :
    byte.toNat &&& 2 ^ bit ≠ 0 ↔ byte.getLsbD bit = true := by
  rw [and_two_pow, BitVec.getLsbD]
  cases byte.toNat.testBit bit <;> simp

/-- A decompressor that has read what the compressor has written. -/
structure Mirrors (input : LzjbInput) (state : LzjbWriter) (bit : ℕ) (out : Buffer)
    (reader : LzjbReader) : Prop where
  src : reader.src = state.dst
  dst : reader.dst = state.src
  mask : reader.copymask = 2 ^ bit
  map : bit < 7 → reader.copymap = out state.copymap
  text : Prefix reader.out input.src state.src

section Mirrors

variable {state grouped : LzjbWriter} {bit flag n : ℕ} {out : Buffer} {bytes : List (BitVec 8)}
  {reader : LzjbReader} (written : ∀ i < n, bytes[i]? = some (out i))

include written

theorem lzjbLoad_of_written {i : ℕ} (inside : i < n) : lzjbLoad bytes i = .ok (out i) := by
  rw [lzjbLoad, written i inside]

/-- The decompressor reads the flags that the compressor has started. -/
theorem Mirrors.flags (mirrors : Mirrors input state bit out reader)
    (ready : Ready input state bit) (group : lzjbGroup input state = .go grouped)
    (inside : Grouped input grouped flag) (reached : grouped.dst ≤ n) :
    ∃ next, lzjbFlags bytes reader = .ok next ∧ next.src = grouped.dst ∧ next.dst = grouped.src ∧
    next.copymask = 2 ^ flag ∧ next.copymap = out grouped.copymap ∧ next.out = reader.out := by
  rw [lzjbFlags, mirrors.mask]
  rcases ready.group group with ⟨early, rfl, _⟩ | ⟨last, rfl, _⟩
  · obtain rfl : bit + 1 = flag := Nat.pow_right_injective le_rfl inside.mask
    rw [if_neg (by rw [two_pow_shift_full]; omega), two_pow_shiftLeft_one]
    exact ⟨_, rfl, mirrors.src, mirrors.dst, rfl, mirrors.map early, rfl⟩
  · obtain rfl : 0 = flag := Nat.pow_right_injective le_rfl inside.mask
    rw [if_pos (two_pow_shift_full.mpr last), mirrors.src,
      lzjbLoad_of_written written (Nat.lt_of_succ_le reached)]
    exact ⟨_, rfl, rfl, mirrors.dst, rfl, rfl, rfl⟩

theorem expand_literal (mask : reader.copymask = 2 ^ flag)
    (clear : reader.copymap.getLsbD flag = false) (inside : reader.src < n) :
    lzjbExpand bytes dLen reader = .ok (some { reader with
      src := reader.src + 1
      dst := reader.dst + 1
      out := update reader.out reader.dst (out reader.src) }) := by
  rw [lzjbExpand, if_neg (by rw [mask, flag_ne_zero, clear]; exact Bool.false_ne_true),
    lzjbLoad_of_written written inside]
  rfl

/-- The decompressor reads the item that the compressor writes. -/
theorem Mirrors.step (mirrors : Mirrors input state bit out reader) (ready : Ready input state bit)
    (more : state.src < input.sLen) (group : lzjbGroup input state = .go grouped)
    (rest : LzjbRun input (lzjbItem input grouped) n out) :
    ∃ flag next, lzjbDecompressStep bytes input.sLen reader = .ok (some next) ∧
    Ready input (lzjbItem input grouped) flag ∧
    Mirrors input (lzjbItem input grouped) flag out next ∧
    ∀ i, input.sLen ≤ i → next.out i = reader.out i := by
  obtain ⟨flag, inside⟩ := ready.grouped group
  have text := mirrors.text
  rw [← lzjbGroup_src group] at more text
  rcases @lzjbItem_cases input grouped with item | ⟨offset, mlen, item⟩
  · have later := inside.literal item
    obtain ⟨final, room, byte, clear⟩ := (rest.final later).1.literal inside item
    obtain ⟨next, flags, src, dst, mask, map, same⟩ :=
      mirrors.flags written ready group inside final.dst_le
    rw [← map] at clear
    rw [← src] at room byte
    have step : lzjbDecompressStep bytes input.sLen reader = lzjbExpand bytes input.sLen next := by
      rw [lzjbDecompressStep, flags]
      rfl
    refine ⟨flag, _, step.trans (expand_literal written mask clear room), later,
      ⟨?_, ?_, mask, fun _ => ?_, ?_⟩, fun i after => ?_⟩
    · rw [item.dst, src]
    · rw [item.src, dst]
    · rw [item.copymap]
      exact map
    · rw [item.src, same, byte, dst]
      exact text.snoc
    · simp only [same, dst]
      exact update_of_ne (by omega) _ _
  · have later := inside.reference item
    obtain ⟨final, room, high, low, set⟩ := (rest.final later).1.reference inside item
    obtain ⟨next, flags, src, dst, mask, map, same⟩ :=
      mirrors.flags written ready group inside final.dst_le
    have back := item.back
    have valid := item.inside
    have source := item.source
    rw [← map] at set
    rw [← src] at room high low
    rw [← dst] at valid source
    have step : lzjbDecompressStep bytes input.sLen reader = lzjbExpand bytes input.sLen next := by
      rw [lzjbDecompressStep, flags]
      rfl
    obtain ⟨length_eq, offset_eq⟩ := reference_decode item.long item.short item.near
    have expand : lzjbExpand bytes input.sLen next = .ok (some { next with
        src := next.src + 2
        dst := next.dst + mlen
        out := copyForward next.out next.dst (next.dst - offset) mlen }) := by
      rw [lzjbExpand, if_pos (by rw [mask, flag_ne_zero, set]),
        lzjbLoad_of_written written (lt_of_succ_lt room), lzjbLoad_of_written written room, high,
        low]
      change Except.ok (lzjbPaste input.sLen next _ _) = _
      simp only [lzjbPaste, length_eq, offset_eq]
      rw [if_neg (by omega), min_eq_left (by omega)]
    refine ⟨flag, _, step.trans expand, later, ⟨?_, ?_, mask, fun _ => ?_, ?_⟩,
      fun i after => ?_⟩
    · rw [item.dst, src]
    · rw [item.src, dst]
    · rw [item.copymap]
      exact map
    · rw [item.src, same, dst]
      exact text.copyForward (by omega) item.same
    · simp only [same]
      exact copyForward_of_ge _ _ _ _ (by omega)

/-- The decompressor reproduces what the compressor has read. -/
theorem LzjbRun.decompress (run : LzjbRun input state n out) (ready : Ready input state bit)
    (mirrors : Mirrors input state bit out reader) (enough : input.sLen - state.src < fuel) :
    ∃ result, lzjbDecompressLoop bytes input.sLen fuel reader = .ok (0, result) ∧
    Prefix result input.src input.sLen ∧ ∀ i, input.sLen ≤ i → result i = reader.out i := by
  induction run generalizing bit reader fuel with
  | @stop state finished =>
    obtain ⟨fuel, rfl⟩ : ∃ rest, fuel = rest + 1 := ⟨fuel - 1, by omega⟩
    rw [lzjbDecompressLoop, mirrors.dst, if_neg (not_lt.mpr finished)]
    exact ⟨_, rfl, fun i inside => mirrors.text i (inside.trans_le finished), fun _ _ => rfl⟩
  | @item state grouped n out more group rest ih =>
    obtain ⟨fuel, rfl⟩ : ∃ rest, fuel = rest + 1 := ⟨fuel - 1, by omega⟩
    obtain ⟨flag, next, step, later, mirrored, frame⟩ :=
      mirrors.step written ready more group rest
    have advance := @lzjbItem_src_lt input grouped
    rw [lzjbGroup_src group] at advance
    have remaining : input.sLen - (lzjbItem input grouped).src < fuel := by omega
    obtain ⟨result, returned, text, behind⟩ := ih written later mirrored remaining
    rw [lzjbDecompressLoop, mirrors.dst, if_pos more, step]
    exact ⟨result, returned, text, fun i after => (behind i after).trans (frame i after)⟩

end Mirrors

theorem lzjbCompress_restores (input : LzjbInput) (lempel : BitVec 8 → BitVec 16) (dst : Buffer) :
    ∃ n out, lzjbCompress input lempel dst = .ok (n, out) ∧
    (n < input.sLen → n ≤ input.dLen ∧ (∀ i, n ≤ i → out i = dst i) ∧
      ∀ (result : Buffer) padding,
        lzjbDecompress ((range n).map out ++ padding) input.sLen result =
          .ok (0, fun i => if i < input.sLen then input.src i else result i)) := by
  obtain ⟨n, out, returned⟩ := lzjbCompressLoop_returns (input.sLen + 1)
    ⟨0, 0, 0, 1 <<< (8 - 1), lempel, dst⟩ (by omega : input.sLen - 0 < _)
  refine ⟨n, out, returned, fun shorter => ?_⟩
  have run := lzjbCompressLoop_run returned shorter
  have ready : Ready input ⟨0, 0, 0, 1 <<< (8 - 1), lempel, dst⟩ 7 :=
    ⟨by omega, rfl, by omega, by omega, by omega, zero_le _⟩
  obtain ⟨final, fits⟩ := run.final ready
  refine ⟨fits, final.behind, fun result padding => ?_⟩
  have mirrors : Mirrors input ⟨0, 0, 0, 1 <<< (8 - 1), lempel, dst⟩ 7 out
      ⟨0, 0, 0, 1 <<< (8 - 1), result⟩ := ⟨rfl, rfl, rfl, by omega, fun _ none => by cases none⟩
  have written : ∀ i < n, ((range n).map out ++ padding)[i]? = some (out i) := by
    intro i inside
    rw [getElem?_append_left (by simpa using inside)]
    simp [inside]
  obtain ⟨restored, decompressed, text, behind⟩ :=
    run.decompress written ready mirrors (lt_succ_self _)
  refine decompressed.trans ?_
  congr 2
  funext i
  split_ifs with inside
  · exact text i inside
  · exact behind i (not_lt.mp inside)

/-- What `lzjb_compress` shortens, `lzjb_decompress` restores without reading any further. -/
theorem lzjb_round_trip (input : LzjbInput) (lempel : BitVec 8 → BitVec 16) (dst : Buffer) :
    ∃ n out, lzjbCompress input lempel dst = .ok (n, out) ∧
    (n < input.sLen → n ≤ input.dLen ∧ (∀ i, n ≤ i → out i = dst i) ∧
      ∀ result : Buffer, ∃ restored, (∀ i < input.sLen, restored i = input.src i) ∧
      (∀ i, input.sLen ≤ i → restored i = result i) ∧
      ∀ padding, lzjbDecompress ((range n).map out ++ padding) input.sLen result =
        .ok (0, restored)) := by
  obtain ⟨n, out, returned, restores⟩ := lzjbCompress_restores input lempel dst
  refine ⟨n, out, returned, fun shorter => ?_⟩
  obtain ⟨fits, behind, decompressed⟩ := restores shorter
  refine ⟨fits, behind, fun result => ⟨_, fun i inside => if_pos inside, ?_, decompressed result⟩⟩
  exact fun i after => if_neg (not_lt.mpr after)

/-- Equal bytes at an odd address. -/
def equalBytes : LzjbInput := ⟨fun _ => 7, 4097, 74, 50⟩

/-- A literal, a reference and seven literals in two groups are decompressed again. -/
theorem lzjb_round_trip_equalBytes :
    ∃ out restored, lzjbCompress equalBytes (fun _ => 4096) (fun _ => 255) = .ok (12, out) ∧
    (∀ i < 74, restored i = 7) ∧
    lzjbDecompress ((range 12).map out ++ [1, 2, 3]) 74 (fun _ => 9) = .ok (0, restored) := by
  obtain ⟨n, out, returned, restores⟩ :=
    lzjb_round_trip equalBytes (fun _ => 4096) (fun _ => 255)
  have length : (lzjbCompress equalBytes (fun _ => 4096) (fun _ => 255)).toOption.map Prod.fst =
      some 12 := by decide +kernel
  rw [returned] at length
  obtain rfl : n = 12 := Option.some.inj length
  obtain ⟨restored, text, _, decompressed⟩ := (restores (by decide)).2.2 fun _ => 9
  exact ⟨out, restored, returned, text, decompressed [1, 2, 3]⟩

section Damaged

variable (src : List (BitVec 8)) (dLen : ℕ) (state : LzjbReader)

theorem settles_lzjbLoad (i : ℕ) : Settles (fun _ => True) (lzjbLoad src i) := by
  unfold lzjbLoad
  split
  · trivial
  · rfl

theorem settles_lzjbFlags : Settles (fun next => next.dst = state.dst ∧ next.out = state.out)
    (lzjbFlags src state) := by
  unfold lzjbFlags
  split_ifs
  · exact (settles_lzjbLoad src state.src).bind fun _ _ => ⟨rfl, rfl⟩
  · exact ⟨rfl, rfl⟩

/-- An item of any source writes at least one byte, and none behind the destination. -/
theorem settles_lzjbExpand (room : state.dst < dLen) :
    Settles (fun next => ∀ reader ∈ next, state.dst < reader.dst ∧
      ∀ i, dLen ≤ i → reader.out i = state.out i) (lzjbExpand src dLen state) := by
  unfold lzjbExpand
  split_ifs
  · refine (settles_lzjbLoad src _).bind fun high _ => (settles_lzjbLoad src _).bind fun low _ => ?_
    intro reader pasted
    simp only [lzjbPaste, Option.mem_def] at pasted
    split_ifs at pasted
    cases pasted
    refine ⟨?_, fun i behind => copyForward_of_ge _ _ _ _ (by omega)⟩
    simp only [matchMin]
    omega
  · refine (settles_lzjbLoad src _).bind fun byte _ => ?_
    rintro _ ⟨⟩
    exact ⟨Nat.lt_succ_self _, fun i behind => update_of_ne (by omega) ..⟩

/-- Whatever the source is, `lzjb_decompress` ends and writes inside the destination, unless it
reads behind the source. -/
theorem lzjb_decompress_inside (out : Buffer) :
    Settles (fun done => (done.1 = 0 ∨ done.1 = -1) ∧ ∀ i, dLen ≤ i → done.2 i = out i)
      (lzjbDecompress src dLen out) := by
  have loop : ∀ fuel state, dLen - state.dst < fuel → (∀ i, dLen ≤ i → state.out i = out i) →
      Settles (fun done => (done.1 = 0 ∨ done.1 = -1) ∧ ∀ i, dLen ≤ i → done.2 i = out i)
        (lzjbDecompressLoop src dLen fuel state) := by
    intro fuel
    induction fuel with
    | zero => omega
    | succ fuel ih =>
      intro state enough same
      rw [lzjbDecompressLoop]
      split_ifs with room
      · have step : Settles (fun next => ∀ reader ∈ next, state.dst < reader.dst ∧
            ∀ i, dLen ≤ i → reader.out i = state.out i) (lzjbDecompressStep src dLen state) :=
          (settles_lzjbFlags src state).bind fun grouped ⟨dst_eq, out_eq⟩ =>
            dst_eq ▸ out_eq ▸ settles_lzjbExpand src dLen grouped (dst_eq ▸ room)
        cases taken : lzjbDecompressStep src dLen state with
        | error halt => exact (taken ▸ step :)
        | ok next =>
          rw [taken] at step
          cases next with
          | none => exact ⟨.inr rfl, same⟩
          | some reader =>
            obtain ⟨further, kept⟩ := step reader rfl
            exact ih reader (by omega) fun i behind => (kept i behind).trans (same i behind)
      · exact ⟨.inl rfl, same⟩
  exact loop _ _ (by simp) fun _ _ => rfl

end Damaged

end Zfs
