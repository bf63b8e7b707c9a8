import Zfs.Library.ByteBuffer
import Zfs.Zil.Code

/-!
# Parsing the intent log

`zil_parse` follows the chain of log blocks and hands their records to a callback.  What
`zil_read_log_block` checks ends the chain, but the lengths of the records, by which the inner loop
goes on, are only asserted.
-/

namespace Zfs

open ByteBuffer List

/-- `sizeof (lr_t)`. -/
def lrSize : ℕ := 32

/-- `sizeof (zil_trailer_t)`. -/
def zilTrailerSize : ℕ := 184

/-- A log block on disk. -/
structure LogBlock where
  /-- The checksum of the pointers through which it can be read. -/
  guid : ℕ
  seq : ℕ
  blksz : ℕ
  zitNextBlk : LogBlkptr
  /-- `BP_IS_HOLE` of the next block. -/
  nextHole : Bool
  /-- The bytes in use. -/
  zitNused : ℕ
  /-- The bytes from its start on, and those around it in memory. -/
  lrbuf : ℤ → BitVec 8
  sized : 512 ≤ blksz ∧ blksz ≤ 2 ^ 25

/-- The field `lrc_reclen` of the record at a position. -/
def LogBlock.lrcReclen (block : LogBlock) (lrp : ℤ) : BitVec 64 :=
  ofBytes fun j => block.lrbuf (lrp + 8 + j)

/-- The log blocks of a pool by their addresses. -/
structure LogDisk where
  blocks : List (ℕ × LogBlock)
  few : blocks.length < 2 ^ 64

inductive LogBlockError where
  | unreadable
  | estale
  | enoent
  | eoverflow

def zilReadLogBlock (disk : LogDisk) (bp : LogBlkptr) : Except LogBlockError LogBlock :=
  match disk.blocks.lookup bp.dva with
  | none => .error .unreadable
  | some block =>
    if block.guid ≠ bp.guid ∨ block.seq ≠ bp.seq then .error .unreadable
    else if block.zitNextBlk.guid ≠ bp.guid ∨ block.zitNextBlk.seq ≠ add64 bp.seq 1 then
      .error .estale
    else if block.nextHole then .error .enoent
    else if block.zitNused > block.blksz - zilTrailerSize then .error .eoverflow
    else .ok block

/-- The loop of `zil_parse` over the records: where they start. -/
def zilParseRecords (block : LogBlock) : ℕ → ℤ → Option (List ℤ)
  | 0, _ => none
  | fuel + 1, lrp =>
    if lrp < block.zitNused then
      -- `reclen` is an `int`
      (zilParseRecords block fuel (lrp + ((block.lrcReclen lrp).setWidth 32).toInt)).map (lrp :: ·)
    else
      some []

/-- What `zil_parse` returns, and the arguments of the two callbacks. -/
structure ZilParsed where
  /-- The highest sequence number. -/
  maxSeq : ℕ
  blks : List LogBlkptr
  /-- The records, by block and place. -/
  records : List (LogBlock × ℤ)

section Parse

variable (disk : LogDisk) (claimSeq : ℕ) (parseLr : Bool)

def zilParseLoop : LogBlkptr → ℕ → ℕ → Option ZilParsed
  | _, _, 0 => none
  | blk, maxSeq, fuel + 1 =>
    if claimSeq ≠ 0 ∧ blk.seq > claimSeq then some ⟨maxSeq, [], []⟩
    else
      match zilReadLogBlock disk blk with
      | .error _ => some ⟨blk.seq, [blk], []⟩
      | .ok block =>
        (if parseLr then zilParseRecords block fuel 0 else some []).bind fun records =>
          (zilParseLoop block.zitNextBlk blk.seq fuel).map fun rest =>
            ⟨rest.maxSeq, blk :: rest.blks, records.map (block, ·) ++ rest.records⟩

/-- `zil_parse` with a callback for records or without. -/
def zilParse (zh : ZilHeader) (fuel : ℕ) : Option ZilParsed :=
  match zh.zhLog with
  | none => some ⟨0, [], []⟩
  | some blk => zilParseLoop disk zh.zhClaimSeq parseLr blk 0 fuel

/-- `zil_parse` goes on with the records of a block. -/
def Accepted (blk : LogBlkptr) (block : LogBlock) : Prop :=
  ¬(claimSeq ≠ 0 ∧ blk.seq > claimSeq) ∧ zilReadLogBlock disk blk = .ok block

/-- The blocks that `zil_parse` comes to from a pointer on. -/
inductive Visits : LogBlkptr → LogBlock → Prop
  | here {blk : LogBlkptr} {block : LogBlock} (accepted : Accepted disk claimSeq blk block) :
    Visits blk block
  | later {blk : LogBlkptr} {block other : LogBlock} (accepted : Accepted disk claimSeq blk block)
    (rest : Visits block.zitNextBlk other) : Visits blk other

end Parse

namespace LogBlock

variable {block : LogBlock} {lrp : ℤ}

/-- A record with a header lies within the used bytes. -/
def Contains (block : LogBlock) (lrp : ℤ) : Prop :=
  0 ≤ lrp ∧ lrp + (block.lrcReclen lrp).toNat ≤ block.zitNused ∧
    lrSize ≤ (block.lrcReclen lrp).toNat

/-- Records of their own lengths fill the used bytes. -/
inductive Filled (block : LogBlock) : ℤ → Prop
  | done : Filled block block.zitNused
  | record {lrp : ℤ} (long : lrSize ≤ (block.lrcReclen lrp).toNat)
    (rest : Filled block (lrp + (block.lrcReclen lrp).toNat)) : Filled block lrp

theorem Filled.le (filled : block.Filled lrp) : lrp ≤ block.zitNused := by
  induction filled with
  | done => exact le_rfl
  | record _ _ ih => omega

/-- A length within the block is an `int`. -/
theorem Contains.toInt_eq (used : block.zitNused ≤ block.blksz) (contains : block.Contains lrp) :
    ((block.lrcReclen lrp).setWidth 32).toInt = (block.lrcReclen lrp).toNat := by
  obtain ⟨from_, until_, -⟩ := contains
  have small := block.sized.2
  rw [BitVec.toInt_eq_toNat_of_lt] <;> rw [BitVec.toNat_setWidth] <;> omega

theorem Filled.exists_zilParseRecords (used : block.zitNused ≤ block.blksz)
    (filled : block.Filled lrp) (start : 0 ≤ lrp) : ∃ enough records,
    (∀ fuel, zilParseRecords block (fuel + enough) lrp = some records) ∧
    ∀ lrp ∈ records, block.Contains lrp := by
  induction filled with
  | done => exact ⟨1, [], fun fuel => by rw [zilParseRecords, if_neg (lt_irrefl _)], by simp⟩
  | @record lrp long rest ih =>
    obtain ⟨enough, records, run, contains⟩ := ih (by omega)
    have here : block.Contains lrp := ⟨start, rest.le, long⟩
    refine ⟨enough + 1, lrp :: records, fun fuel => ?_, by simpa using ⟨here, contains⟩⟩
    have header : 0 < (block.lrcReclen lrp).toNat := (by decide : 0 < lrSize).trans_le long
    have inside : lrp < block.zitNused := (by omega : lrp < _).trans_le rest.le
    rw [← add_assoc, zilParseRecords, if_pos inside, here.toInt_eq used, run]
    rfl

theorem filled_of_zilParseRecords (used : block.zitNused ≤ block.blksz) {fuel : ℕ}
    {records : List ℤ} (run : zilParseRecords block fuel lrp = some records)
    (contains : ∀ lrp ∈ records, block.Contains lrp) (start : lrp ≤ block.zitNused) :
    block.Filled lrp := by
  induction fuel generalizing lrp records with
  | zero => cases run
  | succ fuel ih =>
    rw [zilParseRecords] at run
    split_ifs at run with inside
    · obtain ⟨rest, more, rfl⟩ := Option.map_eq_some_iff.mp run
      have here := contains lrp mem_cons_self
      rw [here.toInt_eq used] at more
      exact .record here.2.2 (ih more (fun lrp mem => contains lrp (.tail _ mem)) here.2.1)
    · obtain rfl : lrp = block.zitNused := by omega
      exact .done

end LogBlock

/-- With enough fuel there is a result, within the used bytes. -/
def EndsWithin (run : ℕ → Option ZilParsed) : Prop :=
  ∃ enough parsed, (∀ fuel, run (fuel + enough) = some parsed) ∧
    ∀ record ∈ parsed.records, record.1.Contains record.2

section Chain

variable {disk : LogDisk} {claimSeq maxSeq : ℕ} {parseLr : Bool} {blk : LogBlkptr}
  {block : LogBlock}

theorem Accepted.spec (accepted : Accepted disk claimSeq blk block) :
    block ∈ disk.blocks.map Prod.snd ∧ block.seq = blk.seq ∧
    block.zitNextBlk.seq = add64 blk.seq 1 ∧ block.zitNused ≤ block.blksz := by
  obtain ⟨-, read⟩ := accepted
  unfold zilReadLogBlock at read
  split at read
  · cases read
  · rename_i found
    split_ifs at read with other stale hole large
    cases read
    simp only [not_or, not_not, not_lt] at other stale large
    obtain ⟨before, after, blocks_eq, -⟩ := lookup_eq_some_iff.mp found
    exact ⟨by simp [blocks_eq], other.2, stale.2, by omega⟩

theorem Accepted.zilParseLoop_eq (accepted : Accepted disk claimSeq blk block) (fuel : ℕ) :
    zilParseLoop disk claimSeq parseLr blk maxSeq (fuel + 1) =
      (if parseLr then zilParseRecords block fuel 0 else some []).bind fun records =>
        (zilParseLoop disk claimSeq parseLr block.zitNextBlk blk.seq fuel).map fun rest =>
          ⟨rest.maxSeq, blk :: rest.blks, records.map (block, ·) ++ rest.records⟩ := by
  rw [zilParseLoop, if_neg accepted.1, accepted.2]

theorem Accepted.exists_rest (accepted : Accepted disk claimSeq blk block) {fuel : ℕ}
    {parsed : ZilParsed} (run : zilParseLoop disk claimSeq true blk maxSeq fuel = some parsed) :
    ∃ fuel records rest, zilParseRecords block fuel 0 = some records ∧
    zilParseLoop disk claimSeq true block.zitNextBlk blk.seq fuel = some rest ∧
    parsed.records = records.map (block, ·) ++ rest.records := by
  obtain _ | fuel := fuel
  · cases run
  rw [accepted.zilParseLoop_eq, if_pos rfl, Option.bind_eq_some_iff] at run
  obtain ⟨records, within, looped⟩ := run
  obtain ⟨rest, run, rfl⟩ := Option.map_eq_some_iff.mp looped
  exact ⟨fuel, records, rest, within, run, rfl⟩

theorem endsWithin_of_not_accepted (stops : ∀ block, ¬ Accepted disk claimSeq blk block) :
    EndsWithin (zilParseLoop disk claimSeq parseLr blk maxSeq) := by
  by_cases claimed : claimSeq ≠ 0 ∧ blk.seq > claimSeq
  · exact ⟨1, ⟨maxSeq, [], []⟩, fun fuel => by rw [zilParseLoop, if_pos claimed], by simp⟩
  · cases read : zilReadLogBlock disk blk with
    | error =>
      exact ⟨1, ⟨blk.seq, [blk], []⟩, fun fuel => by rw [zilParseLoop, if_neg claimed, read],
        by simp⟩
    | ok block => exact absurd ⟨claimed, read⟩ (stops block)

/-- The chain ends before a sequence number that no block has. -/
theorem endsWithin_of_filled (missing : ℕ) (none_has : ∀ block ∈ disk.blocks.map Prod.snd,
      block.seq % 2 ^ 64 ≠ (blk.seq + missing) % 2 ^ 64)
    (filled : parseLr = true → ∀ block, Visits disk claimSeq blk block → block.Filled 0) :
    EndsWithin (zilParseLoop disk claimSeq parseLr blk maxSeq) := by
  induction missing generalizing blk maxSeq with
  | zero =>
    refine endsWithin_of_not_accepted fun block accepted => ?_
    exact none_has block accepted.spec.1 (congrArg (· % 2 ^ 64) accepted.spec.2.1)
  | succ missing ih =>
    by_cases stops : ∀ block, ¬ Accepted disk claimSeq blk block
    · exact endsWithin_of_not_accepted stops
    push Not at stops
    obtain ⟨block, accepted⟩ := stops
    obtain ⟨-, -, next_seq, used⟩ := accepted.spec
    have later_missing : (block.zitNextBlk.seq + missing) % 2 ^ 64 =
        (blk.seq + (missing + 1)) % 2 ^ 64 := by
      rw [next_seq, add64]
      omega
    obtain ⟨enough, rest, run, contains⟩ := ih (later_missing ▸ none_has)
      fun handed other visits => filled handed other (.later accepted visits)
    obtain ⟨enough', records, within, contained⟩ : ∃ enough records,
        (∀ fuel, (if parseLr then zilParseRecords block (fuel + enough) 0 else some []) =
          some records) ∧ ∀ lrp ∈ records, block.Contains lrp := by
      cases parseLr with
      | false => exact ⟨0, [], fun _ => rfl, by simp⟩
      | true => exact (filled rfl block (.here accepted)).exists_zilParseRecords used le_rfl
    refine ⟨enough + enough' + 1, ⟨rest.maxSeq, blk :: rest.blks,
      records.map (block, ·) ++ rest.records⟩, fun fuel => ?_, ?_⟩
    · have looped := run (fuel + enough')
      rw [add_right_comm] at looped
      rw [← add_assoc, accepted.zilParseLoop_eq, ← add_assoc, within, looped]
      rfl
    · simpa [or_imp, forall_and] using ⟨contained, fun other lrp mem => contains (other, lrp) mem⟩

theorem Visits.filled (visits : Visits disk claimSeq blk block) {fuel : ℕ} {parsed : ZilParsed}
    (run : zilParseLoop disk claimSeq true blk maxSeq fuel = some parsed)
    (contains : ∀ record ∈ parsed.records, record.1.Contains record.2) : block.Filled 0 := by
  induction visits generalizing fuel maxSeq parsed with
  | here accepted =>
    obtain ⟨_, records, rest, within, -, records_eq⟩ := accepted.exists_rest run
    rw [records_eq] at contains
    refine LogBlock.filled_of_zilParseRecords accepted.spec.2.2.2 within (fun lrp mem => ?_)
      (Int.natCast_nonneg _)
    exact contains (_, lrp) (mem_append_left _ (mem_map_of_mem mem))
  | later accepted _ ih =>
    obtain ⟨_, records, rest, -, looped, records_eq⟩ := accepted.exists_rest run
    rw [records_eq] at contains
    exact ih looped fun record mem => contains record (mem_append_right _ mem)

/-- Fewer than `2 ^ 64` blocks do not have all sequence numbers. -/
theorem LogDisk.exists_missing (disk : LogDisk) (seq : ℕ) : ∃ missing,
    ∀ block ∈ disk.blocks.map Prod.snd, block.seq % 2 ^ 64 ≠ (seq + missing) % 2 ^ 64 := by
  let seqs := ((disk.blocks.map Prod.snd).map fun block => block.seq % 2 ^ 64).toFinset
  have few : seqs.card < (Finset.range (2 ^ 64)).card := by
    rw [Finset.card_range]
    exact (toFinset_card_le _).trans_lt (by simpa using disk.few)
  obtain ⟨free, small, absent⟩ := Finset.exists_mem_notMem_of_card_lt_card few
  rw [Finset.mem_range] at small
  refine ⟨free + (2 ^ 64 - seq % 2 ^ 64), fun block mem same => absent ?_⟩
  refine mem_toFinset.mpr (mem_map.mpr ⟨block, mem, same.trans ?_⟩)
  omega

end Chain

/-- `zil_parse` ends and keeps within the used bytes exactly when the records of each block that it
visits fill them. -/
theorem zil_parse_iff (disk : LogDisk) (zh : ZilHeader) (parseLr : Bool) :
    EndsWithin (zilParse disk parseLr zh) ↔
    (parseLr = true → ∀ blk ∈ zh.zhLog, ∀ block, Visits disk zh.zhClaimSeq blk block →
      block.Filled 0) := by
  unfold zilParse
  cases zh.zhLog with
  | none => exact iff_of_true ⟨0, _, fun _ => rfl, by simp⟩ fun _ blk none_mem => nomatch none_mem
  | some blk =>
    simp only [Option.mem_some_iff, forall_eq']
    constructor
    · rintro ⟨enough, parsed, run, contains⟩ rfl block visits
      exact visits.filled (run 0) contains
    · obtain ⟨missing, none_has⟩ := disk.exists_missing blk.seq
      exact endsWithin_of_filled missing none_has

/-- A log block whose first record has the length zero. -/
def emptyRecord : LogBlock := ⟨0, 1, 4096, ⟨1, 0, 2⟩, false, 32, fun _ => 0, by decide⟩

/-- A log of that block. -/
def emptyRecordLog : LogDisk := ⟨[(0, emptyRecord)], by simp⟩

/-- `zil_parse` never comes to the end of a record of length zero. -/
theorem zil_parse_stuck :
    ¬ EndsWithin (zilParse emptyRecordLog true ⟨0, 0, some ⟨0, 0, 1⟩, 0⟩) := by
  rintro ⟨enough, parsed, run, -⟩
  have accepted : Accepted emptyRecordLog 0 ⟨0, 0, 1⟩ emptyRecord :=
    ⟨by decide, by simp [zilReadLogBlock, emptyRecordLog, emptyRecord, add64, zilTrailerSize]⟩
  have stuck (fuel : ℕ) : zilParseRecords emptyRecord fuel 0 = none := by
    induction fuel with
    | zero => rfl
    | succ fuel ih =>
      rw [zilParseRecords, if_pos (by decide)]
      exact congrArg (Option.map _) ih
  obtain ⟨fuel, records, -, within, -⟩ := accepted.exists_rest (run 0)
  rw [stuck] at within
  cases within

end Zfs
