import Zfs.VdevCache.Code

/-!
# Coherence of the cache

A line that is filled holds values that are not outdated.  A line that is being filled has the mark
of a missed update if a write over it has completed since it was allocated; the reads that wait for
it were queued before.
-/

namespace Zfs

open DeviceHistory TransitionSystem Function History List

variable {vc : VdevCache} {ve : VdevCacheEntry} {io : VdevIo} {offset : ℕ} {data : ℕ → UInt8}

theorem vcbs_eq : vcbs = 2 ^ 16 := rfl

theorem p2align_vcbs (io : VdevIo) : p2align io.ioOffset vcbs = io.ioOffset / vcbs * vcbs := by
  have := io.bound
  rw [vcbs_eq]
  exact p2align_two_pow (by omega) (by norm_num)

theorem p2phase_vcbs (value : ℕ) : p2phase value vcbs = value % vcbs := p2phase_two_pow value 16

/-- A read that does not cross a line lies in the line of its first byte. -/
theorem within_line (uncrossed : ¬vcbs - 1 < io.ioOffset ^^^ sub64 (add64 io.ioOffset io.ioSize) 1)
    (nonempty : 0 < io.ioSize) :
    io.ioOffset + io.ioSize ≤ io.ioOffset / vcbs * vcbs + vcbs := by
  have bound := io.bound
  have last_eq : sub64 (add64 io.ioOffset io.ioSize) 1 = io.ioOffset + io.ioSize - 1 := by
    rw [add64_eq (by omega), sub64_eq (by omega) (by omega)]
  rw [last_eq] at uncrossed
  have same_line : (io.ioOffset ^^^ (io.ioOffset + io.ioSize - 1)) >>> 16 = 0 := by
    rw [Nat.shiftRight_eq_div_pow]
    refine Nat.div_eq_of_lt ?_
    rw [← vcbs_eq]
    have : 0 < vcbs := by decide
    omega
  rw [Nat.shiftRight_xor_distrib, Nat.xor_eq_zero_iff, Nat.shiftRight_eq_div_pow,
    Nat.shiftRight_eq_div_pow, ← vcbs_eq] at same_line
  have upper : io.ioOffset + io.ioSize - 1 <
      (io.ioOffset + io.ioSize - 1) / vcbs * vcbs + vcbs := Nat.lt_div_mul_add (by decide)
  rw [← same_line] at upper
  omega

variable {place since stop lbolt : ℕ} {failed : Bool} {change : VdevCacheEntry → VdevCacheEntry}

/-- A write over a line is one that reaches it. -/
theorem reaches_line (aligned : vcbs ∣ offset) (room : offset < 2 ^ 63 + 1)
    (covers : io.covers place = true) (lower : offset ≤ place) (upper : place < offset + vcbs) :
    p2align io.ioOffset vcbs ≤ offset ∧ offset < p2roundup (add64 io.ioOffset io.ioSize) vcbs := by
  have bound := io.bound
  simp only [VdevIo.covers, Bool.and_eq_true, decide_eq_true_eq] at covers
  obtain ⟨line, rfl⟩ := aligned
  have rounded := p2roundup_bounds (by omega : io.ioOffset + io.ioSize + 2 ^ 16 < 2 ^ 64)
  rw [add64_eq (by omega), p2align_vcbs]
  constructor
  · have : io.ioOffset / vcbs < line + 1 := by
      rw [Nat.div_lt_iff_lt_mul (by decide), Nat.add_mul, Nat.one_mul, Nat.mul_comm line]
      omega
    calc io.ioOffset / vcbs * vcbs ≤ line * vcbs := Nat.mul_le_mul_right _ (by omega)
      _ = vcbs * line := Nat.mul_comm _ _
  · rw [vcbs_eq] at *
    omega

/-- The bytes of a read are the bytes of a line from its phase on. -/
def InLine (io : VdevIo) (offset : ℕ) : Prop := ∀ i < io.ioSize,
  p2phase io.ioOffset vcbs + i < vcbs ∧ offset + (p2phase io.ioOffset vcbs + i) = io.ioOffset + i

/-- A write over a line has completed since a time. -/
def CompletedSince (history : History ℕ UInt8) (offset since stop : ℕ) : Prop :=
  ∃ id write, history.writes id = some write ∧ write.completed = some stop ∧ since ≤ stop ∧
    ∃ place, offset ≤ place ∧ place < offset + vcbs ∧ write.covers place = true

/-- A line that is being filled. -/
structure Filling (history : History ℕ UInt8) (reads : ℕ → Option CachedRead) (ve : VdevCacheEntry)
    (fio : FillIo) : Prop where
  /-- The read was issued before. -/
  issued : 0 < fio.issued ∧ fio.issued < history.now
  /-- A write since then has left its mark. -/
  missed : ∀ stop, CompletedSince history ve.veOffset fio.issued stop → ve.veMissedUpdate = true
  /-- The reads that wait were queued before. -/
  delegates : ∀ dio ∈ fio.ioDelegateList, ∃ read, reads dio.1 = some read ∧ read.io = dio.2 ∧
    read.queued < history.now ∧ InLine dio.2 ve.veOffset ∧
    ∀ stop, CompletedSince history ve.veOffset fio.issued stop → read.queued < stop

/-- A line that has been filled. -/
structure Filled (history : History ℕ UInt8) (ve : VdevCacheEntry) : Prop where
  /-- It has missed no write. -/
  updated : ve.veMissedUpdate = false
  /-- Its bytes are not outdated. -/
  current : ∀ phase < vcbs, history.Current (ve.veOffset + phase) (ve.veData phase) history.now
    history.now

/-- A line is at its place, and is filled or being filled. -/
structure LineOk (history : History ℕ UInt8) (reads : ℕ → Option CachedRead) (ve : VdevCacheEntry) :
    Prop where
  /-- It starts at a line. -/
  aligned : vcbs ∣ ve.veOffset
  /-- Its offset is at most 2^63. -/
  room : ve.veOffset < 2 ^ 63 + 1
  filled : ve.veFillIo = none → Filled history ve
  filling : ∀ fio, ve.veFillIo = some fio → Filling history reads ve fio

/-- A read that the cache has answered. -/
def Answered (history : History ℕ UInt8) (read : CachedRead) : Prop :=
  ∀ time data, read.answer = some (time, data) → read.queued ≤ time ∧ time < history.now ∧
    ∀ i < read.io.ioSize, history.Current (read.io.ioOffset + i) (data i) read.queued time

/-- What holds between two steps. -/
structure CacheState.Coherent (state : CacheState) : Prop where
  valid : state.history.Valid
  /-- A place has one line. -/
  distinct : (state.cache.map VdevCacheEntry.veOffset).Nodup
  /-- The lines are in order. -/
  lines : ∀ ve ∈ state.cache, LineOk state.history state.reads ve
  /-- The answers were not outdated. -/
  answers : ∀ id read, state.reads id = some read → Answered state.history read

variable {state : CacheState} {history later : History ℕ UInt8} {reads : ℕ → Option CachedRead}

theorem Answered.grows {read : CachedRead} (answered : Answered history read)
    (valid : history.Valid)
    (grows : history.Grows later) (now_eq : later.now = history.now + 1) : Answered later read := by
  intro time data answer
  obtain ⟨queued, past, current⟩ := answered time data answer
  exact ⟨queued, by omega, fun i inside => grows.current valid (by omega) (current i inside)⟩

/-- No write has completed in a step. -/
def Quiet (history later : History ℕ UInt8) : Prop :=
  ∀ id write stop, later.writes id = some write → write.completed = some stop →
    ∃ old, history.writes id = some old ∧ old.completed = some stop ∧ old.covers = write.covers

theorem CompletedSince.of_quiet (quiet : Quiet history later)
    (completed : CompletedSince later offset since stop) :
    CompletedSince history offset since stop := by
  obtain ⟨id, write, found, done, after, place, lower, upper, covers⟩ := completed
  obtain ⟨old, found, done, same⟩ := quiet id write stop found done
  exact ⟨id, old, found, done, after, place, lower, upper, by rwa [same]⟩

/-- A line stays as it is while no write over it completes. -/
theorem LineOk.quiet (line : LineOk history reads ve) (valid : history.Valid)
    (grows : history.Grows later) (now_eq : later.now = history.now + 1)
    (quiet : ∀ since stop, CompletedSince later ve.veOffset since stop →
      CompletedSince history ve.veOffset since stop) : LineOk later reads ve where
  aligned := line.aligned
  room := line.room
  filled whole := by
    obtain ⟨updated, current⟩ := line.filled whole
    refine ⟨updated, fun phase inside => ?_⟩
    have kept := grows.current valid le_rfl (current phase inside)
    rw [now_eq]
    refine (kept.extend fun id write stop found covers done early => ?_).weaken le_rfl
      (Nat.le_succ _)
    obtain ⟨id, old, found, done, -⟩ :=
      quiet stop stop ⟨id, write, found, done, le_rfl, _, Nat.le_add_right _ _, by omega, covers⟩
    exact (valid.completed id old stop found done).2
  filling fio partial_ := by
    obtain ⟨issued, missed, delegates⟩ := line.filling fio partial_
    refine ⟨⟨issued.1, by omega⟩, fun stop completed => missed stop (quiet _ stop completed), ?_⟩
    intro dio member
    obtain ⟨read, found, same, queued, inLine, before⟩ := delegates dio member
    exact ⟨read, found, same, by omega, inLine,
      fun stop completed => before stop (quiet _ stop completed)⟩

theorem CacheState.Coherent.quiet (coherent : state.Coherent) (valid : later.Valid)
    (grows : state.history.Grows later) (now_eq : later.now = state.history.now + 1)
    (quiet : Quiet state.history later) : CacheState.Coherent { state with history := later } where
  valid := valid
  distinct := coherent.distinct
  lines ve member := (coherent.lines ve member).quiet coherent.valid grows now_eq
    fun _ _ completed => completed.of_quiet quiet
  answers id read found := (coherent.answers id read found).grows coherent.valid grows now_eq

theorem quiet_wait (history : History ℕ UInt8) : Quiet history history.wait :=
  fun _ write _ found done => ⟨write, found, done, rfl⟩

theorem CacheState.Coherent.wait (coherent : state.Coherent) :
    CacheState.Coherent { state with history := state.history.wait } :=
  coherent.quiet coherent.valid.wait (grows_wait _) rfl (quiet_wait _)

variable {id : ℕ}

theorem CacheState.Coherent.issueWrite (coherent : state.Coherent)
    (unknown : state.history.writes id = none) (covers : ℕ → Bool) (places : ℕ → UInt8) :
    CacheState.Coherent { state with history := state.history.issue id covers places } := by
  refine coherent.quiet (coherent.valid.issue unknown) (grows_issue unknown) rfl ?_
  intro other write stop found done
  rcases update_cases found with ⟨_, rfl⟩ | ⟨_, found⟩
  · cases done
  · exact ⟨write, found, done, rfl⟩

variable {write : Write ℕ UInt8}

theorem CacheState.Coherent.land (coherent : state.Coherent)
    (known : state.history.writes id = some write) (open_ : write.completed = none)
    (part : ℕ → Bool) :
    CacheState.Coherent { state with history := state.history.land id write part } := by
  refine coherent.quiet (coherent.valid.land known open_ part) (grows_land known part) rfl ?_
  intro other found_write stop found done
  rcases update_cases found with ⟨rfl, rfl⟩ | ⟨_, found⟩
  · exact nomatch open_.symm.trans done
  · exact ⟨found_write, found, done, rfl⟩

theorem CompletedSince.of_complete
    (completed : CompletedSince (history.complete id write failed) offset since stop) :
    CompletedSince history offset since stop ∨ stop = history.now ∧
    ∃ place, offset ≤ place ∧ place < offset + vcbs ∧ write.covers place = true := by
  obtain ⟨other, found_write, found, done, after, touches⟩ := completed
  rcases update_cases found with ⟨rfl, rfl⟩ | ⟨_, found⟩
  · exact .inr ⟨(Option.some.inj done).symm, touches⟩
  · exact .inl ⟨other, found_write, found, done, after, touches⟩

section

variable (io : VdevIo) (data : ℕ → UInt8) (ve : VdevCacheEntry)

theorem updateLine_veOffset : (updateLine io data ve).veOffset = ve.veOffset := by
  rw [updateLine]
  split <;> rfl

theorem updateLine_veFillIo : (updateLine io data ve).veFillIo = ve.veFillIo := by
  rw [updateLine]
  split <;> rfl

end

variable {error : ℕ}

section

variable (line : LineOk history reads ve) (valid : history.Valid)
  (known : history.writes id = some write) (open_ : write.completed = none)

include line valid known open_

theorem LineOk.updateLine
    (covers_eq : write.covers = io.covers) (data_eq : write.data = io.places data) :
    LineOk (history.complete id write (error ≠ 0)) reads (updateLine io data ve) where
  aligned := by
    rw [updateLine_veOffset]
    exact line.aligned
  room := by
    rw [updateLine_veOffset]
    exact line.room
  filled whole := by
    have whole_before : ve.veFillIo = none := (updateLine_veFillIo io data ve).symm.trans whole
    obtain ⟨updated, current⟩ := line.filled whole_before
    rw [Zfs.updateLine]
    rw [if_neg (by simp [whole_before])]
    refine ⟨updated, fun phase inside => ?_⟩
    have bound := io.bound
    have room := line.room
    have stop_eq : add64 ve.veOffset vcbs = ve.veOffset + vcbs := add64_eq (by rw [vcbs_eq]; omega)
    have end_eq : add64 io.ioOffset io.ioSize = io.ioOffset + io.ioSize := add64_eq (by omega)
    dsimp only
    rw [stop_eq, end_eq]
    split
    · rename_i inside_write
      have covers : write.covers (ve.veOffset + phase) = true := by
        rw [covers_eq, VdevIo.covers, Bool.and_eq_true, decide_eq_true_eq, decide_eq_true_eq]
        omega
      have data_current := current_complete known valid (error ≠ 0) covers
      rw [data_eq] at data_current
      exact data_current
    · rename_i outside_write
      have beside : write.covers (ve.veOffset + phase) = false := by
        rw [covers_eq, VdevIo.covers, Bool.and_eq_false_iff, decide_eq_false_iff_not,
          decide_eq_false_iff_not]
        omega
      have grows := grows_complete known open_ (error ≠ 0)
      refine ((grows.current valid le_rfl (current phase inside)).extend ?_).weaken le_rfl
        (Nat.le_succ _)
      intro other found_write stop found covers done early
      rcases update_cases found with ⟨rfl, rfl⟩ | ⟨_, found⟩
      · exact absurd (beside.symm.trans covers) (by decide)
      · exact (valid.completed other found_write stop found done).2
  filling fio partial_ := by
    have partial_before : ve.veFillIo = some fio :=
      (updateLine_veFillIo io data ve).symm.trans partial_
    obtain ⟨issued, missed, delegates⟩ := line.filling fio partial_before
    rw [Zfs.updateLine]
    rw [if_pos (by simp [partial_before])]
    refine ⟨⟨issued.1, Nat.lt_succ_of_lt issued.2⟩, fun _ _ => rfl, fun dio member => ?_⟩
    obtain ⟨read, found, same, queued, inLine, before⟩ := delegates dio member
    refine ⟨read, found, same, Nat.lt_succ_of_lt queued, inLine, fun stop completed => ?_⟩
    rcases completed.of_complete with completed | ⟨rfl, -⟩
    · exact before stop completed
    · exact queued

theorem LineOk.beside (beside : ∀ place, ve.veOffset ≤ place → place < ve.veOffset + vcbs →
      write.covers place = false) :
    LineOk (history.complete id write (error ≠ 0)) reads ve := by
  refine line.quiet valid (grows_complete known open_ _) rfl fun since stop completed => ?_
  rcases completed.of_complete with completed | ⟨-, place, lower, upper, covers⟩
  · exact completed
  · exact absurd ((beside place lower upper).symm.trans covers) (by decide)

end

theorem map_veOffset (change : VdevCacheEntry → VdevCacheEntry)
    (same : ∀ ve, (change ve).veOffset = ve.veOffset) (vc : VdevCache) :
    (vc.map change).map VdevCacheEntry.veOffset = vc.map VdevCacheEntry.veOffset := by
  rw [map_map]
  exact map_congr_left fun ve _ => same ve

theorem CacheState.Coherent.completeWrite (coherent : state.Coherent)
    (known : state.history.writes id = some write) (open_ : write.completed = none)
    (covers_eq : write.covers = io.covers) (data_eq : write.data = io.places data)
    (reached : error = 0 → ∀ place, write.covers place = true → write.landed place = true) :
    CacheState.Coherent { state with
      history := state.history.complete id write (error ≠ 0)
      cache := vdevCacheWrite io data state.cache } where
  valid := coherent.valid.complete known open_ fun succeeded => reached (by simpa using succeeded)
  distinct := by
    rw [vdevCacheWrite, map_veOffset]
    · exact coherent.distinct
    · intro ve
      split
      · exact updateLine_veOffset io data ve
      · rfl
  lines ve member := by
    obtain ⟨before, before_member, rfl⟩ := mem_map.mp member
    have line := coherent.lines before before_member
    split
    · exact line.updateLine coherent.valid known open_ covers_eq data_eq
    · rename_i unreached
      refine line.beside coherent.valid known open_ fun place lower upper => ?_
      by_contra covers
      rw [Bool.not_eq_false, covers_eq] at covers
      exact unreached (reaches_line line.aligned line.room covers lower upper)
  answers other read found := (coherent.answers other read found).grows coherent.valid
    (grows_complete known open_ _) rfl

/-- Two lines that differ in when they were used only. -/
structure SameLine (first second : VdevCacheEntry) : Prop where
  veOffset : first.veOffset = second.veOffset
  veMissedUpdate : first.veMissedUpdate = second.veMissedUpdate
  veFillIo : first.veFillIo = second.veFillIo
  veData : first.veData = second.veData

theorem sameLine_hit (lbolt : ℕ) (ve : VdevCacheEntry) : SameLine (vdevCacheHit lbolt ve) ve := by
  rw [vdevCacheHit]
  split <;> exact ⟨rfl, rfl, rfl, rfl⟩

theorem sameLine_hits (lbolt : ℕ) (dios : List (ℕ × VdevIo)) (ve : VdevCacheEntry) :
    SameLine (dios.foldl (fun ve _ => vdevCacheHit lbolt ve) ve) ve := by
  induction dios generalizing ve with
  | nil => exact ⟨rfl, rfl, rfl, rfl⟩
  | cons dio dios ih =>
    obtain ⟨offset_eq, missed_eq, fill_eq, data_eq⟩ := ih (vdevCacheHit lbolt ve)
    obtain ⟨offset_eq', missed_eq', fill_eq', data_eq'⟩ := sameLine_hit lbolt ve
    exact ⟨offset_eq.trans offset_eq', missed_eq.trans missed_eq', fill_eq.trans fill_eq',
      data_eq.trans data_eq'⟩

theorem LineOk.used {used : VdevCacheEntry} (line : LineOk history reads ve)
    (same : SameLine used ve) :
    LineOk history reads used := by
  obtain ⟨aligned, room, filled, filling⟩ := line
  obtain ⟨offset_eq, missed_eq, fill_eq, data_eq⟩ := same
  constructor
  · rwa [offset_eq]
  · rwa [offset_eq]
  · intro whole
    obtain ⟨updated, current⟩ := filled (fill_eq ▸ whole)
    exact ⟨by rwa [missed_eq], by rwa [offset_eq, data_eq]⟩
  · intro fio partial_
    obtain ⟨issued, missed, delegates⟩ := filling fio (fill_eq ▸ partial_)
    exact ⟨issued, by rwa [offset_eq, missed_eq], by rwa [offset_eq]⟩

/-- The reads that a line knows stay as they were queued. -/
theorem LineOk.keepReads {reads' : ℕ → Option CachedRead} (line : LineOk history reads ve)
    (kept : ∀ id read, reads id = some read →
      ∃ read', reads' id = some read' ∧ read'.io = read.io ∧ read'.queued = read.queued) :
    LineOk history reads' ve where
  aligned := line.aligned
  room := line.room
  filled := line.filled
  filling fio partial_ := by
    obtain ⟨issued, missed, delegates⟩ := line.filling fio partial_
    refine ⟨issued, missed, fun dio member => ?_⟩
    obtain ⟨read, found, same, queued, inLine, before⟩ := delegates dio member
    obtain ⟨read', found', io_eq, queued_eq⟩ := kept dio.1 read found
    exact ⟨read', found', io_eq.trans same, by omega, inLine,
      fun stop completed => by rw [queued_eq]; exact before stop completed⟩

theorem mem_atLine {changed : VdevCacheEntry} (member : changed ∈ atLine offset change vc) :
    ∃ ve ∈ vc, (ve.veOffset = offset ∧ changed = change ve) ∨
      (ve.veOffset ≠ offset ∧ changed = ve) := by
  obtain ⟨ve, ve_member, rfl⟩ := mem_map.mp member
  refine ⟨ve, ve_member, ?_⟩
  split
  · exact .inl ⟨‹_›, rfl⟩
  · exact .inr ⟨‹_›, rfl⟩

theorem atLine_distinct (distinct : (vc.map VdevCacheEntry.veOffset).Nodup)
    (same : ∀ ve, ve.veOffset = offset → (change ve).veOffset = offset) :
    ((atLine offset change vc).map VdevCacheEntry.veOffset).Nodup := by
  rw [atLine, map_veOffset]
  · exact distinct
  · intro ve
    split
    · rename_i here
      rw [same ve here, here]
    · rfl

theorem perm_offsetAdd (new : VdevCacheEntry) (vc : VdevCache) :
    (offsetAdd new vc).Perm (new :: vc) := by
  induction vc with
  | nil => exact .refl _
  | cons ve vc ih =>
    rw [offsetAdd]
    split
    · exact .refl _
    · exact (ih.cons ve).trans (.swap _ _ _)

theorem inLine_of_uncrossed
    (uncrossed : ¬vcbs - 1 < io.ioOffset ^^^ sub64 (add64 io.ioOffset io.ioSize) 1) :
    InLine io (p2align io.ioOffset vcbs) := by
  intro i inside
  have within := within_line uncrossed (by omega)
  have split_eq := Nat.div_add_mod' io.ioOffset vcbs
  rw [p2align_vcbs, p2phase_vcbs]
  omega

theorem evictOldest_sublist {vc' : VdevCache} (evicted : evictOldest vc = some vc') :
    vc'.Sublist vc := by
  rw [evictOldest] at evicted
  split at evicted
  · split at evicted
    · exact Option.some.inj evicted ▸ .refl _
    · split at evicted
      · cases evicted
      · exact Option.some.inj evicted ▸ filter_sublist
  · exact Option.some.inj evicted ▸ .refl _

theorem vdevCacheRead_cases (id : ℕ) (io : VdevIo) (lbolt now : ℕ) (vc : VdevCache) :
    (∃ errno, vdevCacheRead id io lbolt now vc = (.miss errno, vc)) ∨
    (∃ ve ∈ vc, ve.veFillIo = none ∧ InLine io ve.veOffset ∧ vdevCacheRead id io lbolt now vc =
      (.hit (hitData ve io), atLine ve.veOffset (vdevCacheHit lbolt) vc)) ∨
    (∃ ve ∈ vc, ∃ fio, ve.veFillIo = some fio ∧ ve.veMissedUpdate = false ∧ InLine io ve.veOffset ∧
      vdevCacheRead id io lbolt now vc = (.delegated, atLine ve.veOffset (fun ve => { ve with
        veFillIo := some { fio with ioDelegateList := (id, io) :: fio.ioDelegateList } }) vc)) ∨
    ∃ vc', vc'.Sublist vc ∧ (∀ ve ∈ vc, ve.veOffset ≠ p2align io.ioOffset vcbs) ∧
    InLine io (p2align io.ioOffset vcbs) ∧ vdevCacheRead id io lbolt now vc = (.delegated, offsetAdd
      ⟨p2align io.ioOffset vcbs, lbolt, false, some ⟨[(id, io)], now⟩, fun _ => 0⟩ vc') := by
  rw [vdevCacheRead]
  split
  · exact .inl ⟨_, rfl⟩
  split
  · exact .inl ⟨_, rfl⟩
  split
  · exact .inl ⟨_, rfl⟩
  rename_i uncrossed
  have inLine := inLine_of_uncrossed uncrossed
  cases found : offsetFind vc (p2align io.ioOffset vcbs) with
  | some ve =>
    have member : ve ∈ vc := mem_of_find?_eq_some found
    have offset_eq : ve.veOffset = p2align io.ioOffset vcbs := by simpa using find?_some found
    rw [← offset_eq] at inLine
    dsimp only
    split
    · exact .inl ⟨_, rfl⟩
    · rename_i updated
      cases fill : ve.veFillIo with
      | some fio =>
        exact .inr (.inr (.inl ⟨ve, member, fio, fill, by simpa using updated, inLine, rfl⟩))
      | none => exact .inr (.inl ⟨ve, member, fill, inLine, rfl⟩)
  | none =>
    have absent : ∀ ve ∈ vc, ve.veOffset ≠ p2align io.ioOffset vcbs := by
      intro ve member
      simpa using find?_eq_none.mp found ve member
    rw [vdevCacheAllocate, if_neg (by decide)]
    cases evicted : evictOldest vc with
    | none => exact .inl ⟨_, rfl⟩
    | some vc' =>
      exact .inr (.inr (.inr ⟨vc', evictOldest_sublist evicted, absent, inLine, rfl⟩))

theorem CacheState.Coherent.read (coherent : state.Coherent) (unknown : state.reads id = none) :
    (state.apply (.read id io lbolt)).Coherent := by
  have waited := coherent.wait
  have grows := grows_wait state.history
  unfold CacheState.apply
  dsimp only
  -- the reads that were known before
  have kept (answer : Option (ℕ × (ℕ → UInt8))) (other : ℕ) (read : CachedRead)
      (found : state.reads other = some read) : ∃ read',
      update state.reads id (some ⟨io, state.history.now, answer⟩) other = some read' ∧
      read'.io = read.io ∧ read'.queued = read.queued := by
    have different : other ≠ id := by
      rintro rfl
      exact nomatch unknown.symm.trans found
    exact ⟨read, (update_of_ne different ..).trans found, rfl, rfl⟩
  have answers (answer : Option (ℕ × (ℕ → UInt8)))
      (here : Answered state.history.wait ⟨io, state.history.now, answer⟩) (other : ℕ)
      (read : CachedRead)
      (found : update state.reads id (some ⟨io, state.history.now, answer⟩) other =
        some read) : Answered state.history.wait read := by
    by_cases same : other = id
    · subst same
      rw [update_self] at found
      cases found
      exact here
    · rw [update_of_ne same] at found
      exact waited.answers other read found
  -- nothing has completed since a line that has no mark was allocated
  have joins {ve : VdevCacheEntry} {fio : FillIo}
      (filling : Filling state.history.wait state.reads ve fio)
      (updated : ve.veMissedUpdate = false) (stop : ℕ) :
      ¬CompletedSince state.history.wait ve.veOffset fio.issued stop := by
    intro completed
    exact absurd (updated.symm.trans (filling.missed stop completed)) (by decide)
  rcases vdevCacheRead_cases id io lbolt state.history.now state.cache with
    ⟨errno, result⟩ | ⟨ve, member, whole, inLine, result⟩ |
    ⟨ve, member, fio, partial_, updated, inLine, result⟩ | ⟨vc', sublist, absent, inLine, result⟩
  · rw [result]
    exact ⟨waited.valid, waited.distinct,
      fun ve member => (waited.lines ve member).keepReads (kept none), answers none nofun⟩
  · rw [result]
    refine ⟨waited.valid, ?_, fun changed changed_member => ?_, answers _ ?_⟩
    · exact atLine_distinct waited.distinct fun ve here =>
        (sameLine_hit lbolt ve).veOffset.trans here
    · obtain ⟨before, before_member, ⟨_, rfl⟩ | ⟨_, rfl⟩⟩ := mem_atLine changed_member
      · exact ((waited.lines before before_member).used (sameLine_hit lbolt before)).keepReads
          (kept _)
      · exact (waited.lines _ before_member).keepReads (kept _)
    · intro time data answer
      obtain ⟨rfl, rfl⟩ := Prod.mk.injEq .. ▸ Option.some.inj answer
      refine ⟨le_rfl, Nat.lt_succ_self _, fun i inside => ?_⟩
      obtain ⟨phase_lt, place_eq⟩ := inLine i inside
      have current := ((coherent.lines ve member).filled whole).current _ phase_lt
      rw [place_eq] at current
      exact grows.current coherent.valid le_rfl current
  · rw [result]
    refine ⟨waited.valid, atLine_distinct waited.distinct fun _ here => here,
      fun changed changed_member => ?_, answers none nofun⟩
    obtain ⟨before, before_member, ⟨here, rfl⟩ | ⟨_, rfl⟩⟩ := mem_atLine changed_member
    · obtain rfl : before = ve :=
        inj_on_of_nodup_map coherent.distinct before_member member here
      have line := (waited.lines before before_member).keepReads (kept none)
      refine ⟨line.aligned, line.room, nofun, fun fio' same => ?_⟩
      cases same
      have filling := line.filling fio partial_
      refine ⟨filling.issued, filling.missed, forall_mem_cons.mpr ⟨?_, filling.delegates⟩⟩
      exact ⟨⟨io, state.history.now, none⟩, update_self .., rfl, Nat.lt_succ_self _, inLine,
        fun stop completed =>
          absurd completed (joins ((waited.lines before before_member).filling fio partial_)
            updated stop)⟩
    · exact (waited.lines _ before_member).keepReads (kept none)
  · rw [result]
    have perm := perm_offsetAdd
      ⟨p2align io.ioOffset vcbs, lbolt, false, some ⟨[(id, io)], state.history.now⟩, fun _ => 0⟩ vc'
    refine ⟨waited.valid, ?_, fun ve member => ?_, answers none nofun⟩
    · refine (perm.map _).nodup_iff.mpr (nodup_cons.mpr ⟨fun member => ?_, ?_⟩)
      · obtain ⟨ve, ve_member, same⟩ := mem_map.mp member
        exact absent ve (sublist.subset ve_member) same
      · exact waited.distinct.sublist (sublist.map _)
    · rcases mem_cons.mp (perm.subset member) with rfl | member
      · have bound := io.bound
        have quiet (stop : ℕ) : ¬CompletedSince state.history.wait (p2align io.ioOffset vcbs)
            state.history.now stop := by
          rintro ⟨other, write, found, done, after, -⟩
          have := (coherent.valid.completed other write stop found done).2
          omega
        refine ⟨?_, ?_, nofun, fun fio same => ?_⟩
        · rw [p2align_vcbs]
          exact Nat.dvd_mul_left _ _
        · have : io.ioOffset / vcbs * vcbs ≤ io.ioOffset := Nat.div_mul_le_self _ _
          rw [p2align_vcbs]
          exact Nat.lt_succ_of_le (this.trans (by omega))
        · cases same
          refine ⟨⟨coherent.valid.started, Nat.lt_succ_self _⟩,
            fun stop completed => absurd completed (quiet stop), ?_⟩
          refine forall_mem_singleton.mpr ⟨⟨io, state.history.now, none⟩, update_self ..,
            rfl, Nat.lt_succ_self _, inLine, fun stop completed => absurd completed (quiet stop)⟩
      · exact (waited.lines ve (sublist.subset member)).keepReads (kept none)

variable {fio : FillIo}

/-- The reads that wait for a line get values that are current for them. -/
theorem Filling.answer {dio : ℕ × VdevIo} {read : CachedRead}
    (filling : Filling history reads ve fio) (valid : history.Valid)
    (member : dio ∈ fio.ioDelegateList) (found : reads dio.1 = some read)
    (seen : ∀ phase < vcbs, ∃ time, fio.issued ≤ time ∧ time ≤ history.now ∧
      data phase = history.holds time (ve.veOffset + phase)) :
    read.queued < history.now ∧ ∀ i < read.io.ioSize, history.Current (read.io.ioOffset + i)
      (hitData { ve with veFillIo := none, veData := data } dio.2 i) read.queued history.now := by
  obtain ⟨issued, missed, delegates⟩ := filling
  obtain ⟨read', found', io_eq, queued, inLine, before⟩ := delegates dio member
  obtain rfl := Option.mem_unique found found'
  refine ⟨queued, fun i inside => ?_⟩
  rw [io_eq] at inside ⊢
  obtain ⟨phase_lt, place_eq⟩ := inLine i inside
  obtain ⟨time, after, past, value_eq⟩ := seen _ phase_lt
  rw [hitData]
  dsimp only
  rw [value_eq, place_eq]
  have current := valid.current time (by omega) past (dio.2.ioOffset + i)
  refine (current.extend fun id write stop found covers done early => ?_).weaken le_rfl past
  -- a write that completed during the fill did so after the read had been queued
  by_contra late
  have := before stop ⟨id, write, found, done, by omega,
    dio.2.ioOffset + i, by omega, by omega, covers⟩
  omega

theorem offsetFind_eq (distinct : (vc.map VdevCacheEntry.veOffset).Nodup) (member : ve ∈ vc) :
    offsetFind vc ve.veOffset = some ve := by
  cases found : offsetFind vc ve.veOffset with
  | none =>
    have := find?_eq_none.mp found ve member
    simp at this
  | some other =>
    have same : other.veOffset = ve.veOffset := by simpa using find?_some found
    rw [inj_on_of_nodup_map distinct (mem_of_find?_eq_some found) member same]

theorem vdevCacheFill_eq (distinct : (vc.map VdevCacheEntry.veOffset).Nodup) (member : ve ∈ vc)
    (partial_ : ve.veFillIo = some fio) (error : ℕ) (data : ℕ → UInt8) (lbolt : ℕ) :
    vdevCacheFill ve.veOffset error data lbolt vc =
      (fio.ioDelegateList.map fun dio =>
        (dio.1, hitData { ve with veFillIo := none, veData := data } dio.2),
      if error ≠ 0 ∨ ve.veMissedUpdate then vdevCacheEvict ve vc
      else atLine ve.veOffset (fun _ => fio.ioDelegateList.foldl (fun ve _ => vdevCacheHit lbolt ve)
        { ve with veFillIo := none, veData := data }) vc) := by
  rw [vdevCacheFill, offsetFind_eq distinct member]
  dsimp only
  rw [partial_]
  dsimp only
  split <;> rfl

theorem answerReads_kept {now : ℕ} {answers : List (ℕ × (ℕ → UInt8))} {read : CachedRead}
    (found : reads id = some read) : ∃ read', answerReads now answers reads id = some read' ∧
      read'.io = read.io ∧ read'.queued = read.queued := by
  rw [answerReads]
  split
  · exact ⟨read, found, rfl, rfl⟩
  · rw [found]
    exact ⟨_, rfl, rfl, rfl⟩

theorem CacheState.Coherent.fill (coherent : state.Coherent) (member : ve ∈ state.cache)
    (partial_ : ve.veFillIo = some fio)
    (seen : error = 0 → ∀ phase < vcbs, ∃ time, fio.issued ≤ time ∧ time ≤ state.history.now ∧
      data phase = state.history.holds time (ve.veOffset + phase)) :
    (state.apply (.fill ve.veOffset error data lbolt)).Coherent := by
  have waited := coherent.wait
  have grows := grows_wait state.history
  have filling := (coherent.lines ve member).filling fio partial_
  unfold CacheState.apply
  dsimp only
  rw [vdevCacheFill_eq coherent.distinct member partial_ error data lbolt]
  dsimp only
  set filled : VdevCacheEntry := { ve with veFillIo := none, veData := data } with filled_eq
  set answers := fio.ioDelegateList.map fun dio => (dio.1, hitData filled dio.2) with answers_eq
  have kept (id : ℕ) (read : CachedRead) (found : state.reads id = some read) : ∃ read',
      (if error = 0 then answerReads state.history.now answers state.reads else state.reads) id =
        some read' ∧ read'.io = read.io ∧ read'.queued = read.queued := by
    split
    · exact answerReads_kept found
    · exact ⟨read, found, rfl, rfl⟩
  refine ⟨waited.valid, ?_, fun changed changed_member => ?_, fun id read found => ?_⟩
  · split
    · exact waited.distinct.sublist (filter_sublist.map _)
    · exact atLine_distinct waited.distinct fun _ _ => (sameLine_hits lbolt _ filled).veOffset
  · split at changed_member
    · exact (waited.lines changed (mem_filter.mp changed_member).1).keepReads kept
    · rename_i good
      push Not at good
      obtain ⟨succeeded, updated⟩ := good
      obtain ⟨before, before_member, ⟨_, rfl⟩ | ⟨_, rfl⟩⟩ := mem_atLine changed_member
      · suffices now_filled : Filled state.history.wait filled by
          have line : LineOk state.history.wait state.reads filled :=
            ⟨(coherent.lines ve member).aligned, (coherent.lines ve member).room,
              fun _ => now_filled, nofun⟩
          exact (line.used (sameLine_hits lbolt _ filled)).keepReads kept
        refine ⟨by simpa using updated, fun phase inside => ?_⟩
        obtain ⟨time, after, past, value_eq⟩ := seen succeeded phase inside
        have := filling.issued.1
        have current := grows.current coherent.valid past
          (coherent.valid.current time (by omega) past (ve.veOffset + phase))
        rw [← value_eq] at current
        refine (current.extend fun id write stop found covers done early => ?_).weaken le_rfl
          (past.trans (Nat.le_succ _))
        -- no write over the line has completed since it was allocated
        by_contra late
        exact updated (filling.missed stop ⟨id, write, found, done, by omega, ve.veOffset + phase,
          by omega, by omega, covers⟩)
      · exact (waited.lines _ before_member).keepReads kept
  · dsimp only at found
    split at found
    · rename_i succeeded
      rw [answerReads] at found
      split at found
      · exact waited.answers id read found
      · rename_i answer answered
        obtain ⟨before, before_found, rfl⟩ := Option.map_eq_some_iff.mp found
        obtain ⟨dio, dio_member, rfl⟩ := mem_map.mp (mem_of_find?_eq_some answered)
        obtain rfl : dio.1 = id := by simpa using find?_some answered
        obtain ⟨queued, current⟩ := filling.answer coherent.valid dio_member before_found
          (seen succeeded)
        intro time data answer
        obtain ⟨rfl, rfl⟩ := Prod.mk.injEq .. ▸ Option.some.inj answer
        exact ⟨queued.le, Nat.lt_succ_self _,
          fun i inside => grows.current coherent.valid queued.le (current i inside)⟩
    · exact waited.answers id read found

theorem CacheState.Coherent.step (coherent : state.Coherent) {label : CacheLabel}
    (enabled : state.Enabled label) : (state.apply label).Coherent := by
  cases label with
  | issueWrite id io data => exact coherent.issueWrite enabled _ _
  | land id write part => exact coherent.land enabled.1 enabled.2 part
  | completeWrite id write io data error =>
    obtain ⟨known, open_, covers_eq, data_eq, reached⟩ := enabled
    exact coherent.completeWrite known open_ covers_eq data_eq reached
  | read id io lbolt => exact coherent.read enabled
  | fill offset error data lbolt =>
    obtain ⟨ve, member, rfl, fio, partial_, seen⟩ := enabled
    exact coherent.fill member partial_ seen
  | purge => exact ⟨coherent.valid.wait, .nil, nofun, coherent.wait.answers⟩

theorem vdevCache_coherent (reachable : vdevCacheSystem.Reachable state) : state.Coherent := by
  refine reachable.invariant (fun state start => ?_) fun state label next coherent taken => ?_
  · obtain ⟨initial, rfl⟩ := start
    exact ⟨valid_start initial, .nil, nofun, nofun⟩
  · obtain ⟨enabled, rfl⟩ := taken
    exact coherent.step enabled

/-- A read that the cache answers gets, for each byte, a value that no later write had replaced when
it was queued.  A line over which a write completes during its fill refuses reads and is dropped. -/
theorem vdev_cache_coherent (state : CacheState) (reachable : vdevCacheSystem.Reachable state) :
    (∀ id read time data, state.reads id = some read → read.answer = some (time, data) →
      ∀ i < read.io.ioSize,
        state.history.Current (read.io.ioOffset + i) (data i) read.queued time ∧
        (state.history.Alternating (read.io.ioOffset + i) →
          ∃ source, state.history.Wrote (read.io.ioOffset + i) (data i) source ∧
          (state.history.LastBefore (read.io.ioOffset + i) read.queued source ∨
            state.history.InFlight read.queued time source))) ∧
    ∀ ve ∈ state.cache, ∀ fio, ve.veFillIo = some fio → ∀ stop,
      CompletedSince state.history ve.veOffset fio.issued stop →
        (∀ dio ∈ fio.ioDelegateList, ∃ read, state.reads dio.1 = some read ∧ read.queued < stop) ∧
        (∀ id io lbolt now, p2align io.ioOffset vcbs = ve.veOffset →
          ∃ errno, vdevCacheRead id io lbolt now state.cache = (.miss errno, state.cache)) ∧
        ∀ error data lbolt, ∀ other ∈ (vdevCacheFill ve.veOffset error data lbolt state.cache).2,
          other.veOffset ≠ ve.veOffset := by
  have coherent := vdevCache_coherent reachable
  constructor
  · intro id read time data found answer i inside
    have current := (coherent.answers id read found time data answer).2.2 i inside
    exact ⟨current, fun alternating => current.last_or_inFlight coherent.valid alternating⟩
  · intro ve member fio partial_ stop completed
    have filling := (coherent.lines ve member).filling fio partial_
    have missed := filling.missed stop completed
    refine ⟨fun dio dio_member => ?_, fun id io lbolt now here => ?_, fun error data lbolt => ?_⟩
    · obtain ⟨read, found, -, -, -, before⟩ := filling.delegates dio dio_member
      exact ⟨read, found, before stop completed⟩
    · rw [vdevCacheRead, here, offsetFind_eq coherent.distinct member]
      dsimp only
      rw [if_pos missed]
      split_ifs
      all_goals exact ⟨_, rfl⟩
    · rw [vdevCacheFill_eq coherent.distinct member partial_]
      rw [if_pos (.inr missed)]
      intro other other_member
      simpa using (mem_filter.mp other_member).2

/-- An I/O of the first byte. -/
def firstByte : VdevIo := ⟨0, 1, false, by norm_num⟩

/-- A write of the first byte. -/
def byteWrite (value : UInt8) (landed : ℕ → Bool) (issued : ℕ) : Write ℕ UInt8 :=
  ⟨firstByte.covers, firstByte.places fun _ => value, landed, issued, none, false⟩

/-- Two writes of the first byte reach the device in the other order. -/
def overtakenWrites : List CacheLabel :=
  [.issueWrite 1 firstByte fun _ => 1, .issueWrite 2 firstByte fun _ => 2,
    .land 1 (byteWrite 1 (fun _ => false) 1) fun _ => true,
    .land 2 (byteWrite 2 (fun _ => false) 2) fun _ => true,
    .completeWrite 2 (byteWrite 2 (fun place => false || firstByte.covers place && true) 2)
      firstByte
      (fun _ => 2) 0,
    .completeWrite 1 (byteWrite 1 (fun place => false || firstByte.covers place && true) 1)
      firstByte
      (fun _ => 1) 0,
    .read 1 firstByte 0, .fill 0 0 (fun phase => if phase = 0 then 2 else 0) 0]

/-- A line is filled, a write of it fails, and it is read. -/
def failedWrite : List CacheLabel :=
  [.read 1 firstByte 0, .fill 0 0 (fun _ => 0) 0, .issueWrite 1 firstByte fun _ => 1,
    .completeWrite 1 (byteWrite 1 (fun _ => false) 3) firstByte (fun _ => 1) eio,
    .read 2 firstByte 0]

/-- Each step of a run can happen. -/
def CacheState.Enables (state : CacheState) : List CacheLabel → Prop
  | [] => True
  | label :: labels => state.Enabled label ∧ (state.apply label).Enables labels

theorem reachable_foldl (reachable : vdevCacheSystem.Reachable state) {labels : List CacheLabel}
    (enables : state.Enables labels) :
    vdevCacheSystem.Reachable (labels.foldl CacheState.apply state) := by
  induction labels generalizing state with
  | nil => exact reachable
  | cons label labels ih =>
    obtain ⟨enabled, enables⟩ := enables
    exact ih (reachable.take label ⟨enabled, rfl⟩) enables

/-- A device full of zeros. -/
def zeroDevice : CacheState := ⟨.start fun _ => 0, [], fun _ => none⟩

theorem zeroDevice_reachable : vdevCacheSystem.Reachable zeroDevice := .start ⟨fun _ => 0, rfl⟩

theorem overtakenWrites_enabled : zeroDevice.Enables overtakenWrites := by
  refine ⟨rfl, rfl, ⟨rfl, rfl⟩, ⟨rfl, rfl⟩, ⟨rfl, rfl, rfl, rfl, ?_⟩, ⟨rfl, rfl, rfl, rfl, ?_⟩, rfl,
    ⟨_, mem_singleton_self _, rfl, _, rfl, ?_⟩, trivial⟩
  · intro _ place covers
    simpa [byteWrite] using covers
  · intro _ place covers
    simpa [byteWrite] using covers
  · intro _ phase inside
    refine ⟨7, le_rfl, by decide, ?_⟩
    cases phase with
    | zero => rfl
    | succ phase =>
      have outside : firstByte.covers (phase + 1) = false := by simp [VdevIo.covers, firstByte]
      simp [zeroDevice, CacheState.apply, wait, complete, land,
        advance, issue, update, byteWrite, outside, start]

theorem failedWrite_enabled : zeroDevice.Enables failedWrite := by
  refine ⟨rfl, ⟨_, mem_singleton_self _, rfl, _, rfl, ?_⟩, rfl, ⟨rfl, rfl, rfl, rfl, nofun⟩, rfl,
    trivial⟩
  intro _ phase inside
  exact ⟨1, le_rfl, by decide, rfl⟩

theorem vdev_cache_coherent_firstByte :
    ∃ state, vdevCacheSystem.Reachable state ∧ ∃ read data, state.reads 1 = some read ∧
    read.answer = some (8, data) ∧ data 0 = 2 ∧
    state.history.Current (read.io.ioOffset + 0) (data 0) read.queued 8 := by
  have reachable := reachable_foldl zeroDevice_reachable overtakenWrites_enabled
  exact ⟨_, reachable, _, _, rfl, rfl, rfl,
    ((vdev_cache_coherent _ reachable).1 1 _ 8 _ rfl rfl 0 (by decide)).1⟩

/-- The last write that completed is not what the device holds, and the data of a failed write are
read. -/
theorem vdev_cache_coherent_overtaken :
    (∃ state, vdevCacheSystem.Reachable state ∧ ∃ read data, state.reads 1 = some read ∧
      read.answer = some (8, data) ∧ read.io = firstByte ∧
      ¬∃ source, state.history.Wrote 0 (data 0) source ∧
      (state.history.LastBefore 0 read.queued source ∨
        state.history.InFlight read.queued 8 source)) ∧
    ∃ state, vdevCacheSystem.Reachable state ∧ ∃ read data, state.reads 2 = some read ∧
    read.answer = some (5, data) ∧ read.io = firstByte ∧ data 0 = 1 ∧
    ∀ time, state.history.holds time 0 = 0 := by
  constructor
  · refine ⟨_, reachable_foldl zeroDevice_reachable overtakenWrites_enabled, _, _, rfl,
      rfl, rfl, ?_⟩
    rintro ⟨source, wrote, last⟩
    cases source with
    | none => exact absurd (show (0 : UInt8) = 2 from wrote) (by decide)
    | some id =>
      obtain ⟨write, found, -, value⟩ := wrote
      by_cases first : id = 1
      · subst first
        cases found
        exact absurd (show (1 : UInt8) = 2 from value) (by decide)
      by_cases second : id = 2
      · subst second
        rcases last with ⟨stop, done, _, latest⟩ | ⟨_, open_⟩
        · obtain rfl : 5 = stop := Option.some.inj done
          exact absurd (latest 1 _ 6 rfl rfl rfl (by decide)) (by decide)
        · exact absurd (open_ 5 rfl) (by decide)
      · have unknown :
            (overtakenWrites.foldl CacheState.apply zeroDevice).history.writes id = none := by
          simp [overtakenWrites, CacheState.apply, wait, complete, land,
            advance, issue, update, first, second, zeroDevice, start]
        exact nomatch unknown.symm.trans found
  · refine ⟨_, reachable_foldl zeroDevice_reachable failedWrite_enabled, _, _, rfl, rfl,
      rfl, rfl, ?_⟩
    intro time
    simp [failedWrite, CacheState.apply, wait, complete, advance,
      issue, zeroDevice, start]

end Zfs
