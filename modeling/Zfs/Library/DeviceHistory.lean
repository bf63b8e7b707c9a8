import Mathlib.Tactic

/-!
# Histories of a device with writes in flight

Writes are issued, reach the device place by place in any order, and complete or fail.  A value is
outdated for a reader that comes later than a whole write that was issued after the value was
settled; what the device holds at a time is not outdated at that time.
-/

namespace DeviceHistory

open Function Option

/-- A write, with what has become of it. -/
structure Write (Place Value : Type*) where
  /-- The places it goes to. -/
  covers : Place → Bool
  data : Place → Value
  /-- The places it has reached. -/
  landed : Place → Bool
  issued : ℕ
  /-- When it was completed, if it was. -/
  completed : Option ℕ
  /-- Whether it completed with an error. -/
  failed : Bool

/-- What a device holds at every time, and the writes to it. -/
structure History (Place Value : Type*) where
  now : ℕ
  /-- What the device held at first. -/
  initial : Place → Value
  /-- What it held at each time. -/
  holds : ℕ → Place → Value
  /-- The writes, by name. -/
  writes : ℕ → Option (Write Place Value)

namespace History

variable {Place Value : Type*} (history : History Place Value)
  {writes : ℕ → Option (Write Place Value)} {covers : Place → Bool} {data : Place → Value}

/-- A step, with the writes and the contents after it. -/
def advance (writes : ℕ → Option (Write Place Value)) (contents : Place → Value) :
    History Place Value where
  now := history.now + 1
  initial := history.initial
  holds := update history.holds (history.now + 1) contents
  writes := writes

/-- A step that is not one of the device. -/
def wait : History Place Value := history.advance history.writes (history.holds history.now)

variable (id : ℕ) (initial : Place → Value) (place : Place)

/-- A write is issued. -/
def issue (covers : Place → Bool) (data : Place → Value) : History Place Value :=
  history.advance
    (update history.writes id (some ⟨covers, data, fun _ => false, history.now, none, false⟩))
    (history.holds history.now)

/-- A write reaches some of its places. -/
def land (write : Write Place Value) (part : Place → Bool) : History Place Value :=
  history.advance
    (update history.writes id (some
      { write with landed := fun place => write.landed place || write.covers place && part place }))
    fun place =>
      if write.covers place && part place then write.data place else history.holds history.now place

/-- A write completes. -/
def complete (write : Write Place Value) (failed : Bool) : History Place Value :=
  history.advance
    (update history.writes id
      (some { write with completed := some history.now, failed := failed }))
    (history.holds history.now)

/-- The value was written, or is the one at the start. -/
def Wrote (value : Value) : Option ℕ → Prop
  | none => history.initial place = value
  | some id => ∃ write, history.writes id = some write ∧ write.covers place = true ∧
    write.data place = value

/-- The write was issued before a time. -/
def IssuedBefore (time : ℕ) : Option ℕ → Prop
  | none => True
  | some id => ∃ write, history.writes id = some write ∧ write.issued < time

/-- When a write completed; the first contents were there before. -/
def completion : Option ℕ → Option ℕ
  | none => some 0
  | some id => (history.writes id).bind Write.completed

/-- A write was over before another one was issued. -/
def Precedes (source : Option ℕ) (write : Write Place Value) : Prop :=
  ∃ time, history.completion source = some time ∧ time < write.issued

/-- A later write over the place completed before a time. -/
def Outdated (time : ℕ) (source : Option ℕ) : Prop :=
  ∃ id write stop, history.writes id = some write ∧ write.covers place = true ∧
    write.failed = false ∧ write.completed = some stop ∧ stop < time ∧ history.Precedes source write

/-- A value that was there at a time for a reader that came at another. -/
def Current (value : Value) (queued time : ℕ) : Prop :=
  ∃ source, history.Wrote place value source ∧ history.IssuedBefore time source ∧
    ¬history.Outdated place queued source

/-- What is known of every history. -/
structure Valid : Prop where
  /-- Time begins at one. -/
  started : 0 < history.now
  /-- Writes are issued in the past. -/
  issued : ∀ id write, history.writes id = some write →
    0 < write.issued ∧ write.issued < history.now
  /-- Writes complete after they are issued. -/
  completed : ∀ id write stop, history.writes id = some write → write.completed = some stop →
    write.issued < stop ∧ stop < history.now
  /-- A write that has completed without error has landed. -/
  landed : ∀ id write stop, history.writes id = some write → write.completed = some stop →
    write.failed = false → ∀ place, write.covers place = true → write.landed place = true
  /-- What the device holds is not older than a write that has reached the place. -/
  newest : ∀ place, ∃ source, history.Wrote place (history.holds history.now place) source ∧
    history.IssuedBefore history.now source ∧ ∀ id write, history.writes id = some write →
      write.covers place = true → write.landed place = true → ¬history.Precedes source write
  /-- What the device held was not outdated. -/
  current : ∀ time, 0 < time → time ≤ history.now → ∀ place,
    history.Current place (history.holds time place) time time

/-- The history before the first step. -/
def start : History Place Value where
  now := 1
  initial := initial
  holds _ := initial
  writes _ := none

theorem valid_start : (start initial).Valid where
  started := Nat.one_pos
  issued := nofun
  completed := nofun
  landed := nofun
  newest _ := ⟨none, rfl, trivial, nofun⟩
  current _ _ _ _ := ⟨none, rfl, trivial, fun ⟨_, _, _, found, _⟩ => nomatch found⟩

/-- A later history has the same writes, some completed, and new ones. -/
structure Grows (history later : History Place Value) : Prop where
  initial : later.initial = history.initial
  kept : ∀ id write, history.writes id = some write → ∃ write', later.writes id = some write' ∧
    write'.covers = write.covers ∧ write'.data = write.data ∧ write'.issued = write.issued ∧
    (write'.completed = write.completed ∧ write'.failed = write.failed ∨
      write.completed = none ∧ write'.completed = some history.now)
  fresh : ∀ id write, later.writes id = some write → history.writes id = none →
    write.completed = none

variable {history} {later : History Place Value} {place : Place} {value : Value}
  {source : Option ℕ} {time queued : ℕ}

section

variable (grows : history.Grows later)

include grows

theorem Grows.wrote (wrote : history.Wrote place value source) :
    later.Wrote place value source := by
  cases source with
  | none => rwa [Wrote, grows.initial]
  | some id =>
    obtain ⟨write, found, covers, data⟩ := wrote
    obtain ⟨write', found', covers', data', -⟩ := grows.kept id write found
    exact ⟨write', found', by rw [covers', covers], by rw [data', data]⟩

theorem Grows.issuedBefore (issued : history.IssuedBefore time source) :
    later.IssuedBefore time source := by
  cases source with
  | none => trivial
  | some id =>
    obtain ⟨write, found, before⟩ := issued
    obtain ⟨write', found', -, -, issued', -⟩ := grows.kept id write found
    exact ⟨write', found', by rwa [issued']⟩

/-- A write that was known has completed since, or as before. -/
theorem Grows.completion (wrote : history.Wrote place value source)
    (done : later.completion source = some time) :
    history.completion source = some time ∨ time = history.now := by
  cases source with
  | none => exact .inl done
  | some id =>
    obtain ⟨write, found, -⟩ := wrote
    obtain ⟨write', found', -, -, -, same | ⟨-, completed⟩⟩ := grows.kept id write found
    · left
      rw [History.completion, found]
      rw [History.completion, found'] at done
      exact same.1.symm.trans done
    · right
      rw [History.completion, found'] at done
      exact mem_unique done completed

/-- What is not outdated for an early reader does not become so. -/
theorem Grows.outdated (valid : history.Valid)
    (wrote : history.Wrote place value source) (early : queued ≤ history.now)
    (outdated : later.Outdated place queued source) : history.Outdated place queued source := by
  obtain ⟨id, write', stop, found', covers, failed, completed, before, time, done, precedes⟩ :=
    outdated
  cases found : history.writes id with
  | none =>
    rw [grows.fresh id write' found' found] at completed
    cases completed
  | some write =>
    obtain ⟨write'', found'', covers', -, issued', same | ⟨-, completed'⟩⟩ :=
      grows.kept id write found
    · obtain rfl := mem_unique found' found''
      have completed_before : write.completed = some stop := same.1.symm.trans completed
      refine ⟨id, write, stop, found, by rwa [← covers'], same.2.symm.trans failed,
        completed_before, before, time, ?_, by rwa [← issued']⟩
      rcases grows.completion wrote done with done | rfl
      · exact done
      · have := (valid.completed id write stop found completed_before).1
        omega
    · obtain rfl := mem_unique found' found''
      obtain rfl := mem_unique completed completed'
      omega

theorem Grows.current (valid : history.Valid)
    (early : queued ≤ history.now) (current : history.Current place value queued time) :
    later.Current place value queued time := by
  obtain ⟨source, wrote, issued, fresh⟩ := current
  exact ⟨source, grows.wrote wrote, grows.issuedBefore issued,
    fun outdated => fresh (grows.outdated valid wrote early outdated)⟩

end

/-- A reader may come earlier, and look later. -/
theorem Current.weaken {queued' time' : ℕ} (current : history.Current place value queued time)
    (earlier : queued' ≤ queued) (later : time ≤ time') :
    history.Current place value queued' time' := by
  obtain ⟨source, wrote, issued, fresh⟩ := current
  refine ⟨source, wrote, ?_, ?_⟩
  · cases source with
    | none => trivial
    | some id =>
      obtain ⟨write, found, before⟩ := issued
      exact ⟨write, found, by omega⟩
  · rintro ⟨id, write, stop, found, covers, failed, completed, before, precedes⟩
    exact fresh ⟨id, write, stop, found, covers, failed, completed, by omega, precedes⟩

/-- A value stays current while no write over the place completes. -/
theorem Current.extend {queued' : ℕ} (current : history.Current place value queued time)
    (quiet : ∀ id write stop, history.writes id = some write → write.covers place = true →
      write.completed = some stop → stop < queued' → stop < queued) :
    history.Current place value queued' time := by
  obtain ⟨source, wrote, issued, fresh⟩ := current
  refine ⟨source, wrote, issued, ?_⟩
  rintro ⟨id, write, stop, found, covers, failed, completed, before, precedes⟩
  exact fresh ⟨id, write, stop, found, covers, failed, completed,
    quiet id write stop found covers completed before, precedes⟩

/-- What a step has to keep. -/
theorem Valid.advance {contents : Place → Value} (valid : history.Valid)
    (grows : history.Grows (history.advance writes contents))
    (issued : ∀ id write, writes id = some write → 0 < write.issued ∧ write.issued ≤ history.now)
    (completed : ∀ id write stop, writes id = some write → write.completed = some stop →
      write.issued < stop ∧ stop ≤ history.now)
    (landed : ∀ id write stop, writes id = some write → write.completed = some stop →
      write.failed = false → ∀ place, write.covers place = true → write.landed place = true)
    (settled : ∀ place, (∃ id write, writes id = some write ∧ write.covers place = true ∧
        write.data place = contents place ∧ write.completed = none) ∨
      contents place = history.holds history.now place ∧
      ∀ id write, writes id = some write → write.covers place = true → write.landed place = true →
        ∃ old, history.writes id = some old ∧ old.covers place = true ∧
        old.landed place = true ∧ write.issued = old.issued) :
    (history.advance writes contents).Valid := by
  have holds_now : (history.advance writes contents).holds (history.now + 1) = contents :=
    update_self ..
  have newest : ∀ place, ∃ source,
      (history.advance writes contents).Wrote place (contents place) source ∧
      (history.advance writes contents).IssuedBefore (history.now + 1) source ∧
      ∀ id write, writes id = some write → write.covers place = true →
        write.landed place = true → ¬(history.advance writes contents).Precedes source write := by
    intro place
    rcases settled place with ⟨id, write, found, covers, data, open_⟩ | ⟨same, known⟩
    · refine ⟨some id, ⟨write, found, covers, data⟩,
        ⟨write, found, Nat.lt_succ_of_le (issued id write found).2⟩, ?_⟩
      rintro _ _ _ _ _ ⟨time, done, _⟩
      rw [completion, show (history.advance writes contents).writes id = some write from found]
        at done
      exact nomatch open_.symm.trans done
    · obtain ⟨source, wrote, before, newer⟩ := valid.newest place
      rw [← same] at wrote
      refine ⟨source, grows.wrote wrote, ?_, ?_⟩
      · have := grows.issuedBefore before
        cases source with
        | none => trivial
        | some id =>
          obtain ⟨write, found, before⟩ := this
          exact ⟨write, found, by omega⟩
      · rintro id write found covers landed ⟨time, done, precedes⟩
        obtain ⟨old, found_old, covers_old, landed_old, issued_eq⟩ :=
          known id write found covers landed
        refine newer id old found_old covers_old landed_old ⟨time, ?_, by omega⟩
        rcases grows.completion wrote done with done | rfl
        · exact done
        · have := (issued id write found).2
          omega
  constructor
  case started => exact Nat.succ_pos _
  case issued => exact fun id write found => (issued id write found).imp_right Nat.lt_succ_of_le
  case completed =>
    exact fun id write stop found done =>
      (completed id write stop found done).imp_right Nat.lt_succ_of_le
  case landed => exact landed
  case newest =>
    intro place
    rw [show (history.advance writes contents).now = history.now + 1 from rfl, holds_now]
    exact newest place
  case current =>
    intro time positive bound place
    rcases Nat.lt_or_ge history.now time with late | early
    · obtain rfl : time = history.now + 1 := le_antisymm bound late
      rw [holds_now]
      obtain ⟨source, wrote, before, newer⟩ := newest place
      refine ⟨source, wrote, before, ?_⟩
      rintro ⟨id, write, stop, found, covers, failed, done, _, precedes⟩
      exact newer id write found covers
        (landed id write stop found done failed place covers) precedes
    · have holds_then : (history.advance writes contents).holds time = history.holds time :=
        update_of_ne (by omega) ..
      rw [holds_then]
      exact grows.current valid early (valid.current time positive early place)

theorem grows_wait (history : History Place Value) : history.Grows history.wait where
  initial := rfl
  kept _ write found := ⟨write, found, rfl, rfl, rfl, .inl ⟨rfl, rfl⟩⟩
  fresh _ _ found missing := nomatch missing.symm.trans found

theorem Valid.wait (valid : history.Valid) : history.wait.Valid :=
  valid.advance (grows_wait history)
    (fun id write found => (valid.issued id write found).imp_right le_of_lt)
    (fun id write stop found done => (valid.completed id write stop found done).imp_right le_of_lt)
    valid.landed
    fun _ => .inr ⟨rfl, fun _ write found covers landed => ⟨write, found, covers, landed, rfl⟩⟩

theorem update_cases {id other : ℕ} {write found : Write Place Value}
    (same : update writes id (some write) other = some found) :
    other = id ∧ found = write ∨ other ≠ id ∧ writes other = some found := by
  by_cases here : other = id
  · subst here
    rw [update_self] at same
    exact .inl ⟨rfl, (some.inj same).symm⟩
  · rw [update_of_ne here] at same
    exact .inr ⟨here, same⟩

section update

variable {id : ℕ} {new : Write Place Value} {contents : Place → Value}

theorem grows_update
    (kept : ∀ old, history.writes id = some old → new.covers = old.covers ∧ new.data = old.data ∧
      new.issued = old.issued ∧ (new.completed = old.completed ∧ new.failed = old.failed ∨
        old.completed = none ∧ new.completed = some history.now))
    (fresh : history.writes id = none → new.completed = none) :
    history.Grows (history.advance (update history.writes id (some new)) contents) where
  initial := rfl
  kept other old found := by
    by_cases here : other = id
    · subst here
      exact ⟨new, update_self .., kept old found⟩
    · exact ⟨old, (update_of_ne here ..).trans found, rfl, rfl, rfl, .inl ⟨rfl, rfl⟩⟩
  fresh other write found missing := by
    rcases update_cases found with ⟨rfl, rfl⟩ | ⟨_, found⟩
    · exact fresh missing
    · exact nomatch missing.symm.trans found

theorem Valid.update (valid : history.Valid)
    (grows : history.Grows (history.advance (update history.writes id (some new)) contents))
    (issued : 0 < new.issued ∧ new.issued ≤ history.now)
    (completed : ∀ stop, new.completed = some stop → new.issued < stop ∧ stop ≤ history.now ∧
      (new.failed = false → ∀ place, new.covers place = true → new.landed place = true))
    (settled : ∀ place, new.covers place = true ∧ new.data place = contents place ∧
        new.completed = none ∨
      contents place = history.holds history.now place ∧ (new.landed place = true →
        ∃ old, history.writes id = some old ∧ old.covers = new.covers ∧
        old.landed place = true ∧ new.issued = old.issued)) :
    (history.advance (Function.update history.writes id (some new)) contents).Valid := by
  apply valid.advance grows
  · intro other write found
    rcases update_cases found with ⟨_, rfl⟩ | ⟨_, found⟩
    · exact issued
    · exact (valid.issued other write found).imp_right le_of_lt
  · intro other write stop found done
    rcases update_cases found with ⟨_, rfl⟩ | ⟨_, found⟩
    · exact (completed stop done).imp_right And.left
    · exact (valid.completed other write stop found done).imp_right le_of_lt
  · intro other write stop found done
    rcases update_cases found with ⟨_, rfl⟩ | ⟨_, found⟩
    · exact (completed stop done).2.2
    · exact valid.landed other write stop found done
  · intro place
    refine (settled place).imp (fun reached => ⟨id, new, update_self .., reached⟩) ?_
    refine And.imp_right fun known other write found covers landed => ?_
    rcases update_cases found with ⟨rfl, rfl⟩ | ⟨_, found⟩
    · obtain ⟨old, found_old, same, landed_old, issued_eq⟩ := known landed
      exact ⟨old, found_old, by rwa [same], landed_old, issued_eq⟩
    · exact ⟨write, found, covers, landed, rfl⟩

end update

theorem grows_issue {id : ℕ} (unknown : history.writes id = none) :
    history.Grows (history.issue id covers data) :=
  grows_update (fun _ found => nomatch unknown.symm.trans found) fun _ => rfl

theorem Valid.issue {id : ℕ} (valid : history.Valid) (unknown : history.writes id = none) :
    (history.issue id covers data).Valid :=
  valid.update (grows_issue unknown) ⟨valid.started, le_rfl⟩ nofun fun _ => .inr ⟨rfl, nofun⟩

section flight

variable {id : ℕ} {write : Write Place Value}

theorem grows_land (known : history.writes id = some write) (part : Place → Bool) :
    history.Grows (history.land id write part) := by
  refine grows_update (fun old found => ?_) fun missing => nomatch missing.symm.trans known
  obtain rfl := mem_unique known found
  exact ⟨rfl, rfl, rfl, .inl ⟨rfl, rfl⟩⟩

theorem Valid.land (valid : history.Valid) (known : history.writes id = some write)
    (open_ : write.completed = none) (part : Place → Bool) :
    (history.land id write part).Valid := by
  apply valid.update (grows_land known part)
  · exact (valid.issued id write known).imp_right le_of_lt
  · exact fun stop done => nomatch open_.symm.trans done
  · intro place
    by_cases reached : (write.covers place && part place) = true
    · exact .inl ⟨(Bool.and_eq_true_iff.mp reached).1, (if_pos reached).symm, open_⟩
    · refine .inr ⟨if_neg reached, fun landed => ⟨write, known, rfl, ?_, rfl⟩⟩
      exact (Bool.or_eq_true_iff.mp landed).resolve_right reached

theorem grows_complete (known : history.writes id = some write) (open_ : write.completed = none)
    (failed : Bool) : history.Grows (history.complete id write failed) := by
  refine grows_update (fun old found => ?_) fun missing => nomatch missing.symm.trans known
  obtain rfl := mem_unique known found
  exact ⟨rfl, rfl, rfl, .inr ⟨open_, rfl⟩⟩

theorem Valid.complete (valid : history.Valid) (known : history.writes id = some write)
    (open_ : write.completed = none) {failed : Bool}
    (reached : failed = false → ∀ place, write.covers place = true → write.landed place = true) :
    (history.complete id write failed).Valid := by
  have issued := valid.issued id write known
  apply valid.update (grows_complete known open_ failed)
  · exact issued.imp_right le_of_lt
  · intro stop done
    cases done
    exact ⟨issued.2, le_rfl, reached⟩
  · exact fun place => .inr ⟨rfl, fun landed => ⟨write, known, rfl, landed, rfl⟩⟩

/-- The data of a write are current when it completes. -/
theorem current_complete (known : history.writes id = some write) (valid : history.Valid)
    (failed : Bool) (covers : write.covers place = true) :
    (history.complete id write failed).Current place (write.data place) (history.now + 1)
      (history.now + 1) := by
  refine ⟨some id, ⟨_, update_self .., covers, rfl⟩,
    ⟨_, update_self .., Nat.lt_succ_of_lt (valid.issued id write known).2⟩, ?_⟩
  rintro ⟨other, found_write, stop, found, _, _, _, _, time, done, precedes⟩
  have done_now : time = history.now := by
    rw [completion, show (history.complete id write failed).writes id = some _ from
      update_self ..] at done
    exact (some.inj done).symm
  rcases update_cases found with ⟨_, rfl⟩ | ⟨_, found⟩
  · have := (valid.issued id write known).2
    have : write.issued > time := precedes
    omega
  · have := (valid.issued other found_write found).2
    omega

end flight

/-- Writes over a place are not in flight together, and do not fail. -/
def Alternating (history : History Place Value) (place : Place) : Prop :=
  (∀ id write, history.writes id = some write → write.covers place = true → write.failed = false) ∧
    ∀ id write id' write', history.writes id = some write → history.writes id' = some write' →
      write.covers place = true → write'.covers place = true → id ≠ id' →
        (∃ stop, write.completed = some stop ∧ stop < write'.issued) ∨
          ∃ stop, write'.completed = some stop ∧ stop < write.issued

/-- The last write over a place of those that completed before a time. -/
def LastBefore (history : History Place Value) (place : Place) (time : ℕ)
    (source : Option ℕ) : Prop :=
  ∃ stop, history.completion source = some stop ∧ stop < time ∧
    ∀ id write stop', history.writes id = some write → write.covers place = true →
      write.completed = some stop' → stop' < time → stop' ≤ stop

/-- Issued before a time, and not completed at another. -/
def InFlight (history : History Place Value) (queued time : ℕ) (source : Option ℕ) : Prop :=
  history.IssuedBefore time source ∧ ∀ stop, history.completion source = some stop → queued ≤ stop

/-- With one write at a time, a current value is the last one, or in flight. -/
theorem Current.last_or_inFlight (valid : history.Valid) (alternating : history.Alternating place)
    (current : history.Current place value queued time) :
    ∃ source, history.Wrote place value source ∧
    (history.LastBefore place queued source ∨ history.InFlight queued time source) := by
  obtain ⟨source, wrote, before, fresh⟩ := current
  refine ⟨source, wrote, ?_⟩
  by_cases over_ : ∃ stop, history.completion source = some stop ∧ stop < queued
  · obtain ⟨stop, done, early⟩ := over_
    refine .inl ⟨stop, done, early, fun id write stop' found covers done' early' => ?_⟩
    by_contra later
    refine fresh ⟨id, write, stop', found, covers, alternating.1 id write found covers,
      done', early', stop, done, ?_⟩
    cases source with
    | none =>
      cases done
      exact (valid.issued id write found).1
    | some id' =>
      obtain ⟨write', found', covers', -⟩ := wrote
      have done_write : write'.completed = some stop := by
        rw [completion, found'] at done
        exact done
      have different : id' ≠ id := by
        rintro rfl
        obtain rfl := mem_unique found found'
        obtain rfl := mem_unique done' done_write
        exact later le_rfl
      rcases alternating.2 id' write' id write found' found covers' covers different with
        ⟨stop'', done'', apart⟩ | ⟨stop'', done'', apart⟩
      · obtain rfl := mem_unique done_write done''
        exact apart
      · obtain rfl := mem_unique done' done''
        have := (valid.completed id' write' stop found' done_write).1
        omega
  · push Not at over_
    exact .inr ⟨before, over_⟩

end History

end DeviceHistory
