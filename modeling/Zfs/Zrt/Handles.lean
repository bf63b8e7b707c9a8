import Zfs.Zrt.Code
import Zfs.Library.TransitionSystem

/-!
# Which handles and descriptions are in use

`toplevel_open` and `toplevel_close`, mixed with the table operations that other callers make.
`toplevel_open` does not look at the result of `getnew_ofd`: with all descriptions in use and a
handle left, it hands out a handle without one.
-/

namespace Zfs.Zrt

open LowestSlot Tables Function Except Finset

/-- A call that changes the tables, with what the layer below returned. -/
inductive TableCall where
  | open_ (oflag : BitVec 32) (calls : OpenCalls Unit)
  | close (fd ret : ℤ)
  | allocateHandle2 (item : HandleItem) (handle : ℤ)
  | freeHandle (handle : ℤ)
  | referOfd (id : ℤ)
  | releaseOfd (id : ℤ)

/-- The tables, and what the callers have of them. -/
structure TableState where
  tables : Tables
  /-- The handle was last allocated by `toplevel_open`. -/
  opened : ℕ → Bool
  /-- The outstanding references to a description. -/
  refs : ℤ → ℤ

namespace TableState

/-- References are handed out or given back. -/
def bump (refs : ℤ → ℤ) (id change : ℤ) : ℤ → ℤ := update refs id (refs id + change)

variable (state : TableState)

/-- A call: its return value and the state it leaves. -/
def perform : TableCall → Except Halt (ℤ × TableState)
  | .open_ oflag calls => do
    let reply ← toplevelOpen state.tables oflag calls
    match reply.tables.entry reply.ret with
    | none => return (reply.ret, { state with tables := reply.tables })
    | some item => return (reply.ret,
      { tables := reply.tables
        opened := update state.opened reply.ret.toNat true
        refs := bump state.refs item.openFileDescriptionId 1 })
  | .close fd ret => do
    let reply ← toplevelClose state.tables fd fun _ _ => (ret, ())
    match state.tables.entry fd, reply.ret with
    | some item, 0 => return (0,
      { state with
        tables := reply.tables
        refs := bump state.refs item.openFileDescriptionId (-1) })
    | _, ret => return (ret, { state with tables := reply.tables })
  | .allocateHandle2 item handle =>
    let (ret, tables) := state.tables.allocateHandle2 item handle
    .ok (ret, { state with
      tables := tables
      opened := if ret < 0 then state.opened else update state.opened ret.toNat false })
  | .freeHandle handle =>
    let (ret, tables) := state.tables.freeHandle handle
    .ok (ret, { state with tables := tables })
  | .referOfd id =>
    let (ret, tables) := state.tables.referOfd id
    .ok (ret, { state with
      tables := tables, refs := if ret < 0 then state.refs else bump state.refs id 1 })
  | .releaseOfd id =>
    let (ret, tables) := state.tables.releaseOfd id
    .ok (ret, { state with
      tables := tables, refs := if ret < 0 then state.refs else bump state.refs id (-1) })

/-- The tables when the program starts. -/
def initial : TableState where
  tables := ⟨fun _ => none, 0, fun _ => 0, fun _ => ⟨0, 0, 0⟩, 0⟩
  opened := fun _ => false
  refs := fun _ => 0

end TableState

/-- Calls one after the other. -/
def tableSystem : TransitionSystem TableState TableCall where
  Start := (· = .initial)
  Step state call next := ∃ ret, state.perform call = .ok (ret, next)

/-- The same handles and references, and the same descriptions in use. -/
structure Tables.Same (tables tables' : Tables) : Prop where
  handles : tables'.handleSlots = tables.handleSlots
  refcount : tables'.refcount = tables.refcount
  openFiles : ∀ id, 0 < tables.refcount id → tables'.openFiles id = tables.openFiles id

namespace TableState

variable (state : TableState)

/-- A handle in use that `toplevel_open` allocated. -/
def Opened (handle : ℕ) (item : HandleItem) : Prop :=
  state.tables.handleSlots handle = some item ∧ state.opened handle = true

/-- Every handle of `toplevel_open` alone has a description in use. -/
def Described : Prop :=
  (∀ handle item, state.Opened handle item → state.tables.VerifyOfd item.openFileDescriptionId) ∧
    ∀ handle item other item', state.Opened handle item → state.Opened other item' →
      item.openFileDescriptionId = item'.openFileDescriptionId → handle = other

/-- What is claimed of a state. -/
structure Sound : Prop where
  /-- The lowest free handle is next. -/
  lowest : ∀ item, Lowest state.tables.handleFree maxHandlesCount
    (state.tables.allocateHandle item).1
  /-- Open handles have descriptions. -/
  described : state.Described
  /-- References are counted. -/
  counted : ∀ id : ℕ, state.tables.refcount id = state.refs id
  /-- An `open` that fails changes nothing. -/
  failed : ∀ oflag (calls : OpenCalls Unit) reply,
    toplevelOpen state.tables oflag calls = .ok reply → reply.ret < 0 →
      state.tables.Same reply.tables

/-- With a handle an `open` finds a free description, no reference is given back that is needed, and
no counter is full. -/
def Admits : TableCall → Prop
  | .open_ oflag calls => calls.Succeed oflag →
    (∃ handle < maxHandlesCount, state.tables.handleSlots handle = none) →
      ∃ id < maxHandlesCount, state.tables.refcount id = 0
  | .close fd ret => ∀ item, state.tables.entry fd = some item → 0 ≤ ret →
    state.tables.refcount item.openFileDescriptionId.toNat = 1 →
      ∀ other item', state.Opened other item' →
        item'.openFileDescriptionId = item.openFileDescriptionId → other = fd
  | .releaseOfd id => ∀ handle item, state.Opened handle item →
    item.openFileDescriptionId = id → state.tables.refcount id.toNat ≠ 1
  | .referOfd id => state.tables.VerifyOfd id → state.tables.refcount id.toNat < 2 ^ 31 - 1
  | _ => True

end TableState

variable {tables : Tables} {τ : Type}

variable {oflag : BitVec 32} {calls : OpenCalls τ} {reply : Reply τ} {ret fd : ℤ}

theorem openDescriptor_cases {inode : ℤ} {below : τ}
    (done : openDescriptor tables oflag calls inode ret below = .ok reply) :
    reply.ret < 0 ∧ reply.tables = tables ∧ ¬calls.Ends inode (ret, below) ∨
      calls.Ends inode (ret, below) ∧
        ∃ inode, (reply.ret, reply.tables) = openTables tables oflag inode := by
  unfold openDescriptor at done
  by_cases failed : ret < 0
  · rw [if_pos failed] at done
    cases done
    exact .inl ⟨failed, rfl, fun ends => absurd ends.1 (not_le.mpr failed)⟩
  rw [if_neg failed] at done
  obtain ⟨found, found_eq, done⟩ : ∃ found,
      (if inode ≤ 0 then calls.inodeByPathAfter below else .ok inode) = .ok found ∧
      (if found = -2 then .ok ⟨-1, some enoent, tables, some below⟩
        else
          let (ret, tables) := openTables tables oflag found
          .ok ⟨ret, if ret < 0 then some enfile else none, tables, some below⟩) = ok reply := by
    split_ifs at done ⊢ with created
    all_goals
      obtain ⟨found, found_eq, done⟩ := bind_ok done
      exact ⟨found, found_eq, done⟩
  by_cases missing : found = -2
  · rw [if_pos missing] at done
    cases done
    refine .inl ⟨neg_one_lt_zero, rfl, fun ends => ?_⟩
    split_ifs at found_eq with created
    · obtain ⟨other, other_eq, there⟩ := ends.2 created
      rw [found_eq] at other_eq
      exact there ((ok.inj other_eq).symm.trans missing)
    · cases found_eq
      omega
  · rw [if_neg missing] at done
    cases done
    refine .inr ⟨⟨not_lt.mp failed, fun created => ?_⟩, found, rfl⟩
    rw [if_pos created] at found_eq
    exact ⟨found, found_eq, missing⟩

/-- An `open` fails without touching the tables, or asks them for a handle. -/
theorem toplevelOpen_cases (opened : toplevelOpen tables oflag calls = .ok reply) :
    reply.ret < 0 ∧ reply.tables = tables ∧ ¬calls.Succeed oflag ∨
      calls.Succeed oflag ∧ ∃ inode, (reply.ret, reply.tables) = openTables tables oflag inode := by
  obtain ⟨parent, parent_eq, opened⟩ := bind_ok opened
  simp only [OpenCalls.Succeed, parent_eq, ok.injEq, exists_eq_left']
  by_cases absent : parent = -2
  · rw [if_pos absent] at opened
    cases opened
    exact .inl ⟨neg_one_lt_zero, rfl, fun succeed => succeed.1 absent⟩
  rw [if_neg absent] at opened
  simp only [ne_eq, absent, not_false_eq_true, true_and]
  by_cases create : checkFlag oflag oCreat = true
  · rw [if_pos create] at opened
    obtain ⟨name, name_eq, opened⟩ := bind_ok opened
    simp only [create, if_true, name_eq, ok.injEq]
    cases name with
    | none =>
      cases opened
      exact .inl ⟨neg_one_lt_zero, rfl, fun ⟨name, unnamed, _⟩ => nomatch unnamed⟩
    | some name => simpa using openDescriptor_cases opened
  · rw [if_neg create] at opened
    obtain ⟨inode, inode_eq, opened⟩ := bind_ok opened
    simp only [create, Bool.false_eq_true, if_false, inode_eq, ok.injEq, exists_eq_left']
    by_cases missing : inode = -2
    · rw [if_pos missing] at opened
      cases opened
      exact .inl ⟨neg_one_lt_zero, rfl, fun found => found.1 missing⟩
    · rw [if_neg missing] at opened
      simpa [missing] using openDescriptor_cases opened

theorem openTables_spec (wf : tables.Wf) {inode : ℤ} {next : Tables}
    (done : openTables tables oflag inode = (ret, next)) :
    next.Wf ∧ (ret = -1 ∧ (∀ slot < maxHandlesCount, tables.handleSlots slot ≠ none) ∧
        tables.Same next ∨
      ∃ (handle : ℕ) (id : ℤ), ret = handle ∧ handle < maxHandlesCount ∧
      tables.handleSlots handle = none ∧
      next.handleSlots = update tables.handleSlots handle (some ⟨inode, id⟩) ∧
      ((∃ slot : ℕ, id = slot ∧ slot < maxHandlesCount ∧ tables.refcount slot = 0 ∧
          next.refcount = update tables.refcount slot 1 ∧
          next.openFiles = update tables.openFiles slot ⟨0, 0, oflag⟩) ∨
        id = -1 ∧ (∀ slot < maxHandlesCount, tables.refcount slot ≠ 0) ∧
        next.refcount = tables.refcount ∧ next.openFiles = tables.openFiles)) := by
  unfold openTables at done
  obtain ⟨new_wf, new⟩ := getnewOfd_cases wf oflag
  generalize tables.getnewOfd oflag = pair at new_wf new done
  obtain ⟨id, new_tables⟩ := pair
  dsimp only at new new_wf done
  obtain ⟨-, held_wf, held⟩ := allocateHandle_cases new_wf ⟨inode, id⟩
  generalize new_tables.allocateHandle ⟨inode, id⟩ = pair at held_wf held done
  obtain ⟨held_ret, held_tables⟩ := pair
  obtain ⟨handle, inside, rfl, unused, rfl⟩ | ⟨rfl, none_left, rfl⟩ := held
  · rw [if_neg (Int.natCast_nonneg handle).not_gt] at done
    cases done
    refine ⟨held_wf, .inr ⟨handle, id, rfl, inside, ?_⟩⟩
    obtain ⟨slot, slot_inside, rfl, free, rfl⟩ | ⟨rfl, full, rfl⟩ := new
    · exact ⟨unused, rfl, .inl ⟨slot, rfl, slot_inside, free, rfl, rfl⟩⟩
    · exact ⟨unused, rfl, .inr ⟨rfl, full, rfl, rfl⟩⟩
  · rw [if_pos neg_one_lt_zero] at done
    cases done
    obtain ⟨released, missing⟩ | ⟨given, next, rfl, bound, positive, released, next_wf, slots,
      files, counts⟩ :=
      releaseOfd_cases held_wf id
    · rw [released]
      obtain ⟨slot, slot_inside, rfl, free, rfl⟩ | ⟨rfl, full, rfl⟩ := new
      · exact absurd (verifyOfd_iff.mpr ⟨slot, slot_inside, rfl, by simp⟩) missing
      · exact ⟨held_wf, .inl ⟨rfl, none_left, rfl, rfl, fun _ _ => rfl⟩⟩
    · -- the new description is given back at once
      rw [released]
      obtain ⟨slot, slot_inside, same, free, rfl⟩ | ⟨absent, -⟩ := new
      · obtain rfl : given = slot := by omega
        refine ⟨next_wf, .inl ⟨rfl, none_left, slots, by simp [counts, ← free], ?_⟩⟩
        intro other used
        rw [files]
        exact update_of_ne (by rintro rfl; omega) _ _
      · omega

theorem same_of_toplevelOpen (wf : tables.Wf) (opened : toplevelOpen tables oflag calls = .ok reply)
    (failed : reply.ret < 0) : reply.tables.Wf ∧ tables.Same reply.tables ∧
      ¬(calls.Succeed oflag ∧ ∃ slot < maxHandlesCount, tables.handleSlots slot = none) := by
  obtain ⟨-, same, fails⟩ | ⟨-, inode, allocated⟩ := toplevelOpen_cases opened
  · rw [same]
    exact ⟨wf, ⟨rfl, rfl, fun _ _ => rfl⟩, fun succeed => fails succeed.1⟩
  · obtain ⟨wf', ⟨-, full, same⟩ | ⟨handle, id, ret_eq, -⟩⟩ := openTables_spec wf allocated.symm
    · exact ⟨wf', same, fun ⟨_, slot, inside, free⟩ => full slot inside free⟩
    · omega

/-- A `close` leaves the tables alone, or gives back the handle. -/
theorem toplevelClose_cases (wf : tables.Wf) {reply : Reply Unit}
    (closed : toplevelClose tables fd (fun _ _ => (ret, ())) = .ok reply) :
    reply.ret = -1 ∧ reply.tables = tables ∧ (tables.entry fd = none ∨ ret < 0) ∨
      reply.ret = 0 ∧ 0 ≤ ret ∧ reply.tables.Wf ∧ ∃ (handle slot : ℕ) (item : HandleItem),
        fd = handle ∧ tables.entry handle = some item ∧ item.openFileDescriptionId = slot ∧
        slot < maxHandlesCount ∧ 0 < tables.refcount slot ∧
        reply.tables.handleSlots = update tables.handleSlots handle none ∧
        reply.tables.refcount =
          update tables.refcount slot (tables.refcount slot - 1) := by
  unfold toplevelClose at closed
  cases found : tables.entry fd with
  | none =>
    simp only [found] at closed
    cases closed
    exact .inl ⟨rfl, rfl, .inl rfl⟩
  | some item =>
    have ofd_eq : tables.ofd fd = tables.poolOfd item.openFileDescriptionId := by
      simp [Tables.ofd, found]
    rw [found, ofd_eq, poolOfd] at closed
    by_cases live : tables.VerifyOfd item.openFileDescriptionId
    · obtain ⟨handle, inside, rfl, held⟩ := entry_eq_some.mp found
      simp only [if_pos live] at closed
      by_cases failed : ret < 0
      · simp only [if_pos failed] at closed
        cases closed
        exact .inl ⟨rfl, rfl, .inr failed⟩
      · obtain ⟨-, missing⟩ | ⟨slot, released, id_eq, bound, positive, release_eq, wf', slots,
          -, counts⟩ :=
          releaseOfd_cases wf item.openFileDescriptionId
        · exact absurd live missing
        · have kept : released.entry handle = some item := by rw [entry_nat inside, slots, held]
          obtain ⟨-, absent⟩ |
              ⟨same, freed, handle_eq, free_eq, freed_wf, freed_counts, freed_slots⟩ :=
            freeHandle_cases wf' handle
          · simp [kept] at absent
          · obtain rfl : handle = same := by omega
            simp only [if_neg failed, release_eq, if_true, free_eq] at closed
            cases closed
            exact .inr ⟨rfl, by omega, freed_wf, handle, slot, item, rfl, found, id_eq, bound,
              positive, by rw [freed_slots, slots], by rw [freed_counts, counts]⟩
    · simp [live] at closed

namespace TableState

variable {state next : TableState}

/-- The counts are those of the outstanding references. -/
def Counted (state : TableState) : Prop := ∀ id : ℕ, state.tables.refcount id = state.refs id

theorem bump_counted {refcount : ℕ → ℤ} {refs : ℤ → ℤ}
    (counted : ∀ id : ℕ, refcount id = refs id) (slot : ℕ) {count change : ℤ}
    (changed : count = refcount slot + change) (id : ℕ) :
    update refcount slot count id = bump refs slot change id := by
  by_cases same : id = slot
  · simp [same, bump, changed, counted]
  · simp [same, bump, counted]

theorem Described.release_iff (described : state.Described) {slot : ℕ} (Keep : ℕ → Prop)
    (inside : slot < maxHandlesCount) (positive : 0 < state.tables.refcount slot)
    (refcount_eq : next.tables.refcount =
      update state.tables.refcount slot (state.tables.refcount slot - 1))
    (opened_iff : ∀ handle item, next.Opened handle item ↔ state.Opened handle item ∧ Keep handle) :
    next.Described ↔ ∀ handle item, state.Opened handle item → Keep handle →
      item.openFileDescriptionId = slot → state.tables.refcount slot ≠ 1 := by
  constructor
  · intro described' handle item opened keep same last
    have live := described'.1 handle item ((opened_iff _ _).mpr ⟨opened, keep⟩)
    rw [same, VerifyOfd, refcount_eq] at live
    simp [last] at live
  · intro safe
    refine ⟨fun handle item opened => ?_, fun handle item other item' first second same => ?_⟩
    · obtain ⟨opened, keep⟩ := (opened_iff _ _).mp opened
      obtain ⟨other, bound, same, live⟩ := verifyOfd_iff.mp (described.1 handle item opened)
      refine verifyOfd_iff.mpr ⟨other, bound, same, ?_⟩
      rw [refcount_eq]
      by_cases here : other = slot
      · subst here
        have := safe handle item opened keep same
        simp only [update_self]
        omega
      · simpa [here] using live
    · exact described.2 _ _ _ _ ((opened_iff _ _).mp first).1 ((opened_iff _ _).mp second).1 same

/-- Fewer handles of `toplevel_open`, and no description given back. -/
theorem Described.of_subset (described : state.Described)
    (live : ∀ id, state.tables.refcount id ≤ next.tables.refcount id)
    (opened : ∀ handle item, next.Opened handle item → state.Opened handle item) :
    next.Described :=
  ⟨fun handle item held =>
    have before := described.1 handle item (opened handle item held)
    ⟨before.1, before.2.trans_le (live _)⟩,
  fun handle item other item' first second =>
    described.2 handle item other item' (opened _ _ first) (opened _ _ second)⟩

section

variable (wf : state.tables.Wf) (counted : state.Counted) (described : state.Described)

include wf counted described

theorem step_open {calls : OpenCalls Unit}
    (done : state.perform (.open_ oflag calls) = .ok (ret, next)) :
    next.tables.Wf ∧ next.Counted ∧ (next.Described ↔ state.Admits (.open_ oflag calls)) := by
  obtain ⟨reply, opened, done⟩ := bind_ok done
  by_cases failed : reply.ret < 0
  · obtain ⟨wf', same, fails⟩ := same_of_toplevelOpen wf opened failed
    have none : reply.tables.entry reply.ret = none := by
      simp [entry, InRange, failed.not_ge]
    rw [none] at done
    cases done
    refine ⟨wf', fun id => by rw [same.refcount]; exact counted id,
      iff_of_true ?_ fun succeed free => absurd ⟨succeed, free⟩ fails⟩
    exact described.of_subset (fun id => by rw [same.refcount]) fun handle item held => by
      simpa [Opened, same.handles] using held
  · obtain ⟨below, -⟩ | ⟨succeed, inode, allocated⟩ := toplevelOpen_cases opened
    · exact absurd below failed
    obtain ⟨wf', ⟨below, -⟩ | ⟨handle, id, ret_eq, inside, unused, slots, counts⟩⟩ :=
      openTables_spec wf allocated.symm
    · omega
    · have item_eq : reply.tables.entry reply.ret = some ⟨inode, id⟩ := by
        rw [ret_eq, entry_nat inside, slots, update_self]
      rw [item_eq] at done
      cases done
      simp only [ret_eq, Int.toNat_natCast]
      have old : ∀ other item, (TableState.Opened ⟨reply.tables, update state.opened handle
          true, bump state.refs id 1⟩ other item) ↔
          other = handle ∧ item = ⟨inode, id⟩ ∨ state.Opened other item := by
        intro other item
        by_cases here : other = handle
        · subst here
          simp only [Opened, slots, update_self, unused, true_and, and_true]
          grind
        · simp [Opened, slots, here]
      obtain ⟨slot, rfl, bound, free, refcount_eq, -⟩ | ⟨rfl, full, refcount_eq, -⟩ := counts
      · refine ⟨wf', fun id => ?_, iff_of_true ⟨?_, ?_⟩ fun _ _ => ⟨slot, bound, free⟩⟩
        · simp only [refcount_eq]
          exact bump_counted counted slot (by omega) id
        · intro other item held
          rw [verifyOfd_iff, refcount_eq]
          rcases (old other item).mp held with ⟨-, rfl⟩ | held
          · exact ⟨slot, bound, rfl, by simp⟩
          · obtain ⟨old_slot, old_bound, same, live⟩ :=
              verifyOfd_iff.mp (described.1 other item held)
            have : old_slot ≠ slot := by rintro rfl; omega
            exact ⟨old_slot, old_bound, same, by simpa [this] using live⟩
        · intro first item second item' held held' same
          have fresh : ∀ other item, state.Opened other item →
              item.openFileDescriptionId ≠ slot := by
            intro other item held same
            have live := (described.1 other item held).2
            rw [same, Int.toNat_natCast] at live
            omega
          obtain ⟨here, rfl⟩ | before := (old first item).mp held <;>
            obtain ⟨here', rfl⟩ | before' := (old second item').mp held'
          · rw [here, here']
          · exact absurd same.symm (fresh _ _ before')
          · exact absurd same (fresh _ _ before)
          · exact described.2 _ _ _ _ before before' same
      · refine ⟨wf', fun other => ?_, iff_of_false (fun described' => ?_) fun admits => ?_⟩
        · have : (other : ℤ) ≠ -1 := by omega
          simpa [refcount_eq, bump, this] using counted other
        · have live := described'.1 handle _ ((old _ _).mpr (.inl ⟨rfl, rfl⟩))
          exact absurd live.1.1 (by norm_num)
        · obtain ⟨slot, bound, free⟩ := admits succeed ⟨handle, inside, unused⟩
          exact full slot bound free

theorem step_close {low : ℤ} (done : state.perform (.close fd low) = .ok (ret, next)) :
    next.tables.Wf ∧ next.Counted ∧ (next.Described ↔ state.Admits (.close fd low)) := by
  obtain ⟨reply, closed, done⟩ := bind_ok done
  obtain ⟨failed, same, why⟩ | ⟨returned, low_ok, wf', handle, slot, item, rfl, found, id_eq, bound,
    positive, slots, counts⟩ := toplevelClose_cases wf closed
  · have next_eq : next = state := by
      rw [failed, same] at done
      cases found : state.tables.entry fd <;> rw [found] at done <;>
        exact (Prod.mk.inj (ok.inj done)).2.symm
    subst next_eq
    refine ⟨wf, counted, iff_of_true described fun item found low_ok => ?_⟩
    rcases why with missing | negative
    · simp [missing] at found
    · omega
  · rw [found, returned] at done
    cases done
    refine ⟨wf', fun id => ?_, ?_⟩
    · simp only [counts, id_eq]
      exact bump_counted counted slot (by omega) id
    · rw [described.release_iff (· ≠ handle) bound positive counts fun other held => by
        by_cases here : other = handle <;> simp [Opened, slots, here]]
      constructor
      · intro safe held held_found _ last other item' opened same
        obtain rfl := Option.mem_unique found held_found
        by_contra different
        rw [id_eq] at same last
        exact safe other item' opened (by simpa using different) same last
      · intro safe other item' opened different same last
        refine different ?_
        simpa using safe item found low_ok (by rw [id_eq]; exact last) other item' opened
          (same.trans id_eq.symm)

/-- A counter that is full loses its references. -/
theorem step_referOfd {id : ℤ} (done : state.perform (.referOfd id) = .ok (ret, next)) :
    next.tables.Wf ∧ (next.Counted ∧ next.Described ↔ state.Admits (.referOfd id)) := by
  obtain ⟨same, dead⟩ | ⟨slot, tables, rfl, eq, wf', slots, positive, counts⟩ :=
    referOfd_cases wf id
  · simp only [perform, same, neg_one_lt_zero, if_true] at done
    cases done
    exact ⟨wf, iff_of_true ⟨counted, described⟩ fun live => absurd live dead⟩
  · simp only [perform, eq, lt_irrefl, if_false] at done
    cases done
    refine ⟨wf', fun sound => ?_, fun admits => ?_⟩
    · rintro -
      by_contra full
      have here := sound.1 slot
      simp only [counts, update_self, bump] at here
      rw [← counted slot] at here
      exact increment_max (wf.counts slot) (not_lt.mp full) here
    · have live : state.tables.VerifyOfd slot := by
        by_contra dead
        rw [referOfd, if_neg dead] at eq
        cases eq
      have next_eq := increment_eq positive.le (admits live)
      rw [next_eq] at counts
      refine ⟨fun id => ?_, described.of_subset (fun other => ?_) fun other held opened => by
        simpa [Opened, slots] using opened⟩
      · simp only [counts]
        exact bump_counted counted slot rfl id
      · by_cases here : other = slot <;> simp [counts, here]

theorem step {call : TableCall} (done : state.perform call = .ok (ret, next)) :
    next.tables.Wf ∧ (next.Counted ∧ next.Described ↔ state.Admits call) := by
  cases call with
  | open_ oflag calls =>
    obtain ⟨wf', counted', described_iff⟩ := step_open wf counted described done
    exact ⟨wf', (and_iff_right counted').trans described_iff⟩
  | close fd low =>
    obtain ⟨wf', counted', described_iff⟩ := step_close wf counted described done
    exact ⟨wf', (and_iff_right counted').trans described_iff⟩
  | allocateHandle2 item handle =>
    obtain same | ⟨slot, tables, rfl, eq, wf', free, counts, slots⟩ :=
      allocateHandle2_cases wf item handle
    · simp only [perform, same, neg_one_lt_zero, if_true] at done
      cases done
      exact ⟨wf, iff_of_true ⟨counted, described⟩ trivial⟩
    · simp only [perform, eq, (Int.natCast_nonneg slot).not_gt, if_false] at done
      cases done
      refine ⟨wf', iff_of_true ⟨fun id => by rw [counts]; exact counted id, ?_⟩ trivial⟩
      refine described.of_subset (fun id => by rw [counts]) fun other held opened => ?_
      by_cases here : other = slot
      · simp [Opened, here, slots] at opened
      · simpa [Opened, here, slots] using opened
  | freeHandle handle =>
    obtain ⟨same, -⟩ | ⟨slot, tables, rfl, eq, wf', counts, slots⟩ := freeHandle_cases wf handle
    · simp only [perform, same] at done
      cases done
      exact ⟨wf, iff_of_true ⟨counted, described⟩ trivial⟩
    · simp only [perform, eq] at done
      cases done
      refine ⟨wf', iff_of_true ⟨fun id => by rw [counts]; exact counted id, ?_⟩ trivial⟩
      refine described.of_subset (fun id => by rw [counts]) fun other held opened => ?_
      by_cases here : other = slot
      · simp [Opened, here, slots] at opened
      · simpa [Opened, here, slots] using opened
  | referOfd id => exact step_referOfd wf counted described done
  | releaseOfd id =>
    obtain ⟨same, dead⟩ | ⟨slot, tables, rfl, bound, positive, eq, wf', slots, -, counts⟩ :=
      releaseOfd_cases wf id
    · simp only [perform, same, neg_one_lt_zero, if_true] at done
      cases done
      refine ⟨wf, iff_of_true ⟨counted, described⟩ fun handle item opened same => ?_⟩
      exact absurd (same ▸ described.1 handle item opened) dead
    · simp only [perform, eq, lt_irrefl, if_false] at done
      cases done
      refine ⟨wf', (and_iff_right fun id => ?_).trans ?_⟩
      · simp only [counts]
        exact bump_counted counted slot (by omega) id
      · rw [described.release_iff (fun _ => True) bound positive counts fun other held => by
          simp [Opened, slots]]
        simp [Admits]

end

theorem sound_iff (wf : state.tables.Wf) : state.Sound ↔ state.Counted ∧ state.Described := by
  refine ⟨fun sound => ⟨sound.counted, sound.described⟩, fun ⟨counted, described⟩ =>
    ⟨fun item => (allocateHandle_cases wf item).1, described, counted, ?_⟩⟩
  intro oflag calls reply opened failed
  exact (same_of_toplevelOpen wf opened failed).2.1

theorem initial_wf : initial.tables.Wf :=
  ⟨⟨by simp [initial], fun slot below => by simp [initial] at below; omega⟩,
    ⟨by simp [initial], fun slot below => by simp [initial] at below; omega⟩, nofun,
    fun _ => by simp [initial]⟩

theorem initial_sound : initial.Sound :=
  (sound_iff initial_wf).mpr ⟨fun _ => rfl, nofun, nofun⟩

end TableState

/-- The tables are sound after every call exactly when every call leaves the handles their own
descriptions and no counter overflows. -/
theorem toplevel_tables_iff {steps : List (TableState × TableCall)} {last : TableState}
    (run : tableSystem.Run .initial steps last) :
    (∀ visited ∈ steps, visited.1.Sound) ∧ last.Sound ↔
      ∀ visited ∈ steps, visited.1.Admits visited.2 := by
  refine run.good_iff (fun state call next (wf : state.tables.Wf) sound taken => ?_)
    TableState.initial_wf TableState.initial_sound
  obtain ⟨ret, done⟩ := taken
  obtain ⟨wf', sound_iff⟩ := TableState.step wf sound.counted sound.described done
  exact ⟨wf', (TableState.sound_iff wf').trans sound_iff⟩

/-- The calls of an `open` that succeeds below. -/
def plainCalls : OpenCalls Unit where
  parentInodeByPath := .ok 3
  nameFromPath := .ok none
  inodeByPath := .ok 4
  lowlevelOpen _ _ := (0, ())
  inodeByPathAfter _ := .ok 4

/-- The plain `open` with a handle left. -/
theorem perform_plain {state : TableState} (wf : state.tables.Wf)
    (free : state.tables.handleSlots 0 = none) :
    ∃ (handle : ℕ) (id : ℤ) (next : TableState),
      state.perform (.open_ 0 plainCalls) = .ok (↑handle, next) ∧ next.Opened handle ⟨4, id⟩ ∧
      next.tables.handleSlots = update state.tables.handleSlots handle (some ⟨4, id⟩) ∧
      next.tables.Wf ∧ (state.tables.handleSlots handle = none ∧ handle < maxHandlesCount) ∧
      ((∃ slot < maxHandlesCount, state.tables.refcount slot = 0 ∧
          next.tables.refcount = update state.tables.refcount slot 1) ∨
        id = -1 ∧ ∀ slot < maxHandlesCount, state.tables.refcount slot ≠ 0) := by
  rcases allocated : openTables state.tables 0 4 with ⟨ret, tables⟩
  obtain ⟨wf', ⟨-, full, -⟩ | ⟨handle, id, rfl, inside, unused, held, described⟩⟩ :=
    openTables_spec wf allocated
  · exact absurd free (full 0 (by simp [maxHandlesCount]))
  · have opened : toplevelOpen state.tables 0 plainCalls = .ok ⟨handle, none, tables, some ()⟩ := by
      have below : toplevelOpen state.tables 0 plainCalls =
          let (ret, tables) := openTables state.tables 0 4
          .ok ⟨ret, if ret < 0 then some enfile else none, tables, some ()⟩ := rfl
      rw [below, allocated]
      simp
    have entry : tables.entry handle = some ⟨4, id⟩ := by
      rw [entry_nat inside, held, update_self]
    refine ⟨handle, id, _, by simp only [TableState.perform, opened, entry, bind, Except.bind]; rfl,
      ⟨by simp [held], by simp⟩, held, wf', ⟨unused, inside⟩, ?_⟩
    obtain ⟨slot, -, slot_inside, zero, counts, -⟩ | ⟨none_left, full, -⟩ := described
    · exact .inl ⟨slot, slot_inside, zero, counts⟩
    · exact .inr ⟨none_left, full⟩

/-- Handles that are opened and freed take all descriptions. -/
theorem exists_drained {free : ℕ} : ∀ {state : TableState}, state.tables.Wf →
    state.tables.handleSlots = (fun _ => none) →
    ((range maxHandlesCount).filter (state.tables.refcount · = 0)).card = free →
    ∃ steps last, tableSystem.Run state steps last ∧ last.tables.Wf ∧
    last.tables.handleSlots 0 = none ∧ ∀ id < maxHandlesCount, last.tables.refcount id ≠ 0 := by
  induction free with
  | zero =>
    intro state wf slots none_left
    rw [card_eq_zero, filter_eq_empty_iff] at none_left
    exact ⟨[], state, .nil _, wf, congrFun slots 0, fun id inside =>
      none_left (mem_range.mpr inside)⟩
  | succ free ih =>
    intro state wf slots card
    obtain ⟨handle, id, opened, open_done, -, held, opened_wf, ⟨unused, inside⟩, described⟩ :=
      perform_plain wf (congrFun slots 0)
    obtain ⟨slot, slot_inside, zero, counts⟩ | ⟨-, full⟩ := described
    · obtain ⟨-, missing⟩ | ⟨_, freed, same, free_done, wf', refcount, freed_slots⟩ :=
        freeHandle_cases opened_wf handle
      · simp [entry_nat inside, held] at missing
      obtain rfl := Int.ofNat.inj same
      have emptied : freed.handleSlots = fun _ => none := by
        rw [freed_slots, held, update_idem, slots]
        exact update_eq_self handle (fun _ => none)
      have fewer : ((range maxHandlesCount).filter (freed.refcount · = 0)) =
          ((range maxHandlesCount).filter (state.tables.refcount · = 0)).erase slot := by
        ext other
        simp only [refcount, counts, update_apply, mem_filter, mem_erase]
        split_ifs with same <;> simp [same]
      have member : slot ∈ (range maxHandlesCount).filter (state.tables.refcount · = 0) :=
        mem_filter.mpr ⟨mem_range.mpr slot_inside, zero⟩
      obtain ⟨steps, last, run, finished⟩ := @ih { opened with tables := freed } wf' emptied
        (by rw [fewer, card_erase_of_mem member, card]; rfl)
      have free_step : tableSystem.Step opened (.freeHandle handle)
          { opened with tables := freed } := ⟨0, by simp only [TableState.perform, free_done]⟩
      exact ⟨_, last, .cons ⟨_, open_done⟩ (.cons free_step run), finished⟩
    · rw [filter_false_of_mem fun id inside =>
        full id (mem_range.mp inside), card_empty] at card
      exact absurd card (Nat.succ_ne_zero free).symm

/-- A run that takes all descriptions. -/
theorem toplevel_tables_iff_drained : ∃ steps last, tableSystem.Run .initial steps last ∧
    (∀ id < maxHandlesCount, last.tables.refcount id ≠ 0) ∧
    ((∀ visited ∈ steps, visited.1.Sound) ∧ last.Sound ↔
      ∀ visited ∈ steps, visited.1.Admits visited.2) := by
  obtain ⟨steps, last, run, -, -, full⟩ := exists_drained TableState.initial_wf rfl rfl
  exact ⟨steps, last, run, full, toplevel_tables_iff run⟩

/-- The handle that is opened next has the description -1. -/
theorem open_without_description : ∃ steps last handle item, tableSystem.Run .initial steps last ∧
    last.Opened handle item ∧ item.openFileDescriptionId = -1 ∧ ¬ last.Sound := by
  obtain ⟨steps, last, run, wf, free, full⟩ := exists_drained TableState.initial_wf rfl rfl
  obtain ⟨handle, id, next, done, opened, -, -, -, ⟨slot, inside, zero, -⟩ | ⟨rfl, -⟩⟩ :=
    perform_plain wf free
  · exact absurd zero (full slot inside)
  · refine ⟨_, next, handle, _, run.concat _ ⟨_, done⟩, opened, rfl, fun sound => ?_⟩
    have described := sound.described.1 handle _ opened
    simp [VerifyOfd, InRange] at described

end Zfs.Zrt
