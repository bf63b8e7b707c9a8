import Zfs.Zrt.LowLevel

/-!
# The teardown lock and the holds

Whether an operation leaves the teardown lock as often as it enters it, and gives back every hold
but the one that `open` keeps for `close`.
-/

namespace Zfs.Zrt

/-- What an event adds to the readers of the teardown lock. -/
@[simp] def Event.readers : Event → ℤ
  | enter => 1
  | exit => -1
  | _ => 0

/-- What an event adds to the holds of a vnode. -/
@[simp] def Event.holds (vp : ℤ) : Event → ℤ
  | hold vp' => if vp' = vp then 1 else 0
  | rele vp' => -if vp' = vp then 1 else 0
  | _ => 0

/-- The readers that a trace leaves. -/
def readers (trace : List Event) : ℤ := (trace.map Event.readers).sum

/-- The holds of a vnode that a trace leaves. -/
def holds (trace : List Event) (vp : ℤ) : ℤ := (trace.map (Event.holds vp)).sum

namespace LowLevelCall

variable (call : LowLevelCall) (o : Outcome)

/-- The hold of an `open`, until the `close`. -/
def kept (vp : ℤ) : ℤ :=
  match call with
  | open_ parent _ fflags =>
    let opened := if has fflags oCreat ∧ ¬has fflags oDirectory then o.made else parent
    if (call.run o).error = 0 ∧ opened = vp then 1 else 0
  | close inode => if (call.run o).error = 0 ∧ inode = vp then -1 else 0
  | _ => 0

/-- The operation is as it should be with the lock and the holds. -/
def Balanced : Prop :=
  readers (call.run o).trace = 0 ∧ ∀ vp, holds (call.run o).trace vp = call.kept o vp

/-- The calls after which the lock and the holds are as they should be. -/
def Clean : Prop :=
  o.unmounted = true ∨
    match call with
    | lookup _ name => maxnamelen ≤ name.length ∨ o.zget ≠ 0 ∨ o.vop ≠ 0 ∨ o.found = none ∨
      o.getattr ≠ 0
    | pread _ | pwrite _ | getdents _ => o.zget ≠ 0
    | close _ | ftruncateSize _ => False
    | _ => True

end LowLevelCall

@[simp] theorem readers_append (first second : List Event) :
    readers (first ++ second) = readers first + readers second := by
  simp [readers]

@[simp] theorem holds_append (first second : List Event) (vp : ℤ) :
    holds (first ++ second) vp = holds first vp + holds second vp := by
  simp [holds]

variable (event : Event) (trace : List Event) (calls : List (LowLevelCall × Outcome))

@[simp] theorem readers_cons :
    readers (event :: trace) = event.readers + readers trace := rfl

@[simp] theorem holds_cons (vp : ℤ) :
    holds (event :: trace) vp = event.holds vp + holds trace vp := rfl

@[simp] theorem readers_nil : readers [] = 0 := rfl

@[simp] theorem holds_nil (vp : ℤ) : holds [] vp = 0 := rfl

/-- What the end of an operation does to the readers and the holds. -/
structure Done.Leaves (done : Done) (count : ℤ) (held : ℤ → ℤ → ℤ) : Prop where
  readers : readers done.trace = count
  holds : ∀ vp, holds done.trace vp = held done.error vp

variable {o : Outcome} {rest : Done} {held : ℤ → ℤ → ℤ}

/-- Nothing is kept after an error. -/
def Settled (held : ℤ → ℤ → ℤ) : Prop := ∀ error vp, error ≠ 0 → held error vp = 0

theorem Done.Leaves.named {name : List Char} (settled : Settled held)
    (leaves : rest.Leaves 0 held) : (named name rest).Leaves 0 held := by
  unfold Zrt.named
  split_ifs
  · exact ⟨rfl, fun vp => (settled _ vp (by decide)).symm⟩
  · exact leaves

theorem Done.Leaves.enter (settled : Settled held) (leaves : rest.Leaves (-1) held) :
    (zfsEnter o rest).Leaves 0 held := by
  unfold zfsEnter
  split_ifs
  · exact ⟨rfl, fun vp => (settled _ vp (by decide)).symm⟩
  · exact ⟨by simp [leaves.readers], fun vp => by
      simp [leaves.holds]⟩

variable {error inode sign count : ℤ} {events : List Event}

/-- An error of `zfs_zget` is handled, or the rest gives back the hold. -/
theorem Done.Leaves.zget {error : ℕ} {cleanup : List Event}
    (failed : ∀ error ≠ 0, (Done.mk cleanup error (sign * error)).Leaves (-1) held)
    (leaves : rest.Leaves (-1) fun error vp => held error vp - if inode = vp then 1 else 0) :
    (zfsZget error inode cleanup sign rest).Leaves (-1) held := by
  unfold zfsZget
  by_cases bad : error ≠ 0
  · rw [if_pos bad]
    refine failed _ ?_
    split_ifs
    · decide
    · exact_mod_cast bad
  · rw [if_neg bad]
    exact ⟨by simp [leaves.readers], fun vp => by
      simp [leaves.holds]⟩

theorem Done.Leaves.onInode {error : ℕ} (settled : Settled held)
    (leaves : rest.Leaves (-1) fun error vp => held error vp - if inode = vp then 1 else 0) :
    (zfsEnter o (zfsZget error inode [.exit] sign rest)).Leaves 0 held :=
  .enter settled (.zget (fun error bad =>
    ⟨rfl, fun vp => by simp [settled error vp bad]⟩) leaves)

theorem settled_zero : Settled fun _ _ => 0 := fun _ _ _ => rfl

theorem leaves_inverted {held : ℤ → ℤ} (released : ∀ vp, holds events vp = held vp)
    (left : readers events = -1) : (inverted events error).Leaves (-1) fun _ => held :=
  ⟨left, released⟩

theorem leaves_madeName {held : ℤ → ℤ} (released : ∀ vp, holds events vp = held vp)
    (left : readers events = 0) : (madeName o error events).Leaves (-1) fun _ => held := by
  unfold madeName
  split_ifs <;>
    exact ⟨by simp [left], fun vp => by simp [released]⟩

theorem leaves_openOut {vp ret : ℤ} :
    (openOut vp error ret).Leaves (-1) fun error vp' =>
      (if error = 0 ∧ vp = vp' then 1 else 0) - if vp = vp' then 1 else 0 := by
  unfold openOut
  split_ifs with bad
  · exact ⟨rfl, fun vp' => by simp [bad]⟩
  · exact ⟨rfl, fun vp' => by simp [not_not.mp bad]⟩

theorem Done.Leaves.emit (leaves : rest.Leaves count held) (neutral : Zrt.readers events = 0) :
    (emit events rest).Leaves count fun error vp => Zrt.holds events vp + held error vp :=
  ⟨by simp [leaves.readers, neutral], fun vp => by simp [leaves.holds]⟩

theorem Done.Leaves.congr {held' : ℤ → ℤ → ℤ} (leaves : rest.Leaves count held)
    (same : ∀ error vp, held error vp = held' error vp) : rest.Leaves count held' :=
  ⟨leaves.readers, fun vp => (leaves.holds vp).trans (same _ vp)⟩

theorem leaves_zfsOpen (parent : ℤ) (name : Option (List Char)) (fflags : BitVec 32) :
    (zfsOpen o parent name fflags).Leaves 0 fun error vp =>
      if error = 0 ∧ (if has fflags oCreat ∧ ¬has fflags oDirectory then o.made else parent) = vp
        then 1 else 0 := by
  have settled (opened : ℤ) : Settled fun error vp => if error = 0 ∧ opened = vp then 1 else 0 :=
    fun error vp bad => if_neg fun both => bad both.1
  have asked (mode : BitVec 32) (error ret : ℤ) :=
    (@leaves_openOut error parent ret).emit (show readers [.access parent mode] = 0 from rfl)
  simp only [holds_cons, holds_nil, Event.holds, add_zero, zero_add] at asked
  unfold zfsOpen
  by_cases directory : has fflags oDirectory
  · simp only [directory, if_true, not_true_eq_false, and_false, if_false]
    refine .onInode (settled parent) ?_
    split_ifs
    · exact leaves_openOut
    · exact asked _ _ _
    · exact asked _ _ _
  · simp only [directory, Bool.false_eq_true, if_false, not_false_eq_true, and_true]
    refine .named (settled _) (.onInode (settled _) ?_)
    by_cases create : has fflags oCreat
    · simp only [create, if_true]
      split_ifs with failed
      · -- the directory is released, and nothing has been made
        exact ⟨by simp [openOut, failed],
          fun vp => by simp [openOut, failed]⟩
      · refine (leaves_openOut.emit rfl).congr fun error vp => ?_
        simp only [holds_cons, holds_nil, Event.holds]
        ring
    · simp only [create, Bool.false_eq_true, if_false]
      split_ifs <;> first | exact leaves_openOut | exact asked _ _ _

theorem leaves_onInodes {first second : ℤ} (leaves : rest.Leaves (-1) fun _ vp =>
      (0 - if first = vp then 1 else 0) - if second = vp then 1 else 0) :
    (zfsEnter o (zfsZget o.zget first [.exit] (-1)
      (zfsZget o.zget2 second [.rele first, .exit] sign rest))).Leaves 0 fun _ _ => 0 :=
  .onInode settled_zero (.zget (fun _ _ => ⟨rfl, fun vp => by simp⟩) leaves)

theorem LowLevelCall.balanced_iff (call : LowLevelCall) : call.Balanced o ↔ call.Clean o := by
  have tidy {done : Done} (leaves : done.Leaves 0 fun _ _ => 0) :
      (readers done.trace = 0 ∧ ∀ vp, holds done.trace vp = 0) ↔ o.unmounted = true ∨ True :=
    iff_of_true ⟨leaves.readers, leaves.holds⟩ (.inr trivial)
  have single (vp' vp : ℤ) : holds [.rele vp', .exit] vp = 0 - if vp' = vp then 1 else 0 := by
    simp
  cases call with
  | stat inode => exact tidy (.onInode settled_zero (leaves_inverted (single inode) rfl))
  | readlink inode => exact tidy (.onInode settled_zero ⟨rfl, single inode⟩)
  | access inode mask =>
    exact tidy (.onInode settled_zero (leaves_inverted (by simp) rfl))
  | mkdir parent name | symlink parent name =>
    exact tidy (.named settled_zero (.onInode settled_zero (leaves_madeName (single parent) rfl)))
  | rmdir parent name | unlink parent name =>
    exact tidy (.named settled_zero (.onInode settled_zero (leaves_inverted (single parent) rfl)))
  | link inode newParent newname =>
    refine tidy (.named settled_zero (leaves_onInodes (leaves_madeName (fun vp => ?_) rfl)))
    simp only [holds_cons, holds_nil, Event.holds]
    ring
  | rename parent name newParent newname =>
    refine tidy (.named settled_zero (.named settled_zero (leaves_onInodes
      (leaves_inverted (fun vp => ?_) rfl))))
    simp only [holds_cons, holds_nil, Event.holds]
    ring
  | open_ parent name fflags =>
    have leaves := @leaves_zfsOpen o parent name fflags
    exact iff_of_true ⟨leaves.readers, leaves.holds⟩ (.inr trivial)
  | lookup parent name =>
    by_cases long : maxnamelen ≤ name.length
    · simp [Balanced, kept, run, Clean, zfsLookup, named, long]
    cases mounted : o.unmounted with
    | true => simp [Balanced, Clean, kept, run, named, zfsEnter, zfsLookup, long, mounted]
    | false =>
      by_cases zget : o.zget = 0 <;> by_cases vop : o.vop = 0 <;> cases found : o.found
      all_goals
        by_cases getattr : o.getattr = 0 <;>
          simp [Balanced, Clean, kept, run, named, zfsEnter, zfsZget, zfsLookup, internalStat,
            long, mounted, zget, vop, found, getattr]
  | pread inode | pwrite inode | getdents inode | close inode | ftruncateSize inode =>
    cases mounted : o.unmounted with
    | true =>
      simp [Balanced, Clean, kept, run, mounted, zfsTransfer, zfsGetdents, zfsClose,
        zfsFtruncateSize, zfsEnter, eio]
    | false =>
      by_cases zget : o.zget = 0 <;> by_cases vtype : o.vtype = .vdir <;>
        simp [Balanced, Clean, kept, run, mounted, zfsTransfer, zfsGetdents, zfsClose,
          zfsFtruncateSize, zfsEnter, zfsZget, zget, vtype]

/-- What the calls do, one after the other. -/
def traceOf : List Event :=
  calls.flatMap fun call => (call.1.run call.2).trace

/-- Every file that was opened has been closed. -/
def AllClosed : Prop :=
  ∀ vp, (calls.map fun call => call.1.kept call.2 vp).sum = 0

/-- Balanced calls leave no readers, and the holds of the files that are open. -/
theorem traceOf_balanced {calls : List (LowLevelCall × Outcome)}
    (balanced : ∀ call ∈ calls, call.1.Balanced call.2) : readers (traceOf calls) = 0 ∧
      ∀ vp, holds (traceOf calls) vp = (calls.map fun call => call.1.kept call.2 vp).sum := by
  induction calls with
  | nil => exact ⟨rfl, fun _ => rfl⟩
  | cons call calls ih =>
    obtain ⟨⟨left, held⟩, later⟩ := List.forall_mem_cons.mp balanced
    obtain ⟨later_left, later_held⟩ := ih later
    simp only [traceOf, List.flatMap_cons, readers_append, holds_append]
      at later_left later_held ⊢
    refine ⟨by rw [left, later_left, add_zero], fun vp => ?_⟩
    rw [held, later_held, List.map_cons, List.sum_cons]

/-- The lock and the holds are balanced after every sequence of calls exactly when no call is one of
those that keep something. -/
theorem low_level_balance_iff (calls : List (LowLevelCall × Outcome)) :
    ((∀ call ∈ calls, call.1.Balanced call.2) ∧
      (AllClosed calls → readers (traceOf calls) = 0 ∧ ∀ vp, holds (traceOf calls) vp = 0)) ↔
      ∀ call ∈ calls, call.1.Clean call.2 := by
  simp only [← LowLevelCall.balanced_iff]
  refine ⟨And.left, fun balanced => ⟨balanced, fun closed => ?_⟩⟩
  obtain ⟨left, held⟩ := traceOf_balanced balanced
  exact ⟨left, fun vp => (held vp).trans (closed vp)⟩

/-- A file is opened and closed: the lock has a reader left, and the vnode is held. -/
theorem open_close_leaves_reader : ∃ calls, AllClosed calls ∧ readers (traceOf calls) = 1 ∧
    holds (traceOf calls) 5 = 1 := by
  refine ⟨[(.open_ 5 none 0, success), (.close 5, success)], fun vp => ?_, by decide, by decide⟩
  have opened : ((LowLevelCall.open_ 5 none 0).run success).error = 0 := by decide
  have closed : ((LowLevelCall.close 5).run success).error = 0 := by decide
  simp only [List.map_cons, List.map_nil, LowLevelCall.kept, opened, closed]
  by_cases here : 5 = vp <;> simp [here, has, oCreat]

end Zfs.Zrt
