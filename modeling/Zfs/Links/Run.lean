import Zfs.Links.Objects

/-!
# Runs of a file system

Every transaction of every operation keeps a file system consistent, so that the counts in its
znodes and the unlinked set are right after any sequence of calls.
-/

namespace Zfs.Links

open List Option

namespace Zfsvfs

variable {Name : Type} [DecidableEq Name] {fs next : Zfsvfs Name} {dzp zp obj : ℕ} {name : Name}

theorem dir_of_zfsDirentLock {found : Option ℕ} (ok : fs.zfsDirentLock dzp name = .ok found) :
    ∃ dir, fs.znode dzp = some dir ∧ dir.isDir = true ∧ dir.zUnlinked = false ∧
    fs.zapLookup dzp name = found := by
  rw [zfsDirentLock] at ok
  split at ok
  · cases ok
  rename_i dir at_dzp
  split at ok
  · cases ok
  rename_i is_dir
  split at ok
  · cases ok
  rename_i linked
  exact ⟨dir, at_dzp, Bool.not_eq_false _ ▸ is_dir, Bool.not_eq_true _ ▸ linked, Except.ok.inj ok⟩

theorem room_of_zfsDirentLock (ok : fs.zfsDirentLock dzp name = .ok none) :
    ∃ dir, fs.Room dzp name dir := by
  obtain ⟨dir, at_dzp, is_dir, linked, missing⟩ := dir_of_zfsDirentLock ok
  exact ⟨dir, at_dzp, is_dir, linked, ne_of_zapLookup missing⟩

theorem mem_of_zfsDirentLock (ok : fs.zfsDirentLock dzp name = .ok (some zp)) :
    ⟨dzp, name, zp⟩ ∈ fs.dirents := by
  obtain ⟨dir, -, -, -, found⟩ := dir_of_zfsDirentLock ok
  exact mem_of_zapLookup found

theorem room_of_zfsDirentLockNew (ok : fs.zfsDirentLockNew dzp name = .ok ()) :
    ∃ dir, fs.Room dzp name dir := by
  rw [zfsDirentLockNew] at ok
  split at ok
  · cases ok
  · cases ok
  · rename_i locked
    exact room_of_zfsDirentLock locked

theorem mem_of_zfsDirentLockExists (ok : fs.zfsDirentLockExists dzp name = .ok zp) :
    ⟨dzp, name, zp⟩ ∈ fs.dirents := by
  rw [zfsDirentLockExists] at ok
  split at ok
  · cases ok
  · cases ok
  · rename_i locked
    cases ok
    exact mem_of_zfsDirentLock locked

namespace Consistent

variable (consistent : fs.Consistent)
include consistent

section

variable (fresh : fs.znode obj = none) (nonzero : obj ≠ 0)

include fresh nonzero

theorem zfsCreate {vaType : Vtype}
    (ok : fs.zfsCreate dzp name vaType obj = .ok next) : next.Consistent := by
  rw [Zfsvfs.zfsCreate] at ok
  split at ok
  · cases ok
  · cases ok
    exact consistent
  · rename_i locked
    obtain ⟨dir, room⟩ := room_of_zfsDirentLock locked
    split at ok
    · cases ok
    · rename_i allowed
      refine consistent.make room fresh nonzero (fun is_dir => ?_) ok
      subst is_dir
      simpa using allowed

theorem zfsMkdir (ok : fs.zfsMkdir dzp name obj = .ok next) : next.Consistent := by
  rw [Zfsvfs.zfsMkdir] at ok
  split at ok
  · cases ok
  · rename_i outside
    obtain ⟨⟨⟩, locked, made⟩ := bind_ok ok
    obtain ⟨dir, room⟩ := room_of_zfsDirentLockNew locked
    exact consistent.make room fresh nonzero (fun _ => Bool.not_eq_true _ ▸ outside) made

theorem zfsSymlink (ok : fs.zfsSymlink dzp name obj = .ok next) : next.Consistent := by
  obtain ⟨⟨⟩, locked, made⟩ := bind_ok ok
  obtain ⟨dir, room⟩ := room_of_zfsDirentLockNew locked
  exact consistent.make room fresh nonzero (fun is_dir : Vtype.vlnk = .vdir => nomatch is_dir) made

end

theorem zfsLink {tdzp szp : ℕ} (ok : fs.zfsLink tdzp szp name = .ok next) : next.Consistent := by
  rw [Zfsvfs.zfsLink] at ok
  split at ok
  · cases ok
  rename_i znode at_szp
  split at ok
  · cases ok
  split at ok
  · cases ok
  rename_i not_dir
  obtain ⟨⟨⟩, locked, made⟩ := bind_ok ok
  obtain ⟨dir, room⟩ := room_of_zfsDirentLockNew locked
  exact consistent.link room at_szp (Bool.not_eq_true _ ▸ not_dir) made

theorem zfsRmdir (ok : fs.zfsRmdir dzp name = .ok next) : next.Consistent := by
  obtain ⟨zp, locked, destroyed⟩ := bind_ok ok
  split at destroyed
  · cases destroyed
  · exact consistent.destroy (mem_of_zfsDirentLockExists locked) destroyed

theorem zfsRemove {mayDeleteNow : Bool} (ok : fs.zfsRemove dzp name mayDeleteNow = .ok next) :
    next.Consistent := by
  obtain ⟨zp, locked, removed⟩ := bind_ok ok
  have mem := mem_of_zfsDirentLockExists locked
  split at removed
  · cases removed
  rename_i not_dir
  obtain ⟨⟨after, unlinked⟩, destroyed, removed⟩ := bind_ok removed
  have null : fs.zfsLinkDestroyNull dzp name zp false =
      .ok (if unlinked then after.zfsUnlinkedAdd zp else after) := by
    rw [zfsLinkDestroyNull, destroyed]
  have later := consistent.destroy mem null
  cases unlinked with
  | false =>
    cases removed
    exact later
  | true =>
    cases mayDeleteNow with
    | false =>
      cases removed
      exact later
    | true =>
      cases removed
      rw [if_pos rfl] at null later
      obtain ⟨znode, at_zp, gone⟩ := (later.shaped.unlinked zp).mp mem_cons_self
      -- The extended attribute directory has a link, and the object has none.
      have apart : after.zpXattr zp ≠ zp := by
        have xattr : after.zpXattr zp = znode.zpXattr := by
          rw [zpXattr, show after.znode zp = some znode from at_zp]
          rfl
        rw [xattr]
        intro same
        have zero := later.shaped.zero
        obtain ⟨other, at_other, -, -, linked⟩ := later.shaped.xattr zp znode at_zp (by grind)
        grind
      have kind := (zfsLinkDestroyNull_ok null).1.isDir (alike_lose _ _ _ _) zp
      have empty : (after.zfsUnlinkedAdd zp).entries zp = 0 := by
        refine entries_eq_zero_iff.mpr fun entry mem at_dzp => ?_
        obtain ⟨dir, at_dir, is_dir, -⟩ := later.placed.directory entry mem
        rw [at_dzp] at at_dir
        rw [Zfsvfs.isDir, at_dir, any_some, is_dir] at kind
        exact not_dir kind.symm
      exact rmnodeFinal_zfsUnlinkedAdd apart ▸ later.rmnodeFinal at_zp gone empty

theorem zfsRename {sdzp tdzp lock : ℕ} {snm tnm : Name}
    (ok : fs.zfsRename sdzp snm tdzp tnm lock = .ok next) : next.Consistent := by
  rw [Zfsvfs.zfsRename] at ok
  split at ok
  · cases ok
  rename_i same_space
  split at ok
  · cases ok
    exact consistent
  rename_i other_name
  obtain ⟨szp, locked, ok⟩ := bind_ok ok
  obtain ⟨target, target_locked, ok⟩ := bind_ok ok
  have mem := mem_of_zfsDirentLockExists locked
  split at ok
  · cases ok
  obtain ⟨znode, at_szp, -⟩ := consistent.placed.object _ mem
  have space (is_dir : znode.isDir = true) : fs.isXattr tdzp = false := by
    rw [not_not.mp same_space]
    refine consistent.placed.space _ mem ?_
    rw [Zfsvfs.isDir, at_szp, any_some, is_dir]
  split at ok
  · obtain ⟨dir, room⟩ := room_of_zfsDirentLock target_locked
    refine consistent.move room mem at_szp (fun is_dir => ?_) ok
    have outside := space is_dir
    rwa [isXattr, room.at_dzp, any_some] at outside
  · rename_i tzp
    split at ok
    · cases ok
    split at ok
    · cases ok
    split at ok
    · cases ok
      exact consistent
    obtain ⟨after, destroyed, moved⟩ := bind_ok ok
    have target_mem := mem_of_zfsDirentLock target_locked
    obtain ⟨dir, at_tdzp, is_dir, linked, -⟩ := dir_of_zfsDirentLock target_locked
    obtain ⟨found, removal⟩ := consistent.exists_removal target_mem destroyed
    have alike := alike_lose found.isDir tdzp tzp false
    have room := removal.room consistent at_tdzp is_dir linked
    have still : ⟨sdzp, snm, szp⟩ ∈ after.dirents := by
      rw [removal.dirents]
      refine (mem_eraseP_of_neg fun same => other_name ?_).mpr mem
      simpa [Dirent.isAt] using same
    refine (consistent.destroy target_mem destroyed).move room still
      (removal.changed.of_some at_szp) (fun szp_dir => ?_) moved
    rw [(alike _ _).isDir] at szp_dir
    have outside := space szp_dir
    rw [(alike _ _).isXattr]
    rwa [isXattr, at_tdzp, any_some] at outside

end Consistent

theorem purgeNames_cons (assigned : Name → Bool) (names : List Name) :
    (purgeNames dzp assigned (name :: names) fs =
      ((purgeNames dzp assigned names fs).1, (purgeNames dzp assigned names fs).2 + 1)) ∨
    ∃ zp next, ⟨dzp, name, zp⟩ ∈ fs.dirents ∧
    fs.zfsLinkDestroyNull dzp name zp false = .ok next ∧
    purgeNames dzp assigned (name :: names) fs =
      (next :: (purgeNames dzp assigned names next).1,
        (purgeNames dzp assigned names next).2) := by
  rw [purgeNames]
  split
  · exact .inl rfl
  · rename_i zp found
    split
    · exact .inl rfl
    · split
      · exact .inl rfl
      · rename_i next destroyed
        exact .inr ⟨zp, next, mem_of_zapLookup found, destroyed, rfl⟩

/-- The states of `zfs_purgedir` are consistent, and the directory is empty when no name is skipped.
-/
theorem Consistent.purgeNames {assigned : Name → Bool} {names : List Name} :
    ∀ {fs : Zfsvfs Name}, fs.Consistent →
      (∃ znode, fs.znode dzp = some znode ∧ znode.zUnlinked = true) →
      (∀ next ∈ (purgeNames dzp assigned names fs).1, next.Consistent) ∧
      (∃ znode, ((Zfsvfs.purgeNames dzp assigned names fs).1.getLastD fs).znode dzp = some znode ∧
        znode.zUnlinked = true) ∧
      ((Zfsvfs.purgeNames dzp assigned names fs).2 = 0 →
        (∀ entry ∈ fs.dirents, entry.dzp = dzp → entry.name ∈ names) →
        ((Zfsvfs.purgeNames dzp assigned names fs).1.getLastD fs).entries dzp = 0) := by
  induction names with
  | nil =>
    intro fs consistent gone
    refine ⟨nofun, gone, fun _ covered => entries_eq_zero_iff.mpr fun entry mem at_dzp => ?_⟩
    exact absurd (covered entry mem at_dzp) not_mem_nil
  | cons name names ih =>
    intro fs consistent gone
    rcases purgeNames_cons assigned names with skipped | ⟨zp, next, mem, destroyed, purged⟩
    · rw [skipped]
      obtain ⟨states, last, -⟩ := ih consistent gone
      exact ⟨states, last, fun none => absurd none (Nat.succ_ne_zero _)⟩
    · rw [purged, getLastD_cons]
      have later := consistent.destroy mem destroyed
      obtain ⟨found, removal⟩ := consistent.exists_removal mem destroyed
      obtain ⟨znode, at_dzp, unlinked⟩ := gone
      have still : ∃ znode, next.znode dzp = some znode ∧ znode.zUnlinked = true :=
        ⟨_, removal.changed.of_some at_dzp, by
          rw [removal.zUnlinked_lose dzp znode at_dzp, unlinked, Bool.true_or]⟩
      obtain ⟨states, last, empty⟩ := ih later still
      refine ⟨forall_mem_cons.mpr ⟨later, states⟩, last, fun none covered => empty none ?_⟩
      intro entry at_entry same_dir
      have named := covered entry (removal.sublist.subset at_entry) same_dir
      have left := removal.free consistent entry at_entry same_dir
      exact (mem_cons.mp named).resolve_left left

/-- A directory that `zfs_purgedir` has emptied can be deleted. -/
theorem Consistent.zfsPurgedir (consistent : fs.Consistent)
    (gone : ∃ znode, fs.znode zp = some znode ∧ znode.zUnlinked = true)
    (assigned : Name → Bool) :
    (∀ next ∈ (fs.zfsPurgedir zp assigned).1, next.Consistent) ∧
    ((fs.zfsPurgedir zp assigned).2 = 0 →
      (((fs.zfsPurgedir zp assigned).1.getLastD fs).rmnodeFinal zp).Consistent) := by
  obtain ⟨states, ⟨last, at_last, still⟩, empty⟩ :
      _ ∧ _ ∧ ((fs.zfsPurgedir zp assigned).2 = 0 → _) := consistent.purgeNames gone
  refine ⟨states, fun none => Consistent.rmnodeFinal ?_ at_last still (empty none ?_)⟩
  · have mem : (fs.zfsPurgedir zp assigned).1.getLastD fs ∈ fs :: (fs.zfsPurgedir zp assigned).1 :=
      getLastD_mem_cons
    rcases mem_cons.mp mem with same | mem
    · exact (congrArg Zfsvfs.Consistent same).mpr consistent
    · exact states _ mem
  · intro entry mem at_dzp
    exact mem_map_of_mem (mem_filter.mpr ⟨mem, decide_eq_true at_dzp⟩)

theorem Consistent.zfsZinactive (consistent : fs.Consistent) {assigned : Name → Bool}
    (mem : next ∈ fs.zfsZinactive zp assigned) : next.Consistent := by
  rw [Zfsvfs.zfsZinactive] at mem
  split at mem
  · rename_i unlinked
    obtain ⟨znode, at_zp, gone⟩ := (any_eq_true _ _).mp unlinked
    rw [zfsRmnode] at mem
    split at mem
    · obtain ⟨states, deleted⟩ := consistent.zfsPurgedir ⟨znode, at_zp, gone⟩ assigned
      dsimp only at mem
      split at mem
      · exact states next mem
      · rename_i none
        rcases mem_append.mp mem with mem | mem
        · exact states next mem
        · exact mem_singleton.mp mem ▸ deleted (not_not.mp none)
    · rename_i other
      rw [mem_singleton] at mem
      subst mem
      refine consistent.rmnodeFinal at_zp gone (entries_eq_zero_iff.mpr fun entry mem at_dzp => ?_)
      obtain ⟨dir, at_dir, is_dir, is_xattr⟩ := consistent.placed.directory entry mem
      rw [at_dzp] at at_dir
      obtain rfl : dir = znode := mem_unique at_dir at_zp
      exact other (by simp [Zfsvfs.isDir, Zfsvfs.isXattr, at_zp, is_dir, is_xattr gone])
  · cases mem

omit [DecidableEq Name] in
theorem consistent_zfsCreateFs {root : ℕ} (nonzero : root ≠ 0) :
    (zfsCreateFs root : Zfsvfs Name).Consistent := by
  have at_iff (zp : ℕ) (znode : Znode) : (zfsCreateFs root : Zfsvfs Name).znode zp = some znode ↔
      zp = root ∧ znode = ⟨.vdir, false, false, 2, 2, root, 0⟩ := by
    simp only [zfsCreateFs, Function.update_apply]
    grind
  refine ⟨⟨⟨_, (at_iff root _).mpr ⟨rfl, rfl⟩, rfl, rfl, rfl⟩, ?_, ?_, ?_, ?_, nodup_nil, ?_⟩,
    ⟨Pairwise.nil, nofun, nofun, nofun⟩, ?_⟩
  · simp [zfsCreateFs, nonzero.symm]
  · intro zp znode at_ has
    obtain ⟨rfl, rfl⟩ := (at_iff zp znode).mp at_
    exact absurd rfl has
  · intro zp first other second at_zp at_other
    rw [at_iff] at at_zp at_other
    exact fun _ _ => at_zp.1.trans at_other.1.symm
  · intro zp znode at_ _ is_xattr
    obtain ⟨rfl, rfl⟩ := (at_iff zp znode).mp at_
    cases is_xattr
  · intro zp
    simp only [at_iff]
    constructor
    · exact nofun
    · rintro ⟨znode, ⟨-, rfl⟩, unlinked⟩
      cases unlinked
  · intro zp znode at_
    obtain ⟨rfl, rfl⟩ := (at_iff zp znode).mp at_
    constructor <;>
      simp [names, entries, subdirs, zfsCreateFs, Znode.isDir]

/-- A call of an operation, with what the rest of the code decides. -/
inductive Call (Name : Type) where
  | create (dzp : ℕ) (name : Name) (vaType : Vtype) (obj : ℕ)
  | mkdir (dzp : ℕ) (name : Name) (obj : ℕ)
  | symlink (dzp : ℕ) (name : Name) (obj : ℕ)
  | makeXattrdir (zp obj : ℕ)
  | link (tdzp szp : ℕ) (name : Name)
  | remove (dzp : ℕ) (name : Name) (mayDeleteNow : Bool)
  | rmdir (dzp : ℕ) (name : Name)
  | rename (sdzp : ℕ) (snm : Name) (tdzp : ℕ) (tnm : Name) (zfsRenameLock : ℕ)
  | inactive (zp : ℕ) (assigned : Name → Bool)

namespace Call

/-- The states after the transactions of a call. -/
def states (fs : Zfsvfs Name) : Call Name → List (Zfsvfs Name)
  | create dzp name vaType obj => (fs.zfsCreate dzp name vaType obj).toOption.toList
  | mkdir dzp name obj => (fs.zfsMkdir dzp name obj).toOption.toList
  | symlink dzp name obj => (fs.zfsSymlink dzp name obj).toOption.toList
  | makeXattrdir zp obj => (fs.zfsMakeXattrdir zp obj).toOption.toList
  | link tdzp szp name => (fs.zfsLink tdzp szp name).toOption.toList
  | remove dzp name mayDeleteNow => (fs.zfsRemove dzp name mayDeleteNow).toOption.toList
  | rmdir dzp name => (fs.zfsRmdir dzp name).toOption.toList
  | rename sdzp snm tdzp tnm lock => (fs.zfsRename sdzp snm tdzp tnm lock).toOption.toList
  | inactive zp assigned => fs.zfsZinactive zp assigned

/-- The object that a call makes. -/
def newObject : Call Name → Option ℕ
  | create _ _ _ obj | mkdir _ _ obj | symlink _ _ obj | makeXattrdir _ obj => some obj
  | _ => none

end Call

/-- The runs of a file system: a step is a transaction. -/
def system (Name : Type) [DecidableEq Name] : TransitionSystem (Zfsvfs Name) (Call Name) where
  Start fs := ∃ root, root ≠ 0 ∧ fs = zfsCreateFs root
  Step fs call next := next ∈ call.states fs ∧
    ∀ obj, call.newObject = some obj → obj ≠ 0 ∧ fs.znode obj = none

omit [DecidableEq Name] in
theorem ok_of_mem {result : Except ℕ (Zfsvfs Name)} (mem : next ∈ result.toOption.toList) :
    result = .ok next := by
  cases result with
  | error error => cases mem
  | ok after => exact congrArg _ (mem_singleton.mp mem).symm

theorem Consistent.step {call : Call Name} (consistent : fs.Consistent)
    (step : (system Name).Step fs call next) : next.Consistent := by
  obtain ⟨mem, new⟩ := step
  cases call with
  | create dzp name vaType obj =>
    exact consistent.zfsCreate (new obj rfl).2 (new obj rfl).1 (ok_of_mem mem)
  | mkdir dzp name obj => exact consistent.zfsMkdir (new obj rfl).2 (new obj rfl).1 (ok_of_mem mem)
  | symlink dzp name obj =>
    exact consistent.zfsSymlink (new obj rfl).2 (new obj rfl).1 (ok_of_mem mem)
  | makeXattrdir zp obj =>
    exact consistent.makeXattrdir (new obj rfl).2 (new obj rfl).1 (ok_of_mem mem)
  | link tdzp szp name => exact consistent.zfsLink (ok_of_mem mem)
  | remove dzp name mayDeleteNow => exact consistent.zfsRemove (ok_of_mem mem)
  | rmdir dzp name => exact consistent.zfsRmdir (ok_of_mem mem)
  | rename sdzp snm tdzp tnm lock => exact consistent.zfsRename (ok_of_mem mem)
  | inactive zp assigned => exact consistent.zfsZinactive mem

theorem consistent_of_reachable (reachable : (system Name).Reachable fs) : fs.Consistent :=
  reachable.invariant (fun _ ⟨_, nonzero, created⟩ => created ▸ consistent_zfsCreateFs nonzero)
    fun _ _ _ consistent step => consistent.step step

/-- The root, an object with a name, or an attribute directory. -/
def Linked (fs : Zfsvfs Name) (zp : ℕ) : Prop :=
  zp = fs.zRoot ∨ (∃ entry ∈ fs.dirents, entry.zp = zp) ∨
    ∃ owner znode, fs.znode owner = some znode ∧ znode.zpXattr = zp

omit [DecidableEq Name] in
theorem Consistent.zUnlinked_of_linked {znode : Znode} (consistent : fs.Consistent)
    (at_zp : fs.znode zp = some znode) (linked : fs.Linked zp) : znode.zUnlinked = false := by
  rcases linked with rfl | ⟨entry, mem, rfl⟩ | ⟨owner, other, at_owner, rfl⟩
  · obtain ⟨root, at_root, -, -, is_linked⟩ := consistent.shaped.root
    exact mem_unique at_root at_zp ▸ is_linked
  · obtain ⟨object, at_object, is_linked⟩ := consistent.placed.object entry mem
    exact mem_unique at_object at_zp ▸ is_linked
  · have has : other.zpXattr ≠ 0 := by
      intro none
      rw [none, consistent.shaped.zero] at at_zp
      cases at_zp
    obtain ⟨xattr, at_xattr, -, -, is_linked⟩ := consistent.shaped.xattr owner other at_owner has
    exact mem_unique at_xattr at_zp ▸ is_linked

omit [DecidableEq Name] in
/-- The objects that are marked for deletion are those without links. -/
theorem Consistent.zUnlinked_iff {znode : Znode} (consistent : fs.Consistent)
    (at_zp : fs.znode zp = some znode) : znode.zUnlinked = true ↔ znode.zpLinks = 0 := by
  have counted := consistent.counted zp znode at_zp
  have links := counted.links
  constructor
  · intro unlinked
    rw [links, if_pos unlinked]
  · intro none
    by_contra linked
    rw [none, if_neg linked] at links
    split at links
    · omega
    · rename_i is_dir
      have named := counted.named (Bool.not_eq_true _ ▸ is_dir) (Bool.not_eq_true _ ▸ linked)
      omega

theorem exists_new_file : ∃ made : Zfsvfs ℕ,
    (zfsCreateFs 1).zfsCreate 1 0 .vreg 2 = .ok made ∧ (system ℕ).Reachable made := by
  have start : (system ℕ).Reachable (zfsCreateFs 1) := .start ⟨1, by decide, rfl⟩
  refine ⟨_, rfl, start.take (.create 1 0 .vreg 2) ⟨mem_singleton_self _, ?_⟩⟩
  rintro obj ⟨⟩
  exact ⟨by decide, rfl⟩

end Zfsvfs

end Zfs.Links
