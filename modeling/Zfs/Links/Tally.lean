import Zfs.Links.Code
import Zfs.Library.TransitionSystem

/-!
# Counts of links

The numbers of entries that the counts in the znodes stand for, and what the changes of the
operations do to them.
-/

namespace Zfs.Links

open List

namespace Zfsvfs

variable {Name : Type} (fs : Zfsvfs Name)

/-- The number of entries that name an object. -/
def names (zp : ℕ) : ℕ := fs.dirents.countP fun entry => decide (entry.zp = zp)

/-- The number of entries of a directory. -/
def entries (dzp : ℕ) : ℕ := fs.dirents.countP fun entry => decide (entry.dzp = dzp)

/-- The number of subdirectories of a directory. -/
def subdirs (dzp : ℕ) : ℕ :=
  fs.dirents.countP fun entry => decide (entry.dzp = dzp) && fs.isDir entry.zp

/-- The extended attribute directories, and the objects that have no links. -/
structure Shaped : Prop where
  /-- The root is a directory that stays. -/
  root : ∃ znode, fs.znode fs.zRoot = some znode ∧ znode.isDir = true ∧ znode.isXattr = false ∧
    znode.zUnlinked = false
  /-- No object has the number zero. -/
  zero : fs.znode 0 = none
  /-- An attribute directory exists. -/
  xattr : ∀ zp znode, fs.znode zp = some znode → znode.zpXattr ≠ 0 →
    ∃ xattr, fs.znode znode.zpXattr = some xattr ∧ xattr.isDir = true ∧ xattr.isXattr = true ∧
    xattr.zUnlinked = false
  /-- It belongs to one object. -/
  owner : ∀ zp first other second, fs.znode zp = some first → fs.znode other = some second →
    first.zpXattr ≠ 0 → first.zpXattr = second.zpXattr → zp = other
  /-- Every one belongs to an object. -/
  owned : ∀ zp znode, fs.znode zp = some znode → znode.isDir = true → znode.isXattr = true →
    znode.zUnlinked = false → ∃ owner other, fs.znode owner = some other ∧ other.zpXattr = zp
  /-- No object is to be deleted twice. -/
  nodup : fs.zUnlinkedobj.Nodup
  /-- The objects to be deleted are marked. -/
  unlinked : ∀ zp, zp ∈ fs.zUnlinkedobj ↔
    ∃ znode, fs.znode zp = some znode ∧ znode.zUnlinked = true

/-- The entries: one for a name in a directory, of objects that have links. -/
structure Placed : Prop where
  /-- A name in a directory has one entry. -/
  keys : fs.dirents.Pairwise fun entry other => entry.dzp = other.dzp → entry.name ≠ other.name
  /-- An entry is in a directory. -/
  directory : ∀ entry ∈ fs.dirents, ∃ znode, fs.znode entry.dzp = some znode ∧
    znode.isDir = true ∧ (znode.zUnlinked = true → znode.isXattr = true)
  /-- It is that of an object that stays. -/
  object : ∀ entry ∈ fs.dirents, ∃ znode, fs.znode entry.zp = some znode ∧
    znode.zUnlinked = false
  /-- Attribute directories have no subdirectories. -/
  space : ∀ entry ∈ fs.dirents, fs.isDir entry.zp = true → fs.isXattr entry.dzp = false

/-- The counts of a znode are the numbers of entries. -/
structure Counted (zp : ℕ) (znode : Znode) : Prop where
  /-- A directory has one name. -/
  single : znode.isDir = true → fs.names zp =
    if zp = fs.zRoot ∨ znode.isXattr = true ∨ znode.zUnlinked = true then 0 else 1
  /-- The links are the names, or the subdirectories. -/
  links : znode.zpLinks =
    if znode.zUnlinked then 0 else if znode.isDir then fs.subdirs zp + 2 else fs.names zp
  /-- Another object that stays has a name. -/
  named : znode.isDir = false → znode.zUnlinked = false → 0 < fs.names zp
  /-- A directory counts its entries. -/
  size : znode.isDir = true → znode.zpSize = fs.entries zp + 2

/-- The state of a file system between transactions. -/
structure Consistent : Prop where
  shaped : fs.Shaped
  placed : fs.Placed
  counted : ∀ zp znode, fs.znode zp = some znode → fs.Counted zp znode

variable {fs} {larger smaller next : Zfsvfs Name} {entry : Dirent Name}

section

variable (perm : larger.dirents.Perm (entry :: smaller.dirents))

include perm

theorem names_of_perm (zp : ℕ) :
    larger.names zp = smaller.names zp + if entry.zp = zp then 1 else 0 := by
  simp [names, perm.countP_eq, countP_cons]

theorem entries_of_perm (dzp : ℕ) :
    larger.entries dzp = smaller.entries dzp + if entry.dzp = dzp then 1 else 0 := by
  simp [entries, perm.countP_eq, countP_cons]

/-- An entry more may be a subdirectory more. -/
theorem subdirs_of_perm
    (same : ∀ other ∈ smaller.dirents, larger.isDir other.zp = smaller.isDir other.zp) (dzp : ℕ) :
    larger.subdirs dzp = smaller.subdirs dzp +
      if entry.dzp = dzp then (larger.isDir entry.zp).toNat else 0 := by
  have smaller_eq : (smaller.dirents.countP fun other =>
      decide (other.dzp = dzp) && larger.isDir other.zp) = smaller.subdirs dzp :=
    countP_congr fun other mem => by rw [same other mem]
  rw [subdirs, perm.countP_eq, countP_cons, smaller_eq]
  by_cases at_ : entry.dzp = dzp <;> cases larger.isDir entry.zp <;> simp [at_]

end

theorem names_eq_zero_iff {zp : ℕ} : fs.names zp = 0 ↔ ∀ entry ∈ fs.dirents, entry.zp ≠ zp := by
  simp [names, countP_eq_zero]

theorem entries_eq_zero_iff {dzp : ℕ} :
    fs.entries dzp = 0 ↔ ∀ entry ∈ fs.dirents, entry.dzp ≠ dzp := by
  simp [entries, countP_eq_zero]

theorem names_pos (mem : entry ∈ fs.dirents) : 0 < fs.names entry.zp :=
  Nat.pos_of_ne_zero fun none => names_eq_zero_iff.mp none entry mem rfl

theorem entries_pos (mem : entry ∈ fs.dirents) : 0 < fs.entries entry.dzp :=
  Nat.pos_of_ne_zero fun none => entries_eq_zero_iff.mp none entry mem rfl

theorem subdirs_le_entries (dzp : ℕ) : fs.subdirs dzp ≤ fs.entries dzp :=
  countP_mono_left fun entry _ found => by simp_all

section Lookup

variable [DecidableEq Name] {dzp zp : ℕ} {name : Name}

theorem mem_of_zapLookup (found : fs.zapLookup dzp name = some zp) :
    ⟨dzp, name, zp⟩ ∈ fs.dirents := by
  obtain ⟨⟨dir, label, object⟩, at_, rfl⟩ := Option.map_eq_some_iff.mp found
  have located := find?_some at_
  simp only [Dirent.isAt, Bool.and_eq_true, decide_eq_true_eq] at located
  obtain ⟨rfl, rfl⟩ := located
  exact mem_of_find?_eq_some at_

theorem ne_of_zapLookup (missing : fs.zapLookup dzp name = none) :
    ∀ entry ∈ fs.dirents, entry.dzp = dzp → entry.name ≠ name := by
  intro entry mem at_dir at_name
  have passed := find?_eq_none.mp (Option.map_eq_none_iff.mp missing) entry mem
  exact passed (by simp [Dirent.isAt, at_dir, at_name])

/-- An entry that is removed is the only one that is missing. -/
theorem Placed.perm_zapRemove (placed : fs.Placed) (mem : ⟨dzp, name, zp⟩ ∈ fs.dirents) :
    fs.dirents.Perm (⟨dzp, name, zp⟩ :: (fs.zapRemove dzp name).dirents) := by
  obtain ⟨found, before, after, passed, at_, split, removed⟩ :=
    exists_of_eraseP mem (p := Dirent.isAt dzp name) (by simp [Dirent.isAt])
  have located : found.dzp = dzp ∧ found.name = name := by simpa [Dirent.isAt] using at_
  have keys := placed.keys
  rw [split, pairwise_append, pairwise_cons] at keys
  have same : found = ⟨dzp, name, zp⟩ := by
    rw [split, mem_append, mem_cons] at mem
    rcases mem with mem | same | mem
    · exact absurd (by simp [Dirent.isAt]) (passed _ mem)
    · exact same.symm
    · exact absurd located.2 (keys.2.1.1 _ mem located.1)
  rw [zapRemove, removed, split, same]
  exact perm_middle

end Lookup

/-- What `zfs_link_create` does to the znodes. -/
def gain (zpIsDir : Bool) (dzp zp : ℕ) (zrenaming : Bool) (other : ℕ) (znode : Znode) : Znode :=
  { znode with
    zpLinks := znode.zpLinks + (if other = zp ∧ zrenaming = false then 1 else 0) +
      if other = dzp then zpIsDir.toNat else 0
    zpSize := znode.zpSize + if other = dzp then 1 else 0
    zpParent := if other = zp then dzp else znode.zpParent }

/-- What `zfs_link_destroy` does to the znodes. -/
def lose (zpIsDir : Bool) (dzp zp : ℕ) (zrenaming : Bool) (other : ℕ) (znode : Znode) : Znode :=
  let znode := if other = zp ∧ zrenaming = false then loseLink znode else znode
  { znode with
    zpLinks := znode.zpLinks - if other = dzp then zpIsDir.toNat else 0
    zpSize := znode.zpSize - if other = dzp then 1 else 0 }

/-- A change of the znodes, each one by itself. -/
structure Changed (fs : Zfsvfs Name) (change : ℕ → Znode → Znode) (next : Zfsvfs Name) : Prop where
  znode : ∀ zp, next.znode zp = (fs.znode zp).map (change zp)
  zRoot : next.zRoot = fs.zRoot

section Effects

variable {dzp zp : ℕ} {name : Name} {zrenaming : Bool}

theorem zfsLinkCreate_ok (ok : fs.zfsLinkCreate dzp name zp zrenaming = .ok next) :
    fs.Changed (gain (fs.isDir zp) dzp zp zrenaming) next ∧
    next.dirents = ⟨dzp, name, zp⟩ :: fs.dirents ∧ next.zUnlinkedobj = fs.zUnlinkedobj ∧
    (zrenaming = false → ∀ znode, fs.znode zp = some znode → znode.zUnlinked = false) := by
  rw [zfsLinkCreate] at ok
  split at ok
  · cases ok
  · rename_i linked
    cases ok
    refine ⟨⟨fun other => ?_, rfl⟩, rfl, rfl, fun fresh znode at_ => ?_⟩
    · cases at_ : fs.znode other <;> cases zrenaming <;>
        by_cases at_dzp : other = dzp <;> by_cases at_zp : other = zp <;>
        simp_all [modify, zapAdd, gain, Function.update_apply]
    · simpa [fresh, at_] using linked

variable [DecidableEq Name]

theorem zfsLinkDestroy_ok {unlinked : Bool}
    (ok : fs.zfsLinkDestroy dzp name zp zrenaming = .ok (next, unlinked)) :
    fs.Changed (lose (fs.isDir zp) dzp zp zrenaming) next ∧
    next.dirents = (fs.zapRemove dzp name).dirents ∧ next.zUnlinkedobj = fs.zUnlinkedobj ∧
    (zrenaming = false → ∀ znode, fs.znode zp = some znode → znode.isDir = true →
      znode.zpSize = 2) ∧
    unlinked = (!zrenaming && (fs.znode zp).any fun znode => (loseLink znode).zUnlinked) := by
  rw [zfsLinkDestroy] at ok
  split at ok
  · cases ok
  · rename_i empty
    cases ok
    refine ⟨⟨fun other => ?_, ?_⟩, ?_, ?_, fun lost znode at_ is_dir => ?_, ?_⟩
    · cases at_ : fs.znode other <;> cases zrenaming <;>
        by_cases at_dzp : other = dzp <;> by_cases at_zp : other = zp <;>
        simp_all [modify, zapRemove, lose, Function.update_apply]
    · cases zrenaming <;> rfl
    · cases zrenaming <;> rfl
    · cases zrenaming <;> rfl
    · simpa [lost, at_, is_dir] using empty
    · cases zrenaming <;> cases at_ : fs.znode zp <;> simp [modify, at_]

theorem zfsLinkDestroyNull_ok (ok : fs.zfsLinkDestroyNull dzp name zp zrenaming = .ok next) :
    fs.Changed (lose (fs.isDir zp) dzp zp zrenaming) next ∧
    next.dirents = (fs.zapRemove dzp name).dirents ∧
    (next.zUnlinkedobj =
      if !zrenaming && (fs.znode zp).any fun znode => (loseLink znode).zUnlinked then
        zp :: fs.zUnlinkedobj
      else fs.zUnlinkedobj) ∧
    (zrenaming = false → ∀ znode, fs.znode zp = some znode → znode.isDir = true →
      znode.zpSize = 2) := by
  rw [zfsLinkDestroyNull] at ok
  split at ok
  · cases ok
  · rename_i after unlinked destroyed
    obtain ⟨changed, dirents, set, empty, rfl⟩ := zfsLinkDestroy_ok destroyed
    cases ok
    split
    · exact ⟨⟨changed.znode, changed.zRoot⟩, dirents, congrArg (zp :: ·) set, empty⟩
    · exact ⟨changed, dirents, set, empty⟩

end Effects

/-- A znode with the same type, place and extended attributes. -/
structure Alike (first second : Znode) : Prop where
  vType : second.vType = first.vType
  isXattr : second.isXattr = first.isXattr
  zpXattr : second.zpXattr = first.zpXattr

theorem Alike.isDir {first second : Znode} (alike : Alike first second) :
    second.isDir = first.isDir := by
  rw [Znode.isDir, Znode.isDir, alike.vType]

theorem alike_gain (zpIsDir : Bool) (dzp zp : ℕ) (zrenaming : Bool) (other : ℕ) (znode : Znode) :
    Alike znode (gain zpIsDir dzp zp zrenaming other znode) := ⟨rfl, rfl, rfl⟩

theorem alike_loseLink (znode : Znode) : Alike znode (loseLink znode) := by
  have split (low last : Prop) [Decidable low] [Decidable last] (zpLinks : ℕ) :
      Alike znode (if last then { znode with zUnlinked := true, zpLinks := 0 }
        else { znode with zpLinks }) := by
    split <;> exact ⟨rfl, rfl, rfl⟩
  exact split (znode.zpLinks ≤ znode.isDir.toNat) _ _

theorem alike_lose (zpIsDir : Bool) (dzp zp : ℕ) (zrenaming : Bool) (other : ℕ) (znode : Znode) :
    Alike znode (lose zpIsDir dzp zp zrenaming other znode) := by
  rw [lose]
  split
  · exact ⟨(alike_loseLink znode).vType, (alike_loseLink znode).isXattr,
      (alike_loseLink znode).zpXattr⟩
  · exact ⟨rfl, rfl, rfl⟩

/-- The objects of the entries in a file system with other entries. -/
abbrev withDirents (fs : Zfsvfs Name) (dirents : List (Dirent Name)) : Zfsvfs Name :=
  { fs with dirents }

theorem Placed.sublist (placed : fs.Placed) {dirents : List (Dirent Name)}
    (sub : dirents.Sublist fs.dirents) : (fs.withDirents dirents).Placed where
  keys := placed.keys.sublist sub
  directory := fun entry mem => placed.directory entry (sub.subset mem)
  object := fun entry mem => placed.object entry (sub.subset mem)
  space := fun entry mem => placed.space entry (sub.subset mem)

theorem Placed.cons (placed : fs.Placed)
    (free : ∀ other ∈ fs.dirents, other.dzp = entry.dzp → other.name ≠ entry.name)
    (directory : ∃ znode, fs.znode entry.dzp = some znode ∧ znode.isDir = true ∧
      (znode.zUnlinked = true → znode.isXattr = true))
    (object : ∃ znode, fs.znode entry.zp = some znode ∧ znode.zUnlinked = false)
    (space : fs.isDir entry.zp = true → fs.isXattr entry.dzp = false) :
    (fs.withDirents (entry :: fs.dirents)).Placed where
  keys := pairwise_cons.mpr
    ⟨fun other mem same => (free other mem same.symm).symm, placed.keys⟩
  directory := forall_mem_cons.mpr ⟨directory, placed.directory⟩
  object := forall_mem_cons.mpr ⟨object, placed.object⟩
  space := forall_mem_cons.mpr ⟨space, placed.space⟩

theorem Placed.transfer (placed : (fs.withDirents next.dirents).Placed)
    (directory : ∀ entry ∈ next.dirents, ∀ dir, fs.znode entry.dzp = some dir →
      ∃ later, next.znode entry.dzp = some later ∧ later.isDir = dir.isDir ∧
      later.isXattr = dir.isXattr ∧
      (later.zUnlinked = true → dir.zUnlinked = true ∨ dir.isXattr = true))
    (object : ∀ entry ∈ next.dirents, ∀ znode, fs.znode entry.zp = some znode →
      ∃ later, next.znode entry.zp = some later ∧ later.isDir = znode.isDir ∧
      later.zUnlinked = znode.zUnlinked) : next.Placed where
  keys := placed.keys
  directory := by
    intro entry mem
    obtain ⟨dir, at_, is_dir, is_linked⟩ := placed.directory entry mem
    obtain ⟨later, at_later, kind, space, unlinked⟩ := directory entry mem dir at_
    exact ⟨later, at_later, kind.trans is_dir,
      fun gone => space.trans ((unlinked gone).elim is_linked id)⟩
  object := by
    intro entry mem
    obtain ⟨znode, at_, is_linked⟩ := placed.object entry mem
    obtain ⟨later, at_later, -, same⟩ := object entry mem znode at_
    exact ⟨later, at_later, same.trans is_linked⟩
  space := by
    intro entry mem is_dir
    obtain ⟨dir, at_dir, -⟩ := placed.directory entry mem
    obtain ⟨znode, at_, -⟩ := placed.object entry mem
    obtain ⟨dir', at_dir', -, space, -⟩ := directory entry mem dir at_dir
    obtain ⟨znode', at_', kind, -⟩ := object entry mem znode at_
    have outside := placed.space entry mem
    change fs.znode _ = _ at at_ at_dir
    simp only [Zfsvfs.isDir, isXattr, at_, at_dir, at_', at_dir', Option.any_some, kind, space]
      at outside is_dir ⊢
    exact outside is_dir

section Changes

variable {change : ℕ → Znode → Znode} (changed : fs.Changed change next)

include changed

theorem Changed.of_some {zp : ℕ} {znode : Znode}
    (at_ : fs.znode zp = some znode) : next.znode zp = some (change zp znode) := by
  rw [changed.znode, at_, Option.map_some]

theorem Changed.exists_of_some {zp : ℕ} {znode : Znode}
    (at_ : next.znode zp = some znode) :
    ∃ before, fs.znode zp = some before ∧ znode = change zp before := by
  rw [changed.znode] at at_
  obtain ⟨before, at_before, rfl⟩ := Option.map_eq_some_iff.mp at_
  exact ⟨before, at_before, rfl⟩

variable (alike : ∀ zp znode, Alike znode (change zp znode))

include alike

/-- A change that keeps what the znodes are keeps the directories. -/
theorem Changed.isDir (zp : ℕ) : next.isDir zp = fs.isDir zp := by
  rw [Zfsvfs.isDir, Zfsvfs.isDir, changed.znode, Option.any_map]
  cases fs.znode zp with
  | none => rfl
  | some znode => exact (alike zp znode).isDir

variable {lost : ℕ} {last : Bool} (linked : ∀ zp znode, fs.znode zp = some znode →
  (change zp znode).zUnlinked = (znode.zUnlinked || (last && decide (zp = lost))))

include linked

/-- A change that keeps the znodes and their links, but for one that may lose its last. -/
theorem Changed.shaped
    (set : next.zUnlinkedobj = if last then lost :: fs.zUnlinkedobj else fs.zUnlinkedobj)
    (losing : last = true → lost ≠ fs.zRoot ∧ ∃ znode, fs.znode lost = some znode ∧
      znode.zUnlinked = false ∧ (znode.isDir = true → znode.isXattr = false))
    (shaped : fs.Shaped) : next.Shaped where
  root := by
    obtain ⟨znode, at_, is_dir, is_xattr, is_linked⟩ := shaped.root
    refine ⟨change fs.zRoot znode, ?_, ?_, ?_, ?_⟩
    · rw [changed.zRoot, changed.of_some at_]
    · rw [(alike _ _).isDir, is_dir]
    · rw [(alike _ _).isXattr, is_xattr]
    · rw [linked _ _ at_, is_linked]
      cases last with
      | false => rfl
      | true => simpa using (losing rfl).1.symm
  zero := by rw [changed.znode, shaped.zero, Option.map_none]
  xattr := by
    intro zp znode at_ has
    obtain ⟨before, at_before, rfl⟩ := changed.exists_of_some at_
    rw [(alike _ _).zpXattr] at has ⊢
    obtain ⟨xattr, at_xattr, is_dir, is_xattr, is_linked⟩ := shaped.xattr zp before at_before has
    refine ⟨_, changed.of_some at_xattr, ?_, ?_, ?_⟩
    · rw [(alike _ _).isDir, is_dir]
    · rw [(alike _ _).isXattr, is_xattr]
    · rw [linked _ _ at_xattr, is_linked]
      cases last with
      | false => rfl
      | true =>
        obtain ⟨-, znode, at_lost, -, no_xattr⟩ := losing rfl
        grind
  owner := by
    intro zp first other second at_zp at_other has same
    obtain ⟨first, at_first, rfl⟩ := changed.exists_of_some at_zp
    obtain ⟨second, at_second, rfl⟩ := changed.exists_of_some at_other
    rw [(alike _ _).zpXattr] at has same
    rw [(alike _ _).zpXattr] at same
    exact shaped.owner zp first other second at_first at_second has same
  owned := by
    intro zp znode at_ is_dir is_xattr is_linked
    obtain ⟨before, at_before, rfl⟩ := changed.exists_of_some at_
    rw [(alike _ _).isDir] at is_dir
    rw [(alike _ _).isXattr] at is_xattr
    rw [linked _ _ at_before, Bool.or_eq_false_iff] at is_linked
    obtain ⟨owner, other, at_owner, owns⟩ :=
      shaped.owned zp before at_before is_dir is_xattr is_linked.1
    exact ⟨owner, _, changed.of_some at_owner, (alike _ _).zpXattr.trans owns⟩
  nodup := by
    rw [set]
    cases last with
    | false => exact shaped.nodup
    | true =>
      obtain ⟨-, znode, at_lost, is_linked, -⟩ := losing rfl
      refine nodup_cons.mpr ⟨fun mem => ?_, shaped.nodup⟩
      obtain ⟨znode, at_, unlinked⟩ := (shaped.unlinked lost).mp mem
      grind
  unlinked := by
    intro zp
    have mem_iff : zp ∈ next.zUnlinkedobj ↔ zp ∈ fs.zUnlinkedobj ∨ last = true ∧ zp = lost := by
      rw [set]
      cases last <;> simp [or_comm]
    rw [mem_iff, shaped.unlinked]
    constructor
    · rintro (⟨znode, at_, unlinked⟩ | ⟨is_last, rfl⟩)
      · exact ⟨_, changed.of_some at_, by rw [linked _ _ at_, unlinked]; rfl⟩
      · obtain ⟨-, znode, at_, -⟩ := losing is_last
        exact ⟨_, changed.of_some at_, by simp [linked _ _ at_, is_last]⟩
    · rintro ⟨znode, at_, unlinked⟩
      obtain ⟨before, at_before, rfl⟩ := changed.exists_of_some at_
      rw [linked _ _ at_before, Bool.or_eq_true, Bool.and_eq_true, decide_eq_true_eq] at unlinked
      exact unlinked.imp_left fun gone => ⟨before, at_before, gone⟩

/-- A change that keeps the znodes and their links, but for one that has no entry. -/
theorem Changed.placed
    (losing : last = true → ∀ entry ∈ next.dirents, entry.zp ≠ lost ∧ entry.dzp ≠ lost)
    (placed : (fs.withDirents next.dirents).Placed) : next.Placed := by
  refine placed.transfer (fun entry mem dir at_ => ?_) fun entry mem znode at_ => ?_
  · refine ⟨_, changed.of_some at_, (alike _ _).isDir, (alike _ _).isXattr, fun unlinked => ?_⟩
    rw [linked _ _ at_, Bool.or_eq_true, Bool.and_eq_true, decide_eq_true_eq] at unlinked
    exact .inl (unlinked.resolve_right fun gone => (losing gone.1 entry mem).2 gone.2)
  · refine ⟨_, changed.of_some at_, (alike _ _).isDir, ?_⟩
    rw [linked _ _ at_]
    cases last with
    | false => exact Bool.or_false _
    | true => simp [(losing rfl entry mem).1]

end Changes

end Zfsvfs

end Zfs.Links
