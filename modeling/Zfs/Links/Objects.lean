import Zfs.Links.Names

/-!
# Objects that come and go

An object that is made with its first name, an extended attribute directory and an object that is
deleted keep a file system consistent.
-/

namespace Zfs.Links.Zfsvfs

open Option

variable {Name : Type} {fs next : Zfsvfs Name} {dzp zp : ℕ} {name : Name}

section Make

variable {obj : ℕ} {vaType : Vtype} {flag : Bool}

theorem znode_zfsMknode (other : ℕ) : (fs.zfsMknode dzp obj vaType flag).znode other =
    if other = obj then some (newZnode dzp vaType (fs.isXattr dzp || flag))
    else fs.znode other := by
  simp only [zfsMknode, Function.update_apply]

theorem znode_zfsMknode_of_some (fresh : fs.znode obj = none) {other : ℕ} {znode : Znode}
    (at_ : fs.znode other = some znode) :
    (fs.zfsMknode dzp obj vaType flag).znode other = some znode := by
  rw [znode_zfsMknode, if_neg (by rintro rfl; rw [fresh] at at_; cases at_), at_]

theorem Shaped.zfsMknode (shaped : fs.Shaped) (fresh : fs.znode obj = none) (nonzero : obj ≠ 0)
    (space : vaType = .vdir → fs.isXattr dzp = false) :
    (fs.zfsMknode dzp obj vaType false).Shaped where
  root := by
    obtain ⟨znode, at_, facts⟩ := shaped.root
    exact ⟨znode, znode_zfsMknode_of_some fresh at_, facts⟩
  zero := by rw [znode_zfsMknode, if_neg nonzero.symm, shaped.zero]
  xattr := by
    intro zp znode at_ has
    rw [znode_zfsMknode] at at_
    split at at_
    · cases at_
      exact absurd rfl has
    · obtain ⟨xattr, at_xattr, facts⟩ := shaped.xattr zp znode at_ has
      exact ⟨xattr, znode_zfsMknode_of_some fresh at_xattr, facts⟩
  owner := by
    intro zp first other second at_zp at_other has same
    rw [znode_zfsMknode] at at_zp at_other
    have := shaped.owner zp first other second
    grind [newZnode]
  owned := by
    intro zp znode at_ is_dir is_xattr is_linked
    rw [znode_zfsMknode] at at_
    split at at_
    · cases at_
      simp_all [newZnode, Znode.isDir]
    · obtain ⟨owner, other, at_owner, owns⟩ := shaped.owned zp znode at_ is_dir is_xattr is_linked
      exact ⟨owner, other, znode_zfsMknode_of_some fresh at_owner, owns⟩
  nodup := shaped.nodup
  unlinked := by
    intro zp
    have was := shaped.unlinked zp
    simp only [znode_zfsMknode]
    grind [newZnode, zfsMknode]

section

variable (placed : fs.Placed) (fresh : fs.znode obj = none)

include placed fresh

theorem Placed.zfsMknode :
    (fs.zfsMknode dzp obj vaType flag).Placed :=
  @Placed.transfer Name fs _ placed
    (fun _ _ dir at_ => ⟨dir, znode_zfsMknode_of_some fresh at_, rfl, rfl, .inl⟩)
    fun _ _ znode at_ => ⟨znode, znode_zfsMknode_of_some fresh at_, rfl, rfl⟩

theorem Placed.counts_of_none :
    fs.names obj = 0 ∧ fs.entries obj = 0 ∧ fs.subdirs obj = 0 := by
  have entries : fs.entries obj = 0 := entries_eq_zero_iff.mpr fun entry mem at_ => by
    obtain ⟨dir, at_dir, -⟩ := placed.directory entry mem
    rw [at_, fresh] at at_dir
    cases at_dir
  refine ⟨names_eq_zero_iff.mpr fun entry mem at_ => ?_, entries, ?_⟩
  · obtain ⟨znode, at_znode, -⟩ := placed.object entry mem
    rw [at_, fresh] at at_znode
    cases at_znode
  · exact Nat.le_zero.mp (entries ▸ subdirs_le_entries obj)

theorem Placed.isDir_zfsMknode (entry : Dirent Name) (mem : entry ∈ fs.dirents) :
    (fs.zfsMknode dzp obj vaType flag).isDir entry.zp = fs.isDir entry.zp := by
  obtain ⟨znode, at_, -⟩ := placed.object entry mem
  simp only [Zfsvfs.isDir, at_, znode_zfsMknode_of_some fresh at_]

end

theorem Consistent.make (consistent : fs.Consistent) {dir : Znode} (room : fs.Room dzp name dir)
    (fresh : fs.znode obj = none) (nonzero : obj ≠ 0)
    (space : vaType = .vdir → fs.isXattr dzp = false)
    (ok : (fs.zfsMknode dzp obj vaType false).zfsLinkCreate dzp name obj false = .ok next) :
    next.Consistent := by
  obtain ⟨shaped, placed, counted⟩ := consistent
  obtain ⟨changed, dirents, set, -⟩ := zfsLinkCreate_ok ok
  have made : (fs.zfsMknode dzp obj vaType false).znode obj =
      some (newZnode dzp vaType (fs.isXattr dzp || false)) := by
    rw [znode_zfsMknode, if_pos rfl]
  have alike := alike_gain ((fs.zfsMknode dzp obj vaType false).isDir obj) dzp obj false
  have unlinked := zUnlinked_gain (fs.zfsMknode dzp obj vaType false) dzp obj
    ((fs.zfsMknode dzp obj vaType false).isDir obj) false
  have made_room : (fs.zfsMknode dzp obj vaType false).Room dzp name dir :=
    { room with at_dzp := znode_zfsMknode_of_some fresh room.at_dzp }
  refine
    { shaped := changed.shaped alike unlinked set Bool.false_ne_true.elim
        (shaped.zfsMknode fresh nonzero space)
      placed := changed.placed alike unlinked Bool.false_ne_true.elim ?_
      counted := fun other found at_ => ?_ }
  · rw [dirents]
    refine made_room.placed (placed.zfsMknode fresh) made rfl fun is_dir => ?_
    have outside := space (by simpa [newZnode, Znode.isDir] using is_dir)
    rwa [isXattr, room.at_dzp, any_some] at outside
  · obtain ⟨before, at_before, rfl⟩ := changed.exists_of_some at_
    have perm : next.dirents.Perm (⟨dzp, name, obj⟩ :: fs.dirents) := dirents ▸ List.Perm.refl _
    have names := names_of_perm perm other
    have entries := entries_of_perm perm other
    have subdirs := subdirs_of_perm perm (fun entry mem =>
      (changed.isDir alike entry.zp).trans (placed.isDir_zfsMknode fresh entry mem)) other
    rw [changed.isDir alike] at subdirs
    rw [znode_zfsMknode] at at_before
    split at at_before
    · rename_i is_new
      subst is_new
      cases at_before
      obtain ⟨no_names, no_entries, no_subdirs⟩ := placed.counts_of_none fresh
      obtain ⟨root, at_root, -⟩ := shaped.root
      have apart : other ≠ dzp := by
        rintro rfl
        exact some_ne_none _ (room.at_dzp.symm.trans fresh)
      have not_root : other ≠ next.zRoot := by
        intro is_root
        have same : other = fs.zRoot := is_root.trans changed.zRoot
        exact some_ne_none _ (at_root.symm.trans (same ▸ fresh))
      rw [no_names, if_pos rfl] at names
      rw [no_entries, if_neg apart.symm] at entries
      rw [no_subdirs, if_neg apart.symm] at subdirs
      by_cases is_dir : vaType = .vdir
      · constructor <;> simp [gain, newZnode, Znode.isDir, is_dir, space is_dir, not_root, names,
          entries, subdirs, apart]
      · constructor <;> simp [gain, newZnode, Znode.isDir, is_dir, names, apart]
    · rename_i is_old
      refine (counted other before at_before).added changed.zRoot names entries subdirs ?_
        fun is_new => absurd is_new is_old
      rintro rfl
      obtain rfl : dir = before := mem_unique room.at_dzp at_before
      exact ⟨room.isDir, room.linked⟩

/-- A new extended attribute directory of an object that has none. -/
theorem Shaped.zfsMakeXattrdir (shaped : fs.Shaped) {znode : Znode}
    (at_zp : fs.znode zp = some znode) (none_yet : znode.zpXattr = 0)
    (fresh : fs.znode obj = none) (nonzero : obj ≠ 0)
    (made : ∀ other, next.znode other =
      if other = obj then some (newZnode zp .vdir true)
      else if other = zp then some { znode with zpXattr := obj } else fs.znode other)
    (zRoot : next.zRoot = fs.zRoot) (set : next.zUnlinkedobj = fs.zUnlinkedobj) : next.Shaped where
  root := by
    obtain ⟨root, at_root, facts⟩ := shaped.root
    rw [zRoot, made]
    grind [Znode.isDir]
  zero := by
    have zero := shaped.zero
    grind
  xattr := by
    intro other found at_ has
    have was := shaped.xattr other
    grind [newZnode, Znode.isDir]
  owner := by
    intro first _ second _ at_first at_second has same
    have was := shaped.owner first
    have xattr := shaped.xattr
    grind [newZnode]
  owned := by
    intro other found at_ is_dir is_xattr is_linked
    have was := shaped.owned other
    grind [newZnode, Znode.isDir]
  nodup := set ▸ shaped.nodup
  unlinked := by
    intro other
    have was := shaped.unlinked other
    rw [set]
    grind [newZnode]

/-- The counts depend on the entries, and on which are directories. -/
theorem Counted.congr {znode : Znode} (counted : fs.Counted zp znode)
    (dirents : next.dirents = fs.dirents) (zRoot : next.zRoot = fs.zRoot)
    (same : ∀ entry ∈ fs.dirents, next.isDir entry.zp = fs.isDir entry.zp) :
    next.Counted zp znode := by
  have names : next.names zp = fs.names zp := by rw [Zfsvfs.names, dirents]; rfl
  have entries : next.entries zp = fs.entries zp := by rw [Zfsvfs.entries, dirents]; rfl
  have subdirs : next.subdirs zp = fs.subdirs zp := by
    rw [Zfsvfs.subdirs, dirents]
    exact List.countP_congr fun entry mem => by rw [same entry mem]
  obtain ⟨single, links, named, size⟩ := counted
  constructor
  · rwa [names, zRoot]
  · rwa [names, subdirs]
  · rwa [names]
  · rwa [entries]

theorem Consistent.makeXattrdir (consistent : fs.Consistent) (fresh : fs.znode obj = none)
    (nonzero : obj ≠ 0) (ok : fs.zfsMakeXattrdir zp obj = .ok next) : next.Consistent := by
  obtain ⟨shaped, placed, counted⟩ := consistent
  rw [zfsMakeXattrdir] at ok
  split at ok
  · cases ok
  rename_i znode at_zp
  split at ok
  · cases ok
  split at ok
  · cases ok
  rename_i none_yet
  cases ok
  have apart : zp ≠ obj := by
    rintro rfl
    exact some_ne_none _ (at_zp.symm.trans fresh)
  have made (other : ℕ) : ((fs.zfsMknode zp obj .vdir true).modify zp fun znode =>
      { znode with zpXattr := obj }).znode other =
        if other = obj then some (newZnode zp .vdir true)
        else if other = zp then some { znode with zpXattr := obj } else fs.znode other := by
    simp only [modify, Function.update_apply, znode_zfsMknode, if_neg apart, at_zp, map_some,
      Bool.or_true]
    grind
  generalize next_eq : ((fs.zfsMknode zp obj .vdir true).modify zp fun znode =>
    { znode with zpXattr := obj }) = next at made
  have dirents : next.dirents = fs.dirents := by rw [← next_eq]; rfl
  have zRoot : next.zRoot = fs.zRoot := by rw [← next_eq]; rfl
  have set : next.zUnlinkedobj = fs.zUnlinkedobj := by rw [← next_eq]; rfl
  have kept (other : ℕ) (found : Znode) (at_ : fs.znode other = some found) :
      ∃ later, next.znode other = some later ∧ later.isDir = found.isDir ∧
      later.isXattr = found.isXattr ∧ later.zUnlinked = found.zUnlinked := by
    grind [Znode.isDir]
  have same (entry : Dirent Name) (mem : entry ∈ fs.dirents) :
      next.isDir entry.zp = fs.isDir entry.zp := by
    obtain ⟨found, at_, -⟩ := placed.object entry mem
    obtain ⟨later, at_later, kind, -⟩ := kept _ _ at_
    rw [Zfsvfs.isDir, Zfsvfs.isDir, at_, at_later, any_some, any_some, kind]
  refine ⟨shaped.zfsMakeXattrdir at_zp (not_not.mp none_yet) fresh nonzero made zRoot set,
    Placed.transfer (by rwa [dirents]) (fun entry _ dir at_ => ?_) (fun entry _ object at_ => ?_),
    fun other found at_ => ?_⟩
  · obtain ⟨later, at_later, kind, space, linked⟩ := kept _ _ at_
    exact ⟨later, at_later, kind, space, fun gone => .inl (linked ▸ gone)⟩
  · obtain ⟨later, at_later, kind, -, linked⟩ := kept _ _ at_
    exact ⟨later, at_later, kind, linked⟩
  · rw [made] at at_
    split at at_
    · cases at_
      obtain ⟨no_names, no_entries, no_subdirs⟩ := placed.counts_of_none fresh
      have new : fs.Counted obj (newZnode zp .vdir true) := by
        constructor <;> simp [newZnode, Znode.isDir, no_names, no_entries, no_subdirs]
      rename_i is_obj
      exact is_obj ▸ new.congr dirents zRoot same
    · split at at_
      · cases at_
        have was := (counted zp znode at_zp).congr dirents zRoot same
        rename_i is_zp
        exact is_zp ▸ { was with }
      · exact (counted other found at_).congr dirents zRoot same

end Make

section Delete

variable {znode : Znode}

theorem znode_rmnodeFinal (at_zp : fs.znode zp = some znode) (other : ℕ) :
    (fs.rmnodeFinal zp).znode other =
      if other = zp then none
      else if other = znode.zpXattr ∧ znode.zpXattr ≠ 0 then
        (fs.znode other).map fun xattr => { xattr with zUnlinked := true, zpLinks := 0 }
      else fs.znode other := by
  simp only [rmnodeFinal, zfsZnodeDelete, zpXattr, at_zp, map_some, getD_some,
    Function.update_apply]
  by_cases no_xattr : znode.zpXattr = 0
  · simp [unlinkXattr, no_xattr]
  · simp only [unlinkXattr, if_neg no_xattr, modify, zfsUnlinkedAdd, Function.update_apply]
    grind

/-- The entries stay when the object has none. -/
theorem dirents_rmnodeFinal (empty : fs.entries zp = 0) :
    (fs.rmnodeFinal zp).dirents = fs.dirents := by
  have same : (fs.unlinkXattr (fs.zpXattr zp)).dirents = fs.dirents := by
    rw [unlinkXattr]
    split <;> rfl
  simp only [rmnodeFinal, zfsZnodeDelete, same]
  exact List.filter_eq_self.mpr fun entry mem =>
    decide_eq_true (entries_eq_zero_iff.mp empty entry mem)

theorem zRoot_rmnodeFinal : (fs.rmnodeFinal zp).zRoot = fs.zRoot := by
  simp only [rmnodeFinal, zfsZnodeDelete, unlinkXattr]
  split <;> rfl

theorem zUnlinkedobj_rmnodeFinal (at_zp : fs.znode zp = some znode) :
    (fs.rmnodeFinal zp).zUnlinkedobj =
      (if znode.zpXattr = 0 then fs.zUnlinkedobj
        else znode.zpXattr :: fs.zUnlinkedobj).erase zp := by
  simp only [rmnodeFinal, zfsZnodeDelete, zpXattr, at_zp, map_some, getD_some,
    unlinkXattr]
  split <;> rfl

/-- A znode that is left after the final transaction of `zfs_rmnode`. -/
def Left (znode : Znode) (other : ℕ) (before after : Znode) : Prop :=
  Alike before after ∧ after.zpSize = before.zpSize ∧
    (after.zUnlinked = (before.zUnlinked || decide (other = znode.zpXattr))) ∧
    after.zpLinks = if other = znode.zpXattr then 0 else before.zpLinks

section

variable (shaped : fs.Shaped) (at_zp : fs.znode zp = some znode)

include shaped at_zp

theorem Shaped.exists_left {other : ℕ}
    {after : Znode} (at_ : (fs.rmnodeFinal zp).znode other = some after) :
    other ≠ zp ∧ ∃ before, fs.znode other = some before ∧ Left znode other before after := by
  rw [znode_rmnodeFinal at_zp] at at_
  have zero := shaped.zero
  split at at_
  · cases at_
  · rename_i kept
    refine ⟨kept, ?_⟩
    split at at_
    · rename_i is_xattr
      obtain ⟨before, at_before, rfl⟩ := map_eq_some_iff.mp at_
      exact ⟨before, at_before, ⟨rfl, rfl, rfl⟩, rfl, by simp [is_xattr.1], by simp [is_xattr.1]⟩
    · rename_i no_xattr
      have apart : other ≠ znode.zpXattr := by
        rintro rfl
        exact absurd (not_and_not_right.mp no_xattr rfl) fun none => by
          rw [none, zero] at at_
          cases at_
      exact ⟨after, at_, ⟨rfl, rfl, rfl⟩, rfl, by simp [apart], by simp [apart]⟩

theorem Shaped.left_of_some {other : ℕ}
    {before : Znode} (kept : other ≠ zp) (at_ : fs.znode other = some before) :
    ∃ after, (fs.rmnodeFinal zp).znode other = some after ∧ Left znode other before after := by
  have made := znode_rmnodeFinal at_zp other
  rw [if_neg kept, at_] at made
  obtain ⟨after, at_after⟩ : ∃ after, (fs.rmnodeFinal zp).znode other = some after := by
    split at made <;> exact ⟨_, made⟩
  obtain ⟨-, found, at_found, left⟩ := shaped.exists_left at_zp at_after
  obtain rfl : found = before := mem_unique at_found at_
  exact ⟨after, at_after, left⟩

/-- The attribute directory of a deleted object loses its link. -/
theorem Shaped.rmnodeFinal (gone : znode.zUnlinked = true) : (fs.rmnodeFinal zp).Shaped := by
  have nodup : (if znode.zpXattr = 0 then fs.zUnlinkedobj
      else znode.zpXattr :: fs.zUnlinkedobj).Nodup := by
    split
    · exact shaped.nodup
    · rename_i has
      refine List.nodup_cons.mpr ⟨fun mem => ?_, shaped.nodup⟩
      obtain ⟨xattr, at_xattr, -, -, linked⟩ := shaped.xattr zp znode at_zp has
      obtain ⟨other, at_other, unlinked⟩ := (shaped.unlinked _).mp mem
      grind
  constructor
  · obtain ⟨root, at_root, is_dir, no_xattr, linked⟩ := shaped.root
    have kept : fs.zRoot ≠ zp := by
      intro same
      grind
    obtain ⟨after, at_after, alike, -, unlinked, -⟩ := shaped.left_of_some at_zp kept at_root
    refine ⟨after, by rw [zRoot_rmnodeFinal, at_after], alike.isDir.trans is_dir,
      alike.isXattr.trans no_xattr, ?_⟩
    have xattr := shaped.xattr zp znode at_zp
    have zero := shaped.zero
    grind
  · rw [znode_rmnodeFinal at_zp, shaped.zero]
    grind
  · intro other after at_ has
    obtain ⟨kept, before, at_before, alike, -⟩ := shaped.exists_left at_zp at_
    rw [alike.zpXattr] at has ⊢
    obtain ⟨xattr, at_xattr, is_dir, is_xattr, linked⟩ := shaped.xattr other before at_before has
    have not_gone : before.zpXattr ≠ zp := by grind
    obtain ⟨later, at_later, alike, -, unlinked, -⟩ := shaped.left_of_some at_zp not_gone at_xattr
    have other_owner := shaped.owner other before zp znode at_before at_zp has
    exact ⟨later, at_later, alike.isDir.trans is_dir, alike.isXattr.trans is_xattr, by grind⟩
  · intro first _ second _ at_first at_second has same
    obtain ⟨-, before, at_before, alike, -⟩ := shaped.exists_left at_zp at_first
    obtain ⟨-, other, at_other, alike_other, -⟩ := shaped.exists_left at_zp at_second
    rw [alike.zpXattr] at has same
    rw [alike_other.zpXattr] at same
    exact shaped.owner first before second other at_before at_other has same
  · intro other after at_ is_dir is_xattr is_linked
    obtain ⟨-, before, at_before, alike, -, unlinked, -⟩ := shaped.exists_left at_zp at_
    rw [alike.isDir] at is_dir
    rw [alike.isXattr] at is_xattr
    rw [unlinked, Bool.or_eq_false_iff, decide_eq_false_iff_not] at is_linked
    obtain ⟨owner, owning, at_owner, owns⟩ :=
      shaped.owned other before at_before is_dir is_xattr is_linked.1
    have kept : owner ≠ zp := by grind
    obtain ⟨later, at_later, alike, -⟩ := shaped.left_of_some at_zp kept at_owner
    exact ⟨owner, later, at_later, alike.zpXattr.trans owns⟩
  · exact zUnlinkedobj_rmnodeFinal at_zp ▸ nodup.erase zp
  · intro other
    rw [zUnlinkedobj_rmnodeFinal at_zp, nodup.mem_erase_iff]
    have was := shaped.unlinked other
    constructor
    · rintro ⟨kept, mem⟩
      obtain ⟨before, at_before, lost⟩ : ∃ before, fs.znode other = some before ∧
          (before.zUnlinked = true ∨ other = znode.zpXattr) := by
        have xattr := shaped.xattr zp znode at_zp
        grind
      obtain ⟨after, at_after, -, -, unlinked, -⟩ := shaped.left_of_some at_zp kept at_before
      exact ⟨after, at_after, by rw [unlinked]; simpa using lost⟩
    · rintro ⟨after, at_, is_unlinked⟩
      obtain ⟨kept, before, at_before, -, -, unlinked, -⟩ := shaped.exists_left at_zp at_
      have zero := shaped.zero
      grind

end

theorem Consistent.rmnodeFinal (consistent : fs.Consistent) (at_zp : fs.znode zp = some znode)
    (gone : znode.zUnlinked = true) (empty : fs.entries zp = 0) :
    (fs.rmnodeFinal zp).Consistent := by
  obtain ⟨shaped, placed, counted⟩ := consistent
  have dirents := dirents_rmnodeFinal empty
  have apart (entry : Dirent Name) (mem : entry ∈ fs.dirents) :
      entry.dzp ≠ zp ∧ entry.zp ≠ zp ∧ entry.zp ≠ znode.zpXattr := by
    obtain ⟨object, at_object, linked⟩ := placed.object entry mem
    refine ⟨entries_eq_zero_iff.mp empty entry mem, by grind, fun is_xattr => ?_⟩
    have has : znode.zpXattr ≠ 0 := by
      intro none
      have zero := shaped.zero
      grind
    obtain ⟨xattr, at_xattr, is_dir, in_space, -⟩ := shaped.xattr zp znode at_zp has
    have single := (counted _ _ at_xattr).single is_dir
    rw [if_pos (.inr (.inl in_space))] at single
    exact names_eq_zero_iff.mp single entry mem is_xattr
  have same (entry : Dirent Name) (mem : entry ∈ fs.dirents) :
      (fs.rmnodeFinal zp).isDir entry.zp = fs.isDir entry.zp := by
    obtain ⟨object, at_object, -⟩ := placed.object entry mem
    obtain ⟨after, at_after, alike, -⟩ := shaped.left_of_some at_zp (apart entry mem).2.1 at_object
    rw [Zfsvfs.isDir, Zfsvfs.isDir, at_object, at_after, any_some, any_some,
      alike.isDir]
  refine ⟨shaped.rmnodeFinal at_zp gone, Placed.transfer (by rwa [dirents])
    (fun entry mem dir at_ => ?_) (fun entry mem object at_ => ?_), fun other after at_ => ?_⟩
  · rw [dirents] at mem
    obtain ⟨after, at_after, alike, -, unlinked, -⟩ :=
      shaped.left_of_some at_zp (apart entry mem).1 at_
    refine ⟨after, at_after, alike.isDir, alike.isXattr, fun is_unlinked => ?_⟩
    have xattr := shaped.xattr zp znode at_zp
    have zero := shaped.zero
    grind
  · rw [dirents] at mem
    obtain ⟨after, at_after, alike, -, unlinked, -⟩ :=
      shaped.left_of_some at_zp (apart entry mem).2.1 at_
    exact ⟨after, at_after, alike.isDir, by simp [unlinked, (apart entry mem).2.2]⟩
  · obtain ⟨kept, before, at_before, alike, size, unlinked, links⟩ := shaped.exists_left at_zp at_
    have was := (counted other before at_before).congr dirents zRoot_rmnodeFinal same
    have xattr := shaped.xattr zp znode at_zp
    have zero := shaped.zero
    constructor
    · intro is_dir
      rw [alike.isDir] at is_dir
      rw [was.single is_dir, alike.isXattr, unlinked]
      grind
    · have was_links := was.links
      rw [alike.isDir, unlinked, links]
      grind
    · intro is_dir is_linked
      rw [alike.isDir] at is_dir
      rw [unlinked, Bool.or_eq_false_iff] at is_linked
      exact was.named is_dir is_linked.1
    · intro is_dir
      rw [alike.isDir] at is_dir
      rw [size, was.size is_dir]

/-- The immediate deletion in `zfs_remove` is that of the unlinked set. -/
theorem rmnodeFinal_zfsUnlinkedAdd (apart : fs.zpXattr zp ≠ zp) :
    (fs.zfsUnlinkedAdd zp).rmnodeFinal zp =
      ((fs.unlinkXattr (fs.zpXattr zp)).modify zp fun znode =>
        { znode with zpXattr := 0 }).zfsZnodeDelete zp := by
  have same : (fs.zfsUnlinkedAdd zp).zpXattr zp = fs.zpXattr zp := rfl
  simp only [rmnodeFinal, same, zfsZnodeDelete, modify, unlinkXattr]
  split
  · simp [zfsUnlinkedAdd]
  · simp [zfsUnlinkedAdd, apart]

end Delete

end Zfs.Links.Zfsvfs
