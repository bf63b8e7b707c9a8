import Zfs.Links.Tally

/-!
# Names that come and go

A name that is added, removed or moved keeps a file system consistent.
-/

namespace Zfs.Links.Zfsvfs

open Option

variable {Name : Type} {fs next : Zfsvfs Name} {dzp zp : ℕ} {name : Name}

theorem loseLink_of_lt {znode : Znode} (linked : znode.isDir.toNat < znode.zpLinks) :
    loseLink znode =
      if znode.zpLinks = znode.isDir.toNat + 1 then { znode with zUnlinked := true, zpLinks := 0 }
      else { znode with zpLinks := znode.zpLinks - 1 } := by
  have last : znode.zpLinks - 1 = znode.isDir.toNat ↔ znode.zpLinks = znode.isDir.toNat + 1 := by
    omega
  simp only [loseLink, if_neg (Nat.not_le.mpr linked), last]

/-- The last link of an object is that of its last name. -/
theorem Counted.loseLink_eq {znode : Znode} (counted : fs.Counted zp znode)
    (linked : znode.zUnlinked = false) (named : 0 < fs.names zp)
    (empty : znode.isDir = true → fs.entries zp = 0) :
    loseLink znode =
      if fs.names zp = 1 then { znode with zUnlinked := true, zpLinks := 0 }
      else { znode with zpLinks := fs.names zp - 1 } := by
  have links := counted.links
  rw [linked, if_neg Bool.false_ne_true] at links
  cases is_dir : znode.isDir with
  | false =>
    rw [is_dir, if_neg Bool.false_ne_true] at links
    rw [loseLink_of_lt (by rw [is_dir, links]; exact named), is_dir, links]
    rfl
  | true =>
    have none : fs.subdirs zp ≤ fs.entries zp := subdirs_le_entries zp
    rw [empty is_dir] at none
    rw [is_dir, if_pos rfl, Nat.le_zero.mp none] at links
    have one : fs.names zp = 1 := by
      have single := counted.single is_dir
      split at single <;> omega
    rw [loseLink_of_lt (by rw [is_dir, links]; decide), is_dir, links, one]
    rfl

section Removal

variable [DecidableEq Name]

/-- A name of an object is removed from a directory. -/
structure Removal (fs : Zfsvfs Name) (dzp : ℕ) (name : Name) (zp : ℕ) (next : Zfsvfs Name)
    (znode : Znode) : Prop where
  mem : ⟨dzp, name, zp⟩ ∈ fs.dirents
  changed : fs.Changed (lose znode.isDir dzp zp false) next
  dirents : next.dirents = (fs.zapRemove dzp name).dirents
  set : next.zUnlinkedobj =
    if decide (fs.names zp = 1) then zp :: fs.zUnlinkedobj else fs.zUnlinkedobj
  at_zp : fs.znode zp = some znode
  linked : znode.zUnlinked = false
  empty : znode.isDir = true → fs.entries zp = 0
  apart : zp ≠ dzp
  lost : loseLink znode = if fs.names zp = 1 then { znode with zUnlinked := true, zpLinks := 0 }
    else { znode with zpLinks := fs.names zp - 1 }

theorem Consistent.exists_removal (consistent : fs.Consistent)
    (mem : ⟨dzp, name, zp⟩ ∈ fs.dirents)
    (ok : fs.zfsLinkDestroyNull dzp name zp false = .ok next) :
    ∃ znode, fs.Removal dzp name zp next znode := by
  obtain ⟨shaped, placed, counted⟩ := consistent
  obtain ⟨changed, dirents, set, small⟩ := zfsLinkDestroyNull_ok ok
  obtain ⟨znode, at_zp, linked⟩ := placed.object _ mem
  obtain ⟨dir, at_dzp, dir_isDir, -⟩ := placed.directory _ mem
  have empty (is_dir : znode.isDir = true) : fs.entries zp = 0 := by
    have size := (counted zp znode at_zp).size is_dir
    have two := small rfl znode at_zp is_dir
    omega
  have lost := (counted zp znode at_zp).loseLink_eq linked (names_pos mem) empty
  have kind : fs.isDir zp = znode.isDir := by rw [Zfsvfs.isDir, at_zp, any_some]
  refine ⟨znode, mem, kind ▸ changed, dirents, ?_, at_zp, linked, empty, ?_, lost⟩
  · rw [set, at_zp]
    by_cases one : fs.names zp = 1 <;> simp [lost, one, linked]
  · rintro rfl
    obtain rfl : dir = znode := mem_unique at_dzp at_zp
    exact absurd (empty dir_isDir) (entries_pos mem).ne'

namespace Removal

variable {znode : Znode} (removal : fs.Removal dzp name zp next znode)
include removal

theorem sublist : next.dirents.Sublist fs.dirents := removal.dirents ▸ List.eraseP_sublist

/-- The object that loses its last name is unlinked, and no other. -/
theorem zUnlinked_lose (other : ℕ) (found : Znode) (at_ : fs.znode other = some found) :
    (lose znode.isDir dzp zp false other found).zUnlinked =
      (found.zUnlinked || (decide (fs.names zp = 1) && decide (other = zp))) := by
  by_cases is_lost : other = zp
  · subst is_lost
    obtain rfl : found = znode := mem_unique at_ removal.at_zp
    by_cases one : fs.names other = 1 <;> simp [lose, removal.lost, one, removal.linked]
  · simp [lose, is_lost]

/-- An object that has a name is no root and no attribute directory. -/
theorem not_special (consistent : fs.Consistent) :
    zp ≠ fs.zRoot ∧ (znode.isDir = true → znode.isXattr = false) := by
  have named : 0 < fs.names zp := names_pos removal.mem
  have single := (consistent.counted zp znode removal.at_zp).single
  constructor
  · rintro rfl
    obtain ⟨root, at_root, is_dir, -⟩ := consistent.shaped.root
    obtain rfl : root = znode := mem_unique at_root removal.at_zp
    rw [single is_dir, if_pos (.inl rfl)] at named
    exact absurd named (Nat.lt_irrefl 0)
  · intro is_dir
    by_contra is_xattr
    rw [single is_dir, if_pos (.inr (.inl (by simpa using is_xattr)))] at named
    exact absurd named (Nat.lt_irrefl 0)

/-- The entries that are left do not use an object that has lost its last name. -/
theorem no_entry (consistent : fs.Consistent) (last : fs.names zp = 1) (entry : Dirent Name)
    (at_entry : entry ∈ next.dirents) : entry.zp ≠ zp ∧ entry.dzp ≠ zp := by
  have perm := consistent.placed.perm_zapRemove removal.mem
  rw [← removal.dirents] at perm
  have before := removal.sublist.subset at_entry
  constructor
  · have count := names_of_perm perm zp
    rw [last, if_pos rfl] at count
    exact names_eq_zero_iff.mp (by omega) entry at_entry
  · rintro rfl
    obtain ⟨other, at_other, is_dir, -⟩ := consistent.placed.directory entry before
    obtain rfl : other = znode := mem_unique at_other removal.at_zp
    exact absurd (removal.empty is_dir) (entries_pos before).ne'

theorem counted (consistent : fs.Consistent) (other : ℕ) (found : Znode)
    (at_ : next.znode other = some found) : next.Counted other found := by
  obtain ⟨before, at_before, rfl⟩ := removal.changed.exists_of_some at_
  have alike := alike_lose znode.isDir dzp zp false
  have perm := consistent.placed.perm_zapRemove removal.mem
  rw [← removal.dirents] at perm
  have names := names_of_perm perm other
  have entries := entries_of_perm perm other
  have subdirs := subdirs_of_perm perm
    (fun entry _ => (removal.changed.isDir alike entry.zp).symm) other
  have space := consistent.placed.space _ removal.mem
  obtain ⟨dir, at_dzp, dir_isDir, dir_linked⟩ := consistent.placed.directory _ removal.mem
  simp only [Zfsvfs.isDir, isXattr, removal.at_zp, at_dzp, any_some] at space subdirs
  have counted := consistent.counted other before at_before
  have unlinked := removal.zUnlinked_lose other before at_before
  have apart := removal.apart
  constructor
  · intro is_dir
    rw [(alike _ _).isDir] at is_dir
    have single := counted.single is_dir
    rw [(alike _ _).isXattr, unlinked, removal.changed.zRoot]
    grind
  · have links := counted.links
    have single := counted.single
    rw [(alike _ _).isDir, unlinked]
    by_cases is_lost : other = zp
    · subst is_lost
      obtain rfl : before = znode := mem_unique at_before removal.at_zp
      have linked := removal.linked
      simp only [lose, and_self, if_true, removal.lost, if_neg apart]
      grind
    · simp only [lose, is_lost, false_and, if_false]
      grind
  · intro is_dir is_linked
    rw [(alike _ _).isDir] at is_dir
    rw [unlinked] at is_linked
    have named := counted.named is_dir
    grind
  · intro is_dir
    rw [(alike _ _).isDir] at is_dir
    have size := counted.size is_dir
    by_cases is_lost : other = zp
    · subst is_lost
      obtain rfl : before = znode := mem_unique at_before removal.at_zp
      simp only [lose, and_self, if_true, removal.lost, if_neg apart]
      grind
    · simp only [lose, is_lost, false_and, if_false]
      grind

end Removal

/-- A name is removed; after the last the object is in the unlinked set. -/
theorem Consistent.destroy (consistent : fs.Consistent) (mem : ⟨dzp, name, zp⟩ ∈ fs.dirents)
    (ok : fs.zfsLinkDestroyNull dzp name zp false = .ok next) : next.Consistent := by
  obtain ⟨znode, removal⟩ := consistent.exists_removal mem ok
  have alike := alike_lose znode.isDir dzp zp false
  have special := removal.not_special consistent
  exact
    { shaped := removal.changed.shaped alike removal.zUnlinked_lose removal.set
        (fun _ => ⟨special.1, znode, removal.at_zp, removal.linked, special.2⟩) consistent.shaped
      placed := removal.changed.placed alike removal.zUnlinked_lose
        (fun last => removal.no_entry consistent (of_decide_eq_true last))
        (consistent.placed.sublist removal.sublist)
      counted := removal.counted consistent }

end Removal

/-- A directory takes a new entry. -/
structure Room (fs : Zfsvfs Name) (dzp : ℕ) (name : Name) (dir : Znode) : Prop where
  at_dzp : fs.znode dzp = some dir
  isDir : dir.isDir = true
  linked : dir.zUnlinked = false
  free : ∀ entry ∈ fs.dirents, entry.dzp = dzp → entry.name ≠ name

variable {dir before : Znode} {other : ℕ} {zpIsDir : Bool}

theorem Room.placed (room : fs.Room dzp name dir) (placed : fs.Placed) {znode : Znode}
    (at_zp : fs.znode zp = some znode) (linked : znode.zUnlinked = false)
    (space : znode.isDir = true → dir.isXattr = false) :
    (fs.withDirents (⟨dzp, name, zp⟩ :: fs.dirents)).Placed := by
  refine placed.cons room.free ⟨dir, room.at_dzp, room.isDir, fun gone => ?_⟩
    ⟨znode, at_zp, linked⟩ fun is_dir => ?_
  · rw [room.linked] at gone
    cases gone
  · rw [isXattr, room.at_dzp, any_some]
    exact space (by rwa [Zfsvfs.isDir, at_zp, any_some] at is_dir)

theorem zUnlinked_gain (fs : Zfsvfs Name) (dzp zp : ℕ) (zpIsDir zrenaming : Bool) (other : ℕ)
    (found : Znode) (_ : fs.znode other = some found) :
    (gain zpIsDir dzp zp zrenaming other found).zUnlinked =
      (found.zUnlinked || (false && decide (other = zp))) := by
  simp [gain]

theorem Counted.added (counted : fs.Counted other before) (zRoot : next.zRoot = fs.zRoot)
    (names : next.names other = fs.names other + if zp = other then 1 else 0)
    (entries : next.entries other = fs.entries other + if dzp = other then 1 else 0)
    (subdirs : next.subdirs other = fs.subdirs other + if dzp = other then zpIsDir.toNat else 0)
    (directory : other = dzp → before.isDir = true ∧ before.zUnlinked = false)
    (object : other = zp → before.isDir = false ∧ before.zUnlinked = false) :
    next.Counted other (gain zpIsDir dzp zp false other before) := by
  have alike := alike_gain zpIsDir dzp zp false other before
  constructor
  · intro is_dir
    rw [alike.isDir] at is_dir
    have single := counted.single is_dir
    simp only [gain, zRoot]
    grind
  · have links := counted.links
    rw [alike.isDir]
    simp only [gain]
    grind
  · intro is_dir is_linked
    rw [alike.isDir] at is_dir
    have named := counted.named is_dir is_linked
    omega
  · intro is_dir
    rw [alike.isDir] at is_dir
    have size := counted.size is_dir
    simp only [gain]
    grind

theorem Consistent.link (consistent : fs.Consistent) {znode : Znode} (room : fs.Room dzp name dir)
    (at_zp : fs.znode zp = some znode) (is_file : znode.isDir = false)
    (ok : fs.zfsLinkCreate dzp name zp false = .ok next) : next.Consistent := by
  obtain ⟨changed, dirents, set, is_linked⟩ := zfsLinkCreate_ok ok
  have linked := is_linked rfl znode at_zp
  have alike := alike_gain (fs.isDir zp) dzp zp false
  have unlinked := zUnlinked_gain fs dzp zp (fs.isDir zp) false
  refine
    { shaped := changed.shaped alike unlinked set Bool.false_ne_true.elim consistent.shaped
      placed := changed.placed alike unlinked Bool.false_ne_true.elim ?_
      counted := fun other found at_ => ?_ }
  · rw [dirents]
    refine room.placed consistent.placed at_zp linked fun is_dir => ?_
    rw [is_file] at is_dir
    cases is_dir
  · obtain ⟨before, at_before, rfl⟩ := changed.exists_of_some at_
    have perm : next.dirents.Perm (⟨dzp, name, zp⟩ :: fs.dirents) := dirents ▸ List.Perm.refl _
    have subdirs := subdirs_of_perm perm (fun entry _ => changed.isDir alike entry.zp) other
    rw [changed.isDir alike] at subdirs
    refine (consistent.counted other before at_before).added changed.zRoot
      (names_of_perm perm other) (entries_of_perm perm other) subdirs ?_ ?_
    · rintro rfl
      obtain rfl : dir = before := mem_unique room.at_dzp at_before
      exact ⟨room.isDir, room.linked⟩
    · rintro rfl
      obtain rfl : znode = before := mem_unique at_zp at_before
      exact ⟨is_file, linked⟩

/-- The name of a removed entry has no other entry. -/
theorem Removal.free [DecidableEq Name] {znode : Znode}
    (removal : fs.Removal dzp name zp next znode) (consistent : fs.Consistent) :
    ∀ entry ∈ next.dirents, entry.dzp = dzp → entry.name ≠ name := by
  intro entry at_entry same_dir same_name
  have perm := consistent.placed.perm_zapRemove removal.mem
  rw [← removal.dirents] at perm
  have keys := (perm.pairwise_iff (fun apart same => (apart same.symm).symm)).mp
    consistent.placed.keys
  exact (List.pairwise_cons.mp keys).1 entry at_entry same_dir.symm same_name.symm

/-- The name of a removed entry has room in a directory that has links. -/
theorem Removal.room [DecidableEq Name] {znode : Znode}
    (removal : fs.Removal dzp name zp next znode) (consistent : fs.Consistent)
    (at_dzp : fs.znode dzp = some dir) (is_dir : dir.isDir = true)
    (linked : dir.zUnlinked = false) :
    next.Room dzp name (lose znode.isDir dzp zp false dzp dir) where
  at_dzp := removal.changed.of_some at_dzp
  isDir := (alike_lose _ _ _ _ _ _).isDir.trans is_dir
  linked := by
    rw [removal.zUnlinked_lose dzp dir at_dzp, linked]
    simp [removal.apart.symm]
  free := removal.free consistent

section Move

variable {sdzp tdzp szp : ℕ} {snm tnm : Name}

theorem Changed.trans {middle : Zfsvfs Name} {first second : ℕ → Znode → Znode}
    (changed : fs.Changed first middle) (again : middle.Changed second next) :
    fs.Changed (fun zp znode => second zp (first zp znode)) next where
  znode := fun zp => by rw [again.znode, changed.znode, map_map]; rfl
  zRoot := again.zRoot.trans changed.zRoot

theorem zUnlinked_lose_renaming (fs : Zfsvfs Name) (dzp zp : ℕ) (zpIsDir : Bool) (other : ℕ)
    (found : Znode) (_ : fs.znode other = some found) :
    (lose zpIsDir dzp zp true other found).zUnlinked =
      (found.zUnlinked || (false && decide (other = zp))) := by
  simp [lose]

theorem Counted.moved (counted : fs.Counted other before) (zRoot : next.zRoot = fs.zRoot)
    (names : next.names other = fs.names other)
    (entries : fs.entries other + (if tdzp = other then 1 else 0) =
      next.entries other + if sdzp = other then 1 else 0)
    (subdirs : fs.subdirs other + (if tdzp = other then zpIsDir.toNat else 0) =
      next.subdirs other + if sdzp = other then zpIsDir.toNat else 0)
    (target : other = tdzp → before.isDir = true ∧ before.zUnlinked = false)
    (source : other = sdzp → before.isDir = true ∧ (before.zUnlinked = true → zpIsDir = false)) :
    next.Counted other
      (lose zpIsDir sdzp szp true other (gain zpIsDir tdzp szp true other before)) := by
  have moved : lose zpIsDir sdzp szp true other (gain zpIsDir tdzp szp true other before) =
      { before with
        zpLinks := before.zpLinks + (if other = tdzp then zpIsDir.toNat else 0) -
          if other = sdzp then zpIsDir.toNat else 0
        zpSize := before.zpSize + (if other = tdzp then 1 else 0) - if other = sdzp then 1 else 0
        zpParent := if other = szp then tdzp else before.zpParent } := by
    simp [lose, gain]
  rw [moved]
  constructor
  · intro is_dir
    rw [names, zRoot]
    exact counted.single is_dir
  · have links := counted.links
    simp only [Znode.isDir] at links target source ⊢
    grind
  · rw [names]
    exact counted.named
  · intro is_dir
    have size := counted.size is_dir
    grind

theorem Consistent.move [DecidableEq Name] (consistent : fs.Consistent) {znode : Znode}
    (room : fs.Room tdzp tnm dir) (mem : ⟨sdzp, snm, szp⟩ ∈ fs.dirents)
    (at_szp : fs.znode szp = some znode) (space : znode.isDir = true → dir.isXattr = false)
    (ok : fs.moveEntry sdzp snm tdzp tnm szp = .ok next) : next.Consistent := by
  obtain ⟨created, made, moved⟩ := bind_ok ok
  obtain ⟨shaped, placed, counted⟩ := consistent
  obtain ⟨changed, dirents, set, -⟩ := zfsLinkCreate_ok made
  obtain ⟨again, rest, same_set, -⟩ := zfsLinkDestroyNull_ok moved
  have alike := alike_gain (fs.isDir szp) tdzp szp true
  have kind := changed.isDir alike
  rw [kind] at again
  have alike_again := alike_lose (fs.isDir szp) sdzp szp true
  obtain ⟨found, at_found, linked⟩ := placed.object _ mem
  obtain rfl : found = znode := mem_unique at_found at_szp
  have created_placed : created.Placed := by
    refine changed.placed alike (zUnlinked_gain fs tdzp szp _ true) Bool.false_ne_true.elim ?_
    rw [dirents]
    exact room.placed placed at_szp linked space
  have perm : created.dirents.Perm (⟨tdzp, tnm, szp⟩ :: fs.dirents) := dirents ▸ List.Perm.refl _
  have back : created.dirents.Perm (⟨sdzp, snm, szp⟩ :: next.dirents) := by
    rw [rest]
    exact created_placed.perm_zapRemove (dirents ▸ List.mem_cons_of_mem _ mem)
  have gained := zUnlinked_gain fs tdzp szp (fs.isDir szp) true
  have lost := zUnlinked_lose_renaming created sdzp szp (fs.isDir szp)
  refine
    { shaped := again.shaped alike_again lost same_set Bool.false_ne_true.elim
        (changed.shaped alike gained set Bool.false_ne_true.elim shaped)
      placed := again.placed alike_again lost Bool.false_ne_true.elim
        (created_placed.sublist (rest ▸ List.eraseP_sublist))
      counted := fun other found at_ => ?_ }
  obtain ⟨before, at_before, rfl⟩ := (changed.trans again).exists_of_some at_
  have names := names_of_perm perm other
  have entries := entries_of_perm perm other
  have subdirs := subdirs_of_perm perm (fun entry _ => kind entry.zp) other
  have subdirs_back := subdirs_of_perm back
    (fun entry _ => (again.isDir alike_again entry.zp).symm) other
  rw [kind] at subdirs subdirs_back
  rw [names_of_perm back other] at names
  rw [entries_of_perm back other] at entries
  refine (counted other before at_before).moved (again.zRoot.trans changed.zRoot)
    (Nat.add_right_cancel names) entries.symm (subdirs.symm.trans subdirs_back) ?_ ?_
  · rintro rfl
    obtain rfl : dir = before := mem_unique room.at_dzp at_before
    exact ⟨room.isDir, room.linked⟩
  · rintro rfl
    obtain ⟨source, at_source, is_dir, is_xattr⟩ := placed.directory _ mem
    obtain rfl : source = before := mem_unique at_source at_before
    refine ⟨is_dir, fun unlinked => ?_⟩
    have outside := placed.space _ mem
    rw [isXattr, at_source, any_some, is_xattr unlinked] at outside
    exact Bool.eq_false_iff.mpr fun szp_dir => Bool.false_ne_true (outside szp_dir).symm

end Move

end Zfs.Links.Zfsvfs
