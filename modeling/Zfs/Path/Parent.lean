import Mathlib.Data.List.DropRight
import Zfs.Path.Lookup

/-!
# The parent and the name of a path

The operations that make or remove an entry split a path from its end, once for the inode of the
parent and once for the name.  Both scans skip trailing slashes, but the name is handed on with
them.
-/

namespace Zfs.Path

open List

variable (body path : List Char)

/-- The directory that has the last component of a path. -/
def dirname : List Char :=
  let parent := ((path.rdropWhile (· = '/')).rdropWhile (· ≠ '/')).rdropWhile (· = '/')
  if parent = [] then ['/'] else parent

variable {front name rest : List Char}

@[simp]
theorem components_nil : components [] = [] := rfl

theorem components_append_slash (front rest : List Char) :
    components (front ++ '/' :: rest) = components front ++ components rest := by
  unfold components
  rw [splitOn_append_cons_self, filter_append]

theorem components_of_not_mem (slashless : '/' ∉ name) (named : name ≠ []) :
    components name = [name] := by
  unfold components
  rw [splitOn_eq_singleton slashless]
  simp [named]

theorem components_append_slashes (count : ℕ) :
    components (body ++ replicate count '/') = components body := by
  induction count with
  | zero => simp
  | succ count ih =>
    rw [replicate_succ', ← append_assoc, components_append_slash, ih, components_nil,
      append_nil]

/-- A path with a slash and none at its end is a directory and a name. -/
theorem exists_name {body : List Char} (slash : '/' ∈ body) (last : body.getLast? ≠ some '/') :
    ∃ front name, body = front ++ '/' :: name ∧ '/' ∉ name ∧ name ≠ [] := by
  obtain ⟨name, front, split, slashless⟩ :=
    eq_append_cons_of_mem (mem_reverse.mpr slash)
  refine ⟨front.reverse, name.reverse, ?_, ?_, ?_⟩
  · rw [← reverse_reverse body, split]
    simp
  · simpa using slashless
  · rintro empty
    refine last ?_
    rw [← head?_reverse, split, reverse_eq_nil_iff.mp empty]
    rfl

theorem getLast?_name (slashless : '/' ∉ name) (named : name ≠ []) :
    (front ++ '/' :: name).getLast? ≠ some '/' := by
  intro slash
  rw [getLast?_append_of_ne_nil _ (cons_ne_nil _ _),
    getLast?_cons_of_ne_nil named] at slash
  exact slashless (mem_of_getLast? slash)

/-- A path is followed by its trailing slashes. -/
theorem exists_slashes : ∃ count,
    path.rdropWhile (· = '/') ++ replicate count '/' = path := by
  have slashes : path.rtakeWhile (· = '/') =
      replicate (path.rtakeWhile (· = '/')).length '/' :=
    eq_replicate_of_mem fun c inside => by simpa using mem_rtakeWhile_imp inside
  refine ⟨(path.rtakeWhile (· = '/')).length, ?_⟩
  rw [← slashes]
  exact rdropWhile_append_rtakeWhile

theorem getLast?_rdropWhile :
    (path.rdropWhile (· = '/')).getLast? ≠ some '/' := by
  intro last
  have some_body : path.rdropWhile (· = '/') ≠ [] := by
    intro empty
    rw [empty] at last
    cases last
  have not_slash := rdropWhile_last_not (fun c => decide (c = '/')) path some_body
  rw [getLast?_eq_some_getLast some_body, Option.some.injEq] at last
  exact not_slash (by simpa using last)

theorem rdropWhile_slashes {body : List Char} (last : body.getLast? ≠ some '/') (count : ℕ) :
    (body ++ replicate count '/').rdropWhile (· = '/') = body := by
  induction count with
  | zero =>
    rw [replicate_zero, append_nil, rdropWhile_eq_self_iff]
    intro some_body slash
    refine last ?_
    rw [getLast?_eq_some_getLast some_body]
    simpa using slash
  | succ count ih =>
    rw [replicate_succ', ← append_assoc, rdropWhile_concat_pos _ _ _ (by simp), ih]

theorem locateLastOccurence_name (slashless : '/' ∉ name) (rest : List Char) :
    locateLastOccurence (front ++ '/' :: (name ++ rest)) '/' (front.length + 1 + name.length) =
      some front.length := by
  induction name using reverseRecOn generalizing rest with
  | nil => simp [locateLastOccurence]
  | append_singleton name c ih =>
    have other : c ≠ '/' := by
      rintro rfl
      exact slashless (by simp)
    have shorter : '/' ∉ name := fun inside => slashless (mem_append_left _ inside)
    have at_last : (front ++ '/' :: (name ++ [c] ++ rest))[front.length + 1 + name.length]? =
        some c := by
      rw [getElem?_append_right (by omega), Nat.add_assoc, Nat.add_sub_cancel_left,
        Nat.add_comm, getElem?_cons_succ, append_assoc,
        getElem?_append_right le_rfl, Nat.sub_self]
      rfl
    rw [length_append, length_singleton, ← Nat.add_assoc, locateLastOccurence,
      at_last, if_neg (by simpa using other), append_assoc]
    exact ih shorter _

theorem backwardLoop_slashes (rest : List Char) (fuel count : ℕ) :
    backwardLoop (body ++ (replicate count '/' ++ rest)) (fuel + count)
        (body.length + count : ℕ) =
      backwardLoop (body ++ (replicate count '/' ++ rest)) fuel body.length := by
  induction count generalizing rest with
  | zero => rfl
  | succ count ih =>
    have regroup : replicate (count + 1) '/' ++ rest =
        replicate count '/' ++ '/' :: rest := by
      rw [replicate_succ', append_assoc, singleton_append]
    have slash : locateLastOccurence (body ++ (replicate count '/' ++ '/' :: rest)) '/'
        (body.length + (count + 1)) = some (body.length + count) := by
      have found := @locateLastOccurence_name (body ++ replicate count '/') []
        not_mem_nil rest
      simpa [Nat.add_assoc] using found
    rw [regroup, ← ih ('/' :: rest), ← Nat.add_assoc fuel, backwardLoop, Int.toNat_natCast, slash]
    have empty : ((body.length + (count + 1) : ℕ) : ℤ) - (body.length + count : ℕ) - 1 = 0 := by
      omega
    simp only [empty, if_true]
    congr 1
    omega

theorem backwardLoop_name (slashless : '/' ∉ name) (named : name ≠ []) (rest : List Char)
    (fuel : ℕ) :
    backwardLoop (front ++ '/' :: (name ++ rest)) (fuel + 1) (front ++ '/' :: name).length =
      .ok (some ⟨front.length + 1, name.length⟩, front.length) := by
  have slash := @locateLastOccurence_name front name slashless rest
  have at_end : (front ++ '/' :: name).length = front.length + 1 + name.length := by
    simp only [length_append, length_cons]
    omega
  have result_len :
      ((front.length + 1 + name.length : ℕ) : ℤ) - front.length - 1 = name.length := by
    omega
  have not_empty : (name.length : ℤ) ≠ 0 := by simpa using named
  rw [at_end, backwardLoop, Int.toNat_natCast, slash]
  simp only [result_len, if_neg not_empty]
  congr 2
  omega

theorem backwardLoop_root {path : List Char} (absolute : path.head? = some '/') (fuel : ℕ) :
    backwardLoop path (fuel + 1) 0 = .ok (some ⟨0, 1⟩, -1) := by
  rw [backwardLoop]
  exact if_pos ⟨rfl, absolute⟩

/-- A directory, a slash, a name and trailing slashes. -/
structure Split (path front name : List Char) (count : ℕ) : Prop where
  path_eq : path = front ++ '/' :: (name ++ replicate count '/')
  slashless : '/' ∉ name
  named : name ≠ []

section
variable {fs : LowLevelFilesystem} {path : List Char} {count : ℕ}

theorem exists_split (absolute : path.head? = some '/') (below : components path ≠ []) :
    ∃ front name count, Split path front name count := by
  obtain ⟨count, slashes⟩ := exists_slashes path
  have some_body : path.rdropWhile (· = '/') ≠ [] := by
    intro empty
    rw [← slashes, empty, components_append_slashes] at below
    exact below rfl
  have slash : '/' ∈ path.rdropWhile (· = '/') := by
    rw [← slashes, head?_append_of_ne_nil _ some_body] at absolute
    exact mem_of_mem_head? absolute
  obtain ⟨front, name, split, slashless, named⟩ := exists_name slash (getLast?_rdropWhile path)
  refine ⟨front, name, count, ?_, slashless, named⟩
  rw [← slashes, split, append_assoc, cons_append]

namespace Split

variable (split : Split path front name count)

include split

theorem components_eq : components path = components front ++ [name] := by
  rw [split.path_eq, components_append_slash, components_append_slashes,
    components_of_not_mem split.slashless split.named]

/-- The first scan from the end finds the last component. -/
theorem pathComponentBackward_default : pathComponentBackward defaultTempCursorValue path =
    .ok (some ⟨front.length + 1, name.length⟩, front.length) := by
  have skip := backwardLoop_slashes (front ++ '/' :: name) [] (front.length + name.length + 3) count
  have stop := @backwardLoop_name front name split.slashless split.named
    (replicate count '/') (front.length + name.length + 2)
  have regroup : front ++ '/' :: name ++ (replicate count '/' ++ []) = path := by
    rw [split.path_eq, append_nil, append_assoc, cons_append]
  rw [regroup] at skip
  rw [← split.path_eq] at stop
  have fuel : path.length + 2 = front.length + name.length + 3 + count := by
    rw [split.path_eq]
    simp only [length_append, length_cons, length_replicate]
    omega
  have cursor : path.length = (front ++ '/' :: name).length + count := by
    rw [← regroup, length_append, append_nil, length_replicate]
  unfold pathComponentBackward
  rw [if_pos rfl, fuel, cursor, skip]
  exact stop

theorem nameFromPath_eq : nameFromPath path = .ok (some (name ++ replicate count '/')) := by
  have text : path.drop (front.length + 1) = name ++ replicate count '/' := by
    rw [split.path_eq, drop_append]
    simp
  unfold nameFromPath
  rw [split.pathComponentBackward_default]
  exact congrArg (fun rest => Except.ok (some rest)) text

theorem dirname_eq : dirname path =
    if front.rdropWhile (· = '/') = [] then ['/'] else front.rdropWhile (· = '/') := by
  have last := @getLast?_name front name split.slashless split.named
  have without : (front ++ '/' :: name).rdropWhile (· ≠ '/') = front ++ ['/'] := by
    have others : ∀ c ∈ name.reverse, decide (c ≠ '/') = true := by
      intro c inside
      have other : c ≠ '/' := fun slash => split.slashless (slash ▸ mem_reverse.mp inside)
      exact decide_eq_true other
    rw [rdropWhile, reverse_append, reverse_cons, append_assoc,
      dropWhile_append_of_pos others]
    simp
  have regroup : path = front ++ '/' :: name ++ replicate count '/' := by
    rw [split.path_eq, append_assoc, cons_append]
  unfold dirname
  rw [regroup, rdropWhile_slashes last, without, rdropWhile_concat_pos _ _ _ (by simp)]

theorem components_dirname : components (dirname path) = (components path).dropLast := by
  obtain ⟨slashes, front_eq⟩ := exists_slashes front
  have same : components (front.rdropWhile (· = '/')) = components front := by
    rw [← components_append_slashes _ slashes, front_eq]
  rw [split.components_eq, dropLast_concat, split.dirname_eq, ← same]
  split_ifs with root
  · rw [root]
    rfl
  · rfl

variable (absolute : path.head? = some '/')

include absolute

/-- The directory is a part of the path from its start. -/
theorem take_dirname :
    path.take (dirname path).length = dirname path := by
  rw [split.dirname_eq]
  split_ifs with root
  · obtain ⟨rest, rfl⟩ := head?_eq_some_iff.mp absolute
    rfl
  · have front_prefix : front <+: path := ⟨_, split.path_eq.symm⟩
    exact (prefix_iff_eq_take.mp (List.rdropWhile_prefix _ _ |>.trans front_prefix)).symm

theorem head?_dirname : (dirname path).head? = some '/' := by
  have some_dirname : 0 < (dirname path).length := by
    rw [split.dirname_eq, length_pos_iff_ne_nil]
    split_ifs with root
    · exact cons_ne_nil _ _
    · exact root
  rw [← split.take_dirname absolute, head?_take, if_neg some_dirname.ne', absolute]

/-- The second scan from the end finds the directory. -/
theorem pathSubpathBackward_eq : ∃ cursor,
    pathSubpathBackward front.length path = .ok (some ((dirname path).length : ℤ), cursor) := by
  obtain ⟨slashes, front_eq⟩ := exists_slashes front
  have front_length : front.length = (front.rdropWhile (· = '/')).length + slashes := by
    rw [← length_replicate (n := slashes) (a := '/'), ← length_append, front_eq]
  have regroup : path = front.rdropWhile (· = '/') ++
      (replicate slashes '/' ++ '/' :: (name ++ replicate count '/')) := by
    rw [← append_assoc, front_eq, ← split.path_eq]
  obtain ⟨fuel, enough⟩ : ∃ fuel, path.length + 2 = fuel + 1 + slashes := by
    refine ⟨path.length + 1 - slashes, ?_⟩
    rw [split.path_eq, length_append]
    omega
  have skip := backwardLoop_slashes (front.rdropWhile (· = '/'))
    ('/' :: (name ++ replicate count '/')) (fuel + 1) slashes
  rw [← regroup, ← front_length, ← enough] at skip
  have scan : pathComponentBackward front.length path =
      backwardLoop path (fuel + 1) (front.rdropWhile (· = '/')).length := by
    unfold pathComponentBackward
    rw [if_neg (natCast_ne_default _), skip]
  unfold pathSubpathBackward
  rw [scan, split.dirname_eq]
  split_ifs with root
  · rw [root]
    exact ⟨-1, by rw [length_nil, Nat.cast_zero, backwardLoop_root absolute]; rfl⟩
  · have slash : '/' ∈ front.rdropWhile (· = '/') := by
      rw [regroup, head?_append_of_ne_nil _ root] at absolute
      exact mem_of_mem_head? absolute
    obtain ⟨above, last, directory, slashless, named⟩ :=
      exists_name slash (getLast?_rdropWhile front)
    refine ⟨above.length, ?_⟩
    have whole : path = above ++ '/' :: (last ++
        (replicate slashes '/' ++ '/' :: (name ++ replicate count '/'))) := by
      rw [regroup, directory, append_assoc, cons_append]
    have stop := @backwardLoop_name above last slashless named
      (replicate slashes '/' ++ '/' :: (name ++ replicate count '/')) fuel
    have subpath : ((above.length + 1 : ℕ) : ℤ) + last.length =
        ((above ++ '/' :: last).length : ℤ) := by
      simp only [length_append, length_cons]
      omega
    rw [← whole] at stop
    rw [directory, stop, ← subpath]
    rfl

end Split

theorem cachedLookupParentInodeByPath_eq (absolute : path.head? = some '/')
    (below : components path ≠ []) :
    cachedLookupParentInodeByPath fs path = cachedLookupInodeByPath fs (dirname path) := by
  obtain ⟨front, name, count, split⟩ := exists_split absolute below
  obtain ⟨cursor, second⟩ := split.pathSubpathBackward_eq absolute
  have not_root : path ≠ ['/'] := by
    rintro rfl
    exact below rfl
  have first : pathSubpathBackward defaultTempCursorValue path =
      .ok (some ((front.length + 1 : ℕ) + name.length), front.length) := by
    unfold pathSubpathBackward
    rw [split.pathComponentBackward_default]
    rfl
  unfold cachedLookupParentInodeByPath
  rw [first]
  simp only [bind, Except.bind, if_neg not_root, second, Int.toNat_natCast,
    split.take_dirname absolute]

/-- The parent and the name are those of the last component just if no slash follows it and none is
repeated behind a component of the directory above. -/
theorem parent_and_name_iff (absolute : path.head? = some '/') (below : components path ≠ []) :
    ((∀ fs, Leads fs (dirname path) →
        cachedLookupParentInodeByPath fs path = .ok (fold fs (components path).dropLast)) ∧
      nameFromPath path = .ok (components path).getLast?) ↔
    path.getLast? ≠ some '/' ∧ Straight (dirname path) := by
  obtain ⟨front, name, count, split⟩ := exists_split absolute below
  have parent : (∀ fs, Leads fs (dirname path) → cachedLookupParentInodeByPath fs path =
      .ok (fold fs (components path).dropLast)) ↔ Straight (dirname path) := by
    simp only [cachedLookupParentInodeByPath_eq absolute below, ← split.components_dirname]
    exact forall_inodeByPath_iff (split.head?_dirname absolute)
  have trailing : nameFromPath path = .ok (components path).getLast? ↔
      path.getLast? ≠ some '/' := by
    rw [split.nameFromPath_eq, split.components_eq, getLast?_concat, split.path_eq]
    cases count with
    | zero =>
      have last := @getLast?_name front name split.slashless split.named
      rw [replicate_zero, append_nil]
      exact iff_of_true rfl last
    | succ count =>
      have last : (front ++ '/' :: (name ++ replicate (count + 1) '/')).getLast? =
          some '/' := by
        have regroup : front ++ '/' :: (name ++ replicate (count + 1) '/') =
            (front ++ '/' :: (name ++ replicate count '/')) ++ ['/'] := by
          rw [replicate_succ', append_assoc, cons_append, append_assoc]
        rw [regroup, getLast?_concat]
      simp [last]
  rw [parent, trailing, and_comm]

/-- A repeated slash before the name does no harm. -/
theorem parent_and_name_of_repeated_slash :
    Leads twoLevels (dirname "/a//b".toList) ∧
    cachedLookupParentInodeByPath twoLevels "/a//b".toList = .ok 4 ∧
    nameFromPath "/a//b".toList = .ok (some ['b']) := by
  have straight : Straight (dirname "/a//b".toList) := by
    unfold Straight
    decide
  have leads : Leads twoLevels (dirname "/a//b".toList) := ⟨3, rfl⟩
  obtain ⟨parent, name⟩ := (parent_and_name_iff (by decide) (by decide)).mpr ⟨by decide, straight⟩
  exact ⟨leads, parent twoLevels leads, name⟩

/-- A trailing slash becomes a part of the name. -/
theorem parent_and_name_of_trailing_slash :
    (components "/a/b/".toList).getLast? = some ['b'] ∧
    nameFromPath "/a/b/".toList = .ok (some ['b', '/']) := by
  decide

end

end Zfs.Path
