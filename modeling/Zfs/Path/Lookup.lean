import Mathlib.Data.List.TakeWhile
import Zfs.Path.Code

/-!
# Where the lookup of a path leads

The lookup of a path goes through the pieces between its slashes.  An empty piece is taken for the
root, so that a repeated slash starts the walk again, and the walk does not stop at a lookup that
fails.
-/

namespace Zfs.Path

open List

/-- The non-empty components of a path. -/
def components (path : List Char) : List (List Char) :=
  (path.splitOn '/').filter (· ≠ [])

/-- The pieces between slashes, without an empty last one. -/
def steps (path : List Char) : List (List Char) :=
  if (path.splitOn '/').getLast? = some [] then (path.splitOn '/').dropLast else path.splitOn '/'

variable (fs : LowLevelFilesystem)

/-- What folding the lookup over names from the root returns. -/
def fold (names : List (List Char)) : ℤ := answer (names.foldlM fs.lookup 3)

/-- No slash is repeated behind a component. -/
def Straight (path : List Char) : Prop := [] ∉ (steps path).dropWhile (· = [])

/-- All components but the last one are found. -/
def Leads (path : List Char) : Prop :=
  ∃ inode, (components path).dropLast.foldlM fs.lookup 3 = .ok inode

/-- The walk over one piece: an empty one is taken for the root. -/
def step (inode : ℤ) (piece : List Char) : Option ℤ :=
  if piece = [] then some 3
  else if inode < 3 then none else some (answer (fs.lookup inode piece))

variable {path front piece rest : List Char}

theorem natCast_ne_default (cursor : ℕ) : (cursor : ℤ) ≠ defaultTempCursorValue := by
  unfold defaultTempCursorValue
  omega

theorem pathComponentForward_end (path : List Char) :
    (pathComponentForward (path.length + 1 : ℕ) path).1 = none := by
  have outside : ¬ ((path.length + 1 : ℕ) : ℤ) ≤ path.length := by omega
  have nothing : locateFirstOccurence (path.drop (path.length + 1))
      (path.length - (path.length + 1 : ℕ)) '/' = none := by
    rw [drop_eq_nil_of_le (Nat.le_succ _), locateFirstOccurence, take_nil]
    rfl
  unfold pathComponentForward
  simp only [if_neg (natCast_ne_default _), Int.toNat_natCast, nothing, if_neg outside]
  rfl

/-- A failed assertion as the result of a walk that breaks off. -/
def ofWalk : Option ℤ → Except Halt ℤ
  | none => .error .panic
  | some inode => .ok inode

section

variable (names : '/' ∉ piece)

include names

theorem findIdx?_slash_of_not_mem : piece.findIdx? (· == '/') = none := by
  rw [findIdx?_eq_none_iff]
  intro c inside
  rw [beq_eq_false_iff_ne]
  rintro rfl
  exact names inside

theorem pathComponentForward_slash (absolute : (front ++ (piece ++ '/' :: rest)).head? = some '/') :
    pathComponentForward front.length (front ++ (piece ++ '/' :: rest)) =
      (some (Component.mk front.length (if piece = [] then 1 else piece.length)),
        ((front ++ (piece ++ ['/'])).length : ℤ)) := by
  have slash : locateFirstOccurence (piece ++ '/' :: rest) (piece ++ '/' :: rest).length '/' =
      some piece.length := by
    rw [locateFirstOccurence, Int.toNat_natCast, take_length, findIdx?_append,
      findIdx?_slash_of_not_mem names, findIdx?_cons]
    simp
  have below : ((front ++ (piece ++ '/' :: rest)).length : ℤ) - front.length =
      (piece ++ '/' :: rest).length := by simp
  unfold pathComponentForward
  simp only [if_neg (natCast_ne_default _), Int.toNat_natCast, drop_left, below, slash, absolute]
  cases piece with
  | nil => simp
  | cons c piece =>
    have positive : (0 : ℤ) < (c :: piece).length := by simp
    rw [if_pos positive]
    simp
    omega

/-- The last component; nothing is returned behind a trailing slash. -/
theorem pathComponentForward_last :
    pathComponentForward front.length (front ++ piece) =
      (if piece = [] then none else some (Component.mk front.length piece.length),
        (((front ++ piece).length + 1 : ℕ) : ℤ)) := by
  have no_slash : locateFirstOccurence piece piece.length '/' = none := by
    rw [locateFirstOccurence, Int.toNat_natCast, take_length, findIdx?_slash_of_not_mem names]
  have below : ((front ++ piece).length : ℤ) - front.length = piece.length := by simp
  have inside : (front.length : ℤ) ≤ (front ++ piece).length := by simp
  unfold pathComponentForward
  simp only [if_neg (natCast_ne_default _), Int.toNat_natCast, drop_left, below, no_slash,
    if_pos inside]
  cases piece with
  | nil => simp
  | cons c piece =>
    have positive : (0 : ℤ) < (c :: piece).length := by simp
    rw [if_pos positive]
    simp
    omega

theorem steps_slash : steps (piece ++ '/' :: rest) = piece :: steps rest := by
  unfold steps
  rw [splitOn_append_cons_self_of_not_mem names]
  obtain ⟨first, others, pieces⟩ := exists_cons_of_ne_nil (splitOn_ne_nil '/' rest)
  rw [pieces]
  simp only [getLast?_cons_cons, dropLast_cons_cons]
  split_ifs <;> rfl

theorem steps_last : steps piece = if piece = [] then [] else [piece] := by
  unfold steps
  rw [splitOn_eq_singleton names]
  simp

/-- The first character of a component is a slash just if the component is empty. -/
theorem getElem?_piece :
    (front ++ (piece ++ '/' :: rest))[front.length]? = some '/' ↔ piece = [] := by
  rw [getElem?_append_right le_rfl, Nat.sub_self]
  cases piece with
  | nil => simp
  | cons c piece =>
    have other : c ≠ '/' := fun slash => names (slash ▸ mem_cons_self)
    simp [other]

end

variable {fs}

/-- The loop ends behind the last component. -/
theorem inodeByPathLoop_end {fuel : ℕ} (enough : 0 < fuel) (inode : ℤ) :
    inodeByPathLoop fs path fuel (path.length + 1 : ℕ) inode = .ok inode := by
  obtain ⟨fuel, rfl⟩ := Nat.exists_eq_succ_of_ne_zero enough.ne'
  have stop := pathComponentForward_end path
  unfold inodeByPathLoop
  split
  · rfl
  · rename_i component cursor returned
    rw [returned] at stop
    cases stop

/-- The loop goes through the pieces that are left. -/
theorem inodeByPathLoop_eq {tail : List Char} {fuel : ℕ} {inode : ℤ}
    (absolute : (front ++ tail).head? = some '/') (enough : tail.length + 1 < fuel) :
    inodeByPathLoop fs (front ++ tail) fuel front.length inode =
      ofWalk ((steps tail).foldlM (step fs) inode) := by
  induction fuel generalizing front tail inode with
  | zero => exact absurd enough (Nat.not_lt_zero _)
  | succ fuel ih =>
    by_cases slash : '/' ∈ tail
    · obtain ⟨piece, rest, rfl, names⟩ := eq_append_cons_of_mem slash
      have onward (next : ℤ) :
          inodeByPathLoop fs (front ++ (piece ++ '/' :: rest)) fuel
              (front ++ (piece ++ ['/'])).length next =
            ofWalk ((steps rest).foldlM (step fs) next) := by
        have regroup : front ++ (piece ++ '/' :: rest) =
            (front ++ (piece ++ ['/'])) ++ rest := by simp
        rw [regroup] at absolute ⊢
        refine ih absolute ?_
        simp only [length_append, length_cons] at enough
        omega
      rw [inodeByPathLoop, pathComponentForward_slash names absolute, steps_slash names,
        foldlM_cons]
      simp only [getElem?_piece names]
      by_cases empty : piece = []
      · rw [if_pos ⟨if_pos empty, empty⟩, onward 3, step, if_pos empty]
        rfl
      · have looked_up : step fs inode piece =
            if inode < 3 then none else some (answer (fs.lookup inode piece)) := if_neg empty
        rw [if_neg fun root => empty root.2, looked_up]
        by_cases failed : inode < 3
        · rw [if_pos failed, if_pos failed]
          rfl
        · rw [if_neg failed, if_neg failed, onward]
          simp [Component.text, empty]
    · rw [inodeByPathLoop, pathComponentForward_last slash, steps_last slash]
      by_cases empty : tail = []
      · rw [if_pos empty, if_pos empty]
        rfl
      · have not_root : (front ++ tail)[front.length]? ≠ some '/' := by
          rw [getElem?_append_right le_rfl, Nat.sub_self]
          intro first
          exact slash (mem_of_getElem? first)
        have some_fuel : 0 < fuel := by omega
        rw [if_neg empty, if_neg empty]
        simp only [not_root, and_false, if_false]
        rw [inodeByPathLoop_end some_fuel, foldlM_cons, step, if_neg empty]
        by_cases failed : inode < 3
        · rw [if_pos failed, if_pos failed]
          rfl
        · rw [if_neg failed, if_neg failed]
          simp [Component.text, ofWalk]

theorem components_eq_filter (path : List Char) :
    components path = (steps path).filter (· ≠ []) := by
  unfold components steps
  split_ifs with trailing
  · obtain ⟨others, pieces⟩ := getLast?_eq_some_iff.mp trailing
    rw [pieces, dropLast_concat, filter_append]
    simp
  · rfl

/-- The pieces of an absolute path are empty ones and what follows the first component. -/
theorem steps_eq (absolute : path.head? = some '/') : ∃ count,
    steps path = replicate (count + 1) [] ++ (steps path).dropWhile (· = []) := by
  obtain ⟨rest, rfl⟩ := head?_eq_some_iff.mp absolute
  have first : steps ('/' :: rest) = [] :: steps rest := @steps_slash [] rest not_mem_nil
  have empties : (steps rest).takeWhile (· = []) =
      replicate ((steps rest).takeWhile (· = [])).length [] :=
    eq_replicate_of_mem fun piece inside => by simpa using mem_takeWhile_imp inside
  refine ⟨((steps rest).takeWhile (· = [])).length, ?_⟩
  rw [first, replicate_succ, cons_append, ← empties, dropWhile_cons_of_pos (by simp),
    takeWhile_append_dropWhile]

theorem foldlM_step_replicate (count : ℕ) (names : List (List Char)) (inode : ℤ) :
    (replicate (count + 1) [] ++ names).foldlM (step fs) inode = names.foldlM (step fs) 3 := by
  induction count generalizing inode with
  | zero => rfl
  | succ count ih =>
    rw [replicate_succ, cons_append, foldlM_cons, step, if_pos rfl]
    exact ih 3

theorem step_of_name {name : List Char} (named : name ≠ []) {inode : ℤ} (found : 3 ≤ inode) :
    step fs inode name = some (answer (fs.lookup inode name)) := by
  rw [step, if_neg named, if_neg (not_lt.mpr found)]

/-- Without empty pieces the walk is the fold, if all names but the last one are found. -/
theorem foldlM_step_of_found {names : List (List Char)} {inode last : ℤ} (named : [] ∉ names)
    (start : 3 ≤ inode) (found : names.dropLast.foldlM fs.lookup inode = .ok last) :
    names.foldlM (step fs) inode = some (answer (names.foldlM fs.lookup inode)) := by
  induction names generalizing inode with
  | nil => rfl
  | cons name rest ih =>
    obtain ⟨here, later⟩ := not_or.mp (mt mem_cons.mpr named)
    have first := @step_of_name fs name (Ne.symm here) inode start
    cases rest with
    | nil =>
      rw [foldlM_cons, foldlM_cons, first]
      cases fs.lookup inode name <;> rfl
    | cons second rest =>
      rw [dropLast_cons_cons, foldlM_cons] at found
      rw [foldlM_cons, foldlM_cons, first]
      cases looked : fs.lookup inode name with
      | ok next =>
        rw [looked] at found
        exact ih later (fs.three_le _ _ _ looked) found
      | error error =>
        rw [looked] at found
        cases found

/-- The walk breaks off where a name other than the last one is not found. -/
theorem foldlM_step_of_missing (errors : ∀ parent name error, fs.lookup parent name = .error error →
      error < 3) {names : List (List Char)} {inode error : ℤ} (named : [] ∉ names)
    (start : 3 ≤ inode) (missing : names.dropLast.foldlM fs.lookup inode = .error error) :
    names.foldlM (step fs) inode = none := by
  induction names generalizing inode with
  | nil => cases missing
  | cons name rest ih =>
    obtain ⟨here, later⟩ := not_or.mp (mt mem_cons.mpr named)
    cases rest with
    | nil => cases missing
    | cons second rest =>
      rw [dropLast_cons_cons, foldlM_cons] at missing
      rw [foldlM_cons, step_of_name (Ne.symm here) start]
      cases looked : fs.lookup inode name with
      | ok next =>
        rw [looked] at missing
        exact ih later (fs.three_le _ _ _ looked) missing
      | error error =>
        have other : second ≠ [] := fun empty => later (empty ▸ mem_cons_self)
        have stops : step fs error second = none := by
          rw [step, if_neg other, if_pos (errors _ _ _ looked)]
        change (second :: rest).foldlM (step fs) error = none
        rw [foldlM_cons, stops]
        rfl

/-- A tree in which every name leads one directory down. -/
def chain : LowLevelFilesystem where
  lookup parent _ := .ok (max parent 3 + 1)
  three_le _ _ _ found := by cases found; omega

theorem foldlM_chain (names : List (List Char)) {inode : ℤ} (start : 3 ≤ inode) :
    names.foldlM chain.lookup inode = .ok (inode + names.length) := by
  induction names generalizing inode with
  | nil => exact congrArg Except.ok (Int.add_zero inode).symm
  | cons name rest ih =>
    have down : chain.lookup inode name = .ok (inode + 1) := by
      simp [chain, max_eq_left start]
    rw [foldlM_cons, down]
    refine (ih (by omega)).trans ?_
    rw [length_cons]
    congr 1
    push_cast
    ring

/-- In the chain the walk comes down at most by the number of names, from the root after an empty
piece. -/
theorem foldlM_step_chain (pieces : List (List Char)) {inode : ℤ} (start : 3 ≤ inode) :
    ∃ last, pieces.foldlM (step chain) inode = some last ∧
    last ≤ inode + (pieces.filter (· ≠ [])).length ∧
    ([] ∈ pieces → last ≤ 3 + (pieces.filter (· ≠ [])).length) := by
  induction pieces generalizing inode with
  | nil => exact ⟨inode, rfl, by simp, by simp⟩
  | cons piece rest ih =>
    by_cases empty : piece = []
    · obtain ⟨last, walked, bounded, -⟩ := ih (le_refl 3)
      refine ⟨last, ?_, ?_, fun _ => ?_⟩
      · rw [foldlM_cons, step, if_pos empty]
        exact walked
      · simp only [empty, ne_eq, not_true_eq_false, decide_false, Bool.false_eq_true,
          not_false_eq_true, filter_cons_of_neg] at bounded ⊢
        omega
      · simpa [empty] using bounded
    · obtain ⟨last, walked, bounded, restarted⟩ := ih (by omega : 3 ≤ inode + 1)
      refine ⟨last, ?_, ?_, fun inside => ?_⟩
      · rw [foldlM_cons, step_of_name empty start]
        simpa [chain, answer, max_eq_left start] using walked
      · rw [filter_cons_of_pos (by simpa using empty), length_cons]
        push_cast
        omega
      · have := restarted ((mem_cons.mp inside).resolve_left (Ne.symm empty))
        rw [filter_cons_of_pos (by simpa using empty), length_cons]
        push_cast
        omega

section

variable (absolute : path.head? = some '/')

include absolute

/-- The lookup walks over the pieces behind the first slashes. -/
theorem cachedLookupInodeByPath_eq : cachedLookupInodeByPath fs path =
    ofWalk (((steps path).dropWhile (· = [])).foldlM (step fs) 3) := by
  obtain ⟨count, pieces⟩ := steps_eq absolute
  have start := @inodeByPathLoop_eq fs [] path (path.length + 2) (-1) absolute (by omega)
  refine start.trans ?_
  nth_rewrite 1 [pieces]
  rw [foldlM_step_replicate]

theorem components_eq_dropWhile :
    components path = ((steps path).dropWhile (· = [])).filter (· ≠ []) := by
  obtain ⟨count, pieces⟩ := steps_eq absolute
  rw [components_eq_filter]
  nth_rewrite 1 [pieces]
  rw [filter_append, filter_replicate]
  simp

theorem components_of_straight (straight : Straight path) :
    components path = (steps path).dropWhile (· = []) := by
  rw [components_eq_dropWhile absolute, filter_eq_self]
  intro name inside
  simpa using fun empty : name = [] => straight (empty ▸ inside)

theorem inodeByPath_of_leads (straight : Straight path) (leads : Leads fs path) :
    cachedLookupInodeByPath fs path = .ok (fold fs (components path)) := by
  obtain ⟨last, found⟩ := leads
  rw [components_of_straight absolute straight] at found ⊢
  rw [cachedLookupInodeByPath_eq absolute, foldlM_step_of_found straight le_rfl found]
  rfl

theorem inodeByPath_of_not_leads (straight : Straight path)
    (errors : ∀ parent name error, fs.lookup parent name = .error error → error < 3)
    (misled : ¬ Leads fs path) : cachedLookupInodeByPath fs path = .error .panic := by
  unfold Leads at misled
  rw [components_of_straight absolute straight] at misled
  cases missing : ((steps path).dropWhile (· = [])).dropLast.foldlM fs.lookup 3 with
  | ok last => exact absurd ⟨last, missing⟩ misled
  | error error =>
    rw [cachedLookupInodeByPath_eq absolute,
      foldlM_step_of_missing errors straight le_rfl missing]
    rfl

/-- In the chain a repeated slash behind a component leads back up. -/
theorem inodeByPath_chain (repeated : ¬ Straight path) :
    cachedLookupInodeByPath chain path ≠ .ok (fold chain (components path)) := by
  have inside := not_not.mp repeated
  rw [cachedLookupInodeByPath_eq absolute, components_eq_dropWhile absolute]
  obtain ⟨name, others, pieces⟩ := exists_cons_of_ne_nil (ne_nil_of_mem inside)
  have named : name ≠ [] := by
    have first := head?_dropWhile_not (fun piece => decide (piece = [])) (steps path)
    simpa [pieces] using first
  rw [pieces] at inside ⊢
  obtain ⟨last, walked, -, restarted⟩ := foldlM_step_chain others (by omega : (3 : ℤ) ≤ 3 + 1)
  have bounded := restarted ((mem_cons.mp inside).resolve_left (Ne.symm named))
  have first : step chain 3 name = some (3 + 1) := step_of_name named le_rfl
  have reached : (name :: others).foldlM (step chain) 3 = some last := by
    rw [foldlM_cons, first]
    exact walked
  rw [reached, fold, foldlM_chain _ le_rfl, filter_cons_of_pos (by simpa using named), length_cons]
  intro same
  have := Except.ok.inj same
  simp only [answer] at this
  push_cast at this
  omega

theorem forall_inodeByPath_iff :
    (∀ fs, Leads fs path → cachedLookupInodeByPath fs path = .ok (fold fs (components path))) ↔
      Straight path := by
  refine ⟨fun right => ?_, fun straight fs => inodeByPath_of_leads absolute straight⟩
  by_contra repeated
  refine inodeByPath_chain absolute repeated (right chain ⟨_, foldlM_chain _ le_rfl⟩)

/-- The lookup of an absolute path is the fold over its components, wherever all but the last of
them are found, just if no slash is repeated behind one.  Then it is the fold only there, unless an
error is returned like an inode. -/
theorem inode_by_path_eq_fold_iff :
    ((∀ fs, Leads fs path → cachedLookupInodeByPath fs path = .ok (fold fs (components path))) ↔
      Straight path) ∧
    (Straight path → ∀ fs : LowLevelFilesystem,
      (∀ parent name error, fs.lookup parent name = .error error → error < 3) →
        (cachedLookupInodeByPath fs path = .ok (fold fs (components path)) ↔ Leads fs path)) := by
  refine ⟨forall_inodeByPath_iff absolute, fun straight fs errors => ⟨fun right => ?_, ?_⟩⟩
  · by_contra misled
    rw [inodeByPath_of_not_leads absolute straight errors misled] at right
    cases right
  · exact inodeByPath_of_leads absolute straight

end

/-- A tree with a directory `a` that has an entry `b`. -/
def twoLevels : LowLevelFilesystem where
  lookup parent name :=
    if parent = 3 ∧ name = ['a'] then .ok 4
    else if parent = 4 ∧ name = ['b'] then .ok 5 else .error (-2)
  three_le parent name inode found := by
    split_ifs at found <;> cases found <;> decide

/-- A trailing slash does no harm. -/
theorem inode_by_path_of_trailing_slash :
    Straight "/a/b/".toList ∧ Leads twoLevels "/a/b/".toList ∧
    cachedLookupInodeByPath twoLevels "/a/b/".toList = .ok 5 := by
  have straight : Straight "/a/b/".toList := by
    unfold Straight
    decide
  have leads : Leads twoLevels "/a/b/".toList := ⟨4, rfl⟩
  exact ⟨straight, leads, (inode_by_path_eq_fold_iff (by decide)).1.mpr straight twoLevels leads⟩

/-- A repeated slash looks `b` up in the root instead of `a`, and a missing directory stops the
program. -/
theorem inode_by_path_ne_fold :
    (fold twoLevels (components "/a//b".toList) = 5 ∧
      cachedLookupInodeByPath twoLevels "/a//b".toList = .ok (-2)) ∧
    (fold twoLevels (components "/x/y".toList) = -2 ∧
      cachedLookupInodeByPath twoLevels "/x/y".toList = .error .panic) := by
  decide

end Zfs.Path
