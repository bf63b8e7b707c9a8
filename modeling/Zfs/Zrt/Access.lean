import Zfs.Zrt.LowLevel
import Zfs.Path.Code

/-!
# Permissions and open flags

The low level reads and writes ask for no permission.  What stands between a caller and a file is
what `zfs_open` asked for, and the test of the flags in every operation.
`toplevel_access` asks for the permission on the directory of the path.
-/

namespace Zfs.Zrt

/-- An operation that reads or changes the contents of a file. -/
inductive Use where
  | read
  | pread (offset : ℤ)
  | write
  | pwrite (offset : ℤ)
  | ftruncateSize (length : ℤ)

namespace Use

variable (use : Use) (oflag : BitVec 32)

/-- The operation, with what the layer below returns. -/
def run (tables : Tables) (fd ret : ℤ) (stat : ℤ × Stat) : Except Halt (Reply Unit) :=
  match use with
  | read => toplevelRead tables fd fun _ _ => (ret, ())
  | pread offset => toplevelPread tables fd offset fun _ _ => (ret, ())
  | write => toplevelWrite tables fd fun _ _ => (ret, ())
  | pwrite offset => toplevelPwrite tables fd offset fun _ _ => (ret, ())
  | ftruncateSize length =>
    toplevelFtruncateSize tables fd length (fun _ => stat) fun _ => (ret, ())

/-- The operation reads. -/
def Reads : Use → Prop
  | read | pread _ => True
  | _ => False

/-- The access modes for which the operation may be made. -/
def Permitted : Prop :=
  oflag &&& oAccmode = oRdwr ∨
    (use.Reads ∧ oflag &&& oAccmode = oRdonly ∨ ¬use.Reads ∧ oflag &&& oAccmode = oWronly)

/-- A permission under which the operation may be made. -/
def Covered (mode : BitVec 32) : Prop :=
  use.Reads ∧ mode &&& vread ≠ 0 ∨ ¬use.Reads ∧ mode &&& vwrite ≠ 0

/-- The operation calls the layer below, on a descriptor with the flags. -/
def Reaches : Prop :=
  ∃ tables fd ret stat ofd reply, tables.ofd fd = some ofd ∧ ofd.flags = oflag ∧
    use.run tables fd ret stat = .ok reply ∧ reply.below.isSome

/-- The test of the flags. -/
def allowed : Use → Bool
  | read | pread _ => readAllowed oflag
  | write | pwrite _ => writeAllowed oflag
  | ftruncateSize _ => oflag &&& oAccmode = oWronly ∨ oflag &&& oAccmode = oRdwr

/-- Tables in which every handle has a description with the flags. -/
def oneDescription : Tables :=
  ⟨fun _ => some ⟨5, 0⟩, 0, fun _ => 1, fun _ => ⟨0, 0, oflag⟩, 0⟩

theorem reaches_iff : use.Reaches oflag ↔ use.allowed oflag := by
  constructor
  · rintro ⟨tables, fd, ret, stat, ofd, reply, described, rfl, done, reached⟩
    obtain ⟨entry, held, -⟩ := Option.bind_eq_some_iff.mp described
    by_contra refused
    cases use with
    | read | pread | write | pwrite =>
      simp only [allowed] at refused
      simp only [run, toplevelRead, toplevelPread, toplevelWrite, toplevelPwrite, transfer, held,
        described, refused] at done
      cases done
      cases reached
    | ftruncateSize length =>
      simp only [allowed, Bool.decide_or, Bool.or_eq_true, decide_eq_true_eq, not_or] at refused
      simp only [run, toplevelFtruncateSize, held, described, ne_eq, refused,
        not_false_eq_true, and_self, if_true] at done
      split_ifs at done
      all_goals
        cases done
        cases reached
  · intro test
    have entry : (oneDescription oflag).entry 0 = some ⟨5, 0⟩ := by
      simp [Tables.entry, Tables.InRange, maxHandlesCount, oneDescription]
    have used : (oneDescription oflag).VerifyOfd 0 := by
      simp [Tables.VerifyOfd, Tables.InRange, maxHandlesCount, oneDescription]
    have described : (oneDescription oflag).ofd 0 = some ⟨0, 0, oflag⟩ := by
      rw [Tables.ofd, entry, Option.bind_some, Tables.poolOfd, if_pos used]
      rfl
    -- the layer below fails
    refine ⟨oneDescription oflag, 0, -1, (0, ⟨false⟩), _,
      ⟨-1, some 1, oneDescription oflag, some ()⟩, described, rfl, ?_, rfl⟩
    cases use with
    | read | pread | write | pwrite =>
      simp only [allowed] at test
      simp only [run, toplevelRead, toplevelPread, toplevelWrite, toplevelPwrite, transfer, entry,
        described, test, if_true]
      rfl
    | ftruncateSize length =>
      have mode : ¬(oflag &&& oAccmode ≠ oWronly ∧ oflag &&& oAccmode ≠ oRdwr) := by
        simpa [allowed, or_iff_not_imp_left] using test
      simp only [run, toplevelFtruncateSize, entry, described, if_neg mode]
      rfl

end Use

/-- Every operation that reaches the layer below has its permission. -/
def Guarded (oflag : BitVec 32) : Prop :=
  ∀ use : Use, use.Reaches oflag → use.Permitted oflag ∧
    ∀ o inode name target, (zfsOpen o inode name oflag).error = 0 →
      (has oflag oCreat = false → target = inode) →
        ∃ mode, .access target mode ∈ (zfsOpen o inode name oflag).trace ∧ use.Covered mode

theorem accmode_cases (oflag : BitVec 32) : oflag &&& oAccmode = oRdonly ∨
    oflag &&& oAccmode = oWronly ∨ oflag &&& oAccmode = oRdwr ∨ oflag &&& oAccmode = 3 := by
  have value : (oflag &&& oAccmode).toNat = oflag.toNat % 4 := by
    rw [BitVec.toNat_and]
    exact Nat.and_two_pow_sub_one_eq_mod _ 2
  have bound : oflag.toNat % 4 < 4 := Nat.mod_lt _ (by decide)
  simp only [← BitVec.toNat_inj, value]
  interval_cases oflag.toNat % 4 <;> simp [oRdonly, oWronly, oRdwr]

theorem and_accmode (oflag flag : BitVec 32) (inside : oAccmode &&& flag = flag) :
    oflag &&& flag = oflag &&& oAccmode &&& flag := by
  rw [BitVec.and_assoc, inside]

theorem access_mem_zfsOpen {o : Outcome} {inode : ℤ} {name : Option (List Char)}
    {oflag : BitVec 32} (create : has oflag oCreat = false)
    (opened : (zfsOpen o inode name oflag).error = 0) :
    .access inode (if has oflag oDirectory then vread ||| vexec else zfsMode oflag) ∈
      (zfsOpen o inode name oflag).trace := by
  unfold zfsOpen at opened ⊢
  by_cases directory : has oflag oDirectory
  · simp only [directory, if_true, zfsOpendir, zfsEnter, zfsZget] at opened ⊢
    split_ifs at opened ⊢ <;> simp_all [openOut, eio, enoent, enotdir]
  · simp only [directory, create, Bool.false_eq_true, if_false, named, zfsEnter, zfsZget]
      at opened ⊢
    split_ifs at opened ⊢ <;> simp_all [openOut, eio, enoent, enametoolong]

theorem zfsOpen_success (oflag : BitVec 32) : zfsOpen success 5 none oflag =
    if has oflag oDirectory then ⟨[.enter, .hold 5, .access 5 (vread ||| vexec), .exit], 0, 0⟩
    else if has oflag oCreat then ⟨[.enter, .hold 5, .hold 6, .rele 5, .exit], 0, 6⟩
    else ⟨[.enter, .hold 5, .access 5 (zfsMode oflag), .exit], 0, 0⟩ := by
  by_cases directory : has oflag oDirectory
  · simp [zfsOpen, directory, zfsOpendir, zfsEnter, zfsZget, openOut, success]
  · by_cases create : has oflag oCreat <;>
      simp [zfsOpen, directory, create, named, maxnamelen, zfsEnter, zfsZget, zfsOpenVnode, openOut,
        internalStat, sizeError, success]

/-- The flags are enough exactly for `O_RDONLY`, and for `O_RDWR` of what is no directory, when
nothing is created. -/
theorem open_flags_guard_iff (oflag : BitVec 32) : Guarded oflag ↔ has oflag oCreat = false ∧
    (oflag &&& oAccmode = oRdonly ∨
      oflag &&& oAccmode = oRdwr ∧ has oflag oDirectory = false) := by
  have writable : writeAllowed oflag ↔ oflag &&& oAccmode ≠ oRdonly := by
    rw [writeAllowed, checkFlag, checkFlag, and_accmode oflag oWronly rfl,
      and_accmode oflag oRdwr rfl]
    rcases accmode_cases oflag with mode | mode | mode | mode <;> rw [mode] <;> decide
  have asked_mode : zfsMode oflag = if oflag &&& oAccmode = oRdonly then vread
      else if oflag &&& oAccmode = oRdwr then vread ||| vwrite else vwrite := by
    rw [zfsMode, has, has, and_accmode oflag oWronly rfl,
      and_accmode oflag oRdwr rfl]
    rcases accmode_cases oflag with mode | mode | mode | mode <;> rw [mode] <;> decide
  constructor
  · intro guarded
    obtain ⟨permitted, covered⟩ := guarded .read ((Use.reaches_iff _ _).mpr (by
      simp [Use.allowed, readAllowed, checkFlag, oRdonly]))
    have opened : (zfsOpen success 5 none oflag).error = 0 := by
      rw [zfsOpen_success]
      split_ifs <;> rfl
    have create : has oflag oCreat = false := by
      by_contra create
      obtain ⟨mode, asked, -⟩ := covered success 5 none 7 opened fun none => absurd none create
      rw [zfsOpen_success] at asked
      split_ifs at asked <;> simp_all
    refine ⟨create, ?_⟩
    rcases permitted with both | ⟨-, read_only⟩ | ⟨writes, -⟩
    · refine .inr ⟨both, ?_⟩
      by_contra directory
      obtain ⟨-, covered⟩ := guarded .write ((Use.reaches_iff _ _).mpr
        (writable.mpr (by rw [both]; decide)))
      obtain ⟨mode, asked, ⟨reads, -⟩ | ⟨-, written⟩⟩ :=
        covered success 5 none 5 opened fun _ => rfl
      · exact reads
      · rw [zfsOpen_success, if_pos (by simpa using directory)] at asked
        obtain rfl : mode = vread ||| vexec := by simpa using asked
        exact written rfl
    · exact .inl read_only
    · exact absurd trivial writes
  · rintro ⟨create, mode⟩ use reaches
    rw [Use.reaches_iff] at reaches
    have reads_only : oflag &&& oAccmode = oRdonly → use.Reads := by
      intro read_only
      cases use with
      | read | pread => trivial
      | write | pwrite => exact absurd read_only (writable.mp reaches)
      | ftruncateSize length => simp [Use.allowed, read_only, oRdonly, oWronly, oRdwr] at reaches
    constructor
    · rcases mode with read_only | ⟨both, -⟩
      · exact .inr (.inl ⟨reads_only read_only, read_only⟩)
      · exact .inl both
    · intro o inode name target opened same
      obtain rfl := same create
      refine ⟨_, access_mem_zfsOpen create opened, ?_⟩
      rw [asked_mode]
      rcases mode with read_only | ⟨both, no_directory⟩
      · refine .inl ⟨reads_only read_only, ?_⟩
        rw [if_pos read_only]
        split_ifs <;> decide
      · have both_modes : ¬oRdwr = oRdonly := by decide
        rw [no_directory, both, if_neg Bool.false_ne_true, if_neg both_modes, if_pos rfl]
        by_cases reads : use.Reads
        · exact .inl ⟨reads, by decide⟩
        · exact .inr ⟨reads, by decide⟩

/-- A file opened with `O_WRONLY` is read. -/
theorem open_flags_not_guard : Use.read.Reaches oWronly ∧ ¬Use.read.Permitted oWronly ∧
    ¬Guarded oWronly := by
  have reached : Use.read.Reaches oWronly := (Use.reaches_iff _ _).mpr (by decide)
  have refused : ¬Use.read.Permitted oWronly := by
    rintro (both | ⟨-, read_only⟩ | ⟨writes, -⟩)
    · exact absurd both (by decide)
    · exact absurd read_only (by decide)
    · exact writes trivial
  exact ⟨reached, refused, fun guarded => refused (guarded .read reached).1⟩

/-- A file system with the objects of a path and their permissions. -/
structure World where
  fs : Path.LowLevelFilesystem
  /-- The path of an existing file. -/
  path : List Char
  /-- The inode of its directory. -/
  parent : ℤ
  /-- The inode of the file. -/
  file : ℤ
  /-- The directory is found. -/
  parent_eq : Path.cachedLookupParentInodeByPath fs path = .ok parent
  /-- The file is found. -/
  file_eq : Path.cachedLookupInodeByPath fs path = .ok file
  /-- The directory is an object. -/
  parent_pos : 3 ≤ parent
  /-- The file is an object. -/
  file_pos : 3 ≤ file
  /-- What `VOP_ACCESS` returns for an object. -/
  vopAccess : ℤ → BitVec 32 → ℕ
  /-- What `VOP_OPEN` returns for the file and the flags. -/
  vopOpen : BitVec 32 → ℕ
  vtype : Vtype
  vaSize : ℕ

namespace World

variable (world : World)

/-- The calls succeed, but for the permission asked for and `VOP_OPEN`. -/
def outcome (inode : ℤ) (mode oflag : BitVec 32) : Outcome :=
  { success with
    access := world.vopAccess inode mode
    open_ := world.vopOpen oflag
    vtype := world.vtype
    vaSize := world.vaSize }

variable (tables : Tables) (oflag mask : BitVec 32)

def toplevelAccess : Except Halt ℤ := do
  let inode ← Path.cachedLookupParentInodeByPath world.fs world.path
  if inode = -2 then return -1
  let done := zfsAccess (world.outcome inode (accessMode mask) 0) inode mask
  return if done.ret < 0 then -1 else done.ret

/-- The calls of `toplevel_open` for the path. -/
def openCalls : OpenCalls Done where
  parentInodeByPath := Path.cachedLookupParentInodeByPath world.fs world.path
  nameFromPath := Path.nameFromPath world.path
  inodeByPath := Path.cachedLookupInodeByPath world.fs world.path
  lowlevelOpen inode name :=
    let done := zfsOpen (world.outcome inode (zfsMode oflag) oflag) inode name oflag
    (done.ret, done)
  inodeByPathAfter _ := Path.cachedLookupInodeByPath world.fs world.path

/-- The call below fails with what `VOP_ACCESS` returned, or with an error of `VOP_OPEN` that says
that a permission is missing. -/
def Denied (done : Done) : Prop :=
  done.error ≠ 0 ∧
    ((∃ vp mode, .access vp mode ∈ done.trace ∧ done.error = world.vopAccess vp mode) ∨
      done.error = world.vopOpen oflag ∧ (done.error = eperm ∨ done.error = eacces))

/-- The `open` of the path is refused for lack of permission. -/
def Refused : Prop :=
  ∃ reply done, toplevelOpen tables oflag (world.openCalls oflag) = .ok reply ∧
    reply.below = some done ∧ world.Denied oflag done

/-- A regular file that needs `O_LARGEFILE`. -/
abbrev Large : Prop := world.vtype = .vreg ∧ maxoff32 < world.vaSize

/-- `VOP_ACCESS` and `VOP_OPEN` let the file be opened. -/
def Opens : Prop :=
  world.vopAccess world.file (zfsMode oflag) = 0 ∧
    world.vopOpen oflag ≠ eperm ∧ world.vopOpen oflag ≠ eacces

theorem toplevelAccess_eq_ok_zero :
    world.toplevelAccess mask = .ok 0 ↔ world.vopAccess world.parent (accessMode mask) = 0 := by
  have found : world.parent ≠ -2 := by
    have := world.parent_pos
    omega
  have ret : (zfsAccess (world.outcome world.parent (accessMode mask) 0) world.parent mask).ret =
      -world.vopAccess world.parent (accessMode mask) := by
    simp [zfsAccess, zfsEnter, zfsZget, outcome, success]
  have value : world.toplevelAccess mask = .ok (if -(world.vopAccess world.parent
      (accessMode mask) : ℤ) < 0 then -1 else -world.vopAccess world.parent (accessMode mask)) := by
    rw [toplevelAccess, world.parent_eq]
    simp only [bind, Except.bind, if_neg found, ret]
    rfl
  rw [value, Except.ok.injEq]
  by_cases granted : world.vopAccess world.parent (accessMode mask) = 0
  · simp [granted]
  · rw [if_pos (by omega)]
    simp [granted]

/-- When the `open` below ends for lack of permission. -/
theorem denied_iff {oflag : BitVec 32} (plain : oflag = oRdonly ∨ oflag = oWronly) {done : Done}
    (opened : zfsOpen (world.outcome world.file (zfsMode oflag) oflag) world.file none oflag =
      done) : world.Denied oflag done ↔ ¬world.Large ∧ ¬world.Opens oflag := by
  have flags : has oflag oDirectory = false ∧ has oflag oCreat = false ∧
      has oflag oLargefile = false ∧ has oflag oNofollow = false := by
    rcases plain with rfl | rfl <;> decide
  obtain ⟨directory, create, large, follow⟩ := flags
  have size : sizeError (world.outcome world.file (zfsMode oflag) oflag) oflag =
      if world.Large then eoverflow else 0 := by
    by_cases regular : world.vtype = .vreg <;>
      simp [sizeError, large, outcome, success, regular, Large]
  have open_ : zfsOpenVnode (world.outcome world.file (zfsMode oflag) oflag) world.file oflag =
      openOut world.file (world.vopOpen oflag) (-world.vopOpen oflag) := by
    by_cases opens : world.vopOpen oflag = 0 <;>
      simp [zfsOpenVnode, follow, create, outcome, success, opens]
  simp only [zfsOpen, directory, create, Bool.false_eq_true, if_false, named, zfsEnter, zfsZget,
    size, open_] at opened
  subst opened
  unfold Denied Opens
  by_cases huge : world.Large
  · rw [if_pos huge]
    simp [huge, outcome, success, openOut, eoverflow, eperm, eacces, maxnamelen]
  · rw [if_neg huge]
    by_cases access : world.vopAccess world.file (zfsMode oflag) = 0
    · by_cases opens : world.vopOpen oflag = 0
      · simp [huge, access, opens, outcome, success, openOut, eperm, eacces, maxnamelen]
      · simp [huge, access, opens, outcome, success, openOut, maxnamelen, or_iff_not_imp_left]
    · simp [huge, access, outcome, success, openOut, maxnamelen]

theorem refused_iff {oflag : BitVec 32} (plain : oflag = oRdonly ∨ oflag = oWronly) :
    world.Refused tables oflag ↔ ¬world.Large ∧ ¬world.Opens oflag := by
  have positive := world.file_pos
  have opened : ∃ reply, toplevelOpen tables oflag (world.openCalls oflag) = .ok reply ∧
      reply.below =
        some (zfsOpen (world.outcome world.file (zfsMode oflag) oflag) world.file none oflag) := by
    have create : checkFlag oflag oCreat = false := by
      rcases plain with rfl | rfl <;> decide
    have parent_found : world.parent ≠ -2 := by
      have := world.parent_pos
      omega
    have file_found : world.file ≠ -2 := by omega
    simp only [toplevelOpen, openCalls, world.parent_eq, world.file_eq, create, bind, Except.bind,
      if_neg parent_found, if_neg file_found, Bool.false_eq_true, if_false, openDescriptor,
      show ¬world.file ≤ 0 by omega, pure, Except.pure]
    split_ifs <;> exact ⟨_, rfl, rfl⟩
  obtain ⟨reply, returned, below⟩ := opened
  rw [← world.denied_iff plain rfl]
  constructor
  · rintro ⟨reply', done, returned', below', denied⟩
    cases returned.symm.trans returned'
    obtain rfl := Option.mem_unique below below'
    exact denied
  · exact fun denied => ⟨reply, _, returned, below, denied⟩

end World

/-- What `access` says is what `open` will find exactly when `VOP_ACCESS` says of the directory what
it and `VOP_OPEN` say of the file. -/
theorem access_iff_open (world : World) (tables : Tables) (mask oflag : BitVec 32)
    (probe : mask = 4 ∧ oflag = oRdonly ∨ mask = 2 ∧ oflag = oWronly) :
    (world.toplevelAccess mask = .ok 0 ↔ ¬world.Refused tables oflag) ↔
      (world.vopAccess world.parent (zfsMode oflag) = 0 ↔ world.Large ∨ world.Opens oflag) := by
  have same : accessMode mask = zfsMode oflag := by
    rcases probe with ⟨rfl, rfl⟩ | ⟨rfl, rfl⟩ <;> decide
  rw [world.toplevelAccess_eq_ok_zero, same,
    world.refused_iff tables (probe.imp And.right And.right)]
  tauto

/-- The file `/a`, with the inode 4, in the directory 3. -/
def fileInRoot (vopAccess : ℤ → BitVec 32 → ℕ) (vopOpen : BitVec 32 → ℕ) : World where
  fs := ⟨fun _ _ => .ok 4, fun _ _ _ found => by cases found; decide⟩
  path := ['/', 'a']
  parent := 3
  file := 4
  parent_eq := rfl
  file_eq := rfl
  parent_pos := le_rfl
  file_pos := by decide
  vopAccess := vopAccess
  vopOpen := vopOpen
  vtype := .vreg
  vaSize := 0

/-- The file may be read, and its directory too. -/
theorem access_iff_open_public :
    ((fileInRoot (fun _ _ => 0) fun _ => 0).toplevelAccess 4 = .ok 0 ↔
      ¬(fileInRoot (fun _ _ => 0) fun _ => 0).Refused (Use.oneDescription 0) oRdonly) :=
  (access_iff_open (fileInRoot (fun _ _ => 0) fun _ => 0) (Use.oneDescription 0) 4 oRdonly
    (.inl ⟨rfl, rfl⟩)).mpr (iff_of_true rfl (.inr ⟨rfl, by decide, by decide⟩))

/-- A file that may not be read, in a directory that may be. -/
theorem access_not_iff_open :
    (fileInRoot (fun inode _ => if inode = 3 then 0 else 13) fun _ => 0).toplevelAccess 4 = .ok 0 ∧
    (fileInRoot (fun inode _ => if inode = 3 then 0 else 13) fun _ => 0).Refused
      (Use.oneDescription 0) oRdonly := by
  rw [World.toplevelAccess_eq_ok_zero, World.refused_iff _ _ (.inl rfl)]
  simp [fileInRoot, World.Large, World.Opens, maxoff32]

end Zfs.Zrt
