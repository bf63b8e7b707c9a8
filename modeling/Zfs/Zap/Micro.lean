import Mathlib.Data.List.Sort
import Mathlib.Logic.Function.Basic
import Zfs.Zap.Expand

/-!
# The entries of a normalizing micro ZAP

The operations of `zap_micro.c` on one 64-bit integer for each name, as long as the ZAP stays a
micro ZAP of one size.  The tree is ordered by the hash of the normalized name; no name with a long
normalized form is looked for, while the limit for a new entry is on the name itself.
-/

namespace Zfs.Mzap

open Function List

def enotsup : ℕ := 95

/-- `MZAP_NAME_LEN`. -/
def mzapNameLen : ℕ := 64 - 8 - 4 - 2

/-- A name for which `zap_add` and `zap_update` keep the micro ZAP. -/
abbrev Name := { name : List UInt8 // name.length < mzapNameLen }

/-- `u8_textprep_str` with the flags of the ZAP, and its salted hash. -/
structure Header where
  /-- The normalized name. -/
  normalize : Name → Option (List UInt8)
  /-- The hash of a normalized name. -/
  hash : List UInt8 → ℕ

structure ZapName where
  /-- The name. -/
  nameOrij : Name
  /-- The normalized name. -/
  nameNorm : List UInt8
  hash : ℕ

structure MzapEnt where
  /-- The hash of the normalized name. -/
  mzeHash : ℕ
  /-- The differentiator of equal hashes. -/
  mzeCd : ℕ
  mzeName : Name
  deriving DecidableEq

/-- The nodes of the tree, in order, and the value of each. -/
structure ZapT where
  zapAvl : List MzapEnt
  mzeValue : MzapEnt → ℕ

variable (header : Header) (name : Name) (value : ℕ) (zn : ZapName) (zap : ZapT)

/-- `mze_compare` does not return 1. -/
def MzeLe (mze₁ mze₂ : MzapEnt) : Prop :=
  mze₁.mzeHash < mze₂.mzeHash ∨ mze₁.mzeHash = mze₂.mzeHash ∧ mze₁.mzeCd ≤ mze₂.mzeCd

instance : DecidableRel MzeLe := fun _ _ => inferInstanceAs (Decidable (_ ∨ _))

def zapNameAlloc : Option ZapName :=
  (header.normalize name).map fun norm => ⟨name, norm, header.hash norm⟩

/-- The nodes with a hash, which lie side by side in the tree. -/
def ZapT.sameHash (hash : ℕ) : List MzapEnt := zap.zapAvl.filter (·.mzeHash = hash)

/-- `mze_find` for an exact match. -/
def mzeFind : Option MzapEnt :=
  if zn.nameNorm.length ≥ mzapNameLen then none
  else (zap.sameHash zn.hash).find? (·.mzeName = zn.nameOrij)

/-- The loop of `mze_find_unused_cd`. -/
def mzeFindUnusedCd : List MzapEnt → ℕ → ℕ
  | [], cd => cd
  | mze :: rest, cd => if mze.mzeCd = cd then mzeFindUnusedCd rest (cd + 1) else cd

def mzapAddent : ZapT :=
  let mze := ⟨zn.hash, mzeFindUnusedCd (zap.sameHash zn.hash) 0, zn.nameOrij⟩
  ⟨zap.zapAvl.orderedInsert MzeLe mze, update zap.mzeValue mze value⟩

/-- An operation, by what it does with an entry and without. -/
def withName {α : Type} (failed : ℕ → α) (missing : ZapName → α) (found : MzapEnt → α) : α :=
  match zapNameAlloc header name with
  | none => failed enotsup
  | some zn => (mzeFind zn zap).elim (missing zn) found

def zapAdd : ℕ × ZapT :=
  withName header name zap (·, zap) (fun zn => (0, mzapAddent value zn zap))
    fun _ => (Zap.eexist, zap)

def zapUpdate : ℕ × ZapT :=
  withName header name zap (·, zap) (fun zn => (0, mzapAddent value zn zap)) fun mze =>
    (0, ⟨zap.zapAvl, update zap.mzeValue mze value⟩)

def zapRemove : ℕ × ZapT :=
  withName header name zap (·, zap) (fun _ => (enoent, zap)) fun mze =>
    (0, ⟨zap.zapAvl.erase mze, zap.mzeValue⟩)

/-- `zap_lookup`: the error or the value. -/
def zapLookup : Except ℕ ℕ :=
  withName header name zap .error (fun _ => .error enoent) fun mze => .ok (zap.mzeValue mze)

/-- The calls that change the ZAP. -/
inductive Op where
  | add (name : Name) (value : ℕ)
  | update (name : Name) (value : ℕ)
  | remove (name : Name)

/-- The ZAP, and what the calls that returned 0 have put into it. -/
abbrev World := ZapT × (Name → Option ℕ)

/-- What a call returns, and what it has put in under its name. -/
def World.record (world : World) (content : Option ℕ) (result : ℕ × ZapT) : World :=
  (result.2, if result.1 = 0 then update world.2 name content else world.2)

def step (world : World) : Op → World
  | .add name value => world.record name (some value) (zapAdd header name value world.1)
  | .update name value => world.record name (some value) (zapUpdate header name value world.1)
  | .remove name => world.record name none (zapRemove header name world.1)

/-- The calls on a new ZAP. -/
def run (ops : List Op) : World := ops.foldl (step header) (⟨[], fun _ => 0⟩, fun _ => none)

/-- The ZAP is a map of exact names. -/
structure Lawful (world : World) : Prop where
  /-- No name has two entries. -/
  nodup : (world.1.zapAvl.map (·.mzeName)).Nodup
  /-- What was put in is found. -/
  found : ∀ name value, world.2 name = some value → zapLookup header name world.1 = .ok value
  /-- It is not added again. -/
  refused : ∀ name value, world.2 name = some value →
    ∀ value', (zapAdd header name value' world.1).1 = Zap.eexist

/-- The normalized form of a name that is added is short. -/
def Op.Short : Op → Prop
  | .add name _ | .update name _ =>
    ∀ zn, zapNameAlloc header name = some zn → zn.nameNorm.length < mzapNameLen
  | .remove _ => True

variable {header name value zn zap} {mze : MzapEnt} {contents : Name → Option ℕ}

theorem nameOrij_eq (alloc : zapNameAlloc header name = some zn) : zn.nameOrij = name := by
  obtain ⟨norm, -, rfl⟩ := Option.map_eq_some_iff.mp alloc
  rfl

theorem mzeFind_some (search : mzeFind zn zap = some mze) :
    mze ∈ zap.zapAvl ∧ mze.mzeName = zn.nameOrij := by
  rw [mzeFind] at search
  split_ifs at search
  exact ⟨(mem_filter.mp (mem_of_find?_eq_some search)).1,
    by simpa using List.find?_some search⟩

theorem withName_cases {α : Type} (post : α → Prop) {failed : ℕ → α} {missing : ZapName → α}
    {found : MzapEnt → α} (fails : post (failed enotsup))
    (misses : ∀ zn, zapNameAlloc header name = some zn → mzeFind zn zap = none → post (missing zn))
    (finds : ∀ mze ∈ zap.zapAvl, mze.mzeName = name → post (found mze)) :
    post (withName header name zap failed missing found) := by
  rw [withName]
  cases alloc : zapNameAlloc header name with
  | none => exact fails
  | some zn =>
    cases search : mzeFind zn zap with
    | none => simpa [search] using misses zn alloc search
    | some mze =>
      obtain ⟨member, same⟩ := mzeFind_some search
      simpa [search] using finds mze member (same.trans (nameOrij_eq alloc))

/-- An entry lies under the hash of a short normalized form of its name. -/
def Named (header : Header) (mze : MzapEnt) : Prop :=
  ∃ zn, zapNameAlloc header mze.mzeName = some zn ∧ mze.mzeHash = zn.hash ∧
    zn.nameNorm.length < mzapNameLen

/-- Every name that is present has an entry. -/
structure Inv (header : Header) (world : World) : Prop where
  /-- No name has two entries. -/
  nodup : (world.1.zapAvl.map (·.mzeName)).Nodup
  /-- Entries can be found. -/
  named : ∀ mze ∈ world.1.zapAvl, Named header mze
  /-- What was put in has an entry. -/
  contents : ∀ name value, world.2 name = some value →
    ∃ mze ∈ world.1.zapAvl, mze.mzeName = name ∧ world.1.mzeValue mze = value

section

variable (inv : Inv header (zap, contents))

include inv

theorem Inv.find (member : mze ∈ zap.zapAvl) :
    ∃ zn, zapNameAlloc header mze.mzeName = some zn ∧ mzeFind zn zap = some mze := by
  obtain ⟨zn, alloc, hash, short⟩ := inv.named mze member
  refine ⟨zn, alloc, ?_⟩
  cases search : mzeFind zn zap with
  | none =>
    rw [mzeFind, if_neg (by omega), List.find?_eq_none] at search
    have other := search mze (mem_filter.mpr ⟨member, by simpa using hash⟩)
    simp [nameOrij_eq alloc] at other
  | some other =>
    obtain ⟨member', same⟩ := mzeFind_some search
    rw [nameOrij_eq alloc] at same
    rw [inj_on_of_nodup_map inv.nodup member' member same]

theorem Inv.lawful : Lawful header (zap, contents) := by
  refine ⟨inv.nodup, fun name value present => ?_, fun name value present value' => ?_⟩
  all_goals
    obtain ⟨mze, member, rfl, rfl⟩ := inv.contents name value present
    obtain ⟨zn, alloc, search⟩ := inv.find member
  · simp [zapLookup, withName, alloc, search]
  · simp [zapAdd, withName, alloc, search]

theorem Inv.put {avl : List MzapEnt} (kept : ∀ mze ∈ zap.zapAvl, mze ∈ avl) (member : mze ∈ avl)
    (value : ℕ) (nodup : (avl.map (·.mzeName)).Nodup) (named : ∀ mze ∈ avl, Named header mze) :
    Inv header
      (⟨avl, update zap.mzeValue mze value⟩, update contents mze.mzeName (some value)) := by
  refine ⟨nodup, named, fun name content present => ?_⟩
  by_cases here : name = mze.mzeName
  · exact ⟨mze, member, here.symm, by simpa [here] using present⟩
  · obtain ⟨other, member', rfl, rfl⟩ := inv.contents name content (by simpa [here] using present)
    exact ⟨other, kept other member', rfl, update_of_ne (by grind) _ _⟩

theorem Inv.erase (mze : MzapEnt) :
    Inv header (⟨zap.zapAvl.erase mze, zap.mzeValue⟩, update contents mze.mzeName none) := by
  refine ⟨inv.nodup.sublist (erase_sublist.map _),
    fun other member => inv.named other (mem_of_mem_erase member),
    fun name content present => ?_⟩
  by_cases here : name = mze.mzeName
  · simp [here] at present
  · obtain ⟨other, member, rfl, rfl⟩ := inv.contents name content (by simpa [here] using present)
    exact ⟨other, (mem_erase_of_ne (by grind)).mpr member, rfl, rfl⟩

theorem Inv.mzapAddent (alloc : zapNameAlloc header name = some zn)
    (short : zn.nameNorm.length < mzapNameLen) (search : mzeFind zn zap = none) (value : ℕ) :
    Inv header (mzapAddent value zn zap, update contents name (some value)) := by
  rw [Mzap.mzapAddent, nameOrij_eq alloc]
  refine inv.put (by simp +contextual) (by simp) value ?_ fun mze member => ?_
  · rw [((perm_orderedInsert ..).map _).nodup_iff, map_cons, nodup_cons]
    refine ⟨fun present => ?_, inv.nodup⟩
    obtain ⟨mze, member, rfl⟩ := mem_map.mp present
    obtain ⟨zn', alloc', found⟩ := inv.find member
    grind
  · rcases (mem_orderedInsert _).mp member with rfl | member
    · exact ⟨zn, alloc, rfl, short⟩
    · exact inv.named mze member

end

theorem Inv.step {world : World} {op : Op} (inv : Inv header world) (short : op.Short header) :
    Inv header (step header world op) := by
  cases op with
  | add name value =>
    exact withName_cases (fun result => Inv header (world.record name (some value) result)) inv
      (fun zn alloc search => inv.mzapAddent alloc (short zn alloc) search value) fun _ _ _ => inv
  | update name value =>
    refine withName_cases (fun result => Inv header (world.record name (some value) result)) inv
      (fun zn alloc search => inv.mzapAddent alloc (short zn alloc) search value) ?_
    rintro mze member rfl
    exact inv.put (fun _ => id) member value inv.nodup inv.named
  | remove name =>
    refine withName_cases (fun result => Inv header (world.record name none result)) inv
      (fun _ _ _ => inv) ?_
    rintro mze - rfl
    exact inv.erase mze

/-- A normalizing micro ZAP is a map of exact names exactly as long as every name that is added has
a short normalized form. -/
theorem mzap_lawful_iff (header : Header) (ops : List Op) :
    (∀ done, done <+: ops → Lawful header (run header done)) ↔ ∀ op ∈ ops, op.Short header := by
  constructor
  · intro lawful op member
    obtain ⟨before, after, rfl⟩ := append_of_mem member
    have here := (lawful (before ++ [op]) (by simp)).found
    rw [run, foldl_append] at here
    cases op with
    | remove name => trivial
    | _ name value =>
      intro zn alloc
      by_contra long
      have found := here name value
      simp [step, World.record, zapAdd, zapUpdate, zapLookup, withName, alloc, mzeFind,
        not_lt.mp long] at found
  · intro short done before
    have inv : Inv header (run header done) :=
      foldlRecOn done (step header) ⟨.nil, nofun, nofun⟩ fun world inv op member =>
        inv.step (short op (before.subset member))
    exact inv.lawful

/-- Normalization form D, as far as U+1E69 goes: s, U+0323 and U+0307. -/
def decompose : List UInt8 → List UInt8
  | 0xe1 :: 0xb9 :: 0xa9 :: rest => 0x73 :: 0xcc :: 0xa3 :: 0xcc :: 0x87 :: decompose rest
  | byte :: rest => byte :: decompose rest
  | [] => []

/-- The 48 bytes of 16 times U+1E69, of which normalization makes 80, are added twice. -/
theorem not_lawful_decomposed :
    let header : Header := ⟨fun name => some (decompose name.1), List.length⟩
    let name : Name := ⟨(replicate 16 [0xe1, 0xb9, 0xa9]).flatten, by decide⟩
    ¬Lawful header (run header [.add name 1, .add name 2]) := by
  intro header name lawful
  have nodup := lawful.nodup
  revert nodup
  decide +kernel

end Zfs.Mzap
