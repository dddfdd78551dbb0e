import JobShell.Proofs.LastingNodes
import Mathlib.Data.List.Nodup
import Mathlib.Data.List.Perm.Subperm

/-! The absolute paths of directories. In a tree in which every directory has one name in one
parent, the path that is told of a directory leads back to it, from wherever it is walked. -/
namespace JobShell

/-! ### Names and paths -/

namespace Path

theorem isAbsolute_absolute (names : List Bytes) : isAbsolute (absolute names) = true := by
  cases names with
  | nil => rfl
  | cons name names => rfl

theorem not_mem_absolute {b : UInt8} (other : b ≠ Bytes.slash) {names : List Bytes}
    (plain : ∀ n ∈ names, b ∉ n) : b ∉ absolute names := by
  unfold absolute
  split
  · simpa using other
  · simpa [other] using plain

theorem pieces_append {name : Bytes} {names : List Bytes} (plain : Bytes.slash ∉ name)
    (others : ∀ n ∈ names, Bytes.slash ∉ n) :
    pieces (name ++ names.flatMap (Bytes.slash :: ·)) = name :: names := by
  have inside {n : Bytes} (h : Bytes.slash ∉ n) : ∀ b ∈ n, decide (b = Bytes.slash) = false :=
    fun b hb => decide_eq_false fun same => h (same ▸ hb)
  induction names generalizing name with
  | nil => rw [List.flatMap_nil, List.append_nil, pieces, List.splitOnP_eq_singleton (inside plain)]
  | cons n names ih =>
    rw [List.forall_mem_cons] at others
    rw [List.flatMap_cons, List.cons_append, pieces,
      List.splitOnP_append_cons_of_forall_mem (inside plain) _ (decide_eq_true rfl)]
    exact congrArg _ (ih others.1 others.2)

/-- A path is walked by the names that it is made up of. -/
theorem components_absolute {names : List Bytes}
    (plain : ∀ n ∈ names, n ≠ [] ∧ Bytes.slash ∉ n) : components (absolute names) = names := by
  by_cases none : names = []
  · subst none
    rfl
  have parts : pieces (absolute names) = [] :: names := by
    rw [absolute, if_neg (by simpa using none)]
    exact pieces_append (List.not_mem_nil) fun n hn => (plain n hn).2
  have kept : names.filter (!·.isEmpty) = names := by
    refine List.filter_eq_self.2 fun n hn => ?_
    simpa using (plain n hn).1
  have closed : (([] :: names).getLastD []).isEmpty = false := by
    rw [List.getLastD_cons, List.getLastD_eq_getLast?, List.getLast?_eq_some_getLast none,
      Option.getD_some]
    simpa using (plain _ (List.getLast_mem none)).1
  rw [components, parts, closed, List.filter_cons_of_neg (by simp), kept, Bool.and_false,
    if_neg Bool.false_ne_true, List.append_nil]

end Path

namespace FileTree

open Bytes (ofString)

variable {t u : FileTree} {dir id : NodeId} {names : List Bytes}

/-! ### Trees with one name for every directory -/

/-- Whether bytes can be the name of an entry. -/
def isName (name : Bytes) : Bool :=
  !name.isEmpty && name ≠ ofString "." && name ≠ ofString ".." && !name.contains Bytes.slash &&
    !name.contains 0 && name.length ≤ Path.maxComponentBytes

/-- A tree with a root in which every other directory has at most one entry, in its parent and under
a proper name. -/
structure Treelike (t : FileTree) : Prop where
  root : t.isDirectory root = true
  top : t.parent FileTree.root = FileTree.root
  below : ∀ dir name id, t.child? dir name = some id → t.isDirectory id = true →
    isName name = true ∧ id ≠ FileTree.root ∧ t.parent id = dir
  once : ∀ dir name name' id, t.child? dir name = some id → t.child? dir name' = some id →
    t.isDirectory id = true → name = name'

theorem Lasts.treelike (h : t.Lasts u) (treelike : t.Treelike) : u.Treelike := by
  -- What is a directory now was one before, and its entries were there.
  have before {dir id : NodeId} {name : Bytes} (entry : u.child? dir name = some id)
      (directory : u.isDirectory id = true) :
      t.child? dir name = some id ∧ t.isDirectory id = true := by
    rw [h.isDirectory_eq] at directory
    refine ⟨(h.entry dir name id entry).resolve_right fun new => ?_, directory⟩
    exact new.1 (has_of_isDirectory directory)
  refine ⟨by rw [h.isDirectory_eq, treelike.root],
    by rw [h.parent_eq treelike.root, treelike.top], ?_, ?_⟩
  · intro dir name id entry directory
    obtain ⟨entry, directory⟩ := before entry directory
    rw [h.parent_eq directory]
    exact treelike.below dir name id entry directory
  · intro dir name name' id entry entry' directory
    exact treelike.once dir name name' id (before entry directory).1 (before entry' directory).1
      (before entry directory).2

/-! ### Places of directories -/

/-- A directory is reached from the root by some names. -/
inductive At (t : FileTree) : NodeId → List Bytes → Prop where
  | root : At t root []
  | child {dir id : NodeId} {names : List Bytes} {name : Bytes} (above : At t dir names)
    (entry : t.child? dir name = some id) (directory : t.isDirectory id = true) :
    At t id (names ++ [name])

namespace At

theorem isDirectory (h : t.At id names) (treelike : t.Treelike) : t.isDirectory id = true := by
  cases h with
  | root => exact treelike.root
  | child _ _ directory => exact directory

theorem unique (treelike : t.Treelike) {names' : List Bytes} (h : t.At id names)
    (h' : t.At id names') : names = names' := by
  induction h generalizing names' with
  | root =>
    cases h' with
    | root => rfl
    | child above entry directory => exact absurd rfl (treelike.below _ _ _ entry directory).2.1
  | child above entry directory ih =>
    cases h' with
    | root => exact absurd rfl (treelike.below _ _ _ entry directory).2.1
    | child above' entry' _ =>
      obtain rfl := (treelike.below _ _ _ entry directory).2.2
      obtain rfl := (treelike.below _ _ _ entry' directory).2.2
      rw [ih above', treelike.once _ _ _ _ entry entry' directory]

/-- The directories on the way to another one are as many as its names, and the root. -/
theorem exists_way (treelike : t.Treelike) (h : t.At id names) :
    ∃ ids : List NodeId, ids.length = names.length + 1 ∧ ids.Nodup ∧
      ∀ i ∈ ids, ∃ above, t.At i above ∧ above.length ≤ names.length := by
  induction h with
  | root => exact ⟨[FileTree.root], rfl, List.pairwise_singleton _ _, by simpa using .root⟩
  | @child dir id names name above entry directory ih =>
    obtain ⟨ids, length, nodup, places⟩ := ih
    have here : t.At id (names ++ [name]) := .child above entry directory
    have long : (names ++ [name]).length = names.length + 1 := by simp
    refine ⟨id :: ids, by simp [length], List.nodup_cons.2 ⟨fun again => ?_, nodup⟩, ?_⟩
    · -- A directory is at one depth only, so that the way does not come to it twice.
      obtain ⟨names', place, shorter⟩ := places id again
      rw [here.unique treelike place] at long
      omega
    · rintro i (_ | ⟨_, hi⟩)
      · exact ⟨_, here, Nat.le_refl _⟩
      · obtain ⟨names', place, shorter⟩ := places i hi
        exact ⟨names', place, by omega⟩

theorem length_lt (treelike : t.Treelike) (h : t.At id names) : names.length < t.nodes.size := by
  obtain ⟨ids, length, nodup, places⟩ := h.exists_way treelike
  have inside : ids ⊆ List.range t.nodes.size := by
    intro i hi
    obtain ⟨above, place, -⟩ := places i hi
    obtain ⟨node, here⟩ :=
      Option.isSome_iff_exists.1 (has_of_isDirectory (place.isDirectory treelike))
    exact List.mem_range.2 (Array.getElem?_eq_some_iff.1 here).1
  have le := (List.subperm_of_subset nodup inside).length_le
  rw [List.length_range] at le
  omega

theorem of_lasts (h : t.Lasts u) (later : u.At id names) : t.At id names := by
  induction later with
  | root => exact .root
  | child above entry directory ih =>
    rw [h.isDirectory_eq] at directory
    refine .child ih ((h.entry _ _ _ entry).resolve_right fun new => ?_) directory
    exact new.1 (has_of_isDirectory directory)

end At

/-! ### Ways up and down -/

theorem isDirectory_of_child? {name : Bytes} (entry : t.child? dir name = some id) :
    t.isDirectory dir = true := by
  rw [child?, entries?] at entry
  rw [FileTree.isDirectory]
  split at entry
  · rfl
  · cases entry

theorem nameOf?_eq_some_iff (treelike : t.Treelike) (directory : t.isDirectory id = true)
    {name : Bytes} : t.nameOf? id = some name ↔ t.child? (t.parent id) name = some id := by
  unfold nameOf? child?
  cases here : t.entries? (t.parent id) with
  | none => simp
  | some entries =>
    have entry (n : Bytes) : t.child? (t.parent id) n = entries.get? n := by
      rw [child?, here, Option.bind_some]
    rw [Option.bind_some, Option.bind_some, Option.map_eq_some_iff]
    constructor
    · rintro ⟨e, found, rfl⟩
      have same : e.2 = id := by simpa using List.find?_some found
      rw [Listing.get?_eq_some_iff, ← same]
      exact List.mem_of_find?_eq_some found
    · intro found
      have mem := Listing.get?_eq_some_iff.1 found
      obtain ⟨e, first⟩ := Option.isSome_iff_exists.1
        (List.find?_isSome.2 ⟨_, mem, decide_eq_true rfl⟩ :
          (entries.entries.find? (·.2 = id)).isSome = true)
      have same : e.2 = id := by simpa using List.find?_some first
      have listed : entries.get? e.1 = some id :=
        Listing.get?_eq_some_iff.2 (same ▸ List.mem_of_find?_eq_some first)
      exact ⟨e, first, treelike.once (t.parent id) _ _ id ((entry _).trans listed)
        ((entry _).trans found) directory⟩

theorem trail?_of_at (treelike : t.Treelike) (h : t.At id names) {depth : Nat}
    (deep : names.length < depth) (below : List Bytes) :
    t.trail? depth id below = some (names ++ below) := by
  induction h generalizing depth below with
  | root =>
    obtain ⟨depth, rfl⟩ := Nat.exists_eq_succ_of_ne_zero (Nat.ne_of_gt (Nat.zero_lt_of_lt deep))
    rfl
  | @child dir id names name above entry directory ih =>
    rw [List.length_append, List.length_singleton] at deep
    obtain ⟨depth, rfl⟩ := Nat.exists_eq_succ_of_ne_zero (Nat.ne_of_gt (Nat.zero_lt_of_lt deep))
    obtain ⟨-, other, rfl⟩ := treelike.below _ _ _ entry directory
    rw [trail?, if_neg other, (nameOf?_eq_some_iff treelike directory).2 entry, Option.bind_some,
      ih (by omega), List.append_assoc]
    rfl

theorem at_of_trail? (treelike : t.Treelike) {depth : Nat} {below all : List Bytes}
    (directory : t.isDirectory id = true) (h : t.trail? depth id below = some all) :
    ∃ names, all = names ++ below ∧ t.At id names := by
  induction depth generalizing id below with
  | zero => cases h
  | succ depth ih =>
    rw [trail?] at h
    split at h
    · next top =>
      cases h
      exact ⟨[], rfl, top ▸ .root⟩
    · obtain ⟨name, named, h⟩ := Option.bind_eq_some_iff.1 h
      have entry := (nameOf?_eq_some_iff treelike directory).1 named
      obtain ⟨names, rfl, place⟩ := ih (isDirectory_of_child? entry) h
      exact ⟨names ++ [name], by simp, .child place entry directory⟩

theorem isLinked_iff (treelike : t.Treelike) (directory : t.isDirectory id = true) :
    t.isLinked id = true ↔ ∃ names, t.At id names := by
  rw [isLinked, Option.isSome_iff_exists]
  constructor
  · rintro ⟨all, h⟩
    obtain ⟨names, -, place⟩ := at_of_trail? treelike directory h
    exact ⟨names, place⟩
  · rintro ⟨names, place⟩
    exact ⟨_, trail?_of_at treelike place (Nat.lt_succ_of_lt (place.length_lt treelike)) []⟩

/-- The path that is told of a directory is made up of the names by which it is reached. -/
theorem pathOf?_eq_some_iff (treelike : t.Treelike) (directory : t.isDirectory id = true)
    {path : Bytes} :
    t.pathOf? id = some path ↔ ∃ names, t.At id names ∧ path = Path.absolute names := by
  rw [pathOf?, Option.map_eq_some_iff]
  constructor
  · rintro ⟨all, trail, rfl⟩
    obtain ⟨names, rfl, place⟩ := at_of_trail? treelike directory trail
    exact ⟨names, place, by rw [List.append_nil]⟩
  · rintro ⟨names, place, rfl⟩
    have trail := trail?_of_at treelike place (Nat.lt_succ_of_lt (place.length_lt treelike)) []
    rw [List.append_nil] at trail
    exact ⟨names, trail, rfl⟩

/-! ### Walking absolute paths -/

/-- A name that leads to a directory is walked as such. -/
theorem descend_of_child? (treelike : t.Treelike) {name : Bytes}
    (entry : t.child? dir name = some id) (directory : t.isDirectory id = true) (followLast : Bool)
    (rest : List Bytes) :
    t.descend followLast dir (name :: rest) = t.descend followLast id rest := by
  have proper := (treelike.below _ _ _ entry directory).1
  simp only [isName, Bool.and_eq_true, Bool.not_eq_true', decide_eq_true_eq] at proper
  obtain ⟨⟨⟨⟨⟨filled, dot⟩, dots⟩, -⟩, -⟩, short⟩ := proper
  obtain ⟨parent, entries, node⟩ := exists_of_isDirectory directory
  rw [descend_cons, if_neg (by simp [filled, dot]), if_neg dots, if_neg (Nat.not_lt.2 short), entry,
    Option.elim_some, node]
  rfl

theorem descend_of_at (treelike : t.Treelike) (h : t.At id names) (followLast : Bool)
    (rest : List Bytes) :
    t.descend followLast root (names ++ rest) = t.descend followLast id rest := by
  induction h generalizing rest with
  | root => rfl
  | child above entry directory ih =>
    rw [List.append_assoc, ih]
    exact descend_of_child? treelike entry directory followLast rest

theorem At.isName_of_mem (treelike : t.Treelike) (h : t.At id names) :
    ∀ n ∈ names, isName n = true := by
  induction h with
  | root => exact fun _ => nofun
  | child above entry directory ih =>
    intro n hn
    obtain hn | hn := List.mem_append.1 hn
    · exact ih n hn
    · exact List.mem_singleton.1 hn ▸ (treelike.below _ _ _ entry directory).1

theorem of_isName {name : Bytes} (proper : isName name = true) :
    name ≠ [] ∧ Bytes.slash ∉ name ∧ 0 ∉ name := by
  simp only [isName, Bool.and_eq_true, Bool.not_eq_true', List.contains_eq_mem,
    decide_eq_false_iff_not] at proper
  obtain ⟨⟨⟨⟨⟨filled, -⟩, -⟩, slashes⟩, zeros⟩, -⟩ := proper
  exact ⟨List.isEmpty_eq_false_iff.1 filled, slashes, zeros⟩

/-- The path of a directory leads to it, from wherever it is walked, unless it is too long for the
system. -/
theorem directoryAt_absolute (treelike : t.Treelike) (h : t.At id names) (dir : NodeId) :
    t.directoryAt dir (Path.absolute names) =
      if Path.maxBytes < (Path.absolute names).length then .error (.system .nameTooLong)
      else .ok id := by
  have plain : ∀ n ∈ names, n ≠ [] ∧ Bytes.slash ∉ n ∧ 0 ∉ n := fun n hn =>
    of_isName (h.isName_of_mem treelike n hn)
  have zeros : (Path.absolute names).contains 0 = false := by
    rw [List.contains_eq_mem, decide_eq_false_iff_not]
    exact Path.not_mem_absolute (by decide) fun n hn => (plain n hn).2.2
  have start := Path.isAbsolute_absolute names
  have filled : (Path.absolute names).isEmpty = false := by
    rw [List.isEmpty_eq_false_iff]
    intro empty
    rw [empty] at start
    cases start
  have walked : t.follow true maxLinks root (Path.components (Path.absolute names)) =
      .ok (.found id) := by
    rw [Path.components_absolute fun n hn => ⟨(plain n hn).1, (plain n hn).2.1⟩, follow]
    have arrived := descend_of_at treelike h true []
    rw [List.append_nil] at arrived
    rw [arrived]
    rfl
  have located : t.locateBytes true dir (Path.absolute names) =
      if Path.maxBytes < (Path.absolute names).length then .error (.system .nameTooLong)
      else .ok (.found id) := by
    rw [locateBytes, zeros, if_neg Bool.false_ne_true, filled, if_neg Bool.false_ne_true, start,
      if_pos rfl]
    dsimp only
    rw [walked]
  rw [directoryAt, lookupBytes, located]
  by_cases long : Path.maxBytes < (Path.absolute names).length
  · rw [if_pos long, if_pos long]
  · rw [if_neg long, if_neg long]
    exact if_pos (h.isDirectory treelike)

/-! ### Where walks from directories in the tree end -/

/-- No walk from a directory that is reached from the root leads out of the tree. -/
theorem Treelike.region (treelike : t.Treelike) : t.Region fun id => ∃ names, t.At id names where
  root := ⟨[], .root⟩
  parent dir := by
    rintro ⟨names, place⟩
    cases place with
    | root => exact treelike.top.symm ▸ ⟨[], .root⟩
    | child above entry directory =>
      exact (treelike.below _ _ _ entry directory).2.2.symm ▸ ⟨_, above⟩
  child dir name id := by
    rintro ⟨names, place⟩ entry directory
    exact ⟨names ++ [name], .child place entry directory⟩

/-- Whoever goes by a path from a directory in the tree to another one is in the tree there. -/
theorem exists_at_of_directoryAt (treelike : t.Treelike) (here : t.At dir names) {path : Bytes}
    (h : t.directoryAt dir path = .ok id) :
    t.isDirectory id = true ∧ ∃ names, t.At id names := by
  unfold directoryAt at h
  split at h
  · cases h
  next id found =>
  split at h
  · next directory =>
    cases h
    obtain place | ⟨other, -⟩ := treelike.region.lookupBytes ⟨names, here⟩ found
    · exact ⟨directory, place⟩
    · cases directory.symm.trans other
  · cases h

end FileTree
end JobShell
