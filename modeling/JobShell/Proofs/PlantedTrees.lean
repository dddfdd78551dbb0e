import JobShell.Host.World
import JobShell.Proofs.DirectoryPaths

/-! Trees as they are planted. Whatever is put into a tree under a path, all entries lead to nodes
and the directories form a tree. So it is in every world that a session starts in. -/
namespace JobShell

open Bytes (ofString)

namespace Path

/-- The pieces of a path have its bytes, but no slashes. -/
theorem of_mem_pieces {path piece : Bytes} (mem : piece ∈ pieces path) :
    Bytes.slash ∉ piece ∧ piece ⊆ path := by
  induction path generalizing piece with
  | nil =>
    rw [List.mem_singleton.1 mem]
    exact ⟨List.not_mem_nil, List.Subset.refl _⟩
  | cons b path ih =>
    rw [pieces, List.splitOnP_cons_eq_if_modifyHead] at mem
    change piece ∈ if _ then [] :: pieces path else (pieces path).modifyHead _ at mem
    split at mem
    · obtain rfl | mem := List.mem_cons.1 mem
      · exact ⟨List.not_mem_nil, List.nil_subset _⟩
      · exact ⟨(ih mem).1, List.subset_cons_of_subset b (ih mem).2⟩
    · next plain =>
      cases parts : pieces path with
      | nil => exact absurd parts (List.splitOnP_ne_nil _ _)
      | cons first others =>
        rw [parts] at mem ih
        obtain rfl | mem := List.mem_cons.1 mem
        · obtain ⟨slashes, inside⟩ := ih List.mem_cons_self
          refine ⟨?_, List.cons_subset_cons b inside⟩
          rw [List.mem_cons, not_or]
          exact ⟨fun same => plain (decide_eq_true same.symm), slashes⟩
        · obtain ⟨slashes, inside⟩ := ih (List.mem_cons_of_mem first mem)
          exact ⟨slashes, List.subset_cons_of_subset b inside⟩

end Path

namespace FileTree

/-- A tree whose entries lead to nodes, and whose directories have one name each. -/
structure Wellformed (t : FileTree) : Prop where
  sound : t.Sound
  treelike : t.Treelike

/-- A wellformed tree in which all directories of another one still are directories. -/
structure Extends (t u : FileTree) : Prop where
  wellformed : u.Wellformed
  stays : ∀ id, t.isDirectory id = true → u.isDirectory id = true

variable {t u v : FileTree} {dir id : NodeId} {name : Bytes}

theorem Wellformed.extends_self (h : t.Wellformed) : t.Extends t := ⟨h, fun _ => id⟩

theorem Extends.trans (h : t.Extends u) (h' : u.Extends v) : t.Extends v :=
  ⟨h'.wellformed, fun id directory => h'.stays id (h.stays id directory)⟩

theorem wellformed_empty : empty.Wellformed where
  sound := sound_empty
  treelike := by
    have none (dir : NodeId) (name : Bytes) : empty.child? dir name = none := by
      cases dir <;> rfl
    refine ⟨rfl, rfl, fun dir name id entry => ?_, fun dir name name' id entry => ?_⟩
    all_goals
      rw [none] at entry
      cases entry

/-! ### New nodes -/

/-- Whether a node may be made under a name: if it is a directory, it is an empty one in the right
place, and the name is a proper one. -/
def Fits (dir : NodeId) (name : Bytes) (n : Node) : Prop :=
  ∀ parent entries, n = .directory parent entries →
    isName name = true ∧ parent = dir ∧ entries = .empty

section
variable {n : Node} (directory : t.isDirectory dir = true)
include directory

/-- What was there is the same kind of node as before, with the same parent. -/
theorem create_of_has (name : Bytes) (n : Node) (old : t.Has id) :
    (t.create dir name n).2.isDirectory id = t.isDirectory id ∧
      (t.create dir name n).2.parent id = t.parent id := by
  obtain ⟨parent, entries, node⟩ := exists_of_isDirectory directory
  have other : id ≠ t.nodes.size := by
    rintro rfl
    exact t.not_has_size old
  have created := get?_create node name n id
  rw [if_neg other] at created
  by_cases same : dir = id
  · subst same
    rw [if_pos rfl] at created
    rw [isDirectory, isDirectory, FileTree.parent, FileTree.parent, created, node]
    exact ⟨rfl, rfl⟩
  · rw [if_neg same] at created
    rw [isDirectory, isDirectory, FileTree.parent, FileTree.parent, created]
    exact ⟨rfl, rfl⟩

theorem get?_create_size (name : Bytes) (n : Node) :
    (t.create dir name n).2.get? t.nodes.size = some n := by
  obtain ⟨parent, entries, node⟩ := exists_of_isDirectory directory
  rw [get?_create node, if_pos rfl]

theorem has_create (name : Bytes) (n : Node) (old : t.Has id) : (t.create dir name n).2.Has id := by
  obtain ⟨parent, entries, node⟩ := exists_of_isDirectory directory
  rw [Has, get?_create node]
  split
  · rfl
  split
  · rfl
  · exact old

/-- A directory that is made is in the directory where it is made, under a proper name. -/
theorem Fits.of_isDirectory (fits : Fits dir name n)
    (made : (t.create dir name n).2.isDirectory t.nodes.size = true) :
    isName name = true ∧ (t.create dir name n).2.parent t.nodes.size = dir := by
  obtain ⟨parent, entries, node⟩ := exists_of_isDirectory made
  obtain ⟨proper, rfl, -⟩ := fits parent entries
    (Option.some.inj ((get?_create_size directory name n).symm.trans node))
  rw [FileTree.parent, node]
  exact ⟨proper, rfl⟩

/-- An entry is the new one, or it was there and leads to what was there. -/
theorem entry_of_create (sound : t.Sound) (fits : Fits dir name n) {dir' : NodeId} {name' : Bytes}
    (entry : (t.create dir name n).2.child? dir' name' = some id) :
    (dir = dir' ∧ name = name' ∧ id = t.nodes.size) ∨
      t.child? dir' name' = some id ∧ t.Has id := by
  rw [child?_create_of_bare directory name fun parent entries node =>
    (fits parent entries node).2.2] at entry
  split at entry
  · next same => exact .inl ⟨same.1, same.2, (Option.some.inj entry).symm⟩
  · exact .inr ⟨entry, sound.child _ _ _ entry⟩

theorem Fits.sound (fits : Fits dir name n) (sound : t.Sound) :
    (t.create dir name n).2.Sound := by
  have kept {id : NodeId} (old : t.isDirectory id = true) :
      (t.create dir name n).2.isDirectory id = true := by
    rw [(create_of_has directory name n (has_of_isDirectory old)).1, old]
  refine ⟨kept sound.root, fun id made => ?_, fun dir' name' id entry => ?_⟩
  · obtain rfl | old := has_of_has_create directory (has_of_isDirectory made)
    · rw [(fits.of_isDirectory directory made).2]
      exact kept directory
    · obtain ⟨kind, parent⟩ := create_of_has directory name n old
      rw [kind] at made
      rw [parent]
      exact kept (sound.parent id made)
  · obtain ⟨-, -, rfl⟩ | ⟨-, old⟩ := entry_of_create directory sound fits entry
    · exact has_of_get? (get?_create_size directory name n)
    · exact has_create directory name n old

theorem Fits.treelike (fits : Fits dir name n) (sound : t.Sound) (treelike : t.Treelike) :
    (t.create dir name n).2.Treelike := by
  have root := has_of_isDirectory sound.root
  obtain ⟨kind, parent⟩ := create_of_has directory name n root
  refine ⟨kind.trans sound.root, parent.trans treelike.top, ?_, ?_⟩
  · intro dir' name' id entry made
    obtain ⟨rfl, rfl, rfl⟩ | ⟨entry, old⟩ := entry_of_create directory sound fits entry
    · obtain ⟨proper, parent⟩ := fits.of_isDirectory directory made
      refine ⟨proper, fun same => t.not_has_size ?_, parent⟩
      rwa [same]
    · obtain ⟨kind, parent⟩ := create_of_has directory name n old
      rw [kind] at made
      rw [parent]
      exact treelike.below dir' name' id entry made
  · intro dir' name' name'' id entry entry' made
    obtain ⟨rfl, rfl, rfl⟩ | ⟨entry, old⟩ := entry_of_create directory sound fits entry
    · obtain ⟨-, same, -⟩ | ⟨-, old⟩ := entry_of_create directory sound fits entry'
      · exact same
      · exact absurd old t.not_has_size
    · obtain ⟨-, -, rfl⟩ | ⟨entry', -⟩ := entry_of_create directory sound fits entry'
      · exact absurd old t.not_has_size
      · rw [(create_of_has directory name n old).1] at made
        exact treelike.once dir' name' name'' id entry entry' made

theorem Wellformed.create (h : t.Wellformed) (fits : Fits dir name n) :
    t.Extends (t.create dir name n).2 where
  wellformed := ⟨fits.sound directory h.sound, fits.treelike directory h.sound h.treelike⟩
  stays id old := by rw [(create_of_has directory name n (has_of_isDirectory old)).1, old]

/-- Everything but a directory may be made under any name. -/
theorem Wellformed.create_plain (h : t.Wellformed) (name : Bytes)
    (plain : ∀ parent entries, n ≠ .directory parent entries) :
    t.Extends (t.create dir name n).2 :=
  h.create directory fun parent entries same => absurd same (plain parent entries)

end

/-! ### Making directories -/

/-- Whether bytes can stand between the slashes of a path. -/
def isComponent (name : Bytes) : Bool := !name.contains Bytes.slash && !name.contains 0

/-- A walk along one name ends at a node or at the missing name, which then is a proper one. -/
theorem descend_name (component : isComponent name = true) {stop : Stop}
    (walked : t.descend false dir [name] = .ok stop) :
    (∃ id, stop = .arrived (.found id)) ∨
      stop = .arrived (.missing dir name) ∧ isName name = true := by
  rw [descend_cons] at walked
  split at walked
  · cases walked
    exact .inl ⟨_, rfl⟩
  next filled =>
  split at walked
  · cases walked
    exact .inl ⟨_, rfl⟩
  next dots =>
  split at walked
  · cases walked
  next short =>
  cases entry : t.child? dir name with
  | none =>
    rw [entry] at walked
    cases walked
    simp only [Bool.or_eq_true, decide_eq_true_eq, not_or, Bool.not_eq_true] at filled
    simp only [isComponent, Bool.and_eq_true] at component
    refine .inr ⟨rfl, ?_⟩
    simp only [isName, Bool.and_eq_true, decide_eq_true_eq, filled, component, Bool.not_false]
    exact ⟨⟨⟨⟨⟨trivial, filled.2⟩, dots⟩, trivial⟩, trivial⟩, Nat.le_of_not_lt short⟩
  | some id =>
    have found : reached false dir id [] (t.descend false id []) (t.get? id) =
        .ok (.arrived (.found id)) := by
      unfold reached
      split <;> rfl
    rw [entry, Option.elim_some, found] at walked
    cases walked
    exact .inl ⟨id, rfl⟩

theorem missing_of_follow {budget : Nat} {parent : NodeId} {missing : Bytes}
    (component : isComponent name = true)
    (walked : t.follow false budget dir [name] = .ok (.missing parent missing)) :
    parent = dir ∧ missing = name ∧ isName name = true := by
  rw [follow] at walked
  split at walked
  · cases walked
  · next arrived =>
    obtain ⟨id, same⟩ | ⟨same, proper⟩ := descend_name component arrived
    · cases same
      cases walked
    · cases same
      cases walked
      exact ⟨rfl, rfl, proper⟩
  · next link =>
    obtain ⟨id, same⟩ | ⟨same, -⟩ := descend_name component link <;> cases same

theorem Wellformed.makeDirectory (h : t.Wellformed) (directory : t.isDirectory dir = true)
    (component : isComponent name = true) (made : t.makeDirectory dir name = .ok (id, u)) :
    t.Extends u ∧ u.isDirectory id = true := by
  unfold FileTree.makeDirectory at made
  split at made
  · split at made
    · next found =>
      cases made
      exact ⟨h.extends_self, found⟩
    · cases made
  · next missing _ =>
    obtain ⟨rfl, rfl, proper⟩ := missing_of_follow component missing
    split at made
    · have same := Except.ok.inj made
      obtain rfl : t.nodes.size = id := congrArg Prod.fst same
      obtain rfl : (t.create _ _ _).2 = u := congrArg Prod.snd same
      refine ⟨h.create directory ?_, ?_⟩
      · rintro parent entries ⟨⟩
        exact ⟨proper, rfl, rfl⟩
      · rw [isDirectory, get?_create_size directory]
    · cases made
  · cases made
  · cases made

theorem Wellformed.makeDirectories {names : List Bytes} (h : t.Wellformed)
    (directory : t.isDirectory dir = true) (components : ∀ n ∈ names, isComponent n = true) :
    t.Extends (t.makeDirectories dir names).2 ∧
      ∀ id, (t.makeDirectories dir names).1 = .ok id →
        (t.makeDirectories dir names).2.isDirectory id = true := by
  induction names generalizing t dir with
  | nil =>
    refine ⟨h.extends_self, ?_⟩
    rintro id ⟨⟩
    exact directory
  | cons name names ih =>
    rw [List.forall_mem_cons] at components
    rw [FileTree.makeDirectories]
    split
    · refine ⟨h.extends_self, ?_⟩
      rintro id ⟨⟩
    · next made =>
      obtain ⟨one, directory⟩ := h.makeDirectory directory components.1 made
      obtain ⟨others, last⟩ := ih one.wellformed directory components.2
      exact ⟨one.trans others, last⟩

/-! ### Planting -/

section
variable {path : String} (zeros : 0 ∉ ofString path)
include zeros

theorem isComponent_of_mem : ∀ n ∈ (Path.components (ofString path)).filter (!·.isEmpty),
    isComponent n = true := by
  intro n hn
  obtain ⟨mem, filled⟩ := List.mem_filter.1 hn
  unfold Path.components at mem
  obtain mem | mem := List.mem_append.1 mem
  · obtain ⟨slashes, inside⟩ := Path.of_mem_pieces (List.mem_of_mem_filter mem)
    have zeros : 0 ∉ n := fun zero => zeros (inside zero)
    simp [isComponent, slashes, zeros]
  · split at mem
    · rw [List.mem_singleton.1 mem] at filled
      cases filled
    · cases mem

variable (h : t.Wellformed) (directory : t.isDirectory dir = true)
include h directory

theorem Wellformed.ensureDirectory :
    t.Extends (t.ensureDirectory dir path).2 ∧
      (t.ensureDirectory dir path).2.isDirectory (t.ensureDirectory dir path).1 = true := by
  obtain ⟨made, last⟩ := h.makeDirectories directory (isComponent_of_mem zeros)
  unfold FileTree.ensureDirectory
  split
  · next result =>
    rw [result] at made last
    exact ⟨made, last _ rfl⟩
  · next result =>
    rw [result] at made
    exact ⟨made, made.stays dir directory⟩

/-- Whatever is put into a tree under a path, all entries lead to nodes and the directories form a
tree. -/
theorem Wellformed.plant (p : Planting) : t.Extends (t.plant dir path p) := by
  have components := isComponent_of_mem zeros
  unfold FileTree.plant
  dsimp only
  generalize (Path.components (ofString path)).filter (!·.isEmpty) = names at components
  have leading : ∀ n ∈ names.dropLast, isComponent n = true :=
    fun n hn => components n (List.dropLast_subset names hn)
  obtain ⟨made, found⟩ := h.makeDirectories directory leading
  split
  · next name dir' t' last result =>
    rw [result] at made found
    refine made.trans ?_
    have directory := found _ rfl
    cases p with
    | directory =>
      have component := components name (List.mem_of_getLast? last)
      exact (made.wellformed.makeDirectories directory (by simpa using component)).1
    | _ => exact made.wellformed.create_plain directory name (by rintro _ _ ⟨⟩)
  · next result _ =>
    rw [result] at made
    exact made

end
end FileTree

namespace World

open FileTree

theorem wellformed_withDevices : withDevices.Wellformed := by
  obtain ⟨dev, isDev⟩ := wellformed_empty.ensureDirectory
    (show 0 ∉ ofString "dev" by decide) wellformed_empty.sound.root
  have null := dev.wellformed.create_plain isDev (ofString "null") (n := .null) (by rintro _ _ ⟨⟩)
  have full := null.wellformed.create_plain (null.stays _ isDev) (ofString "full") (n := .full)
    (by rintro _ _ ⟨⟩)
  obtain ⟨lib, isLib⟩ := full.wellformed.ensureDirectory
    (show 0 ∉ ofString "usr/lib" by decide) full.wellformed.sound.root
  exact (lib.wellformed.create_plain isLib (ofString "toolbox") (n := .program Toolbox.program)
    (by rintro _ _ ⟨⟩)).wellformed

theorem extends_links {names : List (String × Program)} {t : FileTree} {root : NodeId}
    (plain : ∀ p ∈ names, 0 ∉ ofString p.1) (h : t.Wellformed)
    (directory : t.isDirectory root = true) :
    t.Extends (names.foldl (fun t p => t.plant root ("bin/" ++ p.1) (.link toolPath)) t) := by
  induction names generalizing t with
  | nil => exact h.extends_self
  | cons p names ih =>
    rw [List.forall_mem_cons] at plain
    have zeros : 0 ∉ ofString ("bin/" ++ p.1) := by
      rw [Bytes.ofString_append, List.mem_append]
      exact not_or.2 ⟨by decide, plain.1⟩
    have first := h.plant zeros directory (.link toolPath)
    exact first.trans (ih plain.2 first.wellformed (first.stays root directory))

/-- A world is a wellformed tree with two directories, wherever its base is. -/
theorem wellformed_make {base : String} (zeros : 0 ∉ ofString base) :
    let w := make base
    w.tree.Wellformed ∧ w.tree.isDirectory w.work = true ∧ w.tree.isDirectory w.home = true := by
  unfold make
  dsimp only
  obtain ⟨tmp, -⟩ := wellformed_withDevices.ensureDirectory
    (show 0 ∉ ofString "tmp" by decide) wellformed_withDevices.sound.root
  generalize withDevices.ensureDirectory FileTree.root "tmp" = t₁ at tmp
  obtain ⟨top, isTop⟩ := tmp.wellformed.ensureDirectory zeros tmp.wellformed.sound.root
  generalize t₁.2.ensureDirectory FileTree.root base = t₂ at top isTop
  obtain ⟨work, isWork⟩ := top.wellformed.ensureDirectory
    (show 0 ∉ ofString "w" by decide) isTop
  have isTop := work.stays _ isTop
  generalize t₂.2.ensureDirectory t₂.1 "w" = t₃ at work isWork isTop
  obtain ⟨home, isHome⟩ := work.wellformed.ensureDirectory
    (show 0 ∉ ofString "home" by decide) isTop
  have isTop := home.stays _ isTop
  generalize t₃.2.ensureDirectory t₂.1 "home" = t₄ at home isHome isTop
  have plain : ∀ p ∈ Toolbox.programs, 0 ∉ ofString p.1 := by decide
  have links := extends_links plain home.wellformed isTop
  exact ⟨links.wellformed, links.stays _ (home.stays _ isWork), links.stays _ isHome⟩

end World
end JobShell
