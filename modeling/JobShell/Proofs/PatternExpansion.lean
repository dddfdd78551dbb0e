import JobShell.Command.Build
import JobShell.Host.World
import JobShell.Proofs.PatternMatching
import JobShell.Proofs.TextBytes
import JobShell.Proofs.TreeGrowth
import Mathlib.Data.List.Induction

/-! Which paths a pattern expands to: those of the entries that it stands for in the directory that
it names, each once and in the order of their bytes, or else the pattern itself. The order in which
the names stand in the directory does not matter. -/
namespace JobShell

/-! ### Names in a directory -/

namespace FileTree

/-- The names in a directory that are text. -/
def names (tree : FileTree) (id : NodeId) : List String :=
  (((tree.entries? id).map Listing.keys).getD []).filterMap Bytes.toString?

theorem names_of_entries {tree : FileTree} {id : NodeId} {entries : Listing Bytes NodeId}
    (h : tree.entries? id = some entries) :
    tree.names id = entries.keys.filterMap Bytes.toString? := by
  rw [names, h]
  rfl

theorem mem_names_iff {tree : FileTree} {id : NodeId} {name : String} :
    name ∈ tree.names id ↔ (tree.child? id (Bytes.ofString name)).isSome = true := by
  rw [child?]
  cases h : tree.entries? id with
  | none => simp [names, h]
  | some entries =>
    rw [names_of_entries h, Option.bind_some, Option.isSome_iff_exists]
    simp only [List.mem_filterMap, Bytes.toString?_eq_some_iff, exists_eq_right, Listing.keys,
      List.mem_map, Listing.get?_eq_some_iff]
    constructor
    · rintro ⟨⟨_, node⟩, he, rfl⟩
      exact ⟨node, he⟩
    · rintro ⟨node, he⟩
      exact ⟨_, he, rfl⟩

/-- Every name stands once, whatever the order. -/
theorem nodup_names (tree : FileTree) (id : NodeId) : (tree.names id).Nodup := by
  cases h : tree.entries? id with
  | none =>
    rw [names, h]
    exact .nil
  | some entries =>
    rw [names_of_entries h, List.Nodup, List.pairwise_filterMap]
    refine (List.pairwise_map.2 entries.distinct).imp fun differ a ha b hb => ?_
    rintro rfl
    rw [Bytes.toString?_eq_some_iff.1 ha, Bytes.toString?_eq_some_iff.1 hb] at differ
    exact differ rfl

end FileTree

namespace Pattern

/-! ### The directory of a pattern -/

/-- A pattern cut behind its last slash: the directory that it speaks of, the text that stands
before the names in it, and the pattern for these names. -/
inductive Cut : String → String → String → String → Prop where
  | here {file : String} (plain : '/' ∉ file.toList) : Cut file "." "" file
  | root {file : String} (plain : '/' ∉ file.toList) : Cut ("/" ++ file) "/" "/" file
  | below {directory file : String} (named : directory ≠ "") (plain : '/' ∉ file.toList) :
    Cut (directory ++ "/" ++ file) directory (directory ++ "/") file

theorem exists_cut (pattern : String) : ∃ directory lead file, Cut pattern directory lead file := by
  by_cases slash : '/' ∈ pattern.toList
  · obtain ⟨back, front, reversed, plain⟩ :=
      List.eq_append_cons_of_mem (List.mem_reverse.2 slash)
    have text : pattern = String.ofList front.reverse ++ "/" ++ String.ofList back.reverse := by
      apply String.toList_inj.1
      rw [← List.reverse_reverse pattern.toList, reversed]
      simp
    have plain : '/' ∉ (String.ofList back.reverse).toList := by simpa using plain
    rw [text]
    by_cases named : String.ofList front.reverse = ""
    · rw [named]
      exact ⟨_, _, _, .root plain⟩
    · exact ⟨_, _, _, .below named plain⟩
  · exact ⟨_, _, _, .here slash⟩

/-- What stands behind the last slash of a text, and what stands up to it. -/
theorem behind_slash {text up file : List Char} (cut : text = up ++ file)
    (slash : ∀ c ∈ up.getLast?, c = '/') (plain : '/' ∉ file) :
    (text.reverse.takeWhile (· ≠ '/')).reverse = file ∧
      (text.reverse.dropWhile (· ≠ '/')).reverse = up := by
  have names : ∀ c ∈ file.reverse, decide (c ≠ '/') = true := by
    intro c hc
    refine decide_eq_true ?_
    rintro rfl
    exact plain (List.mem_reverse.1 hc)
  rw [cut, List.reverse_append, List.takeWhile_append_of_pos names,
    List.dropWhile_append_of_pos names]
  induction up using List.reverseRecOn with
  | nil => simp
  | append_singleton up c _ =>
    obtain rfl := slash c (by simp)
    simp

theorem Cut.splitDirectory_eq {pattern directory lead file : String}
    (cut : Cut pattern directory lead file) :
    splitDirectory pattern = (directory, lead, file) := by
  unfold splitDirectory
  dsimp only
  cases cut with
  | here plain =>
    obtain ⟨behind, upTo⟩ := behind_slash (List.nil_append _).symm nofun plain
    rw [behind, upTo, String.ofList_toList]
  | @root file plain =>
    have text : ("/" ++ file).toList = ['/'] ++ file.toList := String.toList_append
    obtain ⟨behind, upTo⟩ := behind_slash text (by simp) plain
    rw [behind, upTo, String.ofList_toList]
    rfl
  | @below directory file named plain =>
    have text : (directory ++ "/" ++ file).toList = directory.toList ++ ['/'] ++ file.toList := by
      simp
    obtain ⟨behind, upTo⟩ := behind_slash text (by simp) plain
    rw [behind, upTo, String.ofList_toList]
    split
    · next nothing => simp at nothing
    · next alone => exact absurd (by simpa using alone) named
    · simp

theorem Cut.lead_append {pattern directory lead file : String}
    (cut : Cut pattern directory lead file) : lead ++ file = pattern := by
  cases cut with
  | here => exact String.empty_append
  | root | below => rfl

/-! ### Expansion -/

/-- A name in a directory that a pattern for names stands for. One that begins with a dot has to be
asked for by a dot. -/
structure Chooses (tree : FileTree) (id : NodeId) (file name : String) : Prop where
  entry : (tree.child? id (Bytes.ofString name)).isSome = true
  visible : name.toList.head? = some '.' → file.toList.head? = some '.'
  denoted : Denotes file.toList name.toList

section
variable {tree : FileTree} {dir id : NodeId} {pattern directory lead file name : String}

theorem mem_select_iff : name ∈ select file (tree.names id) ↔ Chooses tree id file name := by
  have visible : (decide (file.toList.head? = some '.') ||
        decide (name.toList.head? ≠ some '.')) = true ↔
      (name.toList.head? = some '.' → file.toList.head? = some '.') := by
    rw [Bool.or_eq_true, decide_eq_true_iff, decide_eq_true_iff]
    exact imp_iff_or_not.symm
  rw [select, List.mem_filter, FileTree.mem_names_iff, Bool.and_eq_true, visible, matchesName,
    accepts_eq_true_iff, ← denotes_iff_matches]
  constructor
  · rintro ⟨entry, visible, denoted⟩
    exact ⟨entry, visible, denoted⟩
  · intro h
    exact ⟨h.entry, h.visible, h.denoted⟩

/-- Different texts that have been sorted stand in the order of their bytes. -/
theorem pairwise_sorted {texts : List String} (distinct : texts.Nodup) :
    (texts.mergeSort fun a b => Bytes.ofString a ≤ Bytes.ofString b).Pairwise fun a b =>
      Bytes.ofString a < Bytes.ofString b := by
  have ordered : (texts.mergeSort fun a b => Bytes.ofString a ≤ Bytes.ofString b).Pairwise
      fun a b => decide (Bytes.ofString a ≤ Bytes.ofString b) = true := by
    refine List.pairwise_mergeSort (fun a b c first second => ?_) (fun a b => ?_) texts
    · exact decide_eq_true (Std.le_trans (of_decide_eq_true first) (of_decide_eq_true second))
    · simpa using Std.le_total (a := Bytes.ofString a) (b := Bytes.ofString b)
  have apart : (texts.mergeSort fun a b => Bytes.ofString a ≤ Bytes.ofString b).Nodup :=
    (List.mergeSort_perm _ _).nodup_iff.2 distinct
  refine (ordered.and apart).imp fun both => ?_
  exact Std.lt_of_le_of_ne (of_decide_eq_true both.1) fun same =>
    both.2 (Bytes.ofString_inj.1 same)

/-- The paths of the names that are chosen are different. -/
theorem nodup_paths (tree : FileTree) (id : NodeId) (file lead : String) :
    ((select file (tree.names id)).map (lead ++ ·)).Nodup := by
  refine List.pairwise_map.2 (((tree.nodup_names id).filter _).imp fun differ same => differ ?_)
  have texts := congrArg String.toList same
  rw [String.toList_append, String.toList_append] at texts
  exact String.toList_inj.1 (List.append_cancel_left texts)

theorem expand_of_chosen (cut : Cut pattern directory lead file)
    (found : tree.lookupDirectory dir directory = .ok id) (chosen : Chooses tree id file name) :
    expand tree dir pattern = ((select file (tree.names id)).map (lead ++ ·)).mergeSort
      fun a b => Bytes.ofString a ≤ Bytes.ofString b := by
  have listed := List.mem_map_of_mem (f := (lead ++ ·)) (mem_select_iff.2 chosen)
  rw [expand, cut.splitDirectory_eq]
  dsimp only
  rw [found]
  dsimp only
  rw [← FileTree.names]
  split
  · next none =>
    rw [none] at listed
    cases listed
  · rfl

theorem expand_of_none (cut : Cut pattern directory lead file)
    (none : ∀ id, tree.lookupDirectory dir directory = .ok id →
      ∀ name, ¬Chooses tree id file name) : expand tree dir pattern = [pattern] := by
  rw [expand, cut.splitDirectory_eq]
  dsimp only
  split
  · rfl
  · next id found =>
    have empty : select file (tree.names id) = [] :=
      List.eq_nil_iff_forall_not_mem.2 fun name listed =>
        none id found name (mem_select_iff.1 listed)
    rw [← FileTree.names, empty]
    rfl

/-! ### Words that are no patterns -/

/-- A text without the characters of patterns stands for itself alone. -/
theorem denotes_of_plain {text name : List Char}
    (plain : ∀ c ∈ text, c ≠ '*' ∧ c ≠ '?' ∧ c ≠ '[') : Denotes text name ↔ name = text := by
  induction text generalizing name with
  | nil =>
    constructor
    · rintro ⟨⟩
      rfl
    · rintro rfl
      exact .nil
  | cons c text ih =>
    obtain ⟨⟨star, one, bracket⟩, plain⟩ := List.forall_mem_cons.1 plain
    constructor
    · intro h
      cases h with
      | star => exact absurd rfl star
      | one => exact absurd rfl one
      | among => exact absurd rfl bracket
      | itself _ _ h => rw [(ih plain).1 h]
    · rintro rfl
      exact .itself ⟨star, one⟩ (fun opening => absurd opening bracket) ((ih plain).2 rfl)

theorem plain_of_isPattern (plain : isPattern pattern = false) :
    ∀ c ∈ pattern.toList, c ≠ '*' ∧ c ≠ '?' ∧ c ≠ '[' := by
  intro c hc
  have h := List.any_eq_false.1 plain c hc
  simpa using h

theorem expand_of_plain (plain : isPattern pattern = false) (tree : FileTree) (dir : NodeId) :
    expand tree dir pattern = [pattern] := by
  obtain ⟨directory, lead, file, cut⟩ := exists_cut pattern
  by_cases chosen :
      ∃ id name, tree.lookupDirectory dir directory = .ok id ∧ Chooses tree id file name
  · obtain ⟨id, name, found, chosen⟩ := chosen
    have within : ∀ c ∈ file.toList, c ≠ '*' ∧ c ≠ '?' ∧ c ≠ '[' := by
      intro c hc
      refine plain_of_isPattern plain c ?_
      rw [← cut.lead_append, String.toList_append]
      exact List.mem_append_right _ hc
    have alone : ∀ other ∈ select file (tree.names id), other = file := fun other listed =>
      String.toList_inj.1 ((denotes_of_plain within).1 (mem_select_iff.1 listed).denoted)
    have listed := mem_select_iff.2 chosen
    obtain rfl := alone name listed
    -- All that is chosen is the one name, which stands once.
    have one : select name (tree.names id) = [name] :=
      List.perm_singleton.1 <| (List.perm_ext_iff_of_nodup ((tree.nodup_names id).filter _)
        (List.pairwise_singleton _ name)).2 fun other =>
          ⟨fun h => List.mem_singleton.2 (alone other h), fun h => List.mem_singleton.1 h ▸ listed⟩
    rw [expand_of_chosen cut found chosen, one, List.map_singleton, List.mergeSort_singleton,
      cut.lead_append]
  · exact expand_of_none cut fun id found name chooses => chosen ⟨id, name, found, chooses⟩

end

/-- What a pattern expands to, in every tree. The expansion is never empty. If the directory that
the pattern names can be read, and the pattern stands for names in it, these are the expansion, each
once and in the order of their bytes; otherwise the pattern is. A word that is no pattern expands to
itself, so that it makes no difference to the words of a command that these are not looked up. -/
theorem expand_is_exact (tree : FileTree) (dir : NodeId) (pattern : String) :
    expand tree dir pattern ≠ [] ∧
    (∃ directory lead file, Cut pattern directory lead file) ∧
    (∀ directory lead file, Cut pattern directory lead file →
      (∀ id, tree.lookupDirectory dir directory = .ok id → (∃ name, Chooses tree id file name) →
        (∀ path, path ∈ expand tree dir pattern ↔
          ∃ name, Chooses tree id file name ∧ path = lead ++ name) ∧
        (expand tree dir pattern).Pairwise fun a b => Bytes.ofString a < Bytes.ofString b) ∧
      ((∀ id, tree.lookupDirectory dir directory = .ok id → ∀ name, ¬Chooses tree id file name) →
        expand tree dir pattern = [pattern])) ∧
    (isPattern pattern = false → expand tree dir pattern = [pattern]) ∧
    ∀ (home : String) (t : Token), Command.expandWord ⟨dir, home⟩ tree t =
      if t.quoted then [t.text]
      else expand tree dir (Surroundings.expandTilde ⟨dir, home⟩ t.text) := by
  have precise {directory lead file : String} (cut : Cut pattern directory lead file) {id : NodeId}
      (found : tree.lookupDirectory dir directory = .ok id) {name : String}
      (chosen : Chooses tree id file name) :
      (∀ path, path ∈ expand tree dir pattern ↔
        ∃ name, Chooses tree id file name ∧ path = lead ++ name) ∧
      (expand tree dir pattern).Pairwise fun a b => Bytes.ofString a < Bytes.ofString b := by
    rw [expand_of_chosen cut found chosen]
    refine ⟨fun path => ?_, pairwise_sorted (nodup_paths tree id file lead)⟩
    simp only [List.mem_mergeSort, List.mem_map, mem_select_iff, eq_comm]
  refine ⟨?_, exists_cut pattern, fun directory lead file cut =>
    ⟨fun id found ⟨name, chosen⟩ => precise cut found chosen, expand_of_none cut⟩,
    fun plain => expand_of_plain plain tree dir, fun home t => ?_⟩
  · obtain ⟨directory, lead, file, cut⟩ := exists_cut pattern
    by_cases chosen : ∃ id name, tree.lookupDirectory dir directory = .ok id ∧
        Chooses tree id file name
    · obtain ⟨id, name, found, chosen⟩ := chosen
      exact List.ne_nil_of_mem (((precise cut found chosen).1 _).2 ⟨name, chosen, rfl⟩)
    · rw [expand_of_none cut fun id found name chooses => chosen ⟨id, name, found, chooses⟩]
      exact List.cons_ne_nil _ _
  · rw [Command.expandWord]
    split
    · rfl
    · dsimp only
      split
      · rfl
      · next plain => exact (expand_of_plain (by simpa using plain) tree dir).symm

/-- Two of the names in a directory are chosen, which do not stand there in the order of their bytes,
but not one that begins with a dot; and there is one that is no text. -/
theorem expand_is_exact_hidden :
    let plain : Planting := .file [] false
    let tree := ["d/b.t", "d/.h.t", "d/a.t", "d/c"].foldl
      (fun tree path => tree.plant FileTree.root path plain)
      (FileTree.empty.plant FileTree.root "d" .directory |>.plantIn 1 [0xFF, 0x2E, 0x74] plain)
    let found := expand tree FileTree.root "/d/*.t"
    tree.lookupDirectory FileTree.root "/d" = .ok 1 ∧ (∃ name, Chooses tree 1 "*.t" name) ∧
      "/d/a.t" ∈ found ∧ "/d/b.t" ∈ found ∧ "/d/.h.t" ∉ found ∧
      found.Pairwise fun a b => Bytes.ofString a < Bytes.ofString b := by
  intro plain tree found
  have readable : tree.lookupDirectory FileTree.root "/d" = .ok 1 := by decide +kernel
  have ending : Denotes ['.', 't'] ['.', 't'] := (denotes_of_plain (by simp)).2 rfl
  have spelled (c : Char) : Denotes "*.t".toList [c, '.', 't'] := .star [c] ending
  have first : Chooses tree 1 "*.t" "a.t" := ⟨by decide +kernel, by decide, spelled 'a'⟩
  have second : Chooses tree 1 "*.t" "b.t" := ⟨by decide +kernel, by decide, spelled 'b'⟩
  have cut : Cut ("/d" ++ "/" ++ "*.t") "/d" ("/d" ++ "/") "*.t" := .below (by decide) (by decide)
  obtain ⟨chosen, ordered⟩ :=
    ((expand_is_exact tree FileTree.root _).2.2.1 _ _ _ cut).1 1 readable ⟨_, first⟩
  refine ⟨readable, ⟨_, first⟩, (chosen _).2 ⟨_, first, rfl⟩, (chosen _).2 ⟨_, second, rfl⟩,
    fun hidden => ?_, ordered⟩
  obtain ⟨name, chooses, same⟩ := (chosen _).1 hidden
  obtain rfl : ".h.t" = name := by
    have texts := congrArg String.toList same
    rw [String.toList_append] at texts
    have texts : "/d/".toList ++ ".h.t".toList = "/d/".toList ++ name.toList := texts
    exact String.toList_inj.1 (List.append_cancel_left texts)
  exact absurd (chooses.visible rfl) (by decide)

end Pattern
end JobShell
