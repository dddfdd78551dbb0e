import JobShell.Command.Build
import JobShell.Host.Basic
import JobShell.Proofs.TreeGrowth

/-! What becomes of a tree when the targets of redirections are opened in turn. -/
namespace JobShell

theorem FileTree.openForWriting_cases {t u : FileTree} {dir id : NodeId} {path : String}
    (h : t.openForWriting dir path = .ok (id, u)) :
    (t.lookup true dir path = .ok id ∧ t.isDirectory id = false ∧ u = t) ∨
      ∃ place name, t.locate true dir path = .ok (.missing place name) ∧
        id = t.nodes.size ∧ u = (t.create place name (.file [] false)).2 := by
  unfold openForWriting at h
  split at h
  · cases h
  · cases h
  · next found =>
    split at h
    · cases h
    · next noDirectory =>
      cases h
      exact .inl ⟨lookup_of_locate found, Bool.eq_false_iff.2 noDirectory, rfl⟩
  · next place name missing =>
    split at h
    · cases h
      exact .inr ⟨place, name, missing, rfl, rfl⟩
    · cases h

namespace FileTree

theorem truncate_eq {t : FileTree} {id : NodeId} {n : Node} (h : t.get? id = some n) :
    t.truncate id = t.set id n.emptied := by
  rw [truncate, h]

/-- A file that has just been made is empty as it is. -/
theorem truncate_create {t : FileTree} {dir : NodeId} (directory : t.isDirectory dir = true)
    (name : Bytes) (executable : Bool) :
    (t.create dir name (.file [] executable)).2.truncate t.nodes.size =
      (t.create dir name (.file [] executable)).2 := by
  obtain ⟨parent, entries, node⟩ := exists_of_isDirectory directory
  have file : (t.create dir name (.file [] executable)).2.get? t.nodes.size =
      some (.file [] executable) := by
    rw [get?_create node, if_pos rfl]
  rw [truncate_eq file]
  exact set_eq_self file

end FileTree

namespace Command

variable {here : Surroundings} {r : Token × Token} {t u : FileTree}

/-- Opens the target of a redirection and closes it again. -/
def openTarget (here : Surroundings) (r : Token × Token) : FileTree → Except FileError FileTree :=
  touch here r.1.kind (targetPath here r.2)

/-- Whether the target of a redirection is a certain node. -/
def Names (here : Surroundings) (r : Token × Token) (t : FileTree) (id : NodeId) : Prop :=
  t.lookup true here.directory (targetPath here r.2) = .ok id

theorem openTarget_input (input : r.1.kind = .input) :
    openTarget here r t = .ok u ↔ u = t ∧ ∃ id, Names here r t id := by
  rw [openTarget, input, touch]
  unfold Names
  cases t.lookup true here.directory (targetPath here r.2) with
  | error e => simp [Except.map]
  | ok id => simp [Except.map, eq_comm]

theorem openTarget_output (output : r.1.kind ≠ .input) :
    openTarget here r t =
      (t.openForWriting here.directory (targetPath here r.2)).map fun opened =>
        if r.1.kind = .output then opened.2.truncate opened.1 else opened.2 := by
  rw [openTarget]
  generalize r.1.kind = kind at output
  cases kind with
  | input => exact absurd rfl output
  | _ => rfl

/-! ### One target -/

/-- All that opening a target can do to a tree. -/
inductive Opens (here : Surroundings) (r : Token × Token) (t : FileTree) : FileTree → Prop where
  | read {id : NodeId} (input : r.1.kind = .input) (found : Names here r t id) : Opens here r t t
  | kept {id : NodeId} (output : r.1.kind ≠ .input) (append : r.1.kind ≠ .output)
    (found : Names here r t id) (noDirectory : t.isDirectory id = false) : Opens here r t t
  | emptied {id : NodeId} {n : Node} (output : r.1.kind = .output) (found : Names here r t id)
    (noDirectory : t.isDirectory id = false) (node : t.get? id = some n) :
    Opens here r t (t.set id n.emptied)
  | made {dir : NodeId} {name : Bytes} (output : r.1.kind ≠ .input)
    (missing : t.locate true here.directory (targetPath here r.2) = .ok (.missing dir name))
    (directory : t.isDirectory dir = true) (none : t.child? dir name = none) :
    Opens here r t (t.create dir name (.file [] false)).2

theorem opens_of_openTarget (sound : t.Sound) (directory : t.isDirectory here.directory = true)
    (h : openTarget here r t = .ok u) : Opens here r t u := by
  by_cases input : r.1.kind = .input
  · obtain ⟨rfl, id, names⟩ := (openTarget_input input).1 h
    exact .read input names
  rw [openTarget_output input] at h
  cases opened : t.openForWriting here.directory (targetPath here r.2) with
  | error e =>
    rw [opened] at h
    cases h
  | ok found =>
    obtain ⟨id, v⟩ := found
    rw [opened] at h
    obtain rfl := Except.ok.inj h
    dsimp only
    obtain ⟨names, noDirectory, rfl⟩ | ⟨dir, name, missing, rfl, rfl⟩ :=
      FileTree.openForWriting_cases opened
    · split
      · next output =>
        have has : v.Has id := (sound.region.lookupBytes directory names).has sound
        obtain ⟨n, node⟩ := Option.isSome_iff_exists.1 has
        rw [FileTree.truncate_eq node]
        exact .emptied output names noDirectory node
      · next append => exact .kept input append names noDirectory
    · -- A new file is emptied, too, if it is written to from its beginning.
      obtain ⟨isDirectory, none⟩ := sound.region.locateBytes directory missing
      have made := Opens.made input missing isDirectory none
      split
      · rwa [FileTree.truncate_create isDirectory]
      · exact made

namespace Opens

theorem grows (h : Opens here r t u) : t.Grows u := by
  cases h with
  | read | kept => exact .refl t
  | emptied _ _ _ node => exact .empty node
  | made _ _ directory none => exact .create directory none

theorem sound (h : Opens here r t u) (sound : t.Sound) : u.Sound := by
  cases h with
  | read | kept => exact sound
  | emptied _ _ _ node => exact sound.set_emptied node
  | made _ _ directory none => exact sound.create directory none

/-- A node that is there changes only if it gets a new entry or loses its content. -/
theorem changed (h : Opens here r t u) {id : NodeId} (has : t.Has id)
    (changed : u.get? id ≠ t.get? id) :
    t.isDirectory id = true ∨ (r.1.kind = .output ∧ Names here r t id) ∧
      ∃ n, t.get? id = some n ∧ u = t.set id n.emptied := by
  cases h with
  | read | kept => exact absurd rfl changed
  | @emptied target n output found _ node =>
    rw [FileTree.get?_set (FileTree.has_of_get? node)] at changed
    have same : target = id := by
      by_contra other
      exact changed (if_neg other)
    subst same
    exact .inr ⟨⟨output, found⟩, n, node, rfl⟩
  | @made dir _ _ _ directory =>
    obtain ⟨parent, entries, node⟩ := FileTree.exists_of_isDirectory directory
    rw [FileTree.get?_create node] at changed
    have old : id ≠ t.nodes.size := by
      rintro rfl
      exact t.not_has_size has
    have same : dir = id := by
      by_contra other
      exact changed ((if_neg old).trans (if_neg other))
    exact .inl (same ▸ directory)

end Opens

/-- Whether a target is as opening it leaves it: it is there, and there is nothing in a file that is
written to from its beginning. -/
def Settled (here : Surroundings) (r : Token × Token) (t : FileTree) : Prop :=
  ∃ id, Names here r t id ∧ (r.1.kind ≠ .input → t.isDirectory id = false) ∧
    (r.1.kind = .output → ∀ n, t.get? id = some n → n.emptied = n)

theorem Names.grow {id : NodeId} (h : Names here r t id) (sound : t.Sound) (grows : t.Grows u) :
    Names here r u id :=
  grows.lookup sound h

theorem names_made (sound : t.Sound) {dir : NodeId} {name : Bytes}
    (missing : t.locate true here.directory (targetPath here r.2) = .ok (.missing dir name))
    (directory : t.isDirectory dir = true) (none : t.child? dir name = none) :
    Names here r (t.create dir name (.file [] false)).2 t.nodes.size := by
  refine ((FileTree.Grows.create directory none).lookup_missing sound missing _).2 ?_
  rw [FileTree.child?_create directory, if_pos ⟨rfl, rfl⟩]

/-- Nothing changes that back when more targets are opened. -/
theorem Settled.grow (h : Settled here r t) (sound : t.Sound) (grows : t.Grows u) :
    Settled here r u := by
  obtain ⟨id, names, noDirectory, empty⟩ := h
  refine ⟨id, names.grow sound grows, fun output => ?_, fun output n node => ?_⟩
  · rw [grows.isDirectory_eq, noDirectory output]
  · have grown := grows id
    rw [node] at grown
    generalize same : t.get? id = before at grown
    cases grown with
    | same => exact empty output n same
    | entered | emptied | erased | made => rfl

/-- A target that is settled is opened without any effect. -/
theorem Settled.openTarget_eq (h : Settled here r t) : openTarget here r t = .ok t := by
  obtain ⟨id, names, noDirectory, empty⟩ := h
  by_cases input : r.1.kind = .input
  · exact (openTarget_input input).2 ⟨rfl, id, names⟩
  have opened : t.openForWriting here.directory (targetPath here r.2) = .ok (id, t) := by
    rw [FileTree.openForWriting, FileTree.locate_of_lookup names]
    simp only [noDirectory input, Bool.false_eq_true, if_false]
  rw [openTarget_output input, opened]
  change Except.ok (if r.1.kind = .output then t.truncate id else t) = _
  split
  · next output =>
    cases node : t.get? id with
    | none => rw [FileTree.truncate, node]
    | some n => rw [FileTree.truncate_eq node, empty output n node, FileTree.set_eq_self node]
  · rfl

theorem Opens.settled (h : Opens here r t u) (sound : t.Sound) : Settled here r u := by
  cases h with
  | read input found =>
    refine ⟨_, found, fun output => absurd input output, fun output => ?_⟩
    cases input.symm.trans output
  | kept output append found noDirectory =>
    exact ⟨_, found, fun _ => noDirectory, fun output => absurd output append⟩
  | @emptied id n output found noDirectory node =>
    have grows := FileTree.Grows.empty node
    refine ⟨id, found.grow sound grows, fun _ => ?_, fun _ n' node' => ?_⟩
    · rw [grows.isDirectory_eq, noDirectory]
    · rw [FileTree.get?_set (FileTree.has_of_get? node), if_pos rfl] at node'
      cases node'
      cases n <;> rfl
  | @made dir name output missing directory none =>
    obtain ⟨parent, entries, node⟩ := FileTree.exists_of_isDirectory directory
    have file := FileTree.get?_create node name (.file [] false) t.nodes.size
    rw [if_pos rfl] at file
    refine ⟨t.nodes.size, names_made sound missing directory none, fun _ => ?_, fun _ n node' => ?_⟩
    · rw [FileTree.isDirectory, file]
    · cases file.symm.trans node'
      rfl

/-! ### Targets in turn -/

/-- A tree in which targets have been opened, and what is left of it as it was. -/
structure Opened (here : Surroundings) (rs : List (Token × Token)) (t u : FileTree) : Prop where
  grows : t.Grows u
  sound : u.Sound
  settled : ∀ r ∈ rs, Settled here r u
  /-- What was there and is no directory has changed only if a redirection names it that writes from
  its beginning. -/
  emptied : ∀ id, t.Has id → u.get? id ≠ t.get? id → t.isDirectory id = true ∨
    ∃ r ∈ rs, r.1.kind = .output ∧ Names here r u id
  /-- What was not there is a file that some redirection writes to. -/
  made : ∀ id, ¬t.Has id → u.Has id → u.get? id = some (.file [] false) ∧
    ∃ r ∈ rs, r.1.kind ≠ .input ∧ Names here r u id
  /-- It is entered in one place only. -/
  entered : ∀ id, ¬t.Has id → ∀ dir name dir' name', u.child? dir name = some id →
    u.child? dir' name' = some id → dir' = dir ∧ name' = name

namespace Opened

variable {rs rs' : List (Token × Token)} {s : FileTree}

theorem nil (here : Surroundings) (sound : t.Sound) : Opened here [] t t where
  grows := .refl t
  sound := sound
  settled r h := by cases h
  emptied id _ changed := absurd rfl changed
  made id new has := absurd has new
  entered id new dir name _ _ child := absurd (sound.child dir name id child) new

theorem of_opens (sound : t.Sound) (h : Opens here r t u) : Opened here [r] t u where
  grows := h.grows
  sound := h.sound sound
  settled r' member := by
    obtain rfl := List.mem_singleton.1 member
    exact h.settled sound
  emptied id has changed := by
    obtain directory | ⟨found, n, node, rfl⟩ := h.changed has changed
    · exact .inl directory
    · exact .inr ⟨r, List.mem_singleton_self r, found.1, found.2.grow sound (.empty node)⟩
  made id new has := by
    refine ⟨h.grows.get?_made new has, r, List.mem_singleton_self r, ?_⟩
    cases h with
    | read | kept => exact absurd has new
    | emptied _ _ _ node =>
      exact absurd (FileTree.has_of_has_set (FileTree.has_of_get? node) has) new
    | @made dir name output missing directory none =>
      obtain rfl | old := FileTree.has_of_has_create directory has
      · exact ⟨output, names_made sound missing directory none⟩
      · exact absurd old new
  entered id new dir name dir' name' child child' := by
    cases h with
    | read | kept => exact absurd (sound.child dir name id child) new
    | emptied _ _ _ node =>
      rw [FileTree.child?_set_emptied node] at child
      exact absurd (sound.child dir name id child) new
    | made _ _ directory none =>
      rw [FileTree.child?_create directory] at child child'
      split at child
      · next first =>
        split at child'
        · next second => exact ⟨second.1.symm.trans first.1, second.2.symm.trans first.2⟩
        · exact absurd (sound.child dir' name' id child') new
      · exact absurd (sound.child dir name id child) new

theorem append (h : Opened here rs t s) (h' : Opened here rs' s u) :
    Opened here (rs ++ rs') t u where
  grows := h.grows.trans h'.grows
  sound := h'.sound
  settled r member := by
    obtain member | member := List.mem_append.1 member
    · exact (h.settled r member).grow h.sound h'.grows
    · exact h'.settled r member
  emptied id has changed := by
    by_cases same : s.get? id = t.get? id
    · rw [← same] at changed
      rw [← h.grows.isDirectory_eq]
      obtain directory | ⟨r, member, output, names⟩ := h'.emptied id (h.grows.has has) changed
      · exact .inl directory
      · exact .inr ⟨r, List.mem_append_right rs member, output, names⟩
    · obtain directory | ⟨r, member, output, names⟩ := h.emptied id has same
      · exact .inl directory
      · exact .inr ⟨r, List.mem_append_left rs' member, output, names.grow h.sound h'.grows⟩
  made id new has := by
    refine ⟨(h.grows.trans h'.grows).get?_made new has, ?_⟩
    by_cases old : s.Has id
    · obtain ⟨-, r, member, output, names⟩ := h.made id new old
      exact ⟨r, List.mem_append_left rs' member, output, names.grow h.sound h'.grows⟩
    · obtain ⟨-, r, member, output, names⟩ := h'.made id old has
      exact ⟨r, List.mem_append_right rs member, output, names⟩
  entered id new dir name dir' name' child child' := by
    by_cases old : s.Has id
    · rw [h'.grows.child?_iff old] at child child'
      exact h.entered id new dir name dir' name' child child'
    · exact h'.entered id old dir name dir' name' child child'

end Opened

/-- Trees before and after some targets are opened one after the other. -/
inductive InTurn (here : Surroundings) : List (Token × Token) → FileTree → FileTree → Prop where
  | nil (t : FileTree) : InTurn here [] t t
  | cons {r : Token × Token} {rs : List (Token × Token)} {t s u : FileTree}
    (first : openTarget here r t = .ok s) (rest : InTurn here rs s u) : InTurn here (r :: rs) t u

theorem inTurn_nil : InTurn here [] t u ↔ t = u := by
  refine ⟨fun h => ?_, fun h => h ▸ .nil t⟩
  cases h
  rfl

theorem inTurn_cons {rs : List (Token × Token)} :
    InTurn here (r :: rs) t u ↔ ∃ s, openTarget here r t = .ok s ∧ InTurn here rs s u := by
  refine ⟨fun h => ?_, fun ⟨s, first, rest⟩ => .cons first rest⟩
  cases h with
  | cons first rest => exact ⟨_, first, rest⟩

theorem InTurn.opened {rs : List (Token × Token)} (h : InTurn here rs t u) (sound : t.Sound)
    (directory : t.isDirectory here.directory = true) : Opened here rs t u := by
  induction h with
  | nil t => exact .nil here sound
  | cons first rest ih =>
    have opened := Opened.of_opens sound (opens_of_openTarget sound directory first)
    refine opened.append (ih opened.sound ?_)
    rw [opened.grows.isDirectory_eq, directory]

end Command
end JobShell
