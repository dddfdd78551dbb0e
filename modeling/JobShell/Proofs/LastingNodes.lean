import JobShell.Proofs.OpenedTargets

/-! Trees of files while files are made, written to and removed. Every node that was there stays and
keeps its kind, even if no path leads to it any longer; and a node that is in no directory is found
by no path, so that only what has it open gets at it. -/
namespace JobShell

/-- Nodes of one kind. They may differ in what they hold. -/
inductive Node.Akin : Node → Node → Prop where
  | same (n : Node) : Akin n n
  | file (content content' : Bytes) (executable : Bool) :
    Akin (.file content executable) (.file content' executable)
  | directory (parent : NodeId) (entries entries' : Listing Bytes NodeId) :
    Akin (.directory parent entries) (.directory parent entries')
  | terminal (typed typed' : Bytes) : Akin (.terminal typed) (.terminal typed')
  /-- A program can only be dropped and leave a file behind. -/
  | erased (run : Program) (content : Bytes) : Akin (.program run) (.file content true)

theorem Node.Akin.trans {n n' n'' : Node} (h : n.Akin n') (h' : n'.Akin n'') : n.Akin n'' := by
  cases h with
  | same => exact h'
  | file => cases h' <;> exact .file _ _ _
  | directory => cases h' <;> exact .directory _ _ _
  | terminal => cases h' <;> exact .terminal _ _
  | erased => cases h' <;> exact .erased _ _

theorem Node.Akin.emptied (n : Node) : n.Akin n.emptied := by
  cases n with
  | file content executable => exact .file content [] executable
  | program run => exact .erased run []
  | _ => exact .same _

/-- Whether reading from a node may never come to an end. -/
def Node.isEndless : Node → Bool
  | .fifo | .full | .terminal _ => true
  | _ => false

theorem Node.Akin.isEndless_eq {n n' : Node} (h : n.Akin n') : n'.isEndless = n.isEndless := by
  cases h <;> rfl

namespace FileTree

variable {t u v : FileTree} {dir id : NodeId}

/-- Whether there is a node from which reading may never come to an end. -/
def isEndless (t : FileTree) (id : NodeId) : Bool := (t.get? id).any Node.isEndless

/-- A tree after changes in which all nodes have lasted. New nodes are no directories, new entries
are for new nodes, and those can be read to their ends. -/
structure Lasts (t u : FileTree) : Prop where
  node : ∀ id n, t.get? id = some n → ∃ n', u.get? id = some n' ∧ n.Akin n'
  fresh : ∀ id, ¬t.Has id → u.isDirectory id = false
  entry : ∀ dir name id, u.child? dir name = some id →
    t.child? dir name = some id ∨ ¬t.Has id ∧ u.Has id ∧ u.isEndless id = false

/-- A node is in no directory, nor is it one. -/
def Unlisted (t : FileTree) (id : NodeId) : Prop :=
  t.isDirectory id = false ∧ ∀ dir name, t.child? dir name ≠ some id

theorem isDirectory_of_not_has (new : ¬t.Has id) : t.isDirectory id = false := by
  rw [isDirectory, Option.not_isSome_iff_eq_none.1 new]

/-- A node that is pushed onto a tree is in no directory, and gives no entries. -/
theorem child?_of_push {n : Node} (plain : ∀ parent entries, n ≠ .directory parent entries)
    {name : Bytes} (child : (t.push n).2.child? dir name = some id) :
    t.child? dir name = some id := by
  have get : (t.push n).2.get? dir = if dir = t.nodes.size then some n else t.get? dir :=
    Array.getElem?_push
  by_cases last : dir = t.nodes.size
  · have none : (t.push n).2.child? dir name = none := by
      rw [child?, entries?, get, if_pos last]
      cases n with
      | directory parent entries => exact absurd rfl (plain parent entries)
      | _ => rfl
    cases none.symm.trans child
  · rwa [child?_congr (get.trans (if_neg last))] at child

namespace Lasts

theorem refl (t : FileTree) : t.Lasts t where
  node _ n h := ⟨n, h, .same n⟩
  fresh _ new := isDirectory_of_not_has new
  entry _ _ _ := .inl

theorem has (h : t.Lasts u) (old : t.Has id) : u.Has id := by
  obtain ⟨n, here⟩ := Option.isSome_iff_exists.1 old
  obtain ⟨n', there, -⟩ := h.node id n here
  exact has_of_get? there

theorem isDirectory_eq (h : t.Lasts u) (id : NodeId) : u.isDirectory id = t.isDirectory id := by
  by_cases old : t.Has id
  · obtain ⟨n, here⟩ := Option.isSome_iff_exists.1 old
    obtain ⟨n', there, akin⟩ := h.node id n here
    rw [isDirectory, isDirectory, here, there]
    cases akin <;> rfl
  · rw [h.fresh id old, isDirectory_of_not_has old]

theorem parent_eq (h : t.Lasts u) (directory : t.isDirectory id = true) :
    u.parent id = t.parent id := by
  obtain ⟨p, entries, here⟩ := exists_of_isDirectory directory
  obtain ⟨n', there, akin⟩ := h.node id _ here
  rw [parent, parent, here, there]
  cases akin <;> rfl

theorem isEndless_eq (h : t.Lasts u) (old : t.Has id) : u.isEndless id = t.isEndless id := by
  obtain ⟨n, here⟩ := Option.isSome_iff_exists.1 old
  obtain ⟨n', there, akin⟩ := h.node id n here
  rw [isEndless, isEndless, here, there]
  exact akin.isEndless_eq

theorem trans (h : t.Lasts u) (h' : u.Lasts v) : t.Lasts v where
  node id n here := by
    obtain ⟨n', there, akin⟩ := h.node id n here
    obtain ⟨n'', there', akin'⟩ := h'.node id n' there
    exact ⟨n'', there', akin.trans akin'⟩
  fresh id new := by rw [h'.isDirectory_eq, h.fresh id new]
  entry dir name id here := by
    obtain there | ⟨new, made⟩ := h'.entry dir name id here
    · obtain old | ⟨new, made, ends⟩ := h.entry dir name id there
      · exact .inl old
      · exact .inr ⟨new, h'.has made, (h'.isEndless_eq made).trans ends⟩
    · exact .inr ⟨fun old => new (h.has old), made⟩

theorem sound (h : t.Lasts u) (sound : t.Sound) : u.Sound where
  root := by rw [h.isDirectory_eq, sound.root]
  parent id directory := by
    rw [h.isDirectory_eq] at directory ⊢
    rw [h.parent_eq directory, sound.parent id directory]
  child dir name id here := by
    obtain old | ⟨-, made⟩ := h.entry dir name id here
    · exact h.has (sound.child dir name id old)
    · exact made.1

theorem unlisted (h : t.Lasts u) (has : t.Has id) (unlisted : t.Unlisted id) : u.Unlisted id := by
  refine ⟨by rw [h.isDirectory_eq, unlisted.1], fun dir name here => ?_⟩
  obtain old | ⟨new, -⟩ := h.entry dir name id here
  · exact unlisted.2 dir name old
  · exact new has

/-- What cannot be read to its end and is in some directory was there before, in some directory. -/
theorem endless (h : t.Lasts u) (sound : t.Sound) (endless : u.isEndless id = true)
    (listed : ¬u.Unlisted id) : t.isEndless id = true ∧ ¬t.Unlisted id := by
  have old : t.Has id := by
    by_contra new
    refine listed ⟨h.fresh id new, fun dir name here => ?_⟩
    obtain old | ⟨-, -, ends⟩ := h.entry dir name id here
    · exact new (sound.child dir name id old)
    · cases ends.symm.trans endless
  exact ⟨(h.isEndless_eq old).symm.trans endless, fun unlisted => listed (h.unlisted old unlisted)⟩

theorem set {n n' : Node} (here : t.get? id = some n) (akin : n.Akin n')
    (entries : ∀ name i, (t.set id n').child? id name = some i → t.child? id name = some i) :
    t.Lasts (t.set id n') := by
  have get (other : NodeId) := get?_set (has_of_get? here) n' other
  refine ⟨fun other m there => ?_, fun other new => ?_, fun dir name i child => .inl ?_⟩
  · rw [get]
    split
    · next same =>
      obtain rfl := Option.some.inj (here.symm.trans (same ▸ there))
      exact ⟨n', rfl, akin⟩
    · exact ⟨m, there, .same m⟩
  · have apart : id ≠ other := by
      rintro rfl
      exact new (has_of_get? here)
    rw [isDirectory, get, if_neg apart]
    exact isDirectory_of_not_has new
  · by_cases same : id = dir
    · subst same
      exact entries name i child
    · rwa [child?_congr ((get dir).trans (if_neg same))] at child

theorem push {n : Node} (plain : ∀ parent entries, n ≠ .directory parent entries) :
    t.Lasts (t.push n).2 := by
  have get (other : NodeId) :
      (t.push n).2.get? other = if other = t.nodes.size then some n else t.get? other :=
    Array.getElem?_push
  have isDirectory_eq (other : NodeId) : (t.push n).2.isDirectory other = t.isDirectory other := by
    by_cases last : other = t.nodes.size
    · have new : ¬t.Has other := last ▸ t.not_has_size
      rw [isDirectory_of_not_has new, isDirectory, get, if_pos last]
      cases n with
      | directory parent entries => exact absurd rfl (plain parent entries)
      | _ => rfl
    · rw [isDirectory, isDirectory, get, if_neg last]
  refine ⟨fun other m there => ?_, fun other new => ?_, fun dir name i child => .inl ?_⟩
  · have old : other ≠ t.nodes.size := by
      rintro rfl
      exact t.not_has_size (has_of_get? there)
    exact ⟨m, by rw [get, if_neg old, there], .same m⟩
  · rw [isDirectory_eq, isDirectory_of_not_has new]
  · exact child?_of_push plain child

end Lasts

theorem unlisted_push (sound : t.Sound) {n : Node}
    (plain : ∀ parent entries, n ≠ .directory parent entries) :
    (t.push n).2.Unlisted t.nodes.size := by
  refine ⟨?_, fun dir name child => ?_⟩
  · rw [(Lasts.push plain).isDirectory_eq, isDirectory_of_not_has t.not_has_size]
  · exact t.not_has_size (sound.child dir name _ (child?_of_push plain child))

theorem Grows.lasts (h : t.Grows u) (sound : u.Sound) : t.Lasts u where
  node id n here := by
    have grown := h id
    rw [here] at grown
    generalize there : u.get? id = n' at grown
    cases grown with
    | same => exact ⟨n, rfl, .same n⟩
    | entered => exact ⟨_, rfl, .directory _ _ _⟩
    | emptied => exact ⟨_, rfl, .file _ _ _⟩
    | erased => exact ⟨_, rfl, .erased _ _⟩
  fresh id new := by rw [h.isDirectory_eq, isDirectory_of_not_has new]
  entry dir name id here := by
    by_cases old : t.Has id
    · exact .inl ((h.child?_iff old dir name).1 here)
    · have made := sound.child dir name id here
      exact .inr ⟨old, made, by rw [isEndless, h.get?_made old made]; rfl⟩

/-! ### What paths lead to -/

theorem not_unlisted_of_isDirectory (directory : t.isDirectory id = true) : ¬t.Unlisted id :=
  fun unlisted => Bool.false_ne_true (unlisted.1.symm.trans directory)

theorem not_unlisted_of_child? {name : Bytes} (child : t.child? dir name = some id) :
    ¬t.Unlisted id := fun unlisted => unlisted.2 dir name child

/-- Whatever a path leads to is there, and is in a directory or one itself. -/
theorem has_of_lookup (sound : t.Sound) (directory : t.isDirectory dir = true)
    {followLast : Bool} {path : String} (h : t.lookup followLast dir path = .ok id) :
    t.Has id ∧ ¬t.Unlisted id := by
  have within := sound.region.lookupBytes directory h
  refine ⟨within.has sound, ?_⟩
  obtain directory | ⟨-, dir, name, -, entry⟩ := within
  · exact not_unlisted_of_isDirectory directory
  · exact not_unlisted_of_child? entry

/-- What is read without an end is no file that could be read to one. -/
theorem lookup_of_endless {path : String} (h : t.readText dir path = .endless id) :
    t.lookup true dir path = .ok id ∧ t.isEndless id = true := by
  unfold readText at h
  split at h
  · cases h
  next found =>
  split at h
  · split at h <;> cases h
  all_goals
    cases h
    try next node => exact ⟨found, by rw [isEndless, node]; rfl⟩

/-! ### Nodes that are in no directory -/

/-- A tree after changes that paths have led to: nodes in no directory are as they were, and nothing
has been put into a file. -/
structure Spares (t u : FileTree) : Prop extends Lasts t u where
  spared : ∀ id, t.Has id → t.Unlisted id → u.get? id = t.get? id
  emptied : ∀ id content executable, t.get? id = some (.file content executable) →
    u.get? id = some (.file content executable) ∨ u.get? id = some (.file [] executable)

namespace Spares

theorem refl (t : FileTree) : t.Spares t := ⟨.refl t, fun _ _ _ => rfl, fun _ _ _ => .inl⟩

theorem trans (h : t.Spares u) (h' : u.Spares v) : t.Spares v where
  toLasts := h.toLasts.trans h'.toLasts
  spared id has unlisted :=
    (h'.spared id (h.has has) (h.unlisted has unlisted)).trans (h.spared id has unlisted)
  emptied id content executable here := by
    obtain there | there := h.emptied id content executable here
    · exact h'.emptied id content executable there
    · exact .inr (or_self_iff.1 (h'.emptied id [] executable there))

theorem set {n n' : Node} (here : t.get? id = some n) (akin : n.Akin n')
    (entries : ∀ name i, (t.set id n').child? id name = some i → t.child? id name = some i)
    (listed : ¬t.Unlisted id)
    (emptied : ∀ content executable, n = .file content executable → n' = .file [] executable) :
    t.Spares (t.set id n') where
  toLasts := .set here akin entries
  spared other _ unlisted := by
    have apart : id ≠ other := by
      rintro rfl
      exact listed unlisted
    rw [get?_set (has_of_get? here), if_neg apart]
  emptied other content executable there := by
    rw [get?_set (has_of_get? here)]
    split
    · next same =>
      obtain rfl := Option.some.inj (here.symm.trans (same ▸ there))
      exact .inr (congrArg some (emptied content executable rfl))
    · exact .inl there

theorem push {n : Node} (plain : ∀ parent entries, n ≠ .directory parent entries) :
    t.Spares (t.push n).2 where
  toLasts := .push plain
  spared id has _ := by
    have old : id ≠ t.nodes.size := by
      rintro rfl
      exact t.not_has_size has
    exact Array.getElem?_push.trans (if_neg old)
  emptied id content executable here := by
    have old : id ≠ t.nodes.size := by
      rintro rfl
      exact t.not_has_size (has_of_get? here)
    exact .inl ((Array.getElem?_push.trans (if_neg old)).trans here)

theorem truncate (listed : t.Has id → ¬t.Unlisted id) : t.Spares (t.truncate id) := by
  cases node : t.get? id with
  | none =>
    rw [FileTree.truncate, node]
    exact .refl t
  | some n =>
    rw [truncate_eq node]
    refine .set node (.emptied n) (fun name i child => ?_) (listed (has_of_get? node)) ?_
    · rwa [child?_set_emptied node] at child
    · rintro content executable rfl
      rfl

/-- A file that is written to under a path is there afterwards, and is listed unless it is new. -/
theorem openForWriting (sound : t.Sound) (directory : t.isDirectory dir = true) {path : String}
    (h : t.openForWriting dir path = .ok (id, u)) :
    t.Spares u ∧ u.Has id ∧ (t.Has id → ¬t.Unlisted id) := by
  obtain ⟨found, -, rfl⟩ | ⟨place, name, missing, rfl, rfl⟩ := openForWriting_cases h
  · obtain ⟨has, listed⟩ := has_of_lookup sound directory found
    exact ⟨.refl u, has, fun _ => listed⟩
  · obtain ⟨isDirectory, none⟩ := sound.region.locateBytes directory missing
    obtain ⟨parent, entries, node⟩ := exists_of_isDirectory isDirectory
    have get := get?_create node name (.file [] false)
    have lasts := (Grows.create isDirectory none).lasts (sound.create isDirectory none)
    have same {other : NodeId} (has : t.Has other) (apart : place ≠ other) :
        (t.create place name (.file [] false)).2.get? other = t.get? other := by
      have old : other ≠ t.nodes.size := by
        rintro rfl
        exact t.not_has_size has
      rw [get, if_neg old, if_neg apart]
    refine ⟨⟨lasts, fun other has unlisted => same has ?_, fun other content executable here =>
      .inl ((same (has_of_get? here) ?_).trans here)⟩, ?_, fun has => absurd has t.not_has_size⟩
    · rintro rfl
      exact not_unlisted_of_isDirectory isDirectory unlisted
    · rintro rfl
      cases node.symm.trans here
    · rw [Has, get, if_pos rfl, Option.isSome_some]

/-- The same once the file has been emptied. -/
theorem openAndTruncate (sound : t.Sound) (directory : t.isDirectory dir = true) {path : String}
    (h : t.openForWriting dir path = .ok (id, u)) :
    t.Spares (u.truncate id) ∧ (u.truncate id).Has id := by
  obtain ⟨found, -, rfl⟩ | ⟨place, name, missing, rfl, rfl⟩ := openForWriting_cases h
  · obtain ⟨has, listed⟩ := has_of_lookup sound directory found
    have emptied : u.Spares (u.truncate id) := truncate fun _ => listed
    exact ⟨emptied, emptied.has has⟩
  · obtain ⟨isDirectory, -⟩ := sound.region.locateBytes directory missing
    obtain ⟨spares, has, -⟩ := openForWriting sound directory h
    rw [truncate_create isDirectory]
    exact ⟨spares, has⟩

/-! ### Removing -/

theorem unlink {parent : NodeId} {entries entries' : Listing Bytes NodeId}
    (here : t.get? dir = some (.directory parent entries))
    (fewer : ∀ name i, entries'.get? name = some i → entries.get? name = some i) :
    t.Spares (t.set dir (.directory parent entries')) := by
  refine .set here (.directory _ _ _) (fun name i child => ?_)
    (not_unlisted_of_isDirectory (by rw [isDirectory, here])) (by rintro _ _ ⟨⟩)
  have there : (t.set dir (.directory parent entries')).get? dir = _ :=
    (get?_set (has_of_get? here) _ dir).trans (if_pos rfl)
  rw [child?_of_directory there] at child
  rw [child?_of_directory here]
  exact fewer name i child

theorem clear (t : FileTree) (depth : Nat) (id : NodeId) : t.Spares (t.clear depth id) := by
  induction depth generalizing t id with
  | zero => exact .refl t
  | succ depth ih =>
    rw [FileTree.clear.eq_def]
    dsimp only
    split
    · next parent entries here =>
      have below : t.Spares (entries.entries.foldl (fun t e => t.clear depth e.2) t) :=
        List.foldlRecOn _ _ (motive := fun u => t.Spares u) (.refl t)
          fun u spares e _ => spares.trans (ih u e.2)
      obtain ⟨n, there, akin⟩ := below.node id _ here
      refine below.trans ?_
      cases akin with
      | same => exact unlink there fun name i child => by cases child
      | directory => exact unlink there fun name i child => by cases child
    · exact .refl t

theorem leave (t : FileTree) (dir : NodeId) (name : Bytes) : t.Spares (t.leave dir name) := by
  unfold FileTree.leave
  split
  · next parent entries here =>
    refine unlink here fun other i child => ?_
    rw [Listing.get?_erase] at child
    split at child
    · cases child
    · exact child
  · exact .refl t

theorem remove (t : FileTree) (dir : NodeId) (path : String) : t.Spares (t.remove dir path) := by
  unfold FileTree.remove
  extract_lets dots names start
  split
  · exact .refl t
  split
  · split
    · exact clear t _ _
    · exact .refl t
  · split
    · split
      · exact (clear t _ _).trans (leave _ _ _)
      · exact .refl t
    · exact .refl t

/-! ### Redirections -/

theorem touch (sound : t.Sound) {here : Surroundings}
    (directory : t.isDirectory here.directory = true) {kind : Token.Kind} {path : String}
    (h : Command.touch here kind path t = .ok u) : t.Spares u := by
  let r : Token × Token := (⟨kind, "", false⟩, ⟨.word, path, true⟩)
  have opened : Command.openTarget here r t = .ok u := h
  by_cases input : kind = .input
  · obtain ⟨rfl, -⟩ := (Command.openTarget_input (r := r) input).1 opened
    exact .refl u
  rw [Command.openTarget_output (r := r) input] at opened
  cases found : t.openForWriting here.directory (Command.targetPath here r.2) with
  | error e =>
    rw [found] at opened
    cases opened
  | ok file =>
    obtain ⟨id, v⟩ := file
    rw [found] at opened
    obtain rfl := Except.ok.inj opened
    dsimp only
    split
    · exact (openAndTruncate sound directory found).1
    · exact (openForWriting sound directory found).1

theorem checkRedirections (sound : t.Sound) {here : Surroundings}
    (directory : t.isDirectory here.directory = true) (ts : List Token) :
    t.Spares (Command.checkRedirections here ts t).2 := by
  fun_induction Command.checkRedirections here ts t with
  | case1 t | case2 _ t => exact .refl t
  | case3 t target rest tree _ u opened ih =>
    have spares := touch sound directory opened
    refine spares.trans (ih (spares.sound sound) ?_)
    rw [spares.isDirectory_eq, directory]
  | case4 _ _ _ t => exact .refl t
  | case5 t target rest tree _ ih => exact ih sound directory

end Spares

/-! ### Trees that can be checked -/

/-- Whether a node is no directory, or one in a directory, all of whose entries lead to nodes. -/
def isProper (t : FileTree) : Node → Bool
  | .directory parent entries =>
    t.isDirectory parent && entries.entries.all fun e => (t.get? e.2).isSome
  | _ => true

theorem sound_of_isProper (root : t.isDirectory root = true)
    (proper : t.nodes.toList.all t.isProper = true) : t.Sound := by
  have checked {id parent : NodeId} {entries : Listing Bytes NodeId}
      (node : t.get? id = some (.directory parent entries)) :
      t.isDirectory parent = true ∧ ∀ e ∈ entries.entries, t.Has e.2 := by
    have member := Array.mem_toList_iff.2 (Array.mem_of_getElem? node)
    have good := List.all_eq_true.1 proper _ member
    simp only [isProper, Bool.and_eq_true, List.all_eq_true] at good
    exact good
  refine ⟨root, fun id directory => ?_, fun dir name id child => ?_⟩
  · obtain ⟨parent, entries, node⟩ := exists_of_isDirectory directory
    rw [FileTree.parent, node]
    exact (checked node).1
  · unfold child? entries? at child
    split at child
    · next parent entries node =>
      obtain ⟨e, found, rfl⟩ := Option.map_eq_some_iff.1 child
      exact (checked node).2 e (List.mem_of_find?_eq_some found)
    · cases child

end FileTree
end JobShell
