import JobShell.Host.FileTree
import Mathlib.Tactic.Common

/-! Trees of files in which files are made and emptied. Whatever a path led to, it leads to still,
and a path that leads to something else than before leads to a file that has been made. -/
namespace JobShell

/-- What may become of a node, given which nodes were there before. A directory may have new entries
for new nodes, a file or a program may have lost its content, and nothing may have become an empty
file. -/
inductive Node.Grows (old : NodeId → Prop) : Option Node → Option Node → Prop where
  | same (n : Option Node) : Grows old n n
  | entered (parent : NodeId) {entries entries' : Listing Bytes NodeId}
    (h : ∀ name id, old id → (entries'.get? name = some id ↔ entries.get? name = some id)) :
    Grows old (some (.directory parent entries)) (some (.directory parent entries'))
  | emptied (content : Bytes) (executable : Bool) :
    Grows old (some (.file content executable)) (some (.file [] executable))
  | erased (run : Program) : Grows old (some (.program run)) (some (.file [] true))
  | made : Grows old none (some (.file [] false))

namespace FileTree

/-- Whether a node is in a tree. -/
def Has (t : FileTree) (id : NodeId) : Prop := (t.get? id).isSome = true

theorem has_of_get? {t : FileTree} {id : NodeId} {n : Node} (h : t.get? id = some n) :
    t.Has id := by
  rw [Has, h, Option.isSome_some]

theorem has_of_isDirectory {t : FileTree} {id : NodeId} (h : t.isDirectory id = true) :
    t.Has id := by
  unfold isDirectory at h
  split at h
  · next node => exact has_of_get? node
  · cases h

/-- The node under a name in a directory. -/
def child? (t : FileTree) (dir : NodeId) (name : Bytes) : Option NodeId :=
  (t.entries? dir).bind (·.get? name)

/-- A tree with directories where there have to be some, in which all entries lead to nodes. -/
structure Sound (t : FileTree) : Prop where
  root : t.isDirectory root = true
  parent : ∀ id, t.isDirectory id = true → t.isDirectory (t.parent id) = true
  child : ∀ dir name id, t.child? dir name = some id → t.Has id

/-- A tree after files have been made in another one or emptied. -/
def Grows (t u : FileTree) : Prop := ∀ id, Node.Grows t.Has (t.get? id) (u.get? id)

namespace Grows

variable {t u v : FileTree}

theorem refl (t : FileTree) : t.Grows t := fun id => .same (t.get? id)

theorem has (h : t.Grows u) {id : NodeId} (old : t.Has id) : u.Has id := by
  have grown := h id
  unfold Has at old ⊢
  generalize t.get? id = n, u.get? id = n' at old grown
  cases grown with
  | same => exact old
  | entered | emptied | erased | made => rfl

theorem trans (h : t.Grows u) (h' : u.Grows v) : t.Grows v := by
  intro id
  have first := h id
  have second := h' id
  generalize t.get? id = n, u.get? id = n', v.get? id = n'' at first second
  cases first with
  | same =>
    cases second with
    | same => exact .same _
    | entered parent entries => exact .entered parent fun name id old => entries name id (h.has old)
    | emptied content executable => exact .emptied content executable
    | erased run => exact .erased run
    | made => exact .made
  | entered parent entries =>
    cases second with
    | same => exact .entered parent entries
    | entered _ entries' =>
      exact .entered parent fun name id old =>
        (entries' name id (h.has old)).trans (entries name id old)
  | emptied content executable =>
    cases second <;> exact .emptied content executable
  | erased run => cases second <;> exact .erased run
  | made => cases second <;> exact .made

theorem isDirectory_eq (h : t.Grows u) (id : NodeId) : u.isDirectory id = t.isDirectory id := by
  have grown := h id
  unfold isDirectory
  generalize t.get? id = n, u.get? id = n' at grown
  cases grown <;> rfl

theorem parent_eq (h : t.Grows u) (id : NodeId) : u.parent id = t.parent id := by
  have grown := h id
  unfold parent
  generalize t.get? id = n, u.get? id = n' at grown
  cases grown <;> rfl

/-- The entries for nodes that were there are the same. -/
theorem child?_iff (h : t.Grows u) {id : NodeId} (old : t.Has id) (dir : NodeId) (name : Bytes) :
    u.child? dir name = some id ↔ t.child? dir name = some id := by
  have grown := h dir
  unfold child? entries?
  generalize t.get? dir = n, u.get? dir = n' at grown
  cases grown with
  | same | emptied | erased | made => exact Iff.rfl
  | entered parent entries => exact entries name id old

/-- A node that was not there is an empty file, if it is there now. -/
theorem get?_of_not_has (h : t.Grows u) {id : NodeId} (new : ¬t.Has id) :
    u.get? id = none ∨ u.get? id = some (.file [] false) := by
  have grown := h id
  rw [Has, Option.not_isSome_iff_eq_none] at new
  rw [new] at grown
  generalize u.get? id = n at grown
  cases grown with
  | same => exact .inl rfl
  | made => exact .inr rfl

theorem get?_made (h : t.Grows u) {id : NodeId} (new : ¬t.Has id) (has : u.Has id) :
    u.get? id = some (.file [] false) := by
  refine (h.get?_of_not_has new).resolve_left fun none => ?_
  rw [Has, none] at has
  cases has

end Grows

/-! ### Walking -/

/-- The results of two walks of which both fail, or the second leads to what is expected from the
first. -/
inductive Walked {ε α : Type} (expected : α → α → Prop) : Except ε α → Except ε α → Prop where
  | error (e e' : ε) : Walked expected (.error e) (.error e')
  | ok {a a' : α} (h : expected a a') : Walked expected (.ok a) (.ok a')

/-- Where a path leads in a tree, and where it leads after that has grown. Only what was missing may
have been found, and then it has been made. -/
inductive Location.Grows (t u : FileTree) : Location → Location → Prop where
  | found (id : NodeId) : Grows t u (found id) (found id)
  | missing {dir : NodeId} {name : Bytes} (none : u.child? dir name = none) :
    Grows t u (missing dir name) (missing dir name)
  | made {dir id : NodeId} {name : Bytes} (new : ¬t.Has id) (here : u.child? dir name = some id) :
    Grows t u (missing dir name) (found id)
  | noDirectory (e e' : Errno) : Grows t u (noDirectory e) (noDirectory e')

inductive Stop.Grows (t u : FileTree) : Stop → Stop → Prop where
  | arrived {place place' : Location} (h : place.Grows t u place') :
    Grows t u (arrived place) (arrived place')
  | link (dir : NodeId) (target : Bytes) (rest : List Bytes) :
    Grows t u (link dir target rest) (link dir target rest)

/-- The end of a walk at a name that is not there. -/
def lost (dir : NodeId) (name : Bytes) (rest : List Bytes) : Except Errno Stop :=
  if rest.isEmpty then .ok (.arrived (.missing dir name))
  else if rest = [[]] then .ok (.arrived (.noDirectory .noEntry))
  else .error .noEntry

/-- The end of a walk at a node that no path leads beyond. -/
def ended (id : NodeId) (rest : List Bytes) : Except Errno Stop :=
  if rest.isEmpty then .ok (.arrived (.found id))
  else if rest = [[]] then .ok (.arrived (.noDirectory .notDirectory))
  else .error .notDirectory

/-- How a walk goes on at a node in a directory, given where it leads from there if that is a
directory, too. -/
def reached (followLast : Bool) (dir id : NodeId) (rest : List Bytes) (beyond : Except Errno Stop) :
    Option Node → Except Errno Stop
  | some (.link target) =>
    if rest.isEmpty && !followLast then .ok (.arrived (.found id)) else .ok (.link dir target rest)
  | some (.directory ..) => beyond
  | _ => ended id rest

theorem descend_cons (t : FileTree) (followLast : Bool) (dir : NodeId) (name : Bytes)
    (rest : List Bytes) :
    t.descend followLast dir (name :: rest) =
      if name.isEmpty || name = Bytes.ofString "." then t.descend followLast dir rest
      else if name = Bytes.ofString ".." then t.descend followLast (t.parent dir) rest
      else if Path.maxComponentBytes < name.length then .error .nameTooLong
      else (t.child? dir name).elim (lost dir name rest) fun id =>
        reached followLast dir id rest (t.descend followLast id rest) (t.get? id) := by
  rw [descend, child?]
  split
  · rfl
  split
  · rfl
  split
  · rfl
  cases (t.entries? dir).bind (·.get? name) with
  | none => rfl
  | some id =>
    dsimp only [Option.elim]
    cases t.get? id with
    | none => rfl
    | some n => cases n <;> rfl

variable {t u : FileTree}

theorem walked_ended (id : NodeId) (rest : List Bytes) :
    Walked (Stop.Grows t u) (ended id rest) (ended id rest) := by
  unfold ended
  split
  · exact .ok (.arrived (.found id))
  · split
    · exact .ok (.arrived (.noDirectory _ _))
    · exact .error _ _

theorem walked_lost (dir : NodeId) (name : Bytes) (rest : List Bytes)
    (none : u.child? dir name = none) :
    Walked (Stop.Grows t u) (lost dir name rest) (lost dir name rest) := by
  unfold lost
  split
  · exact .ok (.arrived (.missing none))
  · split
    · exact .ok (.arrived (.noDirectory _ _))
    · exact .error _ _

theorem walked_made {dir id : NodeId} {name : Bytes} (new : ¬t.Has id)
    (here : u.child? dir name = some id) (rest : List Bytes) :
    Walked (Stop.Grows t u) (lost dir name rest) (ended id rest) := by
  unfold lost ended
  split
  · exact .ok (.arrived (.made new here))
  · split
    · exact .ok (.arrived (.noDirectory _ _))
    · exact .error _ _

theorem walked_reached {n n' : Option Node} (grown : Node.Grows t.Has n n') (followLast : Bool)
    (dir id : NodeId) (rest : List Bytes) {beyond beyond' : Except Errno Stop}
    (h : Walked (Stop.Grows t u) beyond beyond') :
    Walked (Stop.Grows t u) (reached followLast dir id rest beyond n)
      (reached followLast dir id rest beyond' n') := by
  cases grown with
  | entered => exact h
  | emptied | erased | made => exact walked_ended id rest
  | same =>
    cases n with
    | none => exact walked_ended id rest
    | some n =>
      cases n with
      | directory => exact h
      | link target =>
        rw [reached, reached]
        split
        · exact .ok (.arrived (.found id))
        · exact .ok (.link dir target rest)
      | _ => exact walked_ended id rest

theorem Grows.descend (sound : t.Sound) (h : t.Grows u) (followLast : Bool) (dir : NodeId)
    (names : List Bytes) :
    Walked (Stop.Grows t u) (t.descend followLast dir names) (u.descend followLast dir names) := by
  induction names generalizing dir with
  | nil => exact .ok (.arrived (.found dir))
  | cons name rest ih =>
    rw [descend_cons, descend_cons, h.parent_eq]
    split
    · exact ih dir
    split
    · exact ih _
    split
    · exact .error _ _
    cases found : t.child? dir name with
    | some id =>
      rw [(h.child?_iff (sound.child dir name id found) dir name).2 found]
      exact walked_reached (h id) followLast dir id rest (ih id)
    | none =>
      cases here : u.child? dir name with
      | none => exact walked_lost dir name rest here
      | some id =>
        -- What is entered now and was not before is a new node, and so a file at which walks end.
        have new : ¬t.Has id := fun old => by
          cases found.symm.trans ((h.child?_iff old dir name).1 here)
        obtain node | node := h.get?_of_not_has new
        all_goals
          rw [Option.elim_some, node]
          exact walked_made new here rest

/-- Where a walk leads that stops at links, given where it leads from there. -/
def goOn (fromLink : NodeId → Bytes → List Bytes → Except Errno Location) :
    Except Errno Stop → Except Errno Location
  | .error e => .error e
  | .ok (.arrived place) => .ok place
  | .ok (.link dir target rest) => fromLink dir target rest

theorem follow_zero (t : FileTree) (followLast : Bool) (dir : NodeId) (names : List Bytes) :
    t.follow followLast 0 dir names =
      goOn (fun _ _ _ => .error .linkLoop) (t.descend followLast dir names) := by
  rw [FileTree.follow]
  cases t.descend followLast dir names with
  | error e => rfl
  | ok stop => cases stop <;> rfl

theorem follow_succ (t : FileTree) (followLast : Bool) (budget : Nat) (dir : NodeId)
    (names : List Bytes) :
    t.follow followLast (budget + 1) dir names =
      goOn (fun dir target rest => t.follow followLast budget
        (if Path.isAbsolute target then root else dir) (Path.components target ++ rest))
        (t.descend followLast dir names) := by
  rw [FileTree.follow]
  cases t.descend followLast dir names with
  | error e => rfl
  | ok stop => cases stop <;> rfl

theorem walked_goOn {r r' : Except Errno Stop} (h : Walked (Stop.Grows t u) r r')
    {fromLink fromLink' : NodeId → Bytes → List Bytes → Except Errno Location}
    (links : ∀ dir target rest,
      Walked (Location.Grows t u) (fromLink dir target rest) (fromLink' dir target rest)) :
    Walked (Location.Grows t u) (goOn fromLink r) (goOn fromLink' r') := by
  cases h with
  | error e e' => exact .error e e'
  | ok stop =>
    cases stop with
    | arrived place => exact .ok place
    | link dir target rest => exact links dir target rest

theorem Grows.follow (sound : t.Sound) (h : t.Grows u) (followLast : Bool) (budget : Nat)
    (dir : NodeId) (names : List Bytes) :
    Walked (Location.Grows t u) (t.follow followLast budget dir names)
      (u.follow followLast budget dir names) := by
  induction budget generalizing dir names with
  | zero =>
    rw [follow_zero, follow_zero]
    exact walked_goOn (h.descend sound followLast dir names) fun _ _ _ => .error _ _
  | succ budget ih =>
    rw [follow_succ, follow_succ]
    exact walked_goOn (h.descend sound followLast dir names) fun _ _ _ => ih _ _

theorem Grows.locate (sound : t.Sound) (h : t.Grows u) (followLast : Bool) (dir : NodeId)
    (path : String) :
    Walked (Location.Grows t u) (t.locate followLast dir path) (u.locate followLast dir path) := by
  unfold FileTree.locate locateBytes
  split
  · exact .error _ _
  split
  · exact .error _ _
  split
  · exact .error _ _
  dsimp only
  generalize Bytes.ofString path = path
  generalize (if Path.isAbsolute path then FileTree.root else dir) = start
  have walked := h.follow sound followLast maxLinks start (Path.components path)
  generalize t.follow followLast maxLinks start _ = r, u.follow followLast maxLinks start _ = r'
    at walked
  cases walked with
  | error e e' => exact .error _ _
  | ok place => exact .ok place

theorem locate_of_lookup {followLast : Bool} {dir id : NodeId} {path : String}
    (h : t.lookup followLast dir path = .ok id) :
    t.locate followLast dir path = .ok (.found id) := by
  unfold lookup lookupBytes at h
  split at h
  · cases h
  · next found =>
    cases h
    exact found
  · cases h
  · cases h

theorem lookup_of_locate {followLast : Bool} {dir id : NodeId} {path : String}
    (h : t.locate followLast dir path = .ok (.found id)) :
    t.lookup followLast dir path = .ok id := by
  rw [lookup, lookupBytes, ← locate, h]

/-- Whatever a path led to, it leads to still. -/
theorem Grows.lookup (sound : t.Sound) (h : t.Grows u) {followLast : Bool} {dir id : NodeId}
    {path : String} (found : t.lookup followLast dir path = .ok id) :
    u.lookup followLast dir path = .ok id := by
  have walked := h.locate sound followLast dir path
  rw [locate_of_lookup found] at walked
  refine lookup_of_locate ?_
  generalize u.locate followLast dir path = r at walked
  cases walked with
  | ok place =>
    cases place
    rfl

/-- What was there is found by no other path than before. -/
theorem Grows.lookup_old (sound : t.Sound) (h : t.Grows u) {followLast : Bool} {dir id : NodeId}
    {path : String} (old : t.Has id) (found : u.lookup followLast dir path = .ok id) :
    t.lookup followLast dir path = .ok id := by
  have walked := h.locate sound followLast dir path
  rw [locate_of_lookup found] at walked
  refine lookup_of_locate ?_
  generalize t.locate followLast dir path = r at walked
  cases walked with
  | ok place =>
    cases place with
    | found => rfl
    | made new here => exact absurd old new

/-- A path to something that was missing leads to what is entered in its place. -/
theorem Grows.lookup_missing (sound : t.Sound) (h : t.Grows u) {followLast : Bool}
    {dir place : NodeId} {path : String} {name : Bytes}
    (missing : t.locate followLast dir path = .ok (.missing place name)) (id : NodeId) :
    u.lookup followLast dir path = .ok id ↔ u.child? place name = some id := by
  have walked := h.locate sound followLast dir path
  rw [missing] at walked
  rw [FileTree.lookup, lookupBytes, ← FileTree.locate]
  generalize u.locate followLast dir path = r at walked
  cases walked with
  | ok grown =>
    cases grown with
    | missing none => simp [none]
    | made new here => simp [here]

/-! ### Where paths end -/

/-- Directories that no walk leaves: the root is one of them, and so is whatever directory is their
parent or in them. -/
structure Region (t : FileTree) (D : NodeId → Prop) : Prop where
  root : D root
  parent : ∀ dir, D dir → D (t.parent dir)
  child : ∀ dir name id, D dir → t.child? dir name = some id → t.isDirectory id = true → D id

theorem Sound.region (sound : t.Sound) : t.Region fun id => t.isDirectory id = true :=
  ⟨sound.root, sound.parent, fun _ _ _ _ _ directory => directory⟩

/-- The end of a path at one of some directories, at something else that is in one, or where that
can be entered. -/
def Location.Within (t : FileTree) (D : NodeId → Prop) : Location → Prop
  | found id => D id ∨ t.isDirectory id = false ∧ ∃ dir name, D dir ∧ t.child? dir name = some id
  | missing dir name => D dir ∧ t.child? dir name = none
  | noDirectory _ => True

def Stop.Within (t : FileTree) (D : NodeId → Prop) : Stop → Prop
  | arrived place => place.Within t D
  | link dir _ _ => D dir

theorem Location.Within.has {id : NodeId} (h : (found id).Within t fun id => t.isDirectory id = true)
    (sound : t.Sound) : t.Has id := by
  obtain directory | ⟨-, dir, name, -, entry⟩ := h
  · exact has_of_isDirectory directory
  · exact sound.child dir name id entry

namespace Region

variable {D : NodeId → Prop} {dir id : NodeId} {rest : List Bytes} {stop : Stop}

theorem lost {name : Bytes} (here : D dir) (none : t.child? dir name = none)
    (h : lost dir name rest = .ok stop) : stop.Within t D := by
  unfold FileTree.lost at h
  split at h
  · cases h
    exact ⟨here, none⟩
  · split at h
    · cases h
      trivial
    · cases h

theorem ended (place : (Location.found id).Within t D) (h : ended id rest = .ok stop) :
    stop.Within t D := by
  unfold FileTree.ended at h
  split at h
  · cases h
    exact place
  · split at h
    · cases h
      trivial
    · cases h

theorem descend (region : t.Region D) {followLast : Bool} {names : List Bytes} (here : D dir)
    (h : t.descend followLast dir names = .ok stop) : stop.Within t D := by
  induction names generalizing dir with
  | nil =>
    cases h
    exact .inl here
  | cons name rest ih =>
    rw [descend_cons] at h
    split at h
    · exact ih here h
    split at h
    · exact ih (region.parent dir here) h
    split at h
    · cases h
    cases found : t.child? dir name with
    | none =>
      rw [found, Option.elim_none] at h
      exact Region.lost here found h
    | some id =>
      rw [found, Option.elim_some, reached.eq_def] at h
      split at h
      · next node =>
        split at h
        · cases h
          exact .inr ⟨by rw [isDirectory, node], dir, name, here, found⟩
        · cases h
          exact here
      · next node => exact ih (region.child dir name id here found (by rw [isDirectory, node])) h
      · next other =>
        refine Region.ended (.inr ⟨?_, dir, name, here, found⟩) h
        unfold isDirectory
        split
        · next node => exact absurd node (other _ _)
        · rfl

theorem goOn {r : Except Errno Stop} {place : Location}
    {fromLink : NodeId → Bytes → List Bytes → Except Errno Location}
    (stops : ∀ stop, r = .ok stop → stop.Within t D)
    (links : ∀ dir target rest, D dir → fromLink dir target rest = .ok place → place.Within t D)
    (h : goOn fromLink r = .ok place) : place.Within t D := by
  cases r with
  | error e => cases h
  | ok stop =>
    have within := stops stop rfl
    cases stop with
    | arrived place =>
      cases h
      exact within
    | link dir target rest => exact links dir target rest within h

theorem follow (region : t.Region D) {followLast : Bool} {budget : Nat} {names : List Bytes}
    {place : Location} (here : D dir) (h : t.follow followLast budget dir names = .ok place) :
    place.Within t D := by
  induction budget generalizing dir names with
  | zero =>
    rw [follow_zero] at h
    exact Region.goOn (fun _ => region.descend here) (fun _ _ _ _ h => by cases h) h
  | succ budget ih =>
    rw [follow_succ] at h
    refine Region.goOn (fun _ => region.descend here) (fun dir target rest h => ih ?_) h
    split
    · exact region.root
    · exact h

theorem locateBytes (region : t.Region D) {followLast : Bool} {path : Bytes} {place : Location}
    (here : D dir) (h : t.locateBytes followLast dir path = .ok place) : place.Within t D := by
  unfold FileTree.locateBytes at h
  split at h
  · cases h
  split at h
  · cases h
  split at h
  · cases h
  dsimp only at h
  split at h
  · next found =>
    cases h
    refine region.follow ?_ found
    split
    · exact region.root
    · exact here
  · cases h

theorem lookupBytes (region : t.Region D) {followLast : Bool} {path : Bytes} (here : D dir)
    (h : t.lookupBytes followLast dir path = .ok id) : (Location.found id).Within t D := by
  unfold FileTree.lookupBytes at h
  split at h
  · cases h
  · next found =>
    cases h
    exact region.locateBytes here found
  · cases h
  · cases h

end Region

/-! ### Making and emptying files -/

theorem exists_of_isDirectory {dir : NodeId} (h : t.isDirectory dir = true) :
    ∃ parent entries, t.get? dir = some (.directory parent entries) := by
  unfold isDirectory at h
  split at h
  · next parent entries node => exact ⟨parent, entries, node⟩
  · cases h

theorem get?_set {id : NodeId} (has : t.Has id) (n : Node) (other : NodeId) :
    (t.set id n).get? other = if id = other then some n else t.get? other := by
  have inside : id < t.nodes.size := by
    obtain ⟨node, here⟩ := Option.isSome_iff_exists.1 has
    exact (Array.getElem?_eq_some_iff.1 here).1
  rw [get?, set, Array.getElem?_setIfInBounds, if_pos inside, get?]

theorem has_of_has_set {id other : NodeId} {n : Node} (has : t.Has id)
    (h : (t.set id n).Has other) : t.Has other := by
  rw [Has, get?_set has] at h
  split at h
  · next same => exact same ▸ has
  · exact h

theorem set_eq_self {id : NodeId} {n : Node} (h : t.get? id = some n) : t.set id n = t := by
  obtain ⟨inside, here⟩ := Array.getElem?_eq_some_iff.1 h
  rw [set, Array.setIfInBounds_def, dif_pos inside, ← here, Array.set_getElem_self]

theorem not_has_size (t : FileTree) : ¬t.Has t.nodes.size := by
  rw [Has, get?, Array.getElem?_size]
  exact Bool.false_ne_true

theorem get?_create {dir parent : NodeId} {entries : Listing Bytes NodeId}
    (h : t.get? dir = some (.directory parent entries)) (name : Bytes) (n : Node) (id : NodeId) :
    (t.create dir name n).2.get? id =
      if id = t.nodes.size then some n
      else if dir = id then some (.directory parent (entries.insert name t.nodes.size))
      else t.get? id := by
  have pushed (id : NodeId) :
      (t.push n).2.get? id = if id = t.nodes.size then some n else t.get? id :=
    Array.getElem?_push
  have old : dir ≠ t.nodes.size := by
    rintro rfl
    exact t.not_has_size (has_of_get? h)
  have here : (t.push n).2.get? dir = some (.directory parent entries) := by
    rw [pushed, if_neg old, h]
  -- The new node is there before it is entered, and the directory is another one.
  change ((t.push n).2.enter dir name t.nodes.size).get? id = _
  rw [enter, here]
  dsimp only
  rw [get?_set (has_of_get? here), pushed]
  by_cases same : dir = id
  · subst same
    rw [if_pos rfl, if_neg old, if_pos rfl]
  · rw [if_neg same, if_neg same]

theorem has_of_has_create {dir id : NodeId} {name : Bytes} {n : Node}
    (directory : t.isDirectory dir = true) (h : (t.create dir name n).2.Has id) :
    id = t.nodes.size ∨ t.Has id := by
  obtain ⟨parent, entries, node⟩ := exists_of_isDirectory directory
  rw [Has, get?_create node] at h
  split at h
  · next last => exact .inl last
  · split at h
    · next same => exact .inr (same ▸ has_of_isDirectory directory)
    · exact .inr h

theorem child?_of_directory {dir parent : NodeId} {entries : Listing Bytes NodeId}
    (h : t.get? dir = some (.directory parent entries)) (name : Bytes) :
    t.child? dir name = entries.get? name := by
  rw [child?, entries?, h, Option.bind_some]

theorem child?_congr {dir : NodeId} (h : u.get? dir = t.get? dir) (name : Bytes) :
    u.child? dir name = t.child? dir name := by
  rw [child?, child?, entries?, entries?, h]

theorem child?_of_not_has {dir : NodeId} (h : ¬t.Has dir) (name : Bytes) :
    t.child? dir name = none := by
  rw [child?, entries?, Option.not_isSome_iff_eq_none.1 h, Option.bind_none]

/-- A node that is no directory, or an empty one, has no entries. -/
theorem child?_of_bare {id : NodeId} {n : Node} (h : t.get? id = some n)
    (bare : ∀ parent entries, n = .directory parent entries → entries = .empty) (name : Bytes) :
    t.child? id name = none := by
  cases n with
  | directory parent entries =>
    rw [child?_of_directory h, bare parent entries rfl]
    rfl
  | _ => rw [child?, entries?, h, Option.bind_none]

theorem child?_create_of_bare {dir : NodeId} (directory : t.isDirectory dir = true) (name : Bytes)
    {n : Node} (bare : ∀ parent entries, n = .directory parent entries → entries = .empty)
    (dir' : NodeId) (name' : Bytes) :
    (t.create dir name n).2.child? dir' name' =
      if dir = dir' ∧ name = name' then some t.nodes.size else t.child? dir' name' := by
  obtain ⟨parent, entries, node⟩ := exists_of_isDirectory directory
  have created := get?_create node name n dir'
  by_cases last : dir' = t.nodes.size
  · have none := last ▸ t.not_has_size
    rw [if_pos last] at created
    rw [child?_of_bare created bare, child?_of_not_has none, if_neg]
    rintro ⟨rfl, -⟩
    exact none (has_of_isDirectory directory)
  · rw [if_neg last] at created
    by_cases same : dir = dir'
    · subst same
      rw [if_pos rfl] at created
      rw [child?_of_directory created, child?_of_directory node, Listing.get?_insert]
      simp only [true_and]
    · rw [if_neg same] at created
      rw [child?_congr created, if_neg fun h => same h.1]

theorem child?_create {dir : NodeId} (directory : t.isDirectory dir = true) (name : Bytes)
    (content : Bytes) (executable : Bool) (dir' : NodeId) (name' : Bytes) :
    (t.create dir name (.file content executable)).2.child? dir' name' =
      if dir = dir' ∧ name = name' then some t.nodes.size else t.child? dir' name' :=
  child?_create_of_bare directory name (by rintro _ _ ⟨⟩) dir' name'

/-- In place of a node that is no directory there is another such one. -/
theorem child?_set_plain {id : NodeId} {n n' : Node} (h : t.get? id = some n)
    (plain : ∀ parent entries, n ≠ .directory parent entries)
    (plain' : ∀ parent entries, n' ≠ .directory parent entries) (dir : NodeId) (name : Bytes) :
    (t.set id n').child? dir name = t.child? dir name := by
  have put := get?_set (has_of_get? h) n' dir
  by_cases same : id = dir
  · subst same
    rw [if_pos rfl] at put
    rw [child?_of_bare put fun parent entries is => absurd is (plain' parent entries),
      child?_of_bare h fun parent entries is => absurd is (plain parent entries)]
  · rw [if_neg same] at put
    exact child?_congr put name

/-- A node that is emptied changes only if it is no directory, and it is none afterwards. -/
theorem emptied_cases (n : Node) : n.emptied = n ∨
    (∀ parent entries, n ≠ .directory parent entries) ∧
      ∀ parent entries, n.emptied ≠ .directory parent entries := by
  cases n with
  | file | program => exact .inr ⟨by rintro _ _ ⟨⟩, by rintro _ _ ⟨⟩⟩
  | _ => exact .inl rfl

theorem child?_set_emptied {id : NodeId} {n : Node} (h : t.get? id = some n) (dir : NodeId)
    (name : Bytes) : (t.set id n.emptied).child? dir name = t.child? dir name := by
  obtain same | ⟨plain, plain'⟩ := emptied_cases n
  · rw [same, set_eq_self h]
  · exact child?_set_plain h plain plain' dir name

theorem Grows.create {dir : NodeId} {name : Bytes} (directory : t.isDirectory dir = true)
    (none : t.child? dir name = none) : t.Grows (t.create dir name (.file [] false)).2 := by
  obtain ⟨parent, entries, node⟩ := exists_of_isDirectory directory
  rw [child?_of_directory node] at none
  intro id
  rw [get?_create node]
  split
  · next last =>
    rw [last, Option.not_isSome_iff_eq_none.1 t.not_has_size]
    exact .made
  · split
    · next same =>
      subst same
      rw [node]
      refine .entered parent fun name' id old => ?_
      rw [Listing.get?_insert]
      split
      · next same =>
        subst same
        rw [none]
        refine ⟨?_, ?_⟩ <;> rintro ⟨⟩
        exact absurd old t.not_has_size
      · exact Iff.rfl
    · exact .same _

theorem Grows.empty {id : NodeId} {n : Node} (h : t.get? id = some n) :
    t.Grows (t.set id n.emptied) := by
  intro other
  rw [get?_set (has_of_get? h)]
  split
  · next same =>
    subst same
    rw [h]
    cases n with
    | file content executable => exact .emptied content executable
    | program run => exact .erased run
    | _ => exact .same _
  · exact .same _

/-- A tree that has grown is sound if all its new entries lead to nodes. -/
theorem Grows.sound (h : t.Grows u) (sound : t.Sound)
    (child : ∀ dir name id, ¬t.Has id → u.child? dir name = some id → u.Has id) : u.Sound where
  root := by
    rw [h.isDirectory_eq]
    exact sound.root
  parent id directory := by
    rw [h.isDirectory_eq] at directory ⊢
    rw [h.parent_eq]
    exact sound.parent id directory
  child dir name id here := by
    by_cases old : t.Has id
    · exact h.has old
    · exact child dir name id old here

theorem Sound.create (sound : t.Sound) {dir : NodeId} {name : Bytes}
    (directory : t.isDirectory dir = true) (none : t.child? dir name = none) :
    (t.create dir name (.file [] false)).2.Sound := by
  refine (Grows.create directory none).sound sound fun dir' name' id new here => ?_
  obtain ⟨parent, entries, node⟩ := exists_of_isDirectory directory
  rw [child?_create directory] at here
  split at here
  · cases here
    rw [Has, get?_create node, if_pos rfl, Option.isSome_some]
  · exact absurd (sound.child dir' name' id here) new

theorem Sound.set_plain (sound : t.Sound) {id : NodeId} {n n' : Node} (h : t.get? id = some n)
    (plain : ∀ parent entries, n ≠ .directory parent entries)
    (plain' : ∀ parent entries, n' ≠ .directory parent entries) : (t.set id n').Sound := by
  have node := get?_set (has_of_get? h) n'
  have isDirectory_eq (other : NodeId) : (t.set id n').isDirectory other = t.isDirectory other := by
    by_cases same : id = other
    · subst same
      rw [isDirectory, isDirectory, node, if_pos rfl, h]
      cases n with
      | directory parent entries => exact absurd rfl (plain parent entries)
      | _ =>
        cases n' with
        | directory parent entries => exact absurd rfl (plain' parent entries)
        | _ => rfl
    · rw [isDirectory, isDirectory, node, if_neg same]
  have parent_eq (other : NodeId) (directory : t.isDirectory other = true) :
      (t.set id n').parent other = t.parent other := by
    obtain ⟨parent, entries, here⟩ := exists_of_isDirectory directory
    have other : id ≠ other := by
      rintro rfl
      exact plain parent entries (Option.some.inj (h.symm.trans here))
    rw [FileTree.parent, FileTree.parent, node, if_neg other]
  refine ⟨?_, fun other directory => ?_, fun dir name other here => ?_⟩
  · rw [isDirectory_eq, sound.root]
  · rw [isDirectory_eq] at directory
    rw [isDirectory_eq, parent_eq other directory, sound.parent other directory]
  · rw [child?_set_plain h plain plain'] at here
    rw [Has, node]
    split
    · rfl
    · exact sound.child dir name other here

theorem Sound.set_emptied (sound : t.Sound) {id : NodeId} {n : Node} (h : t.get? id = some n) :
    (t.set id n.emptied).Sound := by
  obtain same | ⟨plain, plain'⟩ := emptied_cases n
  · rwa [same, set_eq_self h]
  · exact sound.set_plain h plain plain'

theorem sound_empty : FileTree.empty.Sound := by
  have only (id : NodeId) (h : FileTree.empty.isDirectory id = true) : id = FileTree.root := by
    cases id with
    | zero => rfl
    | succ id => cases h
  refine ⟨rfl, fun id directory => ?_, fun dir name id here => ?_⟩
  · rw [only id directory]
    rfl
  · cases dir <;> cases here

end FileTree
end JobShell
