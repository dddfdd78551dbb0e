import JobShell.Builtin.Directory
import JobShell.Proofs.ConfinedRuns
import JobShell.Proofs.PlantedTrees
import JobShell.Proofs.TextBytes

/-! Changes of the working directory. A change that fails leaves everything as it was, one that
succeeds moves the directory, its variables and the way back together, and the way back leads to
where it came from. -/
namespace JobShell

/-! ### Printing -/

namespace FileTree

variable {t u v : FileTree} {id : NodeId}

/-- A tree after changes to what is no directory. -/
structure SameDirectories (t u : FileTree) : Prop where
  size : u.nodes.size = t.nodes.size
  entries : ∀ id, u.entries? id = t.entries? id
  parent : ∀ id, u.parent id = t.parent id

namespace SameDirectories

theorem refl (t : FileTree) : t.SameDirectories t := ⟨rfl, fun _ => rfl, fun _ => rfl⟩

theorem trans (h : t.SameDirectories u) (h' : u.SameDirectories v) : t.SameDirectories v where
  size := h'.size.trans h.size
  entries id := (h'.entries id).trans (h.entries id)
  parent id := (h'.parent id).trans (h.parent id)

theorem set {content content' : Bytes} {executable : Bool}
    (here : t.get? id = some (.file content executable)) :
    t.SameDirectories (t.set id (.file content' executable)) := by
  refine ⟨Array.size_setIfInBounds, fun other => ?_, fun other => ?_⟩
  all_goals
    have get := get?_set (has_of_get? here) (.file content' executable) other
    by_cases same : id = other
    · rw [if_pos same] at get
      rw [same] at here
      simp only [entries?, FileTree.parent, get, here]
    · rw [if_neg same] at get
      simp only [entries?, FileTree.parent, get]

theorem isDirectory_eq (h : t.SameDirectories u) (id : NodeId) :
    u.isDirectory id = t.isDirectory id := by
  have known (t : FileTree) : t.isDirectory id = (t.entries? id).isSome := by
    rw [isDirectory, entries?]
    split <;> rfl
  rw [known, known, h.entries]

theorem child?_eq (h : t.SameDirectories u) (dir : NodeId) (name : Bytes) :
    u.child? dir name = t.child? dir name := by
  rw [child?, child?, h.entries]

theorem trail?_eq (h : t.SameDirectories u) (depth : Nat) (id : NodeId) (below : List Bytes) :
    u.trail? depth id below = t.trail? depth id below := by
  induction depth generalizing id below with
  | zero => rfl
  | succ depth ih =>
    have name : u.nameOf? id = t.nameOf? id := by rw [nameOf?, nameOf?, h.parent, h.entries]
    simp only [trail?, name, h.parent, ih]

theorem pathOf?_eq (h : t.SameDirectories u) (id : NodeId) : u.pathOf? id = t.pathOf? id := by
  rw [pathOf?, pathOf?, h.size, h.trail?_eq]

theorem treelike (h : t.SameDirectories u) (treelike : t.Treelike) : u.Treelike where
  root := by rw [h.isDirectory_eq, treelike.root]
  top := by rw [h.parent, treelike.top]
  below dir name id entry directory := by
    rw [h.child?_eq] at entry
    rw [h.isDirectory_eq] at directory
    rw [h.parent]
    exact treelike.below dir name id entry directory
  once dir name name' id entry entry' directory := by
    rw [h.child?_eq] at entry entry'
    rw [h.isDirectory_eq] at directory
    exact treelike.once dir name name' id entry entry' directory

end SameDirectories
end FileTree

theorem Host.sameDirectories_of_write {s t : Host} {h : Handle} {b : Bytes}
    (written : s.write h b = .ok t) : s.tree.SameDirectories t.tree := by
  have attempted : s.attempt h b = t := by rw [attempt, written]
  obtain same | ⟨o, content, executable, -, file, changed⟩ := s.attempt_cases h b
  · rw [← attempted, same]
    exact .refl s.tree
  · rw [← attempted, changed]
    exact .set file

/-- Nothing has become of a session but that it printed something. -/
structure Machine.Spoke (m m' : Machine) : Prop where
  shell : m'.shell = { m.shell with unwritten := m'.shell.unwritten }
  tree : m.host.tree.SameDirectories m'.host.tree

namespace Machine.Spoke

variable {m m' m'' : Machine}

theorem refl (m : Machine) : m.Spoke m := ⟨rfl, .refl m.host.tree⟩

theorem trans (h : m.Spoke m') (h' : m'.Spoke m'') : m.Spoke m'' where
  shell := by rw [h'.shell, h.shell]
  tree := h.tree.trans h'.tree

theorem directory (h : m.Spoke m') : m'.shell.directory = m.shell.directory := by rw [h.shell]

theorem vars (h : m.Spoke m') : m'.shell.vars = m.shell.vars := by rw [h.shell]

theorem previous (h : m.Spoke m') :
    m'.shell.previousDirectory = m.shell.previousDirectory := by rw [h.shell]

end Machine.Spoke

namespace SessionM

variable {α β : Type}

/-- A step only prints. -/
def Speaks (x : SessionM α) : Prop := ∀ m : Machine, m.Spoke (x m).2

namespace Speaks

theorem pure (a : α) : Speaks (pure a) := fun m => .refl m

theorem bind {x : SessionM α} {f : α → SessionM β} (hx : Speaks x) (hf : ∀ a, Speaks (f a)) :
    Speaks (x >>= f) := fun m => (hx m).trans (hf _ _)

theorem write (h : Handle) (b : Bytes) :
    Speaks (tryHost fun s => (s.write h b).map fun s => ((), s)) := by
  intro m
  rw [tryHost_apply]
  cases written : m.host.write h b with
  | error e => exact .refl m
  | ok t => exact ⟨rfl, Host.sameDirectories_of_write written⟩

theorem shell : Speaks shell := fun m => .refl m

theorem ofPrinting : OfPrinting fun {α} (x : SessionM α) => Speaks x where
  pure := pure
  bind := bind
  shell := shell
  unwritten _ := fun m => ⟨rfl, .refl m.host.tree⟩
  writeDirectly _ := shell.bind fun _ => write _ _

theorem complain (text : String) : Speaks (complain text) := by
  intro m
  change m.Spoke { m with host := m.host.complain m.shell.pid m.shell.stdio.error text }
  unfold Host.complain
  split
  · next written => exact ⟨rfl, Host.sameDirectories_of_write written⟩
  · split <;> exact ⟨rfl, .refl m.host.tree⟩

theorem fail (name message : String) (status : Int) : Speaks (fail name message status) :=
  (complain _).bind fun _ => pure _

end Speaks
end SessionM

/-! ### One change -/

/-- The session after it has entered a directory by a path. -/
def Machine.moved (m : Machine) (path : Bytes) (directory : NodeId) : Machine :=
  let before := m.host.tree.pathOf? m.shell.directory
  let vars := before.elim m.shell.vars fun old => m.shell.vars.set "OLDPWD" old.toStringLossy
  { m with shell :=
    { m.shell with
      directory
      vars := vars.set "PWD" ((m.host.tree.pathOf? directory).getD path).toStringLossy
      previousDirectory := before.or m.shell.previousDirectory } }

namespace Directory

open SessionM

variable {m : Machine}

theorem enter_apply (path : Bytes) (announce : Bool) (m : Machine) :
    enter path announce m =
      match m.host.tree.directoryAt m.shell.directory path with
      | .error e => fail "cd" (path.toStringLossy ++ ": " ++ e.message) 1 m
      | .ok id => (do
          if announce then say [((m.host.tree.pathOf? id).getD path).toStringLossy, "\n"]
          return 0 : SessionM Int) (m.moved path id) := by
  have here : current m = (m.host.tree.pathOf? m.shell.directory, m) := rfl
  rw [enter, Engine.bind_apply, here]
  dsimp only
  rw [Engine.get_bind_apply]
  cases m.host.tree.directoryAt m.shell.directory path with
  | error e => rfl
  | ok id =>
    unfold Machine.moved
    cases m.host.tree.pathOf? m.shell.directory <;> rfl

/-- A change of directory fails with a message, or leads to a directory. -/
theorem enter_cases (path : Bytes) (announce : Bool) (m : Machine) :
    (∃ e, m.host.tree.directoryAt m.shell.directory path = .error e ∧
      (enter path announce m).1 = 1 ∧ m.Spoke (enter path announce m).2) ∨
    ∃ id, m.host.tree.directoryAt m.shell.directory path = .ok id ∧
      (enter path announce m).1 = 0 ∧ (m.moved path id).Spoke (enter path announce m).2 := by
  rw [enter_apply]
  cases m.host.tree.directoryAt m.shell.directory path with
  | error e => exact .inl ⟨e, rfl, rfl, Speaks.fail _ _ _ m⟩
  | ok id =>
    have speaks := Speaks.ofPrinting.say [((m.host.tree.pathOf? id).getD path).toStringLossy, "\n"]
    dsimp only
    generalize say [((m.host.tree.pathOf? id).getD path).toStringLossy, "\n"] = x at speaks ⊢
    refine .inr ⟨id, rfl, ?_⟩
    cases announce with
    | false => exact ⟨rfl, .refl _⟩
    | true => exact ⟨rfl, speaks _⟩

theorem change_eq_enter {argv : List String} (few : ¬ 2 < argv.length) {path : Bytes}
    {announce : Bool} (goal : target m.shell argv[1]? = .ok (path, announce)) :
    change argv m = enter path announce m := by
  have here : shell m = (m.shell, m) := rfl
  rw [change, if_neg few, Engine.bind_apply, here]
  dsimp only
  rw [goal]

theorem change_cases (argv : List String) (m : Machine) :
    ((change argv m).1 = 1 ∧ m.Spoke (change argv m).2) ∨
    ∃ path id, m.host.tree.directoryAt m.shell.directory path = .ok id ∧
      (change argv m).1 = 0 ∧ (m.moved path id).Spoke (change argv m).2 := by
  by_cases many : 2 < argv.length
  · rw [change, if_pos many]
    exact .inl ⟨rfl, Speaks.fail _ _ _ m⟩
  cases goal : target m.shell argv[1]? with
  | error message =>
    have here : shell m = (m.shell, m) := rfl
    rw [change, if_neg many, Engine.bind_apply, here]
    dsimp only
    rw [goal]
    exact .inl ⟨rfl, Speaks.fail _ _ _ m⟩
  | ok way =>
    rw [change_eq_enter many goal]
    obtain ⟨-, -, failed⟩ | ⟨id, found, entered⟩ := enter_cases way.1 way.2 m
    · exact .inl failed
    · exact .inr ⟨way.1, id, found, entered⟩

/-- The way back is the one that has been noted, whatever the variables say. -/
theorem change_back {old : Bytes} (previous : m.shell.previousDirectory = some old) :
    change ["cd", "-"] m = enter old true m := by
  refine change_eq_enter (by decide) ?_
  change target m.shell (some "-") = _
  rw [target, previous]

end Directory

namespace Variables

theorem isExported_set (v : Variables) (name value n : String) :
    (v.set name value).isExported n = v.isExported n := by
  rw [isExported, set, Table.get?_insert]
  split
  · next same => rw [same]; rfl
  · rfl

theorem get?_set_other (v : Variables) {name n : String} (other : n ≠ name) (value : String) :
    (v.set name value).get? n = v.get? n := by
  rw [get?, get?, set, Table.get?_insert, if_neg other.symm]
  rfl

theorem get?_set_self (v : Variables) {name : String} (ordinary : v.special? name = none)
    (value : String) : (v.set name value).get? name = some value := by
  have special : (v.set name value).special? name = none := ordinary
  rw [get?, special, set, Table.get?_insert, if_pos rfl]
  rfl

end Variables

namespace Machine

variable {m m' next : Machine} {here there : NodeId} {now old path : Bytes}

/-- A session is in a directory and has come from another one, and its variables tell so. -/
structure CameFrom (m : Machine) (here : NodeId) (now old : Bytes) : Prop where
  directory : m.shell.directory = here
  path : m.host.tree.pathOf? here = some now
  pwd : m.shell.vars.get? "PWD" = some now.toStringLossy
  oldpwd : m.shell.vars.get? "OLDPWD" = some old.toStringLossy
  previous : m.shell.previousDirectory = some old

theorem CameFrom.spoke (h : m.CameFrom here now old) (spoke : m.Spoke m') :
    m'.CameFrom here now old where
  directory := spoke.directory.trans h.directory
  path := by rw [spoke.tree.pathOf?_eq, h.path]
  pwd := by rw [spoke.vars, h.pwd]
  oldpwd := by rw [spoke.vars, h.oldpwd]
  previous := spoke.previous.trans h.previous

theorem special?_pwd (v : Variables) : v.special? "PWD" = none := by
  have index : Text.readIndex? "PWD" = none := by decide
  change (Text.readIndex? "PWD").map v.argument = none
  rw [index, Option.map_none]

theorem special?_oldpwd (v : Variables) : v.special? "OLDPWD" = none := by
  have index : Text.readIndex? "OLDPWD" = none := by decide
  change (Text.readIndex? "OLDPWD").map v.argument = none
  rw [index, Option.map_none]

theorem moved_vars (readable : m.host.tree.pathOf? m.shell.directory = some old)
    (entered : m.host.tree.pathOf? here = some now) :
    (m.moved path here).shell.vars =
      (m.shell.vars.set "OLDPWD" old.toStringLossy).set "PWD" now.toStringLossy := by
  simp only [moved, readable, entered, Option.elim_some, Option.getD_some]

theorem moved_pwd (m : Machine) (path : Bytes) (here : NodeId) :
    (m.moved path here).shell.vars.get? "PWD" =
      some ((m.host.tree.pathOf? here).getD path).toStringLossy :=
  Variables.get?_set_self _ (special?_pwd _) _

theorem cameFrom_moved (readable : m.host.tree.pathOf? m.shell.directory = some old)
    (entered : m.host.tree.pathOf? here = some now) :
    (m.moved path here).CameFrom here now old where
  directory := rfl
  path := entered
  pwd := by rw [moved_pwd, entered, Option.getD_some]
  oldpwd := by
    rw [moved_vars readable entered, Variables.get?_set_other _ (by decide),
      Variables.get?_set_self _ (special?_oldpwd _)]
  previous := by
    change (m.host.tree.pathOf? m.shell.directory).or _ = _
    rw [readable, Option.some_or]

end Machine

/-! ### Changes back and forth -/

/-- A directory that is still linked has the path that it had. -/
theorem FileTree.Lasts.pathOf?_eq {t u : FileTree} (h : t.Lasts u) (treelike : t.Treelike)
    {id : NodeId} (directory : t.isDirectory id = true) (linked : u.isLinked id = true)
    {path : Bytes} (was : t.pathOf? id = some path) : u.pathOf? id = some path := by
  have later := h.treelike treelike
  have directory' : u.isDirectory id = true := by rw [h.isDirectory_eq, directory]
  obtain ⟨names, place⟩ := (isLinked_iff later directory').1 linked
  obtain ⟨names', place', rfl⟩ := (pathOf?_eq_some_iff treelike directory).1 was
  rw [(place.of_lasts h).unique treelike place'] at place
  exact (pathOf?_eq_some_iff later directory').2 ⟨names', place, rfl⟩

namespace Machine

open Directory (change)

variable {m m' next last : Machine} {here there : NodeId} {now old : Bytes}

/-- A session goes on without a change of directory. It may set variables, and make, change and
remove files. -/
structure Stays (m next : Machine) : Prop where
  directory : next.shell.directory = m.shell.directory
  previous : next.shell.previousDirectory = m.shell.previousDirectory
  tree : m.host.tree.Lasts next.host.tree

theorem stays_modifyVars (f : Variables → Variables) (m : Machine) :
    m.Stays (SessionM.modifyVars f m).2 := ⟨rfl, rfl, .refl _⟩

/-- A directory is there under a path. -/
structure Has (m : Machine) (id : NodeId) (path : Bytes) : Prop where
  isDirectory : m.host.tree.isDirectory id = true
  path : m.host.tree.pathOf? id = some path

theorem Has.stays (h : m.Has here now) (treelike : m.host.tree.Treelike) (stays : m.Stays next)
    (linked : next.host.tree.isLinked here = true) : next.Has here now where
  isDirectory := by rw [stays.tree.isDirectory_eq, h.isDirectory]
  path := stays.tree.pathOf?_eq treelike h.isDirectory linked h.path

theorem Has.spoke (h : m.Has here now) (spoke : m.Spoke m') : m'.Has here now where
  isDirectory := by rw [spoke.tree.isDirectory_eq, h.isDirectory]
  path := by rw [spoke.tree.pathOf?_eq, h.path]

/-- The way back leads to the directory that is still there, unless its path is too long for the
system. -/
theorem change_back_cases (treelike : m.host.tree.Treelike) (target : m.Has there old)
    (previous : m.shell.previousDirectory = some old) :
    if old.length ≤ Path.maxBytes then
      (change ["cd", "-"] m).1 = 0 ∧ (m.moved old there).Spoke (change ["cd", "-"] m).2
    else (change ["cd", "-"] m).1 = 1 ∧ m.Spoke (change ["cd", "-"] m).2 := by
  obtain ⟨names, place, rfl⟩ :=
    (FileTree.pathOf?_eq_some_iff treelike target.isDirectory).1 target.path
  have found := FileTree.directoryAt_absolute treelike place m.shell.directory
  rw [Directory.change_back previous]
  by_cases fits : (Path.absolute names).length ≤ Path.maxBytes
  · rw [if_neg (Nat.not_lt.2 fits)] at found
    rw [if_pos fits]
    obtain ⟨e, failed, -⟩ | ⟨id, entered, back⟩ :=
      Directory.enter_cases (Path.absolute names) true m
    · cases found.symm.trans failed
    · cases found.symm.trans entered
      exact back
  · rw [if_pos (Nat.lt_of_not_le fits)] at found
    rw [if_neg fits]
    obtain ⟨e, failed, back⟩ | ⟨id, entered, -⟩ :=
      Directory.enter_cases (Path.absolute names) true m
    · exact back
    · cases found.symm.trans entered

/-- A session goes back again and again, and goes on for a while each time before it does so. Two
directories stay where they are. -/
inductive Swings (one other : NodeId) (m : Machine) : List Int → Machine → Prop where
  | rest : Swings one other m [] m
  | back {last next : Machine} {statuses : List Int} (before : Swings one other m statuses last)
    (stays : last.Stays next) (linked : next.host.tree.isLinked one = true)
    (linked' : next.host.tree.isLinked other = true) :
    Swings one other m (statuses ++ [(change ["cd", "-"] next).1]) (change ["cd", "-"] next).2

/-- A session that has come from one directory to another one, both of which are there. -/
structure Between (m : Machine) (here there : NodeId) (now old : Bytes) : Prop where
  treelike : m.host.tree.Treelike
  cameFrom : m.CameFrom here now old
  here : m.Has here now
  there : m.Has there old

theorem between_of_moved {path : Bytes} (treelike : m.host.tree.Treelike)
    (left : m.Has m.shell.directory old) (entered : m.Has here now)
    (spoke : (m.moved path here).Spoke m') : m'.Between here m.shell.directory now old where
  treelike := spoke.tree.treelike treelike
  cameFrom := (cameFrom_moved left.path entered.path).spoke spoke
  here := Has.spoke (m := m.moved path here) ⟨entered.isDirectory, entered.path⟩ spoke
  there := Has.spoke (m := m.moved path here) ⟨left.isDirectory, left.path⟩ spoke

/-- Where a session comes to on the way back. -/
theorem Between.way_back (h : m.Between here there now old) (stays : m.Stays next)
    (linked : next.host.tree.isLinked there = true) :
    let again := (change ["cd", "-"] next).1
    let back := (change ["cd", "-"] next).2
    if old.length ≤ Path.maxBytes then
      again = 0 ∧ back.shell.directory = there ∧ back.host.tree.pathOf? there = some old ∧
        back.shell.vars.get? "PWD" = some old.toStringLossy
    else again = 1 ∧ back.shell.directory = here := by
  have target := h.there.stays h.treelike stays linked
  have back := change_back_cases (stays.tree.treelike h.treelike) target
    (stays.previous.trans h.cameFrom.previous)
  by_cases fits : old.length ≤ Path.maxBytes
  · rw [if_pos fits] at back ⊢
    obtain ⟨zero, spoke⟩ := back
    refine ⟨zero, spoke.directory, by rw [spoke.tree.pathOf?_eq]; exact target.path, ?_⟩
    rw [spoke.vars, moved_pwd, target.path, Option.getD_some]
  · rw [if_neg fits] at back ⊢
    exact ⟨back.1, back.2.directory.trans (stays.directory.trans h.cameFrom.directory)⟩

/-- Going back turns everything around. -/
theorem Between.back (h : m.Between here there now old) (fits : old.length ≤ Path.maxBytes)
    (stays : m.Stays next) (linked : next.host.tree.isLinked here = true)
    (linked' : next.host.tree.isLinked there = true) :
    (change ["cd", "-"] next).1 = 0 ∧ (change ["cd", "-"] next).2.Between there here old now := by
  have treelike := stays.tree.treelike h.treelike
  have left := h.here.stays h.treelike stays linked
  have entered := h.there.stays h.treelike stays linked'
  have back := change_back_cases treelike entered (stays.previous.trans h.cameFrom.previous)
  rw [if_pos fits] at back
  obtain ⟨status, spoke⟩ := back
  have standing : next.shell.directory = here := stays.directory.trans h.cameFrom.directory
  rw [← standing] at left ⊢
  exact ⟨status, between_of_moved treelike left entered spoke⟩

theorem Between.swings (h : m.Between here there now old)
    (fits : old.length ≤ Path.maxBytes) (fits' : now.length ≤ Path.maxBytes)
    {statuses : List Int} (swings : m.Swings there here statuses last) :
    (∀ s ∈ statuses, s = 0) ∧ if statuses.length % 2 = 0 then last.Between here there now old
      else last.Between there here old now := by
  induction swings with
  | rest => exact ⟨fun _ => nofun, h⟩
  | @back last next statuses before stays linked linked' ih =>
    obtain ⟨zeros, place⟩ := ih
    rw [List.length_append, List.length_singleton]
    have turned : (change ["cd", "-"] next).1 = 0 ∧
        if (statuses.length + 1) % 2 = 0 then
          (change ["cd", "-"] next).2.Between here there now old
        else (change ["cd", "-"] next).2.Between there here old now := by
      by_cases even : statuses.length % 2 = 0
      · rw [if_pos even] at place
        rw [if_neg (by omega)]
        exact place.back fits stays linked' linked
      · rw [if_neg even] at place
        rw [if_pos (by omega)]
        exact place.back fits' stays linked linked'
    refine ⟨fun s hs => ?_, turned.2⟩
    obtain hs | hs := List.mem_append.1 hs
    · exact zeros s hs
    · exact List.mem_singleton.1 hs ▸ turned.1

/-! ### Sessions in planted trees -/

section
variable {tree : FileTree} {input : Node}
  (plain : ∀ parent entries, input ≠ .directory parent entries)
include plain

/-- What a session starts with beside the tree is no directory. -/
theorem lasts_start (directory : NodeId) (environment : List (String × String)) (config : Config) :
    tree.Lasts (Machine.start tree directory input environment config).host.tree :=
  (FileTree.Lasts.push plain).trans ((FileTree.Lasts.push (by rintro _ _ ⟨⟩)).trans
    (FileTree.Lasts.push (by rintro _ _ ⟨⟩)))

/-- Whatever a session does that starts in a planted tree, its directories form a tree, and it stays
in one of them. -/
theorem Reaches.treelike (planted : tree.Wellformed) {directory : NodeId}
    (here : tree.isDirectory directory = true) {environment : List (String × String)}
    {config : Config} {others : Bool}
    (reached : (Machine.start tree directory input environment config).Reaches others m) :
    m.host.tree.Treelike ∧ m.host.tree.isDirectory m.shell.directory = true := by
  have inOrder := inOrder_start planted.sound here plain environment config
  refine ⟨?_, (reached.inOrder inOrder).directory⟩
  induction reached with
  | start => exact (lasts_start plain directory environment config).treelike planted.treelike
  | befall _ _ _ ih => exact ih
  | @step m reached c _ step _ ih =>
    have under : (m.under c).InOrder :=
      (reached.inOrder inOrder).onProcesses ⟨fun p hp _ he => ⟨p, hp, he⟩, Int.le_refl _⟩
    obtain ⟨log, course⟩ := (SessionM.heeds_step step _ under.confined bot_le).1
    exact course.continues.lasts.treelike ih

end

end Machine

namespace Directory

open Machine

/-- A change of directory, in every state of a session and for all arguments. If it fails, the
session is where it was, and neither its variables nor the way back have changed. If it succeeds
from a directory with a path, the variables and the way back tell both directories, and no other
variable and no export mark has changed. The variables hold texts, so that they tell a path exactly
if it is one. From then on, whatever is assigned to variables, the way back leads to where the
session came from as long as that is there, provided that its path is not too long for the system,
and going back again and again leads to and fro between the two. The directories form a tree in all
sessions (`Machine.Reaches.treelike`). -/
theorem change_is_atomic_and_reversible (m : Machine) (argv : List String) :
    let status := (change argv m).1
    let m' := (change argv m).2
    let start := m.shell.directory
    let goal := m'.shell.directory
    (status ≠ 0 → goal = start ∧ m'.host.tree.pathOf? start = m.host.tree.pathOf? start ∧
      m'.shell.vars = m.shell.vars ∧ m'.shell.previousDirectory = m.shell.previousDirectory) ∧
    (m.host.tree.Treelike → m.host.tree.isDirectory start = true →
      ∀ old, status = 0 → m.host.tree.pathOf? start = some old → ∃ now,
      m'.CameFrom goal now old ∧
      (∀ text, now = Bytes.ofString text → m'.shell.vars.get? "PWD" = some text) ∧
      (∀ text, old = Bytes.ofString text → m'.shell.vars.get? "OLDPWD" = some text) ∧
      (∀ name, name ≠ "PWD" → name ≠ "OLDPWD" →
        m'.shell.vars.get? name = m.shell.vars.get? name) ∧
      (∀ name, m'.shell.vars.isExported name = m.shell.vars.isExported name) ∧
      (∀ next, m'.Stays next → next.host.tree.isLinked start = true →
        let again := (change ["cd", "-"] next).1
        let back := (change ["cd", "-"] next).2
        if old.length ≤ Path.maxBytes then
          again = 0 ∧ back.shell.directory = start ∧ back.host.tree.pathOf? start = some old ∧
            back.shell.vars.get? "PWD" = some old.toStringLossy
        else again = 1 ∧ back.shell.directory = goal) ∧
      (old.length ≤ Path.maxBytes → now.length ≤ Path.maxBytes →
        ∀ statuses last, m'.Swings start goal statuses last →
          (∀ s ∈ statuses, s = 0) ∧ if statuses.length % 2 = 0 then last.CameFrom goal now old
            else last.CameFrom start old now)) := by
  intro status m' start goal
  obtain ⟨failed, spoke⟩ | ⟨path, id, found, succeeded, spoke⟩ := change_cases argv m
  · refine ⟨fun _ => ⟨spoke.directory, spoke.tree.pathOf?_eq _, spoke.vars, spoke.previous⟩, ?_⟩
    intro treelike standing old zero
    cases failed.symm.trans zero
  refine ⟨fun other => absurd succeeded other, fun treelike standing old _ readable => ?_⟩
  obtain rfl : goal = id := spoke.directory
  -- The directory that was left and the one that is entered have paths.
  obtain ⟨above, left, -⟩ := (FileTree.pathOf?_eq_some_iff treelike standing).1 readable
  obtain ⟨directory, names, place⟩ := FileTree.exists_at_of_directoryAt treelike left found
  have entered := (FileTree.pathOf?_eq_some_iff treelike directory).2 ⟨names, place, rfl⟩
  generalize Path.absolute names = now at entered
  have vars : m'.shell.vars =
      (m.shell.vars.set "OLDPWD" old.toStringLossy).set "PWD" now.toStringLossy :=
    spoke.vars.trans (moved_vars readable entered)
  have between : m'.Between goal start now old :=
    between_of_moved treelike ⟨standing, readable⟩ ⟨directory, entered⟩ spoke
  refine ⟨now, between.cameFrom, ?_, ?_, fun name pwd oldpwd => ?_, fun name => ?_,
    fun next => between.way_back, fun fits fits' statuses last swings => ?_⟩
  · rintro text rfl
    rw [between.cameFrom.pwd, Bytes.toStringLossy_ofString]
  · rintro text rfl
    rw [between.cameFrom.oldpwd, Bytes.toStringLossy_ofString]
  · rw [vars, Variables.get?_set_other _ pwd, Variables.get?_set_other _ oldpwd]
  · rw [vars, Variables.isExported_set, Variables.isExported_set]
  · obtain ⟨zeros, final⟩ := between.swings fits fits' swings
    refine ⟨zeros, ?_⟩
    by_cases even : statuses.length % 2 = 0
    · rw [if_pos even] at final ⊢
      exact final.cameFrom
    · rw [if_neg even] at final ⊢
      exact final.cameFrom

/-- Back from one directory to another one, whose name is no text, after the variable that names
that has been changed. -/
theorem change_is_atomic_and_reversible_reassigned :
    let tree := (FileTree.empty.makeDirectories FileTree.root [[0xFF]]).2.plant FileTree.root "b"
      .directory
    let m := Machine.start tree 1 .null [] .default
    let m' := (change ["cd", "/b"] m).2
    let next := (SessionM.modifyVars (·.set "OLDPWD" "/b") m').2
    let first : Bytes := [Bytes.slash, 0xFF]
    let second := Bytes.ofString "/b"
    m.host.tree.Treelike ∧ m.host.tree.isDirectory m.shell.directory = true ∧
      (change ["cd", "/b"] m).1 = 0 ∧ m'.CameFrom 2 second first ∧
      m'.shell.vars.get? "OLDPWD" = some "/\uFFFD" ∧
      (change ["cd", "-"] next).1 = 0 ∧ (change ["cd", "-"] next).2.CameFrom 1 first second := by
  intro tree m m' next first second
  have root := FileTree.wellformed_empty.sound.root
  have made := (FileTree.wellformed_empty.makeDirectories root
    (show ∀ n ∈ [[0xFF]], FileTree.isComponent n = true by decide)).1
  have planted := made.wellformed.plant (show 0 ∉ Bytes.ofString "b" by decide)
    (made.stays _ root) .directory
  have treelike : m.host.tree.Treelike :=
    (lasts_start (by rintro _ _ ⟨⟩) _ _ _).treelike planted.wellformed.treelike
  have standing : m.host.tree.isDirectory m.shell.directory = true := by decide +kernel
  have status : (change ["cd", "/b"] m).1 = 0 := by decide +kernel
  have readable : m.host.tree.pathOf? m.shell.directory = some first := by decide +kernel
  obtain ⟨now, cameFrom, -, -, -, -, -, swings⟩ :=
    (change_is_atomic_and_reversible m ["cd", "/b"]).2 treelike standing first status readable
  have goal : m'.shell.directory = 2 := by decide +kernel
  have path : m'.host.tree.pathOf? m'.shell.directory = some second := by decide +kernel
  obtain rfl := Option.some.inj (path.symm.trans cameFrom.path)
  have back : m'.Swings 1 m'.shell.directory ([] ++ [_]) (change ["cd", "-"] next).2 :=
    .back .rest (stays_modifyVars _ m') (by decide +kernel) (by decide +kernel)
  obtain ⟨zeros, final⟩ := swings (by decide) (by decide) _ _ back
  exact ⟨treelike, standing, status, goal ▸ cameFrom, cameFrom.oldpwd,
    zeros _ (List.mem_singleton_self _), final⟩

/-- Whoever leaves a directory with a path that is too long for the system does not come back,
though that is still there. -/
theorem no_way_back {m : Machine} (treelike : m.host.tree.Treelike) {old : Bytes}
    (start : m.Has m.shell.directory old) (long : Path.maxBytes < old.length)
    (other : m.shell.directory ≠ FileTree.root) :
    let m' := (change ["cd", "/"] m).2
    (change ["cd", "/"] m).1 = 0 ∧ m'.host.tree.isLinked m.shell.directory = true ∧
      (change ["cd", "-"] m').1 ≠ 0 ∧
      (change ["cd", "-"] m').2.shell.directory ≠ m.shell.directory := by
  have found : m.host.tree.directoryAt m.shell.directory [Bytes.slash] = .ok FileTree.root :=
    (FileTree.directoryAt_absolute treelike .root _).trans (if_neg (by decide))
  have entered : m.host.tree.pathOf? FileTree.root = some [Bytes.slash] :=
    (FileTree.pathOf?_eq_some_iff treelike treelike.root).2 ⟨[], .root, rfl⟩
  have spelled : Bytes.ofString "/" = [Bytes.slash] := by decide
  have away : change ["cd", "/"] m = enter (Bytes.ofString "/") false m :=
    change_eq_enter (by decide) rfl
  rw [away, spelled]
  obtain ⟨e, failed, -⟩ | ⟨id, found', zero, spoke⟩ := enter_cases [Bytes.slash] false m
  · cases failed.symm.trans found
  cases found'.symm.trans found
  generalize (enter [Bytes.slash] false m).2 = m' at spoke
  have treelike' : m'.host.tree.Treelike := spoke.tree.treelike treelike
  have target : m'.Has m.shell.directory old :=
    Has.spoke (m := m.moved [Bytes.slash] FileTree.root) ⟨start.isDirectory, start.path⟩ spoke
  have cameFrom := (cameFrom_moved start.path entered).spoke spoke
  obtain ⟨names, linked, -⟩ :=
    (FileTree.pathOf?_eq_some_iff treelike' target.isDirectory).1 target.path
  have back := change_back_cases treelike' target cameFrom.previous
  rw [if_neg (Nat.not_le.2 long)] at back
  refine ⟨zero, (FileTree.isLinked_iff treelike' target.isDirectory).2 ⟨_, linked⟩, ?_, ?_⟩
  · rw [back.1]
    decide
  · rw [back.2.directory, cameFrom.directory]
    exact other.symm

/-- A directory below fifteen others, all of which have names of 255 bytes. -/
theorem no_way_back_to_deep_directory :
    let name : Bytes := List.replicate 255 0x61
    let tree := (FileTree.empty.makeDirectories FileTree.root (List.replicate 16 name)).2
    let m := Machine.start tree 16 .null [] .default
    let m' := (change ["cd", "/"] m).2
    m.host.tree.Treelike ∧ (∃ old, m.host.tree.pathOf? m.shell.directory = some old) ∧
      (change ["cd", "/"] m).1 = 0 ∧ m'.host.tree.isLinked m.shell.directory = true ∧
      (change ["cd", "-"] m').1 ≠ 0 ∧
      (change ["cd", "-"] m').2.shell.directory ≠ m.shell.directory := by
  intro name tree m
  have components : ∀ n ∈ List.replicate 16 name, FileTree.isComponent n = true := by decide +kernel
  have planted := FileTree.wellformed_empty.makeDirectories FileTree.wellformed_empty.sound.root
    components
  have treelike : m.host.tree.Treelike :=
    (lasts_start (by rintro _ _ ⟨⟩) _ _ _).treelike planted.1.wellformed.treelike
  have entries : ∀ i < 16, m.host.tree.child? i name = some (i + 1) ∧
      m.host.tree.isDirectory (i + 1) = true := by decide +kernel
  have places : ∀ i ≤ 16, m.host.tree.At i (List.replicate i name) := by
    intro i
    induction i with
    | zero => exact fun _ => .root
    | succ i ih =>
      intro le
      rw [List.replicate_succ']
      exact .child (ih (Nat.le_of_lt le)) (entries i le).1 (entries i le).2
  let old := Path.absolute (List.replicate 16 name)
  have start : m.Has m.shell.directory old := by
    have directory := (entries 15 (by decide)).2
    exact ⟨directory, (FileTree.pathOf?_eq_some_iff treelike directory).2
      ⟨_, places 16 (Nat.le_refl _), rfl⟩⟩
  have long : Path.maxBytes < old.length := by decide +kernel
  exact ⟨treelike, ⟨old, start.path⟩, no_way_back treelike start long (by decide)⟩

end Directory
end JobShell
