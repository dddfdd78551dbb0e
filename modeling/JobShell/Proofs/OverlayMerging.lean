import JobShell.Config.Files
import JobShell.Host.World

/-! Overlays by name: which value an alias has under one, that nothing more comes of using the same
one again, and that one which cannot be read leaves the defaults. -/
namespace JobShell

namespace Table

variable {κ α : Type} [LE κ] [LT κ] [DecidableLT κ] [DecidableEq κ]

section
variable [Std.IsLinearOrder κ] [Std.LawfulOrderLT κ]

theorem get?_insertAll (t : Table κ α) (l : List (κ × α)) (k : κ) :
    (t.insertAll l).get? k = (l.reverse.lookup k).or (t.get? k) := by
  induction l generalizing t with
  | nil => rfl
  | cons e l ih =>
    obtain ⟨j, v⟩ := e
    have first : (t.insert j v).get? k = (List.lookup k [(j, v)]).or (t.get? k) := by
      by_cases same : j = k
      · simp [same]
      · have other : (k == j) = false := beq_false_of_ne (Ne.symm same)
        simp [List.lookup_cons, same, other]
    calc (t.insertAll ((j, v) :: l)).get? k
      _ = (l.reverse.lookup k).or ((t.insert j v).get? k) := ih (t.insert j v)
      _ = (((j, v) :: l).reverse.lookup k).or (t.get? k) := by
        rw [first, ← Option.or_assoc, List.reverse_cons, List.lookup_append]

omit [DecidableLT κ] in
/-- Two tables in which every key has the same value are one. -/
theorem eq_of_get?_eq {s t : Table κ α} (h : ∀ k, s.get? k = t.get? k) : s = t := by
  have distinct (t : Table κ α) : t.entries.Nodup := by
    apply t.ascending.imp
    intro a b before same
    subst same
    exact Std.lt_irrefl before
  have same (e : κ × α) : e ∈ s.entries ↔ e ∈ t.entries := by
    rw [← get?_eq_some_iff, ← get?_eq_some_iff, h]
  have perm := (List.perm_ext_iff_of_nodup (distinct s) (distinct t)).2 same
  have entries : s.entries = t.entries := by
    apply perm.eq_of_pairwise _ s.ascending t.ascending
    intro a b _ _ before after
    exact absurd (Std.lt_trans before after) Std.lt_irrefl
  cases s
  cases t
  congr

end

omit [LE κ] [DecidableLT κ] in
theorem get?_foldl_erase (t : Table κ α) (ks : List κ) (k : κ) :
    (ks.foldl erase t).get? k = if k ∈ ks then none else t.get? k := by
  induction ks generalizing t with
  | nil => simp
  | cons j ks ih =>
    rw [List.foldl_cons, ih, get?_erase]
    by_cases later : k ∈ ks <;> by_cases now : k = j <;> simp [later, now, Ne.symm]

end Table

theorem Settings.Patch.apply_apply (p : Patch) (s : Settings) :
    p.apply (p.apply s) = p.apply s := by
  have again {α : Type} (v : Option α) (a : α) : v.getD (v.getD a) = v.getD a := by
    cases v <;> rfl
  simp [apply, again]

namespace Config.Overlay

/-- The value of a name under an overlay. Of several values that it adds for the name, the last one
counts. -/
theorem get?_aliases_apply (o : Overlay) (c : Config) (name : String) :
    (o.apply c).aliases.get? name = (o.add.reverse.lookup name).or
      (if o.replace = true ∨ name ∈ o.remove then none else c.aliases.get? name) := by
  cases h : o.replace with
  | false => simp [apply, h, Table.get?_insertAll, Table.get?_foldl_erase]
  | true => simp [apply, h, Table.ofList, Table.get?_insertAll]

/-- The second time, an overlay removes only what it adds again. -/
theorem apply_apply (o : Overlay) (c : Config) : o.apply (o.apply c) = o.apply c := by
  have settings : (o.apply (o.apply c)).settings = (o.apply c).settings :=
    o.settings.apply_apply c.settings
  have aliases : (o.apply (o.apply c)).aliases = (o.apply c).aliases := by
    apply Table.eq_of_get?_eq
    intro name
    rw [get?_aliases_apply, get?_aliases_apply]
    cases o.add.reverse.lookup name with
    | some value => rfl
    | none =>
      simp only [Option.none_or]
      split <;> rfl
  calc o.apply (o.apply c)
    _ = ⟨(o.apply (o.apply c)).settings, (o.apply (o.apply c)).aliases⟩ := rfl
    _ = o.apply c := by rw [settings, aliases]

/-- Under an overlay, a name has the value that the overlay adds for it. Otherwise it has none if
the overlay replaces all aliases or removes this one, and else the value it had. Using the overlay
again changes nothing. However overlays are read, a session starts with the defaults under the one
that its home directory holds, and with the defaults alone if that is refused. -/
theorem overlay_merges_by_name (o : Overlay) (c : Config) :
    (∀ name, (o.apply c).aliases.get? name = (o.add.reverse.lookup name).or
      (if o.replace = true ∨ name ∈ o.remove then none else c.aliases.get? name)) ∧
    o.apply (o.apply c) = o.apply c ∧
    ∀ (read : String → Option Overlay) (tree : FileTree) (dir : NodeId)
      (environment : List (String × String)) (home text : String),
      homeIn? environment = some home →
      (tree.readText dir (Path.join home ".config/jobsh/config.toml")).toOption = some text →
      (read text = none → loadWith read tree dir environment = (default, true)) ∧
      (read text = some o → loadWith read tree dir environment = (o.apply default, false)) := by
  refine ⟨get?_aliases_apply o c, apply_apply o c, ?_⟩
  intro read tree dir environment home text lives there
  have found : (homeIn? environment).bind (fun home =>
      (tree.readText dir (overlayPath home)).toOption) = some text := by
    simp [lives, overlayPath, there]
  constructor
  · intro refused
    simp [loadWith, found, refused]
  · intro accepted
    simp [loadWith, found, accepted]

/-- A name that is both removed and added, one that is added twice, one that is removed and one that
is not there at all; and a document that ends too early. -/
theorem overlay_merges_by_name_overlapping :
    let o : Overlay :=
      { settings := { Settings.Patch.none with maxTokens := some 16 }
        replace := false
        remove := ["ll", "hop", "gone"]
        add := [("ll", "ls -a"), ("gs", "git status"), ("gs", "git show")] }
    let c := o.apply default
    let tree := FileTree.empty.plant FileTree.root "home/.config/jobsh/config.toml"
      (.file (Bytes.ofString "[settings") false)
    c.aliases.get? "ll" = some "ls -a" ∧ c.aliases.get? "gs" = some "git show" ∧
      c.aliases.get? "hop" = none ∧ c.aliases.get? "la" = some "ls -A" ∧
      o.apply c = c ∧ c ≠ default ∧
      load tree FileTree.root [("HOME", "/home")] = (default, true) := by
  intro o c tree
  obtain ⟨values, again, loaded⟩ := overlay_merges_by_name o default
  have text : (tree.readText FileTree.root (Path.join "/home" ".config/jobsh/config.toml")).toOption
      = some "[settings" := by decide +kernel
  refine ⟨(values "ll").trans (by decide), (values "gs").trans (by decide),
    (values "hop").trans (by decide), (values "la").trans (by decide +kernel), again, ?_, ?_⟩
  · intro same
    exact absurd (congrArg (·.settings.maxTokens) same) (by decide)
  · exact (loaded ofText? tree FileTree.root _ _ _ (by decide) text).1 (by decide +kernel)

end Config.Overlay

end JobShell
