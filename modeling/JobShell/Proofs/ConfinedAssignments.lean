import JobShell.Proofs.LineAssignments
import JobShell.Proofs.InertTexts
import JobShell.Proofs.PieceCuts

/-! The expansion of a line sets variables only where the line says so, and only those that have no
value yet. Whether a place in a line says so depends on the characters before it, which are taken
one by one. -/
namespace JobShell

/-! ### Places in a line -/

/-- What the characters of a line so far make of the next one. -/
inductive Context where
  /-- Nothing but quotes, if it is in any. -/
  | free (place : Text.Place)
  /-- It follows a backslash. -/
  | escaped (place : Text.Place)
  /-- It follows a dollar sign. -/
  | dollar (place : Text.Place)
  /-- It stands between the braces of a reference. -/
  | braces (place : Text.Place)
  deriving DecidableEq, Repr

namespace Context

/-- What a character leads to if it follows neither a backslash nor a dollar sign. -/
def ofChar (place : Text.Place) (c : Char) : Context :=
  if place = .single then free (if c = '\'' then .bare else .single)
  else if c = '\\' then escaped place
  else if c = '$' then dollar place
  else if c = '"' then free (if place = .double then .bare else .double)
  else if c = '\'' && place = .bare then free .single
  else free place

def step : Context → Char → Context
  | free place, c => ofChar place c
  | escaped place, _ => free place
  | dollar place, c =>
    if c = '{' then braces place
    else if Reference.isSpecial c || c.isDigit then free place
    else ofChar place c
  | braces place, c => if c = '}' then free place else braces place

/-- What a text leads to. -/
def behind (context : Context) (cs : List Char) : Context := cs.foldl step context

theorem behind_cons (context : Context) (c : Char) (cs : List Char) :
    behind context (c :: cs) = behind (step context c) cs := rfl

theorem behind_append (context : Context) (cs ds : List Char) :
    behind context (cs ++ ds) = behind (behind context cs) ds :=
  List.foldl_append

theorem ofChar_unmarked {c : Char} (h : Piece.isMark c = false) (place : Text.Place) :
    ofChar place c = free place := by
  cases place <;> simp_all [Piece.isMark, ofChar]

theorem behind_unmarked {cs : List Char} (h : ∀ c ∈ cs, Piece.isMark c = false)
    (place : Text.Place) : behind (free place) cs = free place := by
  induction cs with
  | nil => rfl
  | cons c cs ih =>
    obtain ⟨here, others⟩ := List.forall_mem_cons.1 h
    rw [behind_cons, step, ofChar_unmarked here]
    exact ih others

theorem behind_braces {body : List Char} (inside : '}' ∉ body) (place : Text.Place) :
    behind (dollar place) ('{' :: (body ++ ['}'])) = free place := by
  change behind (braces place) (body ++ ['}']) = free place
  induction body with
  | nil => rfl
  | cons c body ih =>
    obtain ⟨other, inside⟩ := not_or.1 (List.mem_cons.not.1 inside)
    rw [List.cons_append, behind_cons, step, if_neg (Ne.symm other)]
    exact ih inside

/-- A context in which a text is read as if it began in a place. -/
inductive Fits (place : Text.Place) (cs : List Char) : Context → Prop where
  | free : Fits place cs (free place)
  | dollar (h : ∀ c ∈ cs.head?, c ≠ '{' ∧ (Reference.isSpecial c || c.isDigit) = false) :
    Fits place cs (dollar place)

theorem Fits.step_eq {context : Context} {place : Text.Place} {c : Char} {cs : List Char}
    (h : Fits place (c :: cs) context) : step context c = ofChar place c := by
  cases h with
  | free => rfl
  | dollar h =>
    obtain ⟨brace, special⟩ := h c rfl
    rw [step, if_neg brace, special]
    rfl

/-- What follows a reference is read as if it began there, unless the reference lacks the end of
its braces. -/
theorem exists_fits_read (place : Text.Place) (r : List Char) :
    (∃ used, r = used ++ (Reference.read r).2 ∧
      Fits place (Reference.read r).2 (behind (dollar place) used)) ∨
    (Reference.read r).2 = r ∧ '}' ∉ r := by
  cases r with
  | nil => exact .inr ⟨rfl, List.not_mem_nil⟩
  | cons c r =>
    by_cases brace : c = '{'
    · subst brace
      by_cases closes : '}' ∈ r
      · obtain ⟨body, rest, rfl, inside⟩ := List.eq_append_cons_of_mem closes
        rw [Reference.read_braces inside]
        refine .inl ⟨'{' :: (body ++ ['}']), by simp, ?_⟩
        rw [behind_braces inside]
        exact .free
      · rw [Reference.read_open closes]
        exact .inr ⟨rfl, by simpa using closes⟩
    · rw [Reference.read_of_ne brace]
      refine .inl ?_
      cases special : Reference.isSpecial c || c.isDigit with
      | true =>
        refine ⟨[c], rfl, ?_⟩
        rw [behind_cons, step, if_neg brace, special]
        exact .free
      | false =>
        have first : Fits place (c :: r) (dollar place) :=
          .dollar fun d hd => Option.mem_some.1 hd ▸ ⟨brace, special⟩
        cases name : Text.isNameChar c with
        | true =>
          have unmarked : ∀ d ∈ (c :: r).takeWhile Text.isNameChar, Piece.isMark d = false :=
            fun d hd => Piece.isMark_eq_false (List.mem_takeWhile_imp hd)
          refine ⟨(c :: r).takeWhile Text.isNameChar, (List.takeWhile_append_dropWhile).symm, ?_⟩
          rw [List.takeWhile_cons_of_pos name] at unmarked ⊢
          rw [behind_cons, first.step_eq]
          exact behind_unmarked unmarked place ▸ .free
        | false => exact ⟨[], rfl, first⟩

end Context

/-! ### Assignments in a line -/

namespace Reference

/-- How an assignment is written. -/
def assignment (name text : String) : List Char :=
  '$' :: '{' :: (name.toList ++ ':' :: '=' :: (text.toList ++ ['}']))

theorem ofBraces_eq_orAssign {body : List Char} {name text : String}
    (h : ofBraces body = .orAssign name text) :
    body = name.toList ++ ':' :: '=' :: text.toList := by
  unfold ofBraces at h
  split at h
  · cases h
  · extract_lets size shown at h
    split at h
    · cases h
    · split at h
      · cases h
      · next behind =>
        obtain ⟨rfl, rfl⟩ := Reference.orAssign.inj h
        rw [String.toList_ofList, String.toList_ofList, ← behind, List.take_append_drop]
      · cases h

theorem read_eq_orAssign {r : List Char} {name text : String}
    (h : (read r).1 = .orAssign name text) :
    '$' :: r = assignment name text ++ (read r).2 ∧ '}' ∉ text.toList := by
  cases r with
  | nil => cases h
  | cons c r =>
    by_cases brace : c = '{'
    · subst brace
      by_cases closes : '}' ∈ r
      · obtain ⟨body, rest, rfl, inside⟩ := List.eq_append_cons_of_mem closes
        rw [read_braces inside] at h ⊢
        obtain rfl := ofBraces_eq_orAssign h
        exact ⟨by simp [assignment], fun mem => inside (by simp [mem])⟩
      · rw [read_open closes] at h
        cases h
    · rw [read_of_ne brace] at h
      split at h
      · cases h
      · split at h <;> cases h

end Reference

namespace Context

/-- A text in which a variable is assigned to: the dollar sign of the assignment is not escaped, not
a part of another reference and not in single quotes. -/
def Assigns (context : Context) (cs : List Char) (name text : String) : Prop :=
  ∃ before after place, cs = before ++ Reference.assignment name text ++ after ∧
    '}' ∉ text.toList ∧ context.behind before = free place ∧ place ≠ .single

variable {context : Context} {place : Text.Place} {cs : List Char} {name text : String}

theorem Assigns.append {used : List Char} (h : (context.behind used).Assigns cs name text) :
    context.Assigns (used ++ cs) name text := by
  obtain ⟨before, after, place, rfl, inside, behind, outside⟩ := h
  refine ⟨used ++ before, after, place, by simp, inside, ?_, outside⟩
  rw [behind_append, behind]

theorem Assigns.cons {c : Char} (h : (context.step c).Assigns cs name text) :
    context.Assigns (c :: cs) name text := by
  change context.Assigns ([c] ++ cs) name text
  exact append h

theorem Assigns.mem (h : context.Assigns cs name text) : '}' ∈ cs := by
  obtain ⟨before, after, place, rfl, -⟩ := h
  simp [Reference.assignment]

/-- The assignments among the pieces of a text stand in the text. -/
theorem assigns_of_mem {q : Bool} (fits : Fits place cs context)
    (h : .reference q (.orAssign name text) ∈ Piece.ofLine place cs) :
    context.Assigns cs name text := by
  fun_induction Piece.ofLine place cs generalizing context with
  | case1 => cases h
  | case2 => cases List.mem_singleton.1 h
  | case3 place c protects e r ih =>
    obtain ⟨rfl, outside⟩ : c = '\\' ∧ place ≠ .single := by simpa using protects
    have rest : .reference q (.orAssign name text) ∈ Piece.ofLine place r := by simpa using h
    have escapes : context.step '\\' = escaped place := by
      rw [fits.step_eq, ofChar, if_neg outside, if_pos rfl]
    refine .cons (.cons ?_)
    rw [escapes]
    exact ih .free rest
  | case4 place c r _ quote ih =>
    obtain ⟨rfl, outside⟩ : c = '\'' ∧ place ≠ .double := by simpa using quote
    have rest := (List.mem_cons.1 h).resolve_left (by simp)
    refine .cons ?_
    rw [fits.step_eq]
    cases place with
    | bare | single => exact ih .free rest
    | double => exact absurd rfl outside
  | case5 place c r _ _ quote ih =>
    obtain ⟨rfl, outside⟩ : c = '"' ∧ place ≠ .single := by simpa using quote
    have rest := (List.mem_cons.1 h).resolve_left (by simp)
    refine .cons ?_
    rw [fits.step_eq]
    cases place with
    | bare | double => exact ih .free rest
    | single => exact absurd rfl outside
  | case6 place c r _ _ _ refers ih =>
    obtain ⟨rfl, outside⟩ : c = '$' ∧ place ≠ .single := by simpa using refers
    obtain here | rest := List.mem_cons.1 h
    · obtain ⟨-, assigns⟩ := Piece.reference.inj here
      obtain ⟨written, inside⟩ := Reference.read_eq_orAssign assigns.symm
      cases fits with
      | free => exact ⟨[], _, place, written, inside, rfl, outside⟩
      | dollar h => exact absurd (h '$' rfl).2 (by decide)
    · obtain ⟨used, eq, fits'⟩ | ⟨eq, notClosed⟩ := exists_fits_read place r
      · have begins : context.step '$' = dollar place := by
          rw [fits.step_eq, ofChar, if_neg outside, if_neg (by decide), if_pos rfl]
        refine .cons ?_
        rw [begins, eq]
        exact .append (ih fits' rest)
      · -- Without a closing brace there is nothing more to be found.
        have closes := (ih .free rest).mem
        rw [eq] at closes
        exact absurd closes notClosed
  | case7 place c r protects single double refers ih =>
    have rest := (List.mem_cons.1 h).resolve_left (by simp)
    have plain : ofChar place c = free place := by
      cases place <;> simp_all [ofChar]
    refine .cons ?_
    rw [fits.step_eq, plain]
    exact ih .free rest

end Context

/-! ### What expansion sets -/

/-- All that a reference does to the values is to set an identifier that has none. -/
theorem Reference.evaluate_cases {σ : Type} [Bindings σ] (s : σ) (r : Reference) :
    (r.evaluate s).2 = s ∨
      ∃ name text, r = .orAssign name text ∧ Text.isIdentifier name.toList = true ∧
        (Bindings.get? s name).filter (· ≠ "") = none ∧
        (r.evaluate s).2 = Bindings.set s name text := by
  cases r with
  | literal | value | length => exact .inl rfl
  | orElse name text =>
    rw [evaluate]
    split <;> exact .inl rfl
  | orAssign name text =>
    rw [evaluate]
    split
    · exact .inl rfl
    · next empty =>
      dsimp only
      split
      · next identifier => exact .inr ⟨name, text, rfl, identifier, empty, rfl⟩
      · exact .inl rfl

/-- What every assignment among some pieces keeps, their expansion keeps. -/
theorem Piece.keeps_expand {σ : Type} [Bindings σ] {I : σ → Prop} {all ps : List Piece}
    (set : ∀ s q name text, .reference q (.orAssign name text) ∈ all →
      Text.isIdentifier name.toList = true → (Bindings.get? s name).filter (· ≠ "") = none →
      I s → I (Bindings.set s name text))
    (among : ps ⊆ all) {s : σ} (h : I s) : I (expand s ps).2 := by
  induction ps generalizing s with
  | nil => exact h
  | cons p ps ih =>
    obtain ⟨here, rest⟩ := List.cons_subset.1 among
    cases p with
    | plain c => exact ih rest h
    | reference q r =>
      have kept : I (r.evaluate s).2 := by
        obtain same | ⟨name, text, rfl, identifier, empty, eq⟩ := r.evaluate_cases s
        · rwa [same]
        · rw [eq]
          exact set s q name text here identifier empty h
      exact ih rest kept

/-- What a line may make of the value of a name: nothing else, or an identifier without a value has
been given the text of an assignment. -/
def MayBecome (line name : String) (before after : Option String) : Prop :=
  after = before ∨
    Text.isIdentifier name.toList = true ∧ (before = none ∨ before = some "") ∧
      ∃ text, after = some text ∧ (Context.free .bare).Assigns line.toList name text

/-- Values that differ from earlier ones only as far as a line assigns to names that had none. -/
structure Confined (line : String) (before after : String → Option String) : Prop where
  kept : ∀ name, (before name).isSome = true → (after name).isSome = true
  settled : ∀ name value, before name = some value → value ≠ "" → after name = some value
  changed : ∀ name, after name ≠ before name →
    Text.isIdentifier name.toList = true ∧ (before name = none ∨ before name = some "") ∧
      ∃ text, after name = some text ∧ (Context.free .bare).Assigns line.toList name text

theorem Confined.of_mayBecome {line : String} {before after : String → Option String}
    (h : ∀ name, MayBecome line name (before name) (after name)) :
    Confined line before after where
  kept name some := by
    obtain same | ⟨-, -, text, now, -⟩ := h name
    · rw [same, some]
    · rw [now, Option.isSome_some]
  settled name value was some := by
    obtain same | ⟨-, none | empty, -⟩ := h name
    · rw [same, was]
    · cases was.symm.trans none
    · cases was.symm.trans empty
      exact absurd rfl some
  changed name differs := (h name).resolve_left differs

/-- A store is looked at through a view, in which all that is set shows, and from which the values
of identifiers are taken. -/
theorem confined_expandReferences {σ : Type} [Bindings σ] {view : σ → String → Option String}
    (reads : ∀ s name, Text.isIdentifier name.toList = true → Bindings.get? s name = view s name)
    (writes : ∀ s name text other,
      view (Bindings.set s name text) other = if name = other then some text else view s other)
    (s : σ) (line : String) : Confined line (view s) (view (expandReferences s line).2) := by
  refine .of_mayBecome ?_
  refine Piece.keeps_expand (I := fun w => ∀ name, MayBecome line name (view s name) (view w name))
    (fun w q name text written identifier empty ih other => ?_)
    (List.Subset.refl (Piece.ofLine .bare line.toList)) (fun name => .inl rfl)
  rw [writes]
  split
  · next same =>
    subst same
    refine .inr ⟨identifier, ?_, text, rfl, Context.assigns_of_mem .free written⟩
    obtain unchanged | ⟨-, before, -⟩ := ih name
    · rw [reads w name identifier, unchanged] at empty
      cases value : view s name with
      | none => exact .inl rfl
      | some v => simpa [value] using empty
    · exact before
  · exact ih other

/-- The value of a variable, whether or not a parameter of the session goes by its name. -/
def Variables.stored (v : Variables) (name : String) : Option String :=
  (v.named.get? name).map Variable.value

theorem Variables.stored_set (v : Variables) (name text other : String) :
    (v.set name text).stored other = if name = other then some text else v.stored other := by
  rw [stored, set, Table.get?_insert]
  split <;> rfl

theorem Variables.get?_eq_stored (v : Variables) {name : String}
    (h : Text.isIdentifier name.toList = true) : v.get? name = v.stored name := by
  rw [get?, v.special?_eq_none h, Option.none_or, stored]

/-- The expansion of a line removes no name and changes no value but that of an identifier that was
unset or empty, which then has the text of an assignment in the line. That holds in plain tables and
among the variables of a session, where export marks and all parameters stay as they are. -/
theorem expansion_sets_only_empty_names (line : String) :
    (∀ t : Table String String, Confined line t.get? (expandReferences t line).2.get?) ∧
    ∀ v : Variables,
      let w := (expandReferences v line).2
      Confined line v.stored w.stored ∧
      (∀ name, w.isExported name = v.isExported name) ∧
      (∀ name, w.special? name = v.special? name) ∧
      w = { v with named := w.named } := by
  refine ⟨fun t => ?_, fun v => ?_⟩
  · exact confined_expandReferences (fun _ _ _ => rfl)
      (fun s name text other => Table.get?_insert s name other text) t line
  · intro w
    have assigned : Piece.Assigned _ v w := Piece.assigned_expandReferences v line
    refine ⟨?_, assigned.isExported_eq, fun name => ?_, assigned.eq_named⟩
    · exact confined_expandReferences (fun _ _ => Variables.get?_eq_stored _)
        Variables.stored_set v line
    · rw [assigned.eq_named]
      rfl

end JobShell
