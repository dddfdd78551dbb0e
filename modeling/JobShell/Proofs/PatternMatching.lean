import JobShell.Pattern
import Mathlib.Data.List.Infix
import Mathlib.Tactic.Common

/-! What file-name patterns match. The text of a pattern is given a meaning from left to right, and
the search that goes back to the last star alone finds a name exactly if it has that meaning. -/
namespace JobShell.Pattern

/-! ### Positions -/

/-- A pattern matches a name: a star takes any run of characters, and every other position takes one
character that it accepts. -/
inductive Matches : Pattern → List Char → Prop where
  | nil : Matches [] []
  | star {p : Pattern} {name : List Char} (run : List Char) (h : Matches p name) :
    Matches (.star :: p) (run ++ name)
  | single {a : Atom} {p : Pattern} {c : Char} {name : List Char} (fits : a.accepts c = true)
    (h : Matches p name) : Matches (a :: p) (c :: name)

theorem matches_star_iff {p : Pattern} {name : List Char} :
    Matches (.star :: p) name ↔ ∃ rest, rest <:+ name ∧ Matches p rest := by
  constructor
  · rintro (_ | ⟨run, h⟩ | ⟨fits, -⟩)
    · exact ⟨_, List.suffix_append _ _, h⟩
    · cases fits
  · rintro ⟨rest, ⟨run, rfl⟩, h⟩
    exact .star run h

theorem matches_nil_iff {p : Pattern} : Matches p [] ↔ p.all (· = .star) = true := by
  induction p with
  | nil => exact ⟨fun _ => rfl, fun _ => .nil⟩
  | cons a p ih =>
    rw [List.all_cons, Bool.and_eq_true, decide_eq_true_iff, ← ih]
    constructor
    · intro h
      cases a with
      | star =>
        obtain ⟨rest, suffix, h⟩ := matches_star_iff.1 h
        cases List.suffix_nil.1 suffix
        exact ⟨rfl, h⟩
      | one | literal | among => cases h
    · rintro ⟨rfl, h⟩
      exact .star [] h

theorem ne_star_of_accepts {a : Atom} {c : Char} (h : a.accepts c = true) : a ≠ .star := by
  rintro rfl
  cases h

theorem matches_single_iff {a : Atom} (other : a ≠ .star) {p : Pattern} {name : List Char} :
    Matches (a :: p) name ↔ ∃ c r, name = c :: r ∧ a.accepts c = true ∧ Matches p r := by
  constructor
  · rintro (_ | _ | ⟨fits, h⟩)
    · exact absurd rfl other
    · exact ⟨_, _, rfl, fits, h⟩
  · rintro ⟨c, r, rfl, fits, h⟩
    exact .single fits h

/-- Unless a pattern begins with a star, its first position takes the first character. -/
theorem matches_cons_iff {p : Pattern} (first : ∀ q, p = .star :: q → False) {c : Char}
    {name : List Char} : Matches p (c :: name) ↔ ∃ q, follow? p c = some q ∧ Matches q name := by
  cases p with
  | nil => exact ⟨nofun, nofun⟩
  | cons a p =>
    have other : a ≠ .star := fun star => first p (star ▸ rfl)
    rw [matches_single_iff other]
    by_cases fits : a.accepts c = true <;> simp [follow?, fits]

/-- Positions other than stars take as many characters as they are. -/
theorem Matches.of_append {read p : Pattern} (starless : .star ∉ read) {name : List Char}
    (h : Matches (read ++ p) name) :
    ∃ taken rest, name = taken ++ rest ∧ taken.length = read.length ∧ Matches p rest := by
  induction read generalizing name with
  | nil => exact ⟨[], name, rfl, rfl, h⟩
  | cons a read ih =>
    rw [List.mem_cons, not_or] at starless
    cases h with
    | star => exact absurd rfl starless.1
    | single fits h =>
      obtain ⟨taken, rest, rfl, same, h⟩ := ih starless.2 h
      exact ⟨_ :: taken, rest, rfl, congrArg (· + 1) same, h⟩

/-! ### The search -/

/-- A pattern matches the whole of a name or a proper ending of it. -/
theorem exists_suffix_iff {P : List Char → Prop} (name : List Char) :
    (∃ s, s <:+ name ∧ P s) ↔ P name ∨ ∃ s, s <:+ name.tail ∧ P s := by
  constructor
  · rintro ⟨s, suffix, h⟩
    cases name with
    | nil => exact .inl (List.suffix_nil.1 suffix ▸ h)
    | cons c name =>
      rcases List.suffix_cons_iff.1 suffix with rfl | suffix
      · exact .inl h
      · exact .inr ⟨s, suffix, h⟩
  · rintro (h | ⟨s, suffix, h⟩)
    · exact ⟨name, List.suffix_rfl, h⟩
    · exact ⟨s, suffix.trans (List.tail_suffix name), h⟩

/-- Since the last star, positions without stars have been read, and each has taken a character. -/
def Standing (p : Pattern) (name : List Char) : Option (Pattern × List Char) → Prop
  | none => True
  | some (q, rest) => ∃ read taken, q = read ++ p ∧ rest = taken ++ name ∧ .star ∉ read ∧
      taken.length = read.length

/-- The last star can take more, so that what follows it matches. -/
def Recovers : Option (Pattern × List Char) → Prop
  | none => False
  | some (q, rest) => ∃ s, s <:+ rest.tail ∧ Matches q s

theorem standing_refl (p : Pattern) (name : List Char) : Standing p name (some (p, name)) :=
  ⟨[], [], rfl, rfl, List.not_mem_nil, rfl⟩

theorem Standing.follow {p q : Pattern} {c : Char} {name : List Char}
    {back : Option (Pattern × List Char)} (h : Standing p (c :: name) back)
    (step : follow? p c = some q) : Standing q name back := by
  cases back with
  | none => trivial
  | some back =>
    obtain ⟨read, taken, pattern, rest, starless, same⟩ := h
    cases p with
    | nil => cases step
    | cons a p =>
      simp only [follow?, Option.ite_none_right_eq_some, Option.some.injEq] at step
      obtain ⟨fits, rfl⟩ := step
      refine ⟨read ++ [a], taken ++ [c], by simp [pattern], by simp [rest], ?_, by simp [same]⟩
      simpa using ⟨starless, (ne_star_of_accepts fits).symm⟩

/-- If the last star can take more, what is left of the pattern matches an ending of what is left of
the name: giving up that star for a later one loses nothing. -/
theorem Recovers.exists_suffix {p : Pattern} {name : List Char}
    {back : Option (Pattern × List Char)} (h : Recovers back) (standing : Standing p name back) :
    ∃ s, s <:+ name ∧ Matches p s := by
  cases back with
  | none => cases h
  | some back =>
    obtain ⟨s, suffix, h⟩ := h
    obtain ⟨read, taken, pattern, whole, starless, same⟩ := standing
    rw [pattern] at h
    obtain ⟨taken', s', rfl, same', h⟩ := h.of_append starless
    refine ⟨s', ?_, h⟩
    have within := suffix.trans (List.tail_suffix back.2)
    have short := within.length_le
    rw [whole] at within short
    refine List.suffix_of_suffix_length_le ((List.suffix_append taken' s').trans within)
      (List.suffix_append taken name) ?_
    simp only [List.length_append] at short
    omega

theorem search_eq_true_iff {p : Pattern} {name : List Char} {back : Option (Pattern × List Char)}
    (standing : Standing p name back) :
    search p name back = true ↔ Matches p name ∨ Recovers back := by
  fun_induction search p name back with
  | case1 back p =>
    rw [← matches_nil_iff]
    refine ⟨.inl, ?_⟩
    rintro (h | h)
    · exact h
    · obtain ⟨s, suffix, h⟩ := h.exists_suffix standing
      exact List.suffix_nil.1 suffix ▸ h
  | case2 back c r p ih =>
    have found : (Matches p (c :: r) ∨ Recovers (some (p, c :: r))) ↔
        Matches (.star :: p) (c :: r) := by
      rw [matches_star_iff]
      exact (exists_suffix_iff _).symm
    rw [ih (standing_refl _ _), found]
    refine ⟨.inl, ?_⟩
    rintro (h | h)
    · exact h
    · -- What the star before this one could still find, this one finds.
      obtain ⟨s, suffix, h⟩ := h.exists_suffix standing
      obtain ⟨s', suffix', h⟩ := matches_star_iff.1 h
      exact matches_star_iff.2 ⟨s', suffix'.trans suffix, h⟩
  | case3 back c r p first q step ih =>
    rw [ih (standing.follow step), matches_cons_iff first]
    simp [step]
  | case4 c r p first stuck =>
    rw [matches_cons_iff first]
    simp [stuck, Recovers]
  | case5 c r p first stuck q rest ih =>
    have found : (Matches q rest.tail ∨ Recovers (some (q, rest.tail))) ↔
        Recovers (some (q, rest)) := (exists_suffix_iff _).symm
    rw [ih (standing_refl _ _), found, matches_cons_iff first]
    simp [stuck]

theorem accepts_eq_true_iff {p : Pattern} {name : List Char} :
    accepts p name = true ↔ Matches p name := by
  have standing : Standing p name none := trivial
  rw [accepts, search_eq_true_iff standing]
  exact or_iff_left id

/-! ### The text of a pattern -/

/-- Whether the text behind an opening bracket begins with a sign of negation. -/
def isNegated (text : List Char) : Bool := text.head? = some '!' || text.head? = some '^'

/-- The text behind an opening bracket begins with a class that is closed: behind the sign there is
at least one character, whichever it is, and the next closing bracket ends the class. -/
structure Closes (text content rest : List Char) : Prop where
  text_eq : (if isNegated text then text.tail else text) = content ++ ']' :: rest
  nonempty : content ≠ []
  inside : ']' ∉ content.tail

/-- A character is among those that the content of a class lists, as ranges and one by one. -/
def Lists : List Char → Char → Prop
  | low :: '-' :: high :: r, c => (low ≤ c ∧ c ≤ high) ∨ Lists r c
  | d :: r, c => c = d ∨ Lists r c
  | [], _ => False

/-- What the text of a pattern stands for. -/
inductive Denotes : List Char → List Char → Prop where
  | nil : Denotes [] []
  /-- Any run of characters. -/
  | star {p name : List Char} (run : List Char) (h : Denotes p name) :
    Denotes ('*' :: p) (run ++ name)
  /-- Any character. -/
  | one {p name : List Char} (c : Char) (h : Denotes p name) : Denotes ('?' :: p) (c :: name)
  /-- A character that a class lists, or one that a negated class does not list. -/
  | among {text content p name : List Char} {c : Char} (closes : Closes text content p)
    (fits : Lists content c ↔ isNegated text = false) (h : Denotes p name) :
    Denotes ('[' :: text) (c :: name)
  /-- Any other character itself, and an opening bracket without a closing one. -/
  | itself {c : Char} {p name : List Char} (plain : c ≠ '*' ∧ c ≠ '?')
    (unclosed : c = '[' → ∀ content rest, ¬Closes p content rest) (h : Denotes p name) :
    Denotes (c :: p) (c :: name)

/-! ### Reading the text -/

/-- What may stand before the bracket that closes a class: no such bracket, except at the front. -/
def Inside (first : Bool) (content : List Char) : Prop :=
  if first then content ≠ [] ∧ ']' ∉ content.tail else ']' ∉ content

theorem Inside.tail {first : Bool} {c : Char} {content : List Char}
    (h : Inside first (c :: content)) : Inside false content := by
  cases first with
  | true => exact h.2
  | false => exact fun listed => h (List.mem_cons_of_mem c listed)

theorem Inside.cons {first : Bool} {c : Char} {content : List Char}
    (opening : ¬(c = ']' && !first) = true) (h : Inside false content) :
    Inside first (c :: content) := by
  cases first with
  | true => exact ⟨List.cons_ne_nil c content, h⟩
  | false =>
    have other : c ≠ ']' := by simpa using opening
    exact List.not_mem_cons_of_ne_of_not_mem (Ne.symm other) h

/-- The first character of a class that is not closed at once belongs to its content. -/
theorem Inside.exists_cons {first : Bool} {content rest r : List Char} {c : Char}
    (h : Inside first content) (opening : ¬(c = ']' && !first) = true)
    (text : content ++ ']' :: rest = c :: r) :
    ∃ inner, r = inner ++ ']' :: rest ∧ Inside false inner := by
  cases content with
  | nil =>
    cases text
    cases first with
    | true => exact absurd rfl h.1
    | false => exact absurd rfl opening
  | cons d inner =>
    cases text
    exact ⟨inner, rfl, h.tail⟩

theorem rangeEnd?_eq_some {r : List Char} {high : Char} (h : rangeEnd? r = some high) :
    ∃ r', r = '-' :: high :: r' ∧ high ≠ ']' := by
  unfold rangeEnd? at h
  split at h
  · split at h
    · cases h
    · next bracket =>
      cases h
      exact ⟨_, rfl, bracket⟩
  · cases h

/-- A range of characters lists those between its ends. -/
def listed (ranges : List (Char × Char)) (c : Char) : Bool :=
  ranges.any fun r => r.1 ≤ c && c ≤ r.2

theorem readRanges_sound {first : Bool} {cs rest : List Char} {ranges : List (Char × Char)}
    (h : readRanges first cs = some (ranges, rest)) : ∃ content, cs = content ++ ']' :: rest ∧
      Inside first content ∧ ∀ c, listed ranges c = true ↔ Lists content c := by
  fun_induction readRanges first cs generalizing ranges rest with
  | case1 => cases h
  | case2 first c r closing =>
    cases h
    obtain ⟨rfl, rfl⟩ : c = ']' ∧ first = false := by simpa using closing
    exact ⟨[], rfl, List.not_mem_nil, fun c => by simp [listed, Lists]⟩
  | case3 first c r opening high found ih =>
    obtain ⟨⟨ranges, rest⟩, read, same⟩ := Option.map_eq_some_iff.1 h
    cases same
    obtain ⟨r, rfl, bracket⟩ := rangeEnd?_eq_some found
    obtain ⟨content, text, inside, lists⟩ := ih read
    have text : r = content ++ ']' :: rest := text
    have inner : Inside false ('-' :: high :: content) := by
      simpa [Inside, Ne.symm bracket] using inside
    refine ⟨c :: '-' :: high :: content, by rw [text]; rfl, inner.cons opening, fun d => ?_⟩
    rw [Lists, ← lists]
    simp [listed]
  | case4 first c r opening single ih =>
    obtain ⟨⟨ranges, rest⟩, read, same⟩ := Option.map_eq_some_iff.1 h
    cases same
    obtain ⟨content, rfl, inside, lists⟩ := ih read
    refine ⟨c :: content, rfl, inside.cons opening, fun d => ?_⟩
    have alone : (c ≤ d ∧ d ≤ c) ↔ d = c :=
      ⟨fun h => Char.le_antisymm h.2 h.1, fun h => h ▸ ⟨Char.le_refl d, Char.le_refl d⟩⟩
    rw [Lists, ← lists, ← alone]
    · simp [listed]
    · rintro high content rfl
      have bracket : high ≠ ']' := by
        rintro rfl
        exact inside (by simp)
      simp [rangeEnd?, bracket] at single

theorem readRanges_complete {first : Bool} {content : List Char} (h : Inside first content)
    (rest : List Char) :
    ∃ ranges, readRanges first (content ++ ']' :: rest) = some (ranges, rest) := by
  generalize text : content ++ ']' :: rest = cs
  fun_induction readRanges first cs generalizing content with
  | case1 => simp at text
  | case2 first c r closing =>
    obtain ⟨rfl, rfl⟩ : c = ']' ∧ first = false := by simpa using closing
    cases content with
    | nil =>
      cases text
      exact ⟨[], rfl⟩
    | cons d content =>
      cases text
      exact absurd List.mem_cons_self h
  | case3 first c r opening high found ih =>
    obtain ⟨inner, rfl, h⟩ := h.exists_cons opening text
    obtain ⟨r, range, bracket⟩ := rangeEnd?_eq_some found
    -- The dash and the end of the range are not the closing bracket either.
    obtain ⟨inner', behind, h⟩ := h.exists_cons (by decide) range
    obtain ⟨inner'', rfl, h⟩ := h.exists_cons (by simpa using bracket) behind.symm
    obtain ⟨ranges, read⟩ := ih h (by rw [range]; rfl)
    exact ⟨(c, high) :: ranges, by rw [read]; rfl⟩
  | case4 first c r opening single ih =>
    obtain ⟨inner, rfl, h⟩ := h.exists_cons opening text
    obtain ⟨ranges, read⟩ := ih h rfl
    exact ⟨(c, c) :: ranges, by rw [read]; rfl⟩

theorem readClass_eq (text : List Char) : readClass text =
    (readRanges true (if isNegated text then text.tail else text)).map
      fun p => (.among (isNegated text) p.1, p.2) := by
  unfold readClass
  split
  · rfl
  · rfl
  · next exclamation circumflex =>
    have plain : isNegated text = false := by
      cases text with
      | nil => rfl
      | cons c r =>
        simp only [isNegated, List.head?_cons, Option.some.injEq, Bool.or_eq_false_iff,
          decide_eq_false_iff_not]
        refine ⟨?_, ?_⟩ <;> rintro rfl
        · exact exclamation r rfl
        · exact circumflex r rfl
    simp [plain]

theorem readClass_sound {text rest : List Char} {a : Atom} (h : readClass text = some (a, rest)) :
    a ≠ .star ∧ ∃ content, Closes text content rest ∧
      ∀ c, a.accepts c = true ↔ (Lists content c ↔ isNegated text = false) := by
  rw [readClass_eq] at h
  obtain ⟨⟨ranges, rest⟩, read, same⟩ := Option.map_eq_some_iff.1 h
  cases same
  obtain ⟨content, text_eq, inside, lists⟩ := readRanges_sound read
  refine ⟨nofun, content, ⟨text_eq, inside.1, inside.2⟩, fun c => ?_⟩
  rw [← lists]
  change (listed ranges c != isNegated text) = true ↔ _
  cases listed ranges c <;> cases isNegated text <;> decide

theorem Closes.readClass {text content rest : List Char} (h : Closes text content rest) :
    ∃ a, readClass text = some (a, rest) := by
  have inside : Inside true content := ⟨h.nonempty, h.inside⟩
  obtain ⟨ranges, read⟩ := readRanges_complete inside rest
  exact ⟨.among (isNegated text) ranges, by rw [readClass_eq, h.text_eq, read]; rfl⟩

theorem Closes.content_eq {text content content' rest : List Char} (h : Closes text content rest)
    (h' : Closes text content' rest) : content' = content :=
  List.append_cancel_right (h'.text_eq.symm.trans h.text_eq)

theorem denotes_iff_matches (text name : List Char) :
    Denotes text name ↔ Matches (ofChars text) name := by
  fun_induction ofChars text generalizing name with
  | case1 =>
    constructor
    · rintro ⟨⟩
      exact .nil
    · rintro ⟨⟩
      exact .nil
  | case2 p ih =>
    rw [matches_star_iff]
    constructor
    · intro h
      cases h with
      | star run h => exact ⟨_, List.suffix_append _ _, (ih _).1 h⟩
      | itself plain => exact absurd rfl plain.1
    · rintro ⟨rest, ⟨run, rfl⟩, h⟩
      exact .star run ((ih _).2 h)
  | case3 p ih =>
    rw [matches_single_iff (a := .one) nofun]
    constructor
    · intro h
      cases h with
      | one c h => exact ⟨c, _, rfl, rfl, (ih _).1 h⟩
      | itself plain => exact absurd rfl plain.2
    · rintro ⟨c, r, rfl, -, h⟩
      exact .one c ((ih _).2 h)
  | case4 text a rest found ih =>
    obtain ⟨other, content, closes, accepts⟩ := readClass_sound found
    rw [matches_single_iff other]
    constructor
    · intro h
      cases h with
      | among closes' fits h =>
        -- The text can be read as a closed class in one way only.
        obtain ⟨a', found'⟩ := closes'.readClass
        cases found.symm.trans found'
        rw [closes.content_eq closes'] at fits
        exact ⟨_, _, rfl, (accepts _).2 fits, (ih _).1 h⟩
      | itself _ unclosed => exact absurd closes (unclosed rfl _ _)
    · rintro ⟨c, r, rfl, fits, h⟩
      exact .among closes ((accepts c).1 fits) ((ih _).2 h)
  | case5 text unclosed ih =>
    have endless (content rest : List Char) : ¬Closes text content rest := by
      intro closes
      obtain ⟨a, found⟩ := closes.readClass
      cases unclosed.symm.trans found
    rw [matches_single_iff (a := .literal _) nofun]
    constructor
    · intro h
      cases h with
      | among closes => exact absurd closes (endless _ _)
      | itself _ _ h => exact ⟨_, _, rfl, by decide, (ih _).1 h⟩
    · rintro ⟨c, r, rfl, fits, h⟩
      cases of_decide_eq_true fits
      exact .itself (by decide) (fun _ => endless) ((ih _).2 h)
  | case6 c p star one bracket ih =>
    rw [matches_single_iff (a := .literal _) nofun]
    constructor
    · intro h
      cases h with
      | star => exact absurd rfl star
      | one => exact absurd rfl one
      | among => exact absurd rfl bracket
      | itself _ _ h => exact ⟨_, _, rfl, decide_eq_true rfl, (ih _).1 h⟩
    · rintro ⟨c', r, rfl, fits, h⟩
      cases of_decide_eq_true fits
      exact .itself ⟨star, one⟩ (fun opening => absurd opening bracket) ((ih _).2 h)

/-- The search through a name along a pattern, which goes back to the last star alone, ends for
every pattern and every name, and it finds the name exactly if the text of the pattern, read from
left to right, stands for it. -/
theorem matchesName_iff_denotes (pattern name : String) :
    matchesName pattern name = true ↔ Denotes pattern.toList name.toList := by
  rw [matchesName, accepts_eq_true_iff, denotes_iff_matches]

end JobShell.Pattern
