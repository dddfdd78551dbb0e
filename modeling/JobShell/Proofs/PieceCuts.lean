import JobShell.Proofs.FilledLine
import Mathlib.Data.List.TakeWhile

/-! References in a line of two parts. Where nothing in the first part needs what follows, its
pieces are what they are alone, and those of the second part depend on the place where the first one
ends. -/
namespace JobShell

/-- No name runs on from one text into the next. -/
def Text.Parted (cs ds : List Char) : Prop :=
  ∀ c ∈ cs.getLast?, ∀ d ∈ ds.head?, isNameChar c = true → isNameChar d = false

theorem Text.Parted.of_suffix {cs r ds : List Char} (h : Parted cs ds) (suffix : r <:+ cs) :
    Parted r ds := by
  obtain ⟨t, rfl⟩ := suffix
  intro c hc
  exact h c (by simp [Option.mem_def.1 hc])

theorem Text.parted_of_linefeed {cs : List Char} (last : cs.getLast? = some '\n') (ds : List Char) :
    Parted cs ds := by
  intro c hc d _ name
  cases last.symm.trans hc
  exact absurd name (by decide)

/-- A run of characters of one kind that is over with the first of two texts. -/
theorem Text.run_append {p : Char → Bool} {cs ds : List Char}
    (stops : (∀ c ∈ cs, p c = true) → ∀ d ∈ ds.head?, p d = false) :
    (cs ++ ds).takeWhile p = cs.takeWhile p ∧ (cs ++ ds).dropWhile p = cs.dropWhile p ++ ds := by
  induction cs with
  | nil =>
    cases ds with
    | nil => exact ⟨rfl, rfl⟩
    | cons d ds =>
      have hd : p d = false := stops nofun d rfl
      simp [hd]
  | cons c cs ih =>
    cases hc : p c with
    | false => simp [hc]
    | true => simpa [hc] using ih fun all => stops (List.forall_mem_cons.2 ⟨hc, all⟩)

namespace Reference

/-- Whether the reference behind a dollar sign does not need what follows a text. -/
def isClosed : List Char → Bool
  | [] => false
  | '{' :: r => r.contains '}'
  | _ => true

theorem exists_braces {cs : List Char} (notClosed : isClosed cs = false) (some : cs ≠ []) :
    ∃ body, cs = '{' :: body ∧ '}' ∉ body := by
  unfold isClosed at notClosed
  split at notClosed
  · exact absurd rfl some
  · next body => exact ⟨body, rfl, by simpa using notClosed⟩
  · cases notClosed

theorem read_of_ne {c : Char} (hc : c ≠ '{') (r : List Char) :
    read (c :: r) =
      if isSpecial c || c.isDigit then (.value c.toString, r)
      else if Text.isNameChar c then
        (.value (String.ofList ((c :: r).takeWhile Text.isNameChar)),
          (c :: r).dropWhile Text.isNameChar)
      else (.literal ['$'], c :: r) := by
  unfold read
  split
  · next heq => cases heq
  · next heq =>
    cases heq
    exact absurd rfl hc
  · next heq =>
    cases heq
    rfl

theorem read_braces {body rest : List Char} (inside : '}' ∉ body) :
    read ('{' :: (body ++ '}' :: rest)) = (ofBraces body, rest) := by
  have all : ∀ c ∈ body, decide (c ≠ '}') = true := by
    intro c hc
    exact decide_eq_true fun same => inside (same ▸ hc)
  simp only [read]
  rw [List.takeWhile_append_of_pos all, List.dropWhile_append_of_pos all]
  simp

theorem read_append {cs ds : List Char} (closed : isClosed cs = true)
    (parted : Text.Parted cs ds) : read (cs ++ ds) = ((read cs).1, (read cs).2 ++ ds) := by
  match cs with
  | [] => cases closed
  | c :: r =>
    by_cases brace : c = '{'
    · subst brace
      have closes : '}' ∈ r := List.contains_iff_mem.1 closed
      obtain ⟨body, rest, rfl, inside⟩ := List.eq_append_cons_of_mem closes
      rw [List.cons_append, List.append_assoc, List.cons_append, read_braces inside,
        read_braces inside]
    · have stops (all : ∀ x ∈ c :: r, Text.isNameChar x = true) :
          ∀ d ∈ ds.head?, Text.isNameChar d = false := by
        have last : (c :: r).getLast (List.cons_ne_nil c r) ∈ (c :: r).getLast? :=
          List.getLast?_eq_getLast_of_ne_nil _
        exact fun d hd => parted _ last d hd (all _ (List.getLast_mem _))
      obtain ⟨name, behind⟩ := Text.run_append stops
      rw [List.cons_append] at name behind
      rw [List.cons_append, read_of_ne brace, read_of_ne brace, name, behind]
      split
      · rfl
      · split <;> rfl

theorem read_open {body : List Char} (inside : '}' ∉ body) :
    read ('{' :: body) = (.literal ['$'], '{' :: body) := by
  have none : body.dropWhile (· ≠ '}') = [] := by
    rw [← List.append_nil body, List.dropWhile_append_of_pos]
    · rfl
    · exact fun c hc => decide_eq_true fun same => inside (same ▸ hc)
  simp only [read, none]

/-- A line feed at the end of a text belongs to none of its references. -/
theorem read_linefeed {cs : List Char} (last : cs.getLast? = some '\n') :
    (read cs).2.getLast? = some '\n' := by
  suffices some : (read cs).2 ≠ [] by
    obtain ⟨before, eq⟩ := read_suffix cs
    rwa [← eq, List.getLast?_append_of_ne_nil _ some] at last
  match cs with
  | [] => cases last
  | c :: r =>
    by_cases brace : c = '{'
    · subst brace
      by_cases closes : '}' ∈ r
      · obtain ⟨body, rest, rfl, inside⟩ := List.eq_append_cons_of_mem closes
        rw [read_braces inside]
        rintro rfl
        rw [← List.cons_append, List.getLast?_concat] at last
        cases last
      · rw [read_open closes]
        exact List.cons_ne_nil _ _
    · have feed : '\n' ∈ c :: r := List.mem_of_getLast? last
      rw [read_of_ne brace]
      split
      · next special =>
        rintro rfl
        cases List.mem_singleton.1 feed
        exact absurd special (by decide)
      · split
        · simp only [ne_eq, List.dropWhile_eq_nil_iff]
          exact fun all => absurd (all '\n' feed) (by decide)
        · exact List.cons_ne_nil _ _

end Reference

namespace Piece

/-- What a text begins with, the place behind that, and the rest. -/
def first (place : Text.Place) (c : Char) (r : List Char) : List Piece × Text.Place × List Char :=
  if c = '\\' && place ≠ .single then
    match r with
    | [] => ([plain c], place, [])
    | e :: r => ([plain c, plain e], place, r)
  else if c = '\'' && place ≠ .double then
    ([plain c], if place = .single then .bare else .single, r)
  else if c = '"' && place ≠ .single then
    ([plain c], if place = .double then .bare else .double, r)
  else if c = '$' && place ≠ .single then
    ([reference (place = .double) (Reference.read r).1], place, (Reference.read r).2)
  else ([plain c], place, r)

theorem first_suffix (place : Text.Place) (c : Char) (r : List Char) :
    (first place c r).2.2 <:+ r := by
  unfold first
  split
  · split
    · exact List.suffix_refl _
    · exact List.suffix_cons _ _
  · split
    · exact List.suffix_refl _
    · split
      · exact List.suffix_refl _
      · split
        · exact Reference.read_suffix r
        · exact List.suffix_refl _

theorem ofLine_cons (place : Text.Place) (c : Char) (r : List Char) :
    ofLine place (c :: r) =
      (first place c r).1 ++ ofLine (first place c r).2.1 (first place c r).2.2 := by
  rw [ofLine.eq_def, first.eq_def]
  dsimp only
  split
  · cases r with
    | nil =>
      rw [ofLine]
      rfl
    | cons e r => rfl
  · split
    · rfl
    · split
      · rfl
      · split <;> rfl

/-- Whether a character can be more than itself in a line with references. -/
def isMark (c : Char) : Bool := ['\\', '\'', '"', '$'].contains c

theorem first_plain (place : Text.Place) {c : Char} (unmarked : isMark c = false)
    (r : List Char) : first place c r = ([plain c], place, r) := by
  simp_all [isMark, first]

theorem ofLine_plain (place : Text.Place) {c : Char} (unmarked : isMark c = false)
    (r : List Char) : ofLine place (c :: r) = plain c :: ofLine place r := by
  rw [ofLine_cons, first_plain place unmarked]
  rfl

theorem ofLine_dollar {place : Text.Place} (outside : place ≠ .single) (r : List Char) :
    ofLine place ('$' :: r) =
      reference (place = .double) (Reference.read r).1 :: ofLine place (Reference.read r).2 := by
  rw [ofLine_cons]
  cases place with
  | single => exact absurd rfl outside
  | bare | double => rfl

/-- Whether what a text begins with needs what follows the text. -/
def isCut (place : Text.Place) (c : Char) (r : List Char) : Bool :=
  place ≠ .single && (c = '\\' && r.isEmpty || c = '$' && !Reference.isClosed r)

theorem first_append {place : Text.Place} {c : Char} {r ds : List Char}
    (whole : isCut place c r = false) (parted : Text.Parted (c :: r) ds) :
    first place c (r ++ ds) =
      ((first place c r).1, (first place c r).2.1, (first place c r).2.2 ++ ds) := by
  unfold first
  split
  · next protects =>
    cases r with
    | nil => simp_all [isCut]
    | cons e r => rfl
  · split
    · rfl
    · split
      · rfl
      · split
        · next refers =>
          have closed : Reference.isClosed r = true := by
            simp_all [isCut]
          rw [Reference.read_append closed (parted.of_suffix (List.suffix_cons c r))]
        · rfl

/-- A line feed at the end of a text is left to the rest, or it is a piece of its own. -/
theorem first_linefeed (place : Text.Place) {c : Char} {r : List Char}
    (last : (c :: r).getLast? = some '\n') :
    (first place c r).2.2.getLast? = some '\n' ∨
      (first place c r).2.2 = [] ∧ ∃ ps, (first place c r).1 = ps ++ [plain '\n'] := by
  have behind {c : Char} {r : List Char} (h : (c :: r).getLast? = some '\n') :
      c = '\n' ∧ r = [] ∨ r.getLast? = some '\n' := by
    cases r with
    | nil => exact .inl ⟨by simpa using h, rfl⟩
    | cons d r => exact .inr (by simpa using h)
  obtain ⟨rfl, rfl⟩ | last := behind last
  · cases place <;> exact .inr ⟨rfl, [], rfl⟩
  unfold first
  split
  · cases r with
    | nil => cases last
    | cons e r =>
      obtain ⟨rfl, rfl⟩ | last := behind last
      · exact .inr ⟨rfl, [plain c], rfl⟩
      · exact .inl last
  · split
    · exact .inl last
    · split
      · exact .inl last
      · split
        · exact .inl (Reference.read_linefeed last)
        · exact .inl last

/-- The place that a text leads to, if nothing in it needs what follows. -/
def placeAfter? (place : Text.Place) : List Char → Option Text.Place
  | [] => some place
  | c :: r =>
    if isCut place c r then none else placeAfter? (first place c r).2.1 (first place c r).2.2
termination_by cs => cs.length
decreasing_by
  have := (first_suffix place c r).length_le
  simp only [List.length_cons]
  omega

theorem placeAfter?_plain (place : Text.Place) {cs : List Char}
    (unmarked : ∀ c ∈ cs, isMark c = false) : placeAfter? place cs = some place := by
  induction cs with
  | nil => rw [placeAfter?]
  | cons c cs ih =>
    obtain ⟨here, others⟩ := List.forall_mem_cons.1 unmarked
    have uncut : isCut place c cs = false := by simp_all [isMark, isCut]
    rw [placeAfter?, first_plain place here, uncut]
    exact ih others

theorem ofLine_eq_map_plain (place : Text.Place) {cs : List Char}
    (unmarked : ∀ c ∈ cs, isMark c = false) : ofLine place cs = cs.map plain := by
  induction cs with
  | nil =>
    rw [ofLine]
    rfl
  | cons c cs ih =>
    obtain ⟨here, others⟩ := List.forall_mem_cons.1 unmarked
    rw [ofLine_plain place here, ih others]
    rfl

theorem ofLine_append {place q : Text.Place} {cs ds : List Char}
    (whole : placeAfter? place cs = some q) (parted : Text.Parted cs ds) :
    ofLine place (cs ++ ds) = ofLine place cs ++ ofLine q ds := by
  fun_induction placeAfter? place cs with
  | case1 place =>
    cases whole
    rw [ofLine]
    rfl
  | case2 => cases whole
  | case3 place c r uncut ih =>
    have suffix := (first_suffix place c r).trans (List.suffix_cons c r)
    rw [List.cons_append, ofLine_cons, first_append (Bool.not_eq_true _ ▸ uncut) parted]
    rw [ih whole (parted.of_suffix suffix), ofLine_cons place c r, List.append_assoc]

/-- A line feed at the end of a text is a piece of its own. -/
theorem ofLine_linefeed (place : Text.Place) {cs : List Char}
    (last : cs.getLast? = some '\n') : ∃ ps, ofLine place cs = ps ++ [plain '\n'] := by
  induction size : cs.length using Nat.strongRecOn generalizing place cs with
  | ind n ih =>
    cases cs with
    | nil => cases last
    | cons c r =>
      rw [ofLine_cons]
      obtain last | ⟨nil, ps, eq⟩ := first_linefeed place last
      · have shorter : (first place c r).2.2.length < n := by
          have := (first_suffix place c r).length_le
          rw [← size, List.length_cons]
          omega
        obtain ⟨ps, eq⟩ := ih _ shorter _ last rfl
        exact ⟨(first place c r).1 ++ ps, by rw [eq, List.append_assoc]⟩
      · exact ⟨ps, by rw [nil, eq, ofLine, List.append_nil]⟩

/-- In a text that is not whole and ends in a line feed there are braces that are not closed. -/
theorem exists_open {place : Text.Place} {cs : List Char} (last : cs.getLast? = some '\n')
    (cut : placeAfter? place cs = none) :
    ∃ ps q body, q ≠ .single ∧ body <:+ cs ∧ body.getLast? = some '\n' ∧ '}' ∉ body ∧
      ∀ ds, ofLine place (cs ++ ds) = ps ++ ofLine q ('$' :: '{' :: (body ++ ds)) := by
  fun_induction placeAfter? place cs with
  | case1 => cases last
  | case2 place c r here =>
    simp only [isCut, Bool.and_eq_true, Bool.or_eq_true, decide_eq_true_eq,
      List.isEmpty_iff, Bool.not_eq_true'] at here
    obtain ⟨outside, ⟨rfl, rfl⟩ | ⟨rfl, notClosed⟩⟩ := here
    · cases last
    · have some : r ≠ [] := by
        rintro rfl
        cases last
      obtain ⟨body, rfl, inside⟩ := Reference.exists_braces notClosed some
      cases body with
      | nil => cases last
      | cons d body =>
        exact ⟨[], place, d :: body, outside, ⟨['$', '{'], rfl⟩, last, inside, fun ds => rfl⟩
  | case3 place c r uncut ih =>
    obtain rest | ⟨nil, -⟩ := first_linefeed place last
    · obtain ⟨ps, q, body, outside, suffix, feed, inside, eq⟩ := ih rest cut
      refine ⟨(first place c r).1 ++ ps, q, body, outside,
        suffix.trans ((first_suffix place c r).trans (List.suffix_cons c r)), feed, inside, ?_⟩
      intro ds
      rw [List.cons_append, ofLine_cons,
        first_append (Bool.not_eq_true _ ▸ uncut) (Text.parted_of_linefeed last ds), eq,
        List.append_assoc]
    · rw [nil, placeAfter?] at cut
      cases cut

theorem expand_append {σ : Type} [Bindings σ] (s : σ) (ps qs : List Piece) :
    expand s (ps ++ qs) =
      ((expand s ps).1 ++ (expand (expand s ps).2 qs).1, (expand (expand s ps).2 qs).2) := by
  induction ps generalizing s with
  | nil => rfl
  | cons p ps ih =>
    cases p with
    | plain c => simp [expand, ih]
    | reference q r => simp [expand, ih]

end Piece

end JobShell
