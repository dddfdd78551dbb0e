import JobShell.Proofs.OpenBraces
import JobShell.Proofs.TokenCuts

/-! When a comment makes no difference. The reader of tokens drops comments, but references have
been replaced in them before, and their quotes have been taken for quotes. -/
namespace JobShell

/-! ### Comments among tokens -/

namespace Token

theorem skip_comment {cs : List Char} (oneLine : '\n' ∉ cs) (rest : List Char) :
    skip true (cs ++ '\n' :: rest) = '\n' :: rest := by
  induction cs with
  | nil => rfl
  | cons c cs ih =>
    rw [List.mem_cons, not_or] at oneLine
    rw [List.cons_append, skip, if_neg (Ne.symm oneLine.1)]
    exact ih oneLine.2

theorem scan_comment {cs : List Char} (oneLine : '\n' ∉ cs) (rest : List Char) (budget : Nat) :
    scan budget ('#' :: (cs ++ '\n' :: rest)) = scan budget ('\n' :: rest) := by
  refine scan_eq_of_next? ?_ budget
  rw [next?, show skip false ('#' :: (cs ++ '\n' :: rest)) = '\n' :: rest from
    skip_comment oneLine rest]
  rfl

theorem scan_unended_comment {cs : List Char} (oneLine : '\n' ∉ cs) (budget : Nat) :
    scan budget ('#' :: cs) = .ok [eof] := by
  have ended : skip true cs = [] := by
    induction cs with
    | nil => rfl
    | cons c cs ih =>
      rw [List.mem_cons, not_or] at oneLine
      rw [skip, if_neg (Ne.symm oneLine.1)]
      exact ih oneLine.2
  have none : next? ('#' :: cs) = next? [] := by
    rw [next?, show skip false ('#' :: cs) = [] from ended]
    rfl
  rw [scan_eq_of_next? none]
  cases budget <;> rfl

theorem skip_ne_nil {cs : List Char} (feed : '\n' ∈ cs) (within : Bool) : skip within cs ≠ [] := by
  fun_induction skip within cs with
  | case1 => cases feed
  | case2 | case5 => exact List.cons_ne_nil _ _
  | case3 _ c cs hc _ ih => exact ih ((List.mem_cons.1 feed).resolve_left (Ne.symm hc))
  | case4 _ cs hc _ ih => exact ih ((List.mem_cons.1 feed).resolve_left (Ne.symm hc))

theorem next?_ne_none {cs : List Char} (feed : '\n' ∈ cs) : next? cs ≠ .ok none :=
  fun none => skip_ne_nil feed false (skip_eq_nil_of_next? none)

/-- A comment that is read as nothing but the line feed at its end has no other line feed. -/
theorem linefeed_not_mem_of_scan {cs : List Char}
    (h : scan 2 ('#' :: (cs ++ ['\n'])) = scan 2 ['\n']) : '\n' ∉ cs := by
  intro feed
  obtain ⟨before, behind, rfl, oneLine⟩ := List.eq_append_cons_of_mem feed
  rw [List.append_assoc, List.cons_append, scan_comment oneLine] at h
  obtain ⟨none, -⟩ | ⟨t, r, us, found, rest, eq⟩ := scan_succ_eq_ok h
  · exact next?_ne_none (by simp) none
  cases found
  cases eq
  obtain ⟨none, -⟩ | ⟨t, r, us, found, -, eq⟩ := scan_succ_eq_ok rest
  · exact next?_ne_none (by simp) none
  · cases eq
    exact kind_of_next? found rfl

open Reference in
/-- Braces that are open at the end of a comment and closed behind it show in the tokens, for one of
three texts between. -/
theorem braces_noticed {σ : Type} [Bindings σ] (q : Bool) {a : List Char} (short : '\n' ∉ a) (s : σ)
    {b : List Char} (first : '\n' ∉ b)
    (same : ∀ t ∈ [[], ['\n'], ['"']],
      scan 4 ('#' :: (a ++ escape q ((ofBraces (b ++ '\n' :: t)).evaluate s).1)) =
        scan 4 ('\n' :: (t ++ ['}']))) : False := by
  have shown {text t : List Char} (inside : '\n' ∉ text) :
      scan 4 ('#' :: (a ++ escape q (text ++ '\n' :: t))) = scan 4 ('\n' :: escape q t) := by
    have written : escape q (text ++ '\n' :: t) = escape q text ++ '\n' :: escape q t := by
      rw [escape, List.flatMap_append, List.flatMap_cons]
      cases q <;> rfl
    have long : '\n' ∉ a ++ escape q text := by
      simpa [Reading.linefeed_mem_escape] using ⟨short, inside⟩
    rw [written, ← List.append_assoc]
    exact scan_comment long _ 4
  have none := same [] (by simp)
  have feed := same ['\n'] (by simp)
  have quote := same ['"'] (by simp)
  obtain ⟨v, fixed⟩ | inside | ⟨text, inside, follows | closes⟩ := evaluate_ofBraces s first
  · rw [fixed] at none feed
    exact absurd (none.symm.trans feed) (by decide +kernel)
  · have long : '\n' ∉ a ++ escape q ((ofBraces (b ++ ['\n'])).evaluate s).1 := by
      simpa [Reading.linefeed_mem_escape] using ⟨short, inside []⟩
    rw [scan_unended_comment long] at none
    exact absurd none (by decide +kernel)
  · rw [follows, shown inside] at none
    change scan 4 ['\n'] = scan 4 ['\n', '}'] at none
    exact absurd none (by decide +kernel)
  · rw [closes, shown inside] at quote
    revert quote
    cases q <;> decide +kernel

end Token

/-! ### Comments among references -/

namespace Piece

variable {σ : Type} [Bindings σ]

/-- What a part of a line gives way to if it begins at a place, and the values afterwards. -/
def expandFrom (place : Text.Place) (s : σ) (cs : List Char) : List Char × σ :=
  expand s (ofLine place cs)

theorem expandFrom_append {place q : Text.Place} (s : σ) {cs ds : List Char}
    (whole : placeAfter? place cs = some q) (parted : Text.Parted cs ds) :
    expandFrom place s (cs ++ ds) =
      ((expandFrom place s cs).1 ++ (expandFrom q (expandFrom place s cs).2 ds).1,
        (expandFrom q (expandFrom place s cs).2 ds).2) := by
  rw [expandFrom, ofLine_append whole parted, expand_append]
  rfl

@[simp] theorem expandFrom_nil (place : Text.Place) (s : σ) : expandFrom place s [] = ([], s) := by
  rw [expandFrom, ofLine]
  rfl

theorem expandFrom_cons (place : Text.Place) (s : σ) {c : Char} (unmarked : isMark c = false)
    (cs : List Char) :
    expandFrom place s (c :: cs) =
      (c :: (expandFrom place s cs).1, (expandFrom place s cs).2) := by
  rw [expandFrom, ofLine_plain place unmarked]
  rfl

theorem expandFrom_linefeed (place : Text.Place) (s : σ) (cs : List Char) :
    expandFrom place s ('\n' :: cs) =
      ('\n' :: (expandFrom place s cs).1, (expandFrom place s cs).2) :=
  expandFrom_cons place s (by decide) cs

/-- A comment, and the line feed at its end. -/
def comment (c : List Char) : List Char := '#' :: (c ++ ['\n'])

theorem getLast?_comment (c : List Char) : (comment c).getLast? = some '\n' :=
  List.getLast?_concat (l := '#' :: c)

theorem count_comment (d : List Char) : (comment d).count '\n' = d.count '\n' + 1 := by
  simp [comment]

theorem exists_expandFrom_comment (place : Text.Place) (s : σ) (c : List Char) :
    ∃ d, (expandFrom place s (comment c)).1 = comment d := by
  have last : (c ++ ['\n']).getLast? = some '\n' := List.getLast?_concat
  obtain ⟨ps, eq⟩ := ofLine_linefeed place last
  refine ⟨(expand s ps).1, ?_⟩
  have pieces : ofLine place (comment c) = plain '#' :: (ps ++ [plain '\n']) := by
    rw [comment, ofLine_cons, ← eq]
    rfl
  rw [expandFrom, pieces, expand, expand_append]
  rfl

/-- A text that is read in another way at every place: outside quotes it is one word, in quotes it
is an operator between two words, the first of which counts as quoted in double quotes. -/
def probe : List Char := ['$', '{', ';', '}']

def probed : Text.Place → List Char
  | .bare => ['$', '{', '\\', ';', '}']
  | .single => ['$', '{', ';', '}']
  | .double => ['\\', '$', '{', ';', '}']

theorem expandFrom_probe (place : Text.Place) (s : σ) :
    expandFrom place s probe = (probed place, s) := by
  have pieces : ofLine place probe =
      match place with
      | .bare => [reference false (.literal probe)]
      | .single => probe.map plain
      | .double => [reference true (.literal probe)] := by
    cases place <;> decide +kernel
  rw [expandFrom, pieces]
  cases place <;> rfl

theorem eq_of_scan_probed {q q' : Text.Place}
    (h : Token.scan 5 ('\n' :: probed q) = Token.scan 5 ('\n' :: probed q')) : q = q' := by
  revert h
  cases q <;> cases q' <;> decide +kernel

/-- A comment that makes no difference at a place: behind it the same quotes are open as before and
no braces are, its references set nothing, and no value in it goes beyond the line. -/
structure Idle (place : Text.Place) (s : σ) (c : List Char) : Prop where
  quotes : placeAfter? place (comment c) = some place
  values : (expandFrom place s (comment c)).2 = s
  oneLine : (expandFrom place s (comment c)).1.count '\n' = 1

/-- A comment at a place goes unnoticed: whatever follows, the tokens and values are those that the
line feed at its end gives alone. -/
def Unnoticed (place : Text.Place) (s : σ) (c : List Char) : Prop :=
  ∀ r, (∀ budget, Token.scan budget (expandFrom place s (comment c ++ r)).1 =
      Token.scan budget (expandFrom place s ('\n' :: r)).1) ∧
    (expandFrom place s (comment c ++ r)).2 = (expandFrom place s ('\n' :: r)).2

theorem Idle.unnoticed {place : Text.Place} {s : σ} {c : List Char} (h : Idle place s c) :
    Unnoticed place s c := by
  obtain ⟨d, eq⟩ := exists_expandFrom_comment place s c
  have oneLine : '\n' ∉ d := by
    have count := h.oneLine
    rw [eq, count_comment] at count
    exact List.count_eq_zero.1 (Nat.succ.inj count)
  intro r
  have parts := expandFrom_append s h.quotes (Text.parted_of_linefeed (getLast?_comment c) r)
  rw [eq, h.values] at parts
  rw [parts, expandFrom_linefeed]
  refine ⟨fun budget => ?_, rfl⟩
  rw [comment, List.cons_append, List.append_assoc]
  exact Token.scan_comment oneLine _ budget

namespace Unnoticed

variable {place : Text.Place} {s : σ} {c : List Char}

theorem values (h : Unnoticed place s c) : (expandFrom place s (comment c)).2 = s := by
  obtain ⟨-, same⟩ := h []
  rw [List.append_nil, expandFrom_linefeed] at same
  rw [same, expandFrom_nil]

theorem oneLine (h : Unnoticed place s c) :
    ∃ d, '\n' ∉ d ∧ (expandFrom place s (comment c)).1 = comment d := by
  obtain ⟨d, eq⟩ := exists_expandFrom_comment place s c
  refine ⟨d, ?_, eq⟩
  obtain ⟨same, -⟩ := h []
  rw [List.append_nil, eq, expandFrom_linefeed, expandFrom_nil] at same
  exact Token.linefeed_not_mem_of_scan (same 2)

theorem quotes {q : Text.Place} (h : Unnoticed place s c)
    (whole : placeAfter? place (comment c) = some q) : q = place := by
  obtain ⟨d, oneLine, eq⟩ := h.oneLine
  obtain ⟨same, -⟩ := h probe
  rw [expandFrom_append s whole (Text.parted_of_linefeed (getLast?_comment c) _), h.values, eq,
    expandFrom_linefeed, expandFrom_probe, expandFrom_probe, comment, List.cons_append,
    List.append_assoc] at same
  exact eq_of_scan_probed ((Token.scan_comment oneLine _ 5).symm.trans (same 5))

/-- What a comment with open braces gives way to, up to them. -/
theorem exists_before_braces {ps : List Piece} {q : Text.Place} {body : List Char}
    (h : Unnoticed place s c) (outside : q ≠ .single) (last : body.getLast? = some '\n')
    (pieces : ofLine place (comment c) = ps ++ ofLine q ('$' :: '{' :: body)) :
    ∃ a, '\n' ∉ a ∧ (expand s ps).1 = '#' :: a := by
  obtain ⟨d, oneLine, eq⟩ := h.oneLine
  have feed : ('$' :: '{' :: body).getLast? = some '\n' := by
    rw [List.getLast?_cons, List.getLast?_cons, last]
    rfl
  obtain ⟨rest, ends⟩ := ofLine_linefeed q feed
  rw [expandFrom, pieces, ends, expand_append, expand_append, ← List.append_assoc] at eq
  have text : (expand s ps).1 ++ (expand (expand s ps).2 rest).1 = '#' :: d :=
    List.append_cancel_right (show _ ++ ['\n'] = ('#' :: d) ++ ['\n'] from eq)
  have short : '\n' ∉ (expand s ps).1 := by
    intro feed
    have : '\n' ∈ '#' :: d := text ▸ List.mem_append_left _ feed
    simp [oneLine] at this
  rw [comment, ofLine_cons] at pieces
  cases ps with
  | nil =>
    rw [ofLine_cons] at pieces
    cases q with
    | single => exact absurd rfl outside
    | bare | double => cases (List.cons.inj pieces).1
  | cons p ps =>
    cases (List.cons.inj pieces).1
    exact ⟨(expand s ps).1, fun feed => short (List.mem_cons_of_mem _ feed), rfl⟩

/-- Braces that are not closed in the comment take the line feed at its end with them as soon as
they are closed behind it. -/
theorem whole (h : Unnoticed place s c) (oneLine : '\n' ∉ c) :
    placeAfter? place (comment c) ≠ none := by
  intro cut
  obtain ⟨ps, q, body, outside, ⟨before, suffix⟩, last, inside, pieces⟩ :=
    exists_open (getLast?_comment c) cut
  have alone := pieces []
  rw [List.append_nil, List.append_nil] at alone
  obtain ⟨a, short, eq⟩ := h.exists_before_braces outside last alone
  obtain ⟨b, rfl⟩ := List.getLast?_eq_some_iff.1 last
  have first : '\n' ∉ b := by
    rw [← List.append_assoc] at suffix
    have same : before ++ b = '#' :: c := List.append_cancel_right suffix
    intro feed
    have : '\n' ∈ '#' :: c := same ▸ List.mem_append_right before feed
    simp [oneLine] at this
  refine Token.braces_noticed (decide (q = .double)) short (expand s ps).2 first fun t ht => ?_
  have plain : ofLine place (t ++ ['}']) = (t ++ ['}']).map plain ∧ '}' ∉ t := by
    simp only [List.mem_cons, List.not_mem_nil, or_false] at ht
    obtain rfl | rfl | rfl := ht <;> exact ⟨by cases place <;> decide +kernel, by decide⟩
  have closed : ofLine q ('$' :: '{' :: (b ++ ['\n'] ++ (t ++ ['}']))) =
      [reference (q = .double) (Reference.ofBraces (b ++ '\n' :: t))] := by
    have inside : '}' ∉ b ++ '\n' :: t := by simp_all
    have rest : b ++ ['\n'] ++ (t ++ ['}']) = (b ++ '\n' :: t) ++ '}' :: [] := by simp
    rw [rest, ofLine_dollar outside, Reference.read_braces inside, ofLine]
  obtain ⟨same, -⟩ := h (t ++ ['}'])
  specialize same 4
  rw [expandFrom_linefeed, expandFrom, expandFrom, pieces, closed, plain.1, expand_map_plain,
    expand_append, eq] at same
  rw [← same]
  simp [expand]

end Unnoticed

theorem unnoticed_iff_idle {place : Text.Place} {s : σ} {c : List Char} (oneLine : '\n' ∉ c) :
    Unnoticed place s c ↔ Idle place s c := by
  refine ⟨fun h => ?_, Idle.unnoticed⟩
  obtain ⟨q, whole⟩ := Option.ne_none_iff_exists'.1 (h.whole oneLine)
  obtain ⟨d, oneLine, eq⟩ := h.oneLine
  refine ⟨h.quotes whole ▸ whole, h.values, ?_⟩
  rw [eq, count_comment, List.count_eq_zero.2 oneLine]

theorem idle_of_plain (place : Text.Place) (s : σ) {c : List Char} (oneLine : '\n' ∉ c)
    (unmarked : ∀ x ∈ c, isMark x = false) : Idle place s c := by
  have all : ∀ x ∈ comment c, isMark x = false := by
    intro x hx
    simp only [comment, List.mem_cons, List.mem_append, List.not_mem_nil, or_false] at hx
    obtain rfl | hx | rfl := hx
    · decide
    · exact unmarked x hx
    · decide
  have kept : expandFrom place s (comment c) = (comment c, s) := by
    rw [expandFrom, ofLine_eq_map_plain place all, expand_map_plain]
  refine ⟨placeAfter?_plain place all, by rw [kept], ?_⟩
  rw [kept, count_comment, List.count_eq_zero.2 oneLine]

/-! ### Lines with a comment -/

/-- What a line gives way to whose second part begins with a comment or a line feed. -/
theorem expandFrom_behind {p : List Char} {place : Text.Place}
    (whole : placeAfter? .bare p = some place) (s : σ) {c : Char} (apart : c = '#' ∨ c = '\n')
    (r : List Char) :
    expandFrom .bare s (p ++ c :: r) =
      ((expandFrom .bare s p).1 ++ (expandFrom place (expandFrom .bare s p).2 (c :: r)).1,
        (expandFrom place (expandFrom .bare s p).2 (c :: r)).2) := by
  refine expandFrom_append s whole ?_
  rintro - - d ⟨⟩ -
  obtain rfl | rfl := apart <;> decide

theorem head?_expandFrom (place : Text.Place) (s : σ) {c : Char} (apart : c = '#' ∨ c = '\n')
    (r : List Char) : ∀ d ∈ (expandFrom place s (c :: r)).1.head?, d = '#' ∨ d = '\n' := by
  have unmarked : isMark c = false := by obtain rfl | rfl := apart <;> decide
  rw [expandFrom_cons place s unmarked]
  rintro d ⟨⟩
  exact apart

theorem unnoticed_behind_iff {p c : List Char} {place : Text.Place} {s : σ} {n : Nat}
    {ts : List Token} (whole : placeAfter? .bare p = some place)
    (tokens : Token.scan n (expandFrom .bare s p).1 = .ok (ts ++ [Token.eof]))
    (room : ts.length < n)
    (between : (Token.Reading.gap.read (expandFrom .bare s p).1).isBetween = true) :
    (∀ r, (∀ budget, Token.scan budget (expandFrom .bare s (p ++ (comment c ++ r))).1 =
        Token.scan budget (expandFrom .bare s (p ++ '\n' :: r)).1) ∧
      (expandFrom .bare s (p ++ (comment c ++ r))).2 = (expandFrom .bare s (p ++ '\n' :: r)).2) ↔
      Unnoticed place (expandFrom .bare s p).2 c := by
  refine forall_congr' fun r => ?_
  rw [comment, List.cons_append, expandFrom_behind whole s (.inl rfl),
    expandFrom_behind whole s (.inr rfl)]
  exact and_congr_left' (Token.scan_append_eq_iff tokens room between
    (head?_expandFrom place _ (.inl rfl) _) (head?_expandFrom place _ (.inr rfl) r))

end Piece

open Piece Token

/-- Where the first part of a line has no open end and the reader of tokens is between two of them
behind it, a comment there makes no difference to what follows if and only if it is idle. A comment
without backslashes, quotes and dollar signs always is. -/
theorem comment_inert_iff {σ : Type} [Bindings σ] (s : σ) {p c : String} {place : Text.Place}
    {limit : Nat} {ts : List Token} (whole : placeAfter? .bare p.toList = some place)
    (tokens : tokenize limit (expandReferences s p).1 = .ok ts) (left : ts.length < limit)
    (between : (Reading.gap.read (expandReferences s p).1.toList).isBetween = true)
    (oneLine : '\n' ∉ c.toList) :
    ((∀ (r : String) (limit : Nat),
      let commented := expandReferences s (p ++ "#" ++ c ++ "\n" ++ r)
      let plain := expandReferences s (p ++ "\n" ++ r)
      tokenize limit commented.1 = tokenize limit plain.1 ∧ commented.2 = plain.2) ↔
      Idle place (expandReferences s p).2 c.toList) ∧
    ((∀ x ∈ c.toList, isMark x = false) → Idle place (expandReferences s p).2 c.toList) := by
  have line (l : String) : (expandReferences s l).1.toList = (expandFrom .bare s l.toList).1 :=
    String.toList_ofList
  obtain ⟨body, rfl, -⟩ := scan_eq_append_eof tokens
  rw [line] at between
  rw [tokenize, line] at tokens
  have room : body.length < limit - 1 := by
    rw [List.length_append, List.length_singleton] at left
    omega
  have unnoticed := unnoticed_behind_iff (c := c.toList) whole tokens room between
  refine ⟨Iff.trans ?_ (unnoticed.trans (unnoticed_iff_idle oneLine)), idle_of_plain _ _ oneLine⟩
  have commented (r : String) : (p ++ "#" ++ c ++ "\n" ++ r).toList =
      p.toList ++ (comment c.toList ++ r.toList) := by simp [comment]
  have plain (r : String) : (p ++ "\n" ++ r).toList = p.toList ++ '\n' :: r.toList := by simp
  have values (l : String) : (expandReferences s l).2 = (expandFrom .bare s l.toList).2 := rfl
  simp only [tokenize, line, values, commented, plain]
  constructor
  · intro same r
    specialize same (String.ofList r)
    rw [String.toList_ofList] at same
    exact ⟨fun budget => (same (budget + 1)).1, (same 0).2⟩
  · intro same r limit
    obtain ⟨tokens, stores⟩ := same r.toList
    exact ⟨tokens (limit - 1), stores⟩

/-- A comment with quotes and a reference that makes no difference, behind a line with a reference;
and one with an apostrophe that does. -/
theorem comment_inert_iff_quoted :
    let s : Table String String := .ofList [("X", "a b")]
    let p := "echo $X; "
    placeAfter? .bare p.toList = some .bare ∧
      (∃ ts, tokenize 6 (expandReferences s p).1 = .ok ts ∧ ts.length < 6) ∧
      (Reading.gap.read (expandReferences s p).1.toList).isBetween = true ∧
      (∀ r limit, tokenize limit (expandReferences s (p ++ "#" ++ " \"$X\" or so" ++ "\n" ++ r)).1 =
        tokenize limit (expandReferences s (p ++ "\n" ++ r)).1) ∧
      ¬∀ r limit, tokenize limit (expandReferences s (p ++ "#" ++ " it's" ++ "\n" ++ r)).1 =
          tokenize limit (expandReferences s (p ++ "\n" ++ r)).1 ∧
        (expandReferences s (p ++ "#" ++ " it's" ++ "\n" ++ r)).2 =
          (expandReferences s (p ++ "\n" ++ r)).2 := by
  intro s p
  have whole : placeAfter? .bare p.toList = some .bare := by decide +kernel
  have tokens : tokenize 6 (expandReferences s p).1 =
      .ok [⟨.word, "echo", false⟩, ⟨.word, "a", false⟩, ⟨.word, "b", false⟩,
        Token.operator .semicolon ";", eof] := by decide +kernel
  have between : (Reading.gap.read (expandReferences s p).1.toList).isBetween = true := by
    decide +kernel
  have quoted : Idle .bare (expandReferences s p).2 " \"$X\" or so".toList :=
    ⟨by decide +kernel, by decide +kernel, by decide +kernel⟩
  have unquoted : ¬Idle .bare (expandReferences s p).2 " it's".toList := by
    intro idle
    exact absurd idle.quotes (by decide +kernel)
  obtain ⟨inert, -⟩ := comment_inert_iff s whole tokens (by decide) between
    (show '\n' ∉ " \"$X\" or so".toList by decide)
  obtain ⟨noticed, -⟩ := comment_inert_iff s whole tokens (by decide) between
    (show '\n' ∉ " it's".toList by decide)
  exact ⟨whole, ⟨_, tokens, by decide⟩, between, fun r limit => (inert.2 quoted r limit).1,
    fun same => unquoted (noticed.1 same)⟩

/-- An apostrophe in a comment keeps the reference in the next line from being replaced, and a
reference in a comment sets a variable. -/
theorem comments_are_noticed :
    let s : Table String String := .ofList [("X", "3")]
    (Reading.gap.read (expandReferences s "true ").1.toList).isBetween = true ∧
      tokenize 9 (expandReferences s "true # it's\nexit $X").1 ≠
        tokenize 9 (expandReferences s "true \nexit $X").1 ∧
      (expandReferences s "true # $\x7bY:=1\x7d\n").2 ≠ (expandReferences s "true \n").2 := by
  decide +kernel

end JobShell
