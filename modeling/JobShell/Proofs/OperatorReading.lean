import JobShell.Token.Lexer
import Mathlib.Tactic.Common

/-! Reading the operators of a line one character at a time, without keeping the text of its words.
The tokens of a line hold exactly the operators that this reader gives. -/
namespace JobShell.Token

/-- What the characters read so far amount to. -/
inductive Reading where
  /-- Between two tokens. -/
  | gap
  | comment
  /-- In a word, outside quotes. -/
  | bare
  /-- Behind a backslash outside quotes. -/
  | escaped
  | single
  | double
  /-- Behind a backslash in double quotes. -/
  | doubleEscaped
  /-- Behind an operator, which may still grow. -/
  | operator (kind : Kind)
  deriving DecidableEq, Repr

namespace Reading

/-- The operator that a character begins. -/
def begins? (c : Char) : Option Kind :=
  match c with
  | '\n' => some .newline
  | '<' => some .input
  | '>' => some .output
  | '&' => some .ampersand
  | '|' => some .pipe
  | ';' => some .semicolon
  | '(' => some .leftParen
  | ')' => some .rightParen
  | _ => none

/-- The operator that one grows into by a character. -/
def grows? (kind : Kind) (c : Char) : Option Kind :=
  match kind, c with
  | .input, '<' => some .heredoc
  | .heredoc, '<' => some .herestring
  | .output, '>' => some .append
  | .ampersand, '&' => some .and
  | .pipe, '|' => some .or
  | _, _ => none

def inWord (c : Char) : Reading :=
  if c = '\'' then single else if c = '"' then double else if c = '\\' then escaped else bare

/-- Begins a token, or goes on without one. -/
def start (c : Char) : Reading :=
  match begins? c with
  | some kind => operator kind
  | none => if Text.isBlank c then gap else if c = '#' then comment else inWord c

def step : Reading → Char → Reading
  | gap, c => start c
  | comment, c => if c = '\n' then operator .newline else comment
  | bare, c => if Text.isBlank c || isOperatorChar c then start c else inWord c
  | escaped, _ => bare
  | single, c => if c = '\'' then bare else single
  | double, c => if c = '"' then bare else if c = '\\' then doubleEscaped else double
  | doubleEscaped, _ => double
  | operator kind, c => ((grows? kind c).map operator).getD (start c)

/-- The operator that a character completes by not belonging to it. -/
def emit : Reading → Char → List Kind
  | operator kind, c => if (grows? kind c).isSome then [] else [kind]
  | _, _ => []

/-- The operator that is complete if nothing follows. -/
def pending : Reading → List Kind
  | operator kind => [kind]
  | _ => []

def read (r : Reading) (cs : List Char) : Reading := cs.foldl step r

/-- The operators that are complete before the last character read. -/
def emitted : Reading → List Char → List Kind
  | _, [] => []
  | r, c :: cs => r.emit c ++ (r.step c).emitted cs

/-- All operators of what is still to be read. -/
def operators (r : Reading) (cs : List Char) : List Kind := r.emitted cs ++ (r.read cs).pending

@[simp] theorem read_nil (r : Reading) : r.read [] = r := rfl

@[simp] theorem read_cons (r : Reading) (c : Char) (cs : List Char) :
    r.read (c :: cs) = (r.step c).read cs := rfl

theorem read_append (r : Reading) (cs ds : List Char) :
    r.read (cs ++ ds) = (r.read cs).read ds := by
  simp [read]

theorem emitted_append (r : Reading) (cs ds : List Char) :
    r.emitted (cs ++ ds) = r.emitted cs ++ (r.read cs).emitted ds := by
  induction cs generalizing r with
  | nil => rfl
  | cons c cs ih => simp [emitted, ih]

@[simp] theorem operators_nil (r : Reading) : r.operators [] = r.pending := rfl

theorem operators_cons (r : Reading) (c : Char) (cs : List Char) :
    r.operators (c :: cs) = r.emit c ++ (r.step c).operators cs := by
  simp [operators, emitted]

theorem operators_append (r : Reading) (cs ds : List Char) :
    r.operators (cs ++ ds) = r.emitted cs ++ (r.read cs).operators ds := by
  simp [operators, emitted_append, read_append]

/-- An operator that does not grow is complete, and a new token begins. -/
theorem operators_operator {kind : Kind} {cs : List Char}
    (h : ∀ c ds, cs = c :: ds → grows? kind c = none) :
    (operator kind).operators cs = kind :: gap.operators cs := by
  cases cs with
  | nil => rfl
  | cons c cs =>
    have hc : grows? kind c = none := h c cs rfl
    simp [operators_cons, emit, step, hc]

/-! ### Agreement with the tokens of a line -/

theorem kind_of_operator? {cs r : List Char} {t : Token} (h : operator? cs = some (t, r)) :
    t.kind ≠ .word ∧ t.kind ≠ .eof := by
  unfold operator? at h
  split at h <;> cases h <;> exact ⟨by decide, by decide⟩

theorem not_isOperatorChar_of_isBlank {c : Char} (h : Text.isBlank c = true) :
    isOperatorChar c = false := by
  by_contra hc
  simp only [isOperatorChar, List.contains_eq_mem, List.mem_cons, List.not_mem_nil, or_false,
    decide_eq_true_eq, Bool.not_eq_false] at hc
  rcases hc with rfl | rfl | rfl | rfl | rfl | rfl | rfl <;> exact absurd h (by decide)

theorem begins?_eq_none {c : Char} (hn : c ≠ '\n') (ho : isOperatorChar c = false) :
    begins? c = none := by
  unfold begins?
  split
  case h_1 => exact absurd rfl hn
  case h_9 => rfl
  all_goals exact absurd ho (by decide)

/-- Blanks and comments hold no operators. -/
theorem operators_skip (comment : Bool) (cs : List Char) :
    gap.operators (skip comment cs) =
      (if comment then Reading.comment else gap).operators cs := by
  induction cs generalizing comment with
  | nil => cases comment <;> rfl
  | cons c cs ih =>
    rw [skip]
    split
    · next hc =>
      subst hc
      cases comment <;> simp [operators_cons, emit, step, start, begins?]
    · next hc =>
      cases comment with
      | true => simp [ih, operators_cons, emit, step, hc]
      | false =>
        simp only [Bool.false_or, Bool.false_eq_true, if_false]
        split
        · next hb =>
          have hs : begins? c = none := begins?_eq_none hc (not_isOperatorChar_of_isBlank hb)
          simp [ih, operators_cons, emit, step, start, hs, hb]
        · next hb =>
          split
          · next hh =>
            subst hh
            simp [ih, operators_cons, emit, step, start, begins?, hb]
          · rfl

theorem grows?_eq_some {kind k : Kind} {c : Char} (h : grows? kind c = some k) :
    (kind = .input ∨ kind = .heredoc) ∧ c = '<' ∨ kind = .output ∧ c = '>' ∨
      kind = .ampersand ∧ c = '&' ∨ kind = .pipe ∧ c = '|' := by
  unfold grows? at h
  split at h
  case h_6 => cases h
  all_goals simp

/-- The longest operator at the head of a line is the first one read. -/
theorem operators_operator? {cs r : List Char} {t : Token} (h : operator? cs = some (t, r)) :
    gap.operators cs = t.kind :: gap.operators r := by
  unfold operator? at h
  split at h
  case h_14 => cases h
  all_goals
    cases h
    refine Eq.trans ?_ (operators_operator ?_)
    · rfl
    intro c ds he
    subst he
  -- Five of the operators may grow, and the pattern above them says that they do not.
  case h_3.refl | h_4.refl | h_6.refl | h_8.refl | h_10.refl =>
    rename_i hc
    have hne := fun h => hc ds (congrArg (· :: ds) h)
    apply Option.eq_none_iff_forall_ne_some.2
    intro k hk
    exact hne (by simpa [Token.operator] using grows?_eq_some hk)
  all_goals rfl

theorem begins?_eq_none_of_operator? {c : Char} {r : List Char} (h : operator? (c :: r) = none) :
    begins? c = none := by
  unfold operator? at h
  split at h
  case h_14 feed _ _ less _ greater _ ampersand _ bar semicolon opening closing =>
    unfold begins?
    split
    · exact (feed r rfl).elim
    · exact (less r rfl).elim
    · exact (greater r rfl).elim
    · exact (ampersand r rfl).elim
    · exact (bar r rfl).elim
    · exact (semicolon r rfl).elim
    · exact (opening r rfl).elim
    · exact (closing r rfl).elim
    · rfl
  all_goals cases h

/-- Where a token begins that is no operator, it is read as if inside a word. -/
theorem operators_word {c : Char} {r : List Char} (hb : Text.isBlank c = false) (hc : c ≠ '#')
    (h : operator? (c :: r) = none) : gap.operators (c :: r) = bare.operators (c :: r) := by
  have hs : begins? c = none := begins?_eq_none_of_operator? h
  have hstart : start c = inWord c := by simp [start, hs, hb, hc]
  simp [operators_cons, emit, step, hstart]

def ofPlace : Text.Place → Reading
  | .bare => bare
  | .single => single
  | .double => double

theorem eq_ok_of_complete {d : Draft} {next : Draft → Except ShellError (Token × List Char)}
    {found : Token × List Char} (h : scanWord.complete d next = .ok found) : next d = .ok found := by
  unfold scanWord.complete at h
  split at h
  · cases h
  · exact h

/-- A word holds no operators, and behind it a new token begins. -/
theorem operators_scanWord {d : Draft} {place : Text.Place} {cs r : List Char} {t : Token}
    (h : scanWord d place cs = .ok (t, r)) :
    t.kind = .word ∧ (ofPlace place).operators cs = gap.operators r := by
  -- A step of the scan is one of the reader, or two where a backslash takes a character with it.
  fun_induction scanWord d place cs with
  | case1 d =>
    cases h
    exact ⟨rfl, rfl⟩
  | case2 d c cs hc =>
    cases h
    refine ⟨rfl, ?_⟩
    simp [ofPlace, operators_cons, emit, step, hc]
  | case3 d cs hc ih => exact ih h
  | case4 d cs hc _ ih => exact ih h
  | case5 d hc =>
    cases eq_ok_of_complete h
    exact ⟨rfl, rfl⟩
  | case6 d e cs hc _ _ ih => exact ih _ (eq_ok_of_complete h)
  | case7 d c cs hc h₁ h₂ h₃ ih =>
    obtain ⟨hk, ho⟩ := ih _ (eq_ok_of_complete h)
    refine ⟨hk, ho ▸ ?_⟩
    simp [ofPlace, operators_cons, emit, step, hc, inWord, h₁, h₂, h₃]
  | case8 => cases h
  | case9 d cs ih => exact ih _ (eq_ok_of_complete h)
  | case10 d c cs hc ih =>
    obtain ⟨hk, ho⟩ := ih h
    refine ⟨hk, ho ▸ ?_⟩
    simp [ofPlace, operators_cons, emit, step, hc]
  | case11 => cases h
  | case12 d cs ih => exact ih _ (eq_ok_of_complete h)
  | case13 => cases h
  | case14 d e cs _ ih => exact ih h
  | case15 d c cs h₁ h₂ ih =>
    obtain ⟨hk, ho⟩ := ih h
    refine ⟨hk, ho ▸ ?_⟩
    simp [ofPlace, operators_cons, emit, step, h₁, h₂]

/-- What stays of a line when blanks and comments are dropped begins with neither. -/
theorem skip_eq_cons {comment : Bool} {cs r : List Char} {c : Char}
    (h : skip comment cs = c :: r) : c = '\n' ∨ Text.isBlank c = false ∧ c ≠ '#' := by
  fun_induction skip comment cs with
  | case1 => cases h
  | case2 =>
    cases h
    exact Or.inl rfl
  | case3 _ _ _ _ _ ih => exact ih h
  | case4 _ _ _ _ ih => exact ih h
  | case5 comment c' cs hn hb hc =>
    cases h
    simp only [Bool.or_eq_true, not_or, Bool.not_eq_true] at hb
    exact Or.inr ⟨hb.2, hc⟩

theorem operators_next? {cs r : List Char} {t : Token} (h : next? cs = .ok (some (t, r))) :
    gap.operators cs = (if t.kind = .word then [] else [t.kind]) ++ gap.operators r := by
  have hskip := operators_skip false cs
  simp only [Bool.false_eq_true, if_false] at hskip
  rw [← hskip]
  unfold next? at h
  split at h
  · cases h
  · next c ds hcs =>
    rw [hcs]
    split at h
    · next found ho =>
      cases h
      rw [if_neg (kind_of_operator? ho).1]
      exact operators_operator? ho
    · next ho =>
      cases hw : scanWord .empty .bare (c :: ds) with
      | error e => simp [hw, Except.map] at h
      | ok found =>
        obtain ⟨u, rest⟩ := found
        simp only [hw, Except.map, Except.ok.injEq, Option.some.injEq, Prod.mk.injEq] at h
        obtain ⟨rfl, rfl⟩ := h
        obtain ⟨hk, hr⟩ := operators_scanWord hw
        rw [if_pos hk, List.nil_append, ← hr]
        -- A word is scanned as if one had begun already, which its first character allows.
        rcases skip_eq_cons hcs with rfl | ⟨hb, hc⟩
        · simp [operator?] at ho
        · exact operators_word hb hc ho

theorem operators_next?_none {cs : List Char} (h : next? cs = .ok none) :
    gap.operators cs = [] := by
  have hskip := operators_skip false cs
  simp only [Bool.false_eq_true, if_false] at hskip
  rw [← hskip]
  unfold next? at h
  split at h
  · next hcs =>
    rw [hcs]
    rfl
  · next c ds _ =>
    split at h
    · cases h
    · cases hw : scanWord .empty .bare (c :: ds) <;> simp [hw, Except.map] at h

end Reading

/-- The kinds of the tokens other than words, in order. -/
def operatorKinds (ts : List Token) : List Kind := (ts.map (·.kind)).filter (· ≠ .word)

/-- The tokens of a line that is not cut short hold the operators read in it, and an end mark. -/
theorem operatorKinds_scan {budget : Nat} {cs : List Char} {ts : List Token}
    (h : scan budget cs = .ok ts) (hlen : ts.length ≤ budget) :
    operatorKinds ts = Reading.gap.operators cs ++ [.eof] := by
  fun_induction scan budget cs generalizing ts with
  | case1 =>
    -- A stream that is cut short is longer than the budget.
    cases h
    simp at hlen
  | case2 => cases h
  | case3 budget cs hn =>
    cases h
    rw [Reading.operators_next?_none hn]
    rfl
  | case4 budget cs t r hn ih =>
    cases hr : scan budget r with
    | error e => simp [hr, Except.map] at h
    | ok us =>
      simp only [hr, Except.map, Except.ok.injEq] at h
      subst h
      have hu : operatorKinds us = Reading.gap.operators r ++ [.eof] := ih hr (by simpa using hlen)
      rw [Reading.operators_next? hn, List.append_assoc, ← hu]
      by_cases hk : t.kind = .word <;> simp [operatorKinds, hk]

theorem operatorKinds_tokenize {limit : Nat} {line : String} {ts : List Token}
    (h : tokenize limit line = .ok ts) (hlen : ts.length < limit) :
    operatorKinds ts = Reading.gap.operators line.toList ++ [.eof] :=
  operatorKinds_scan h (by omega)

end JobShell.Token
