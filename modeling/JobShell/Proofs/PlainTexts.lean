import JobShell.Proofs.UnquotedWords
import Mathlib.Data.List.TakeWhile

/-! Texts without quotes, backslashes and number signs. Their tokens hold all that is in them apart
from blanks: a word is a run of characters that nothing on either side prolongs, and an operator is
the longest one that can be read where it begins. -/
namespace JobShell.Token

/-! ### Tokens at their places -/

/-- The operators as they are written. -/
def operatorTokens : List Token :=
  [operator .newline "\n", operator .herestring "<<<", operator .heredoc "<<", operator .input "<",
    operator .append ">>", operator .output ">", operator .and "&&", operator .ampersand "&",
    operator .or "||", operator .pipe "|", operator .semicolon ";", operator .leftParen "(",
    operator .rightParen ")"]

/-- What a token is between the text before it and the text behind it. -/
inductive Stands (left right : List Char) : Token → Prop where
  /-- A run of characters that can be part of words, which neither text prolongs. -/
  | word {run : List Char} (some : run ≠ []) (inside : ∀ c ∈ run, isWordChar c = true)
    (first : ∀ c ∈ left.getLast?, isWordChar c = false)
    (last : ∀ c ∈ right.head?, isWordChar c = false) :
    Stands left right ⟨.word, String.ofList run, false⟩
  /-- The longest of the operators that can be read here. -/
  | operator {t : Token} (listed : t ∈ operatorTokens)
    (longest : ∀ u ∈ operatorTokens, u.text.toList <+: t.text.toList ++ right →
      u.text.length ≤ t.text.length) :
    Stands left right t

/-- A text without its blanks, line feeds apart. -/
def withoutBlanks (cs : List Char) : List Char := cs.filter fun c => !Text.isBlank c || c = '\n'

/-- The texts of some tokens, one behind the other. -/
def texts (ts : List Token) : List Char := ts.flatMap (·.text.toList)

theorem withoutBlanks_append (cs ds : List Char) :
    withoutBlanks (cs ++ ds) = withoutBlanks cs ++ withoutBlanks ds :=
  List.filter_append ..

theorem not_isWordChar_of_gap {gap : List Char} (blank : withoutBlanks gap = []) :
    ∀ c ∈ gap, isWordChar c = false := by
  intro c hc
  rw [← Bool.not_eq_true]
  intro inWord
  have kept : c ∈ withoutBlanks gap := by
    simp [withoutBlanks, hc, (isWordChar_iff.1 inWord).1]
  rw [blank] at kept
  cases kept

/-- No run of characters of words goes on from one text into the next. -/
def Apart (cs ds : List Char) : Prop :=
  ∀ c ∈ cs.getLast?, ∀ d ∈ ds.head?, isWordChar c = true → isWordChar d = false

namespace Stands

variable {left right : List Char} {t : Token} (h : Stands left right t)
include h

theorem text_ne_nil : t.text.toList ≠ [] := by
  cases h with
  | word some => simpa using some
  | operator listed =>
    have all : ∀ t ∈ operatorTokens, t.text.toList ≠ [] := by decide
    exact all t listed

theorem withoutBlanks_text : withoutBlanks t.text.toList = t.text.toList := by
  cases h with
  | word _ inside =>
    refine List.filter_eq_self.2 fun c hc => ?_
    rw [String.toList_ofList] at hc
    simp [(isWordChar_iff.1 (inside c hc)).1]
  | operator listed =>
    have all : ∀ t ∈ operatorTokens, withoutBlanks t.text.toList = t.text.toList := by decide
    exact all t listed

/-- Behind a word no character of a word follows, and an operator holds none. -/
theorem apart : Apart (left ++ t.text.toList) right := by
  intro c hc d hd inWord
  rw [List.getLast?_append_of_ne_nil _ h.text_ne_nil] at hc
  cases h with
  | word _ _ _ last => exact last d hd
  | operator listed =>
    have all : ∀ t ∈ operatorTokens, t.text.toList.all (!isWordChar ·) = true := by decide
    have outside := List.all_eq_true.1 (all t listed) c (List.mem_of_getLast? hc)
    rw [inWord] at outside
    cases outside

end Stands

/-! ### Texts laid out as tokens -/

/-- Behind another text, a text consists of some tokens, each as it stands there, and of blanks
before them and at the end. -/
inductive Laid : List Char → List Char → List Token → Prop where
  | blank {past gap : List Char} (blank : withoutBlanks gap = []) : Laid past gap []
  | token {past gap r : List Char} {t : Token} {ts : List Token} (blank : withoutBlanks gap = [])
    (stands : Stands (past ++ gap) r t) (rest : Laid (past ++ gap ++ t.text.toList) r ts) :
    Laid past (gap ++ (t.text.toList ++ r)) (t :: ts)

namespace Laid

theorem withoutBlanks_eq {past cs : List Char} {ts : List Token} (h : Laid past cs ts) :
    withoutBlanks cs = texts ts := by
  induction h with
  | blank blank => exact blank
  | token blank stands _ ih =>
    rw [withoutBlanks_append, withoutBlanks_append, blank, stands.withoutBlanks_text, ih]
    rfl

theorem length_le {past cs : List Char} {ts : List Token} (h : Laid past cs ts) :
    ts.length ≤ cs.length := by
  induction h with
  | blank => exact Nat.zero_le _
  | token _ stands _ ih =>
    have some := List.length_pos_iff.2 stands.text_ne_nil
    simp only [List.length_cons, List.length_append]
    omega

/-- The place of a token lies behind the texts of those before it and in front of the others. -/
theorem place {past cs : List Char} {ts before after : List Token} {t : Token}
    (h : Laid past cs ts) (eq : ts = before ++ t :: after) :
    ∃ left right, cs = left ++ t.text.toList ++ right ∧ withoutBlanks left = texts before ∧
      withoutBlanks right = texts after ∧ Stands (past ++ left) right t := by
  induction h generalizing before with
  | blank => simp at eq
  | @token past gap r u us blank stands rest ih =>
    cases before with
    | nil =>
      obtain ⟨rfl, rfl⟩ := List.cons.inj eq
      exact ⟨gap, r, by rw [List.append_assoc], blank, rest.withoutBlanks_eq, stands⟩
    | cons b before =>
      obtain ⟨rfl, later⟩ := List.cons.inj eq
      obtain ⟨left, right, rfl, texts_before, texts_after, stands'⟩ := ih later
      refine ⟨gap ++ (u.text.toList ++ left), right, ?_, ?_, texts_after, ?_⟩
      · simp only [List.append_assoc]
      · rw [withoutBlanks_append, withoutBlanks_append, blank, stands.withoutBlanks_text,
          texts_before]
        rfl
      · simpa only [List.append_assoc] using stands'

end Laid

/-! ### Reading plain texts -/

/-- A text without quotes, backslashes and number signs, in which no word is too long. -/
structure PlainText (cs : List Char) : Prop where
  bare : '\'' ∉ cs ∧ '"' ∉ cs ∧ '\\' ∉ cs ∧ '#' ∉ cs
  short : ∀ run, run <:+: cs → (∀ c ∈ run, isWordChar c = true) →
    (String.ofList run).utf8ByteSize ≤ maxWordBytes

theorem PlainText.of_suffix {cs ds : List Char} (h : PlainText cs) (suffix : ds <:+ cs) :
    PlainText ds where
  bare := by
    obtain ⟨single, double, backslash, sign⟩ := h.bare
    have kept {x : Char} (absent : x ∉ cs) : x ∉ ds := fun hx => absent (suffix.subset hx)
    exact ⟨kept single, kept double, kept backslash, kept sign⟩
  short run inner := h.short run (inner.trans suffix.isInfix)

theorem PlainText.ordinary {cs : List Char} (plain : PlainText cs) {c : Char} (hc : c ∈ cs)
    (inWord : isWordChar c = true) : Ordinary c := by
  obtain ⟨visible, inside⟩ := isWordChar_iff.1 inWord
  obtain ⟨single, double, backslash, -⟩ := plain.bare
  have other {x : Char} (absent : x ∉ cs) : c ≠ x := by
    rintro rfl
    exact absent hc
  exact ⟨visible, inside, other single, other double, other backslash⟩

/-- Without comments, all that is skipped is blank. -/
theorem exists_gap {cs : List Char} (sign : '#' ∉ cs) :
    ∃ gap, cs = gap ++ skip false cs ∧ withoutBlanks gap = [] := by
  induction cs with
  | nil => exact ⟨[], rfl, rfl⟩
  | cons c cs ih =>
    rw [List.mem_cons, not_or] at sign
    rw [skip]
    split
    · exact ⟨[], rfl, rfl⟩
    next feed =>
    split
    · next blank =>
      obtain ⟨gap, eq, none⟩ := ih sign.2
      rw [Bool.false_or] at blank
      refine ⟨c :: gap, by rw [List.cons_append, ← eq], ?_⟩
      rw [← none]
      exact List.filter_cons_of_neg (by simp [blank, feed])
    · rw [if_neg (Ne.symm sign.1)]
      exact ⟨[], rfl, rfl⟩

/-- The operator that is read is the longest one. -/
theorem length_le_of_operator? {cs r : List Char} {t : Token} (h : operator? cs = some (t, r)) :
    ∀ u ∈ operatorTokens, u.text.toList <+: cs → u.text.length ≤ t.text.length := by
  -- A shorter operator is read only where the text does not go on as the longer one does.
  have differs {x : Char} {more r : List Char} (longer : ∀ r', r = x :: r' → False) :
      ¬ x :: more <+: r := by
    rintro ⟨s, rfl⟩
    exact longer _ rfl
  unfold operator? at h
  split at h
  case h_14 => cases h
  case h_3 longer | h_4 longer | h_6 longer | h_8 longer | h_10 longer =>
    cases h
    simp +decide [operatorTokens, operator, differs longer]
  all_goals
    cases h
    simp +decide [operatorTokens, operator]

theorem stands_of_operator? {cs r : List Char} {t : Token} (h : operator? cs = some (t, r))
    (left : List Char) : cs = t.text.toList ++ r ∧ Stands left r t := by
  have read : cs = t.text.toList ++ r ∧ t ∈ operatorTokens := by
    unfold operator? at h
    split at h
    case h_14 => cases h
    all_goals
      cases h
      exact ⟨rfl, by decide⟩
  exact ⟨read.1, .operator read.2 (read.1 ▸ length_le_of_operator? h)⟩

/-- Where a word is to be read, it is the longest run of its characters. -/
theorem PlainText.exists_word {cs : List Char} (plain : PlainText cs) (begins : BeginsWord cs) :
    ∃ run r, cs = run ++ r ∧ run ≠ [] ∧ (∀ c ∈ run, isWordChar c = true) ∧ Breaks r ∧
      next? cs = .ok (some (⟨.word, String.ofList run, false⟩, r)) := by
  obtain ⟨run, r, rfl, inside, breaks⟩ : ∃ run r, cs = run ++ r ∧
      (∀ c ∈ run, isWordChar c = true) ∧ Breaks r := by
    refine ⟨cs.takeWhile isWordChar, cs.dropWhile isWordChar,
      List.takeWhile_append_dropWhile.symm, fun c hc => List.mem_takeWhile_imp hc, fun c hc => ?_⟩
    have ended := List.head?_dropWhile_not isWordChar cs
    rwa [Option.mem_def.1 hc] at ended
  have begins : BeginsWord run := begins.of_append breaks
  have ordinary (c : Char) (hc : c ∈ run) : Ordinary c :=
    plain.ordinary (List.mem_append_left r hc) (inside c hc)
  have spells : SpellsAs false run (String.ofList run).toList := by
    rw [String.toList_ofList]
    exact spellsAs_ordinary ordinary
  have short := plain.short run (List.prefix_append run r).isInfix inside
  have some : run ≠ [] := by
    obtain ⟨c, rest, rfl, -⟩ := begins
    exact List.cons_ne_nil c rest
  exact ⟨run, r, rfl, some, inside, breaks, spells.next?_of_breaks begins short breaks⟩

/-- Behind blanks, or where no run goes on, a run of characters of words has its beginning. -/
theorem Apart.begins {past gap r : List Char} {d : Char} (apart : Apart past (gap ++ d :: r))
    (blank : withoutBlanks gap = []) (inWord : isWordChar d = true) :
    ∀ c ∈ (past ++ gap).getLast?, isWordChar c = false := by
  intro c hc
  cases gap with
  | nil =>
    rw [List.append_nil] at hc
    rw [← Bool.not_eq_true]
    intro before
    exact absurd inWord (Bool.eq_false_iff.1 (apart c hc d rfl before))
  | cons b gap =>
    rw [List.getLast?_append_of_ne_nil _ (List.cons_ne_nil b gap)] at hc
    exact not_isWordChar_of_gap blank c (List.mem_of_getLast? hc)

/-- A plain text that is not blank has a first token, which stands behind blanks. -/
theorem PlainText.next? {past cs : List Char} (plain : PlainText cs) (apart : Apart past cs) :
    next? cs = .ok none ∧ withoutBlanks cs = [] ∨
      ∃ gap t r, next? cs = .ok (some (t, r)) ∧ cs = gap ++ (t.text.toList ++ r) ∧
        withoutBlanks gap = [] ∧ Stands (past ++ gap) r t := by
  obtain ⟨gap, eq, blank⟩ := exists_gap plain.bare.2.2.2
  cases skipped : skip false cs with
  | nil =>
    rw [skipped, List.append_nil] at eq
    exact .inl ⟨by rw [Token.next?, skipped], eq ▸ blank⟩
  | cons c ds =>
    rw [skipped] at eq
    right
    cases found : operator? (c :: ds) with
    | some pair =>
      obtain ⟨t, r⟩ := pair
      obtain ⟨read, stands⟩ := stands_of_operator? found (past ++ gap)
      refine ⟨gap, t, r, ?_, read ▸ eq, blank, stands⟩
      simp only [Token.next?, skipped, found]
    | none =>
      have begins := beginsWord_of_skip skipped found
      have same : Token.next? cs = Token.next? (c :: ds) := by
        rw [begins.next?]
        simp only [Token.next?, skipped, found]
      obtain ⟨run, r, read, some, inside, breaks, first⟩ :=
        (plain.of_suffix ⟨gap, eq.symm⟩).exists_word begins
      have inWord : isWordChar c = true := by
        obtain ⟨x, run, rfl⟩ := List.exists_cons_of_ne_nil some
        obtain ⟨rfl, -⟩ := List.cons.inj read
        exact inside c List.mem_cons_self
      rw [eq] at apart
      refine ⟨gap, _, r, same.trans first, ?_, blank,
        .word some inside (apart.begins blank inWord) breaks⟩
      rw [String.toList_ofList, ← read, ← eq]

/-- The tokens of a plain text are those that it is laid out as, if the budget allows for them. -/
theorem PlainText.scan {past cs : List Char} (plain : PlainText cs) (apart : Apart past cs) :
    ∃ ts, Laid past cs ts ∧ ∀ budget, ts.length ≤ budget → scan budget cs = .ok (ts ++ [eof]) := by
  -- The induction is on what is left of the text. No run of characters of words goes on across the
  -- place that has been reached, which every token leaves so.
  induction size : cs.length using Nat.strongRecOn generalizing past cs with
  | ind n ih =>
    obtain ⟨none, blank⟩ | ⟨gap, t, r, found, rfl, blank, stands⟩ := plain.next? apart
    · refine ⟨[], .blank blank, fun budget _ => ?_⟩
      cases budget with
      | zero => rfl
      | succ budget => rw [Token.scan, none, List.nil_append]
    · have suffix : r <:+ gap ++ (t.text.toList ++ r) :=
        (List.suffix_append _ r).trans (List.suffix_append gap _)
      have shorter : r.length < n := by
        have some := List.length_pos_iff.2 stands.text_ne_nil
        rw [← size, List.length_append, List.length_append]
        omega
      obtain ⟨ts, laid, scanned⟩ := ih _ shorter (plain.of_suffix suffix) stands.apart rfl
      refine ⟨t :: ts, .token blank stands laid, fun budget room => ?_⟩
      rw [List.length_cons] at room
      obtain ⟨budget, rfl⟩ : ∃ k, budget = k + 1 := ⟨budget - 1, by omega⟩
      exact scan_succ_of_next? found (scanned budget (Nat.le_of_succ_le_succ room))

theorem size_le_of_part {run cs : List Char} (h : run <:+: cs) :
    (String.ofList run).utf8ByteSize ≤ (String.ofList cs).utf8ByteSize := by
  obtain ⟨left, right, rfl⟩ := h
  rw [String.ofList_append, String.ofList_append, String.utf8ByteSize_append,
    String.utf8ByteSize_append]
  omega

/-- A line without quotes, backslashes and number signs, in which no run of characters of words is
longer than a word may be, is cut into tokens under every limit above their number, which its length
bounds. Their texts are the line without its blanks, line feeds apart. Each has its place in the
line: a word is a whole run of characters that are neither blanks nor parts of operators, and an
operator is the longest one that can be read behind the tokens before it. -/
theorem plain_lines_are_kept {line : String}
    (bare : '\'' ∉ line.toList ∧ '"' ∉ line.toList ∧ '\\' ∉ line.toList ∧ '#' ∉ line.toList)
    (short : ∀ run, run <:+: line.toList → (∀ c ∈ run, isWordChar c = true) →
      (String.ofList run).utf8ByteSize ≤ 4096) :
    ∃ body : List Token, body.length ≤ line.length ∧
      (∀ limit, body.length < limit → tokenize limit line = .ok (body ++ [eof])) ∧
      String.join ((body ++ [eof]).map Token.text) = String.ofList (withoutBlanks line.toList) ∧
      ∀ before t after, body = before ++ t :: after →
        ∃ left right, line.toList = left ++ t.text.toList ++ right ∧
          withoutBlanks left = texts before ∧ withoutBlanks right = texts after ∧
          Stands left right t := by
  have plain : PlainText line.toList := ⟨bare, short⟩
  have apart : Apart [] line.toList := by rintro _ ⟨⟩
  obtain ⟨body, laid, scanned⟩ := plain.scan apart
  refine ⟨body, ?_, fun limit room => ?_, ?_, fun before t after eq => ?_⟩
  · simpa only [String.length_toList] using laid.length_le
  · exact scanned (limit - 1) (by omega)
  · rw [laid.withoutBlanks_eq]
    refine String.toList_inj.1 ?_
    simp [texts, eof, operator, List.flatMap_map]
  · simpa only [List.nil_append] using laid.place eq

/-- Operators in a row, which are taken apart from the left, next to words, to a line feed and to
blanks of two kinds. -/
theorem plain_lines_are_kept_operators :
    ∃ body : List Token,
      (∀ limit, 18 < limit →
        tokenize limit "ls<<<<a&&&b\u00a0|||c>>>é ;(e)\n" = .ok (body ++ [eof])) ∧
      body.map Token.text = ["ls", "<<<", "<", "a", "&&", "&", "b", "||", "|", "c", ">>", ">", "é",
        ";", "(", "e", ")", "\n"] ∧
      String.join ((body ++ [eof]).map Token.text) = "ls<<<<a&&&b|||c>>>é;(e)\n" ∧
      ∃ left right, withoutBlanks left = "ls".toList ∧
        Stands left right (operator .herestring "<<<") := by
  have short (run : List Char) (inner : run <:+: "ls<<<<a&&&b\u00a0|||c>>>é ;(e)\n".toList)
      (_ : ∀ c ∈ run, isWordChar c = true) : (String.ofList run).utf8ByteSize ≤ 4096 :=
    (size_le_of_part inner).trans (by decide +kernel)
  obtain ⟨body, length, cut, joined, places⟩ := plain_lines_are_kept (by decide) short
  have read : tokenize 64 "ls<<<<a&&&b\u00a0|||c>>>é ;(e)\n" =
      .ok ([⟨.word, "ls", false⟩, ⟨.herestring, "<<<", false⟩, ⟨.input, "<", false⟩,
        ⟨.word, "a", false⟩, ⟨.and, "&&", false⟩, ⟨.ampersand, "&", false⟩, ⟨.word, "b", false⟩,
        ⟨.or, "||", false⟩, ⟨.pipe, "|", false⟩, ⟨.word, "c", false⟩, ⟨.append, ">>", false⟩,
        ⟨.output, ">", false⟩, ⟨.word, "é", false⟩, ⟨.semicolon, ";", false⟩,
        ⟨.leftParen, "(", false⟩, ⟨.word, "e", false⟩, ⟨.rightParen, ")", false⟩,
        ⟨.newline, "\n", false⟩] ++ [eof]) := by decide +kernel
  have room : body.length < 64 := length.trans_lt (by decide +kernel)
  obtain rfl := List.append_cancel_right (Except.ok.inj ((cut 64 room).symm.trans read))
  obtain ⟨left, right, -, before, -, stands⟩ := places [_] _ _ rfl
  exact ⟨_, cut, rfl, joined.trans (by decide +kernel), left, right, before, stands⟩

end JobShell.Token
