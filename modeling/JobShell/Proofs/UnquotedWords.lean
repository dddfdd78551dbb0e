import JobShell.Proofs.QuotedWords

/-! Words that are not marked as quoted, and lines that hold no other words. The tokens of such a
line, set apart by spaces, are cut into tokens of the same kinds again, about which the grammar says
the same. -/
namespace JobShell.Token

open Reading (eq_ok_of_complete)

/-! ### The text of an unquoted word -/

theorem quoted_scanWord {d : Draft} {place : Text.Place} {cs r : List Char} {t : Token}
    (h : scanWord d place cs = .ok (t, r)) (quoted : d.quoted = true) : t.quoted = true := by
  fun_induction scanWord d place cs with
  | case1 | case2 =>
    cases h
    exact quoted
  | case3 _ _ _ ih | case4 _ _ _ _ ih => exact ih h rfl
  | case5 =>
    cases eq_ok_of_complete h
    exact quoted
  | case6 _ _ _ _ _ _ ih => exact ih _ (eq_ok_of_complete h) rfl
  | case7 _ _ _ _ _ _ _ ih | case9 _ _ ih | case12 _ _ ih =>
    exact ih _ (eq_ok_of_complete h) quoted
  | case8 | case11 | case13 => cases h
  | case10 _ _ _ _ ih | case15 _ _ _ _ _ ih => exact ih h quoted
  | case14 d e r _ ih =>
    refine ih h ?_
    unfold Draft.pushEscape
    split <;> exact quoted

/-- Whether a character stands for itself inside a word that is not quoted. -/
structure Ordinary (c : Char) : Prop where
  notBlank : Text.isBlank c = false
  notOperator : isOperatorChar c = false
  notQuote : c ≠ '\'' ∧ c ≠ '"' ∧ c ≠ '\\'

theorem spellsAs_ordinary {cs : List Char} (h : ∀ c ∈ cs, Ordinary c) : SpellsAs false cs cs := by
  induction cs with
  | nil => exact spellsAs_nil
  | cons c cs ih =>
    obtain ⟨ordinary, others⟩ := List.forall_mem_cons.1 h
    have first : SpellsAs false [c] [c] := by
      intro d rest fits
      obtain ⟨single, double, backslash⟩ := ordinary.notQuote
      rw [List.singleton_append, scanWord.eq_def]
      simp only [ordinary.notBlank, ordinary.notOperator, single, double, backslash, Bool.or_self,
        Bool.false_eq_true, if_false]
      rw [Draft.push_eq_extend, complete_extend fits]
    exact first.append (ih others)

/-- What a word that is not quoted ends in, and what follows it: a blank or an operator, if anything
does. A backslash can be part of it only if nothing follows. -/
inductive Tail : List Char → List Char → Prop where
  | plain {r : List Char} (stops : ∀ c ∈ r.head?, (Text.isBlank c || isOperatorChar c) = true) :
    Tail [] r
  | backslash : Tail ['\\'] []

/-- A word that is not marked as quoted consists of ordinary characters, up to a last backslash. -/
theorem scanWord_unquoted {d : Draft} {cs r : List Char} {t : Token}
    (h : scanWord d .bare cs = .ok (t, r)) (unquoted : t.quoted = false) :
    ∃ run tail, cs = run ++ tail ++ r ∧ (∀ c ∈ run, Ordinary c) ∧ Tail tail r ∧
      t = (d.extend false (run ++ tail)).toToken := by
  have unmarked {e : Draft} {place : Text.Place} {cs : List Char} (marked : e.quoted = true)
      (h : scanWord e place cs = .ok (t, r)) : False :=
    Bool.false_ne_true (unquoted.symm.trans (quoted_scanWord h marked))
  have ended (d : Draft) {r : List Char} (tail : Tail [] r) : ∃ run tail, r = run ++ tail ++ r ∧
      (∀ c ∈ run, Ordinary c) ∧ Tail tail r ∧ d.toToken = (d.extend false (run ++ tail)).toToken :=
    ⟨[], [], rfl, List.forall_mem_nil _, tail, by rw [List.append_nil, Draft.extend_nil]⟩
  induction cs generalizing d with
  | nil =>
    cases h
    exact ended d (.plain (by simp))
  | cons c cs ih =>
    rw [scanWord.eq_def] at h
    dsimp only at h
    split at h
    · next stops =>
      cases h
      exact ended d (.plain (by simpa using stops))
    next inside =>
    split at h
    · exact (unmarked rfl h).elim
    next single =>
    split at h
    · exact (unmarked rfl h).elim
    next double =>
    split at h
    · next backslash =>
      subst backslash
      cases cs with
      | nil =>
        cases eq_ok_of_complete h
        refine ⟨[], ['\\'], rfl, List.forall_mem_nil _, .backslash, ?_⟩
        rw [Draft.push_eq_extend, List.nil_append]
      | cons e cs => exact (unmarked rfl (eq_ok_of_complete h)).elim
    · next backslash =>
      obtain ⟨run, tail, rfl, ordinary, ends, rfl⟩ := ih (eq_ok_of_complete h)
      simp only [Bool.or_eq_true, not_or, Bool.not_eq_true] at inside
      refine ⟨c :: run, tail, rfl, ?_, ends, ?_⟩
      · exact List.forall_mem_cons.2 ⟨⟨inside.1, inside.2, single, double, backslash⟩, ordinary⟩
      · rw [Draft.extend_push, List.cons_append]

/-- A word that is not marked as quoted was read from a text without quotes. -/
theorem no_quotes_of_unquoted {d : Draft} {cs r : List Char} {t : Token}
    (h : scanWord d .bare cs = .ok (t, r)) (unquoted : t.quoted = false) :
    ∃ read, cs = read ++ r ∧ '\'' ∉ read ∧ '"' ∉ read := by
  obtain ⟨run, tail, rfl, ordinary, ends, -⟩ := scanWord_unquoted h unquoted
  have other {x : Char} (quote : ¬ Ordinary x) (last : x ≠ '\\') : x ∉ run ++ tail := by
    rw [List.mem_append, not_or]
    refine ⟨fun hx => quote (ordinary x hx), ?_⟩
    cases ends with
    | plain => exact List.not_mem_nil
    | backslash => simpa using last
  exact ⟨run ++ tail, rfl, other (fun h => h.notQuote.1 rfl) (by decide),
    other (fun h => h.notQuote.2.1 rfl) (by decide)⟩

/-! ### Reading it again -/

theorem outline_word {t : Token} (word : t.kind = .word) : t.outline = (.word, "") := by
  rw [outline, if_pos word, word]

theorem beginsWord_of_skip {comment : Bool} {cs r : List Char} {c : Char}
    (skipped : skip comment cs = c :: r) (none : operator? (c :: r) = none) :
    BeginsWord (c :: r) := by
  have inWord : isOperatorChar c = false := by
    rw [← Bool.not_eq_true]
    intro listed
    simp only [isOperatorChar, List.contains_eq_mem, List.mem_cons, List.not_mem_nil, or_false,
      decide_eq_true_eq] at listed
    have begins := Reading.begins?_eq_none_of_operator? none
    rcases listed with rfl | rfl | rfl | rfl | rfl | rfl | rfl <;> cases begins
  rcases Reading.skip_eq_cons skipped with rfl | ⟨visible, sign⟩
  · cases none
  · exact ⟨c, r, rfl, visible, inWord, sign⟩

/-- A token, in front of a space, is read as one of its kind. Unless the space becomes part of it,
it is left over; if it does, nothing else follows in the line that the token comes from. -/
def Rereads (t : Token) (r : List Char) : Prop :=
  ∃ u : Token, u.outline = t.outline ∧
    ((∀ rest, next? (t.text.toList ++ ' ' :: rest) = .ok (some (u, ' ' :: rest))) ∨
      r = [] ∧ next? (t.text.toList ++ [' ']) = .ok (some (u, [])))

theorem rereads_operator {cs r : List Char} {t : Token} (h : operator? cs = some (t, r)) :
    t.Rereads r := by
  refine ⟨t, rfl, .inl fun rest => ?_⟩
  unfold operator? at h
  split at h
  case h_14 => cases h
  all_goals
    cases h
    rfl

/-- An unquoted word is read as itself, or it ends in a backslash, which makes the space behind it
a part of the word. -/
theorem rereads_word {cs r : List Char} {t : Token} (begins : BeginsWord cs)
    (h : scanWord .empty .bare cs = .ok (t, r)) (unquoted : t.quoted = false)
    (size : t.text.utf8ByteSize ≤ maxWordBytes) : t.Rereads r := by
  obtain ⟨run, tail, rfl, ordinary, ends, rfl⟩ := scanWord_unquoted h unquoted
  have token : (Draft.empty.extend false (run ++ tail)).toToken =
      ⟨.word, String.ofList (run ++ tail), false⟩ := by
    simpa using Draft.toToken_extend false (String.ofList (run ++ tail))
  rw [token] at size ⊢
  cases ends with
  | plain stops =>
    rw [List.append_nil] at size begins ⊢
    have breaks : Breaks r := fun c hc => by rw [isWordChar, stops c hc, Bool.not_true]
    have begins : BeginsWord run := begins.of_append breaks
    refine ⟨⟨.word, String.ofList run, false⟩, rfl, .inl fun rest => ?_⟩
    have spells : SpellsAs false run (String.ofList run).toList := by
      rw [String.toList_ofList]
      exact spellsAs_ordinary ordinary
    have space : Stops (' ' :: rest) := Ends.stops (.inr ⟨rest, rfl⟩)
    rw [String.toList_ofList]
    exact spells.next? begins size space
  | backslash =>
    refine ⟨⟨.word, String.ofList (run ++ [' ']), true⟩, outline_word rfl, .inr ⟨rfl, ?_⟩⟩
    have spells : SpellsAs true (run ++ ['\\', ' ']) (String.ofList (run ++ [' '])).toList := by
      rw [String.toList_ofList]
      exact (spellsAs_ordinary ordinary).append spellsAs_backslash
    have size : (String.ofList (run ++ [' '])).utf8ByteSize ≤ maxWordBytes := by
      rw [String.ofList_append, String.utf8ByteSize_append] at size ⊢
      exact size
    have begins : BeginsWord (run ++ ['\\', ' ']) := by
      simpa using begins.append [' ']
    have ended : Stops [] := by simp [Stops]
    simpa using spells.next? begins size ended

theorem rereads_next? {cs r : List Char} {t : Token} (h : next? cs = .ok (some (t, r)))
    (unquoted : t.quoted = false) : t.Rereads r := by
  have size := size_next? h
  unfold next? at h
  split at h
  · cases h
  next c ds skipped =>
  split at h
  · next found operator =>
    cases h
    exact rereads_operator operator
  · next none =>
    cases scanned : scanWord .empty .bare (c :: ds) with
    | error e => simp [scanned, Except.map] at h
    | ok found =>
      simp only [scanned, Except.map, Except.ok.injEq, Option.some.injEq] at h
      subst h
      exact rereads_word (beginsWord_of_skip skipped none) scanned unquoted size

/-! ### Streams -/

/-- The tokens of a stream, set apart by spaces. -/
def joined (ts : List Token) : String := " ".intercalate (ts.map Token.text)

theorem toList_joined (ts : List Token) :
    (joined ts).toList = [' '].intercalate (ts.map (·.text.toList)) := by
  simp [joined, String.toList_intercalate, Function.comp_def]

/-- Behind every token of a stream, its end mark apart, stand a space and the rest of the stream. -/
theorem toList_joined_cons (t : Token) {ts : List Token} (some : ts ≠ []) :
    (joined (t :: ts)).toList = t.text.toList ++ ' ' :: (joined ts).toList := by
  obtain ⟨u, us, rfl⟩ := List.exists_cons_of_ne_nil some
  simp [toList_joined, List.intercalate_cons_cons]

theorem scan_joined {budget : Nat} {cs : List Char} {ts : List Token}
    (h : scan budget cs = .ok ts) (plain : ∀ t ∈ ts, t.quoted = false) :
    ∃ us, scan budget (joined ts).toList = .ok us ∧ us.map outline = ts.map outline := by
  induction budget generalizing cs ts with
  | zero =>
    cases h
    exact ⟨[eof], rfl, rfl⟩
  | succ budget ih =>
    obtain ⟨-, rfl⟩ | ⟨t, r, ts, found, rest, rfl⟩ := scan_succ_eq_ok h
    · exact ⟨[eof], scan_nil _, rfl⟩
    obtain ⟨unquoted, others⟩ := List.forall_mem_cons.1 plain
    obtain ⟨body, rfl, -⟩ := scan_eq_append_eof rest
    rw [toList_joined_cons t (by simp)]
    obtain ⟨u, same, again | ⟨rfl, again⟩⟩ := rereads_next? found unquoted
    · obtain ⟨us, later, outlines⟩ := ih rest others
      rw [← scan_space] at later
      exact ⟨u :: us, scan_succ_of_next? (again _) later, by simp [same, outlines]⟩
    · -- Nothing but the end mark follows a word that ends in a backslash.
      rw [scan_nil, Except.ok.injEq] at rest
      rw [← rest]
      exact ⟨[u, eof], scan_succ_of_next? again (scan_nil _), by simp [same]⟩

/-- If no token of a stream is marked as quoted, its texts with single spaces between them, that of
the end mark included, are read under the same limit, as tokens of the same kinds, and the grammar
gives the same verdict on them, down to the message. -/
theorem unquoted_streams_reread {limit : Nat} {line : String} {ts : List Token}
    (read : tokenize limit line = .ok ts) (plain : ∀ t ∈ ts, t.quoted = false) :
    ∃ us, tokenize limit (" ".intercalate (ts.map Token.text)) = .ok us ∧
      us.map Token.kind = ts.map Token.kind ∧
      ∀ bound, Grammar.validate bound us = Grammar.validate bound ts := by
  obtain ⟨us, again, outlines⟩ := scan_joined read plain
  have kinds : us.map Token.kind = ts.map Token.kind := by
    simpa [Function.comp_def, outline] using congrArg (List.map Prod.fst) outlines
  exact ⟨us, again, kinds, Grammar.validate_outline outlines⟩

/-- A comment, a line feed, operators next to words and to each other, and a last backslash, which
makes a quoted word of the space behind it; and the beginning of the line under a lower limit. -/
theorem unquoted_streams_reread_backslash :
    (∃ ts us, tokenize 9 "ls>>f#1|& # c\n\\" = .ok ts ∧ (∀ t ∈ ts, t.quoted = false) ∧
      " ".intercalate (ts.map Token.text) = "ls >> f#1 | & \n \\ " ∧
      tokenize 9 "ls >> f#1 | & \n \\ " = .ok us ∧ us.map Token.kind = ts.map Token.kind ∧
      us ≠ ts ∧ Grammar.validate 9 us = .refused (.unexpected "&")) ∧
    ∃ us, tokenize 4 "ls >> f#1 " = .ok us ∧ us.map Token.kind = [.word, .append, .word, .eof] ∧
      Grammar.validate 4 us = .tooManyTokens := by
  have read : tokenize 9 "ls>>f#1|& # c\n\\" =
      .ok [⟨.word, "ls", false⟩, ⟨.append, ">>", false⟩, ⟨.word, "f#1", false⟩, ⟨.pipe, "|", false⟩,
        ⟨.ampersand, "&", false⟩, ⟨.newline, "\n", false⟩, ⟨.word, "\\", false⟩, eof] := by
    decide +kernel
  have cut : tokenize 4 "ls>>f#1|& # c\n\\" =
      .ok [⟨.word, "ls", false⟩, ⟨.append, ">>", false⟩, ⟨.word, "f#1", false⟩, eof] := by
    decide +kernel
  obtain ⟨us, again, kinds, verdicts⟩ := unquoted_streams_reread read (by decide)
  obtain ⟨vs, again', kinds', verdicts'⟩ := unquoted_streams_reread cut (by decide)
  refine ⟨⟨_, us, read, by decide, by decide +kernel, again, kinds, ?_, ?_⟩,
    vs, again', kinds', (verdicts' 4).trans (by decide)⟩
  · rintro rfl
    exact absurd again (by decide +kernel)
  · exact (verdicts 9).trans (by decide)

end JobShell.Token
