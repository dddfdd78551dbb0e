import JobShell.Grammar
import JobShell.Proofs.TokenStream

/-! Limits on a token stream. A stream that is cut short is a beginning of the whole one, and it is
so long that the grammar refuses it. -/
namespace JobShell.Token

/-! ### The size of words -/

namespace Draft

/-- The size that a draft keeps is that of its text. -/
def Measured (d : Draft) : Prop := d.toToken.text.utf8ByteSize = d.bytes

theorem measured_empty : empty.Measured := rfl

theorem Measured.push {d : Draft} (h : d.Measured) (c : Char) : (d.push c).Measured := by
  have text : (d.push c).toToken.text = d.toToken.text ++ String.singleton c := by
    simp [Draft.push, toToken]
  rw [Measured, text, String.utf8ByteSize_append, h, String.utf8ByteSize_singleton]
  rfl

theorem Measured.pushEscape {d : Draft} (h : d.Measured) (c : Char) :
    (d.pushEscape c).Measured := by
  unfold Draft.pushEscape
  split
  case h_8 => exact (h.push _).push _
  all_goals exact h.push _

end Draft

theorem bytes_le_of_complete {d : Draft} {next : Draft → Except ShellError (Token × List Char)}
    {found : Token × List Char} (h : scanWord.complete d next = .ok found) :
    d.bytes ≤ maxWordBytes := by
  unfold scanWord.complete at h
  split at h
  · cases h
  · next fits => exact Nat.le_of_not_lt fits

/-- A word is within the limit if the parts of it that have been completed are. -/
theorem size_scanWord {d : Draft} {place : Text.Place} {cs r : List Char} {t : Token}
    (h : scanWord d place cs = .ok (t, r)) (measured : d.Measured)
    (checked : place = .bare → d.bytes ≤ maxWordBytes) : t.text.utf8ByteSize ≤ maxWordBytes := by
  -- Inside quotes nothing has been checked; what closes them checks it.
  fun_induction scanWord d place cs with
  | case1 | case2 =>
    cases h
    exact Nat.le_trans (Nat.le_of_eq measured) (checked rfl)
  | case3 _ _ _ ih | case4 _ _ _ _ ih => exact ih h measured (by rintro ⟨⟩)
  | case5 =>
    have fits := bytes_le_of_complete h
    cases Reading.eq_ok_of_complete h
    exact Nat.le_trans (Nat.le_of_eq (measured.push _)) fits
  | case6 _ _ _ _ _ _ ih | case7 _ _ _ _ _ _ _ ih =>
    exact ih _ (Reading.eq_ok_of_complete h) (measured.push _) fun _ => bytes_le_of_complete h
  | case8 | case11 | case13 => cases h
  | case9 _ _ ih | case12 _ _ ih =>
    exact ih _ (Reading.eq_ok_of_complete h) measured fun _ => bytes_le_of_complete h
  | case10 _ _ _ _ ih | case15 _ _ _ _ _ ih => exact ih h (measured.push _) (by rintro ⟨⟩)
  | case14 _ _ _ _ ih => exact ih h (measured.pushEscape _) (by rintro ⟨⟩)

theorem size_operator? {cs r : List Char} {t : Token} (h : operator? cs = some (t, r)) :
    t.text.utf8ByteSize ≤ maxWordBytes := by
  unfold operator? at h
  split at h
  case h_14 => cases h
  all_goals
    cases h
    decide

theorem size_next? {cs r : List Char} {t : Token} (h : next? cs = .ok (some (t, r))) :
    t.text.utf8ByteSize ≤ maxWordBytes := by
  unfold next? at h
  split at h
  · cases h
  · next c ds _ =>
    split at h
    · next found =>
      cases h
      exact size_operator? found
    · cases hw : scanWord .empty .bare (c :: ds) with
      | error e => simp [hw, Except.map] at h
      | ok found =>
        simp only [hw, Except.map, Except.ok.injEq, Option.some.injEq] at h
        subst h
        exact size_scanWord hw Draft.measured_empty fun _ => Nat.zero_le _

/-! ### The number of tokens -/

/-- What a scan with some budget left gives: the end mark alone at the end of the line, or the next
token and what the rest of the budget gives. -/
theorem scan_succ_eq_ok {budget : Nat} {cs : List Char} {ts : List Token}
    (h : scan (budget + 1) cs = .ok ts) :
    next? cs = .ok none ∧ ts = [eof] ∨
      ∃ t r us, next? cs = .ok (some (t, r)) ∧ scan budget r = .ok us ∧ ts = t :: us := by
  rw [scan] at h
  split at h
  · cases h
  · next found =>
    cases h
    exact .inl ⟨found, rfl⟩
  · next t r found =>
    cases hr : scan budget r with
    | error e => simp [hr, Except.map] at h
    | ok us =>
      simp only [hr, Except.map, Except.ok.injEq] at h
      exact .inr ⟨t, r, us, found, hr, h.symm⟩

theorem scan_succ_of_next? {budget : Nat} {cs r : List Char} {t : Token} {us : List Token}
    (found : next? cs = .ok (some (t, r))) (rest : scan budget r = .ok us) :
    scan (budget + 1) cs = .ok (t :: us) := by
  rw [scan, found]
  simp only [rest, Except.map]

theorem length_scan_le {budget : Nat} {cs : List Char} {ts : List Token}
    (h : scan budget cs = .ok ts) : ts.length ≤ budget + 1 := by
  induction budget generalizing cs ts with
  | zero =>
    cases h
    decide
  | succ budget ih =>
    obtain ⟨-, rfl⟩ | ⟨t, r, us, -, rest, rfl⟩ := scan_succ_eq_ok h
    · simp
    · simpa using ih rest

theorem size_scan {budget : Nat} {cs : List Char} {ts : List Token} (h : scan budget cs = .ok ts) :
    ∀ t ∈ ts, t.text.utf8ByteSize ≤ maxWordBytes := by
  have size_eof : eof.text.utf8ByteSize ≤ maxWordBytes := by decide
  induction budget generalizing cs ts with
  | zero =>
    cases h
    simpa using size_eof
  | succ budget ih =>
    obtain ⟨-, rfl⟩ | ⟨t, r, us, found, rest, rfl⟩ := scan_succ_eq_ok h
    · simpa using size_eof
    · exact List.forall_mem_cons.2 ⟨size_next? found, ih rest⟩

/-! ### Two budgets -/

/-- A smaller budget gives a beginning of what a larger one gives. -/
theorem withoutEnds_prefix_of_le {budget more : Nat} (le : budget ≤ more) {cs : List Char}
    {ts us : List Token} (h : scan budget cs = .ok ts) (h' : scan more cs = .ok us) :
    withoutEnds ts <+: withoutEnds us := by
  induction budget generalizing more cs ts us with
  | zero =>
    cases h
    exact List.nil_prefix
  | succ budget ih =>
    obtain ⟨more, rfl⟩ : ∃ k, more = k + 1 := ⟨more - 1, by omega⟩
    obtain ⟨-, rfl⟩ | ⟨t, r, ts, found, rest, rfl⟩ := scan_succ_eq_ok h
    · exact List.nil_prefix
    obtain ⟨last, -⟩ | ⟨t', r', us, found', rest', rfl⟩ := scan_succ_eq_ok h'
    · rw [found] at last
      cases last
    -- Both take the same first token, whatever is left of their budgets.
    rw [found] at found'
    cases found'
    have kept : t.kind ≠ .eof := kind_of_next? found
    simp only [withoutEnds, List.filter_cons, decide_eq_true kept, if_true]
    exact List.cons_prefix_cons.2 ⟨rfl, ih (Nat.le_of_succ_le_succ le) rest rest'⟩

/-- A scan that leaves some of its budget has come to the end of the line. -/
theorem scan_eq_of_le {budget more : Nat} (le : budget ≤ more) {cs : List Char} {ts : List Token}
    (h : scan budget cs = .ok ts) (left : ts.length ≤ budget) : scan more cs = .ok ts := by
  induction budget generalizing more cs ts with
  | zero =>
    cases h
    cases left
  | succ budget ih =>
    obtain ⟨more, rfl⟩ : ∃ k, more = k + 1 := ⟨more - 1, by omega⟩
    obtain ⟨last, rfl⟩ | ⟨t, r, us, found, rest, rfl⟩ := scan_succ_eq_ok h
    · rw [scan, last]
    · exact scan_succ_of_next? found
        (ih (Nat.le_of_succ_le_succ le) rest (Nat.le_of_succ_le_succ left))

theorem length_lt_of_validate {limit : Nat} {ts : List Token}
    (h : Grammar.validate limit ts ≠ .tooManyTokens) : ts.length < limit := by
  by_contra long
  exact h (if_pos (Nat.le_of_not_lt long))

/-- A token stream ends in its only end mark and keeps to the limits on its length and on the size
of its texts. A higher limit only adds to it, and adds nothing unless the grammar refuses the stream
for its length: what the grammar passes is the whole line, with no fault left behind the last token
that has been read. -/
theorem tokenize_never_cuts_unseen {limit : Nat} {line : String} {ts : List Token}
    (read : tokenize limit line = .ok ts) :
    (∃ body, ts = body ++ [eof] ∧ ∀ t ∈ body, t.kind ≠ .eof) ∧
    ts.length ≤ max limit 1 ∧
    (∀ t ∈ ts, t.text.utf8ByteSize ≤ 4096) ∧
    (∀ higher ≥ limit, ∀ us, tokenize higher line = .ok us → withoutEnds ts <+: withoutEnds us) ∧
    (Grammar.validate limit ts ≠ .tooManyTokens →
      ∀ higher ≥ limit, tokenize higher line = .ok ts) := by
  have budgets {higher : Nat} (le : higher ≥ limit) : limit - 1 ≤ higher - 1 := by omega
  refine ⟨scan_eq_append_eof read, ?_, size_scan read, ?_, ?_⟩
  · have length := length_scan_le read
    omega
  · intro higher le us read'
    exact withoutEnds_prefix_of_le (budgets le) read read'
  · intro passed higher le
    have short : ts.length < limit := length_lt_of_validate passed
    exact scan_eq_of_le (budgets le) read (by omega)

/-- A limit of four cuts a line before an open quote, and the stream is refused for its length;
without what follows the line is read alike under every higher limit. -/
theorem tokenize_never_cuts_unseen_open_quote :
    (∃ ts, tokenize 4 "a | b 'c" = .ok ts ∧ ts.length ≤ 4 ∧
      Grammar.validate 4 ts = .tooManyTokens ∧
      tokenize 5 "a | b 'c" = .error (.unterminatedQuote '\'')) ∧
    ∃ ts, ∀ higher ≥ 5, tokenize higher "a | b" = .ok ts := by
  have cut : tokenize 4 "a | b 'c" =
      .ok [⟨.word, "a", false⟩, ⟨.pipe, "|", false⟩, ⟨.word, "b", false⟩, eof] := by decide +kernel
  have whole : tokenize 5 "a | b" =
      .ok [⟨.word, "a", false⟩, ⟨.pipe, "|", false⟩, ⟨.word, "b", false⟩, eof] := by decide +kernel
  exact ⟨⟨_, cut, (tokenize_never_cuts_unseen cut).2.1, by decide, by decide +kernel⟩,
    _, (tokenize_never_cuts_unseen whole).2.2.2.2 (by decide)⟩

end JobShell.Token
