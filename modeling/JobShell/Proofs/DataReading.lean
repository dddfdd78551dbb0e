import JobShell.Expansion.Reference
import JobShell.Proofs.OperatorReading

/-! How values are read once they have been put into a line, and how the reader of tokens and the
reader of references agree about the quotes of a line. -/
namespace JobShell
namespace Token.Reading

open Reference (escape needsEscape)

/-- How a character changes the quoting, for a reader that knows of no tokens. -/
def quoting : Reading → Char → Reading
  | bare, c => inWord c
  | r, c => r.step c

/-- The quoting of a reading outside comments. -/
def flat : Reading → Reading
  | gap | operator _ => bare
  | r => r

/-- The reading behind a character that stands for itself. -/
def afterData (c : Char) : Reading :=
  if c = '\n' then operator .newline else if Text.isBlank c then gap else bare

@[simp] theorem flat_afterData (c : Char) : (afterData c).flat = bare := by
  unfold afterData
  split
  · rfl
  · split <;> rfl

theorem isOperatorChar_eq_false {c : Char} (h : needsEscape false c = false) :
    isOperatorChar c = false := by
  simp only [needsEscape, isOperatorChar, Bool.false_eq_true, if_false, List.contains_eq_mem,
    List.mem_cons, List.not_mem_nil, or_false, decide_eq_false_iff_not, not_or] at h ⊢
  tauto

theorem inWord_eq_bare {c : Char} (h : needsEscape false c = false) : inWord c = bare := by
  simp only [needsEscape, Bool.false_eq_true, if_false, List.contains_eq_mem, List.mem_cons,
    List.not_mem_nil, or_false, decide_eq_false_iff_not, not_or] at h
  simp [inWord, h]

theorem start_eq_afterData {c : Char} (h : needsEscape false c = false) :
    start c = afterData c := by
  by_cases hn : c = '\n'
  · subst hn
    rfl
  · have hs : begins? c = none := begins?_eq_none hn (isOperatorChar_eq_false h)
    have hh : c ≠ '#' := by
      rintro rfl
      exact absurd h (by decide)
    simp [start, afterData, hs, hn, hh, inWord_eq_bare h]

theorem grows?_eq_none {c : Char} (kind : Kind) (h : isOperatorChar c = false) :
    grows? kind c = none := by
  unfold grows?
  split
  case h_6 => rfl
  all_goals exact absurd h (by decide)

/-- Outside quotes it does not matter whether a word, a gap or an operator comes before. -/
theorem step_of_flat {r : Reading} (hr : r.flat = bare) {c : Char} (ho : isOperatorChar c = false)
    (hc : c ≠ '#') : r.step c = start c ∧ r.emit c = r.pending := by
  cases r with
  | gap => exact ⟨rfl, rfl⟩
  | bare =>
    refine ⟨?_, rfl⟩
    by_cases hb : Text.isBlank c = true
    · simp [step, hb]
    · have hn : c ≠ '\n' := by
        rintro rfl
        exact hb (by decide)
      simp [step, start, hb, ho, hc, begins?_eq_none hn ho]
  | operator kind => simp [step, emit, pending, grows?_eq_none kind ho]
  | _ => cases hr

/-- Outside quotes a character of a value is read as itself, and completes what was pending. -/
theorem read_dataChar {r : Reading} (hr : r.flat = bare) (c : Char) :
    r.read (escape false [c]) = afterData c ∧ r.emitted (escape false [c]) = r.pending := by
  cases hc : needsEscape false c with
  | true =>
    have hdata : afterData c = bare := by
      simp only [needsEscape, Bool.false_eq_true, if_false, List.contains_eq_mem, List.mem_cons,
        List.not_mem_nil, or_false, decide_eq_true_eq] at hc
      rcases hc with rfl | rfl | rfl | rfl | rfl | rfl | rfl | rfl | rfl | rfl | rfl <;> decide
    obtain ⟨hs, he⟩ := step_of_flat (c := '\\') hr (by decide) (by decide)
    have hstart : start '\\' = escaped := by decide
    have hbare : escaped.step c = bare ∧ escaped.emit c = [] := ⟨rfl, rfl⟩
    simp [escape, hc, hs, he, hstart, hbare, hdata, emitted]
  | false =>
    have hh : c ≠ '#' := by
      rintro rfl
      exact absurd hc (by decide)
    obtain ⟨hs, he⟩ := step_of_flat hr (isOperatorChar_eq_false hc) hh
    simp [escape, hc, hs, he, start_eq_afterData hc, emitted]

theorem escape_cons (q : Bool) (c : Char) (v : List Char) :
    escape q (c :: v) = escape q [c] ++ escape q v := by
  simp [escape]

/-- Outside quotes the only operators in a value are its line feeds. -/
theorem operators_data {r : Reading} (hr : r.flat = bare) (v : List Char) :
    r.operators (escape false v) = r.pending ++ List.replicate (v.count '\n') .newline ∧
      (r.read (escape false v)).flat = bare := by
  induction v generalizing r with
  | nil => simpa [escape] using hr
  | cons c v ih =>
    obtain ⟨hread, hemit⟩ := read_dataChar hr c
    obtain ⟨hops, hflat⟩ := ih (flat_afterData c)
    rw [escape_cons, operators_append, read_append, hread, hemit, hops]
    refine ⟨?_, hflat⟩
    by_cases hc : c = '\n'
    · subst hc
      simp [afterData, pending, List.replicate_succ]
    · have hp : (afterData c).pending = [] := by
        unfold afterData
        rw [if_neg hc]
        split <;> rfl
      simp [hp, List.count_cons_of_ne hc]

/-- Behind a value that does not end in a line feed, a word goes on or has come to its end. -/
theorem read_data {r : Reading} (hr : r.flat = bare) {v : List Char} (hv : v ≠ [])
    (hn : '\n' ∉ v) : r.emitted (escape false v) = r.pending ∧
      (r.read (escape false v) = gap ∨ r.read (escape false v) = bare) := by
  induction v generalizing r with
  | nil => exact absurd rfl hv
  | cons c v ih =>
    obtain ⟨hread, hemit⟩ := read_dataChar hr c
    have hc : c ≠ '\n' := fun h => hn (by simp [h])
    have hafter : afterData c = gap ∨ afterData c = bare := by
      unfold afterData
      rw [if_neg hc]
      split
      · exact Or.inl rfl
      · exact Or.inr rfl
    rw [escape_cons, emitted_append, read_append, hread, hemit]
    cases v with
    | nil => simpa [escape, emitted] using hafter
    | cons d v =>
      obtain ⟨he, hr'⟩ := ih (flat_afterData c) (by simp) (fun h => hn (by simp [h]))
      have hp : (afterData c).pending = [] := by
        rcases hafter with h | h <;> rw [h] <;> rfl
      rw [he, hp, List.append_nil]
      exact ⟨rfl, hr'⟩

theorem linefeed_mem_escape {q : Bool} {v : List Char} : '\n' ∈ escape q v ↔ '\n' ∈ v := by
  induction v with
  | nil => simp [escape]
  | cons c v ih =>
    rw [escape_cons, List.mem_append, ih, List.mem_cons]
    refine or_congr_left ?_
    simp only [escape, List.flatMap_cons, List.flatMap_nil, List.append_nil]
    split <;> simp

theorem read_comment (cs : List Char) (hn : '\n' ∉ cs) :
    comment.read cs = comment ∧ comment.emitted cs = [] := by
  induction cs with
  | nil => exact ⟨rfl, rfl⟩
  | cons c cs ih =>
    have hc : c ≠ '\n' := fun h => hn (by simp [h])
    have hs : comment.step c = comment := by simp [step, hc]
    obtain ⟨hr, he⟩ := ih (fun h => hn (by simp [h]))
    simp [hs, hr, he, emitted, emit]

/-- In double quotes a value is read as it is, whatever it holds. -/
theorem read_double (v : List Char) :
    double.read (escape true v) = double ∧ double.emitted (escape true v) = [] := by
  induction v with
  | nil => exact ⟨rfl, rfl⟩
  | cons c v ih =>
    have hc : double.read (escape true [c]) = double ∧ double.emitted (escape true [c]) = [] := by
      cases hq : needsEscape true c with
      | true => simp [escape, hq, step, emitted, emit]
      | false =>
        have hd : c ≠ '"' ∧ c ≠ '\\' := by
          constructor
          · rintro rfl
            exact absurd hq (by decide)
          · rintro rfl
            exact absurd hq (by decide)
        simp [escape, hq, step, emitted, emit, hd]
    rw [escape_cons, read_append, emitted_append, hc.1, hc.2, ih.1, ih.2]
    exact ⟨rfl, rfl⟩

/-! ### The quoting that both readers see -/

theorem inWord_eq_bare_of_begins? {c : Char} {kind : Kind} (h : begins? c = some kind) :
    inWord c = bare := by
  unfold begins? at h
  split at h
  case h_9 => cases h
  all_goals decide

theorem inWord_eq_bare_of_isBlank {c : Char} (h : Text.isBlank c = true) : inWord c = bare := by
  unfold inWord
  split
  · next hc => exact absurd (hc ▸ h) (by decide)
  · split
    · next hc => exact absurd (hc ▸ h) (by decide)
    · split
      · next hc => exact absurd (hc ▸ h) (by decide)
      · rfl

theorem flat_inWord (c : Char) : (inWord c).flat = inWord c := by
  unfold inWord
  repeat' split
  all_goals rfl

theorem flat_start {c : Char} (h : start c ≠ comment) : (start c).flat = inWord c := by
  unfold start at h ⊢
  split
  · next kind hk => exact (inWord_eq_bare_of_begins? hk).symm
  · next hk =>
    simp only [hk] at h
    split
    · next hb => exact (inWord_eq_bare_of_isBlank hb).symm
    · next hb =>
      split
      · next hc =>
        rw [if_neg hb, if_pos hc] at h
        exact absurd rfl h
      · exact flat_inWord c

theorem inWord_eq_bare_of_grows? {c : Char} {kind more : Kind} (h : grows? kind c = some more) :
    inWord c = bare := by
  rcases grows?_eq_some h with ⟨-, rfl⟩ | ⟨-, rfl⟩ | ⟨-, rfl⟩ | ⟨-, rfl⟩ <;> decide

/-- Outside comments a reader of tokens sees the quoting that a reader without tokens sees. -/
theorem flat_step {r : Reading} {c : Char} (hr : r ≠ comment) (hc : r.step c ≠ comment) :
    (r.step c).flat = r.flat.quoting c := by
  cases r with
  | gap => exact flat_start hc
  | comment => exact absurd rfl hr
  | bare =>
    simp only [step] at hc ⊢
    split
    · next h =>
      rw [if_pos h] at hc
      exact flat_start hc
    · exact flat_inWord c
  | escaped => rfl
  | single => by_cases hq : c = '\'' <;> simp [flat, quoting, step, hq]
  | double =>
    by_cases hq : c = '"'
    · simp [flat, quoting, step, hq]
    · by_cases hb : c = '\\' <;> simp [flat, quoting, step, hq, hb]
  | doubleEscaped => rfl
  | operator kind =>
    simp only [step] at hc ⊢
    cases hg : grows? kind c with
    | none =>
      rw [hg] at hc
      exact flat_start hc
    | some more => exact (inWord_eq_bare_of_grows? hg).symm

theorem eq_double_of_flat {r : Reading} (h : r.flat = double) : r = double := by
  cases r <;> simp_all [flat]

theorem ne_double_of_flat {r : Reading} (h : r.flat = bare) : r ≠ double := by
  rintro rfl
  cases h

/-- A reading in a comment, or one with the given quoting. -/
def Agrees (q r : Reading) : Prop := r = comment ∨ r.flat = q

theorem count_data {r : Reading} (hr : Agrees bare r) (v : List Char) :
    (r.operators (escape false v)).count .newline = r.pending.count .newline + v.count '\n' ∧
      Agrees bare (r.read (escape false v)) := by
  rcases hr with rfl | hr
  -- In a comment, all is skipped up to a line feed of the value, behind which it is data again.
  · induction v with
    | nil => exact ⟨rfl, Or.inl rfl⟩
    | cons c v ih =>
      rw [escape_cons, operators_append, read_append]
      by_cases hc : c = '\n'
      · subst hc
        have hs : comment.read (escape false ['\n']) = operator .newline ∧
            comment.emitted (escape false ['\n']) = [] := by decide
        obtain ⟨hops, hflat⟩ := operators_data (r := operator .newline) rfl v
        rw [hs.1, hs.2, hops]
        exact ⟨by simp [pending], Or.inr hflat⟩
      · have hn : '\n' ∉ escape false [c] := by
          rw [linefeed_mem_escape]
          simpa using Ne.symm hc
        obtain ⟨hs, he⟩ := read_comment _ hn
        rw [hs, he, List.nil_append, List.count_cons_of_ne hc]
        exact ih
  · obtain ⟨hops, hflat⟩ := operators_data hr v
    exact ⟨by simp [hops], Or.inr hflat⟩

theorem pending_inWord (c : Char) : (inWord c).pending = [] := by
  unfold inWord
  repeat' split
  all_goals rfl

theorem count_start (c : Char) :
    (start c).pending.count .newline = if c = '\n' then 1 else 0 := by
  by_cases hc : c = '\n'
  · subst hc
    rfl
  · rw [if_neg hc]
    unfold start
    split
    · next kind hk =>
      have hkind : kind ≠ .newline := by
        unfold begins? at hk
        split at hk
        case h_1 => exact absurd rfl hc
        case h_9 => cases hk
        all_goals cases hk; decide
      simp [pending, hkind]
    · split
      · rfl
      · split
        · rfl
        · rw [pending_inWord]
          rfl

theorem inWord_ne_comment (c : Char) : inWord c ≠ comment := by
  unfold inWord
  repeat' split
  all_goals simp

theorem start_ne_comment {c : Char} (hc : c ≠ '#') : start c ≠ comment := by
  unfold start
  split
  · simp
  · simp only [hc, if_false]
    split
    · simp
    · exact inWord_ne_comment c

/-- Only a number sign begins a comment. -/
theorem step_ne_comment {r : Reading} (hr : r ≠ comment) {c : Char} (hc : c ≠ '#') :
    r.step c ≠ comment := by
  have hstart : start c ≠ comment := start_ne_comment hc
  cases r with
  | gap => exact hstart
  | comment => exact absurd rfl hr
  | bare =>
    rw [step]
    split
    · exact hstart
    · exact inWord_ne_comment c
  | escaped => simp [step]
  | single =>
    rw [step]
    split <;> simp
  | double =>
    rw [step]
    repeat' split
    all_goals simp
  | doubleEscaped => simp [step]
  | operator kind =>
    rw [step]
    cases grows? kind c with
    | none => exact hstart
    | some more => simp

/-- A line feed is an operator exactly outside quotes, as both readers see them. -/
theorem count_plain {q r : Reading} (h : Agrees q r) {c : Char}
    (hend : r = comment → c = '\n' → q = bare) :
    (r.operators [c]).count .newline =
      r.pending.count .newline + if c = '\n' ∧ q = bare then 1 else 0 := by
  rw [operators_cons, operators_nil, List.count_append]
  rcases h with rfl | rfl
  · by_cases hc : c = '\n'
    · simp [step, emit, pending, hc, hend rfl hc]
    · simp [step, emit, pending, hc]
  · cases r with
    | gap =>
      simp only [step, count_start]
      simp [emit, pending, flat]
    | bare =>
      by_cases hw : (Text.isBlank c || isOperatorChar c) = true
      · simp only [step, hw, if_true, count_start]
        simp [emit, pending, flat]
      · have hc : c ≠ '\n' := by
          rintro rfl
          exact hw (by decide)
        have hp : (bare.step c).pending = [] := by
          simp only [step, if_neg hw, pending_inWord]
        rw [hp]
        simp [emit, pending, hc]
    | operator kind =>
      cases hg : grows? kind c with
      | none =>
        simp only [step, emit, hg, Option.map_none, Option.getD_none, count_start]
        simp [pending, flat]
      | some more =>
        unfold grows? at hg
        split at hg
        case h_6 => cases hg
        all_goals
          cases hg
          decide
    | comment =>
      have hc : c ≠ '\n' := fun hc => by simpa [flat] using hend rfl hc
      simp [step, emit, pending, hc]
    | escaped => simp [step, emit, pending, flat]
    | doubleEscaped => simp [step, emit, pending, flat]
    | single => by_cases hq : c = '\'' <;> simp [step, emit, pending, flat, hq]
    | double =>
      by_cases hq : c = '"'
      · simp [step, emit, pending, flat, hq]
      · by_cases hb : c = '\\' <;> simp [step, emit, pending, flat, hq, hb]

theorem agrees_plain {q r : Reading} (h : Agrees q r) {c : Char}
    (hend : r = comment → c = '\n' → q = bare) : Agrees (q.quoting c) (r.step c) := by
  by_cases hr : r = comment
  · subst hr
    by_cases hc : c = '\n'
    · subst hc
      rw [hend rfl rfl]
      exact Or.inr (by decide)
    · exact Or.inl (by simp [step, hc])
  · by_cases hs : r.step c = comment
    · exact Or.inl hs
    · refine Or.inr ?_
      rw [flat_step hr hs, h.resolve_left hr]

/-- Readings that differ at most in whether a word has come to its end. -/
def Close (r r' : Reading) : Prop :=
  r = r' ∨ (r = gap ∨ r = bare) ∧ (r' = gap ∨ r' = bare)

namespace Close

theorem flat {r r' : Reading} (h : Close r r') : r.flat = r'.flat := by
  rcases h with rfl | ⟨rfl | rfl, rfl | rfl⟩ <;> rfl

theorem pending {r r' : Reading} (h : Close r r') : r.pending = r'.pending := by
  rcases h with rfl | ⟨rfl | rfl, rfl | rfl⟩ <;> rfl

theorem eq_comment {r' : Reading} (h : Close comment r') : r' = comment := by
  rcases h with rfl | ⟨h | h, -⟩
  · rfl
  · cases h
  · cases h

theorem eq_double {r' : Reading} (h : Close double r') : r' = double := by
  rcases h with rfl | ⟨h | h, -⟩
  · rfl
  · cases h
  · cases h

end Close

/-- Whether a word has come to its end matters only to a comment. -/
theorem step_gap {c : Char} (hc : c ≠ '#') : gap.step c = bare.step c := by
  by_cases hw : (Text.isBlank c || isOperatorChar c) = true
  · simp [step, hw]
  · simp only [Bool.or_eq_true, not_or, Bool.not_eq_true] at hw
    have hn : c ≠ '\n' := by
      rintro rfl
      exact absurd hw.1 (by decide)
    simp [step, start, begins?_eq_none hn hw.2, hw.1, hw.2, hc]

theorem Close.next {r r' : Reading} (h : Close r r') {c : Char}
    (hc : c = '#' → (r.step c = comment ↔ r'.step c = comment)) :
    r.emit c = r'.emit c ∧ r.step c = r'.step c := by
  rcases h with rfl | ⟨hr, hr'⟩
  · exact ⟨rfl, rfl⟩
  · by_cases hh : c = '#'
    · subst hh
      have hg : gap.step '#' = comment := by decide
      have hb : bare.step '#' = bare := by decide
      have hsame := hc rfl
      rcases hr with rfl | rfl <;> rcases hr' with rfl | rfl <;> simp_all [emit]
    · have hstep := step_gap hh
      rcases hr with rfl | rfl <;> rcases hr' with rfl | rfl <;> simp [hstep, emit]

end Token.Reading
end JobShell
