import JobShell.Proofs.FilledLine
import JobShell.Proofs.TokenLimits

/-! Quoted words are read back as they were. A listing of tokens is cut into the same tokens again,
and a listing of arguments into those arguments. -/
namespace JobShell
namespace Token

open Text (Styles escapeDouble writeChunk quoteChunks quoteChars)

/-! ### Parts of words -/

namespace Draft

/-- The draft with some more characters, and marked as quoted if they were. -/
def extend (d : Draft) (quoted : Bool) (cs : List Char) : Draft :=
  ⟨cs.reverse ++ d.chars, d.bytes + (String.ofList cs).utf8ByteSize, d.quoted || quoted⟩

theorem extend_nil (d : Draft) : d.extend false [] = d := by
  rw [extend, Bool.or_false]
  rfl

theorem extend_extend (d : Draft) (quoted quoted' : Bool) (cs ds : List Char) :
    (d.extend quoted cs).extend quoted' ds = d.extend (quoted || quoted') (cs ++ ds) := by
  simp [extend, String.ofList_append, String.utf8ByteSize_append, Nat.add_assoc, Bool.or_assoc]

theorem push_eq_extend (d : Draft) (c : Char) : d.push c = d.extend false [c] := by
  simp [push, extend]

theorem markQuoted_eq_extend (d : Draft) : d.markQuoted = d.extend true [] := by
  simp [markQuoted, extend]

theorem extend_push (d : Draft) (c : Char) (cs : List Char) :
    (d.push c).extend false cs = d.extend false (c :: cs) := by
  rw [push_eq_extend, extend_extend]
  rfl

theorem toToken_extend (quoted : Bool) (word : String) :
    (empty.extend quoted word.toList).toToken = ⟨.word, word, quoted⟩ := by
  simp [toToken, extend, empty]

/-- Whether some more characters fit into a word. -/
def Fits (d : Draft) (cs : List Char) : Prop :=
  d.bytes + (String.ofList cs).utf8ByteSize ≤ maxWordBytes

theorem fits_append {d : Draft} (quoted : Bool) {cs ds : List Char} :
    d.Fits (cs ++ ds) ↔ (d.extend quoted cs).Fits ds := by
  rw [Fits, Fits, extend, String.ofList_append, String.utf8ByteSize_append, Nat.add_assoc]

theorem Fits.push {d : Draft} {c : Char} {cs : List Char} (h : d.Fits (c :: cs)) :
    (d.push c).Fits cs := by
  rw [push_eq_extend]
  exact (fits_append false).1 h

theorem Fits.left {d : Draft} {cs ds : List Char} (h : d.Fits (cs ++ ds)) : d.Fits cs := by
  rw [Fits, String.ofList_append, String.utf8ByteSize_append] at h
  rw [Fits]
  omega

theorem fits_empty {word : String} (h : word.utf8ByteSize ≤ maxWordBytes) :
    empty.Fits word.toList := by
  rw [Fits, String.ofList_toList]
  exact (Nat.zero_add _).symm ▸ h

end Draft

open Draft (Fits)

theorem complete_extend {d : Draft} {cs : List Char} (fits : d.Fits cs) (quoted : Bool)
    (next : Draft → Except ShellError (Token × List Char)) :
    scanWord.complete (d.extend quoted cs) next = next (d.extend quoted cs) :=
  if_neg (Nat.not_lt.2 fits)

theorem complete_self {d : Draft} (fits : d.Fits [])
    (next : Draft → Except ShellError (Token × List Char)) : scanWord.complete d next = next d := by
  simpa only [Draft.extend_nil] using complete_extend fits false next

/-- Whether a character stands for itself in a word outside quotes, also at its beginning. -/
structure Plain (c : Char) : Prop where
  notBlank : Text.isBlank c = false
  notOperator : isOperatorChar c = false
  notSyntax : c ≠ '\'' ∧ c ≠ '"' ∧ c ≠ '\\' ∧ c ≠ '#'

section
variable (d : Draft) {c : Char} (r : List Char)

theorem scanWord_plain (h : Plain c) :
    scanWord d .bare (c :: r) = scanWord.complete (d.push c) fun d => scanWord d .bare r := by
  obtain ⟨single, double, backslash, -⟩ := h.notSyntax
  rw [scanWord.eq_def]
  simp [h.notBlank, h.notOperator, single, double, backslash]

theorem scanWord_openSingle : scanWord d .bare ('\'' :: r) = scanWord d.markQuoted .single r := by
  rw [scanWord.eq_def]
  rfl

theorem scanWord_openDouble : scanWord d .bare ('"' :: r) = scanWord d.markQuoted .double r := by
  rw [scanWord.eq_def]
  rfl

theorem scanWord_closeSingle :
    scanWord d .single ('\'' :: r) = scanWord.complete d fun d => scanWord d .bare r := by
  rw [scanWord.eq_def]
  rfl

theorem scanWord_closeDouble :
    scanWord d .double ('"' :: r) = scanWord.complete d fun d => scanWord d .bare r := by
  rw [scanWord.eq_def]
  rfl

theorem scanWord_inSingle (h : c ≠ '\'') :
    scanWord d .single (c :: r) = scanWord (d.push c) .single r := by
  rw [scanWord.eq_def]
  exact if_neg h

theorem scanWord_inDouble (h : c ≠ '"') (h' : c ≠ '\\') :
    scanWord d .double (c :: r) = scanWord (d.push c) .double r := by
  rw [scanWord.eq_def]
  simp [h, h']

theorem scanWord_escaped (e : Char) :
    scanWord d .double ('\\' :: e :: r) = scanWord (d.pushEscape e) .double r := by
  rw [scanWord.eq_def]
  rfl

end

/-- In a word, a text stands for some characters: where it is read outside quotes, they are added to
the word, as far as they fit, and it is marked as quoted or not. -/
def SpellsAs (quoted : Bool) (text cs : List Char) : Prop :=
  ∀ (d : Draft) (rest : List Char), d.Fits cs →
    scanWord d .bare (text ++ rest) = scanWord (d.extend quoted cs) .bare rest

theorem SpellsAs.append {q q' : Bool} {text more cs ds : List Char} (h : SpellsAs q text cs)
    (h' : SpellsAs q' more ds) : SpellsAs (q || q') (text ++ more) (cs ++ ds) := by
  intro d rest fits
  rw [List.append_assoc, h d _ fits.left, h' _ rest ((Draft.fits_append q).1 fits),
    Draft.extend_extend]

/-- A text stands for some characters, whether it marks the word or not. -/
def Spells (text cs : List Char) : Prop := ∃ quoted, SpellsAs quoted text cs

theorem Spells.append {text more cs ds : List Char} (h : Spells text cs) (h' : Spells more ds) :
    Spells (text ++ more) (cs ++ ds) := by
  obtain ⟨q, h⟩ := h
  obtain ⟨q', h'⟩ := h'
  exact ⟨q || q', h.append h'⟩

theorem spellsAs_nil : SpellsAs false [] [] := by
  intro d rest _
  rw [List.nil_append, Draft.extend_nil]

theorem spellsAs_plain {cs : List Char} (h : ∀ c ∈ cs, Plain c) : SpellsAs false cs cs := by
  induction cs with
  | nil => exact spellsAs_nil
  | cons c cs ih =>
    obtain ⟨plain, others⟩ := List.forall_mem_cons.1 h
    have first : SpellsAs false [c] [c] := by
      intro d rest fits
      rw [List.singleton_append, scanWord_plain d rest plain, Draft.push_eq_extend,
        complete_extend fits]
    exact first.append (ih others)

theorem spellsAs_backslash {c : Char} : SpellsAs true ['\\', c] [c] := by
  intro d rest fits
  have scanned : scanWord d .bare ('\\' :: c :: rest) =
      scanWord.complete (d.markQuoted.push c) fun d => scanWord d .bare rest := by
    rw [scanWord.eq_def]
    rfl
  rw [List.cons_append, List.singleton_append, scanned, Draft.push_eq_extend,
    Draft.markQuoted_eq_extend, Draft.extend_extend]
  exact complete_extend fits true _

theorem spellsAs_single {cs : List Char} (h : '\'' ∉ cs) :
    SpellsAs true ('\'' :: cs ++ ['\'']) cs := by
  have inside (d : Draft) (rest : List Char) (fits : d.Fits cs) :
      scanWord d .single (cs ++ '\'' :: rest) = scanWord (d.extend false cs) .bare rest := by
    induction cs generalizing d with
    | nil =>
      rw [List.nil_append, scanWord_closeSingle, complete_self fits, Draft.extend_nil]
    | cons c cs ih =>
      rw [List.mem_cons, not_or] at h
      rw [List.cons_append, scanWord_inSingle _ _ (Ne.symm h.1), ih h.2 _ fits.push,
        Draft.extend_push]
  intro d rest fits
  have read := inside d.markQuoted rest fits
  rw [← scanWord_openSingle, Draft.markQuoted_eq_extend, Draft.extend_extend] at read
  simpa using read

/-- Characters that are each read as themselves in double quotes, as they are written there. -/
theorem spellsAs_double {write : Char → List Char}
    (reads : ∀ (c : Char) (d : Draft) (r : List Char),
      scanWord d .double (write c ++ r) = scanWord (d.push c) .double r) (cs : List Char) :
    SpellsAs true ('"' :: cs.flatMap write ++ ['"']) cs := by
  have inside (d : Draft) (rest : List Char) (fits : d.Fits cs) :
      scanWord d .double (cs.flatMap write ++ '"' :: rest) =
        scanWord (d.extend false cs) .bare rest := by
    induction cs generalizing d with
    | nil =>
      rw [List.flatMap_nil, List.nil_append, scanWord_closeDouble, complete_self fits,
        Draft.extend_nil]
    | cons c cs ih =>
      rw [List.flatMap_cons, List.append_assoc, reads, ih _ fits.push, Draft.extend_push]
  intro d rest fits
  have read := inside d.markQuoted rest fits
  rw [← scanWord_openDouble, Draft.markQuoted_eq_extend, Draft.extend_extend] at read
  simpa using read

/-! ### Quoted words -/

theorem plain_of_isAlphanum {c : Char} (h : c.isAlphanum = true) : Plain c := by
  rw [Char.isAlphanum, Bool.or_eq_true, Text.isAlpha_iff, Text.isDigit_iff] at h
  have other (x : Char) (out : ¬ (((65 ≤ x.toNat ∧ x.toNat ≤ 90) ∨
      (97 ≤ x.toNat ∧ x.toNat ≤ 122)) ∨ (48 ≤ x.toNat ∧ x.toNat ≤ 57))) : c ≠ x := by
    rintro rfl
    exact out h
  refine ⟨?_, ?_, other _ (by decide), other _ (by decide), other _ (by decide),
    other _ (by decide)⟩
  · simp only [Text.isBlank, Text.blankRanges, List.any_cons, List.any_nil, Bool.or_eq_false_iff,
      decide_eq_false_iff_not, and_true]
    omega
  · simp only [isOperatorChar, List.contains_eq_mem, List.mem_cons, List.not_mem_nil, or_false,
      decide_eq_false_iff_not, not_or]
    exact ⟨other _ (by decide), other _ (by decide), other _ (by decide), other _ (by decide),
      other _ (by decide), other _ (by decide), other _ (by decide)⟩

theorem plain_of_allowed {c : Char} (h : (c.isAlphanum || Styles.bareChars.contains c) = true) :
    Plain c := by
  rcases Bool.or_eq_true_iff.1 h with letter | listed
  · exact plain_of_isAlphanum letter
  · have among : c ∈ Styles.bareChars := by simpa using listed
    -- A Boolean check of the list: deciding a statement about all of `Char` would go through them.
    have all : (Styles.bareChars.all fun x => decide (Text.isBlank x = false ∧
        isOperatorChar x = false ∧ x ≠ '\'' ∧ x ≠ '"' ∧ x ≠ '\\' ∧ x ≠ '#')) = true := by decide
    obtain ⟨notBlank, notOperator, notSyntax⟩ := of_decide_eq_true (List.all_eq_true.1 all c among)
    exact ⟨notBlank, notOperator, notSyntax⟩

/-- The styles that are left for a chunk can hold its characters. -/
structure Holds (s : Styles) (cs : List Char) : Prop where
  bare : s.bare = true → ∀ c ∈ cs, Plain c
  single : s.single = true → '\'' ∉ cs

theorem Holds.allow {s : Styles} {cs : List Char} (h : Holds s cs) (c : Char) :
    Holds (s.allow c) (cs ++ [c]) := by
  constructor
  · intro bare
    obtain ⟨before, allowed⟩ := Bool.and_eq_true_iff.1 bare
    simpa [or_imp, forall_and] using ⟨h.bare before, plain_of_allowed allowed⟩
  · intro single
    obtain ⟨before, allowed⟩ := Bool.and_eq_true_iff.1 single
    simp only [Styles.notSingle, List.contains_eq_mem, List.mem_cons, Bool.not_eq_true',
      decide_eq_false_iff_not, not_or] at allowed
    simpa using ⟨h.single before, Ne.symm allowed.1⟩

theorem holds_start (c : Char) : Holds (.start c) [c] := by
  unfold Styles.start
  split
  · next circumflex =>
    subst circumflex
    exact ⟨nofun, fun _ => by decide⟩
  · exact (⟨by simp, by simp⟩ : Holds _ []).allow c

theorem spells_writeChunk {s : Styles} {cs : List Char} (h : Holds s cs) :
    Spells (writeChunk s cs) cs := by
  unfold writeChunk
  split
  · next bare => exact ⟨_, spellsAs_plain (h.bare bare)⟩
  split
  · next single => exact ⟨_, spellsAs_single (h.single single)⟩
  · refine ⟨_, spellsAs_double (fun c d r => ?_) cs⟩
    by_cases special : c = '"' ∨ c = '\\'
    · rcases special with rfl | rfl <;> exact scanWord_escaped d r _
    · rw [not_or] at special
      simpa [special] using scanWord_inDouble d r special.1 special.2

theorem spells_quoteChunks {s : Styles} {chunk : List Char} (h : Holds s chunk.reverse)
    (cs : List Char) : Spells (quoteChunks s chunk cs) (chunk.reverse ++ cs) := by
  induction cs generalizing s chunk with
  | nil =>
    rw [List.append_nil]
    exact spells_writeChunk h
  | cons c cs ih =>
    rw [quoteChunks]
    split
    · exact (spells_writeChunk h).append (ih (holds_start c))
    · have grown := @ih (s.allow c) (c :: chunk)
      rw [List.reverse_cons, List.append_assoc] at grown
      exact grown (h.allow c)

theorem spells_quoteChars (cs : List Char) : Spells (quoteChars cs) cs := by
  cases cs with
  | nil => exact ⟨_, spellsAs_single List.not_mem_nil⟩
  | cons c cs => exact spells_quoteChunks (holds_start c) cs

/-! ### Tokens -/

/-- What may follow a token in a listing: a space or nothing. -/
def Ends (rest : List Char) : Prop := rest = [] ∨ ∃ r, rest = ' ' :: r

/-- A text is read as a token of a kind, with a certain meaning, wherever it stands in a listing. -/
def Shows (text : List Char) (kind : Kind) (meaning : String) : Prop :=
  ∀ rest, Ends rest → ∃ quoted, next? (text ++ rest) = .ok (some (⟨kind, meaning, quoted⟩, rest))

/-- Where a word outside quotes is over: before a blank or at the end of a text. -/
def Stops (rest : List Char) : Prop := ∀ c ∈ rest.head?, Text.isBlank c = true

theorem Ends.stops {rest : List Char} (h : Ends rest) : Stops rest := by
  rcases h with rfl | ⟨r, rfl⟩
  · rintro _ ⟨⟩
  · rintro _ ⟨⟩
    decide

/-- Whether a character can be part of a word outside quotes. -/
def isWordChar (c : Char) : Bool := !(Text.isBlank c || isOperatorChar c)

theorem isWordChar_iff {c : Char} :
    isWordChar c = true ↔ Text.isBlank c = false ∧ isOperatorChar c = false := by
  simp [isWordChar]

/-- Where a word outside quotes cannot go on: before a blank or an operator or at the end of a
text. -/
def Breaks (rest : List Char) : Prop := ∀ c ∈ rest.head?, isWordChar c = false

theorem Stops.breaks {rest : List Char} (h : Stops rest) : Breaks rest := by
  intro c hc
  simp [isWordChar, h c hc]

theorem scanWord_of_breaks (d : Draft) {rest : List Char} (h : Breaks rest) :
    scanWord d .bare rest = .ok (d.toToken, rest) := by
  cases rest with
  | nil => rw [scanWord]
  | cons c r =>
    have ended := h c rfl
    rw [isWordChar, Bool.not_eq_false'] at ended
    rw [scanWord.eq_def]
    exact if_pos ended

/-- A text begins as a word does. -/
def BeginsWord (text : List Char) : Prop :=
  ∃ c r, text = c :: r ∧ Text.isBlank c = false ∧ isOperatorChar c = false ∧ c ≠ '#'

theorem Plain.beginsWord {c : Char} (h : Plain c) (r : List Char) : BeginsWord (c :: r) :=
  ⟨c, r, rfl, h.notBlank, h.notOperator, h.notSyntax.2.2.2⟩

theorem BeginsWord.append {text : List Char} (h : BeginsWord text) (rest : List Char) :
    BeginsWord (text ++ rest) := by
  obtain ⟨c, r, rfl, first⟩ := h
  exact ⟨c, r ++ rest, rfl, first⟩

theorem BeginsWord.of_append {text rest : List Char} (h : BeginsWord (text ++ rest))
    (breaks : Breaks rest) : BeginsWord text := by
  obtain ⟨c, r, eq, visible, inWord, sign⟩ := h
  cases text with
  | nil =>
    obtain rfl : rest = c :: r := eq
    have goesOn : isWordChar c = true := isWordChar_iff.2 ⟨visible, inWord⟩
    exact absurd goesOn (Bool.eq_false_iff.1 (breaks c rfl))
  | cons x text =>
    obtain ⟨rfl, -⟩ := List.cons.inj eq
    exact ⟨x, text, rfl, visible, inWord, sign⟩

theorem BeginsWord.next? {text : List Char} (h : BeginsWord text) :
    next? text = (scanWord .empty .bare text).map some := by
  obtain ⟨c, r, rfl, hb, ho, hh⟩ := h
  have hn : c ≠ '\n' := by
    rintro rfl
    exact absurd hb (by decide)
  have stays : skip false (c :: r) = c :: r := by simp [skip, hn, hb, hh]
  have none : operator? (c :: r) = none := by
    unfold operator?
    split <;> simp_all [isOperatorChar]
  rw [Token.next?, stays]
  simp only [none]

theorem beginsWord_writeChunk {s : Styles} {cs : List Char} (h : Holds s cs) (some : cs ≠ []) :
    BeginsWord (writeChunk s cs) := by
  unfold writeChunk
  split
  · next bare =>
    obtain ⟨c, r, rfl⟩ := List.exists_cons_of_ne_nil some
    exact (h.bare bare c List.mem_cons_self).beginsWord r
  split
  · exact ⟨_, _, rfl, by decide⟩
  · exact ⟨_, _, rfl, by decide⟩

theorem beginsWord_quoteChunks {s : Styles} {chunk : List Char} (h : Holds s chunk.reverse)
    (some : chunk ≠ []) (cs : List Char) : BeginsWord (quoteChunks s chunk cs) := by
  have first {s : Styles} {chunk : List Char} (h : Holds s chunk.reverse) (some : chunk ≠ []) :
      BeginsWord (writeChunk s chunk.reverse) :=
    beginsWord_writeChunk h (by simpa using some)
  induction cs generalizing s chunk with
  | nil => exact first h some
  | cons c cs ih =>
    rw [quoteChunks]
    split
    · exact (first h some).append _
    · exact ih (by simpa using h.allow c) (List.cons_ne_nil c chunk)

theorem beginsWord_quoteChars (cs : List Char) : BeginsWord (quoteChars cs) := by
  cases cs with
  | nil => exact ⟨_, _, rfl, by decide⟩
  | cons c cs => exact beginsWord_quoteChunks (holds_start c) (List.cons_ne_nil c []) cs

/-- A text that spells a word and begins as one is read as that word, if it cannot go on. -/
theorem SpellsAs.next?_of_breaks {quoted : Bool} {text rest : List Char} {word : String}
    (h : SpellsAs quoted text word.toList) (begins : BeginsWord text)
    (short : word.utf8ByteSize ≤ maxWordBytes) (breaks : Breaks rest) :
    next? (text ++ rest) = .ok (some (⟨.word, word, quoted⟩, rest)) := by
  rw [(begins.append rest).next?, h .empty rest (Draft.fits_empty short),
    scanWord_of_breaks _ breaks, Draft.toToken_extend]
  rfl

theorem SpellsAs.next? {quoted : Bool} {text rest : List Char} {word : String}
    (h : SpellsAs quoted text word.toList) (begins : BeginsWord text)
    (short : word.utf8ByteSize ≤ maxWordBytes) (stops : Stops rest) :
    next? (text ++ rest) = .ok (some (⟨.word, word, quoted⟩, rest)) :=
  h.next?_of_breaks begins short stops.breaks

theorem shows_of_spells {text : List Char} {word : String} (begins : BeginsWord text)
    (spells : Spells text word.toList) (h : word.utf8ByteSize ≤ maxWordBytes) :
    Shows text .word word := by
  obtain ⟨quoted, spells⟩ := spells
  exact fun rest ends => ⟨quoted, spells.next? begins h ends.stops⟩

theorem shows_quoteChars {word : String} (h : word.utf8ByteSize ≤ maxWordBytes) :
    Shows (quoteChars word.toList) .word word :=
  shows_of_spells (beginsWord_quoteChars _) (spells_quoteChars _) h

theorem shows_operator {cs r : List Char} {t : Token} (h : operator? cs = some (t, r)) :
    Shows t.text.toList t.kind t.text := by
  intro rest ends
  refine ⟨false, ?_⟩
  unfold operator? at h
  split at h
  case h_14 => cases h
  all_goals
    cases h
    rcases ends with rfl | ⟨r, rfl⟩ <;> rfl

/-- A token that has been read is an operator or a word. -/
theorem next?_eq_some {cs r : List Char} {t : Token} (h : next? cs = .ok (some (t, r))) :
    ∃ ds, operator? ds = some (t, r) ∨ scanWord .empty .bare ds = .ok (t, r) := by
  unfold next? at h
  split at h
  · cases h
  · next c ds _ =>
    split at h
    · next found =>
      cases h
      exact ⟨_, .inl found⟩
    · cases hw : scanWord .empty .bare (c :: ds) with
      | error e => simp [hw, Except.map] at h
      | ok found =>
        simp only [hw, Except.map, Except.ok.injEq, Option.some.injEq] at h
        exact ⟨_, .inr (h ▸ hw)⟩

theorem display_word {t : Token} (word : t.kind = .word) (null : '\x00' ∉ t.text.toList) :
    t.display.toList = quoteChars t.text.toList := by
  simp [display, word, Text.quote, Text.quote?, null]

theorem shows_next? {cs r : List Char} {t : Token} (h : next? cs = .ok (some (t, r)))
    (null : t.kind = .word → '\x00' ∉ t.text.toList) : Shows t.display.toList t.kind t.text := by
  obtain ⟨ds, operator | scanned⟩ := next?_eq_some h
  · rw [display, if_neg (Reading.kind_of_operator? operator).1]
    exact shows_operator operator
  · have word : t.kind = .word := (Reading.operators_scanWord scanned).1
    rw [display_word word (null word), word]
    exact shows_quoteChars (size_next? h)

/-! ### Listings -/

/-- A token without the mark that it was quoted. -/
def unmarked (t : Token) : Kind × String := (t.kind, t.text)

/-- The kind of a token, and the text of an operator. -/
def outline (t : Token) : Kind × String := (t.kind, if t.kind = .word then "" else t.text)

theorem scan_blank (budget : Nat) {c : Char} (blank : Text.isBlank c = true) (feed : c ≠ '\n')
    (cs : List Char) : scan budget (c :: cs) = scan budget cs := by
  have skipped : skip false (c :: cs) = skip false cs := by simp [skip, feed, blank]
  cases budget with
  | zero => rfl
  | succ budget => simp only [scan, next?, skipped]

theorem scan_space (budget : Nat) (cs : List Char) : scan budget (' ' :: cs) = scan budget cs :=
  scan_blank budget (by decide) (by decide) cs

theorem scan_nil (budget : Nat) : scan budget [] = .ok [eof] := by
  cases budget <;> rfl

/-- Tokens that can be told apart in a listing are read from it one after the other. -/
theorem scan_listing {ts : List Token} (h : ∀ t ∈ ts, Shows t.display.toList t.kind t.text)
    {budget : Nat} (room : ts.length ≤ budget) :
    ∃ us, scan budget ([' '].intercalate (ts.map (·.display.toList))) = .ok (us ++ [eof]) ∧
      us.map unmarked = ts.map unmarked := by
  induction ts generalizing budget with
  | nil => exact ⟨[], scan_nil budget, rfl⟩
  | cons t ts ih =>
    obtain ⟨shows, others⟩ := List.forall_mem_cons.1 h
    obtain ⟨budget, rfl⟩ : ∃ k, budget = k + 1 := ⟨budget - 1, by simp at room; omega⟩
    obtain ⟨us, later, same⟩ := ih others (Nat.le_of_succ_le_succ room)
    -- A space sets the rest apart, which is the listing of the other tokens, if there are any.
    obtain ⟨rest, text, ends, rest_eq⟩ : ∃ rest,
        [' '].intercalate ((t :: ts).map (·.display.toList)) = t.display.toList ++ rest ∧
        Ends rest ∧
        scan budget rest = scan budget ([' '].intercalate (ts.map (·.display.toList))) := by
      cases ts with
      | nil => exact ⟨[], by simp, .inl rfl, rfl⟩
      | cons u ts =>
        refine ⟨' ' :: [' '].intercalate ((u :: ts).map (·.display.toList)), ?_, .inr ⟨_, rfl⟩,
          scan_space _ _⟩
        simp [List.intercalate_cons_cons]
    obtain ⟨quoted, found⟩ := shows rest ends
    refine ⟨⟨t.kind, t.text, quoted⟩ :: us, ?_, by simp [unmarked, same]⟩
    rw [text, List.cons_append]
    exact scan_succ_of_next? found (rest_eq.trans later)

theorem tokenize_listing {ts : List Token} (h : ∀ t ∈ ts, Shows t.display.toList t.kind t.text)
    {limit : Nat} (room : ts.length ≤ limit - 1) :
    ∃ us, tokenize limit (" ".intercalate (ts.map display)) = .ok (us ++ [eof]) ∧
      us.map unmarked = ts.map unmarked := by
  have text : (" ".intercalate (ts.map display)).toList =
      [' '].intercalate (ts.map (·.display.toList)) := by
    simp [String.toList_intercalate, Function.comp_def]
  rw [tokenize, text]
  exact scan_listing h room

theorem shows_scan {budget : Nat} {cs : List Char} {ts : List Token} (h : scan budget cs = .ok ts)
    (null : ∀ t ∈ ts, t.kind = .word → '\x00' ∉ t.text.toList) :
    ∀ t ∈ withoutEnds ts, Shows t.display.toList t.kind t.text := by
  induction budget generalizing cs ts with
  | zero =>
    cases h
    nofun
  | succ budget ih =>
    obtain ⟨-, rfl⟩ | ⟨t, r, us, found, rest, rfl⟩ := scan_succ_eq_ok h
    · nofun
    obtain ⟨first, others⟩ := List.forall_mem_cons.1 null
    have kept : t.kind ≠ .eof := kind_of_next? found
    simp only [withoutEnds, List.filter_cons, decide_eq_true kept, if_true]
    exact List.forall_mem_cons.2 ⟨shows_next? found first, ih rest others⟩

theorem quoteWords_eq_listing {words : List String} (null : ∀ w ∈ words, '\x00' ∉ w.toList) :
    Text.quoteWords words =
      " ".intercalate ((words.map fun w => (⟨.word, w, false⟩ : Token)).map display) := by
  have quoted : words.mapM Text.quote? = some (words.map Text.quote) := by
    induction words with
    | nil => rfl
    | cons w words ih =>
      obtain ⟨first, others⟩ := List.forall_mem_cons.1 null
      have some : Text.quote? w = some (Text.quote w) := by simp [Text.quote, Text.quote?, first]
      simp [List.mapM_cons, some, ih others]
  rw [Text.quoteWords, quoted]
  simp [Function.comp_def, display]

end Token

namespace Grammar

open Token

/-- The check looks at the kinds of tokens and, to tell a fault, at the texts of operators. -/
theorem check_outline {ts us : List Token} (h : us.map outline = ts.map outline) (e : Expect) :
    check e us = check e ts := by
  induction ts generalizing us e with
  | nil => rw [List.map_eq_nil_iff.1 h]
  | cons t ts ih =>
    cases us with
    | nil => cases h
    | cons u us =>
      simp only [List.map_cons, List.cons.injEq, outline, Prod.mk.injEq] at h
      obtain ⟨⟨kind, text⟩, rest⟩ := h
      by_cases word : t.kind = .word
      · have also : u.kind = .word := kind.trans word
        cases e <;> simp only [check, word, also, ih rest]
      · rw [kind, if_neg word, if_neg word] at text
        cases e <;> simp only [check, shown, kind, text, ih rest]

theorem validate_outline {ts us : List Token} (h : us.map outline = ts.map outline)
    (limit : Nat) : validate limit us = validate limit ts := by
  have length : us.length = ts.length := by simpa using congrArg List.length h
  rw [validate, validate, length, check_outline h]

theorem validate_unmarked {ts us : List Token} (h : us.map unmarked = ts.map unmarked)
    (limit : Nat) : validate limit us = validate limit ts := by
  refine validate_outline ?_ limit
  have less : outline = (fun p => (p.1, if p.1 = .word then "" else p.2)) ∘ unmarked := rfl
  rw [less, ← List.map_map, ← List.map_map, h]

end Grammar

namespace Token

/-- The tokens of a line, none of whose words holds a null character, are read again from the
listing of them, apart from how they were quoted, so that the grammar says the same about them.
Likewise arguments without null characters, of which each fits into a word, are read from the
listing of them. -/
theorem listings_read_back :
    (∀ limit line ts, tokenize limit line = .ok ts →
      (∀ t ∈ ts, t.kind = .word → '\x00' ∉ t.text.toList) →
      ∃ us, tokenize limit (render ts) = .ok us ∧ us.map unmarked = ts.map unmarked ∧
        ∀ bound, Grammar.validate bound us = Grammar.validate bound ts) ∧
    ∀ (argv : List String) (limit : Nat), argv.length < limit →
      (∀ w ∈ argv, '\x00' ∉ w.toList ∧ w.utf8ByteSize ≤ 4096) →
      ∃ us, tokenize limit (Text.quoteWords argv) = .ok (us ++ [eof]) ∧
        us.map unmarked = argv.map fun w => (.word, w) := by
  constructor
  · intro limit line ts read null
    obtain ⟨body, rfl, hbody⟩ := scan_eq_append_eof read
    have kept : withoutEnds (body ++ [eof]) = body := by
      simpa [withoutEnds, eof, operator] using hbody
    have shows := shows_scan read null
    have room := length_scan_le read
    rw [List.length_append, List.length_singleton] at room
    rw [kept] at shows
    obtain ⟨us, again, same⟩ := tokenize_listing shows (Nat.le_of_succ_le_succ room)
    have all : (us ++ [eof]).map unmarked = (body ++ [eof]).map unmarked := by simp [same]
    refine ⟨us ++ [eof], ?_, all, Grammar.validate_unmarked all⟩
    rw [← again, render, ← withoutEnds, kept]
  · intro argv limit room words
    have shows : ∀ t ∈ argv.map fun w => (⟨.word, w, false⟩ : Token),
        Shows t.display.toList t.kind t.text := by
      intro t ht
      obtain ⟨w, hw, rfl⟩ := List.mem_map.1 ht
      rw [display_word rfl (words w hw).1]
      exact shows_quoteChars (words w hw).2
    have fits : (argv.map fun w => (⟨.word, w, false⟩ : Token)).length ≤ limit - 1 := by
      rw [List.length_map]
      omega
    rw [quoteWords_eq_listing fun w hw => (words w hw).1]
    simpa [unmarked, Function.comp_def] using tokenize_listing shows fits

/-- Words with quotes of both kinds, a circumflex, a line feed, a number sign or nothing at all. -/
theorem listings_read_back_quotes :
    (∃ ts us, tokenize 7 "echo \"it's ^$\" '' >> f\n" = .ok ts ∧
      render ts = "echo \"it's \"'^$' '' >> f \n" ∧
      tokenize 7 (render ts) = .ok us ∧ us.map unmarked = ts.map unmarked) ∧
    ∃ us, tokenize 4 (Text.quoteWords ["", "a\nb", "#"]) = .ok (us ++ [eof]) ∧
      us.map unmarked = [(.word, ""), (.word, "a\nb"), (.word, "#")] := by
  have read : tokenize 7 "echo \"it's ^$\" '' >> f\n" =
      .ok [⟨.word, "echo", false⟩, ⟨.word, "it's ^$", true⟩, ⟨.word, "", true⟩, ⟨.append, ">>", false⟩,
        ⟨.word, "f", false⟩, ⟨.newline, "\n", false⟩, eof] := by decide +kernel
  obtain ⟨us, again, same, -⟩ := listings_read_back.1 _ _ _ read (by decide)
  exact ⟨⟨_, us, read, by decide +kernel, again, same⟩,
    listings_read_back.2 ["", "a\nb", "#"] 4 (by decide) (by decide)⟩

end Token
end JobShell
