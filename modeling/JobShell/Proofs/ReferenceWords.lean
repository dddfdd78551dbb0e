import JobShell.Proofs.DataReading
import JobShell.Proofs.InertTexts
import JobShell.Proofs.OpenBraces

/-! How the values of references are read as words. Outside quotes a value is cut at its blanks and
nowhere else, and in double quotes it is one word, whatever it holds. -/
namespace JobShell

open Reference (escape needsEscape)

/-! ### The words of a value -/

namespace Text

/-- The longest runs of characters that are not blank, from left to right. -/
def runs (cs : List Char) : List (List Char) := (cs.splitOnP isBlank).filter (· ≠ [])

theorem runs_nil : runs [] = [] := rfl

theorem runs_cons {c : Char} (blank : isBlank c = true) (cs : List Char) :
    runs (c :: cs) = runs cs := by
  rw [runs, List.splitOnP_cons_eq_if_modifyHead, if_pos blank]
  rfl

theorem runs_append {run rest : List Char} (some : run ≠ [])
    (unbroken : ∀ c ∈ run, isBlank c = false) (stops : Token.Stops rest) :
    runs (run ++ rest) = run :: runs rest := by
  cases rest with
  | nil =>
    rw [List.append_nil, runs, List.splitOnP_eq_singleton unbroken]
    simp [some, runs_nil]
  | cons c rest =>
    have blank : isBlank c = true := stops c rfl
    rw [runs_cons blank, runs, List.splitOnP_append_cons_of_forall_mem unbroken c blank]
    simp [some, runs]

theorem exists_run (cs : List Char) : ∃ run rest, cs = run ++ rest ∧
    (∀ c ∈ run, isBlank c = false) ∧ Token.Stops rest := by
  induction cs with
  | nil => exact ⟨[], [], rfl, List.forall_mem_nil _, by rintro _ ⟨⟩⟩
  | cons c cs ih =>
    cases blank : isBlank c with
    | true =>
      refine ⟨[], c :: cs, rfl, List.forall_mem_nil _, ?_⟩
      rintro _ ⟨⟩
      exact blank
    | false =>
      obtain ⟨run, rest, rfl, unbroken, stops⟩ := ih
      exact ⟨c :: run, rest, rfl, List.forall_mem_cons.2 ⟨blank, unbroken⟩, stops⟩

end Text

namespace Token

theorem needsEscape_of_isBlank {c : Char} (blank : Text.isBlank c = true) :
    needsEscape false c = false := by
  rw [← Bool.not_eq_true]
  intro special
  simp only [needsEscape, Bool.false_eq_true, if_false, List.contains_eq_mem, List.mem_cons,
    List.not_mem_nil, or_false, decide_eq_true_eq] at special
  rcases special with rfl | rfl | rfl | rfl | rfl | rfl | rfl | rfl | rfl | rfl | rfl <;>
    exact absurd blank (by decide)

theorem escape_blank {c : Char} (blank : Text.isBlank c = true) (cs : List Char) :
    escape false (c :: cs) = c :: escape false cs := by
  simp [escape, needsEscape_of_isBlank blank]

theorem plain_of_needsEscape {c : Char} (visible : Text.isBlank c = false)
    (unescaped : needsEscape false c = false) : Plain c := by
  refine ⟨visible, Reading.isOperatorChar_eq_false unescaped, ?_, ?_, ?_, ?_⟩ <;>
    rintro rfl <;> exact absurd unescaped (by decide)

/-- A value without blanks spells itself outside quotes. A backslash in it marks it as quoted. -/
theorem spellsAs_escape {run : List Char} (unbroken : ∀ c ∈ run, Text.isBlank c = false) :
    SpellsAs (run.any (needsEscape false)) (escape false run) run := by
  induction run with
  | nil => exact spellsAs_nil
  | cons c run ih =>
    obtain ⟨visible, others⟩ := List.forall_mem_cons.1 unbroken
    have first : SpellsAs (needsEscape false c) (escape false [c]) [c] := by
      cases special : needsEscape false c with
      | true => simpa [escape, special] using spellsAs_backslash
      | false =>
        have plain : ∀ x ∈ [c], Plain x := by simpa using plain_of_needsEscape visible special
        simpa [escape, special] using spellsAs_plain plain
    rw [Reading.escape_cons, List.any_cons]
    exact first.append (ih others)

theorem beginsWord_escape {c : Char} (visible : Text.isBlank c = false) (r : List Char) :
    BeginsWord (escape false (c :: r)) := by
  rw [Reading.escape_cons]
  refine BeginsWord.append ?_ _
  cases special : needsEscape false c with
  | true => exact ⟨'\\', [c], by simp [escape, special], by decide⟩
  | false =>
    simpa [escape, special] using (plain_of_needsEscape visible special).beginsWord []

theorem stops_escape {rest : List Char} (h : Stops rest) : Stops (escape false rest) := by
  cases rest with
  | nil => exact h
  | cons c r =>
    rw [escape_blank (h c rfl)]
    exact h

/-- The word that a run of characters of a value is read as. -/
def ofRun (run : List Char) : Token := ⟨.word, String.ofList run, run.any (needsEscape false)⟩

/-- Outside quotes, the words of a value are its runs of characters that are not blank. -/
theorem scan_escape {cs : List Char} (oneLine : '\n' ∉ cs)
    (short : ∀ run ∈ Text.runs cs, (String.ofList run).utf8ByteSize ≤ maxWordBytes)
    {budget : Nat} (room : (Text.runs cs).length ≤ budget) :
    scan budget (escape false cs) = .ok ((Text.runs cs).map ofRun ++ [eof]) := by
  -- A blank is skipped alone and a run is read whole, so the induction is on the length.
  induction size : cs.length using Nat.strongRecOn generalizing cs budget with
  | ind n ih =>
    cases cs with
    | nil => exact scan_nil budget
    | cons c cs =>
      cases blank : Text.isBlank c with
      | true =>
        have runs := Text.runs_cons blank cs
        rw [List.mem_cons, not_or] at oneLine
        rw [runs] at short room ⊢
        rw [escape_blank blank, scan_blank budget blank (Ne.symm oneLine.1)]
        exact ih cs.length (by simp [← size]) oneLine.2 short room rfl
      | false =>
        obtain ⟨run, rest, rfl, unbroken, stops⟩ := Text.exists_run cs
        have whole : ∀ x ∈ c :: run, Text.isBlank x = false :=
          List.forall_mem_cons.2 ⟨blank, unbroken⟩
        have runs : Text.runs (c :: (run ++ rest)) = (c :: run) :: Text.runs rest :=
          Text.runs_append (List.cons_ne_nil c run) whole stops
        rw [runs] at short room ⊢
        obtain ⟨here, others⟩ := List.forall_mem_cons.1 short
        obtain ⟨budget, rfl⟩ := Nat.exists_eq_add_of_le' (Nat.le_trans (Nat.le_add_left 1 _) room)
        have shorter : rest.length < n := by
          simp only [← size, List.length_cons, List.length_append]
          omega
        have later := ih rest.length shorter (fun feed => oneLine (by simp [feed])) others
          (Nat.le_of_succ_le_succ room) rfl
        have spelled : SpellsAs (ofRun (c :: run)).quoted (escape false (c :: run))
            (ofRun (c :: run)).text.toList := by
          rw [ofRun, String.toList_ofList]
          exact spellsAs_escape whole
        have found := spelled.next? (beginsWord_escape blank run) here (stops_escape stops)
        rw [← List.cons_append, escape, List.flatMap_append]
        exact scan_succ_of_next? found later

/-- In double quotes, a value spells itself. -/
theorem spellsAs_escapeDouble (cs : List Char) :
    SpellsAs true ('"' :: escape true cs ++ ['"']) cs := by
  refine spellsAs_double (fun c d r => ?_) cs
  cases special : needsEscape true c with
  | true =>
    simp only [needsEscape, if_true, List.contains_eq_mem, List.mem_cons, List.not_mem_nil,
      or_false, decide_eq_true_eq] at special
    rcases special with rfl | rfl | rfl | rfl <;> exact scanWord_escaped d r _
  | false =>
    refine scanWord_inDouble d r ?_ ?_ <;> rintro rfl <;> exact absurd special (by decide)

/-- Values as they stand in a line, each behind a space and in double quotes. -/
def quotedValues (values : List String) : List Char :=
  values.flatMap fun v => ' ' :: ('"' :: escape true v.toList ++ ['"'])

theorem stops_quotedValues (values : List String) : Stops (quotedValues values) := by
  cases values with
  | nil => rintro _ ⟨⟩
  | cons v values =>
    rintro _ ⟨⟩
    decide

theorem scan_quotedValues {values : List String}
    (short : ∀ v ∈ values, v.utf8ByteSize ≤ maxWordBytes) {budget : Nat}
    (room : values.length ≤ budget) :
    scan budget (quotedValues values) = .ok (values.map (⟨.word, ·, true⟩) ++ [eof]) := by
  induction values generalizing budget with
  | nil => exact scan_nil budget
  | cons v values ih =>
    obtain ⟨here, others⟩ := List.forall_mem_cons.1 short
    obtain ⟨budget, rfl⟩ := Nat.exists_eq_add_of_le' (Nat.le_trans (Nat.le_add_left 1 _) room)
    have begins : BeginsWord ('"' :: escape true v.toList ++ ['"']) := ⟨_, _, rfl, by decide⟩
    have found := (spellsAs_escapeDouble v.toList).next? begins here (stops_quotedValues values)
    rw [quotedValues, List.flatMap_cons, ← quotedValues, List.cons_append, scan_space]
    exact scan_succ_of_next? found (ih others (Nat.le_of_succ_le_succ room))

end Token

/-! ### Lines with references -/

theorem Text.intercalate_space (cs : List Char) (rest : List (List Char)) :
    [' '].intercalate (cs :: rest) = cs ++ rest.flatMap (' ' :: ·) := by
  induction rest generalizing cs with
  | nil => simp
  | cons ds rest ih => simp [List.intercalate_cons_cons, ih]

namespace Reference

open Text (isIdentifier isNameChar)

theorem exists_nameStart {name : List Char} (identifier : isIdentifier name = true) :
    ∃ c r, name = c :: r ∧ c ≠ '{' ∧ c ≠ '#' ∧ isSpecial c = false ∧ c.isDigit = false := by
  cases name with
  | nil => cases identifier
  | cons c r =>
    have start : Text.isNameStart c = true := (Bool.and_eq_true_iff.1 identifier).1
    refine ⟨c, r, rfl, ?_, ?_, ?_, Text.not_isDigit_of_isNameStart start⟩
    · rintro rfl
      exact absurd start (by decide)
    · rintro rfl
      exact absurd start (by decide)
    · rw [← Bool.not_eq_true]
      intro special
      simp only [isSpecial, List.contains_eq_mem, List.mem_cons, List.not_mem_nil, or_false,
        decide_eq_true_eq] at special
      rcases special with rfl | rfl | rfl | rfl | rfl | rfl <;> exact absurd start (by decide)

theorem read_name {name rest : List Char} (identifier : isIdentifier name = true)
    (stops : ∀ c ∈ rest.head?, isNameChar c = false) :
    read (name ++ rest) = (.value (String.ofList name), rest) := by
  have all := Text.isNameChar_of_mem identifier
  obtain ⟨taken, dropped⟩ := Text.run_append fun _ => stops
  rw [List.takeWhile_eq_self_iff.2 all] at taken
  rw [List.dropWhile_eq_nil_iff.2 all, List.nil_append] at dropped
  obtain ⟨c, r, rfl, brace, -, special, digit⟩ := exists_nameStart identifier
  rw [List.cons_append] at taken dropped ⊢
  rw [read_of_ne brace, taken, dropped, special, digit, all c List.mem_cons_self]
  rfl

theorem ofBraces_name {name : List Char} (identifier : isIdentifier name = true) :
    ofBraces name = .value (String.ofList name) := by
  have all := Text.isNameChar_of_mem identifier
  obtain ⟨c, r, rfl, -, sign, special, -⟩ := exists_nameStart identifier
  rw [ofBraces_of_ne sign, List.takeWhile_eq_self_iff.2 all, special]
  simp [named]

end Reference

section
variable {σ : Type} [Bindings σ] {s : σ}

namespace Piece

theorem expand_value {name value : String} (found : Bindings.get? s name = some value) (q : Bool)
    (ps : List Piece) : expand s (reference q (.value name) :: ps) =
      (escape q value.toList ++ (expand s ps).1, (expand s ps).2) := by
  simp only [expand, Reference.evaluate, found, Option.getD_some]

/-- Behind a space, the reference to a name is its value, in whichever way it is written. -/
theorem expand_reference {name value : String} (found : Bindings.get? s name = some value)
    {cs : List Char} (refers : Reference.read cs = (.value name, [])) :
    expand s (ofLine .bare (' ' :: '$' :: cs)) = (' ' :: escape false value.toList, s) := by
  have pieces : ofLine .bare (' ' :: '$' :: cs) = [plain ' ', reference false (.value name)] := by
    rw [ofLine_plain _ (by decide), ofLine_dollar (by decide), refers, ofLine]
    rfl
  rw [pieces, expand, expand_value found]
  simp [expand]

/-- References in double quotes, each behind a space. -/
def quotedReferences (names : List String) : List Char :=
  names.flatMap fun name => ' ' :: '"' :: '$' :: (name.toList ++ ['"'])

theorem expand_quotedReferences {xs : List (String × String)}
    (known : ∀ x ∈ xs, Text.isIdentifier x.1.toList = true ∧ Bindings.get? s x.1 = some x.2) :
    expand s (ofLine .bare (quotedReferences (xs.map (·.1)))) =
      (Token.quotedValues (xs.map (·.2)), s) := by
  induction xs with
  | nil =>
    rw [List.map_nil, quotedReferences, List.flatMap_nil, ofLine]
    rfl
  | cons x xs ih =>
    obtain ⟨⟨identifier, found⟩, others⟩ := List.forall_mem_cons.1 known
    specialize ih others
    have closed : ∀ c ∈ ('"' :: quotedReferences (xs.map (·.1))).head?,
        Text.isNameChar c = false := by
      rintro _ ⟨⟩
      decide
    have text : quotedReferences ((x :: xs).map (·.1)) =
        ' ' :: '"' :: '$' :: (x.1.toList ++ '"' :: quotedReferences (xs.map (·.1))) := by
      simp [quotedReferences]
    have pieces : ofLine .bare (quotedReferences ((x :: xs).map (·.1))) =
        plain ' ' :: plain '"' :: reference true (.value x.1) :: plain '"' ::
          ofLine .bare (quotedReferences (xs.map (·.1))) := by
      rw [text, ofLine_plain _ (by decide), ofLine_openDouble, ofLine_dollar (by decide),
        Reference.read_name identifier closed, ofLine_closeDouble, String.ofList_toList]
      rfl
    rw [pieces, expand, expand, expand_value found, expand, ih]
    simp [Token.quotedValues]

end Piece

namespace Token

/-- A word that can stand in a line as it is: ASCII letters and digits, at least one and as many as
fit into a word. -/
structure IsCommandWord (w : String) : Prop where
  nonempty : w ≠ ""
  letters : w.toList.all Char.isAlphanum = true
  short : w.utf8ByteSize ≤ 4096

/-- A command word stands for itself before whatever the rest of a line stands for. -/
theorem tokenize_command {w : String} (command : IsCommandWord w) {line : String}
    {tail text : List Char} {ts : List Token}
    (parts : line.toList = w.toList ++ tail)
    (expanded : Piece.expand s (Piece.ofLine .bare tail) = (text, s)) (stops : Stops text)
    {limit : Nat} (room : 2 ≤ limit) (scanned : scan (limit - 2) text = .ok ts) :
    (expandReferences s line).2 = s ∧
      tokenize limit (expandReferences s line).1 = .ok (⟨.word, w, false⟩ :: ts) := by
  have letters := List.all_eq_true.1 command.letters
  have inert : Piece.Inert w.toList := Piece.inert_plain fun c hc =>
    Piece.isMark_eq_false (Bool.or_eq_true_iff.2 (.inl (letters c hc)))
  have whole : expandReferences s line = (String.ofList (w.toList ++ text), s) := by
    rw [expandReferences, parts, inert, Piece.expand_append, Piece.expand_map_plain, expanded]
  have plain : ∀ c ∈ w.toList, Plain c := fun c hc => plain_of_isAlphanum (letters c hc)
  have begins : BeginsWord w.toList := by
    obtain ⟨c, r, eq⟩ := List.exists_cons_of_ne_nil (mt String.toList_eq_nil_iff.1 command.nonempty)
    rw [eq]
    exact (plain c (eq ▸ List.mem_cons_self)).beginsWord r
  have found := (spellsAs_plain plain).next? begins command.short stops
  obtain ⟨budget, rfl⟩ := Nat.exists_eq_add_of_le' room
  rw [whole, tokenize, String.toList_ofList]
  exact ⟨rfl, scan_succ_of_next? found scanned⟩

/-- A reference outside quotes, behind a command word. The value of an identifier is split into
words at its blanks and at nothing else. Each of its runs of other characters is one word with
exactly these characters, and is marked as quoted if one of them is special outside quotes. -/
theorem unquoted_reference_words {w : String} (command : IsCommandWord w) {name value : String}
    (identifier : Text.isIdentifier name.toList = true)
    (found : Bindings.get? s name = some value) (oneLine : '\n' ∉ value.toList)
    (fit : ∀ run ∈ Text.runs value.toList, (String.ofList run).utf8ByteSize ≤ 4096) {limit : Nat}
    (room : (Text.runs value.toList).length + 2 ≤ limit) :
    ∀ line ∈ [w ++ " $" ++ name, w ++ " $\x7b" ++ name ++ "\x7d"],
      (expandReferences s line).2 = s ∧ tokenize limit (expandReferences s line).1 =
        .ok (⟨.word, w, false⟩ :: (Text.runs value.toList).map ofRun ++ [eof]) := by
  have bare : Reference.read name.toList = (.value name, []) := by
    have read := @Reference.read_name name.toList [] identifier (by rintro _ ⟨⟩)
    rwa [List.append_nil, String.ofList_toList] at read
  have inside : '}' ∉ name.toList := fun brace =>
    absurd (Text.isNameChar_of_mem identifier '}' brace) (by decide)
  have braced : Reference.read ('{' :: (name.toList ++ ['}'])) = (.value name, []) := by
    rw [Reference.read_braces inside, Reference.ofBraces_name identifier, String.ofList_toList]
  have words : scan (limit - 2) (escape false value.toList) =
      .ok ((Text.runs value.toList).map ofRun ++ [eof]) := scan_escape oneLine fit (by omega)
  have stops : Stops (' ' :: escape false value.toList) := by
    rintro _ ⟨⟩
    decide
  rw [List.forall_mem_cons, List.forall_mem_singleton]
  constructor
  · exact tokenize_command command (by simp) (Piece.expand_reference found bare) stops
      (by omega) ((scan_space _ _).trans words)
  · exact tokenize_command command (by simp) (Piece.expand_reference found braced) stops
      (by omega) ((scan_space _ _).trans words)

/-- A value with blanks of several kinds at both ends and inside, operators, a quote, a backslash, a
number sign where a word begins, and a run that needs no backslash. -/
theorem unquoted_reference_words_special :
    let s : Table String String := .ofList [("X_1", " a;b\u00a0#\t'\\$X \r*é ")]
    ∀ line ∈ ["echo $X_1", "echo $\x7bX_1\x7d"], (expandReferences s line).2 = s ∧
      tokenize 6 (expandReferences s line).1 = .ok [⟨.word, "echo", false⟩, ⟨.word, "a;b", true⟩,
        ⟨.word, "#", true⟩, ⟨.word, "'\\$X", true⟩, ⟨.word, "*é", false⟩, eof] := by
  intro s
  have command : IsCommandWord "echo" := ⟨by decide, by decide, by decide⟩
  exact unquoted_reference_words command (by decide)
    (rfl : Bindings.get? s "X_1" = some " a;b\u00a0#\t'\\$X \r*é ") (by decide)
    (by decide) (by decide)

/-- References in double quotes, behind a command word. Each is one word, which is marked as quoted
and whose text is the value, whatever that holds. -/
theorem quoted_references_words {w : String} (command : IsCommandWord w)
    {xs : List (String × String)}
    (known : ∀ x ∈ xs, Text.isIdentifier x.1.toList = true ∧
      Bindings.get? s x.1 = some x.2 ∧ x.2.utf8ByteSize ≤ 4096) {limit : Nat}
    (room : xs.length + 2 ≤ limit) :
    let line := " ".intercalate (w :: xs.map fun x => "\"$" ++ x.1 ++ "\"")
    (expandReferences s line).2 = s ∧ tokenize limit (expandReferences s line).1 =
      .ok (⟨.word, w, false⟩ :: xs.map (fun x => ⟨.word, x.2, true⟩) ++ [eof]) := by
  intro line
  have parts : line.toList = w.toList ++ Piece.quotedReferences (xs.map (·.1)) := by
    have space : " ".toList = [' '] := rfl
    rw [String.toList_intercalate, List.map_cons, space, Text.intercalate_space]
    simp [Piece.quotedReferences, List.flatMap_map]
  have expanded := Piece.expand_quotedReferences fun x hx => ⟨(known x hx).1, (known x hx).2.1⟩
  have fit : ∀ v ∈ xs.map (·.2), v.utf8ByteSize ≤ maxWordBytes :=
    List.forall_mem_map.2 fun x hx => (known x hx).2.2
  have words : scan (limit - 2) (quotedValues (xs.map (·.2))) =
      .ok ((xs.map (·.2)).map (⟨.word, ·, true⟩) ++ [eof]) :=
    scan_quotedValues fit (by rw [List.length_map]; omega)
  rw [List.map_map] at words
  exact tokenize_command command parts expanded (stops_quotedValues _) (by omega) words

/-- Values that are empty or hold line feeds, quotes of both kinds, a backslash before a letter and
at the end, a dollar sign and a backquote. One of them is referred to twice. -/
theorem quoted_references_words_special :
    let s : Table String String := .ofList [("A", ""), ("B", "a\\n\n\"b' \\"), ("C", "$A \x60;# ")]
    let line := "echo \"$B\" \"$A\" \"$C\" \"$B\""
    (expandReferences s line).2 = s ∧ tokenize 6 (expandReferences s line).1 =
      .ok [⟨.word, "echo", false⟩, ⟨.word, "a\\n\n\"b' \\", true⟩, ⟨.word, "", true⟩,
        ⟨.word, "$A \x60;# ", true⟩, ⟨.word, "a\\n\n\"b' \\", true⟩, eof] := by
  intro s line
  have command : IsCommandWord "echo" := ⟨by decide, by decide, by decide⟩
  have known : ∀ x ∈ [("B", "a\\n\n\"b' \\"), ("A", ""), ("C", "$A \x60;# "),
      ("B", "a\\n\n\"b' \\")], Text.isIdentifier x.1.toList = true ∧
        Bindings.get? s x.1 = some x.2 ∧ x.2.utf8ByteSize ≤ 4096 := by decide
  exact quoted_references_words command known (by decide)

end Token
end

end JobShell
