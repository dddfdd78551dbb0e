import JobShell.Proofs.InertTexts
import JobShell.Proofs.PrintedOutput
import JobShell.Proofs.UnquotedWords
import JobShell.Proofs.WordLines

/-! Listings of variables can be run. What `set` and `export` print about a variable goes through
every stage of the reading of a line, and gives the variable the value that it had. -/
namespace JobShell

open Text (quoteChars)

/-! ### Reading an entry -/

namespace Token

theorem next?_export (text : List Char) :
    next? ("export".toList ++ ' ' :: text) =
      .ok (some (⟨.word, "export", false⟩, ' ' :: text)) := by
  have letters : "export".toList.all Char.isAlphanum = true := by decide
  have plain : ∀ c ∈ "export".toList, Plain c := fun c hc =>
    plain_of_isAlphanum (List.all_eq_true.1 letters c hc)
  have begins : BeginsWord "export".toList := ⟨'e', _, rfl, by decide⟩
  have stops : Stops (' ' :: text) := Ends.stops (.inr ⟨text, rfl⟩)
  exact (spellsAs_plain plain).next? begins (by decide) stops

end Token

/-- How a variable is shown in a listing. -/
def Variables.entry (name value : String) : String := name ++ "=" ++ Text.quote value

namespace Text

theorem plain_of_isNameChar {c : Char} (h : isNameChar c = true) : Token.Plain c := by
  rcases Bool.or_eq_true_iff.1 h with letter | underscore
  · exact Token.plain_of_isAlphanum letter
  · cases of_decide_eq_true underscore
    exact ⟨by decide, by decide, by decide⟩

theorem ne_of_isNameChar {c x : Char} (h : isNameChar c = true) (other : isNameChar x = false) :
    c ≠ x := by
  rintro rfl
  exact Bool.false_ne_true (other.symm.trans h)

theorem splitAssignment?_equals {name : String} (identifier : isIdentifier name.toList = true)
    (value : String) : splitAssignment? (name ++ "=" ++ value) = some (name, value) := by
  have before : ∀ c ∈ name.toList, decide (c ≠ '=') = true := fun c hc =>
    decide_eq_true (ne_of_isNameChar (isNameChar_of_mem identifier c hc) (by decide))
  have text : (name ++ "=" ++ value).toList = name.toList ++ '=' :: value.toList := by simp
  have split : splitEquals? (name ++ "=" ++ value) = some (name, value) := by
    rw [splitEquals?, text, List.dropWhile_append_of_pos before,
      List.takeWhile_append_of_pos before]
    simp
  simp [splitAssignment?, split, identifier]

end Text

namespace Variables

open Token

section
variable {name value : String} (identifier : Text.isIdentifier name.toList = true)
  (null : '\x00' ∉ value.toList)
include identifier null

omit identifier in
theorem toList_entry :
    (entry name value).toList = (name.toList ++ ['=']) ++ quoteChars value.toList := by
  simp [entry, Text.quote, Text.quote?, null]

theorem inert_entry : Piece.Inert (entry name value).toList := by
  rw [toList_entry null]
  refine (Piece.inert_plain fun c hc => ?_).append (Text.inert_quoteChars _)
  rcases List.mem_append.1 hc with named | equals
  · exact Piece.isMark_eq_false (Text.isNameChar_of_mem identifier c named)
  · cases List.mem_singleton.1 equals
    decide

theorem beginsWord_entry : BeginsWord (entry name value).toList := by
  rw [toList_entry null]
  cases named : name.toList with
  | nil => simp [named, Text.isIdentifier] at identifier
  | cons c r =>
    have plain := Text.plain_of_isNameChar
      (Text.isNameChar_of_mem identifier c (named ▸ List.mem_cons_self))
    exact plain.beginsWord _

theorem spells_entry : Spells (entry name value).toList (name ++ "=" ++ value).toList := by
  have text : (name ++ "=" ++ value).toList = (name.toList ++ ['=']) ++ value.toList := by simp
  rw [toList_entry null, text]
  refine Spells.append ⟨_, spellsAs_plain fun c hc => ?_⟩ (spells_quoteChars _)
  rcases List.mem_append.1 hc with named | equals
  · exact Text.plain_of_isNameChar (Text.isNameChar_of_mem identifier c named)
  · cases List.mem_singleton.1 equals
    exact ⟨by decide, by decide, by decide⟩

omit null in
theorem isPattern_eq_false (bare : ∀ c ∈ value.toList, Text.needsNoQuote c = true) :
    Pattern.isPattern (name ++ "=" ++ value) = false := by
  have text : (name ++ "=" ++ value).toList = name.toList ++ '=' :: value.toList := by simp
  rw [Pattern.isPattern, text, List.any_eq_false]
  intro c hc special
  have listed : c = '*' ∨ c = '?' ∨ c = '[' := by simpa using special
  rcases List.mem_append.1 hc with named | hc
  · have letter := Text.isNameChar_of_mem identifier c named
    rcases listed with rfl | rfl | rfl <;> exact absurd letter (by decide)
  rcases List.mem_cons.1 hc with rfl | valued
  · exact absurd listed (by decide)
  · have kept := bare c valued
    rcases listed with rfl | rfl | rfl <;> exact absurd kept (by decide)

/-- An entry is one word. If it holds a character of patterns, it is marked as quoted. -/
theorem next?_entry (fits : name.utf8ByteSize + 1 + value.utf8ByteSize ≤ 4096) :
    ∃ quoted, next? (entry name value).toList =
        .ok (some (⟨.word, name ++ "=" ++ value, quoted⟩, [])) ∧
      (quoted = false → Pattern.isPattern (name ++ "=" ++ value) = false) := by
  have size : (name ++ "=" ++ value).utf8ByteSize ≤ maxWordBytes := by
    rw [String.utf8ByteSize_append, String.utf8ByteSize_append]
    exact fits
  obtain ⟨quoted, found⟩ := shows_of_spells (beginsWord_entry identifier null)
    (spells_entry identifier null) size [] (.inl rfl)
  rw [List.append_nil] at found
  refine ⟨quoted, found, fun unquoted => ?_⟩
  have scanned : scanWord .empty .bare (entry name value).toList =
      .ok (⟨.word, name ++ "=" ++ value, quoted⟩, []) := by
    rw [(beginsWord_entry identifier null).next?] at found
    cases scanned : scanWord .empty .bare (entry name value).toList with
    | error e => simp [scanned, Except.map] at found
    | ok result => simpa [scanned, Except.map] using found
  obtain ⟨read, all, single, double⟩ := no_quotes_of_unquoted scanned unquoted
  rw [List.append_nil, toList_entry null] at all
  rw [← all] at single double
  exact isPattern_eq_false identifier (Text.needsNoQuote_of_unquoted
    (fun h => single (List.mem_append_right _ h)) (fun h => double (List.mem_append_right _ h)))

end
end Variables

namespace SessionM

section
variable {name : String} (identifier : Text.isIdentifier name.toList = true) (value : String)
  (source : Builtin.Sourcing) (m : Machine)
include identifier

theorem runCommand_assignment :
    (runCommand source ⟨[name ++ "=" ++ value], none, none, false⟩).run m =
      (.ok 0, { m with shell := { m.shell with vars := m.shell.vars.set name value } }) := by
  have assigns : Command.assignment? ⟨[name ++ "=" ++ value], none, none, false⟩ =
      some (name, value) :=
    Text.splitAssignment?_equals identifier value
  rw [runCommand_eq, assigns]
  rfl

omit identifier in
theorem forEach_singleton (arg : String) (act : String → SessionM Int) :
    Tables.forEach [arg] act m =
      (if (act arg m).1 = 0 then 0 else (act arg m).1, (act arg m).2) := by
  have halted (m : Machine) : isHalted m = (m.isHalted, m) := rfl
  simp only [Tables.forEach, Tables.goThrough, Engine.bind_apply, halted, Engine.ite_apply]
  exact ite_self _

theorem runExport_assignment : Tables.runExport ["export", name ++ "=" ++ value] m =
    (0, { m with shell := { m.shell with vars := m.shell.vars.setExported name value } }) := by
  have exports : Tables.exportOne (name ++ "=" ++ value) m =
      (0, { m with shell := { m.shell with vars := m.shell.vars.setExported name value } }) := by
    rw [Tables.exportOne, Text.splitAssignment?_equals identifier value]
    rfl
  refine (forEach_singleton m (name ++ "=" ++ value) Tables.exportOne).trans ?_
  rw [exports]
  rfl

/-- A builtin also writes out what was printed before it. -/
theorem runCommand_export : ∃ unwritten host,
    (runCommand source ⟨["export", name ++ "=" ++ value], none, none, false⟩).run m =
      (.ok 0, ⟨{ m.shell with vars := m.shell.vars.setExported name value, unwritten }, host⟩) := by
  let m' : Machine :=
    { m with shell := { m.shell with vars := m.shell.vars.setExported name value } }
  obtain ⟨unwritten, flushed⟩ := (tolerant_printed.flush m').1
  refine ⟨unwritten, (flush m').2.host, ?_⟩
  have ran : (runCommand source ⟨["export", name ++ "=" ++ value], none, none, false⟩).run m =
      (.ok (Tables.runExport ["export", name ++ "=" ++ value] m).1,
        (flush (Tables.runExport ["export", name ++ "=" ++ value] m).2).2) := rfl
  rw [ran, runExport_assignment identifier]
  exact congrArg (fun sh => (Except.ok 0, (⟨sh, (flush m').2.host⟩ : Machine))) flushed

end

/-! ### Printing and running an entry -/

open Machine (Wrote)

theorem wrote_runSet {m : Machine} (h : m.Records) (argv : List String) :
    Wrote (m.shell.vars.list.flatMap fun p =>
      Bytes.ofString (Variables.entry p.1 p.2.value ++ "\n")) m (Tables.runSet argv m).2 := by
  refine forM_of_records (fun p m h => ?_) m.shell.vars.list h
  simpa [Variables.entry] using say_of_records h [p.1, "=", Text.quote p.2.value, "\n"]

theorem wrote_runExport {m : Machine} (h : m.Records) {argv : List String}
    (alone : argv.length = 1) :
    Wrote (m.shell.vars.environment.flatMap fun p =>
      Bytes.ofString ("export " ++ Variables.entry p.1 p.2 ++ "\n")) m
      (Tables.runExport argv m).2 := by
  rw [Tables.runExport, if_pos alone]
  refine forM_of_records (fun p m h => ?_) m.shell.vars.environment h
  simpa [Variables.entry] using say_of_records h ["export ", p.1, "=", Text.quote p.2, "\n"]

end SessionM

namespace Variables

open Token SessionM

section
variable {name value : String} (identifier : Text.isIdentifier name.toList = true)
  (null : '\x00' ∉ value.toList)
include identifier null

theorem inert_exportEntry : Piece.Inert ("export " ++ entry name value).toList := by
  have unmarked : "export ".toList.all (!Piece.isMark ·) = true := by decide
  rw [String.toList_append]
  refine (Piece.inert_plain fun c hc => ?_).append (inert_entry identifier null)
  simpa using List.all_eq_true.1 unmarked c hc

end

theorem tokenize_entry {text word : String} {quoted : Bool}
    (found : next? text.toList = .ok (some (⟨.word, word, quoted⟩, []))) :
    (∀ limit ≥ 2, tokenize limit text = .ok [⟨.word, word, quoted⟩, eof]) ∧
    ∀ limit ≥ 3, tokenize limit ("export " ++ text) =
      .ok [⟨.word, "export", false⟩, ⟨.word, word, quoted⟩, eof] := by
  have read (budget : Nat) : scan (budget + 1) text.toList = .ok [⟨.word, word, quoted⟩, eof] :=
    scan_succ_of_next? found (scan_nil budget)
  constructor
  · intro limit room
    obtain ⟨k, rfl⟩ := Nat.exists_eq_add_of_le' room
    exact read k
  · intro limit room
    obtain ⟨k, rfl⟩ := Nat.exists_eq_add_of_le' room
    have line : ("export " ++ text).toList = "export".toList ++ ' ' :: text.toList := by simp
    rw [tokenize, line]
    exact scan_succ_of_next? (next?_export _) ((scan_space _ _).trans (read k))

theorem get?_insert {name : String} (identifier : Text.isIdentifier name.toList = true)
    (v : Variables) (x : Variable) (status : Int) :
    ({ v with named := v.named.insert name x, status } : Variables).get? name = some x.value := by
  rw [get?, special?_eq_none _ identifier]
  simp

theorem leadingWord_export (text : String) :
    Aliases.leadingWord ("export " ++ text) = "export" := by
  rw [Aliases.leadingWord, String.toList_append]
  rfl

theorem expanded_of_inert {m : Machine} {line : String} (plain : Piece.Inert line.toList)
    (unaliased : m.shell.aliases.get? (Aliases.leadingWord line) = none) :
    m.expanded line = (line, m.shell.vars) := by
  rw [Machine.expanded, Aliases.expand_eq_self unaliased]
  exact Piece.expandReferences_of_inert plain _

theorem head?_entry {name value : String} (identifier : Text.isIdentifier name.toList = true) :
    (name ++ "=" ++ value).toList.head? ≠ some '~' := by
  cases named : name.toList with
  | nil => simp [named, Text.isIdentifier] at identifier
  | cons c r =>
    have other : c ≠ '~' := Text.ne_of_isNameChar
      (Text.isNameChar_of_mem identifier c (named ▸ List.mem_cons_self)) (by decide)
    simpa [named] using other

/-- For every identifier and every value without null characters that fits into a word with it, the
entry of a listing stands for itself under every store of values and is read as one word. A session
that runs it, without an alias for its leading word, sets the variable to that value and otherwise
only takes over the status; behind `export` it exports the variable too, and what was printed before
is written out. Such entries are what `set` and `export` print. -/
theorem listed_variables_run (name value : String)
    (identifier : Text.isIdentifier name.toList = true) (null : '\x00' ∉ value.toList)
    (fits : name.utf8ByteSize + 1 + value.utf8ByteSize ≤ 4096) :
    let line := entry name value
    let word := name ++ "=" ++ value
    (∀ (σ : Type) [Bindings σ] (s : σ), expandReferences s line = (line, s) ∧
      expandReferences s ("export " ++ line) = ("export " ++ line, s)) ∧
    (∃ quoted, (∀ limit ≥ 2, tokenize limit line = .ok [⟨.word, word, quoted⟩, eof]) ∧
      ∀ limit ≥ 3, tokenize limit ("export " ++ line) =
        .ok [⟨.word, "export", false⟩, ⟨.word, word, quoted⟩, eof]) ∧
    (∀ m : Machine, m.shell.aliases.get? (Aliases.leadingWord line) = none →
      3 ≤ m.shell.settings.maxTokens →
      let vars := { m.shell.vars.set name value with status := 0 }
      runLine line m = (0, { m with shell := { m.shell with vars } }) ∧
        vars.get? name = some value) ∧
    (∀ m : Machine, m.shell.aliases.get? "export" = none → 4 ≤ m.shell.settings.maxTokens →
      let vars := { m.shell.vars.setExported name value with status := 0 }
      (∃ unwritten host,
        runLine ("export " ++ line) m = (0, ⟨{ m.shell with vars, unwritten }, host⟩)) ∧
        vars.get? name = some value ∧ vars.isExported name = true) ∧
    ∀ m : Machine, m.Records →
      (∀ argv, m.Wrote (m.shell.vars.list.flatMap fun p =>
        Bytes.ofString (entry p.1 p.2.value ++ "\n")) (Tables.runSet argv m).2) ∧
      ∀ argv, argv.length = 1 → m.Wrote (m.shell.vars.environment.flatMap fun p =>
        Bytes.ofString ("export " ++ entry p.1 p.2 ++ "\n")) (Tables.runExport argv m).2 := by
  intro line word
  have plain := inert_entry identifier null
  have plain' := inert_exportEntry identifier null
  obtain ⟨quoted, found, tame⟩ := next?_entry identifier null fits
  obtain ⟨alone, exported⟩ := tokenize_entry found
  have expands (m : Machine) : Command.expandWord m.shell.surroundings m.host.tree
      ⟨.word, word, quoted⟩ = [word] :=
    Command.expandWord_eq_self _ _ fun unquoted => ⟨head?_entry identifier, tame unquoted⟩
  have exporting (m : Machine) : Command.expandWord m.shell.surroundings m.host.tree
      ⟨.word, "export", false⟩ = ["export"] :=
    Command.expandWord_eq_self _ _ fun _ => by decide
  refine ⟨fun σ _ s => ⟨Piece.expandReferences_of_inert plain s,
    Piece.expandReferences_of_inert plain' s⟩, ⟨quoted, alone, exported⟩, ?_, ?_, ?_⟩
  · intro m unaliased room vars
    refine ⟨?_, get?_insert identifier _ _ _⟩
    have words : ∀ t ∈ [(⟨.word, word, quoted⟩ : Token)], t.kind = .word := by simp
    have argv : [(⟨.word, word, quoted⟩ : Token)].flatMap
        (Command.expandWord m.shell.surroundings m.host.tree) = [word] := by simp [expands]
    exact runLine_words words (expanded_of_inert plain unaliased) (alone _ (by omega)) room argv
      (List.cons_ne_nil _ _) (runCommand_assignment identifier value sourceFile m)
  · intro m unaliased room vars
    refine ⟨?_, get?_insert identifier _ _ _, by simp [vars, setExported, isExported]⟩
    obtain ⟨unwritten, host, ran⟩ := runCommand_export identifier value sourceFile m
    refine ⟨unwritten, host, ?_⟩
    have unaliased' := leadingWord_export line ▸ unaliased
    have words : ∀ t ∈ [(⟨.word, "export", false⟩ : Token), ⟨.word, word, quoted⟩],
        t.kind = .word := by simp
    have argv : [(⟨.word, "export", false⟩ : Token), ⟨.word, word, quoted⟩].flatMap
        (Command.expandWord m.shell.surroundings m.host.tree) = ["export", word] := by
      simp [expands, exporting]
    exact runLine_words words (expanded_of_inert plain' unaliased') (exported _ (by omega)) room
      argv (List.cons_ne_nil _ _) ran
  · exact fun m records => ⟨wrote_runSet records, fun argv => wrote_runExport records⟩

/-- A value with quotes of both kinds, a reference, a backslash, a pattern, a circumflex, an
exclamation mark and a line feed. -/
theorem listed_variables_run_mixed :
    let value := "it's \"$HOME\\*\"^!\n"
    let m := Machine.start FileTree.empty FileTree.root .null [] .default
    let m' : Machine := { m with shell := { m.shell with vars := m.shell.vars.set "A_1" value } }
    entry "A_1" value = "A_1=\"it's \\\"\"'$HOME'\"\\\\*\\\"\"'^!\n'" ∧
      runLine (entry "A_1" value) m = (0, m') ∧
      (runLine ("export " ++ entry "A_1" value) m).2.shell.vars.environment = [("A_1", value)] ∧
      m'.Wrote (Bytes.ofString (entry "A_1" value ++ "\n")) (Tables.runSet ["set"] m').2 := by
  intro value m m'
  obtain ⟨-, -, assigned, exported, printed⟩ := listed_variables_run "A_1" value (by decide)
    (by decide) (by decide)
  obtain ⟨⟨unwritten, host, ran⟩, -⟩ := exported m (by decide) (by decide)
  refine ⟨by decide, (assigned m (by decide) (by decide)).1, by rw [ran]; rfl, ?_⟩
  have records : m'.Records := Machine.records_start FileTree.empty FileTree.root .null [] .default
  have listed : m'.shell.vars.list = [("A_1", ⟨value, false⟩)] := rfl
  have all := (printed m' records).1 ["set"]
  rwa [listed, List.flatMap_singleton] at all

end Variables
end JobShell
