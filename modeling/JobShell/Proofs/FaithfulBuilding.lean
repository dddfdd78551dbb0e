import JobShell.Proofs.Building
import Mathlib.Data.List.Induction

/-! Commands are what their tokens spell: words in order, and for input and output the file that is
named last. In a pipeline only the first stage keeps its input and only the last one its output. -/
namespace JobShell

open Token Grammar

/-! ### Words and targets -/

namespace Token

/-- The words that stand behind no redirection, the token before the first one given. -/
def argumentsAfter (before : Option Token) (ts : List Token) : List Token :=
  (((before :: ts.map some).zip ts).filter fun p =>
    p.2.kind = .word && !p.1.any (·.kind.isRedirection)).map (·.2)

/-- The words that are not the targets of redirections. -/
def arguments (ts : List Token) : List Token := argumentsAfter none ts

/-- The redirections and their targets, in order. -/
def redirections (ts : List Token) : List (Token × Token) :=
  (ts.zip ts.tail).filter (·.1.kind.isRedirection)

theorem argumentsAfter_cons (before : Option Token) (t : Token) (ts : List Token) :
    argumentsAfter before (t :: ts) =
      (if t.kind = .word && !before.any (·.kind.isRedirection) then [t] else []) ++
        argumentsAfter (some t) ts := by
  rw [argumentsAfter, List.map_cons, List.zip_cons_cons, List.filter_cons]
  split <;> rfl

theorem redirections_cons_cons (t u : Token) (ts : List Token) :
    redirections (t :: u :: ts) =
      (if t.kind.isRedirection then [(t, u)] else []) ++ redirections (u :: ts) := by
  rw [redirections, List.tail_cons, List.zip_cons_cons, List.filter_cons]
  split <;> rfl

theorem redirections_cons_of_not {t : Token} (h : t.kind.isRedirection = false) (ts : List Token) :
    redirections (t :: ts) = redirections ts := by
  cases ts with
  | nil => rfl
  | cons u ts => simp [redirections_cons_cons, h]

theorem redirections_redirection {op target : Token} (h : op.kind.isRedirection = true)
    (h' : target.kind.isRedirection = false) (ts : List Token) :
    redirections (op :: target :: ts) = (op, target) :: redirections ts := by
  rw [redirections_cons_cons, if_pos h, redirections_cons_of_not h', List.singleton_append]

end Token

namespace Grammar

/-- The words that an item adds to a command. -/
def Item.arguments : Item → List Token
  | word w => [w.token]
  | redirection _ _ => []

/-- The redirections that an item adds to a command. -/
def Item.redirections : Item → List (Token × Token)
  | word _ => []
  | redirection op target => [(op.token, target.token)]

theorem Word.not_isRedirection (w : Word) : w.token.kind.isRedirection = false := by
  rw [w.kind_eq]
  rfl

theorem argumentsAfter_items {before : Token} (h : before.kind.isRedirection = false)
    (items : List Item) :
    argumentsAfter (some before) (items.flatMap Item.tokens) = items.flatMap Item.arguments := by
  induction items generalizing before with
  | nil => rfl
  | cons i items ih =>
    cases i with
    | word w =>
      rw [List.flatMap_cons, List.flatMap_cons, ← ih w.not_isRedirection]
      simp [Item.tokens, Item.arguments, argumentsAfter_cons, w.kind_eq, h]
    | redirection op target =>
      have notWord : op.token.kind ≠ .word := by
        have imp : ∀ k : Kind, k.isRedirection = true → k ≠ .word := by decide
        exact imp _ op.isAllowed
      rw [List.flatMap_cons, List.flatMap_cons, ← ih target.not_isRedirection]
      simp [Item.tokens, Item.arguments, argumentsAfter_cons, op.isAllowed, notWord]

theorem redirections_items (items : List Item) (rest : List Token) :
    Token.redirections (items.flatMap Item.tokens ++ rest) =
      items.flatMap Item.redirections ++ Token.redirections rest := by
  induction items with
  | nil => rfl
  | cons i items ih =>
    rw [List.flatMap_cons, List.flatMap_cons, List.append_assoc, List.append_assoc, ← ih]
    cases i with
    | word w => exact redirections_cons_of_not w.not_isRedirection _
    | redirection op target =>
      exact redirections_redirection op.isAllowed target.not_isRedirection _

theorem CommandTree.arguments_tokens (c : CommandTree) :
    Token.arguments c.tokens = c.first.token :: c.items.flatMap Item.arguments := by
  rw [tokens, Token.arguments, argumentsAfter_cons, argumentsAfter_items c.first.not_isRedirection]
  simp [c.first.kind_eq]

theorem CommandTree.redirections_append (c : CommandTree) (rest : List Token) :
    Token.redirections (c.tokens ++ rest) =
      c.items.flatMap Item.redirections ++ Token.redirections rest := by
  rw [tokens, List.cons_append, redirections_cons_of_not c.first.not_isRedirection,
    redirections_items]

theorem CommandTree.redirections_tokens (c : CommandTree) :
    Token.redirections c.tokens = c.items.flatMap Item.redirections := by
  have whole := c.redirections_append []
  rw [List.append_nil] at whole
  exact whole.trans (List.append_nil _)

theorem PipelineTree.redirections_tokens (p : PipelineTree) :
    Token.redirections p.tokens = p.commands.flatMap fun c => Token.redirections c.tokens := by
  induction p with
  | one c => simp [tokens, commands]
  | more c bar rest ih =>
    have noRedirection : bar.token.kind.isRedirection = false := by
      rw [bar.kind_eq]
      rfl
    rw [tokens, c.redirections_append, redirections_cons_of_not noRedirection, ih, commands,
      List.flatMap_cons, c.redirections_tokens]

end Grammar

/-! ### Commands -/

namespace Command

variable (here : Surroundings) (tree : FileTree)

/-- The last file that some redirections read from. -/
def lastInput (rs : List (Token × Token)) : Option String :=
  (rs.filter (·.1.kind = .input)).getLast?.map fun r => targetPath here r.2

/-- The last of some redirections that writes to a file. -/
def lastWriting (rs : List (Token × Token)) : Option (Token × Token) :=
  (rs.filter (·.1.kind ≠ .input)).getLast?

/-- The command that some tokens spell. -/
def spelled (ts : List Token) : Command where
  argv := (arguments ts).flatMap (expandWord here tree)
  input := lastInput here (redirections ts)
  output := (lastWriting (redirections ts)).map fun r => targetPath here r.2
  append := (lastWriting (redirections ts)).any (·.1.kind = .append)

theorem foldl_addItem (c : Command) (items : List Item) :
    items.foldl (addItem here tree) c =
      let last := lastWriting (items.flatMap Item.redirections)
      { argv := c.argv ++ (items.flatMap Item.arguments).flatMap (expandWord here tree)
        input := (lastInput here (items.flatMap Item.redirections)).or c.input
        output := (last.map fun r => targetPath here r.2).or c.output
        append := (last.map fun r => decide (r.1.kind = .append)).getD c.append } := by
  -- Items at the end win, so that they are taken from there.
  induction items using List.reverseRecOn with
  | nil => simp [lastInput, lastWriting]
  | append_singleton items i ih =>
    rw [List.foldl_append, ih, List.foldl_cons, List.foldl_nil]
    cases i with
    | word w => simp [addItem, Item.arguments, Item.redirections]
    | redirection op target =>
      by_cases kind : op.token.kind = .input <;>
        simp [addItem, Item.arguments, Item.redirections, kind, lastInput, lastWriting]

theorem ofTree_eq_spelled (c : CommandTree) : ofTree here tree c = spelled here tree c.tokens := by
  rw [ofTree, foldl_addItem, spelled, c.arguments_tokens, c.redirections_tokens]
  cases lastWriting (c.items.flatMap Item.redirections) <;> simp [empty]

/-! ### The flag beside the file -/

/-- Writing at the end is asked for only together with a file to write to. -/
def Matched (c : Command) : Prop := c.append = true → c.output.isSome = true

theorem matched_empty : empty.Matched := fun appends => absurd appends Bool.false_ne_true

/-- A redirection of the output sets both, and nothing else sets either. -/
theorem matched_gather {here : Surroundings} {tree : FileTree} {c built : Command} {ts : List Token}
    (matched : c.Matched) (h : gather here tree c ts = .ok built) : built.Matched := by
  fun_induction gather here tree c ts with
  | case1 c =>
    cases h
    exact matched
  | case2 c t rest word ih => exact ih matched h
  | case3 => cases h
  | case4 c t input target rest ih => exact ih matched h
  | case5 => cases h
  | case6 c t output target rest path ih => exact ih (fun _ => rfl) h
  | case7 => cases h
  | case8 c t append target rest path ih => exact ih (fun _ => rfl) h
  | case9 => cases h

theorem matched_ofTokens {here : Surroundings} {tree : FileTree} {ts : List Token} {built : Command}
    (h : ofTokens here tree ts = .ok built) : built.Matched := by
  unfold ofTokens at h
  split at h
  · cases h
  next c gathered =>
  split at h
  · cases h
  · cases h
    exact matched_gather matched_empty gathered

end Command

/-! ### Pipelines -/

namespace Pipeline

theorem segments_eq_splitOnP (ts : List Token) : segments ts = ts.splitOnP (·.kind = .pipe) := by
  induction ts with
  | nil => rfl
  | cons t ts ih =>
    rw [segments, ih, List.splitOnP_cons_eq_if_modifyHead]
    by_cases pipe : t.kind = .pipe
    · simp [pipe]
    · rw [if_neg pipe, if_neg (by simpa using pipe)]
      cases parts : ts.splitOnP (·.kind = .pipe) with
      | nil => exact absurd parts (List.splitOnP_ne_nil _ _)
      | cons s ss => rfl

/-- A command as one of `count` stages: it keeps its input if it is the first of them, and its
output if it is the last. -/
def stage (count index : Nat) (c : Command) : Command where
  argv := c.argv
  input := if index = 0 then c.input else none
  output := if index + 1 = count then c.output else none
  append := index + 1 = count && c.append

/-- Where a flag never stands alone, the one beside a file that is dropped is dropped too, and there
is no other to be left behind. -/
theorem confine_eq_stage {count index : Nat} {first last : Bool} {c : Command} (matched : c.Matched)
    (atStart : first = true ↔ index = 0) (atEnd : last = true ↔ index + 1 = count) :
    confine first last c = stage count index c := by
  obtain ⟨argv, input, output, append⟩ := c
  have alone : output = none → append = false := by
    rintro rfl
    exact Bool.eq_false_of_not_eq_true fun appends =>
      absurd (matched appends) Bool.false_ne_true
  cases first <;> cases last <;> cases output <;>
    simp_all [confine, stage]

theorem matched_confine {c : Command} (matched : c.Matched) (first last : Bool) :
    (confine first last c).Matched := by
  obtain ⟨argv, input, output, append⟩ := c
  cases first <;> cases last <;> cases output <;> simp_all [confine, Command.Matched]

theorem matched_ofSegments {here : Surroundings} {tree : FileTree} {first : Bool}
    {segments : List (List Token)} {built : Pipeline}
    (h : ofSegments here tree first segments = .ok built) : ∀ c ∈ built, c.Matched := by
  induction segments generalizing first built with
  | nil =>
    cases h
    exact List.forall_mem_nil _
  | cons s ss ih =>
    rw [ofSegments] at h
    split at h
    · cases h
    next c spelled =>
    cases rest : ofSegments here tree false ss with
    | error e =>
      rw [rest] at h
      cases h
    | ok stages =>
      rw [rest] at h
      cases h
      exact List.forall_mem_cons.2
        ⟨matched_confine (Command.matched_ofTokens spelled) _ _, ih rest⟩

variable (here : Surroundings) (tree : FileTree)

theorem ofSegments_eq_mapIdx {count before : Nat} {cs : List CommandTree}
    (h : before + cs.length = count) :
    ofSegments here tree (before = 0) (cs.map CommandTree.tokens) =
      .ok ((cs.map CommandTree.tokens).mapIdx fun i s =>
        stage count (before + i) (Command.spelled here tree s)) := by
  induction cs generalizing before with
  | nil => rfl
  | cons c cs ih =>
    rw [List.length_cons] at h
    -- The stages behind this one have one more before them, and so none of them is the first.
    have rest := @ih (before + 1) (by omega)
    rw [decide_eq_false (Nat.succ_ne_zero before)] at rest
    have isLast : cs.isEmpty = true ↔ before + 1 = count := by
      rw [List.isEmpty_iff, ← List.length_eq_zero_iff]
      omega
    have matched : (Command.spelled here tree c.tokens).Matched := by
      rw [← Command.ofTree_eq_spelled]
      exact Command.matched_ofTokens (Command.ofTokens_tree here tree c)
    rw [List.map_cons, ofSegments, Command.ofTokens_tree, Command.ofTree_eq_spelled, rest,
      List.mapIdx_cons]
    have confined := confine_eq_stage matched (decide_eq_true_iff (p := before = 0)) isLast
    simp only [Except.map, List.isEmpty_map, confined, Nat.add_zero, Nat.add_assoc, Nat.add_comm 1]

theorem length_commands (p : PipelineTree) :
    p.commands.length = p.tokens.countP (·.kind = .pipe) + 1 := by
  rw [← length_segments, p.segments_tokens, List.length_map]

end Pipeline

theorem Command.eq_spelled_of_build {here : Surroundings} {tree opened : FileTree} {c : CommandTree}
    {built : Command} (h : build here c.tokens tree = (.ok built, opened)) :
    built = spelled here opened c.tokens := by
  unfold build at h
  split at h
  · cases h
  · rw [ofTokens_tree, ofTree_eq_spelled] at h
    cases h
    rfl

theorem Pipeline.eq_stages_of_build {here : Surroundings} {tree opened : FileTree}
    {p : PipelineTree} {built : Pipeline} (h : build here p.tokens tree = (.ok built, opened)) :
    built = (p.tokens.splitOnP (·.kind = .pipe)).mapIdx fun i s =>
      stage (p.tokens.countP (·.kind = .pipe) + 1) i (Command.spelled here opened s) := by
  unfold build at h
  split at h
  · cases h
  · next probed _ =>
    obtain ⟨stages, rfl⟩ := Prod.mk.inj h
    have expected := ofSegments_eq_mapIdx here probed ((Nat.zero_add _).trans (length_commands p))
    rw [decide_eq_true rfl, ← p.segments_tokens, stages] at expected
    rw [Except.ok.inj expected, segments_eq_splitOnP]
    simp only [Nat.zero_add]

theorem Command.matched_of_build {here : Surroundings} {tree : FileTree} {ts : List Token}
    {built : Command} (h : (build here ts tree).1 = .ok built) : built.Matched := by
  unfold build at h
  split at h
  · cases h
  · exact matched_ofTokens h

theorem Pipeline.matched_of_build {here : Surroundings} {tree : FileTree} {ts : List Token}
    {built : Pipeline} (h : (build here ts tree).1 = .ok built) : ∀ c ∈ built, c.Matched := by
  unfold build at h
  split at h
  · cases h
  · exact matched_ofSegments h

/-- A command that has been built from a command of the grammar has the words that are not targets,
each expanded in its place, and a quoted one stands for itself. Its input is the target of the last
redirection from a file, and its output, and whether that is written at its end, come of the last
one to a file. A pipeline has one stage more than there are pipe signs: the commands between them in
order, of which only the first keeps its input and only the last its output. Whatever the tokens
are, what is built from them is written at the end of a file only if there is a file. -/
theorem building_is_faithful (here : Surroundings) (tree opened : FileTree) :
    (∀ (c : CommandTree) (built : Command), Command.build here c.tokens tree = (.ok built, opened) →
      built.argv = (arguments c.tokens).flatMap (Command.expandWord here opened) ∧
      built.input = Command.lastInput here (redirections c.tokens) ∧
      built.output = (Command.lastWriting (redirections c.tokens)).map
        (fun r => Command.targetPath here r.2) ∧
      built.append = (Command.lastWriting (redirections c.tokens)).any (·.1.kind = .append)) ∧
    (∀ w : Token, w.quoted = true → Command.expandWord here opened w = [w.text]) ∧
    (∀ (p : PipelineTree) (built : Pipeline),
      Pipeline.build here p.tokens tree = (.ok built, opened) →
      let count := p.tokens.countP (·.kind = .pipe) + 1
      let segments := p.tokens.splitOnP (·.kind = .pipe)
      built.length = count ∧ segments.length = count ∧
      built = segments.mapIdx (fun i s => Pipeline.stage count i (Command.spelled here opened s)) ∧
      ∀ s ∈ segments, Command.ofTokens here opened s = .ok (Command.spelled here opened s)) ∧
    (∀ (ts : List Token) (built : Command), (Command.build here ts tree).1 = .ok built →
      built.append = true → built.output.isSome = true) ∧
    ∀ (ts : List Token) (built : Pipeline), (Pipeline.build here ts tree).1 = .ok built →
      ∀ c ∈ built, c.append = true → c.output.isSome = true := by
  refine ⟨fun c built h => ?_, fun w quoted => ?_, fun p built h => ?_,
    fun ts built => Command.matched_of_build, fun ts built => Pipeline.matched_of_build⟩
  · rw [Command.eq_spelled_of_build h]
    exact ⟨rfl, rfl, rfl, rfl⟩
  · rw [Command.expandWord, if_pos quoted]
  · intro count segments
    have parts : segments = p.commands.map CommandTree.tokens := by
      rw [← p.segments_tokens, Pipeline.segments_eq_splitOnP]
    have size : segments.length = count := by
      rw [parts, List.length_map, Pipeline.length_commands]
    have stages := Pipeline.eq_stages_of_build h
    refine ⟨?_, size, stages, fun s hs => ?_⟩
    · rw [stages, List.length_mapIdx, size]
    · rw [parts] at hs
      obtain ⟨c, -, rfl⟩ := List.mem_map.1 hs
      rw [Command.ofTokens_tree, Command.ofTree_eq_spelled]

/-- Redirections in any order, and some that are dropped from a stage. -/
theorem building_is_faithful_mixed :
    let here : Surroundings := ⟨FileTree.root, "/h"⟩
    let tree := (FileTree.empty.create FileTree.root (Bytes.ofString "in") (.file [] false)).2
    let word (text : String) (quoted : Bool) : Word := ⟨⟨.word, text, quoted⟩, rfl⟩
    let input : Redirection := ⟨operator .input "<", rfl⟩
    let output : Redirection := ⟨operator .output ">", rfl⟩
    let append : Redirection := ⟨operator .append ">>", rfl⟩
    let c : CommandTree := ⟨word "a" false, [.redirection output (word "f" false),
      .word (word "~/x" false), .redirection input (word "in" false), .word (word "~" true),
      .redirection append (word "g" false)]⟩
    let p : PipelineTree := .more c ⟨operator .pipe "|", rfl⟩ (.one c)
    let argv := ["a", "/h/x", "~"]
    (∃ built opened, Command.build here c.tokens tree = (.ok built, opened) ∧
      built = ⟨argv, some "in", some "g", true⟩ ∧
      built.argv = (arguments c.tokens).flatMap (Command.expandWord here opened)) ∧
    ∃ built opened, Pipeline.build here p.tokens tree = (.ok built, opened) ∧
      built = [⟨argv, some "in", none, false⟩, ⟨argv, none, some "g", true⟩] ∧
      built = (p.tokens.splitOnP (·.kind = .pipe)).mapIdx fun i s =>
        Pipeline.stage 2 i (Command.spelled here opened s) := by
  intro here tree word input output append c p argv
  have single : Command.build here c.tokens tree =
      (.ok ⟨argv, some "in", some "g", true⟩, _) := Prod.ext (by decide +kernel) rfl
  have piped : Pipeline.build here p.tokens tree =
      (.ok [⟨argv, some "in", none, false⟩, ⟨argv, none, some "g", true⟩], _) :=
    Prod.ext (by decide +kernel) rfl
  obtain ⟨faithful, -⟩ := building_is_faithful here tree (Command.build here c.tokens tree).2
  obtain ⟨-, -, stages, -⟩ := building_is_faithful here tree (Pipeline.build here p.tokens tree).2
  exact ⟨⟨_, _, single, rfl, (faithful c _ single).1⟩,
    ⟨_, _, piped, rfl, (stages p _ piped).2.2.1⟩⟩

end JobShell
