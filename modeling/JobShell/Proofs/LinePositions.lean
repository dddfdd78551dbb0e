import JobShell.Proofs.Carriers
import JobShell.Proofs.LineParts

/-! Lines gone through by position. A descent through the grammar that looks at one position after
the other gives the answer of the check that only remembers what may come next, and passes over all
positions that run what ends at each of them do what running the parts of a line does. -/
namespace JobShell

open Carrier SessionM

/-! ### The grammar by descent -/

namespace Grammar

/-- What is read from a position on: a fault, or where it ends. -/
abbrev Reading (pos : Nat) : Type := Except Fault { next : Nat // pos ≤ next }

namespace Reading

def here (pos : Nat) : Reading pos := .ok ⟨pos, Nat.le_refl pos⟩

/-- Takes in the token in front. -/
def behind {pos : Nat} : Reading (pos + 1) → Reading pos
  | .error fault => .error fault
  | .ok ⟨next, h⟩ => .ok ⟨next, Nat.le_of_succ_le h⟩

/-- Reads on where something has ended. -/
def andThen {pos : Nat} : Reading pos → ((next : Nat) → pos ≤ next → Reading next) → Reading pos
  | .error fault, _ => .error fault
  | .ok ⟨next, h⟩, read =>
    match read next h with
    | .error fault => .error fault
    | .ok ⟨last, h'⟩ => .ok ⟨last, Nat.le_trans h h'⟩

end Reading

section Descent

variable (ts : List Token)

/-- The token at a position, if the line goes on there. -/
def peek (pos : Nat) : Option Token := ts[pos]?.filter (·.kind ≠ .eof)

def unexpectedAt (pos : Nat) : Fault :=
  match peek ts pos with
  | some t => .unexpected (shown t)
  | none => .unexpectedEnd

variable {ts} in
theorem peek_eq_some {pos : Nat} {t : Token} (found : peek ts pos = some t) :
    ts.drop pos = t :: ts.drop (pos + 1) ∧ t.kind ≠ .eof ∧ pos < ts.length := by
  obtain ⟨there, kind⟩ := Option.filter_eq_some_iff.1 found
  obtain ⟨inside, rfl⟩ := List.getElem?_eq_some_iff.1 there
  exact ⟨List.drop_eq_getElem_cons inside, by simpa using kind, inside⟩

/-- Expects a word. -/
def readWord (pos : Nat) : Reading pos :=
  if (peek ts pos).any (·.kind = .word) then (Reading.here (pos + 1)).behind
  else .error (unexpectedAt ts pos)

/-- Reads what follows the first word of a command. -/
def readArguments (pos : Nat) : Reading pos :=
  match found : peek ts pos with
  | none => .here pos
  | some t =>
    have := (peek_eq_some found).2.2
    match t.kind with
    | .word => (readArguments (pos + 1)).behind
    | .input | .output | .append =>
      ((readWord ts (pos + 1)).andThen fun next _ => readArguments next).behind
    | .heredoc | .herestring => .error (.unsupportedRedirection t.text)
    | .leftParen | .rightParen => .error (.unsupportedGrouping t.text)
    | _ => .here pos
termination_by ts.length - pos

def readCommand (pos : Nat) : Reading pos :=
  (readWord ts pos).andThen fun next _ => readArguments ts next

/-- Reads parts of one kind, each behind an operator and if the token there is right for it. -/
def readJoined (joins : Token.Kind → Bool) (right : Option Token → Bool)
    (part : (pos : Nat) → Reading pos) (pos : Nat) : Reading pos :=
  match found : peek ts pos with
  | none => .here pos
  | some t =>
    have := (peek_eq_some found).2.2
    if joins t.kind then
      if right (peek ts (pos + 1)) then
        ((part (pos + 1)).andThen fun next _ => readJoined joins right part next).behind
      else .error (unexpectedAt ts (pos + 1))
    else .here pos
termination_by ts.length - pos

def readPipeline (pos : Nat) : Reading pos :=
  (readCommand ts pos).andThen fun next _ =>
    readJoined ts (· = .pipe) (·.any (·.kind = .word)) (readCommand ts) next

def readList (pos : Nat) : Reading pos :=
  (readPipeline ts pos).andThen fun next _ =>
    readJoined ts Token.Kind.isConnector Option.isSome (readPipeline ts) next

/-- Reads what follows a list, each further one behind a separator. -/
def readLists (pos : Nat) : Except Fault Unit :=
  match found : peek ts pos with
  | none => .ok ()
  | some t =>
    have := (peek_eq_some found).2.2
    if !t.kind.isSeparator then .error (unexpectedAt ts pos)
    else if (peek ts (pos + 1)).isNone then .ok ()
    else match readList ts (pos + 1) with
      | .error fault => .error fault
      | .ok ⟨next, _⟩ => readLists next
termination_by ts.length - pos

def readLine : Except Fault Unit :=
  if (peek ts 0).isNone then .ok ()
  else match readList ts 0 with
    | .error fault => .error fault
    | .ok ⟨next, _⟩ => readLists ts next

end Descent

/-! ### Descent and check -/

section Agreement

variable {ts : List Token} {pos : Nat} {t : Token}

/-- Where a line ends, the check has its answer. -/
theorem check_of_peek_none (none : peek ts pos = none) (e : Expect) :
    check e (ts.drop pos) = if e = .word then .error .unexpectedEnd else .ok () := by
  cases rest : ts.drop pos with
  | nil => cases e <;> rfl
  | cons u _ =>
    have there : ts[pos]? = some u := by simp [← List.head?_drop, rest]
    have ended : u.kind = .eof := by simpa [peek, there] using none
    cases e <;> simp [check, ended]

theorem check_word_eq_unexpected (other : (peek ts pos).any (·.kind = .word) = false) :
    check .word (ts.drop pos) = .error (unexpectedAt ts pos) := by
  cases found : peek ts pos with
  | none => simp [check_of_peek_none found, unexpectedAt, found]
  | some t =>
    obtain ⟨rest, notEnd, -⟩ := peek_eq_some found
    have notWord : t.kind ≠ .word := by simpa [found] using other
    rw [rest, check, unexpectedAt, found]
    cases kind : t.kind <;> simp_all

/-- In front of a token, a list has to begin as a command has. -/
theorem check_list_of_peek (there : (peek ts pos).isNone ≠ true) :
    check .list (ts.drop pos) = check .word (ts.drop pos) := by
  obtain ⟨t, found⟩ := Option.ne_none_iff_exists'.1 (mt Option.isNone_iff_eq_none.2 there)
  obtain ⟨rest, notEnd, -⟩ := peek_eq_some found
  rw [rest, check, check]
  cases kind : t.kind <;> simp_all

/-- A reading agrees with the check: if it fails, so does the check, and if it ends somewhere, the
check goes on there in the middle of a command, and one of certain tokens follows. -/
def Reading.Agrees (ts : List Token) (e : Expect) (stops : Token.Kind → Bool) :
    Reading pos → Prop
  | .error fault => check e (ts.drop pos) = .error fault
  | .ok next => check e (ts.drop pos) = check .more (ts.drop next) ∧
    ∀ t ∈ peek ts next, stops t.kind = true

namespace Reading.Agrees

variable {e e' : Expect} {stops stops' : Token.Kind → Bool}

theorem here (stop : ∀ t ∈ peek ts pos, stops t.kind = true) :
    (Reading.here pos).Agrees ts .more stops := ⟨rfl, stop⟩

theorem of_check_eq {r : Reading pos} (h : r.Agrees ts e' stops)
    (same : check e (ts.drop pos) = check e' (ts.drop pos)) : r.Agrees ts e stops := by
  cases r with
  | error fault => exact same.trans h
  | ok next => exact ⟨same.trans h.1, h.2⟩

theorem behind {r : Reading (pos + 1)} (h : r.Agrees ts e' stops)
    (step : check e (ts.drop pos) = check e' (ts.drop (pos + 1))) : r.behind.Agrees ts e stops := by
  rcases r with fault | ⟨next, _⟩
  · exact step.trans h
  · exact ⟨step.trans h.1, h.2⟩

theorem andThen {r : Reading pos} {read : (next : Nat) → pos ≤ next → Reading next}
    (h : r.Agrees ts e stops)
    (rest : ∀ next h, (∀ t ∈ peek ts next, stops t.kind = true) →
      (read next h).Agrees ts .more stops') : (r.andThen read).Agrees ts e stops' := by
  rcases r with fault | ⟨next, le⟩
  · exact h
  · have more := rest next le h.2
    rw [Reading.andThen]
    generalize read next le = r at more ⊢
    rcases r with fault | ⟨last, _⟩
    · exact h.1.trans more
    · exact ⟨h.1.trans more.1, more.2⟩

end Reading.Agrees

theorem readWord_agrees (ts : List Token) (pos : Nat) :
    (readWord ts pos).Agrees ts .word fun _ => true := by
  unfold readWord
  split
  · next word =>
    obtain ⟨t, found, kind⟩ := (Option.any_eq_true ..).1 word
    refine .behind (.here fun _ _ => rfl) ?_
    simp_all [(peek_eq_some found).1, check]
  · next other => exact check_word_eq_unexpected (by simpa using other)

/-- What can follow a pipeline. -/
def endsPipeline (k : Token.Kind) : Bool := k.isConnector || k.isSeparator

/-- What can follow a command. -/
def endsCommand (k : Token.Kind) : Bool := k = .pipe || endsPipeline k

theorem readArguments_agrees (ts : List Token) (pos : Nat) :
    (readArguments ts pos).Agrees ts .more endsCommand := by
  fun_induction readArguments ts pos with
  | case1 pos none => exact .here (by simp [none])
  | case2 pos t found _ kind ih =>
    exact ih.behind (by rw [(peek_eq_some found).1, check, kind])
  | case3 pos t found _ kind ih | case4 pos t found _ kind ih | case5 pos t found _ kind ih =>
    refine ((readWord_agrees ts (pos + 1)).andThen fun next le _ => ih next le).behind ?_
    rw [(peek_eq_some found).1, check, kind]
  | case6 pos t found _ kind | case7 pos t found _ kind | case8 pos t found _ kind
  | case9 pos t found _ kind =>
    change check .more (ts.drop pos) = _
    rw [(peek_eq_some found).1, check, kind]
  | case10 pos t found _ =>
    obtain ⟨-, notEnd, -⟩ := peek_eq_some found
    refine .here fun u hu => ?_
    obtain rfl : t = u := by simpa [found] using hu
    cases kind : t.kind <;> simp_all [endsCommand, endsPipeline, Token.Kind.isConnector,
      Token.Kind.isSeparator]

theorem readCommand_agrees (ts : List Token) (pos : Nat) :
    (readCommand ts pos).Agrees ts .word endsCommand :=
  (readWord_agrees ts pos).andThen fun next _ _ => readArguments_agrees ts next

/-- Parts behind operators are read as the check goes on, up to what is none of the operators. -/
theorem readJoined_agrees {joins stops stops' : Token.Kind → Bool} {right : Option Token → Bool}
    {part : (pos : Nat) → Reading pos}
    (step : ∀ t ts, joins t.kind = true → check .more (t :: ts) = check .word ts)
    (wrong : ∀ pos, right (peek ts pos) = false → (peek ts pos).any (·.kind = .word) = false)
    (agrees : ∀ pos, (part pos).Agrees ts .word stops)
    (left : ∀ k, stops k = true → joins k = false → stops' k = true)
    (pos : Nat) (stop : ∀ t ∈ peek ts pos, stops t.kind = true) :
    (readJoined ts joins right part pos).Agrees ts .more stops' := by
  fun_induction readJoined ts joins right part pos with
  | case1 pos none => exact .here (by simp [none])
  | case2 pos t found _ joined _ ih =>
    refine ((agrees (pos + 1)).andThen fun next le stop => ih next le stop).behind ?_
    rw [(peek_eq_some found).1, step t _ joined]
  | case3 pos t found _ joined notRight =>
    change check .more (ts.drop pos) = _
    rw [(peek_eq_some found).1, step t _ joined]
    exact check_word_eq_unexpected (wrong _ (by simpa using notRight))
  | case4 pos t found _ other =>
    refine .here fun u hu => left _ (stop u hu) ?_
    obtain rfl : t = u := by simpa [found] using hu
    simpa using other

theorem readPipeline_agrees (ts : List Token) (pos : Nat) :
    (readPipeline ts pos).Agrees ts .word endsPipeline := by
  refine (readCommand_agrees ts pos).andThen fun next _ stop =>
    readJoined_agrees ?_ (fun _ => id) (readCommand_agrees ts) ?_ next stop
  · intro t rest pipe
    rw [check, of_decide_eq_true pipe]
  · simp_all [endsCommand]

theorem readList_agrees (ts : List Token) (pos : Nat) :
    (readList ts pos).Agrees ts .word Token.Kind.isSeparator := by
  refine (readPipeline_agrees ts pos).andThen fun next _ stop =>
    readJoined_agrees ?_ ?_ (readPipeline_agrees ts) ?_ next stop
  · intro t rest connector
    cases kind : t.kind <;> simp_all [check, Token.Kind.isConnector]
  · simp_all
  · intro k stops other
    simpa [endsPipeline, other] using stops

/-- A list is read where the line goes on. -/
theorem readList_agrees_list (there : (peek ts pos).isNone ≠ true) :
    (readList ts pos).Agrees ts .list Token.Kind.isSeparator :=
  (readList_agrees ts pos).of_check_eq (check_list_of_peek there)

/-- Behind a list, the check goes on as the descent does. -/
theorem readLists_eq_check (ts : List Token) (pos : Nat)
    (stop : ∀ t ∈ peek ts pos, t.kind.isSeparator = true) :
    readLists ts pos = check .more (ts.drop pos) := by
  have step {pos : Nat} {t : Token} (found : peek ts pos = some t)
      (separator : t.kind.isSeparator = true) :
      check .more (ts.drop pos) = check .list (ts.drop (pos + 1)) := by
    rw [(peek_eq_some found).1, check]
    cases kind : t.kind <;> simp_all [Token.Kind.isSeparator]
  fun_induction readLists ts pos with
  | case1 pos none => simp [check_of_peek_none none]
  | case2 pos t found _ other => simp_all
  | case3 pos t found _ separator ended =>
    rw [step found (stop t found), check_of_peek_none (Option.isNone_iff_eq_none.1 ended)]
    rfl
  | case4 pos t found _ separator more fault failed =>
    have agrees := readList_agrees_list more
    rw [failed] at agrees
    rw [step found (stop t found)]
    exact agrees.symm
  | case5 pos t found _ separator more next le done ih =>
    have agrees := readList_agrees_list more
    rw [done] at agrees
    rw [step found (stop t found), agrees.1]
    exact ih agrees.2

/-- The grammar by descent is the grammar that the check goes by. -/
theorem readLine_eq_check (ts : List Token) : readLine ts = check .list ts := by
  unfold readLine
  split
  · next ended => exact (check_of_peek_none (Option.isNone_iff_eq_none.1 ended) .list).symm
  · next more =>
    have agrees := readList_agrees_list more
    split
    · next fault failed =>
      rw [failed] at agrees
      exact agrees.symm
    · next next le done =>
      rw [done] at agrees
      rw [readLists_eq_check ts next agrees.2]
      exact agrees.1.symm

end Agreement
end Grammar

/-! ### Passes over positions -/

theorem extract_piece (front piece rest : List Token) :
    (front ++ piece ++ rest).extract front.length (front.length + piece.length) = piece := by
  simp

section Passes

variable {σ : Type} [Carrier σ] (ts : List Token)

namespace Engine

variable (E : Engine σ)

/-- Goes over positions from left to right and runs each segment where it ends, `start` being where
it begins. -/
def runSegmentsAt (start : Nat) (status : Int) : List Nat → StateM σ Int
  | [] => return status
  | stop :: stops =>
    if ts[stop]?.any (!·.kind.isSeparator) then runSegmentsAt start status stops
    else if (ts.extract start stop).isEmpty then runSegmentsAt (stop + 1) status stops
    else do
      let background := ts[stop]?.any (·.kind = .ampersand)
      let status ← E.runSegment ⟨ts.extract start stop, background⟩
      if ← lift isOver then return status
      runSegmentsAt (stop + 1) status stops

theorem runSegmentsAt_range' (front piece rest : List Token) (status : Int)
    (whole : ∀ t ∈ piece, t.kind.isSeparator = false) :
    E.runSegmentsAt (front ++ piece ++ rest) front.length status
        (List.range' (front.length + piece.length) (rest.length + 1)) =
      E.runSegments status (Segment.ofLine (piece ++ rest)) := by
  -- The part that is still to come gets shorter; its first token ends the piece or is added to it.
  induction rest generalizing front piece status with
  | nil =>
    have line : Segment.ofLine (piece ++ []) = if piece.isEmpty then [] else [⟨piece, false⟩] := by
      rw [List.append_nil, Segment.ofLine, Segment.ofTokens_no_separator whole]
      cases piece <;> rfl
    rw [line, List.length_nil, List.range'_succ, runSegmentsAt]
    cases piece with
    | nil => simp [runSegmentsAt, runSegments]
    | cons t piece => simp [runSegmentsAt, runSegments]
  | cons t rest ih =>
    have there : (front ++ piece ++ t :: rest)[front.length + piece.length]? = some t := by simp
    rw [List.length_cons, List.range'_succ, runSegmentsAt, there]
    by_cases separator : t.kind.isSeparator = true
    · have line : Segment.ofLine (piece ++ t :: rest) =
          (if piece.isEmpty then [] else [⟨piece, t.kind = .ampersand⟩]) ++
            Segment.ofLine rest := by
        rw [Segment.ofLine, Segment.ofTokens_append_separator whole separator]
        cases piece <;> rfl
      have later (status : Int) : E.runSegmentsAt (front ++ piece ++ t :: rest)
          (front.length + piece.length + 1) status
          (List.range' (front.length + piece.length + 1) (rest.length + 1)) =
            E.runSegments status (Segment.ofLine rest) := by
        simpa [Nat.add_assoc] using ih (front ++ piece ++ [t]) [] status (List.forall_mem_nil _)
      simp only [extract_piece, line, later, Option.any_some, separator]
      cases piece <;> rfl
    · have longer : ∀ u ∈ piece ++ [t], u.kind.isSeparator = false := by
        simpa [or_imp, forall_and] using ⟨whole, by simpa using separator⟩
      simpa [separator, Nat.add_assoc] using ih front (piece ++ [t]) status longer

/-- A line is run by one pass over its positions. -/
theorem runTokens_eq_pass : E.runTokens ts =
    (do E.runSegmentsAt ts 0 (← lift lastStatus) (List.range (ts.length + 1))) := by
  have pass (status : Int) := E.runSegmentsAt_range' [] [] ts status (List.forall_mem_nil _)
  simp only [List.nil_append, List.length_nil, Nat.add_zero, ← List.range_eq_range'] at pass
  simp only [pass]
  rfl

end Engine

namespace Chain

variable (execute : List Token → StateM σ Int)

/-- Runs a pipeline or not, as the connector in front of it says. -/
def runIf (connector : Option Connector) (status : Int) (ts : List Token) : StateM σ Int :=
  if connector.all (·.proceeds status) then do
    let status ← execute ts
    lift (setStatus status)
    return status
  else return status

/-- Goes over positions from left to right and runs each pipeline or not where it ends, `start`
being where it begins. -/
def runAt (start : Nat) (status : Int) (connector : Option Connector) : List Nat → StateM σ Int
  | [] => return status
  | stop :: stops =>
    if ts[stop]?.any (fun t => (Connector.ofKind? t.kind).isNone) then
      runAt start status connector stops
    else do
      let status ← runIf execute connector status (ts.extract start stop)
      if ← lift isOver then return status
      runAt (stop + 1) status (ts[stop]?.bind (Connector.ofKind? ·.kind)) stops

/-- Runs a chain that stands behind a connector. -/
def runBehind (connector : Option Connector) (status : Int) (c : Chain) : StateM σ Int := do
  proceed execute (← runIf execute connector status c.first) c.rest

theorem proceed_cons (status : Int) (k : Connector) (c : Chain) :
    proceed execute status ((k, c.first) :: c.rest) =
      (do if ← lift isOver then return status else runBehind execute (some k) status c) := by
  rw [proceed]
  by_cases proceeds : k.proceeds status = true
  · simp [runBehind, runIf, proceeds]
  · simp [runBehind, runIf, proceeds]

theorem runAt_range' (front piece rest : List Token) (connector : Option Connector) (status : Int)
    (whole : ∀ t ∈ piece, Connector.ofKind? t.kind = none) :
    runAt (front ++ piece ++ rest) execute front.length status connector
        (List.range' (front.length + piece.length) (rest.length + 1)) =
      runBehind execute connector status (ofTokens (piece ++ rest)) := by
  induction rest generalizing front piece connector status with
  | nil =>
    have chain : ofTokens (piece ++ []) = ⟨piece, []⟩ := by
      rw [List.append_nil, ofTokens_no_connector whole]
    have ended : (front ++ piece ++ [])[front.length + piece.length]? = none := by simp
    rw [chain, List.length_nil, List.range'_succ, runAt, ended, extract_piece]
    refine bind_congr fun status => ?_
    -- Whether anything more is to be done makes no difference at the end.
    funext s
    rw [Engine.bind_apply, lift_isOver]
    split <;> rfl
  | cons t rest ih =>
    have there : (front ++ piece ++ t :: rest)[front.length + piece.length]? = some t := by simp
    rw [List.length_cons, List.range'_succ, runAt, there]
    cases kind : Connector.ofKind? t.kind with
    | some k =>
      have later (status : Int) : runAt (front ++ piece ++ t :: rest) execute
          (front.length + piece.length + 1) status (some k)
          (List.range' (front.length + piece.length + 1) (rest.length + 1)) =
            runBehind execute (some k) status (ofTokens rest) := by
        simpa [Nat.add_assoc] using
          ih (front ++ piece ++ [t]) [] (some k) status (List.forall_mem_nil _)
      rw [ofTokens_cons_connector whole kind, extract_piece, Option.bind_some, Option.any_some, kind]
      refine bind_congr fun status => ?_
      rw [later, proceed_cons]
    | none =>
      have longer : ∀ u ∈ piece ++ [t], Connector.ofKind? u.kind = none := by
        simpa [or_imp, forall_and] using ⟨whole, kind⟩
      simpa [kind, Nat.add_assoc] using ih front (piece ++ [t]) connector status longer

/-- A segment is run by one pass over its positions. -/
theorem run_eq_pass : run execute (ofTokens ts) =
    runAt ts execute 0 0 none (List.range (ts.length + 1)) := by
  have pass := runAt_range' execute [] [] ts none 0 (List.forall_mem_nil _)
  simp only [List.nil_append, List.length_nil, Nat.add_zero, ← List.range_eq_range'] at pass
  rw [pass]
  simp [runBehind, runIf, run]

end Chain
end Passes
end JobShell
