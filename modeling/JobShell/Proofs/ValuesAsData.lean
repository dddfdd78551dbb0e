import JobShell.Proofs.DataReading
import JobShell.Proofs.FilledLine

/-! The values of variables as data: which operators a line has does not depend on the values of
its references, as long as no line feed comes in with a value outside quotes and the comments of
the line do not get in the way. -/
namespace JobShell

namespace Part

open Token Reading

/-- The quoting behind a part, of which only plain characters change it. -/
def requote (q : Reading) : Part → Reading
  | plain c => q.quoting c
  | value _ _ => q

/-- Whether a value stands where the quoting says. -/
def placed (q : Reading) : Part → Prop
  | plain _ => True
  | value d _ => q = if d then .double else .bare

/-- Whether a comment that ends in a part ends outside quotes. -/
def endsBare (q r : Reading) : Part → Bool
  | plain c => r ≠ .comment || c ≠ '\n' || q = .bare
  | value d v => r ≠ .comment || !v.contains '\n' || !d

/-- The line feeds of a value outside double quotes. -/
def exposed (r : Reading) : Part → Nat
  | plain _ => 0
  | value _ v => if r = .double then 0 else v.count '\n'

/-- The line feeds of the line itself outside quotes. -/
def ownFeeds (q : Reading) : Part → Nat
  | plain c => if c = '\n' ∧ q = .bare then 1 else 0
  | value _ _ => 0

/-- For a number sign in the line, whether it stands in a comment. -/
def marks (r : Reading) : Part → List Bool
  | plain c => if c = '#' then [r.step c = .comment] else []
  | value _ _ => []

theorem linefeed_not_mem_of_endsBare {q : Reading} {v : List Char}
    (h : (value true v).endsBare q .comment = true) : '\n' ∉ v := by
  simpa [endsBare] using h

theorem agrees_written {q r : Reading} (h : Agrees q r) {p : Part} (hp : p.placed q)
    (hend : p.endsBare q r = true) : Agrees (p.requote q) (r.read p.written) := by
  cases p with
  | plain c =>
    apply agrees_plain h
    simpa [endsBare, Decidable.imp_iff_not_or, or_assoc] using hend
  | value d v =>
    cases d with
    | false =>
      obtain rfl : q = .bare := hp
      exact (count_data h v).2
    | true =>
      obtain rfl : q = .double := hp
      rcases h with rfl | hr
      · have hn : '\n' ∉ Reference.escape true v := by
          rw [linefeed_mem_escape]
          exact linefeed_not_mem_of_endsBare hend
        exact Or.inl (read_comment _ hn).1
      · obtain rfl := eq_double_of_flat hr
        exact Or.inr (by rw [written, (read_double v).1]; rfl)

/-- Each line feed outside quotes becomes an operator, be it of the line or of a value. -/
theorem count_written {q r : Reading} (h : Agrees q r) {p : Part} (hp : p.placed q)
    (hend : p.endsBare q r = true) : (r.operators p.written).count .newline =
      r.pending.count .newline + p.ownFeeds q + p.exposed r := by
  cases p with
  | plain c =>
    apply count_plain h
    simpa [endsBare, Decidable.imp_iff_not_or, or_assoc] using hend
  | value d v =>
    cases d with
    | false =>
      obtain rfl : q = .bare := hp
      have hr : r ≠ .double := by
        rintro rfl
        rcases h with h | h <;> cases h
      simpa [written, ownFeeds, exposed, hr] using (count_data h v).1
    | true =>
      obtain rfl : q = .double := hp
      rcases h with rfl | hr
      · have hv : '\n' ∉ v := linefeed_not_mem_of_endsBare hend
        obtain ⟨hread, hemit⟩ := read_comment (Reference.escape true v)
          (by rwa [linefeed_mem_escape])
        simp [operators, written, hread, hemit, pending, ownFeeds, exposed,
          List.count_eq_zero_of_not_mem hv]
      · obtain rfl := eq_double_of_flat hr
        obtain ⟨hread, hemit⟩ := read_double v
        simp [operators, written, hread, hemit, pending, ownFeeds, exposed]

theorem linefeed_not_mem_of_exposed {r : Reading} {d : Bool} {v : List Char} (hr : r ≠ .double)
    (h : (value d v).exposed r = 0) : '\n' ∉ v := by
  simpa [exposed, hr, List.count_eq_zero] using h

/-- Alike parts hold the same operators and lead to close readings. -/
theorem Alike.emitted {q r r' : Reading} {p p' : Part} (h : Alike p p') (hp : p.placed q)
    (hr : Agrees q r) (hc : Close r r') (he : p.exposed r = 0) (he' : p'.exposed r' = 0)
    (hm : p.marks r = p'.marks r') :
    r.emitted p.written = r'.emitted p'.written ∧
      Close (r.read p.written) (r'.read p'.written) := by
  cases h with
  | plain c =>
    have hh : c = '#' → (r.step c = .comment ↔ r'.step c = .comment) := by
      intro hc
      simpa [marks, hc] using hm
    obtain ⟨hemit, hstep⟩ := hc.next hh
    exact ⟨by simp [written, Reading.emitted, hemit], Or.inl hstep⟩
  | @value d v w hv =>
    rcases hr with rfl | hr
    · obtain rfl : r' = .comment := hc.eq_comment
      have hnv := linefeed_not_mem_of_exposed (by decide) he
      have hnw := linefeed_not_mem_of_exposed (by decide) he'
      obtain ⟨hread, hemit⟩ := read_comment (Reference.escape d v)
        (by rwa [linefeed_mem_escape])
      obtain ⟨hread', hemit'⟩ := read_comment (Reference.escape d w)
        (by rwa [linefeed_mem_escape])
      simp only [written, hread, hemit, hread', hemit']
      exact ⟨trivial, Or.inl rfl⟩
    · cases d with
      | true =>
        obtain rfl : q = .double := hp
        obtain rfl := eq_double_of_flat hr
        obtain rfl : r' = .double := hc.eq_double
        simp only [written, read_double v, read_double w]
        exact ⟨trivial, Or.inl rfl⟩
      | false =>
        obtain rfl : q = .bare := hp
        have hr' : r'.flat = .bare := hc.flat ▸ hr
        have hnv := linefeed_not_mem_of_exposed (ne_double_of_flat hr) he
        have hnw := linefeed_not_mem_of_exposed (ne_double_of_flat hr') he'
        by_cases hnil : v = []
        · subst hnil
          obtain rfl : w = [] := by
            rcases hv with h | h
            · exact h.symm
            · exact absurd h.1 (by decide)
          exact ⟨rfl, hc⟩
        · have hnil' : w ≠ [] := by
            rintro rfl
            rcases hv with h | h
            · exact hnil h
            · exact absurd h.2 (by decide)
          obtain ⟨hemit, hread⟩ := read_data hr hnil hnv
          obtain ⟨hemit', hread'⟩ := read_data hr' hnil' hnw
          simp only [written, hemit, hemit']
          exact ⟨hc.pending, Or.inr ⟨hread, hread'⟩⟩

theorem Alike.length_marks {p p' : Part} (h : Alike p p') (r r' : Reading) :
    (p.marks r).length = (p'.marks r').length := by
  cases h with
  | plain c => by_cases hc : c = '#' <;> simp [marks, hc]
  | value d hv => rfl

/-! ### Whole lines

Each notion is carried along a line with the quoting, the reading, or both. -/

def Placed : Reading → List Part → Prop
  | _, [] => True
  | q, p :: ps => p.placed q ∧ Placed (p.requote q) ps

/-- Whether every comment that ends ends outside quotes. -/
def commentsEndBare : Reading → Reading → List Part → Bool
  | _, _, [] => true
  | q, r, p :: ps => p.endsBare q r && commentsEndBare (p.requote q) (r.read p.written) ps

def exposedFeeds : Reading → List Part → Nat
  | _, [] => 0
  | r, p :: ps => p.exposed r + exposedFeeds (r.read p.written) ps

def lineFeeds : Reading → List Part → Nat
  | _, [] => 0
  | q, p :: ps => p.ownFeeds q + lineFeeds (p.requote q) ps

def commentMarks : Reading → List Part → List Bool
  | _, [] => []
  | r, p :: ps => p.marks r ++ commentMarks (r.read p.written) ps

/-- The line feeds among the operators of a line are its own and those of its values. -/
theorem count_operators {q r : Reading} {ps : List Part} (h : Agrees q r) (hp : Placed q ps)
    (hend : commentsEndBare q r ps = true) :
    (r.operators (ps.flatMap written)).count .newline =
      r.pending.count .newline + lineFeeds q ps + exposedFeeds r ps := by
  -- What carries the induction is that the reading agrees with the quoting before each part.
  induction ps generalizing q r with
  | nil => rfl
  | cons p ps ih =>
    obtain ⟨hp, hps⟩ := hp
    simp only [commentsEndBare, Bool.and_eq_true] at hend
    have hpart := count_written h hp hend.1
    have hrest := ih (agrees_written h hp hend.1) hps hend.2
    rw [operators, List.count_append] at hpart
    rw [List.flatMap_cons, operators_append, List.count_append, hrest, lineFeeds, exposedFeeds]
    omega

theorem lineFeeds_alike {q : Reading} {ps ps' : List Part} (h : List.Forall₂ Alike ps ps') :
    lineFeeds q ps = lineFeeds q ps' := by
  induction h generalizing q with
  | nil => rfl
  | cons hp _ ih =>
    cases hp with
    | plain c => simp [lineFeeds, ownFeeds, requote, ih]
    | value d hv => simp [lineFeeds, ownFeeds, requote, ih]

/-- Alike lines without exposed line feeds hold the same operators. -/
theorem operators_alike {q r r' : Reading} {ps ps' : List Part} (h : List.Forall₂ Alike ps ps')
    (hp : Placed q ps) (hr : Agrees q r) (hend : commentsEndBare q r ps = true) (hc : Close r r')
    (he : exposedFeeds r ps = 0) (he' : exposedFeeds r' ps' = 0)
    (hm : commentMarks r ps = commentMarks r' ps') :
    r.operators (ps.flatMap written) = r'.operators (ps'.flatMap written) := by
  -- The two readings stay close, as a value may end in a blank under one store and not the other.
  induction h generalizing q r r' with
  | nil => exact hc.pending
  | @cons p p' ps ps' hpp _ ih =>
    obtain ⟨hp, hps⟩ := hp
    simp only [commentsEndBare, Bool.and_eq_true] at hend
    simp only [exposedFeeds, Nat.add_eq_zero_iff] at he he'
    obtain ⟨hm, hms⟩ := List.append_inj hm (hpp.length_marks r r')
    obtain ⟨hemit, hclose⟩ := hpp.emitted hp hr hc he.1 he'.1 hm
    have hrest := ih hps (agrees_written hr hp hend.1) hend.2 hclose he.2 he'.2 hms
    rw [List.flatMap_cons, List.flatMap_cons, operators_append, operators_append, hemit, hrest]

/-- References stand where the quoting says in every line. -/
theorem placed_fill {σ : Type} [Bindings σ] (s : σ) (place : Text.Place) (cs : List Char) :
    Placed (ofPlace place) (Piece.fill s (Piece.ofLine place cs)) := by
  fun_induction Piece.ofLine place cs generalizing s with
  | case1 => trivial
  | case2 place c h => exact ⟨trivial, trivial⟩
  | case3 place c h e r ih =>
    refine ⟨trivial, trivial, ?_⟩
    have hq : ((ofPlace place).quoting c).quoting e = ofPlace place := by
      simp only [Bool.and_eq_true, decide_eq_true_eq] at h
      obtain ⟨rfl, hp⟩ := h
      cases place with
      | bare => rfl
      | single => exact absurd rfl hp
      | double => rfl
    simpa only [requote, hq] using ih s
  | case4 place c r h h' ih =>
    refine ⟨trivial, ?_⟩
    simp only [Bool.and_eq_true, decide_eq_true_eq] at h'
    obtain ⟨rfl, hp⟩ := h'
    cases place with
    | bare => exact ih s
    | single => exact ih s
    | double => exact absurd rfl hp
  | case5 place c r h h' h'' ih =>
    refine ⟨trivial, ?_⟩
    simp only [Bool.and_eq_true, decide_eq_true_eq] at h''
    obtain ⟨rfl, hp⟩ := h''
    cases place with
    | bare => exact ih s
    | single => exact absurd rfl hp
    | double => exact ih s
  | case6 place c r h h' h'' h3 ih =>
    simp only [Bool.and_eq_true, decide_eq_true_eq] at h3
    refine ⟨?_, ih _⟩
    cases place with
    | bare => rfl
    | single => exact absurd rfl h3.2
    | double => rfl
  | case7 place c r h h' h'' h3 ih =>
    refine ⟨trivial, ?_⟩
    have hq : (ofPlace place).quoting c = ofPlace place := by
      cases place <;> simp_all [ofPlace, quoting, inWord, step]
    simpa only [requote, hq] using ih s

/-! ### Lines without comments -/

/-- Without a number sign of the line's own there is no comment. -/
theorem settled_of_not_mem {q r : Reading} {ps : List Part} (hp : Placed q ps)
    (hr : r ≠ .comment) (hq : r.flat = q) (hno : plain '#' ∉ ps) :
    commentsEndBare q r ps = true ∧ commentMarks r ps = [] := by
  induction ps generalizing q r with
  | nil => exact ⟨rfl, rfl⟩
  | cons p ps ih =>
    obtain ⟨hp, hps⟩ := hp
    simp only [List.mem_cons, not_or] at hno
    have hend : p.endsBare q r = true := by cases p <;> simp [endsBare, hr]
    have hmarks : p.marks r = [] := by
      cases p with
      | plain c =>
        have hc : c ≠ '#' := fun h => hno.1 (by rw [h])
        simp [marks, hc]
      | value d v => rfl
    have hread : r.read p.written ≠ .comment := by
      cases p with
      | plain c => exact step_ne_comment hr (fun h => hno.1 (by rw [h]))
      | value d v =>
        cases d with
        | true =>
          obtain rfl := eq_double_of_flat (hq.trans hp)
          rw [written, (read_double v).1]
          decide
        | false =>
          intro hc
          have hflat := (operators_data (hq.trans hp) v).2
          rw [written] at hc
          rw [hc] at hflat
          cases hflat
    have hflat : (r.read p.written).flat = p.requote q :=
      (agrees_written (Or.inr hq) hp hend).resolve_left hread
    obtain ⟨hends, hms⟩ := ih hps hread hflat hno.2
    simp [commentsEndBare, commentMarks, hend, hends, hmarks, hms]

theorem mem_fill {σ : Type} [Bindings σ] {s : σ} {ps : List Piece} {c : Char}
    (h : plain c ∈ Piece.fill s ps) : Piece.plain c ∈ ps := by
  induction ps generalizing s with
  | nil => cases h
  | cons p ps ih =>
    cases p with
    | plain d =>
      simp only [Piece.fill, List.mem_cons, Part.plain.injEq] at h
      rcases h with rfl | h
      · simp
      · exact List.mem_cons_of_mem _ (ih h)
    | reference q r =>
      simp only [Piece.fill, List.mem_cons, reduceCtorEq, false_or] at h
      exact List.mem_cons_of_mem _ (ih h)

theorem mem_ofLine {place : Text.Place} {cs : List Char} {c : Char}
    (h : Piece.plain c ∈ Piece.ofLine place cs) : c ∈ cs := by
  fun_induction Piece.ofLine place cs with
  | case1 => cases h
  | case2 => simpa using h
  | case3 place d _ e r ih =>
    simp only [List.mem_cons, Piece.plain.injEq] at h ⊢
    exact h.imp id (Or.imp id ih)
  | case4 place d r _ _ ih =>
    simp only [List.mem_cons, Piece.plain.injEq] at h ⊢
    exact h.imp id ih
  | case5 place d r _ _ _ ih =>
    simp only [List.mem_cons, Piece.plain.injEq] at h ⊢
    exact h.imp id ih
  | case6 place d r _ _ _ _ ih =>
    simp only [List.mem_cons, reduceCtorEq, false_or] at h
    exact List.mem_cons_of_mem _ ((Reference.read_suffix r).subset (ih h))
  | case7 place d r _ _ _ _ ih =>
    simp only [List.mem_cons, Piece.plain.injEq] at h ⊢
    exact h.imp id ih

end Part

/-! ### The main statement -/

section

variable {σ τ : Type} [Bindings σ] [Bindings τ]

/-- A line has the same comments under two stores, and they end outside quotes. -/
structure CommentsSettled (s : σ) (t : τ) (line : String) : Prop where
  marks : Part.commentMarks .gap (parts s line) = Part.commentMarks .gap (parts t line)
  left : Part.commentsEndBare .bare .gap (parts s line) = true
  right : Part.commentsEndBare .bare .gap (parts t line) = true

/-- The number of line feeds that come into a line with values outside double quotes. -/
def exposedFeeds (s : σ) (line : String) : Nat := Part.exposedFeeds .gap (parts s line)

end

/-- A line without a number sign has no comments. -/
theorem CommentsSettled.of_not_mem {σ τ : Type} [Bindings σ] [Bindings τ] (s : σ) (t : τ)
    {line : String} (h : '#' ∉ line.toList) : CommentsSettled s t line := by
  have hs := Part.settled_of_not_mem (r := .gap) (Part.placed_fill s .bare line.toList) (by decide)
    rfl (fun hm => h (Part.mem_ofLine (Part.mem_fill hm)))
  have ht := Part.settled_of_not_mem (r := .gap) (Part.placed_fill t .bare line.toList) (by decide)
    rfl (fun hm => h (Part.mem_ofLine (Part.mem_fill hm)))
  exact ⟨hs.2.trans ht.2.symm, hs.1, ht.1⟩

/-- Values are data but for their line feeds: under alike stores, of which one has no line feed in
a value outside double quotes, a line has the same operators exactly if the other has none either.
A line with a number sign must have the same comments under both stores, ending outside quotes. -/
theorem operatorKinds_eq_iff_exposedFeeds {σ τ : Type} [Bindings σ] [Bindings τ]
    [LawfulBindings σ] [LawfulBindings τ] (s : σ) (t : τ) (line : String) (limit : Nat)
    (ts us : List Token) (alike : StoresAlike s t)
    (hs : Token.tokenize limit (expandReferences s line).1 = .ok ts) (ls : ts.length < limit)
    (ht : Token.tokenize limit (expandReferences t line).1 = .ok us) (lt : us.length < limit)
    (comments : '#' ∈ line.toList → CommentsSettled s t line) (feeds : exposedFeeds s line = 0) :
    Token.operatorKinds ts = Token.operatorKinds us ↔ exposedFeeds t line = 0 := by
  have comments : CommentsSettled s t line := by
    by_cases h : '#' ∈ line.toList
    · exact comments h
    · exact .of_not_mem s t h
  have agrees : Token.Reading.Agrees .bare .gap := Or.inr rfl
  have hparts := parts_alike alike line
  have placed : Part.Placed .bare (parts s line) := Part.placed_fill s .bare line.toList
  have placed' : Part.Placed .bare (parts t line) := Part.placed_fill t .bare line.toList
  rw [Token.operatorKinds_tokenize hs ls, Token.operatorKinds_tokenize ht lt,
    toList_expandReferences, toList_expandReferences, List.append_left_inj]
  constructor
  · intro heq
    -- The line has the same line feeds of its own under both stores, so that the values must have
    -- equally many.
    have hcount := Part.count_operators agrees placed comments.left
    have hcount' := Part.count_operators agrees placed' comments.right
    rw [heq, hcount', Part.lineFeeds_alike hparts] at hcount
    unfold exposedFeeds at feeds ⊢
    omega
  · intro feeds'
    exact Part.operators_alike hparts placed agrees comments.left (Or.inl rfl) feeds feeds'
      comments.marks

/-- Operators in a value, and line feeds in double quotes and in comments, change nothing. -/
theorem operatorKinds_eq_of_quoted_linefeed :
    let s : Table String String := Table.ofList [("X", "a"), ("Y", "b")]
    let t : Table String String := Table.ofList [("X", "a;'|#"), ("Y", "b\n\"& c")]
    let line := "w $X \"$Y\" | z # $X"
    StoresAlike s t ∧ CommentsSettled s t line ∧ exposedFeeds s line = 0 ∧
      (Token.operatorKinds [⟨.word, "w", false⟩, ⟨.word, "a", false⟩, ⟨.word, "b", true⟩,
          ⟨.pipe, "|", false⟩, ⟨.word, "z", false⟩, ⟨.eof, "", false⟩] =
        Token.operatorKinds [⟨.word, "w", false⟩, ⟨.word, "a;'|#", true⟩,
          ⟨.word, "b\n\"& c", true⟩, ⟨.pipe, "|", false⟩, ⟨.word, "z", false⟩,
          ⟨.eof, "", false⟩] ↔ exposedFeeds t line = 0) := by
  intro s t line
  have alike : StoresAlike s t :=
    ((storesAlike_refl Table.empty).insert "X" (by decide) (by decide)).insert "Y" (by decide)
      (by decide)
  have comments : CommentsSettled s t line :=
    ⟨by decide +kernel, by decide +kernel, by decide +kernel⟩
  have feeds : exposedFeeds s line = 0 := by decide +kernel
  exact ⟨alike, comments, feeds,
    operatorKinds_eq_iff_exposedFeeds s t line 16 _ _ alike (by decide +kernel) (by decide)
      (by decide +kernel) (by decide) (fun _ => comments) feeds⟩

/-- The operators of a line under a store. -/
def operatorsUnder {σ : Type} [Bindings σ] (s : σ) (limit : Nat) (line : String) :
    Except ShellError (List Token.Kind) :=
  (Token.tokenize limit (expandReferences s line).1).map Token.operatorKinds

/-- Under alike stores a line may have different operators. A line feed in a value outside quotes
separates commands; behind a comment with a quote, an operator in a value comes to bear; and behind
a value that ends in a blank, a number sign begins a comment. -/
theorem operators_depend_on_values :
    let store (v : String) : Table String String := Table.ofList [("X", v)]
    (∀ v ∈ ["a\nb", "a;b", "a "], StoresAlike (store "a") (store v)) ∧
    (operatorsUnder (store "a") 1024 "echo $X" = .ok [.eof] ∧
      operatorsUnder (store "a\nb") 1024 "echo $X" = .ok [.newline, .eof]) ∧
    (operatorsUnder (store "a") 1024 "# \"\necho $X" = .ok [.newline, .eof] ∧
      operatorsUnder (store "a;b") 1024 "# \"\necho $X" = .ok [.newline, .semicolon, .eof]) ∧
    (operatorsUnder (store "a") 1024 "echo $X#;b" = .ok [.semicolon, .eof] ∧
      operatorsUnder (store "a ") 1024 "echo $X#;b" = .ok [.eof]) := by
  intro store
  have alike : ∀ v ∈ ["a\nb", "a;b", "a "], StoresAlike (store "a") (store v) := by
    intro v hv
    have visible : ∀ w ∈ ["a\nb", "a;b", "a "], Text.isVisible w.toList = true := by decide
    exact (storesAlike_refl Table.empty).insert "X" (by decide) (visible v hv)
  exact ⟨alike, ⟨by decide +kernel, by decide +kernel⟩, ⟨by decide +kernel, by decide +kernel⟩,
    by decide +kernel, by decide +kernel⟩

end JobShell
