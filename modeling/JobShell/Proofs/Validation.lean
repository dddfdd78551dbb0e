import JobShell.Proofs.ParseTree
import JobShell.Proofs.TokenStream
import Mathlib.Data.List.TakeWhile

/-! The check of a line against the grammar is exact: it accepts a line if and only if the line is
empty or has a parse tree. -/
namespace JobShell.Grammar

open Token

/-- The tokens before the first end mark. -/
def beforeEnd (ts : List Token) : List Token := ts.takeWhile (·.kind ≠ .eof)

/-- The check looks at nothing behind an end mark. -/
theorem check_beforeEnd (e : Expect) (ts : List Token) : check e (beforeEnd ts) = check e ts := by
  induction ts generalizing e with
  | nil => rfl
  | cons t ts ih =>
    by_cases ht : t.kind = .eof
    · have hnil : beforeEnd (t :: ts) = [] := by simp [beforeEnd, ht]
      rw [hnil]
      cases e <;> simp [check, ht]
    · have hcons : beforeEnd (t :: ts) = t :: beforeEnd ts := by simp [beforeEnd, ht]
      rw [hcons]
      cases e <;> simp only [check, ih]

/-! ### Trees are accepted -/

theorem check_word {e : Expect} {t : Token} (ht : t.kind = .word) (ts : List Token) :
    check e (t :: ts) = check .more ts := by
  cases e <;> simp [check, ht]

theorem Word.kind_eq (w : Word) : w.token.kind = .word := by simpa using w.isAllowed

theorem Bar.kind_eq (bar : Bar) : bar.token.kind = .pipe := by simpa using bar.isAllowed

theorem check_operator {t : Token}
    (ht : t.kind.isRedirection = true ∨ t.kind = .pipe ∨ t.kind.isConnector = true)
    (ts : List Token) : check .more (t :: ts) = check .word ts := by
  rw [check]
  cases hk : t.kind <;> simp_all [Kind.isRedirection, Kind.isConnector]

theorem check_separator (sep : Separator) (ts : List Token) :
    check .more (sep.token :: ts) = check .list ts := by
  have ht := sep.isAllowed
  rw [check]
  cases hk : sep.token.kind <;> simp_all [Kind.isSeparator]

theorem check_items (items : List Item) (ts : List Token) :
    check .more (items.flatMap Item.tokens ++ ts) = check .more ts := by
  induction items with
  | nil => rfl
  | cons item items ih =>
    cases item with
    | word w =>
      change check .more (w.token :: (items.flatMap Item.tokens ++ ts)) = _
      rw [check_word w.kind_eq, ih]
    | redirection op target =>
      change check .more (op.token :: target.token :: (items.flatMap Item.tokens ++ ts)) = _
      rw [check_operator (Or.inl op.isAllowed), check_word target.kind_eq, ih]

theorem check_command (e : Expect) (c : CommandTree) (ts : List Token) :
    check e (c.tokens ++ ts) = check .more ts := by
  change check e (c.first.token :: (c.items.flatMap Item.tokens ++ ts)) = _
  rw [check_word c.first.kind_eq, check_items]

theorem check_pipeline (e : Expect) (p : PipelineTree) (ts : List Token) :
    check e (p.tokens ++ ts) = check .more ts := by
  induction p generalizing e with
  | one c => exact check_command e c ts
  | more c bar rest ih =>
    rw [PipelineTree.tokens, List.append_assoc, check_command, List.cons_append,
      check_operator (Or.inr (Or.inl bar.kind_eq)), ih]

theorem check_list (e : Expect) (l : ListTree) (ts : List Token) :
    check e (l.tokens ++ ts) = check .more ts := by
  induction l generalizing ts with
  | one p => exact check_pipeline e p ts
  | more left op right ih =>
    rw [ListTree.tokens, List.append_assoc, ih, List.cons_append,
      check_operator (Or.inr (Or.inr op.isAllowed)), check_pipeline]

theorem check_line (t : LineTree) : check .list t.tokens = .ok () := by
  induction t with
  | last l trailing =>
    rw [LineTree.tokens, check_list]
    cases trailing with
    | none => rfl
    | some sep => exact check_separator sep []
  | more l sep rest ih => rw [LineTree.tokens, check_list, check_separator, ih]

/-! ### What is accepted has a tree -/

/-- What the check can do with a token that is no end mark. -/
theorem check_cons {e : Expect} {t : Token} {ts : List Token} (ht : t.kind ≠ .eof)
    (h : check e (t :: ts) = .ok ()) :
    (t.kind = .word ∧ check .more ts = .ok ()) ∨
      e = .more ∧ (t.kind.isRedirection = true ∨ t.kind = .pipe ∨ t.kind.isConnector = true) ∧
        check .word ts = .ok () ∨
      e = .more ∧ t.kind.isSeparator = true ∧ check .list ts = .ok () := by
  cases e with
  | list =>
    rw [check] at h
    cases hk : t.kind <;> simp_all
  | word =>
    rw [check] at h
    cases hk : t.kind <;> simp_all
  | more =>
    rw [check] at h
    cases hk : t.kind <;> simp_all [Kind.isRedirection, Kind.isConnector, Kind.isSeparator]

/-- Behind the first word of a command, what the check accepts has a tree together with that word,
given that all the rest of it has one. -/
theorem exists_tree_operator {t : Token} {ts : List Token}
    (ht : t.kind.isRedirection = true ∨ t.kind = .pipe ∨ t.kind.isConnector = true)
    (h : ∃ tree : LineTree, tree.tokens = ts) (w : Word) :
    ∃ tree : LineTree, tree.tokens = w.token :: t :: ts := by
  obtain ⟨tree, rfl⟩ := h
  rcases ht with ht | ht | ht
  · refine ⟨tree.mapFirst (.mapFirst (.mapFirst (.addRedirection w ⟨t, ht⟩))), ?_⟩
    exact LineTree.tokens_mapFirst _ (ListTree.tokens_mapFirst _ (PipelineTree.tokens_mapFirst _
      (CommandTree.tokens_addRedirection w ⟨t, ht⟩))) tree
  · refine ⟨tree.mapFirst (.mapFirst (.more ⟨w, []⟩ ⟨t, by simpa using ht⟩)), ?_⟩
    exact LineTree.tokens_mapFirst _ (ListTree.tokens_mapFirst [w.token, t] (fun p => rfl)) tree
  · refine ⟨tree.mapFirst (.addPipeline (.one ⟨w, []⟩) ⟨t, ht⟩), ?_⟩
    exact LineTree.tokens_mapFirst _ (ListTree.tokens_addPipeline (.one ⟨w, []⟩) ⟨t, ht⟩) tree

/-- What the check accepts has a tree; behind the first word of a command, it has one together with
that word. -/
theorem exists_tree {ts : List Token} (hts : ∀ t ∈ ts, t.kind ≠ .eof) :
    (check .list ts = .ok () → ts = [] ∨ ∃ tree : LineTree, tree.tokens = ts) ∧
    (check .word ts = .ok () → ∃ tree : LineTree, tree.tokens = ts) ∧
    (check .more ts = .ok () → ∀ w : Word, ∃ tree : LineTree, tree.tokens = w.token :: ts) := by
  -- The three states of the check call each other, so that one induction serves them all. Trees grow
  -- at their front, one token at a time.
  induction ts with
  | nil =>
    refine ⟨fun _ => Or.inl rfl, ?_, ?_⟩
    · intro h
      cases h
    · intro _ w
      exact ⟨.last (.one (.one ⟨w, []⟩)) none, rfl⟩
  | cons t ts ih =>
    have ht : t.kind ≠ .eof := hts t (by simp)
    obtain ⟨ihList, ihWord, ihMore⟩ := ih (fun u hu => hts u (by simp [hu]))
    have first : t.kind = .word → check .more ts = .ok () →
        ∃ tree : LineTree, tree.tokens = t :: ts :=
      fun hk h => ihMore h ⟨t, by simpa using hk⟩
    refine ⟨?_, ?_, ?_⟩
    · intro h
      rcases check_cons ht h with ⟨hk, h⟩ | ⟨he, -⟩ | ⟨he, -⟩
      · exact Or.inr (first hk h)
      · cases he
      · cases he
    · intro h
      rcases check_cons ht h with ⟨hk, h⟩ | ⟨he, -⟩ | ⟨he, -⟩
      · exact first hk h
      · cases he
      · cases he
    · intro h w
      rcases check_cons ht h with ⟨hk, h⟩ | ⟨-, hk, h⟩ | ⟨-, hk, h⟩
      · obtain ⟨tree, htree⟩ := first hk h
        refine ⟨tree.mapFirst (.mapFirst (.mapFirst (.addWord w))), ?_⟩
        rw [LineTree.tokens_mapFirst _ (ListTree.tokens_mapFirst _ (PipelineTree.tokens_mapFirst _
          (CommandTree.tokens_addWord w))), htree]
        rfl
      · exact exists_tree_operator hk (ihWord h) w
      · rcases ihList h with rfl | ⟨tree, rfl⟩
        · exact ⟨.last (.one (.one ⟨w, []⟩)) (some ⟨t, hk⟩), rfl⟩
        · exact ⟨.more (.one (.one ⟨w, []⟩)) ⟨t, hk⟩ tree, rfl⟩

/-! ### The check is exact -/

/-- The kinds of tokens that a parse tree can spell. -/
def Derives (ks : List Kind) : Prop := ∃ tree : LineTree, tree.tokens.map (·.kind) = ks

/-- Whether the check accepts depends on the kinds alone. -/
theorem check_congr {ts us : List Token} (h : ts.map (·.kind) = us.map (·.kind)) (e : Expect) :
    check e ts = .ok () ↔ check e us = .ok () := by
  induction ts generalizing us e with
  | nil =>
    cases us with
    | nil => exact Iff.rfl
    | cons u us => cases h
  | cons t ts ih =>
    cases us with
    | nil => cases h
    | cons u us =>
      simp only [List.map_cons, List.cons.injEq] at h
      cases e <;> rw [check, check, h.1] <;> cases u.kind <;> simp [ih h.2]

theorem kind_ne_eof_of_mem_beforeEnd {ts : List Token} {t : Token} (h : t ∈ beforeEnd ts) :
    t.kind ≠ .eof := by
  simpa using List.mem_takeWhile_imp h

theorem check_iff_derives (ts : List Token) :
    check .list ts = .ok () ↔
      (beforeEnd ts).map (·.kind) = [] ∨ Derives ((beforeEnd ts).map (·.kind)) := by
  rw [← check_beforeEnd]
  constructor
  · intro h
    rcases (exists_tree fun t => kind_ne_eof_of_mem_beforeEnd).1 h with hnil | ⟨tree, htree⟩
    · exact Or.inl (by rw [hnil]; rfl)
    · exact Or.inr ⟨tree, by rw [htree]⟩
  · rintro (hnil | ⟨tree, htree⟩)
    · rw [List.map_eq_nil_iff.1 hnil]
      rfl
    · exact (check_congr htree .list).1 (check_line tree)

theorem check_of_accepted {limit : Nat} {ts : List Token} (h : validate limit ts = .accepted) :
    check .list ts = .ok () := by
  unfold validate at h
  split at h
  · cases h
  · split at h
    · assumption
    · cases h

theorem exists_lineTokens {limit bound : Nat} {line : String} {ts : List Token}
    (read : tokenize limit line = .ok ts) (accepted : validate bound ts = .accepted) :
    ∃ tree, lineTokens tree = withoutEnds ts := by
  have hcheck : check .list (beforeEnd ts) = .ok () := by
    rw [check_beforeEnd]
    exact check_of_accepted accepted
  rw [withoutEnds_tokenize read]
  rcases (exists_tree fun t => kind_ne_eof_of_mem_beforeEnd).1 hcheck with hnil | ⟨tree, htree⟩
  · exact ⟨none, hnil.symm⟩
  · exact ⟨some tree, htree⟩

theorem Derives.not_mem {ks : List Kind} (h : Derives ks) {k : Kind} (hk : inLine k = false) :
    k ∉ ks := by
  obtain ⟨tree, rfl⟩ := h
  intro hmem
  obtain ⟨t, ht, rfl⟩ := List.mem_map.1 hmem
  simp [tree.inLine_of_mem ht] at hk

/-- A line is refused for its length exactly if it reaches the limit, and else accepted exactly if
the kinds of its tokens up to the first end mark are none at all or derived by the grammar, in which
here-documents, here-strings and parentheses do not occur. -/
theorem validate_accepts_exactly_derived (limit : Nat) (ts : List Token) :
    (validate limit ts = .tooManyTokens ↔ limit ≤ ts.length) ∧
    (ts.length < limit → (validate limit ts = .accepted ↔
      (beforeEnd ts).map (·.kind) = [] ∨ Derives ((beforeEnd ts).map (·.kind)))) ∧
    (∀ ks, Derives ks → .heredoc ∉ ks ∧ .herestring ∉ ks ∧ .leftParen ∉ ks ∧ .rightParen ∉ ks) := by
  refine ⟨?_, ?_, ?_⟩
  · unfold validate
    split
    · next hlen => exact ⟨fun _ => hlen, fun _ => rfl⟩
    · next hlen =>
      refine ⟨fun h => ?_, fun h => absurd h hlen⟩
      split at h <;> cases h
  · intro hlen
    rw [← check_iff_derives]
    unfold validate
    rw [if_neg (by omega)]
    cases hc : check .list ts with
    | ok u => exact ⟨fun _ => rfl, fun _ => rfl⟩
    | error fault =>
      constructor
      · intro h
        cases h
      · intro h
        cases h
  · intro ks h
    exact ⟨h.not_mem rfl, h.not_mem rfl, h.not_mem rfl, h.not_mem rfl⟩

/-- Running the check on tokens shows that the grammar derives their kinds. -/
theorem derives_pipeline_before_separator :
    let ts : List Token := [⟨.word, "a", false⟩, ⟨.output, ">", false⟩, ⟨.word, "f", false⟩,
      ⟨.pipe, "|", false⟩, ⟨.word, "b", false⟩, ⟨.semicolon, ";", false⟩, eof]
    ts.length < 8 ∧ validate 8 ts = .accepted ∧
      Derives [.word, .output, .word, .pipe, .word, .semicolon] := by
  intro ts
  have hlen : ts.length < 8 := by decide
  have accepted : validate 8 ts = .accepted := by decide
  obtain ⟨-, iff, -⟩ := validate_accepts_exactly_derived 8 ts
  rcases (iff hlen).1 accepted with hnil | derived
  · cases hnil
  · exact ⟨hlen, accepted, derived⟩

end JobShell.Grammar
