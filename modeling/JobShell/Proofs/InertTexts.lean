import JobShell.Proofs.PieceCuts
import JobShell.Proofs.QuotedWords

/-! Texts that the expansion of references leaves as they are. Every quoted word is one. -/
namespace JobShell

open Text (Styles escapeDouble writeChunk quoteChunks quoteChars)

/-! ### Texts without references -/

namespace Piece

/-- Outside quotes, a text stands for itself before whatever follows, and leaves no quote open. -/
def Inert (text : List Char) : Prop :=
  ∀ rest, ofLine .bare (text ++ rest) = text.map plain ++ ofLine .bare rest

theorem Inert.append {text more : List Char} (h : Inert text) (h' : Inert more) :
    Inert (text ++ more) := by
  intro rest
  rw [List.append_assoc, h, h', List.map_append, List.append_assoc]

theorem inert_flatMap {α : Type} {f : α → List Char} {xs : List α} (h : ∀ x ∈ xs, Inert (f x)) :
    Inert (xs.flatMap f) := by
  induction xs with
  | nil => exact fun _ => rfl
  | cons x xs ih =>
    obtain ⟨first, others⟩ := List.forall_mem_cons.1 h
    exact first.append (ih others)

theorem expandReferences_of_inert {σ : Type} [Bindings σ] {line : String}
    (h : Inert line.toList) (s : σ) : expandReferences s line = (line, s) := by
  have pieces : ofLine .bare line.toList = line.toList.map plain := by
    simpa [ofLine] using h []
  rw [expandReferences, pieces, expand_map_plain]
  exact congrArg (·, s) String.ofList_toList

section
variable {c : Char} (r : List Char)

theorem ofLine_inSingle (h : c ≠ '\'') :
    ofLine .single (c :: r) = plain c :: ofLine .single r := by
  rw [ofLine.eq_def]
  simp [h]

theorem ofLine_inDouble (h : c ≠ '\\' ∧ c ≠ '"' ∧ c ≠ '$') :
    ofLine .double (c :: r) = plain c :: ofLine .double r := by
  rw [ofLine.eq_def]
  simp [h]

theorem ofLine_escaped (e : Char) :
    ofLine .double ('\\' :: e :: r) = plain '\\' :: plain e :: ofLine .double r := by
  rw [ofLine.eq_def]
  rfl

theorem ofLine_openSingle : ofLine .bare ('\'' :: r) = plain '\'' :: ofLine .single r := by
  rw [ofLine.eq_def]
  rfl

theorem ofLine_closeSingle : ofLine .single ('\'' :: r) = plain '\'' :: ofLine .bare r := by
  rw [ofLine.eq_def]
  rfl

theorem ofLine_openDouble : ofLine .bare ('"' :: r) = plain '"' :: ofLine .double r := by
  rw [ofLine.eq_def]
  rfl

theorem ofLine_closeDouble : ofLine .double ('"' :: r) = plain '"' :: ofLine .bare r := by
  rw [ofLine.eq_def]
  rfl

end

theorem inert_plain {cs : List Char} (h : ∀ c ∈ cs, isMark c = false) : Inert cs := by
  intro rest
  induction cs with
  | nil => rfl
  | cons c cs ih =>
    obtain ⟨first, others⟩ := List.forall_mem_cons.1 h
    rw [List.cons_append, ofLine_plain _ first, ih others]
    rfl

theorem isMark_eq_false {c : Char} (h : Text.isNameChar c = true) : isMark c = false := by
  rw [← Bool.not_eq_true]
  intro marked
  have listed : c = '\\' ∨ c = '\'' ∨ c = '"' ∨ c = '$' := by simpa [isMark] using marked
  rcases listed with rfl | rfl | rfl | rfl <;> exact absurd h (by decide)

theorem inert_single {cs : List Char} (h : '\'' ∉ cs) : Inert ('\'' :: cs ++ ['\'']) := by
  have inside (rest : List Char) :
      ofLine .single (cs ++ '\'' :: rest) = cs.map plain ++ plain '\'' :: ofLine .bare rest := by
    induction cs with
    | nil => exact ofLine_closeSingle rest
    | cons c cs ih =>
      rw [List.mem_cons, not_or] at h
      rw [List.cons_append, ofLine_inSingle _ (Ne.symm h.1), ih h.2]
      rfl
  intro rest
  have opened := ofLine_openSingle (cs ++ '\'' :: rest)
  rw [inside] at opened
  simpa using opened

theorem inert_double {cs : List Char} (h : '$' ∉ cs) :
    Inert ('"' :: escapeDouble cs ++ ['"']) := by
  have inside (rest : List Char) : ofLine .double (escapeDouble cs ++ '"' :: rest) =
      (escapeDouble cs).map plain ++ plain '"' :: ofLine .bare rest := by
    induction cs with
    | nil => exact ofLine_closeDouble rest
    | cons c cs ih =>
      rw [List.mem_cons, not_or] at h
      specialize ih h.2
      rw [escapeDouble, List.flatMap_cons, ← escapeDouble, List.append_assoc, List.map_append,
        List.append_assoc, ← ih]
      by_cases special : c = '"' ∨ c = '\\'
      · rw [if_pos (by simpa using special)]
        exact ofLine_escaped _ c
      · rw [if_neg (by simpa using special)]
        rw [not_or] at special
        exact ofLine_inDouble _ ⟨special.2, special.1, Ne.symm h.1⟩
  intro rest
  have opened := ofLine_openDouble (escapeDouble cs ++ '"' :: rest)
  rw [inside] at opened
  simpa using opened

end Piece

/-! ### The chunks of a quoted word -/

namespace Text

/-- Whether a quoted word can hold a character outside quotes. -/
def needsNoQuote (c : Char) : Bool := c.isAlphanum || Styles.bareChars.contains c

/-- A style is left for a chunk, and each that is left can hold its characters. -/
structure Styles.Suit (s : Styles) (cs : List Char) : Prop where
  bare : s.bare = true → ∀ c ∈ cs, needsNoQuote c = true
  single : s.single = true → '\'' ∉ cs
  double : s.double = true → '$' ∉ cs
  some : s.isNone = false

theorem Styles.Suit.allow {s : Styles} {cs : List Char} (h : s.Suit cs) {c : Char}
    (some : (s.allow c).isNone = false) : (s.allow c).Suit (cs ++ [c]) where
  bare bare := by
    obtain ⟨before, allowed⟩ := Bool.and_eq_true_iff.1 bare
    simpa [or_imp, forall_and] using ⟨h.bare before, allowed⟩
  single single := by
    obtain ⟨before, allowed⟩ := Bool.and_eq_true_iff.1 single
    have other : c ≠ '\'' := by
      rintro rfl
      exact absurd allowed (by decide)
    simpa using ⟨h.single before, other.symm⟩
  double double := by
    obtain ⟨before, allowed⟩ := Bool.and_eq_true_iff.1 double
    have other : c ≠ '$' := by
      rintro rfl
      exact absurd allowed (by decide)
    simpa using ⟨h.double before, other.symm⟩
  some := some

theorem Styles.suit_start (c : Char) : (Styles.start c).Suit [c] := by
  unfold start
  split
  · next circumflex =>
    subst circumflex
    exact ⟨nofun, fun _ => by decide, nofun, rfl⟩
  · next other =>
    refine (⟨by simp, by simp, by simp, rfl⟩ : Styles.any.Suit []).allow ?_
    -- Only a circumflex suits neither kind of quotes.
    by_cases single : c ∈ notSingle
    · have double : c ∉ notDouble := by
        simp only [notSingle, List.mem_cons, List.not_mem_nil, or_false] at single
        rcases single with rfl | rfl | rfl
        · decide
        · exact absurd rfl other
        · decide
      simp [isNone, Styles.allow, any, double]
    · simp [isNone, Styles.allow, any, single]

/-- A quoted word consists of chunks, each written in a style that suits it. -/
theorem exists_chunks (cs : List Char) : ∃ chunks : List (Styles × List Char),
    (∀ k ∈ chunks, k.1.Suit k.2) ∧ quoteChars cs = chunks.flatMap (fun k => writeChunk k.1 k.2) ∧
    cs = chunks.flatMap Prod.snd := by
  have continued (s : Styles) (chunk : List Char) (h : s.Suit chunk.reverse) (cs : List Char) :
      ∃ chunks : List (Styles × List Char), (∀ k ∈ chunks, k.1.Suit k.2) ∧
        quoteChunks s chunk cs = chunks.flatMap (fun k => writeChunk k.1 k.2) ∧
        chunk.reverse ++ cs = chunks.flatMap Prod.snd := by
    induction cs generalizing s chunk with
    | nil => exact ⟨[(s, chunk.reverse)], by simpa using h, by simp [quoteChunks], by simp⟩
    | cons c cs ih =>
      rw [quoteChunks]
      split
      · obtain ⟨chunks, suit, written, meant⟩ := ih _ [c] (Styles.suit_start c)
        refine ⟨(s, chunk.reverse) :: chunks, List.forall_mem_cons.2 ⟨h, suit⟩, ?_, ?_⟩
        · rw [written, List.flatMap_cons]
        · rw [List.flatMap_cons, ← meant]
          rfl
      · next some =>
        have grown := h.allow (Bool.not_eq_true _ ▸ some)
        rw [← List.reverse_cons] at grown
        obtain ⟨chunks, suit, written, meant⟩ := ih _ _ grown
        exact ⟨chunks, suit, written, by simpa using meant⟩
  cases cs with
  | nil =>
    refine ⟨[(⟨false, true, false⟩, [])], ?_, rfl, rfl⟩
    simpa using (⟨by simp, by simp, by simp, rfl⟩ : Styles.Suit _ [])
  | cons c cs => exact continued _ [c] (Styles.suit_start c) cs

theorem inert_writeChunk {s : Styles} {cs : List Char} (h : s.Suit cs) :
    Piece.Inert (writeChunk s cs) := by
  unfold writeChunk
  split
  · next bare =>
    refine Piece.inert_plain fun c among => ?_
    have allowed := h.bare bare c among
    obtain ⟨single, double, backslash, -⟩ := (Token.plain_of_allowed allowed).notSyntax
    have dollar : c ≠ '$' := by
      rintro rfl
      exact absurd allowed (by decide)
    simp [Piece.isMark, single, double, backslash, dollar]
  split
  · next single => exact Piece.inert_single (h.single single)
  · next bare single =>
    refine Piece.inert_double (h.double ?_)
    simpa [Styles.isNone, bare, single] using h.some

theorem inert_quoteChars (cs : List Char) : Piece.Inert (quoteChars cs) := by
  obtain ⟨chunks, suit, written, -⟩ := exists_chunks cs
  rw [written]
  exact Piece.inert_flatMap fun k hk => inert_writeChunk (suit k hk)

/-- A word that is written without any quotes needs none. -/
theorem needsNoQuote_of_unquoted {cs : List Char} (single : '\'' ∉ quoteChars cs)
    (double : '"' ∉ quoteChars cs) : ∀ c ∈ cs, needsNoQuote c = true := by
  obtain ⟨chunks, suit, written, meant⟩ := exists_chunks cs
  intro c hc
  rw [meant] at hc
  obtain ⟨k, hk, hc⟩ := List.mem_flatMap.1 hc
  have bare : k.1.bare = true := by
    by_contra quoted
    have all : writeChunk k.1 k.2 ⊆ quoteChars cs := by
      rw [written]
      exact fun x hx => List.mem_flatMap.2 ⟨k, hk, hx⟩
    rw [writeChunk, if_neg quoted] at all
    split at all
    · exact single (all (by simp))
    · exact double (all (by simp))
  exact (suit k hk).bare bare c hc

end Text

end JobShell
