import JobShell.Expansion.Reference
import JobShell.Text.Blank
import Mathlib.Data.List.Forall2
import Mathlib.Tactic.Common

/-! Lines whose references have been looked up, and pairs of stores under which the same line has
visible values in the same places. -/
namespace JobShell

/-- Setting an identifier changes its value and no other one. -/
class LawfulBindings (σ : Type) [Bindings σ] : Prop where
  get?_set (s : σ) (name value other : String) (h : Text.isIdentifier name.toList = true) :
    Bindings.get? (Bindings.set s name value) other =
      if name = other then some value else Bindings.get? s other

instance : LawfulBindings (Table String String) where
  get?_set s name value other _ := Table.get?_insert s name other value

theorem Text.isDigit_iff {c : Char} : c.isDigit = true ↔ 48 ≤ c.toNat ∧ c.toNat ≤ 57 := by
  simp only [Char.isDigit, Bool.and_eq_true, decide_eq_true_eq, UInt32.le_iff_toNat_le, ge_iff_le]
  exact Iff.rfl

theorem Text.isAlpha_iff {c : Char} :
    c.isAlpha = true ↔ (65 ≤ c.toNat ∧ c.toNat ≤ 90) ∨ (97 ≤ c.toNat ∧ c.toNat ≤ 122) :=
  Bool.or_eq_true_iff.trans <| or_congr decide_eq_true_iff <|
    Bool.and_eq_true_iff.trans <| and_congr decide_eq_true_iff decide_eq_true_iff

theorem Text.not_isDigit_of_isNameStart {c : Char} (h : isNameStart c = true) :
    c.isDigit = false := by
  rw [← Bool.not_eq_true, isDigit_iff]
  rw [isNameStart, Bool.or_eq_true, isAlpha_iff, decide_eq_true_eq] at h
  rcases h with h | rfl
  · omega
  · decide

theorem Text.isNameChar_of_mem {name : List Char} (identifier : isIdentifier name = true) :
    ∀ c ∈ name, isNameChar c = true := by
  cases name with
  | nil => nofun
  | cons c r =>
    obtain ⟨first, others⟩ := Bool.and_eq_true_iff.1 identifier
    refine List.forall_mem_cons.2 ⟨?_, List.all_eq_true.1 others⟩
    simp only [isNameStart, isNameChar, Char.isAlphanum, Bool.or_eq_true] at first ⊢
    exact first.imp_left .inl

theorem Text.readIndex?_eq_none {name : String} (h : isIdentifier name.toList = true) :
    readIndex? name = none := by
  unfold readIndex? readNat?
  cases hcs : name.toList with
  | nil => simp [hcs, isIdentifier] at h
  | cons c cs =>
    simp only [hcs, isIdentifier, Bool.and_eq_true] at h
    have hd : c.isDigit = false := not_isDigit_of_isNameStart h.1
    split
    · next heq =>
      cases heq
      exact absurd h.1 (by decide)
    · simp [readDigits?, hd]

/-- No identifier is a special parameter. -/
theorem Variables.special?_eq_none (v : Variables) {name : String}
    (h : Text.isIdentifier name.toList = true) : v.special? name = none := by
  unfold special?
  split
  case h_7 =>
    rw [Text.readIndex?_eq_none h]
    rfl
  all_goals exact absurd h (by decide)

instance : LawfulBindings Variables where
  get?_set v name value other h := by
    change (v.special? other).or
      (((v.named.insert name ⟨value, v.isExported name⟩).get? other).map Variable.value) = _
    rw [Table.get?_insert]
    split
    · next heq =>
      subst heq
      rw [v.special?_eq_none h]
      rfl
    · rfl

/-- What follows a reference is an end of the line. -/
theorem Reference.read_suffix (cs : List Char) : (read cs).2 <:+ cs := by
  unfold read
  split
  · exact List.suffix_refl _
  · next r =>
    have h : r.dropWhile (· ≠ '}') <:+ r := List.dropWhile_suffix _
    split
    · exact List.suffix_refl _
    · next rest heq =>
      rw [heq] at h
      exact ((List.suffix_cons _ _).trans h).trans (List.suffix_cons _ _)
  · next c r _ =>
    split
    · exact List.suffix_cons _ _
    · split
      · exact List.dropWhile_suffix _
      · exact List.suffix_refl _

/-- A line with the values of its references in their places. -/
inductive Part where
  | plain (c : Char)
  | value (doubleQuoted : Bool) (text : List Char)
  deriving DecidableEq, Repr

namespace Part

/-- What a part becomes in the expanded line. -/
def written : Part → List Char
  | plain c => [c]
  | value q text => Reference.escape q text

end Part

/-- Looks up the references among some pieces from left to right. -/
def Piece.fill {σ : Type} [Bindings σ] (s : σ) : List Piece → List Part
  | [] => []
  | plain c :: ps => .plain c :: fill s ps
  | reference q r :: ps => .value q (r.evaluate s).1 :: fill (r.evaluate s).2 ps

/-- Expansion writes the parts one behind the other. -/
theorem Piece.expand_eq_written {σ : Type} [Bindings σ] (s : σ) (ps : List Piece) :
    (expand s ps).1 = (fill s ps).flatMap Part.written := by
  induction ps generalizing s with
  | nil => rfl
  | cons p ps ih =>
    cases p with
    | plain c => simp [expand, fill, Part.written, ih]
    | reference q r => simp [expand, fill, Part.written, ih]

theorem Piece.expand_map_plain {σ : Type} [Bindings σ] (s : σ) (cs : List Char) :
    expand s (cs.map plain) = (cs, s) := by
  induction cs with
  | nil => rfl
  | cons c cs ih => rw [List.map_cons, expand, ih]

/-- The parts of a line under a store. -/
def parts {σ : Type} [Bindings σ] (s : σ) (line : String) : List Part :=
  Piece.fill s (Piece.ofLine .bare line.toList)

theorem toList_expandReferences {σ : Type} [Bindings σ] (s : σ) (line : String) :
    (expandReferences s line).1.toList = (parts s line).flatMap Part.written := by
  simp [expandReferences, parts, Piece.expand_eq_written]

/-! ### Stores with visible values in the same places -/

/-- Whether a text holds a character that is not blank. -/
def Text.isVisible (cs : List Char) : Bool := cs.any fun c => !isBlank c

/-- Two values that are the same, or both visible. -/
def ValuesAlike (v w : List Char) : Prop :=
  v = w ∨ Text.isVisible v = true ∧ Text.isVisible w = true

/-- Two stores in which every name has the same value, or none, or visible values. -/
def StoresAlike {σ τ : Type} [Bindings σ] [Bindings τ] (s : σ) (t : τ) : Prop :=
  ∀ name, Bindings.get? s name = Bindings.get? t name ∨
    ∃ v w, Bindings.get? s name = some v ∧ Bindings.get? t name = some w ∧
      Text.isVisible v.toList = true ∧ Text.isVisible w.toList = true

theorem storesAlike_refl {σ : Type} [Bindings σ] (s : σ) : StoresAlike s s :=
  fun _ => Or.inl rfl

theorem StoresAlike.insert {s t : Table String String} (h : StoresAlike s t) (name : String)
    {v w : String} (hv : Text.isVisible v.toList = true) (hw : Text.isVisible w.toList = true) :
    StoresAlike (s.insert name v) (t.insert name w) := by
  intro other
  change (s.insert name v).get? other = (t.insert name w).get? other ∨
    ∃ x y, (s.insert name v).get? other = some x ∧ (t.insert name w).get? other = some y ∧ _
  rw [Table.get?_insert, Table.get?_insert]
  split
  · exact Or.inr ⟨v, w, rfl, rfl, hv, hw⟩
  · exact h other

namespace Part

inductive Alike : Part → Part → Prop
  | plain (c : Char) : Alike (plain c) (plain c)
  | value (q : Bool) {v w : List Char} (h : ValuesAlike v w) : Alike (value q v) (value q w)

end Part

theorem Text.ne_empty_of_isVisible {v : String} (h : isVisible v.toList = true) : v ≠ "" := by
  rintro rfl
  exact absurd h (by decide)

theorem Text.not_isBlank_of_isDigit {c : Char} (h : c.isDigit = true) : isBlank c = false := by
  rw [isDigit_iff] at h
  simp only [isBlank, blankRanges, List.any_cons, List.any_nil, Bool.or_eq_false_iff,
    decide_eq_false_iff_not, and_true]
  omega

theorem Text.isVisible_toString (n : Nat) : isVisible (toString n).toList = true := by
  have hds : (toString n).toList = Nat.toDigits 10 n := Nat.toList_repr
  rw [hds]
  cases hcs : Nat.toDigits 10 n with
  | nil => exact absurd hcs Nat.toDigits_ne_nil
  | cons c cs =>
    have hd : c.isDigit = true :=
      Nat.isDigit_of_mem_toDigits (b := 10) (n := n) (by decide) (by decide) (by simp [hcs])
    simp [isVisible, not_isBlank_of_isDigit hd]

section

variable {σ τ : Type} [Bindings σ] [Bindings τ] [LawfulBindings σ] [LawfulBindings τ]

theorem StoresAlike.set {s : σ} {t : τ} (h : StoresAlike s t) {name : String} (text : String)
    (hn : Text.isIdentifier name.toList = true) :
    StoresAlike (Bindings.set s name text) (Bindings.set t name text) := by
  intro other
  rw [LawfulBindings.get?_set s name text other hn, LawfulBindings.get?_set t name text other hn]
  split
  · exact Or.inl rfl
  · exact h other

end

namespace Reference

variable {σ τ : Type} [Bindings σ] [Bindings τ] [LawfulBindings σ] [LawfulBindings τ]

omit [LawfulBindings σ] [LawfulBindings τ] in
/-- An empty value counts as none, so only the same defaults come to bear. -/
theorem nonempty_alike {s : σ} {t : τ} (h : StoresAlike s t) (name : String) :
    (Bindings.get? s name).filter (· ≠ "") = (Bindings.get? t name).filter (· ≠ "") ∨
      ∃ v w, (Bindings.get? s name).filter (· ≠ "") = some v ∧
        (Bindings.get? t name).filter (· ≠ "") = some w ∧
        Text.isVisible v.toList = true ∧ Text.isVisible w.toList = true := by
  rcases h name with heq | ⟨v, w, hv, hw, visV, visW⟩
  · exact Or.inl (by rw [heq])
  · have hv' := Text.ne_empty_of_isVisible visV
    have hw' := Text.ne_empty_of_isVisible visW
    exact Or.inr ⟨v, w, by simp [hv, hv'], by simp [hw, hw'], visV, visW⟩

/-- Alike stores give a reference alike values, and stay alike. -/
theorem evaluate_alike {s : σ} {t : τ} (h : StoresAlike s t) (r : Reference) :
    ValuesAlike (r.evaluate s).1 (r.evaluate t).1 ∧
      StoresAlike (r.evaluate s).2 (r.evaluate t).2 := by
  cases r with
  | literal text => exact ⟨Or.inl rfl, h⟩
  | value name =>
    refine ⟨?_, h⟩
    rcases h name with heq | ⟨v, w, hv, hw, visV, visW⟩
    · exact Or.inl (by simp [evaluate, heq])
    · exact Or.inr (by simpa [evaluate, hv, hw] using ⟨visV, visW⟩)
  | length name =>
    exact ⟨Or.inr ⟨Text.isVisible_toString _, Text.isVisible_toString _⟩, h⟩
  | orElse name text =>
    rcases nonempty_alike h name with heq | ⟨v, w, hv, hw, vis⟩
    · simp only [evaluate, heq]
      split
      · exact ⟨Or.inl rfl, h⟩
      · exact ⟨Or.inl rfl, h⟩
    · simp only [evaluate, hv, hw]
      exact ⟨Or.inr vis, h⟩
  | orAssign name text =>
    rcases nonempty_alike h name with heq | ⟨v, w, hv, hw, vis⟩
    · simp only [evaluate, heq]
      split
      · exact ⟨Or.inl rfl, h⟩
      · refine ⟨Or.inl rfl, ?_⟩
        -- Only under an identifier is the default kept; both stores get the same one.
        by_cases hn : Text.isIdentifier name.toList = true
        · rw [if_pos hn, if_pos hn]
          exact h.set text hn
        · rw [if_neg hn, if_neg hn]
          exact h
    · simp only [evaluate, hv, hw]
      exact ⟨Or.inr vis, h⟩

end Reference

variable {σ τ : Type} [Bindings σ] [Bindings τ] [LawfulBindings σ] [LawfulBindings τ]

theorem Piece.fill_alike {s : σ} {t : τ} (h : StoresAlike s t) (ps : List Piece) :
    List.Forall₂ Part.Alike (fill s ps) (fill t ps) := by
  induction ps generalizing s t with
  | nil => exact .nil
  | cons p ps ih =>
    cases p with
    | plain c => exact .cons (.plain c) (ih h)
    | reference q r =>
      obtain ⟨hv, hs⟩ := r.evaluate_alike h
      exact .cons (.value q hv) (ih hs)

theorem parts_alike {s : σ} {t : τ} (h : StoresAlike s t) (line : String) :
    List.Forall₂ Part.Alike (parts s line) (parts t line) :=
  Piece.fill_alike h _

end JobShell
