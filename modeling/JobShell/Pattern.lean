/-!
File-name patterns: `*` for any run of characters, `?` for any one, `[...]` for one of a class.
-/
namespace JobShell

namespace Pattern

/-- One position of a pattern. -/
inductive Atom where
  | star
  | one
  | literal (c : Char)
  /-- The characters in one of the ranges, or in none of them. -/
  | among (negated : Bool) (ranges : List (Char × Char))
  deriving DecidableEq, Repr

namespace Atom

/-- Whether a position other than a star takes a character. -/
def accepts : Atom → Char → Bool
  | star, _ => false
  | one, _ => true
  | literal c, d => c = d
  | among negated ranges, d => ranges.any (fun r => r.1 ≤ d && d ≤ r.2) != negated

end Atom
end Pattern

abbrev Pattern := List Pattern.Atom

namespace Pattern

/-- Whether a word holds a character that makes it a pattern. -/
def isPattern (word : String) : Bool := word.toList.any fun c => ['*', '?', '['].contains c

/-- The end of a range whose beginning has just been read. -/
def rangeEnd? : List Char → Option Char
  | '-' :: high :: _ => if high = ']' then none else some high
  | _ => none

/-- Reads the ranges of a class up to its closing bracket, which is an ordinary character in the
first position, and gives what follows. -/
def readRanges (first : Bool) (cs : List Char) : Option (List (Char × Char) × List Char) :=
  match cs with
  | [] => none
  | c :: r =>
    if c = ']' && !first then some ([], r)
    else match rangeEnd? r with
      | some high => (readRanges false (r.drop 2)).map fun p => ((c, high) :: p.1, p.2)
      | none => (readRanges false r).map fun p => ((c, c) :: p.1, p.2)
termination_by cs.length
decreasing_by
  · simp only [List.length_cons, List.length_drop]
    omega
  · simp

theorem length_readRanges {first : Bool} {cs rest : List Char} {ranges : List (Char × Char)}
    (h : readRanges first cs = some (ranges, rest)) : rest.length < cs.length := by
  fun_induction readRanges first cs generalizing ranges rest with
  | case1 => simp at h
  | case2 => simp at h; simp [h.2]
  | case3 first c r _ high _ ih =>
    obtain ⟨p, hp, he⟩ := Option.map_eq_some_iff.1 h
    have := ih hp
    simp only [Prod.mk.injEq] at he
    simp [← he.2] at this ⊢
    omega
  | case4 first c r _ _ ih =>
    obtain ⟨p, hp, he⟩ := Option.map_eq_some_iff.1 h
    have := ih hp
    simp only [Prod.mk.injEq] at he
    simp [← he.2] at this ⊢
    omega

/-- The class behind an opening bracket, if it is closed, and what follows it. -/
def readClass (cs : List Char) : Option (Atom × List Char) :=
  match cs with
  | '!' :: r | '^' :: r => (readRanges true r).map fun p => (.among true p.1, p.2)
  | _ => (readRanges true cs).map fun p => (.among false p.1, p.2)

theorem length_readClass {cs rest : List Char} {a : Atom} (h : readClass cs = some (a, rest)) :
    rest.length < cs.length := by
  unfold readClass at h
  split at h
  all_goals
    obtain ⟨p, hp, he⟩ := Option.map_eq_some_iff.1 h
    have := length_readRanges hp
    simp only [Prod.mk.injEq] at he
    simp [← he.2] at this ⊢
    omega

/-- The positions of a pattern. An opening bracket without a closing one stands for itself. -/
def ofChars (cs : List Char) : Pattern :=
  match cs with
  | [] => []
  | '*' :: r => .star :: ofChars r
  | '?' :: r => .one :: ofChars r
  | '[' :: r =>
    match _h : readClass r with
    | some (a, rest) => a :: ofChars rest
    | none => .literal '[' :: ofChars r
  | c :: r => .literal c :: ofChars r
termination_by cs.length
decreasing_by
  · simp
  · simp
  · have := length_readClass _h
    simp only [List.length_cons]
    omega
  · simp
  · simp

/-- What is left of a pattern once its first position has taken a character. -/
def follow? : Pattern → Char → Option Pattern
  | [], _ => none
  | a :: p, c => if a.accepts c then some p else none

theorem length_follow? {p q : Pattern} {c : Char} (h : follow? p c = some q) :
    q.length < p.length := by
  cases p with
  | nil => cases h
  | cons a p =>
    simp only [follow?, Option.ite_none_right_eq_some, Option.some.injEq] at h
    simp [h.2]

/-- How often a search can go back at most, given what it has left of the name and what it would go
back to. -/
def patience (name : List Char) : Option (Pattern × List Char) → Nat
  | none => name.length + 1
  | some (_, rest) => max name.length rest.length

/-- Reads a name along a pattern. Where the two part, the last star takes one character more: `back`
holds the pattern behind that star, and the name behind what the star has taken so far. -/
def search (p : Pattern) (name : List Char) (back : Option (Pattern × List Char)) : Bool :=
  match name, p with
  | [], p => p.all (· = .star)
  | c :: r, .star :: p => search p (c :: r) (some (p, c :: r))
  | c :: r, p =>
    match _h : follow? p c with
    | some p => search p r back
    | none =>
      match back with
      | none => false
      | some (p, rest) => search p rest.tail (some (p, rest.tail))
termination_by (patience name back, p.length)
decreasing_by
  · refine Prod.Lex.right' _ ?_ (Nat.lt_succ_self _)
    cases back <;> simp only [patience] <;> omega
  · refine Prod.Lex.right' _ ?_ (length_follow? _h)
    cases back <;> simp only [patience, List.length_cons] <;> omega
  · refine Prod.Lex.left _ _ ?_
    simp only [patience, List.length_cons, List.length_tail]
    omega

/-- Whether a pattern matches the whole of a name. -/
def accepts (p : Pattern) (name : List Char) : Bool := search p name none

/-- Whether the pattern that a text spells matches the whole of a name. -/
def matchesName (pattern name : String) : Bool := accepts (ofChars pattern.toList) name.toList

end Pattern
end JobShell
