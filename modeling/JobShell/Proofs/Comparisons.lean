import JobShell.Builtin.Run
import JobShell.Proofs.FilledLine
import JobShell.Proofs.SessionRules
import Mathlib.Data.List.Induction
import Mathlib.Data.List.TakeWhile
import Mathlib.Data.Nat.Digits.Defs

/-! Comparisons with `test`: what the operators say about two texts, or about the numbers that these
spell, and the status that follows from it. A left operand that reads as a negation is the only one
that is not taken for what it is. -/
namespace JobShell

/-! ### Numbers in texts -/

namespace Text

/-- Some ASCII digits, and the number that they spell. -/
structure Digits (cs : List Char) (n : Nat) : Prop where
  nonempty : cs ≠ []
  digits : ∀ c ∈ cs, '0' ≤ c ∧ c ≤ '9'
  value : n = Nat.ofDigits 10 (cs.reverse.map fun c => c.toNat - '0'.toNat)

/-- Digits with or without a sign. -/
inductive Signed : List Char → Int → Prop where
  | unsigned {cs : List Char} {n : Nat} (h : Digits cs n) : Signed cs n
  | plus {cs : List Char} {n : Nat} (h : Digits cs n) : Signed ('+' :: cs) n
  | minus {cs : List Char} {n : Nat} (h : Digits cs n) : Signed ('-' :: cs) (-n)

/-- A text spells a number of 64 bits, with blanks around it or without. -/
def Denotes (s : String) (n : Int) : Prop :=
  ∃ before cs after, s.toList = before ++ cs ++ after ∧ (∀ c ∈ before ++ after, isBlank c = true) ∧
    Signed cs n ∧ -0x8000000000000000 ≤ n ∧ n < 0x8000000000000000

theorem readDigits?_eq_some {cs : List Char} {n : Nat} :
    readDigits? cs = some n ↔ Digits cs n := by
  have value : cs.foldl (fun n c => 10 * n + digitValue c) 0 =
      Nat.ofDigits 10 (cs.reverse.map fun c => c.toNat - '0'.toNat) := by
    induction cs using List.reverseRecOn with
    | nil => rfl
    | append_singleton cs c ih =>
      rw [List.foldl_append, List.foldl_cons, List.foldl_nil, ih, List.reverse_append,
        List.reverse_singleton, List.singleton_append, List.map_cons, Nat.ofDigits_cons,
        digitValue, Nat.add_comm]
  rw [readDigits?, value]
  constructor
  · intro h
    split at h
    · cases h
    · next read =>
      simp only [Bool.or_eq_true, Bool.not_eq_true', not_or, List.isEmpty_iff,
        Bool.not_eq_false, List.all_eq_true] at read
      exact ⟨read.1, fun c hc => isDigit_iff.1 (read.2 c hc), (Option.some.inj h).symm⟩
  · rintro ⟨nonempty, digits, rfl⟩
    rw [if_neg]
    simp only [Bool.or_eq_true, Bool.not_eq_true', not_or, List.isEmpty_iff,
      Bool.not_eq_false, List.all_eq_true]
    exact ⟨nonempty, fun c hc => isDigit_iff.2 (digits c hc)⟩

theorem Digits.head_ne {cs : List Char} {c : Char} {n : Nat} (h : Digits (c :: cs) n) :
    c ≠ '-' ∧ c ≠ '+' := by
  have digit := h.digits c (by simp)
  constructor <;>
  · rintro rfl
    exact absurd digit (by decide)

theorem readInt?_eq_some {low high : Int} {s : String} {n : Int} :
    readInt? low high s = some n ↔ Signed s.toList n ∧ low ≤ n ∧ n ≤ high := by
  unfold readInt?
  rw [Option.filter_eq_some_iff]
  simp only [Bool.and_eq_true, decide_eq_true_eq]
  refine and_congr_left fun _ => ?_
  generalize s.toList = cs
  split
  all_goals
    simp only [Option.map_eq_some_iff, Option.bind_eq_bind, Option.bind_eq_some_iff,
      Option.pure_def, Option.some.injEq, readDigits?_eq_some]
  · next r =>
    constructor
    · rintro ⟨_, ⟨k, h, rfl⟩, rfl⟩
      exact .minus h
    · rintro (h | - | h)
      · exact absurd rfl h.head_ne.1
      · exact ⟨_, ⟨_, h, rfl⟩, rfl⟩
  · next r =>
    constructor
    · rintro ⟨_, ⟨k, h, rfl⟩, rfl⟩
      exact .plus h
    · rintro (h | h | -)
      · exact absurd rfl h.head_ne.2
      · exact ⟨_, ⟨_, h, rfl⟩, rfl⟩
  · next noMinus noPlus =>
    constructor
    · rintro ⟨_, ⟨k, h, rfl⟩, rfl⟩
      exact .unsigned h
    · rintro (h | h | h)
      · exact ⟨_, ⟨_, h, rfl⟩, rfl⟩
      · exact absurd rfl (noPlus _)
      · exact absurd rfl (noMinus _)

/-! ### Blanks around a number -/

theorem exists_trimStart (cs : List Char) :
    ∃ before, cs = before ++ trimStart cs ∧ ∀ c ∈ before, isBlank c = true :=
  ⟨cs.takeWhile isBlank, (List.takeWhile_append_dropWhile).symm,
    fun _ => List.mem_takeWhile_imp⟩

theorem exists_trim (cs : List Char) :
    ∃ before after, cs = before ++ trim cs ++ after ∧ ∀ c ∈ before ++ after, isBlank c = true := by
  obtain ⟨before, front, blank⟩ := exists_trimStart cs
  obtain ⟨after, back, blank'⟩ := exists_trimStart (trimStart cs).reverse
  have cut : trimStart cs = trim cs ++ after.reverse := by
    rw [← List.reverse_inj, back, List.reverse_append, List.reverse_reverse, trim, trimEnd,
      List.reverse_reverse]
  refine ⟨before, after.reverse, ?_, ?_⟩
  · rw [List.append_assoc, ← cut, ← front]
  · simpa [or_imp, forall_and] using ⟨blank, blank'⟩

theorem trimStart_append {before cs : List Char} (blank : ∀ c ∈ before, isBlank c = true)
    (plain : ∀ c ∈ cs.head?, isBlank c = false) : trimStart (before ++ cs) = cs := by
  rw [trimStart, List.dropWhile_append_of_pos blank]
  cases cs with
  | nil => rfl
  | cons c cs => rw [List.dropWhile_cons_of_neg (by simp [plain c rfl])]

theorem trim_append {before cs after : List Char}
    (blank : ∀ c ∈ before ++ after, isBlank c = true) (nonempty : cs ≠ [])
    (first : ∀ c ∈ cs.head?, isBlank c = false) (last : ∀ c ∈ cs.getLast?, isBlank c = false) :
    trim (before ++ cs ++ after) = cs := by
  simp only [List.mem_append, or_imp, forall_and] at blank
  have front : trimStart (before ++ cs ++ after) = cs ++ after := by
    rw [List.append_assoc]
    refine trimStart_append blank.1 ?_
    rwa [List.head?_append_of_ne_nil cs nonempty]
  rw [trim, front, trimEnd, List.reverse_append, trimStart_append, List.reverse_reverse]
  · simpa using blank.2
  · rwa [List.head?_reverse]

theorem not_isBlank_of_digit {c : Char} (h : '0' ≤ c ∧ c ≤ '9') : isBlank c = false := by
  have bounds : 48 ≤ c.toNat ∧ c.toNat ≤ 57 := h
  simp only [isBlank, blankRanges, List.any_cons, List.any_nil, Bool.or_false, Bool.or_eq_false_iff,
    decide_eq_false_iff_not]
  omega

theorem Digits.not_isBlank {cs : List Char} {n : Nat} (h : Digits cs n) :
    ∀ c ∈ cs, isBlank c = false := fun c hc => not_isBlank_of_digit (h.digits c hc)

theorem Signed.not_isBlank {cs : List Char} {n : Int} (h : Signed cs n) :
    cs ≠ [] ∧ ∀ c ∈ cs, isBlank c = false := by
  cases h with
  | unsigned h => exact ⟨h.nonempty, h.not_isBlank⟩
  | plus h => exact ⟨List.cons_ne_nil _ _, List.forall_mem_cons.2 ⟨by decide, h.not_isBlank⟩⟩
  | minus h => exact ⟨List.cons_ne_nil _ _, List.forall_mem_cons.2 ⟨by decide, h.not_isBlank⟩⟩

end Text

namespace Condition

open Text (Denotes)

theorem integer_eq_ok {s : String} {n : Int} : integer s = .ok n ↔ Denotes s n := by
  have read : integer s = .ok n ↔
      Text.readLong? (String.ofList (Text.trim s.toList)) = some n := by
    unfold integer
    split
    · next found => simp [found]
    · next found => simp [found]
  rw [read, Text.readLong?, Text.readInt?_eq_some, String.toList_ofList]
  constructor
  · rintro ⟨signed, low, high⟩
    obtain ⟨before, after, parts, blank⟩ := Text.exists_trim s.toList
    exact ⟨before, _, after, parts, blank, signed, low, by omega⟩
  · rintro ⟨before, cs, after, parts, blank, signed, low, high⟩
    obtain ⟨nonempty, plain⟩ := signed.not_isBlank
    rw [parts, Text.trim_append blank nonempty (fun c hc => plain c (List.mem_of_mem_head? hc))
      (fun c hc => plain c (List.mem_of_mem_getLast? hc))]
    exact ⟨signed, low, by omega⟩

/-! ### Operators -/

/-- The operators that compare texts, one of them with two spellings. -/
inductive TextOperator where
  | same
  | sameDoubled
  | different
  deriving DecidableEq, Repr

/-- The operators that compare numbers. -/
inductive NumberOperator where
  | equal
  | unequal
  | less
  | atMost
  | greater
  | atLeast
  deriving DecidableEq, Repr

def TextOperator.Holds : TextOperator → String → String → Prop
  | same, l, r | sameDoubled, l, r => l = r
  | different, l, r => l ≠ r

def NumberOperator.Holds : NumberOperator → Int → Int → Prop
  | equal, a, b => a = b
  | unequal, a, b => a ≠ b
  | less, a, b => a < b
  | atMost, a, b => a ≤ b
  | greater, a, b => b < a
  | atLeast, a, b => b ≤ a

instance (op : TextOperator) (l r : String) : Decidable (op.Holds l r) :=
  match op with
  | .same | .sameDoubled => inferInstanceAs (Decidable (l = r))
  | .different => inferInstanceAs (Decidable (l ≠ r))

instance (op : NumberOperator) (a b : Int) : Decidable (op.Holds a b) :=
  match op with
  | .equal => inferInstanceAs (Decidable (a = b))
  | .unequal => inferInstanceAs (Decidable (a ≠ b))
  | .less => inferInstanceAs (Decidable (a < b))
  | .atMost => inferInstanceAs (Decidable (a ≤ b))
  | .greater => inferInstanceAs (Decidable (b < a))
  | .atLeast => inferInstanceAs (Decidable (b ≤ a))

inductive Operator where
  | onTexts (op : TextOperator)
  | onNumbers (op : NumberOperator)
  deriving DecidableEq, Repr

def Operator.text : Operator → String
  | onTexts .same => "="
  | onTexts .sameDoubled => "=="
  | onTexts .different => "!="
  | onNumbers .equal => "-eq"
  | onNumbers .unequal => "-ne"
  | onNumbers .less => "-lt"
  | onNumbers .atMost => "-le"
  | onNumbers .greater => "-gt"
  | onNumbers .atLeast => "-ge"

/-- The status that a comparison of two operands is to give, by what they are alone. -/
inductive Operator.Gives (l r : String) : Operator → Int → Prop where
  | holds {op : TextOperator} (h : op.Holds l r) : Gives l r (.onTexts op) 0
  | fails {op : TextOperator} (h : ¬op.Holds l r) : Gives l r (.onTexts op) 1
  | numbersHold {op : NumberOperator} {a b : Int} (left : Denotes l a) (right : Denotes r b)
    (h : op.Holds a b) : Gives l r (.onNumbers op) 0
  | numbersFail {op : NumberOperator} {a b : Int} (left : Denotes l a) (right : Denotes r b)
    (h : ¬op.Holds a b) : Gives l r (.onNumbers op) 1
  | noNumber {op : NumberOperator} (h : (∀ a, ¬Denotes l a) ∨ ∀ b, ¬Denotes r b) :
    Gives l r (.onNumbers op) 2

/-- The status that the value of an expression leaves behind. -/
def statusOf : Except Fault Bool → Int
  | .ok true => 0
  | .ok false => 1
  | .error _ => 2

theorem binary_onTexts (op : TextOperator) (l r : String) :
    binary l (Operator.onTexts op).text r = .ok (decide (op.Holds l r)) := by
  cases op <;> rfl

theorem binary_onNumbers (op : NumberOperator) (l r : String) :
    binary l (Operator.onNumbers op).text r =
      (do return decide (op.Holds (← integer l) (← integer r))) := by
  cases op <;> rfl

theorem gives_binary (op : Operator) (l r : String) :
    op.Gives l r (statusOf (binary l op.text r)) := by
  cases op with
  | onTexts op =>
    rw [binary_onTexts]
    by_cases h : op.Holds l r
    · rw [decide_eq_true h]
      exact .holds h
    · rw [decide_eq_false h]
      exact .fails h
  | onNumbers op =>
    rw [binary_onNumbers]
    cases left : integer l with
    | error e =>
      refine .noNumber (.inl fun a spelled => ?_)
      rw [integer_eq_ok.2 spelled] at left
      cases left
    | ok a =>
      cases right : integer r with
      | error e =>
        refine .noNumber (.inr fun b spelled => ?_)
        rw [integer_eq_ok.2 spelled] at right
        cases right
      | ok b =>
        have left := integer_eq_ok.1 left
        have right := integer_eq_ok.1 right
        change Operator.Gives l r _ (statusOf (.ok (decide (op.Holds a b))))
        by_cases h : op.Holds a b
        · rw [decide_eq_true h]
          exact .numbersHold left right h
        · rw [decide_eq_false h]
          exact .numbersFail left right h

/-- Nothing but the operands decides about the status. -/
theorem Operator.Gives.eq_binary {op : Operator} {l r : String} {status : Int}
    (h : op.Gives l r status) : status = statusOf (binary l op.text r) := by
  cases h with
  | holds h => rw [binary_onTexts, decide_eq_true h, statusOf]
  | fails h => rw [binary_onTexts, decide_eq_false h, statusOf]
  | numbersHold left right h =>
    rw [binary_onNumbers, integer_eq_ok.2 left, integer_eq_ok.2 right]
    exact (congrArg (fun v => statusOf (.ok v)) (decide_eq_true h)).symm
  | numbersFail left right h =>
    rw [binary_onNumbers, integer_eq_ok.2 left, integer_eq_ok.2 right]
    exact (congrArg (fun v => statusOf (.ok v)) (decide_eq_false h)).symm
  | noNumber none =>
    rw [binary_onNumbers]
    cases left : integer l with
    | error e => rfl
    | ok a =>
      cases right : integer r with
      | error e => rfl
      | ok b =>
        obtain none | none := none
        · exact absurd (integer_eq_ok.1 left) (none a)
        · exact absurd (integer_eq_ok.1 right) (none b)

theorem evaluate_binary (t : FileTree) (dir : NodeId) {l : String} (plain : l ≠ "!")
    (op : Operator) (r : String) : evaluate t dir [l, op.text, r] = binary l op.text r := by
  rw [evaluate, if_neg plain]

/-- Behind a negation the operator is taken for a test of one operand, which none of them is. -/
theorem evaluate_negated (t : FileTree) (dir : NodeId) (op : Operator) (r : String) :
    evaluate t dir ["!", op.text, r] = .error (.noUnary op.text) := by
  rw [evaluate, if_pos rfl]
  cases op with
  | onTexts op => cases op <;> rfl
  | onNumbers op => cases op <;> rfl

end Condition

namespace Builtin

open Condition (Operator statusOf evaluate)
open Text (Denotes)

/-- The expression that is left of some arguments when the closing bracket has been taken off. -/
theorem status_runTest (b : Builtin) (argv : List String) (m : Machine)
    (closed : b = bracket → argv.tail.getLast? = some "]") :
    (runTest b argv m).1 = statusOf (evaluate m.host.tree m.shell.directory
      (if b = bracket then argv.tail.dropLast else argv.tail)) := by
  have whole : ¬(b = bracket && argv.tail.getLast? ≠ some "]") = true := by
    simpa using closed
  change ((if _ then _ else _ : SessionM Int) m).1 = _
  rw [if_neg whole, SessionM.get_bind]
  cases evaluate m.host.tree m.shell.directory _ with
  | error fault => rfl
  | ok value => cases value <;> rfl

/-- A comparison by `test` or between brackets gives the status that its operands call for, whatever
they look like, with one exception: if the left one is an exclamation mark, the status is 2, which
is right for numbers but not for texts. What the operands call for is one status, always. -/
theorem comparisons_but_of_negations (source : Sourcing) (name : String) (op : Operator)
    (l r : String) (m : Machine) :
    let status := (test.run source [name, l, op.text, r] m).1
    (bracket.run source [name, l, op.text, r, "]"] m).1 = status ∧
    (op.Gives l r status ↔ (l = "!" → ∃ number, op = .onNumbers number)) ∧
    (l = "!" → status = 2) ∧ ∃! due, op.Gives l r due := by
  intro status
  have tested : status = statusOf (evaluate m.host.tree m.shell.directory [l, op.text, r]) :=
    status_runTest test [name, l, op.text, r] m (by rintro ⟨⟩)
  have bracketed : (bracket.run source [name, l, op.text, r, "]"] m).1 =
      statusOf (evaluate m.host.tree m.shell.directory [l, op.text, r]) :=
    status_runTest bracket [name, l, op.text, r, "]"] m fun _ => rfl
  have negated (h : l = "!") : status = 2 := by
    rw [tested, h, Condition.evaluate_negated, statusOf]
  refine ⟨bracketed.trans tested.symm, ⟨fun gives mark => ?_, fun number => ?_⟩, negated,
    statusOf (Condition.binary l op.text r), Condition.gives_binary op l r, fun _ => (·.eq_binary)⟩
  · rw [negated mark] at gives
    cases op with
    | onTexts op => cases gives
    | onNumbers op => exact ⟨op, rfl⟩
  · by_cases mark : l = "!"
    · obtain ⟨op, rfl⟩ := number mark
      rw [negated mark]
      refine .noNumber (.inl fun a spelled => ?_)
      rw [mark] at spelled
      cases (show Condition.integer "!" = .error (.noInteger "!") by decide +kernel).symm.trans
        (Condition.integer_eq_ok.2 spelled)
    · rw [tested, Condition.evaluate_binary _ _ mark]
      exact Condition.gives_binary op l r

/-- Two exclamation marks are the same text, but `test` does not say so. -/
theorem exclamation_marks_not_compared :
    let m := Machine.start .empty FileTree.root .null [] .default
    Operator.Gives "!" "!" (.onTexts .same) 0 ∧
      (test.run SessionM.sourceFile ["test", "!", "=", "!"] m).1 = 2 ∧
      (bracket.run SessionM.sourceFile ["[", "!", "=", "!", "]"] m).1 = 2 ∧
      ¬∀ (op : Operator) (l r : String),
        op.Gives l r (test.run SessionM.sourceFile ["test", l, op.text, r] m).1 := by
  intro m
  refine ⟨.holds rfl, by decide +kernel, by decide +kernel, fun all => ?_⟩
  have wrong : (test.run SessionM.sourceFile ["test", "!", "=", "!"] m).1 = 2 := by decide +kernel
  cases wrong ▸ all (.onTexts .same) "!" "!"

end Builtin
end JobShell
