import JobShell.Builtin.Escape
import JobShell.Proofs.TextBytes
import Mathlib.Data.List.Basic
import Mathlib.Data.Nat.Digits.Defs

/-! Escapes as units. A sequence of bytes is cut into units from the left in one way, and decoding
puts the values of the units together, up to the one that stops the output. A text can be decoded by
positions too: none lies outside the text, and none where a text is cut out lies inside a
character. -/
namespace JobShell.Escape

/-! ### Digits -/

def backslash : UInt8 := ascii '\\'

/-- How a byte is given by a number: what stands behind the backslash, and how many digits follow
it, in which base. -/
structure Radix where
  mark : Char
  base : Nat
  least : Nat
  most : Nat
  deriving DecidableEq

def octal : Radix := ⟨'0', 8, 0, 3⟩

def hexadecimal : Radix := ⟨'x', 16, 1, 2⟩

namespace Radix

/-- The value of a digit, which may be a letter of either case. -/
def digit? (k : Radix) (b : UInt8) : Option Nat :=
  (List.range k.base).find? fun n => n.digitChar = (Char.ofNat b.toNat).toLower

def isDigit (k : Radix) (b : UInt8) : Bool := (k.digit? b).isSome

/-- The value of digits, the highest one first, of which a byte keeps the lowest eight bits. -/
def value (k : Radix) (digits : Bytes) : UInt8 :=
  UInt8.ofNat (Nat.ofDigits k.base (digits.filterMap k.digit?).reverse)

/-- Digits that a number has, in front of what follows it: as many as there are, up to a bound. -/
structure Takes (k : Radix) (digits rest : Bytes) : Prop where
  all : ∀ d ∈ digits, k.isDigit d = true
  least : k.least ≤ digits.length
  most : digits.length ≤ k.most
  longest : digits.length < k.most → ∀ d ∈ rest.head?, k.isDigit d = false

end Radix

theorem forall_byte {p : UInt8 → Prop} (h : ∀ n : Fin 256, p (UInt8.ofFin n)) (b : UInt8) : p b :=
  h b.toFin

theorem hexValue?_eq (b : UInt8) : hexValue? b = hexadecimal.digit? b := by
  revert b
  apply forall_byte
  decide +kernel

theorem isDigit_hexadecimal (b : UInt8) : hexadecimal.isDigit b = (hexValue? b).isSome := by
  rw [Radix.isDigit, hexValue?_eq]

theorem digit?_octal (b : UInt8) :
    octal.digit? b = if isOctal b then some (b - ascii '0').toNat else none := by
  revert b
  apply forall_byte
  decide +kernel

theorem isDigit_octal (b : UInt8) : octal.isDigit b = isOctal b := by
  rw [Radix.isDigit, digit?_octal]
  cases isOctal b <;> rfl

theorem number_eq (base : Nat) (digits : List Nat) :
    number base digits = UInt8.ofNat (Nat.ofDigits base digits.reverse) := by
  rw [number, Nat.ofDigits_eq_foldr, List.foldr_reverse]
  simp [Nat.add_comm]

/-- The digits at the beginning of some bytes. -/
def Radix.run (k : Radix) (bs : Bytes) : Bytes := (bs.take k.most).takeWhile k.isDigit

theorem Radix.Takes.run_eq {k : Radix} {digits rest : Bytes} (h : k.Takes digits rest) :
    k.run (digits ++ rest) = digits := by
  rw [run, List.take_append, List.take_of_length_le h.most, List.takeWhile_append_of_pos h.all,
    List.append_right_eq_self]
  rcases h.most.lt_or_eq with fewer | full
  · cases rest with
    | nil => simp
    | cons d rest =>
      have other : k.isDigit d = false := h.longest fewer d (by simp)
      obtain ⟨n, eq⟩ : ∃ n, k.most - digits.length = n + 1 := ⟨k.most - digits.length - 1, by omega⟩
      simp [eq, other]
  · simp [full]

theorem Radix.append_run (k : Radix) (bs : Bytes) :
    k.run bs ++ bs.drop (k.run bs).length = bs :=
  List.prefix_iff_eq_append.1 ((List.takeWhile_prefix _).trans (List.take_prefix _ _))

theorem takeWhile_take_longest {p : UInt8 → Bool} {n : Nat} {bs : Bytes}
    (fewer : ((bs.take n).takeWhile p).length < n) :
    ∀ d ∈ (bs.drop ((bs.take n).takeWhile p).length).head?, p d = false := by
  induction bs generalizing n with
  | nil => simp
  | cons b bs ih =>
    obtain ⟨n, rfl⟩ : ∃ m, n = m + 1 := ⟨n - 1, by omega⟩
    rw [List.take_succ_cons, List.takeWhile_cons] at fewer ⊢
    by_cases digit : p b = true
    · rw [if_pos digit, List.length_cons] at fewer ⊢
      exact ih (by omega)
    · rw [if_neg digit]
      simpa using digit

theorem Radix.takes_run {k : Radix} {bs : Bytes} (enough : k.least ≤ (k.run bs).length) :
    k.Takes (k.run bs) (bs.drop (k.run bs).length) where
  all := List.all_eq_true.1 (List.all_takeWhile ..)
  least := enough
  most := (List.takeWhile_prefix _).length_le.trans (List.length_take_le _ _)
  longest := takeWhile_take_longest

/-! ### Units -/

/-- What stands by itself in a sequence of bytes that is to be decoded. -/
inductive Item where
  | byte (b : UInt8)
  | letter (l : Char × UInt8)
  | number (k : Radix) (digits : Bytes)
  | other (e : UInt8)
  | stop
  deriving DecidableEq

namespace Item

def text : Item → Bytes
  | byte b => [b]
  | letter l => [backslash, ascii l.1]
  | number k digits => backslash :: ascii k.mark :: digits
  | other e => [backslash, e]
  | stop => [backslash, ascii 'c']

def value : Item → Bytes
  | byte b => [b]
  | letter l => [l.2]
  | number k digits => [k.value digits]
  | other e => [backslash, e]
  | stop => []

/-- Which units there are, and in front of what. A backslash stands for itself only at the end, and
an escape that is not known does so together with the byte behind the backslash. -/
def Fits (rest : Bytes) : Item → Prop
  | byte b => b ≠ backslash ∨ rest = []
  | letter l => l ∈ letters
  | number k digits => (k = octal ∨ k = hexadecimal) ∧ k.Takes digits rest
  | other e => e ≠ ascii 'c' ∧ e ≠ ascii '0' ∧ (∀ l ∈ letters, ascii l.1 ≠ e) ∧
      (e = ascii 'x' → ∀ d ∈ rest.head?, hexadecimal.isDigit d = false)
  | stop => True

end Item

/-- A sequence of bytes is cut into units, from the left. -/
inductive Cut : Bytes → List Item → Prop where
  | nil : Cut [] []
  | cons {item : Item} {rest : Bytes} {items : List Item} (fits : item.Fits rest)
    (later : Cut rest items) : Cut (item.text ++ rest) (item :: items)

/-- The first unit of some bytes, and what follows it. -/
def next? : Bytes → Option (Item × Bytes)
  | [] => none
  | [b] => some (.byte b, [])
  | b :: e :: r =>
    if b ≠ backslash then some (.byte b, e :: r)
    else if e = ascii 'c' then some (.stop, r)
    else if e = ascii '0' then
      some (.number octal (octal.run r), r.drop (octal.run r).length)
    else if e = ascii 'x' then
      if hexadecimal.run r = [] then some (.other e, r)
      else some (.number hexadecimal (hexadecimal.run r), r.drop (hexadecimal.run r).length)
    else match letters.find? fun l => ascii l.1 = e with
      | some l => some (.letter l, r)
      | none => some (.other e, r)

theorem text_append_number (k : Radix) (r : Bytes) :
    (Item.number k (k.run r)).text ++ r.drop (k.run r).length = backslash :: ascii k.mark :: r := by
  rw [Item.text, List.cons_append, List.cons_append, k.append_run]

theorem mem_letters_of_find? {e : UInt8} {l : Char × UInt8}
    (h : letters.find? (fun l => ascii l.1 = e) = some l) : l ∈ letters ∧ ascii l.1 = e :=
  ⟨List.mem_of_find?_eq_some h, by simpa using List.find?_some h⟩

/-- Every sequence of bytes that is not empty begins with a unit. -/
theorem next?_spec {bs rest : Bytes} {item : Item} (h : next? bs = some (item, rest)) :
    bs = item.text ++ rest ∧ item.Fits rest := by
  unfold next? at h
  split at h
  · cases h
  · cases h
    exact ⟨rfl, .inr rfl⟩
  next b e r =>
  split at h
  · next plain =>
    cases h
    exact ⟨rfl, .inl plain⟩
  next escape =>
  obtain rfl : b = backslash := not_not.1 escape
  split at h
  · next stops =>
    cases h
    exact ⟨by rw [stops]; rfl, trivial⟩
  next stops =>
  split at h
  · next zero =>
    cases h
    refine ⟨?_, .inl rfl, Radix.takes_run (Nat.zero_le _)⟩
    rw [zero, text_append_number]
    rfl
  next zero =>
  split at h
  · next sign =>
    subst sign
    split at h
    · next none =>
      cases h
      refine ⟨rfl, stops, zero, by decide, fun _ => ?_⟩
      have fewer : (hexadecimal.run rest).length < hexadecimal.most := by
        rw [none]
        decide
      have longest := takeWhile_take_longest fewer
      rwa [← Radix.run, none] at longest
    · next some =>
      cases h
      refine ⟨?_, .inr rfl, Radix.takes_run (List.length_pos_iff.2 some)⟩
      rw [text_append_number]
      rfl
  next sign =>
  split at h
  · next l found =>
    cases h
    obtain ⟨listed, rfl⟩ := mem_letters_of_find? found
    exact ⟨rfl, listed⟩
  · next unknown =>
    cases h
    refine ⟨rfl, stops, zero, ?_, fun h => absurd h sign⟩
    simpa using List.find?_eq_none.1 unknown

theorem run_eq_nil {k : Radix} {bs : Bytes} (h : ∀ d ∈ bs.head?, k.isDigit d = false) :
    k.run bs = [] := by
  cases bs with
  | nil => simp [Radix.run]
  | cons d bs =>
    have other : k.isDigit d = false := h d (by simp)
    cases most : k.most <;> simp [Radix.run, most, other]

theorem signs_ne : ascii '0' ≠ ascii 'c' ∧ ascii 'x' ≠ ascii 'c' ∧ ascii 'x' ≠ ascii '0' := by
  decide

theorem letters_ne : ∀ l ∈ letters, ascii l.1 ≠ ascii 'c' ∧ ascii l.1 ≠ ascii '0' ∧
    ascii l.1 ≠ ascii 'x' := by
  decide

theorem find?_letters : ∀ l ∈ letters, letters.find? (fun m => ascii m.1 = ascii l.1) = some l := by
  decide

/-- A unit is the first one of all bytes that it can stand in front of. -/
theorem next?_text_append {item : Item} {rest : Bytes} (fits : item.Fits rest) :
    next? (item.text ++ rest) = some (item, rest) := by
  cases item with
  | byte b =>
    rcases fits with plain | rfl
    · cases rest <;> simp [Item.text, next?, plain]
    · rfl
  | letter l => simp [Item.text, next?, letters_ne l fits, find?_letters l fits]
  | number k digits =>
    obtain ⟨rfl | rfl, takes⟩ := fits
    · have mark : octal.mark = '0' := rfl
      simp [Item.text, next?, mark, signs_ne, takes.run_eq]
    · have mark : hexadecimal.mark = 'x' := rfl
      have some : digits ≠ [] := List.length_pos_iff.1 takes.least
      simp [Item.text, next?, mark, signs_ne, takes.run_eq, some]
  | other e =>
    obtain ⟨stops, zero, unknown, sign⟩ := fits
    by_cases hex : e = ascii 'x'
    · simp [Item.text, next?, hex, signs_ne, run_eq_nil (sign hex)]
    · have none : letters.find? (fun l => ascii l.1 = e) = none := by
        simpa using unknown
      simp [Item.text, next?, stops, zero, hex, none]
  | stop => simp [Item.text, next?]

theorem Cut.unique {bs : Bytes} {items others : List Item} (cut : Cut bs items)
    (cut' : Cut bs others) : others = items := by
  induction cut generalizing others with
  | nil =>
    generalize eq : ([] : Bytes) = bs at cut'
    cases cut' with
    | nil => rfl
    | @cons item rest _ fits _ =>
      have first := next?_text_append fits
      rw [← eq] at first
      cases first
  | @cons item rest items fits _ ih =>
    generalize eq : item.text ++ rest = bs at cut'
    have first := next?_text_append fits
    cases cut' with
    | nil =>
      rw [eq] at first
      cases first
    | @cons item' rest' others fits' later' =>
      have first' := next?_text_append fits'
      rw [← eq, first] at first'
      cases first'
      rw [ih later']

theorem next?_ne_none {bs : Bytes} (some : bs ≠ []) : next? bs ≠ none := by
  unfold next?
  split
  · exact absurd rfl some
  · simp
  · repeat' split
    all_goals simp

theorem Item.text_ne_nil (item : Item) : item.text ≠ [] := by
  cases item <;> simp [text]

theorem exists_cut (bs : Bytes) : ∃ items, Cut bs items := by
  induction len : bs.length using Nat.strongRecOn generalizing bs with
  | ind n ih =>
    by_cases empty : bs = []
    · exact ⟨[], empty ▸ .nil⟩
    · obtain ⟨⟨item, rest⟩, first⟩ := Option.ne_none_iff_exists'.1 (next?_ne_none empty)
      obtain ⟨rfl, fits⟩ := next?_spec first
      have shorter : rest.length < n := by
        have := List.length_pos_iff.2 item.text_ne_nil
        rw [List.length_append] at len
        omega
      obtain ⟨items, later⟩ := ih rest.length shorter rest rfl
      exact ⟨item :: items, .cons fits later⟩

/-! ### Decoding -/

theorem octal_run (bs : Bytes) : (bs.take 3).takeWhile isOctal = octal.run bs := by
  rw [← funext isDigit_octal]
  rfl

theorem hexadecimal_run (bs : Bytes) :
    ((bs.take 2).takeWhile fun d => (hexValue? d).isSome) = hexadecimal.run bs := by
  rw [funext hexValue?_eq]
  rfl

theorem length_values {k : Radix} {digits : Bytes} (all : ∀ d ∈ digits, k.isDigit d = true) :
    (digits.filterMap k.digit?).length = digits.length := by
  rw [List.length_filterMap_eq_countP, List.countP_eq_length]
  exact all

theorem hexadecimal_value (digits : Bytes) :
    number 16 (digits.filterMap hexValue?) = hexadecimal.value digits := by
  rw [number_eq, funext hexValue?_eq]
  rfl

theorem octal_value {digits : Bytes} (all : ∀ d ∈ digits, octal.isDigit d = true) :
    number 8 (digits.map fun d => (d - ascii '0').toNat) = octal.value digits := by
  have values : digits.filterMap octal.digit? = digits.map fun d => (d - ascii '0').toNat := by
    rw [← List.filterMap_eq_map]
    apply List.filterMap_congr
    intro d hd
    rw [digit?_octal, if_pos ((isDigit_octal d).symm.trans (all d hd))]
    rfl
  rw [number_eq, Radix.value, values]
  rfl

/-- The first unit is decoded by itself. -/
theorem decode_text_append {item : Item} {rest : Bytes} (fits : item.Fits rest) :
    decode (item.text ++ rest) =
      if item = .stop then ([], true) else decode.put item.value (decode rest) := by
  cases item with
  | byte b =>
    cases rest with
    | nil => simp [Item.text, Item.value, decode, decode.put]
    | cons e r =>
      have plain : b ≠ ascii '\\' := fits.resolve_right (by simp)
      simp [Item.text, Item.value, decode, plain]
  | letter l =>
    simp [Item.text, Item.value, decode, backslash, letters_ne l fits, find?_letters l fits]
  | number k digits =>
    obtain ⟨rfl | rfl, takes⟩ := fits
    · have mark : octal.mark = '0' := rfl
      simp [Item.text, Item.value, decode, backslash, mark, signs_ne, octal_run, takes.run_eq,
        octal_value takes.all]
    · have mark : hexadecimal.mark = 'x' := rfl
      have length : (digits.filterMap hexValue?).length = digits.length := by
        rw [funext hexValue?_eq, length_values takes.all]
      have some : digits.filterMap hexValue? ≠ [] := by
        rw [← List.length_pos_iff, length]
        exact takes.least
      simp [Item.text, Item.value, decode, backslash, mark, signs_ne, hexadecimal_run, takes.run_eq,
        length, some, hexadecimal_value]
  | other e =>
    obtain ⟨stops, zero, unknown, sign⟩ := fits
    by_cases hex : e = ascii 'x'
    · simp [Item.text, Item.value, decode, backslash, hex, signs_ne, hexadecimal_run,
        run_eq_nil (sign hex)]
    · have none : letters.find? (fun l => ascii l.1 = e) = none := by
        simpa using unknown
      simp [Item.text, Item.value, decode, backslash, stops, zero, hex, none]
  | stop => simp [Item.text, decode, backslash]

theorem decode_of_cut {bs : Bytes} {items : List Item} (cut : Cut bs items) :
    decode bs = ((items.takeWhile (· ≠ .stop)).flatMap Item.value, decide (.stop ∈ items)) := by
  induction cut with
  | nil => simp [decode]
  | @cons item rest items fits _ ih =>
    rw [decode_text_append fits, ih]
    by_cases stops : item = .stop
    · simp [stops]
    · simp [stops, decode.put, Ne.symm stops]

/-! ### Decoding by positions -/

/-- All bytes from a position on. -/
def from? (bs : Bytes) (i : Nat) : Option Bytes := if i ≤ bs.length then some (bs.drop i) else none

def slice? (bs : Bytes) (i j : Nat) : Option Bytes :=
  if i ≤ j ∧ j ≤ bs.length then some ((bs.drop i).take (j - i)) else none

/-- What stands between two positions of a text, neither of which may lie inside a character. -/
def excerpt? (text : String) (i j : Nat) : Option Bytes :=
  if String.Pos.Raw.IsValid text ⟨i⟩ ∧ String.Pos.Raw.IsValid text ⟨j⟩ then
    slice? (Bytes.ofString text) i j
  else none

/-- Decodes a text from a position on. All bytes are found by their positions, and there is no
result if one of these is not as it must be. -/
def decodeAt? (text : String) (i : Nat) : Option (Bytes × Bool) :=
  let bs := Bytes.ofString text
  if i < bs.length then
    bs[i]?.bind fun b =>
    if b ≠ backslash ∨ i + 1 = bs.length then (decodeAt? text (i + 1)).map (decode.put [b])
    else
      bs[i + 1]?.bind fun e =>
      if e = ascii 'c' then some ([], true)
      else if e = ascii '0' then
        (from? bs (i + 2)).bind fun rest =>
        let count := ((rest.take 3).takeWhile isOctal).length
        (slice? bs (i + 2) (i + 2 + count)).bind fun digits =>
        (decodeAt? text (i + 2 + count)).map
          (decode.put [number 8 (digits.map fun d => (d - ascii '0').toNat)])
      else if e = ascii 'x' then
        (from? bs (i + 2)).bind fun rest =>
        let count := ((rest.take 2).takeWhile fun d => (hexValue? d).isSome).length
        if count = 0 then (decodeAt? text (i + 2)).map (decode.put [b, e])
        else
          (excerpt? text (i + 2) (i + 2 + count)).bind fun digits =>
          (decodeAt? text (i + 2 + count)).map
            (decode.put [number 16 (digits.filterMap hexValue?)])
      else
        match letters.find? fun l => ascii l.1 = e with
        | some l => (decodeAt? text (i + 2)).map (decode.put [l.2])
        | none => (decodeAt? text (i + 2)).map (decode.put [b, e])
  else some ([], false)
termination_by (Bytes.ofString text).length - i
decreasing_by
  all_goals
    have all : bs.length = (Bytes.ofString text).length := rfl
    omega

theorem from?_behind (front rest : Bytes) (e : UInt8) :
    from? (front ++ backslash :: e :: rest) (front.length + 2) = some rest := by
  simp [from?]

theorem slice?_behind (front digits rest : Bytes) (e : UInt8) :
    slice? (front ++ backslash :: e :: (digits ++ rest)) (front.length + 2)
      (front.length + 2 + digits.length) = some digits := by
  have inside : front.length + 2 + digits.length ≤
      (front ++ backslash :: e :: (digits ++ rest)).length := by
    simp only [List.length_append, List.length_cons]
    omega
  rw [slice?, if_pos ⟨Nat.le_add_right .., inside⟩, Nat.add_sub_cancel_left]
  simp

theorem low_of_isDigit {d : UInt8} : hexadecimal.isDigit d = true → d < 0x80 := by
  rw [isDigit_hexadecimal]
  revert d
  apply forall_byte
  decide +kernel

/-- Digits begin behind a mark, and end behind a digit, each of which is a character by itself. -/
theorem excerpt?_behind {text : String} {front digits rest : Bytes} {e : UInt8} (low : e < 0x80)
    (takes : hexadecimal.Takes digits rest)
    (bytes : Bytes.ofString text = front ++ backslash :: e :: (digits ++ rest)) :
    excerpt? text (front.length + 2) (front.length + 2 + digits.length) = some digits := by
  have start : String.Pos.Raw.IsValid text ⟨front.length + 2⟩ := by
    have bytes : Bytes.ofString text = (front ++ [backslash]) ++ e :: (digits ++ rest) := by
      simpa using bytes
    simpa using Bytes.isValid_behind low bytes
  have stop : String.Pos.Raw.IsValid text ⟨front.length + 2 + digits.length⟩ := by
    obtain ⟨init, last, rfl⟩ : ∃ init last, digits = init ++ [last] :=
      ⟨_, _, (List.dropLast_append_getLast (List.length_pos_iff.1 takes.least)).symm⟩
    have bytes : Bytes.ofString text = (front ++ backslash :: e :: init) ++ last :: rest := by
      simpa using bytes
    have behind := Bytes.isValid_behind (low_of_isDigit (takes.all last (by simp))) bytes
    have length : (front ++ backslash :: e :: init).length + 1 =
        front.length + 2 + (init ++ [last]).length := by
      simp only [List.length_append, List.length_cons, List.length_nil]
      omega
    rwa [length] at behind
  rw [excerpt?, if_pos ⟨start, stop⟩, bytes, slice?_behind]

theorem decodeAt?_text_append {text : String} {front rest : Bytes} {item : Item}
    (fits : item.Fits rest) (bytes : Bytes.ofString text = front ++ (item.text ++ rest)) :
    decodeAt? text front.length = if item = .stop then some ([], true)
      else (decodeAt? text (front ++ item.text).length).map (decode.put item.value) := by
  rw [decodeAt?]
  cases item with
  | byte b =>
    have last : b ≠ backslash ∨ rest = [] := fits
    simp [bytes, Item.text, Item.value, last]
  | letter l =>
    simp [bytes, Item.text, Item.value, letters_ne l fits, find?_letters l fits]
  | number k digits =>
    have length : front.length + (digits.length + 2) = front.length + 2 + digits.length := by omega
    obtain ⟨rfl | rfl, takes⟩ := fits
    · have mark : octal.mark = '0' := rfl
      simp [bytes, Item.text, Item.value, mark, signs_ne, from?_behind, octal_run, takes.run_eq,
        slice?_behind, octal_value takes.all, length]
    · have mark : hexadecimal.mark = 'x' := rfl
      have some : digits ≠ [] := List.length_pos_iff.1 takes.least
      have digits := excerpt?_behind (by decide) takes bytes
      simp [bytes, Item.text, Item.value, mark, signs_ne, from?_behind, hexadecimal_run,
        takes.run_eq, some, digits, hexadecimal_value, length]
  | other e =>
    obtain ⟨stops, zero, unknown, sign⟩ := fits
    by_cases hex : e = ascii 'x'
    · simp [bytes, Item.text, Item.value, hex, signs_ne, from?_behind, hexadecimal_run,
        run_eq_nil (sign hex)]
    · have none : letters.find? (fun l => ascii l.1 = e) = none := by
        simpa using unknown
      simp [bytes, Item.text, Item.value, stops, zero, hex, none]
  | stop => simp [bytes, Item.text]

/-- No position is wrong, from one unit to the next. -/
theorem decodeAt?_of_cut {text : String} {front bs : Bytes} {items : List Item}
    (cut : Cut bs items) (bytes : Bytes.ofString text = front ++ bs) :
    decodeAt? text front.length = some (decode bs) := by
  induction cut generalizing front with
  | nil =>
    rw [decodeAt?]
    simp [bytes, decode]
  | @cons item rest items fits _ ih =>
    rw [decodeAt?_text_append fits bytes, decode_text_append fits]
    split
    · rfl
    · rw [ih (by rw [bytes, List.append_assoc]), Option.map_some]

/-! ### Bytes written as numbers -/

/-- The digits of a byte, as many as there can be, with small letters. -/
def Radix.digits (k : Radix) (b : UInt8) : List Char :=
  (Nat.toDigits k.base b.toNat).leftpad k.most '0'

theorem digits_spec {k : Radix} (known : k = octal ∨ k = hexadecimal) (b : UInt8) :
    (k.digits b).length = k.most ∧ (k.digits b).map Char.toLower = k.digits b ∧
      (∀ c ∈ k.digits b, c.toNat < 128 ∧ k.isDigit (ascii c) = true) ∧
      k.value ((k.digits b).map ascii) = b := by
  -- Digits are gone through as a list, not as all characters that might be among them.
  have listed (b : UInt8) : (∀ c ∈ k.digits b, c.toNat < 128 ∧ k.isDigit (ascii c) = true) ↔
      ((k.digits b).all fun c => c.toNat < 128 ∧ k.isDigit (ascii c) = true) = true := by
    simp only [List.all_eq_true, decide_eq_true_eq]
  simp only [listed]
  revert b
  apply forall_byte
  rcases known with rfl | rfl
  · simp only [isDigit_octal, Radix.value, funext digit?_octal]
    decide +kernel
  · simp only [isDigit_hexadecimal, ← hexadecimal_value]
    decide +kernel

theorem toNat_lt_of_toLower {c : Char} (low : c.toLower.toNat < 128) : c.toNat < 128 := by
  unfold Char.toLower at low
  split at low
  · next capital =>
    have last : c.toNat ≤ 'Z'.toNat := capital.2
    exact Nat.lt_of_le_of_lt last (by decide)
  · exact low

theorem digit?_toLower {k : Radix} (known : k = octal ∨ k = hexadecimal) {c : Char}
    (low : c.toNat < 128) : k.digit? (ascii c) = k.digit? (ascii c.toLower) := by
  have all : ∀ n : Fin 128,
      k.digit? (ascii (Char.ofNat n)) = k.digit? (ascii (Char.ofNat n).toLower) := by
    rcases known with rfl | rfl
    · simp only [digit?_octal]
      decide +kernel
    · simp only [← hexValue?_eq]
      decide +kernel
  simpa using all ⟨c.toNat, low⟩

theorem utf8EncodeChar_of_low {c : Char} (low : c.toNat < 128) :
    String.utf8EncodeChar c = [ascii c] := by
  have single : Bytes.Form c.toNat [ascii c] := by
    refine .one low ?_
    rw [ascii, Nat.toUInt8_eq, UInt8.toNat_ofNat']
    omega
  exact (Bytes.form_utf8EncodeChar c).unique single

theorem ofChars_of_low {cs : List Char} (low : ∀ c ∈ cs, c.toNat < 128) :
    Bytes.ofChars cs = cs.map ascii := by
  induction cs with
  | nil => rfl
  | cons c cs ih =>
    obtain ⟨first, others⟩ := List.forall_mem_cons.1 low
    rw [Bytes.ofChars_cons, utf8EncodeChar_of_low first, ih others]
    rfl

/-- The digits of a byte make one number, whatever follows them and with letters of either case. -/
theorem takes_digits {k : Radix} (known : k = octal ∨ k = hexadecimal) {b : UInt8}
    {digits : List Char} (h : digits.map Char.toLower = k.digits b) (rest : Bytes) :
    k.Takes (Bytes.ofChars digits) rest ∧ k.value (Bytes.ofChars digits) = b := by
  obtain ⟨length, -, all, value⟩ := digits_spec known b
  rw [← h] at length all value
  have low (c : Char) (hc : c ∈ digits) : c.toNat < 128 :=
    toNat_lt_of_toLower (all _ (List.mem_map_of_mem hc)).1
  have same (c : Char) (hc : c ∈ digits) := digit?_toLower known (low c hc)
  rw [ofChars_of_low low]
  constructor
  · have full : (digits.map ascii).length = k.most := by simpa using length
    refine ⟨?_, ?_, full.le, fun fewer => absurd full fewer.ne⟩
    · intro d hd
      obtain ⟨c, hc, rfl⟩ := List.mem_map.1 hd
      rw [Radix.isDigit, same c hc]
      exact (all _ (List.mem_map_of_mem hc)).2
    · rw [full]
      rcases known with rfl | rfl <;> decide
  · have values : (digits.map ascii).filterMap k.digit? =
        ((digits.map Char.toLower).map ascii).filterMap k.digit? := by
      rw [List.map_map, List.filterMap_map, List.filterMap_map]
      exact List.filterMap_congr same
    rw [Radix.value, values]
    exact value

/-- The text in which all bytes are written with a backslash and a mark. -/
def Radix.write (k : Radix) (written : List (List Char)) : String :=
  String.ofList (written.flatMap fun digits => '\\' :: k.mark :: digits)

theorem ofString_write_cons {k : Radix} (known : k = octal ∨ k = hexadecimal)
    (digits : List Char) (written : List (List Char)) :
    Bytes.ofString (k.write (digits :: written)) =
      (Item.number k (Bytes.ofChars digits)).text ++ Bytes.ofString (k.write written) := by
  have slash : String.utf8EncodeChar '\\' = [backslash] := utf8EncodeChar_of_low (by decide)
  have mark : String.utf8EncodeChar k.mark = [ascii k.mark] := by
    apply utf8EncodeChar_of_low
    rcases known with rfl | rfl <;> decide
  simp [Radix.write, Bytes.ofString, Item.text, slash, mark]

theorem decode_write {k : Radix} (known : k = octal ∨ k = hexadecimal) {bs : Bytes}
    {written : List (List Char)} (h : written.map (·.map Char.toLower) = bs.map k.digits) :
    decode (Bytes.ofString (k.write written)) = (bs, false) := by
  induction bs generalizing written with
  | nil =>
    obtain rfl : written = [] := by simpa using h
    simp [Radix.write, Bytes.ofString, decode]
  | cons b bs ih =>
    obtain ⟨digits, written, rfl⟩ : ∃ digits later, written = digits :: later :=
      List.exists_cons_of_ne_nil (by rintro rfl; simp at h)
    rw [List.map_cons, List.map_cons, List.cons.injEq] at h
    obtain ⟨takes, value⟩ := takes_digits known h.1 (Bytes.ofString (k.write written))
    have fits : (Item.number k (Bytes.ofChars digits)).Fits _ := ⟨known, takes⟩
    rw [ofString_write_cons known, decode_text_append fits, ih h.2]
    simp [Item.value, decode.put, value]

/-- Decoding a text puts together the values of the units that it is cut into from the left, in the
one way there is, up to the first one that stops the output, and tells whether there is such a unit.
Done by positions, it never needs one outside the text or inside a character. Bytes that are written
in octal or in hexadecimal digits come out as they are, with letters of either case. -/
theorem texts_decode_by_units :
    (∀ text : String, decodeAt? text 0 = some (decode (Bytes.ofString text)) ∧
      ∃ items, Cut (Bytes.ofString text) items ∧
        (∀ others, Cut (Bytes.ofString text) others → others = items) ∧
        decode (Bytes.ofString text) =
          ((items.takeWhile (· ≠ .stop)).flatMap Item.value, decide (.stop ∈ items))) ∧
    ∀ bs : Bytes,
      decode (Bytes.ofString (octal.write (bs.map octal.digits))) = (bs, false) ∧
      decode (Bytes.ofString (hexadecimal.write (bs.map hexadecimal.digits))) = (bs, false) ∧
      ∀ written : List (List Char),
        written.map (·.map Char.toLower) = bs.map hexadecimal.digits →
        decode (Bytes.ofString (hexadecimal.write written)) = (bs, false) := by
  refine ⟨fun text => ?_, fun bs => ?_⟩
  · obtain ⟨items, cut⟩ := exists_cut (Bytes.ofString text)
    have bytes : Bytes.ofString text = [] ++ Bytes.ofString text := rfl
    exact ⟨decodeAt?_of_cut cut bytes, items, cut, fun _ => cut.unique, decode_of_cut cut⟩
  · have small {k : Radix} (known : k = octal ∨ k = hexadecimal) :
        (bs.map k.digits).map (·.map Char.toLower) = bs.map k.digits := by
      rw [List.map_map]
      exact List.map_congr_left fun b _ => (digits_spec known b).2.1
    exact ⟨decode_write (.inl rfl) (small (.inl rfl)), decode_write (.inr rfl) (small (.inr rfl)),
      fun _ => decode_write (.inr rfl)⟩

/-- Units of all kinds, with digits next to numbers, a character of two bytes and an end in the
middle; and two bytes in hexadecimal digits, one of which has a capital. -/
theorem texts_decode_by_units_mixed :
    decodeAt? "a\\0101\\1é\\x4g\\q\\xy\\n\\c\\" 0 =
      some (Bytes.ofString "aA\\1é\x04g\\q\\xy\n", true) ∧
    decode (Bytes.ofString "\\xfF\\x00") = ([255, 0], false) := by
  refine ⟨(texts_decode_by_units.1 _).1.trans (congrArg some ?_), ?_⟩
  · decide +kernel
  · exact (texts_decode_by_units.2 [255, 0]).2.2 [['f', 'F'], ['0', '0']] (by decide)

end JobShell.Escape
