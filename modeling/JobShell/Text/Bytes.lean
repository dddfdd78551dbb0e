/-!
Byte strings and the UTF-8 form of text. Decoding refuses every ill-formed sequence, overlong
forms and surrogates included.
-/
namespace JobShell

abbrev Bytes := List UInt8

namespace Bytes

def ofChars (cs : List Char) : Bytes := cs.flatMap String.utf8EncodeChar

/-- The UTF-8 form of a text. -/
def ofString (s : String) : Bytes := ofChars s.toList

@[simp] theorem ofChars_nil : ofChars [] = [] := rfl

@[simp] theorem ofChars_cons (c : Char) (cs : List Char) :
    ofChars (c :: cs) = String.utf8EncodeChar c ++ ofChars cs := rfl

@[simp] theorem ofChars_append (cs ds : List Char) :
    ofChars (cs ++ ds) = ofChars cs ++ ofChars ds := by
  simp [ofChars]

@[simp] theorem ofString_append (s t : String) :
    ofString (s ++ t) = ofString s ++ ofString t := by
  simp [ofString]

/-- A byte that continues a character, between the given bounds. -/
def within (low high b : UInt8) : Bool := low ≤ b && b ≤ high

/-- The six payload bits of a continuation byte. -/
def payload (b : UInt8) : Nat := b.toNat % 64

/-- The least and the greatest second byte after the lead byte of a three-byte form. -/
def secondOfThree (a : UInt8) : UInt8 × UInt8 :=
  if a = 0xE0 then (0xA0, 0xBF) else if a = 0xED then (0x80, 0x9F) else (0x80, 0xBF)

/-- The least and the greatest second byte after the lead byte of a four-byte form. -/
def secondOfFour (a : UInt8) : UInt8 × UInt8 :=
  if a = 0xF0 then (0x90, 0xBF) else if a = 0xF4 then (0x80, 0x8F) else (0x80, 0xBF)

/-- The characters of a well-formed UTF-8 sequence. -/
def toChars? : Bytes → Option (List Char)
  | [] => some []
  | a :: r =>
    if a < 0x80 then (toChars? r).map (Char.ofNat a.toNat :: ·)
    else if within 0xC2 0xDF a then
      match r with
      | b :: r =>
        if within 0x80 0xBF b then
          (toChars? r).map (Char.ofNat ((a.toNat % 32) * 64 + payload b) :: ·)
        else none
      | [] => none
    else if within 0xE0 0xEF a then
      match r with
      | b :: c :: r =>
        if within (secondOfThree a).1 (secondOfThree a).2 b && within 0x80 0xBF c then
          (toChars? r).map
            (Char.ofNat ((a.toNat % 16) * 4096 + payload b * 64 + payload c) :: ·)
        else none
      | _ => none
    else if within 0xF0 0xF4 a then
      match r with
      | b :: c :: d :: r =>
        if within (secondOfFour a).1 (secondOfFour a).2 b && within 0x80 0xBF c
            && within 0x80 0xBF d then
          (toChars? r).map
            (Char.ofNat ((a.toNat % 8) * 262144 + payload b * 4096 + payload c * 64 + payload d)
              :: ·)
        else none
      | _ => none
    else none

/-- The text of a well-formed UTF-8 sequence. -/
def toString? (b : Bytes) : Option String := (toChars? b).map String.ofList

/-- What stands for bytes that are no text. -/
def replacement : Char := '\uFFFD'

/-- The character at the beginning of a sequence, and how many bytes it takes beyond the first. An
ill-formed beginning is replaced together with the bytes that would fit so far. -/
def firstChar (a : UInt8) (r : Bytes) : Char × Nat :=
  if a < 0x80 then (Char.ofNat a.toNat, 0)
  else if within 0xC2 0xDF a then
    match r with
    | b :: _ =>
      if within 0x80 0xBF b then (Char.ofNat ((a.toNat % 32) * 64 + payload b), 1)
      else (replacement, 0)
    | [] => (replacement, 0)
  else if within 0xE0 0xEF a then
    match r with
    | b :: r =>
      if within (secondOfThree a).1 (secondOfThree a).2 b then
        match r with
        | c :: _ =>
          if within 0x80 0xBF c then
            (Char.ofNat ((a.toNat % 16) * 4096 + payload b * 64 + payload c), 2)
          else (replacement, 1)
        | [] => (replacement, 1)
      else (replacement, 0)
    | [] => (replacement, 0)
  else if within 0xF0 0xF4 a then
    match r with
    | b :: r =>
      if within (secondOfFour a).1 (secondOfFour a).2 b then
        match r with
        | c :: r =>
          if within 0x80 0xBF c then
            match r with
            | d :: _ =>
              if within 0x80 0xBF d then
                (Char.ofNat ((a.toNat % 8) * 262144 + payload b * 4096 + payload c * 64
                  + payload d), 3)
              else (replacement, 2)
            | [] => (replacement, 2)
          else (replacement, 1)
        | [] => (replacement, 1)
      else (replacement, 0)
    | [] => (replacement, 0)
  else (replacement, 0)

/-- The characters of any sequence from some byte on. -/
def charsFrom : Nat → Bytes → List Char
  | _, [] => []
  | skipped + 1, _ :: r => charsFrom skipped r
  | 0, a :: r => (firstChar a r).1 :: charsFrom (firstChar a r).2 r

/-- The text of any sequence, with replacements for what is no text. -/
def toStringLossy (b : Bytes) : String := String.ofList (charsFrom 0 b)

def newline : UInt8 := 10

def slash : UInt8 := 0x2F

def isLower (b : UInt8) : Bool := within 0x61 0x7A b

/-- Turns the ASCII letters into capitals. -/
def toUpper (b : Bytes) : Bytes := b.map fun x => if isLower x then x - 32 else x

example : toStringLossy [0x61, 0xE2, 0x82, 0x62, 0xFF, 0xC3, 0xA4, 0xF0] = "a\uFFFDb\uFFFDä\uFFFD" := by
  decide

end Bytes
end JobShell
