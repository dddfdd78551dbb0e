/-!
Blank characters: the code points with the Unicode property `White_Space`, and trimming by them.
-/
namespace JobShell.Text

/-- The code points with the property `White_Space`, as closed ranges in ascending order. -/
def blankRanges : List (Nat × Nat) :=
  [(0x09, 0x0D), (0x20, 0x20), (0x85, 0x85), (0xA0, 0xA0), (0x1680, 0x1680), (0x2000, 0x200A),
    (0x2028, 0x2029), (0x202F, 0x202F), (0x205F, 0x205F), (0x3000, 0x3000)]

def isBlank (c : Char) : Bool :=
  blankRanges.any fun r => decide (r.1 ≤ c.toNat ∧ c.toNat ≤ r.2)

def trimStart (cs : List Char) : List Char := cs.dropWhile isBlank

def trimEnd (cs : List Char) : List Char := (trimStart cs.reverse).reverse

/-- Cuts the blanks off both ends. -/
def trim (cs : List Char) : List Char := trimEnd (trimStart cs)

@[simp] theorem trimStart_nil : trimStart [] = [] := rfl

end JobShell.Text
