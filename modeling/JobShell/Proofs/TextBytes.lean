import JobShell.Text.Bytes

/-! The UTF-8 form of text. Reading bytes as text is the inverse of writing text as bytes, and texts
are in the same order as their bytes. A byte below 128 is a character of its own, wherever it
stands. -/
namespace JobShell.Bytes

/-! ### The forms of a character -/

/-- The bytes that stand for a number: up to six bits in every byte behind the first. -/
inductive Form (v : Nat) : Bytes → Prop where
  | one {a : UInt8} (range : v < 0x80) (lead : a.toNat = v) : Form v [a]
  | two {a b : UInt8} (range : 0x80 ≤ v ∧ v < 0x800) (lead : a.toNat = 0xC0 + v / 64)
    (last : b.toNat = 0x80 + v % 64) : Form v [a, b]
  | three {a b c : UInt8} (range : 0x800 ≤ v ∧ v < 0x10000) (lead : a.toNat = 0xE0 + v / 4096)
    (second : b.toNat = 0x80 + v / 64 % 64) (last : c.toNat = 0x80 + v % 64) : Form v [a, b, c]
  | four {a b c d : UInt8} (range : 0x10000 ≤ v ∧ v < 0x110000)
    (lead : a.toNat = 0xF0 + v / 262144) (second : b.toNat = 0x80 + v / 4096 % 64)
    (third : c.toNat = 0x80 + v / 64 % 64) (last : d.toNat = 0x80 + v % 64) : Form v [a, b, c, d]

theorem toNat_of_valid {v : Nat} (valid : v.isValidChar) : (Char.ofNat v).toNat = v := by
  rw [Char.ofNat, dif_pos valid]
  rfl

theorem valid_toNat (c : Char) : c.toNat.isValidChar := c.valid

theorem form_utf8EncodeChar (c : Char) : Form c.toNat (String.utf8EncodeChar c) := by
  have valid := valid_toNat c
  change Form c.val.toNat (if c.val.toNat ≤ 127 then [UInt8.ofNat c.val.toNat]
    else if c.val.toNat ≤ 2047 then
      [UInt8.ofNat (c.val.toNat / 64 % 32 + 192), UInt8.ofNat (c.val.toNat % 64 + 128)]
    else if c.val.toNat ≤ 65535 then
      [UInt8.ofNat (c.val.toNat / 4096 % 16 + 224), UInt8.ofNat (c.val.toNat / 64 % 64 + 128),
        UInt8.ofNat (c.val.toNat % 64 + 128)]
    else
      [UInt8.ofNat (c.val.toNat / 262144 % 8 + 240), UInt8.ofNat (c.val.toNat / 4096 % 64 + 128),
        UInt8.ofNat (c.val.toNat / 64 % 64 + 128), UInt8.ofNat (c.val.toNat % 64 + 128)])
  change c.val.toNat.isValidChar at valid
  generalize c.val.toNat = v at valid
  have bound : v < 0x110000 := by
    rcases valid with low | high
    · omega
    · exact high.2
  split
  · exact .one (by omega) (by rw [UInt8.toNat_ofNat']; omega)
  split
  · refine .two (by omega) ?_ ?_ <;> rw [UInt8.toNat_ofNat'] <;> omega
  split
  · refine .three (by omega) ?_ ?_ ?_ <;> rw [UInt8.toNat_ofNat'] <;> omega
  · refine .four (by omega) ?_ ?_ ?_ ?_ <;> rw [UInt8.toNat_ofNat'] <;> omega

/-- A number has one form. -/
theorem Form.unique {v : Nat} {b b' : Bytes} (h : Form v b) (h' : Form v b') : b = b' := by
  cases h <;> cases h' <;>
    simp only [List.cons.injEq, ← UInt8.toNat_inj, and_true, reduceCtorEq] <;> omega

/-- Numbers are in the order of the bytes that stand for them, whatever follows these. -/
theorem Form.lt {v w : Nat} {b b' : Bytes} (h : Form v b) (h' : Form w b') (less : v < w)
    (r r' : Bytes) : b ++ r < b' ++ r' := by
  cases h <;> cases h' <;>
    simp only [List.cons_append, List.nil_append, List.cons_lt_cons_iff, UInt8.lt_iff_toNat_lt,
      ← UInt8.toNat_inj] <;> omega

theorem form_of_valid {v : Nat} (valid : v.isValidChar) {b : Bytes} (h : Form v b) :
    String.utf8EncodeChar (Char.ofNat v) = b := by
  have form := form_utf8EncodeChar (Char.ofNat v)
  rw [toNat_of_valid valid] at form
  exact form.unique h

/-! ### Reading bytes as text -/

theorem within_iff {low high b : UInt8} :
    within low high b = true ↔ low.toNat ≤ b.toNat ∧ b.toNat ≤ high.toNat := by
  simp only [within, Bool.and_eq_true, decide_eq_true_iff, UInt8.le_iff_toNat_le]

theorem not_within_iff {low high b : UInt8} :
    within low high b = false ↔ b.toNat < low.toNat ∨ high.toNat < b.toNat := by
  rw [← Bool.not_eq_true, within_iff]
  omega

/-- Which bytes may follow the first of three. -/
theorem within_secondOfThree_iff {a b : UInt8} :
    within (secondOfThree a).1 (secondOfThree a).2 b = true ↔
      (0x80 ≤ b.toNat ∧ b.toNat ≤ 0xBF) ∧ (a.toNat = 0xE0 → 0xA0 ≤ b.toNat) ∧
        (a.toNat = 0xED → b.toNat ≤ 0x9F) := by
  simp only [secondOfThree, ← UInt8.toNat_inj, UInt8.reduceToNat]
  split
  · simp only [within_iff, UInt8.reduceToNat]
    omega
  split
  all_goals
    simp only [within_iff, UInt8.reduceToNat]
    omega

/-- Which bytes may follow the first of four. -/
theorem within_secondOfFour_iff {a b : UInt8} :
    within (secondOfFour a).1 (secondOfFour a).2 b = true ↔
      (0x80 ≤ b.toNat ∧ b.toNat ≤ 0xBF) ∧ (a.toNat = 0xF0 → 0x90 ≤ b.toNat) ∧
        (a.toNat = 0xF4 → b.toNat ≤ 0x8F) := by
  simp only [secondOfFour, ← UInt8.toNat_inj, UInt8.reduceToNat]
  split
  · simp only [within_iff, UInt8.reduceToNat]
    omega
  split
  all_goals
    simp only [within_iff, UInt8.reduceToNat]
    omega

theorem toChars?_form {v : Nat} (valid : v.isValidChar) {b : Bytes} (h : Form v b) (r : Bytes) :
    toChars? (b ++ r) = (toChars? r).map (Char.ofNat v :: ·) := by
  cases h with
  | @one a range lead =>
    have ascii : a < 0x80 := UInt8.lt_iff_toNat_lt.2 (lead ▸ range)
    rw [List.cons_append, List.nil_append, toChars?.eq_def]
    simp only [ascii, if_true, lead]
  | @two a b range lead last =>
    have above : ¬a < 0x80 := by simp only [UInt8.lt_iff_toNat_lt, UInt8.reduceToNat]; omega
    have leads : within 0xC2 0xDF a = true := by simp only [within_iff, UInt8.reduceToNat]; omega
    have follows : within 0x80 0xBF b = true := by simp only [within_iff, UInt8.reduceToNat]; omega
    have number : a.toNat % 32 * 64 + payload b = v := by rw [payload]; omega
    simp only [List.cons_append, List.nil_append, toChars?.eq_def (a :: _), above, leads, follows,
      number, if_true, if_false]
  | @three a b c range lead second last =>
    have above : ¬a < 0x80 := by simp only [UInt8.lt_iff_toNat_lt, UInt8.reduceToNat]; omega
    have beyond : within 0xC2 0xDF a = false := by
      simp only [not_within_iff, UInt8.reduceToNat]
      omega
    have leads : within 0xE0 0xEF a = true := by simp only [within_iff, UInt8.reduceToNat]; omega
    have follows : within (secondOfThree a).1 (secondOfThree a).2 b = true := by
      rw [within_secondOfThree_iff]
      rcases valid with low | high <;> omega
    have ends : within 0x80 0xBF c = true := by simp only [within_iff, UInt8.reduceToNat]; omega
    have number : a.toNat % 16 * 4096 + payload b * 64 + payload c = v := by
      rw [payload, payload]
      omega
    simp only [List.cons_append, List.nil_append, toChars?.eq_def (a :: _), above, beyond, leads,
      follows, ends, number, if_true, if_false, Bool.and_true, reduceCtorEq]
  | @four a b c d range lead second third last =>
    have above : ¬a < 0x80 := by simp only [UInt8.lt_iff_toNat_lt, UInt8.reduceToNat]; omega
    have beyond : within 0xC2 0xDF a = false := by
      simp only [not_within_iff, UInt8.reduceToNat]
      omega
    have further : within 0xE0 0xEF a = false := by
      simp only [not_within_iff, UInt8.reduceToNat]
      omega
    have leads : within 0xF0 0xF4 a = true := by simp only [within_iff, UInt8.reduceToNat]; omega
    have follows : within (secondOfFour a).1 (secondOfFour a).2 b = true := by
      rw [within_secondOfFour_iff]
      omega
    have continues : within 0x80 0xBF c = true := by
      simp only [within_iff, UInt8.reduceToNat]
      omega
    have ends : within 0x80 0xBF d = true := by simp only [within_iff, UInt8.reduceToNat]; omega
    have number : a.toNat % 8 * 262144 + payload b * 4096 + payload c * 64 + payload d = v := by
      rw [payload, payload, payload]
      omega
    simp only [List.cons_append, List.nil_append, toChars?.eq_def (a :: _), above, beyond, further,
      leads, follows, continues, ends, number, if_true, if_false, Bool.and_true, reduceCtorEq]

/-- What is left of some bytes behind those of a character is read as the rest of the text. -/
theorem ofChars_eq_append {v : Nat} (valid : v.isValidChar) {b r : Bytes} (h : Form v b)
    {cs : List Char} (read : (toChars? r).map (Char.ofNat v :: ·) = some cs)
    (ih : ∀ {cs}, toChars? r = some cs → ofChars cs = r) : ofChars cs = b ++ r := by
  obtain ⟨rest, found, rfl⟩ := Option.map_eq_some_iff.1 read
  rw [ofChars_cons, form_of_valid valid h, ih found]

theorem ofChars_of_toChars? {b : Bytes} {cs : List Char} (h : toChars? b = some cs) :
    ofChars cs = b := by
  fun_induction toChars? b generalizing cs with
  | case1 =>
    cases h
    rfl
  | case2 a r ascii ih =>
    have range : a.toNat < 0x80 := UInt8.lt_iff_toNat_lt.1 ascii
    exact ofChars_eq_append (b := [a]) (.inl (by omega)) (.one range rfl) h ih
  | case3 a _ leads b r follows ih =>
    simp only [within_iff, UInt8.reduceToNat] at leads follows
    refine ofChars_eq_append (b := [a, b]) (.inl ?_) (.two ?_ ?_ ?_) h ih <;> rw [payload] <;> omega
  | case6 a _ _ leads b c r follows ih =>
    obtain ⟨second, last⟩ := Bool.and_eq_true_iff.1 follows
    simp only [within_iff, UInt8.reduceToNat] at leads last
    rw [within_secondOfThree_iff] at second
    refine ofChars_eq_append (b := [a, b, c]) ?_ (.three ?_ ?_ ?_ ?_) h ih
    · rw [payload, payload, Nat.isValidChar]
      omega
    all_goals
      rw [payload, payload]
      omega
  | case9 a _ _ _ leads b c d r follows ih =>
    obtain ⟨follows, last⟩ := Bool.and_eq_true_iff.1 follows
    obtain ⟨second, third⟩ := Bool.and_eq_true_iff.1 follows
    simp only [within_iff, UInt8.reduceToNat] at leads third last
    rw [within_secondOfFour_iff] at second
    refine ofChars_eq_append (b := [a, b, c, d]) (.inr ?_) (.four ?_ ?_ ?_ ?_ ?_) h ih
    all_goals
      rw [payload, payload, payload]
      omega
  | case4 | case5 | case7 | case8 | case10 | case11 | case12 => cases h

theorem toChars?_ofChars (cs : List Char) : toChars? (ofChars cs) = some cs := by
  induction cs with
  | nil => rfl
  | cons c cs ih =>
    rw [ofChars_cons, toChars?_form (valid_toNat c) (form_utf8EncodeChar c), ih, Char.ofNat_toNat]
    rfl

/-- Bytes are read as a text exactly if they are its UTF-8 form. -/
theorem toString?_eq_some_iff {b : Bytes} {s : String} : toString? b = some s ↔ b = ofString s := by
  constructor
  · intro h
    obtain ⟨cs, read, rfl⟩ := Option.map_eq_some_iff.1 h
    rw [ofString, String.toList_ofList, ofChars_of_toChars? read]
  · rintro rfl
    rw [toString?, ofString, toChars?_ofChars, Option.map_some, String.ofList_toList]

@[simp] theorem toString?_ofString (s : String) : toString? (ofString s) = some s :=
  toString?_eq_some_iff.2 rfl

/-- Where bytes are a text, none of them are replaced. -/
theorem charsFrom_of_toChars? {b : Bytes} {cs : List Char} (h : toChars? b = some cs) :
    charsFrom 0 b = cs := by
  fun_induction toChars? b generalizing cs with
  | case1 =>
    cases h
    rfl
  | case2 a r ascii ih =>
    obtain ⟨rest, found, rfl⟩ := Option.map_eq_some_iff.1 h
    simp only [charsFrom, firstChar.eq_def, ascii, if_true, ih found]
  | case3 a above leads b r follows ih =>
    obtain ⟨rest, found, rfl⟩ := Option.map_eq_some_iff.1 h
    simp only [charsFrom, firstChar.eq_def, above, leads, follows, if_true, if_false, ih found]
  | case6 a above beyond leads b c r follows ih =>
    obtain ⟨rest, found, rfl⟩ := Option.map_eq_some_iff.1 h
    obtain ⟨second, last⟩ := Bool.and_eq_true_iff.1 follows
    simp only [charsFrom, firstChar.eq_def, above, beyond, leads, second, last, if_true, if_false,
      reduceCtorEq, ih found]
  | case9 a above beyond further leads b c d r follows ih =>
    obtain ⟨rest, found, rfl⟩ := Option.map_eq_some_iff.1 h
    obtain ⟨follows, last⟩ := Bool.and_eq_true_iff.1 follows
    obtain ⟨second, third⟩ := Bool.and_eq_true_iff.1 follows
    simp only [charsFrom, firstChar.eq_def, above, beyond, further, leads, second, third, last,
      if_true, if_false, reduceCtorEq, ih found]
  | case4 | case5 | case7 | case8 | case10 | case11 | case12 => cases h

theorem toStringLossy_ofString (s : String) : toStringLossy (ofString s) = s := by
  rw [toStringLossy, ofString, charsFrom_of_toChars? (toChars?_ofChars _), String.ofList_toList]

theorem ofString_inj {s t : String} : ofString s = ofString t ↔ s = t := by
  rw [← toString?_eq_some_iff, toString?_ofString, Option.some_inj]

theorem length_ofString (s : String) : (ofString s).length = s.utf8ByteSize := by
  rw [← String.ofList_toList (s := s), ofString, String.toList_ofList]
  induction s.toList with
  | nil => rfl
  | cons c cs ih =>
    rw [ofChars_cons, List.length_append, ih, String.ofList_cons, String.utf8ByteSize_append,
      String.utf8ByteSize_singleton, String.length_utf8EncodeChar]

/-! ### Where characters end -/

theorem Form.eq_singleton {v : Nat} {b : Bytes} (h : Form v b) {x : UInt8} (mem : x ∈ b)
    (low : x < 0x80) : b = [x] := by
  have small : x.toNat < 0x80 := UInt8.lt_iff_toNat_lt.1 low
  cases h <;> simp only [List.mem_cons, List.not_mem_nil, or_false] at mem
  · rw [mem]
  · rcases mem with rfl | rfl <;> omega
  · rcases mem with rfl | rfl | rfl <;> omega
  · rcases mem with rfl | rfl | rfl | rfl <;> omega

/-- A character ends behind every byte that is one by itself. -/
theorem exists_chars_behind {cs : List Char} {front rest : Bytes} {b : UInt8} (low : b < 0x80)
    (h : ofChars cs = front ++ b :: rest) : ∃ ds es, cs = ds ++ es ∧ ofChars ds = front ++ [b] := by
  induction cs generalizing front with
  | nil => simp at h
  | cons c cs ih =>
    rw [ofChars_cons, List.append_eq_append_iff] at h
    rcases h with ⟨front, rfl, later⟩ | ⟨tail, eq, later⟩
    · obtain ⟨ds, es, rfl, eq⟩ := ih later
      exact ⟨c :: ds, es, rfl, by simp [eq]⟩
    cases tail with
    | nil =>
      have later : ofChars cs = [] ++ b :: rest := later.symm
      obtain ⟨ds, es, rfl, eq'⟩ := ih later
      exact ⟨c :: ds, es, rfl, by simp [eq', eq]⟩
    | cons x tail =>
      obtain ⟨rfl, -⟩ := List.cons.inj later
      have single : String.utf8EncodeChar c = [b] :=
        (form_utf8EncodeChar c).eq_singleton (by simp [eq]) low
      have alone : front = [] := by
        have lengths := congrArg List.length (single.symm.trans eq)
        simp only [List.length_append, List.length_cons, List.length_nil] at lengths
        exact List.length_eq_zero_iff.1 (by omega)
      exact ⟨[c], cs, rfl, by simp [single, alone]⟩

theorem isValid_behind {text : String} {front rest : Bytes} {b : UInt8} (low : b < 0x80)
    (h : ofString text = front ++ b :: rest) :
    (⟨front.length + 1⟩ : String.Pos.Raw).IsValid text := by
  obtain ⟨ds, es, chars, bytes⟩ := exists_chars_behind low h
  have texts : text = String.ofList ds ++ String.ofList es := by
    rw [← String.ofList_append, ← chars, String.ofList_toList]
  have size : (String.ofList ds).rawEndPos = ⟨front.length + 1⟩ := by
    rw [String.Pos.Raw.ext_iff, String.byteIdx_rawEndPos, ← length_ofString, ofString,
      String.toList_ofList, bytes, List.length_append, List.length_singleton]
  rw [texts, ← size]
  exact String.Pos.Raw.isValid_rawEndPos.append_right _

/-! ### The order of texts -/

theorem ofChars_lt {cs ds : List Char} (h : cs < ds) : ofChars cs < ofChars ds := by
  induction cs generalizing ds with
  | nil =>
    cases ds with
    | nil => exact absurd h (Std.lt_irrefl)
    | cons d ds =>
      have form := form_utf8EncodeChar d
      rw [ofChars_cons]
      generalize String.utf8EncodeChar d = b at form
      cases form <;> exact List.nil_lt_cons _ _
  | cons c cs ih =>
    cases ds with
    | nil => cases h
    | cons d ds =>
      rw [ofChars_cons, ofChars_cons]
      obtain less | ⟨rfl, less⟩ := List.cons_lt_cons_iff.1 h
      · exact (form_utf8EncodeChar c).lt (form_utf8EncodeChar d) less _ _
      · exact List.append_left_lt (ih less)

/-- Texts are in the order of their bytes. -/
theorem ofString_lt_iff {s t : String} : ofString s < ofString t ↔ s < t := by
  refine ⟨fun less => ?_, fun less => ofChars_lt (String.lt_iff.1 less)⟩
  obtain h | rfl | more := Std.lt_trichotomy s t
  · exact h
  · exact absurd less Std.lt_irrefl
  · exact absurd (Std.lt_trans less (ofChars_lt (String.lt_iff.1 more))) Std.lt_irrefl

end JobShell.Bytes
