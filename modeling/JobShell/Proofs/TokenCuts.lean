import JobShell.Proofs.DataReading
import JobShell.Proofs.QuotedWords

/-! Tokens of a text in two parts. Where the first part ends between tokens and the second one
begins with a comment or a line feed, they are the tokens of the parts. -/
namespace JobShell

namespace Token

open Reading

/-- Whether no token has been begun that could go on with a character that is part of no
operator. -/
def Reading.isBetween : Reading → Bool
  | gap | comment | operator _ => true
  | _ => false

theorem complete_of_le {d : Draft} (fits : d.bytes ≤ maxWordBytes)
    (next : Draft → Except ShellError (Token × List Char)) :
    scanWord.complete d next = next d := if_neg (Nat.not_lt.2 fits)

/-- A word that is over with the first part of a text is the same in the whole of it. -/
theorem scanWord_append {d : Draft} {place : Text.Place} {cs r : List Char} {t : Token}
    (h : scanWord d place cs = .ok (t, r))
    (between : ((ofPlace place).read cs).isBetween = true) :
    (gap.read r).isBetween = true ∧
      ∀ ds, scanWord d place (cs ++ ds) = .ok (t, r ++ ds) := by
  fun_induction scanWord d place cs with
  | case1 | case5 => cases between
  | case2 d c cs hc =>
    cases h
    refine ⟨?_, fun ds => ?_⟩
    · simpa [ofPlace, step, hc] using between
    · rw [List.cons_append, scanWord.eq_def]
      exact if_pos hc
  | case3 d cs hc ih =>
    obtain ⟨rest, eq⟩ := ih h between
    exact ⟨rest, fun ds => by rw [List.cons_append, scanWord_openSingle, eq]⟩
  | case4 d cs hc _ ih =>
    obtain ⟨rest, eq⟩ := ih h between
    exact ⟨rest, fun ds => by rw [List.cons_append, scanWord_openDouble, eq]⟩
  | case6 d e cs hc _ _ ih =>
    obtain ⟨rest, eq⟩ := ih _ (eq_ok_of_complete h) between
    refine ⟨rest, fun ds => ?_⟩
    have fits := complete_of_le (bytes_le_of_complete h) fun d => scanWord d .bare (cs ++ ds)
    rw [List.cons_append, List.cons_append, scanWord.eq_def]
    exact fits.trans (eq ds)
  | case7 d c cs hc h₁ h₂ h₃ ih =>
    have same : bare.step c = bare := by simp [step, hc, inWord, h₁, h₂, h₃]
    rw [ofPlace, read_cons, same] at between
    obtain ⟨rest, eq⟩ := ih _ (eq_ok_of_complete h) between
    refine ⟨rest, fun ds => ?_⟩
    rw [List.cons_append, scanWord.eq_def]
    simp only [hc, h₁, h₂, h₃, Bool.false_eq_true, if_false]
    exact (complete_of_le (bytes_le_of_complete h) _).trans (eq ds)
  | case8 | case11 | case13 => cases h
  | case9 d cs ih =>
    obtain ⟨rest, eq⟩ := ih _ (eq_ok_of_complete h) between
    refine ⟨rest, fun ds => ?_⟩
    rw [List.cons_append, scanWord_closeSingle]
    exact (complete_of_le (bytes_le_of_complete h) _).trans (eq ds)
  | case10 d c cs hc ih =>
    have same : single.step c = single := if_neg hc
    rw [ofPlace, read_cons, same] at between
    obtain ⟨rest, eq⟩ := ih h between
    exact ⟨rest, fun ds => by rw [List.cons_append, scanWord_inSingle d _ hc, eq]⟩
  | case12 d cs ih =>
    obtain ⟨rest, eq⟩ := ih _ (eq_ok_of_complete h) between
    refine ⟨rest, fun ds => ?_⟩
    rw [List.cons_append, scanWord_closeDouble]
    exact (complete_of_le (bytes_le_of_complete h) _).trans (eq ds)
  | case14 d e cs _ ih =>
    obtain ⟨rest, eq⟩ := ih h between
    exact ⟨rest, fun ds => by rw [List.cons_append, List.cons_append, scanWord_escaped, eq]⟩
  | case15 d c cs h₁ h₂ ih =>
    have same : double.step c = double := by simp [step, h₁, h₂]
    rw [ofPlace, read_cons, same] at between
    obtain ⟨rest, eq⟩ := ih h between
    exact ⟨rest, fun ds => by rw [List.cons_append, scanWord_inDouble d _ h₁ h₂, eq]⟩

/-- Blanks and comments at the head of a text are the same in front of another one. -/
theorem skip_append {within : Bool} {cs r : List Char} {c : Char} (h : skip within cs = c :: r) :
    (if within then comment else gap).read cs = gap.read (c :: r) ∧
      ∀ ds, skip within (cs ++ ds) = c :: (r ++ ds) := by
  fun_induction skip within cs with
  | case1 => cases h
  | case2 within r =>
    cases h
    refine ⟨?_, fun ds => by rw [List.cons_append, skip, if_pos rfl]⟩
    cases within <;> rfl
  | case3 within d cs feed blank ih =>
    obtain ⟨read, eq⟩ := ih h
    have same : (if within then comment else gap).step d = if within then comment else gap := by
      cases within with
      | true => exact if_neg feed
      | false =>
        have none := begins?_eq_none feed (not_isOperatorChar_of_isBlank blank)
        simp only [Bool.false_or] at blank
        simp [step, start, none, blank]
    refine ⟨by rw [read_cons, same, read], fun ds => ?_⟩
    rw [List.cons_append, skip, if_neg feed, if_pos blank, eq]
  | case4 within cs feed blank ih =>
    obtain ⟨read, eq⟩ := ih h
    cases within with
    | true => exact absurd rfl blank
    | false =>
      refine ⟨read, fun ds => ?_⟩
      rw [List.cons_append, skip, if_neg feed, if_neg blank, if_pos rfl, eq]
  | case5 within d cs feed blank sign =>
    cases h
    cases within with
    | true => exact absurd rfl blank
    | false =>
      refine ⟨rfl, fun ds => ?_⟩
      rw [List.cons_append, skip, if_neg feed, if_neg blank, if_neg sign]

theorem operator?_eq_none {c : Char} (h : begins? c = none) (r : List Char) :
    operator? (c :: r) = none := by
  unfold operator?
  split
  case h_14 => rfl
  all_goals
    next eq =>
      cases eq
      cases h

/-- An operator that does not grow is as good as a gap. -/
theorem isBetween_operator (kind : Kind) {r : List Char}
    (stays : ∀ c r', r = c :: r' → grows? kind c = none) :
    ((Reading.operator kind).read r).isBetween = (gap.read r).isBetween := by
  cases r with
  | nil => rfl
  | cons c r =>
    have same : (Reading.operator kind).step c = gap.step c := by simp [step, stays c r rfl]
    rw [read_cons, read_cons, same]

theorem skip_eq_nil_of_next? {cs : List Char} (h : next? cs = .ok none) : skip false cs = [] := by
  unfold next? at h
  split at h
  · next nil => exact nil
  · next c r _ =>
    split at h
    · cases h
    · cases found : scanWord .empty .bare (c :: r) <;> simp [found, Except.map] at h

theorem scan_eq_of_next? {cs ds : List Char} (same : next? cs = next? ds) (budget : Nat) :
    scan budget cs = scan budget ds := by
  cases budget with
  | zero => rfl
  | succ budget => rw [scan, scan, same]

section
variable {ds : List Char} (apart : ∀ d ∈ ds.head?, d = '#' ∨ d = '\n')
include apart

theorem operator?_append {cs r : List Char} {t : Token} (h : operator? cs = some (t, r)) :
    (gap.read cs).isBetween = (gap.read r).isBetween ∧
      operator? (cs ++ ds) = some (t, r ++ ds) := by
  -- If the one character that an operator could grow by does not follow it here, it does not follow
  -- it in the longer text either.
  have beyond {x : Char} {r : List Char} (hx : x ≠ '#' ∧ x ≠ '\n')
      (longer : ∀ r', r = x :: r' → False) (r' : List Char) (eq : r ++ ds = x :: r') : False := by
    cases r with
    | nil =>
      obtain rfl | rfl := apart x (by simp [show ds = x :: r' from eq])
      · exact hx.1 rfl
      · exact hx.2 rfl
    | cons c r => exact longer r (by rw [(List.cons.inj eq).1])
  have stays {kind : Kind} {x : Char} {r : List Char}
      (only : ∀ {c k}, grows? kind c = some k → c = x)
      (longer : ∀ r', r = x :: r' → False) (c : Char) (r' : List Char) (eq : r = c :: r') :
      grows? kind c = none := by
    refine Option.eq_none_iff_forall_ne_some.2 fun k grows => ?_
    exact longer r' (only grows ▸ eq)
  unfold operator? at h
  split at h
  case h_14 => cases h
  all_goals cases h
  case h_1.refl => exact ⟨isBetween_operator .newline fun _ _ _ => rfl, rfl⟩
  case h_2.refl => exact ⟨isBetween_operator .herestring fun _ _ _ => rfl, rfl⟩
  case h_5.refl => exact ⟨isBetween_operator .append fun _ _ _ => rfl, rfl⟩
  case h_7.refl => exact ⟨isBetween_operator .and fun _ _ _ => rfl, rfl⟩
  case h_9.refl => exact ⟨isBetween_operator .or fun _ _ _ => rfl, rfl⟩
  case h_11.refl => exact ⟨isBetween_operator .semicolon fun _ _ _ => rfl, rfl⟩
  case h_12.refl => exact ⟨isBetween_operator .leftParen fun _ _ _ => rfl, rfl⟩
  case h_13.refl => exact ⟨isBetween_operator .rightParen fun _ _ _ => rfl, rfl⟩
  case h_3.refl longer =>
    refine ⟨isBetween_operator .heredoc (stays (fun h => ?_) longer), ?_⟩
    · simpa using grows?_eq_some h
    · exact operator?.eq_3 _ (beyond (by decide) longer)
  case h_4.refl _ longer =>
    refine ⟨isBetween_operator .input (stays (fun h => ?_) longer), ?_⟩
    · simpa using grows?_eq_some h
    · have once := beyond (by decide) longer
      exact operator?.eq_4 _ (fun r' => once ('<' :: r')) once
  case h_6.refl longer =>
    refine ⟨isBetween_operator .output (stays (fun h => ?_) longer), ?_⟩
    · simpa using grows?_eq_some h
    · exact operator?.eq_6 _ (beyond (by decide) longer)
  case h_8.refl longer =>
    refine ⟨isBetween_operator .ampersand (stays (fun h => ?_) longer), ?_⟩
    · simpa using grows?_eq_some h
    · exact operator?.eq_8 _ (beyond (by decide) longer)
  case h_10.refl longer =>
    refine ⟨isBetween_operator .pipe (stays (fun h => ?_) longer), ?_⟩
    · simpa using grows?_eq_some h
    · exact operator?.eq_10 _ (beyond (by decide) longer)

theorem skip_append_of_nil {within : Bool} {cs : List Char} (h : skip within cs = []) :
    skip within (cs ++ ds) = skip false ds := by
  fun_induction skip within cs with
  | case1 within =>
    cases ds with
    | nil => rfl
    | cons d ds => obtain rfl | rfl := apart d rfl <;> cases within <;> rfl
  | case2 | case5 => cases h
  | case3 within d cs feed blank ih =>
    rw [List.cons_append, skip, if_neg feed, if_pos blank, ih h]
  | case4 within cs feed blank ih =>
    rw [List.cons_append, skip, if_neg feed, if_neg blank, if_pos rfl, ih h]

theorem next?_append_of_none {cs : List Char} (h : next? cs = .ok none) :
    next? (cs ++ ds) = next? ds := by
  rw [next?, skip_append_of_nil apart (skip_eq_nil_of_next? h), next?]

/-- A token that is over with the first part of a text is the same in the whole of it. -/
theorem next?_append {cs r : List Char} {t : Token} (h : next? cs = .ok (some (t, r)))
    (between : (gap.read cs).isBetween = true) :
    (gap.read r).isBetween = true ∧ next? (cs ++ ds) = .ok (some (t, r ++ ds)) := by
  unfold next? at h
  split at h
  · cases h
  next c body skipped =>
  obtain ⟨read, skips⟩ := skip_append skipped
  rw [show (if false = true then comment else gap) = gap from rfl] at read
  rw [read] at between
  rw [next?, skips]
  dsimp only
  split at h
  · next found op =>
    cases h
    obtain ⟨same, eq⟩ := operator?_append apart op
    rw [List.cons_append] at eq
    rw [eq]
    exact ⟨same ▸ between, rfl⟩
  · next none =>
    have begins := begins?_eq_none_of_operator? none
    have sign : c ≠ '#' := by
      obtain rfl | ⟨-, sign⟩ := skip_eq_cons skipped
      · cases begins
      · exact sign
    rw [read_cons, step_gap sign] at between
    cases found : scanWord .empty .bare (c :: body) with
    | error e => simp [found, Except.map] at h
    | ok word =>
      simp only [found, Except.map, Except.ok.injEq, Option.some.injEq] at h
      subst h
      obtain ⟨rest, eq⟩ := scanWord_append found between
      rw [operator?_eq_none begins, ← List.cons_append, eq]
      exact ⟨rest, rfl⟩

/-- A text whose first part ends between tokens has the tokens of that part, as far as the budget
goes, and those of the second part with what is left. -/
theorem scan_append {n : Nat} {cs : List Char} {ts : List Token}
    (h : scan n cs = .ok (ts ++ [eof])) (left : ts.length < n)
    (between : (gap.read cs).isBetween = true) (budget : Nat) :
    scan budget (cs ++ ds) = (scan (budget - ts.length) ds).map (ts.take budget ++ ·) := by
  induction budget generalizing n cs ts with
  | zero => simp [scan, Except.map]
  | succ budget ih =>
    obtain ⟨n, rfl⟩ : ∃ k, n = k + 1 := ⟨n - 1, by omega⟩
    cases ts with
    | nil =>
      obtain ⟨none, -⟩ | ⟨t, r, us, found, -, eq⟩ := scan_succ_eq_ok h
      · rw [scan_eq_of_next? (next?_append_of_none apart none)]
        change _ = (scan (budget + 1) ds).map id
        cases scan (budget + 1) ds <;> rfl
      · cases eq
        exact absurd rfl (kind_of_next? found)
    | cons t ts =>
      obtain ⟨-, eq⟩ | ⟨t', r, us, found, rest, eq⟩ := scan_succ_eq_ok h
      · simp at eq
      · obtain ⟨rfl, rfl⟩ := List.cons.inj eq
        obtain ⟨between, first⟩ := next?_append apart found between
        have left : ts.length < n := Nat.lt_of_succ_lt_succ left
        rw [scan, first]
        dsimp only
        rw [ih rest left between, List.length_cons, Nat.add_sub_add_right, List.take_succ_cons]
        cases scan (budget - ts.length) ds <;> rfl

end

/-- Behind a text that ends between tokens, two texts give the same tokens if and only if they do so
alone. -/
theorem scan_append_eq_iff {n : Nat} {cs ds ds' : List Char} {ts : List Token}
    (h : scan n cs = .ok (ts ++ [eof])) (left : ts.length < n)
    (between : (gap.read cs).isBetween = true) (apart : ∀ d ∈ ds.head?, d = '#' ∨ d = '\n')
    (apart' : ∀ d ∈ ds'.head?, d = '#' ∨ d = '\n') :
    (∀ budget, scan budget (cs ++ ds) = scan budget (cs ++ ds')) ↔
      ∀ budget, scan budget ds = scan budget ds' := by
  constructor
  · intro same budget
    specialize same (ts.length + budget)
    rw [scan_append apart h left between, scan_append apart' h left between,
      Nat.add_sub_cancel_left] at same
    generalize scan budget ds = x at same ⊢
    generalize scan budget ds' = y at same ⊢
    cases x <;> cases y <;> simp_all [Except.map]
  · intro same budget
    rw [scan_append apart h left between, scan_append apart' h left between, same]

end Token
end JobShell
