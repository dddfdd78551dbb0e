import JobShell.Proofs.PieceCuts

/-! References in braces that are open at the end of a line and closed in a later one. -/
namespace JobShell.Reference

variable {σ : Type} [Bindings σ]

/-- The reference to a name with the given text behind it. -/
def named (name : String) : List Char → Reference
  | ':' :: '-' :: text => .orElse name (String.ofList text)
  | ':' :: '=' :: text => .orAssign name (String.ofList text)
  | _ => .value name

theorem ofBraces_of_ne {c : Char} (hc : c ≠ '#') (r : List Char) :
    ofBraces (c :: r) =
      let size := if isSpecial c then 1 else ((c :: r).takeWhile Text.isNameChar).length
      if size = 0 then .literal ("$\x7b".toList ++ (c :: r) ++ ['}'])
      else named (String.ofList ((c :: r).take size)) ((c :: r).drop size) := by
  rw [ofBraces.eq_def]
  split
  · next heq => exact absurd (List.cons.inj heq).1 hc
  · dsimp only
    generalize (if isSpecial c = true then 1 else _) = size
    split
    · rfl
    · rfl

theorem named_cons (name : String) (x y : Char) (r : List Char) :
    named name (x :: y :: r) =
      if x = ':' ∧ y = '-' then .orElse name (String.ofList r)
      else if x = ':' ∧ y = '=' then .orAssign name (String.ofList r)
      else .value name := by
  by_cases dash : x = ':' ∧ y = '-'
  · obtain ⟨rfl, rfl⟩ := dash
    rfl
  by_cases equals : x = ':' ∧ y = '='
  · obtain ⟨rfl, rfl⟩ := equals
    rfl
  rw [if_neg dash, if_neg equals]
  refine named.eq_3 name _ (fun text eq => dash ?_) fun text eq => equals ?_ <;>
    simp_all only [List.cons.injEq, and_self]

/-- What stands behind a name up to the first line feed decides how a reference goes on: its value
is the same whatever follows, or what follows is a part of it. -/
theorem evaluate_named (s : σ) (name : String) {b : List Char} (oneLine : '\n' ∉ b) :
    (∃ v, ∀ t, ((named name (b ++ '\n' :: t)).evaluate s).1 = v) ∨
      ∃ text, '\n' ∉ text ∧
        ∀ t, ((named name (b ++ '\n' :: t)).evaluate s).1 = text ++ '\n' :: t := by
  match b with
  | [] => exact .inl ⟨_, fun t => rfl⟩
  | [x] =>
    refine .inl ⟨((Reference.value name).evaluate s).1, fun t => ?_⟩
    rw [List.singleton_append, named_cons, if_neg (by simp), if_neg (by simp)]
  | x :: y :: b =>
    have rest : '\n' ∉ b := fun feed => oneLine (by simp [feed])
    simp only [List.cons_append, named_cons]
    -- A name that has a value keeps it.
    cases found : (Bindings.get? s name).filter (· ≠ "") with
    | some v =>
      refine .inl ?_
      split
      · exact ⟨v.toList, fun t => by rw [evaluate, found]⟩
      · split
        · exact ⟨v.toList, fun t => by rw [evaluate, found]⟩
        · exact ⟨_, fun t => rfl⟩
    | none =>
      split
      · exact .inr ⟨b, rest, fun t => by rw [evaluate, found]; exact String.toList_ofList⟩
      · split
        · exact .inr ⟨b, rest, fun t => by rw [evaluate, found]; exact String.toList_ofList⟩
        · exact .inl ⟨_, fun t => rfl⟩

theorem linefeed_not_mem_toString (n : Nat) : '\n' ∉ (toString n).toList := by
  rw [show (toString n).toList = Nat.toDigits 10 n from Nat.toList_repr]
  intro feed
  exact absurd (Nat.isDigit_of_mem_toDigits (by decide) (by decide) feed) (by decide)

/-- The name in braces ends before the first line feed. -/
theorem exists_size {c : Char} (sign : c ≠ '#') (b : List Char) :
    ∃ size, ∀ t, ofBraces (c :: b ++ '\n' :: t) =
      if size = 0 then .literal ("$\x7b".toList ++ (c :: b ++ '\n' :: t) ++ ['}'])
      else named (String.ofList ((c :: b).take size)) ((c :: b).drop size ++ '\n' :: t) := by
  refine ⟨if isSpecial c then 1 else ((c :: b).takeWhile Text.isNameChar).length, fun t => ?_⟩
  have stops (_ : ∀ x ∈ c :: b, Text.isNameChar x = true) :
      ∀ d ∈ ('\n' :: t).head?, Text.isNameChar d = false := by
    rintro d ⟨⟩
    decide
  have le : (if isSpecial c then 1 else ((c :: b).takeWhile Text.isNameChar).length) ≤
      (c :: b).length := by
    split
    · simp
    · exact (List.takeWhile_sublist _).length_le
  rw [List.cons_append, ofBraces_of_ne sign, ← List.cons_append, (Text.run_append stops).1]
  dsimp only
  rw [List.take_append_of_le_length le, List.drop_append_of_le_length le]

/-- The value of a reference in braces, the first line of which is given: it is the same whatever
follows, or it has no line feed, or what follows is a part of it, with the closing brace or not. -/
theorem evaluate_ofBraces (s : σ) {b : List Char} (oneLine : '\n' ∉ b) :
    (∃ v, ∀ t, ((ofBraces (b ++ '\n' :: t)).evaluate s).1 = v) ∨
      (∀ t, '\n' ∉ ((ofBraces (b ++ '\n' :: t)).evaluate s).1) ∨
      ∃ text, '\n' ∉ text ∧
        ((∀ t, ((ofBraces (b ++ '\n' :: t)).evaluate s).1 = text ++ '\n' :: t) ∨
          ∀ t, ((ofBraces (b ++ '\n' :: t)).evaluate s).1 = text ++ '\n' :: (t ++ ['}'])) := by
  match b with
  | [] => exact .inr (.inr ⟨"$\x7b".toList, by decide, .inr fun t => rfl⟩)
  | c :: b =>
    by_cases sign : c = '#'
    · subst sign
      refine .inr (.inl fun t => ?_)
      cases b <;> exact linefeed_not_mem_toString _
    obtain ⟨size, eq⟩ := exists_size sign b
    by_cases none : size = 0
    · have eq' (t : List Char) : ofBraces (c :: b ++ '\n' :: t) =
          .literal (("$\x7b".toList ++ c :: b) ++ '\n' :: (t ++ ['}'])) := by
        rw [eq, if_pos none]
        simp
      refine .inr (.inr ⟨"$\x7b".toList ++ c :: b, ?_, .inr fun t => by rw [eq', evaluate]⟩)
      simpa using oneLine
    · have behind : '\n' ∉ (c :: b).drop size := fun feed => oneLine (List.mem_of_mem_drop feed)
      simp only [eq, if_neg none]
      obtain fixed | ⟨text, inside, follows⟩ := evaluate_named s _ behind
      · exact .inl fixed
      · exact .inr (.inr ⟨text, inside, .inl follows⟩)

end JobShell.Reference
