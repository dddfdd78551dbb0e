import JobShell.Proofs.OperatorReading

/-! The shape of a token stream: an end mark at its end and none before it. -/
namespace JobShell.Token

theorem kind_of_next? {cs r : List Char} {t : Token} (h : next? cs = .ok (some (t, r))) :
    t.kind ≠ .eof := by
  unfold next? at h
  split at h
  · cases h
  · next c ds _ =>
    split at h
    · next ho =>
      cases h
      exact (Reading.kind_of_operator? ho).2
    · cases hw : scanWord .empty .bare (c :: ds) with
      | error e => simp [hw, Except.map] at h
      | ok found =>
        simp only [hw, Except.map, Except.ok.injEq, Option.some.injEq] at h
        subst h
        rw [(Reading.operators_scanWord hw).1]
        decide

/-- A token stream ends in its only end mark. -/
theorem scan_eq_append_eof {budget : Nat} {cs : List Char} {ts : List Token}
    (h : scan budget cs = .ok ts) : ∃ body, ts = body ++ [eof] ∧ ∀ t ∈ body, t.kind ≠ .eof := by
  fun_induction scan budget cs generalizing ts with
  | case1 =>
    cases h
    exact ⟨[], rfl, by simp⟩
  | case2 => cases h
  | case3 =>
    cases h
    exact ⟨[], rfl, by simp⟩
  | case4 budget cs t r hn ih =>
    cases hr : scan budget r with
    | error e => simp [hr, Except.map] at h
    | ok us =>
      simp only [hr, Except.map, Except.ok.injEq] at h
      subst h
      obtain ⟨body, rfl, hbody⟩ := ih hr
      refine ⟨t :: body, rfl, ?_⟩
      intro u hu
      rcases List.mem_cons.1 hu with rfl | hu
      · exact kind_of_next? hn
      · exact hbody u hu

/-- Without its end mark, a token stream is what stands before the first one. -/
theorem withoutEnds_tokenize {limit : Nat} {line : String} {ts : List Token}
    (h : tokenize limit line = .ok ts) : withoutEnds ts = ts.takeWhile (·.kind ≠ .eof) := by
  obtain ⟨body, rfl, hbody⟩ := scan_eq_append_eof h
  have hall : ∀ t ∈ body, decide (t.kind ≠ .eof) = true := by simpa using hbody
  rw [List.takeWhile_append_of_pos hall, withoutEnds, List.filter_append,
    List.filter_eq_self.2 hall]
  rfl

end JobShell.Token
