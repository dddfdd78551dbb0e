import JobShell.Proofs.Carriers
import JobShell.Proofs.LineParts
import JobShell.Proofs.Validation
import JobShell.Session.Transcript

/-! Running a line as it is cut into segments and chains is the same as evaluating its parse tree. -/
namespace JobShell

open Token Grammar Carrier SessionM

namespace Engine

variable {σ : Type} [Carrier σ] (E : Engine σ)

/-! ### Trees -/

def evalPipeline (p : PipelineTree) : StateM σ Int := do
  let status ← E.execute p.tokens
  lift (setStatus status)
  return status

/-- Evaluates a list from the left. A pipeline that is skipped leaves state and status alone. -/
def evalList : ListTree → StateM σ Int
  | .one p => E.evalPipeline p
  | .more left op right => do
    let status ← evalList left
    if ← lift isOver then return status
    if op.connector.proceeds status then E.evalPipeline right else return status

/-- Evaluates a list of a line, or starts it as a whole in the background. -/
def evalElement (l : ListTree) (background : Bool) : StateM σ Unit := do
  if background then
    match ← E.launch l.tokens with
    | .ok () => lift (setStatus 0)
    | .error e => lift (do setStatus (← report e))
  else lift (setStatus (← E.evalList l))

/-- Evaluates the lists of a line in order, until nothing more is to be done. -/
def evalLine : LineTree → StateM σ Unit
  | .last l trailing => E.evalElement l (trailing.any Separator.isBackground)
  | .more l sep rest => do
    E.evalElement l sep.isBackground
    if ← lift isOver then return
    evalLine rest

/-- Evaluates a line, which may be empty, and gives the status afterwards. -/
def evaluate (tree : Option LineTree) : StateM σ Int := do
  tree.forM E.evalLine
  lift lastStatus

/-! ### Chains and lists -/

theorem proceed_cons (status : Int) (k : Connector) (ts : List Token)
    (rest : List (Connector × List Token)) (s : σ) :
    Chain.proceed E.execute status ((k, ts) :: rest) s =
      if (machine s).isOver then (status, s)
      else if k.proceeds status then (do
        let status ← E.execute ts
        lift (setStatus status)
        Chain.proceed E.execute status rest : StateM σ Int) s
      else Chain.proceed E.execute status rest s := by
  rw [Chain.proceed, bind_apply, lift_isOver, ite_apply, ite_apply]
  rfl

theorem proceed_of_isOver {s : σ} (done : (machine s).isOver = true) (status : Int)
    (rest : List (Connector × List Token)) :
    Chain.proceed E.execute status rest s = (status, s) := by
  cases rest with
  | nil => rfl
  | cons x rest => rw [proceed_cons, if_pos done]

/-- The end of a chain depends on its beginning through state and status alone. -/
theorem proceed_append (status : Int) (rest more : List (Connector × List Token)) :
    Chain.proceed E.execute status (rest ++ more) =
      Chain.proceed E.execute status rest >>= fun status =>
        Chain.proceed E.execute status more := by
  induction rest generalizing status with
  | nil => rfl
  | cons x rest ih =>
    obtain ⟨k, ts⟩ := x
    funext s
    rw [List.cons_append, proceed_cons, bind_apply (Chain.proceed _ _ _), proceed_cons]
    by_cases done : (machine s).isOver = true
    · rw [if_pos done, if_pos done, E.proceed_of_isOver done]
    · rw [if_neg done, if_neg done]
      by_cases runs : k.proceeds status = true
      · simp only [if_pos runs, ih]
        rfl
      · simp only [if_neg runs, ih]
        rfl

theorem runChain_eq_evalList (l : ListTree) : Chain.run E.execute l.chain = E.evalList l := by
  induction l with
  | one p => rfl
  | more left op right ih =>
    calc Chain.run E.execute (ListTree.more left op right).chain
      _ = Chain.run E.execute left.chain >>= fun status =>
            Chain.proceed E.execute status [(op.connector, right.tokens)] := by
          simp only [ListTree.chain, Chain.run, proceed_append, bind_assoc]
      _ = E.evalList left >>= fun status =>
            Chain.proceed E.execute status [(op.connector, right.tokens)] := by rw [ih]
      _ = E.evalList (.more left op right) := rfl

/-! ### Segments and lines -/

/-- The status that a segment gives is the one to be read after its list has been evaluated. -/
theorem runSegment_eq_evalElement (l : ListTree) (background : Bool) :
    E.runSegment ⟨l.tokens, background⟩ =
      (do E.evalElement l background; lift lastStatus : StateM σ Int) := by
  rw [runSegment, evalElement]
  cases background with
  | true =>
    simp only [if_true, bind_assoc]
    refine bind_congr ?_
    rintro (e | ⟨⟩) <;> rfl
  | false =>
    simp only [Bool.false_eq_true, if_false, ListTree.ofTokens_tokens, runChain_eq_evalList]
    exact bind_congr fun status => (setStatus_lastStatus status).symm

theorem runSegments_eq_evalLine (status : Int) (tree : LineTree) :
    E.runSegments status (tree.elements.map fun e => ⟨e.1.tokens, e.2⟩) =
      (do E.evalLine tree; lift lastStatus : StateM σ Int) := by
  funext s
  induction tree generalizing status s with
  | last l trailing =>
    -- After the last element nothing is left, so that it makes no difference whether to go on.
    simp only [LineTree.elements, List.map_cons, List.map_nil, runSegments_cons, evalLine,
      runSegment_eq_evalElement]
    exact ite_self _
  | more l sep rest ih =>
    simp only [LineTree.elements, List.map_cons, runSegments_cons, evalLine, ih,
      runSegment_eq_evalElement, bind_apply, lift_lastStatus, lift_isOver, ite_apply]
    split <;> rfl

/-- Cutting the tokens of a tree and running the slices evaluates the tree. -/
theorem runTokens_eq_evaluate (tree : Option LineTree) :
    E.runTokens (lineTokens tree) = E.evaluate tree := by
  cases tree with
  | none =>
    funext s
    rw [runTokens_apply, evaluate]
    exact (lift_lastStatus s).symm
  | some tree =>
    funext s
    rw [runTokens_apply, lineTokens, LineTree.ofLine_tokens, runSegments_eq_evalLine]
    rfl

/-! ### Recording what is run -/

/-- What an engine is asked to run, in the foreground or in the background. -/
inductive Call where
  | pipeline (ts : List Token)
  | background (ts : List Token)
deriving DecidableEq, Repr

/-- An action on a state that has a record beside it, which the action extends. -/
def recording {α : Type} (calls : List Call) (x : StateM σ α) : StateM (σ × List Call) α :=
  fun s => ((x s.1).1, (x s.1).2, s.2 ++ calls)

/-- The engine that also records, in order, what it is asked to run. -/
def traced : Engine (σ × List Call) where
  execute ts := recording [.pipeline ts] (E.execute ts)
  launch ts := recording [.background ts] (E.launch ts)

theorem traced_seenAs : E.traced.SeenAs Prod.fst E where
  views := .fst
  execute _ _ := rfl
  launch _ _ := rfl

/-- What is run, in order, for the tokens of a line. -/
def runCalls (ts : List Token) (s : σ) : List Call :=
  (E.traced.runTokens ts (s, [])).2.2

/-- What is run, in order, to evaluate a line. -/
def evalCalls (tree : Option LineTree) (s : σ) : List Call :=
  (E.traced.evaluate tree (s, [])).2.2

theorem traced_runTokens (ts : List Token) (s : σ) :
    E.traced.runTokens ts (s, []) =
      ((E.runTokens ts s).1, (E.runTokens ts s).2, E.runCalls ts s) := by
  -- Forgetting the record leaves the run of the engine itself.
  have seen := E.traced_seenAs.runTokens ts (s, [])
  rw [← seen]
  rfl

end Engine

namespace SessionM

open Engine

theorem runTokens_of_accepted (source : Builtin.Sourcing) {ts : List Token} {m : Machine}
    (accepted : validate m.shell.settings.maxTokens ts = .accepted) :
    runTokens source ts m = (session source).runTokens (withoutEnds ts) m := by
  have accepted' : validate (lift shell m).1.settings.maxTokens ts = .accepted := accepted
  rw [runTokens, runChecked, bind_apply, accepted']
  rfl

/-- A session runs the tokens of a line by evaluating the parse tree of the line: with the same
status, the same state afterwards, and the same pipelines and background lists in the same order.
The record of these is that of the run itself, as recording leaves status and state alone. -/
theorem runTokens_evaluates_parse_tree (source : Builtin.Sourcing) {limit : Nat} {line : String}
    {ts : List Token} (m : Machine) (read : tokenize limit line = .ok ts)
    (accepted : validate m.shell.settings.maxTokens ts = .accepted) :
    (∃ tree, lineTokens tree = withoutEnds ts) ∧
    ∀ tree, lineTokens tree = withoutEnds ts →
      runTokens source ts m = (session source).evaluate tree m ∧
      (session source).runCalls (withoutEnds ts) m = (session source).evalCalls tree m ∧
      (session source).traced.runTokens (withoutEnds ts) (m, []) =
        ((runTokens source ts m).1, (runTokens source ts m).2,
          (session source).runCalls (withoutEnds ts) m) := by
  refine ⟨exists_lineTokens read accepted, ?_⟩
  intro tree htree
  rw [runTokens_of_accepted source accepted]
  refine ⟨?_, ?_, traced_runTokens _ _ m⟩
  · rw [← htree, runTokens_eq_evaluate]
  · rw [← htree, runCalls, runTokens_eq_evaluate, evalCalls]

/-- A line with both connectors, a list in the background and a separator at its end. -/
theorem runTokens_evaluates_mixed_line :
    ∃ ts tree, tokenize 64 "a | b && c > f || d; e & g\n" = .ok ts ∧
      lineTokens tree = withoutEnds ts ∧
      runTokens (fun _ => return .ok 0) ts
          (Machine.start .empty FileTree.root .null [] .default) =
        (session fun _ => return .ok 0).evaluate tree
          (Machine.start .empty FileTree.root .null [] .default) := by
  have read : ∃ ts, tokenize 64 "a | b && c > f || d; e & g\n" = .ok ts ∧
      validate 1024 ts = .accepted :=
    ⟨(tokenize 64 "a | b && c > f || d; e & g\n").toOption.getD [], by decide +kernel,
      by decide +kernel⟩
  obtain ⟨ts, read, accepted⟩ := read
  obtain ⟨⟨tree, htree⟩, eval⟩ := runTokens_evaluates_parse_tree (fun _ => return .ok 0)
    (Machine.start .empty FileTree.root .null [] .default) read accepted
  exact ⟨ts, tree, read, htree, (eval tree htree).1⟩

end SessionM
end JobShell
