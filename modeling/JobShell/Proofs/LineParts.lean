import JobShell.Command.Sequence
import JobShell.Proofs.ParseTree

/-! Cutting the tokens of a line at separators and connectors gives the parts of its parse tree. -/
namespace JobShell

open Token Grammar

namespace Segment

theorem ofTokens_append_separator {xs : List Token} (hxs : ∀ t ∈ xs, t.kind.isSeparator = false)
    {sep : Token} (hsep : sep.kind.isSeparator = true) (ys : List Token) :
    ofTokens (xs ++ sep :: ys) = ⟨xs, sep.kind = .ampersand⟩ :: ofTokens ys := by
  induction xs with
  | nil => simp [ofTokens, hsep]
  | cons t xs ih =>
    have ht : t.kind.isSeparator = false := hxs t (by simp)
    rw [List.cons_append, ofTokens, ih (fun u hu => hxs u (by simp [hu]))]
    simp [ht]

theorem ofTokens_no_separator {xs : List Token} (hxs : ∀ t ∈ xs, t.kind.isSeparator = false) :
    ofTokens xs = [⟨xs, false⟩] := by
  induction xs with
  | nil => rfl
  | cons t xs ih =>
    have ht : t.kind.isSeparator = false := hxs t (by simp)
    rw [ofTokens, ih (fun u hu => hxs u (by simp [hu]))]
    simp [ht]

end Segment

namespace Chain

/-- The pipelines of a chain, in order. -/
def pipelines (c : Chain) : List (List Token) := c.first :: c.rest.map (·.2)

theorem ofTokens_no_connector {xs : List Token} (hxs : ∀ t ∈ xs, Connector.ofKind? t.kind = none) :
    ofTokens xs = ⟨xs, []⟩ := by
  induction xs with
  | nil => rfl
  | cons t xs ih =>
    rw [ofTokens, hxs t (by simp), ih (fun u hu => hxs u (by simp [hu]))]

/-- A pipeline behind a connector comes last in the chain. -/
theorem ofTokens_append_connector (xs : List Token) {op : Token} {k : Connector}
    (hop : Connector.ofKind? op.kind = some k) {ys : List Token}
    (hys : ∀ t ∈ ys, Connector.ofKind? t.kind = none) :
    ofTokens (xs ++ op :: ys) = ⟨(ofTokens xs).first, (ofTokens xs).rest ++ [(k, ys)]⟩ := by
  induction xs with
  | nil =>
    simp only [List.nil_append, ofTokens, hop, ofTokens_no_connector hys]
  | cons t xs ih =>
    rw [List.cons_append, ofTokens, ih, ofTokens]
    cases Connector.ofKind? t.kind <;> rfl

/-- A pipeline in front of a connector comes first in the chain. -/
theorem ofTokens_cons_connector {xs : List Token}
    (hxs : ∀ t ∈ xs, Connector.ofKind? t.kind = none) {op : Token} {k : Connector}
    (hop : Connector.ofKind? op.kind = some k) (ys : List Token) :
    ofTokens (xs ++ op :: ys) = ⟨xs, (k, (ofTokens ys).first) :: (ofTokens ys).rest⟩ := by
  induction xs with
  | nil => rw [List.nil_append, ofTokens, hop]
  | cons t xs ih =>
    rw [List.cons_append, ofTokens, hxs t (by simp), ih (fun u hu => hxs u (by simp [hu]))]

end Chain

namespace Grammar

theorem ListTree.no_separator (l : ListTree) : ∀ t ∈ l.tokens, t.kind.isSeparator = false := by
  intro t ht
  have imp : ∀ k, inList k = true → k.isSeparator = false := by decide
  exact imp _ (l.inList_of_mem ht)

theorem PipelineTree.no_connector (p : PipelineTree) :
    ∀ t ∈ p.tokens, Connector.ofKind? t.kind = none := by
  intro t ht
  have imp : ∀ k, inPipeline k = true → Connector.ofKind? k = none := by decide
  exact imp _ (p.inPipeline_of_mem ht)

theorem PipelineTree.tokens_ne_nil (p : PipelineTree) : p.tokens ≠ [] := by
  cases p <;> simp [tokens, CommandTree.tokens]

theorem ListTree.tokens_ne_nil (l : ListTree) : l.tokens ≠ [] := by
  cases l with
  | one p => exact p.tokens_ne_nil
  | more left op right => simp [tokens]

/-- Whether a separator sends what stands before it into the background. -/
def Separator.isBackground (sep : Separator) : Bool := sep.token.kind = .ampersand

/-- The lists of a line in order, and whether each goes into the background. -/
def LineTree.elements : LineTree → List (ListTree × Bool)
  | last l trailing => [(l, trailing.any Separator.isBackground)]
  | more l sep rest => (l, sep.isBackground) :: rest.elements

/-- Cutting at separators gives the lists of the tree. -/
theorem LineTree.ofLine_tokens (tree : LineTree) :
    Segment.ofLine tree.tokens = tree.elements.map fun e => ⟨e.1.tokens, e.2⟩ := by
  induction tree with
  | last l trailing =>
    cases trailing with
    | none =>
      simp [tokens, Segment.ofLine, Segment.ofTokens_no_separator l.no_separator, elements,
        l.tokens_ne_nil]
    | some sep =>
      change Segment.ofLine (l.tokens ++ [sep.token]) = _
      rw [Segment.ofLine, Segment.ofTokens_append_separator l.no_separator sep.isAllowed]
      simp [Segment.ofTokens, elements, l.tokens_ne_nil, Separator.isBackground]
  | more l sep rest ih =>
    rw [tokens, Segment.ofLine, Segment.ofTokens_append_separator l.no_separator sep.isAllowed,
      List.filter_cons, ← Segment.ofLine, ih]
    simp [elements, l.tokens_ne_nil, Separator.isBackground]

def Connective.connector (op : Connective) : Connector :=
  if op.token.kind = .and then .and else .or

theorem Connective.ofKind?_kind (op : Connective) :
    Connector.ofKind? op.token.kind = some op.connector := by
  have imp : ∀ k : Kind, k.isConnector = true →
      Connector.ofKind? k = some (if k = .and then .and else .or) := by decide
  exact imp _ op.isAllowed

/-- The pipelines of a list, and how they are connected. -/
def ListTree.chain : ListTree → Chain
  | one p => ⟨p.tokens, []⟩
  | more left op right =>
    ⟨left.chain.first, left.chain.rest ++ [(op.connector, right.tokens)]⟩

/-- Cutting at connectors gives the pipelines of the tree. -/
theorem ListTree.ofTokens_tokens (l : ListTree) : Chain.ofTokens l.tokens = l.chain := by
  induction l with
  | one p => exact Chain.ofTokens_no_connector p.no_connector
  | more left op right ih =>
    -- The tree leans to the left, so that its last pipeline is the last one of the chain.
    rw [tokens, Chain.ofTokens_append_connector _ op.ofKind?_kind right.no_connector, ih]
    rfl

end Grammar
end JobShell
