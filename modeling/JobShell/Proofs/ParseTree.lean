import JobShell.Grammar
import Mathlib.Data.Fintype.Basic

/-! Parse trees of command lines, one type for each symbol of the grammar:

    line      ::= list (separator list)* separator?
    list      ::= pipeline (("&&" | "||") pipeline)*
    pipeline  ::= command ("|" command)*
    command   ::= word (word | redirection word)*

A list leans to the left, as its connectors are of equal rank. -/
namespace JobShell.Grammar

open Token

/-- A token of one of certain kinds. -/
structure Terminal (allowed : Kind → Bool) where
  token : Token
  isAllowed : allowed token.kind = true

abbrev Word := Terminal (· = .word)
abbrev Redirection := Terminal Kind.isRedirection
abbrev Bar := Terminal (· = .pipe)
abbrev Connective := Terminal Kind.isConnector
abbrev Separator := Terminal Kind.isSeparator

/-- What may follow the first word of a command. -/
inductive Item where
  | word (w : Word)
  | redirection (op : Redirection) (target : Word)

structure CommandTree where
  first : Word
  items : List Item

inductive PipelineTree where
  | one (c : CommandTree)
  | more (c : CommandTree) (bar : Bar) (rest : PipelineTree)

inductive ListTree where
  | one (p : PipelineTree)
  | more (left : ListTree) (op : Connective) (right : PipelineTree)

inductive LineTree where
  /-- The last list, and the separator that may stand behind it. -/
  | last (l : ListTree) (trailing : Option Separator)
  | more (l : ListTree) (sep : Separator) (rest : LineTree)

namespace Item

def tokens : Item → List Token
  | word w => [w.token]
  | redirection op target => [op.token, target.token]

end Item

namespace CommandTree

/-- The tokens of a tree, from left to right. -/
def tokens (c : CommandTree) : List Token := c.first.token :: c.items.flatMap Item.tokens

/-- Puts a word in front of a command, whose first word becomes an argument. -/
def addWord (w : Word) (c : CommandTree) : CommandTree := ⟨w, .word c.first :: c.items⟩

/-- Puts a word and a redirection in front of a command, whose first word becomes a target. -/
def addRedirection (w : Word) (op : Redirection) (c : CommandTree) : CommandTree :=
  ⟨w, .redirection op c.first :: c.items⟩

theorem tokens_addWord (w : Word) (c : CommandTree) : (c.addWord w).tokens = [w.token] ++ c.tokens :=
  rfl

theorem tokens_addRedirection (w : Word) (op : Redirection) (c : CommandTree) :
    (c.addRedirection w op).tokens = [w.token, op.token] ++ c.tokens := rfl

end CommandTree

namespace PipelineTree

def tokens : PipelineTree → List Token
  | one c => c.tokens
  | more c bar rest => c.tokens ++ bar.token :: rest.tokens

def mapFirst (f : CommandTree → CommandTree) : PipelineTree → PipelineTree
  | one c => one (f c)
  | more c bar rest => more (f c) bar rest

theorem tokens_mapFirst {f : CommandTree → CommandTree} (pre : List Token)
    (h : ∀ c, (f c).tokens = pre ++ c.tokens) (p : PipelineTree) :
    (p.mapFirst f).tokens = pre ++ p.tokens := by
  cases p <;> simp [mapFirst, tokens, h]

end PipelineTree

namespace ListTree

def tokens : ListTree → List Token
  | one p => p.tokens
  | more left op right => left.tokens ++ op.token :: right.tokens

def mapFirst (f : PipelineTree → PipelineTree) : ListTree → ListTree
  | one p => one (f p)
  | more left op right => more (left.mapFirst f) op right

theorem tokens_mapFirst {f : PipelineTree → PipelineTree} (pre : List Token)
    (h : ∀ p, (f p).tokens = pre ++ p.tokens) (l : ListTree) :
    (l.mapFirst f).tokens = pre ++ l.tokens := by
  induction l with
  | one p => exact h p
  | more left op right ih => simp [mapFirst, tokens, ih]

/-- Puts a pipeline and a connective in front of a list. -/
def addPipeline (p : PipelineTree) (op : Connective) : ListTree → ListTree
  | one q => more (one p) op q
  | more left op' right => more (left.addPipeline p op) op' right

theorem tokens_addPipeline (p : PipelineTree) (op : Connective) (l : ListTree) :
    (l.addPipeline p op).tokens = (p.tokens ++ [op.token]) ++ l.tokens := by
  induction l with
  | one q => simp [addPipeline, tokens]
  | more left op' right ih => simp [addPipeline, tokens, ih]

end ListTree

namespace LineTree

def tokens : LineTree → List Token
  | last l trailing => l.tokens ++ trailing.toList.map Terminal.token
  | more l sep rest => l.tokens ++ sep.token :: rest.tokens

def mapFirst (f : ListTree → ListTree) : LineTree → LineTree
  | last l trailing => last (f l) trailing
  | more l sep rest => more (f l) sep rest

theorem tokens_mapFirst {f : ListTree → ListTree} (pre : List Token)
    (h : ∀ l, (f l).tokens = pre ++ l.tokens) (t : LineTree) :
    (t.mapFirst f).tokens = pre ++ t.tokens := by
  cases t <;> simp [mapFirst, tokens, h]

end LineTree

/-- The tokens of a line that may be empty. -/
def lineTokens : Option LineTree → List Token
  | none => []
  | some tree => tree.tokens

/-! ### Kinds of tokens in a tree -/

instance : Fintype Kind where
  elems := Kind.all.toFinset
  complete k := by cases k <;> decide

/-- The kinds of tokens that occur in commands. -/
def inCommand (k : Kind) : Bool := k = .word || k.isRedirection

def inPipeline (k : Kind) : Bool := inCommand k || k = .pipe

def inList (k : Kind) : Bool := inPipeline k || k.isConnector

def inLine (k : Kind) : Bool := inList k || k.isSeparator

theorem Terminal.kind_of_imp {allowed : Kind → Bool} (t : Terminal allowed) {p : Kind → Bool}
    (h : ∀ k, allowed k = true → p k = true) : p t.token.kind = true :=
  h _ t.isAllowed

theorem Item.inCommand_of_mem {item : Item} {t : Token} (h : t ∈ item.tokens) :
    inCommand t.kind = true := by
  cases item with
  | word w =>
    obtain rfl := List.mem_singleton.1 h
    exact w.kind_of_imp (by decide)
  | redirection op target =>
    rcases List.mem_cons.1 h with rfl | h
    · exact op.kind_of_imp (by decide)
    · obtain rfl := List.mem_singleton.1 h
      exact target.kind_of_imp (by decide)

theorem CommandTree.inCommand_of_mem {c : CommandTree} {t : Token} (h : t ∈ c.tokens) :
    inCommand t.kind = true := by
  rcases List.mem_cons.1 h with rfl | h
  · exact c.first.kind_of_imp (by decide)
  · obtain ⟨item, -, ht⟩ := List.mem_flatMap.1 h
    exact item.inCommand_of_mem ht

theorem PipelineTree.inPipeline_of_mem {p : PipelineTree} {t : Token} (h : t ∈ p.tokens) :
    inPipeline t.kind = true := by
  induction p with
  | one c => simp [inPipeline, c.inCommand_of_mem h]
  | more c bar rest ih =>
    rcases List.mem_append.1 h with h | h
    · simp [inPipeline, c.inCommand_of_mem h]
    · rcases List.mem_cons.1 h with rfl | h
      · exact bar.kind_of_imp (by decide)
      · exact ih h

theorem ListTree.inList_of_mem {l : ListTree} {t : Token} (h : t ∈ l.tokens) :
    inList t.kind = true := by
  induction l with
  | one p => simp [inList, p.inPipeline_of_mem h]
  | more left op right ih =>
    rcases List.mem_append.1 h with h | h
    · exact ih h
    · rcases List.mem_cons.1 h with rfl | h
      · exact op.kind_of_imp (by decide)
      · simp [inList, right.inPipeline_of_mem h]

theorem LineTree.inLine_of_mem {tree : LineTree} {t : Token} (h : t ∈ tree.tokens) :
    inLine t.kind = true := by
  induction tree with
  | last l trailing =>
    rcases List.mem_append.1 h with h | h
    · simp [inLine, l.inList_of_mem h]
    · obtain ⟨sep, -, rfl⟩ := List.mem_map.1 h
      exact sep.kind_of_imp (by decide)
  | more l sep rest ih =>
    rcases List.mem_append.1 h with h | h
    · simp [inLine, l.inList_of_mem h]
    · rcases List.mem_cons.1 h with rfl | h
      · exact sep.kind_of_imp (by decide)
      · exact ih h

end JobShell.Grammar
