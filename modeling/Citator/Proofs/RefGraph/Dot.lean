import Mathlib.Data.List.Basic
import Mathlib.Data.Prod.Basic
import Citator.RefGraph.Basic

/-!
# `Citator.Proofs.RefGraph.Dot` — what is written in the DOT language can be read

A label can hold anything: quotes, backslashes, and text that would be a statement if it stood outside of
the quotes. So the reader here knows nothing about the writer. It first cuts a text into tokens, one
character after the other, and then reads the tokens as statements. Inside quotes a backslash has to
stand in front of a quote or another backslash, and makes it part of the text; a quote without one ends
the text.

What a graph is written as is read as the statements that were meant, and nothing is left over. So the
text determines the labels, node by node, and the edges in their order.
-/

namespace Citator

namespace Dot

/-! ## 1. Tokens -/

inductive Token where
  /-- A name or a number. -/
  | word (s : String)
  /-- A text in quotes, as it reads. -/
  | text (s : String)
  | arrow
  | mark (c : Char)
  deriving DecidableEq, Repr

/-- What a scanner is in the middle of. -/
inductive Mode where
  | between
  | word (cs : List Char)
  /-- Of a text in quotes. -/
  | text (cs : List Char)
  /-- Of a text in quotes, behind a backslash. -/
  | escape (cs : List Char)
  /-- Of an arrow. -/
  | arrow
  deriving DecidableEq, Repr

/-- The tokens that were scanned, and what the scanner is in the middle of. -/
structure Scanner where
  tokens : List Token := []
  mode : Mode := .between
  deriving DecidableEq, Repr

namespace Scanner

def emit (s : Scanner) (t : Token) : Scanner := ⟨s.tokens ++ [t], .between⟩

def enter (s : Scanner) (m : Mode) : Scanner := { s with mode := m }

/-- The scanner behind a character that does not belong to the token before it. -/
def begin? (s : Scanner) (c : Char) : Option Scanner :=
  if c = ' ' ∨ c = '\n' then some (s.enter .between)
  else if c = '"' then some (s.enter (.text []))
  else if c = '-' then some (s.enter .arrow)
  else if c.isAlphanum then some (s.enter (.word [c]))
  else if c ∈ ['\x7b', '\x7d', '[', ']', '=', ';'] then some (s.emit (.mark c))
  else none

/-- The scanner behind one more character. -/
def step? (s : Scanner) (c : Char) : Option Scanner :=
  match s.mode with
  | .between => s.begin? c
  | .word cs =>
    if c.isAlphanum then some (s.enter (.word (cs ++ [c])))
    else (s.emit (.word (String.ofList cs))).begin? c
  | .text cs =>
    if c = '\\' then some (s.enter (.escape cs))
    else if c = '"' then some (s.emit (.text (String.ofList cs)))
    else some (s.enter (.text (cs ++ [c])))
  | .escape cs => if c = '\\' ∨ c = '"' then some (s.enter (.text (cs ++ [c]))) else none
  | .arrow => if c = '>' then some (s.emit .arrow) else none

def run? (s : Scanner) (cs : List Char) : Option Scanner := cs.foldlM step? s

def finish? (s : Scanner) : Option (List Token) :=
  match s.mode with
  | .between => some s.tokens
  | _ => none

end Scanner

def tokens? (text : String) : Option (List Token) :=
  (({} : Scanner).run? text.toList).bind Scanner.finish?

/-! ## 2. Statements -/

inductive Statement where
  | setting (key value : String)
  /-- A node with one attribute. -/
  | node (name key value : String)
  | edge (tail head : String)
  deriving DecidableEq, Repr

/-- A graph as it stands in a text. -/
structure Document where
  kind : String
  name : String
  statements : List Statement
  deriving DecidableEq, Repr

def Statement.tokens : Statement → List Token
  | .setting key value => [.word key, .mark '=', .word value, .mark ';']
  | .node name key value =>
    [.word name, .mark '[', .word key, .mark '=', .text value, .mark ']', .mark ';']
  | .edge tail head => [.word tail, .arrow, .word head, .mark ';']

/-- Reads statements up to the closing brace, which ends the text. -/
def readStatements? : List Token → Option (List Statement)
  | [.mark '\x7d'] => some []
  | .word key :: .mark '=' :: .word value :: .mark ';' :: ts =>
    (readStatements? ts).map (.setting key value :: ·)
  | .word name :: .mark '[' :: .word key :: .mark '=' :: .text value :: .mark ']' :: .mark ';' :: ts =>
    (readStatements? ts).map (.node name key value :: ·)
  | .word tail :: .arrow :: .word head :: .mark ';' :: ts =>
    (readStatements? ts).map (.edge tail head :: ·)
  | _ => none

def readDocument? : List Token → Option Document
  | .word kind :: .word name :: .mark '\x7b' :: ts =>
    (readStatements? ts).map fun statements => ⟨kind, name, statements⟩
  | _ => none

/-- The graph that a text stands for. -/
def read? (text : String) : Option Document := (tokens? text).bind readDocument?

/-- The label of a node. -/
def Statement.label? : Statement → Option String
  | .node _ _ value => some value
  | _ => none

/-- The ends of an edge. -/
def Statement.ends? : Statement → Option (String × String)
  | .edge tail head => some (tail, head)
  | _ => none

theorem readStatements?_tokens (s : Statement) (ts : List Token) :
    readStatements? (s.tokens ++ ts) = (readStatements? ts).map (s :: ·) := by
  cases s <;> rfl

theorem readStatements?_flatMap (ss : List Statement) :
    readStatements? (ss.flatMap Statement.tokens ++ [.mark '\x7d']) = some ss := by
  induction ss with
  | nil => rfl
  | cons s ss ih =>
    rw [List.flatMap_cons, List.append_assoc, readStatements?_tokens, ih]
    rfl

/-! ## 3. Scanning what was written -/

namespace Scanner

variable {s s' : Scanner} {ts : List Token} {cs ds front : List Char}

theorem run?_append (s : Scanner) (cs ds : List Char) :
    s.run? (cs ++ ds) = (s.run? cs).bind fun s => s.run? ds := List.foldlM_append

theorem run?_append_of_eq_some (h : s.run? cs = some s') : s.run? (cs ++ ds) = s'.run? ds := by
  rw [run?_append, h, Option.bind_some]

/-- A word goes on as long as letters and digits come. -/
theorem run?_word (h : ∀ c ∈ cs, c.isAlphanum = true) :
    run? ⟨ts, .word front⟩ cs = some ⟨ts, .word (front ++ cs)⟩ := by
  induction cs generalizing front with
  | nil => simp [run?]
  | cons c cs ih =>
    have hc : run? ⟨ts, .word front⟩ [c] = some ⟨ts, .word (front ++ [c])⟩ := by
      simp [run?, step?, enter, h c List.mem_cons_self]
    have hcs : run? ⟨ts, .word (front ++ [c])⟩ cs = some ⟨ts, .word (front ++ [c] ++ cs)⟩ := by
      apply ih
      intro d hd
      exact h d (List.mem_cons_of_mem _ hd)
    rw [← List.singleton_append, run?_append_of_eq_some hc, hcs, List.append_assoc]

/-- An escaped character is read as the character. -/
theorem run?_escapedChar (c : Char) :
    run? ⟨ts, .text front⟩ (if c = '\\' ∨ c = '"' then ['\\', c] else [c]) =
      some ⟨ts, .text (front ++ [c])⟩ := by
  by_cases hback : c = '\\'
  · subst hback
    rfl
  · by_cases hquote : c = '"'
    · subst hquote
      rfl
    · simp [run?, step?, hback, hquote, enter]

/-- Inside quotes an escaped label is read as the label. -/
theorem run?_escapedLabel (label : String) :
    run? ⟨ts, .text front⟩ (RefGraph.escapedLabel label).toList =
      some ⟨ts, .text (front ++ label.toList)⟩ := by
  rw [RefGraph.escapedLabel, String.toList_ofList]
  generalize label.toList = cs
  induction cs generalizing front with
  | nil => simp [run?]
  | cons c cs ih =>
    rw [List.flatMap_cons, run?_append_of_eq_some (run?_escapedChar c), ih, List.append_assoc]
    rfl

end Scanner

end Dot

/-! ## 4. Labels -/

namespace RefGraph

open Dot

/-- A text with a backslash in front of each `c`. -/
def shielded (c : Char) (cs : List Char) : List Char :=
  cs.flatMap fun d => if d = c then ['\\', d] else [d]

/-- A label can be escaped in two passes, the backslashes first. The other way round, the backslashes in
front of the quotes would get one as well. -/
theorem escapedLabel_eq_shielded (label : String) :
    escapedLabel label = String.ofList (shielded '"' (shielded '\\' label.toList)) := by
  rw [escapedLabel, shielded, shielded, List.flatMap_assoc]
  congr 2
  funext c
  by_cases hback : c = '\\'
  · subst hback
    rfl
  · by_cases hquote : c = '"'
    · subst hquote
      rfl
    · simp [hback, hquote]

/-! ## 5. Graphs -/

def nodeName (i : Nat) : String := "n" ++ toString i

def meantNode (label : Path → String) (node : Path × Nat) : Statement :=
  .node (nodeName node.2) "label" (label node.1)

def meantEdge (e : Nat × Nat) : Statement := .edge (nodeName e.1) (nodeName e.2)

/-- What a graph is meant to say. -/
def statements (g : RefGraph) (label : Path → String) : List Statement :=
  .setting "rankdir" "LR" :: g.paths.zipIdx.map (meantNode label) ++ g.edges.map meantEdge

theorem toList_toString (i : Nat) : (toString i).toList = Nat.toDigits 10 i := by
  rw [Nat.toString_eq_repr, Nat.repr_eq_ofList_toDigits, String.toList_ofList]

theorem nodeName_injective : Function.Injective nodeName := by
  intro i j h
  have htext := (String.append_right_inj "n").mp h
  have hdigits : Nat.toDigits 10 i = Nat.toDigits 10 j := by
    rw [← toList_toString, htext, toList_toString]
  have hvalue := congrArg (fun ds => Nat.ofDigitChars 10 ds 0) hdigits
  simpa using hvalue

theorem run?_nodeName (i : Nat) (ts : List Token) :
    Scanner.run? ⟨ts, .word ['n']⟩ (toString i).toList = some ⟨ts, .word (nodeName i).toList⟩ := by
  rw [nodeName, String.toList_append]
  apply Scanner.run?_word
  intro c hc
  rw [toList_toString] at hc
  have hdigit := Nat.isDigit_of_mem_toDigits (by decide) (by decide) hc
  rw [Char.isAlphanum, hdigit, Bool.or_true]

theorem run?_nodeStatement (label : Path → String) (node : Path × Nat) (ts : List Token) :
    Scanner.run? ⟨ts, .between⟩ (nodeStatement label node).toList =
      some ⟨ts ++ (meantNode label node).tokens, .between⟩ := by
  have hindent : Scanner.run? ⟨ts, .between⟩ "    n".toList = some ⟨ts, .word ['n']⟩ := rfl
  have hopen (cs : List Char) : Scanner.run? ⟨ts, .word cs⟩ " [label=\"".toList =
      some ⟨ts ++ [.word (String.ofList cs)] ++ [.mark '['] ++ [.word "label"] ++ [.mark '='],
        .text []⟩ := rfl
  have hclose (ts : List Token) (cs : List Char) : Scanner.run? ⟨ts, .text cs⟩ "\"];\n".toList =
      some ⟨ts ++ [.text (String.ofList cs)] ++ [.mark ']'] ++ [.mark ';'], .between⟩ := rfl
  simp only [nodeStatement, String.toList_append, List.append_assoc]
  rw [Scanner.run?_append_of_eq_some hindent, Scanner.run?_append_of_eq_some (run?_nodeName node.2 ts),
    Scanner.run?_append_of_eq_some (hopen _),
    Scanner.run?_append_of_eq_some (Scanner.run?_escapedLabel _), hclose]
  simp [Statement.tokens, meantNode]

theorem run?_edgeStatement (e : Nat × Nat) (ts : List Token) :
    Scanner.run? ⟨ts, .between⟩ (edgeStatement e).toList =
      some ⟨ts ++ (meantEdge e).tokens, .between⟩ := by
  have hindent : Scanner.run? ⟨ts, .between⟩ "    n".toList = some ⟨ts, .word ['n']⟩ := rfl
  have harrow (cs : List Char) : Scanner.run? ⟨ts, .word cs⟩ " -> n".toList =
      some ⟨ts ++ [.word (String.ofList cs)] ++ [.arrow], .word ['n']⟩ := rfl
  have hclose (ts : List Token) (cs : List Char) : Scanner.run? ⟨ts, .word cs⟩ ";\n".toList =
      some ⟨ts ++ [.word (String.ofList cs)] ++ [.mark ';'], .between⟩ := rfl
  simp only [edgeStatement, String.toList_append, List.append_assoc]
  rw [Scanner.run?_append_of_eq_some hindent, Scanner.run?_append_of_eq_some (run?_nodeName e.1 ts),
    Scanner.run?_append_of_eq_some (harrow _), Scanner.run?_append_of_eq_some (run?_nodeName e.2 _),
    hclose]
  simp [Statement.tokens, meantEdge]

/-- Items that are each written as a statement are written, one behind the other, as all of them. -/
theorem run?_join {α : Type} {write : α → String} {meant : α → Statement}
    (h : ∀ (a : α) (ts : List Token), Scanner.run? ⟨ts, .between⟩ (write a).toList =
      some ⟨ts ++ (meant a).tokens, .between⟩) (items : List α) (ts : List Token) :
    Scanner.run? ⟨ts, .between⟩ (String.join (items.map write)).toList =
      some ⟨ts ++ (items.map meant).flatMap Statement.tokens, .between⟩ := by
  induction items generalizing ts with
  | nil => simp [Scanner.run?]
  | cons a items ih =>
    rw [List.map_cons, String.join_cons, String.toList_append,
      Scanner.run?_append_of_eq_some (h a ts), ih]
    simp

theorem toList_toDot (g : RefGraph) (label : Path → String) :
    (g.toDot label).toList = "digraph references \x7b\n    rankdir=LR;\n".toList ++
      ((String.join (g.paths.zipIdx.map (nodeStatement label))).toList ++
        ((String.join (g.edges.map edgeStatement)).toList ++ "\x7d\n".toList)) := by
  -- not by its equation, which evaluates the header
  delta toDot
  simp only [String.toList_append, List.append_assoc]

theorem tokens?_toDot (g : RefGraph) (label : Path → String) :
    tokens? (g.toDot label) =
      some ([.word "digraph", .word "references", .mark '\x7b'] ++
        ((g.statements label).flatMap Statement.tokens ++ [.mark '\x7d'])) := by
  have hheader : Scanner.run? {} "digraph references \x7b\n    rankdir=LR;\n".toList =
      some ⟨[.word "digraph", .word "references", .mark '\x7b'] ++
        (Statement.setting "rankdir" "LR").tokens, .between⟩ := rfl
  have hbrace (ts : List Token) : Scanner.run? ⟨ts, .between⟩ "\x7d\n".toList =
      some ⟨ts ++ [.mark '\x7d'], .between⟩ := rfl
  have hnodes := run?_join (run?_nodeStatement label)
  have hedges := run?_join run?_edgeStatement
  rw [tokens?, toList_toDot, Scanner.run?_append_of_eq_some hheader,
    Scanner.run?_append_of_eq_some (hnodes _ _), Scanner.run?_append_of_eq_some (hedges _ _), hbrace]
  simp [Scanner.finish?, statements]

theorem read?_toDot (g : RefGraph) (label : Path → String) :
    read? (g.toDot label) = some ⟨"digraph", "references", g.statements label⟩ := by
  rw [read?, tokens?_toDot, Option.bind_some]
  simp only [List.cons_append, List.nil_append, readDocument?, readStatements?_flatMap, Option.map_some]

/-! ## 6. What the text determines -/

theorem filterMap_label?_statements (g : RefGraph) (label : Path → String) :
    (g.statements label).filterMap Statement.label? = g.paths.map label := by
  have hnodes (k : Nat) :
      ((g.paths.zipIdx k).map (meantNode label)).filterMap Statement.label? = g.paths.map label := by
    generalize g.paths = ps
    induction ps generalizing k with
    | nil => rfl
    | cons p ps ih => simp [meantNode, Statement.label?, ih]
  have hedges : (g.edges.map meantEdge).filterMap Statement.label? = [] := by
    simp [meantEdge, Statement.label?]
  rw [statements, List.cons_append, List.filterMap_cons_none rfl, List.filterMap_append, hnodes, hedges,
    List.append_nil]

theorem filterMap_ends?_statements (g : RefGraph) (label : Path → String) :
    (g.statements label).filterMap Statement.ends? = g.edges.map (Prod.map nodeName nodeName) := by
  have hnodes : (g.paths.zipIdx.map (meantNode label)).filterMap Statement.ends? = [] := by
    simp [meantNode, Statement.ends?]
  have hedges : (g.edges.map meantEdge).filterMap Statement.ends? =
      g.edges.map (Prod.map nodeName nodeName) := by
    rw [List.filterMap_map, ← List.filterMap_eq_map]
    rfl
  rw [statements, List.cons_append, List.filterMap_cons_none rfl, List.filterMap_append, hnodes, hedges,
    List.nil_append]

/-- Nothing else of a graph shows in the text. -/
theorem toDot_congr {g g' : RefGraph} {label label' : Path → String}
    (hlabels : g.paths.map label = g'.paths.map label') (hedges : g.edges = g'.edges) :
    g.toDot label = g'.toDot label' := by
  have hnodes (ps : List Path) (label : Path → String) : ps.zipIdx.map (nodeStatement label) =
      (ps.map label).zipIdx.map fun node =>
        "    n" ++ toString node.2 ++ " [label=\"" ++ escapedLabel node.1 ++ "\"];\n" := by
    rw [List.zipIdx_map, List.map_map]
    rfl
  apply String.toList_inj.mp
  rw [toList_toDot, toList_toDot, hnodes, hnodes, hlabels, hedges]

/-- What is written is read as what was meant, and two graphs are written in the same way only if they
have the same labels and the same edges. -/
theorem toDot_read (g : RefGraph) (label : Path → String) :
    read? (g.toDot label) = some ⟨"digraph", "references", g.statements label⟩ ∧
      ∀ (g' : RefGraph) (label' : Path → String), g.toDot label = g'.toDot label' ↔
        g.paths.map label = g'.paths.map label' ∧ g.edges = g'.edges := by
  refine ⟨read?_toDot g label, ?_⟩
  intro g' label'
  constructor
  · intro h
    have hstatements : g.statements label = g'.statements label' := by
      have hread := read?_toDot g label
      rw [h, read?_toDot] at hread
      simpa using hread.symm
    constructor
    · rw [← filterMap_label?_statements, hstatements, filterMap_label?_statements]
    · have hends := filterMap_ends?_statements g label
      rw [hstatements, filterMap_ends?_statements] at hends
      exact (List.map_injective_iff.mpr (nodeName_injective.prodMap nodeName_injective) hends).symm
  · rintro ⟨hlabels, hedges⟩
    exact toDot_congr hlabels hedges

end RefGraph
end Citator
