import Citator.Expansion.Finder
import Citator.RefTree.Basic
import Citator.RefTree.Json
import Citator.RefGraph.Basic

/-!
# `Citator.Report` — the answer to a question, as text

An expansion can be shown as an outline, as JSON together with its counts, and as a graph in the DOT
language. Paths below the root directory are shown relative to it, except in JSON, which holds them in
full. Only JSON can fail: it has no text for a path that is not well formed.
-/

namespace Citator

/-! ## 1. Counts -/

namespace Stats

def toJson (s : Stats) : Json :=
  .object
    [("files_scanned", .number s.filesScanned),
      ("unreadable_skipped", .number s.unreadableSkipped),
      ("nodes", .number s.nodes),
      ("expanded", .number s.expanded),
      ("skipped_visited", .number s.skippedVisited),
      ("skipped_gate", .number s.skippedGate),
      ("skipped_depth", .number s.skippedDepth),
      ("max_depth_reached", .number s.maxDepthReached),
      ("truncated", .bool s.truncated),
      ("duration_ms", .number s.durationMs)]

/-- The counts in a sentence. Links that were not expanded, files that could not be read and a tree
that was cut short are mentioned only if there are any. -/
def summary (s : Stats) : String :=
  toString s.nodes ++ " nodes, " ++ toString s.expanded ++ " expanded, depth " ++
    toString s.maxDepthReached ++ ", " ++ toString s.filesScanned ++ " files scanned in " ++
    toString s.durationMs ++ " ms" ++
    (if 0 < s.skippedVisited + s.skippedGate + s.skippedDepth then
      "; leaves: " ++ toString s.skippedVisited ++ " already expanded, " ++
        toString s.skippedGate ++ " gated, " ++ toString s.skippedDepth ++ " at max depth"
    else "") ++
    (if 0 < s.unreadableSkipped then
      "; " ++ toString s.unreadableSkipped ++ " unreadable files skipped"
    else "") ++
    if s.truncated then "; truncated by max nodes" else ""

end Stats

/-! ## 2. Expansions -/

/-- The graph of an expansion: the root of the tree stands for the corpus file that was asked
about. -/
def Expansion.graph (e : Expansion) : RefGraph := .ofTree e.root e.rootPath

/-- The ways to show an expansion. -/
inductive Format where
  | tree
  | json
  | dot
  deriving DecidableEq, Repr, Inhabited

def Format.names : List (String × Format) := [("tree", .tree), ("json", .json), ("dot", .dot)]

/-- A path in an expansion without JSON text. -/
structure RenderError where
  deriving DecidableEq, Repr

def RenderError.message (_ : RenderError) : String := RefTree.noJsonMessage

def Expansion.render (e : Expansion) (rootDir : Path) (format : Format) :
    Except RenderError String :=
  match format with
  | .tree => .ok (e.root.outline (some rootDir))
  | .dot => .ok (e.graph.toDot fun p => p.display (some rootDir))
  | .json =>
    match e.root.toJson? with
    | none => .error {}
    | some tree =>
      let whole : Json :=
        .object [("root_dir", .text rootDir.shown), ("tree", tree), ("stats", e.stats.toJson)]
      .ok (whole.indented 0 ++ "\n")

end Citator
