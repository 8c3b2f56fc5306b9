import Citator.Citation.Search
import Citator.Command.Line
import Citator.Command.Option
import Citator.Command.Run
import Citator.Corpus.Basic
import Citator.Corpus.Memory
import Citator.Corpus.Snapshot
import Citator.Decimal.Shortest
import Citator.Disk.Basic
import Citator.Expansion.Basic
import Citator.Expansion.Finder
import Citator.Expansion.Recursive
import Citator.Expansion.Worklist
import Citator.Gate
import Citator.Glob.Matching
import Citator.Glob.Pattern
import Citator.Ignore.Layer
import Citator.Ignore.Rule
import Citator.Json.Basic
import Citator.Json.Error
import Citator.Json.Number
import Citator.Json.Reading
import Citator.Json.Structure
import Citator.Log
import Citator.Main
import Citator.Path.Basic
import Citator.Path.Relative
import Citator.Proofs.Citation.Extensions
import Citator.Proofs.Citation.Pattern
import Citator.Proofs.Citation.Referrers
import Citator.Proofs.Citation.Stem
import Citator.Proofs.Command.Run
import Citator.Proofs.Corpus.Extension
import Citator.Proofs.Corpus.ExtensionGlob
import Citator.Proofs.Corpus.Loading
import Citator.Proofs.Corpus.Memory
import Citator.Proofs.Corpus.Registration
import Citator.Proofs.Disk.Tree
import Citator.Proofs.Expansion.Answer
import Citator.Proofs.Expansion.Assembly
import Citator.Proofs.Expansion.Attach
import Citator.Proofs.Expansion.Closure
import Citator.Proofs.Expansion.Counts
import Citator.Proofs.Expansion.Course
import Citator.Proofs.Expansion.Cut
import Citator.Proofs.Expansion.Depth
import Citator.Proofs.Expansion.Discovery
import Citator.Proofs.Expansion.Growth
import Citator.Proofs.Expansion.Identity
import Citator.Proofs.Expansion.Naming
import Citator.Proofs.Expansion.Once
import Citator.Proofs.Expansion.Order
import Citator.Proofs.Expansion.Populated
import Citator.Proofs.Expansion.Root
import Citator.Proofs.Expansion.Rounds
import Citator.Proofs.Expansion.Simulation
import Citator.Proofs.Expansion.Slots
import Citator.Proofs.Expansion.Sums
import Citator.Proofs.Expansion.Turns
import Citator.Proofs.Expansion.Whole
import Citator.Proofs.Glob.Language
import Citator.Proofs.Glob.Reading
import Citator.Proofs.Json.Reads
import Citator.Proofs.Json.Strings
import Citator.Proofs.Json.Structure
import Citator.Proofs.Path.Display
import Citator.Proofs.Path.Join
import Citator.Proofs.Path.Sameness
import Citator.Proofs.Path.Strip
import Citator.Proofs.RefGraph.Cycle
import Citator.Proofs.RefGraph.Dot
import Citator.Proofs.RefGraph.Index
import Citator.Proofs.RefGraph.Insertion
import Citator.Proofs.RefGraph.Neighbours
import Citator.Proofs.RefGraph.OfTree
import Citator.Proofs.RefTree.Json
import Citator.Proofs.RefTree.Listing
import Citator.Proofs.RefTree.Nodes
import Citator.Proofs.RefTree.Outline
import Citator.Proofs.RefTree.Walk
import Citator.Proofs.RefTree.Ways
import Citator.Proofs.Scan.Files
import Citator.Proofs.Scan.Walk
import Citator.Proofs.Text.Blank
import Citator.Proofs.Text.Utf8
import Citator.RefGraph.Basic
import Citator.RefTree.Basic
import Citator.RefTree.Json
import Citator.Report
import Citator.Scan
import Citator.Settings.Basic
import Citator.Settings.File
import Citator.Text.Plain
import Citator.Text.Quoted
import Citator.Text.Utf8
