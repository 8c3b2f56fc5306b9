import Citator.Proofs.RefGraph.Neighbours

/-!
# `Citator.Proofs.RefGraph.Index` — the numbers of files are kept in two places

A graph finds the number of a file by going through its files. A graph that is large keeps a table
beside them, from a file to its number, and looks there. Then the files and the table have to agree
after whatever was put into the graph, although a file may come in spellings that differ.

`Indexed` is such a graph. It is put together step by step like the plain one, and `InStep` is what
every step keeps: the table holds the files of the graph, in the spelling that the graph has, each
with its number, and nothing else. So both graphs answer alike, and what is proved of one is true of
the other.

The second half is about the numbers themselves. A graph gives them out from zero upwards, and a file
that is added later changes nothing that was said before it came.
-/

namespace Citator

open Citator.Path

/-! ## 1. A graph with a table -/

namespace Path

/-- A path as the key of a table. What it names counts, and not how it is spelled. -/
structure Key where
  path : Path

deriving instance Hashable for Component

instance : BEq Key := ⟨fun a b => decide (a.path.Same b.path)⟩

instance : Hashable Key := ⟨fun a => hash a.path.components⟩

/-- Two keys are equal for the table if their paths name the same thing. So the table finds a file in
every spelling, as going through the files does. -/
theorem Key.beq_iff {a b : Key} : (a == b) = true ↔ a.path.Same b.path := decide_eq_true_iff

instance : EquivBEq Key where
  rfl := Key.beq_iff.mpr (Same.refl _)
  symm h := Key.beq_iff.mpr (Key.beq_iff.mp h).symm
  trans h h' := Key.beq_iff.mpr ((Key.beq_iff.mp h).trans (Key.beq_iff.mp h'))

/-- Keys that count as one have one hash, since both are taken from the components. -/
instance : LawfulHashable Key where
  hash_eq a b h := by
    have hsame : a.path.components = b.path.components := Key.beq_iff.mp h
    show hash a.path.components = hash b.path.components
    rw [hsame]

end Path

namespace RefGraph

/-- A graph with a table of the numbers of its files. -/
structure Indexed where
  graph : RefGraph := {}
  index : Std.HashMap Path.Key Nat := {}

namespace Indexed

def find? (x : Indexed) (p : Path) : Option Nat := x.index[Path.Key.mk p]?

/-- The number of a file and the graph with it. The table is asked; a file that it does not have is put
into both. -/
def addFile (x : Indexed) (p : Path) : Nat × Indexed :=
  match x.find? p with
  | some i => (i, x)
  | none =>
    let i := x.graph.nodeCount
    (i, { graph := { x.graph with paths := x.graph.paths ++ [p] }, index := x.index.insert ⟨p⟩ i })

def addEdge (x : Indexed) (i j : Nat) : Indexed := { x with graph := x.graph.addEdge i j }

def addTrees (x : Indexed) (root : Nat) : List RefTree → Indexed
  | [] => x
  | .node f ls :: ts =>
    let (i, x) := x.addFile f
    addTrees (addTrees (x.addEdge root i) i ls) root ts

def ofTree (t : RefTree) (rootPath : Option Path) : Indexed :=
  let (i, x) := addFile {} (rootPath.getD t.file)
  x.addTrees i t.links

end Indexed

/-- How a graph comes about: from nothing or from a tree, and then files are added to it. -/
structure History where
  tree : Option (RefTree × Option Path)
  files : List Path

def History.start (h : History) : RefGraph :=
  match h.tree with
  | none => {}
  | some (t, rootPath) => ofTree t rootPath

def History.graph (h : History) : RefGraph := h.files.foldl (fun g p => (g.addFile p).2) h.start

def History.indexedStart (h : History) : Indexed :=
  match h.tree with
  | none => {}
  | some (t, rootPath) => .ofTree t rootPath

def History.indexed (h : History) : Indexed :=
  h.files.foldl (fun x p => (x.addFile p).2) h.indexedStart

/-! ## 2. The table stays in step -/

variable {g : RefGraph} {x : Indexed} {p q : Path} {i j : Nat}

/-- The table holds the files of a graph with their numbers, and finds what the graph finds. -/
structure Indexed.InStep (x : Indexed) (g : RefGraph) : Prop where
  graph : x.graph = g
  find? : ∀ p, x.find? p = g.find? p
  entries : x.index.toList.Perm (g.paths.zipIdx.map fun n => (⟨n.1⟩, n.2))

/-- A file that is put behind the others is found there, unless one of them is the same; what was found
before is found where it was. -/
theorem find?_append (g : RefGraph) (p q : Path) :
    { g with paths := g.paths ++ [p] }.find? q =
      (g.find? q).or (if p.Same q then some g.nodeCount else none) := by
  unfold RefGraph.find?
  rw [List.findIdx?_append]
  cases hfind : g.paths.findIdx? fun r => decide (r.components = q.components) with
  | some i => simp
  | none =>
    by_cases hsame : p.Same q
    · have hcomp : p.components = q.components := hsame
      simp [List.findIdx?_cons, hcomp, hsame, nodeCount]
    · have hcomp : ¬ p.components = q.components := hsame
      simp [List.findIdx?_cons, hcomp, hsame]

namespace Indexed

theorem inStep_empty : InStep {} {} := by
  refine ⟨rfl, ?_, ?_⟩
  · intro p
    simp [Indexed.find?, RefGraph.find?]
  · simp

/-- A file is new to the table just if it is new to the graph, and then both take it in. -/
theorem InStep.addFile (h : x.InStep g) (p : Path) :
    (x.addFile p).1 = (g.addFile p).1 ∧ (x.addFile p).2.InStep (g.addFile p).2 := by
  obtain ⟨rfl, hfind, hentries⟩ := h
  cases hp : x.graph.find? p with
  | some i =>
    have hx : x.find? p = some i := (hfind p).trans hp
    rw [addFile_of_find? hp, Indexed.addFile, hx]
    exact ⟨rfl, rfl, hfind, hentries⟩
  | none =>
    have hx : x.find? p = none := (hfind p).trans hp
    rw [addFile_of_find?_eq_none hp, Indexed.addFile, hx]
    refine ⟨rfl, rfl, ?_, ?_⟩
    · intro q
      rw [find?_append]
      show (x.index.insert ⟨p⟩ x.graph.nodeCount)[Path.Key.mk q]? = _
      rw [Std.HashMap.getElem?_insert]
      by_cases hsame : p.Same q
      · -- the file that was not found under one spelling is not found under another
        have hq : x.graph.find? q = none := by
          unfold RefGraph.find? at hp ⊢
          rw [← hsame]
          exact hp
        rw [if_pos (Path.Key.beq_iff.mpr hsame), hq, if_pos hsame]
        rfl
      · rw [if_neg fun hbeq => hsame (Path.Key.beq_iff.mp hbeq), if_neg hsame, Option.or_none]
        exact hfind q
    · -- no entry gives way to the new one
      have hkeep : x.index.toList.filter (fun e => decide ¬(Path.Key.mk p == e.1) = true) =
          x.index.toList := by
        rw [List.filter_eq_self]
        intro e he
        obtain ⟨n, hn, rfl⟩ := List.mem_map.mp (hentries.mem_iff.mp he)
        have hmem : n.1 ∈ x.graph.paths := List.fst_mem_of_mem_zipIdx hn
        have hnot := memSame_eq_false_iff.mp (find?_eq_none_iff.mp hp) _ hmem
        rw [decide_eq_true_iff]
        intro hbeq
        exact hnot (Path.Key.beq_iff.mp hbeq).symm
      have hperm := Std.HashMap.toList_insert_perm (m := x.index) (k := ⟨p⟩) (v := x.graph.nodeCount)
      rw [hkeep] at hperm
      refine hperm.trans ?_
      have hnew : [p].zipIdx (0 + x.graph.paths.length) = [(p, x.graph.nodeCount)] := by
        simp [nodeCount]
      show (_ :: x.index.toList).Perm (((x.graph.paths ++ [p]).zipIdx).map _)
      rw [List.zipIdx_append, List.map_append, hnew]
      exact (hentries.cons _).trans (List.perm_append_singleton _ _).symm

theorem InStep.addEdge (h : x.InStep g) (i j : Nat) : (x.addEdge i j).InStep (g.addEdge i j) := by
  obtain ⟨rfl, hfind, hentries⟩ := h
  have hpaths : (x.graph.addEdge i j).paths = x.graph.paths := paths_addEdge
  refine ⟨rfl, ?_, ?_⟩
  · intro p
    rw [RefGraph.find?, hpaths]
    exact hfind p
  · rw [hpaths]
    exact hentries

theorem InStep.addTrees {x : Indexed} {g : RefGraph} (h : x.InStep g) (root : Nat) :
    ∀ ts : List RefTree, (x.addTrees root ts).InStep (g.addTrees root ts)
  | [] => by
    rw [Indexed.addTrees, RefGraph.addTrees]
    exact h
  | .node f ls :: ts => by
    rw [Indexed.addTrees, RefGraph.addTrees]
    have hfile := h.addFile f
    generalize x.addFile f = added at hfile ⊢
    generalize g.addFile f = added' at hfile ⊢
    obtain ⟨i, x'⟩ := added
    obtain ⟨j, g'⟩ := added'
    obtain ⟨rfl, hfile⟩ := hfile
    exact ((hfile.addEdge root i).addTrees i ls).addTrees root ts

theorem inStep_ofTree (t : RefTree) (rootPath : Option Path) :
    (ofTree t rootPath).InStep (RefGraph.ofTree t rootPath) := by
  rw [Indexed.ofTree, RefGraph.ofTree]
  have hfile := inStep_empty.addFile (rootPath.getD t.file)
  generalize Indexed.addFile {} (rootPath.getD t.file) = added at hfile ⊢
  generalize RefGraph.addFile {} (rootPath.getD t.file) = added' at hfile ⊢
  obtain ⟨i, x⟩ := added
  obtain ⟨j, g⟩ := added'
  obtain ⟨rfl, hfile⟩ := hfile
  cases t with
  | node f ls => exact hfile.addTrees i ls

end Indexed

/-- Whatever a graph went through, its table went through it as well. -/
theorem History.inStep (h : History) : h.indexed.InStep h.graph := by
  have hstart : h.indexedStart.InStep h.start := by
    unfold History.indexedStart History.start
    cases h.tree with
    | none => exact Indexed.inStep_empty
    | some t => exact Indexed.inStep_ofTree t.1 t.2
  unfold History.indexed History.graph
  generalize h.indexedStart = x at hstart
  generalize h.start = g at hstart
  induction h.files generalizing x g with
  | nil => exact hstart
  | cons p ps ih => exact ih _ _ (hstart.addFile p).2

/-! ## 3. What a later file leaves alone -/

theorem History.wellFormed (h : History) : h.graph.WellFormed := by
  have hstart : h.start.WellFormed := by
    unfold History.start
    cases h.tree with
    | none => exact wellFormed_empty
    | some t => exact wellFormed_ofTree t.1 t.2
  unfold History.graph
  generalize h.start = g at hstart
  induction h.files generalizing g with
  | nil => exact hstart
  | cons p ps ih => exact ih _ (grown_addFile hstart p).1.wellFormed

/-- What the numbers of a graph and its edges are like. -/
structure Represents (g : RefGraph) : Prop where
  indices : ∀ i, (g.path? i).isSome ↔ i < g.nodeCount
  find?_of_path? : ∀ i p, g.path? i = some p → g.find? p = some i
  path?_of_find? : ∀ p i, g.find? p = some i → ∃ q, g.path? i = some q ∧ q.Same p
  apart : ∀ i j p q, g.path? i = some p → g.path? j = some q → i ≠ j → ¬ p.Same q
  ends : ∀ i j, (i, j) ∈ g.edges → i < g.nodeCount ∧ j < g.nodeCount
  single : ∀ i j, g.edges.count (i, j) ≤ 1

theorem WellFormed.represents (h : g.WellFormed) : g.Represents := by
  constructor
  case indices =>
    intro i
    simp [path?, nodeCount]
  case find?_of_path? =>
    intro i p hp
    exact h.find?_eq_some_iff.mpr ⟨p, hp, Same.refl p⟩
  case path?_of_find? =>
    intro p i hfind
    exact at_of_find? hfind
  case apart =>
    intro i j p q hi hj hne hsame
    exact hne (h.eq_of_at ⟨p, hi, hsame⟩ ⟨q, hj, Same.refl q⟩)
  case ends =>
    intro i j he
    exact h.ends _ he
  case single =>
    intro i j
    exact List.nodup_iff_count_le_one.mp h.nodup _

/-- The graph `g'` is `g` with the file `p`, which has the number `i`. -/
structure Added (g : RefGraph) (p : Path) (i : Nat) (g' : RefGraph) : Prop where
  find? : g'.find? p = some i
  /-- A file that was there, in whatever spelling, keeps its number, and nothing happens. -/
  known : ∀ j q, g.path? j = some q → q.Same p → i = j ∧ g' = g
  /-- Any other file gets the next number. -/
  new : (∀ j q, g.path? j = some q → ¬ q.Same p) →
    i = g.nodeCount ∧ g'.nodeCount = g.nodeCount + 1 ∧ g'.path? i = some p
  paths : ∀ j < g.nodeCount, g'.path? j = g.path? j
  numbers : ∀ q j, g.find? q = some j → g'.find? q = some j
  edges : g'.edges = g.edges
  referencing : ∀ q, g'.referencing q = g.referencing q
  referencedBy : ∀ q, g'.referencedBy q = g.referencedBy q
  hasCycle : g'.hasCycle = g.hasCycle

section Prefix

variable {g' : RefGraph}

theorem path?_of_isPrefix (hpaths : g.paths <+: g'.paths) (hi : i < g.nodeCount) :
    g'.path? i = g.path? i := by
  obtain ⟨ps, hps⟩ := hpaths
  unfold path?
  rw [← hps, List.getElem?_append_left hi]

theorem WellFormed.find?_of_isPrefix (h' : g'.WellFormed) (hpaths : g.paths <+: g'.paths)
    (hfind : g.find? q = some i) : g'.find? q = some i :=
  h'.find?_eq_some_iff.mpr ((at_of_find? hfind).mono hpaths)

/-- A file that comes behind the others has no edges, and the neighbours of the others are named as
before. -/
theorem referencing_of_isPrefix (h : g.WellFormed) (h' : g'.WellFormed)
    (hpaths : g.paths <+: g'.paths) (hedges : g'.edges = g.edges) (q : Path) :
    g'.referencing q = g.referencing q := by
  cases hfind : g.find? q with
  | some i =>
    unfold referencing
    simp only [hfind, h'.find?_of_isPrefix hpaths hfind, hedges]
    refine List.filterMap_congr fun j hj => path?_of_isPrefix hpaths ?_
    have hmem := (List.mergeSort_perm _ _).mem_iff.mp hj
    obtain ⟨e, he, rfl⟩ := List.mem_map.mp hmem
    exact (h.ends e (List.mem_filter.mp he).1).2
  | none =>
    rw [referencing_of_find?_eq_none hfind]
    cases hfind' : g'.find? q with
    | none => exact referencing_of_find?_eq_none hfind'
    | some i =>
      have hnone : g'.edges.filter (fun e => e.1 == i) = [] := by
        rw [List.filter_eq_nil_iff, hedges]
        intro e he hei
        -- the number is that of a file of the smaller graph, which would find it
        have hlt : i < g.nodeCount := beq_iff_eq.mp hei ▸ (h.ends e he).1
        obtain ⟨r, hr, hsame⟩ := at_of_find? hfind'
        have hat : g.At i q := ⟨r, (path?_of_isPrefix hpaths hlt).symm.trans hr, hsame⟩
        rw [h.find?_eq_some_iff.mpr hat] at hfind
        cases hfind
      unfold referencing ascending
      simp only [hfind', hnone]
      simp

theorem referencedBy_of_isPrefix (h : g.WellFormed) (h' : g'.WellFormed)
    (hpaths : g.paths <+: g'.paths) (hedges : g'.edges = g.edges) (q : Path) :
    g'.referencedBy q = g.referencedBy q := by
  rw [referencedBy_eq, referencedBy_eq]
  refine referencing_of_isPrefix h.converse h'.converse hpaths ?_ q
  show g'.edges.map Prod.swap = g.edges.map Prod.swap
  rw [hedges]

end Prefix

theorem hasCycle_congr {g' : RefGraph} (hedges : g'.edges = g.edges) : g'.hasCycle = g.hasCycle := by
  unfold hasCycle
  rw [hedges]

theorem WellFormed.added (h : g.WellFormed) (p : Path) :
    g.Added p (g.addFile p).1 (g.addFile p).2 := by
  obtain ⟨hgrown, hat⟩ := grown_addFile h p
  have hpaths := hgrown.paths_isPrefix
  have hedges := edges_addFile g p
  constructor
  case find? => exact hgrown.wellFormed.find?_eq_some_iff.mpr hat
  case known =>
    intro j q hq hsame
    rw [addFile_of_find? (h.find?_eq_some_iff.mpr ⟨q, hq, hsame⟩)]
    exact ⟨rfl, rfl⟩
  case new =>
    intro hother
    have hnone : g.find? p = none := by
      cases hfind : g.find? p with
      | none => rfl
      | some j =>
        obtain ⟨q, hq, hsame⟩ := at_of_find? hfind
        exact absurd hsame (hother j q hq)
    rw [addFile_of_find?_eq_none hnone]
    refine ⟨rfl, ?_, ?_⟩
    · simp [nodeCount]
    · simp [path?]
  case paths => exact fun j hj => path?_of_isPrefix hpaths hj
  case numbers => exact fun q j hq => hgrown.wellFormed.find?_of_isPrefix hpaths hq
  case edges => exact hedges
  case referencing => exact referencing_of_isPrefix h hgrown.wellFormed hpaths hedges
  case referencedBy => exact referencedBy_of_isPrefix h hgrown.wellFormed hpaths hedges
  case hasCycle => exact hasCycle_congr hedges

/-- **A graph numbers its files once and for all**, in its files and in its table alike. -/
theorem History.files_numbered (h : History) :
    h.graph.Represents ∧ h.indexed.InStep h.graph ∧
      ∀ p, h.graph.Added p (h.graph.addFile p).1 (h.graph.addFile p).2 ∧
        (h.indexed.addFile p).1 = (h.graph.addFile p).1 :=
  ⟨h.wellFormed.represents, h.inStep, fun p => ⟨h.wellFormed.added p, (h.inStep.addFile p).1⟩⟩

end RefGraph
end Citator
