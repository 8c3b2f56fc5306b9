import Citator.Proofs.RefTree.Json
import Citator.Proofs.RefTree.Listing
import Citator.Proofs.RefTree.Ways
import Citator.RefTree.Basic

/-!
# `Citator.Proofs.RefTree.Outline` — an outline shows its tree, and can be read

What stands in front of a name depends on the way to its node alone, more precisely on whether the nodes
that the way leads through are the last links of their parents. That is the *guide* of the node: columns
and then a branch.

A name can be anything, so it can begin with what looks like a column, or like a branch. That does no
harm, since the guide comes first: no column is a branch, so the first branch of a line ends its guide,
and the root has none. Only a line feed in a name would be read as the end of the line. Where there is
none, the lines give back the depths and the names in pre-order, which is a listing of the tree.
-/

namespace Citator

/-- The lines of a text. Each of them ends in a line feed. -/
def Text.lines (text : String) : List String :=
  (text.toList.splitOn '\n').dropLast.map String.ofList

theorem Text.splitOn_flatMap {ls : List (List Char)} (h : ∀ l ∈ ls, '\n' ∉ l) :
    (ls.flatMap fun l => l ++ ['\n']).splitOn '\n' = ls ++ [[]] := by
  induction ls with
  | nil => simp
  | cons l ls ih =>
    have hl : ∀ c ∈ l, (c == '\n') = false := by
      intro c hc
      rw [beq_eq_false_iff_ne]
      rintro rfl
      exact h l List.mem_cons_self hc
    have hrest := ih fun l' hl' => h l' (List.mem_cons_of_mem _ hl')
    rw [List.splitOn_eq_splitOnP] at hrest ⊢
    rw [List.flatMap_cons, List.append_assoc, List.singleton_append,
      List.splitOnP_append_cons (p := (· == '\n')) l _ rfl, List.splitOnP_eq_singleton hl, hrest]
    rfl

/-- Lines without line feeds in them are the lines of their text. -/
theorem Text.lines_join {ls : List String} (h : ∀ l ∈ ls, '\n' ∉ l.toList) :
    lines (String.join (ls.map fun l => l ++ "\n")) = ls := by
  have hchars : (String.join (ls.map fun l => l ++ "\n")).toList =
      (ls.map String.toList).flatMap fun l => l ++ ['\n'] := by
    rw [String.toList_join, List.flatMap_map, List.flatMap_map]
    simp
  have hno : ∀ l ∈ ls.map String.toList, '\n' ∉ l := by
    intro l hl
    obtain ⟨s, hs, rfl⟩ := List.mem_map.mp hl
    exact h s hs
  rw [lines, hchars, splitOn_flatMap hno, List.dropLast_concat, List.map_map]
  simp [Function.comp_def]

namespace RefTree

variable {base : Option Path} {f : Path} {t : RefTree} {front ts : List RefTree} {way : List Nat}
  {last : Bool} {flags : List Bool}

/-! ## 1. What stands in front of a name -/

/-- For each node that a way leads through, the last one with and the root without, whether it is the last
link of its parent. -/
def lasts (t : RefTree) : List Nat → List Bool
  | [] => []
  | i :: way => decide (t.links.length = i + 1) :: t.links[i]?.elim [] fun c => c.lasts way

/-- A column for each node but the last, and a branch for the last. -/
def guide : List Bool → String
  | [] => ""
  | [last] => branch last
  | last :: flags => column last ++ guide flags

/-- What is shown for the node that a way leads to. -/
def nameAt (t : RefTree) (base : Option Path) (way : List Nat) : String :=
  ((t.at? way).map fun n => n.file.display base).getD ""

/-- The line of the node that a way leads to. -/
def lineAt (t : RefTree) (base : Option Path) (way : List Nat) : String :=
  guide (t.lasts way) ++ t.nameAt base way

theorem nameAt_of_at? {n : RefTree} (h : t.at? way = some n) :
    t.nameAt base way = n.file.display base := by
  rw [nameAt, h]
  rfl

theorem lineAt_nil (t : RefTree) (base : Option Path) : t.lineAt base [] = t.file.display base :=
  String.empty_append

theorem guide_cons (h : flags ≠ []) : guide (last :: flags) = column last ++ guide flags := by
  cases flags with
  | nil => exact absurd rfl h
  | cons next flags => rfl

theorem lasts_length_cons (way : List Nat) :
    (node f (front ++ t :: ts)).lasts (front.length :: way) = ts.isEmpty :: t.lasts way := by
  have hlast : decide ((node f (front ++ t :: ts)).links.length = front.length + 1) = ts.isEmpty := by
    cases ts <;> simp [links]
  rw [lasts, getElem?_links_length, hlast, Option.elim_some]

theorem length_lasts (h : (t.at? way).isSome) : (t.lasts way).length = way.length := by
  induction way generalizing t with
  | nil => rfl
  | cons i way ih =>
    rw [at?] at h
    rw [lasts, List.length_cons, List.length_cons]
    cases hlink : t.links[i]? with
    | none => simp [hlink] at h
    | some c =>
      rw [hlink, Option.bind_some] at h
      rw [Option.elim_some, ih h]

/-! ## 2. The lines of an outline -/

/-- The line of a link, and the lines below it. -/
theorem lineAt_length (base : Option Path) :
    (node f (front ++ t :: ts)).lineAt base [front.length] =
      branch ts.isEmpty ++ t.file.display base := by
  rw [lineAt, nameAt, lasts_length_cons, at?_length_cons]
  rfl

theorem lineAt_length_cons (hway : way ≠ []) (hat : (t.at? way).isSome) :
    (node f (front ++ t :: ts)).lineAt base (front.length :: way) =
      column ts.isEmpty ++ t.lineAt base way := by
  have hne : t.lasts way ≠ [] := by
    rw [← List.length_pos_iff, length_lasts hat]
    exact List.length_pos_iff.mpr hway
  rw [lineAt, lineAt, nameAt, nameAt, lasts_length_cons, at?_length_cons, guide_cons hne,
    String.append_assoc]

theorem isSome_at?_of_mem_waysAll (h : way ∈ waysAll 0 t.links) : (t.at? way).isSome := by
  have hmem : way ∈ t.ways := by
    rw [ways_eq]
    exact List.mem_cons_of_mem _ h
  obtain ⟨n, -, -, hat⟩ := exists_mem_walk_of_mem_ways hmem
  rw [hat, Option.isSome_some]

mutual

theorem linesBelow_eq (base : Option Path) (margin : String) : ∀ t : RefTree,
    linesBelow base margin t = (waysAll 0 t.links).map fun way => margin ++ t.lineAt base way
  | .node f ls => by
    rw [linesBelow, linesOf_eq base margin f ls []]
    rfl

/-- Below a margin stand the lines of the nodes. -/
theorem linesOf_eq (base : Option Path) (margin : String) (f : Path) : ∀ ts front : List RefTree,
    linesOf base margin ts = (waysAll front.length ts).map fun way =>
      margin ++ (node f (front ++ ts)).lineAt base way
  | [], _ => rfl
  | t :: ts, front => by
    have hrest := linesOf_eq base margin f ts (front ++ [t])
    rw [List.length_append, List.append_assoc] at hrest
    have hbelow : linesBelow base (margin ++ column ts.isEmpty) t =
        (waysAll 0 t.links).map fun way =>
          margin ++ (node f (front ++ t :: ts)).lineAt base (front.length :: way) := by
      rw [linesBelow_eq base _ t]
      apply List.map_congr_left
      intro way hway
      rw [lineAt_length_cons (ne_nil_of_mem_waysAll hway) (isSome_at?_of_mem_waysAll hway),
        String.append_assoc]
    rw [linesOf, waysAll, ways_eq, List.map_cons, List.cons_append, List.map_cons, List.map_append,
      List.map_map, lineAt_length, hbelow, hrest, String.append_assoc]
    rfl

end

theorem outline_eq (t : RefTree) (base : Option Path) :
    t.outline base = String.join ((t.ways.map (t.lineAt base)).map fun line => line ++ "\n") := by
  simp only [outline, linesBelow_eq, ways_eq, List.map_cons, lineAt_nil, String.empty_append]

/-! ## 3. Reading an outline -/

/-- Columns up to the first branch, as what they say of the nodes, and what comes after it. -/
def readGuide? : List Char → Option (List Bool × List Char)
  | '├' :: '─' :: '─' :: ' ' :: cs => some ([false], cs)
  | '└' :: '─' :: '─' :: ' ' :: cs => some ([true], cs)
  | '│' :: ' ' :: ' ' :: ' ' :: cs => (readGuide? cs).map fun r => (false :: r.1, r.2)
  | ' ' :: ' ' :: ' ' :: ' ' :: cs => (readGuide? cs).map fun r => (true :: r.1, r.2)
  | _ => none

/-- The depth and the name in a line below the root. -/
def readLine? (line : String) : Option (Nat × Path) :=
  (readGuide? line.toList).map fun r => (r.1.length, .ofString (String.ofList r.2))

/-- The tree of an outline, with the names that are shown for files. -/
def ofOutline? (text : String) : Option RefTree :=
  match Text.lines text with
  | [] => none
  | root :: below => (below.mapM readLine?).bind fun items => ofListing? ((0, .ofString root) :: items)

/-- The tree with the names that are shown for files. -/
def shownAs (t : RefTree) (base : Option Path) : RefTree :=
  t.relabel fun f => .ofString (f.display base)

theorem readGuide?_guide (h : flags ≠ []) (name : List Char) :
    readGuide? ((guide flags).toList ++ name) = some (flags, name) := by
  induction flags with
  | nil => exact absurd rfl h
  | cons last flags ih =>
    cases flags with
    | nil => cases last <;> rfl
    | cons next flags =>
      have hrest := ih (List.cons_ne_nil _ _)
      rw [guide_cons (List.cons_ne_nil _ _), String.toList_append, List.append_assoc]
      cases last <;> simp [column, readGuide?, hrest]

/-- The line of a node below the root gives back its depth and its name. -/
theorem readLine?_lineAt {n : RefTree} (hway : way ≠ []) (hat : t.at? way = some n) :
    readLine? (t.lineAt base way) = some (way.length, .ofString (n.file.display base)) := by
  have hlen : (t.lasts way).length = way.length := length_lasts (by rw [hat, Option.isSome_some])
  have hne : t.lasts way ≠ [] := by
    rw [← List.length_pos_iff, hlen]
    exact List.length_pos_iff.mpr hway
  rw [readLine?, lineAt, String.toList_append, readGuide?_guide hne, nameAt_of_at? hat]
  simp [hlen]

theorem mapM_eq_some {α β γ : Type} {g : α → β} {read : β → Option γ} {h : α → γ} {xs : List α}
    (hread : ∀ x ∈ xs, read (g x) = some (h x)) : (xs.map g).mapM read = some (xs.map h) := by
  induction xs with
  | nil => rfl
  | cons x xs ih =>
    have hx := hread x List.mem_cons_self
    have hxs := ih fun y hy => hread y (List.mem_cons_of_mem _ hy)
    rw [List.map_cons, List.map_cons, List.mapM_cons, hx, hxs]
    rfl

/-- No name that is shown has a line feed in it. -/
def OnOneLine (t : RefTree) (base : Option Path) : Prop :=
  ∀ n ∈ t.walk, '\n' ∉ (n.2.file.display base).toList

instance (t : RefTree) (base : Option Path) : Decidable (t.OnOneLine base) :=
  inferInstanceAs (Decidable (∀ _ ∈ _, _))

theorem not_mem_guide (flags : List Bool) : '\n' ∉ (guide flags).toList := by
  induction flags with
  | nil => decide
  | cons last flags ih =>
    cases flags with
    | nil => cases last <;> decide
    | cons next flags =>
      rw [guide_cons (List.cons_ne_nil _ _), String.toList_append, List.mem_append]
      cases last <;> simp [column, ih]

theorem OnOneLine.lines_outline (h : t.OnOneLine base) :
    Text.lines (t.outline base) = t.ways.map (t.lineAt base) := by
  rw [outline_eq]
  apply Text.lines_join
  intro line hline
  obtain ⟨way, hway, rfl⟩ := List.mem_map.mp hline
  obtain ⟨n, hn, -, hat⟩ := exists_mem_walk_of_mem_ways hway
  rw [lineAt, nameAt_of_at? hat, String.toList_append, List.mem_append]
  intro hmem
  cases hmem with
  | inl hguide => exact not_mem_guide _ hguide
  | inr hname => exact h n hn hname

/-- The listing of the tree with the names that are shown. -/
theorem listing_shownAs (t : RefTree) (base : Option Path) : (t.shownAs base).listing 0 =
    t.ways.map fun way => (way.length, .ofString (t.nameAt base way)) := by
  have hwalk := congrArg
    (List.map fun x : Nat × Option RefTree =>
      (x.1, Path.ofString ((x.2.map fun n => n.file.display base).getD "")))
    (map_walk_eq_map_ways t)
  rw [List.map_map, List.map_map, walk_eq_nodes] at hwalk
  rw [shownAs, listing_relabel, ← map_nodes_eq_listing, List.map_map]
  exact hwalk

/-- An outline is read as its tree, with the names that it shows. -/
theorem OnOneLine.ofOutline?_outline (h : t.OnOneLine base) :
    ofOutline? (t.outline base) = some (t.shownAs base) := by
  have hbelow : ((waysAll 0 t.links).map (t.lineAt base)).mapM readLine? =
      some ((waysAll 0 t.links).map fun way => (way.length, .ofString (t.nameAt base way))) := by
    apply mapM_eq_some
    intro way hway
    obtain ⟨n, hat⟩ := Option.isSome_iff_exists.mp (isSome_at?_of_mem_waysAll hway)
    rw [readLine?_lineAt (ne_nil_of_mem_waysAll hway) hat, nameAt_of_at? hat]
  have hlisting := listing_shownAs t base
  rw [ways_eq, List.map_cons] at hlisting
  rw [ofOutline?, h.lines_outline, ways_eq, List.map_cons, lineAt_nil]
  simp only [hbelow, Option.bind_some]
  rw [← ofListing?_listing, hlisting]
  rfl

/-! ## 4. What an outline shows -/

/-- What the text of an outline says of its tree. -/
structure Outlined (t : RefTree) (base : Option Path) (text : String) : Prop where
  /-- Every line is ended. -/
  ended : text = String.join ((Text.lines text).map fun line => line ++ "\n")
  count : (Text.lines text).length = t.nodeCount
  /-- A line for each node of the walk: the guide of the way to it, and its name. -/
  line : ∀ (i : Nat) (n : Nat × RefTree), t.walk[i]? = some n →
    ∃ way, t.ways[i]? = some way ∧ way.length = n.1 ∧ t.at? way = some n.2 ∧
      (Text.lines text)[i]? = some (guide (t.lasts way) ++ n.2.file.display base)

theorem OnOneLine.outlined (h : t.OnOneLine base) : t.Outlined base (t.outline base) := by
  constructor
  case ended =>
    rw [h.lines_outline]
    exact outline_eq t base
  case count => rw [h.lines_outline, List.length_map, length_ways]
  case line =>
    intro i n hn
    obtain ⟨way, hway, hlen, hat⟩ := getElem?_ways_of_walk hn
    refine ⟨way, hway, hlen, hat, ?_⟩
    rw [h.lines_outline, List.getElem?_map, hway, Option.map_some, lineAt, nameAt_of_at? hat]

theorem display_of_shownAs_eq {t' : RefTree} {base' : Option Path}
    (h : t.shownAs base = t'.shownAs base') (way : List Nat) :
    (t.at? way).map (fun n => n.file.display base) =
      (t'.at? way).map fun n => n.file.display base' := by
  have hfile (t : RefTree) (base : Option Path) : ((t.shownAs base).at? way).map file =
      ((t.at? way).map fun n => n.file.display base).map Path.ofString := by
    rw [shownAs, at?_relabel, Option.map_map, Option.map_map]
    simp only [Function.comp_def, file_relabel]
  have hat := congrArg (fun t => (t.at? way).map file) h
  rw [hfile, hfile] at hat
  exact Option.map_injective Path.ofString_injective hat

/-- **An outline can be read.** If no name that is shown has a line feed in it, an outline has a line for
each node of the walk, with a guide and the name, and it is read as the tree, with the names that are
shown. So two trees with one outline have the same shape, and the same names are shown in the same
places. -/
theorem outline_read (h : t.OnOneLine base) :
    t.Outlined base (t.outline base) ∧ ofOutline? (t.outline base) = some (t.shownAs base) ∧
      ∀ (t' : RefTree) (base' : Option Path), t'.OnOneLine base' →
        t'.outline base' = t.outline base → ∀ way,
          (t'.at? way).map (fun n => n.file.display base') =
            (t.at? way).map fun n => n.file.display base := by
  refine ⟨h.outlined, h.ofOutline?_outline, ?_⟩
  intro t' base' h' heq way
  have hread := h'.ofOutline?_outline
  rw [heq, h.ofOutline?_outline] at hread
  exact display_of_shownAs_eq (Option.some.inj hread).symm way

/-- A tree whose names begin with blanks, columns and branches. -/
def lookalikes (root : String) : RefTree :=
  .node (.ofString (root ++ "/r")) [.node (.ofString (root ++ "/│   └── a"))
    [.leaf (.ofString (root ++ "/    b"))], .leaf (.ofString (root ++ "/├── c"))]

/-- It is read as it is, and in another place it has the same outline. -/
theorem outline_read_lookalikes :
    (lookalikes "/p").outline (some (.ofString "/p")) =
        "r\n├── │   └── a\n│   └──     b\n└── ├── c\n" ∧
      ofOutline? "r\n├── │   └── a\n│   └──     b\n└── ├── c\n" =
        some (.node (.ofString "r") [.node (.ofString "│   └── a") [.leaf (.ofString "    b")],
          .leaf (.ofString "├── c")]) ∧
      ∀ way, ((lookalikes "/q").at? way).map (fun n => n.file.display (some (.ofString "/q"))) =
        ((lookalikes "/p").at? way).map fun n => n.file.display (some (.ofString "/p")) := by
  have htext (root : String) (h : root ∈ ["/p", "/q"]) :
      (lookalikes root).outline (some (.ofString root)) =
        "r\n├── │   └── a\n│   └──     b\n└── ├── c\n" := by
    revert root
    decide +kernel
  have hline (root : String) (h : root ∈ ["/p", "/q"]) :
      (lookalikes root).OnOneLine (some (.ofString root)) := by
    revert root
    decide +kernel
  obtain ⟨-, hread, hother⟩ := outline_read (hline "/p" (by simp))
  have hsame := hother (lookalikes "/q") (some (.ofString "/q")) (hline "/q" (by simp))
  rw [htext "/p" (by simp)] at hread hsame
  exact ⟨htext "/p" (by simp), hread.trans (by rfl), hsame (htext "/q" (by simp))⟩

end RefTree
end Citator
