import Citator.Proofs.Disk.Tree
import Citator.Scan

/-!
# `Citator.Proofs.Scan.Walk` — what a scan meets, and in what order

A scan goes down the directories below a root, sorts the entries of each by name, and asks a glob about every
file that it meets. `Lists` says the same without going anywhere: names lead through directories to a file,
the glob takes them, and no name on the way is hidden, if that counts.

Each directory is sorted by itself, and what lies in it comes in its place. So the whole list is in one order,
that of the names compared one after the other: where two files part, the directory that they part in has
two entries, and those are in order. Since no two entries of a directory have one name, no file is listed
twice.
-/

namespace Citator.Scanner

/-! ## 1. Which files are listed -/

variable {s : Scanner} {d : Disk} {layers : List IgnoreLayer} {entries : Directory} {e : Entry}
  {name : Bytes} {above ns ms rootNames : List Bytes}

/-- Whether a scanner that does not mind ignore files takes an entry with this name. -/
def Shows (s : Scanner) (name : Bytes) : Prop := s.includeHidden = true ∨ name.head? ≠ some Path.dot

/-- The names lead through an entry, whose own names they start with, to a file that is listed. -/
def Lists (s : Scanner) (above : List Bytes) (e : Entry) (ns : List Bytes) : Prop :=
  ∃ rest, ns = above ++ rest ∧ e.Leads rest ∧ (∀ n ∈ rest, s.Shows n) ∧
    s.glob.isMatch ⟨Path.unite ns⟩ = true

theorem lists_file_iff {content : Bytes} :
    s.Lists above (.file content) ns ↔ ns = above ∧ s.glob.isMatch ⟨Path.unite ns⟩ = true := by
  constructor
  · intro h
    obtain ⟨rest, hns, hleads, -, hmatch⟩ := h
    cases hleads
    rw [List.append_nil] at hns
    exact ⟨hns, hmatch⟩
  · intro h
    refine ⟨[], ?_, .file content, ?_, h.2⟩
    · rw [List.append_nil]
      exact h.1
    · simp

theorem not_lists_link {target : Path} : ¬ s.Lists above (.link target) ns := by
  intro h
  obtain ⟨rest, -, hleads, -⟩ := h
  cases hleads

theorem lists_dir_iff :
    s.Lists above (.dir entries) ns ↔ ∃ x ∈ entries, s.Shows x.1 ∧ s.Lists (above ++ [x.1]) x.2 ns := by
  constructor
  · intro h
    obtain ⟨rest, hns, hleads, hshows, hmatch⟩ := h
    cases hleads with
    | dir hmem hrest =>
      rw [List.forall_mem_cons] at hshows
      rw [List.append_cons] at hns
      exact ⟨_, hmem, hshows.1, _, hns, hrest, hshows.2, hmatch⟩
  · intro h
    obtain ⟨⟨n, e⟩, hmem, hshows, rest, hns, hrest, hall, hmatch⟩ := h
    refine ⟨n :: rest, ?_, .dir hmem hrest, List.forall_mem_cons.mpr ⟨hshows, hall⟩, hmatch⟩
    rw [List.append_cons]
    exact hns

theorem admits_nil_iff (isDir : Bool) : s.admits [] name isDir = true ↔ s.Shows name := by
  have hruling : IgnoreLayer.rulingOf? [] name isDir = none := rfl
  unfold admits Shows isHidden
  rw [hruling]
  simp

/-- Where ignore files do not count, none is read on the way down. The scan has then no layers in any
directory, and what an entry contributes depends on the entry alone. -/
theorem withLayer_eq_nil (hs : s.respectIgnores = false) (names : List Bytes) :
    s.withLayer d names layers = [] := by
  unfold withLayer
  rw [hs]
  rfl

theorem filesIn_eq_map (s : Scanner) (d : Disk) (layers : List IgnoreLayer) (above : List Bytes)
    (entries : Directory) : s.filesIn d layers above entries =
      entries.map fun x => (x.1, s.filesAt d layers above x.1 x.2) := by
  induction entries with
  | nil => rw [filesIn, List.map_nil]
  | cons x rest ih =>
    obtain ⟨n, e⟩ := x
    rw [filesIn, ih, List.map_cons]

theorem mem_inOrder {α : Type} {a : α} {parts : List (Bytes × List α)} :
    a ∈ inOrder parts ↔ ∃ x ∈ parts, a ∈ x.2 := by
  unfold inOrder
  rw [List.mem_flatMap]
  simp only [(List.mergeSort_perm _ _).mem_iff]

theorem mem_inOrder_filesIn_iff : ns ∈ inOrder (s.filesIn d layers above entries) ↔
    ∃ x ∈ entries, ns ∈ s.filesAt d layers above x.1 x.2 := by
  rw [mem_inOrder, filesIn_eq_map]
  simp

/-- An entry contributes what is listed through it, if its own name is taken. -/
theorem mem_filesAt_iff (hs : s.respectIgnores = false) (e : Entry) (above : List Bytes) (name : Bytes) :
    ns ∈ s.filesAt d [] above name e ↔ s.Shows name ∧ s.Lists (above ++ [name]) e ns := by
  induction e using Entry.induction generalizing above name with
  | file content =>
    rw [filesAt, lists_file_iff, ← admits_nil_iff false]
    split
    · next h =>
      rw [Bool.and_eq_true] at h
      rw [List.mem_singleton]
      constructor
      · intro hns
        subst hns
        exact ⟨h.1, rfl, h.2⟩
      · intro hlists
        exact hlists.2.1
    · next h =>
      simp only [List.not_mem_nil, false_iff]
      intro hlists
      obtain ⟨hadmits, rfl, hmatch⟩ := hlists
      exact h (Bool.and_eq_true_iff.mpr ⟨hadmits, hmatch⟩)
  | link target =>
    rw [filesAt]
    simp [not_lists_link]
  | dir entries ih =>
    rw [filesAt, lists_dir_iff, ← admits_nil_iff true, List.map_nil, withLayer_eq_nil hs]
    split
    · next hadmits =>
      rw [mem_inOrder_filesIn_iff, and_iff_right hadmits]
      exact exists_congr fun x => and_congr_right fun hx => ih x hx _ _
    · next hadmits => simp [hadmits]

/-! ## 2. The order -/

/-- Names that go on from different names of one directory are in the order of these. -/
theorem lt_of_isPrefix {n m : Bytes} (hlt : n < m) (hns : above ++ [n] <+: ns) (hms : above ++ [m] <+: ms) :
    ns < ms := by
  obtain ⟨rest, rfl⟩ := hns
  obtain ⟨rest', rfl⟩ := hms
  rw [← List.append_cons, ← List.append_cons]
  exact List.append_left_lt (List.cons_lt_cons_iff.mpr (Or.inl hlt))

/-- Sorting gives an order that may hold equal keys next to each other. Names of one directory are
different, so here it is strict. -/
theorem pairwise_mergeSort_of_nodup {α : Type} {parts : List (Bytes × α)}
    (hkeys : (parts.map (·.1)).Nodup) :
    (parts.mergeSort fun a b => decide (a.1 ≤ b.1)).Pairwise fun a b => a.1 < b.1 := by
  have htrans : ∀ a b c : Bytes × α, decide (a.1 ≤ b.1) = true → decide (b.1 ≤ c.1) = true →
      decide (a.1 ≤ c.1) = true := by
    intro a b c hab hbc
    rw [decide_eq_true_eq] at hab hbc ⊢
    exact Std.le_trans hab hbc
  have htotal : ∀ a b : Bytes × α, (decide (a.1 ≤ b.1) || decide (b.1 ≤ a.1)) = true := by
    intro a b
    rw [Bool.or_eq_true, decide_eq_true_eq, decide_eq_true_eq]
    exact Std.le_total
  have hle := List.pairwise_mergeSort htrans htotal parts
  have hne : (parts.mergeSort fun a b => decide (a.1 ≤ b.1)).Pairwise fun a b => a.1 ≠ b.1 :=
    List.pairwise_map.mp (((List.mergeSort_perm _ _).map _).nodup_iff.mpr hkeys)
  exact hle.imp₂ (fun a b hab hab' => Std.lt_of_le_of_ne (of_decide_eq_true hab) hab') hne

/-- Parts in order make a whole in order, if each holds names that start with its own. -/
theorem pairwise_inOrder (above : List Bytes) {parts : List (Bytes × List (List Bytes))}
    (hkeys : (parts.map (·.1)).Nodup) (hstart : ∀ x ∈ parts, ∀ ns ∈ x.2, above ++ [x.1] <+: ns)
    (hparts : ∀ x ∈ parts, x.2.Pairwise (· < ·)) : (inOrder parts).Pairwise (· < ·) := by
  have hmem (x : Bytes × List (List Bytes)) :
      x ∈ parts.mergeSort (fun a b => decide (a.1 ≤ b.1)) → x ∈ parts :=
    (List.mergeSort_perm _ _).mem_iff.mp
  unfold inOrder
  rw [List.pairwise_flatMap]
  constructor
  · intro x hx
    exact hparts x (hmem x hx)
  · refine (pairwise_mergeSort_of_nodup hkeys).imp_of_mem ?_
    intro a b ha hb hlt ns hns ms hms
    exact lt_of_isPrefix hlt (hstart a (hmem a ha) ns hns) (hstart b (hmem b hb) ms hms)

/-- What an entry contributes starts with its names. -/
theorem isPrefix_of_mem_filesAt (e : Entry) (layers : List IgnoreLayer) (above : List Bytes)
    (name : Bytes) : ∀ ns ∈ s.filesAt d layers above name e, above ++ [name] <+: ns := by
  induction e using Entry.induction generalizing layers above name with
  | file content =>
    intro ns hns
    rw [filesAt] at hns
    split at hns
    · obtain rfl := List.mem_singleton.mp hns
      exact List.prefix_rfl
    · exact absurd hns List.not_mem_nil
  | link target =>
    intro ns hns
    rw [filesAt] at hns
    exact absurd hns List.not_mem_nil
  | dir entries ih =>
    intro ns hns
    rw [filesAt] at hns
    split at hns
    · obtain ⟨x, hx, hxns⟩ := mem_inOrder_filesIn_iff.mp hns
      exact (List.prefix_append _ _).trans (ih x hx _ _ _ ns hxns)
    · exact absurd hns List.not_mem_nil

theorem pairwise_inOrder_filesIn (hnodup : (entries.map (·.1)).Nodup)
    (h : ∀ x ∈ entries, (s.filesAt d layers above x.1 x.2).Pairwise (· < ·)) :
    (inOrder (s.filesIn d layers above entries)).Pairwise (· < ·) := by
  rw [filesIn_eq_map]
  refine pairwise_inOrder above ?_ ?_ ?_
  · rw [List.map_map]
    exact hnodup
  · intro x hx
    obtain ⟨y, -, rfl⟩ := List.mem_map.mp hx
    exact isPrefix_of_mem_filesAt y.2 layers above y.1
  · intro x hx
    obtain ⟨y, hy, rfl⟩ := List.mem_map.mp hx
    exact h y hy

/-- **What an entry contributes is in order.** The induction is on the entry: a directory sorts its
parts, and each of them is in order by itself. -/
theorem pairwise_filesAt (hwf : e.WellFormed) (layers : List IgnoreLayer) (above : List Bytes)
    (name : Bytes) : (s.filesAt d layers above name e).Pairwise (· < ·) := by
  induction hwf generalizing layers above name with
  | file content =>
    rw [filesAt]
    split
    · exact List.pairwise_singleton _ _
    · exact List.Pairwise.nil
  | link target =>
    rw [filesAt]
    exact List.Pairwise.nil
  | dir nodup isName inner ih =>
    rw [filesAt]
    split
    · exact pairwise_inOrder_filesIn nodup fun x hx => ih x hx _ _ _
    · exact List.Pairwise.nil

/-! ## 3. The whole list -/

theorem names_eq (hs : s.respectIgnores = false)
    (hroot : d.locate s.root = .ok (.directory rootNames entries)) :
    s.names d = inOrder (s.filesIn d [] [] entries) := by
  unfold names
  rw [hroot]
  simp only [withLayer_eq_nil hs]

theorem list_eq (hs : s.respectIgnores = false) : s.list d = .ok (s.files d) := by
  have hfaults : s.faults d = [] := by
    unfold faults layersAbove
    rw [hs]
    split
    · rfl
    · rfl
  unfold list
  rw [hfaults]

theorem mem_names_iff (hs : s.respectIgnores = false)
    (hroot : d.locate s.root = .ok (.directory rootNames entries)) :
    ns ∈ s.names d ↔ s.Lists [] (.dir entries) ns := by
  rw [names_eq hs hroot, mem_inOrder_filesIn_iff, lists_dir_iff]
  exact exists_congr fun x => and_congr_right fun _ => mem_filesAt_iff hs x.2 [] x.1

theorem pairwise_names (hs : s.respectIgnores = false)
    (hroot : d.locate s.root = .ok (.directory rootNames entries)) (hwf : (Entry.dir entries).WellFormed) :
    (s.names d).Pairwise (· < ·) := by
  rw [names_eq hs hroot]
  cases hwf with
  | dir nodup isName inner =>
    exact pairwise_inOrder_filesIn nodup fun x hx => pairwise_filesAt (inner x hx) _ _ _

end Citator.Scanner
