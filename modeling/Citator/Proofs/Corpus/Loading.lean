import Citator.Proofs.Corpus.Registration

/-!
# `Citator.Proofs.Corpus.Loading` — what is loaded, and what is left out

Loading goes through the listing once. Whether a file is skipped or ends the loading is a matter of
the policy, but what it comes to can be said for both from the two things that a path can yield, a
file or a failure: the files are those of the listing that can be read, the failures the others, and
the loading that aborts ends with the first failure, if there is one.

So a corpus in memory that is loaded without regard to its unreadable files gives the files that it
would give if these had never been registered.
-/

namespace Citator

open Citator.Path

/-! ## 1. A path of the listing -/

namespace Corpus

/-- The file under a path, if it can be read. -/
def file? (c : Corpus) (p : Path) : Option SourceFile :=
  match c.text p with
  | .ok content => some ⟨p, content⟩
  | .error _ => none

/-- Why the file under a path cannot be read, if it cannot. -/
def failure? (c : Corpus) (p : Path) : Option ReadFailure :=
  match c.text p with
  | .ok _ => none
  | .error f => some f

variable {c : Corpus} {p : Path} {g : SourceFile} {x : ReadFailure}

theorem text_eq_read (c : Corpus) (p : Path) :
    c.text p = (c.read p).mapError fun cause => ⟨p, cause⟩ := rfl

theorem file?_eq_some_iff : c.file? p = some g ↔ g.path = p ∧ c.text p = .ok g.content := by
  obtain ⟨q, content⟩ := g
  unfold file?
  cases c.text p with
  | ok content' => simp [eq_comm]
  | error f => simp

theorem failure?_eq_some_iff : c.failure? p = some x ↔ c.text p = .error x := by
  unfold failure?
  cases c.text p with
  | ok content => simp
  | error f => simp

theorem failure?_eq_none_iff : c.failure? p = none ↔ ∃ content, c.text p = .ok content := by
  unfold failure?
  cases c.text p with
  | ok content => simp
  | error f => simp

/-- A failure names the file that was asked for. -/
theorem path_of_text_eq_error (h : c.text p = .error x) : x.path = p := by
  rw [text_eq_read] at h
  cases hread : c.read p with
  | ok content => simp [hread, Except.mapError] at h
  | error cause =>
    rw [hread] at h
    cases h
    rfl

/-- A path yields a file or a failure, and not both. -/
theorem isSome_failure? (c : Corpus) (p : Path) : (c.failure? p).isSome = !(c.file? p).isSome := by
  unfold failure? file?
  cases c.text p with
  | ok content => rfl
  | error f => rfl

end Corpus

namespace Snapshot

variable {c : Corpus} {s : Snapshot} {x : ReadFailure}

/-! ## 2. The listing -/

theorem readAll_skip (c : Corpus) (ps : List Path) :
    readAll c.read .skip ps = .ok (ps.filterMap c.file?, ps.filterMap c.failure?) := by
  induction ps with
  | nil => rfl
  | cons p ps ih =>
    rw [readAll, ih]
    cases hread : c.read p with
    | ok content =>
      have htext : c.text p = .ok content := by rw [Corpus.text_eq_read, hread]; rfl
      simp [Corpus.file?, Corpus.failure?, htext, Except.map]
    | error cause =>
      have htext : c.text p = .error ⟨p, cause⟩ := by rw [Corpus.text_eq_read, hread]; rfl
      simp [Corpus.file?, Corpus.failure?, htext, Except.map]

theorem readAll_abort (c : Corpus) (ps : List Path) :
    readAll c.read .abort ps = match ps.findSome? c.failure? with
      | some x => .error x
      | none => .ok (ps.filterMap c.file?, []) := by
  induction ps with
  | nil => rfl
  | cons p ps ih =>
    rw [readAll, ih]
    cases hread : c.read p with
    | ok content =>
      have htext : c.text p = .ok content := by rw [Corpus.text_eq_read, hread]; rfl
      have hnone : c.failure? p = none := Corpus.failure?_eq_none_iff.mpr ⟨content, htext⟩
      rw [List.findSome?_cons, hnone]
      cases ps.findSome? c.failure? with
      | some x => rfl
      | none => simp [Corpus.file?, htext, Except.map]
    | error cause =>
      have htext : c.text p = .error ⟨p, cause⟩ := by rw [Corpus.text_eq_read, hread]; rfl
      rw [List.findSome?_cons, Corpus.failure?_eq_some_iff.mpr htext]

theorem load_skip (c : Corpus) :
    load c .skip = .ok ⟨c.root, c.files.filterMap c.file?, c.files.filterMap c.failure?⟩ := by
  rw [load, readAll_skip]
  rfl

theorem load_abort (c : Corpus) : load c .abort = match c.files.findSome? c.failure? with
    | some x => .error x
    | none => .ok ⟨c.root, c.files.filterMap c.file?, []⟩ := by
  rw [load, readAll_abort]
  cases c.files.findSome? c.failure? with
  | some x => rfl
  | none => rfl

/-- A snapshot divides a corpus: what is listed was read or left out, as it could be read or not. -/
structure Divides (s : Snapshot) (c : Corpus) : Prop where
  root : s.root = c.root
  files : (s.files.map (·.path)).Sublist c.files
  skipped : (s.skipped.map (·.path)).Sublist c.files
  all : (s.files.map (·.path) ++ s.skipped.map (·.path)).Perm c.files
  text : ∀ g ∈ s.files, c.text g.path = .ok g.content
  failure : ∀ x ∈ s.skipped, c.text x.path = .error x
  unreadable : ∀ p ∈ c.files, p ∈ s.skipped.map (·.path) ↔ ∃ x, c.text p = .error x

/-- Where each result tells what it came from, the results come from what has one. -/
theorem map_filterMap_eq_filter {β : Type} {yields : Path → Option β} {path : β → Path}
    (h : ∀ p x, yields p = some x → path x = p) (ps : List Path) :
    (ps.filterMap yields).map path = ps.filter fun p => (yields p).isSome := by
  induction ps with
  | nil => rfl
  | cons p ps ih =>
    cases hp : yields p with
    | none => rw [List.filterMap_cons_none hp, ih, List.filter_cons_of_neg (by simp [hp])]
    | some x =>
      rw [List.filterMap_cons_some hp, List.filter_cons_of_pos (by simp [hp]), List.map_cons, ih,
        h p x hp]

theorem paths_files (c : Corpus) (ps : List Path) :
    (ps.filterMap c.file?).map (·.path) = ps.filter fun p => (c.file? p).isSome :=
  map_filterMap_eq_filter (fun _ _ hp => (Corpus.file?_eq_some_iff.mp hp).1) ps

theorem paths_failures (c : Corpus) (ps : List Path) :
    (ps.filterMap c.failure?).map (·.path) = ps.filter fun p => !(c.file? p).isSome := by
  simp only [← Corpus.isSome_failure?]
  refine map_filterMap_eq_filter (fun _ _ hp => ?_) ps
  exact Corpus.path_of_text_eq_error (Corpus.failure?_eq_some_iff.mp hp)

theorem divides_of_load_skip (h : load c .skip = .ok s) : s.Divides c := by
  rw [load_skip, Except.ok.injEq] at h
  subst h
  have hskipped : ∀ x ∈ c.files.filterMap c.failure?, c.text x.path = .error x := by
    intro x hx
    obtain ⟨p, -, hp⟩ := List.mem_filterMap.mp hx
    have htext := Corpus.failure?_eq_some_iff.mp hp
    rwa [Corpus.path_of_text_eq_error htext]
  constructor
  case root => rfl
  case files =>
    rw [paths_files]
    exact List.filter_sublist
  case skipped =>
    rw [paths_failures]
    exact List.filter_sublist
  case all =>
    rw [paths_files, paths_failures]
    exact List.filter_append_perm _ _
  case text =>
    intro g hg
    obtain ⟨p, -, hp⟩ := List.mem_filterMap.mp hg
    obtain ⟨rfl, htext⟩ := Corpus.file?_eq_some_iff.mp hp
    exact htext
  case failure => exact hskipped
  case unreadable =>
    intro p hp
    constructor
    · intro hmem
      obtain ⟨x, hx, rfl⟩ := List.mem_map.mp hmem
      exact ⟨x, hskipped x hx⟩
    · rintro ⟨x, hx⟩
      have hpath := Corpus.path_of_text_eq_error hx
      exact List.mem_map.mpr
        ⟨x, List.mem_filterMap.mpr ⟨p, hp, Corpus.failure?_eq_some_iff.mpr hx⟩, hpath⟩

/-! ## 3. The first failure -/

/-- The failure of the first listed file that cannot be read. -/
def IsFirstFailure (c : Corpus) (x : ReadFailure) : Prop :=
  ∃ before p after, c.files = before ++ p :: after ∧ c.text p = .error x ∧
    ∀ q ∈ before, ∃ content, c.text q = .ok content

theorem findSome?_failure?_iff : c.files.findSome? c.failure? = some x ↔ IsFirstFailure c x := by
  rw [List.findSome?_eq_some_iff]
  simp only [IsFirstFailure, Corpus.failure?_eq_some_iff, Corpus.failure?_eq_none_iff]

theorem load_abort_eq_error_iff : load c .abort = .error x ↔ IsFirstFailure c x := by
  rw [load_abort, ← findSome?_failure?_iff]
  cases c.files.findSome? c.failure? with
  | some y => simp
  | none => simp

/-- If a loading that aborts does not fail, it gives what skipping gives, and nothing was skipped. -/
theorem load_abort_eq_ok_iff {s' : Snapshot} (h : load c .skip = .ok s) :
    load c .abort = .ok s' ↔ s' = s ∧ s.skipped = [] := by
  rw [load_skip, Except.ok.injEq] at h
  subst h
  have hnone : c.files.filterMap c.failure? = [] ↔ c.files.findSome? c.failure? = none := by
    rw [List.filterMap_eq_nil_iff, List.findSome?_eq_none_iff]
  rw [load_abort]
  cases hfirst : c.files.findSome? c.failure? with
  | some x => simp [hnone, hfirst]
  | none => simp [hnone.mpr hfirst, eq_comm]

theorem exists_load_abort_eq_error_iff :
    (∃ x, load c .abort = .error x) ↔ ∃ p ∈ c.files, ∃ x, c.text p = .error x := by
  simp only [load_abort_eq_error_iff, ← findSome?_failure?_iff, ← Option.isSome_iff_exists,
    List.findSome?_isSome_iff, ← Corpus.failure?_eq_some_iff]

end Snapshot

/-! ## 4. A corpus in memory -/

namespace MemoryCorpus

variable {root : Path} {entries : List (Path × Option String)}

/-- The corpus without its unreadable files. -/
def readable (m : MemoryCorpus) : MemoryCorpus :=
  { m with entries := m.entries.filter fun e => e.2.isSome }

theorem setEntry_of_not_memSame {p : Path} (content : Option String)
    (h : p.memSame (entries.map (·.1)) = false) :
    setEntry p content entries = entries ++ [(p, content)] := by
  induction entries with
  | nil => rfl
  | cons e rest ih =>
    obtain ⟨q, old⟩ := e
    have hnot := memSame_eq_false_iff.mp h
    rw [setEntry, if_neg (hnot q (by simp)), List.cons_append, ih]
    exact memSame_eq_false_iff.mpr fun r hr => hnot r (List.mem_cons_of_mem _ hr)

theorem ofList_append (root : Path) (files : List (Path × Option String))
    (f : Path × Option String) :
    ofList root (files ++ [f]) = (ofList root files).insert f.1 f.2 := by
  rw [ofList, List.foldl_append]
  rfl

/-- Entries that are apart can be registered one by one, if each path is one below the root. -/
theorem exists_ofList_eq (hap : Apart (entries.map (·.1)))
    (hroot : ∀ e ∈ entries, ∃ relative, root.join relative = e.1) :
    ∃ files, ofList root files = ⟨root, entries⟩ := by
  induction entries using List.reverseRecOn with
  | nil => exact ⟨[], rfl⟩
  | append_singleton entries e ih =>
    rw [List.map_append, List.map_singleton] at hap
    obtain ⟨files, hfiles⟩ := ih (hap.sublist (List.sublist_append_left _ _)) fun d hd =>
      hroot d (List.mem_append_left _ hd)
    obtain ⟨relative, hrelative⟩ := hroot e (by simp)
    have hnew : e.1.memSame (entries.map (·.1)) = false := by
      refine memSame_eq_false_iff.mpr fun q hq => ?_
      exact (List.pairwise_append.mp hap).2.2 q hq e.1 (List.mem_singleton_self _)
    refine ⟨files ++ [(relative, e.2)], ?_⟩
    rw [ofList_append, hfiles, insert]
    simp only [hrelative, setEntry_of_not_memSame e.2 hnew]

theorem exists_join_of_mem (root : Path) (files : List (Path × Option String)) :
    ∀ e ∈ (ofList root files).entries, ∃ relative, root.join relative = e.1 := by
  refine (ofList_induction (P := fun m => m.root = root ∧
    ∀ e ∈ m.entries, ∃ relative, root.join relative = e.1) ⟨rfl, by simp⟩ ?_ files).2
  rintro m path content ⟨hroot, hentries⟩
  refine ⟨hroot, fun e he => ?_⟩
  rcases mem_setEntry (p := e.1) (c := e.2) he with heq | hmem
  · exact ⟨path, by rw [heq, hroot]⟩
  · obtain ⟨d, hd, hde⟩ := List.mem_map.mp hmem
    obtain ⟨relative, hrelative⟩ := hentries d hd
    exact ⟨relative, hrelative.trans hde⟩

/-- What is left without the unreadable files is a corpus that could have been registered. -/
theorem exists_readable_eq (root : Path) (files : List (Path × Option String)) :
    ∃ files', (ofList root files).readable = ofList root files' := by
  have hap : Apart ((ofList root files).readable.entries.map (·.1)) :=
    (apart_files root files).sublist (List.filter_sublist.map _)
  have hroot : ∀ e ∈ (ofList root files).readable.entries, ∃ relative, root.join relative = e.1 :=
    fun e he => exists_join_of_mem root files e (List.mem_filter.mp he).1
  obtain ⟨files', hfiles'⟩ := exists_ofList_eq hap hroot
  refine ⟨files', ?_⟩
  rw [hfiles', readable, root_ofList]

theorem sources_readable (m : MemoryCorpus) : m.readable.sources = m.sources := by
  simp only [sources, readable]
  induction m.entries with
  | nil => rfl
  | cons e rest ih =>
    obtain ⟨p, content⟩ := e
    cases content with
    | none => simpa using ih
    | some content => simpa using ih

/-- What is left can be read. -/
theorem text_readable {files files' : List (Path × Option String)}
    (h : (ofList root files).readable = ofList root files') :
    ∀ p ∈ (ofList root files').files, ∃ content, (ofList root files').toCorpus.text p = .ok content := by
  intro p hp
  obtain ⟨⟨q, content?⟩, he, rfl⟩ := List.mem_map.mp hp
  have hsome : content?.isSome = true := by
    rw [← h] at he
    exact (List.mem_filter.mp he).2
  obtain ⟨content, rfl⟩ := Option.isSome_iff_exists.mp hsome
  refine ⟨content, ?_⟩
  rw [text_eq, find?_of_mem (apart_files root files') he]

/-- Nothing stands in the way of a loading that aborts, once the unreadable files are gone. -/
theorem load_readable (root : Path) (files : List (Path × Option String)) :
    Snapshot.load (ofList root files).readable.toCorpus .abort =
      .ok ⟨root, (ofList root files).sources, []⟩ := by
  obtain ⟨files', hfiles'⟩ := exists_readable_eq root files
  have htext := text_readable hfiles'
  rw [← sources_readable, hfiles']
  have hroot := root_ofList root files'
  have hnone : (ofList root files').toCorpus.files.findSome? (ofList root files').toCorpus.failure? =
      none := by
    rw [List.findSome?_eq_none_iff]
    exact fun p hp => Corpus.failure?_eq_none_iff.mpr (htext p hp)
  have hload := Snapshot.load_abort (ofList root files').toCorpus
  rw [hnone] at hload
  have hsources := Snapshot.files_of_load hload
  rw [hload, ← hsources]
  exact congrArg (fun r => Except.ok (Snapshot.mk r _ [])) hroot

/-- **What is loaded of a corpus in memory.** Skipping divides the listing into files and failures.
Aborting fails with the first failure, and without any it gives the same snapshot. The files are those
that a loading which aborts gives of the corpus without its unreadable files. -/
theorem exists_load_skip (root : Path) (files : List (Path × Option String)) :
    ∃ s, Snapshot.load (ofList root files).toCorpus .skip = .ok s ∧
      s.Divides (ofList root files).toCorpus ∧ Apart (ofList root files).files ∧
      (∀ x, Snapshot.load (ofList root files).toCorpus .abort = .error x ↔
        Snapshot.IsFirstFailure (ofList root files).toCorpus x) ∧
      ((∃ x, Snapshot.load (ofList root files).toCorpus .abort = .error x) ↔
        ∃ p ∈ (ofList root files).files, ∃ x, (ofList root files).toCorpus.text p = .error x) ∧
      (∀ s', Snapshot.load (ofList root files).toCorpus .abort = .ok s' ↔
        s' = s ∧ s.skipped = []) ∧
      (∃ files', (ofList root files).readable = ofList root files') ∧
      Snapshot.load (ofList root files).readable.toCorpus .abort = .ok { s with skipped := [] } := by
  have hload := Snapshot.load_skip (ofList root files).toCorpus
  refine ⟨_, hload, Snapshot.divides_of_load_skip hload, apart_files root files,
    fun x => Snapshot.load_abort_eq_error_iff, Snapshot.exists_load_abort_eq_error_iff,
    fun s' => Snapshot.load_abort_eq_ok_iff hload, exists_readable_eq root files, ?_⟩
  rw [load_readable, ← Snapshot.files_of_load hload]
  exact congrArg (fun r => Except.ok (Snapshot.mk r _ [])) (root_ofList root files).symm

end MemoryCorpus
end Citator
