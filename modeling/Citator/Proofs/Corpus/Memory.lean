import Citator.Expansion.Finder
import Citator.Proofs.Path.Join
import Citator.Proofs.Path.Sameness

/-!
# `Citator.Proofs.Corpus.Memory` — what a snapshot of a corpus in memory is like

A corpus in memory is built by insertions, and a snapshot is what could be read of it. However it was
built and whatever could not be read, no two files of the snapshot are the same, and below an absolute
root every file is absolute. `Finder.InMemory` is the situation of a finder over such a snapshot, where
no disk stands behind the paths and a path is its own key. These are its two consequences that matter
to an expansion.
-/

namespace Citator

open Citator.Path

namespace MemoryCorpus

theorem mem_setEntry {path p : Path} {content c : Option String}
    {entries : List (Path × Option String)} (h : (p, c) ∈ setEntry path content entries) :
    p = path ∨ p ∈ entries.map (·.1) := by
  induction entries with
  | nil =>
    simp only [setEntry, List.mem_singleton, Prod.mk.injEq] at h
    exact Or.inl h.1
  | cons e rest ih =>
    obtain ⟨r, old⟩ := e
    rw [setEntry] at h
    split at h
    · rcases List.mem_cons.mp h with h | h
      · exact Or.inr (by simp [(Prod.mk.injEq .. ▸ h).1])
      · exact Or.inr (List.mem_cons_of_mem _ (List.mem_map_of_mem h))
    · rcases List.mem_cons.mp h with h | h
      · exact Or.inr (by simp [(Prod.mk.injEq .. ▸ h).1])
      · exact (ih h).imp id (List.mem_cons_of_mem _)

/-- An insertion keeps the paths apart: it takes the place of an entry with the same path, or comes
behind entries none of which has it. -/
theorem apart_setEntry {path : Path} {content : Option String}
    {entries : List (Path × Option String)} (h : Apart (entries.map (·.1))) :
    Apart ((setEntry path content entries).map (·.1)) := by
  induction entries with
  | nil => exact List.pairwise_singleton _ _
  | cons e rest ih =>
    obtain ⟨r, old⟩ := e
    obtain ⟨hr, hrest⟩ := List.pairwise_cons.mp h
    rw [setEntry]
    split
    · exact h
    · next hne =>
      refine List.pairwise_cons.mpr ⟨fun p hp hsame => ?_, ih hrest⟩
      obtain ⟨⟨p', c⟩, hm, rfl⟩ := List.mem_map.mp hp
      rcases mem_setEntry hm with heq | hm
      · exact hne (heq ▸ hsame)
      · exact hr _ hm hsame

/-- What holds of the corpus without files and is kept by every insertion holds of every corpus in
memory. -/
theorem ofList_induction {P : MemoryCorpus → Prop} {root : Path} (start : P { root })
    (step : ∀ m path content, P m → P (m.insert path content))
    (files : List (Path × Option String)) : P (ofList root files) := by
  unfold ofList
  -- any corpus that has the property keeps it through all insertions
  suffices h : ∀ m, P m → P (files.foldl (fun m f => m.insert f.1 f.2) m) from h _ start
  induction files with
  | nil => exact fun m hm => hm
  | cons f rest ih => exact fun m hm => ih _ (step m f.1 f.2 hm)

theorem root_ofList (root : Path) (files : List (Path × Option String)) :
    (ofList root files).root = root :=
  ofList_induction (P := fun m => m.root = root) rfl (fun _ _ _ h => h) files

theorem apart_files (root : Path) (files : List (Path × Option String)) :
    Apart (ofList root files).files :=
  ofList_induction (P := fun m => Apart m.files) List.Pairwise.nil
    (fun _ _ _ h => apart_setEntry h) files

/-- Below an absolute root every file is absolute, since it was joined to the root. -/
theorem isAbsolute_of_mem_files {root : Path} (habs : root.isAbsolute = true)
    (files : List (Path × Option String)) :
    ∀ p ∈ (ofList root files).files, p.isAbsolute = true := by
  refine (ofList_induction (P := fun m => m.root = root ∧ ∀ p ∈ m.files, p.isAbsolute = true)
    ⟨rfl, by simp [MemoryCorpus.files]⟩ (fun m path content h => ⟨h.1, fun p hp => ?_⟩) files).2
  obtain ⟨⟨p', c⟩, hm, rfl⟩ := List.mem_map.mp hp
  rcases mem_setEntry hm with heq | hm
  · rw [heq, h.1]
    exact isAbsolute_join habs path
  · exact h.2 _ hm

/-- What is read under the path of an entry is what the entry holds. -/
theorem find?_of_mem {p : Path} {content : Option String} {entries : List (Path × Option String)}
    (hap : Apart (entries.map (·.1))) (h : (p, content) ∈ entries) :
    find? p entries = some content := by
  induction entries with
  | nil => exact absurd h (by simp)
  | cons e rest ih =>
    obtain ⟨r, old⟩ := e
    obtain ⟨hr, hrest⟩ := List.pairwise_cons.mp hap
    rw [find?]
    rcases List.mem_cons.mp h with heq | hmem
    · obtain ⟨rfl, rfl⟩ := Prod.mk.inj heq
      rw [if_pos (Same.refl p)]
    · rw [if_neg (hr p (List.mem_map_of_mem hmem)), ih hrest hmem]

/-- The files that can be read, with their texts, in the order of the listing. -/
def sources (m : MemoryCorpus) : List SourceFile :=
  m.entries.filterMap fun e => e.2.map (SourceFile.mk e.1)

end MemoryCorpus

/-! ## Snapshots -/

theorem map_eq_ok_iff {ε α β : Type} {x : Except ε α} {g : α → β} {b : β} :
    x.map g = .ok b ↔ ∃ a, x = .ok a ∧ g a = b := by
  cases x <;> simp [Except.map]

theorem Snapshot.readAll_sublist {read : Path → Except ReadCause String} {policy : ReadPolicy}
    {ps : List Path} {r : List SourceFile × List ReadFailure}
    (h : readAll read policy ps = .ok r) : (r.1.map (·.path)).Sublist ps := by
  induction ps generalizing r with
  | nil =>
    simp only [readAll, Except.ok.injEq] at h
    subst h
    exact List.Sublist.refl _
  | cons p ps ih =>
    rw [readAll] at h
    cases hread : read p with
    | ok content =>
      rw [hread] at h
      obtain ⟨r', hrest, rfl⟩ := map_eq_ok_iff.mp h
      exact (ih hrest).cons_cons p
    | error cause =>
      rw [hread] at h
      cases policy with
      | abort => simp at h
      | skip =>
        obtain ⟨r', hrest, rfl⟩ := map_eq_ok_iff.mp h
        exact (ih hrest).cons p

/-- The files of a snapshot are files that the corpus lists, in the order of the listing. -/
theorem Snapshot.files_sublist_of_load {c : Corpus} {policy : ReadPolicy} {s : Snapshot}
    (h : load c policy = .ok s) : (s.files.map (·.path)).Sublist c.files ∧ s.root = c.root := by
  obtain ⟨r, hr, rfl⟩ := map_eq_ok_iff.mp h
  exact ⟨readAll_sublist hr, rfl⟩

theorem Snapshot.length_readAll {read : Path → Except ReadCause String} {policy : ReadPolicy}
    {ps : List Path} {r : List SourceFile × List ReadFailure}
    (h : readAll read policy ps = .ok r) : r.1.length + r.2.length = ps.length := by
  induction ps generalizing r with
  | nil =>
    simp only [readAll, Except.ok.injEq] at h
    subst h
    rfl
  | cons p ps ih =>
    rw [readAll] at h
    cases hread : read p with
    | ok content =>
      rw [hread] at h
      obtain ⟨r', hrest, rfl⟩ := map_eq_ok_iff.mp h
      have := ih hrest
      simp only [List.length_cons]
      omega
    | error cause =>
      rw [hread] at h
      cases policy with
      | abort => simp at h
      | skip =>
        obtain ⟨r', hrest, rfl⟩ := map_eq_ok_iff.mp h
        have := ih hrest
        simp only [List.length_cons]
        omega

/-- Every listed file was read or left out. -/
theorem Snapshot.length_of_load {c : Corpus} {policy : ReadPolicy} {s : Snapshot}
    (h : load c policy = .ok s) : s.files.length + s.skipped.length = c.files.length := by
  obtain ⟨r, hr, rfl⟩ := map_eq_ok_iff.mp h
  exact length_readAll hr

theorem Snapshot.files_of_readAll {read : Path → Except ReadCause String} {policy : ReadPolicy}
    {entries : List (Path × Option String)} {r : List SourceFile × List ReadFailure}
    (hread : ∀ e ∈ entries, (read e.1).toOption = e.2)
    (h : readAll read policy (entries.map (·.1)) = .ok r) :
    r.1 = entries.filterMap fun e => e.2.map (SourceFile.mk e.1) := by
  induction entries generalizing r with
  | nil =>
    simp only [List.map_nil, readAll, Except.ok.injEq] at h
    subst h
    rfl
  | cons e rest ih =>
    obtain ⟨p, content⟩ := e
    have hp : (read p).toOption = content := hread (p, content) List.mem_cons_self
    have hrest := fun r hr => ih (r := r) (fun e he => hread e (List.mem_cons_of_mem _ he)) hr
    rw [List.map_cons, readAll] at h
    cases hr : read p with
    | ok text =>
      obtain rfl : some text = content := by rw [← hp, hr]; rfl
      rw [hr] at h
      obtain ⟨r', hr', rfl⟩ := map_eq_ok_iff.mp h
      simp [hrest r' hr']
    | error cause =>
      obtain rfl : none = content := by rw [← hp, hr]; rfl
      rw [hr] at h
      cases policy with
      | abort => simp at h
      | skip =>
        obtain ⟨r', hr', rfl⟩ := map_eq_ok_iff.mp h
        simp [hrest r' hr']

/-- A snapshot of a corpus in memory holds the files that can be read, whatever the policy. -/
theorem Snapshot.files_of_load {root : Path} {files : List (Path × Option String)}
    {policy : ReadPolicy} {s : Snapshot}
    (h : load (MemoryCorpus.ofList root files).toCorpus policy = .ok s) :
    s.files = (MemoryCorpus.ofList root files).sources := by
  obtain ⟨r, hr, rfl⟩ := map_eq_ok_iff.mp h
  refine files_of_readAll (fun e he => ?_) hr
  have hfind := MemoryCorpus.find?_of_mem (MemoryCorpus.apart_files root files) he
  simp only [MemoryCorpus.toCorpus, MemoryCorpus.read, hfind]
  cases e.2 <;> rfl

theorem Snapshot.load_eq_of_isSome {c : Corpus} {policy : ReadPolicy} {s : Snapshot}
    (h : (load c policy).toOption.isSome = true) :
    load c policy = .ok ((load c policy).toOption.getD s) := by
  cases hload : load c policy with
  | ok s' => rfl
  | error err => simp [hload, Except.toOption] at h

/-- A finder over a snapshot of a corpus in memory. No disk stands behind its paths, so that a path
is identified by itself. -/
structure Finder.InMemory (f : Finder) : Prop where
  loaded : ∃ root files policy,
    Snapshot.load (MemoryCorpus.ofList root files).toCorpus policy = .ok f.snapshot
  key : f.key = id

/-- The finder over a corpus in memory with the given names and texts, for TypeScript files. -/
def Finder.ofTexts (root : String) (files : List (String × String)) : Finder where
  snapshot :=
    let corpus := MemoryCorpus.ofList (.ofString root) (files.map fun f => (.ofString f.1, some f.2))
    (Snapshot.load corpus.toCorpus .abort).toOption.getD ⟨.ofString root, [], []⟩
  extensions := ["ts"]

theorem Finder.inMemory_ofTexts (root : String) (files : List (String × String)) :
    (ofTexts root files).InMemory := by
  refine ⟨?_, rfl⟩
  simp only [ofTexts]
  cases hload : Snapshot.load (MemoryCorpus.ofList (.ofString root)
      (files.map fun f => (.ofString f.1, some f.2))).toCorpus .abort with
  | ok s => exact ⟨_, _, _, hload⟩
  | error _ => exact ⟨.ofString root, [], .abort, rfl⟩

theorem Finder.InMemory.apart {f : Finder} (hm : f.InMemory) :
    Apart (f.snapshot.files.map (·.path)) := by
  obtain ⟨root, files, policy, hload⟩ := hm.loaded
  exact (MemoryCorpus.apart_files root files).sublist (Snapshot.files_sublist_of_load hload).1

theorem Finder.InMemory.isAbsolute {f : Finder} (hm : f.InMemory)
    (habs : f.snapshot.root.isAbsolute = true) :
    ∀ p ∈ f.snapshot.files.map (·.path), p.isAbsolute = true := by
  obtain ⟨root, files, policy, hload⟩ := hm.loaded
  obtain ⟨hsub, hroot⟩ := Snapshot.files_sublist_of_load hload
  have hr : f.snapshot.root = root := hroot.trans (MemoryCorpus.root_ofList root files)
  exact fun p hp => MemoryCorpus.isAbsolute_of_mem_files (hr ▸ habs) files p (hsub.subset hp)

end Citator
