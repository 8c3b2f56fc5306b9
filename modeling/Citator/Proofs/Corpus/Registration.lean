import Mathlib.Data.List.Induction
import Citator.Proofs.Corpus.Memory

/-!
# `Citator.Proofs.Corpus.Registration` — a corpus in memory is a map that keeps its order

Files are registered one after the other, some with a text and some as unreadable, and a file may be
registered again under another spelling of its path. What the corpus then says is fixed by the list of
registrations. The listing goes by the *first* registration of each file, which gives the place and the
spelling. Reading goes by the *last*, which gives the text or the failure.

Both come from one step each: a registration adds its path to the listing unless it is there, and
answers for its own path and for no other.
-/

namespace Citator

open Citator.Path

/-! ## 1. Registrations -/

/-- A file is registered under a path relative to the root, which an absolute path replaces. -/
inductive Registration where
  | file (relative : Path) (content : String)
  | unreadable (relative : Path)
  deriving DecidableEq, Repr

namespace Registration

def relative : Registration → Path
  | .file p _ => p
  | .unreadable p => p

def content? : Registration → Option String
  | .file _ content => some content
  | .unreadable _ => none

/-- The path of the file that is registered. -/
def path (root : Path) (r : Registration) : Path := root.join r.relative

/-- What is read under the path `q` where this registration counts. -/
def answer (q : Path) : Registration → Except ReadFailure String
  | .file _ content => .ok content
  | .unreadable _ => .error ⟨q, .locked⟩

theorem answer_ne_absent (r : Registration) (q : Path) : r.answer q ≠ .error ⟨q, .absent⟩ := by
  cases r with
  | file p content => simp [answer]
  | unreadable p => simp [answer]

end Registration

namespace MemoryCorpus

def register (m : MemoryCorpus) : Registration → MemoryCorpus
  | .file p content => m.withFile p content
  | .unreadable p => m.withUnreadable p

/-- The corpus with nothing in it but what was registered, in order. -/
def registered (root : Path) (rs : List Registration) : MemoryCorpus := rs.foldl register { root }

variable {root p q : Path} {m : MemoryCorpus} {entries : List (Path × Option String)}

/-! ## 2. One registration -/

theorem register_eq (m : MemoryCorpus) (r : Registration) :
    m.register r = m.insert r.relative r.content? := by
  cases r with
  | file p content => rfl
  | unreadable p => rfl

theorem root_register (m : MemoryCorpus) (r : Registration) : (m.register r).root = m.root := by
  rw [register_eq]
  rfl

theorem map_fst_setEntry (p : Path) (content : Option String)
    (entries : List (Path × Option String)) :
    (setEntry p content entries).map (·.1) = keep (entries.map (·.1)) p := by
  induction entries with
  | nil => rfl
  | cons e rest ih =>
    obtain ⟨r, old⟩ := e
    rw [setEntry]
    by_cases hsame : r.Same p
    · have hmem : p.memSame (((r, old) :: rest).map (·.1)) = true :=
        memSame_iff.mpr ⟨r, by simp, hsame⟩
      rw [if_pos hsame, keep_of_memSame hmem]
      rfl
    · rw [if_neg hsame, List.map_cons, ih]
      have hmem : p.memSame (((r, old) :: rest).map (·.1)) = p.memSame (rest.map (·.1)) := by
        simp [memSame, hsame]
      cases h : p.memSame (rest.map (·.1)) with
      | true => rw [keep_of_memSame h, keep_of_memSame (hmem.trans h)]; rfl
      | false => rw [keep_of_not_memSame h, keep_of_not_memSame (hmem.trans h)]; rfl

/-- What is set under a path is found under every spelling of it, and nothing else changes. -/
theorem find?_setEntry (p q : Path) (content : Option String)
    (entries : List (Path × Option String)) :
    find? q (setEntry p content entries) = if p.Same q then some content else find? q entries := by
  induction entries with
  | nil => rfl
  | cons e rest ih =>
    obtain ⟨r, old⟩ := e
    rw [setEntry]
    by_cases hrp : r.Same p
    · rw [if_pos hrp, find?, find?]
      by_cases hrq : r.Same q
      · rw [if_pos hrq, if_pos (hrp.symm.trans hrq)]
      · have hpq : ¬ p.Same q := fun hpq => hrq (hrp.trans hpq)
        rw [if_neg hrq, if_neg hpq, if_neg hrq]
    · rw [if_neg hrp, find?, ih, find?]
      by_cases hrq : r.Same q
      · have hpq : ¬ p.Same q := fun hpq => hrp (hrq.trans hpq.symm)
        rw [if_pos hrq, if_neg hpq, if_pos hrq]
      · rw [if_neg hrq, if_neg hrq]

theorem files_register (m : MemoryCorpus) (r : Registration) :
    (m.register r).files = keep m.files (r.path m.root) := by
  rw [register_eq]
  exact map_fst_setEntry _ _ _

theorem text_eq (m : MemoryCorpus) (q : Path) : m.toCorpus.text q =
    match find? q m.entries with
    | some (some content) => .ok content
    | some none => .error ⟨q, .locked⟩
    | none => .error ⟨q, .absent⟩ := by
  show Except.mapError _ (m.read q) = _
  unfold MemoryCorpus.read
  cases find? q m.entries with
  | none => rfl
  | some content => cases content <;> rfl

theorem text_register (m : MemoryCorpus) (r : Registration) (q : Path) :
    (m.register r).toCorpus.text q =
      if (r.path m.root).Same q then r.answer q else m.toCorpus.text q := by
  have hentries : (m.register r).entries = setEntry (r.path m.root) r.content? m.entries := by
    rw [register_eq]
    rfl
  rw [text_eq, text_eq, hentries, find?_setEntry]
  by_cases hsame : (r.path m.root).Same q
  · rw [if_pos hsame, if_pos hsame]
    cases r with
    | file p content => rfl
    | unreadable p => rfl
  · rw [if_neg hsame, if_neg hsame]

/-! ## 3. All registrations -/

/-- Of the registrations for the file `q`, this one comes last. -/
def IsLast (root q : Path) (rs : List Registration) (r : Registration) : Prop :=
  ∃ before after, rs = before ++ r :: after ∧ (r.path root).Same q ∧
    ∀ s ∈ after, ¬ (s.path root).Same q

/-- The corpus is the map that some registrations stand for. -/
structure IsMapOf (m : MemoryCorpus) (root : Path) (rs : List Registration) : Prop where
  root_eq : m.root = root
  /-- A file has the place and the spelling of its first registration. -/
  files : m.files = distinct (rs.map (·.path root))
  apart : Apart m.files
  /-- A file is read as its last registration says, and otherwise is not there. -/
  text : ∀ q, (∃ r, IsLast root q rs r ∧ m.toCorpus.text q = r.answer q) ∨
    ((∀ r ∈ rs, ¬ (r.path root).Same q) ∧ m.toCorpus.text q = .error ⟨q, .absent⟩)
  /-- Just the listed files are there to be read. -/
  listed : ∀ q, m.toCorpus.text q = .error ⟨q, .absent⟩ ↔ q.memSame m.files = false

theorem registered_append (root : Path) (rs : List Registration) (r : Registration) :
    registered root (rs ++ [r]) = (registered root rs).register r := by
  rw [registered, List.foldl_append]
  rfl

theorem root_registered (root : Path) (rs : List Registration) : (registered root rs).root = root := by
  induction rs using List.reverseRecOn with
  | nil => rfl
  | append_singleton rs r ih => rw [registered_append, root_register, ih]

theorem files_registered (root : Path) (rs : List Registration) :
    (registered root rs).files = distinct (rs.map (·.path root)) := by
  have hkeep : (registered root rs).files = (rs.map (·.path root)).foldl keep [] := by
    induction rs using List.reverseRecOn with
    | nil => rfl
    | append_singleton rs r ih =>
      rw [registered_append, files_register, ih, root_registered, List.map_append, List.foldl_append]
      rfl
  rw [hkeep, foldl_keep_eq]
  simp [memSame]

theorem IsLast.append_singleton {rs : List Registration} {r s : Registration}
    (h : IsLast root q rs r) (hs : ¬ (s.path root).Same q) : IsLast root q (rs ++ [s]) r := by
  obtain ⟨before, after, rfl, hsame, hafter⟩ := h
  refine ⟨before, after ++ [s], by simp, hsame, ?_⟩
  intro t ht
  rcases List.mem_append.mp ht with ht | ht
  · exact hafter t ht
  · rw [List.mem_singleton.mp ht]
    exact hs

/-- The induction is on the registrations from the last one backwards. -/
theorem text_registered (root : Path) (rs : List Registration) (q : Path) :
    (∃ r, IsLast root q rs r ∧ (registered root rs).toCorpus.text q = r.answer q) ∨
      ((∀ r ∈ rs, ¬ (r.path root).Same q) ∧
        (registered root rs).toCorpus.text q = .error ⟨q, .absent⟩) := by
  induction rs using List.reverseRecOn with
  | nil => exact Or.inr ⟨by simp, rfl⟩
  | append_singleton rs s ih =>
    rw [registered_append, text_register, root_registered]
    by_cases hs : (s.path root).Same q
    · rw [if_pos hs]
      exact Or.inl ⟨s, ⟨rs, [], rfl, hs, by simp⟩, rfl⟩
    · rw [if_neg hs]
      cases ih with
      | inl h =>
        obtain ⟨r, hlast, htext⟩ := h
        exact Or.inl ⟨r, hlast.append_singleton hs, htext⟩
      | inr h =>
        obtain ⟨hnone, htext⟩ := h
        refine Or.inr ⟨?_, htext⟩
        intro r hr
        rcases List.mem_append.mp hr with hr | hr
        · exact hnone r hr
        · rw [List.mem_singleton.mp hr]
          exact hs

theorem text_eq_absent_iff (root : Path) (rs : List Registration) (q : Path) :
    (registered root rs).toCorpus.text q = .error ⟨q, .absent⟩ ↔
      q.memSame (registered root rs).files = false := by
  rw [files_registered, memSame_eq_false_iff]
  constructor
  · intro habsent p hp hsame
    obtain ⟨r, hr, rfl⟩ := List.mem_map.mp (mem_of_mem_distinct hp)
    rcases text_registered root rs q with ⟨s, -, hs⟩ | ⟨hnone, -⟩
    · exact s.answer_ne_absent q (hs.symm.trans habsent)
    · exact hnone r hr hsame
  · intro hnone
    rcases text_registered root rs q with ⟨r, ⟨before, after, rfl, hsame, -⟩, -⟩ | ⟨-, habsent⟩
    · -- the file of the registration is listed, in some spelling
      obtain ⟨p, hp, hpr⟩ := exists_same_mem_distinct
        (List.mem_map_of_mem (f := (·.path root)) (List.mem_append_right before List.mem_cons_self))
      exact absurd (hpr.trans hsame) (hnone p hp)
    · exact habsent

/-- **A corpus in memory is the map of its registrations**: the first for a file gives its place and
spelling, the last what is read. Failures name the file as it was asked for. -/
theorem isMapOf_registered (root : Path) (rs : List Registration) :
    (registered root rs).IsMapOf root rs ∧ ∀ q : Path,
      (ReadFailure.mk q .locked).message = "Failed to read " ++ q.shown ++ ": unreadable" ∧
      (ReadFailure.mk q .absent).message = "Failed to read " ++ q.shown ++ ": not in corpus" := by
  refine ⟨?_, fun q => ⟨String.append_assoc .., String.append_assoc ..⟩⟩
  constructor
  case root_eq => exact root_registered root rs
  case files => exact files_registered root rs
  case apart =>
    induction rs using List.reverseRecOn with
    | nil => exact List.Pairwise.nil
    | append_singleton rs r ih =>
      rw [registered_append, register_eq]
      exact apart_setEntry ih
  case text => exact text_registered root rs
  case listed => exact text_eq_absent_iff root rs

end MemoryCorpus
end Citator
