import Mathlib.Data.List.Nodup
import Citator.Disk.Basic
import Citator.Proofs.Path.Strip

/-!
# `Citator.Proofs.Disk.Tree` — disks that are trees

An entry is a piece of data, and as data it could hold two entries of one name, or a name with a separator in
it, or the name `..`. No disk does. `Entry.WellFormed` excludes it, on every level. It is kept by whatever
puts something on a disk (`Disk.WellFormed.insert`), and every directory that a path leads to has it
(`Disk.WellFormed.locate`): the directories that a path is followed through are kept in a trail, and what
carries the proof is that all of them are well formed and entered under names.

`Entry.Leads` says in what a file lies in a directory: the names of directories, one inside the other, and
then its own. A link is neither, so nothing is reached through one.
-/

namespace Citator

/-! ## 1. Entries -/

mutual

/-- What holds of files and links, and of a directory if it holds of all its entries, holds of every
entry. -/
@[elab_as_elim]
theorem Entry.induction {motive : Entry → Prop} (file : ∀ content, motive (.file content))
    (link : ∀ target, motive (.link target))
    (dir : ∀ entries, (∀ x ∈ entries, motive x.2) → motive (.dir entries)) : ∀ e, motive e
  | .file content => file content
  | .link target => link target
  | .dir entries => dir entries (Entry.inductionAll file link dir entries)

theorem Entry.inductionAll {motive : Entry → Prop} (file : ∀ content, motive (.file content))
    (link : ∀ target, motive (.link target))
    (dir : ∀ entries, (∀ x ∈ entries, motive x.2) → motive (.dir entries)) :
    ∀ entries : Directory, ∀ x ∈ entries, motive x.2
  | [], _, hx => absurd hx List.not_mem_nil
  | (_, e) :: rest, x, hx => by
    cases List.mem_cons.mp hx with
    | inl heq =>
      rw [heq]
      exact Entry.induction file link dir e
    | inr hrest => exact Entry.inductionAll file link dir rest x hrest

end

/-- What a file or a directory can be called. -/
structure IsName (n : Bytes) : Prop where
  slash_not_mem : Path.slash ∉ n
  ordinary : Path.Component.ofSegment? n = some (.name n)

/-- In every directory each entry has a name of its own. -/
inductive Entry.WellFormed : Entry → Prop
  | file (content : Bytes) : WellFormed (.file content)
  | link (target : Path) : WellFormed (.link target)
  | dir {entries : Directory} (nodup : (entries.map (·.1)).Nodup) (isName : ∀ x ∈ entries, IsName x.1)
      (inner : ∀ x ∈ entries, WellFormed x.2) : WellFormed (.dir entries)

/-- The names that lead from an entry to a file, through directories only. -/
inductive Entry.Leads : Entry → List Bytes → Prop
  | file (content : Bytes) : Leads (.file content) []
  | dir {entries : Directory} {name : Bytes} {e : Entry} {ns : List Bytes} (hmem : (name, e) ∈ entries)
      (hrest : Leads e ns) : Leads (.dir entries) (name :: ns)

variable {e : Entry} {entries : Directory} {n : Bytes} {ns : List Bytes}

theorem Entry.WellFormed.inner_of_mem (h : (Entry.dir entries).WellFormed) (hmem : (n, e) ∈ entries) :
    e.WellFormed := by
  cases h with
  | dir nodup isName inner => exact inner _ hmem

theorem Entry.WellFormed.isName_of_mem (h : (Entry.dir entries).WellFormed) (hmem : (n, e) ∈ entries) :
    IsName n := by
  cases h with
  | dir nodup isName inner => exact isName _ hmem

/-- Whatever is reached in a well-formed entry is reached through names, so a path that is put together
from them leads there again. -/
theorem Entry.WellFormed.isName_of_leads (hwf : e.WellFormed) (h : e.Leads ns) : ∀ n ∈ ns, IsName n := by
  induction h with
  | file content =>
    intro n hn
    exact absurd hn List.not_mem_nil
  | dir hmem _ ih =>
    intro n hn
    cases List.mem_cons.mp hn with
    | inl heq =>
      rw [heq]
      exact hwf.isName_of_mem hmem
    | inr hrest => exact ih (hwf.inner_of_mem hmem) n hrest

theorem mem_of_lookup_eq_some (h : entries.lookup n = some e) : (n, e) ∈ entries := by
  obtain ⟨before, after, hentries, -⟩ := List.lookup_eq_some_iff.mp h
  rw [hentries]
  exact List.mem_append_right _ List.mem_cons_self

/-! ## 2. Following a path -/

namespace Disk

/-- The tree of a disk is well formed. -/
def WellFormed (d : Disk) : Prop := (Entry.dir d.top).WellFormed

/-- The names of a place are names, and if it is a directory, it is well formed. -/
inductive Sound : Located → Prop
  | directory {names : List Bytes} {entries : Directory} (isName : ∀ n ∈ names, IsName n)
      (inner : (Entry.dir entries).WellFormed) : Sound (.directory names entries)
  | file {names : List Bytes} {content : Bytes} (isName : ∀ n ∈ names, IsName n) :
    Sound (.file names content)

/-- The directories of a trail are well formed and entered under names. -/
def SoundTrail (trail : List (Bytes × Directory)) : Prop :=
  ∀ x ∈ trail, IsName x.1 ∧ (Entry.dir x.2).WellFormed

variable {top : Directory} {trail : List (Bytes × Directory)} {segs : List Bytes} {l : Located}

theorem soundTrail_nil : SoundTrail [] := by
  intro x hx
  exact absurd hx List.not_mem_nil

theorem SoundTrail.cons (h : SoundTrail trail) (hn : IsName n) (hdir : (Entry.dir entries).WellFormed) :
    SoundTrail ((n, entries) :: trail) := by
  intro x hx
  cases List.mem_cons.mp hx with
  | inl heq =>
    rw [heq]
    exact ⟨hn, hdir⟩
  | inr hold => exact h x hold

theorem SoundTrail.tail (h : SoundTrail trail) : SoundTrail trail.tail := by
  intro x hx
  exact h x (List.mem_of_mem_tail hx)

theorem SoundTrail.isName (h : SoundTrail trail) : ∀ n ∈ namesAlong trail, IsName n := by
  intro n hn
  obtain ⟨x, hx, rfl⟩ := List.mem_map.mp hn
  exact (h x (List.mem_reverse.mp hx)).1

theorem SoundTrail.entriesAt (htop : (Entry.dir top).WellFormed) (h : SoundTrail trail) :
    (Entry.dir (Disk.entriesAt top trail)).WellFormed := by
  cases trail with
  | nil => exact htop
  | cons x rest => exact (h x List.mem_cons_self).2

/-- A segment that is taken for a name is one. -/
theorem isName_of_segment (hslash : Path.slash ∉ n) (htrivial : ¬ (n = [] ∨ n = [Path.dot]))
    (hparent : n ≠ [Path.dot, Path.dot]) : IsName n := by
  refine ⟨hslash, ?_⟩
  unfold Path.Component.ofSegment?
  rw [if_neg htrivial, if_neg hparent]

/-- Segments lead to sound places, if all jumps from links do. -/
theorem sound_followSegments (htop : (Entry.dir top).WellFormed)
    {jump : Option (List (Bytes × Directory) → List Bytes → Except ReadCause Located)}
    (hjump : ∀ follow ∈ jump, ∀ trail segs, SoundTrail trail → (∀ s ∈ segs, Path.slash ∉ s) →
      ∀ l, follow trail segs = .ok l → Sound l)
    (htrail : SoundTrail trail) (hsegs : ∀ s ∈ segs, Path.slash ∉ s)
    (h : followSegments top jump trail segs = .ok l) : Sound l := by
  induction segs generalizing trail with
  | nil =>
    cases h
    exact .directory htrail.isName (htrail.entriesAt htop)
  | cons s rest ih =>
    obtain ⟨hslash, hrest⟩ := List.forall_mem_cons.mp hsegs
    rw [followSegments] at h
    split at h
    · exact ih htrail hrest h
    · next htrivial =>
      split at h
      · exact ih htrail.tail hrest h
      · next hparent =>
        have hs : IsName s := isName_of_segment hslash htrivial hparent
        split at h
        · cases h
        · split at h
          · cases h
          · next entries hlookup =>
            have hinner := (htrail.entriesAt htop).inner_of_mem (mem_of_lookup_eq_some hlookup)
            exact ih (htrail.cons hs hinner) hrest h
          · next content hlookup =>
            split at h
            · cases h
              exact .file (List.forall_mem_append.mpr ⟨htrail.isName, by simpa using hs⟩)
            · cases h
          · next target hlookup =>
            split at h
            · cases h
            · next follow =>
              -- an absolute target starts over, with nothing in the trail
              have hstart : SoundTrail (if target.isAbsolute then [] else trail) := by
                split
                · exact soundTrail_nil
                · exact htrail
              refine hjump follow rfl _ _ hstart ?_ l h
              exact List.forall_mem_append.mpr ⟨Path.slash_not_mem_of_mem_segments _, hrest⟩

/-- The induction is on the number of links that may still be followed: where a link is met, the path
goes on behind its target with one link fewer. -/
theorem sound_follow (htop : (Entry.dir top).WellFormed) (links : Nat) :
    ∀ trail segs, SoundTrail trail → (∀ s ∈ segs, Path.slash ∉ s) →
      ∀ l, follow top links trail segs = .ok l → Sound l := by
  induction links with
  | zero =>
    intro trail segs htrail hsegs l h
    exact sound_followSegments htop (by simp) htrail hsegs h
  | succ links ih =>
    intro trail segs htrail hsegs l h
    refine sound_followSegments htop ?_ htrail hsegs h
    intro follow hfollow
    obtain rfl := Option.some.inj hfollow
    exact ih

/-- On a well-formed disk every path leads to a sound place. -/
theorem WellFormed.locate {d : Disk} (hd : d.WellFormed) {p : Path} (h : d.locate p = .ok l) :
    Sound l := by
  unfold Disk.locate at h
  split at h
  · cases h
  · split at h
    · cases h
    · split at h
      · cases h
      · exact sound_follow hd _ _ _ soundTrail_nil (Path.slash_not_mem_of_mem_segments _) l h

/-- Where a path leads to has names along the way, without `..` and without empty ones, also where the
path has them. -/
theorem WellFormed.isName_of_locate {d : Disk} (hd : d.WellFormed) {p : Path}
    (h : d.locate p = .ok l) : ∀ n ∈ l.names, IsName n := by
  cases hd.locate h with
  | directory isName inner => exact isName
  | file isName => exact isName

theorem WellFormed.directory {d : Disk} (hd : d.WellFormed) {p : Path}
    (h : d.locate p = .ok (.directory ns entries)) : (Entry.dir entries).WellFormed := by
  cases hd.locate h with
  | directory isName inner => exact inner

/-! ## 3. Putting something on a disk -/

theorem mem_putEntry {x : Bytes × Entry} (h : x ∈ putEntry n e entries) : x = (n, e) ∨ x ∈ entries := by
  induction entries with
  | nil => exact Or.inl (List.mem_singleton.mp h)
  | cons y rest ih =>
    obtain ⟨m, old⟩ := y
    rw [putEntry] at h
    split at h
    · next heq =>
      subst heq
      cases List.mem_cons.mp h with
      | inl hnew => exact Or.inl hnew
      | inr hrest => exact Or.inr (List.mem_cons_of_mem _ hrest)
    · cases List.mem_cons.mp h with
      | inl hold =>
        rw [hold]
        exact Or.inr List.mem_cons_self
      | inr hrest => exact (ih hrest).imp_right (List.mem_cons_of_mem _)

theorem map_fst_putEntry (n : Bytes) (e : Entry) (entries : Directory) :
    (putEntry n e entries).map (·.1) =
      if n ∈ entries.map (·.1) then entries.map (·.1) else entries.map (·.1) ++ [n] := by
  induction entries with
  | nil => rfl
  | cons y rest ih =>
    obtain ⟨m, old⟩ := y
    rw [putEntry]
    by_cases hm : m = n
    · simp [hm]
    · rw [if_neg hm, List.map_cons, ih]
      by_cases hrest : n ∈ rest.map (·.1)
      · simp [hrest]
      · simp [hrest, Ne.symm hm]

theorem wellFormed_nil : (Entry.dir []).WellFormed := by
  constructor
  · exact List.nodup_nil
  · simp
  · simp

/-- Nothing is wrong with a disk that has nothing on it. -/
theorem wellFormed_empty : ({} : Disk).WellFormed := wellFormed_nil

/-- An entry replaces one of its name or comes behind the others, so no name is there twice. -/
theorem wellFormed_putEntry (hdir : (Entry.dir entries).WellFormed) (hn : IsName n) (he : e.WellFormed) :
    (Entry.dir (putEntry n e entries)).WellFormed := by
  cases hdir with
  | dir nodup isName inner =>
    constructor
    case nodup =>
      rw [map_fst_putEntry]
      split
      · exact nodup
      · next hnew =>
        rw [← List.concat_eq_append]
        exact nodup.concat hnew
    case isName =>
      intro x hx
      cases mem_putEntry hx with
      | inl heq =>
        rw [heq]
        exact hn
      | inr hold => exact isName x hold
    case inner =>
      intro x hx
      cases mem_putEntry hx with
      | inl heq =>
        rw [heq]
        exact he
      | inr hold => exact inner x hold

/-- Directories on the way are made where they are missing, and what is in the way and is none is
replaced. All of them are entered under names. -/
theorem wellFormed_putAt (he : e.WellFormed) :
    ∀ (ns : List Bytes) (entries : Directory), (∀ n ∈ ns, IsName n) → (Entry.dir entries).WellFormed →
      (Entry.dir (putAt e ns entries)).WellFormed
  | [], entries, _, hdir => hdir
  | [n], entries, hns, hdir => wellFormed_putEntry hdir (hns n List.mem_cons_self) he
  | n :: m :: ns, entries, hns, hdir => by
    have hn : IsName n := hns n List.mem_cons_self
    have hrest : ∀ k ∈ m :: ns, IsName k := fun k hk => hns k (List.mem_cons_of_mem _ hk)
    rw [putAt]
    · split
      · next inner hlookup =>
        have hinner := hdir.inner_of_mem (mem_of_lookup_eq_some hlookup)
        exact wellFormed_putEntry hdir hn (wellFormed_putAt he (m :: ns) inner hrest hinner)
      · exact wellFormed_putEntry hdir hn (wellFormed_putAt he (m :: ns) [] hrest wellFormed_nil)
    · simp

theorem isName_of_mem_namesOf {p : Path} (h : n ∈ namesOf p) : IsName n := by
  obtain ⟨c, hc, hname⟩ := List.mem_filterMap.mp h
  have hcomponent : c = .name n := by
    cases c with
    | name m => exact congrArg _ (Option.some.inj hname)
    | root => cases hname
    | current => cases hname
    | parent => cases hname
  rw [hcomponent, Path.components_eq, List.mem_append] at hc
  cases hc with
  | inl hfirst =>
    exact absurd (Option.mem_toList.mp hfirst) (p.first?_ne_name n)
  | inr hordinary =>
    obtain ⟨s, hs, hsegment⟩ := List.mem_filterMap.mp hordinary
    have hslash := Path.slash_not_mem_of_mem_segments _ s hs
    unfold Path.Component.ofSegment? at hsegment
    split at hsegment
    · cases hsegment
    · next htrivial =>
      split at hsegment
      · cases hsegment
      · next hparent =>
        cases hsegment
        exact isName_of_segment hslash htrivial hparent

/-- **A disk stays well formed** when something well formed is put on it, wherever that may be. -/
theorem WellFormed.insert {d : Disk} (hd : d.WellFormed) (p : Path) (he : e.WellFormed) :
    (d.insert p e).WellFormed := by
  unfold Disk.insert
  split
  · exact hd
  · next name above habove =>
    have hnames : ∀ n ∈ above.reverse ++ [name], IsName n := by
      rw [← List.reverse_cons, ← habove, List.reverse_reverse]
      exact fun n hn => isName_of_mem_namesOf hn
    obtain ⟨habove, hname⟩ := List.forall_mem_append.mp hnames
    have hput : ∀ parent, (∀ n ∈ parent, IsName n) →
        ({ d with top := putAt e (parent ++ [name]) d.top } : Disk).WellFormed := by
      intro parent hparent
      exact wellFormed_putAt he _ d.top (List.forall_mem_append.mpr ⟨hparent, hname⟩) hd
    dsimp only
    split
    · split
      · -- a directory that is there already
        exact hd
      · apply hput
        split
        · next hlocate => exact hd.isName_of_locate hlocate
        · exact habove
    · apply hput
      split
      · next hlocate => exact hd.isName_of_locate hlocate
      · exact habove

end Disk
end Citator
