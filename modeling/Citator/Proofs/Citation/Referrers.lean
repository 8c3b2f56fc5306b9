import Citator.Citation.Search
import Citator.Proofs.Path.Join

/-!
# `Citator.Proofs.Citation.Referrers` — what a search depends on, and what it finds

A search finds files of the snapshot, in the snapshot's order, each at most as often as it is there.
It asks nothing of its target but the file name, so two targets with one file name have the same
referrers; and a target without a file name has no token.
-/

namespace Citator

open Citator.Path

namespace Citation

theorem tokenChars_nil (exts : List String) : tokenChars exts [] = [] := by
  unfold tokenChars
  have hnone : exts.findSome? (fun e => beforeEnd? [] ('.' :: e.toList)) = none := by
    refine List.findSome?_eq_none_iff.mpr fun e _ => ?_
    simp [beforeEnd?, List.isSuffixOf]
  rw [hnone]
  rfl

theorem token_congr {exts : List String} {p q : Path} {token : String}
    (hname : p.fileName? = q.fileName?) (h : Citation.token exts p = .ok token) :
    Citation.token exts q = .ok token := by
  unfold Citation.token nameShown at h ⊢
  rw [← hname]
  cases hcs : tokenChars exts ((p.fileName?.map Utf8.lossy).getD "").toList with
  | nil => simp [hcs] at h
  | cons c cs => simpa [hcs] using h

theorem exists_fileName_of_token {exts : List String} {p : Path} {token : String}
    (h : Citation.token exts p = .ok token) : ∃ n, p.fileName? = some n := by
  cases hn : p.fileName? with
  | some n => exact ⟨n, rfl⟩
  | none =>
    unfold Citation.token nameShown at h
    simp [hn, tokenChars_nil] at h

end Citation

namespace Snapshot

variable {s : Snapshot} {exts : List String} {p q : Path} {found : List Path}

theorem referrers_eq_ok_iff : s.referrers exts p = .ok found ↔
    ∃ token, Citation.token (Extension.kept exts) p = .ok token ∧
      (s.files.filter fun f => Citation.cites token.toList
        (Citation.endings (Extension.kept exts)) f.content.toList).map (·.path) = found := by
  unfold referrers citations
  cases ht : Citation.token (Extension.kept exts) p with
  | error e => simp [ht, Except.map]
  | ok token => simp [ht, Except.map]

/-- The referrers of a file are files of the snapshot, in the snapshot's order. -/
theorem referrers_sublist (h : s.referrers exts p = .ok found) :
    found.Sublist (s.files.map (·.path)) := by
  obtain ⟨token, -, rfl⟩ := referrers_eq_ok_iff.mp h
  exact List.filter_sublist.map _

/-- Whether a search fails, and how, does not depend on the snapshot. -/
theorem referrers_eq_error_iff {err : EmptyTarget} : s.referrers exts p = .error err ↔
    Citation.token (Extension.kept exts) p = .error err := by
  unfold referrers citations
  cases ht : Citation.token (Extension.kept exts) p with
  | error e => simp [ht, Except.map]
  | ok token => simp [ht, Except.map]

/-- In another order of the same files the same are found. -/
theorem referrers_perm {s' : Snapshot} (hp : s.files.Perm s'.files)
    (h : s.referrers exts p = .ok found) :
    ∃ found', s'.referrers exts p = .ok found' ∧ found.Perm found' := by
  obtain ⟨token, ht, rfl⟩ := referrers_eq_ok_iff.mp h
  exact ⟨_, referrers_eq_ok_iff.mpr ⟨token, ht, rfl⟩, (hp.filter _).map _⟩

theorem referrers_congr (hname : p.fileName? = q.fileName?) (h : s.referrers exts p = .ok found) :
    s.referrers exts q = .ok found := by
  obtain ⟨token, ht, hfound⟩ := referrers_eq_ok_iff.mp h
  exact referrers_eq_ok_iff.mpr ⟨token, Citation.token_congr hname ht, hfound⟩

theorem exists_fileName_of_referrers (h : s.referrers exts p = .ok found) :
    ∃ n, p.fileName? = some n := by
  obtain ⟨token, ht, -⟩ := referrers_eq_ok_iff.mp h
  exact Citation.exists_fileName_of_token ht

end Snapshot
end Citator
