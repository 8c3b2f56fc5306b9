import Mathlib.Data.List.Nodup
import Citator.Proofs.Text.Blank
import Citator.Settings.Basic

/-!
# `Citator.Proofs.Corpus.Extension` — extensions that are made bare more than once

An extension is made bare in two steps, blanks first and dots second, and the settings hand a search
extensions that are bare already, which it makes bare once more. If that changed nothing, the scan and
the search would go by the same extensions.

It changes just the *gapped* ones. In `". ts"` the dot keeps the blank from being trimmed, and once the
dot is gone a blank stands in front. So `" ts"` is what is scanned for, and `"ts"` what is searched
for. Everything else that is wanted of a list of extensions holds for every list.
-/

namespace Citator.Extension

open Text

variable {e ext : String} {es exts : List String}

/-! ## 1. One extension -/

/-- Without the blanks around it the extension has dots in front, and a blank behind them. -/
def Gapped (ext : String) : Prop :=
  ∃ n c rest, trimmed ext.toList = List.replicate (n + 1) '.' ++ c :: rest ∧ isBlank c = true

theorem toList_bare (ext : String) :
    (bare ext).toList = (trimmed ext.toList).dropWhile fun c => c == '.' := by
  rw [bare, String.toList_ofList]

theorem bare_eq_self_iff_toList :
    bare e = e ↔ (trimmed e.toList).dropWhile (fun c => c == '.') = e.toList := by
  rw [← toList_bare, String.toList_inj]

theorem head?_bare_ne_dot (ext : String) : (bare ext).toList.head? ≠ some '.' := by
  intro h
  have hdrop := List.head?_dropWhile_not (fun c => c == '.') (trimmed ext.toList)
  rw [← toList_bare, h] at hdrop
  exact absurd hdrop (by decide)

theorem endsTight_bare (ext : String) : EndsTight (bare ext).toList := by
  rw [toList_bare]
  exact (endsTight_trimmed _).of_suffix (List.dropWhile_suffix _)

/-- What is left behind the dots starts with a blank just where there is a gap. -/
theorem startsTight_bare_iff : StartsTight (bare ext).toList ↔ ¬ Gapped ext := by
  constructor
  · rintro hstart ⟨n, c, rest, htrimmed, hc⟩
    -- the blank is no dot, so it is what the dots uncover
    have hdot : (c == '.') = false := by
      rw [beq_eq_false_iff_ne]
      rintro rfl
      exact absurd hc (by decide)
    rw [toList_bare, htrimmed, List.dropWhile_append_of_pos (by simp), List.dropWhile_cons, hdot,
      if_neg Bool.false_ne_true, startsTight_cons, hc] at hstart
    exact Bool.noConfusion hstart
  · intro hgap c hc
    by_contra hblank
    rw [toList_bare] at hc
    obtain ⟨rest, hrest⟩ := List.head?_eq_some_iff.mp hc
    have hsplit := (List.takeWhile_append_dropWhile (p := fun c => c == '.')
      (l := trimmed ext.toList)).symm
    have hdots : (trimmed ext.toList).takeWhile (fun c => c == '.') =
        List.replicate ((trimmed ext.toList).takeWhile fun c => c == '.').length '.' := by
      refine List.eq_replicate_of_mem fun d hd => ?_
      exact beq_iff_eq.mp (List.all_eq_true.mp List.all_takeWhile d hd)
    rw [hrest, hdots] at hsplit
    cases hn : ((trimmed ext.toList).takeWhile fun c => c == '.').length with
    | zero =>
      -- without a dot the blank would stand in front of what was trimmed
      rw [hn] at hsplit
      have hstart := startsTight_trimmed ext.toList
      rw [hsplit, List.replicate_zero, List.nil_append, startsTight_cons] at hstart
      exact hblank hstart
    | succ n =>
      rw [hn] at hsplit
      exact hgap ⟨n, c, rest, hsplit, by simpa using hblank⟩

/-- Where neither a dot nor a blank is left to be taken away, none is. -/
theorem bare_eq_self_iff (hdot : e.toList.head? ≠ some '.') (hend : EndsTight e.toList) :
    bare e = e ↔ StartsTight e.toList := by
  rw [bare_eq_self_iff_toList]
  constructor
  · intro h
    -- two things were taken away, one after the other, and nothing is missing
    have hdrop : e.toList.Sublist (trimmed e.toList) := by
      conv_lhs => rw [← h]
      exact List.dropWhile_sublist _
    have htrimmed := (trimmed_sublist e.toList).antisymm hdrop
    exact (trimmed_eq_self_iff.mp htrimmed).1
  · intro hstart
    rw [trimmed_eq_self_iff.mpr ⟨hstart, hend⟩]
    cases hcs : e.toList with
    | nil => rfl
    | cons c cs =>
      rw [hcs, List.head?_cons, ne_eq, Option.some.injEq] at hdot
      exact List.dropWhile_cons_of_neg (by simpa using hdot)

/-! ## 2. Lists without repetitions -/

theorem eraseDups_sublist : ∀ es : List String, es.eraseDups.Sublist es
  | [] => List.Sublist.refl _
  | e :: es => by
    rw [List.eraseDups_cons]
    exact ((eraseDups_sublist _).trans List.filter_sublist).cons_cons e
  termination_by es => es.length
  decreasing_by exact Nat.lt_succ_of_le (List.length_filter_le _ _)

theorem nodup_eraseDups : ∀ es : List String, es.eraseDups.Nodup
  | [] => List.nodup_nil
  | e :: es => by
    rw [List.eraseDups_cons]
    refine List.nodup_cons.mpr ⟨?_, nodup_eraseDups _⟩
    rw [List.mem_eraseDups, List.mem_filter]
    simp
  termination_by es => es.length
  decreasing_by exact Nat.lt_succ_of_le (List.length_filter_le _ _)

theorem eraseDups_of_nodup (h : es.Nodup) : es.eraseDups = es := by
  induction es with
  | nil => rfl
  | cons e es ih =>
    obtain ⟨hnot, hrest⟩ := List.nodup_cons.mp h
    have hall : es.filter (fun d => !d == e) = es := by
      refine List.filter_eq_self.mpr fun d hd => ?_
      rw [Bool.not_eq_true', beq_eq_false_iff_ne]
      rintro rfl
      exact hnot hd
    rw [List.eraseDups_cons, hall, ih hrest]

/-! ## 3. All extensions -/

/-- What every list of extensions is that was normalized once. -/
structure Normal (es : List String) : Prop where
  nonempty : ∀ e ∈ es, e ≠ ""
  nodup : es.Nodup
  noDot : ∀ e ∈ es, e.toList.head? ≠ some '.'
  endsTight : ∀ e ∈ es, EndsTight e.toList

theorem mem_normalize_iff : e ∈ normalize exts ↔ e ≠ "" ∧ ∃ ext ∈ exts, bare ext = e := by
  rw [normalize, List.mem_eraseDups, kept, List.mem_filter, List.mem_map, bne_iff_ne, and_comm]

theorem normal_normalize (exts : List String) : Normal (normalize exts) := by
  constructor
  case nonempty =>
    intro e he
    exact (mem_normalize_iff.mp he).1
  case nodup => exact nodup_eraseDups _
  case noDot =>
    intro e he
    obtain ⟨-, ext, -, rfl⟩ := mem_normalize_iff.mp he
    exact head?_bare_ne_dot ext
  case endsTight =>
    intro e he
    obtain ⟨-, ext, -, rfl⟩ := mem_normalize_iff.mp he
    exact endsTight_bare ext

theorem Normal.startsTight_iff (h : Normal es) :
    (∀ e ∈ es, StartsTight e.toList) ↔ ∀ e ∈ es, bare e = e :=
  forall₂_congr fun e he => (bare_eq_self_iff (h.noDot e he) (h.endsTight e he)).symm

theorem kept_eq_self (hne : ∀ e ∈ es, e ≠ "") (h : ∀ e ∈ es, bare e = e) : kept es = es := by
  have hmap : es.map bare = es := by
    rw [List.map_congr_left h, List.map_id']
  rw [kept, hmap]
  exact List.filter_eq_self.mpr fun e he => bne_iff_ne.mpr (hne e he)

/-- If the extensions are among those that were kept, then none was changed: no more are kept than
were there. -/
theorem bare_eq_self_of_sublist (h : es.Sublist (kept es)) : ∀ e ∈ es, bare e = e := by
  have hmap : es.map id = es.map bare := by
    rw [List.map_id]
    exact (h.trans List.filter_sublist).eq_of_length (List.length_map _).symm
  exact fun e he => (List.map_inj_left.mp hmap e he).symm

/-- What a search makes of a list that was normalized, -/
theorem Normal.kept_eq_self_iff (h : Normal es) :
    kept es = es ↔ ∀ e ∈ es, StartsTight e.toList := by
  rw [h.startsTight_iff]
  constructor
  · intro hself
    refine bare_eq_self_of_sublist ?_
    rw [hself]
  · exact kept_eq_self h.nonempty

/-- and what becomes of it when it is normalized again. -/
theorem Normal.normalize_eq_self_iff (h : Normal es) :
    normalize es = es ↔ ∀ e ∈ es, StartsTight e.toList := by
  rw [h.startsTight_iff]
  constructor
  · intro hself
    refine bare_eq_self_of_sublist ?_
    conv_lhs => rw [← hself]
    exact eraseDups_sublist _
  · intro hbare
    rw [normalize, kept_eq_self h.nonempty hbare, eraseDups_of_nodup h.nodup]

theorem startsTight_normalize_iff :
    (∀ e ∈ normalize exts, StartsTight e.toList) ↔ ∀ ext ∈ exts, ¬ Gapped ext := by
  constructor
  · intro h ext hext
    by_cases hempty : bare ext = ""
    · rw [← startsTight_bare_iff, hempty]
      intro c hc
      exact absurd hc (by simp)
    · exact startsTight_bare_iff.mp (h _ (mem_normalize_iff.mpr ⟨hempty, ext, hext, rfl⟩))
  · intro h e he
    obtain ⟨-, ext, hext, rfl⟩ := mem_normalize_iff.mp he
    exact startsTight_bare_iff.mpr (h ext hext)

section Run

variable (config : Config) (user : Overrides)

theorem extensions_resolve : (Settings.resolve config user).extensions =
    normalize (Settings.resolve config user).scan.extensions := rfl

/-- A scanner goes by the extensions of the settings as they are. -/
theorem glob_ofOptions (d : Disk) (root : Path) :
    (Scanner.ofOptions d root (Settings.resolve config user).scan).map (·.glob) =
      if d.isDirectory root then glob (Settings.resolve config user).extensions
      else .error (.notADirectory root) := by
  rw [extensions_resolve, Scanner.ofOptions]
  split
  · cases glob (normalize (Settings.resolve config user).scan.extensions) with
    | error e => rfl
    | ok g => rfl
  · rfl

/-- **When extensions stay as they are.** A list that was normalized is fit for use but for blanks in
front, and those come from gaps. Without a gap it stays the same when it is normalized again, and a run
scans and searches by it. With one it changes, and a run searches for something else than it scans for. -/
theorem normalize_normalize_iff (exts : List String) :
    Normal (normalize exts) ∧
    ((∀ e ∈ normalize exts, StartsTight e.toList) ↔ ∀ ext ∈ exts, ¬ Gapped ext) ∧
    (normalize (normalize exts) = normalize exts ↔ ∀ ext ∈ exts, ¬ Gapped ext) ∧
    (∀ d root, (Scanner.ofOptions d root (Settings.resolve config user).scan).map (·.glob) =
      if d.isDirectory root then glob (Settings.resolve config user).extensions
      else .error (.notADirectory root)) ∧
    (kept (Settings.resolve config user).extensions = (Settings.resolve config user).extensions ↔
      ∀ ext ∈ (Settings.resolve config user).scan.extensions, ¬ Gapped ext) := by
  have hnormal := normal_normalize
  refine ⟨hnormal exts, startsTight_normalize_iff, ?_, glob_ofOptions config user, ?_⟩
  · rw [(hnormal _).normalize_eq_self_iff, startsTight_normalize_iff]
  · rw [extensions_resolve, (hnormal _).kept_eq_self_iff, startsTight_normalize_iff]

end Run

/-- An extension with a gap is scanned for as `" ts"` and searched for as `"ts"`. -/
theorem not_forall_normalize_normalize :
    (¬ ∀ exts, ∀ e ∈ normalize exts, StartsTight e.toList) ∧
      (¬ ∀ exts, normalize (normalize exts) = normalize exts) ∧
      ¬ ∀ config user, kept (Settings.resolve config user).extensions =
        normalize (Settings.resolve config user).scan.extensions := by
  have hscan : normalize [". ts"] = [" ts"] := by decide +kernel
  have hagain : normalize [" ts"] = ["ts"] := by decide +kernel
  have hsearch : kept [" ts"] = ["ts"] := by decide +kernel
  refine ⟨fun h => ?_, fun h => ?_, fun h => ?_⟩
  · have hblank := h [". ts"] " ts" (by simp [hscan]) ' ' (by decide +kernel)
    exact absurd hblank (by decide)
  · have hsame := h [". ts"]
    rw [hscan, hagain] at hsame
    exact absurd hsame (by decide)
  · have hsame : kept (normalize [". ts"]) = normalize [". ts"] :=
      h { extensions := some [". ts"] } {}
    rw [hscan, hsearch] at hsame
    exact absurd hsame (by decide)

end Citator.Extension
