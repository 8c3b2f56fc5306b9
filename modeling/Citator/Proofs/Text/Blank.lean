import Mathlib.Data.List.DropRight
import Citator.Text.Plain

/-!
# `Citator.Proofs.Text.Blank` — what trimming leaves, and what it leaves alone

Trimming takes blanks away at the front and then at the back. What it leaves has no blank at either
end, and a list without blanks at its ends is left alone, also when blanks are put around it.

The back is the front of the reversed list (`endsTight_iff`), so each fact is proved for the front.
-/

namespace Citator.Text

variable {cs ds : List Char}

/-- No blank stands in front. -/
def StartsTight (cs : List Char) : Prop := ∀ c, cs.head? = some c → isBlank c = false

/-- No blank stands at the end. -/
def EndsTight (cs : List Char) : Prop := ∀ c, cs.getLast? = some c → isBlank c = false

theorem endsTight_iff : EndsTight cs ↔ StartsTight cs.reverse := by
  unfold EndsTight StartsTight
  rw [List.head?_reverse]

theorem startsTight_cons {c : Char} : StartsTight (c :: cs) ↔ isBlank c = false := by
  unfold StartsTight
  simp

theorem StartsTight.append (h : StartsTight cs) (hne : cs ≠ []) (ds : List Char) :
    StartsTight (cs ++ ds) := by
  obtain ⟨c, cs, rfl⟩ := List.exists_cons_of_ne_nil hne
  exact startsTight_cons.mpr (startsTight_cons.mp h)

theorem EndsTight.of_suffix (h : EndsTight ds) (hs : cs <:+ ds) : EndsTight cs := by
  obtain ⟨front, rfl⟩ := hs
  intro c hc
  refine h c ?_
  rw [List.getLast?_append, hc]
  rfl

theorem startsTight_dropWhile (cs : List Char) : StartsTight (cs.dropWhile isBlank) := by
  intro c hc
  have hhead := List.head?_dropWhile_not isBlank cs
  rw [hc] at hhead
  exact hhead

theorem dropWhile_of_startsTight (h : StartsTight cs) : cs.dropWhile isBlank = cs := by
  cases cs with
  | nil => rfl
  | cons c cs => rw [List.dropWhile_cons_of_neg (by simp [startsTight_cons.mp h])]

/-- What drops the end of a list is Mathlib's `List.rdropWhile`, whose lemmas are used from here on. The
function that runs has a name of its own, since the running part of the library is built on core alone. -/
theorem dropEndWhile_eq_rdropWhile {α : Type} (p : α → Bool) (xs : List α) :
    dropEndWhile p xs = xs.rdropWhile p := rfl

theorem dropEndWhile_of_endsTight (h : EndsTight cs) : dropEndWhile isBlank cs = cs := by
  rw [dropEndWhile_eq_rdropWhile, List.rdropWhile_eq_self_iff]
  intro hne
  simp [h _ (List.getLast?_eq_getLast_of_ne_nil hne)]

theorem endsTight_trimmed (cs : List Char) : EndsTight (trimmed cs) := by
  rw [endsTight_iff, trimmed, dropEndWhile, List.reverse_reverse]
  exact startsTight_dropWhile _

/-- What is dropped at the end leaves the front as it is. -/
theorem not_of_head?_dropEndWhile {α : Type} {p : α → Bool} {xs : List α} {x : α}
    (h : (dropEndWhile p (xs.dropWhile p)).head? = some x) : p x = false := by
  obtain ⟨dropped, hsplit⟩ := List.rdropWhile_prefix p (xs.dropWhile p)
  have hfront := List.head?_dropWhile_not p xs
  rw [← hsplit, ← dropEndWhile_eq_rdropWhile, List.head?_append, h] at hfront
  exact hfront

theorem startsTight_trimmed (cs : List Char) : StartsTight (trimmed cs) :=
  fun _ hc => not_of_head?_dropEndWhile hc

theorem trimmed_sublist (cs : List Char) : (trimmed cs).Sublist cs :=
  (List.rdropWhile_prefix isBlank _).sublist.trans (List.dropWhile_sublist _)

/-- Blanks around a list that has none at its ends are all that trimming takes away. -/
theorem trimmed_padded {left right : List Char} (hleft : ∀ c ∈ left, isBlank c = true)
    (hright : ∀ c ∈ right, isBlank c = true) (hne : cs ≠ []) (hstart : StartsTight cs)
    (hend : EndsTight cs) : trimmed (left ++ cs ++ right) = cs := by
  have hfront : (left ++ cs ++ right).dropWhile isBlank = cs ++ right := by
    rw [List.append_assoc, List.dropWhile_append_of_pos hleft]
    exact dropWhile_of_startsTight (hstart.append hne right)
  have hback : (right.reverse ++ cs.reverse).dropWhile isBlank = cs.reverse := by
    rw [List.dropWhile_append_of_pos fun c hc => hright c (List.mem_reverse.mp hc)]
    exact dropWhile_of_startsTight (endsTight_iff.mp hend)
  rw [trimmed, hfront, dropEndWhile, List.reverse_append, hback, List.reverse_reverse]

/-- Trimming leaves a list alone if and only if no blank stands at its ends. -/
theorem trimmed_eq_self_iff : trimmed cs = cs ↔ StartsTight cs ∧ EndsTight cs := by
  constructor
  · intro h
    rw [← h]
    exact ⟨startsTight_trimmed cs, endsTight_trimmed cs⟩
  · rintro ⟨hstart, hend⟩
    rw [trimmed, dropWhile_of_startsTight hstart, dropEndWhile_of_endsTight hend]

end Citator.Text
