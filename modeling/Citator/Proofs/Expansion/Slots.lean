import Mathlib.Data.List.Basic
import Citator.Expansion.Worklist

/-!
# `Citator.Proofs.Expansion.Slots` — the trees that slots hold

The slots of a worklist are a tree laid out in the order in which its nodes were attached. One round
of attaching takes the next slots in a row, so the links of a slot are always *consecutive*, and they
stand behind the slot itself. `Holds` is a tree read off the slots with just that in mind: a slot, the
number of its first link, and the trees at that number and those after it.

What makes the reading survive further work is the lower bound that it carries. Whoever knows that all
links below a slot have numbers from `low` on may change any other slot without disturbing the tree.
-/

namespace Citator.Worklist

/-! ## 1. New slots -/

/-- Gives several files new slots among the links of slot `parent`, one after the other. -/
def addSlots (slots : Array Slot) (parent : Nat) : List Path → Array Slot
  | [] => slots
  | f :: fs => addSlots (addSlot slots parent f) parent fs

theorem size_addSlot (slots : Array Slot) (parent : Nat) (f : Path) :
    (addSlot slots parent f).size = slots.size + 1 := by
  simp [addSlot]

theorem getElem?_addSlot_new {slots : Array Slot} {parent : Nat} (f : Path)
    (hp : parent < slots.size) : (addSlot slots parent f)[slots.size]? = some { file := f } := by
  rw [addSlot, Array.getElem?_modify, if_neg (Nat.ne_of_lt hp)]
  simp

theorem getElem?_addSlot_parent {slots : Array Slot} {parent : Nat} {s : Slot} (f : Path)
    (hs : slots[parent]? = some s) :
    (addSlot slots parent f)[parent]? = some { s with links := s.links ++ [slots.size] } := by
  have hlt : parent < slots.size := (Array.getElem?_eq_some_iff.mp hs).1
  rw [addSlot, Array.getElem?_modify, if_pos rfl, Array.getElem?_push_lt hlt,
    ← Array.getElem?_eq_getElem hlt, hs]
  rfl

theorem getElem?_addSlot_old {slots : Array Slot} {parent i : Nat} {s : Slot} (f : Path)
    (hne : i ≠ parent) (hs : slots[i]? = some s) : (addSlot slots parent f)[i]? = some s := by
  have hlt : i < slots.size := (Array.getElem?_eq_some_iff.mp hs).1
  rw [addSlot, Array.getElem?_modify, if_neg (Ne.symm hne), Array.getElem?_push_lt hlt,
    ← Array.getElem?_eq_getElem hlt, hs]

theorem size_addSlots (slots : Array Slot) (parent : Nat) (fs : List Path) :
    (addSlots slots parent fs).size = slots.size + fs.length := by
  induction fs generalizing slots with
  | nil => rfl
  | cons f fs ih =>
    rw [addSlots, ih, size_addSlot, List.length_cons]
    omega

/-- New slots are numbered on from the number of slots that there are. So the links of a slot that gets
all of them at once are consecutive, and they stand behind the slot. -/
theorem getElem?_addSlots_parent {slots : Array Slot} {parent : Nat} {s : Slot} (fs : List Path)
    (hs : slots[parent]? = some s) :
    (addSlots slots parent fs)[parent]? =
      some { s with links := s.links ++ List.range' slots.size fs.length } := by
  induction fs generalizing slots s with
  | nil => simpa [addSlots] using hs
  | cons f fs ih =>
    rw [addSlots, ih (getElem?_addSlot_parent f hs), size_addSlot]
    simp [List.range'_succ]

theorem getElem?_addSlots_old {slots : Array Slot} {parent i : Nat} {s : Slot} (fs : List Path)
    (hne : i ≠ parent) (hs : slots[i]? = some s) : (addSlots slots parent fs)[i]? = some s := by
  induction fs generalizing slots with
  | nil => exact hs
  | cons f fs ih => exact ih (getElem?_addSlot_old f hne hs)

/-! ## 2. Rows of new slots -/

/-- The slots from `first` on stand for the files, one each, and have no links yet. -/
def Row (slots : Array Slot) : Nat → List Path → Prop
  | _, [] => True
  | first, f :: fs => slots[first]? = some { file := f } ∧ Row slots (first + 1) fs

theorem Row.le_size {slots : Array Slot} {first : Nat} {f : Path} {fs : List Path}
    (h : Row slots first (f :: fs)) : first + (f :: fs).length ≤ slots.size := by
  induction fs generalizing first f with
  | nil =>
    exact (Array.getElem?_eq_some_iff.mp h.1).1
  | cons g fs ih =>
    have := ih h.2
    simp only [List.length_cons] at this ⊢
    omega

theorem Row.congr {slots slots' : Array Slot} {first : Nat} {fs : List Path}
    (h : Row slots first fs)
    (hkeep : ∀ i s, first ≤ i → i < first + fs.length → slots[i]? = some s → slots'[i]? = some s) :
    Row slots' first fs := by
  induction fs generalizing first with
  | nil => trivial
  | cons f fs ih =>
    refine ⟨hkeep first _ (Nat.le_refl _) (by simp) h.1, ih h.2 fun i s hle hlt hs => ?_⟩
    refine hkeep i s (by omega) ?_ hs
    rw [List.length_cons]
    omega

theorem row_addSlots {slots : Array Slot} {parent : Nat} (fs : List Path)
    (hp : parent < slots.size) : Row (addSlots slots parent fs) slots.size fs := by
  induction fs generalizing slots with
  | nil => trivial
  | cons f fs ih =>
    refine ⟨getElem?_addSlots_old fs (Nat.ne_of_gt hp) (getElem?_addSlot_new f hp), ?_⟩
    have hih : Row _ (addSlot slots parent f).size fs := ih (by rw [size_addSlot]; omega)
    rw [size_addSlot] at hih
    exact hih

/-! ## 3. Trees in slots -/

mutual

/-- Slot `id` and those below it hold the tree. All links below the slot have numbers from `low`
on. -/
def Holds (slots : Array Slot) (low : Nat) : RefTree → Nat → Prop
  | .node f ls, id =>
    ∃ first, low ≤ first ∧ id < first ∧ slots[id]? = some ⟨f, List.range' first ls.length⟩ ∧
      HoldsAll slots low ls first

def HoldsAll (slots : Array Slot) (low : Nat) : List RefTree → Nat → Prop
  | [], _ => True
  | t :: ts, first => Holds slots low t first ∧ HoldsAll slots low ts (first + 1)

end

mutual

theorem Holds.mono {slots : Array Slot} {low low' : Nat} (hle : low' ≤ low) :
    ∀ {t : RefTree} {id : Nat}, Holds slots low t id → Holds slots low' t id
  | .node _ _, _, ⟨first, hlow, hid, hs, hls⟩ =>
    ⟨first, Nat.le_trans hle hlow, hid, hs, HoldsAll.mono hle hls⟩

theorem HoldsAll.mono {slots : Array Slot} {low low' : Nat} (hle : low' ≤ low) :
    ∀ {ts : List RefTree} {first : Nat}, HoldsAll slots low ts first → HoldsAll slots low' ts first
  | [], _, _ => trivial
  | _ :: _, _, ⟨ht, hts⟩ => ⟨Holds.mono hle ht, HoldsAll.mono hle hts⟩

end

mutual

/-- Work on slots below `low` does not disturb a tree, if it leaves the tree's own slot alone. -/
theorem Holds.congr {slots slots' : Array Slot} {low : Nat}
    (hkeep : ∀ i s, low ≤ i → slots[i]? = some s → slots'[i]? = some s) :
    ∀ {t : RefTree} {id : Nat}, (∀ s, slots[id]? = some s → slots'[id]? = some s) →
      Holds slots low t id → Holds slots' low t id
  | .node _ _, _, hid, ⟨first, hlow, hlt, hs, hls⟩ =>
    ⟨first, hlow, hlt, hid _ hs, HoldsAll.congr hkeep hlow hls⟩

/-- The same for trees in a row, where the slots of the trees themselves lie above the bound and are
left alone with the others. -/
theorem HoldsAll.congr {slots slots' : Array Slot} {low : Nat}
    (hkeep : ∀ i s, low ≤ i → slots[i]? = some s → slots'[i]? = some s) :
    ∀ {ts : List RefTree} {first : Nat}, low ≤ first → HoldsAll slots low ts first →
      HoldsAll slots' low ts first
  | [], _, _, _ => trivial
  | _ :: _, _, hle, ⟨ht, hts⟩ =>
    ⟨Holds.congr hkeep (fun _ hs => hkeep _ _ hle hs) ht, HoldsAll.congr hkeep (Nat.le_succ_of_le hle) hts⟩

end

/-! ## 4. Putting the slots together -/

/-- What stands at a place of the assembled trees: the slot's file, and for each link the tree at the
link's own place. Only links behind the slot are found, which is where they all are. -/
theorem getElem?_assembleFrom {slots : List Slot} {first k : Nat} {s : Slot}
    (hs : slots[k]? = some s) (hlinks : ∀ i ∈ s.links, first + k < i) :
    (assembleFrom first slots)[k]? =
      some (.node s.file (s.links.filterMap fun i => (assembleFrom first slots)[i - first]?)) := by
  induction slots generalizing first k with
  | nil => simp at hs
  | cons r rest ih =>
    -- a link behind the first slot is found among the trees after the first
    have hshift : ∀ i, first < i →
        (assembleFrom (first + 1) rest)[i - (first + 1)]? =
          (assembleFrom first (r :: rest))[i - first]? := by
      intro i hi
      obtain ⟨j, rfl⟩ : ∃ j, i = first + 1 + j := ⟨i - (first + 1), by omega⟩
      rw [show first + 1 + j - (first + 1) = j by omega, show first + 1 + j - first = j + 1 by omega]
      rfl
    cases k with
    | zero =>
      simp only [List.getElem?_cons_zero, Option.some.injEq] at hs
      subst hs
      rw [assembleFrom, List.getElem?_cons_zero, ← assembleFrom]
      congr 2
      exact List.filterMap_congr fun i hi => hshift i (by simpa using hlinks i hi)
    | succ k =>
      have hbehind : ∀ i ∈ s.links, first + 1 + k < i := fun i hi => by
        have := hlinks i hi
        omega
      have hih := ih (by simpa using hs) hbehind
      rw [assembleFrom, List.getElem?_cons_succ, ← assembleFrom, hih]
      congr 2
      exact List.filterMap_congr fun i hi => hshift i (by have := hbehind i hi; omega)

mutual

/-- A tree that slots hold is what they are put together to. -/
theorem Holds.assemble {slots : Array Slot} {low : Nat} :
    ∀ {t : RefTree} {id : Nat}, Holds slots low t id →
      (assembleFrom 0 slots.toList)[id]? = some t
  | .node f ls, id, ⟨first, _, hid, hs, hls⟩ => by
    have hbehind : ∀ i ∈ List.range' first ls.length, 0 + id < i := by
      intro i hi
      have := (List.mem_range'_1.mp hi).1
      omega
    rw [getElem?_assembleFrom (by simpa using hs) hbehind]
    simp only [Nat.sub_zero]
    rw [HoldsAll.assemble hls]

theorem HoldsAll.assemble {slots : Array Slot} {low : Nat} :
    ∀ {ts : List RefTree} {first : Nat}, HoldsAll slots low ts first →
      (List.range' first ts.length).filterMap (fun i => (assembleFrom 0 slots.toList)[i]?) = ts
  | [], _, _ => rfl
  | _ :: _, _, ⟨ht, hts⟩ => by
    rw [List.length_cons, List.range'_succ, List.filterMap_cons_some (Holds.assemble ht),
      HoldsAll.assemble hts]

end

/-- The links of slot zero are those of the tree that it holds. -/
theorem links_of_holds {w : Worklist} {low : Nat} {f : Path} {ls : List RefTree}
    (h : Holds w.slots low (.node f ls) 0) : w.links = ls := by
  have ha := h.assemble
  unfold links
  cases hc : assembleFrom 0 w.slots.toList with
  | nil => simp [hc] at ha
  | cons t rest =>
    rw [hc, List.getElem?_cons_zero, Option.some.injEq] at ha
    rw [ha]
    rfl

end Citator.Worklist
