import Mathlib.Data.List.Perm.Basic
import Citator.Proofs.Expansion.Slots
import Citator.Proofs.RefTree.Listing

/-!
# `Citator.Proofs.Expansion.Assembly` — putting slots together loses none of them

A link whose slot were not there would be dropped without a word when the slots are put together, and a
slot that two slots link to would become two nodes. `OneTree` excludes both: every slot but the first
is linked once. It is kept by every new slot (`OneTree.addSlots`), and then the nodes of the tree that
the slots are put together to are the slots, one each (`OneTree.listing_perm`).

That is a count and no induction over the tree. Write `M i` for the nodes at slot `i` and below. Then
`M i` is slot `i` itself and all `M j` for the links `j` of slot `i`. Summed over all slots, every `M j`
but the first stands on both sides once, and cancels: `M 0` is what is left, and that is all slots.
-/

namespace Citator

open scoped List

namespace Worklist

/-! ## 1. Slots that make one tree -/

/-- The slots make one tree: the first stands for the root, and every other slot is linked once, by a
slot in front of it. `depths` has their depths in that tree. -/
structure OneTree (root : Path) (slots : Array Slot) (depths : List Nat) : Prop where
  length : depths.length = slots.size
  file : ∃ s, slots[0]? = some s ∧ s.file = root
  depth : depths[0]? = some 0
  once : slots.toList.flatMap Slot.links ~ List.range' 1 (slots.size - 1)
  links : ∀ (i : Nat) (s : Slot), slots[i]? = some s → ∀ c ∈ s.links, i < c ∧
    ∀ d, depths[i]? = some d → depths[c]? = some (d + 1)

variable {root : Path} {slots : Array Slot} {depths : List Nat} {parent d : Nat}

theorem OneTree.lt_size (h : OneTree root slots depths) {i : Nat} (hd : depths[i]? = some d) :
    i < slots.size := by
  rw [← h.length]
  exact (List.getElem?_eq_some_iff.mp hd).1

theorem oneTree_start (root : Path) : OneTree root #[{ file := root }] [0] := by
  refine ⟨rfl, ⟨_, rfl, rfl⟩, rfl, .refl _, fun i s hs c hc => ?_⟩
  obtain ⟨hi, rfl⟩ := Array.getElem?_eq_some_iff.mp hs
  simp at hi
  simp [hi] at hc

/-- A slot after one was added: the new one, or an old one, with one link more if it is the parent. -/
theorem exists_of_getElem?_addSlot {f : Path} {i : Nat} {s : Slot} (hp : parent < slots.size)
    (hs : (addSlot slots parent f)[i]? = some s) : (i = slots.size ∧ s = { file := f }) ∨
      ∃ s₀, slots[i]? = some s₀ ∧ ∀ c ∈ s.links, c ∈ s₀.links ∨ (i = parent ∧ c = slots.size) := by
  have hi : i < slots.size + 1 := by
    rw [← size_addSlot slots parent f]
    exact (Array.getElem?_eq_some_iff.mp hs).1
  by_cases hnew : i = slots.size
  · subst hnew
    rw [getElem?_addSlot_new f hp, Option.some.injEq] at hs
    exact Or.inl ⟨rfl, hs.symm⟩
  · have hold : slots[i]? = some slots[i] := Array.getElem?_eq_getElem (by omega)
    refine Or.inr ⟨_, hold, ?_⟩
    by_cases hpar : i = parent
    · subst hpar
      rw [getElem?_addSlot_parent f hold, Option.some.injEq] at hs
      subst hs
      intro c hc
      rcases List.mem_append.mp hc with hc | hc
      · exact Or.inl hc
      · exact Or.inr ⟨rfl, List.mem_singleton.mp hc⟩
    · rw [getElem?_addSlot_old f hpar hold, Option.some.injEq] at hs
      subst hs
      exact fun c hc => Or.inl hc

/-- One more link in one of the slots. -/
theorem flatMap_links_modify_perm {slots : List Slot} {i : Nat} (hi : i < slots.length) (c : Nat) :
    (slots.modify i fun s => { s with links := s.links ++ [c] }).flatMap Slot.links ~
      slots.flatMap Slot.links ++ [c] := by
  induction slots generalizing i with
  | nil => exact absurd hi (by simp)
  | cons s rest ih =>
    cases i with
    | zero =>
      simp only [List.modify_zero_cons, List.flatMap_cons, List.append_assoc]
      exact List.perm_append_comm.append_left _
    | succ i =>
      simp only [List.modify_succ_cons, List.flatMap_cons, List.append_assoc]
      exact (ih (by simpa using hi)).append_left _

theorem OneTree.addSlot (h : OneTree root slots depths) (hd : depths[parent]? = some d) (f : Path) :
    OneTree root (addSlot slots parent f) (depths ++ [d + 1]) := by
  have hlt := h.lt_size hd
  have hold : ∀ {i k}, depths[i]? = some k → (depths ++ [d + 1])[i]? = some k := fun hk => by
    rw [List.getElem?_append_left (List.getElem?_eq_some_iff.mp hk).1]
    exact hk
  have hnew : (depths ++ [d + 1])[slots.size]? = some (d + 1) := by simp [← h.length]
  constructor
  case length => simp [h.length, size_addSlot]
  case file =>
    obtain ⟨s, hs, hroot⟩ := h.file
    by_cases hpar : 0 = parent
    · subst hpar
      exact ⟨_, getElem?_addSlot_parent f hs, hroot⟩
    · exact ⟨s, getElem?_addSlot_old f hpar hs, hroot⟩
  case depth => exact hold h.depth
  case once =>
    have hpush : parent < (slots.push { file := f }).toList.length := by
      simpa using Nat.lt_succ_of_lt hlt
    have hperm := flatMap_links_modify_perm hpush slots.size
    have hrange : List.range' 1 (slots.size + 1 - 1) = List.range' 1 (slots.size - 1) ++ [slots.size] := by
      obtain ⟨n, hn⟩ : ∃ n, slots.size = n + 1 := ⟨slots.size - 1, by omega⟩
      rw [hn, Nat.add_sub_cancel, Nat.add_sub_cancel, List.range'_concat, Nat.one_mul, Nat.add_comm 1]
    rw [size_addSlot, hrange]
    refine .trans ?_ (h.once.append_right _)
    rw [← Array.toList_modify] at hperm
    simpa [Worklist.addSlot] using hperm
  case links =>
    intro i s hs c hc
    rcases exists_of_getElem?_addSlot hlt hs with ⟨-, rfl⟩ | ⟨s₀, hs₀, hlinks⟩
    · simp at hc
    · rcases hlinks c hc with hc | ⟨rfl, rfl⟩
      · obtain ⟨hic, hdepth⟩ := h.links i s₀ hs₀ c hc
        refine ⟨hic, fun k hk => ?_⟩
        rw [List.getElem?_append_left (by rw [h.length]; exact (Array.getElem?_eq_some_iff.mp hs₀).1)] at hk
        exact hold (hdepth k hk)
      · refine ⟨hlt, fun k hk => ?_⟩
        rw [hold hd, Option.some.injEq] at hk
        rw [hnew, hk]

theorem OneTree.addSlots (h : OneTree root slots depths) (hd : depths[parent]? = some d)
    (fs : List Path) :
    OneTree root (addSlots slots parent fs) (depths ++ List.replicate fs.length (d + 1)) := by
  induction fs generalizing slots depths with
  | nil => simpa [Worklist.addSlots] using h
  | cons f fs ih =>
    have hd' : (depths ++ [d + 1])[parent]? = some d := by
      rw [List.getElem?_append_left (List.getElem?_eq_some_iff.mp hd).1]
      exact hd
    have hih := ih (h.addSlot hd f) hd'
    rw [List.append_assoc, List.singleton_append] at hih
    rwa [Worklist.addSlots, List.length_cons, List.replicate_succ]

/-! ## 2. The tree that they make -/

theorem OneTree.getElem?_assemble (h : OneTree root slots depths) {i : Nat} {s : Slot}
    (hs : slots[i]? = some s) : (assembleFrom 0 slots.toList)[i]? =
      some (.node s.file (s.links.filterMap fun c => (assembleFrom 0 slots.toList)[c]?)) := by
  have hfront : ∀ c ∈ s.links, 0 + i < c := fun c hc => by simpa using (h.links i s hs c hc).1
  exact getElem?_assembleFrom (by simpa using hs) hfront

section Assembled

variable {built : List RefTree} (hbuilt : assembleFrom 0 slots.toList = built)

/-- The nodes at a slot and below it, in the tree that the slots are put together to. -/
def listingAt (built : List RefTree) (depths : List Nat) (i : Nat) : List (Nat × Path) :=
  ((built[i]?).map (RefTree.listing (depths.getD i 0))).getD []

theorem listingAll_filterMap {k : Nat} {cs : List Nat} (hcs : ∀ c ∈ cs, depths.getD c 0 = k) :
    RefTree.listingAll k (cs.filterMap fun c => built[c]?) = cs.flatMap (listingAt built depths) := by
  induction cs with
  | nil => rfl
  | cons c cs ih =>
    have hc := hcs c List.mem_cons_self
    have hrest := ih fun c' hc' => hcs c' (List.mem_cons_of_mem _ hc')
    rw [List.flatMap_cons, ← hrest, listingAt, hc]
    cases hb : built[c]? with
    | none => rw [List.filterMap_cons_none hb]; rfl
    | some t => rw [List.filterMap_cons_some hb]; rfl

include hbuilt in
/-- Slot `i`, and then its links with what is below them. -/
theorem OneTree.listingAt_eq (h : OneTree root slots depths) {i : Nat} {s : Slot}
    (hs : slots[i]? = some s) :
    listingAt built depths i =
      (depths.getD i 0, s.file) :: s.links.flatMap (listingAt built depths) := by
  obtain ⟨k, hk⟩ : ∃ k, depths[i]? = some k := by
    refine ⟨_, List.getElem?_eq_getElem ?_⟩
    rw [h.length]
    exact (Array.getElem?_eq_some_iff.mp hs).1
  have htree := h.getElem?_assemble hs
  rw [hbuilt] at htree
  have hdepth : depths.getD i 0 = k := by rw [List.getD_eq_getElem?_getD, hk, Option.getD_some]
  have hlinks : ∀ c ∈ s.links, depths.getD c 0 = k + 1 := fun c hc => by
    rw [List.getD_eq_getElem?_getD, (h.links i s hs c hc).2 k hk, Option.getD_some]
  rw [listingAt, htree, Option.map_some, Option.getD_some, hdepth, RefTree.listing,
    ← listingAll_filterMap hlinks]

theorem toList_eq_map_range (slots : Array Slot) :
    slots.toList = (List.range slots.size).map fun i => slots.getD i default := by
  refine List.ext_getElem (by simp) fun i hi _ => ?_
  simp at hi
  simp [hi]

theorem zip_eq_map_range (hlen : depths.length = slots.size) :
    depths.zip (slots.toList.map (·.file)) =
      (List.range slots.size).map fun i => (depths.getD i 0, (slots.getD i default).file) := by
  refine List.ext_getElem (by simp [hlen]) fun i hi _ => ?_
  have hi' : i < slots.size := by simpa [hlen] using hi
  simp [hi', hlen]

include hbuilt in
/-- **No slot is lost and none is there twice.** The nodes of the tree that the slots are put together
to are the slots, each with its depth. -/
theorem OneTree.listing_perm (h : OneTree root slots depths) {t : RefTree} (ht : built[0]? = some t) :
    t.listing 0 ~ depths.zip (slots.toList.map (·.file)) := by
  have hpos : slots.size = slots.size - 1 + 1 := by
    have := h.lt_size h.depth
    omega
  have htop : listingAt built depths 0 = t.listing 0 := by
    rw [listingAt, ht, List.getD_eq_getElem?_getD, h.depth]
    rfl
  have hlinks : (List.range slots.size).flatMap (fun i => (slots.getD i default).links) =
      slots.toList.flatMap Slot.links := by
    rw [toList_eq_map_range slots, List.flatMap_map]
  -- all nodes of all slots, counted in two ways
  refine (List.perm_append_right_iff ((List.range' 1 (slots.size - 1)).flatMap
    (listingAt built depths))).mp ?_
  calc
    t.listing 0 ++ (List.range' 1 (slots.size - 1)).flatMap (listingAt built depths)
        = (List.range slots.size).flatMap (listingAt built depths) := by
      rw [hpos, List.range_eq_range', List.range'_succ, List.flatMap_cons, htop, Nat.add_sub_cancel]
    _ = (List.range slots.size).flatMap (fun i => (depths.getD i 0, (slots.getD i default).file) ::
          (slots.getD i default).links.flatMap (listingAt built depths)) := by
      refine List.flatMap_congr fun i hi => h.listingAt_eq hbuilt ?_
      simp [List.mem_range.mp hi]
    _ ~ (List.range slots.size).map (fun i => (depths.getD i 0, (slots.getD i default).file)) ++
          (List.range slots.size).flatMap
            (fun i => (slots.getD i default).links.flatMap (listingAt built depths)) :=
      (List.map_append_flatMap_perm _ _ _).symm
    _ = depths.zip (slots.toList.map (·.file)) ++
          (slots.toList.flatMap Slot.links).flatMap (listingAt built depths) := by
      rw [← zip_eq_map_range h.length, ← hlinks, List.flatMap_assoc]
    _ ~ depths.zip (slots.toList.map (·.file)) ++
          (List.range' 1 (slots.size - 1)).flatMap (listingAt built depths) :=
      (h.once.flatMap_right _).append_left _

end Assembled

/-- The nodes of the tree of a worklist are its slots. -/
theorem OneTree.walk_perm {w : Worklist} (h : OneTree root w.slots depths) :
    (RefTree.node root w.links).walk.map (fun n => (n.1, n.2.file)) ~
      depths.zip (w.slots.toList.map (·.file)) := by
  obtain ⟨s, hs, rfl⟩ := h.file
  have hfirst := h.getElem?_assemble hs
  rw [RefTree.walk_eq_nodes, RefTree.map_nodes_eq_listing]
  unfold Worklist.links
  cases hc : assembleFrom 0 w.slots.toList with
  | nil => simp [hc] at hfirst
  | cons t rest =>
    rw [hc, List.getElem?_cons_zero, Option.some.injEq] at hfirst
    have hfile : t.file = s.file := congrArg RefTree.file hfirst
    have hperm := h.listing_perm hc (t := t) rfl
    rw [← hfile]
    cases t with
    | node f ls => exact hperm

end Worklist
end Citator
