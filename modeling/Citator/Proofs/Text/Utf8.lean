import Citator.Text.Utf8

/-!
# `Citator.Proofs.Text.Utf8` — a byte string is well formed if it encodes a text

The strict reading goes byte by byte and keeps the character that is pending; the encoding writes whole
characters. Between the two stands a grammar: `Spells n bs` says which bytes spell the character with
number `n`. What it spells is what is read and what is written, so reading undoes writing, and writing
undoes reading: `decode?_eq_some_iff`.
-/

namespace Citator.Utf8

/-! ## 1. The spelling of a character -/

/-- A byte behind the first of a character. -/
def IsTail (b : UInt8) : Prop := 0x80 ≤ b.toNat ∧ b.toNat < 0xC0

/-- The bytes that spell the character with a number. The second byte is limited behind the first bytes
that begin too long a form, a surrogate, or a number that is too great. -/
inductive Spells : Nat → Bytes → Prop where
  | one {a : UInt8} (ha : a.toNat < 0x80) : Spells a.toNat [a]
  | two {a b : UInt8} (ha : 0xC2 ≤ a.toNat) (ha' : a.toNat < 0xE0) (hb : IsTail b) :
      Spells ((a.toNat - 0xC0) * 64 + (b.toNat - 0x80)) [a, b]
  | three {a b c : UInt8} (ha : 0xE0 ≤ a.toNat) (ha' : a.toNat < 0xF0) (hb : IsTail b)
      (hlow : a.toNat = 0xE0 → 0xA0 ≤ b.toNat) (hhigh : a.toNat = 0xED → b.toNat < 0xA0)
      (hc : IsTail c) :
      Spells (((a.toNat - 0xE0) * 64 + (b.toNat - 0x80)) * 64 + (c.toNat - 0x80)) [a, b, c]
  | four {a b c d : UInt8} (ha : 0xF0 ≤ a.toNat) (ha' : a.toNat < 0xF5) (hb : IsTail b)
      (hlow : a.toNat = 0xF0 → 0x90 ≤ b.toNat) (hhigh : a.toNat = 0xF4 → b.toNat < 0x90)
      (hc : IsTail c) (hd : IsTail d) :
      Spells ((((a.toNat - 0xF0) * 64 + (b.toNat - 0x80)) * 64 + (c.toNat - 0x80)) * 64 +
        (d.toNat - 0x80)) [a, b, c, d]

variable {n : Nat} {bs rest : Bytes}

theorem Spells.isValidChar (h : Spells n bs) : n.isValidChar := by
  unfold Nat.isValidChar
  cases h with
  | one ha => omega
  | two ha ha' hb =>
    unfold IsTail at hb
    omega
  | three ha ha' hb hlow hhigh hc =>
    unfold IsTail at hb hc
    omega
  | four ha ha' hb hlow hhigh hc hd =>
    unfold IsTail at hb hc hd
    omega

theorem Spells.toNat_ofNat (h : Spells n bs) : (Char.ofNat n).toNat = n := by
  unfold Char.ofNat
  rw [dif_pos h.isValidChar]
  rfl

/-- The bytes of a character are the character itself, or none of them is a character of its own. -/
theorem Spells.toNat_eq_or_le {u : UInt8} (h : Spells n bs) (hu : u ∈ bs) :
    u.toNat = n ∨ 0x80 ≤ u.toNat := by
  cases h with
  | one ha =>
    rw [List.mem_singleton.mp hu]
    exact Or.inl rfl
  | two ha ha' hb =>
    simp only [IsTail, List.mem_cons, List.not_mem_nil, or_false] at hb hu
    rcases hu with rfl | rfl <;> omega
  | three ha ha' hb hlow hhigh hc =>
    simp only [IsTail, List.mem_cons, List.not_mem_nil, or_false] at hb hc hu
    rcases hu with rfl | rfl | rfl <;> omega
  | four ha ha' hb hlow hhigh hc hd =>
    simp only [IsTail, List.mem_cons, List.not_mem_nil, or_false] at hb hc hd hu
    rcases hu with rfl | rfl | rfl | rfl <;> omega

/-! ## 2. Writing -/

theorem utf8EncodeChar_eq (c : Char) : String.utf8EncodeChar c =
    if c.toNat < 0x80 then [.ofNat c.toNat]
    else if c.toNat < 0x800 then [.ofNat (c.toNat / 64 % 32 + 192), .ofNat (c.toNat % 64 + 128)]
    else if c.toNat < 0x10000 then
      [.ofNat (c.toNat / 4096 % 16 + 224), .ofNat (c.toNat / 64 % 64 + 128),
        .ofNat (c.toNat % 64 + 128)]
    else
      [.ofNat (c.toNat / 262144 % 8 + 240), .ofNat (c.toNat / 4096 % 64 + 128),
        .ofNat (c.toNat / 64 % 64 + 128), .ofNat (c.toNat % 64 + 128)] := by
  simp only [← Nat.le_iff_lt_add_one, String.utf8EncodeChar]
  rfl

theorem ofNat_eq_of_eq {b : UInt8} (h : n = b.toNat) : UInt8.ofNat n = b := by
  rw [h, UInt8.ofNat_toNat]

/-- What is spelled is written so. -/
theorem Spells.encodeChar_eq (h : Spells n bs) : String.utf8EncodeChar (Char.ofNat n) = bs := by
  rw [utf8EncodeChar_eq, h.toNat_ofNat]
  cases h with
  | one ha => rw [if_pos ha, UInt8.ofNat_toNat]
  | two ha ha' hb =>
    unfold IsTail at hb
    rw [if_neg (by omega), if_pos (by omega)]
    simp only [List.cons.injEq, and_true]
    exact ⟨ofNat_eq_of_eq (by omega), ofNat_eq_of_eq (by omega)⟩
  | three ha ha' hb hlow hhigh hc =>
    unfold IsTail at hb hc
    rw [if_neg (by omega), if_neg (by omega), if_pos (by omega)]
    simp only [List.cons.injEq, and_true]
    exact ⟨ofNat_eq_of_eq (by omega), ofNat_eq_of_eq (by omega), ofNat_eq_of_eq (by omega)⟩
  | four ha ha' hb hlow hhigh hc hd =>
    unfold IsTail at hb hc hd
    rw [if_neg (by omega), if_neg (by omega), if_neg (by omega)]
    simp only [List.cons.injEq, and_true]
    exact ⟨ofNat_eq_of_eq (by omega), ofNat_eq_of_eq (by omega), ofNat_eq_of_eq (by omega),
      ofNat_eq_of_eq (by omega)⟩

theorem toNat_ofNat_of_lt (h : n < 256) : (UInt8.ofNat n).toNat = n := by
  rw [UInt8.toNat_ofNat', Nat.mod_eq_of_lt h]

/-- Every character is spelled. -/
theorem spells_encodeChar (c : Char) : Spells c.toNat (String.utf8EncodeChar c) := by
  have hvalid : c.toNat < 0xD800 ∨ 0xDFFF < c.toNat ∧ c.toNat < 0x110000 := c.valid
  rw [utf8EncodeChar_eq]
  generalize c.toNat = n at hvalid
  split
  · next h =>
    have ha := toNat_ofNat_of_lt (n := n) (by omega)
    have hs := Spells.one (a := .ofNat n) (by omega)
    rwa [ha] at hs
  · split
    · next h =>
      have ha := toNat_ofNat_of_lt (n := n / 64 % 32 + 192) (by omega)
      have hb := toNat_ofNat_of_lt (n := n % 64 + 128) (by omega)
      have hs := Spells.two (a := .ofNat (n / 64 % 32 + 192)) (b := .ofNat (n % 64 + 128))
        (by omega) (by omega) (by unfold IsTail; omega)
      rw [ha, hb] at hs
      rwa [show (n / 64 % 32 + 192 - 0xC0) * 64 + (n % 64 + 128 - 0x80) = n by omega] at hs
    · split
      · next h =>
        have ha := toNat_ofNat_of_lt (n := n / 4096 % 16 + 224) (by omega)
        have hb := toNat_ofNat_of_lt (n := n / 64 % 64 + 128) (by omega)
        have hc := toNat_ofNat_of_lt (n := n % 64 + 128) (by omega)
        have hs := Spells.three (a := .ofNat (n / 4096 % 16 + 224))
          (b := .ofNat (n / 64 % 64 + 128)) (c := .ofNat (n % 64 + 128))
          (by omega) (by omega) (by unfold IsTail; omega) (by omega) (by omega)
          (by unfold IsTail; omega)
        rw [ha, hb, hc] at hs
        rwa [show ((n / 4096 % 16 + 224 - 0xE0) * 64 + (n / 64 % 64 + 128 - 0x80)) * 64 +
          (n % 64 + 128 - 0x80) = n by omega] at hs
      · have ha := toNat_ofNat_of_lt (n := n / 262144 % 8 + 240) (by omega)
        have hb := toNat_ofNat_of_lt (n := n / 4096 % 64 + 128) (by omega)
        have hc := toNat_ofNat_of_lt (n := n / 64 % 64 + 128) (by omega)
        have hd := toNat_ofNat_of_lt (n := n % 64 + 128) (by omega)
        have hs := Spells.four (a := .ofNat (n / 262144 % 8 + 240))
          (b := .ofNat (n / 4096 % 64 + 128)) (c := .ofNat (n / 64 % 64 + 128))
          (d := .ofNat (n % 64 + 128)) (by omega) (by omega) (by unfold IsTail; omega) (by omega)
          (by omega) (by unfold IsTail; omega) (by unfold IsTail; omega)
        rw [ha, hb, hc, hd] at hs
        rwa [show (((n / 262144 % 8 + 240 - 0xF0) * 64 + (n / 4096 % 64 + 128 - 0x80)) * 64 +
          (n / 64 % 64 + 128 - 0x80)) * 64 + (n % 64 + 128 - 0x80) = n by omega] at hs

/-! ## 3. Reading -/

theorem start_eq (b : UInt8) : start b =
    if b.toNat < 0x80 then .complete (Char.ofNat b.toNat)
    else if b.toNat < 0xC2 then .broken
    else if b.toNat < 0xE0 then .opens ⟨b.toNat - 0xC0, 1, 0x80, 0xBF⟩
    else if b.toNat < 0xF0 then
      .opens ⟨b.toNat - 0xE0, 2, if b = 0xE0 then 0xA0 else 0x80, if b = 0xED then 0x9F else 0xBF⟩
    else if b.toNat < 0xF5 then
      .opens ⟨b.toNat - 0xF0, 3, if b = 0xF0 then 0x90 else 0x80, if b = 0xF4 then 0x8F else 0xBF⟩
    else .broken := by
  unfold start
  simp only [UInt8.lt_iff_toNat_lt]
  rfl

theorem takes_tail_iff {bits owed : Nat} {b : UInt8} :
    (Pending.mk bits owed 0x80 0xBF).takes b = true ↔ IsTail b := by
  unfold Pending.takes IsTail
  rw [Bool.and_eq_true, decide_eq_true_iff, decide_eq_true_iff, UInt8.le_iff_toNat_le,
    UInt8.le_iff_toNat_le]
  show 0x80 ≤ b.toNat ∧ b.toNat ≤ 0xBF ↔ _
  omega

theorem takes_limited_iff {bits owed : Nat} {a b : UInt8} (first last low high : UInt8)
    (hlow : 0x80 ≤ low.toNat) (hhigh : high.toNat < 0xC0) :
    (Pending.mk bits owed (if a = first then low else 0x80) (if a = last then high else 0xBF)).takes
        b = true ↔
      IsTail b ∧ (a.toNat = first.toNat → low.toNat ≤ b.toNat) ∧
        (a.toNat = last.toNat → b.toNat < high.toNat + 1) := by
  have h80 : (0x80 : UInt8).toNat = 0x80 := rfl
  have hBF : (0xBF : UInt8).toNat = 0xBF := rfl
  unfold Pending.takes IsTail
  rw [Bool.and_eq_true, decide_eq_true_iff, decide_eq_true_iff, UInt8.le_iff_toNat_le,
    UInt8.le_iff_toNat_le, UInt8.toNat_inj, UInt8.toNat_inj]
  split <;> split <;> simp_all <;> omega

theorem piecesFrom_last {bits : Nat} {low high b : UInt8}
    (hb : (Pending.mk bits 1 low high).takes b = true) :
    piecesFrom (some ⟨bits, 1, low, high⟩) (b :: rest) =
      some (Char.ofNat (bits * 64 + (b.toNat - 0x80))) :: piecesFrom none rest := by
  rw [piecesFrom, if_pos hb, if_pos (Nat.le_refl 1)]
  rfl

theorem piecesFrom_more {bits owed : Nat} {low high b : UInt8}
    (hb : (Pending.mk bits (owed + 2) low high).takes b = true) :
    piecesFrom (some ⟨bits, owed + 2, low, high⟩) (b :: rest) =
      piecesFrom (some ⟨bits * 64 + (b.toNat - 0x80), owed + 1, 0x80, 0xBF⟩) rest := by
  rw [piecesFrom, if_pos hb, if_neg (by simp)]
  rfl

/-- What is spelled is read so. -/
theorem Spells.piecesFrom_eq (h : Spells n bs) (rest : Bytes) :
    piecesFrom none (bs ++ rest) = some (Char.ofNat n) :: piecesFrom none rest := by
  cases h with
  | one ha =>
    rw [List.singleton_append, piecesFrom, start_eq, if_pos ha]
  | two ha ha' hb =>
    rw [List.cons_append, piecesFrom, start_eq, if_neg (by omega), if_neg (by omega), if_pos ha']
    exact piecesFrom_last (takes_tail_iff.mpr hb)
  | three ha ha' hb hlow hhigh hc =>
    rw [List.cons_append, piecesFrom, start_eq, if_neg (by omega), if_neg (by omega),
      if_neg (by omega), if_pos ha']
    refine (piecesFrom_more ?_).trans (piecesFrom_last (takes_tail_iff.mpr hc))
    exact (takes_limited_iff 0xE0 0xED 0xA0 0x9F (by decide) (by decide)).mpr ⟨hb, hlow, hhigh⟩
  | four ha ha' hb hlow hhigh hc hd =>
    rw [List.cons_append, piecesFrom, start_eq, if_neg (by omega), if_neg (by omega),
      if_neg (by omega), if_neg (by omega), if_pos ha']
    refine (piecesFrom_more ?_).trans ((piecesFrom_more (takes_tail_iff.mpr hc)).trans
      (piecesFrom_last (takes_tail_iff.mpr hd)))
    exact (takes_limited_iff 0xF0 0xF4 0x90 0x8F (by decide) (by decide)).mpr ⟨hb, hlow, hhigh⟩

/-! ## 4. Reading a whole string -/

theorem complete?_cons_some {c : Char} {ps : List (Option Char)} {cs : List Char} :
    complete? (some c :: ps) = some cs ↔ ∃ cs', complete? ps = some cs' ∧ c :: cs' = cs := by
  rw [complete?, Option.map_eq_some_iff]

/-- A pending character that is read to its end goes on with a byte that it takes. -/
theorem exists_of_pending {p : Pending} {cs : List Char}
    (h : complete? (piecesFrom (some p) bs) = some cs) :
    ∃ b rest, bs = b :: rest ∧ p.takes b = true ∧
      ((p.owed ≤ 1 ∧ ∃ cs', complete? (piecesFrom none rest) = some cs' ∧
          Char.ofNat (p.add b) :: cs' = cs) ∨
        (1 < p.owed ∧ complete? (piecesFrom (some (p.next b)) rest) = some cs)) := by
  cases bs with
  | nil => simp [piecesFrom, complete?] at h
  | cons b rest =>
    rw [piecesFrom] at h
    split at h
    · next htakes =>
      refine ⟨b, rest, rfl, htakes, ?_⟩
      split at h
      · next howed => exact Or.inl ⟨howed, complete?_cons_some.mp h⟩
      · next howed => exact Or.inr ⟨by omega, h⟩
    · simp [complete?] at h

theorem exists_of_pending_one {bits : Nat} {low high : UInt8} {cs : List Char}
    (h : complete? (piecesFrom (some ⟨bits, 1, low, high⟩) bs) = some cs) :
    ∃ b rest cs', bs = b :: rest ∧ (Pending.mk bits 1 low high).takes b = true ∧
      complete? (piecesFrom none rest) = some cs' ∧
      Char.ofNat (bits * 64 + (b.toNat - 0x80)) :: cs' = cs := by
  obtain ⟨b, rest, rfl, htakes, ⟨-, cs', hrest, hcs⟩ | ⟨howed, -⟩⟩ := exists_of_pending h
  · exact ⟨b, rest, cs', rfl, htakes, hrest, hcs⟩
  · exact absurd howed (Nat.lt_irrefl 1)

theorem exists_of_pending_more {bits owed : Nat} {low high : UInt8} {cs : List Char}
    (h : complete? (piecesFrom (some ⟨bits, owed + 2, low, high⟩) bs) = some cs) :
    ∃ b rest, bs = b :: rest ∧ (Pending.mk bits (owed + 2) low high).takes b = true ∧
      complete? (piecesFrom (some ⟨bits * 64 + (b.toNat - 0x80), owed + 1, 0x80, 0xBF⟩) rest) =
        some cs := by
  obtain ⟨b, rest, rfl, htakes, ⟨howed, -⟩ | ⟨-, hrest⟩⟩ := exists_of_pending h
  · exact absurd howed (by simp)
  · exact ⟨b, rest, rfl, htakes, hrest⟩

/-- A well-formed string that is not empty starts with the spelling of a character. -/
theorem exists_spells_of_complete? {a : UInt8} {cs : List Char}
    (h : complete? (piecesFrom none (a :: bs)) = some cs) :
    ∃ n front rest cs', a :: bs = front ++ rest ∧ Spells n front ∧
      complete? (piecesFrom none rest) = some cs' ∧ Char.ofNat n :: cs' = cs := by
  rw [piecesFrom, start_eq] at h
  by_cases h1 : a.toNat < 0x80
  · rw [if_pos h1] at h
    obtain ⟨cs', hrest, hcs⟩ := complete?_cons_some.mp h
    exact ⟨_, [a], bs, cs', rfl, .one h1, hrest, hcs⟩
  rw [if_neg h1] at h
  by_cases h2 : a.toNat < 0xC2
  · rw [if_pos h2] at h
    simp [complete?] at h
  rw [if_neg h2] at h
  by_cases h3 : a.toNat < 0xE0
  · rw [if_pos h3] at h
    obtain ⟨b, rest, cs', rfl, hb, hrest, hcs⟩ := exists_of_pending_one h
    exact ⟨_, [a, b], rest, cs', rfl, .two (by omega) h3 (takes_tail_iff.mp hb), hrest, hcs⟩
  rw [if_neg h3] at h
  by_cases h4 : a.toNat < 0xF0
  · rw [if_pos h4] at h
    obtain ⟨b, bs, rfl, hb, h⟩ := exists_of_pending_more h
    obtain ⟨c, rest, cs', rfl, hc, hrest, hcs⟩ := exists_of_pending_one h
    obtain ⟨htail, hlow, hhigh⟩ :=
      (takes_limited_iff 0xE0 0xED 0xA0 0x9F (by decide) (by decide)).mp hb
    exact ⟨_, [a, b, c], rest, cs', rfl,
      .three (by omega) h4 htail hlow hhigh (takes_tail_iff.mp hc), hrest, hcs⟩
  rw [if_neg h4] at h
  by_cases h5 : a.toNat < 0xF5
  · rw [if_pos h5] at h
    obtain ⟨b, bs, rfl, hb, h⟩ := exists_of_pending_more h
    obtain ⟨c, bs, rfl, hc, h⟩ := exists_of_pending_more h
    obtain ⟨d, rest, cs', rfl, hd, hrest, hcs⟩ := exists_of_pending_one h
    obtain ⟨htail, hlow, hhigh⟩ :=
      (takes_limited_iff 0xF0 0xF4 0x90 0x8F (by decide) (by decide)).mp hb
    exact ⟨_, [a, b, c, d], rest, cs', rfl,
      .four (by omega) h5 htail hlow hhigh (takes_tail_iff.mp hc) (takes_tail_iff.mp hd), hrest, hcs⟩
  · rw [if_neg h5] at h
    simp [complete?] at h

theorem complete?_pieces_flatMap (cs : List Char) :
    complete? (pieces (cs.flatMap String.utf8EncodeChar)) = some cs := by
  unfold pieces
  induction cs with
  | nil => rfl
  | cons c cs ih =>
    rw [List.flatMap_cons, (spells_encodeChar c).piecesFrom_eq, Char.ofNat_toNat, complete?, ih]
    rfl

theorem flatMap_of_complete?_pieces {cs : List Char} (h : complete? (pieces bs) = some cs) :
    cs.flatMap String.utf8EncodeChar = bs := by
  unfold pieces at h
  induction cs generalizing bs with
  | nil =>
    cases bs with
    | nil => rfl
    | cons a bs =>
      obtain ⟨n, front, rest, cs', -, -, -, hcs⟩ := exists_spells_of_complete? h
      exact absurd hcs (List.cons_ne_nil _ _)
  | cons c cs ih =>
    cases bs with
    | nil => simp [piecesFrom, complete?] at h
    | cons a bs =>
      obtain ⟨n, front, rest, cs', hbs, hspells, hrest, hcs⟩ := exists_spells_of_complete? h
      obtain ⟨rfl, rfl⟩ := List.cons.inj hcs
      rw [List.flatMap_cons, hspells.encodeChar_eq, ih hrest, hbs]

theorem encode_append (s t : String) : encode (s ++ t) = encode s ++ encode t := by
  unfold encode
  rw [String.toList_append, List.flatMap_append]

theorem encode_join (ss : List String) : encode (String.join ss) = ss.flatMap encode := by
  unfold encode
  rw [String.toList_join, List.flatMap_assoc]

theorem encode_toString (c : Char) : encode c.toString = String.utf8EncodeChar c := by
  simp [encode]

/-- The byte of an ASCII character is a byte of no other character. -/
theorem not_mem_encode {s : String} {c : Char} {b : UInt8} (hb : b.toNat = c.toNat) (hc : c.toNat < 0x80)
    (h : c ∉ s.toList) : b ∉ encode s := by
  intro hmem
  obtain ⟨c', hc', hbyte⟩ := List.mem_flatMap.mp hmem
  cases (spells_encodeChar c').toNat_eq_or_le hbyte with
  | inl heq =>
    obtain rfl : c = c' := Char.toNat_inj.mp (hb.symm.trans heq)
    exact h hc'
  | inr hle => omega

theorem decode?_encode (s : String) : decode? (encode s) = some s := by
  unfold decode? encode
  rw [complete?_pieces_flatMap, Option.map_some, String.ofList_toList]

/-- **A byte string is read as a text if and only if the text is written as it.** -/
theorem decode?_eq_some_iff {s : String} : decode? bs = some s ↔ encode s = bs := by
  constructor
  · intro h
    obtain ⟨cs, hcs, rfl⟩ := Option.map_eq_some_iff.mp h
    unfold encode
    rw [String.toList_ofList]
    exact flatMap_of_complete?_pieces hcs
  · rintro rfl
    exact decode?_encode s

end Citator.Utf8
