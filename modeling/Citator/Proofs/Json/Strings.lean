import Citator.Proofs.Json.Reads

/-!
# `Citator.Proofs.Json.Strings` — a string that was written is read back

Between its quotes a text is written character by character, and read byte by byte. A character that
is escaped is read in one round. Any other takes a round for each of its bytes, none of which is a
quote, a backslash or a control, since the bytes of a character outside ASCII are all too great for
that. What has been read in the end are the bytes of the text, which are decoded as a whole.
-/

namespace Citator.Json.Reading

variable {bs out rest : Bytes} {u : UInt8} {n : Nat} {c : Char}

/-- With as many rounds as there are bytes, and one more, the bytes of a string are read up to its
closing quote. -/
def ReadsString (bs out rest : Bytes) : Prop :=
  ∀ n, bs.length < n → Reads (stringBytes n) bs out rest

theorem readsString_nil (rest : Bytes) : ReadsString (0x22 :: rest) [] (0x22 :: rest) := by
  intro n hn
  cases n with
  | zero => exact absurd hn (Nat.not_lt_zero _)
  | succ n =>
    rw [stringBytes]
    exact (reads_peek _).bind (reads_pure [] _)

/-! ## 1. Bytes that stand for themselves -/

/-- A byte that a string may hold as it is. -/
def IsPlain (u : UInt8) : Prop := u ≠ 0x22 ∧ u ≠ 0x5C ∧ ¬ u < 0x20

theorem ReadsString.plain (hu : IsPlain u) (h : ReadsString bs out rest) :
    ReadsString (u :: bs) (u :: out) rest := by
  obtain ⟨hquote, hbackslash, hcontrol⟩ := hu
  intro n hn
  cases n with
  | zero => exact absurd hn (Nat.not_lt_zero _)
  | succ n =>
    have hrest := h n (Nat.lt_of_succ_lt_succ hn)
    rw [stringBytes]
    refine (reads_peek _).bind ?_
    simp only [List.head?_cons]
    rw [if_neg hquote]
    refine (reads_skip u bs).bind ?_
    rw [if_neg hbackslash, if_neg hcontrol]
    exact hrest.bind (reads_pure (u :: out) rest)

theorem ReadsString.plainAll {us : Bytes} (hus : ∀ u ∈ us, IsPlain u)
    (h : ReadsString bs out rest) : ReadsString (us ++ bs) (us ++ out) rest := by
  induction us with
  | nil => exact h
  | cons u us ih =>
    have hrest := ih fun v hv => hus v (List.mem_cons_of_mem _ hv)
    exact hrest.plain (hus u List.mem_cons_self)

theorem isPlain_of_toNat (h : 0x20 ≤ u.toNat) (hquote : u.toNat ≠ 0x22)
    (hbackslash : u.toNat ≠ 0x5C) : IsPlain u := by
  refine ⟨?_, ?_, ?_⟩
  · rintro rfl
    exact hquote rfl
  · rintro rfl
    exact hbackslash rfl
  · rw [UInt8.lt_iff_toNat_lt]
    exact Nat.not_lt.mpr h

/-- The bytes of a character outside ASCII are greater than any byte that means something in a string.
So such a character neither ends the string nor starts an escape, and no byte of it has to be looked at
on its own. -/
theorem isPlain_of_mem_encodeChar (hc : 0x20 ≤ c.toNat) (hquote : c ≠ '"') (hbackslash : c ≠ '\\')
    (hu : u ∈ String.utf8EncodeChar c) : IsPlain u := by
  have hquote' : c.toNat ≠ 0x22 := fun h => hquote (Char.toNat_inj.mp h)
  have hbackslash' : c.toNat ≠ 0x5C := fun h => hbackslash (Char.toNat_inj.mp h)
  have hbyte := (Utf8.spells_encodeChar c).toNat_eq_or_le hu
  exact isPlain_of_toNat (by omega) (by omega) (by omega)

/-! ## 2. Escapes -/

/-- An escape takes one round and at least one byte behind the backslash, so the rounds still suffice.
What it is read as is a character, whose bytes are put behind those that were read. -/
theorem ReadsString.escaped {es : Bytes} (he : Reads escape es c bs) (hlen : bs.length ≤ es.length)
    (h : ReadsString bs out rest) :
    ReadsString (0x5C :: es) (String.utf8EncodeChar c ++ out) rest := by
  intro n hn
  cases n with
  | zero => exact absurd hn (Nat.not_lt_zero _)
  | succ n =>
    have hrest := h n (Nat.lt_of_le_of_lt hlen (Nat.lt_of_succ_lt_succ hn))
    rw [stringBytes]
    refine (reads_peek _).bind ?_
    refine (reads_skip 0x5C es).bind ?_
    exact he.bind (hrest.bind (reads_pure _ rest))

theorem reads_escape_letter (hu : u ≠ 0x75) (h : letterEscape? u = some c) :
    Reads escape (u :: bs) c bs := by
  unfold escape
  refine (reads_next u bs).bind ?_
  simp only [hu, if_false, h]
  exact reads_pure c bs

theorem reads_hexEscape {a b c d : UInt8} (h : hexValue4? a b c d = some n) :
    Reads hexEscape (a :: b :: c :: d :: bs) n bs := by
  unfold hexEscape
  refine (reads_next a _).bind ((reads_next b _).bind ((reads_next c _).bind ((reads_next d _).bind ?_)))
  simp only [h]
  exact reads_pure n bs

/-- Below the surrogates four digits are a character of their own. Only controls are written with
digits, and they are all below. -/
theorem reads_escape_hex {x y z w : UInt8} (h : hexValue4? x y z w = some n) (hn : n < 0xD800) :
    Reads escape (0x75 :: x :: y :: z :: w :: bs) (Char.ofNat n) bs := by
  unfold escape
  refine (reads_next 0x75 _).bind ?_
  show Reads unicodeEscape _ _ _
  unfold unicodeEscape
  refine (reads_hexEscape h).bind ?_
  rw [if_neg (by omega), if_neg (by omega)]
  exact reads_pure _ bs

theorem ReadsString.letter (hu : u ≠ 0x75) (hc : letterEscape? u = some c)
    (h : ReadsString bs out rest) :
    ReadsString (0x5C :: u :: bs) (String.utf8EncodeChar c ++ out) rest :=
  h.escaped (reads_escape_letter hu hc) (Nat.le_succ _)

/-- The byte of a hexadecimal digit. -/
def hexByte (n : Nat) : UInt8 := .ofNat (if n < 10 then 0x30 + n else 0x57 + n)

/-- A control is written with two zeros and two digits, whether one zero of its own or two are put in
front. -/
theorem encode_control : ∀ n < 0x20,
    Utf8.encode (if n < 0x10 then "\\u000" ++ Text.hexDigits n else "\\u00" ++ Text.hexDigits n) =
        [0x5C, 0x75, 0x30, 0x30, hexByte (n / 16), hexByte (n % 16)] ∧
      hexValue4? 0x30 0x30 (hexByte (n / 16)) (hexByte (n % 16)) = some n := by
  decide +kernel

theorem ReadsString.control (hc : c.toNat < 0x20) (h : ReadsString bs out rest) :
    ReadsString (Utf8.encode (if c.toNat < 0x10 then "\\u000" ++ Text.hexDigits c.toNat
      else "\\u00" ++ Text.hexDigits c.toNat) ++ bs) (String.utf8EncodeChar c ++ out) rest := by
  obtain ⟨hbytes, hvalue⟩ := encode_control c.toNat hc
  have hread : Reads escape _ (Char.ofNat c.toNat) bs := reads_escape_hex hvalue (by omega)
  rw [Char.ofNat_toNat] at hread
  rw [hbytes]
  exact h.escaped hread (Nat.le_add_right bs.length 5)

/-! ## 3. Whole strings -/

/-- A character is read back, whichever way it is written. -/
theorem ReadsString.char (c : Char) (h : ReadsString bs out rest) :
    ReadsString (Utf8.encode (escapedChar c) ++ bs) (String.utf8EncodeChar c ++ out) rest := by
  unfold escapedChar
  split
  · next hc =>
    subst hc
    exact h.letter (u := 0x22) (by decide) rfl
  split
  · next hc =>
    subst hc
    exact h.letter (u := 0x5C) (by decide) rfl
  split
  · next hc =>
    subst hc
    exact h.letter (u := 0x6E) (by decide) rfl
  split
  · next hc =>
    subst hc
    exact h.letter (u := 0x72) (by decide) rfl
  split
  · next hc =>
    subst hc
    exact h.letter (u := 0x74) (by decide) rfl
  split
  · next hc =>
    subst hc
    exact h.letter (u := 0x62) (by decide) rfl
  split
  · next hc =>
    subst hc
    exact h.letter (u := 0x66) (by decide) rfl
  split
  · next hc =>
    have hcontrol := h.control (c := c) (by omega)
    rwa [if_pos hc] at hcontrol
  split
  · next hlow hc =>
    have hcontrol := h.control hc
    rwa [if_neg hlow] at hcontrol
  · next hquote hbackslash _ _ _ _ _ _ hc =>
    rw [Utf8.encode_toString]
    exact h.plainAll fun u hu => isPlain_of_mem_encodeChar (Nat.not_lt.mp hc) hquote hbackslash hu

/-- The bytes between the quotes. -/
def inner (cs : List Char) : Bytes := cs.flatMap fun c => Utf8.encode (escapedChar c)

theorem encode_quoted (s : String) :
    Utf8.encode (quoted s) = 0x22 :: (inner s.toList ++ [0x22]) := by
  have hquote : Utf8.encode "\"" = [0x22] := rfl
  unfold quoted inner
  rw [Utf8.encode_append, Utf8.encode_append, hquote, Utf8.encode_join, List.flatMap_map]
  rfl

theorem readsString_inner (cs : List Char) (rest : Bytes) :
    ReadsString (inner cs ++ 0x22 :: rest) (cs.flatMap String.utf8EncodeChar) (0x22 :: rest) := by
  induction cs with
  | nil => exact readsString_nil rest
  | cons c cs ih =>
    rw [inner, List.flatMap_cons, List.flatMap_cons, List.append_assoc]
    exact ih.char c

/-- Behind its opening quote a text is read back, and the closing quote is passed over. -/
theorem reads_string (s : String) (rest : Bytes) :
    Reads string (inner s.toList ++ 0x22 :: rest) s rest := by
  have hbytes := readsString_inner s.toList rest _ (Nat.lt_of_lt_of_le (Nat.lt_succ_self _)
    (by omega : (inner s.toList ++ 0x22 :: rest).length + 1 ≤
      2 * (inner s.toList ++ 0x22 :: rest).length + 2))
  have hdecode : Utf8.decode? (s.toList.flatMap String.utf8EncodeChar) = some s := Utf8.decode?_encode s
  unfold string
  refine hbytes.bounded.bind ((reads_skip 0x22 rest).bind ?_)
  simp only [hdecode]
  exact reads_pure s rest

/-- **A text that was written is read back**, as whatever it was meant. -/
theorem reads_text (expected : Expected) (s : String) (rest : Bytes) :
    Reads (text expected) (Utf8.encode (quoted s) ++ rest) s rest := by
  rw [encode_quoted, List.cons_append, List.append_assoc]
  unfold text
  refine (reads_valueStart rfl).bind ?_
  rw [if_pos rfl]
  exact (reads_skip 0x22 _).bind (reads_string s rest)

end Citator.Json.Reading
