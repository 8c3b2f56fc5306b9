import Citator.Proofs.Json.Strings

/-!
# `Citator.Proofs.Json.Structure` — lists and objects that were written are read back

The elements of a list and the members of an object stand one behind the other, with a comma in front
of each but the first. So whether something is the first is all that is to be known of what came
before it, for the writing (`separated`) and for the reading alike, and both are followed element by
element.

The other half of the module asks what is known of an answer when the text is not. An element was
answered by the reading of elements, a record by one of its two readings, and what holds after no
member and is kept by every member holds in the end.
-/

namespace Citator.Json

/-! ## 1. The bytes of a value -/

def bytes (v : Json) : Bytes := Utf8.encode v.compact

def separator (first : Bool) : Bytes := if first then [] else [0x2C]

/-- Several parts, each behind a comma but the first of all. -/
def separated : Bool → List Bytes → Bytes
  | _, [] => []
  | first, part :: parts => separator first ++ part ++ separated false parts

def memberBytes (m : String × Json) : Bytes := Utf8.encode (quoted m.1) ++ 0x3A :: m.2.bytes

/-- Texts with commas between them are written part by part, since a comma is a byte of its own and
encoding goes along a text. From here on it is the bytes of each part that are followed, and not the
text of the whole. -/
theorem encode_intercalate (ss : List String) :
    Utf8.encode (String.intercalate "," ss) = separated true (ss.map Utf8.encode) := by
  have hcomma : [','].flatMap String.utf8EncodeChar = [0x2C] := rfl
  unfold Utf8.encode
  rw [String.toList_intercalate]
  induction ss with
  | nil => rfl
  | cons s ss ih =>
    cases ss with
    | nil => simp [separated, separator]
    | cons s' ss =>
      rw [List.map_cons, List.map_cons] at ih
      rw [List.map_cons, List.map_cons, List.intercalate_cons_cons, List.flatMap_append,
        List.flatMap_append, ih]
      simp only [List.map_cons, separated, separator, if_true, Bool.false_eq_true, if_false,
        List.nil_append, List.append_assoc]
      rfl

/-- Each part takes a byte at least, the comma in front of it. A reading of elements has as many rounds
as the text has bytes, and this is why they suffice. -/
theorem length_le_separated (parts : List Bytes) : parts.length ≤ (separated false parts).length := by
  induction parts with
  | nil => exact Nat.le_refl _
  | cons part parts ih =>
    have hcomma : (separator false).length = 1 := rfl
    rw [separated, List.length_cons, List.length_append, List.length_append, hcomma]
    omega

/-- The bytes that a list takes are no fewer than its elements, but for the comma that the first one
does without. The rounds have one to spare for it. -/
theorem length_le_separated_succ (first : Bool) (parts : List Bytes) :
    parts.length ≤ (separated first parts).length + 1 := by
  cases parts with
  | nil => exact Nat.zero_le _
  | cons part parts =>
    have hparts := length_le_separated parts
    rw [separated, List.length_cons, List.length_append]
    omega

theorem compactItems_eq (vs : List Json) : compactItems vs = vs.map compact := by
  induction vs with
  | nil => rfl
  | cons v vs ih => rw [compactItems, ih, List.map_cons]

theorem compactMembers_eq (ms : List (String × Json)) :
    compactMembers ms = ms.map fun m => quoted m.1 ++ ":" ++ m.2.compact := by
  induction ms with
  | nil => rfl
  | cons m ms ih => rw [compactMembers, ih, List.map_cons]

theorem bytes_text (s : String) : (Json.text s).bytes = Utf8.encode (quoted s) := by
  rw [bytes, compact]

/-- What a list is written as, taken apart into its brackets and its elements. The proofs about reading
go along the elements and do not see a text again. -/
theorem bytes_array (vs : List Json) :
    (Json.array vs).bytes = 0x5B :: (separated true (vs.map bytes) ++ [0x5D]) := by
  have hopen : Utf8.encode "[" = [0x5B] := rfl
  have hclose : Utf8.encode "]" = [0x5D] := rfl
  rw [bytes, compact, Utf8.encode_append, Utf8.encode_append, hopen, hclose, encode_intercalate,
    compactItems_eq, List.map_map]
  rfl

/-- The same for an object. A colon is a byte of its own too, so a member is its name, the colon and
its value. -/
theorem bytes_object (ms : List (String × Json)) :
    (Json.object ms).bytes = 0x7B :: (separated true (ms.map memberBytes) ++ [0x7D]) := by
  have hopen : Utf8.encode "\x7b" = [0x7B] := rfl
  have hclose : Utf8.encode "\x7d" = [0x7D] := rfl
  have hcolon : Utf8.encode ":" = [0x3A] := rfl
  rw [bytes, compact, Utf8.encode_append, Utf8.encode_append, hopen, hclose, encode_intercalate,
    compactMembers_eq, List.map_map]
  have hmember : Utf8.encode ∘ (fun m : String × Json => quoted m.1 ++ ":" ++ m.2.compact) =
      memberBytes := by
    funext m
    rw [Function.comp_apply, Utf8.encode_append, Utf8.encode_append, hcolon, List.append_assoc]
    rfl
  rw [hmember]
  rfl

namespace Reading

variable {α σ : Type} {bs mid rest : Bytes} {a : α} {as : List α} {p : Problem}
  {u : UInt8} {n : Nat} {first : Bool} {item : Reading α}

/-! ## 2. Lists -/

/-- Another element is there if something else than a bracket comes next, behind the comma unless it is
the first. What comes next must not be white space, which would be passed over, and is none where a
value was written. -/
theorem reads_hasElement (hspace : isSpace u = false) (hend : u ≠ 0x5D) :
    Reads (hasElement first) (separator first ++ u :: bs) true (u :: bs) := by
  unfold hasElement separator
  cases first with
  | true =>
    refine (reads_peekPastSpace_cons hspace).bind ?_
    simp only [hend, if_false, if_true]
    exact reads_pure true _
  | false =>
    refine (reads_peekPastSpace_cons rfl).bind ?_
    refine (reads_skip 0x2C _).bind ((reads_peekPastSpace_cons hspace).bind ?_)
    simp only [hend, if_false]
    exact reads_pure true _

/-- Where the bracket comes next no element is left, and this is so whether or not there was one
before: a list that was written has no comma at its end. The bracket itself stays for the list to read.
-/
theorem reads_hasElement_end (rest : Bytes) :
    Reads (hasElement first) (0x5D :: rest) false (0x5D :: rest) := by
  unfold hasElement
  exact (reads_peekPastSpace_cons rfl).bind (reads_pure false _)

theorem reads_elements_nil (rest : Bytes) :
    Reads (elements item (n + 1) first) (0x5D :: rest) [] (0x5D :: rest) := by
  rw [elements]
  exact (reads_hasElement_end rest).bind (reads_pure [] _)

/-- What comes of the elements comes of the first of them and the others. It is stated for any outcome,
since a list fails by the first of its elements that does. -/
theorem Ends.elements {o : Except Problem (List α × Bytes)}
    (hfirst : Reads (hasElement first) bs true mid)
    (h : Ends (do return (← item) :: (← Reading.elements item n false)) mid o) :
    Ends (Reading.elements item (n + 1) first) bs o := by
  rw [Reading.elements]
  exact hfirst.bind h

theorem reads_listEnd (rest : Bytes) : Reads listEnd (0x5D :: rest) () rest := by
  unfold listEnd
  exact (reads_peekPastSpace_cons rfl).bind (reads_skip 0x5D rest)

/-- A list is read where its elements are, up to the bracket behind them. They are read with as many
rounds as the bytes behind the opening bracket allow for. -/
theorem Reads.list (h : Reads (elements item (2 * bs.length + 2) true) bs as (0x5D :: rest)) :
    Reads (Reading.list (some item)) (0x5B :: bs) as rest := by
  unfold Reading.list
  refine (reads_valueStart rfl).bind ?_
  rw [if_pos rfl]
  exact (((reads_skip 0x5B bs).bind h.bounded).closedBy (reads_listEnd rest)).placed

/-- A problem among the elements is the problem of the list. The end of the list is looked for all the
same, but what comes of that changes neither the problem nor its place. -/
theorem Fails.list (h : Fails (elements item (2 * bs.length + 2) true) bs p) :
    Fails (Reading.list (some item)) (0x5B :: bs) p := by
  unfold Reading.list
  refine (reads_valueStart rfl).bind ?_
  rw [if_pos rfl]
  refine Ends.placed (Fails.closedBy ?_ listEnd)
  exact (reads_skip 0x5B bs).bind h.bounded

/-- A list that is not allowed any more is noticed at its bracket, whether there is anything in it. -/
theorem fails_list_none (bs : Bytes) :
    Fails (Reading.list (none : Option (Reading α))) (0x5B :: bs) .recursionLimit := by
  unfold Reading.list
  refine (reads_valueStart rfl).bind ?_
  rw [if_pos rfl]
  exact fails_failAtNext _ _

/-! ## 3. Objects -/

section Members

variable {member : σ → String → Reading σ} {s : σ} {key : String}

theorem reads_hasMember : Reads (hasMember first) (separator first ++ 0x22 :: bs) true (0x22 :: bs) := by
  unfold hasMember separator
  cases first with
  | true => exact (reads_peekPastSpace_cons rfl).bind (reads_pure true _)
  | false =>
    refine (reads_peekPastSpace_cons rfl).bind ?_
    exact (reads_skip 0x2C _).bind ((reads_peekPastSpace_cons rfl).bind (reads_pure true _))

theorem reads_colon (rest : Bytes) : Reads colon (0x3A :: rest) () rest := by
  unfold colon
  exact (reads_peekPastSpace_cons rfl).bind (reads_skip 0x3A rest)

theorem reads_members_nil (rest : Bytes) (s : σ) :
    Reads (members member (n + 1) first s) (0x7D :: rest) s (0x7D :: rest) := by
  have hend : Reads (hasMember first) (0x7D :: rest) false (0x7D :: rest) := by
    unfold hasMember
    exact (reads_peekPastSpace_cons rfl).bind (reads_pure false _)
  rw [members]
  exact hend.bind (reads_pure s _)

/-- What comes of the members comes of the first of them, behind its name, and the others. What was
read of the members before is handed on, and the reading of the next may depend on it. -/
theorem Ends.members {o : Except Problem (σ × Bytes)}
    (h : Ends (do Reading.members member n false (← member s key)) mid o) :
    Ends (Reading.members member (n + 1) first s)
      (separator first ++ (Utf8.encode (quoted key) ++ mid)) o := by
  rw [Reading.members, encode_quoted, List.cons_append, List.append_assoc]
  refine reads_hasMember.bind ?_
  exact (reads_skip 0x22 _).bind ((reads_string key mid).bind h)

end Members

theorem reads_objectEnd (rest : Bytes) : Reads objectEnd (0x7D :: rest) () rest := by
  unfold objectEnd
  exact (reads_peekPastSpace_cons rfl).bind (reads_skip 0x7D rest)

section Record

variable {name : String} {inOrder : Option (Reading α)} {byName : Reading α}

/-- A record that was written by name is read by name: the brace decides, and the other way to read it
is not asked for. -/
theorem Reads.record (h : Reads byName bs a (0x7D :: rest)) :
    Reads (Reading.record name inOrder (some byName)) (0x7B :: bs) a rest := by
  unfold Reading.record
  refine (reads_valueStart rfl).bind ?_
  rw [if_neg (by decide), if_pos rfl]
  exact (((reads_skip 0x7B bs).bind h).closedBy (reads_objectEnd rest)).placed

theorem Fails.record (h : Fails byName bs p) :
    Fails (Reading.record name inOrder (some byName)) (0x7B :: bs) p := by
  unfold Reading.record
  refine (reads_valueStart rfl).bind ?_
  rw [if_neg (by decide), if_pos rfl]
  refine Ends.placed (Fails.closedBy ?_ objectEnd)
  exact (reads_skip 0x7B bs).bind h

end Record

/-! ## 4. Whole texts -/

/-- What `run` does with the cursor in front of a text: after the value only white space may follow. -/
def whole (r : Reading α) : Reading α := placed do
  let a ← r
  match ← peekPastSpace with
  | none => return a
  | some _ => failAtNext .trailingCharacters

theorem run_eq (r : Reading α) (bs : Bytes) : run r bs =
    match (whole r { rest := bs }).1 with
    | .ok a => .ok a
    | .error e => .error ⟨e.problem, (e.place.getD (0, 0)).1, (e.place.getD (0, 0)).2⟩ := rfl

/-- A text is a value if a reading of the value leaves nothing. Bytes that are left, be they a second
value, would be a problem of their own. -/
theorem run_of_reads {r : Reading α} (h : Reads r bs a []) : run r bs = .ok a := by
  have hend : Reads peekPastSpace [] none [] := reads_peekPastSpace (by simp)
  have hwhole : Reads (whole r) bs a [] := (h.bind (hend.bind (reads_pure a []))).placed
  obtain ⟨c, hc, _⟩ := hwhole { rest := bs } rfl
  rw [run_eq, hc]

/-- The problem that a reading comes upon is the one that is reported. The place depends on where the
cursor started, and is left open here, as nothing is claimed of it. -/
theorem run_of_fails {r : Reading α} (h : Fails r bs p) :
    ∃ e, run r bs = .error e ∧ e.problem = p := by
  have hwhole : Fails (whole r) bs p := Ends.placed (h.bind _)
  obtain ⟨place, c, hc⟩ := hwhole { rest := bs } rfl
  refine ⟨⟨p, place.1, place.2⟩, ?_, rfl⟩
  rw [run_eq, hc]
  rfl

/-! ## 5. Answers to any text -/

section Yields

variable {β : Type} {r : Reading α} {f : α → Reading β} {P : α → Prop} {Q : β → Prop}

/-- The reading answers with nothing that lacks the property. -/
def Yields (r : Reading α) (P : α → Prop) : Prop := ∀ c a c', r c = (.ok a, c') → P a

theorem Yields.imp {P' : α → Prop} (h : Yields r P) (hi : ∀ a, P a → P' a) : Yields r P' :=
  fun c a c' hr => hi a (h c a c' hr)

theorem yields_pure (h : P a) : Yields (pure a) P := by
  intro c a' c' hr
  obtain ⟨rfl⟩ := Except.ok.inj (Prod.mk.inj hr).1
  exact h

theorem yields_failHere (p : Problem) : Yields (failHere p) P :=
  fun _ _ _ hr => absurd (Prod.mk.inj hr).1 (by simp)

theorem yields_failAtNext (p : Problem) : Yields (failAtNext p) P :=
  fun _ _ _ hr => absurd (Prod.mk.inj hr).1 (by simp)

theorem yields_fail (p : Problem) : Yields (fail p) P :=
  fun _ _ _ hr => absurd (Prod.mk.inj hr).1 (by simp)

/-- What is known of the first answer may be used for the second. A reading that fails answers nothing,
so only answers are followed. -/
theorem Yields.bind (h : Yields r P) (h' : ∀ a, P a → Yields (f a) Q) : Yields (r >>= f) Q := by
  intro c b c' hb
  rw [bind_eq] at hb
  split at hb
  · next a c₁ hr => exact h' a (h c a c₁ hr) c₁ b c' hb
  · exact absurd (Prod.mk.inj hb).1 (by simp)

/-- If the last of several readings has the property whatever was read before it, so has the whole.
Most readings look at a byte first, and this passes over that. -/
theorem yields_bind (h : ∀ a, Yields (f a) Q) : Yields (r >>= f) Q :=
  Yields.bind (P := fun _ => True) (fun _ _ _ _ => trivial) fun a _ => h a

theorem Yields.bounded {r : Nat → Reading α} (h : ∀ n, Yields (r n) P) :
    Yields (Reading.bounded r) P :=
  fun c => h _ c

theorem Yields.placed (h : Yields r P) : Yields (Reading.placed r) P := by
  intro c a c' hr
  unfold Reading.placed at hr
  split at hr
  · exact absurd (Prod.mk.inj hr).1 (by simp)
  · exact h c a c' hr

/-- What is read to close a body can make the whole fail and cannot change the answer. -/
theorem Yields.closedBy (h : Yields r P) (close : Reading Unit) :
    Yields (Reading.closedBy r close) P := by
  intro c a c' hr
  unfold Reading.closedBy at hr
  split at hr
  · next a₁ c₁ ha =>
    have hp := h c a₁ c₁ ha
    split at hr
    · obtain ⟨rfl⟩ := Except.ok.inj (Prod.mk.inj hr).1
      exact hp
    · exact absurd (Prod.mk.inj hr).1 (by simp)
  · exact absurd (Prod.mk.inj hr).1 (by simp)

theorem yields_wrongType (expected : Expected) : Yields (wrongType expected) P :=
  yields_bind fun _ => yields_failHere _

theorem yields_enclosed {inside : Option (Reading α)} {close : Reading Unit}
    (h : ∀ body ∈ inside, Yields body P) : Yields (enclosed inside close) P := by
  unfold enclosed
  cases inside with
  | none => exact yields_failAtNext _
  | some body => exact ((yields_bind fun _ => h body rfl).closedBy close).placed

/-- Every element is an answer of one and the same reading. The induction is on the rounds, as nothing
is known of the text that could be followed. -/
theorem yields_elements (h : Yields item P) :
    Yields (elements item n first) fun as => ∀ a ∈ as, P a := by
  induction n generalizing first with
  | zero => exact yields_failHere _
  | succ n ih =>
    rw [elements]
    refine yields_bind fun more => ?_
    cases more with
    | true =>
      refine h.bind fun a ha => ih.bind fun as has => yields_pure ?_
      exact List.forall_mem_cons.mpr ⟨ha, has⟩
    | false => exact yields_pure (fun _ hmem => absurd hmem (by simp))

/-- An answer shows as well that a list was allowed at this level, since otherwise there is none. -/
theorem yields_list {item : Option (Reading α)} (h : ∀ r ∈ item, Yields r P) :
    Yields (Reading.list item) fun as => item.isSome ∧ ∀ a ∈ as, P a := by
  unfold Reading.list
  refine yields_bind fun u => ?_
  split
  · refine yields_enclosed fun body hbody => ?_
    obtain ⟨r, hr, rfl⟩ := Option.map_eq_some_iff.mp hbody
    refine Yields.bounded fun n => ?_
    intro c as c' has
    exact ⟨by rw [hr]; rfl, yields_elements (h r hr) c as c' has⟩
  · exact yields_wrongType _

/-- What holds before the first member and is kept by every member holds in the end. Members come in
any order and any number, so a property of the whole object has to be of this kind. -/
theorem yields_members {member : σ → String → Reading σ} {P : σ → Prop} {s : σ} (hs : P s)
    (h : ∀ s key, P s → Yields (member s key) P) : Yields (members member n first s) P := by
  induction n generalizing first s with
  | zero => exact yields_failHere _
  | succ n ih =>
    rw [members]
    refine yields_bind fun more => ?_
    cases more with
    | true => exact yields_bind fun _ => yields_bind fun key => (h s key hs).bind fun s' hs' => ih hs'
    | false => exact yields_pure hs

/-- A record is read in order or by name. Which of the two it was does not show in the answer, so both
have to have the property. -/
theorem yields_record {name : String} {inOrder byName : Option (Reading α)}
    (ho : ∀ body ∈ inOrder, Yields body P) (hn : ∀ body ∈ byName, Yields body P) :
    Yields (record name inOrder byName) P := by
  unfold record
  refine yields_bind fun u => ?_
  split
  · exact yields_enclosed ho
  · split
    · exact yields_enclosed hn
    · exact yields_wrongType _

theorem yields_fieldInOrder (h : Yields r P) :
    Yields (fieldInOrder first r) fun o => ∀ a ∈ o, P a := by
  unfold fieldInOrder
  refine yields_bind fun more => ?_
  cases more with
  | true =>
    refine h.bind fun a ha => yields_pure ?_
    intro a' ha'
    obtain rfl := Option.some.inj ha'
    exact ha
  | false => exact yields_pure (fun _ hmem => absurd hmem (by simp))

theorem yields_fieldByName {name : String} {before : Option α} (h : Yields r P) :
    Yields (fieldByName name before r) P := by
  unfold fieldByName
  split
  · exact yields_fail _
  · exact yields_bind fun _ => h

theorem Yields.whole (h : Yields r P) : Yields (Reading.whole r) P := by
  refine Yields.placed (h.bind fun a ha => yields_bind fun next => ?_)
  cases next with
  | none => exact yields_pure ha
  | some u => exact yields_failAtNext _

/-- What every answer of the reading has, the value of a text has: a run adds nothing to the answer, it
only refuses some. -/
theorem Yields.run (h : Yields r P) (ha : Reading.run r bs = .ok a) : P a := by
  rw [run_eq] at ha
  split at ha
  · next a' ha' =>
    obtain rfl := Except.ok.inj ha
    exact h.whole { rest := bs } a' _ (Prod.ext ha' rfl)
  · exact absurd ha (by simp)

end Yields
end Reading
end Citator.Json
