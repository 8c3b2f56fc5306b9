import Citator.Proofs.Json.Structure
import Citator.Proofs.Path.Strip
import Citator.Proofs.RefTree.Nodes
import Citator.RefTree.Json

/-!
# `Citator.Proofs.RefTree.Json` — trees go through JSON unchanged

A node opens an object, and its links a list inside it, so a tree of height `m` needs `2 * m + 1`
levels: its links need the levels that are left after two. What the levels suffice for is read back as
it was written, behind whatever text and in front of whatever text it stands. What they do not suffice
for is refused at the bracket that is one too many.

Conversely a tree that was read, from a text of any form, is no higher than its levels allow and holds
names only, so it can be written and read once more.
-/

namespace Citator

namespace RefTree

open Json Json.Reading

variable {f : Path} {t : RefTree} {ts ls : List RefTree} {v : Json} {vs : List Json} {name : String}
  {bs rest : Bytes} {p : Problem} {m n : Nat} {first : Bool}

/-! ## 1. The text of a tree -/

/-- A node as it is written. No links are written as no member. -/
def nodeJson (name : String) : List Json → Json
  | [] => .object [("filename", .text name)]
  | v :: vs => .object [("filename", .text name), ("links", .array (v :: vs))]

/-- A node up to and with its file name, and what follows. -/
def opening (name : String) (rest : Bytes) : Bytes :=
  0x7B :: (separator true ++ (Utf8.encode (quoted "filename") ++
    0x3A :: (Utf8.encode (quoted name) ++ rest)))

/-- The name of the links, in front of them. -/
def linksName (rest : Bytes) : Bytes :=
  separator false ++ (Utf8.encode (quoted "links") ++ 0x3A :: rest)

theorem bytes_nodeJson_nil (name : String) (rest : Bytes) :
    (nodeJson name []).bytes ++ rest = opening name (0x7D :: rest) := by
  rw [nodeJson, bytes_object, opening]
  simp only [List.map_cons, List.map_nil, separated, memberBytes, bytes_text, List.cons_append,
    List.nil_append, List.append_assoc]

theorem bytes_nodeJson_cons (name : String) (v : Json) (vs : List Json) (rest : Bytes) :
    (nodeJson name (v :: vs)).bytes ++ rest =
      opening name (linksName (0x5B :: (separated true ((v :: vs).map bytes) ++
        0x5D :: 0x7D :: rest))) := by
  rw [nodeJson, bytes_object, opening, linksName]
  simp only [List.map_cons, List.map_nil, separated, memberBytes, bytes_text, bytes_array,
    List.cons_append, List.nil_append, List.append_assoc, List.append_nil]

theorem bytes_nodeJson (name : String) (vs : List Json) :
    ∃ bs, (nodeJson name vs).bytes = 0x7B :: bs := by
  cases vs with
  | nil => exact ⟨_, bytes_object _⟩
  | cons v vs => exact ⟨_, bytes_object _⟩

theorem toJson?_eq_some (h : (node f ls).toJson? = some v) :
    ∃ name vs, f = .ofString name ∧ toJsonAll? ls = some vs ∧ v = nodeJson name vs := by
  rw [toJson?] at h
  split at h
  · next name hname hls =>
    obtain rfl := Option.some.inj h
    exact ⟨name, [], Path.text?_eq_some_iff.mp hname, hls, rfl⟩
  · next name w ws hname hls =>
    obtain rfl := Option.some.inj h
    exact ⟨name, w :: ws, Path.text?_eq_some_iff.mp hname, hls, rfl⟩
  · exact absurd h (by simp)

theorem toJsonAll?_cons_eq_some (h : toJsonAll? (t :: ts) = some vs) :
    ∃ w ws, t.toJson? = some w ∧ toJsonAll? ts = some ws ∧ vs = w :: ws := by
  rw [toJsonAll?] at h
  split at h
  · next w ws hw hws =>
    obtain rfl := Option.some.inj h
    exact ⟨w, ws, hw, hws, rfl⟩
  · exact absurd h (by simp)

theorem length_of_toJsonAll? : ∀ {ts : List RefTree} {vs : List Json}, toJsonAll? ts = some vs →
    ts.length = vs.length
  | [], vs, h => by
    obtain rfl : [] = vs := Option.some.inj h
    rfl
  | t :: ts, vs, h => by
    obtain ⟨w, ws, _, hws, rfl⟩ := toJsonAll?_cons_eq_some h
    rw [List.length_cons, List.length_cons, length_of_toJsonAll? hws]

/-! ## 2. One node -/

/-- The reading of links, when trees of the height `m` can hold them. -/
def linksReader : Nat → Reading (List RefTree)
  | 0 => list none
  | m + 1 => list (some (readTree (2 * m + 1)))

theorem readTree_odd (m : Nat) : readTree (2 * m + 1) =
    record "Node" (some (readInOrder (linksReader m))) (some (readByName (linksReader m))) := by
  cases m with
  | zero => rfl
  | succ m => rfl

section Members

variable {links : Reading (List RefTree)} {file : Option String}

theorem reads_filename (name : String) (rest : Bytes) :
    Reads (readMember links (none, none) "filename")
      (0x3A :: (Utf8.encode (quoted name) ++ rest)) (some name, none) rest := by
  unfold readMember
  rw [if_pos rfl]
  exact ((reads_colon _).bind (reads_text .path name rest)).bind (reads_pure _ rest)

theorem reads_links (h : Reads links bs ls rest) :
    Reads (readMember links (file, none) "links") (0x3A :: bs) (file, some ls) rest := by
  unfold readMember
  rw [if_neg (by decide), if_pos rfl]
  exact ((reads_colon bs).bind h).bind (reads_pure _ rest)

theorem fails_links (h : Fails links bs p) :
    Fails (readMember links (file, none) "links") (0x3A :: bs) p := by
  unfold readMember
  rw [if_neg (by decide), if_pos rfl]
  have hvalue : Fails (fieldByName "links" none links) (0x3A :: bs) p := (reads_colon bs).bind h
  exact hvalue.bind _

/-- The file name is read first, and the rounds that are left go to what follows it. -/
theorem ends_opening {o : Except Problem ((Option String × Option (List RefTree)) × Bytes)}
    (h : Ends (members (readMember links) n false (some name, none)) bs o) :
    Ends (members (readMember links) (n + 1) true (none, none))
      (separator true ++ (Utf8.encode (quoted "filename") ++
        0x3A :: (Utf8.encode (quoted name) ++ bs))) o :=
  Ends.members ((reads_filename name bs).bind h)

/-- The links are named in the last round but one, and the object ends in the last. -/
theorem two_le_length_opening (name : String) (rest : Bytes) :
    3 ≤ 2 * (opening name rest).tail.length + 2 := by
  have hname : 0 < (Utf8.encode (quoted "filename")).length := by
    rw [encode_quoted]
    exact Nat.succ_pos _
  rw [opening, List.tail_cons, List.length_append, List.length_append]
  omega

end Members

theorem reads_node_nil (name : String) (rest : Bytes) (m : Nat) :
    Reads (readTree (2 * m + 1)) (opening name (0x7D :: rest)) (node (.ofString name) []) rest := by
  have hmembers : Reads (bounded fun n => members (readMember (linksReader m)) n true (none, none))
      (opening name (0x7D :: rest)).tail (some name, none) (0x7D :: rest) :=
    Ends.bounded (ends_opening (reads_members_nil rest _))
  rw [readTree_odd]
  exact Reads.record (hmembers.bind (reads_pure _ _))

/-- A node is read if its links are. -/
theorem reads_node (h : Reads (linksReader m) bs ls (0x7D :: rest)) :
    Reads (readTree (2 * m + 1)) (opening name (linksName bs)) (node (.ofString name) ls) rest := by
  have hmembers : Reads (bounded fun n => members (readMember (linksReader m)) n true (none, none))
      (opening name (linksName bs)).tail (some name, some ls) (0x7D :: rest) := by
    refine Ends.bounded_of_le 3 (fun n => ?_) (two_le_length_opening _ _)
    exact ends_opening (Ends.members ((reads_links h).bind (reads_members_nil rest _)))
  rw [readTree_odd]
  exact Reads.record (hmembers.bind (reads_pure _ _))

/-- A node is refused if its links are. -/
theorem fails_node (h : Fails (linksReader m) bs p) :
    Fails (readTree (2 * m + 1)) (opening name (linksName bs)) p := by
  have hmembers : Fails (bounded fun n => members (readMember (linksReader m)) n true (none, none))
      (opening name (linksName bs)).tail p :=
    Ends.bounded (ends_opening (Ends.members ((fails_links h).bind _)))
  rw [readTree_odd]
  exact Fails.record (hmembers.bind _)

/-! ## 3. Whole trees -/

/-- The bytes of several trees are rounds enough for them. -/
theorem length_lt_of_toJsonAll? (h : toJsonAll? ts = some vs) (first : Bool) (rest : Bytes) :
    ts.length < 2 * (separated first (vs.map bytes) ++ rest).length + 2 := by
  have hparts := length_le_separated_succ first (vs.map bytes)
  rw [List.length_map, ← length_of_toJsonAll? h] at hparts
  rw [List.length_append]
  omega

/-- A tree that was written opens an object, so a list that it stands in has one more element. -/
theorem reads_hasElement_of_toJson? (h : t.toJson? = some v) (first : Bool) (rest : Bytes) :
    Reads (hasElement first) (separator first ++ (v.bytes ++ rest)) true (v.bytes ++ rest) := by
  cases t with
  | node f ls =>
    obtain ⟨name, vs, _, _, rfl⟩ := toJson?_eq_some h
    obtain ⟨bs, hbs⟩ := bytes_nodeJson name vs
    rw [hbs]
    exact reads_hasElement rfl (by decide)

theorem exists_eq_succ_of_heightAll_le (h : heightAll (t :: ts) ≤ m) : ∃ k, m = k + 1 := by
  rw [heightAll] at h
  exact ⟨m - 1, by omega⟩

mutual

/-- A tree that was written is read back if the levels suffice for its height. -/
theorem reads_of_toJson? : ∀ {t : RefTree} {v : Json} {m : Nat}, t.toJson? = some v →
    t.height ≤ m → ∀ rest, Reads (readTree (2 * m + 1)) (v.bytes ++ rest) t rest
  | .node f [], v, m, h, _, rest => by
    obtain ⟨name, vs, rfl, hvs, rfl⟩ := toJson?_eq_some h
    obtain rfl : [] = vs := Option.some.inj hvs
    rw [bytes_nodeJson_nil]
    exact reads_node_nil name rest m
  | .node f (t :: ts), v, m, h, hm, rest => by
    obtain ⟨name, vs, rfl, hvs, rfl⟩ := toJson?_eq_some h
    obtain ⟨w, ws, _, _, rfl⟩ := toJsonAll?_cons_eq_some hvs
    rw [height] at hm
    obtain ⟨k, rfl⟩ := exists_eq_succ_of_heightAll_le hm
    rw [bytes_nodeJson_cons]
    have hrounds := length_lt_of_toJsonAll? hvs true (0x5D :: 0x7D :: rest)
    exact reads_node (Reads.list (reads_of_toJsonAll? hvs hm _ hrounds true _))

theorem reads_of_toJsonAll? : ∀ {ts : List RefTree} {vs : List Json} {m : Nat},
    toJsonAll? ts = some vs → heightAll ts ≤ m + 1 → ∀ n, ts.length < n → ∀ first rest,
      Reads (elements (readTree (2 * m + 1)) n first)
        (separated first (vs.map bytes) ++ 0x5D :: rest) ts (0x5D :: rest)
  | _, _, _, _, _, 0, hn, _, _ => absurd hn (Nat.not_lt_zero _)
  | [], vs, m, h, _, n + 1, _, first, rest => by
    obtain rfl : [] = vs := Option.some.inj h
    exact reads_elements_nil rest
  | t :: ts, vs, m, h, hm, n + 1, hn, first, rest => by
    obtain ⟨w, ws, hw, hws, rfl⟩ := toJsonAll?_cons_eq_some h
    rw [heightAll] at hm
    have ht := reads_of_toJson? (m := m) hw (by omega)
    have hts := reads_of_toJsonAll? (m := m) hws (by omega) n (Nat.lt_of_succ_lt_succ hn) false rest
    rw [List.map_cons, separated, List.append_assoc, List.append_assoc]
    refine Ends.elements (reads_hasElement_of_toJson? hw first _) ?_
    exact (ht _).bind (hts.bind (reads_pure _ _))

end

mutual

/-- A tree that was written is refused if the levels do not suffice for its height. -/
theorem fails_of_toJson? : ∀ {t : RefTree} {v : Json} {m : Nat}, t.toJson? = some v →
    m < t.height → ∀ rest, Fails (readTree (2 * m + 1)) (v.bytes ++ rest) .recursionLimit
  | .node f [], v, m, _, hm, rest => absurd hm (Nat.not_lt_zero _)
  | .node f (t :: ts), v, 0, h, hm, rest => by
    obtain ⟨name, vs, rfl, hvs, rfl⟩ := toJson?_eq_some h
    obtain ⟨w, ws, _, _, rfl⟩ := toJsonAll?_cons_eq_some hvs
    rw [bytes_nodeJson_cons]
    exact fails_node (m := 0) (fails_list_none _)
  | .node f (t :: ts), v, m + 1, h, hm, rest => by
    obtain ⟨name, vs, rfl, hvs, rfl⟩ := toJson?_eq_some h
    obtain ⟨w, ws, _, _, rfl⟩ := toJsonAll?_cons_eq_some hvs
    rw [height] at hm
    rw [bytes_nodeJson_cons]
    have hrounds := length_lt_of_toJsonAll? hvs true (0x5D :: 0x7D :: rest)
    exact fails_node (m := m + 1) (Fails.list (fails_of_toJsonAll? hvs hm _ hrounds true _))

theorem fails_of_toJsonAll? : ∀ {ts : List RefTree} {vs : List Json} {m : Nat},
    toJsonAll? ts = some vs → m + 1 < heightAll ts → ∀ n, ts.length < n → ∀ first rest,
      Fails (elements (readTree (2 * m + 1)) n first)
        (separated first (vs.map bytes) ++ 0x5D :: rest) .recursionLimit
  | _, _, _, _, _, 0, hn, _, _ => absurd hn (Nat.not_lt_zero _)
  | [], _, _, _, hm, _, _, _, _ => absurd hm (Nat.not_lt_zero _)
  | t :: ts, vs, m, h, hm, n + 1, hn, first, rest => by
    obtain ⟨w, ws, hw, hws, rfl⟩ := toJsonAll?_cons_eq_some h
    rw [heightAll] at hm
    rw [List.map_cons, separated, List.append_assoc, List.append_assoc]
    refine Ends.elements (reads_hasElement_of_toJson? hw first _) ?_
    -- the first tree is read, or it is itself the one that is too high
    cases Nat.lt_or_ge m t.height with
    | inl ht => exact (fails_of_toJson? hw ht _).bind _
    | inr ht =>
      have hts := fails_of_toJsonAll? (m := m) hws (by omega) n (Nat.lt_of_succ_lt_succ hn) false rest
      exact (reads_of_toJson? hw ht _).bind (hts.bind _)

end

/-! ## 4. Names -/

theorem isSome_toJsonAll?_iff : (toJsonAll? ts).isSome ↔ ∀ t ∈ ts, t.toJson?.isSome := by
  induction ts with
  | nil => simp [toJsonAll?]
  | cons t ts ih =>
    rw [List.forall_mem_cons, ← ih, toJsonAll?]
    cases t.toJson? with
    | none => simp
    | some v =>
      cases toJsonAll? ts with
      | none => simp
      | some vs => simp

theorem isSome_toJson?_iff : (node f ls).toJson?.isSome ↔
    (∃ s, f = .ofString s) ∧ ∀ t ∈ ls, t.toJson?.isSome := by
  rw [← isSome_toJsonAll?_iff]
  constructor
  · intro h
    obtain ⟨v, hv⟩ := Option.isSome_iff_exists.mp h
    obtain ⟨name, vs, hname, hvs, _⟩ := toJson?_eq_some hv
    exact ⟨⟨name, hname⟩, by rw [hvs]; rfl⟩
  · rintro ⟨⟨name, rfl⟩, h⟩
    obtain ⟨vs, hvs⟩ := Option.isSome_iff_exists.mp h
    rw [toJson?, Path.text?_eq_some_iff.mpr rfl, hvs]
    cases vs with
    | nil => rfl
    | cons v vs => rfl

mutual

/-- A tree has a text if all its files have names. -/
theorem isSome_toJson?_iff_nodes : ∀ (t : RefTree) (depth : Nat), t.toJson?.isSome ↔
    ∀ n ∈ t.nodes depth, ∃ s, n.2.file = .ofString s
  | .node f ls, depth => by
    rw [isSome_toJson?_iff, isSome_toJsonAll?_iff_nodes ls (depth + 1), nodes, List.forall_mem_cons]
    rfl

theorem isSome_toJsonAll?_iff_nodes : ∀ (ts : List RefTree) (depth : Nat),
    (∀ t ∈ ts, t.toJson?.isSome) ↔ ∀ n ∈ nodesAll depth ts, ∃ s, n.2.file = .ofString s
  | [], _ => by simp [nodesAll]
  | t :: ts, depth => by
    rw [List.forall_mem_cons, isSome_toJson?_iff_nodes t depth, isSome_toJsonAll?_iff_nodes ts depth,
      nodesAll, List.forall_mem_append]

end

/-! ## 5. Trees that were read -/

theorem heightAll_le_iff : heightAll ts ≤ m ↔ ∀ t ∈ ts, t.height < m := by
  induction ts with
  | nil => simp [heightAll]
  | cons t ts ih =>
    rw [heightAll, List.forall_mem_cons, ← ih]
    omega

/-- Trees that the links of a node may hold, if the node is of the height `m` at most. -/
def Fit (m : Nat) (ts : List RefTree) : Prop := ∀ t ∈ ts, t.height < m ∧ t.toJson?.isSome

theorem fit_nil (m : Nat) : Fit m [] := fun _ ht => absurd ht (by simp)

theorem Fit.node (h : Fit m ls) (name : String) :
    (node (.ofString name) ls).height ≤ m ∧ (node (.ofString name) ls).toJson?.isSome := by
  refine ⟨heightAll_le_iff.mpr fun t ht => (h t ht).1, ?_⟩
  exact isSome_toJson?_iff.mpr ⟨⟨name, rfl⟩, fun t ht => (h t ht).2⟩

section

variable {links : Reading (List RefTree)}

theorem yields_readInOrder (h : Yields links (Fit m)) :
    Yields (readInOrder links) fun t => t.height ≤ m ∧ t.toJson?.isSome := by
  unfold readInOrder
  refine yields_bind fun file => ?_
  cases file with
  | none => exact yields_fail _
  | some file =>
    refine (yields_fieldInOrder h).bind fun ls hls => ?_
    cases ls with
    | none => exact yields_pure ((fit_nil m).node file)
    | some ls => exact yields_pure ((hls ls rfl).node file)

theorem yields_readMember (h : Yields links (Fit m)) (soFar : Option String × Option (List RefTree))
    (key : String) (hs : ∀ ls ∈ soFar.2, Fit m ls) :
    Yields (readMember links soFar key) fun soFar => ∀ ls ∈ soFar.2, Fit m ls := by
  unfold readMember
  split
  · exact yields_bind fun _ => yields_pure hs
  · split
    · refine (yields_fieldByName h).bind fun ls hls => yields_pure ?_
      intro ls' hls'
      obtain rfl := Option.some.inj hls'
      exact hls
    · exact yields_bind fun _ => yields_bind fun _ => yields_pure hs

theorem yields_readByName (h : Yields links (Fit m)) :
    Yields (readByName links) fun t => t.height ≤ m ∧ t.toJson?.isSome := by
  unfold readByName
  have hmembers (n : Nat) : Yields (members (readMember links) n true (none, none))
      fun soFar => ∀ ls ∈ soFar.2, Fit m ls :=
    yields_members (fun _ hls => absurd hls (by simp)) (yields_readMember h)
  refine (Yields.bounded hmembers).bind fun soFar hs => ?_
  obtain ⟨file, ls⟩ := soFar
  cases file with
  | none => exact yields_fail _
  | some file =>
    refine yields_pure (Fit.node ?_ file)
    cases ls with
    | none => exact fit_nil m
    | some ls => exact hs ls rfl

theorem yields_readTree_of_links (h : Yields (linksReader m) (Fit m)) :
    Yields (readTree (2 * m + 1)) fun t => t.height ≤ m ∧ t.toJson?.isSome := by
  rw [readTree_odd]
  refine yields_record (fun body hbody => ?_) fun body hbody => ?_
  · obtain rfl := Option.some.inj hbody
    exact yields_readInOrder h
  · obtain rfl := Option.some.inj hbody
    exact yields_readByName h

end

/-- Whatever the text, a tree that is read is no higher than its levels allow, and can be written. -/
theorem yields_readTree (m : Nat) :
    Yields (readTree (2 * m + 1)) fun t => t.height ≤ m ∧ t.toJson?.isSome := by
  induction m with
  | zero =>
    -- the last level holds no list of links at all, be it empty
    refine yields_readTree_of_links ((yields_list (P := fun _ => True) (by simp)).imp ?_)
    intro ls h
    exact absurd h.1 (by simp)
  | succ m ih =>
    have hitem : Yields (readTree (2 * m + 1)) fun t => t.height < m + 1 ∧ t.toJson?.isSome :=
      ih.imp fun t h => ⟨Nat.lt_succ_of_le h.1, h.2⟩
    refine yields_readTree_of_links ((yields_list fun r hr => ?_).imp fun ls h => h.2)
    obtain rfl := Option.some.inj hr
    exact hitem

/-! ## 6. There and back -/

theorem ofJson_of_height_le (h : t.toJson? = some v) (hheight : t.height ≤ 63) :
    ofJson (Utf8.encode v.compact) = .ok t := by
  have hread := reads_of_toJson? h hheight []
  rw [List.append_nil] at hread
  exact run_of_reads hread

/-- **Trees go through JSON.** A tree has a compact text if and only if all its files have names; the
text is read back as the same tree up to the depth 63, and refused as nested too deep beyond it.
Whatever else is read as a tree is written and read back once more. -/
theorem json_roundtrip (t : RefTree) :
    (t.toJson?.isSome ↔ ∀ n ∈ t.walk, ∃ s, n.2.file = .ofString s) ∧
      (∀ v, t.toJson? = some v →
        (t.depth ≤ 63 → ofJson (Utf8.encode v.compact) = .ok t) ∧
        (64 ≤ t.depth → ∃ e, ofJson (Utf8.encode v.compact) = .error e ∧
          e.problem.message = "recursion limit exceeded")) ∧
      ∀ text, ofJson text = .ok t →
        ∃ v, t.toJson? = some v ∧ ofJson (Utf8.encode v.compact) = .ok t := by
  rw [depth_eq_height]
  refine ⟨?_, fun v hv => ⟨ofJson_of_height_le hv, fun hheight => ?_⟩, fun text htext => ?_⟩
  · rw [walk_eq_nodes]
    exact isSome_toJson?_iff_nodes t 0
  · have hfail := fails_of_toJson? hv (m := 63) hheight []
    rw [List.append_nil] at hfail
    obtain ⟨e, he, hp⟩ := run_of_fails hfail
    refine ⟨e, he, ?_⟩
    rw [hp]
    rfl
  · obtain ⟨hheight, hsome⟩ := (yields_readTree 63).run htext
    obtain ⟨v, hv⟩ := Option.isSome_iff_exists.mp hsome
    exact ⟨v, hv, ofJson_of_height_le hv hheight⟩

-- fields in order, members that nobody asked for, an empty list of links, blanks and an escape
example : ((ofJson (Utf8.encode
      "[\"a\", [\x7b\"links\": [], \"x\": [[1]], \"filename\": \"b\\u0041\"\x7d]]")).toOption.bind
        (·.toJson?)).map Json.compact =
    some "\x7b\"filename\":\"a\",\"links\":[\x7b\"filename\":\"bA\"\x7d]\x7d" := by decide +kernel

end RefTree
end Citator
