import EmbedMind.Index.GraphProof
import EmbedMind.Index.NodeCodecs

/-!
# Member lists and adjacencies, as bytes

What is encoded is read back, as long as a member list's count fits its field, and any
bytes are decoded to sorted, legal values or refused. Room is reserved for no more entries
than the bytes can hold.
-/

namespace EmbedMind

open Lib Lib.SortedSet

namespace Graph

/-! ## Any bytes -/

section Total

variable (body : Bytes) (pageNo : Nat)

/-- Ids are decoded in ascending order, or the page is malformed. -/
theorem decodeIds_ends (count : Nat) (prev : Option Ulid) (off : Nat) :
    Ends (fun ids => AscendsFrom (fun x : Ulid => x) prev ids ∧ ids.length = count)
      (Malformed pageNo) (Members.decodeIds body pageNo count prev off) := by
  induction count generalizing prev off with
  | zero =>
      exact Ends.ok ⟨AscendsFrom.nil, rfl⟩
  | succ count ih =>
      refine ends_present ⟨_, rfl⟩ ?_
      intro idBytes _
      refine Ends.ite ?_ ?_
      · intro _
        exact ends_malformed _ _
      intro hnot
      refine Ends.bind (ih (some (Ulid.fromBytes idBytes)) (off + 16)) ?_
      intro rest hrest
      exact Ends.ok ⟨AscendsFrom.cons hnot hrest.1, by rw [List.length_cons, hrest.2]⟩

/-- The ids of a decoded list are sorted and were all in the body. -/
theorem members_decode_ends :
    Ends (fun ids => Ascending (fun x : Ulid => x) ids ∧ 4 + ids.length * 16 ≤ body.length) (Malformed pageNo)
      (Members.decode body pageNo) := by
  unfold Members.decode Dict.readInt
  refine ends_field ⟨_, rfl⟩ ?_
  intro count _
  refine Ends.ite ?_ ?_
  · intro _
    exact ends_malformed _ _
  intro hfit
  refine (decodeIds_ends body pageNo count none 4).imp ?_
  intro ids hids
  refine ⟨hids.1.pairwise, ?_⟩
  rw [hids.2]
  exact not_lt.mp hfit

/-- The names are sorted and legal; at least three bytes of the body hold each of them. -/
theorem decodeNames_ends (count : Nat) (prev : Option Bytes) {off : Nat} (hoff : off ≤ body.length) :
    Ends (fun r : List String × Nat => AscendsFrom utf8 prev r.1 ∧ (∀ name ∈ r.1, NameOk name) ∧
        r.1.length = count ∧ off + count * 3 ≤ r.2 ∧ r.2 ≤ body.length)
      (Malformed pageNo) (MemoryGraph.decodeNames body pageNo count prev off) := by
  induction count generalizing prev off with
  | zero =>
      refine Ends.ok ⟨AscendsFrom.nil, ?_, rfl, by simp, hoff⟩
      intro name hname
      cases hname
  | succ count ih =>
      unfold MemoryGraph.decodeNames
      refine Dict.ends_getBytesU16 ?_
      intro bs hbs _
      refine Ends.ite ?_ ?_
      · intro _
        exact ends_malformed _ _
      intro hlen
      refine Ends.ite ?_ ?_
      · intro _
        exact ends_malformed _ _
      intro hnot
      refine ends_present ⟨_, rfl⟩ ?_
      intro owned howned
      have hnext := hbs.le
      rw [List.length_append, leBytes_length, ← Nat.add_assoc] at hnext
      refine Ends.bind (ih (some bs) hnext) ?_
      intro rest hrest
      rcases hrest with ⟨hascends, hnames, hcount, hafter, hbound⟩
      have hutf : utf8 owned = bs := utf8_of_ofUtf8? howned
      rw [List.isEmpty_iff, not_or, not_lt] at hlen
      have hpos := List.length_pos_of_ne_nil hlen.1
      rw [← hutf] at hnot hascends
      refine Ends.ok ⟨AscendsFrom.cons hnot hascends, ?_, by simp only [List.length_cons, hcount], ?_, hbound⟩
      · intro name hname
        rcases List.mem_cons.mp hname with rfl | hname
        · unfold NameOk
          rw [hutf]
          exact hlen
        · exact hnames name hname
      · show off + (count + 1) * 3 ≤ rest.2
        omega

/-- An edge that was decoded has a proper kind. -/
theorem decodeEdge_ends (off : Nat) :
    Ends (fun r : Edge × Nat => KindOk r.1.kind) (Malformed pageNo) (MemoryGraph.decodeEdge body pageNo off) := by
  unfold MemoryGraph.decodeEdge
  refine ends_present ⟨_, rfl⟩ ?_
  intro dir _
  refine Ends.ite ?_ ?_
  · intro _
    exact ends_malformed _ _
  intro _
  refine Dict.ends_getBytesU16 ?_
  intro bs _ _
  refine Ends.ite ?_ ?_
  · intro _
    exact ends_malformed _ _
  intro hlen
  refine ends_present ⟨_, rfl⟩ ?_
  intro kind hkind
  refine ends_present ⟨_, rfl⟩ ?_
  intro idBytes _
  rw [List.isEmpty_iff, not_or, not_lt] at hlen
  refine Ends.ok ?_
  show KindOk kind
  unfold KindOk
  rw [utf8_of_ofUtf8? hkind]
  exact hlen

/-- Edges are decoded in ascending order, or the page is malformed. -/
theorem decodeEdges_ends (count : Nat) (prev : Option Edge) (off : Nat) :
    Ends (fun edges => AscendsFrom Edge.sortKey (prev.map Edge.sortKey) edges ∧ (∀ e ∈ edges, KindOk e.kind) ∧
        edges.length = count)
      (Malformed pageNo) (MemoryGraph.decodeEdges body pageNo count prev off) := by
  induction count generalizing prev off with
  | zero =>
      refine Ends.ok ⟨AscendsFrom.nil, ?_, rfl⟩
      intro e he
      cases he
  | succ count ih =>
      unfold MemoryGraph.decodeEdges
      refine Ends.bind (decodeEdge_ends body pageNo off) ?_
      intro first hkind
      refine Ends.ite ?_ ?_
      · intro _
        exact ends_malformed _ _
      intro hnot
      refine Ends.bind (ih (some first.1) first.2) ?_
      intro rest hrest
      rcases hrest with ⟨hascends, hkinds, hcount⟩
      refine Ends.ok ⟨AscendsFrom.cons ?_ hascends, ?_, by rw [List.length_cons, hcount]⟩
      · rw [Option.any_map]
        exact hnot
      · intro e he
        rcases List.mem_cons.mp he with rfl | he
        · exact hkind
        · exact hkinds e he

/-- A decoded adjacency is one that could have been encoded. -/
theorem adjacency_decode_ends : Ends MemoryGraph.Ok (Malformed pageNo) (MemoryGraph.decode body pageNo) := by
  unfold MemoryGraph.decode
  refine Dict.ends_getInt ?_
  intro entityCount hentityCount hstart
  refine Ends.ite ?_ ?_
  · intro _
    exact ends_malformed _ _
  intro _
  refine Ends.bind (decodeNames_ends body pageNo entityCount none hstart.le) ?_
  intro names hnames
  refine Dict.ends_getInt ?_
  intro edgeCount hedgeCount _
  refine Ends.ite ?_ ?_
  · intro _
    exact ends_malformed _ _
  intro _
  refine Ends.bind (decodeEdges_ends body pageNo edgeCount none _) ?_
  intro edges hedges
  exact Ends.ok {
    entities := hnames.1.pairwise
    names := hnames.2.1
    edges := hedges.1.pairwise
    kinds := hedges.2.1
    entities_lt := by
      rw [hnames.2.2.1]
      exact hentityCount
    edges_lt := by
      rw [hedges.2.2]
      exact hedgeCount }

end Total

/-! ## Reservations -/

/-- The ids that `Members::decode` reserves room for. -/
def Members.reserved (body : Bytes) : Nat :=
  match readLE body 0 4 with
  | none => 0
  | some count => if body.length < 4 + count * 16 then 0 else count

/-- The names and the edges that `MemoryGraph::decode` reserves room for. -/
def MemoryGraph.reserved (body : Bytes) (pageNo : Nat) : Nat × Nat :=
  match Dict.getInt body 0 2 pageNo with
  | .error _ => (0, 0)
  | .ok (entityCount, off) =>
      if body.length - off < entityCount * 3 then (0, 0)
      else
        match MemoryGraph.decodeNames body pageNo entityCount none off with
        | .error _ => (entityCount, 0)
        | .ok (_, off) =>
            match Dict.getInt body off 4 pageNo with
            | .error _ => (entityCount, 0)
            | .ok (edgeCount, off) =>
                if body.length - off < edgeCount * (EDGE_FIXED_LEN + 1) then (entityCount, 0)
                else (entityCount, edgeCount)

/-- What is reserved for members is within the body. -/
theorem members_reserved_le (body : Bytes) : Members.reserved body * 16 ≤ body.length := by
  unfold Members.reserved
  split
  · omega
  · split_ifs <;> omega

/-- A name takes three bytes of the body or more, and an edge twenty. -/
theorem adjacency_reserved_le (body : Bytes) (pageNo : Nat) :
    (MemoryGraph.reserved body pageNo).1 * 3 + (MemoryGraph.reserved body pageNo).2 * 20 ≤ body.length := by
  unfold MemoryGraph.reserved
  split
  · simp
  · rename_i entityCount off hcount
    have hoff : off ≤ body.length := by
      rcases bind_eq_ok.mp hcount with ⟨n, hn, hpair⟩
      cases hpair
      rcases Option.map_eq_some_iff.mp (okOr_eq_ok.mp hn) with ⟨bs, hbs, _⟩
      exact (slice_eq_some.mp hbs).1
    have hnames := decodeNames_ends body pageNo entityCount none hoff
    split_ifs
    · simp
    rename_i hfit
    split
    · show entityCount * 3 + 0 * 20 ≤ body.length
      omega
    · rename_i names off' hread
      rw [hread] at hnames
      rcases hnames with ⟨r, hr, hspec⟩ | ⟨e, he, _⟩
      · cases hr
        have hnext : off + entityCount * 3 ≤ off' := hspec.2.2.2.1
        split
        · show entityCount * 3 + 0 * 20 ≤ body.length
          omega
        · rename_i edgeCount off'' hedges
          rcases bind_eq_ok.mp hedges with ⟨n, hn, hpair⟩
          cases hpair
          rcases Option.map_eq_some_iff.mp (okOr_eq_ok.mp hn) with ⟨bs, hbs, _⟩
          have hend := (slice_eq_some.mp hbs).1
          by_cases hedge : body.length - (off' + 4) < edgeCount * (EDGE_FIXED_LEN + 1)
          · rw [if_pos hedge]
            omega
          · rw [if_neg hedge]
            simp only [EDGE_FIXED_LEN] at hedge
            show entityCount * 3 + edgeCount * 20 ≤ body.length
            omega
      · cases he

/-! ## A member list's count -/

/-- The count is stored modulo `2 ^ 32`: that many ids are read back. -/
theorem members_decode_encode {ids : List Ulid} (pageNo : Nat) (hsorted : Ascending (fun x : Ulid => x) ids) :
    Members.decode (Members.encode ids) pageNo = .ok (ids.take (ids.length % 2 ^ 32)) := by
  have hsize : (Members.encode ids).length = 4 + ids.length * 16 := by
    rw [Members.encode, List.length_append, leBytes_length, flatMap_toBytes_length]
  rcases hasAt_append.mp (hasAt_zero (Members.encode ids)) with ⟨hcount, hall⟩
  rw [leBytes_length] at hall
  have hread : readLE (Members.encode ids) 0 4 = some (ids.length % 2 ^ 32) := by
    have hslice := hcount.slice (leBytes_length 4 ids.length)
    rw [readLE_of_slice hslice, leNat_leBytes]
    norm_num
  have hle := Nat.mod_le ids.length (2 ^ 32)
  have htake : (ids.take (ids.length % 2 ^ 32)).length = ids.length % 2 ^ 32 := by
    rw [List.length_take]
    omega
  -- the ids that are read are a prefix of those that were written
  rw [← List.take_append_drop (ids.length % 2 ^ 32) ids, List.flatMap_append] at hall
  have hprefix := (hasAt_append.mp hall).1
  rw [List.take_append_drop] at hprefix
  have hids := decodeIds_eq pageNo none (hsorted.sublist (List.take_sublist _ _)) (by simp) hprefix
  rw [htake] at hids
  unfold Members.decode Dict.readInt
  rw [hread, okOr_some, ok_bind, if_neg (by omega)]
  exact hids

/-- A member list is read back exactly when its length fits four bytes. -/
theorem members_decode_encode_iff {ids : List Ulid} (pageNo : Nat) (hsorted : Ascending (fun x : Ulid => x) ids) :
    Members.decode (Members.encode ids) pageNo = .ok ids ↔ ids.length < 2 ^ 32 := by
  rw [members_decode_encode pageNo hsorted]
  have hmod := Nat.mod_lt ids.length (show 0 < 2 ^ 32 by norm_num)
  constructor
  · intro h
    have hlen := congrArg List.length (Except.ok.inj h)
    rw [List.length_take] at hlen
    omega
  · intro h
    rw [Nat.mod_eq_of_lt h, List.take_length]

/-- Member lists are read back while their count fits four bytes, adjacencies always, and
any bytes are decoded to sorted, legal values or refused, with no room reserved for
entries that the bytes cannot hold. -/
theorem graph_codecs (pageNo : Nat) :
    (∀ ids, Ascending (fun x : Ulid => x) ids →
      (Members.decode (Members.encode ids) pageNo = .ok ids ↔ ids.length < 2 ^ 32)) ∧
    (∀ adj : MemoryGraph, adj.Ok → ∃ body, adj.encode = .ok body ∧ MemoryGraph.decode body pageNo = .ok adj) ∧
    ∀ body : Bytes,
      Ends (fun ids => Ascending (fun x : Ulid => x) ids ∧ 4 + ids.length * 16 ≤ body.length) (Malformed pageNo)
        (Members.decode body pageNo) ∧
      Ends MemoryGraph.Ok (Malformed pageNo) (MemoryGraph.decode body pageNo) ∧
      Members.reserved body * 16 ≤ body.length ∧
      (MemoryGraph.reserved body pageNo).1 * 3 + (MemoryGraph.reserved body pageNo).2 * 20 ≤ body.length := by
  refine ⟨?_, ?_, ?_⟩
  · intro ids hsorted
    exact members_decode_encode_iff pageNo hsorted
  · intro adj hok
    refine ⟨adj.body, ?_, adjacency_round_trip pageNo hok⟩
    unfold MemoryGraph.encode
    rw [if_neg (not_le.mpr hok.entities_lt), if_neg (not_le.mpr hok.edges_lt)]
  · intro body
    exact ⟨members_decode_ends body pageNo, adjacency_decode_ends body pageNo, members_reserved_le body,
      adjacency_reserved_le body pageNo⟩

/-- The first `2 ^ 32` ids. -/
@[irreducible] def manyIds : List Ulid :=
  (List.range (2 ^ 32)).map fun i => ⟨i % 2 ^ 128, Nat.mod_lt _ (by norm_num)⟩

theorem manyIds_length : manyIds.length = 2 ^ 32 := by
  unfold manyIds
  rw [List.length_map, List.length_range]

theorem manyIds_sorted : Ascending (fun x : Ulid => x) manyIds := by
  unfold manyIds Ascending
  rw [List.pairwise_map]
  refine List.pairwise_lt_range.imp_of_mem ?_
  intro a b ha hb hlt
  rw [List.mem_range] at ha hb
  rw [Fin.lt_def]
  show a % 2 ^ 128 < b % 2 ^ 128
  rw [Nat.mod_eq_of_lt (by omega), Nat.mod_eq_of_lt (by omega)]
  exact hlt

/-- A list of `2 ^ 32` ids is read back empty. -/
theorem members_count_wraps : Ascending (fun x : Ulid => x) manyIds ∧
    Members.decode (Members.encode manyIds) 0 = .ok [] ∧ manyIds ≠ [] := by
  refine ⟨manyIds_sorted, ?_, ?_⟩
  · rw [members_decode_encode 0 manyIds_sorted, manyIds_length]
    rfl
  · intro h
    have hlen := manyIds_length
    rw [h] at hlen
    exact absurd hlen (by norm_num)

end Graph

end EmbedMind
