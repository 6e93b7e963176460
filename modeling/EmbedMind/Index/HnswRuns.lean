import EmbedMind.Index.HnswInsert
import EmbedMind.Index.HnswSearch

/-!
# The vector index over whole runs

`Run` are the committed states of a store whose index starts empty, with any
parameters; `hnsw_structure` is what every reader of one of them finds, and what a
further insert can fail with.
-/

namespace EmbedMind

open Lib

namespace Hnsw

/-- The inserts of one transaction, in order. -/
def insertAll (H : Xxh3) (F : Floats) (dims : Nat) : List (Ulid × List F32) → TxnM Unit
  | [] => pure ()
  | (recordId, vector) :: rest => do
      let _ ← insert H F dims recordId vector
      insertAll H F dims rest

/-- A committed index, as its pages hold it. -/
structure InStore (H : Xxh3) (dims : Nat) (c : Committed) (stats : HnswMeta) (es : List Entry) (own : List Nat) :
    Prop where
  index : At H c.header.pageSize dims (c.view H) c.header.hnswMetaPage stats es own
  owns : c.Owns own

/-- The committed states, with the number of links `m` of the index and the record ids
of the inserts, the last one first. A transaction with a failed insert is dropped and
leaves the state as it was. -/
inductive Run (H : Xxh3) (F : Floats) (dims m : Nat) : List Ulid → Committed → Prop where
  | init {c : Committed} {stats : HnswMeta} {own : List Nat} (hwf : c.Wf H)
      (hempty : InStore H dims c stats [] own) (hm : stats.m = m) : Run H F dims m [] c
  | commit {ids : List Ulid} {c : Committed} {t : Txn} (h : Run H F dims m ids c)
      (new : List (Ulid × List F32)) (ht : insertAll H F dims new (Txn.begin c) = .ok ((), t)) :
      Run H F dims m ((new.map Prod.fst).reverse ++ ids) t.commit

/-- The index of a transaction, with the record ids of its nodes. -/
def Holds (H : Xxh3) (dims m : Nat) (ids : List Ulid) (t : Txn) : Prop :=
  t.Wf H ∧ ∃ stats es own, InTxn H dims t stats es own ∧ stats.m = m ∧ es.map (fun e => e.node.recordId) = ids

/-- The records of an index after one more insertion. -/
theorem Inserted.ids {H : Xxh3} {dims : Nat} {t t' : Txn} {stats stats' : HnswMeta} {es es' : List Entry}
    {own own' : List Nat} {recordId : Ulid} {vector : List F32} {vecPage : Nat}
    (h : Inserted H dims t stats es own recordId vector vecPage t' stats' es' own') :
    es'.map (fun e => e.node.recordId) = recordId :: es.map fun e => e.node.recordId := by
  obtain ⟨f, hid, _, _, _, hframes⟩ := h.added
  have hmap := congrArg (List.map Frame.recordId) hframes
  rw [List.map_cons, List.map_map, List.map_map, hid] at hmap
  exact hmap

/-- The insertions of a transaction. -/
theorem wp_insertAll {H : Xxh3} {F : Floats} {dims m : Nat} (new : List (Ulid × List F32)) {ids : List Ulid}
    {t : Txn} (h : Holds H dims m ids t) :
    Wp (insertAll H F dims new) t (fun _ t' => Holds H dims m ((new.map Prod.fst).reverse ++ ids) t')
      fun _ => True := by
  induction new generalizing t ids with
  | nil => exact Wp.pure h
  | cons x new ih =>
      obtain ⟨recordId, vector⟩ := x
      obtain ⟨ht, stats, es, own, hin, hm, rfl⟩ := h
      refine Wp.bind ((agree_insert resizeLayers hin ht).wp.mono ?_ fun _ _ => trivial)
      rintro _ t' ⟨_, stats', es', own', hins⟩
      have hnext : Holds H dims m (recordId :: es.map fun e => e.node.recordId) t' :=
        ⟨hins.stepped.wf, stats', es', own', hins.inTxn, hins.params.1.trans hm, hins.ids⟩
      refine (ih hnext).imp ?_
      intro _ t'' h''
      simpa using h''

section Store

variable {H : Xxh3} {F : Floats} {dims m : Nat} {ids : List Ulid} {c : Committed} {t : Txn} {stats : HnswMeta}
  {es : List Entry} {own : List Nat}

theorem commit_hnswMetaPage (t : Txn) : t.commit.header.hnswMetaPage = t.hnswMetaPage := by
  cases he : t.isEmpty with
  | false =>
      rw [Txn.commit_header he]
      rfl
  | true =>
      have hp := t.pending_of_isEmpty he
      simp only [PendingHeader.isEmpty, Bool.and_eq_true, Option.isNone_iff_eq_none] at hp
      rw [Txn.commit_of_isEmpty he, Txn.hnswMetaPage]
      simp [hp]

/-- A transaction starts on the index of its store. -/
theorem InStore.begin (h : InStore H dims c stats es own) : InTxn H dims (Txn.begin c) stats es own where
  index := h.index.frame fun p _ => Txn.view_begin c p
  owns := h.owns.begin

/-- A commit leaves the index of its transaction. -/
theorem InTxn.commit (h : InTxn H dims t stats es own) (ht : t.Wf H) : InStore H dims t.commit stats es own where
  index := by
    rw [Txn.commit_pageSize, commit_hnswMetaPage]
    exact h.index.frame fun p hp => ht.view_commit (h.owns.pos p hp) (h.owns.lt p hp)
  owns := h.owns.commit

/-- Every run leaves an index of its records. -/
theorem Run.holds (h : Run H F dims m ids c) : Holds H dims m ids (Txn.begin c) := by
  induction h with
  | init hwf hempty hm => exact ⟨Txn.wf_begin hwf, _, [], _, hempty.begin, hm, rfl⟩
  | commit _ new ht ih =>
      obtain ⟨ht', stats, es, own, hin, hm, hids⟩ := (wp_insertAll new ih).ok ht
      exact ⟨Txn.wf_begin ht'.commit, stats, es, own, (hin.commit ht').begin, hm, hids⟩

end Store

/-! ## What a reader finds -/

/-- The index behind a meta page: the nodes with their pages, readable, linked within
their layers and caps, with an entry point on the top layer. -/
structure Structure (src : PageSource) (root m : Nat) (ids : List Ulid) (nodes : List (Nat × HnswNode)) : Prop where
  count : nodeCount src root = .ok nodes.length
  ids : nodes.map (fun x => x.2.recordId) = ids
  pages : (nodes.map Prod.fst).Nodup
  read : ∀ x ∈ nodes, ∃ b, src.page x.1 = .ok b ∧ HnswNode.decode b x.1 = .ok x.2
  lists : ∀ x ∈ nodes, ∀ layer list, x.2.layers[layer]? = some list →
    list.Nodup ∧ list.length ≤ (if layer = 0 then 2 * m else m) ∧
    ∀ q ∈ list, q ≠ 0 ∧ q ≠ x.1 ∧ ∃ y ∈ nodes, y.1 = q ∧ layer < y.2.layers.length
  entry : nodes ≠ [] → ∃ stats, loadMeta src root = .ok (some stats) ∧ stats.m = m ∧
    (∃ x ∈ nodes, x.1 = stats.entryPointPage ∧ x.2.layers.length = stats.maxLayer + 1) ∧
    ∀ x ∈ nodes, x.2.layers.length ≤ stats.maxLayer + 1

/-- An index, as its readers see it. -/
theorem At.structured {H : Xxh3} {dims : Nat} (src : PageSource) {root : Nat} {stats : HnswMeta}
    {es : List Entry} {own : List Nat} (h : At H src.pageSize dims src.view root stats es own)
    (ho : src.Owns own) :
    Structure src root stats.m (es.map fun e => e.node.recordId) (es.map fun e => (e.page, e.node)) where
  count := by
    unfold nodeCount
    rw [h.loadMeta ho.pageSize_ge, ok_bind, List.length_map, ← h.count]
    rcases h.pages with ⟨h0, rfl, _⟩ | ⟨hne, _⟩
    · rw [if_pos h0]
      rfl
    · rw [if_neg hne]
      rfl
  ids := by
    rw [List.map_map]
    rfl
  pages := by
    rw [List.map_map]
    exact (distinct_of_nodup (h.headed.sublist.nodup ho.nodup)).pages
  read := by
    intro x hx
    obtain ⟨e, he, rfl⟩ := List.mem_map.mp hx
    exact ((h.stored e he).readable ho.pageSize_ge).1
  lists := by
    intro x hx layer list hl
    obtain ⟨e, he, rfl⟩ := List.mem_map.mp hx
    -- the cap and the targets of a list are what the wiring says of it
    have hok := h.wired.lists e he layer list hl
    refine ⟨hok.nodup, ?_, ?_⟩
    · have hcap := hok.length
      unfold layerCap at hcap
      rwa [mul_comm 2]
    · intro q hq
      obtain ⟨hne, f, hf, rfl, hlt⟩ := hok.linked q hq
      obtain ⟨e', he', rfl⟩ := List.mem_map.mp hf
      have hnz := ((h.stored e he).wf.neighbors list (List.mem_of_getElem? hl) _ hq).1
      exact ⟨hnz, hne, _, List.mem_map.mpr ⟨e', he', rfl⟩, rfl, hlt⟩
  entry := by
    intro hne
    -- an index with a node has a meta page, and its entry point is one of the nodes
    have hes : es ≠ [] := by
      rintro rfl
      exact hne rfl
    have hroot : root ≠ 0 := by
      rcases h.pages with ⟨_, _, hnil, _⟩ | ⟨hroot, _⟩
      · exact absurd hnil hes
      · exact hroot
    refine ⟨stats, ?_, rfl, ?_, ?_⟩
    · rw [h.loadMeta ho.pageSize_ge, if_neg hroot]
    · obtain ⟨e, he, hpage, hheight⟩ := h.entry hes
      exact ⟨_, List.mem_map.mpr ⟨e, he, rfl⟩, hpage, hheight⟩
    · intro x hx
      obtain ⟨e, he, rfl⟩ := List.mem_map.mp hx
      exact h.wired.heights e he

/-- After any inserts, in the transaction and once it is committed, a reader finds a
well-formed graph with a node for every insert. A further insert then runs without the
defensive resize, whatever stands in its place, and where a vector fits a page and the
page size admits `m`, it fails only when the file is full. -/
theorem hnsw_structure {H : Xxh3} {F : Floats} {dims m : Nat} {ids : List Ulid} {c : Committed} {t : Txn}
    (h : Run H F dims m ids c) (new : List (Ulid × List F32))
    (ht : insertAll H F dims new (Txn.begin c) = .ok ((), t)) :
    (∃ nodes, Structure (t.source H) t.hnswMetaPage m ((new.map Prod.fst).reverse ++ ids) nodes ∧
      Structure (t.commit.source H) t.commit.header.hnswMetaPage m ((new.map Prod.fst).reverse ++ ids) nodes) ∧
    ∀ recordId vector, (∀ grow, insertWith H F dims grow recordId vector t = insert H F dims recordId vector t) ∧
      (vector.length = dims → (maxHnswLevel t.pageSize m).isSome → vectorSlotsPerPage t.pageSize dims ≠ 0 →
        ∀ e, insert H F dims recordId vector t = .error e → e = Txn.pageCountOverflow) := by
  obtain ⟨ht', stats, es, own, hin, rfl, hids⟩ := (wp_insertAll new h.holds).ok ht
  constructor
  · have hcommit := hin.commit ht'
    refine ⟨es.map fun e => (e.page, e.node), ?_, ?_⟩
    · rw [← hids]
      exact At.structured (t.source H) hin.index (hin.owns.source ht')
    · rw [← hids]
      exact At.structured (t.commit.source H) hcommit.index (hcommit.owns.source ht'.commit)
  · intro recordId vector
    constructor
    · intro grow
      exact (agree_insert grow hin ht').same
    · intro hlen hlevel hslots e he
      have hrefused : Refused t.pageSize dims stats vector e := (agree_insert resizeLayers hin ht').wp.error he
      cases hrefused with
      | length hne => exact absurd hlen hne
      | pageSize hnone =>
          rw [hnone] at hlevel
          cases hlevel
      | vector hzero => exact absurd hzero hslots
      | full => rfl

/-- Three inserts, two of them of one record. -/
theorem hnsw_structure_three_inserts :
    ∃ t, insertAll ⟨fun _ => 0, fun _ _ => 0⟩ unitFloats 1 [(1, [0x3f800000]), (1, [0]), (2, [0x3f800000])]
        (Txn.begin (Committed.fresh 8 512)) = .ok ((), t) ∧
      ∃ nodes, Structure (t.commit.source ⟨fun _ => 0, fun _ _ => 0⟩) t.commit.header.hnswMetaPage 16 [2, 1, 1]
        nodes := by
  have hinit : Run ⟨fun _ => 0, fun _ _ => 0⟩ unitFloats 1 16 [] (Committed.fresh 8 512) :=
    Run.init (Committed.wf_fresh _ (by decide) (by decide) (by decide))
      (⟨at_empty, ⟨List.nodup_nil, by simp, by simp⟩⟩ : InStore _ 1 (Committed.fresh 8 512) .new [] []) rfl
  have hok : (insertAll ⟨fun _ => 0, fun _ _ => 0⟩ unitFloats 1 [(1, [0x3f800000]), (1, [0]), (2, [0x3f800000])]
      (Txn.begin (Committed.fresh 8 512))).toOption.isSome = true := by
    decide +kernel
  cases hrun : insertAll ⟨fun _ => 0, fun _ _ => 0⟩ unitFloats 1 [(1, [0x3f800000]), (1, [0]), (2, [0x3f800000])]
      (Txn.begin (Committed.fresh 8 512)) with
  | error e =>
      rw [hrun] at hok
      cases hok
  | ok r =>
      obtain ⟨⟨⟩, t⟩ := r
      obtain ⟨⟨nodes, _, hnodes⟩, _⟩ := hnsw_structure hinit _ hrun
      exact ⟨t, rfl, nodes, hnodes⟩

end Hnsw

end EmbedMind
