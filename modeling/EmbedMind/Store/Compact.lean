import EmbedMind.Store.ReadProof

/-!
# Compaction (`api.rs`)

`build_compacted` writes the live memories of a store into a new file. The records come over
as they are, their vectors and postings are derived again, and the graph keeps what stands
between live memories. Whoever reads the live memories cannot tell the two files apart.
-/

namespace EmbedMind

open Lib Lib.Assoc

namespace Store

/-- The record of a live memory in the new file. -/
def copyOf (memory : Memory) (vecRef : Option VecRef) : MemoryRecord where
  id := memory.id
  tombstone := false
  superseded := memory.superseded
  content := memory.content
  vecRef := vecRef
  project := memory.project
  provenance := memory.provenance
  metadata := memory.metadata

section Build

variable (S : Setup)

/-- A new file, open with the embedder. -/
def createWith (pageSize : Nat) : Except Error Committed := do
  let header ← Header.new pageSize
  initEmbeddingHeader S ⟨header, fun _ => []⟩

variable (c : Committed)

/-- One more relation of a memory, if it starts there and its other end is live. -/
def keptRelation (relations : List (String × Ulid)) (edge : Graph.Edge) : Except Error (List (String × Ulid)) :=
  if edge.outgoing then do
    match ← get S.xxh c edge.other with
    | some _ => .ok (relations ++ [(edge.kind, edge.other)])
    | none => .ok relations
  else .ok relations

/-- What comes over of the graph of a memory. -/
def keptGraph (id : Ulid) : Except Error (List String × List (String × Ulid)) := do
  match ← Graph.memoryGraph S.xxh (c.source S.xxh) c.header.graphRootPage id with
  | some adj => do
      let relations ← adj.edges.foldlM (keptRelation S c) []
      .ok (adj.entities, relations)
  | none => .ok ([], [])

/-- One memory more in the new file. -/
def copyMemory (dst : Committed) (memory : Except Error Memory) : Except Error Committed := do
  let memory ← memory
  let (entities, relations) ← keptGraph S c memory.id
  let (_, dst) ← insertRecord S dst (copyOf memory none) entities relations
  .ok dst

def buildCompacted : Except Error Committed := do
  let dst ← createWith S c.header.pageSize
  (iter S.xxh c).foldlM (copyMemory S c) dst

end Build

/-! ## The world of the new file -/

/-- The chunk vectors of a text. -/
def chunksOf (S : Setup) (content : String) : List (List F32) := (embedDraftContent S content).toOption.getD []

/-- A record without the place of its vector. -/
def unplaced (r : MemoryRecord) : MemoryRecord := { r with vecRef := none }

/-- A copy is its original, but for the place of the vector. -/
theorem unplaced_copyOf {r : MemoryRecord} (hnormal : r.normalize = r) (hlive : r.tombstone = false)
    (vecRef : Option VecRef) : unplaced (copyOf (Memory.fromRecord r) vecRef).normalize = unplaced r := by
  have hcopy : unplaced (copyOf (Memory.fromRecord r) vecRef).normalize = unplaced r.normalize := by
    rcases r with ⟨id, tombstone, superseded, content, place, project, provenance, metadata⟩
    cases hlive
    rfl
  rw [hcopy, hnormal]

/-- A world that holds copies of some records of another. -/
structure World.Copied (S : Setup) (w : World) (done : List (Ulid × MemoryRecord)) (w' : World) : Prop where
  records : mapVal unplaced w'.records = mapVal unplaced done
  vectors : w'.vectors = (done.flatMap fun e => (chunksOf S e.2.content).map fun chunk => (e.1, chunk)).reverse
  tags : w'.tags = {x | x ∈ w.tags ∧ x.1 ∈ done.map Prod.fst}
  edges : w'.edges = {x | x ∈ w.edges ∧ x.1 ∈ done.map Prod.fst ∧ w.Live x.2.2}

/-- Nothing was copied. -/
theorem World.copied_nil (S : Setup) (w : World) : w.Copied S [] {} where
  records := rfl
  vectors := rfl
  tags := by simp
  edges := by simp

/-- A copied record. -/
theorem World.Copied.get {S : Setup} {w w' : World} {done : List (Ulid × MemoryRecord)} (h : w.Copied S done w')
    (id : Ulid) : (w'.get id).map unplaced = (find id done).map unplaced := by
  rw [World.get, ← find_mapVal, h.records, find_mapVal]

/-- The copied ids. -/
theorem World.Copied.keys {S : Setup} {w w' : World} {done : List (Ulid × MemoryRecord)} (h : w.Copied S done w') :
    w'.records.map Prod.fst = done.map Prod.fst := by
  have hkeys : ∀ l : List (Ulid × MemoryRecord), (mapVal unplaced l).map Prod.fst = l.map Prod.fst := by
    intro l
    rw [mapVal, List.map_map]
    rfl
  rw [← hkeys, h.records, hkeys]

/-- The ids copied so far are before those to come. -/
theorem World.Copied.keys_lt {S : Setup} {w w' : World} {done : List (Ulid × MemoryRecord)} (h : w.Copied S done w')
    {id : Ulid} (hlast : ∀ e ∈ done, e.1 < id) : ∀ e ∈ w'.records, e.1 < id := by
  intro e he
  have hin : e.1 ∈ done.map Prod.fst := by
    rw [← h.keys]
    exact List.mem_map_of_mem he
  rcases List.mem_map.mp hin with ⟨e', he', heq⟩
  rw [← heq]
  exact hlast e' he'

/-- What comes next was not copied yet. -/
theorem World.Copied.get_next {S : Setup} {w w' : World} {done : List (Ulid × MemoryRecord)} (h : w.Copied S done w')
    {id : Ulid} (hlast : ∀ e ∈ done, e.1 < id) : w'.get id = none :=
  find_eq_none.mpr fun e he => ne_of_lt (h.keys_lt hlast e he)

/-- The live records of a world. -/
def World.liveRecords (w : World) : List (Ulid × MemoryRecord) := w.records.filter fun e => !e.2.tombstone

section Copy

variable {S : Setup} {c dst dst' : Committed} {w w' : World}

/-- A relation is copied when it points away to a memory that can be read. -/
theorem keptRelation_eq (h : Holds S c w) (relations : List (String × Ulid)) (edge : Graph.Edge) :
    keptRelation S c relations edge =
      .ok (relations ++ if edge.outgoing ∧ (w.read edge.other).isSome then [(edge.kind, edge.other)] else []) := by
  unfold keptRelation
  cases edge.outgoing with
  | false => simp
  | true =>
      rw [if_pos rfl, h.get, ok_bind]
      cases w.read edge.other <;> simp

/-- The tags of a memory and its relations to live memories come over. -/
theorem keptGraph_eq (h : Holds S c w) (id : Ulid) :
    ∃ entities relations, keptGraph S c id = .ok (entities, relations) ∧ (∀ name, name ∈ entities ↔ (id, name) ∈ w.tags) ∧
      ∀ r, r ∈ relations ↔ (id, r) ∈ w.edges ∧ w.Live r.2 := by
  -- of the edges those stay that lead out, to a live memory
  have hfold : ∀ (edges : List Graph.Edge) (done : List (String × Ulid)), ∃ relations,
      edges.foldlM (keptRelation S c) done = .ok relations ∧
      ∀ r, r ∈ relations ↔ r ∈ done ∨ (⟨true, r.1, r.2⟩ ∈ edges ∧ w.Live r.2) := by
    intro edges
    induction edges with
    | nil =>
        intro done
        exact ⟨done, rfl, by simp⟩
    | cons edge edges ih =>
        intro done
        rw [List.foldlM_cons, keptRelation_eq h, ok_bind]
        rcases ih (done ++ if edge.outgoing ∧ (w.read edge.other).isSome then [(edge.kind, edge.other)] else [])
          with ⟨relations, hrun, hmem⟩
        refine ⟨relations, hrun, ?_⟩
        intro r
        rw [hmem, List.mem_append, List.mem_cons, or_assoc]
        refine or_congr Iff.rfl ?_
        rcases edge with ⟨outgoing, kind, other⟩
        rcases r with ⟨kind', other'⟩
        have hthis : ((kind', other') ∈ if outgoing = true ∧ (w.read other).isSome then [(kind, other)] else []) ↔
            (⟨true, kind', other'⟩ : Graph.Edge) = ⟨outgoing, kind, other⟩ ∧ w.Live other' := by
          split
          · rename_i hboth
            rw [World.read_isSome] at hboth
            rw [List.mem_singleton, hboth.1]
            constructor
            · intro heq
              cases heq
              exact ⟨rfl, hboth.2⟩
            · intro heq
              cases heq.1
              rfl
          · rename_i hnot
            constructor
            · intro hin
              cases hin
            · intro heq
              rcases heq with ⟨heq, hlive⟩
              cases heq
              exact absurd ⟨rfl, World.read_isSome.mpr hlive⟩ hnot
        rw [hthis]
        tauto
  -- the edges are those that the graph lists for the memory
  rcases h.memoryGraph id with ⟨adj, hadj, hid⟩
  unfold keptGraph
  rw [hadj, ok_bind]
  have hedges : ∀ kind other, (⟨true, kind, other⟩ : Graph.Edge) ∈ (adj.getD {}).edges ↔ (id, kind, other) ∈ w.edges :=
    fun kind other => hid.edges ⟨true, kind, other⟩
  cases adj with
  | none =>
      refine ⟨[], [], rfl, hid.entities, ?_⟩
      intro r
      have hnone := hedges r.1 r.2
      simp only [Option.getD_none, List.not_mem_nil, false_iff] at hnone ⊢
      exact fun hr => hnone hr.1
  | some adj =>
      rcases hfold adj.edges [] with ⟨relations, hrun, hmem⟩
      refine ⟨adj.entities, relations, ?_, hid.entities, ?_⟩
      · dsimp only
        rw [hrun, ok_bind]
      · intro r
        rw [hmem, ← hedges r.1 r.2]
        simp

/-- A memory after those that are copied. -/
theorem Holds.copyMemory (h : Holds S c w) (hdst : Holds S dst w') {done : List (Ulid × MemoryRecord)}
    (hcopied : w.Copied S done w') {e : Ulid × MemoryRecord} (he : w.get e.1 = some e.2) (hlive : e.2.tombstone = false)
    (hlast : ∀ e' ∈ done, e'.1 < e.1) (hrun : Store.copyMemory S c dst (.ok (Memory.fromRecord e.2)) = .ok dst') :
    ∃ w'', Holds S dst' w'' ∧ w.Copied S (done ++ [e]) w'' := by
  -- the memory with the part of the graph it keeps
  rcases h.wf.record e.1 e.2 he with ⟨hid, hstorable⟩
  rcases keptGraph_eq h e.1 with ⟨entities, relations, hgraph, hentities, hrelations⟩
  unfold Store.copyMemory at hrun
  rw [ok_bind, show (Memory.fromRecord e.2).id = e.1 from hid, hgraph, ok_bind] at hrun
  rcases bind_eq_ok.mp hrun with ⟨r, hinsert, hdst'⟩
  rcases r with ⟨memory, dst''⟩
  cases hdst'
  -- its id is not in the copy yet: records are copied in order
  have hmem : (copyOf (Memory.fromRecord e.2) none).id = e.1 := hid
  have hkeys := hcopied.keys_lt hlast
  have hnew : w'.get (copyOf (Memory.fromRecord e.2) none).id = none := by
    rw [hmem]
    exact hcopied.get_next hlast
  -- the content is embedded again
  cases hchunks : embedDraftContent S e.2.content with
  | error err =>
      have hfail : Store.insertRecord S dst (copyOf (Memory.fromRecord e.2) none) entities relations = .error err := by
        unfold Store.insertRecord
        rw [show (copyOf (Memory.fromRecord e.2) none).content = e.2.content from rfl, hchunks]
        rfl
      rw [hfail] at hinsert
      cases hinsert
  | ok chunks =>
      rcases hdst.insertRecord hnew rfl hchunks hinsert with ⟨vecRef, hholds⟩
      refine ⟨_, hholds, ?_⟩
      -- the record is the old one but for where its vector is
      have hrecord : unplaced (copyOf (Memory.fromRecord e.2) vecRef).normalize = unplaced e.2 :=
        unplaced_copyOf hstorable.normal hlive vecRef
      have hchunksOf : chunksOf S e.2.content = chunks := by
        unfold chunksOf
        rw [hchunks]
        rfl
      constructor
      case records =>
        -- a key above all others goes to the end
        have happend : insertKey e.1 (copyOf (Memory.fromRecord e.2) vecRef).normalize w'.records =
            w'.records ++ [(e.1, (copyOf (Memory.fromRecord e.2) vecRef).normalize)] := by
          have hseg := insertKey_segment (k := e.1) (v := (copyOf (Memory.fromRecord e.2) vecRef).normalize) (m := [])
            (r := []) hkeys (by simp)
          simpa [insertKey] using hseg
        have hlist : (w'.add (copyOf (Memory.fromRecord e.2) vecRef).normalize chunks entities relations).records =
            w'.records ++ [(e.1, (copyOf (Memory.fromRecord e.2) vecRef).normalize)] := by
          rw [← happend, ← hmem]
          rfl
        refine (congrArg (mapVal unplaced) hlist).trans ?_
        have hdone := hcopied.records
        unfold mapVal at hdone ⊢
        rw [List.map_append, List.map_append, hdone, List.map_singleton, List.map_singleton, hrecord]
      case vectors =>
        rw [List.flatMap_append, List.reverse_append, ← hcopied.vectors, List.flatMap_singleton, hchunksOf,
          ← List.map_reverse, ← hmem]
        rfl
      case tags =>
        -- a tag of the copy is one of an earlier memory, or of this one
        ext x
        change x ∈ w'.tags ∨ (x.1 = (copyOf (Memory.fromRecord e.2) none).id ∧ x.2 ∈ entities) ↔ _
        rw [hcopied.tags, hmem, hentities]
        rcases x with ⟨id, name⟩
        rw [List.map_append, List.map_singleton]
        simp only [Set.mem_ofPred_eq, List.mem_append, List.mem_singleton]
        constructor
        · intro hx
          rcases hx with hx | ⟨rfl, hx⟩
          · exact ⟨hx.1, Or.inl hx.2⟩
          · exact ⟨hx, Or.inr rfl⟩
        · intro hx
          rcases hx with ⟨hx, hin | rfl⟩
          · exact Or.inl ⟨hx, hin⟩
          · exact Or.inr ⟨rfl, hx⟩
      case edges =>
        -- likewise an edge
        ext x
        change x ∈ w'.edges ∨ (x.1 = (copyOf (Memory.fromRecord e.2) none).id ∧ x.2 ∈ relations) ↔ _
        rw [hcopied.edges, hmem, hrelations]
        rcases x with ⟨id, kind, other⟩
        rw [List.map_append, List.map_singleton]
        simp only [Set.mem_ofPred_eq, List.mem_append, List.mem_singleton]
        constructor
        · intro hx
          rcases hx with ⟨hx, hin, hother⟩ | ⟨rfl, hx, hother⟩
          · exact ⟨hx, Or.inl hin, hother⟩
          · exact ⟨hx, Or.inr rfl, hother⟩
        · intro hx
          rcases hx with ⟨hx, hin | rfl, hother⟩
          · exact Or.inl ⟨hx, hin, hother⟩
          · exact Or.inr ⟨rfl, hx, hother⟩

/-- The target of a copy is an empty store. -/
theorem holds_createWith {pageSize : Nat} (hrun : createWith S pageSize = .ok dst) : Holds S dst {} := by
  unfold createWith Header.new at hrun
  split at hrun
  · rename_i hsize
    have hfresh : Holds { S with embedder := none } (Committed.fresh FORMAT_VERSION pageSize) {} :=
      holds_fresh (by decide) (le_refl _) hsize rfl
    exact hfresh.opened S.embedder hrun
  · cases hrun

/-- The live memories, in their order. -/
theorem Holds.iter_live (h : Holds S c w) :
    Store.iter S.xxh c = w.liveRecords.map fun e => .ok (Memory.fromRecord e.2) := by
  rw [h.iter, World.liveRecords]
  induction w.records with
  | nil => rfl
  | cons e records ih =>
      rw [List.filterMap_cons, List.filter_cons, visible]
      cases htomb : e.2.tombstone <;> simp [ih]

/-- The next live record comes after those before it. -/
theorem World.next_live (hw : w.Wf) {done rest : List (Ulid × MemoryRecord)} {e : Ulid × MemoryRecord}
    (h : done ++ e :: rest = w.liveRecords) :
    w.get e.1 = some e.2 ∧ e.2.tombstone = false ∧ ∀ e' ∈ done, e'.1 < e.1 := by
  have hmem : e ∈ w.liveRecords := by
    rw [← h]
    exact List.mem_append_right _ List.mem_cons_self
  rcases List.mem_filter.mp hmem with ⟨hin, hlive⟩
  have hsorted : (done ++ e :: rest).Pairwise (fun a b => a.1 < b.1) := by
    rw [h]
    exact List.Pairwise.filter _ hw.sorted
  exact ⟨find_of_mem hw.sorted.nodup_keys hin, by simpa using hlive,
    fun e' he' => (List.pairwise_append.mp hsorted).2.2 e' he' e List.mem_cons_self⟩

/-- The new file holds the copies of the live memories. -/
theorem Holds.buildCompacted (h : Holds S c w) (hrun : Store.buildCompacted S c = .ok dst) :
    ∃ w', Holds S dst w' ∧ w.Copied S w.liveRecords w' := by
  rcases bind_eq_ok.mp hrun with ⟨start, hcreate, hfold⟩
  rw [h.iter_live] at hfold
  -- the copies so far are those of the records before
  have hgo : ∀ (rest done : List (Ulid × MemoryRecord)), done ++ rest = w.liveRecords → ∀ (mid : Committed) (w' : World),
      Holds S mid w' → w.Copied S done w' →
      (rest.map fun e => Except.ok (Memory.fromRecord e.2)).foldlM (Store.copyMemory S c) mid = Except.ok dst →
      ∃ w'', Holds S dst w'' ∧ w.Copied S w.liveRecords w'' := by
    intro rest
    induction rest with
    | nil =>
        intro done hdone mid w' hmid hcopied hrun
        cases hrun
        rw [List.append_nil] at hdone
        rw [← hdone]
        exact ⟨w', hmid, hcopied⟩
    | cons e rest ih =>
        intro done hdone mid w' hmid hcopied hrun
        rw [List.map_cons, List.foldlM_cons] at hrun
        rcases bind_eq_ok.mp hrun with ⟨next, hcopy, hrest⟩
        rcases World.next_live h.wf hdone with ⟨hget, hlive, hlast⟩
        rcases h.copyMemory hmid hcopied hget hlive hlast hcopy with ⟨w'', hnext, hcopied'⟩
        exact ih (done ++ [e]) (by rw [List.append_assoc, List.singleton_append, hdone]) next w'' hnext hcopied' hrest
  exact hgo w.liveRecords [] (List.nil_append _) start {} (holds_createWith hcreate) (w.copied_nil S) hfold

/-! ## What a reader finds -/

/-- The records that are copied. -/
theorem World.mem_liveRecords {e : Ulid × MemoryRecord} : e ∈ w.liveRecords ↔ e ∈ w.records ∧ e.2.tombstone = false := by
  rw [World.liveRecords, List.mem_filter, Bool.not_eq_true']

/-- Their ids are the live ones. -/
theorem World.mem_liveKeys (hw : w.Wf) {id : Ulid} : id ∈ w.liveRecords.map Prod.fst ↔ w.Live id := by
  constructor
  · intro hin
    rcases List.mem_map.mp hin with ⟨e, he, rfl⟩
    rcases World.mem_liveRecords.mp he with ⟨hmem, hlive⟩
    exact ⟨e.2, find_of_mem hw.sorted.nodup_keys hmem, hlive⟩
  · intro hlive
    rcases hlive with ⟨r, hget, htomb⟩
    exact List.mem_map.mpr ⟨(id, r), World.mem_liveRecords.mpr ⟨mem_of_find hget, htomb⟩, rfl⟩

/-- Looking one of them up. -/
theorem World.find_liveRecords (hw : w.Wf) {id : Ulid} {r : MemoryRecord} :
    find id w.liveRecords = some r ↔ w.get id = some r ∧ r.tombstone = false := by
  have hnodup : (w.liveRecords.map Prod.fst).Nodup := (List.filter_sublist.map Prod.fst).nodup hw.sorted.nodup_keys
  constructor
  · intro hfind
    rcases World.mem_liveRecords.mp (mem_of_find hfind) with ⟨hmem, hlive⟩
    exact ⟨find_of_mem hw.sorted.nodup_keys hmem, hlive⟩
  · intro hget
    exact find_of_mem hnodup (World.mem_liveRecords.mpr ⟨mem_of_find hget.1, hget.2⟩)

/-- A memory does not show where its vector is. -/
theorem fromRecord_congr {r r' : MemoryRecord} (h : unplaced r = unplaced r') :
    Memory.fromRecord r = Memory.fromRecord r' := by
  have hfrom : ∀ r : MemoryRecord, Memory.fromRecord r = Memory.fromRecord (unplaced r) := fun _ => rfl
  rw [hfrom, h, ← hfrom]

/-- Neither does the flag. -/
theorem tombstone_congr {r r' : MemoryRecord} (h : unplaced r = unplaced r') : r.tombstone = r'.tombstone :=
  congrArg Memory.tombstone (fromRecord_congr h)

section Copied

variable (hw : w.Wf) (hcopied : w.Copied S w.liveRecords w')

include hw hcopied

/-- A record of the copy comes from one of the original. -/
theorem World.Copied.get_eq_some {id : Ulid} {r' : MemoryRecord} (h : w'.get id = some r') :
    ∃ r, w.get id = some r ∧ r.tombstone = false ∧ unplaced r' = unplaced r := by
  have hmap := hcopied.get id
  rw [h, Option.map_some] at hmap
  cases hfind : find id w.liveRecords with
  | none =>
      rw [hfind] at hmap
      cases hmap
  | some r =>
      rw [hfind, Option.map_some, Option.some_inj] at hmap
      rcases (World.find_liveRecords hw).mp hfind with ⟨hget, hlive⟩
      exact ⟨r, hget, hlive, hmap⟩

/-- A memory reads in the copy as it did. -/
theorem World.Copied.read (id : Ulid) : w'.read id = w.read id := by
  ext m
  rw [World.read_eq_some, World.read_eq_some]
  constructor
  · intro h
    rcases h with ⟨r', hget', _, rfl⟩
    rcases hcopied.get_eq_some hw hget' with ⟨r, hget, hlive, heq⟩
    exact ⟨r, hget, hlive, fromRecord_congr heq⟩
  · intro h
    rcases h with ⟨r, hget, hlive, rfl⟩
    have hmap := hcopied.get id
    rw [(World.find_liveRecords hw).mpr ⟨hget, hlive⟩, Option.map_some, Option.map_eq_some_iff] at hmap
    rcases hmap with ⟨r', hget', heq⟩
    exact ⟨r', hget', (tombstone_congr heq).trans hlive, (fromRecord_congr heq).symm⟩

/-- The same memories are live. -/
theorem World.Copied.live {id : Ulid} : w'.Live id ↔ w.Live id := by
  rw [← World.read_isSome, ← World.read_isSome, hcopied.read hw]

/-- No edge of the copy points to nowhere. -/
theorem World.Copied.closed : w'.Closed := by
  intro x hx
  rw [hcopied.edges] at hx
  rcases (hcopied.live hw).mpr hx.2.2 with ⟨r, hget, _⟩
  exact Option.isSome_iff_exists.mpr ⟨r, hget⟩

/-- The tags of the copy are those of live memories. -/
theorem World.Copied.tag {id : Ulid} {name : String} : (id, name) ∈ w'.tags ↔ (id, name) ∈ w.tags ∧ w.Live id := by
  rw [hcopied.tags]
  exact and_congr Iff.rfl (World.mem_liveKeys hw)

/-- The edges of the copy are those between live memories. -/
theorem World.Copied.edge {id other : Ulid} {kind : String} :
    (id, kind, other) ∈ w'.edges ↔ (id, kind, other) ∈ w.edges ∧ w.Live id ∧ w.Live other := by
  rw [hcopied.edges]
  exact and_congr Iff.rfl (and_congr (World.mem_liveKeys hw) Iff.rfl)

/-- The relations of a live memory in the copy are those that have a live other end. -/
theorem World.Copied.related {id other : Ulid} {kind : String} {outgoing : Bool} (hid : w.Live id) :
    w'.Related id other kind outgoing ↔ w.Related id other kind outgoing ∧ w.Live other := by
  unfold World.Related
  cases outgoing with
  | true =>
      rw [if_pos rfl, if_pos rfl, hcopied.edge hw]
      exact ⟨fun h => ⟨h.1, h.2.2⟩, fun h => ⟨h.1, hid, h.2⟩⟩
  | false =>
      rw [if_neg Bool.false_ne_true, if_neg Bool.false_ne_true, hcopied.edge hw]
      exact ⟨fun h => ⟨h.1, h.2.1⟩, fun h => ⟨h.1, h.2, hid⟩⟩

end Copied

/-- A sorted list is determined by its members. -/
theorem ascending_ext {α κ : Type} [LinearOrder κ] {key : α → κ} {l m : List α} (hl : SortedSet.Ascending key l)
    (hm : SortedSet.Ascending key m) (h : ∀ x, x ∈ l ↔ x ∈ m) : l = m :=
  eq_of_pairwise_of_mem_iff (fun a => lt_irrefl (key a)) (fun _ _ hab => lt_asymm hab) hl hm h

/-- What is left out of a list of ids is not live. -/
theorem filterMap_eq_of_live {α β : Type} {f : α → Option β} {l m : List α} {p : α → Bool} (hm : m = l.filter p)
    (hp : ∀ x ∈ l, p x = false → f x = none) : m.filterMap f = l.filterMap f := by
  subst hm
  induction l with
  | nil => rfl
  | cons x l ih =>
      rw [List.filter_cons, List.filterMap_cons, ← ih fun y hy => hp y (List.mem_cons_of_mem _ hy)]
      split
      · rw [List.filterMap_cons]
      · rename_i hx
        rw [hp x List.mem_cons_self (by simpa using hx)]

/-- The relations of a live memory are the same. -/
theorem Holds.compacted_related (h : Holds S c w) (hdst : Holds S dst w') (hcopied : w.Copied S w.liveRecords w')
    {id : Ulid} (hid : w.Live id) : Store.related S.xxh dst id = Store.related S.xxh c id := by
  rcases h.related id with ⟨edges, hasc, hmem, hrun⟩
  rcases hdst.related id with ⟨edges', hasc', hmem', hrun'⟩
  have hedges : edges' = edges.filter fun edge => (w.read edge.other).isSome := by
    refine ascending_ext hasc' (List.Pairwise.filter _ hasc) ?_
    intro edge
    rw [List.mem_filter, hmem', hmem, hcopied.related h.wf hid, World.read_isSome]
  have halong : w'.along = w.along := by
    funext edge
    rw [World.along, World.along, hcopied.read h.wf]
  rw [hrun, hrun', halong]
  refine congrArg Except.ok (filterMap_eq_of_live hedges ?_)
  intro edge _ hdead
  unfold World.along
  rw [Option.isSome_eq_false_iff, Option.isNone_iff_eq_none] at hdead
  rw [hdead]
  rfl

/-- So are its tags. -/
theorem Holds.compacted_entitiesOf (h : Holds S c w) (hdst : Holds S dst w') (hcopied : w.Copied S w.liveRecords w')
    {id : Ulid} (hid : w.Live id) : Store.entitiesOf S.xxh dst id = Store.entitiesOf S.xxh c id := by
  rcases h.entitiesOf id with ⟨names, hasc, hmem, hrun⟩
  rcases hdst.entitiesOf id with ⟨names', hasc', hmem', hrun'⟩
  rw [hrun, hrun']
  refine congrArg Except.ok (ascending_ext hasc' hasc ?_)
  intro name
  rw [hmem', hmem, hcopied.tag h.wf]
  exact and_iff_left hid

/-- So are the members of a tag. -/
theorem Holds.compacted_entityMembers (h : Holds S c w) (hdst : Holds S dst w') (hcopied : w.Copied S w.liveRecords w')
    (entity : String) : Store.entityMembers S.xxh dst entity = Store.entityMembers S.xxh c entity := by
  rcases h.entityMembers entity with ⟨ids, hasc, hmem, hrun⟩
  rcases hdst.entityMembers entity with ⟨ids', hasc', hmem', hrun'⟩
  have hids : ids' = ids.filter fun id => (w.read id).isSome := by
    have hlive : SortedSet.Ascending id (ids.filter fun id => (w.read id).isSome) := List.Pairwise.filter _ hasc
    refine ascending_ext hasc' hlive ?_
    intro id
    rw [List.mem_filter, hmem', hmem, hcopied.tag h.wf, World.read_isSome]
  rw [hrun, hrun', show w'.read = w.read from funext (hcopied.read h.wf)]
  refine congrArg Except.ok (filterMap_eq_of_live hids ?_)
  intro id _ hdead
  rwa [Option.isSome_eq_false_iff, Option.isNone_iff_eq_none] at hdead

/-- So are the live memories. -/
theorem Holds.compacted_iter (h : Holds S c w) (hdst : Holds S dst w') (hcopied : w.Copied S w.liveRecords w') :
    Store.iter S.xxh dst = Store.iter S.xxh c := by
  have hvisible : ∀ r r' : MemoryRecord, unplaced r = unplaced r' → visible r = visible r' := by
    intro r r' heq
    rw [visible, visible, tombstone_congr heq, fromRecord_congr heq]
  have hlist : ∀ l : List (Ulid × MemoryRecord),
      l.filterMap (fun e => visible e.2) = (mapVal unplaced l).filterMap fun e => visible e.2 := by
    intro l
    rw [mapVal, List.filterMap_map]
    refine List.filterMap_congr ?_
    intro e _
    exact hvisible e.2 (unplaced e.2) rfl
  rw [h.iter, hdst.iter, hlist, hcopied.records, ← hlist]
  refine congrArg (List.map Except.ok) (filterMap_eq_of_live rfl ?_)
  intro e _ hdead
  rw [Bool.not_eq_false'] at hdead
  rw [visible, if_pos hdead]

/-- Nothing of the graph of a forgotten memory comes over. -/
theorem Holds.compacted_dead (h : Holds S c w) (hdst : Holds S dst w') (hcopied : w.Copied S w.liveRecords w')
    {id : Ulid} (hid : ¬ w.Live id) :
    Store.related S.xxh dst id = .ok [] ∧ Store.entitiesOf S.xxh dst id = .ok [] := by
  rcases hdst.related id with ⟨edges, _, hmem, hrun⟩
  rcases hdst.entitiesOf id with ⟨names, _, hmem', hrun'⟩
  have hedges : edges = [] := by
    refine List.eq_nil_iff_forall_not_mem.mpr ?_
    intro edge hedge
    have hrelated := (hmem edge).mp hedge
    unfold World.Related at hrelated
    split at hrelated
    · exact hid ((hcopied.edge h.wf).mp hrelated).2.1
    · exact hid ((hcopied.edge h.wf).mp hrelated).2.2
  have hnames : names = [] := by
    refine List.eq_nil_iff_forall_not_mem.mpr ?_
    intro name hname
    exact hid ((hcopied.tag h.wf).mp ((hmem' name).mp hname)).2
  rw [hrun, hrun', hedges, hnames]
  exact ⟨rfl, rfl⟩

/-- The new file has nothing but live memories. -/
theorem Holds.compacted_iterAll (h : Holds S c w) (hdst : Holds S dst w') (hcopied : w.Copied S w.liveRecords w') :
    Store.iterAll S.xxh dst = Store.iter S.xxh dst := by
  rw [hdst.iterAll, hdst.iter, ← List.filterMap_eq_map, List.map_filterMap]
  refine List.filterMap_congr ?_
  intro e he
  have hget : w'.get e.1 = some e.2 := find_of_mem hdst.wf.sorted.nodup_keys he
  rcases hcopied.get_eq_some h.wf hget with ⟨r, _, hlive, heq⟩
  rw [visible, tombstone_congr heq, hlive]
  rfl

end Copy

end Store

end EmbedMind
