import EmbedMind.Index.GraphAdded
import EmbedMind.Store.Indexes
import EmbedMind.Store.World

/-!
# A write keeps the structures in step

`Holds` says what the five structures hold of a world. The transaction of each operation
takes structures that hold a world to structures that hold the world after the operation
(`wp_writeRemembered`, `wp_writeForgotten`, `wp_writeRecord`).
-/

namespace EmbedMind

open Lib Lib.Assoc

theorem Ulid.strictMono_key : StrictMono Ulid.key := fun _ _ h => Ulid.key_lt_key.mpr h

/-- The length of a document fits four bytes. -/
theorem Fts.docLen_lt (U : Unicode) (text : String) : Fts.docLen U text < 2 ^ 32 := by
  have hfrom : ∀ (chars : List Char) (count : Nat) (inToken : Bool), count < 2 ^ 32 →
      docLenFrom U count inToken chars < 2 ^ 32 := by
    have hsucc : ∀ count, saturatingSucc count < 2 ^ 32 := by
      intro count
      unfold saturatingSucc
      omega
    intro chars
    induction chars with
    | nil =>
        intro count inToken hcount
        unfold docLenFrom
        split
        · exact hsucc count
        · exact hcount
    | cons ch rest ih =>
        intro count inToken hcount
        unfold docLenFrom
        split
        · exact ih count true hcount
        · split
          · exact ih _ false (hsucc count)
          · exact ih count false hcount
  exact hfrom _ 0 false (by norm_num)

/-- The content of an index depends on the texts by id. -/
theorem Fts.Content.congr {U : Unicode} {docs docs' : Fts.Docs} {stats : Fts.FtsMeta} {ix : Fts.Index}
    (h : Fts.Content U docs stats ix) (hperm : docs'.Perm docs) (hfind : ∀ id, find id docs' = find id docs) :
    Fts.Content U docs' stats ix where
  postings := by
    intro term id
    rw [h.postings, Fts.tfOf, Fts.tfOf, hfind]
  docCount := by rw [h.docCount, hperm.length_eq]
  totalTokens := by rw [h.totalTokens, (hperm.map _).sum_eq]

namespace Store

/-- The record tree of a world. -/
def World.items (w : World) : List (Key × Bytes) := rekey Ulid.key (mapVal MemoryRecord.bytes w.records)

section Items

variable {w : World}

/-- The bytes of a record in the tree. -/
theorem World.find_items (id : Ulid) : find id.key w.items = (w.get id).map MemoryRecord.bytes := by
  rw [World.items, find_rekey Ulid.strictMono_key, find_mapVal]
  rfl

/-- The items after one more record. -/
theorem World.insertKey_items (id : Ulid) (record : MemoryRecord) :
    insertKey id.key record.bytes w.items = { w with records := insertKey id record w.records }.items := by
  rw [World.items, insertKey_rekey Ulid.strictMono_key, insertKey_mapVal]
  rfl

/-- A stored record is read back. -/
theorem load_eq {H : Xxh3} {src : PageSource} {root : Nat} {own : List Nat} (h : Btree.Tree H src root w.items own)
    (hw : w.Wf) (id : Ulid) : load src root id = .ok (w.get id) := by
  unfold load
  rw [h.get, ok_bind, w.find_items]
  cases hget : w.get id with
  | none => rfl
  | some record =>
      rw [Option.map_some]
      dsimp only
      rw [(hw.record id record hget).2.decode_bytes, ok_bind]

end Items

/-- What the structures hold of a world, in a file of a version. -/
structure Structures.Holds (S : Setup) (version : Nat) (w : World) (x : Structures) : Prop where
  items : x.items = w.items
  fts : Fts.Content S.unicode w.docs x.ftsStats x.ix
  sound : Graph.Sound x.graphStats x.graph
  denotes : Graph.Denotes (Graph.graphOf x.graph) w.tags w.edges
  nodes : x.nodes.map (fun e => (e.node.recordId, e.vector)) = w.vectors
  vecRefs : ∀ id r v, w.get id = some r → r.vecRef = some v → ∃ e ∈ x.nodes,
    e.node.recordId = id ∧ e.node.vecPage = v.pageNo.toNat ∧ e.node.vecSlot = v.slot.toNat
  mirrored : FilterMeta.MIN_FORMAT_VERSION ≤ version → ∀ id r, w.get id = some r →
    ∃ e, find id x.log = some e ∧ FilterMeta.Mirrors x.syms (filterMetaUpdate S r) e
  logged : ∀ id, w.get id = none → find id x.log = none

/-! ## Vectors -/

/-- What the chunks of one record add to the nodes. -/
structure Chunked (id : Ulid) (chunks : List (List F32)) (nodes nodes' : List Hnsw.Entry) (vecRef : Option VecRef) :
    Prop where
  vectors : nodes'.map (fun e => (e.node.recordId, e.vector)) =
    chunks.reverse.map (fun chunk => (id, chunk)) ++ nodes.map fun e => (e.node.recordId, e.vector)
  kept : ∀ e ∈ nodes, ∃ e' ∈ nodes', e'.frame = e.frame
  isSome : vecRef.isSome ↔ chunks ≠ []
  vecRef : ∀ v, vecRef = some v → v ≠ ⟨0, 0⟩ ∧ ∃ e ∈ nodes',
    e.node.recordId = id ∧ e.node.vecPage = v.pageNo.toNat ∧ e.node.vecSlot = v.slot.toNat

/-- A vector is never placed at page zero. -/
theorem Chunked.ne_zero {id : Ulid} {chunks : List (List F32)} {nodes nodes' : List Hnsw.Entry} {vecRef : Option VecRef}
    (h : Chunked id chunks nodes nodes' vecRef) : vecRef ≠ some ⟨0, 0⟩ :=
  fun hzero => (h.vecRef _ hzero).1 rfl

theorem chunked_nil (id : Ulid) (nodes : List Hnsw.Entry) : Chunked id [] nodes nodes none where
  vectors := rfl
  kept := fun e he => ⟨e, he, rfl⟩
  isSome := by simp
  vecRef := by simp

/-- One more chunk. -/
theorem Chunked.push {id : Ulid} {done : List (List F32)} {nodes nodes' nodes'' : List Hnsw.Entry} {vecRef : Option VecRef}
    (h : Chunked id done nodes nodes' vecRef) {f : Hnsw.Frame} (hid : f.recordId = id) (hslot : f.vecSlot = 0)
    (hpos : f.vecPage ≠ 0) (hlt : f.vecPage < 2 ^ 64)
    (hframes : nodes''.map Hnsw.Entry.frame = f :: nodes'.map Hnsw.Entry.frame) :
    Chunked id (done ++ [f.vector]) nodes nodes'' (vecRef.or (some ⟨UInt64.ofNat f.vecPage, UInt16.ofNat 0⟩)) := by
  have hmem : ∀ g, g ∈ nodes''.map Hnsw.Entry.frame ↔ g = f ∨ g ∈ nodes'.map Hnsw.Entry.frame := by
    intro g
    rw [hframes, List.mem_cons]
  -- the nodes inserted before keep their frames
  have hlift : ∀ e ∈ nodes', ∃ e'' ∈ nodes'', e''.frame = e.frame := by
    intro e he
    exact List.mem_map.mp ((hmem e.frame).mpr (Or.inr (List.mem_map.mpr ⟨e, he, rfl⟩)))
  constructor
  case vectors =>
    have hproj := congrArg (List.map fun g : Hnsw.Frame => (g.recordId, g.vector)) hframes
    rw [List.map_map, List.map_cons, List.map_map, hid] at hproj
    rw [List.reverse_append, List.map_append]
    exact hproj.trans (congrArg (List.cons (id, f.vector)) h.vectors)
  case kept =>
    intro e he
    rcases h.kept e he with ⟨e', he', hframe⟩
    rcases hlift e' he' with ⟨e'', he'', hframe'⟩
    exact ⟨e'', he'', hframe'.trans hframe⟩
  case isSome => simp
  case vecRef =>
    intro v hv
    have hnat : (UInt64.ofNat f.vecPage).toNat = f.vecPage := by
      rw [UInt64.toNat_ofNat', Nat.mod_eq_of_lt hlt]
    -- the reference is the first chunk's; a later chunk does not change it
    cases vecRef with
    | some v₀ =>
        cases hv
        rcases h.vecRef v rfl with ⟨hne, e, he, hrec, hpage, hvslot⟩
        rcases hlift e he with ⟨e'', he'', hframe⟩
        injection hframe with _ h1 h2 h3 _ _
        exact ⟨hne, e'', he'', h1.trans hrec, h2.trans hpage, h3.trans hvslot⟩
    | none =>
        cases hv
        constructor
        · intro hzero
          injection hzero with h1 _
          have h0 := congrArg UInt64.toNat h1
          rw [hnat] at h0
          exact hpos h0
        · rcases List.mem_map.mp ((hmem f).mpr (Or.inl rfl)) with ⟨e, he, hframe⟩
          subst hframe
          exact ⟨e, he, hid, hnat.symm, hslot⟩

section Write

variable {S : Setup} {dims : Nat} {t : Txn} {x : Structures} {a : Areas} {w : World} {E : Error → Prop}

theorem Moved.refl (h : InTxn S.xxh dims t x a) : Moved S.xxh dims t t x := ⟨⟨a, h⟩, rfl, rfl, fun _ => rfl⟩

/-- The page size stays. -/
theorem Moved.pageSize {t' : Txn} {x' : Structures} (h : Moved S.xxh dims t t' x') : t'.pageSize = t.pageSize := by
  rw [Txn.pageSize, Txn.pageSize, h.base]

/-- The format version stays. -/
theorem Moved.formatVersion {t' : Txn} {x' : Structures} (h : Moved S.xxh dims t t' x') :
    t'.formatVersion = t.formatVersion := by
  rw [Txn.formatVersion, Txn.formatVersion, h.base]

/-- What an index refuses a vector with. -/
def Refuses (dims pageSize : Nat) (vector : List F32) (e : Error) : Prop :=
  ∃ stats, Hnsw.Refused pageSize dims stats vector e

/-- From `t` to `t'` with the chunks of one record. -/
def ChunksIn (S : Setup) (dims : Nat) (t : Txn) (x : Structures) (id : Ulid) (chunks : List (List F32))
    (vecRef : Option VecRef) (t' : Txn) : Prop :=
  ∃ hnswStats nodes, Moved S.xxh dims t t' { x with hnswStats, nodes } ∧ Chunked id chunks x.nodes nodes vecRef

/-- Inserting one chunk. -/
theorem wp_insertChunk {id : Ulid} {t₁ : Txn} {done : List (List F32)} {vecRef : Option VecRef} {chunk : List F32}
    (h : ChunksIn S dims t x id done vecRef t₁) (hE : ∀ e, Refuses dims t.pageSize chunk e → E e) :
    Wp (insertChunk S dims id vecRef chunk) t₁ (ChunksIn S dims t x id (done ++ [chunk])) E := by
  rcases h with ⟨hnswStats, nodes, hmoved, hchunked⟩
  rcases hmoved.inTxn with ⟨a₁, hin⟩
  refine Wp.bind ((Hnsw.agree_insert Hnsw.resizeLayers hin.hnsw hin.wf).wp.mono ?_ ?_)
  · intro r t₂ hr
    rcases r with ⟨pageNo, slot⟩
    rcases hr with ⟨hslot, stats', nodes', own', hins⟩
    dsimp only at hslot
    subst hslot
    rcases hins.added with ⟨f, hid, hvector, hpage, hvslot, hframes⟩
    refine Wp.pure ⟨stats', nodes', hmoved.trans (hin.moveHnsw hins.inTxn hins.stepped), ?_⟩
    subst hvector
    dsimp only at hpage
    subst hpage
    -- the new vector is on a page of the index
    have hpage : f.vecPage ∈ own' := by
      have hf : f ∈ nodes'.map Hnsw.Entry.frame := by
        rw [hframes]
        exact List.mem_cons_self
      rcases List.mem_map.mp hf with ⟨e, he, rfl⟩
      exact hins.inTxn.index.headed.sublist.subset (Hnsw.mem_pagesOf_vecPage he)
    exact hchunked.push hid hvslot (ne_of_gt (hins.inTxn.owns.pos _ hpage))
      (lt_trans (hins.inTxn.owns.lt _ hpage) hins.stepped.wf.bound) hframes
  · intro e he
    rw [hmoved.pageSize] at he
    exact hE e ⟨_, he⟩

/-- Inserting the chunks of a text. -/
theorem wp_foldChunks {id : Ulid} (chunks : List (List F32)) {t₁ : Txn} {done : List (List F32)} {vecRef : Option VecRef}
    (h : ChunksIn S dims t x id done vecRef t₁) (hE : ∀ chunk ∈ chunks, ∀ e, Refuses dims t.pageSize chunk e → E e) :
    Wp (chunks.foldlM (insertChunk S dims id) vecRef) t₁ (ChunksIn S dims t x id (done ++ chunks)) E := by
  induction chunks generalizing t₁ done vecRef with
  | nil =>
      rw [List.append_nil]
      exact Wp.pure h
  | cons chunk chunks ih =>
      rw [List.foldlM_cons]
      refine Wp.bind ((wp_insertChunk h (hE chunk List.mem_cons_self)).imp ?_)
      intro vecRef' t₂ h₂
      have hrest := ih h₂ fun c hc => hE c (List.mem_cons_of_mem _ hc)
      rwa [List.append_assoc, List.singleton_append] at hrest

/-- Inserting them, if there is an embedder. -/
theorem wp_insertChunks {id : Ulid} {chunks : List (List F32)} (h : InTxn S.xxh dims t x a)
    (hdims : ∀ embedder, S.embedder = some embedder → embedder.dims = dims) (hnone : S.embedder = none → chunks = [])
    (hE : ∀ chunk ∈ chunks, ∀ e, Refuses dims t.pageSize chunk e → E e) :
    Wp (insertChunks S id chunks) t (ChunksIn S dims t x id chunks) E := by
  have hstart : ChunksIn S dims t x id [] none t := ⟨x.hnswStats, x.nodes, Moved.refl h, chunked_nil id x.nodes⟩
  unfold insertChunks
  split
  · rename_i hembedder
    rw [hnone hembedder]
    exact Wp.pure hstart
  · rename_i embedder hembedder
    rw [hdims embedder hembedder]
    exact wp_foldChunks chunks hstart hE

/-! ## Records -/

/-- Writing a record. -/
theorem wp_putRecord {id : Ulid} {record : MemoryRecord} (h : InTxn S.xxh dims t x a) (hitems : x.items = w.items)
    (hE : E Txn.pageCountOverflow) (herr : ∀ e, record.encode = .error e → E e) :
    Wp (putRecord S id record) t (fun _ t' => record.normalize.Storable ∧ Moved S.xxh dims t t'
      { x with items := { w with records := insertKey id record.normalize w.records }.items }) E := by
  unfold putRecord
  refine Wp.bind (Wp.lift ?_ herr)
  intro b hb
  have hlen : b.length ≤ MAX_RECORD_LEN := (MemoryRecord.encode_iff.mp hb).2.1
  rcases MemoryRecord.storable_normalize hb with ⟨hstorable, hbytes⟩
  refine (Btree.wp_insert h.btree hlen).mono ?_ ?_
  · intro _ t' hpost
    rcases hpost with ⟨own', hin, hstep⟩
    rw [← w.insertKey_items, hbytes, ← hitems]
    exact ⟨hstorable, h.moveBtree hin hstep.stepped⟩
  · intro e he
    rw [he]
    exact hE

/-- The flag of one superseded target. -/
theorem wp_flagTarget {target : Ulid × MemoryRecord} (h : InTxn S.xxh dims t x a) (hitems : x.items = w.items)
    (hw : w.Wf) (hget : w.get target.1 = some target.2) (hE : E Txn.pageCountOverflow) :
    Wp (flagTarget S target) t (fun record t' => record = World.setSuperseded target.2 ∧
      Moved S.xxh dims t t' { x with items := (w.supersede [target.1]).items }) E := by
  have hstorable : (World.setSuperseded target.2).Storable :=
    (hw.record target.1 target.2 hget).2.withFlags target.2.tombstone true
  have hrecords : insertKey target.1 (World.setSuperseded target.2).normalize w.records =
      adjust [target.1] World.setSuperseded w.records := by
    rw [hstorable.normal]
    exact insertKey_eq_adjust hw.sorted hget
  show Wp (putRecord S target.1 (World.setSuperseded target.2) >>= fun _ => pure (World.setSuperseded target.2)) t _ E
  refine Wp.bind ((wp_putRecord h hitems hE ?_).imp ?_)
  · intro e he
    rw [hstorable.encode_eq] at he
    cases he
  · intro _ t' hpost
    rw [hrecords] at hpost
    exact Wp.pure ⟨rfl, hpost.2⟩

/-- Flagging the superseded records. -/
theorem wp_flagTargets (targets : List (Ulid × MemoryRecord)) (h : InTxn S.xxh dims t x a) (hitems : x.items = w.items)
    (hw : w.Wf) (hnd : (targets.map Prod.fst).Nodup) (hfound : ∀ e ∈ targets, w.get e.1 = some e.2)
    (hE : E Txn.pageCountOverflow) :
    Wp (targets.mapM (flagTarget S)) t (fun flagged t' => flagged = targets.map (fun e => World.setSuperseded e.2) ∧
      Moved S.xxh dims t t' { x with items := (w.supersede (targets.map Prod.fst)).items }) E := by
  induction targets generalizing t x a w with
  | nil =>
      rw [List.mapM_nil]
      refine Wp.pure ⟨rfl, ?_⟩
      rw [List.map_nil, World.supersede_nil, ← hitems]
      exact Moved.refl h
  | cons target targets ih =>
      rcases List.nodup_cons.mp hnd with ⟨hnot, hnd'⟩
      rw [List.mapM_cons]
      refine Wp.bind ((wp_flagTarget h hitems hw (hfound target List.mem_cons_self) hE).imp ?_)
      intro record t₁ h₁
      rcases h₁ with ⟨rfl, hmoved₁⟩
      rcases hmoved₁.inTxn with ⟨a₁, hin₁⟩
      have hothers : ∀ e ∈ targets, (w.supersede [target.1]).get e.1 = some e.2 := by
        intro e he
        have hne : e.1 ∉ [target.1] := by
          intro heq
          rw [List.mem_singleton] at heq
          exact hnot (heq ▸ List.mem_map_of_mem he)
        rw [World.get_supersede, hfound e (List.mem_cons_of_mem _ he), Option.map_some, if_neg hne]
      refine Wp.bind ((ih hin₁ rfl (hw.supersede [target.1]) hnd' hothers).imp ?_)
      intro flagged t₂ h₂
      rcases h₂ with ⟨rfl, hmoved₂⟩
      rw [World.supersede_supersede] at hmoved₂
      exact Wp.pure ⟨rfl, hmoved₁.trans hmoved₂⟩

/-! ## The sidecar -/

/-- Writing the updates to the sidecar. -/
theorem wp_mirror {updates : List FilterMeta.Update} (hdoc : ∀ u ∈ updates, u.docLen < 2 ^ 32)
    (h : InTxn S.xxh dims t x a) (hE : E Txn.pageCountOverflow) :
    Wp (FilterMeta.recordUpdates S.xxh updates) t (fun _ t' => ∃ log syms,
      Moved S.xxh dims t t' { x with log, syms } ∧
      (FilterMeta.MIN_FORMAT_VERSION ≤ t.formatVersion → FilterMeta.Updated x.syms syms x.log log updates) ∧
      (t.formatVersion < FilterMeta.MIN_FORMAT_VERSION → log = x.log)) E := by
  refine (FilterMeta.wp_recordUpdates hE updates hdoc h.wf h.filterMeta).imp ?_
  intro _ t' hpost
  rcases hpost with ⟨log, syms, own, hin, hupd, hold, hstep⟩
  by_cases hversion : t.formatVersion < FilterMeta.MIN_FORMAT_VERSION
  · refine ⟨x.log, x.syms, ?_, fun hge => absurd hversion (not_lt.mpr hge), fun _ => rfl⟩
    rw [hold hversion]
    exact Moved.refl h
  · exact ⟨log, syms, h.moveFilterMeta hin hstep fun hlt => absurd hlt hversion, hupd,
      fun hlt => absurd hlt hversion⟩

/-- The record of every update is in the world after the operation, and no other one changed. -/
structure Announces (S : Setup) (w w' : World) (updates : List FilterMeta.Update) : Prop where
  told : ∀ u ∈ updates, ∃ r, w'.get u.id = some r ∧
    ∀ syms e, FilterMeta.Mirrors syms u e → FilterMeta.Mirrors syms (filterMetaUpdate S r) e
  others : ∀ id, (∀ u ∈ updates, u.id ≠ id) → w'.get id = w.get id

/-- The sidecar mirrors the world after its updates. -/
theorem Announces.mirrored {w' : World} {updates : List FilterMeta.Update} {log log' : FilterMeta.Entries}
    {syms syms' : FilterMeta.Symbols} (h : Announces S w w' updates)
    (hupd : FilterMeta.Updated syms syms' log log' updates)
    (hold : ∀ id r, w.get id = some r → ∃ e, find id log = some e ∧ FilterMeta.Mirrors syms (filterMetaUpdate S r) e) :
    ∀ id r, w'.get id = some r → ∃ e, find id log' = some e ∧ FilterMeta.Mirrors syms' (filterMetaUpdate S r) e := by
  intro id r hr
  by_cases hmem : ∃ u ∈ updates, u.id = id
  · rcases hupd.mirrors id hmem with ⟨u, hu, hid, e, he, hmirrors⟩
    rcases h.told u hu with ⟨r', hr', hsame⟩
    rw [hid, hr] at hr'
    cases hr'
    exact ⟨e, he, hsame _ e hmirrors⟩
  · have hne : ∀ u ∈ updates, u.id ≠ id := fun u hu heq => hmem ⟨u, hu, heq⟩
    rw [h.others id hne] at hr
    rcases hold id r hr with ⟨e, he, hmirrors⟩
    rw [hupd.others id hne]
    exact ⟨e, he, hmirrors.mono hupd.keeps⟩

/-- It has an entry for every memory after its updates. -/
theorem Announces.logged {w' : World} {updates : List FilterMeta.Update} {log log' : FilterMeta.Entries}
    {syms syms' : FilterMeta.Symbols} (h : Announces S w w' updates)
    (hupd : FilterMeta.Updated syms syms' log log' updates) (hold : ∀ id, w.get id = none → find id log = none) :
    ∀ id, w'.get id = none → find id log' = none := by
  intro id hr
  have hne : ∀ u ∈ updates, u.id ≠ id := by
    intro u hu hid
    rcases h.told u hu with ⟨r, hr', _⟩
    rw [hid, hr] at hr'
    cases hr'
  rw [hupd.others id hne]
  exact hold id (by rwa [h.others id hne] at hr)

/-- An update that a record is stored with tells of the record as it is read back. -/
theorem filterMetaUpdate_normalize (r : MemoryRecord) (syms : FilterMeta.Symbols) (e : FilterMeta.Entry)
    (h : FilterMeta.Mirrors syms (filterMetaUpdate S r) e) :
    FilterMeta.Mirrors syms (filterMetaUpdate S r.normalize) e := by
  have hproject : r.normalize.project.getD "" = r.project.getD "" := by
    rw [MemoryRecord.normalize]
    dsimp only
    split
    · rename_i hempty
      rw [hempty]
      rfl
    · rfl
  exact ⟨h.dead, h.hasMetadata, h.scope.imp id fun hs => ⟨by rw [filterMetaUpdate, hproject]; exact hs.1, hs.2⟩, h.docLen⟩

/-! ## The indexes of a new record -/

/-- What the indexes gain with a record, while the record itself is not stored yet. -/
structure Indexed (S : Setup) (dims : Nat) (t : Txn) (w : World) (x : Structures) (id : Ulid) (content : String)
    (chunks : List (List F32)) (entities : List String) (relations : List (String × Ulid)) (vecRef : Option VecRef)
    (x' : Structures) (t' : Txn) : Prop where
  moved : Moved S.xxh dims t t' x'
  items : x'.items = x.items
  log : x'.log = x.log
  syms : x'.syms = x.syms
  fts : Fts.Content S.unicode ((id, content) :: w.docs) x'.ftsStats x'.ix
  accepts : Graph.Accepts id entities relations
  sound : Graph.Sound x'.graphStats x'.graph
  denotes : Graph.Denotes (Graph.graphOf x'.graph) (w.tags ∪ {y | y.1 = id ∧ y.2 ∈ entities})
    (w.edges ∪ {y | y.1 = id ∧ y.2 ∈ relations})
  chunked : Chunked id chunks x.nodes x'.nodes vecRef

/-- Writing the vector, text and graph indexes. -/
theorem wp_indexes {α : Type} {id : Ulid} {content : String} {chunks : List (List F32)} {entities : List String}
    {relations : List (String × Ulid)} {rest : Option VecRef → TxnM α} {Q : α → Txn → Prop}
    (h : InTxn S.xxh dims t x a) (hholds : x.Holds S t.formatVersion w) (hid : w.get id = none)
    (hdims : ∀ embedder, S.embedder = some embedder → embedder.dims = dims) (hnone : S.embedder = none → chunks = [])
    (hrest : ∀ vecRef x' t', Indexed S dims t w x id content chunks entities relations vecRef x' t' →
      Wp (rest vecRef) t' Q fun _ => True) :
    Wp (do
      let vecRef ← insertChunks S id chunks
      Fts.indexDocument S.xxh S.unicode id content
      Graph.addMemory S.xxh id entities relations
      rest vecRef) t Q fun _ => True := by
  refine Wp.bind ((wp_insertChunks h hdims hnone fun _ _ _ _ => trivial).imp ?_)
  intro vecRef t₁ h₁
  rcases h₁ with ⟨hnswStats, nodes, hmoved₁, hchunked⟩
  rcases hmoved₁.inTxn with ⟨a₁, hin₁⟩
  refine Wp.bind ((Fts.wp_indexDocument S.unicode hin₁.wf hin₁.fts).imp ?_)
  intro _ t₂ h₂
  rcases h₂ with ⟨ftsRoot, own₂, hfts, hstep₂⟩
  have hmoved₂ := hmoved₁.trans (hin₁.moveFts hfts hstep₂)
  rcases hmoved₂.inTxn with ⟨a₂, hin₂⟩
  refine Wp.bind ((Graph.wp_addMemory hin₂.wf hin₂.graph).imp ?_)
  intro _ t₃ h₃
  rcases h₃ with ⟨haccepts, graphRoot, own₃, hgraph, hstep₃⟩
  have hnew : find id w.docs = none := by rw [World.find_docs, hid]; rfl
  refine hrest vecRef _ t₃ ⟨hmoved₂.trans (hin₂.moveGraph hgraph hstep₃), rfl, rfl, rfl, ?_, haccepts, ?_, ?_, hchunked⟩
  · exact hholds.fts.add S.unicode hnew content ftsRoot
  · exact (hholds.sound.added haccepts).withRoot graphRoot
  · exact hholds.denotes.added hholds.sound haccepts

/-- The indexes depend on the set of relations. -/
theorem Indexed.congr {id : Ulid} {content : String} {chunks : List (List F32)} {entities : List String}
    {relations relations' : List (String × Ulid)} {vecRef : Option VecRef} {x' : Structures} {t' : Txn}
    (h : Indexed S dims t w x id content chunks entities relations vecRef x' t')
    (ha : Graph.Accepts id entities relations') (hmem : ∀ r, r ∈ relations ↔ r ∈ relations') :
    Indexed S dims t w x id content chunks entities relations' vecRef x' t' := by
  refine { h with accepts := ha, denotes := ?_ }
  have hdenotes := h.denotes
  simp only [hmem] at hdenotes
  exact hdenotes

/-- A record and its flags are stored, its indexes are there, the sidecar was told. -/
theorem Indexed.holds {w' : World} {id : Ulid} {content : String} {chunks : List (List F32)} {targets : List Ulid}
    {entities : List String} {relations : List (String × Ulid)} {vecRef : Option VecRef} {x₁ : Structures} {t₁ : Txn}
    (h : Indexed S dims t w x id content chunks entities relations vecRef x₁ t₁)
    (hholds : x.Holds S t.formatVersion w) (hid : w.get id = none) {record : MemoryRecord} (hrecord : record.id = id)
    (hcontent : record.content = content) (hvecRef : record.vecRef = vecRef)
    (hw' : w' = (w.supersede targets).add record.normalize chunks entities relations)
    {updates : List FilterMeta.Update} (hannounces : Announces S w w' updates) {log : FilterMeta.Entries}
    {syms : FilterMeta.Symbols}
    (hupd : FilterMeta.MIN_FORMAT_VERSION ≤ t.formatVersion → FilterMeta.Updated x.syms syms x.log log updates)
    (hold : t.formatVersion < FilterMeta.MIN_FORMAT_VERSION → log = x.log) :
    Structures.Holds S t.formatVersion w' { x₁ with items := w'.items, log, syms } := by
  subst hcontent
  have hnid : record.normalize.id = id := hrecord
  -- what the new world holds under an id
  have hget : ∀ id', w'.get id' = if id' = id then some record.normalize
      else (w.get id').map fun r => if id' ∈ targets then World.setSuperseded r else r := by
    intro id'
    rw [hw', World.get_add, World.get_supersede, hnid]
  have hdocs : w'.docs = insertKey id record.content w.docs := by
    rw [hw', World.docs_add, World.docs_supersede, hnid]
    rfl
  have hnew : find id w.docs = none := by rw [World.find_docs, hid]; rfl
  constructor
  case items => rfl
  case fts =>
    refine h.fts.congr ?_ ?_
    · rw [hdocs]
      exact perm_insertKey hnew
    · intro id'
      rw [hdocs, find_insertKey]
      rfl
  case sound => exact h.sound
  case denotes =>
    rw [hw']
    simp only [World.add, hnid]
    exact h.denotes
  case nodes =>
    rw [hw']
    simp only [World.add, hnid]
    rw [h.chunked.vectors, hholds.nodes]
    rfl
  case vecRefs =>
    intro id' r v hr hv
    rw [hget] at hr
    split at hr
    · rename_i heq
      cases hr
      -- the new record points to the node of its first chunk
      have hsome : vecRef = some v := by
        rw [← hvecRef]
        rw [MemoryRecord.normalize] at hv
        dsimp only at hv
        split at hv
        · cases hv
        · exact hv
      rw [heq]
      exact (h.chunked.vecRef v hsome).2
    -- an old record points to the node that it pointed to; the nodes have kept their frames
    · rcases Option.map_eq_some_iff.mp hr with ⟨r₀, hr₀, rfl⟩
      rw [show (if id' ∈ targets then World.setSuperseded r₀ else r₀).vecRef = r₀.vecRef by split <;> rfl] at hv
      rcases hholds.vecRefs id' r₀ v hr₀ hv with ⟨e, he, hrec, hpage, hslot⟩
      rcases h.chunked.kept e he with ⟨e', he', hframe⟩
      injection hframe with _ h1 h2 h3 _ _
      exact ⟨e', he', h1.trans hrec, h2.trans hpage, h3.trans hslot⟩
  case mirrored =>
    intro hversion
    exact hannounces.mirrored (hupd hversion) (hholds.mirrored hversion)
  case logged =>
    -- below the version of the sidecar nothing is logged
    by_cases hversion : t.formatVersion < FilterMeta.MIN_FORMAT_VERSION
    · intro id' hnone
      dsimp only
      rw [hold hversion]
      refine hholds.logged id' ?_
      rw [hget] at hnone
      split at hnone
      · cases hnone
      · exact Option.map_eq_none_iff.mp hnone
    · exact hannounces.logged (hupd (not_lt.mp hversion)) hholds.logged

/-- A record was flagged, the sidecar was told. -/
theorem Structures.Holds.forget {version : Nat} {id : Ulid} {r : MemoryRecord} (h : x.Holds S version w) (hw : w.Wf)
    (hget : w.get id = some r) {log : FilterMeta.Entries} {syms : FilterMeta.Symbols}
    (hupd : FilterMeta.MIN_FORMAT_VERSION ≤ version →
      FilterMeta.Updated x.syms syms x.log log [filterMetaUpdate S (World.setTombstone r)])
    (hold : version < FilterMeta.MIN_FORMAT_VERSION → log = x.log) :
    Structures.Holds S version (w.forget id) { x with items := (w.forget id).items, log, syms } := by
  have hid : (filterMetaUpdate S (World.setTombstone r)).id = id := (hw.record id r hget).1
  -- the one row told to the sidecar is the tombstone's
  have hannounces : Announces S w (w.forget id) [filterMetaUpdate S (World.setTombstone r)] := by
    constructor
    case told =>
      intro u hu
      rw [List.mem_singleton.mp hu]
      refine ⟨World.setTombstone r, ?_, fun _ _ hm => hm⟩
      rw [hid, World.get_forget, hget, Option.map_some, if_pos rfl]
    case others =>
      intro id' hid'
      have hne : id' ≠ id := fun heq => hid' _ List.mem_cons_self (hid.trans heq.symm)
      rw [World.get_forget]
      cases w.get id' with
      | none => rfl
      | some r' => rw [Option.map_some, if_neg hne]
  -- text, graph and vectors keep what they hold of a forgotten memory
  constructor
  case items => rfl
  case fts =>
    rw [World.docs_forget]
    exact h.fts
  case sound => exact h.sound
  case denotes => exact h.denotes
  case nodes => exact h.nodes
  case vecRefs =>
    intro id' r' v hr' hv
    rw [World.get_forget] at hr'
    rcases Option.map_eq_some_iff.mp hr' with ⟨r₀, hr₀, rfl⟩
    rw [show (if id' = id then World.setTombstone r₀ else r₀).vecRef = r₀.vecRef by split <;> rfl] at hv
    exact h.vecRefs id' r₀ v hr₀ hv
  case mirrored =>
    intro hversion
    exact hannounces.mirrored (hupd hversion) (h.mirrored hversion)
  case logged =>
    by_cases hversion : version < FilterMeta.MIN_FORMAT_VERSION
    · intro id' hnone
      dsimp only
      rw [hold hversion]
      rw [World.get_forget, Option.map_eq_none_iff] at hnone
      exact h.logged id' hnone
    · exact hannounces.logged (hupd (not_lt.mp hversion)) h.logged

/-! ## Checks -/

/-- A target that passes its check is live. -/
theorem checkRelationTarget_ok {src : PageSource} {root : Nat} (hload : ∀ id, load src root id = .ok (w.get id))
    {relation : String × Ulid} (h : checkRelationTarget src root relation = .ok ()) : w.Live relation.2 := by
  unfold checkRelationTarget at h
  rw [hload, ok_bind] at h
  cases hget : w.get relation.2 with
  | none =>
      rw [hget] at h
      cases h
  | some r =>
      rw [hget] at h
      cases htomb : r.tombstone with
      | true => simp [htomb] at h
      | false => exact ⟨r, hget, htomb⟩

/-- So are all targets. -/
theorem checkRelationTargets_ok {src : PageSource} {root : Nat} (hload : ∀ id, load src root id = .ok (w.get id))
    (relations : List (String × Ulid)) (h : relations.forM (checkRelationTarget src root) = .ok ()) :
    ∀ r ∈ relations, w.Live r.2 := by
  induction relations with
  | nil => simp
  | cons relation relations ih =>
      rcases bind_eq_ok.mp h with ⟨_, hhead, htail⟩
      intro r hr
      rcases List.mem_cons.mp hr with rfl | hr
      · exact checkRelationTarget_ok hload hhead
      · exact ih htail r hr

/-- Superseded targets with their records. -/
structure Targets (w : World) (project : Option String) (targets : List (Ulid × MemoryRecord)) : Prop where
  nodup : (targets.map Prod.fst).Nodup
  found : ∀ e ∈ targets, w.get e.1 = some e.2
  live : ∀ e ∈ targets, e.2.tombstone = false ∧ e.2.project = project

/-- A superseded memory passes its check. -/
theorem supersedesTarget_ok {src : PageSource} {root : Nat} (hload : ∀ id, load src root id = .ok (w.get id))
    {project : Option String} {targets targets' : List (Ulid × MemoryRecord)} {target : Ulid}
    (h : supersedesTarget src root project targets target = .ok targets') (ht : Targets w project targets) :
    Targets w project targets' ∧ ∀ id, id ∈ targets'.map Prod.fst ↔ id ∈ targets.map Prod.fst ∨ id = target := by
  unfold supersedesTarget at h
  split at h
  · rename_i hany
    cases h
    refine ⟨ht, fun id => ?_⟩
    -- a target that is named again changes nothing
    rcases List.any_eq_true.mp hany with ⟨e, he, heq⟩
    constructor
    · exact Or.inl
    · intro hid
      rcases hid with hid | rfl
      · exact hid
      · rw [beq_iff_eq] at heq
        exact List.mem_map.mpr ⟨e, he, heq⟩
  rename_i hany
  rw [hload, ok_bind] at h
  cases hget : w.get target with
  | none =>
      rw [hget] at h
      cases h
  | some r =>
      rw [hget] at h
      dsimp only at h
      split at h
      · cases h
      split at h
      · cases h
      -- a live memory of the same project is one more target
      rename_i htomb hproject
      cases h
      have hmem : ∀ e ∈ targets ++ [(target, r)], e ∈ targets ∨ e = (target, r) := by
        intro e he
        simpa using he
      constructor
      · constructor
        case nodup =>
          rw [List.map_append, List.nodup_append]
          refine ⟨ht.nodup, List.nodup_singleton _, ?_⟩
          intro id hid id' hid' heq
          rw [List.map_singleton, List.mem_singleton] at hid'
          rcases List.mem_map.mp hid with ⟨e, he, rfl⟩
          exact hany (List.any_eq_true.mpr ⟨e, he, by rw [beq_iff_eq, heq, hid']⟩)
        case found =>
          intro e he
          rcases hmem e he with he | rfl
          · exact ht.found e he
          · exact hget
        case live =>
          intro e he
          rcases hmem e he with he | rfl
          · exact ht.live e he
          · exact ⟨by simpa using htomb, not_not.mp hproject⟩
      · intro id
        simp

/-- So do all of them. -/
theorem supersedesTargets_ok {src : PageSource} {root : Nat} (hload : ∀ id, load src root id = .ok (w.get id))
    {project : Option String} (ids : List Ulid) {targets targets' : List (Ulid × MemoryRecord)}
    (h : ids.foldlM (supersedesTarget src root project) targets = .ok targets') (ht : Targets w project targets) :
    Targets w project targets' ∧ ∀ id, id ∈ targets'.map Prod.fst ↔ id ∈ targets.map Prod.fst ∨ id ∈ ids := by
  induction ids generalizing targets with
  | nil =>
      cases h
      exact ⟨ht, by simp⟩
  | cons target ids ih =>
      rw [List.foldlM_cons, bind_eq_ok] at h
      rcases h with ⟨targets₁, hhead, htail⟩
      rcases supersedesTarget_ok hload hhead ht with ⟨ht₁, hmem₁⟩
      rcases ih htail ht₁ with ⟨ht', hmem'⟩
      refine ⟨ht', fun id => ?_⟩
      rw [hmem', hmem₁, List.mem_cons, or_assoc]

/-! ## The transactions -/

/-- What a draft may point at. -/
structure Accepts (w : World) (draft : MemoryDraft) (id : Ulid) : Prop where
  relations : ∀ r ∈ draft.relations, w.Live r.2
  supersedes : ∀ target ∈ draft.supersedes, ∃ r, w.get target = some r ∧ r.tombstone = false ∧ r.project = draft.project
  graph : Graph.Accepts id draft.entities
    (draft.relations ++ draft.supersedes.map fun target => (SUPERSEDES_RELATION, target))

/-- The world of a draft that was accepted. -/
theorem World.Wf.remember {draft : MemoryDraft} {id : Ulid} {now : Int64} {chunks : List (List F32)}
    {vecRef : Option VecRef} (hw : w.Wf) (h : Accepts w draft id) (hid : w.get id = none)
    (hstorable : (World.recordOf draft id now vecRef).normalize.Storable) (hvec : vecRef.isSome ↔ chunks ≠ [])
    (hne : vecRef ≠ some ⟨0, 0⟩) : (w.remember draft chunks id now vecRef).Wf := by
  refine (hw.supersede draft.supersedes).add hstorable ?_ ?_ ?_
  · rw [World.get_supersede, show (World.recordOf draft id now vecRef).normalize.id = id from rfl, hid]
    rfl
  · rw [MemoryRecord.normalize, World.recordOf, if_neg hne]
    exact hvec
  · exact h.graph.others

/-- A new memory makes edges to memories only. -/
theorem World.Closed.remember {draft : MemoryDraft} {id : Ulid} {now : Int64} {chunks : List (List F32)}
    {vecRef : Option VecRef} (hw : w.Closed) (h : Accepts w draft id) :
    (w.remember draft chunks id now vecRef).Closed := by
  refine (hw.supersede draft.supersedes).add ?_
  intro r hr
  rw [World.isSome_get_supersede]
  rcases List.mem_append.mp hr with hrel | hsup
  · rcases h.relations r hrel with ⟨r', hget, _⟩
    rw [hget]
    rfl
  · rcases List.mem_map.mp hsup with ⟨target, htarget, rfl⟩
    rcases h.supersedes target htarget with ⟨r', hget, _⟩
    rw [hget]
    rfl

/-- What a transaction of `remember` leaves. -/
structure Remembered (S : Setup) (dims : Nat) (w : World) (draft : MemoryDraft) (chunks : List (List F32)) (id : Ulid)
    (now : Int64) (t : Txn) (vecRef : Option VecRef) (x' : Structures) (t' : Txn) : Prop where
  accepts : Accepts w draft id
  moved : Moved S.xxh dims t t' x'
  holds : x'.Holds S t.formatVersion (w.remember draft chunks id now vecRef)
  wf : (w.remember draft chunks id now vecRef).Wf
  vecRef : vecRef ≠ some ⟨0, 0⟩

/-- The updates of a new memory. -/
theorem announces_remember {draft : MemoryDraft} {chunks : List (List F32)} {id : Ulid} {now : Int64}
    {vecRef : Option VecRef} {targets : List (Ulid × MemoryRecord)} (hw : w.Wf) (hid : w.get id = none)
    (ht : Targets w draft.project targets) (hids : ∀ id, id ∈ targets.map Prod.fst ↔ id ∈ draft.supersedes) :
    Announces S w (w.remember draft chunks id now vecRef)
      ((World.recordOf draft id now vecRef :: targets.map fun e => World.setSuperseded e.2).map (filterMetaUpdate S)) := by
  -- what the new world says of any id
  have hget : ∀ id', (w.remember draft chunks id now vecRef).get id' =
      if id' = id then some (World.recordOf draft id now vecRef).normalize
      else (w.get id').map fun r => if id' ∈ draft.supersedes then World.setSuperseded r else r := by
    intro id'
    rw [World.remember, World.get_add, World.get_supersede]
    rfl
  have hrecord : ∀ e ∈ targets, e.2.id = e.1 := fun e he => (hw.record e.1 e.2 (ht.found e he)).1
  -- no superseded memory has the new id
  have hne : ∀ e ∈ targets, e.1 ≠ id := by
    intro e he heq
    have hfound := ht.found e he
    rw [heq, hid] at hfound
    cases hfound
  constructor
  case told =>
    intro u hu
    rw [List.map_cons, List.mem_cons, List.map_map] at hu
    rcases hu with rfl | hu
    · refine ⟨(World.recordOf draft id now vecRef).normalize, ?_, filterMetaUpdate_normalize _⟩
      rw [hget, if_pos (show (filterMetaUpdate S (World.recordOf draft id now vecRef)).id = id from rfl)]
    · rcases List.mem_map.mp hu with ⟨e, he, rfl⟩
      refine ⟨World.setSuperseded e.2, ?_, fun _ _ hm => hm⟩
      have hmem : e.1 ∈ draft.supersedes := (hids e.1).mp (List.mem_map_of_mem he)
      rw [show ((filterMetaUpdate S ∘ fun e => World.setSuperseded e.2) e).id = e.1 from hrecord e he, hget,
        if_neg (hne e he), ht.found e he, Option.map_some, if_pos hmem]
  case others =>
    intro id' hid'
    rw [List.map_cons, List.map_map] at hid'
    have h1 : id' ≠ id := fun heq => hid' _ List.mem_cons_self heq.symm
    have h2 : id' ∉ draft.supersedes := by
      intro hmem
      rcases List.mem_map.mp ((hids id').mpr hmem) with ⟨e, he, rfl⟩
      exact hid' _ (List.mem_cons_of_mem _ (List.mem_map.mpr ⟨e, he, rfl⟩)) (hrecord e he)
    rw [hget, if_neg h1]
    cases w.get id' with
    | none => rfl
    | some r => rw [Option.map_some, if_neg h2]

/-- The transaction of a new memory. -/
theorem wp_writeRemembered {draft : MemoryDraft} {chunks : List (List F32)} {id : Ulid} {now : Int64}
    (h : InTxn S.xxh dims t x a) (hholds : x.Holds S t.formatVersion w) (hw : w.Wf) (hid : w.get id = none)
    (hdims : ∀ embedder, S.embedder = some embedder → embedder.dims = dims) (hnone : S.embedder = none → chunks = []) :
    Wp (writeRemembered S draft chunks id now) t (fun memory t' => ∃ vecRef x',
      Remembered S dims w draft chunks id now t vecRef x' t' ∧
      memory = Memory.fromRecord (World.recordOf draft id now vecRef)) fun _ => True := by
  have hload : ∀ id, load (t.source S.xxh) t.rootBtreePage id = .ok (w.get id) := by
    have htree := h.btree.tree
    rw [hholds.items] at htree
    exact load_eq htree hw
  refine Wp.bind (Txn.wp_current (Wp.bind (Txn.wp_reading ?_ fun _ _ => trivial)))
  intro _ hrelations
  have hrel := checkRelationTargets_ok hload draft.relations hrelations
  refine Wp.bind (Txn.wp_reading ?_ fun _ _ => trivial)
  intro targets htargets
  rcases supersedesTargets_ok hload draft.supersedes htargets ⟨List.nodup_nil, by simp, by simp⟩ with ⟨ht, hmem⟩
  have hids : ∀ id, id ∈ targets.map Prod.fst ↔ id ∈ draft.supersedes := by simpa using hmem
  have hedges : ∀ r, r ∈ draft.relations ++ targets.map (fun e => (SUPERSEDES_RELATION, e.1)) ↔
      r ∈ draft.relations ++ draft.supersedes.map fun target => (SUPERSEDES_RELATION, target) := by
    intro r
    simp only [List.mem_append, List.mem_map, ← hids]
    aesop
  refine wp_indexes h hholds hid hdims hnone ?_
  intro vecRef x₁ t₁ hidx
  have haccepts : Accepts w draft id := by
    constructor
    case relations => exact hrel
    case supersedes =>
      intro target htarget
      rcases List.mem_map.mp ((hids target).mpr htarget) with ⟨e, he, rfl⟩
      exact ⟨e.2, ht.found e he, ht.live e he⟩
    case graph =>
      exact ⟨hidx.accepts.names, fun r hr => hidx.accepts.kinds r ((hedges r).mpr hr),
        fun r hr => hidx.accepts.others r ((hedges r).mpr hr)⟩
  have hidx' := hidx.congr haccepts.graph hedges
  -- the flags, then the record
  have hitems₁ : x₁.items = w.items := hidx.items.trans hholds.items
  rcases hidx.moved.inTxn with ⟨a₁, hin₁⟩
  refine Wp.bind ((wp_flagTargets targets hin₁ hitems₁ hw ht.nodup ht.found trivial).imp ?_)
  intro flagged t₂ h₂
  rcases h₂ with ⟨rfl, hmoved₂⟩
  rw [World.supersede_congr hids] at hmoved₂
  rcases hmoved₂.inTxn with ⟨a₂, hin₂⟩
  refine Wp.bind ((wp_putRecord (w := w.supersede draft.supersedes) hin₂ rfl trivial fun _ _ => trivial).imp ?_)
  intro _ t₃ h₃
  rcases h₃ with ⟨hstorable, hmoved₃⟩
  rcases hmoved₃.inTxn with ⟨a₃, hin₃⟩
  have hmoved := (hidx.moved.trans hmoved₂).trans hmoved₃
  refine Wp.bind ((wp_mirror ?_ hin₃ trivial).imp ?_)
  · intro u hu
    rcases List.mem_map.mp hu with ⟨r, _, rfl⟩
    exact Fts.docLen_lt S.unicode r.content
  intro _ t₄ h₄
  rcases h₄ with ⟨log, syms, hmoved₄, hupd, hold⟩
  rw [hmoved.formatVersion] at hupd hold
  have hwf : (w.remember draft chunks id now vecRef).Wf :=
    hw.remember haccepts hid hstorable hidx.chunked.isSome hidx.chunked.ne_zero
  have hholds' : Structures.Holds S t.formatVersion (w.remember draft chunks id now vecRef)
      { x₁ with items := (w.remember draft chunks id now vecRef).items, log, syms } := by
    refine hidx'.holds hholds hid rfl rfl rfl rfl (announces_remember hw hid ht hids) ?_ ?_
    · intro hge
      rw [← hidx.log, ← hidx.syms]
      exact hupd hge
    · intro hlt
      rw [← hidx.log]
      exact hold hlt
  exact Wp.pure ⟨vecRef, _, ⟨haccepts, hmoved.trans hmoved₄, hholds', hwf, hidx.chunked.ne_zero⟩, rfl⟩

/-- What a transaction of `forget` leaves: the flag, or nothing. -/
theorem wp_writeForgotten {id : Ulid} (h : InTxn S.xxh dims t x a) (hholds : x.Holds S t.formatVersion w) (hw : w.Wf) :
    Wp (writeForgotten S id) t (fun written t' => (written = true → w.Live id ∧ ∃ x', Moved S.xxh dims t t' x' ∧
      x'.Holds S t.formatVersion (w.forget id)) ∧ (written = false → ¬ w.Live id ∧ t' = t))
      fun e => e = Txn.pageCountOverflow := by
  have hload : load (t.source S.xxh) t.rootBtreePage id = .ok (w.get id) := by
    have htree := h.btree.tree
    rw [hholds.items] at htree
    exact load_eq htree hw id
  refine Wp.bind (Txn.wp_current (Wp.bind (Txn.wp_reading ?_ ?_)))
  swap
  · intro e he
    rw [hload] at he
    cases he
  intro found hfound
  rw [hload] at hfound
  cases hfound
  cases hget : w.get id with
  | none =>
      -- there is no such memory
      refine Wp.pure ⟨by simp, fun _ => ⟨?_, rfl⟩⟩
      intro hlive
      rcases hlive with ⟨r, hr, _⟩
      rw [hget] at hr
      cases hr
  | some r =>
      dsimp only
      split
      -- it is forgotten already
      · rename_i htomb
        refine Wp.pure ⟨by simp, fun _ => ⟨?_, rfl⟩⟩
        intro hlive
        rcases hlive with ⟨r', hr', hlive⟩
        rw [hget] at hr'
        cases hr'
        rw [htomb] at hlive
        cases hlive
      rename_i htomb
      -- its record is written with the tombstone, then the sidecar is told
      have hrecord := hw.record id r hget
      have hstorable : (World.setTombstone r).Storable := hrecord.2.withFlags true r.superseded
      have hrecords : insertKey id (World.setTombstone r).normalize w.records = (w.forget id).records := by
        rw [hstorable.normal]
        exact insertKey_eq_adjust hw.sorted hget
      show Wp (putRecord S id (World.setTombstone r) >>= fun _ =>
        FilterMeta.recordUpdates S.xxh [filterMetaUpdate S (World.setTombstone r)] >>= fun _ => pure true) t _ _
      refine Wp.bind ((wp_putRecord (E := fun e => e = Txn.pageCountOverflow) h hholds.items rfl ?_).imp ?_)
      · intro e he
        rw [hstorable.encode_eq] at he
        cases he
      intro _ t₁ h₁
      rcases h₁ with ⟨_, hmoved₁⟩
      rw [hrecords] at hmoved₁
      rcases hmoved₁.inTxn with ⟨a₁, hin₁⟩
      refine Wp.bind ((wp_mirror (E := fun e => e = Txn.pageCountOverflow) ?_ hin₁ rfl).imp ?_)
      · intro u hu
        rw [List.mem_singleton.mp hu]
        exact Fts.docLen_lt S.unicode r.content
      intro _ t₂ h₂
      rcases h₂ with ⟨log, syms, hmoved₂, hupd, hold⟩
      rw [hmoved₁.formatVersion] at hupd hold
      have hlive : w.Live id := ⟨r, hget, by simpa using htomb⟩
      exact Wp.pure ⟨fun _ => ⟨hlive, _, hmoved₁.trans hmoved₂, hholds.forget hw hget hupd hold⟩, by simp⟩

/-- What the transaction of a record that is copied leaves: the record, with the reference to its own vectors. -/
theorem wp_writeRecord {record : MemoryRecord} {chunks : List (List F32)} {entities : List String}
    {relations : List (String × Ulid)} (h : InTxn S.xxh dims t x a) (hholds : x.Holds S t.formatVersion w) (hw : w.Wf)
    (hid : w.get record.id = none) (hvecRef : record.vecRef = none)
    (hdims : ∀ embedder, S.embedder = some embedder → embedder.dims = dims) (hnone : S.embedder = none → chunks = []) :
    Wp (writeRecord S record chunks entities relations) t (fun _ t' => ∃ vecRef x', Moved S.xxh dims t t' x' ∧
      x'.Holds S t.formatVersion (w.add { record with vecRef }.normalize chunks entities relations) ∧
      (w.add { record with vecRef }.normalize chunks entities relations).Wf) fun _ => True := by
  -- the indexes first: they fix the record's vector reference
  refine wp_indexes h hholds hid hdims hnone ?_
  intro vecRef x₁ t₁ hidx
  rw [hvecRef, Option.none_or]
  have hitems₁ : x₁.items = w.items := hidx.items.trans hholds.items
  rcases hidx.moved.inTxn with ⟨a₁, hin₁⟩
  -- then the record's row
  refine Wp.bind ((wp_putRecord hin₁ hitems₁ trivial fun _ _ => trivial).imp ?_)
  intro _ t₂ h₂
  rcases h₂ with ⟨hstorable, hmoved₂⟩
  rcases hmoved₂.inTxn with ⟨a₂, hin₂⟩
  have hmoved := hidx.moved.trans hmoved₂
  -- last its row of the filter sidecar
  refine Wp.bind ((wp_mirror ?_ hin₂ trivial).imp ?_)
  · intro u hu
    rw [List.mem_singleton.mp hu]
    exact Fts.docLen_lt S.unicode record.content
  intro _ t₃ h₃
  rcases h₃ with ⟨log, syms, hmoved₃, hupd, hold⟩
  rw [hmoved.formatVersion] at hupd hold
  -- the one announced row is the new record's, and no other memory changes
  have hannounces : Announces S w (w.add { record with vecRef }.normalize chunks entities relations)
      [filterMetaUpdate S { record with vecRef }] := by
    constructor
    case told =>
      intro u hu
      rw [List.mem_singleton.mp hu]
      refine ⟨{ record with vecRef }.normalize, ?_, filterMetaUpdate_normalize _⟩
      rw [World.get_add]
      exact if_pos rfl
    case others =>
      intro id' hid'
      have hne : id' ≠ record.id := fun heq => hid' _ List.mem_cons_self heq.symm
      rw [World.get_add]
      exact if_neg hne
  have hholds' : Structures.Holds S t.formatVersion (w.add { record with vecRef }.normalize chunks entities relations)
      { x₁ with items := (w.add { record with vecRef }.normalize chunks entities relations).items, log, syms } := by
    have hnothing : w.add { record with vecRef }.normalize chunks entities relations =
        (w.supersede []).add { record with vecRef }.normalize chunks entities relations := by rw [World.supersede_nil]
    have hrecord : ({ record with vecRef } : MemoryRecord).id = record.id := rfl
    refine hidx.holds hholds hid hrecord rfl rfl hnothing hannounces ?_ ?_
    · intro hge
      rw [← hidx.log, ← hidx.syms]
      exact hupd hge
    · intro hlt
      rw [← hidx.log]
      exact hold hlt
  -- every index now holds the world with the record added
  refine Wp.pure ⟨vecRef, _, hmoved.trans hmoved₃, hholds', hw.add hstorable hid ?_ hidx.accepts.others⟩
  rw [MemoryRecord.normalize, if_neg hidx.chunked.ne_zero]
  exact hidx.chunked.isSome

end Write

end Store

end EmbedMind
