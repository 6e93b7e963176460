import EmbedMind.Store.WriteProof

/-!
# The operations of a store

`Holds` relates a committed state, and the setup it is open with, to a world. Each operation
that commits takes a state that holds a world to one that holds the world after it; one that
fails leaves the state as it was.
-/

namespace EmbedMind

open Lib Lib.Assoc

/-- A commit keeps the model when none is pending. -/
theorem Txn.commit_embedding {t : Txn} (h : t.pending.embedding = none) :
    t.commit.header.embeddingDims = t.base.header.embeddingDims ∧
      t.commit.header.embeddingModelId = t.base.header.embeddingModelId := by
  cases he : t.isEmpty with
  | true => rw [Txn.commit_of_isEmpty he]; exact ⟨rfl, rfl⟩
  | false =>
      rw [Txn.commit_header he]
      simp [Txn.newHeader, PendingHeader.apply, h]

/-- An index without a node is one for vectors of any length. -/
theorem Hnsw.At.withDims {H : Xxh3} {pageSize dims : Nat} {μ : Nat → Option Bytes} {root : Nat} {stats : HnswMeta}
    {own : List Nat} (h : At H pageSize dims μ root stats [] own) (dims' : Nat) : At H pageSize dims' μ root stats [] own :=
  ⟨h.stats_wf, h.count, by simp, h.wired, by simp, by simp, h.pages⟩

namespace Store

/-- A committed state, open with a setup, holds a world. -/
structure Holds (S : Setup) (c : Committed) (w : World) : Prop where
  wf : w.Wf
  structures : ∃ x a, InStore S.xxh c.header.embeddingDims c x a ∧ x.Holds S c.header.formatVersion w
  legacy : c.header.formatVersion < FilterMeta.MIN_FORMAT_VERSION → c.header.filterMetaPage = 0
  embedder : ∀ embedder, S.embedder = some embedder → embedder.dims = c.header.embeddingDims ∧ embedder.dims ≠ 0
  model : c.header.embeddingDims = 0 ∧ c.header.embeddingModelId = "" → w.vectors = []

section Operations

variable {S : Setup} {c c' : Committed} {w : World}

/-- A transaction that has moved the structures to those of a world is committed. -/
theorem Holds.commit (h : Holds S c w) {t : Txn} {w' : World} {x : Structures}
    (hmoved : Moved S.xxh c.header.embeddingDims (Txn.begin c) t x) (hholds : x.Holds S c.header.formatVersion w')
    (hw' : w'.Wf) (hvectors : S.embedder = none → w'.vectors = w.vectors) : Holds S t.commit w' := by
  rcases Txn.commit_embedding (t := t) (by rw [hmoved.embedding]; rfl) with ⟨hdims, hid⟩
  rw [hmoved.base] at hdims hid
  -- a commit changes neither the version nor the recorded model
  have hversion : t.commit.header.formatVersion = c.header.formatVersion := by
    rw [Txn.commit_formatVersion, hmoved.formatVersion]
    rfl
  constructor
  case wf => exact hw'
  case structures =>
    rcases hmoved.inTxn with ⟨a, hin⟩
    rw [hdims, hversion]
    exact ⟨x, a, hin.commit, hholds⟩
  case legacy =>
    intro hlt
    rw [hversion] at hlt
    rw [FilterMeta.commit_filterMetaPage, hmoved.legacy hlt]
    exact h.legacy hlt
  case embedder =>
    intro embedder hembedder
    rw [hdims]
    exact h.embedder embedder hembedder
  case model =>
    intro hunset
    rw [hdims, hid] at hunset
    cases hembedder : S.embedder with
    | none =>
        rw [hvectors hembedder]
        exact h.model hunset
    | some embedder =>
        rcases h.embedder embedder hembedder with ⟨heq, hne⟩
        exact absurd (heq.trans hunset.1) hne

/-- A transaction that succeeded was committed. -/
theorem transact_ok {α : Type} {body : TxnM α} {a : α} (h : transact c body = .ok (a, c')) :
    ∃ t, body (Txn.begin c) = .ok (a, t) ∧ c' = t.commit := by
  rcases bind_eq_ok.mp h with ⟨r, hrun, hcommit⟩
  rcases r with ⟨a', t⟩
  cases hcommit
  exact ⟨t, hrun, rfl⟩

/-- One commit, or none: a commit moves the transaction counter. -/
def Next (c c' : Committed) : Prop := c' = c ∨ c'.header.txnCounter = (c.header.txnCounter + 1) % 2 ^ 64

/-- A commit is the next state. -/
theorem next_commit {t : Txn} (h : t.base = c) : Next c t.commit := by
  subst h
  cases he : t.isEmpty with
  | true => exact Or.inl (Txn.commit_of_isEmpty he)
  | false =>
      right
      rw [Txn.commit_header he]
      rfl

/-- Without an embedder there are no vectors. -/
theorem embedDraftContent_none (hnone : S.embedder = none) {content : String} {chunks : List (List F32)}
    (h : embedDraftContent S content = .ok chunks) : chunks = [] := by
  unfold embedDraftContent at h
  rw [hnone] at h
  cases h
  rfl

/-- A memory that was stored. -/
theorem Holds.remember (h : Holds S c w) {draft : MemoryDraft} {id : Ulid} {now : Int64} {chunks : List (List F32)}
    {memory : Memory} (hid : w.get id = none) (hchunks : embedDraftContent S draft.content = .ok chunks)
    (hrun : Store.remember S c draft id now = .ok (memory, c')) :
    ∃ vecRef, Holds S c' (w.remember draft chunks id now vecRef) ∧ Accepts w draft id ∧ vecRef ≠ some ⟨0, 0⟩ ∧
      memory = Memory.fromRecord (World.recordOf draft id now vecRef) ∧ Next c c' := by
  unfold Store.remember at hrun
  rw [hchunks, ok_bind] at hrun
  rcases transact_ok hrun with ⟨t, hbody, rfl⟩
  rcases h.structures with ⟨x, a, hin, hx⟩
  have hnone : S.embedder = none → chunks = [] := fun hnone => embedDraftContent_none hnone hchunks
  have hdims : ∀ embedder, S.embedder = some embedder → embedder.dims = c.header.embeddingDims :=
    fun embedder hembedder => (h.embedder embedder hembedder).1
  rcases (wp_writeRemembered hin.begin hx h.wf hid hdims hnone).ok hbody with ⟨vecRef, x', hremembered, hmemory⟩
  refine ⟨vecRef, h.commit hremembered.moved hremembered.holds hremembered.wf ?_, hremembered.accepts, ?_, hmemory,
    next_commit hremembered.moved.base⟩
  · intro hembedder
    rw [hnone hembedder]
    rfl
  · exact hremembered.vecRef

/-- Forgetting what is not live changes nothing. -/
theorem World.forget_of_not_live (hw : w.Wf) {id : Ulid} (h : ¬ w.Live id) : w.forget id = w := by
  have hsame : adjust [id] World.setTombstone w.records = w.records := by
    unfold adjust
    conv_rhs => rw [← List.map_id w.records]
    refine List.map_congr_left ?_
    intro e he
    by_cases hid : e.1 = id
    · have hget : w.get id = some e.2 := hid ▸ find_of_mem hw.sorted.nodup_keys he
      have htomb : e.2.tombstone = true := by
        by_contra hlive
        exact h ⟨e.2, hget, by simpa using hlive⟩
      rw [if_pos (List.mem_singleton.mpr hid), World.setTombstone, ← htomb]
      rfl
    · rw [if_neg fun hmem => hid (List.mem_singleton.mp hmem)]
      rfl
  rw [World.forget, hsame]

/-- A memory that was forgotten. -/
theorem Holds.forget (h : Holds S c w) {id : Ulid} {written : Bool} (hrun : Store.forget S c id = .ok (written, c')) :
    Holds S c' (w.forget id) ∧ (written = true ↔ w.Live id) ∧ (written = false → c' = c) ∧ Next c c' := by
  rcases bind_eq_ok.mp hrun with ⟨r, hbody, hcommit⟩
  rcases r with ⟨written', t⟩
  dsimp only at hcommit
  rcases h.structures with ⟨x, a, hin, hx⟩
  rcases (wp_writeForgotten hin.begin hx h.wf).ok hbody with ⟨hwritten, hdropped⟩
  cases written' with
  | true =>
      cases hcommit
      rcases hwritten rfl with ⟨hlive, x', hmoved, hx'⟩
      refine ⟨h.commit hmoved hx' (h.wf.forget id) fun _ => rfl, ?_, by simp, next_commit hmoved.base⟩
      simp [hlive]
  | false =>
      cases hcommit
      rcases hdropped rfl with ⟨hdead, _⟩
      rw [World.forget_of_not_live h.wf hdead]
      refine ⟨h, ?_, fun _ => rfl, Or.inl rfl⟩
      simp [hdead]

/-- `forget` fails only when the file is full. -/
theorem Holds.forget_error (h : Holds S c w) {id : Ulid} {e : Error} (hrun : Store.forget S c id = .error e) :
    e = Txn.pageCountOverflow := by
  rcases h.structures with ⟨x, a, hin, hx⟩
  unfold Store.forget at hrun
  cases hbody : (writeForgotten S id).run (Txn.begin c) with
  | error e' =>
      rw [hbody] at hrun
      cases hrun
      exact (wp_writeForgotten hin.begin hx h.wf).error hbody
  | ok r =>
      rw [hbody] at hrun
      cases hrun

/-- A record that was copied. -/
theorem Holds.insertRecord (h : Holds S c w) {record : MemoryRecord} {chunks : List (List F32)} {entities : List String}
    {relations : List (String × Ulid)} {memory : Memory} (hid : w.get record.id = none) (hvecRef : record.vecRef = none)
    (hchunks : embedDraftContent S record.content = .ok chunks)
    (hrun : Store.insertRecord S c record entities relations = .ok (memory, c')) :
    ∃ vecRef, Holds S c' (w.add { record with vecRef }.normalize chunks entities relations) := by
  unfold Store.insertRecord at hrun
  rw [hchunks, ok_bind] at hrun
  rcases transact_ok hrun with ⟨t, hbody, rfl⟩
  rcases h.structures with ⟨x, a, hin, hx⟩
  have hnone : S.embedder = none → chunks = [] := fun hnone => embedDraftContent_none hnone hchunks
  have hdims : ∀ embedder, S.embedder = some embedder → embedder.dims = c.header.embeddingDims :=
    fun embedder hembedder => (h.embedder embedder hembedder).1
  rcases (wp_writeRecord hin.begin hx h.wf hid hvecRef hdims hnone).ok hbody with ⟨vecRef, x', hmoved, hx', hw'⟩
  refine ⟨vecRef, h.commit hmoved hx' hw' ?_⟩
  intro hembedder
  rw [hnone hembedder]
  rfl

/-! ## Opening -/

/-- A file nothing was written to, by this or by older software. -/
theorem holds_fresh {version pageSize : Nat} (hv : 1 ≤ version) (hle : version ≤ FORMAT_VERSION)
    (hsize : pageSizeIsValid pageSize = true) (hnone : S.embedder = none) :
    Holds S (Committed.fresh version pageSize) {} := by
  constructor
  case wf => exact World.wf_empty
  case structures =>
    refine ⟨⟨[], .empty, [], .empty, [], .new, [], [], []⟩, ⟨[], [], [], [], []⟩, ?_, ?_⟩
    · exact ⟨Committed.wf_fresh S.xxh hv hle hsize, ⟨List.nodup_nil, by simp [Areas.all], by simp [Areas.all]⟩,
        ⟨PagedTree.rooted_empty, Fts.at_empty, Graph.at_empty, Hnsw.at_empty, FilterMeta.at_empty⟩⟩
    · exact ⟨rfl, Fts.content_empty S.unicode, Graph.sound_empty, Graph.denotes_empty, rfl, by simp [World.get],
        by simp [World.get], by simp⟩
  case legacy => exact fun _ => rfl
  case embedder => simp [hnone]
  case model => exact fun _ => rfl

theorem vectorSlotsPerPage_zero (pageSize : Nat) : Hnsw.vectorSlotsPerPage pageSize 0 = 0 := by
  simp [Hnsw.vectorSlotsPerPage]

/-- The first embedder of a file: its model is written to the header, the index for its vectors is empty. -/
theorem Holds.setEmbeddingModel (h : Holds S c w) {embedder : Embedder} (hdims : embedder.dims ≠ 0)
    (hunset : c.header.embeddingDims = 0 ∧ c.header.embeddingModelId = "") {t : Txn}
    (hset : (Txn.begin c).setEmbeddingModel embedder.id embedder.dims = .ok t) :
    Holds { S with embedder := some embedder } t.commit w := by
  unfold Txn.setEmbeddingModel at hset
  split at hset
  · cases hset
  rename_i hlen
  cases hset
  rcases h.structures with ⟨x, a, hin, hx⟩
  -- without a model there are no vectors, so the graph suits any dimension
  have hnodes : x.nodes = [] := by
    have hmap := hx.nodes
    rw [h.model hunset] at hmap
    exact List.map_eq_nil_iff.mp hmap
  have hbegin := hin.begin
  -- only the header changes
  have hpending : ({ (Txn.begin c).pending with embedding := some (embedder.id, embedder.dims) } : PendingHeader).Wf :=
    { PendingHeader.wf_empty with
      embedding := by
        intro e he
        cases he
        exact ⟨not_lt.mp hlen, embedder.dims_lt⟩ }
  have hwf := hbegin.wf.withPending hpending
  have hin' : InTxn S.xxh embedder.dims
      { Txn.begin c with pending := { (Txn.begin c).pending with embedding := some (embedder.id, embedder.dims) } } x a := by
    refine ⟨hwf, ⟨hbegin.owns.nodup, hbegin.owns.pos, hbegin.owns.lt⟩, ?_⟩
    have hat := hbegin.at_
    have hhnsw := hat.hnsw
    rw [hnodes] at hhnsw
    refine ⟨hat.btree, hat.fts, hat.graph, ?_, hat.filterMeta⟩
    rw [hnodes]
    exact hhnsw.withDims embedder.dims
  generalize ht : ({ Txn.begin c with
    pending := { (Txn.begin c).pending with embedding := some (embedder.id, embedder.dims) } } : Txn) = t at hin'
  -- the header that is committed has the model
  have hbusy : t.isEmpty = false := by
    rw [← ht]
    simp [Txn.isEmpty, PendingHeader.isEmpty]
  have hheader : t.commit.header.embeddingDims = embedder.dims := by
    rw [Txn.commit_header hbusy, ← ht]
    rfl
  have hversion : t.commit.header.formatVersion = c.header.formatVersion := by
    rw [Txn.commit_formatVersion, ← ht]
    rfl
  constructor
  case wf => exact h.wf
  case structures =>
    rw [hheader, hversion]
    exact ⟨x, a, hin'.commit, ⟨hx.items, hx.fts, hx.sound, hx.denotes, hx.nodes, hx.vecRefs, hx.mirrored, hx.logged⟩⟩
  case legacy =>
    intro hlt
    rw [hversion] at hlt
    rw [FilterMeta.commit_filterMetaPage, ← ht]
    exact h.legacy hlt
  case embedder =>
    intro e he
    cases he
    exact ⟨hheader.symm, hdims⟩
  case model =>
    intro hzero
    exact absurd (hheader.symm.trans hzero.1) hdims

/-- A file that is opened, with any embedder or with none. -/
theorem Holds.opened (h : Holds S c w) (embedder : Option Embedder)
    (hopen : initEmbeddingHeader { S with embedder } c = .ok c') : Holds { S with embedder } c' w := by
  -- a matching embedder changes nothing in the file
  have hsame : (∀ e, embedder = some e → e.dims = c.header.embeddingDims ∧ e.dims ≠ 0) → Holds { S with embedder } c w := by
    intro hembedder
    rcases h.structures with ⟨x, a, hin, hx⟩
    exact ⟨h.wf, ⟨x, a, hin, ⟨hx.items, hx.fts, hx.sound, hx.denotes, hx.nodes, hx.vecRefs, hx.mirrored, hx.logged⟩⟩,
      h.legacy, hembedder, h.model⟩
  unfold initEmbeddingHeader at hopen
  cases embedder with
  | none =>
      cases hopen
      exact hsame (by simp)
  | some embedder =>
      dsimp only at hopen
      split at hopen
      · cases hopen
      rename_i hslots
      have hdims : embedder.dims ≠ 0 := by
        intro hzero
        rw [hzero, vectorSlotsPerPage_zero] at hslots
        exact hslots rfl
      split at hopen
      -- no model is recorded yet: one commit records it
      · rename_i hunset
        rcases bind_eq_ok.mp hopen with ⟨t, hset, hcommit⟩
        cases hcommit
        exact h.setEmbeddingModel hdims hunset hset
      split at hopen
      · cases hopen
      · rename_i hmatch
        cases hopen
        rw [not_or, not_not, not_not] at hmatch
        refine hsame ?_
        intro e he
        cases he
        exact ⟨hmatch.2.symm, hdims⟩

end Operations

end Store

end EmbedMind
