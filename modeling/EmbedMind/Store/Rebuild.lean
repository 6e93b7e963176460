import EmbedMind.Store.Compact

/-!
# The transactions of a compaction

`build_compacted` commits once for the model of the embedder and once for every memory it copies.
`compactTxns` are these transactions, up to the first one that fails. Each is well formed over the
state that the one before it left (`CommitChain`), and together they lead from a new file to what
`buildCompacted` computes (`Holds.compactTxns`).
-/

namespace EmbedMind

open Lib Lib.Assoc

/-- Transactions that are committed one after the other. -/
inductive CommitChain (H : Xxh3) : Committed → List Txn → Committed → Prop where
  | nil (c : Committed) : CommitChain H c [] c
  | cons {t : Txn} {txns : List Txn} {c : Committed} (wf : t.Wf H) (rest : CommitChain H t.commit txns c) :
      CommitChain H t.base (t :: txns) c

/-- The state in the end is that of the last commit. -/
theorem CommitChain.last {H : Xxh3} {c c' : Committed} {txns : List Txn} (h : CommitChain H c txns c') :
    txns.foldl (fun _ t => t.commit) c = c' := by
  induction h with
  | nil c => rfl
  | cons wf rest ih => exact ih

namespace Store

section Transactions

variable (S : Setup)

/-- The transaction of `init_embedding_header`, if the file has no model yet. -/
def modelTxn (c : Committed) : Except Error (Option Txn) :=
  match S.embedder with
  | none => .ok none
  | some embedder =>
      if Hnsw.vectorSlotsPerPage c.header.pageSize embedder.dims = 0 then
        .error (.invalidArgument "page size too small for this embedder's dimensionality")
      else if c.header.embeddingDims = 0 ∧ c.header.embeddingModelId = "" then do
        let txn ← (Txn.begin c).setEmbeddingModel embedder.id embedder.dims
        .ok (some txn)
      else if c.header.embeddingModelId ≠ embedder.id ∨ c.header.embeddingDims ≠ embedder.dims then
        .error (.invalidArgument "store's embedding model does not match this Embedder; use \x60embedmind reembed\x60")
      else .ok none

variable (c : Committed)

/-- The transaction that copies a memory. -/
def copyTxn (dst : Committed) (memory : Except Error Memory) : Except Error Txn := do
  let memory ← memory
  let (entities, relations) ← keptGraph S c memory.id
  let chunks ← embedDraftContent S memory.content
  let (_, txn) ← (writeRecord S (copyOf memory none) chunks entities relations).run (Txn.begin dst)
  .ok txn

/-- The transactions that copy memories, and how the copying ends. -/
def copyTxns : Committed → List (Except Error Memory) → List Txn × Except Error Unit
  | _, [] => ([], .ok ())
  | dst, memory :: rest =>
      match copyTxn S c dst memory with
      | .error e => ([], .error e)
      | .ok txn =>
          let (txns, result) := copyTxns txn.commit rest
          (txn :: txns, result)

/-- The transactions of `build_compacted`, and how it ends. -/
def compactTxns : List Txn × Except Error Unit :=
  let created := Committed.fresh FORMAT_VERSION c.header.pageSize
  match modelTxn S created with
  | .error e => ([], .error e)
  | .ok none => copyTxns S c created (iter S.xxh c)
  | .ok (some txn) =>
      let (txns, result) := copyTxns S c txn.commit (iter S.xxh c)
      (txn :: txns, result)

end Transactions

section Equations

variable {S : Setup} {c dst : Committed} {t : Txn}

/-- `init_embedding_header` commits its transaction, if there is one. -/
theorem initEmbeddingHeader_eq (S : Setup) (c : Committed) :
    initEmbeddingHeader S c = modelTxn S c >>= fun txn => .ok ((txn.map Txn.commit).getD c) := by
  unfold initEmbeddingHeader modelTxn
  cases S.embedder with
  | none => rfl
  | some embedder =>
      dsimp only
      split_ifs with hslots hunset hother
      · rfl
      · rw [bind_assoc]
        rfl
      · rfl
      · rfl

/-- Copying a memory is committing its transaction. -/
theorem copyMemory_eq (S : Setup) (c dst : Committed) (memory : Except Error Memory) :
    copyMemory S c dst memory = copyTxn S c dst memory >>= fun txn => .ok txn.commit := by
  unfold copyMemory copyTxn insertRecord transact
  simp only [bind_assoc, ok_bind]
  rfl

/-- Copying is committing these transactions. -/
theorem foldlM_copyMemory (S : Setup) (c dst : Committed) (memories : List (Except Error Memory)) :
    memories.foldlM (copyMemory S c) dst =
      (copyTxns S c dst memories).2 >>= fun _ => .ok ((copyTxns S c dst memories).1.foldl (fun _ txn => txn.commit) dst) := by
  induction memories generalizing dst with
  | nil => rfl
  | cons memory rest ih =>
      rw [List.foldlM_cons, copyMemory_eq, copyTxns]
      cases copyTxn S c dst memory with
      | error e => rfl
      | ok txn => exact ih txn.commit

/-- `build_compacted` is committing its transactions to a new file. -/
theorem buildCompacted_eq (hsize : pageSizeIsValid c.header.pageSize = true) :
    buildCompacted S c = (compactTxns S c).2 >>= fun _ =>
      .ok ((compactTxns S c).1.foldl (fun _ txn => txn.commit) (Committed.fresh FORMAT_VERSION c.header.pageSize)) := by
  have hcreate : createWith S c.header.pageSize =
      initEmbeddingHeader S (Committed.fresh FORMAT_VERSION c.header.pageSize) := by
    unfold createWith Header.new
    rw [if_pos hsize]
    rfl
  unfold buildCompacted compactTxns
  dsimp only
  rw [hcreate, initEmbeddingHeader_eq]
  cases modelTxn S (Committed.fresh FORMAT_VERSION c.header.pageSize) with
  | error e => rfl
  | ok txn =>
      cases txn with
      | none => exact foldlM_copyMemory S c _ _
      | some txn => exact foldlM_copyMemory S c _ _

/-! ## They are well formed -/

/-- Writing the model is a well-formed transaction. -/
theorem setEmbeddingModel_wf {H : Xxh3} (hc : c.Wf H) {embedder : Embedder}
    (h : (Txn.begin c).setEmbeddingModel embedder.id embedder.dims = .ok t) : t.Wf H ∧ t.base = c := by
  unfold Txn.setEmbeddingModel at h
  split at h
  · cases h
  · rename_i hlen
    cases h
    refine ⟨(Txn.wf_begin hc).withPending { (Txn.wf_begin hc).pending with embedding := ?_ }, rfl⟩
    intro e he
    cases he
    exact ⟨not_lt.mp hlen, embedder.dims_lt⟩

/-- The transaction of the model is well formed. -/
theorem modelTxn_wf {H : Xxh3} (hc : c.Wf H) (h : modelTxn S c = .ok (some t)) : t.Wf H ∧ t.base = c := by
  unfold modelTxn at h
  cases hembedder : S.embedder with
  | none =>
      rw [hembedder] at h
      cases h
  | some embedder =>
      rw [hembedder] at h
      dsimp only at h
      split_ifs at h with hslots hunset hother
      · rcases bind_eq_ok.mp h with ⟨txn, hset, htxn⟩
        cases htxn
        exact setEmbeddingModel_wf hc hset
      · cases h

variable {w w' : World}

/-- The transaction of a record is well formed over the state it starts from. -/
theorem Holds.writeRecord_wf (h : Holds S c w) (record : MemoryRecord) {chunks : List (List F32)} {entities : List String}
    {relations : List (String × Ulid)} {memory : Memory} (hid : w.get record.id = none) (hvecRef : record.vecRef = none)
    (hchunks : embedDraftContent S record.content = .ok chunks)
    (hrun : (writeRecord S record chunks entities relations).run (Txn.begin c) = .ok (memory, t)) :
    t.Wf S.xxh ∧ t.base = c := by
  rcases h.structures with ⟨x, a, hin, hx⟩
  have hnone : S.embedder = none → chunks = [] := fun hnone => embedDraftContent_none hnone hchunks
  have hdims : ∀ embedder, S.embedder = some embedder → embedder.dims = c.header.embeddingDims :=
    fun embedder hembedder => (h.embedder embedder hembedder).1
  rcases (wp_writeRecord hin.begin hx h.wf hid hvecRef hdims hnone).ok hrun with ⟨_, _, hmoved, _⟩
  rcases hmoved.inTxn with ⟨_, hin'⟩
  exact ⟨hin'.wf, hmoved.base⟩

/-- Copying the next memory is a well-formed transaction. -/
theorem Holds.copyTxn_wf (hdst : Holds S dst w') {memory : Memory} (hnew : w'.get memory.id = none)
    (hrun : copyTxn S c dst (.ok memory) = .ok t) : t.Wf S.xxh ∧ t.base = dst := by
  unfold copyTxn at hrun
  rw [ok_bind] at hrun
  rcases bind_eq_ok.mp hrun with ⟨kept, _, hrun⟩
  rcases bind_eq_ok.mp hrun with ⟨chunks, hchunks, hrun⟩
  rcases bind_eq_ok.mp hrun with ⟨r, hwrite, htxn⟩
  cases htxn
  exact hdst.writeRecord_wf (copyOf memory none) hnew rfl hchunks hwrite

/-- Copying the live memories commits well-formed transactions, however far it gets. -/
theorem Holds.copyTxns (h : Holds S c w) (rest : List (Ulid × MemoryRecord)) {done : List (Ulid × MemoryRecord)}
    (hdone : done ++ rest = w.liveRecords) (hdst : Holds S dst w') (hcopied : w.Copied S done w') :
    ∃ c', CommitChain S.xxh dst (Store.copyTxns S c dst (rest.map fun e => .ok (Memory.fromRecord e.2))).1 c' := by
  induction rest generalizing done dst w' with
  | nil => exact ⟨dst, .nil dst⟩
  | cons e rest ih =>
      rcases World.next_live h.wf hdone with ⟨hget, hlive, hlast⟩
      rw [List.map_cons, Store.copyTxns]
      cases hcopy : copyTxn S c dst (.ok (Memory.fromRecord e.2)) with
      | error err => exact ⟨dst, .nil dst⟩
      | ok txn =>
          have hnew : w'.get (Memory.fromRecord e.2).id = none := by
            rw [show (Memory.fromRecord e.2).id = e.1 from (h.wf.record e.1 e.2 hget).1]
            exact hcopied.get_next hlast
          rcases hdst.copyTxn_wf hnew hcopy with ⟨hwf, rfl⟩
          have hmemory : Store.copyMemory S c txn.base (.ok (Memory.fromRecord e.2)) = .ok txn.commit := by
            rw [copyMemory_eq, hcopy, ok_bind]
          rcases h.copyMemory hdst hcopied hget hlive hlast hmemory with ⟨w'', hnext, hcopied'⟩
          rcases ih (by rw [List.append_assoc, List.singleton_append, hdone]) hnext hcopied' with ⟨c', hcommits⟩
          exact ⟨c', .cons hwf hcommits⟩

/-- The transactions of a compaction commit one after the other to a new file; if none fails, the compaction is what they
lead to. -/
theorem Holds.compactTxns (h : Holds S c w) :
    ∃ c', CommitChain S.xxh (Committed.fresh FORMAT_VERSION c.header.pageSize) (Store.compactTxns S c).1 c' ∧
      Store.buildCompacted S c = (Store.compactTxns S c).2 >>= fun _ => .ok c' := by
  rcases h.structures with ⟨x, a, hin, _⟩
  have hsize : pageSizeIsValid c.header.pageSize = true := hin.wf.header.pageSize
  have hfresh : (Committed.fresh FORMAT_VERSION c.header.pageSize).Wf S.xxh :=
    Committed.wf_fresh S.xxh (by decide) (le_refl _) hsize
  have hcommits : ∃ c', CommitChain S.xxh (Committed.fresh FORMAT_VERSION c.header.pageSize) (Store.compactTxns S c).1 c' := by
    -- copying the live records is a chain of commits from any store that holds nothing
    have hstart : ∀ dst, initEmbeddingHeader S (Committed.fresh FORMAT_VERSION c.header.pageSize) = .ok dst →
        ∃ c', CommitChain S.xxh dst (Store.copyTxns S c dst (Store.iter S.xxh c)).1 c' := by
      intro dst hdst
      rw [h.iter_live]
      have hempty : Holds S dst {} := by
        have hcreate : createWith S c.header.pageSize = .ok dst := by
          unfold createWith Header.new
          rw [if_pos hsize]
          exact hdst
        exact holds_createWith hcreate
      exact h.copyTxns w.liveRecords (List.nil_append _) hempty (w.copied_nil S)
    unfold Store.compactTxns
    dsimp only
    rw [initEmbeddingHeader_eq] at hstart
    -- the commit that records the model comes first, if there is one
    cases hmodel : modelTxn S (Committed.fresh FORMAT_VERSION c.header.pageSize) with
    | error e => exact ⟨_, .nil _⟩
    | ok txn =>
        rw [hmodel] at hstart
        cases txn with
        | none => exact hstart _ rfl
        | some txn =>
            rcases modelTxn_wf hfresh hmodel with ⟨hwf, hbase⟩
            rcases hstart _ rfl with ⟨c', hrest⟩
            rw [← hbase]
            exact ⟨c', .cons hwf hrest⟩
  rcases hcommits with ⟨c', hcommits⟩
  refine ⟨c', hcommits, ?_⟩
  rw [buildCompacted_eq hsize, hcommits.last]

end Equations

end Store

end EmbedMind
