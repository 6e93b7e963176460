import EmbedMind.Store.RecallAnswer
import EmbedMind.Store.Runs

/-!
# Near-duplicates

`remember_detailed` looks for memories close to a draft before it stores it. The chunks of the
draft are searched in the index as it is before the write; a hit counts if it is close enough and
its record is live, not superseded and of exactly the draft's project. The hints never get in the
way of the write: whenever `remember` stores a memory, so does `remember_detailed`, with the same
file after it (`Holds.rememberDetailed`).
-/

namespace EmbedMind

open Lib Lib.Assoc

/-- The `f32` 0.80. -/
def NEAR_DUP_THRESHOLD : F32 := 0x3f4ccccd

def NEAR_DUP_LIMIT : Nat := 5

def NEAR_DUP_SNIPPET_CHARS : Nat := 160

/-- A memory that a draft comes close to. -/
structure SimilarMemory where
  id : Ulid
  content : String
  score : F32
  createdAtMicros : Int64

/-- At most so many characters, and an ellipsis for what was cut. -/
def nearDupSnippet (content : String) : String :=
  if content.toList.length ≤ NEAR_DUP_SNIPPET_CHARS then content
  else String.ofList (content.toList.take NEAR_DUP_SNIPPET_CHARS ++ [Char.ofNat 0x2026])

/-- `score >= NEAR_DUP_THRESHOLD`. -/
def Floats.isNear (F : Floats) (score : F32) : Bool :=
  F.lt NEAR_DUP_THRESHOLD score || score == NEAR_DUP_THRESHOLD

namespace Hnsw

theorem length_decodeVector (bytes : Bytes) : (decodeVector bytes).length = bytes.length / 4 := by
  fun_induction decodeVector with
  | case1 a b c d rest ih =>
      rw [List.length_cons, ih]
      simp only [List.length_cons]
      omega
  | case2 bytes hshort =>
      rcases bytes with _ | ⟨a, _ | ⟨b, _ | ⟨c, _ | ⟨d, rest⟩⟩⟩⟩
      · rfl
      · simp
      · simp
      · simp
      · exact absurd rfl (hshort a b c d rest)

/-- A vector that was read has the length that was asked for. -/
theorem length_of_vectorPageGet {page : Bytes} {dims slot pageNo : Nat} {v : List F32}
    (h : vectorPageGet page dims slot pageNo = .ok v) : v.length = dims := by
  unfold vectorPageGet at h
  rcases bind_eq_ok.mp h with ⟨header, _, h⟩
  split at h
  · cases h
  split at h
  · cases h
  rcases bind_eq_ok.mp h with ⟨bytes, hbytes, h⟩
  cases h
  cases hslice : slice page (PAGE_HEADER_LEN + slot * (dims * VECTOR_STRIDE_F32)) (dims * VECTOR_STRIDE_F32) with
  | none =>
      rw [hslice] at hbytes
      cases hbytes
  | some bytes' =>
      rw [hslice] at hbytes
      cases hbytes
      rw [length_decodeVector, slice_length hslice, VECTOR_STRIDE_F32]
      omega

end Hnsw

namespace Store

section NearDuplicates

variable (S : Setup) (c : Committed)

/-- Live, not superseded, and of exactly this project. -/
def sameScope (project : Option String) (id : Ulid) : Bool :=
  match load (c.source S.xxh) c.header.rootBtreePage id with
  | .ok (some record) => !record.tombstone && !record.superseded && record.project == project
  | _ => false

/-- A hit that is close enough, under the best score of its record. -/
def keepBest (best : List (Ulid × F32)) (hit : Hnsw.Hit) : List (Ulid × F32) :=
  if S.floats.isNear hit.score then
    match find hit.recordId best with
    | none => insertKey hit.recordId hit.score best
    | some score => if S.floats.lt score hit.score then insertKey hit.recordId hit.score best else best
  else best

/-- The loop over the chunks. -/
def nearHits (embedder : Embedder) (nodeCount : Nat) (project : Option String) :
    List (List F32) → List (Ulid × F32) → Except Error (Option (List (Ulid × F32)))
  | [], best => .ok (some best)
  | vector :: rest, best => do
      let outcome ← Hnsw.search S.floats (c.source S.xxh) embedder.dims c.header.hnswMetaPage vector NEAR_DUP_LIMIT
        ⟨Hnsw.defaultEfSearch nodeCount⟩ (sameScope S c project)
      match outcome.hits with
      -- the panic of a vector of hits that is too large
      | none => .ok none
      | some hits => nearHits embedder nodeCount project rest (hits.foldl (keepBest S) best)

/-- The records of the hits that are left. -/
def loadSimilar : List (Ulid × F32) → Except Error (List SimilarMemory)
  | [] => .ok []
  | (id, score) :: rest => do
      let found ← load (c.source S.xxh) c.header.rootBtreePage id
      let similar ← loadSimilar rest
      match found with
      | none => .ok similar
      | some record => .ok (⟨id, nearDupSnippet record.content, score, record.provenance.createdAtMicros⟩ :: similar)

/-- The best scores first, in the order of the ids where they are equal. -/
def rankSimilar (best : List (Ulid × F32)) : List (Ulid × F32) :=
  (best.mergeSort fun a b => !S.floats.lt a.2 b.2).take NEAR_DUP_LIMIT

def nearDuplicates (chunks : List (List F32)) (project : Option String) : Except Error (Option (List SimilarMemory)) :=
  match S.embedder with
  | none => .ok (some [])
  | some embedder => do
      let nodeCount ← Hnsw.nodeCount (c.source S.xxh) c.header.hnswMetaPage
      -- the first memory of a file has nothing to be close to
      if chunks.isEmpty || nodeCount == 0 then .ok (some [])
      else do
        match ← nearHits S c embedder nodeCount project chunks [] with
        | none => .ok none
        | some best => do
            let similar ← loadSimilar S c (rankSimilar S best)
            .ok (some similar)

/-- `remember_detailed`: the hints of the file before the write, then the write. -/
def rememberDetailed (draft : MemoryDraft) (id : Ulid) (now : Int64) :
    Except Error (Option ((Memory × List SimilarMemory) × Committed)) := do
  let chunks ← embedDraftContent S draft.content
  match ← nearDuplicates S c chunks draft.project with
  | none => .ok none
  | some similar => do
      let (memory, c) ← transact c (writeRemembered S draft chunks id now)
      .ok (some ((memory, similar), c))

end NearDuplicates

/-! ## What the hints are -/

/-- A memory that a draft of a project may be a duplicate of. -/
def World.Comparable (w : World) (project : Option String) (id : Ulid) : Prop :=
  ∃ record, w.get id = some record ∧ record.tombstone = false ∧ record.superseded = false ∧ record.project = project

/-- What the hints say about the world: few, distinct, close enough, each with the beginning of its memory. -/
structure World.Similar (w : World) (F : Floats) (project : Option String) (similar : List SimilarMemory) : Prop where
  length : similar.length ≤ NEAR_DUP_LIMIT
  distinct : (similar.map SimilarMemory.id).Nodup
  near : ∀ m ∈ similar, F.isNear m.score = true
  memory : ∀ m ∈ similar, ∃ record, w.get m.id = some record ∧ record.tombstone = false ∧ record.superseded = false ∧
    record.project = project ∧ m.content = nearDupSnippet record.content ∧
    m.createdAtMicros = record.provenance.createdAtMicros

/-- The hits that are kept: sorted by id, comparable, close enough. -/
structure Near (F : Floats) (w : World) (project : Option String) (best : List (Ulid × F32)) : Prop where
  sorted : Sorted best
  comparable : ∀ e ∈ best, w.Comparable project e.1
  near : ∀ e ∈ best, F.isNear e.2 = true

section Holds

variable {S : Setup} {c c' : Committed} {w : World} {project : Option String}

/-- The scope check, read from the world. -/
theorem Holds.sameScope (h : Holds S c w) {id : Ulid} :
    Store.sameScope S c project id = true ↔ w.Comparable project id := by
  unfold Store.sameScope World.Comparable
  rw [h.load]
  cases w.get id with
  | none => simp
  | some record => simp [and_assoc]

/-- One more candidate near enough. -/
theorem Near.insert {F : Floats} {best : List (Ulid × F32)} (h : Near F w project best) {id : Ulid} {score : F32}
    (hid : w.Comparable project id) (hscore : F.isNear score = true) : Near F w project (insertKey id score best) where
  sorted := sorted_insertKey h.sorted
  comparable := by
    intro e he
    rcases mem_insertKey he with rfl | he
    · exact hid
    · exact h.comparable e he
  near := by
    intro e he
    rcases mem_insertKey he with rfl | he
    · exact hscore
    · exact h.near e he

/-- Keeping the best hit of a memory. -/
theorem Near.keepBest {best : List (Ulid × F32)} (h : Near S.floats w project best) {hit : Hnsw.Hit}
    (hid : w.Comparable project hit.recordId) : Near S.floats w project (Store.keepBest S best hit) := by
  unfold Store.keepBest
  by_cases hnear : S.floats.isNear hit.score = true
  · rw [if_pos hnear]
    split
    · exact h.insert hid hnear
    · split
      · exact h.insert hid hnear
      · exact h
  · rw [if_neg hnear]
    exact h

/-- Keeping the best hits of a scan. -/
theorem Near.foldl {hits : List Hnsw.Hit} {best : List (Ulid × F32)} (h : Near S.floats w project best)
    (hids : ∀ hit ∈ hits, w.Comparable project hit.recordId) :
    Near S.floats w project (hits.foldl (Store.keepBest S) best) := by
  induction hits generalizing best with
  | nil => exact h
  | cons hit hits ih =>
      refine ih (h.keepBest (hids hit List.mem_cons_self)) ?_
      exact fun hit' hhit' => hids hit' (List.mem_cons_of_mem _ hhit')

/-- Chunks of the right length are all searched. -/
theorem Holds.nearHits (h : Holds S c w) {embedder : Embedder} (hembedder : S.embedder = some embedder) (nodeCount : Nat)
    {chunks : List (List F32)} (hchunks : ∀ chunk ∈ chunks, chunk.length = embedder.dims) {best : List (Ulid × F32)}
    (hbest : Near S.floats w project best) :
    ∃ best', Store.nearHits S c embedder nodeCount project chunks best = .ok (some best') ∧
      Near S.floats w project best' := by
  rcases h.readable with ⟨x, a, hr⟩
  have hat : Hnsw.At S.xxh (c.source S.xxh).pageSize embedder.dims (c.source S.xxh).view c.header.hnswMetaPage
      x.hnswStats x.nodes a.hnsw := by
    rw [(h.embedder embedder hembedder).1]
    exact hr.at_.hnsw
  -- by induction on the chunks: no search fails, and what each adds is comparable
  induction chunks generalizing best with
  | nil => exact ⟨best, rfl, hbest⟩
  | cons vector rest ih =>
      rcases Hnsw.search_accepts (F := S.floats) hat hr.hnsw (hchunks vector List.mem_cons_self) NEAR_DUP_LIMIT
          ⟨Hnsw.defaultEfSearch nodeCount⟩ (Store.sameScope S c project) with ⟨o, hrun, hended⟩
      unfold Store.nearHits
      rw [hrun, ok_bind]
      rcases hended with ⟨hpanic, _⟩ | ⟨hits, hsome, _, _, haccepted⟩
      · -- five hits always fit
        exact absurd hpanic (by decide)
      rw [hsome]
      refine ih (fun chunk hchunk => hchunks chunk (List.mem_cons_of_mem _ hchunk)) (hbest.foldl ?_)
      intro hit hhit
      exact h.sameScope.mp (haccepted hit hhit).1

/-- The candidates are loaded as hints. -/
theorem Holds.loadSimilar (h : Holds S c w) {ranked : List (Ulid × F32)} (hids : ∀ e ∈ ranked, w.Comparable project e.1) :
    ∃ similar, Store.loadSimilar S c ranked = .ok similar ∧ similar.map (fun m => (m.id, m.score)) = ranked ∧
      ∀ m ∈ similar, ∃ record, w.get m.id = some record ∧ record.tombstone = false ∧ record.superseded = false ∧
        record.project = project ∧ m.content = nearDupSnippet record.content ∧
        m.createdAtMicros = record.provenance.createdAtMicros := by
  induction ranked with
  | nil => exact ⟨[], rfl, rfl, by simp⟩
  | cons e rest ih =>
      rcases e with ⟨id, score⟩
      rcases ih fun e he => hids e (List.mem_cons_of_mem _ he) with ⟨similar, hrun, hmap, hmemory⟩
      rcases hids _ List.mem_cons_self with ⟨record, hget, hlive, hcurrent, hproject⟩
      refine ⟨⟨id, nearDupSnippet record.content, score, record.provenance.createdAtMicros⟩ :: similar, ?_, ?_, ?_⟩
      · unfold Store.loadSimilar
        rw [h.load, hget, ok_bind, hrun, ok_bind]
      · rw [List.map_cons, hmap]
      · intro m hm
        rcases List.mem_cons.mp hm with rfl | hm
        · exact ⟨record, hget, hlive, hcurrent, hproject, rfl, rfl⟩
        · exact hmemory m hm

/-- The hints of a draft whose chunks have the right length. -/
theorem Holds.nearDuplicates (h : Holds S c w) (project : Option String) {chunks : List (List F32)}
    (hchunks : ∀ embedder, S.embedder = some embedder → ∀ chunk ∈ chunks, chunk.length = embedder.dims) :
    ∃ similar, Store.nearDuplicates S c chunks project = .ok (some similar) ∧ w.Similar S.floats project similar := by
  have hempty : w.Similar S.floats project [] := ⟨by simp, by simp, by simp, by simp⟩
  unfold Store.nearDuplicates
  cases hembedder : S.embedder with
  | none => exact ⟨[], rfl, hempty⟩
  | some embedder =>
      rcases h.readable with ⟨x, a, hr⟩
      have hcount : Hnsw.nodeCount (c.source S.xxh) c.header.hnswMetaPage = .ok x.nodes.length := by
        have hstructure := (hr.at_.hnsw.structured (c.source S.xxh) hr.hnsw).count
        rw [List.length_map] at hstructure
        exact hstructure
      dsimp only
      rw [hcount, ok_bind]
      split
      · exact ⟨[], rfl, hempty⟩
      have hstart : Near S.floats w project [] := ⟨List.Pairwise.nil, by simp, by simp⟩
      rcases h.nearHits hembedder x.nodes.length (hchunks embedder hembedder) hstart with ⟨best, hrun, hbest⟩
      -- ranking and cutting only leaves hits out
      have hperm : (best.mergeSort fun a b => !S.floats.lt a.2 b.2).Perm best := List.mergeSort_perm _ _
      have hsub : (rankSimilar S best).Sublist (best.mergeSort fun a b => !S.floats.lt a.2 b.2) := List.take_sublist _ _
      have hmem : ∀ e ∈ rankSimilar S best, e ∈ best := fun e he => hperm.mem_iff.mp (hsub.subset he)
      rcases h.loadSimilar fun e he => hbest.comparable e (hmem e he) with ⟨similar, hload, hmap, hmemory⟩
      rw [hrun, ok_bind]
      dsimp only
      rw [hload, ok_bind]
      refine ⟨similar, rfl, ?_, ?_, ?_, hmemory⟩
      · have hlength := congrArg List.length hmap
        rw [List.length_map] at hlength
        rw [hlength, rankSimilar, List.length_take]
        exact Nat.min_le_left _ _
      · have hids : similar.map SimilarMemory.id = (rankSimilar S best).map Prod.fst := by
          rw [← hmap, List.map_map]
          rfl
        rw [hids]
        exact (hsub.map Prod.fst).nodup (((hperm.map Prod.fst).nodup_iff).mpr hbest.sorted.nodup_keys)
      · intro m hm
        have hin : (m.id, m.score) ∈ rankSimilar S best := by
          rw [← hmap]
          exact List.mem_map_of_mem hm
        exact hbest.near _ (hmem _ hin)

/-- The vectors of a store have the length of its header. -/
theorem Holds.vector_length (h : Holds S c w) {v : Ulid × List F32} (hv : v ∈ w.vectors) :
    v.2.length = c.header.embeddingDims := by
  rcases h.structures with ⟨x, a, hin, hx⟩
  rw [← hx.nodes] at hv
  rcases List.mem_map.mp hv with ⟨e, he, rfl⟩
  exact Hnsw.length_of_vectorPageGet ((hin.at_.hnsw.stored e he).vector 0)

/-- What `remember` stores, `remember_detailed` stores too. -/
theorem Holds.rememberDetailed (h : Holds S c w) {draft : MemoryDraft} {id : Ulid} {now : Int64} {memory : Memory}
    (hid : w.get id = none) (hrun : Store.remember S c draft id now = .ok (memory, c')) :
    ∃ similar, Store.rememberDetailed S c draft id now = .ok (some ((memory, similar), c')) ∧
      w.Similar S.floats draft.project similar := by
  cases hchunks : embedDraftContent S draft.content with
  | error e =>
      unfold Store.remember at hrun
      rw [hchunks] at hrun
      cases hrun
  | ok chunks =>
      rcases h.remember hid hchunks hrun with ⟨vecRef, hafter, _⟩
      -- the chunks are in the index after the write, so they had the right length before it
      have hlength : ∀ embedder, S.embedder = some embedder → ∀ chunk ∈ chunks, chunk.length = embedder.dims := by
        intro embedder hembedder chunk hchunk
        rw [(hafter.embedder embedder hembedder).1]
        refine hafter.vector_length (v := (id, chunk)) (List.mem_append_left _ ?_)
        exact List.mem_map.mpr ⟨chunk, List.mem_reverse.mpr hchunk, rfl⟩
      rcases h.nearDuplicates draft.project hlength with ⟨similar, hnear, hsimilar⟩
      unfold Store.remember at hrun
      rw [hchunks, ok_bind] at hrun
      unfold Store.rememberDetailed
      rw [hchunks, ok_bind, hnear, ok_bind]
      dsimp only
      rw [hrun]
      exact ⟨similar, rfl, hsimilar⟩

/-- What `remember_detailed` stores, `remember` stores. -/
theorem remember_of_detailed {draft : MemoryDraft} {id : Ulid} {now : Int64} {memory : Memory}
    {similar : List SimilarMemory} (hrun : Store.rememberDetailed S c draft id now = .ok (some ((memory, similar), c'))) :
    Store.remember S c draft id now = .ok (memory, c') := by
  unfold Store.rememberDetailed at hrun
  rcases bind_eq_ok.mp hrun with ⟨chunks, hchunks, hrun⟩
  rcases bind_eq_ok.mp hrun with ⟨hints, hhints, hrun⟩
  cases hints with
  | none => cases hrun
  | some hints =>
      rcases bind_eq_ok.mp hrun with ⟨written, hwritten, hrun⟩
      rcases written with ⟨memory', c''⟩
      cases hrun
      unfold Store.remember
      rw [hchunks, ok_bind]
      exact hwritten

end Holds

/-- The hints of a store: few, distinct, close enough, each the beginning of a live and current memory of the project. -/
structure Hints (s : OpenStore) (project : Option String) (similar : List SimilarMemory) : Prop where
  length : similar.length ≤ NEAR_DUP_LIMIT
  distinct : (similar.map SimilarMemory.id).Nodup
  near : ∀ m ∈ similar, s.setup.floats.isNear m.score = true
  memory : ∀ m ∈ similar, ∃ memory, get s.setup.xxh s.file m.id = .ok (some memory) ∧ memory.superseded = false ∧
    memory.project = project ∧ m.content = nearDupSnippet memory.content

/-- In every reachable state `remember_detailed` stores what `remember` stores and nothing else, and its hints are sound. -/
theorem remember_detailed_remembers {s : OpenStore} {draft : MemoryDraft} {id : Ulid} {now : Int64} (hs : Reachable s)
    (fresh : load (s.file.source s.setup.xxh) s.file.header.rootBtreePage id = .ok none) :
    (∀ memory c', remember s.setup s.file draft id now = .ok (memory, c') →
      ∃ similar, rememberDetailed s.setup s.file draft id now = .ok (some ((memory, similar), c')) ∧
        Hints s draft.project similar) ∧
    ∀ memory similar c', rememberDetailed s.setup s.file draft id now = .ok (some ((memory, similar), c')) →
      remember s.setup s.file draft id now = .ok (memory, c') := by
  rcases hs.holds with ⟨w, h, _⟩
  have hid : w.get id = none := by
    rw [h.load] at fresh
    exact Except.ok.inj fresh
  constructor
  · intro memory c' hrun
    rcases h.rememberDetailed hid hrun with ⟨similar, hdetailed, hsimilar⟩
    refine ⟨similar, hdetailed, hsimilar.length, hsimilar.distinct, hsimilar.near, ?_⟩
    intro m hm
    rcases hsimilar.memory m hm with ⟨record, hget, hlive, hcurrent, hproject, hcontent, _⟩
    refine ⟨Memory.fromRecord record, ?_, hcurrent, hproject, hcontent⟩
    rw [h.get, World.read, hget, Option.bind_some, visible, hlive]
    rfl
  · exact fun memory similar c' hrun => remember_of_detailed hrun

/-- Two memories whose vectors have nothing in common. -/
def axisOps : List Op :=
  [.reopen (some axisEmbedder), .remember { content := String.ofList ['a'] } 1 0,
    .remember { content := String.ofList ['b'] } 2 0]

/-- A draft that comes close to the first of them. -/
def axisDraft : MemoryDraft := { content := String.ofList ['a'] }

/-- The draft is stored with one hint. -/
theorem axisStore_remember_detailed : ∃ s memory similar c', Run axisStore axisOps s ∧
    rememberDetailed s.setup s.file axisDraft 3 0 = .ok (some ((memory, similar), c')) ∧
    remember s.setup s.file axisDraft 3 0 = .ok (memory, c') ∧ similar.map SimilarMemory.id = [1] ∧ Hints s none similar := by
  have hall : ((axisOps.foldlM Op.exec axisStore).any fun s =>
      (load (s.file.source s.setup.xxh) s.file.header.rootBtreePage 3).toOption.any Option.isNone &&
        (rememberDetailed s.setup s.file axisDraft 3 0).toOption.any fun r =>
          decide (r.map (fun x => x.1.2.map SimilarMemory.id) = some [1])) = true := by decide +kernel
  rcases (Option.any_eq_true _ _).mp hall with ⟨s, hrun, hfacts⟩
  rcases Bool.and_eq_true_iff.mp hfacts with ⟨hfree, hhinted⟩
  rcases (Option.any_eq_true _ _).mp hfree with ⟨found, hload, hnone⟩
  rw [Option.isNone_iff_eq_none.mp hnone] at hload
  rcases (Option.any_eq_true _ _).mp hhinted with ⟨r, hdetailed, hids⟩
  rcases Option.map_eq_some_iff.mp (of_decide_eq_true hids) with ⟨⟨⟨memory, similar⟩, c'⟩, hr, hsimilar⟩
  rw [hr] at hdetailed
  have hok := toOption_eq_some.mp hdetailed
  rcases remember_detailed_remembers ⟨axisStore, axisOps, axisStore_created, run_iff_exec.mpr hrun⟩
    (toOption_eq_some.mp hload) with ⟨hhints, hremember⟩
  have hstored := hremember memory similar c' hok
  rcases hhints memory c' hstored with ⟨similar', hok', hsound⟩
  rw [hok] at hok'
  cases hok'
  exact ⟨s, memory, similar, c', run_iff_exec.mpr hrun, hok, hstored, hsimilar, hsound⟩

end Store

end EmbedMind
