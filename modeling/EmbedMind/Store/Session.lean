import EmbedMind.Lib.Stamped
import EmbedMind.Store.RecallAnswer
import EmbedMind.Store.Runs

/-!
# Queries between writes

A session is a run of a store in which queries stand between the writes. A query may leave
the sidecar in the cache, with the transaction counter of the file, and a later one takes it
from there if the counter is still the same. Opening a file and compacting it clear the cache:
the counter starts again there.
-/

namespace EmbedMind

open Lib Lib.Assoc

namespace Store

/-- An open store, with what its last queries have left in the cache. -/
structure Session where
  store : OpenStore
  cache : Cache := none

inductive Call where
  | op (op : Op)
  | searchText (query : Query)
  | recallDetailed (query : Query)
  | recallVector (query : Query)

/-- What an operation leaves of the cache. -/
def Op.cache (cache : Cache) : Op → Cache
  | .reopen _ => none
  | .vacuum => none
  | _ => cache

def Call.op? : Call → Option Op
  | .op o => some o
  | _ => none

section Session

variable {α : Type} [Field α] [LinearOrder α] (I : Fts.Idf α)

/-- A call; a query changes the cache only, whatever it answers. -/
inductive Session.Step : Session → Call → Session → Prop where
  | op {s s' : OpenStore} {cache : Cache} {op : Op} (step : Store.Step s op s') :
      Session.Step ⟨s, cache⟩ (.op op) ⟨s', op.cache cache⟩
  | searchText {s : OpenStore} {cache : Cache} (query : Query) :
      Session.Step ⟨s, cache⟩ (.searchText query) ⟨s, (Store.searchText s.setup s.file I cache query).2⟩
  | recallDetailed {s : OpenStore} {cache : Cache} (query : Query) :
      Session.Step ⟨s, cache⟩ (.recallDetailed query) ⟨s, (Store.recallDetailed s.setup s.file I cache query).2⟩
  | recallVector {s : OpenStore} {cache : Cache} (query : Query) :
      Session.Step ⟨s, cache⟩ (.recallVector query) ⟨s, (Store.recallVector s.setup s.file cache query).2⟩

inductive Session.Run : Session → List Call → Session → Prop where
  | nil (s : Session) : Session.Run s [] s
  | snoc {s s' s'' : Session} {calls : List Call} {call : Call} (run : Session.Run s calls s')
      (step : Session.Step I s' call s'') : Session.Run s (calls ++ [call]) s''

/-! ## The writes of a session -/

variable {I}

/-- The operations of a session are a run of its store. -/
theorem Session.Run.ops {s s' : Session} {calls : List Call} (h : Session.Run I s calls s') :
    Store.Run s.store (calls.filterMap Call.op?) s'.store := by
  induction h with
  | nil => exact .nil _
  | snoc run step ih =>
      rw [List.filterMap_append]
      cases step with
      | op step => exact ih.snoc step
      | searchText query =>
          rw [show [Call.searchText query].filterMap Call.op? = [] from rfl, List.append_nil]
          exact ih
      | recallDetailed query =>
          rw [show [Call.recallDetailed query].filterMap Call.op? = [] from rfl, List.append_nil]
          exact ih
      | recallVector query =>
          rw [show [Call.recallVector query].filterMap Call.op? = [] from rfl, List.append_nil]
          exact ih

/-! ## Running a session -/

/-- A call, carried out. -/
def Call.exec (I : Fts.Idf α) (s : Session) : Call → Option Session
  | .op o => (o.exec s.store).map (⟨·, o.cache s.cache⟩)
  | .searchText query => some ⟨s.store, (Store.searchText s.store.setup s.store.file I s.cache query).2⟩
  | .recallDetailed query => some ⟨s.store, (Store.recallDetailed s.store.setup s.store.file I s.cache query).2⟩
  | .recallVector query => some ⟨s.store, (Store.recallVector s.store.setup s.store.file s.cache query).2⟩

/-- What a call computes is a step. -/
theorem Session.Step.of_exec {s s' : Session} {call : Call} (h : call.exec I s = some s') : Session.Step I s call s' := by
  rcases s with ⟨store, cache⟩
  cases call with
  | op op =>
      rcases Option.map_eq_some_iff.mp h with ⟨store', hstep, hs'⟩
      subst hs'
      exact .op (step_iff_exec.mpr hstep)
  | searchText query =>
      cases h
      exact .searchText query
  | recallDetailed query =>
      cases h
      exact .recallDetailed query
  | recallVector query =>
      cases h
      exact .recallVector query

/-- What a list of calls computes is a run. -/
theorem Session.Run.of_exec {s s' : Session} {calls : List Call} (h : calls.foldlM (fun s call => call.exec I s) s = some s') :
    Session.Run I s calls s' := by
  induction calls using List.reverseRecOn generalizing s' with
  | nil =>
      cases h
      exact .nil s
  | append_singleton calls call ih =>
      rw [List.foldlM_append] at h
      rcases Option.bind_eq_some_iff.mp h with ⟨s₁, hrun, hlast⟩
      rcases Option.bind_eq_some_iff.mp hlast with ⟨s₂, hstep, hend⟩
      cases hend
      exact (ih hrun).snoc (.of_exec hstep)

/-! ## The cache -/

/-- The sidecar of a file. -/
def SidecarOf (H : Xxh3) (c : Committed) (table : FilterMeta.Table) : Prop :=
  FilterMeta.load (c.source H) c.header.filterMetaPage c.header.filterSymbolsPage = .ok table

/-- The cache holds the sidecar of a file that at most `n` commits have followed. -/
abbrev Cached (H : Xxh3) (n : Nat) (c : Committed) (cache : Cache) : Prop :=
  Stamped (fun c : Committed => c.header.txnCounter) (SidecarOf H) (2 ^ 64) n c cache

/-- A cache of fewer than `2 ^ 64` calls is fresh or stamped otherwise. -/
theorem Cached.ok {H : Xxh3} {n : Nat} {c : Committed} {cache : Cache} (h : Cached H n c cache) (hn : n < 2 ^ 64)
    (hc : c.header.txnCounter < 2 ^ 64) : CacheOk H c cache :=
  fun _ htable => h.current hn hc htable

/-- A query leaves the cache as it is, or with the sidecar that it has loaded. -/
theorem Cached.filterMeta {H : Xxh3} {n : Nat} {c : Committed} {cache : Cache} (h : Cached H n c cache)
    (hc : c.header.txnCounter < 2 ^ 64) : Cached H n c (Store.filterMeta H c cache).2 := by
  have hload : Cached H n c (loadFilterMeta H c cache).2 := by
    unfold loadFilterMeta
    cases hrun : FilterMeta.load (c.source H) c.header.filterMetaPage c.header.filterSymbolsPage with
    | error e => exact h
    | ok table => exact Stamped.fresh hc hrun
  unfold Store.filterMeta
  split
  · exact h
  · cases cache with
    | none => exact hload
    | some cached =>
        dsimp only
        split
        · exact h
        · exact hload

/-- Whatever an embedder does, a query leaves what looking for the sidecar leaves, or nothing new. -/
theorem recallDetailed_cache (S : Setup) (c : Committed) (cache : Cache) (query : Query) :
    (Store.recallDetailed S c I cache query).2 = cache ∨
      (Store.recallDetailed S c I cache query).2 = (Store.filterMeta S.xxh c cache).2 := by
  unfold Store.recallDetailed
  cases S.embedder with
  | none => exact Or.inl rfl
  | some embedder => exact Or.inr rfl

/-- A vector search keeps the cache or loads it. -/
theorem recallVector_cache (S : Setup) (c : Committed) (cache : Cache) (query : Query) :
    (Store.recallVector S c cache query).2 = cache ∨
      (Store.recallVector S c cache query).2 = (Store.filterMeta S.xxh c cache).2 := by
  unfold Store.recallVector
  cases S.embedder with
  | none => exact Or.inl rfl
  | some embedder => exact Or.inr rfl

/-- The counter fits its width. -/
theorem Holds.txnCounter_lt {S : Setup} {c : Committed} {w : World} (h : Holds S c w) : c.header.txnCounter < 2 ^ 64 := by
  rcases h.structures with ⟨x, a, hin, _⟩
  exact hin.wf.header.txnCounter

/-- An operation moves the transaction counter once, or it clears the cache. -/
theorem Step.cached {s s' : OpenStore} {op : Op} {w : World} {n : Nat} {cache : Cache} (hstep : Store.Step s op s')
    (h : Holds s.setup s.file w) (hcache : Cached s.setup.xxh n s.file cache) :
    Cached s'.setup.xxh (n + 1) s'.file (op.cache cache) := by
  cases hstep with
  | reopen embedder done => exact Stamped.none
  | vacuum done => exact Stamped.none
  | forget done => exact hcache.next (h.forget done).2.2.2
  | @remember draft id now memory c' fresh done =>
      have hid : w.get id = none := by
        have hload := h.load id
        rw [fresh] at hload
        exact (Except.ok.inj hload).symm
      cases hchunks : embedDraftContent s.setup draft.content with
      | error e =>
          unfold Store.remember at done
          rw [hchunks] at done
          cases done
      | ok chunks =>
          rcases h.remember hid hchunks done with ⟨_, _, _, _, _, hnext⟩
          exact hcache.next hnext

/-- The cache at the end of a session is of one of its states, and each call moves the counter at most once. -/
theorem Session.Run.cached {s s' : Session} {calls : List Call} {w : World} (hrun : Session.Run I s calls s')
    (h : Holds s.store.setup s.store.file w) (hclosed : w.Closed) (hcache : s.cache = none) :
    Cached s'.store.setup.xxh calls.length s'.store.file s'.cache := by
  induction hrun with
  | nil =>
      rw [hcache]
      exact Stamped.none
  | snoc run step ih =>
      rcases run.ops.refines h hclosed with ⟨w₁, _, h₁, _⟩
      rw [List.length_append, List.length_singleton]
      have hlt := h₁.txnCounter_lt
      have hstay : ∀ {H : Xxh3} {n : Nat} {c : Committed} {cache : Cache}, Cached H n c cache → Cached H (n + 1) c cache :=
        fun hc => hc.next (Or.inl rfl)
      -- a query leaves the file alone, so its counter is still the one of the stamp
      cases step with
      | op step => exact step.cached h₁ ih
      | searchText query => exact hstay (ih.filterMeta hlt)
      | recallDetailed query =>
          rcases recallDetailed_cache (I := I) _ _ _ query with hsame | hmeta
          · exact hstay (hsame ▸ ih)
          · exact hstay (hmeta ▸ ih.filterMeta hlt)
      | recallVector query =>
          rcases recallVector_cache _ _ _ query with hsame | hmeta
          · exact hstay (hsame ▸ ih)
          · exact hstay (hmeta ▸ ih.filterMeta hlt)

/-- What a session leaves from a creation on: a store that holds a world, and a cache that is current. -/
theorem Session.Run.holds {s₀ : OpenStore} {s : Session} {calls : List Call} (hrun : Session.Run I ⟨s₀, none⟩ calls s)
    (hcreated : Created s₀) (hcalls : calls.length < 2 ^ 64) :
    ∃ w, World.Run s₀.setup {} (calls.filterMap Call.op?) w ∧ Holds s.store.setup s.store.file w ∧
      CacheOk s.store.setup.xxh s.store.file s.cache := by
  rcases hrun.ops.refines hcreated.holds World.closed_empty with ⟨w, hworld, h, _⟩
  have hcached := hrun.cached hcreated.holds World.closed_empty rfl
  exact ⟨w, hworld, h, hcached.ok hcalls h.txnCounter_lt⟩

/-! ## A small session -/

/-- A session without queries is a run. -/
theorem Session.Run.of_ops {s s' : OpenStore} {ops : List Op} (h : Store.Run s ops s') :
    Session.Run I ⟨s, none⟩ (ops.map Call.op) ⟨s', none⟩ := by
  induction h with
  | nil => exact .nil _
  | @snoc s₁ s₂ ops op run step ih =>
      rw [List.map_append]
      have hcache : op.cache none = none := by cases op <;> rfl
      have hstep : Session.Step I ⟨s₁, none⟩ (.op op) ⟨s₂, op.cache none⟩ := .op step
      rw [hcache] at hstep
      exact ih.snoc hstep

/-- The operations of the small run, then two searches. -/
def plainCalls : List Call :=
  plainOps.map Call.op ++ [.searchText { text := String.ofList ['b'] }] ++ [.recallDetailed { text := String.ofList ['b'] }]

/-- The small session succeeds. -/
theorem plainCalls_run (I : Fts.Idf α) : ∃ s, Session.Run I ⟨plainStore, none⟩ plainCalls s := by
  rcases plainOps_run with ⟨s, _, hrun, _⟩
  exact ⟨_, ((Session.Run.of_ops hrun).snoc (.searchText _)).snoc (.recallDetailed _)⟩

/-- The store is opened with an embedder; a memory is stored, a search leaves the sidecar in the cache, and a second
memory, related to the first, makes that sidecar old. -/
def axisCalls : List Call :=
  [.op (.reopen (some axisEmbedder)), .op (.remember { content := String.ofList ['a'] } 1 0),
    .searchText { text := String.ofList ['b'] },
    .op (.remember { content := String.ofList ['b'], relations := [(String.ofList ['k'], 1)] } 2 0)]

/-- The weights of BM25 in corpora of up to two documents, to four digits. -/
def roundedIdf : Fts.Idf ℚ where
  weight n df := if n = 1 then 2877 / 10000 else if df = 1 then 6931 / 10000 else 1823 / 10000
  pos := by
    intro n df _ _
    split
    · norm_num
    · split <;> norm_num

def axisQuery : Query := { text := String.ofList ['b'] }

/-- One fused hit, then its neighbours. -/
def axisExpanded : Query := { text := String.ofList ['a'], limit := 1, expandRelated := true, recency := true }

/-- What a query answers, unless it fails or panics. -/
def answered {β : Type} (r : Except Error (Option β)) : Option β := r.toOption.bind fun out => out

theorem answered_eq_some {β : Type} {r : Except Error (Option β)} {out : β} : answered r = some out ↔ r = .ok (some out) := by
  unfold answered
  cases r with
  | ok out' => simp [Except.toOption]
  | error e => simp [Except.toOption]

def hitIds {σ : Type} (hits : List (Recalled σ)) : List Ulid := hits.map fun r => r.memory.id

/-- The session with vectors, and what three queries find at its end. -/
theorem axisCalls_run : ∃ s, Session.Run roundedIdf ⟨axisStore, none⟩ axisCalls s ∧
    s.cache.map Prod.fst = some 2 ∧ s.store.file.header.txnCounter = 3 ∧
    (answered (Store.searchText s.store.setup s.store.file roundedIdf s.cache axisQuery).1).map hitIds = some [2] ∧
    (answered (Store.recallVector s.store.setup s.store.file s.cache axisQuery).1).map hitIds = some [2, 1] ∧
    (answered (Store.recallDetailed s.store.setup s.store.file roundedIdf s.cache axisExpanded).1).map
      (fun outcome => hitIds outcome.hits) = some [1, 2] := by
  have hall : ((axisCalls.foldlM (fun (s : Session) (call : Call) => call.exec roundedIdf s) ⟨axisStore, none⟩).any fun s =>
      decide (s.cache.map Prod.fst = some 2 ∧ s.store.file.header.txnCounter = 3 ∧
        (answered (Store.searchText s.store.setup s.store.file roundedIdf s.cache axisQuery).1).map hitIds = some [2] ∧
        (answered (Store.recallVector s.store.setup s.store.file s.cache axisQuery).1).map hitIds = some [2, 1] ∧
        (answered (Store.recallDetailed s.store.setup s.store.file roundedIdf s.cache axisExpanded).1).map
          (fun outcome => hitIds outcome.hits) = some [1, 2])) = true := by decide +kernel
  rcases (Option.any_eq_true _ _).mp hall with ⟨s, hrun, hfacts⟩
  exact ⟨s, .of_exec hrun, of_decide_eq_true hfacts⟩

/-! ## What queries answer -/

/-- The sidecar from the cache is the one that would be loaded. -/
theorem filterMeta_eq {H : Xxh3} {c : Committed} {cache : Cache} (h : CacheOk H c cache) :
    (Store.filterMeta H c cache).1 = (Store.filterMeta H c none).1 := by
  unfold Store.filterMeta
  split
  · rfl
  · have hload : (loadFilterMeta H c cache).1 = (loadFilterMeta H c none).1 := by
      unfold loadFilterMeta
      split <;> rfl
    cases cache with
    | none => rfl
    | some cached =>
        rcases cached with ⟨stamp, table⟩
        dsimp only
        split
        · rename_i hstamp
          subst hstamp
          unfold loadFilterMeta
          rw [h table rfl]
        · exact hload

/-- In a session of fewer than `2 ^ 64` calls no query can tell what the cache holds. -/
theorem cache_never_stale {s₀ : OpenStore} {s : Session} {calls : List Call} (hcreated : Created s₀)
    (hrun : Session.Run I ⟨s₀, none⟩ calls s) (hcalls : calls.length < 2 ^ 64) (query : Query) :
    (Store.searchText s.store.setup s.store.file I s.cache query).1 =
        (Store.searchText s.store.setup s.store.file I none query).1 ∧
      (Store.recallDetailed s.store.setup s.store.file I s.cache query).1 =
        (Store.recallDetailed s.store.setup s.store.file I none query).1 ∧
      (Store.recallVector s.store.setup s.store.file s.cache query).1 =
        (Store.recallVector s.store.setup s.store.file none query).1 := by
  rcases hrun.holds hcreated hcalls with ⟨w, _, _, hcache⟩
  have hmeta := filterMeta_eq hcache
  refine ⟨?_, ?_, ?_⟩
  · unfold Store.searchText
    dsimp only
    rw [hmeta]
  · unfold Store.recallDetailed
    cases s.store.setup.embedder with
    | none => rfl
    | some embedder =>
        dsimp only
        rw [hmeta]
  · unfold Store.recallVector
    cases s.store.setup.embedder with
    | none => rfl
    | some embedder =>
        dsimp only
        rw [hmeta]

/-- The sidecar in the cache is that of the file before the last write. -/
theorem axisCalls_cache : ∃ s, Session.Run roundedIdf ⟨axisStore, none⟩ axisCalls s ∧
    (∃ stamp table, s.cache = some (stamp, table) ∧ stamp ≠ s.store.file.header.txnCounter) ∧ ∀ query,
      (Store.searchText s.store.setup s.store.file roundedIdf s.cache query).1 =
          (Store.searchText s.store.setup s.store.file roundedIdf none query).1 ∧
        (Store.recallDetailed s.store.setup s.store.file roundedIdf s.cache query).1 =
          (Store.recallDetailed s.store.setup s.store.file roundedIdf none query).1 ∧
        (Store.recallVector s.store.setup s.store.file s.cache query).1 =
          (Store.recallVector s.store.setup s.store.file none query).1 := by
  rcases axisCalls_run with ⟨s, hrun, hstamp, hcounter, _⟩
  rcases Option.map_eq_some_iff.mp hstamp with ⟨⟨stamp, table⟩, hcache, hfst⟩
  cases hfst
  refine ⟨s, hrun, ⟨2, table, hcache, ?_⟩, fun query => cache_never_stale axisStore_created hrun (by decide) query⟩
  rw [hcounter]
  decide

variable [IsStrictOrderedRing α]

/-- After any session, a text search answers the best memories of the world after its operations. -/
theorem search_text_ranks_memories {s₀ : OpenStore} {s : Session} {calls : List Call} (hcreated : Created s₀)
    (hrun : Session.Run I ⟨s₀, none⟩ calls s) (hcalls : calls.length < 2 ^ 64) :
    ∃ w, World.Run s₀.setup {} (calls.filterMap Call.op?) w ∧ ∀ query,
      (∃ out, (Store.searchText s.store.setup s.store.file I s.cache query).1 = .ok (some out) ∧
        w.TextAnswer s.store.setup.unicode I query out) ∨
      (w.Mismatch query ∧ ∃ e, (Store.searchText s.store.setup s.store.file I s.cache query).1 = .error e) := by
  rcases hrun.holds hcreated hcalls with ⟨w, hworld, h, hcache⟩
  exact ⟨w, hworld, fun query => h.searchText hcache I query⟩

theorem axisCalls_search_text : ∃ s w out, Session.Run roundedIdf ⟨axisStore, none⟩ axisCalls s ∧
    World.Run axisStore.setup {} (axisCalls.filterMap Call.op?) w ∧
    (Store.searchText s.store.setup s.store.file roundedIdf s.cache axisQuery).1 = .ok (some out) ∧ hitIds out = [2] ∧
    w.TextAnswer s.store.setup.unicode roundedIdf axisQuery out := by
  rcases axisCalls_run with ⟨s, hrun, _, _, hfound, _⟩
  rcases Option.map_eq_some_iff.mp hfound with ⟨out, hout, hids⟩
  have hok := answered_eq_some.mp hout
  rcases search_text_ranks_memories axisStore_created hrun (by decide) with ⟨w, hworld, hanswer⟩
  refine ⟨s, w, out, hrun, hworld, hok, hids, ?_⟩
  rcases hanswer axisQuery with ⟨out', hout', htext⟩ | ⟨_, e, he⟩
  · rw [hok] at hout'
    cases hout'
    exact htext
  · rw [hok] at he
    cases he

/-- After any session, a hybrid recall answers memories of the world after its operations that pass the query: the
fused ones, then their neighbours. -/
theorem recall_answers_memories {s₀ : OpenStore} {s : Session} {calls : List Call} (hcreated : Created s₀)
    (hrun : Session.Run I ⟨s₀, none⟩ calls s) (hcalls : calls.length < 2 ^ 64) :
    ∃ w, World.Run s₀.setup {} (calls.filterMap Call.op?) w ∧ ∀ query,
      (∃ outcome, (Store.recallDetailed s.store.setup s.store.file I s.cache query).1 = .ok (some outcome) ∧
        w.RecallAnswer s.store.setup.unicode I query outcome) ∨
      (2 ^ 63 - 1 < query.limit * Hnsw.HIT_SIZE ∧
        (Store.recallDetailed s.store.setup s.store.file I s.cache query).1 = .ok none) ∨
      ((CannotEmbed s.store.setup query.text ∨ w.Mismatch query) ∧
        ∃ e, (Store.recallDetailed s.store.setup s.store.file I s.cache query).1 = .error e) := by
  rcases hrun.holds hcreated hcalls with ⟨w, hworld, h, hcache⟩
  exact ⟨w, hworld, fun query => h.recallDetailed hcache I query⟩

theorem axisCalls_recall : ∃ s w outcome, Session.Run roundedIdf ⟨axisStore, none⟩ axisCalls s ∧
    World.Run axisStore.setup {} (axisCalls.filterMap Call.op?) w ∧
    (Store.recallDetailed s.store.setup s.store.file roundedIdf s.cache axisExpanded).1 = .ok (some outcome) ∧
    hitIds outcome.hits = [1, 2] ∧ w.RecallAnswer s.store.setup.unicode roundedIdf axisExpanded outcome := by
  rcases axisCalls_run with ⟨s, hrun, _, _, _, _, hfound⟩
  rcases Option.map_eq_some_iff.mp hfound with ⟨outcome, houtcome, hids⟩
  have hok := answered_eq_some.mp houtcome
  rcases recall_answers_memories axisStore_created hrun (by decide) with ⟨w, hworld, hanswer⟩
  refine ⟨s, w, outcome, hrun, hworld, hok, hids, ?_⟩
  rcases hanswer axisExpanded with ⟨outcome', houtcome', hrecall⟩ | ⟨_, hpanic⟩ | ⟨_, e, he⟩
  · rw [hok] at houtcome'
    cases houtcome'
    exact hrecall
  · rw [hok] at hpanic
    cases hpanic
  · rw [hok] at he
    cases he

/-- After any session, a recall by vector answers memories of the world after its operations that pass the query, in the
order of their fused scores. -/
theorem recall_vector_answers_memories {s₀ : OpenStore} {s : Session} {calls : List Call} (hcreated : Created s₀)
    (hrun : Session.Run I ⟨s₀, none⟩ calls s) (hcalls : calls.length < 2 ^ 64) :
    ∃ w, World.Run s₀.setup {} (calls.filterMap Call.op?) w ∧ ∀ query,
      (∃ hits vectorIds fused, (Store.recallVector s.store.setup s.store.file s.cache query).1 = .ok (some hits) ∧
        w.Sound query hits ∧ w.VectorHits query vectorIds ∧ fuse vectorIds [] query.limit = some fused ∧
        hits.map (fun r => (r.memory.id, r.score)) = fused.map (fun f => (f.recordId, f.score))) ∨
      (2 ^ 63 - 1 < query.limit * Hnsw.HIT_SIZE ∧
        (Store.recallVector s.store.setup s.store.file s.cache query).1 = .ok none) ∨
      ((CannotEmbed s.store.setup query.text ∨ w.Mismatch query) ∧
        ∃ e, (Store.recallVector s.store.setup s.store.file s.cache query).1 = .error e) := by
  rcases hrun.holds hcreated hcalls with ⟨w, hworld, h, hcache⟩
  exact ⟨w, hworld, fun query => h.recallVector hcache query⟩

theorem axisCalls_recall_vector : ∃ s w hits vectorIds fused, Session.Run roundedIdf ⟨axisStore, none⟩ axisCalls s ∧
    World.Run axisStore.setup {} (axisCalls.filterMap Call.op?) w ∧
    (Store.recallVector s.store.setup s.store.file s.cache axisQuery).1 = .ok (some hits) ∧ hitIds hits = [2, 1] ∧
    w.Sound axisQuery hits ∧ w.VectorHits axisQuery vectorIds ∧ fuse vectorIds [] axisQuery.limit = some fused ∧
    hits.map (fun r => (r.memory.id, r.score)) = fused.map (fun f => (f.recordId, f.score)) := by
  rcases axisCalls_run with ⟨s, hrun, _, _, _, hfound, _⟩
  rcases Option.map_eq_some_iff.mp hfound with ⟨hits, hhits, hids⟩
  have hok := answered_eq_some.mp hhits
  rcases recall_vector_answers_memories axisStore_created hrun (by decide) with ⟨w, hworld, hanswer⟩
  rcases hanswer axisQuery with ⟨hits', vectorIds, fused, hhits', hsound, hvector, hfuse, hscores⟩ | ⟨_, hpanic⟩ | ⟨_, e, he⟩
  · rw [hok] at hhits'
    cases hhits'
    exact ⟨s, w, hits, vectorIds, fused, hrun, hworld, hok, hids, hsound, hvector, hfuse, hscores⟩
  · rw [hok] at hpanic
    cases hpanic
  · rw [hok] at he
    cases he

end Session

end Store

end EmbedMind
