import EmbedMind.Store.Compact

/-!
# Runs of a store

A store is created, by this or by older software, and then used: it is opened with one
embedder or another, memories are remembered and forgotten, the file is compacted. Every run
of the store is matched by a run of the world with the same operations (`Run.refines`), so
what a store answers after any run is what the world says.
-/

namespace EmbedMind

open Lib Lib.Assoc

namespace Store

/-- A file that is open with a setup. -/
structure OpenStore where
  setup : Setup
  file : Committed

/-- What is done with a store, with the id and the clock reading of a new memory. -/
inductive Op where
  | reopen (embedder : Option Embedder)
  | remember (draft : MemoryDraft) (id : Ulid) (now : Int64)
  | forget (id : Ulid)
  | vacuum

/-- A call that succeeds; the id of a new memory is not in use. -/
inductive Step : OpenStore → Op → OpenStore → Prop where
  | reopen {s : OpenStore} {c' : Committed} (embedder : Option Embedder)
      (done : initEmbeddingHeader { s.setup with embedder } s.file = .ok c') :
      Step s (.reopen embedder) ⟨{ s.setup with embedder }, c'⟩
  | remember {s : OpenStore} {draft : MemoryDraft} {id : Ulid} {now : Int64} {memory : Memory} {c' : Committed}
      (fresh : load (s.file.source s.setup.xxh) s.file.header.rootBtreePage id = .ok none)
      (done : Store.remember s.setup s.file draft id now = .ok (memory, c')) :
      Step s (.remember draft id now) ⟨s.setup, c'⟩
  | forget {s : OpenStore} {id : Ulid} {written : Bool} {c' : Committed}
      (done : Store.forget s.setup s.file id = .ok (written, c')) : Step s (.forget id) ⟨s.setup, c'⟩
  | vacuum {s : OpenStore} {c' : Committed} (done : buildCompacted s.setup s.file = .ok c') :
      Step s .vacuum ⟨s.setup, c'⟩

inductive Run : OpenStore → List Op → OpenStore → Prop where
  | nil (s : OpenStore) : Run s [] s
  | snoc {s s' s'' : OpenStore} {ops : List Op} {op : Op} (run : Run s ops s') (step : Step s' op s'') :
      Run s (ops ++ [op]) s''

/-- A file that was just created, in a version that this software reads. -/
def Created (s : OpenStore) : Prop :=
  ∃ version pageSize, 1 ≤ version ∧ version ≤ FORMAT_VERSION ∧ pageSizeIsValid pageSize = true ∧
    initEmbeddingHeader s.setup (Committed.fresh version pageSize) = .ok s.file

/-! ## Running it -/

/-- An operation, carried out. -/
def Op.exec (s : OpenStore) : Op → Option OpenStore
  | .reopen embedder => (initEmbeddingHeader { s.setup with embedder } s.file).toOption.map (⟨{ s.setup with embedder }, ·⟩)
  | .remember draft id now =>
      -- ids are drawn fresh; one that is in use is no step of a run
      match load (s.file.source s.setup.xxh) s.file.header.rootBtreePage id with
      | .ok none => (Store.remember s.setup s.file draft id now).toOption.map (⟨s.setup, ·.2⟩)
      | _ => none
  | .forget id => (Store.forget s.setup s.file id).toOption.map (⟨s.setup, ·.2⟩)
  | .vacuum => (buildCompacted s.setup s.file).toOption.map (⟨s.setup, ·⟩)

/-- A step is what its operation computes. -/
theorem step_iff_exec {s s' : OpenStore} {op : Op} : Step s op s' ↔ op.exec s = some s' := by
  constructor
  · intro h
    cases h with
    | reopen embedder done => simp [Op.exec, done, Except.toOption]
    | remember fresh done => simp [Op.exec, fresh, done, Except.toOption]
    | forget done => simp [Op.exec, done, Except.toOption]
    | vacuum done => simp [Op.exec, done, Except.toOption]
  · intro h
    cases op with
    | reopen embedder =>
        rcases Option.map_eq_some_iff.mp h with ⟨c', hc', rfl⟩
        exact .reopen embedder (toOption_eq_some.mp hc')
    | remember draft id now =>
        dsimp only [Op.exec] at h
        split at h
        · rename_i hfresh
          rcases Option.map_eq_some_iff.mp h with ⟨written, hwritten, rfl⟩
          exact .remember hfresh (toOption_eq_some.mp hwritten)
        · cases h
    | forget id =>
        rcases Option.map_eq_some_iff.mp h with ⟨written, hwritten, rfl⟩
        exact .forget (toOption_eq_some.mp hwritten)
    | vacuum =>
        rcases Option.map_eq_some_iff.mp h with ⟨c', hc', rfl⟩
        exact .vacuum (toOption_eq_some.mp hc')

/-- A run is what its operations compute. -/
theorem run_iff_exec {s s' : OpenStore} {ops : List Op} : Run s ops s' ↔ ops.foldlM Op.exec s = some s' := by
  constructor
  · intro h
    induction h with
    | nil => rfl
    | snoc run step ih =>
        rw [List.foldlM_append, ih]
        have hexec := step_iff_exec.mp step
        simp [hexec]
  · induction ops using List.reverseRecOn generalizing s' with
    | nil =>
        intro h
        cases h
        exact .nil s
    | append_singleton ops op ih =>
        intro h
        rw [List.foldlM_append] at h
        rcases Option.bind_eq_some_iff.mp h with ⟨s₁, hrun, hlast⟩
        rcases Option.bind_eq_some_iff.mp hlast with ⟨s₂, hstep, hend⟩
        cases hend
        exact .snoc (ih hrun) (step_iff_exec.mpr hstep)

/-! ## A small run -/

/-- Floats that are all alike. -/
def plainFloats : Floats := ⟨fun _ _ => 0, fun _ _ => false, fun _ _ => 0, fun _ => rfl, fun _ _ _ h _ => h⟩

def plainSetup : Setup := ⟨⟨fun _ => 0, fun _ _ => 0⟩, plainFloats, .ascii, id, none⟩

def plainStore : OpenStore := ⟨plainSetup, Committed.fresh FORMAT_VERSION 512⟩

/-- Two memories, the second superseding the first, which is then forgotten. -/
def plainOps : List Op :=
  [.remember { content := String.ofList ['a'], entities := [String.ofList ['e']] } 1 0,
    .remember { content := String.ofList ['b'], relations := [(String.ofList ['k'], 1)], supersedes := [1] } 2 0, .forget 1]

theorem plainStore_created : Created plainStore := ⟨FORMAT_VERSION, 512, by decide, le_refl _, by decide, rfl⟩

/-- The small run succeeds. -/
theorem plainOps_run : ∃ s c', Run plainStore plainOps s ∧ buildCompacted s.setup s.file = .ok c' := by
  have hsome : ((plainOps ++ [Op.vacuum]).foldlM Op.exec plainStore).isSome = true := by decide +kernel
  rcases Option.isSome_iff_exists.mp hsome with ⟨s', hs'⟩
  rw [List.foldlM_append] at hs'
  rcases Option.bind_eq_some_iff.mp hs' with ⟨s, hrun, hlast⟩
  rcases Option.bind_eq_some_iff.mp hlast with ⟨s₂, hstep, _⟩
  rcases Option.map_eq_some_iff.mp hstep with ⟨c', hc', _⟩
  exact ⟨s, c', run_iff_exec.mpr hrun, toOption_eq_some.mp hc'⟩

/-- The vectors of the coordinate axes; the embedder knows two words. -/
def axisVector (text : String) : List F32 :=
  if text = String.ofList ['a'] then [0x3f800000, 0] else [0, 0x3f800000]

def axisEmbedder : Embedder :=
  ⟨String.ofList ['x'], 2, by decide, fun text => .ok (axisVector text), fun text => .ok [axisVector text]⟩

/-- Values that are not negative are ordered as their bits. -/
theorem bits_irrefl (x : F32) : decide (x.toNat < x.toNat) = false := by simp

theorem bits_trans (x y z : F32) (h : decide (x.toNat < y.toNat) = true) (h' : decide (y.toNat < z.toNat) = true) :
    decide (x.toNat < z.toNat) = true :=
  decide_eq_true (lt_trans (of_decide_eq_true h) (of_decide_eq_true h'))

/-- The arithmetic of `f32` on these vectors and on their products; the first nodes are of level 0. -/
def axisFloats : Floats where
  dot a b := if (a.headD 0).toNat = (b.headD 0).toNat then 0x3f800000 else 0
  lt a b := decide (a.toNat < b.toNat)
  level _ _ := 0
  lt_irrefl := bits_irrefl
  lt_trans := bits_trans

/-- A new store of that arithmetic, before it is opened with the embedder. -/
def axisStore : OpenStore := ⟨{ plainSetup with floats := axisFloats }, Committed.fresh FORMAT_VERSION 512⟩

theorem axisStore_created : Created axisStore := ⟨FORMAT_VERSION, 512, by decide, le_refl _, by decide, rfl⟩

/-! ## The world's steps -/

/-- The setup after an operation. -/
def Op.setup (S : Setup) : Op → Setup
  | .reopen embedder => { S with embedder }
  | _ => S

/-- What an operation does to the world; where a vector is placed is left open. -/
inductive World.Step (S : Setup) : World → Op → World → Prop where
  | reopen {w : World} (embedder : Option Embedder) : World.Step S w (.reopen embedder) w
  | remember {w : World} {draft : MemoryDraft} {id : Ulid} {now : Int64} {vecRef : Option VecRef}
      (fresh : w.get id = none) (accepts : Accepts w draft id)
      (placed : vecRef.isSome ↔ chunksOf S draft.content ≠ []) :
      World.Step S w (.remember draft id now) (w.remember draft (chunksOf S draft.content) id now vecRef)
  | forget {w : World} {id : Ulid} : World.Step S w (.forget id) (w.forget id)
  | vacuum {w w' : World} (copied : w.Copied S w.liveRecords w') : World.Step S w .vacuum w'

inductive World.Run : Setup → World → List Op → World → Prop where
  | nil (S : Setup) (w : World) : World.Run S w [] w
  | snoc {S : Setup} {w w' w'' : World} {ops : List Op} {op : Op} (run : World.Run S w ops w')
      (step : World.Step (ops.foldl Op.setup S) w' op w'') : World.Run S w (ops ++ [op]) w''

/-! ## Refinement -/

/-- The setup after a step. -/
theorem Step.setup {s s' : OpenStore} {op : Op} (h : Step s op s') : s'.setup = op.setup s.setup := by
  cases h <;> rfl

/-- The setup after a run. -/
theorem Run.setup {s s' : OpenStore} {ops : List Op} (h : Run s ops s') : s'.setup = ops.foldl Op.setup s.setup := by
  induction h with
  | nil => rfl
  | snoc run step ih =>
      rw [List.foldl_append, ← ih]
      exact step.setup

/-- No step makes an edge to nowhere. -/
theorem World.Step.closed {S : Setup} {w w' : World} {op : Op} (h : World.Step S w op w') (hw : w.Wf)
    (hclosed : w.Closed) : w'.Closed := by
  cases h with
  | reopen embedder => exact hclosed
  | remember fresh accepts placed => exact hclosed.remember accepts
  | forget => exact hclosed.forget _
  | vacuum copied => exact copied.closed hw

/-- A record points to a vector when it has one. -/
theorem placed_of_holds {S : Setup} {c : Committed} {w : World} {draft : MemoryDraft} {chunks : List (List F32)}
    {id : Ulid} {now : Int64} {vecRef : Option VecRef} (hw : w.Wf) (hid : w.get id = none) (hne : vecRef ≠ some ⟨0, 0⟩)
    (h : Holds S c (w.remember draft chunks id now vecRef)) : vecRef.isSome ↔ chunks ≠ [] := by
  have hget : (w.remember draft chunks id now vecRef).get id = some (World.recordOf draft id now vecRef).normalize := by
    rw [World.remember, World.get_add, if_pos (show id = (World.recordOf draft id now vecRef).normalize.id from rfl)]
  have hplaced := h.wf.vectors id _ hget
  rw [show (World.recordOf draft id now vecRef).normalize.vecRef = vecRef from if_neg hne] at hplaced
  rw [hplaced]
  constructor
  · intro hex
    rcases hex with ⟨v, hv, hv1⟩
    rcases List.mem_append.mp hv with hnew | hold
    · rcases List.mem_map.mp hnew with ⟨chunk, hchunk, _⟩
      exact List.ne_nil_of_mem (List.mem_reverse.mp hchunk)
    · have hsome := hw.ids v hold
      rw [hv1, hid] at hsome
      cases hsome
  · intro hne
    rcases List.exists_mem_of_ne_nil chunks hne with ⟨chunk, hchunk⟩
    exact ⟨(id, chunk), List.mem_append_left _ (List.mem_map.mpr ⟨chunk, List.mem_reverse.mpr hchunk, rfl⟩), rfl⟩

/-- A step of the store is a step of the world. -/
theorem Step.refines {s s' : OpenStore} {op : Op} {w : World} (hstep : Step s op s') (h : Holds s.setup s.file w) :
    ∃ w', World.Step s.setup w op w' ∧ Holds s'.setup s'.file w' := by
  cases hstep with
  | reopen embedder done => exact ⟨w, .reopen embedder, h.opened embedder done⟩
  | @remember draft id now memory c' fresh done =>
      have hid : w.get id = none := by
        have hload := h.load id
        rw [fresh] at hload
        exact (Except.ok.inj hload).symm
      cases hchunks : embedDraftContent s.setup draft.content with
      | error e =>
          unfold Store.remember at done
          rw [hchunks] at done
          cases done
      | ok chunks =>
          have hof : chunksOf s.setup draft.content = chunks := by
            unfold chunksOf
            rw [hchunks]
            rfl
          rcases h.remember hid hchunks done with ⟨vecRef, hholds, haccepts, hne, _⟩
          have hplaced := placed_of_holds h.wf hid hne hholds
          rw [← hof] at hholds hplaced
          exact ⟨_, .remember hid haccepts hplaced, hholds⟩
  | forget done => exact ⟨w.forget _, .forget, (h.forget done).1⟩
  | vacuum done =>
      rcases h.buildCompacted done with ⟨w', hholds, hcopied⟩
      exact ⟨w', .vacuum hcopied, hholds⟩

/-- A run of the store is a run of the world. -/
theorem Run.refines {s s' : OpenStore} {ops : List Op} {w : World} (hrun : Run s ops s') (h : Holds s.setup s.file w)
    (hclosed : w.Closed) : ∃ w', World.Run s.setup w ops w' ∧ Holds s'.setup s'.file w' ∧ w'.Closed := by
  induction hrun with
  | nil => exact ⟨w, .nil s.setup w, h, hclosed⟩
  | snoc run step ih =>
      rcases ih with ⟨w₁, hw₁, hholds₁, hclosed₁⟩
      rcases step.refines hholds₁ with ⟨w₂, hstep₂, hholds₂⟩
      have hclosed₂ := hstep₂.closed hholds₁.wf hclosed₁
      rw [run.setup] at hstep₂
      exact ⟨w₂, .snoc hw₁ hstep₂, hholds₂, hclosed₂⟩

/-- A created store holds the empty world. -/
theorem Created.holds {s : OpenStore} (h : Created s) : Holds s.setup s.file {} := by
  rcases h with ⟨version, pageSize, hv, hle, hsize, hopen⟩
  have hfresh : Holds { s.setup with embedder := none } (Committed.fresh version pageSize) {} :=
    holds_fresh hv hle hsize rfl
  exact hfresh.opened s.setup.embedder hopen

theorem World.closed_empty : World.Closed {} := by
  intro x hx
  cases hx

/-- The state of a store after some run from its creation. -/
def Reachable (s : OpenStore) : Prop := ∃ s₀ ops, Created s₀ ∧ Run s₀ ops s

/-- A reachable store holds a world. -/
theorem Reachable.holds {s : OpenStore} (h : Reachable s) : ∃ w, Holds s.setup s.file w ∧ w.Closed := by
  rcases h with ⟨s₀, ops, hcreated, hrun⟩
  rcases hrun.refines hcreated.holds World.closed_empty with ⟨w, _, hholds, hclosed⟩
  exact ⟨w, hholds, hclosed⟩

/-- What the reads of a store answer, none of them failing, when it holds a world. -/
structure Answers (s : OpenStore) (w : World) : Prop where
  get : ∀ id, Store.get s.setup.xxh s.file id = .ok (w.read id)
  iterAll : (Store.iterAll s.setup.xxh s.file).mapM id = .ok w.memories
  iter : (Store.iter s.setup.xxh s.file).mapM id = .ok (w.memories.filter fun m => !m.tombstone)
  related : ∀ id, ∃ edges : List Graph.Edge, SortedSet.Ascending Graph.Edge.sortKey edges ∧
    (∀ edge, edge ∈ edges ↔ w.Related id edge.other edge.kind edge.outgoing) ∧
    Store.related s.setup.xxh s.file id = .ok (edges.filterMap w.along)
  entitiesOf : ∀ id, ∃ names : List String, SortedSet.Ascending utf8 names ∧
    (∀ name, name ∈ names ↔ (id, name) ∈ w.tags) ∧ Store.entitiesOf s.setup.xxh s.file id = .ok names
  entityMembers : ∀ entity, ∃ ids : List Ulid, ids.Pairwise (· < ·) ∧ (∀ id, id ∈ ids ↔ (id, entity) ∈ w.tags) ∧
    Store.entityMembers s.setup.xxh s.file entity = .ok (ids.filterMap w.read)
  stats : ∃ stats, Store.stats s.setup.xxh s.file = .ok stats ∧ stats.Describes w

theorem mapM_ok {α : Type} (l : List α) : (l.map (Except.ok : α → Except Error α)).mapM id = .ok l := by
  induction l with
  | nil => rfl
  | cons a l ih =>
      rw [List.map_cons, List.mapM_cons, ih]
      rfl

/-- The memories that are visible. -/
theorem World.filter_memories (w : World) :
    w.records.filterMap (fun e => visible e.2) = w.memories.filter fun m => !m.tombstone := by
  unfold World.memories
  induction w.records with
  | nil => rfl
  | cons e records ih =>
      rw [List.filterMap_cons, List.map_cons, List.filter_cons, visible]
      cases htomb : e.2.tombstone <;> simp [ih, htomb, Memory.fromRecord]

/-- A store that holds a world answers as it. -/
theorem Holds.answers {s : OpenStore} {w : World} (h : Holds s.setup s.file w) : Answers s w where
  get := h.get
  iterAll := h.memories
  iter := by rw [h.iter, mapM_ok, w.filter_memories]
  related := h.related
  entitiesOf := h.entitiesOf
  entityMembers := h.entityMembers
  stats := h.stats

/-- After any run, a store answers as the world after the same operations. -/
theorem store_refines_world {s₀ s : OpenStore} {ops : List Op} (hcreated : Created s₀) (hrun : Run s₀ ops s) :
    ∃ w, World.Run s₀.setup {} ops w ∧ Answers s w := by
  rcases hrun.refines hcreated.holds World.closed_empty with ⟨w, hworld, hholds, _⟩
  exact ⟨w, hworld, hholds.answers⟩

theorem plainStore_refines_world : ∃ s w, Run plainStore plainOps s ∧ World.Run plainSetup {} plainOps w ∧ Answers s w := by
  rcases plainOps_run with ⟨s, _, hrun, _⟩
  rcases store_refines_world plainStore_created hrun with ⟨w, hworld, hanswers⟩
  exact ⟨s, w, hrun, hworld, hanswers⟩

/-- Whoever reads live memories cannot tell a compacted file from the one before; of the others nothing is left. -/
theorem vacuum_keeps_reads {s : OpenStore} {c' : Committed} (hs : Reachable s)
    (hrun : buildCompacted s.setup s.file = .ok c') :
    (∀ id, get s.setup.xxh c' id = get s.setup.xxh s.file id) ∧ iter s.setup.xxh c' = iter s.setup.xxh s.file ∧
      iterAll s.setup.xxh c' = iter s.setup.xxh c' ∧
      (∀ entity, entityMembers s.setup.xxh c' entity = entityMembers s.setup.xxh s.file entity) ∧
      (∀ id memory, get s.setup.xxh s.file id = .ok (some memory) →
        related s.setup.xxh c' id = related s.setup.xxh s.file id ∧
          entitiesOf s.setup.xxh c' id = entitiesOf s.setup.xxh s.file id) ∧
      ∀ id, get s.setup.xxh s.file id = .ok none →
        related s.setup.xxh c' id = .ok [] ∧ entitiesOf s.setup.xxh c' id = .ok [] := by
  rcases hs.holds with ⟨w, h, _⟩
  rcases h.buildCompacted hrun with ⟨w', h', hcopied⟩
  refine ⟨?_, h.compacted_iter h' hcopied, h.compacted_iterAll h' hcopied, h.compacted_entityMembers h' hcopied, ?_, ?_⟩
  · intro id
    rw [h.get, h'.get, hcopied.read h.wf]
  · intro id memory hget
    have hlive : w.Live id := by
      rw [h.get] at hget
      rw [← World.read_isSome, Except.ok.inj hget]
      rfl
    exact ⟨h.compacted_related h' hcopied hlive, h.compacted_entitiesOf h' hcopied hlive⟩
  · intro id hget
    refine h.compacted_dead h' hcopied ?_
    rw [h.get] at hget
    rw [← World.read_isSome, Except.ok.inj hget]
    simp

theorem plainStore_vacuum_keeps : ∃ s c', Run plainStore plainOps s ∧ buildCompacted s.setup s.file = .ok c' ∧
    ∀ id, get s.setup.xxh c' id = get s.setup.xxh s.file id := by
  rcases plainOps_run with ⟨s, c', hrun, hdone⟩
  exact ⟨s, c', hrun, hdone, (vacuum_keeps_reads ⟨plainStore, plainOps, plainStore_created, hrun⟩ hdone).1⟩

/-! ## One memory over a run -/

/-- What an operation makes of what is read under an id. -/
def Op.onMemory (id : Ulid) (found : Option Memory) : Op → Option Memory
  | .remember draft new now =>
      if new = id then some (Memory.fromRecord (World.recordOf draft id now none).normalize)
      else found.map fun m => if id ∈ draft.supersedes then { m with superseded := true } else m
  | .forget old => if old = id then none else found
  | _ => found

/-- Reading after one more memory. -/
theorem World.read_remember {w : World} {draft : MemoryDraft} {chunks : List (List F32)} {id' : Ulid} {now : Int64}
    {vecRef : Option VecRef} (id : Ulid) :
    (w.remember draft chunks id' now vecRef).read id = Op.onMemory id (w.read id) (.remember draft id' now) := by
  unfold World.read World.remember
  rw [World.get_add, World.get_supersede, Op.onMemory]
  by_cases hid : id' = id
  · subst hid
    rw [if_pos rfl, if_pos (show id' = (World.recordOf draft id' now vecRef).normalize.id from rfl)]
    rfl
  · rw [if_neg hid, if_neg (show ¬ id = (World.recordOf draft id' now vecRef).normalize.id from fun h => hid h.symm)]
    cases w.get id with
    | none => rfl
    | some r =>
        rw [Option.map_some, Option.bind_some, Option.bind_some]
        by_cases hmem : id ∈ draft.supersedes
        · rw [if_pos hmem]
          unfold visible
          cases htomb : r.tombstone <;> simp [World.setSuperseded, htomb, hmem, Memory.fromRecord]
        · rw [if_neg hmem]
          cases visible r <;> simp [hmem]

/-- Reading after a memory was forgotten. -/
theorem World.read_forget {w : World} {id' : Ulid} (id : Ulid) :
    (w.forget id').read id = Op.onMemory id (w.read id) (.forget id') := by
  unfold World.read
  rw [World.get_forget, Op.onMemory]
  by_cases hid : id' = id
  · subst hid
    rw [if_pos rfl]
    cases w.get id' with
    | none => rfl
    | some r => simp [visible, World.setTombstone]
  · rw [if_neg hid]
    cases w.get id with
    | none => rfl
    | some r => simp [Ne.symm hid]

/-- Reading after a step. -/
theorem World.Step.read {S : Setup} {w w' : World} {op : Op} (h : World.Step S w op w') (hw : w.Wf) (id : Ulid) :
    w'.read id = op.onMemory id (w.read id) := by
  cases h with
  | reopen embedder => rfl
  | remember fresh accepts placed => exact World.read_remember id
  | forget => exact World.read_forget id
  | vacuum copied => exact copied.read hw id

/-- What is read under an id after a run is what the operations of the run make of what was read before it. -/
theorem get_replays_operations {s s' : OpenStore} {ops : List Op} {found : Option Memory} {id : Ulid}
    (hs : Reachable s) (hget : get s.setup.xxh s.file id = .ok found) (hrun : Run s ops s') :
    get s'.setup.xxh s'.file id = .ok (ops.foldl (Op.onMemory id) found) := by
  rcases hs.holds with ⟨w, h, hclosed⟩
  have hread : w.read id = found := by
    have hread := h.get id
    rw [hget] at hread
    exact (Except.ok.inj hread).symm
  have hafter : ∃ w', Holds s'.setup s'.file w' ∧ w'.read id = ops.foldl (Op.onMemory id) found := by
    clear hget
    -- by induction on the run: the world's step says what becomes of the id
    induction hrun with
    | nil => exact ⟨w, h, hread⟩
    | snoc run step ih =>
        rcases ih with ⟨w₁, h₁, hread₁⟩
        rcases step.refines h₁ with ⟨w₂, hstep₂, h₂⟩
        refine ⟨w₂, h₂, ?_⟩
        rw [List.foldl_append, ← hread₁]
        exact hstep₂.read h₁.wf id
  rcases hafter with ⟨w', h', hread'⟩
  rw [h'.get, hread']

theorem plainStore_get_replays : ∃ s, Run plainStore plainOps s ∧
    get s.setup.xxh s.file 2 = .ok (plainOps.foldl (Op.onMemory 2) none) := by
  rcases plainOps_run with ⟨s, _, hrun, _⟩
  have hnone : get plainStore.setup.xxh plainStore.file 2 = .ok none := by rfl
  exact ⟨s, hrun, get_replays_operations ⟨plainStore, [], plainStore_created, .nil _⟩ hnone hrun⟩

/-! ## Both sides of the graph -/

/-- A relation, seen from the other end. -/
theorem World.related_swap {w : World} {a b : Ulid} {kind : String} {outgoing : Bool} :
    w.Related a b kind outgoing ↔ w.Related b a kind (!outgoing) := by
  unfold World.Related
  cases outgoing <;> simp

/-- A memory is read under its own id. -/
theorem World.id_of_read {w : World} (hw : w.Wf) {id : Ulid} {m : Memory} (h : w.read id = some m) : m.id = id := by
  rcases World.read_eq_some.mp h with ⟨r, hget, _, rfl⟩
  exact (hw.record id r hget).1

/-- What `related` lists of a live memory are the edges to it. -/
theorem World.mem_along {w : World} (hw : w.Wf) {edges : List Graph.Edge} {a b : Ulid} {m : Memory} {kind : String}
    {outgoing : Bool} (hedges : ∀ edge, edge ∈ edges ↔ w.Related a edge.other edge.kind edge.outgoing)
    (hb : w.read b = some m) : ⟨m, kind, outgoing⟩ ∈ edges.filterMap w.along ↔ w.Related a b kind outgoing := by
  rw [List.mem_filterMap]
  constructor
  · intro h
    rcases h with ⟨edge, hedge, halong⟩
    rcases Option.map_eq_some_iff.mp halong with ⟨m', hread, heq⟩
    cases heq
    have hother : edge.other = b := (World.id_of_read hw hread).symm.trans (World.id_of_read hw hb)
    rw [← hother]
    exact (hedges edge).mp hedge
  · intro h
    refine ⟨⟨outgoing, kind, b⟩, (hedges _).mpr h, ?_⟩
    unfold World.along
    rw [hb]
    rfl

/-- Two memories, before the second operation on them. -/
theorem plainOps_live : ∃ s m n, Run plainStore (plainOps.take 2) s ∧ get s.setup.xxh s.file 1 = .ok (some m) ∧
    get s.setup.xxh s.file 2 = .ok (some n) := by
  -- the run and both reads are evaluated once, in the kernel
  have hsome : (((plainOps.take 2).foldlM Op.exec plainStore).bind fun s =>
      (get s.setup.xxh s.file 1).toOption.join.bind fun m =>
        (get s.setup.xxh s.file 2).toOption.join.map fun n => (s, m, n)).isSome = true := by decide +kernel
  rcases Option.isSome_iff_exists.mp hsome with ⟨_, hreached⟩
  rcases Option.bind_eq_some_iff.mp hreached with ⟨s, hrun, hreads⟩
  rcases Option.bind_eq_some_iff.mp hreads with ⟨m, hm, hlast⟩
  rcases Option.map_eq_some_iff.mp hlast with ⟨n, hn, _⟩
  exact ⟨s, m, n, run_iff_exec.mpr hrun, toOption_eq_some.mp (Option.join_eq_some_iff.mp hm),
    toOption_eq_some.mp (Option.join_eq_some_iff.mp hn)⟩

/-- Two live memories see each relation between them, one as outgoing and the other as incoming. -/
theorem relations_seen_from_both_ends {s : OpenStore} (hs : Reachable s) {a b : Ulid} {m n : Memory}
    (ha : get s.setup.xxh s.file a = .ok (some m)) (hb : get s.setup.xxh s.file b = .ok (some n)) :
    ∃ fromA fromB, related s.setup.xxh s.file a = .ok fromA ∧ related s.setup.xxh s.file b = .ok fromB ∧
      ∀ kind outgoing, ⟨n, kind, outgoing⟩ ∈ fromA ↔ ⟨m, kind, !outgoing⟩ ∈ fromB := by
  rcases hs.holds with ⟨w, h, _⟩
  rw [h.get] at ha hb
  rcases h.related a with ⟨edges, _, hedges, hrun⟩
  rcases h.related b with ⟨edges', _, hedges', hrun'⟩
  refine ⟨_, _, hrun, hrun', ?_⟩
  intro kind outgoing
  -- both lists come from the one set of edges
  rw [World.mem_along h.wf hedges (Except.ok.inj hb), World.mem_along h.wf hedges' (Except.ok.inj ha)]
  exact World.related_swap

theorem plainStore_relations : ∃ s m n, ∃ fromA fromB : List RelatedMemory, Run plainStore (plainOps.take 2) s ∧
    related s.setup.xxh s.file 1 = .ok fromA ∧ related s.setup.xxh s.file 2 = .ok fromB ∧
    ∀ kind outgoing, ⟨n, kind, outgoing⟩ ∈ fromA ↔ ⟨m, kind, !outgoing⟩ ∈ fromB := by
  rcases plainOps_live with ⟨s, m, n, hrun, hm, hn⟩
  rcases relations_seen_from_both_ends ⟨plainStore, plainOps.take 2, plainStore_created, hrun⟩ hm hn with
    ⟨fromA, fromB, hA, hB, hsame⟩
  exact ⟨s, m, n, fromA, fromB, hrun, hA, hB, hsame⟩

/-- A live memory is among the members of exactly its own entities. -/
theorem members_are_tagged {s : OpenStore} (hs : Reachable s) {a : Ulid} {m : Memory}
    (ha : get s.setup.xxh s.file a = .ok (some m)) (entity : String) :
    ∃ names members, entitiesOf s.setup.xxh s.file a = .ok names ∧ entityMembers s.setup.xxh s.file entity = .ok members ∧
      (entity ∈ names ↔ m ∈ members) := by
  rcases hs.holds with ⟨w, h, _⟩
  rw [h.get] at ha
  have hread := Except.ok.inj ha
  rcases h.entitiesOf a with ⟨names, _, hnames, hrun⟩
  rcases h.entityMembers entity with ⟨ids, _, hids, hrun'⟩
  refine ⟨names, _, hrun, hrun', ?_⟩
  rw [hnames, List.mem_filterMap]
  constructor
  · exact fun htag => ⟨a, (hids a).mpr htag, hread⟩
  · intro hmem
    rcases hmem with ⟨id, hid, hread'⟩
    -- a memory carries its id, so equal memories have equal ids
    have hsame : id = a := (World.id_of_read h.wf hread').symm.trans (World.id_of_read h.wf hread)
    exact hsame ▸ (hids id).mp hid

theorem plainStore_members : ∃ s m names members, Run plainStore (plainOps.take 2) s ∧
    entitiesOf s.setup.xxh s.file 1 = .ok names ∧ entityMembers s.setup.xxh s.file (String.ofList ['e']) = .ok members ∧
    (String.ofList ['e'] ∈ names ↔ m ∈ members) := by
  rcases plainOps_live with ⟨s, m, _, hrun, hm, _⟩
  rcases members_are_tagged ⟨plainStore, plainOps.take 2, plainStore_created, hrun⟩ hm (String.ofList ['e']) with
    ⟨names, members, hnames, hmembers, hiff⟩
  exact ⟨s, m, names, members, hrun, hnames, hmembers, hiff⟩

end Store

end EmbedMind
