import EmbedMind.Index.FtsRuns
import EmbedMind.RecordProof
import EmbedMind.Store.Write

/-!
# A store as its users know it

A `World` is what a store stands for: records by id, tags on memories and edges between
them. Writing is a function on worlds; no page and no index appears here. The store refines
it (`Store.Run.refines`).
-/

namespace EmbedMind

open Lib Lib.Assoc

/-! ## Records as they are stored -/

namespace MemoryRecord

/-- Reading form does not change the bytes. -/
theorem normalize_fields (r : MemoryRecord) : r.normalize.fields = r.fields := by
  rcases r with ⟨id, tombstone, superseded, content, vecRef, project, ⟨agent, sessionId, created⟩, metadata⟩
  have hgetD : ∀ o : Option String, (if o = some "" then none else o).getD "" = o.getD "" := by
    intro o
    by_cases h : o = some ""
    · simp [h]
    · simp [h]
  have hvec : (if vecRef = some ⟨0, 0⟩ then none else vecRef).getD ⟨0, 0⟩ = vecRef.getD ⟨0, 0⟩ := by
    by_cases h : vecRef = some ⟨0, 0⟩
    · simp [h]
    · simp [h]
  simp only [fields, normalize, flags, hgetD, hvec]

/-- A record and its reading form have one encoding. -/
theorem encode_normalize (r : MemoryRecord) {b : Bytes} (h : r.encode = .ok b) : r.normalize.encode = .ok b := by
  rcases encode_iff.mp h with ⟨hcount, hlen, hstores⟩
  refine encode_iff.mpr ⟨hcount, hlen, ?_⟩
  rw [normalize_fields]
  exact hstores

/-- A record is read back in its reading form. -/
theorem decode_encode {r : MemoryRecord} {b : Bytes} (h : r.encode = .ok b) : decode b = .ok r.normalize := by
  rcases encode_iff.mp h with ⟨_, hlen, hstores⟩
  exact decode_iff.mpr ⟨hlen, _, _, hstores, (ofFields_fields r).symm⟩

/-- The reading form is its own. -/
theorem normalize_normalize (r : MemoryRecord) : r.normalize.normalize = r.normalize := by
  rcases r with ⟨id, tombstone, superseded, content, vecRef, project, ⟨agent, sessionId, created⟩, metadata⟩
  have hopt : ∀ {α : Type} [DecidableEq α] (o : Option α) (x : α),
      (if (if o = some x then none else o) = some x then none else if o = some x then none else o) =
        if o = some x then none else o := by
    intro α _ o x
    by_cases h : o = some x
    · simp [h]
    · simp [h]
  simp only [normalize, hopt]

/-- A record in the form it is read in, that can be written. -/
structure Storable (r : MemoryRecord) : Prop where
  normal : r.normalize = r
  encodes : ∃ b, r.encode = .ok b

/-- The bytes of a record that can be written. -/
def bytes (r : MemoryRecord) : Bytes := r.encode.toOption.getD []

theorem bytes_eq {r : MemoryRecord} {b : Bytes} (h : r.encode = .ok b) : r.bytes = b := by
  rw [bytes, h]
  rfl

/-- The reading form of a record that can be written can be stored. -/
theorem storable_normalize {r : MemoryRecord} {b : Bytes} (h : r.encode = .ok b) : r.normalize.Storable ∧ r.normalize.bytes = b :=
  ⟨⟨r.normalize_normalize, b, r.encode_normalize h⟩, bytes_eq (r.encode_normalize h)⟩

/-- A record that can be stored is encoded as its bytes. -/
theorem Storable.encode_eq {r : MemoryRecord} (h : r.Storable) : r.encode = .ok r.bytes := by
  rcases h.encodes with ⟨b, hb⟩
  rw [bytes_eq hb]
  exact hb

/-- It is read back from its bytes. -/
theorem Storable.decode_bytes {r : MemoryRecord} (h : r.Storable) : decode r.bytes = .ok r := by
  rw [decode_encode h.encode_eq, h.normal]

/-- The flags can be set on any record that can be written. -/
theorem Storable.withFlags {r : MemoryRecord} (h : r.Storable) (tombstone superseded : Bool) :
    ({ r with tombstone, superseded } : MemoryRecord).Storable := by
  constructor
  case normal =>
    have hnormal := h.normal
    simp only [normalize] at hnormal ⊢
    rw [← hnormal]
    simp_all
  case encodes =>
    rcases encode_iff.mp h.encode_eq with ⟨hcount, hlen, hstores⟩
    have hfields : ({ r with tombstone, superseded } : MemoryRecord).fields =
        { r.fields with flags := ({ r with tombstone, superseded } : MemoryRecord).flags } := rfl
    have hbytes := bytes_length_congr (f := r.fields) ({ r with tombstone, superseded } : MemoryRecord).flags
    refine ⟨_, encode_iff.mpr ⟨hcount, ?_, ⟨rfl, ?_, hstores.count, hstores.entries, hstores.keys⟩⟩⟩
    · rw [hstores.bytes, List.length_append] at hlen
      rw [List.length_append, hfields, hbytes]
      exact hlen
    · exact ⟨hstores.short.content, hstores.short.project, hstores.short.agent, hstores.short.sessionId⟩

end MemoryRecord

namespace Store

/-! ## Worlds -/

/-- Records by id, the vectors of their texts, the last one first, tags as a memory and a name, edges as a
memory, a kind and another memory. -/
structure World where
  records : List (Ulid × MemoryRecord) := []
  vectors : List (Ulid × List F32) := []
  tags : Set (Ulid × String) := ∅
  edges : Set (Ulid × String × Ulid) := ∅

namespace World

def get (w : World) (id : Ulid) : Option MemoryRecord := find id w.records

/-- Stored and not forgotten. -/
def Live (w : World) (id : Ulid) : Prop := ∃ r, w.get id = some r ∧ r.tombstone = false

/-- The texts by id. -/
def docs (w : World) : Fts.Docs := w.records.map fun e => (e.1, e.2.content)

/-- The record of a draft. -/
def recordOf (draft : MemoryDraft) (id : Ulid) (now : Int64) (vecRef : Option VecRef) : MemoryRecord where
  id := id
  tombstone := false
  superseded := false
  content := draft.content
  vecRef := vecRef
  project := draft.project
  provenance := ⟨draft.agent, draft.sessionId, now⟩
  metadata := draft.metadata

def setSuperseded (r : MemoryRecord) : MemoryRecord := { r with superseded := true }

def setTombstone (r : MemoryRecord) : MemoryRecord := { r with tombstone := true }

/-- One more memory, with its vectors, its tags and its edges. -/
def add (w : World) (record : MemoryRecord) (chunks : List (List F32)) (entities : List String)
    (relations : List (String × Ulid)) : World where
  records := insertKey record.id record w.records
  vectors := chunks.reverse.map (fun chunk => (record.id, chunk)) ++ w.vectors
  tags := w.tags ∪ {x | x.1 = record.id ∧ x.2 ∈ entities}
  edges := w.edges ∪ {x | x.1 = record.id ∧ x.2 ∈ relations}

def supersede (w : World) (targets : List Ulid) : World := { w with records := adjust targets setSuperseded w.records }

/-- A draft as a new memory; what it supersedes is flagged and pointed at. -/
def remember (w : World) (draft : MemoryDraft) (chunks : List (List F32)) (id : Ulid) (now : Int64)
    (vecRef : Option VecRef) : World :=
  (w.supersede draft.supersedes).add (recordOf draft id now vecRef).normalize chunks draft.entities
    (draft.relations ++ draft.supersedes.map fun target => (SUPERSEDES_RELATION, target))

def forget (w : World) (id : Ulid) : World := { w with records := adjust [id] setTombstone w.records }

/-- What every operation keeps. -/
structure Wf (w : World) : Prop where
  sorted : Sorted w.records
  record : ∀ id r, w.get id = some r → r.id = id ∧ r.Storable
  vectors : ∀ id r, w.get id = some r → (r.vecRef.isSome ↔ ∃ v ∈ w.vectors, v.1 = id)
  ids : ∀ v ∈ w.vectors, (w.get v.1).isSome
  tags : ∀ x ∈ w.tags, (w.get x.1).isSome
  edges : ∀ x ∈ w.edges, (w.get x.1).isSome ∧ x.1 ≠ x.2.2

/-- No edge points to a memory that was never there. -/
def Closed (w : World) : Prop := ∀ x ∈ w.edges, (w.get x.2.2).isSome

theorem wf_empty : ({} : World).Wf where
  sorted := List.Pairwise.nil
  record := by simp [get]
  vectors := by simp [get]
  ids := by simp
  tags := by simp
  edges := by simp

section Operations

variable {w : World}

/-- Reading after an addition. -/
theorem get_add (record : MemoryRecord) (chunks : List (List F32)) (entities : List String)
    (relations : List (String × Ulid)) (id : Ulid) : (w.add record chunks entities relations).get id = if id = record.id then some record else w.get id :=
  find_insertKey _ _ _ _

/-- Reading after others were superseded. -/
theorem get_supersede (targets : List Ulid) (id : Ulid) :
    (w.supersede targets).get id = (w.get id).map fun r => if id ∈ targets then setSuperseded r else r :=
  find_adjust id w.records

/-- Reading after one was forgotten. -/
theorem get_forget (id id' : Ulid) :
    (w.forget id).get id' = (w.get id').map fun r => if id' = id then setTombstone r else r := by
  have h := @find_adjust _ _ _ [id] setTombstone id' w.records
  simp only [List.mem_singleton] at h
  exact h

theorem supersede_nil : w.supersede [] = w := by
  rw [supersede, adjust_of_forall fun _ _ => List.not_mem_nil]

/-- Superseding twice. -/
theorem supersede_supersede (targets targets' : List Ulid) :
    (w.supersede targets).supersede targets' = w.supersede (targets ++ targets') := by
  simp only [supersede]
  rw [adjust_adjust (f := setSuperseded) fun _ => rfl]

/-- Superseding depends on the set of targets. -/
theorem supersede_congr {targets targets' : List Ulid} (h : ∀ id, id ∈ targets ↔ id ∈ targets') :
    w.supersede targets = w.supersede targets' := by
  rw [supersede, supersede, adjust_congr h]

/-- Superseding keeps the ids. -/
theorem isSome_get_supersede (targets : List Ulid) (id : Ulid) :
    ((w.supersede targets).get id).isSome = (w.get id).isSome := by
  rw [get_supersede, Option.isSome_map]

/-- Forgetting keeps the ids. -/
theorem isSome_get_forget (id id' : Ulid) : ((w.forget id).get id').isSome = (w.get id').isSome := by
  rw [get_forget, Option.isSome_map]

/-- Superseding keeps the world well formed. -/
theorem Wf.supersede (h : w.Wf) (targets : List Ulid) : (w.supersede targets).Wf where
  sorted := sorted_adjust.mpr h.sorted
  record := by
    intro id r hr
    rw [get_supersede] at hr
    rcases Option.map_eq_some_iff.mp hr with ⟨r₀, hr₀, rfl⟩
    rcases h.record id r₀ hr₀ with ⟨hid, hstorable⟩
    split
    · exact ⟨hid, hstorable.withFlags r₀.tombstone true⟩
    · exact ⟨hid, hstorable⟩
  vectors := by
    intro id r hr
    rw [get_supersede] at hr
    rcases Option.map_eq_some_iff.mp hr with ⟨r₀, hr₀, rfl⟩
    rw [show (if id ∈ targets then setSuperseded r₀ else r₀).vecRef = r₀.vecRef by split <;> rfl]
    exact h.vectors id r₀ hr₀
  ids := by
    intro v hv
    rw [isSome_get_supersede]
    exact h.ids v hv
  tags := by
    intro x hx
    rw [isSome_get_supersede]
    exact h.tags x hx
  edges := by
    intro x hx
    rw [isSome_get_supersede]
    exact h.edges x hx

/-- Forgetting keeps it well formed. -/
theorem Wf.forget (h : w.Wf) (id : Ulid) : (w.forget id).Wf where
  sorted := sorted_adjust.mpr h.sorted
  record := by
    intro id' r hr
    rw [get_forget] at hr
    rcases Option.map_eq_some_iff.mp hr with ⟨r₀, hr₀, rfl⟩
    rcases h.record id' r₀ hr₀ with ⟨hid, hstorable⟩
    split
    · exact ⟨hid, hstorable.withFlags true r₀.superseded⟩
    · exact ⟨hid, hstorable⟩
  vectors := by
    intro id' r hr
    rw [get_forget] at hr
    rcases Option.map_eq_some_iff.mp hr with ⟨r₀, hr₀, rfl⟩
    rw [show (if id' = id then setTombstone r₀ else r₀).vecRef = r₀.vecRef by split <;> rfl]
    exact h.vectors id' r₀ hr₀
  ids := by
    intro v hv
    rw [isSome_get_forget]
    exact h.ids v hv
  tags := by
    intro x hx
    rw [isSome_get_forget]
    exact h.tags x hx
  edges := by
    intro x hx
    rw [isSome_get_forget]
    exact h.edges x hx

/-- Superseding makes no edge. -/
theorem Closed.supersede (h : w.Closed) (targets : List Ulid) : (w.supersede targets).Closed := by
  intro x hx
  rw [isSome_get_supersede]
  exact h x hx

/-- Forgetting makes none. -/
theorem Closed.forget (h : w.Closed) (id : Ulid) : (w.forget id).Closed := by
  intro x hx
  rw [isSome_get_forget]
  exact h x hx

/-- A new memory that does not point to itself. -/
theorem Wf.add (h : w.Wf) {record : MemoryRecord} (hrecord : record.Storable) (hnew : w.get record.id = none)
    {chunks : List (List F32)} (hvec : record.vecRef.isSome ↔ chunks ≠ []) {entities : List String}
    {relations : List (String × Ulid)} (hrel : ∀ r ∈ relations, r.2 ≠ record.id) :
    (w.add record chunks entities relations).Wf where
  sorted := sorted_insertKey h.sorted
  record := by
    intro id r hr
    rw [get_add] at hr
    split at hr
    · rename_i hid
      cases hr
      exact ⟨hid.symm, hrecord⟩
    · exact h.record id r hr
  vectors := by
    intro id r hr
    -- a vector is one of the new memory, or an old one
    have hmem : ∀ v, v ∈ (w.add record chunks entities relations).vectors ↔
        (∃ chunk ∈ chunks, v = (record.id, chunk)) ∨ v ∈ w.vectors := by
      intro v
      simp only [World.add, List.mem_append, List.mem_map, List.mem_reverse, eq_comm]
    rw [get_add] at hr
    split at hr
    · rename_i hid
      cases hr
      rw [hvec]
      constructor
      · intro hne
        rcases List.exists_mem_of_ne_nil chunks hne with ⟨chunk, hchunk⟩
        exact ⟨_, (hmem _).mpr (Or.inl ⟨chunk, hchunk, rfl⟩), hid.symm⟩
      · intro hex
        rcases hex with ⟨v, hv, hv1⟩
        rcases (hmem v).mp hv with ⟨chunk, hchunk, _⟩ | hold
        · exact List.ne_nil_of_mem hchunk
        · -- no vector of the new memory is older than it
          have hsome := h.ids v hold
          rw [hv1, hid, hnew] at hsome
          cases hsome
    · rename_i hid
      rw [h.vectors id r hr]
      constructor
      · intro hex
        rcases hex with ⟨v, hv, hv1⟩
        exact ⟨v, (hmem v).mpr (Or.inr hv), hv1⟩
      · intro hex
        rcases hex with ⟨v, hv, hv1⟩
        rcases (hmem v).mp hv with ⟨chunk, _, rfl⟩ | hold
        · exact absurd hv1.symm hid
        · exact ⟨v, hold, hv1⟩
  ids := by
    intro v hv
    rw [get_add]
    split
    · rfl
    · rename_i hne
      rcases List.mem_append.mp hv with hv | hv
      · rcases List.mem_map.mp hv with ⟨chunk, _, rfl⟩
        exact absurd rfl hne
      · exact h.ids v hv
  tags := by
    intro x hx
    rw [get_add]
    split
    · rfl
    · rename_i hne
      rcases hx with hx | hx
      · exact h.tags x hx
      · exact absurd hx.1 hne
  edges := by
    intro x hx
    rw [get_add]
    rcases hx with hx | ⟨hfrom, hto⟩
    · rcases h.edges x hx with ⟨hthere, hne⟩
      refine ⟨?_, hne⟩
      split
      · rfl
      · exact hthere
    · rw [if_pos hfrom, hfrom]
      exact ⟨rfl, Ne.symm (hrel x.2 hto)⟩

/-- An addition makes edges to memories only. -/
theorem Closed.add (h : w.Closed) {record : MemoryRecord} {chunks : List (List F32)} {entities : List String}
    {relations : List (String × Ulid)} (hrel : ∀ r ∈ relations, (w.get r.2).isSome) :
    (w.add record chunks entities relations).Closed := by
  intro x hx
  rw [get_add]
  split
  · rfl
  · rcases hx with hx | ⟨_, hto⟩
    · exact h x hx
    · exact hrel x.2 hto

/-! ## What stays -/

/-- Flags do not change the texts. -/
theorem docs_adjust {ids : List Ulid} {f : MemoryRecord → MemoryRecord} (hf : ∀ r, (f r).content = r.content)
    (records : List (Ulid × MemoryRecord)) :
    (adjust ids f records).map (fun e => (e.1, e.2.content)) = records.map fun e => (e.1, e.2.content) := by
  unfold adjust
  rw [List.map_map]
  refine List.map_congr_left ?_
  intro e _
  by_cases h : e.1 ∈ ids
  · simp [h, hf]
  · simp [h]

/-- Superseding keeps the texts. -/
theorem docs_supersede (targets : List Ulid) : (w.supersede targets).docs = w.docs :=
  docs_adjust (f := setSuperseded) (fun _ => rfl) w.records

/-- Forgetting keeps the texts. -/
theorem docs_forget (id : Ulid) : (w.forget id).docs = w.docs :=
  docs_adjust (f := setTombstone) (fun _ => rfl) w.records

/-- An addition adds a text. -/
theorem docs_add (record : MemoryRecord) (chunks : List (List F32)) (entities : List String)
    (relations : List (String × Ulid)) :
    (w.add record chunks entities relations).docs = insertKey record.id record.content w.docs :=
  (insertKey_mapVal MemoryRecord.content record.id record w.records).symm

/-- The text of a memory. -/
theorem find_docs (id : Ulid) : find id w.docs = (w.get id).map MemoryRecord.content :=
  find_mapVal MemoryRecord.content id w.records

end Operations

end World

end Store

end EmbedMind
