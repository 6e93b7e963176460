import EmbedMind.Index.DictMap
import EmbedMind.Index.Graph

/-!
# What the graph holds

`At`: the pages of a view hold a graph, that is two counters and a map from keys to
member lists and adjacencies. Readers get the lists of the map back; `addMemory`
changes the map as `Contents.addMemory` says.
-/

namespace EmbedMind

open Lib Lib.Assoc Lib.PagedTree Lib.SortedSet

namespace Graph

/-! ## Codecs -/

/-- Edges differ in their sort keys. -/
theorem sortKey_injective : Function.Injective Edge.sortKey := by
  rintro ⟨o, k, i⟩ ⟨o', k', i'⟩ h
  have h1 := congrArg (fun x => (ofLex x).1) h
  have h2 := congrArg (fun x => (ofLex (ofLex x).2).1) h
  have h3 := congrArg (fun x => (ofLex (ofLex x).2).2) h
  simp only [Edge.sortKey, Edge.dir, ofLex_toLex] at h1 h2 h3
  have ho : o = o' := by
    cases o <;> cases o' <;> first | rfl | simp [DIR_OUT, DIR_IN] at h1
  rw [Edge.mk.injEq]
  exact ⟨ho, utf8_inj h2, Ulid.toBytes_inj h3⟩

theorem utf8_injective : Function.Injective utf8 := fun _ _ h => utf8_inj h

/-- A legal entity name. -/
def NameOk (name : String) : Prop := utf8 name ≠ [] ∧ (utf8 name).length ≤ MAX_ENTITY_LEN

/-- A legal relation kind. -/
def KindOk (kind : String) : Prop := utf8 kind ≠ [] ∧ (utf8 kind).length ≤ MAX_KIND_LEN

/-- Sorted lists of legal names and kinds. -/
structure MemoryGraph.Valid (adj : MemoryGraph) : Prop where
  entities : Ascending utf8 adj.entities
  names : ∀ name ∈ adj.entities, NameOk name
  edges : Ascending Edge.sortKey adj.edges
  kinds : ∀ e ∈ adj.edges, KindOk e.kind

/-- What every stored adjacency satisfies: its counts fit their fields. -/
structure MemoryGraph.Ok (adj : MemoryGraph) : Prop extends adj.Valid where
  entities_lt : adj.entities.length < 2 ^ 16
  edges_lt : adj.edges.length < 2 ^ 32

section Codec

variable {body : Bytes} {off : Nat} (pageNo : Nat)

/-- Ids are read back. -/
theorem decodeIds_eq {ids : List Ulid} (prev : Option Ulid) (hsorted : Ascending (fun x : Ulid => x) ids)
    (hprev : ∀ p ∈ prev, ∀ id ∈ ids, p < id) (h : HasAt body off (ids.flatMap Ulid.toBytes)) :
    Members.decodeIds body pageNo ids.length prev off = .ok ids := by
  induction ids generalizing prev off with
  | nil => rfl
  | cons id ids ih =>
      obtain ⟨hlt, hsorted'⟩ := List.pairwise_cons.mp hsorted
      rw [List.flatMap_cons] at h
      obtain ⟨h1, h2⟩ := hasAt_append.mp h
      rw [Ulid.toBytes_length] at h2
      have hslice : slice body off 16 = some (Ulid.toBytes id) := h1.slice (Ulid.toBytes_length id)
      have hnot : prev.any (fun p => decide (id ≤ p)) = false := by
        cases prev with
        | none => rfl
        | some p => simpa using hprev p rfl id List.mem_cons_self
      have hrest := ih (some id) hsorted' (by rintro p ⟨⟩ x hx; exact hlt x hx) h2
      simp only [List.length_cons, Members.decodeIds, hslice, okOr_some, bind, Except.bind,
        Ulid.fromBytes_toBytes, hnot, Bool.false_eq_true, if_false, hrest]

theorem flatMap_toBytes_length (ids : List Ulid) : (ids.flatMap Ulid.toBytes).length = ids.length * 16 := by
  induction ids with
  | nil => rfl
  | cons id ids ih =>
      rw [List.flatMap_cons, List.length_append, Ulid.toBytes_length, ih, List.length_cons]
      omega

/-- Member lists are read back. -/
theorem members_round_trip {ids : List Ulid} (hsorted : Ascending (fun x : Ulid => x) ids)
    (hlen : (Members.encode ids).length < 2 ^ 32) :
    Members.decode (Members.encode ids) pageNo = .ok ids := by
  have hsize : (Members.encode ids).length = 4 + ids.length * 16 := by
    rw [Members.encode, List.length_append, leBytes_length, flatMap_toBytes_length]
  obtain ⟨h0, h1⟩ := hasAt_append.mp (hasAt_zero (Members.encode ids))
  rw [leBytes_length] at h1
  have hcount : ids.length < 256 ^ 4 := by
    rw [hsize] at hlen
    omega
  have hread : Dict.readInt (Members.encode ids) 0 4 pageNo = .ok ids.length := by
    rw [Dict.readInt, h0.readLE hcount, okOr_some]
  simp only [Members.decode, hread, bind, Except.bind]
  rw [if_neg (by omega)]
  exact decodeIds_eq pageNo none hsorted (by simp) h1

/-- Names are read back. -/
theorem decodeNames_eq {names : List String} (prev : Option String) (hsorted : Ascending utf8 names)
    (hprev : ∀ p ∈ prev, ∀ name ∈ names, utf8 p < utf8 name) (hok : ∀ name ∈ names, NameOk name)
    (h : HasAt body off (names.flatMap MemoryGraph.encodeName)) :
    MemoryGraph.decodeNames body pageNo names.length (prev.map utf8) off =
      .ok (names, off + (names.flatMap MemoryGraph.encodeName).length) := by
  induction names generalizing prev off with
  | nil => rfl
  | cons name names ih =>
      obtain ⟨hlt, hsorted'⟩ := List.pairwise_cons.mp hsorted
      obtain ⟨hne, hmax⟩ := hok name List.mem_cons_self
      rw [List.flatMap_cons] at h
      obtain ⟨h1, h2⟩ := hasAt_append.mp h
      have hlen : (MemoryGraph.encodeName name).length = 2 + (utf8 name).length := by
        simp [MemoryGraph.encodeName]
      have hread := Dict.getBytesU16_of_hasAt pageNo "graph entity name" body.length h1
        (lt_of_le_of_lt hmax (by decide)) (by
          have := h1.le
          omega)
      have hshort : ¬ ((utf8 name).isEmpty = true ∨ MAX_ENTITY_LEN < (utf8 name).length) := by
        rw [List.isEmpty_iff, not_or, not_lt]
        exact ⟨hne, hmax⟩
      have hnot : (prev.map utf8).any (fun p => decide (utf8 name ≤ p)) = false := by
        cases prev with
        | none => rfl
        | some p => simpa using hprev p rfl name List.mem_cons_self
      rw [hlen, ← Nat.add_assoc] at h2
      have hrest := ih (some name) hsorted' (by rintro p ⟨⟩ x hx; exact hlt x hx)
        (fun x hx => hok x (List.mem_cons_of_mem _ hx)) h2
      rw [Option.map_some] at hrest
      simp only [List.length_cons, MemoryGraph.decodeNames, hread, bind, Except.bind, hshort, if_false, hnot,
        Bool.false_eq_true, ofUtf8?_utf8, okOr_some, hrest, List.flatMap_cons, List.length_append, hlen]
      congr 2
      omega

/-- An edge is read back. -/
theorem decodeEdge_eq {e : Edge} (hk : KindOk e.kind) (h : HasAt body off e.encode) :
    MemoryGraph.decodeEdge body pageNo off = .ok (e, off + e.encode.length) := by
  obtain ⟨hne, hmax⟩ := hk
  obtain ⟨h0, h⟩ := hasAt_cons.mp h
  obtain ⟨h1, h2⟩ := hasAt_append.mp h
  have hread := Dict.getBytesU16_of_hasAt pageNo "graph edge kind" body.length h1
    (lt_of_le_of_lt hmax (by decide)) (by
      have := h1.le
      rw [List.length_append, leBytes_length] at this
      omega)
  rw [List.length_append, leBytes_length, ← Nat.add_assoc] at h2
  have hslice := h2.slice (Ulid.toBytes_length e.other)
  have hshort : ¬ ((utf8 e.kind).isEmpty = true ∨ MAX_KIND_LEN < (utf8 e.kind).length) := by
    rw [List.isEmpty_iff, not_or, not_lt]
    exact ⟨hne, hmax⟩
  have hdir : ¬ (e.dir ≠ DIR_OUT ∧ e.dir ≠ DIR_IN) := by
    unfold Edge.dir
    split <;> simp
  have hout : decide (e.dir = DIR_OUT) = e.outgoing := by
    unfold Edge.dir
    cases e.outgoing <;> decide
  have hlen : e.encode.length = 1 + (2 + (utf8 e.kind).length) + 16 := by
    simp only [Edge.encode, List.length_cons, List.length_append, leBytes_length, Ulid.toBytes_length]
    omega
  simp only [MemoryGraph.decodeEdge, h0.getElem?, okOr_some, bind, Except.bind, hdir, if_false, hread, hshort,
    ofUtf8?_utf8, hslice, hout, Ulid.fromBytes_toBytes, hlen]
  congr 2
  omega

/-- Edges are read back. -/
theorem decodeEdges_eq {edges : List Edge} (prev : Option Edge) (hsorted : Ascending Edge.sortKey edges)
    (hprev : ∀ p ∈ prev, ∀ e ∈ edges, p.sortKey < e.sortKey) (hok : ∀ e ∈ edges, KindOk e.kind)
    (h : HasAt body off (edges.flatMap Edge.encode)) :
    MemoryGraph.decodeEdges body pageNo edges.length prev off = .ok edges := by
  induction edges generalizing prev off with
  | nil => rfl
  | cons e edges ih =>
      obtain ⟨hlt, hsorted'⟩ := List.pairwise_cons.mp hsorted
      rw [List.flatMap_cons] at h
      obtain ⟨h1, h2⟩ := hasAt_append.mp h
      have hread := decodeEdge_eq pageNo (hok e List.mem_cons_self) h1
      have hnot : prev.any (fun p => decide (e.sortKey ≤ p.sortKey)) = false := by
        cases prev with
        | none => rfl
        | some p => simpa using hprev p rfl e List.mem_cons_self
      have hrest := ih (some e) hsorted' (by rintro p ⟨⟩ x hx; exact hlt x hx)
        (fun x hx => hok x (List.mem_cons_of_mem _ hx)) h2
      simp only [List.length_cons, MemoryGraph.decodeEdges, hread, bind, Except.bind, hnot, Bool.false_eq_true,
        if_false, hrest]

/-- A name takes at least three bytes. -/
theorem three_mul_length_le_names {names : List String} (hok : ∀ name ∈ names, NameOk name) :
    names.length * 3 ≤ (names.flatMap MemoryGraph.encodeName).length := by
  induction names with
  | nil => simp
  | cons name names ih =>
      have h1 := List.length_pos_of_ne_nil (hok name List.mem_cons_self).1
      have h2 := ih fun x hx => hok x (List.mem_cons_of_mem _ hx)
      simp only [List.flatMap_cons, List.length_append, List.length_cons, MemoryGraph.encodeName,
        leBytes_length]
      omega

/-- An edge takes more than its fixed part. -/
theorem length_le_edges {edges : List Edge} (hok : ∀ e ∈ edges, KindOk e.kind) :
    edges.length * (EDGE_FIXED_LEN + 1) ≤ (edges.flatMap Edge.encode).length := by
  induction edges with
  | nil => simp
  | cons e edges ih =>
      have h1 := List.length_pos_of_ne_nil (hok e List.mem_cons_self).1
      have h2 := ih fun x hx => hok x (List.mem_cons_of_mem _ hx)
      simp only [EDGE_FIXED_LEN] at h2 ⊢
      simp only [List.flatMap_cons, List.length_append, List.length_cons, Edge.encode, leBytes_length,
        Ulid.toBytes_length]
      omega

/-- Adjacencies are read back. -/
theorem adjacency_round_trip {adj : MemoryGraph} (hok : adj.Ok) :
    MemoryGraph.decode adj.body pageNo = .ok adj := by
  obtain ⟨hall, h3⟩ := hasAt_append.mp (hasAt_zero adj.body)
  obtain ⟨hall, h2⟩ := hasAt_append.mp hall
  obtain ⟨h0, h1⟩ := hasAt_append.mp hall
  simp only [List.length_append, leBytes_length, Nat.zero_add] at h1 h2 h3
  have hcount := Dict.getInt_of_hasAt pageNo h0 (show adj.entities.length < 256 ^ 2 from hok.entities_lt)
  have hcount' := Dict.getInt_of_hasAt pageNo h2 (show adj.edges.length < 256 ^ 4 from hok.edges_lt)
  have hnames := decodeNames_eq pageNo none hok.entities (by simp) hok.names h1
  have hedges := decodeEdges_eq pageNo none hok.edges (by simp) hok.kinds h3
  have hsize : adj.body.length = 2 + (adj.entities.flatMap MemoryGraph.encodeName).length + 4 +
      (adj.edges.flatMap Edge.encode).length := by
    simp only [MemoryGraph.body, List.length_append, leBytes_length]
  have hfit := three_mul_length_le_names hok.names
  have hfit' := length_le_edges hok.kinds
  rw [Option.map_none] at hnames
  simp only [MemoryGraph.decode, hcount, bind, Except.bind, Nat.zero_add]
  rw [if_neg (by omega), hnames]
  simp only [hcount']
  rw [if_neg (by omega), hedges]

end Codec

/-! ## Insertions -/

theorem MemoryGraph.valid_empty : ({} : MemoryGraph).Valid :=
  ⟨List.Pairwise.nil, by simp, List.Pairwise.nil, by simp⟩

section Insert

variable {adj : MemoryGraph} (h : adj.Valid)

include h

/-- Tagging keeps a node valid. -/
theorem MemoryGraph.Valid.insertEntity {name : String} (hn : NameOk name) :
    (adj.insertEntity name).1.Valid where
  entities := ascending_insertNew utf8_injective h.entities
  names := by
    intro x hx
    rcases (mem_insertNew utf8_injective h.entities).mp hx with rfl | hx
    · exact hn
    · exact h.names x hx
  edges := h.edges
  kinds := h.kinds

/-- Relating keeps a node valid. -/
theorem MemoryGraph.Valid.insertEdge {e : Edge} (hk : KindOk e.kind) : (adj.insertEdge e).1.Valid where
  entities := h.entities
  names := h.names
  edges := ascending_insertNew sortKey_injective h.edges
  kinds := by
    intro x hx
    rcases (mem_insertNew sortKey_injective h.edges).mp hx with rfl | hx
    · exact hk
    · exact h.kinds x hx

/-- The tags after one more. -/
theorem MemoryGraph.Valid.mem_insertEntity {name x : String} :
    x ∈ (adj.insertEntity name).1.entities ↔ x = name ∨ x ∈ adj.entities :=
  mem_insertNew utf8_injective h.entities

/-- The edges after one more. -/
theorem MemoryGraph.Valid.mem_insertEdge {e x : Edge} :
    x ∈ (adj.insertEdge e).1.edges ↔ x = e ∨ x ∈ adj.edges :=
  mem_insertNew sortKey_injective h.edges

/-- The flag tells whether the tag was new. -/
theorem MemoryGraph.Valid.insertEntity_new {name : String} :
    (adj.insertEntity name).2 = true ↔ name ∉ adj.entities :=
  insertNew_snd utf8_injective h.entities

/-- The flag tells whether the edge was new. -/
theorem MemoryGraph.Valid.insertEdge_new {e : Edge} : (adj.insertEdge e).2 = true ↔ e ∉ adj.edges :=
  insertNew_snd sortKey_injective h.edges

end Insert

/-- What is encoded fits. -/
theorem MemoryGraph.Valid.ok_of_encode {adj : MemoryGraph} (h : adj.Valid) {body : Bytes}
    (he : adj.encode = .ok body) : adj.Ok ∧ body = adj.body := by
  unfold MemoryGraph.encode at he
  split at he
  · cases he
  · rename_i h1
    split at he
    · cases he
    · rename_i h2
      cases he
      exact ⟨⟨h, not_le.mp h1, not_le.mp h2⟩, rfl⟩

/-! ## Contents -/

/-- The two kinds of values. -/
inductive Node where
  | members (ids : List Ulid)
  | adjacency (adj : MemoryGraph)

def Node.body : Node → Bytes
  | .members ids => Members.encode ids
  | .adjacency adj => adj.body

/-- The dictionary of the graph, decoded. -/
abbrev Contents := List (Bytes × Node)

/-- A key with a value of its family; `P` is what adjacencies satisfy. -/
inductive EntryOk (P : MemoryGraph → Prop) : Bytes × Node → Prop where
  | members {name : String} {ids : List Ulid} (hname : NameOk name)
      (hsorted : Ascending (fun x : Ulid => x) ids) (hne : ids ≠ []) :
      EntryOk P (entityKey name, .members ids)
  | adjacency {id : Ulid} {adj : MemoryGraph} (hadj : P adj) :
      EntryOk P (memoryKey id, .adjacency adj)

def ContentsOk (P : MemoryGraph → Prop) (g : Contents) : Prop := ∀ e ∈ g, EntryOk P e

/-- The member list of an entity. -/
def membersAt (g : Contents) (name : String) : Option (List Ulid) :=
  match find (entityKey name) g with
  | some (.members ids) => some ids
  | _ => none

/-- The adjacency of a memory. -/
def adjacencyAt (g : Contents) (id : Ulid) : Option MemoryGraph :=
  match find (memoryKey id) g with
  | some (.adjacency adj) => some adj
  | _ => none

def setMembers (name : String) (ids : List Ulid) (g : Contents) : Contents :=
  insertKey (entityKey name) (.members ids) g

def setAdjacency (id : Ulid) (adj : MemoryGraph) (g : Contents) : Contents :=
  insertKey (memoryKey id) (.adjacency adj) g

/-- Names differ in their keys. -/
theorem entityKey_inj {a b : String} : entityKey a = entityKey b ↔ a = b := by
  constructor
  · intro h
    exact utf8_inj (List.cons.inj h).2
  · rintro rfl
    rfl

/-- Ids differ in their keys. -/
theorem memoryKey_inj {a b : Ulid} : memoryKey a = memoryKey b ↔ a = b := by
  constructor
  · intro h
    exact Ulid.toBytes_inj (List.cons.inj h).2
  · rintro rfl
    rfl

/-- No name has the key of a memory. -/
theorem entityKey_ne_memoryKey (name : String) (id : Ulid) : entityKey name ≠ memoryKey id := by
  intro h
  have := (List.cons.inj h).1
  simp [KEY_ENTITY, KEY_MEMORY] at this

section Contents

variable {g : Contents} {name name' : String} {ids : List Ulid} {id id' : Ulid} {adj : MemoryGraph}
  {P : MemoryGraph → Prop}

/-- The members of a name after a change of members. -/
theorem membersAt_setMembers :
    membersAt (setMembers name ids g) name' = if name' = name then some ids else membersAt g name' := by
  unfold membersAt setMembers
  rw [find_insertKey]
  by_cases h : name' = name
  · rw [if_pos (by rw [h]), if_pos h]
  · rw [if_neg (by rwa [entityKey_inj]), if_neg h]

/-- A change of edges leaves the members. -/
@[simp] theorem membersAt_setAdjacency : membersAt (setAdjacency id adj g) name = membersAt g name := by
  unfold membersAt setAdjacency
  rw [find_insertKey_ne (entityKey_ne_memoryKey name id)]

/-- A change of members leaves the edges. -/
@[simp] theorem adjacencyAt_setMembers : adjacencyAt (setMembers name ids g) id = adjacencyAt g id := by
  unfold adjacencyAt setMembers
  rw [find_insertKey_ne (entityKey_ne_memoryKey name id).symm]

/-- The edges of a memory after a change of edges. -/
theorem adjacencyAt_setAdjacency :
    adjacencyAt (setAdjacency id adj g) id' = if id' = id then some adj else adjacencyAt g id' := by
  unfold adjacencyAt setAdjacency
  rw [find_insertKey]
  by_cases h : id' = id
  · rw [if_pos (by rw [h]), if_pos h]
  · rw [if_neg (by rwa [memoryKey_inj]), if_neg h]

/-- What is stored under an entity's key. -/
theorem ContentsOk.find_entityKey (h : ContentsOk P g) (name : String) :
    (find (entityKey name) g = none ∧ membersAt g name = none) ∨
    ∃ ids, find (entityKey name) g = some (.members ids) ∧ membersAt g name = some ids ∧
      NameOk name ∧ Ascending (fun x : Ulid => x) ids ∧ ids ≠ [] := by
  unfold membersAt
  cases hf : find (entityKey name) g with
  | none => exact Or.inl ⟨rfl, rfl⟩
  | some node =>
      have hentry := h _ (mem_of_find hf)
      generalize hkey : entityKey name = key at hentry
      cases hentry with
      | members hname hsorted hne =>
          rw [entityKey_inj] at hkey
          subst hkey
          exact Or.inr ⟨_, rfl, rfl, hname, hsorted, hne⟩
      | adjacency _ => exact absurd hkey (entityKey_ne_memoryKey _ _)

/-- What is stored under a memory's key. -/
theorem ContentsOk.find_memoryKey (h : ContentsOk P g) (id : Ulid) :
    (find (memoryKey id) g = none ∧ adjacencyAt g id = none) ∨
    ∃ adj, find (memoryKey id) g = some (.adjacency adj) ∧ adjacencyAt g id = some adj ∧ P adj := by
  unfold adjacencyAt
  cases hf : find (memoryKey id) g with
  | none => exact Or.inl ⟨rfl, rfl⟩
  | some node =>
      have hentry := h _ (mem_of_find hf)
      generalize hkey : memoryKey id = key at hentry
      cases hentry with
      | members _ _ _ => exact absurd hkey.symm (entityKey_ne_memoryKey _ _)
      | adjacency hadj => exact Or.inr ⟨_, rfl, rfl, hadj⟩

/-- Members ascend. -/
theorem ContentsOk.members_ascending (h : ContentsOk P g) (name : String) :
    Ascending (fun x : Ulid => x) ((membersAt g name).getD []) := by
  rcases h.find_entityKey name with ⟨_, hm⟩ | ⟨ids, _, hm, _, hsorted, _⟩
  · rw [hm]
    exact List.Pairwise.nil
  · rw [hm]
    exact hsorted

/-- Edges are valid. -/
theorem ContentsOk.adjacency_valid (h : ContentsOk P g) (hP : ∀ adj, P adj → adj.Valid) (id : Ulid) :
    ((adjacencyAt g id).getD {}).Valid := by
  rcases h.find_memoryKey id with ⟨_, ha⟩ | ⟨adj, _, ha, hok⟩
  · rw [ha]
    exact MemoryGraph.valid_empty
  · rw [ha]
    exact hP adj hok

/-- A change of members keeps the contents in order. -/
theorem ContentsOk.setMembers (h : ContentsOk P g) (hname : NameOk name)
    (hsorted : Ascending (fun x : Ulid => x) ids) (hne : ids ≠ []) : ContentsOk P (setMembers name ids g) := by
  intro e he
  rcases mem_insertKey he with rfl | he
  · exact EntryOk.members hname hsorted hne
  · exact h e he

/-- So does a change of edges. -/
theorem ContentsOk.setAdjacency (h : ContentsOk P g) (hadj : P adj) : ContentsOk P (setAdjacency id adj g) := by
  intro e he
  rcases mem_insertKey he with rfl | he
  · exact EntryOk.adjacency hadj
  · exact h e he

end Contents

/-! ## Reading -/

/-- The counters are within their type. -/
structure GraphMeta.Wf (stats : GraphMeta) : Prop where
  entityCount : stats.entityCount < 2 ^ 64
  relationCount : stats.relationCount < 2 ^ 64
  dictRoot : stats.dictRoot < 2 ^ 64

/-- The graph on the pages of a view. -/
structure At (H : Xxh3) (pageSize : Nat) (μ : Nat → Option Bytes) (root : Nat) (stats : GraphMeta)
    (g : Contents) (own : List Nat) : Prop where
  stats_wf : stats.Wf
  contents_ok : ContentsOk MemoryGraph.Ok g
  pages : (root = 0 ∧ stats = .empty ∧ g = [] ∧ own = []) ∨
    ∃ ownD, root ≠ 0 ∧ μ root = some (stats.encode H pageSize) ∧
      Rooted (Dict.pageLayout H GRAPH_DICT pageSize) μ stats.dictRoot (mapVal Node.body g) ownD ∧
      own = root :: ownD

section View

variable {H : Xxh3} {pageSize : Nat} {μ μ' : Nat → Option Bytes} {root : Nat} {stats : GraphMeta}
  {g : Contents} {own : List Nat}

theorem at_empty : At H pageSize μ 0 .empty [] [] where
  stats_wf := ⟨by decide, by decide, by decide⟩
  contents_ok := by simp [ContentsOk]
  pages := Or.inl ⟨rfl, rfl, rfl, rfl⟩

/-- Writes to other pages leave the graph. -/
theorem At.frame (h : At H pageSize μ root stats g own) (hμ : ∀ p ∈ own, μ' p = μ p) :
    At H pageSize μ' root stats g own where
  stats_wf := h.stats_wf
  contents_ok := h.contents_ok
  pages := by
    rcases h.pages with h0 | ⟨ownD, hne, hpage, htree, rfl⟩
    · exact Or.inl h0
    · refine Or.inr ⟨ownD, hne, ?_, htree.frame ?_, rfl⟩
      · rw [hμ root List.mem_cons_self, hpage]
      · intro p hp
        exact hμ p (List.mem_cons_of_mem _ hp)

/-- The keys ascend. -/
theorem At.sorted (h : At H pageSize μ root stats g own) : Sorted g := by
  rcases h.pages with ⟨_, _, rfl, _⟩ | ⟨_, _, _, htree, _⟩
  · exact List.Pairwise.nil
  · exact (sorted_mapVal _).mp htree.sorted

/-- The bytes of all values, against the pages. -/
theorem At.size_le (h : At H pageSize μ root stats g own) (hlo : 512 ≤ pageSize) :
    (g.map fun e => e.2.body.length).sum ≤ own.length * pageSize := by
  rcases h.pages with ⟨_, _, rfl, _⟩ | ⟨ownD, _, _, htree, rfl⟩
  · simp
  · have hle := Dict.size_le hlo htree
    rw [mapVal, List.map_map] at hle
    refine le_trans hle (Nat.mul_le_mul_right _ ?_)
    simp

end View

/-- The meta page is read back. -/
theorem GraphMeta.decode_encode (H : Xxh3) {stats : GraphMeta} (h : stats.Wf) {pageSize : Nat}
    (hlo : 512 ≤ pageSize) (pageNo : Nat) :
    GraphMeta.decode (stats.encode H pageSize) pageNo = .ok stats := by
  have hlen : stats.body.length = 25 := by simp [GraphMeta.body]
  have hfit : PAGE_HEADER_LEN + stats.body.length ≤ pageSize - PAGE_TRAILER_LEN := by
    simp only [hlen, PAGE_HEADER_LEN, PAGE_TRAILER_LEN]
    omega
  have hhead : PageHeader.decode (stats.encode H pageSize) = some ⟨.graphDict, 0, 0⟩ :=
    Dict.nodePage_header hlo (by norm_num)
  have hbody : HasAt (stats.encode H pageSize) PAGE_HEADER_LEN stats.body := Dict.nodePage_body hfit
  obtain ⟨hkind, hrest⟩ := hasAt_cons.mp hbody
  obtain ⟨hrest, h3⟩ := hasAt_append.mp hrest
  obtain ⟨h1, h2⟩ := hasAt_append.mp hrest
  rw [List.length_append, leBytes_length, leBytes_length] at h3
  rw [leBytes_length] at h2
  have hread1 := Dict.getInt_of_hasAt pageNo h1 h.entityCount
  have hread2 := Dict.getInt_of_hasAt pageNo h2 h.relationCount
  have hread3 := Dict.getInt_of_hasAt pageNo h3 h.dictRoot
  simp only [GraphMeta.decode, hhead, okOr_some, ok_bind, ne_eq, not_true_eq_false, if_false,
    hkind.getElem?, hread1, hread2, hread3]

section Read

variable {H : Xxh3} {src : PageSource} {root : Nat} {stats : GraphMeta} {g : Contents} {own : List Nat}

/-- Loading the meta page. -/
theorem At.loadMeta (h : At H src.pageSize src.view root stats g own) (ho : src.Owns own) :
    loadMeta src root = .ok (if root = 0 then none else some stats) := by
  unfold Graph.loadMeta
  rcases h.pages with ⟨rfl, _⟩ | ⟨ownD, hne, hpage, _⟩
  · rfl
  · rw [if_neg hne, if_neg hne, PageSource.page_of_view hpage, ok_bind,
      GraphMeta.decode_encode H h.stats_wf ho.pageSize_ge]
    rfl

/-- The dictionary of a graph, wherever it stands. -/
theorem At.dict (h : At H src.pageSize src.view root stats g own) (ho : src.Owns own) :
    ∃ ownD, Dict.Holds H GRAPH_DICT src stats.dictRoot (mapVal Node.body g) ownD := by
  rcases h.pages with ⟨_, rfl, rfl, rfl⟩ | ⟨ownD, _, _, htree, rfl⟩
  · exact ⟨[], rooted_empty, ho.nodup, ho.bound, ho.pageSize_ge, ho.pageSize_le, by decide⟩
  · have ho' := ho.sublist (List.sublist_cons_self root ownD)
    exact ⟨ownD, htree, ho'.nodup, ho'.bound, ho'.pageSize_ge, ho'.pageSize_le, by decide⟩

/-- Reading the members of a name. -/
theorem getMembers_of_holds {ownD : List Nat} (hok : ContentsOk MemoryGraph.Ok g)
    (h : Dict.Holds H GRAPH_DICT src root (mapVal Node.body g) ownD) (name : String) :
    getMembers H src root name = .ok (membersAt g name) := by
  unfold getMembers
  rcases hok.find_entityKey name with ⟨hnone, hm⟩ | ⟨ids, hfind, hm, _, hsorted, _⟩
  · rcases h.get (entityKey name) with ⟨hget, _⟩ | ⟨body, page, _, hf⟩
    · rw [hget, hm]
      rfl
    · rw [find_mapVal, hnone] at hf
      cases hf
  · rcases h.get (entityKey name) with ⟨_, hf⟩ | ⟨body, page, hget, hf⟩
    · rw [find_mapVal, hfind] at hf
      cases hf
    · have hlen := h.length_lt hf
      rw [find_mapVal, hfind] at hf
      cases hf
      rw [hget, ok_bind, hm]
      simp only [Node.body, members_round_trip page hsorted hlen]
      rfl

/-- Reading the edges of a memory. -/
theorem getAdjacency_of_holds {ownD : List Nat} (hok : ContentsOk MemoryGraph.Ok g)
    (h : Dict.Holds H GRAPH_DICT src root (mapVal Node.body g) ownD) (id : Ulid) :
    getAdjacency H src root id = .ok (adjacencyAt g id) := by
  unfold getAdjacency
  rcases hok.find_memoryKey id with ⟨hnone, ha⟩ | ⟨adj, hfind, ha, hadj⟩
  · rcases h.get (memoryKey id) with ⟨hget, _⟩ | ⟨body, page, _, hf⟩
    · rw [hget, ha]
      rfl
    · rw [find_mapVal, hnone] at hf
      cases hf
  · rcases h.get (memoryKey id) with ⟨_, hf⟩ | ⟨body, page, hget, hf⟩
    · rw [find_mapVal, hfind] at hf
      cases hf
    · rw [find_mapVal, hfind] at hf
      cases hf
      rw [hget, ok_bind, ha]
      simp only [Node.body, adjacency_round_trip page hadj]
      rfl

/-- What the readers return. -/
theorem At.entityMembers (h : At H src.pageSize src.view root stats g own) (ho : src.Owns own)
    (name : String) : entityMembers H src root name = .ok ((membersAt g name).getD []) := by
  unfold Graph.entityMembers
  rw [h.loadMeta ho, ok_bind]
  rcases h.pages with ⟨h0, _, rfl, _⟩ | ⟨_, hne, _⟩
  · rw [if_pos h0]
    rfl
  · obtain ⟨ownD, hdict⟩ := h.dict ho
    rw [if_neg hne]
    simp only [getMembers_of_holds h.contents_ok hdict]
    rfl

/-- Reading the node of a memory. -/
theorem At.memoryGraph (h : At H src.pageSize src.view root stats g own) (ho : src.Owns own)
    (id : Ulid) : memoryGraph H src root id = .ok (adjacencyAt g id) := by
  unfold Graph.memoryGraph
  rw [h.loadMeta ho, ok_bind]
  rcases h.pages with ⟨h0, _, rfl, _⟩ | ⟨_, hne, _⟩
  · rw [if_pos h0]
    rfl
  · obtain ⟨ownD, hdict⟩ := h.dict ho
    rw [if_neg hne]
    exact getAdjacency_of_holds h.contents_ok hdict id

/-- Reading the counts. -/
theorem At.stats_eq (h : At H src.pageSize src.view root stats g own) (ho : src.Owns own) :
    Graph.stats src root = .ok (stats.entityCount, stats.relationCount) := by
  unfold Graph.stats
  rw [h.loadMeta ho, ok_bind]
  rcases h.pages with ⟨h0, rfl, _, _⟩ | ⟨_, hne, _⟩
  · rw [if_pos h0]
    rfl
  · rw [if_neg hne]
    rfl

end Read

/-! ## Adding a memory -/

/-- The loop variables of `addMemory`, with the contents in place of a root. -/
structure Draft where
  stats : GraphMeta
  contents : Contents
  adj : MemoryGraph

/-- One entity. -/
def tagged (id : Ulid) (d : Draft) (name : String) : Draft :=
  if (d.adj.insertEntity name).2 then
    { stats := { d.stats with
        entityCount := if (membersAt d.contents name).isNone then saturatingAdd d.stats.entityCount 1
          else d.stats.entityCount }
      contents := setMembers name (Members.insert id ((membersAt d.contents name).getD [])).1 d.contents
      adj := (d.adj.insertEntity name).1 }
  else d

/-- One relation. -/
def related (id : Ulid) (d : Draft) (relation : String × Ulid) : Draft :=
  if (d.adj.insertEdge ⟨true, relation.1, relation.2⟩).2 then
    { stats := { d.stats with relationCount := saturatingAdd d.stats.relationCount 1 }
      contents := setAdjacency relation.2
        (((adjacencyAt d.contents relation.2).getD {}).insertEdge ⟨false, relation.1, id⟩).1 d.contents
      adj := (d.adj.insertEdge ⟨true, relation.1, relation.2⟩).1 }
  else d

def drafted (id : Ulid) (entities : List String) (relations : List (String × Ulid)) (stats : GraphMeta)
    (g : Contents) : Draft :=
  (distinct relationKey relations).foldl (related id)
    ((distinct utf8 entities).foldl (tagged id) ⟨stats, g, (adjacencyAt g id).getD {}⟩)

/-- The counters and contents after `addMemory`. -/
def added (id : Ulid) (entities : List String) (relations : List (String × Ulid)) (stats : GraphMeta)
    (g : Contents) : GraphMeta × Contents :=
  if entities.isEmpty && relations.isEmpty then (stats, g)
  else
    let d := drafted id entities relations stats g
    (d.stats, setAdjacency id d.adj d.contents)

/-- What `addMemory` accepts. -/
structure Accepts (id : Ulid) (entities : List String) (relations : List (String × Ulid)) : Prop where
  names : ∀ name ∈ entities, NameOk name
  kinds : ∀ r ∈ relations, KindOk r.1
  others : ∀ r ∈ relations, r.2 ≠ id

/-- A name that passes its check. -/
theorem checkEntity_ok {name : String} (h : checkEntity name = .ok ()) : NameOk name := by
  unfold checkEntity at h
  split at h
  · cases h
  · rename_i hnot
    rw [List.isEmpty_iff, not_or, not_lt] at hnot
    exact hnot

/-- A relation that passes its check. -/
theorem checkRelation_ok {id : Ulid} {r : String × Ulid} (h : checkRelation id r = .ok ()) :
    KindOk r.1 ∧ r.2 ≠ id := by
  unfold checkRelation at h
  split at h
  · cases h
  · rename_i hnot
    rw [List.isEmpty_iff, not_or, not_lt] at hnot
    split at h
    · cases h
    · rename_i hself
      exact ⟨hnot, hself⟩

/-- A loop of checks that succeeds has checked every element. -/
theorem of_forM_ok {α : Type} {f : α → Except Error Unit} {l : List α} (h : l.forM f = .ok ()) :
    ∀ x ∈ l, f x = .ok () := by
  induction l with
  | nil => simp
  | cons a l ih =>
      have h : (f a >>= fun _ => l.forM f) = .ok () := h
      cases ha : f a with
      | error e =>
          rw [ha] at h
          cases h
      | ok _ =>
          rw [ha, ok_bind] at h
          intro x hx
          rcases List.mem_cons.mp hx with rfl | hx
          · exact ha
          · exact ih h x hx

section Write

variable {H : Xxh3} {t t₀ : Txn} {own₀ : List Nat}

/-- The loop variables stand for a draft; the dictionary moved from `own₀` in `t₀`. -/
structure Stands (H : Xxh3) (t₀ : Txn) (own₀ : List Nat) (d : Draft) (s : Adding) (t : Txn) : Prop where
  stats : s.stats = d.stats
  adj : s.adj = d.adj
  valid : d.adj.Valid
  contents_ok : ContentsOk MemoryGraph.Ok d.contents
  stored : ∃ own, Dict.InTxn H GRAPH_DICT t s.root (mapVal Node.body d.contents) own ∧
    t₀.Moved H t own₀ own

/-- Reading members through the transaction. -/
theorem Stands.getMembers {d : Draft} {s : Adding} (h : Stands H t₀ own₀ d s t) (name : String) :
    Graph.getMembers H (t.source H) s.root name = .ok (membersAt d.contents name) := by
  obtain ⟨own, hin, hmoved⟩ := h.stored
  exact getMembers_of_holds h.contents_ok (hin.holds hmoved.wf) name

/-- Reading edges through the transaction. -/
theorem Stands.getAdjacency {d : Draft} {s : Adding} (h : Stands H t₀ own₀ d s t) (id : Ulid) :
    Graph.getAdjacency H (t.source H) s.root id = .ok (adjacencyAt d.contents id) := by
  obtain ⟨own, hin, hmoved⟩ := h.stored
  exact getAdjacency_of_holds h.contents_ok (hin.holds hmoved.wf) id

/-- Storing a node under its key. -/
theorem Stands.wp_upsert {d : Draft} {s : Adding} (h : Stands H t₀ own₀ d s t) (key : Bytes) (node : Node) :
    Wp (Dict.upsert H GRAPH_DICT s.root key node.body) t (fun root t' => ∃ own,
      Dict.InTxn H GRAPH_DICT t' root (mapVal Node.body (insertKey key node d.contents)) own ∧
      t₀.Moved H t' own₀ own) fun _ => True := by
  obtain ⟨own, hin, hmoved⟩ := h.stored
  refine (Dict.wp_upsert hin hmoved.wf key node.body).imp ?_
  rintro root t' ⟨own', hin', hmoved'⟩
  rw [insertKey_mapVal] at hin'
  exact ⟨own', hin', hmoved.trans hmoved'⟩

/-- Tagging with one name. -/
theorem wp_tagEntity {id : Ulid} {name : String} (hname : NameOk name) {d : Draft} {s : Adding}
    (h : Stands H t₀ own₀ d s t) :
    Wp (tagEntity H id s name) t (Stands H t₀ own₀ (tagged id d name)) fun _ => True := by
  unfold tagEntity tagged
  rw [h.adj]
  cases hnew : (d.adj.insertEntity name).2 with
  | false => exact Wp.pure h
  | true =>
      simp only [if_true]
      refine Wp.bind (Txn.wp_reading ?_ fun _ _ => trivial)
      intro found hfound
      rw [h.getMembers name] at hfound
      cases hfound
      have hsorted := h.contents_ok.members_ascending name
      have hids := ascending_insertNew (x := id) (fun _ _ h => h) hsorted
      have hne : (Members.insert id ((membersAt d.contents name).getD [])).1 ≠ [] := by
        intro h0
        have hin := (mem_insertNew (x := id) (y := id) (fun _ _ h => h) hsorted).mpr (Or.inl rfl)
        rw [show (insertNew _ id ((membersAt d.contents name).getD [])).1 = [] from h0] at hin
        cases hin
      refine Wp.bind ((h.wp_upsert (entityKey name) (.members _)).imp ?_)
      intro root t' hstored
      exact Wp.pure ⟨by rw [h.stats], rfl, h.valid.insertEntity hname,
        h.contents_ok.setMembers hname hids hne, hstored⟩

/-- Relating to one memory. -/
theorem wp_relate {id : Ulid} {relation : String × Ulid} (hkind : KindOk relation.1) {d : Draft} {s : Adding}
    (h : Stands H t₀ own₀ d s t) :
    Wp (relate H id s relation) t (Stands H t₀ own₀ (related id d relation)) fun _ => True := by
  unfold relate related
  rw [h.adj]
  cases hnew : (d.adj.insertEdge ⟨true, relation.1, relation.2⟩).2 with
  | false => exact Wp.pure h
  | true =>
      simp only [if_true]
      refine Wp.bind (Txn.wp_reading ?_ fun _ _ => trivial)
      intro found hfound
      rw [h.getAdjacency relation.2] at hfound
      cases hfound
      refine Wp.bind (Wp.lift ?_ fun _ _ => trivial)
      intro body hbody
      have htarget := (h.contents_ok.adjacency_valid (fun _ h => h.toValid) relation.2).insertEdge
        (e := ⟨false, relation.1, id⟩) hkind
      obtain ⟨hok, rfl⟩ := htarget.ok_of_encode hbody
      refine Wp.bind ((h.wp_upsert (memoryKey relation.2) (.adjacency _)).imp ?_)
      intro root t' hstored
      exact Wp.pure ⟨by rw [h.stats], rfl, h.valid.insertEdge (e := ⟨true, relation.1, relation.2⟩) hkind,
        h.contents_ok.setAdjacency hok, hstored⟩

end Write

/-- The graph in a transaction. -/
structure InTxn (H : Xxh3) (t : Txn) (stats : GraphMeta) (g : Contents) (own : List Nat) : Prop where
  graph : At H t.pageSize (t.view H) t.graphRootPage stats g own
  owns : t.Owns own

/-- Only the graph's own root moves. -/
def RootOnly (p q : PendingHeader) : Prop := ∃ r, q = { p with graphRoot := r }

theorem RootOnly.refl (p : PendingHeader) : RootOnly p p := ⟨p.graphRoot, rfl⟩

theorem RootOnly.trans (p q r : PendingHeader) (h : RootOnly p q) (h' : RootOnly q r) : RootOnly p r := by
  obtain ⟨x, rfl⟩ := h
  obtain ⟨y, rfl⟩ := h'
  exact ⟨y, rfl⟩

section Memory

variable {H : Xxh3} {t : Txn} {stats : GraphMeta} {g : Contents} {own : List Nat}

/-- Setting the root keeps the transaction well formed. -/
theorem wf_setGraphRootPage (ht : t.Wf H) {n : Nat} (hn : n < 2 ^ 64) : (t.setGraphRootPage n).Wf H := by
  refine ht.withPending { ht.pending with graphRoot := ?_ }
  intro x hx
  cases hx
  exact hn

/-- The root moves. -/
theorem inTxn_setGraphRootPage {t' : Txn} {own' : List Nat} (hm : t.Moved H t' own own') {n : Nat}
    (h : At H t.pageSize (t'.view H) n stats g own') (ho : t'.Owns own') :
    InTxn H (t'.setGraphRootPage n) stats g own' where
  graph := by
    have hsize : (t'.setGraphRootPage n).pageSize = t.pageSize := hm.pageSize
    rw [hsize]
    exact h
  owns := ⟨ho.nodup, ho.pos, ho.lt⟩

/-- A step that moves the root. -/
theorem stepped_setGraphRootPage {t' : Txn} {own' : List Nat} (hm : t.Moved H t' own own') {n : Nat}
    (hn : n < 2 ^ 64) : t.Stepped H RootOnly (t'.setGraphRootPage n) own own' where
  wf := wf_setGraphRootPage hm.wf hn
  base := hm.base
  pending := by
    refine ⟨some n, ?_⟩
    rw [← hm.pending]
    rfl
  step := hm.step

/-- Saving the counts on the meta page, a new one for a new graph. -/
theorem wp_saveMeta {ownD : List Nat} (ht : t.Wf H) (hw : stats.Wf) (hok : ContentsOk MemoryGraph.Ok g)
    (hdict : Rooted (Dict.pageLayout H GRAPH_DICT t.pageSize) (t.view H) stats.dictRoot
      (mapVal Node.body g) ownD)
    (hroot : Txn.Headed t.graphRootPage own ownD) (ho : t.Owns own) :
    Wp (saveMeta H stats) t (fun _ t' => ∃ own', InTxn H t' stats g own' ∧
      t.Stepped H RootOnly t' own own') fun _ => True := by
  refine Wp.bind (Txn.wp_current ?_)
  have hlen : (stats.encode H t.pageSize).length = t.pageSize := by simp [GraphMeta.encode]
  refine Txn.wp_saveRoot ht hroot ho hlen trivial ?_
  intro n t' hpos hn hmoved hview hkeep
  have hstamp : stampPageChecksum H (stats.encode H t.pageSize) = stats.encode H t.pageSize :=
    stampPageChecksum_idem H _
  rw [hstamp] at hview
  have hgraph : At H t.pageSize (t'.view H) n stats g (n :: ownD) :=
    ⟨hw, hok, Or.inr ⟨ownD, Nat.ne_of_gt hpos, hview, hdict.frame hkeep, rfl⟩⟩
  exact Wp.of_ok (a := ()) rfl ⟨n :: ownD, inTxn_setGraphRootPage hmoved hgraph (hmoved.owns ht ho),
    stepped_setGraphRootPage hmoved hn⟩

/-- The counters of a draft are within their type. -/
theorem GraphMeta.Wf.drafted (h : stats.Wf) (id : Ulid) (entities : List String)
    (relations : List (String × Ulid)) : (drafted id entities relations stats g).stats.Wf := by
  have htag : ∀ (l : List String) (d : Draft), d.stats.Wf → (l.foldl (tagged id) d).stats.Wf := by
    intro l
    induction l with
    | nil => exact fun d hd => hd
    | cons x l ih =>
        intro d hd
        refine ih _ ?_
        unfold tagged
        split
        · refine ⟨?_, hd.relationCount, hd.dictRoot⟩
          dsimp only
          split
          · exact saturatingAdd_lt _ _
          · exact hd.entityCount
        · exact hd
  have hrel : ∀ (l : List (String × Ulid)) (d : Draft), d.stats.Wf → (l.foldl (related id) d).stats.Wf := by
    intro l
    induction l with
    | nil => exact fun d hd => hd
    | cons x l ih =>
        intro d hd
        refine ih _ ?_
        unfold related
        split
        · exact ⟨hd.entityCount, saturatingAdd_lt _ _, hd.dictRoot⟩
        · exact hd
  exact hrel _ _ (htag _ _ h)

/-- A call that succeeds was accepted and leaves the graph `added` describes. -/
theorem wp_addMemory {id : Ulid} {entities : List String} {relations : List (String × Ulid)} (ht : t.Wf H)
    (h : InTxn H t stats g own) :
    Wp (addMemory H id entities relations) t (fun _ t' => Accepts id entities relations ∧
      ∃ root own', InTxn H t' { (added id entities relations stats g).1 with dictRoot := root }
        (added id entities relations stats g).2 own' ∧
      t.Stepped H RootOnly t' own own') fun _ => True := by
  unfold addMemory added
  cases hempty : entities.isEmpty && relations.isEmpty with
  | true =>
      rw [Bool.and_eq_true, List.isEmpty_iff, List.isEmpty_iff] at hempty
      obtain ⟨rfl, rfl⟩ := hempty
      exact Wp.pure ⟨⟨by simp, by simp, by simp⟩, stats.dictRoot, own, h,
        (Txn.Moved.refl ht h.owns.lt).stepped RootOnly.refl⟩
  | false =>
  simp only [Bool.false_eq_true, if_false]
  refine Wp.bind (Wp.lift ?_ fun _ _ => trivial)
  rintro ⟨⟩ hnames
  refine Wp.bind (Wp.lift ?_ fun _ _ => trivial)
  rintro ⟨⟩ hrelations
  have haccepts : Accepts id entities relations :=
    ⟨fun x hx => checkEntity_ok (of_forM_ok hnames x hx),
      fun r hr => (checkRelation_ok (of_forM_ok hrelations r hr)).1,
      fun r hr => (checkRelation_ok (of_forM_ok hrelations r hr)).2⟩
  refine Wp.bind (Txn.wp_current ?_)
  refine Wp.bind (Txn.wp_reading ?_ fun _ _ => trivial)
  intro loaded hloaded
  have hstats : loaded.getD GraphMeta.empty = stats := by
    have hload := h.graph.loadMeta (h.owns.source ht)
    rw [show loadMeta (t.source H) t.graphRootPage = _ from hload] at hloaded
    cases hloaded
    rcases h.graph.pages with ⟨h0, rfl, _⟩ | ⟨_, hne, _⟩
    · rw [if_pos h0]
      rfl
    · rw [if_neg hne]
      rfl
  rw [hstats]
  -- the pages of the dictionary, with the meta page apart
  obtain ⟨ownD, hdict, hroot⟩ : ∃ ownD, Dict.InTxn H GRAPH_DICT t stats.dictRoot (mapVal Node.body g) ownD ∧
      Txn.Headed t.graphRootPage own ownD := by
    rcases h.graph.pages with ⟨h0, rfl, rfl, rfl⟩ | ⟨ownD, hne, _, htree, rfl⟩
    · exact ⟨[], ⟨rooted_empty, h.owns, by decide⟩, Or.inl ⟨h0, rfl⟩⟩
    · have hs := List.sublist_cons_self t.graphRootPage ownD
      exact ⟨ownD, ⟨htree, h.owns.sublist hs, by decide⟩, Or.inr ⟨hne, rfl⟩⟩
  refine Wp.bind (Txn.wp_reading ?_ fun _ _ => trivial)
  intro adj hadj
  rw [show getAdjacency H (t.source H) stats.dictRoot id = _ from
    getAdjacency_of_holds h.graph.contents_ok (hdict.holds ht) id] at hadj
  cases hadj
  have hstart : Stands H t ownD ⟨stats, g, (adjacencyAt g id).getD {}⟩
      ⟨stats, stats.dictRoot, (adjacencyAt g id).getD {}⟩ t :=
    ⟨rfl, rfl, h.graph.contents_ok.adjacency_valid (fun _ h => h.toValid) id, h.graph.contents_ok, ownD, hdict,
      Txn.Moved.refl ht hdict.owns.lt⟩
  refine Wp.bind ((Wp.foldlM (g := tagged id) _ ?_ hstart).imp ?_)
  · intro name hin d s t' hs
    exact wp_tagEntity (haccepts.names name ((mem_distinct utf8).mp hin)) hs
  intro s₁ t₁ h₁
  refine Wp.bind ((Wp.foldlM (g := related id) _ ?_ h₁).imp ?_)
  · intro r hin d s t' hs
    exact wp_relate (haccepts.kinds r ((mem_distinct relationKey).mp hin)) hs
  intro s₂ t₂ h₂
  refine Wp.bind (Wp.lift ?_ fun _ _ => trivial)
  intro body hbody
  rw [h₂.adj] at hbody
  obtain ⟨hok, rfl⟩ := h₂.valid.ok_of_encode hbody
  refine Wp.bind ((h₂.wp_upsert (memoryKey id) (.adjacency _)).imp ?_)
  rintro root t₃ ⟨ownD₃, hdict₃, hmoved₃⟩
  obtain ⟨own₃, hroot₃, hstep₃⟩ := hroot.move h.owns hmoved₃
  have hgraph : t.graphRootPage = t₃.graphRootPage := by
    rw [Txn.graphRootPage, Txn.graphRootPage, hmoved₃.pending, hmoved₃.base]
  rw [hgraph] at hroot₃
  have hw : (drafted id entities relations stats g).stats.Wf := h.graph.stats_wf.drafted id entities relations
  have hw₃ : GraphMeta.Wf { s₂.stats with dictRoot := root } := by
    rw [h₂.stats]
    exact ⟨hw.entityCount, hw.relationCount, hdict₃.root_lt hmoved₃.wf⟩
  refine (wp_saveMeta hmoved₃.wf hw₃ (h₂.contents_ok.setAdjacency hok) hdict₃.rooted hroot₃
    (hstep₃.owns ht h.owns)).imp ?_
  rintro _ t₄ ⟨own₄, hin₄, hstep₄⟩
  rw [h₂.stats] at hin₄
  exact ⟨haccepts, root, own₄, hin₄, (hstep₃.stepped RootOnly.refl).trans hstep₄ RootOnly.trans⟩

end Memory

end Graph

end EmbedMind
