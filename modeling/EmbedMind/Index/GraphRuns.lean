import EmbedMind.Index.GraphProof

/-!
# The graph over whole runs

`Symmetric` is what the graph is for: an entity lists exactly the memories that list
it, and every edge is stored at both of its ends. `addMemory` holds the adjacency of
its memory back until the end, so inside its loops the invariant `Holding` speaks of
the stored adjacencies with that one replaced. `Run` are the committed states,
`graph_symmetry` what every reader of one of them sees.
-/

namespace EmbedMind

open Lib Lib.Assoc Lib.PagedTree Lib.SortedSet

namespace Graph

/-! ## Symmetry -/

/-- The two directions of the graph agree. -/
structure Symmetric (members : String → List Ulid) (graph : Ulid → MemoryGraph) : Prop where
  tags : ∀ a e, a ∈ members e ↔ e ∈ (graph a).entities
  mirrored : ∀ a b k, ⟨true, k, b⟩ ∈ (graph a).edges ↔ ⟨false, k, a⟩ ∈ (graph b).edges
  no_loops : ∀ a, ∀ e ∈ (graph a).edges, e.other ≠ a

section Symmetric

variable {members : String → List Ulid} {graph : Ulid → MemoryGraph} {id : Ulid} {adj : MemoryGraph}

/-- One more entity of a memory, at both ends. -/
theorem Symmetric.tag (h : Symmetric members (Function.update graph id adj)) {name : String}
    {ids : List Ulid} {adj' : MemoryGraph} (hids : ∀ a, a ∈ ids ↔ a = id ∨ a ∈ members name)
    (hadj : ∀ e, e ∈ adj'.entities ↔ e = name ∨ e ∈ adj.entities) (hedges : adj'.edges = adj.edges) :
    Symmetric (Function.update members name ids) (Function.update graph id adj') where
  tags := by
    intro a e
    have hold := h.tags a e
    -- only this name and only this id change
    by_cases he : e = name
    · subst he
      rw [Function.update_self, hids]
      by_cases ha : a = id
      · subst ha
        simp [hadj]
      · rw [Function.update_of_ne ha] at hold ⊢
        simp [ha, hold]
    · rw [Function.update_of_ne he, hold]
      by_cases ha : a = id
      · subst ha
        simp [hadj, he]
      · rw [Function.update_of_ne ha, Function.update_of_ne ha]
  mirrored := by
    -- tagging leaves the edges alone
    have hsame : ∀ a, (Function.update graph id adj' a).edges = (Function.update graph id adj a).edges := by
      intro a
      by_cases ha : a = id
      · subst ha
        rw [Function.update_self, Function.update_self, hedges]
      · rw [Function.update_of_ne ha, Function.update_of_ne ha]
    intro a b k
    rw [hsame, hsame]
    exact h.mirrored a b k
  no_loops := by
    intro a e he
    by_cases ha : a = id
    · subst ha
      refine h.no_loops a e ?_
      rw [Function.update_self] at he ⊢
      rwa [← hedges]
    · refine h.no_loops a e ?_
      rwa [Function.update_of_ne ha] at he ⊢

/-- One more edge between two memories, at both ends. -/
theorem Symmetric.relate (h : Symmetric members (Function.update graph id adj)) {k : String} {b : Ulid}
    (hb : b ≠ id) {target adj' : MemoryGraph}
    (htarget : ∀ e, e ∈ target.edges ↔ e = ⟨false, k, id⟩ ∨ e ∈ (graph b).edges)
    (hadj : ∀ e, e ∈ adj'.edges ↔ e = ⟨true, k, b⟩ ∨ e ∈ adj.edges)
    (htags : target.entities = (graph b).entities) (htags' : adj'.entities = adj.entities) :
    Symmetric members (Function.update (Function.update graph b target) id adj') := by
  have hentities : ∀ a, (Function.update (Function.update graph b target) id adj' a).entities =
      (Function.update graph id adj a).entities := by
    intro a
    by_cases ha : a = id
    · subst ha
      rw [Function.update_self, Function.update_self, htags']
    · rw [Function.update_of_ne ha, Function.update_of_ne ha]
      by_cases hab : a = b
      · subst hab
        rw [Function.update_self, htags]
      · rw [Function.update_of_ne hab]
  -- the edges of a node are the old ones and what this relation puts there
  have hedges : ∀ a e, e ∈ (Function.update (Function.update graph b target) id adj' a).edges ↔
      e ∈ (Function.update graph id adj a).edges ∨ (a = id ∧ e = ⟨true, k, b⟩) ∨
        (a = b ∧ e = ⟨false, k, id⟩) := by
    intro a e
    by_cases ha : a = id
    · subst ha
      rw [Function.update_self, Function.update_self, hadj]
      have hne : a ≠ b := Ne.symm hb
      simp only [true_and, hne, false_and, or_false]
      exact or_comm
    · rw [Function.update_of_ne ha, Function.update_of_ne ha]
      by_cases hab : a = b
      · subst hab
        rw [Function.update_self, htarget]
        simp only [ha, false_and, true_and, false_or]
        exact or_comm
      · rw [Function.update_of_ne hab]
        simp [ha, hab]
  constructor
  case tags =>
    intro a e
    rw [hentities]
    exact h.tags a e
  case mirrored =>
    intro x y k'
    rw [hedges, hedges, h.mirrored x y k']
    simp
    tauto
  case no_loops =>
    intro a e he
    rcases (hedges a e).mp he with he | ⟨rfl, rfl⟩ | ⟨rfl, rfl⟩
    · exact h.no_loops a e he
    · exact hb
    · exact hb.symm

end Symmetric

/-! ## Counting -/

/-- The number of outgoing edges. -/
def MemoryGraph.outgoing (adj : MemoryGraph) : Nat := (adj.edges.filter fun e => e.outgoing).length

def Node.entities : Node → Nat
  | .members _ => 1
  | .adjacency _ => 0

def Node.relations : Node → Nat
  | .members _ => 0
  | .adjacency adj => adj.outgoing

def entityTotal (g : Contents) : Nat := (g.map fun e => e.2.entities).sum

def relationTotal (g : Contents) : Nat := (g.map fun e => e.2.relations).sum

/-- A new edge counts if it is outgoing. -/
theorem outgoing_insertEdge {adj : MemoryGraph} (h : adj.Valid) {e : Edge} (he : e ∉ adj.edges) :
    (adj.insertEdge e).1.outgoing = adj.outgoing + if e.outgoing then 1 else 0 := by
  have hperm : (adj.insertEdge e).1.edges.Perm (e :: adj.edges) := by
    refine (List.perm_ext_iff_of_nodup (ascending_insertNew sortKey_injective h.edges).nodup
      (List.nodup_cons.mpr ⟨he, h.edges.nodup⟩)).mpr ?_
    intro x
    rw [List.mem_cons]
    exact h.mem_insertEdge
  unfold MemoryGraph.outgoing
  rw [(hperm.filter _).length_eq, List.filter_cons]
  cases e.outgoing <;> simp

/-- An incoming edge is not counted. -/
theorem outgoing_insertEdge_incoming {adj : MemoryGraph} (h : adj.Valid) {k : String} {id : Ulid} :
    (adj.insertEdge ⟨false, k, id⟩).1.outgoing = adj.outgoing := by
  by_cases he : ⟨false, k, id⟩ ∈ adj.edges
  · rcases insertNew_cases sortKey_injective h.edges ⟨false, k, id⟩ with ⟨_, heq⟩ | ⟨hnot, _⟩
    · simp [MemoryGraph.outgoing, MemoryGraph.insertEdge, heq]
    · exact absurd he hnot
  · rw [outgoing_insertEdge h he]
    simp

section Totals

variable {g : Contents} (hsorted : Sorted g)

include hsorted

/-- A new name is counted. -/
theorem entityTotal_setMembers (h : ContentsOk MemoryGraph.Valid g) (name : String) (ids : List Ulid) :
    entityTotal (setMembers name ids g) =
      entityTotal g + if (membersAt g name).isNone then 1 else 0 := by
  have hsum := sum_insertKey hsorted Node.entities (entityKey name) (.members ids)
  rcases h.find_entityKey name with ⟨hfind, hm⟩ | ⟨old, hfind, hm, _⟩
  · rw [hfind] at hsum
    simpa [hm, Node.entities, entityTotal, setMembers] using hsum
  · rw [hfind] at hsum
    simpa [hm, Node.entities, entityTotal, setMembers] using hsum

/-- Edges are not counted as names. -/
theorem entityTotal_setAdjacency (h : ContentsOk MemoryGraph.Valid g) (id : Ulid) (adj : MemoryGraph) :
    entityTotal (setAdjacency id adj g) = entityTotal g := by
  have hsum := sum_insertKey hsorted Node.entities (memoryKey id) (.adjacency adj)
  rcases h.find_memoryKey id with ⟨hfind, _⟩ | ⟨old, hfind, _⟩
  · rw [hfind] at hsum
    simpa [Node.entities, entityTotal, setAdjacency] using hsum
  · rw [hfind] at hsum
    simpa [Node.entities, entityTotal, setAdjacency] using hsum

/-- Members are not counted as relations. -/
theorem relationTotal_setMembers (h : ContentsOk MemoryGraph.Valid g) (name : String) (ids : List Ulid) :
    relationTotal (setMembers name ids g) = relationTotal g := by
  have hsum := sum_insertKey hsorted Node.relations (entityKey name) (.members ids)
  rcases h.find_entityKey name with ⟨hfind, _⟩ | ⟨old, hfind, _⟩
  · rw [hfind] at hsum
    simpa [Node.relations, relationTotal, setMembers] using hsum
  · rw [hfind] at hsum
    simpa [Node.relations, relationTotal, setMembers] using hsum

/-- The relations after a change of edges. -/
theorem relationTotal_setAdjacency (h : ContentsOk MemoryGraph.Valid g) (id : Ulid) (adj : MemoryGraph) :
    relationTotal (setAdjacency id adj g) + ((adjacencyAt g id).getD {}).outgoing =
      relationTotal g + adj.outgoing := by
  have hsum := sum_insertKey hsorted Node.relations (memoryKey id) (.adjacency adj)
  rcases h.find_memoryKey id with ⟨hfind, ha⟩ | ⟨old, hfind, ha, _⟩
  · rw [hfind] at hsum
    rw [ha]
    simpa [Node.relations, relationTotal, setAdjacency, MemoryGraph.outgoing] using hsum
  · rw [hfind] at hsum
    rw [ha]
    simpa [Node.relations, relationTotal, setAdjacency] using hsum

end Totals

/-! ## The invariant -/

/-- The members of every entity. -/
def membersOf (g : Contents) (e : String) : List Ulid := (membersAt g e).getD []

/-- The adjacency of every memory. -/
def graphOf (g : Contents) (a : Ulid) : MemoryGraph := (adjacencyAt g a).getD {}

/-- The members after a change. -/
theorem membersOf_setMembers (g : Contents) (name : String) (ids : List Ulid) :
    membersOf (setMembers name ids g) = Function.update (membersOf g) name ids := by
  funext e
  unfold membersOf
  rw [membersAt_setMembers]
  by_cases he : e = name
  · subst he
    simp
  · simp [he]

@[simp] theorem membersOf_setAdjacency (g : Contents) (id : Ulid) (adj : MemoryGraph) :
    membersOf (setAdjacency id adj g) = membersOf g := by
  funext e
  simp [membersOf]

@[simp] theorem graphOf_setMembers (g : Contents) (name : String) (ids : List Ulid) :
    graphOf (setMembers name ids g) = graphOf g := by
  funext a
  simp [graphOf]

/-- The edges after a change. -/
theorem graphOf_setAdjacency (g : Contents) (id : Ulid) (adj : MemoryGraph) :
    graphOf (setAdjacency id adj g) = Function.update (graphOf g) id adj := by
  funext a
  unfold graphOf
  rw [adjacencyAt_setAdjacency]
  by_cases ha : a = id
  · subst ha
    simp
  · simp [ha]

/-- The counters saturate at the largest 64-bit number. -/
def COUNT_MAX : Nat := 2 ^ 64 - 1

/-- Adding to a saturated count. -/
theorem saturatingAdd_min (a b : Nat) : saturatingAdd (min a COUNT_MAX) b = min (a + b) COUNT_MAX := by
  simp only [saturatingAdd, COUNT_MAX]
  omega

/-- A stored graph. -/
structure Sound (stats : GraphMeta) (g : Contents) : Prop where
  sorted : Sorted g
  contents : ContentsOk MemoryGraph.Valid g
  symmetric : Symmetric (membersOf g) (graphOf g)
  entityCount : stats.entityCount = min (entityTotal g) COUNT_MAX
  relationCount : stats.relationCount = min (relationTotal g) COUNT_MAX

theorem sound_empty : Sound .empty [] where
  sorted := List.Pairwise.nil
  contents := by simp [ContentsOk]
  symmetric := ⟨by simp [membersOf, graphOf, membersAt, adjacencyAt],
    by simp [graphOf, adjacencyAt], by simp [graphOf, adjacencyAt]⟩
  entityCount := rfl
  relationCount := rfl

/-- Inside a call: the graph with the memory's own adjacency in place of the stored one. -/
structure Holding (id : Ulid) (d : Draft) : Prop where
  sorted : Sorted d.contents
  contents : ContentsOk MemoryGraph.Valid d.contents
  adj : d.adj.Valid
  symmetric : Symmetric (membersOf d.contents) (Function.update (graphOf d.contents) id d.adj)
  entityCount : d.stats.entityCount = min (entityTotal d.contents) COUNT_MAX
  relationCount : ∃ total, d.stats.relationCount = min total COUNT_MAX ∧
    total + (graphOf d.contents id).outgoing = relationTotal d.contents + d.adj.outgoing

/-- A sound graph, opened for one memory. -/
theorem Sound.holding {stats : GraphMeta} {g : Contents} (h : Sound stats g) (id : Ulid) :
    Holding id ⟨stats, g, (adjacencyAt g id).getD {}⟩ where
  sorted := h.sorted
  contents := h.contents
  adj := h.contents.adjacency_valid (fun _ h => h) id
  symmetric := by
    have hself : Function.update (graphOf g) id ((adjacencyAt g id).getD {}) = graphOf g :=
      Function.update_eq_self id (graphOf g)
    rw [hself]
    exact h.symmetric
  entityCount := h.entityCount
  relationCount := ⟨relationTotal g, h.relationCount, rfl⟩

section Steps

variable {id : Ulid} {d : Draft} (h : Holding id d)

include h

/-- One more tag keeps the draft sound. -/
theorem Holding.tagged {name : String} (hname : NameOk name) : Holding id (tagged id d name) := by
  unfold Graph.tagged
  split
  swap
  · exact h
  have hsorted := h.contents.members_ascending name
  have hids : ∀ a, a ∈ (Members.insert id ((membersAt d.contents name).getD [])).1 ↔
      a = id ∨ a ∈ membersOf d.contents name :=
    fun a => mem_insertNew (fun _ _ h => h) hsorted
  have hne : (Members.insert id ((membersAt d.contents name).getD [])).1 ≠ [] :=
    List.ne_nil_of_mem ((hids id).mpr (Or.inl rfl))
  constructor
  case sorted => exact sorted_insertKey h.sorted
  case contents =>
    exact h.contents.setMembers hname (ascending_insertNew (fun _ _ h => h) hsorted) hne
  case adj => exact h.adj.insertEntity hname
  case symmetric =>
    dsimp only
    rw [membersOf_setMembers, graphOf_setMembers]
    exact h.symmetric.tag hids (fun e => h.adj.mem_insertEntity) rfl
  case entityCount =>
    dsimp only
    rw [entityTotal_setMembers h.sorted h.contents, h.entityCount]
    split
    · rw [saturatingAdd_min]
    · rw [Nat.add_zero]
  case relationCount =>
    dsimp only
    rw [relationTotal_setMembers h.sorted h.contents, graphOf_setMembers]
    exact h.relationCount

/-- One more relation keeps it sound. -/
theorem Holding.related {r : String × Ulid} (hkind : KindOk r.1) (hother : r.2 ≠ id) :
    Holding id (related id d r) := by
  unfold Graph.related
  split
  swap
  · exact h
  rename_i hnew
  rw [h.adj.insertEdge_new] at hnew
  have htarget := h.contents.adjacency_valid (fun _ h => h) r.2
  constructor
  case sorted => exact sorted_insertKey h.sorted
  case contents => exact h.contents.setAdjacency (htarget.insertEdge (e := ⟨false, r.1, id⟩) hkind)
  case adj => exact h.adj.insertEdge (e := ⟨true, r.1, r.2⟩) hkind
  case symmetric =>
    dsimp only
    rw [membersOf_setAdjacency, graphOf_setAdjacency]
    exact h.symmetric.relate hother (fun e => htarget.mem_insertEdge) (fun e => h.adj.mem_insertEdge) rfl rfl
  case entityCount =>
    dsimp only
    rw [entityTotal_setAdjacency h.sorted h.contents]
    exact h.entityCount
  case relationCount =>
    obtain ⟨total, hcount, htotal⟩ := h.relationCount
    have hsum := relationTotal_setAdjacency h.sorted h.contents r.2
      (((adjacencyAt d.contents r.2).getD {}).insertEdge ⟨false, r.1, id⟩).1
    rw [outgoing_insertEdge_incoming htarget] at hsum
    refine ⟨total + 1, ?_, ?_⟩
    · dsimp only
      rw [hcount, saturatingAdd_min]
    · dsimp only
      rw [outgoing_insertEdge h.adj hnew, graphOf_setAdjacency, Function.update_of_ne (Ne.symm hother)]
      simp only [if_true]
      omega

end Steps

/-- The tags of a memory keep it sound. -/
theorem Holding.foldl_tagged {id : Ulid} {names : List String} (hnames : ∀ x ∈ names, NameOk x) {d : Draft}
    (h : Holding id d) : Holding id (names.foldl (Graph.tagged id) d) := by
  induction names generalizing d with
  | nil => exact h
  | cons x names ih =>
      exact ih (fun y hy => hnames y (List.mem_cons_of_mem _ hy)) (h.tagged (hnames x List.mem_cons_self))

/-- The relations of a memory keep it sound. -/
theorem Holding.foldl_related {id : Ulid} {rs : List (String × Ulid)} (hkinds : ∀ r ∈ rs, KindOk r.1)
    (hothers : ∀ r ∈ rs, r.2 ≠ id) {d : Draft} (h : Holding id d) :
    Holding id (rs.foldl (Graph.related id) d) := by
  induction rs generalizing d with
  | nil => exact h
  | cons r rs ih =>
      exact ih (fun y hy => hkinds y (List.mem_cons_of_mem _ hy))
        (fun y hy => hothers y (List.mem_cons_of_mem _ hy))
        (h.related (hkinds r List.mem_cons_self) (hothers r List.mem_cons_self))

/-- What is accepted keeps the draft sound. -/
theorem Accepts.holding {id : Ulid} {entities : List String} {relations : List (String × Ulid)}
    (ha : Accepts id entities relations) {stats : GraphMeta} {g : Contents} (h : Sound stats g) :
    Holding id (drafted id entities relations stats g) := by
  refine Holding.foldl_related ?_ ?_ (Holding.foldl_tagged ?_ (h.holding id))
  · intro r hr
    exact ha.kinds r ((mem_distinct relationKey).mp hr)
  · intro r hr
    exact ha.others r ((mem_distinct relationKey).mp hr)
  · intro x hx
    exact ha.names x ((mem_distinct utf8).mp hx)

/-- The adjacency written last closes the graph. -/
theorem Sound.added {stats : GraphMeta} {g : Contents} (h : Sound stats g) {id : Ulid}
    {entities : List String} {relations : List (String × Ulid)} (ha : Accepts id entities relations) :
    Sound (added id entities relations stats g).1 (added id entities relations stats g).2 := by
  unfold Graph.added
  split
  · exact h
  have hd := ha.holding h
  constructor
  case sorted => exact sorted_insertKey hd.sorted
  case contents => exact hd.contents.setAdjacency hd.adj
  case symmetric =>
    dsimp only
    rw [membersOf_setAdjacency, graphOf_setAdjacency]
    exact hd.symmetric
  case entityCount =>
    dsimp only
    rw [entityTotal_setAdjacency hd.sorted hd.contents]
    exact hd.entityCount
  case relationCount =>
    obtain ⟨total, hcount, htotal⟩ := hd.relationCount
    have hsum := relationTotal_setAdjacency hd.sorted hd.contents id
      (drafted id entities relations stats g).adj
    have htotals : total = relationTotal (setAdjacency id (drafted id entities relations stats g).adj
        (drafted id entities relations stats g).contents) := by
      unfold graphOf at htotal
      omega
    dsimp only
    rw [hcount, htotals]

/-- The root of the dictionary does not matter. -/
theorem Sound.withRoot {stats : GraphMeta} {g : Contents} (h : Sound stats g) (root : Nat) :
    Sound { stats with dictRoot := root } g :=
  ⟨h.sorted, h.contents, h.symmetric, h.entityCount, h.relationCount⟩

/-! ## The totals, as numbers of entities and edges -/

/-- The keys of the member lists. -/
def entityKeys (g : Contents) : List Bytes :=
  g.filterMap fun e => match e.2 with
    | .members _ => some e.1
    | .adjacency _ => none

/-- The outgoing edges, each with the key of its source. -/
def outgoingEdges (g : Contents) : List (Bytes × Edge) :=
  g.flatMap fun e => match e.2 with
    | .members _ => []
    | .adjacency adj => (adj.edges.filter fun x => x.outgoing).map fun x => (e.1, x)

/-- The number of members of a list. -/
theorem ncard_mem {α : Type} [DecidableEq α] {l : List α} (h : l.Nodup) : {x | x ∈ l}.ncard = l.length := by
  rw [← List.toFinset_card_of_nodup h, ← Set.ncard_coe_finset]
  congr 1
  ext x
  simp

/-- There is one key for each name that is counted. -/
theorem entityKeys_length (g : Contents) : (entityKeys g).length = entityTotal g := by
  induction g with
  | nil => rfl
  | cons e g ih =>
      obtain ⟨k, node⟩ := e
      cases node with
      | members ids =>
          simp only [entityKeys, List.filterMap_cons, List.length_cons, entityTotal, List.map_cons,
            List.sum_cons, Node.entities] at ih ⊢
          omega
      | adjacency adj =>
          simp only [entityKeys, List.filterMap_cons, entityTotal, List.map_cons, List.sum_cons,
            Node.entities] at ih ⊢
          omega

/-- There is one edge for each relation that is counted. -/
theorem outgoingEdges_length (g : Contents) : (outgoingEdges g).length = relationTotal g := by
  induction g with
  | nil => rfl
  | cons e g ih =>
      obtain ⟨k, node⟩ := e
      cases node with
      | members ids =>
          simp only [outgoingEdges, List.flatMap_cons, List.nil_append, relationTotal, List.map_cons,
            List.sum_cons, Node.relations] at ih ⊢
          omega
      | adjacency adj =>
          simp only [outgoingEdges, List.flatMap_cons, List.length_append, List.length_map, relationTotal,
            List.map_cons, List.sum_cons, Node.relations, MemoryGraph.outgoing] at ih ⊢
          omega

/-- The keys of names. -/
theorem mem_entityKeys {g : Contents} {k : Bytes} :
    k ∈ entityKeys g ↔ ∃ ids, (k, Node.members ids) ∈ g := by
  unfold entityKeys
  rw [List.mem_filterMap]
  constructor
  · rintro ⟨⟨k', node⟩, hin, heq⟩
    cases node with
    | members ids =>
        cases heq
        exact ⟨ids, hin⟩
    | adjacency adj => cases heq
  · rintro ⟨ids, hin⟩
    exact ⟨_, hin, rfl⟩

/-- The edges that point away from their memory. -/
theorem mem_outgoingEdges {g : Contents} {x : Bytes × Edge} :
    x ∈ outgoingEdges g ↔ ∃ adj, (x.1, Node.adjacency adj) ∈ g ∧ x.2 ∈ adj.edges ∧ x.2.outgoing = true := by
  unfold outgoingEdges
  rw [List.mem_flatMap]
  constructor
  · rintro ⟨⟨k', node⟩, hin, hx⟩
    cases node with
    | members ids => cases hx
    | adjacency adj =>
        obtain ⟨e, he, rfl⟩ := List.mem_map.mp hx
        rw [List.mem_filter] at he
        exact ⟨adj, hin, he.1, by simpa using he.2⟩
  · rintro ⟨adj, hin, hx, hout⟩
    refine ⟨_, hin, List.mem_map.mpr ⟨x.2, ?_, rfl⟩⟩
    rw [List.mem_filter]
    exact ⟨hx, by simpa using hout⟩

/-- The keys of names are keys. -/
theorem entityKeys_sublist (g : Contents) : (entityKeys g).Sublist (g.map Prod.fst) := by
  induction g with
  | nil => exact List.Sublist.refl _
  | cons e g ih =>
      obtain ⟨k, node⟩ := e
      cases node with
      | members ids => exact ih.cons_cons k
      | adjacency adj => exact ih.cons k

section Totals

variable {g : Contents} (hsorted : Sorted g) (hok : ContentsOk MemoryGraph.Valid g)

include hsorted hok

/-- The number of entities with a member. -/
theorem ncard_entities : {e | membersOf g e ≠ []}.ncard = entityTotal g := by
  have himage : entityKey '' {e | membersOf g e ≠ []} = {k | k ∈ entityKeys g} := by
    ext k
    constructor
    · rintro ⟨e, he, rfl⟩
      rcases hok.find_entityKey e with ⟨_, hm⟩ | ⟨ids, hfind, _⟩
      · exact absurd (by rw [membersOf, hm]; rfl) he
      · exact mem_entityKeys.mpr ⟨ids, mem_of_find hfind⟩
    · intro hk
      obtain ⟨ids, hin⟩ := mem_entityKeys.mp hk
      have hfind := find_of_mem hsorted.nodup_keys hin
      cases hok _ hin with
      | @members name _ hname hs hne =>
          refine ⟨name, ?_, rfl⟩
          simp [membersOf, membersAt, hfind, hne]
  rw [← Set.ncard_image_of_injective _ (fun a b h => entityKey_inj.mp h), himage,
    ncard_mem ((entityKeys_sublist g).nodup hsorted.nodup_keys), entityKeys_length]

/-- Each edge is there once. -/
theorem nodup_outgoingEdges : (outgoingEdges g).Nodup := by
  unfold outgoingEdges
  rw [List.nodup_flatMap]
  constructor
  · rintro ⟨k, node⟩ hin
    cases node with
    | members ids => exact List.nodup_nil
    | adjacency adj =>
        have hvalid : adj.Valid := by
          cases hok _ hin with
          | adjacency hadj => exact hadj
        refine (hvalid.edges.nodup.filter _).map ?_
        intro x y hxy
        exact (Prod.mk.inj hxy).2
  · refine hsorted.imp ?_
    rintro ⟨k, node⟩ ⟨k', node'⟩ hlt x hx hx'
    -- edges under different keys
    have h1 : x.1 = k := by
      cases node with
      | members ids => cases hx
      | adjacency adj =>
          obtain ⟨_, _, rfl⟩ := List.mem_map.mp hx
          rfl
    have h2 : x.1 = k' := by
      cases node' with
      | members ids => cases hx'
      | adjacency adj =>
          obtain ⟨_, _, rfl⟩ := List.mem_map.mp hx'
          rfl
    exact absurd (h1.symm.trans h2) (ne_of_lt hlt)

/-- The number of outgoing edges. -/
theorem ncard_relations :
    {r : Ulid × String × Ulid | ⟨true, r.2.1, r.2.2⟩ ∈ (graphOf g r.1).edges}.ncard = relationTotal g := by
  have hinj : Function.Injective fun r : Ulid × String × Ulid =>
      ((memoryKey r.1, ⟨true, r.2.1, r.2.2⟩) : Bytes × Edge) := by
    rintro ⟨a, k, b⟩ ⟨a', k', b'⟩ h
    simp only [Prod.mk.injEq, Edge.mk.injEq, memoryKey_inj, true_and] at h ⊢
    exact h
  have himage : (fun r : Ulid × String × Ulid => ((memoryKey r.1, ⟨true, r.2.1, r.2.2⟩) : Bytes × Edge)) ''
      {r | ⟨true, r.2.1, r.2.2⟩ ∈ (graphOf g r.1).edges} = {x | x ∈ outgoingEdges g} := by
    ext x
    constructor
    · rintro ⟨⟨a, k, b⟩, hr, rfl⟩
      rcases hok.find_memoryKey a with ⟨_, ha⟩ | ⟨adj, hfind, ha, _⟩
      · simp [graphOf, ha] at hr
      · refine mem_outgoingEdges.mpr ⟨adj, mem_of_find hfind, ?_, rfl⟩
        simpa [graphOf, ha] using hr
    · intro hx
      obtain ⟨adj, hin, he, hout⟩ := mem_outgoingEdges.mp hx
      obtain ⟨key, out, k, b⟩ := x
      simp only at hin he hout
      subst hout
      have hfind := find_of_mem hsorted.nodup_keys hin
      cases hok _ hin with
      | @adjacency a _ hadj =>
          refine ⟨(a, k, b), ?_, rfl⟩
          simpa [graphOf, adjacencyAt, hfind] using he
  rw [← Set.ncard_image_of_injective _ hinj, himage, ncard_mem (nodup_outgoingEdges hsorted hok),
    outgoingEdges_length]

end Totals

/-- Every entity and every outgoing edge takes twenty bytes. -/
theorem totals_le {g : Contents} (hok : ContentsOk MemoryGraph.Valid g) :
    20 * (entityTotal g + relationTotal g) ≤ (g.map fun e => e.2.body.length).sum := by
  induction g with
  | nil => simp [entityTotal, relationTotal]
  | cons e g ih =>
      have hrest := ih fun x hx => hok x (List.mem_cons_of_mem _ hx)
      have hone : 20 * (e.2.entities + e.2.relations) ≤ e.2.body.length := by
        cases hok e List.mem_cons_self with
        | @members name ids _ _ hne =>
            have hpos := List.length_pos_of_ne_nil hne
            simp only [Node.entities, Node.relations, Node.body, Members.encode, List.length_append,
              leBytes_length, flatMap_toBytes_length]
            omega
        | @adjacency id adj hadj =>
            have hlen := length_le_edges hadj.kinds
            have hfilter := List.length_filter_le (fun x : Edge => x.outgoing) adj.edges
            simp only [Node.entities, Node.relations, Node.body, MemoryGraph.body, List.length_append,
              leBytes_length, MemoryGraph.outgoing, EDGE_FIXED_LEN] at hlen ⊢
            omega
      simp only [entityTotal, relationTotal, List.map_cons, List.sum_cons] at hrest ⊢
      omega

/-! ## Runs -/

/-- One call of `addMemory`. -/
structure Addition where
  id : Ulid
  entities : List String
  relations : List (String × Ulid)

/-- The calls of one transaction, in order. -/
def addAll (H : Xxh3) : List Addition → TxnM Unit
  | [] => pure ()
  | a :: rest => do
      addMemory H a.id a.entities a.relations
      addAll H rest

/-- The graph of a transaction is sound. -/
def HoldsSound (H : Xxh3) (t : Txn) : Prop :=
  t.Wf H ∧ ∃ stats g own, InTxn H t stats g own ∧ Sound stats g

/-- The additions of a transaction. -/
theorem wp_addAll {H : Xxh3} (new : List Addition) {t : Txn} (h : HoldsSound H t) :
    Wp (addAll H new) t (fun _ t' => HoldsSound H t') fun _ => True := by
  induction new generalizing t with
  | nil => exact Wp.pure h
  | cons a new ih =>
      obtain ⟨ht, stats, g, own, hin, hsound⟩ := h
      refine Wp.bind ((wp_addMemory ht hin).imp ?_)
      rintro _ t' ⟨haccepts, root, own', hin', hstep⟩
      exact ih ⟨hstep.wf, _, _, own', hin', (hsound.added haccepts).withRoot root⟩

/-- The committed states of a store whose graph starts empty. A transaction with a
failed call is dropped and leaves the state as it was. -/
inductive Run (H : Xxh3) : Committed → Prop where
  | init {c : Committed} (hwf : c.Wf H) (hroot : c.header.graphRootPage = 0) : Run H c
  | commit {c : Committed} {t : Txn} (h : Run H c) (new : List Addition)
      (ht : addAll H new (Txn.begin c) = .ok ((), t)) : Run H t.commit

/-- The readers of a graph: the committed state, or a transaction that adds to it. The
offset of every page of the file is a 64-bit number. -/
inductive Sees (H : Xxh3) : PageSource → Nat → Prop where
  | committed {c : Committed} (h : Run H c)
      (hcap : c.header.pageCount * c.header.pageSize ≤ 2 ^ 64) : Sees H (c.source H) c.header.graphRootPage
  | inTxn {c : Committed} {t : Txn} (h : Run H c) (new : List Addition)
      (ht : addAll H new (Txn.begin c) = .ok ((), t)) (hcap : t.pageCount * t.pageSize ≤ 2 ^ 64) :
      Sees H (t.source H) t.graphRootPage

theorem commit_graphRootPage (t : Txn) : t.commit.header.graphRootPage = t.graphRootPage := by
  cases he : t.isEmpty with
  | false =>
      rw [Txn.commit_header he]
      rfl
  | true =>
      have hp := t.pending_of_isEmpty he
      simp only [PendingHeader.isEmpty, Bool.and_eq_true, Option.isNone_iff_eq_none] at hp
      rw [Txn.commit_of_isEmpty he, Txn.graphRootPage, hp.1.1.1.2]
      rfl

/-- A committed graph, as its pages hold it. -/
structure InStore (H : Xxh3) (c : Committed) (stats : GraphMeta) (g : Contents) (own : List Nat) : Prop where
  graph : At H c.header.pageSize (c.view H) c.header.graphRootPage stats g own
  owns : c.Owns own

section Store

variable {H : Xxh3} {c : Committed} {t : Txn} {stats : GraphMeta} {g : Contents} {own : List Nat}

/-- A transaction starts on the graph of its store. -/
theorem InStore.begin (h : InStore H c stats g own) : InTxn H (Txn.begin c) stats g own where
  graph := h.graph.frame fun p _ => Txn.view_begin c p
  owns := h.owns.begin

/-- A commit leaves the graph of its transaction. -/
theorem InTxn.commit (h : InTxn H t stats g own) (ht : t.Wf H) : InStore H t.commit stats g own where
  graph := by
    rw [Txn.commit_pageSize, commit_graphRootPage]
    exact h.graph.frame fun p hp => ht.view_commit (h.owns.pos p hp) (h.owns.lt p hp)
  owns := h.owns.commit

/-- Every run leaves a sound graph. -/
theorem Run.inStore (h : Run H c) : c.Wf H ∧ ∃ stats g own, InStore H c stats g own ∧ Sound stats g := by
  induction h with
  | init hwf hroot =>
      refine ⟨hwf, .empty, [], [], ⟨?_, ⟨List.nodup_nil, by simp, by simp⟩⟩, sound_empty⟩
      rw [hroot]
      exact at_empty
  | commit _ new ht ih =>
      obtain ⟨hwf, stats, g, own, hin, hsound⟩ := ih
      obtain ⟨ht', stats', g', own', hin', hsound'⟩ :=
        (wp_addAll new ⟨Txn.wf_begin hwf, stats, g, own, hin.begin, hsound⟩).ok ht
      exact ⟨ht'.commit, stats', g', own', hin'.commit ht', hsound'⟩

end Store

/-- In a file of 64-bit offsets the counters do not saturate. -/
theorem Sound.exact {H : Xxh3} {pageSize count root : Nat} {μ : Nat → Option Bytes} {stats : GraphMeta}
    {g : Contents} {own : List Nat} (hsound : Sound stats g) (h : At H pageSize μ root stats g own)
    (hlo : 512 ≤ pageSize) (hnd : own.Nodup) (hlt : ∀ p ∈ own, p < count) (hcap : count * pageSize ≤ 2 ^ 64) :
    stats.entityCount = entityTotal g ∧ stats.relationCount = relationTotal g := by
  have hpages : own.length * pageSize ≤ count * pageSize :=
    Nat.mul_le_mul_right _ (length_le_of_lt hnd hlt)
  have hsize := h.size_le hlo
  have htotals := totals_le hsound.contents
  have h1 := hsound.entityCount
  have h2 := hsound.relationCount
  simp only [COUNT_MAX] at h1 h2
  omega

/-- Every reader finds a sound graph whose counters are the totals. -/
theorem Sees.graph {H : Xxh3} {src : PageSource} {root : Nat} (h : Sees H src root) :
    ∃ stats g own, At H src.pageSize src.view root stats g own ∧ src.Owns own ∧ Sound stats g ∧
      stats.entityCount = entityTotal g ∧ stats.relationCount = relationTotal g := by
  cases h with
  | committed h hcap =>
      obtain ⟨hwf, stats, g, own, hin, hsound⟩ := h.inStore
      have ho := hin.owns.source hwf
      exact ⟨stats, g, own, hin.graph, ho, hsound,
        hsound.exact hin.graph ho.pageSize_ge hin.owns.nodup hin.owns.lt hcap⟩
  | inTxn h new ht hcap =>
      obtain ⟨hwf, stats, g, own, hin, hsound⟩ := h.inStore
      obtain ⟨ht', stats', g', own', hin', hsound'⟩ :=
        (wp_addAll new ⟨Txn.wf_begin hwf, stats, g, own, hin.begin, hsound⟩).ok ht
      have ho := hin'.owns.source ht'
      exact ⟨stats', g', own', hin'.graph, ho, hsound',
        hsound'.exact hin'.graph ho.pageSize_ge hin'.owns.nodup hin'.owns.lt hcap⟩

/-- What a reader sees of the graph: members and entities agree, every edge stands at
both ends and none is a loop, the lists are strictly sorted, and the counters are the
numbers of entities with a member and of outgoing edges. -/
theorem graph_symmetry {H : Xxh3} {src : PageSource} {root : Nat} (h : Sees H src root) :
    ∃ (members : String → List Ulid) (stored : Ulid → Option MemoryGraph) (entityCount relationCount : Nat),
      (∀ e, entityMembers H src root e = .ok (members e)) ∧
      (∀ a, memoryGraph H src root a = .ok (stored a)) ∧
      stats src root = .ok (entityCount, relationCount) ∧
      Symmetric members (fun a => (stored a).getD {}) ∧
      (∀ e, Ascending (fun x : Ulid => x) (members e)) ∧
      (∀ a, Ascending utf8 ((stored a).getD {}).entities ∧
        Ascending Edge.sortKey ((stored a).getD {}).edges) ∧
      entityCount = {e | members e ≠ []}.ncard ∧
      relationCount =
        {r : Ulid × String × Ulid | ⟨true, r.2.1, r.2.2⟩ ∈ ((stored r.1).getD {}).edges}.ncard := by
  obtain ⟨stats, g, own, hat, ho, hsound, hentities, hrelations⟩ := h.graph
  refine ⟨membersOf g, adjacencyAt g, stats.entityCount, stats.relationCount, hat.entityMembers ho,
    hat.memoryGraph ho, hat.stats_eq ho, hsound.symmetric, hsound.contents.members_ascending, ?_, ?_, ?_⟩
  · intro a
    have hvalid := hsound.contents.adjacency_valid (fun _ h => h) a
    exact ⟨hvalid.entities, hvalid.edges⟩
  · rw [hentities]
    exact (ncard_entities hsound.sorted hsound.contents).symm
  · rw [hrelations]
    exact (ncard_relations hsound.sorted hsound.contents).symm

/-- Two memories that share an entity, one related to the other; repetitions count once. -/
theorem graph_symmetry_two_memories :
    ∃ t, addAll ⟨fun _ => 0, fun _ _ => 0⟩
        [⟨1, [String.ofList ['a'], String.ofList ['a']],
          [(String.ofList ['k'], 2), (String.ofList ['k'], 2)]⟩, ⟨2, [String.ofList ['a']], []⟩]
        (Txn.begin (Committed.fresh 8 512)) = .ok ((), t) ∧
      ∃ (members : String → List Ulid) (stored : Ulid → Option MemoryGraph),
        (∀ e, entityMembers ⟨fun _ => 0, fun _ _ => 0⟩ (t.commit.source ⟨fun _ => 0, fun _ _ => 0⟩)
          t.commit.header.graphRootPage e = .ok (members e)) ∧
        (∀ a, memoryGraph ⟨fun _ => 0, fun _ _ => 0⟩ (t.commit.source ⟨fun _ => 0, fun _ _ => 0⟩)
          t.commit.header.graphRootPage a = .ok (stored a)) ∧
        Symmetric members fun a => (stored a).getD {} := by
  have hinit : Run ⟨fun _ => 0, fun _ _ => 0⟩ (Committed.fresh 8 512) :=
    Run.init (Committed.wf_fresh _ (by decide) (by decide) (by decide)) rfl
  have hok : ((addAll ⟨fun _ => 0, fun _ _ => 0⟩
        [⟨1, [String.ofList ['a'], String.ofList ['a']],
          [(String.ofList ['k'], 2), (String.ofList ['k'], 2)]⟩, ⟨2, [String.ofList ['a']], []⟩]
        (Txn.begin (Committed.fresh 8 512))).toOption.any fun r =>
          decide (r.2.commit.header.pageCount * r.2.commit.header.pageSize ≤ 2 ^ 64)) = true := by
    decide +kernel
  cases hrun : addAll ⟨fun _ => 0, fun _ _ => 0⟩
      [⟨1, [String.ofList ['a'], String.ofList ['a']],
        [(String.ofList ['k'], 2), (String.ofList ['k'], 2)]⟩, ⟨2, [String.ofList ['a']], []⟩]
      (Txn.begin (Committed.fresh 8 512)) with
  | error e =>
      rw [hrun] at hok
      cases hok
  | ok r =>
      obtain ⟨⟨⟩, t⟩ := r
      rw [hrun] at hok
      have hcap : t.commit.header.pageCount * t.commit.header.pageSize ≤ 2 ^ 64 := of_decide_eq_true hok
      obtain ⟨members, stored, _, _, hmembers, hstored, _, hsym, _⟩ :=
        graph_symmetry (Sees.committed (hinit.commit _ hrun) hcap)
      exact ⟨t, rfl, members, stored, hmembers, hstored, hsym⟩

end Graph

end EmbedMind
