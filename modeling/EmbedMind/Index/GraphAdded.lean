import EmbedMind.Index.GraphRuns

/-!
# What a call adds to the graph

`Denotes` reads a stored graph as two sets: which memory has which tag, and which memory
relates to which. A call of `addMemory` adds the tags and the relations of its memory and
nothing else (`Denotes.added`), whatever was stored for the memory before.
-/

namespace EmbedMind

open Lib Lib.Assoc Lib.SortedSet

namespace Graph

/-- The tags and the relations of the memories. -/
structure Denotes (graph : Ulid → MemoryGraph) (tags : Set (Ulid × String)) (edges : Set (Ulid × String × Ulid)) :
    Prop where
  tags : ∀ a name, name ∈ (graph a).entities ↔ (a, name) ∈ tags
  edges : ∀ a kind b, ⟨true, kind, b⟩ ∈ (graph a).edges ↔ (a, kind, b) ∈ edges

/-- The empty graph. -/
theorem denotes_empty : Denotes (graphOf []) ∅ ∅ where
  tags := by simp [graphOf, adjacencyAt]
  edges := by simp [graphOf, adjacencyAt]

/-- The graph of a draft: the memory's own adjacency is written last. -/
def Draft.graph (id : Ulid) (d : Draft) : Ulid → MemoryGraph := Function.update (graphOf d.contents) id d.adj

section Steps

variable {id : Ulid} {d : Draft} {tags : Set (Ulid × String)} {edges : Set (Ulid × String × Ulid)}

/-- One more tag. -/
theorem Denotes.tagged (h : Denotes (d.graph id) tags edges) (hadj : d.adj.Valid) (name : String) :
    Denotes ((tagged id d name).graph id) (tags ∪ {(id, name)}) edges := by
  have hself : ∀ x, x ∈ d.adj.entities ↔ (id, x) ∈ tags := by
    intro x
    have hx := h.tags id x
    rwa [Draft.graph, Function.update_self] at hx
  unfold Graph.tagged
  split
  · constructor
    · intro a x
      have hx := h.tags a x
      unfold Draft.graph at hx ⊢
      by_cases ha : a = id
      · subst ha
        simp only [Function.update_self, hadj.mem_insertEntity, hself, Set.mem_union, Set.mem_singleton_iff,
          Prod.mk.injEq, true_and]
        tauto
      · rw [Function.update_of_ne ha] at hx ⊢
        simp only [graphOf_setMembers, hx, Set.mem_union, Set.mem_singleton_iff, Prod.mk.injEq, ha, false_and, or_false]
    · intro a kind b
      have hx := h.edges a kind b
      unfold Draft.graph at hx ⊢
      by_cases ha : a = id
      · subst ha
        rw [Function.update_self] at hx ⊢
        exact hx
      · rw [Function.update_of_ne ha] at hx ⊢
        rw [graphOf_setMembers]
        exact hx
  · rename_i hold
    rw [hadj.insertEntity_new, not_not, hself] at hold
    have hsame : tags ∪ {(id, name)} = tags := Set.union_eq_self_of_subset_right (by simpa using hold)
    rw [hsame]
    exact h

/-- One more relation. -/
theorem Denotes.related (h : Denotes (d.graph id) tags edges) (hd : Holding id d) {r : String × Ulid} (hr : r.2 ≠ id) :
    Denotes ((related id d r).graph id) tags (edges ∪ {(id, r.1, r.2)}) := by
  -- what the draft holds of its own edges, and that the target's adjacency is well formed
  have hself : ∀ kind b, ⟨true, kind, b⟩ ∈ d.adj.edges ↔ (id, kind, b) ∈ edges := by
    intro kind b
    have hx := h.edges id kind b
    rwa [Draft.graph, Function.update_self] at hx
  have htarget : (graphOf d.contents r.2).Valid := hd.contents.adjacency_valid (fun _ h => h) r.2
  unfold Graph.related
  split
  · constructor
    · intro a x
      have hx := h.tags a x
      unfold Draft.graph at hx ⊢
      rw [graphOf_setAdjacency]
      by_cases ha : a = id
      · subst ha
        rw [Function.update_self] at hx ⊢
        exact hx
      · rw [Function.update_of_ne ha] at hx ⊢
        by_cases hb : a = r.2
        · subst hb
          rw [Function.update_self]
          exact hx
        · rw [Function.update_of_ne hb]
          exact hx
    · intro a kind b
      have hx := h.edges a kind b
      unfold Draft.graph at hx ⊢
      rw [graphOf_setAdjacency]
      by_cases ha : a = id
      · subst ha
        simp only [Function.update_self, hd.adj.mem_insertEdge, hself, Set.mem_union, Set.mem_singleton_iff,
          Prod.mk.injEq, Edge.mk.injEq, true_and]
        tauto
      · rw [Function.update_of_ne ha] at hx ⊢
        simp only [Set.mem_union, Set.mem_singleton_iff, Prod.mk.injEq, ha, false_and, or_false]
        by_cases hb : a = r.2
        · -- the target gets an incoming edge
          subst hb
          rw [Function.update_self, show ((adjacencyAt d.contents r.2).getD {}) = graphOf d.contents r.2 from rfl,
            htarget.mem_insertEdge, ← hx]
          simp
        · rw [Function.update_of_ne hb]
          exact hx
  · rename_i hold
    rw [hd.adj.insertEdge_new, not_not, hself] at hold
    -- the edge was there already
    have hsame : edges ∪ {(id, r.1, r.2)} = edges := Set.union_eq_self_of_subset_right (by simpa using hold)
    rw [hsame]
    exact h

/-- The tags of a memory. -/
theorem Denotes.foldl_tagged (names : List String) (hnames : ∀ x ∈ names, NameOk x)
    (h : Denotes (d.graph id) tags edges) (hd : Holding id d) :
    Denotes ((names.foldl (Graph.tagged id) d).graph id) (tags ∪ {x | x.1 = id ∧ x.2 ∈ names}) edges := by
  induction names generalizing d tags with
  | nil => simpa using h
  | cons name names ih =>
      have hnext := ih (fun y hy => hnames y (List.mem_cons_of_mem _ hy)) (h.tagged hd.adj name)
        (hd.tagged (hnames name List.mem_cons_self))
      have hset : tags ∪ {(id, name)} ∪ {x | x.1 = id ∧ x.2 ∈ names} = tags ∪ {x | x.1 = id ∧ x.2 ∈ name :: names} := by
        ext ⟨a, x⟩
        simp only [Set.mem_union, Set.mem_singleton_iff, Prod.mk.injEq, Set.mem_setOf_eq, List.mem_cons]
        tauto
      rw [hset] at hnext
      exact hnext

/-- The relations of a memory. -/
theorem Denotes.foldl_related (rs : List (String × Ulid)) (hkinds : ∀ r ∈ rs, KindOk r.1) (hothers : ∀ r ∈ rs, r.2 ≠ id)
    (h : Denotes (d.graph id) tags edges) (hd : Holding id d) :
    Denotes ((rs.foldl (Graph.related id) d).graph id) tags (edges ∪ {x | x.1 = id ∧ x.2 ∈ rs}) := by
  induction rs generalizing d edges with
  | nil => simpa using h
  | cons r rs ih =>
      have hnext := ih (fun y hy => hkinds y (List.mem_cons_of_mem _ hy))
        (fun y hy => hothers y (List.mem_cons_of_mem _ hy)) (h.related hd (hothers r List.mem_cons_self))
        (hd.related (hkinds r List.mem_cons_self) (hothers r List.mem_cons_self))
      have hset : edges ∪ {(id, r.1, r.2)} ∪ {x | x.1 = id ∧ x.2 ∈ rs} = edges ∪ {x | x.1 = id ∧ x.2 ∈ r :: rs} := by
        ext ⟨a, kind, b⟩
        simp only [Set.mem_union, Set.mem_singleton_iff, Prod.mk.injEq, Set.mem_setOf_eq, List.mem_cons, Prod.ext_iff]
        tauto
      rw [hset] at hnext
      exact hnext

end Steps

/-- A call adds the tags and the relations of its memory. -/
theorem Denotes.added {stats : GraphMeta} {g : Contents} {tags : Set (Ulid × String)} {edges : Set (Ulid × String × Ulid)}
    (h : Denotes (graphOf g) tags edges) (hsound : Sound stats g) {id : Ulid} {entities : List String}
    {relations : List (String × Ulid)} (ha : Accepts id entities relations) :
    Denotes (graphOf (added id entities relations stats g).2) (tags ∪ {x | x.1 = id ∧ x.2 ∈ entities})
      (edges ∪ {x | x.1 = id ∧ x.2 ∈ relations}) := by
  have hnames : ∀ x ∈ distinct utf8 entities, NameOk x := fun x hx => ha.names x ((mem_distinct utf8).mp hx)
  have hkinds : ∀ r ∈ distinct relationKey relations, KindOk r.1 :=
    fun r hr => ha.kinds r ((mem_distinct relationKey).mp hr)
  have hothers : ∀ r ∈ distinct relationKey relations, r.2 ≠ id :=
    fun r hr => ha.others r ((mem_distinct relationKey).mp hr)
  unfold Graph.added
  by_cases hempty : (entities.isEmpty && relations.isEmpty) = true
  · rw [if_pos hempty]
    rw [Bool.and_eq_true, List.isEmpty_iff, List.isEmpty_iff] at hempty
    rcases hempty with ⟨rfl, rfl⟩
    simpa using h
  · rw [if_neg hempty]
    dsimp only
    rw [graphOf_setAdjacency]
    have hstart : Denotes (Draft.graph id ⟨stats, g, (adjacencyAt g id).getD {}⟩) tags edges := by
      have hself : Function.update (graphOf g) id ((adjacencyAt g id).getD {}) = graphOf g :=
        Function.update_eq_self id (graphOf g)
      rw [Draft.graph, hself]
      exact h
    have htagged := hstart.foldl_tagged _ hnames (hsound.holding id)
    have hall := htagged.foldl_related _ hkinds hothers (Holding.foldl_tagged hnames (hsound.holding id))
    simp only [mem_distinct] at hall
    exact hall

end Graph

end EmbedMind
