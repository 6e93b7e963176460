import EmbedMind.Index.HnswLimits

/-!
# Does a search fill its result?

A search widens its beam until it has enough hits or the beam is as wide as the index.
So wide a beam meets every node that the links of layer 0 reach from the node at which
the descent ends, and no other. `fills_up_iff` says that the results are complete for
exactly the indexes whose links reach a node of every record. A node can lose all links
that lead to it: after enough equal vectors, the next different one does
(`unreachable_vector`).
-/

namespace EmbedMind

open Lib

namespace Hnsw

section Walk

variable {F : Floats} {src : PageSource} {dims : Nat} {query : List F32} {layer : Nat} {S : Nat → Prop}
  {T : Nat × F32 → Prop} {K : Ctx → Prop} {E : Error → Prop}

/-! ## A beam as wide as the layer -/

/-- All links of a page lead to visited pages. -/
def Done (links : Nat → List Nat) (visited : List Nat) (p : Nat) : Prop := ∀ q ∈ links p, q ∈ visited

/-- The state of a search whose beam has not been too narrow for a candidate: the results
are the visited pages, and those not expanded yet are in the frontier or in `open_`. -/
structure Beam.Whole (T : Nat × F32 → Prop) (pages : List Nat) (links : Nat → List Nat) (open_ : List Nat) (b : Beam) :
    Prop where
  frontier : ∀ x ∈ b.frontier.toList, T x
  results : (b.results.toList.map Prod.fst).Perm b.visited
  nodup : b.visited.Nodup
  pages : b.visited ⊆ pages
  expanded : ∀ p ∈ b.visited, p ∈ b.frontier.toList.map Prod.fst ∨ p ∈ open_ ∨ Done links b.visited p

variable {pages : List Nat} {links : Nat → List Nat} {open_ : List Nat} {b : Beam} {ef : Nat}

/-- What is done stays so when more is visited. -/
theorem Done.mono {visited visited' : List Nat} {p : Nat} (h : Done links visited p) (hsub : visited ⊆ visited') :
    Done links visited' p :=
  fun q hq => hsub (h q hq)

/-- The beam has room for a page that is new. -/
theorem Beam.Whole.room (h : b.Whole T pages links open_) (hwide : pages.length ≤ ef) {p : Nat} (hp : p ∈ pages)
    (hnew : p ∉ b.visited) : b.results.size < ef := by
  have hnodup : (p :: b.visited).Nodup := List.nodup_cons.mpr ⟨hnew, h.nodup⟩
  have hsub : p :: b.visited ⊆ pages := List.cons_subset.mpr ⟨hp, h.pages⟩
  have hle := (hnodup.subperm hsub).length_le
  have hsize := h.results.length_eq
  rw [List.length_map, Array.length_toList] at hsize
  rw [List.length_cons] at hle
  omega

/-- A candidate that is taken. -/
theorem Beam.Whole.add (h : b.Whole T pages links open_) (hwide : pages.length ≤ ef) {cand : Nat × F32} (hT : T cand)
    (hp : cand.1 ∈ pages) (hnew : cand.1 ∉ b.visited) :
    Beam.Whole T pages links open_ (Beam.add F { b with visited := cand.1 :: b.visited } ef cand) := by
  have hroom := h.room hwide hp hnew
  have hfrontier := BinaryHeap.push_perm (frontierCmp F) cand b.frontier
  have hpush := BinaryHeap.push_perm (worstCmp F) cand b.results
  -- there is room for every page, so nothing is dropped
  have hkept : (Beam.add F { b with visited := cand.1 :: b.visited } ef cand).results =
      BinaryHeap.push (worstCmp F) cand b.results := by
    have hsize := hpush.length_eq
    rw [Array.length_toList, List.length_cons, Array.length_toList] at hsize
    have hfits : ¬ ef < (BinaryHeap.push (worstCmp F) cand b.results).size := by omega
    unfold Beam.add
    exact if_neg hfits
  constructor
  case frontier =>
    intro x hx
    rcases List.mem_cons.mp (hfrontier.mem_iff.mp hx) with rfl | hx
    · exact hT
    · exact h.frontier x hx
  case results =>
    rw [hkept]
    exact (hpush.map Prod.fst).trans (h.results.cons cand.1)
  case nodup => exact List.nodup_cons.mpr ⟨hnew, h.nodup⟩
  case pages => exact List.cons_subset.mpr ⟨hp, h.pages⟩
  case expanded =>
    intro p hp
    rcases List.mem_cons.mp hp with rfl | hp
    · exact Or.inl (List.mem_map_of_mem (hfrontier.mem_iff.mpr List.mem_cons_self))
    -- a visited page is waiting, being expanded or done
    · rcases h.expanded p hp with hin | hopen | hdone
      · rcases List.mem_map.mp hin with ⟨x, hx, rfl⟩
        exact Or.inl (List.mem_map_of_mem (hfrontier.mem_iff.mpr (List.mem_cons_of_mem _ hx)))
      · exact Or.inr (Or.inl hopen)
      · exact Or.inr (Or.inr (hdone.mono (List.subset_cons_self _ _)))

/-- The page that is expanded leaves the frontier. -/
theorem Beam.Whole.pop (h : b.Whole T pages links []) {x : Nat × F32} {frontier : Array (Nat × F32)}
    (hpop : BinaryHeap.pop (frontierCmp F) b.frontier = some (x, frontier)) :
    T x ∧ Beam.Whole T pages links [x.1] { b with frontier } := by
  have hperm := BinaryHeap.pop_perm _ hpop
  refine ⟨h.frontier x (hperm.mem_iff.mpr List.mem_cons_self), ?_, h.results, h.nodup, h.pages, ?_⟩
  · intro y hy
    exact h.frontier y (hperm.mem_iff.mpr (List.mem_cons_of_mem _ hy))
  · intro p hp
    rcases h.expanded p hp with hin | hopen | hdone
    · rcases List.mem_map.mp hin with ⟨y, hy, rfl⟩
      rcases List.mem_cons.mp (hperm.mem_iff.mp hy) with rfl | hy
      · exact Or.inr (Or.inl List.mem_cons_self)
      · exact Or.inl (List.mem_map_of_mem hy)
    · cases hopen
    · exact Or.inr (Or.inr hdone)

/-- A page whose links have all been visited is expanded. -/
theorem Beam.Whole.close {p : Nat} (h : b.Whole T pages links [p]) (hdone : Done links b.visited p) :
    b.Whole T pages links [] where
  frontier := h.frontier
  results := h.results
  nodup := h.nodup
  pages := h.pages
  expanded := by
    intro q hq
    rcases h.expanded q hq with hin | hopen | hq
    · exact Or.inl hin
    · rw [List.mem_singleton.mp hopen]
      exact Or.inr (Or.inr hdone)
    · exact Or.inr (Or.inr hq)

/-- What an exhaustive search has found. -/
structure Exhausted (links : Nat → List Nat) (start : List Nat) (b : Beam) : Prop where
  start : start ⊆ b.results.toList.map Prod.fst
  closed : ∀ p ∈ b.results.toList.map Prod.fst, Done links (b.results.toList.map Prod.fst) p

variable (hpages : ∀ x, T x → x.1 ∈ pages)

include hpages

/-- One visit. -/
theorem Space.visit_whole (h : Space F src dims query layer S T K E) (hwide : pages.length ≤ ef)
    (hb : b.Whole T pages links open_) {q : Nat} (hq : S q) {ctx : Ctx} (hctx : K ctx) :
    Wp (Beam.visit F src dims query ef b q) ctx
      (fun b' ctx' => K ctx' ∧ b'.Whole T pages links open_ ∧ q ∈ b'.visited ∧ b.visited ⊆ b'.visited) E := by
  unfold Beam.visit
  split
  · rename_i hin
    exact Wp.pure ⟨hctx, hb, hin, List.Subset.refl _⟩
  · rename_i hnew
    refine Wp.bind ((h.sim q ctx hq hctx).imp ?_)
    rintro sim ctx' ⟨hctx', hT⟩
    have hroom := hb.room hwide (hpages _ hT) hnew
    have hadd : Beam.shouldAdd F { b with visited := q :: b.visited } ef sim = true := by
      unfold Beam.shouldAdd
      rw [decide_eq_true hroom, Bool.true_or]
    refine Wp.pure ⟨hctx', ?_⟩
    rw [if_pos hadd]
    exact ⟨hb.add hwide hT (hpages _ hT) hnew, List.mem_cons_self, List.subset_cons_self _ _⟩

/-- The links of a page are visited one after the other. -/
theorem Space.visit_links (h : Space F src dims query layer S T K E) (hwide : pages.length ≤ ef)
    (list : List Nat) (hlist : ∀ q ∈ list, S q) (hb : b.Whole T pages links open_) {ctx : Ctx} (hctx : K ctx) :
    Wp (list.foldlM (Beam.visit F src dims query ef) b) ctx
      (fun b' ctx' => K ctx' ∧ b'.Whole T pages links open_ ∧ list ⊆ b'.visited ∧ b.visited ⊆ b'.visited) E := by
  induction list generalizing b ctx with
  | nil => exact Wp.pure ⟨hctx, hb, List.nil_subset _, List.Subset.refl _⟩
  | cons q list ih =>
      rw [List.foldlM_cons]
      refine Wp.bind ((h.visit_whole hpages hwide hb (hlist q List.mem_cons_self) hctx).imp ?_)
      rintro b₁ ctx₁ ⟨hctx₁, hb₁, hq, hsub₁⟩
      refine (ih (fun x hx => hlist x (List.mem_cons_of_mem _ hx)) hb₁ hctx₁).imp ?_
      rintro b₂ ctx₂ ⟨hctx₂, hb₂, hrest, hsub₂⟩
      exact ⟨hctx₂, hb₂, List.cons_subset.mpr ⟨hsub₂ hq, hrest⟩, List.Subset.trans hsub₁ hsub₂⟩

/-- A search whose beam is as wide as the layer visits all that the links reach. -/
theorem Space.expand_whole (h : Space F src dims query layer S T K E)
    (hlinks : ∀ x ctx, T x → K ctx → Wp (Ctx.node src x.1) ctx
      (fun n ctx' => K ctx' ∧ n.layers[layer]?.getD [] = links x.1) E)
    (hS : ∀ p ∈ pages, ∀ q ∈ links p, q ∈ pages) (hwide : pages.length ≤ ef) (hfuel : E outOfFuel) {fuel : Nat}
    (hb : b.Whole T pages links []) {start : List Nat} (hstart : start ⊆ b.visited) {ctx : Ctx} (hctx : K ctx) :
    Wp (Hnsw.expand F src dims query layer ef fuel b) ctx (fun b' ctx' => K ctx' ∧ Exhausted links start b') E := by
  induction fuel generalizing b ctx with
  | zero => exact Wp.throw hfuel
  | succ fuel ih =>
      unfold Hnsw.expand
      cases hpop : BinaryHeap.pop (frontierCmp F) b.frontier with
      | none =>
          -- the frontier is empty: everything is expanded
          rw [BinaryHeap.pop_eq_none] at hpop
          refine Wp.pure ⟨hctx, ?_, ?_⟩
          · exact fun p hp => hb.results.symm.subset (hstart hp)
          · intro p hp
            rcases hb.expanded p (hb.results.subset hp) with hin | hopen | hdone
            · rw [hpop] at hin
              cases hin
            · cases hopen
            · exact hdone.mono hb.results.symm.subset
      | some r =>
          rcases r with ⟨x, frontier⟩
          rcases hb.pop hpop with ⟨hT, hrest⟩
          dsimp only
          split
          · -- the beam is full: every page is in it
            rename_i hfull
            have hsize := hb.results.length_eq
            rw [List.length_map, Array.length_toList] at hsize
            have hall : pages ⊆ b.visited :=
              ((hb.nodup.subperm hb.pages).perm_of_length_le (by omega)).symm.subset
            refine Wp.pure ⟨hctx, ?_, ?_⟩
            · exact fun p hp => hb.results.symm.subset (hstart hp)
            · intro p hp q hq
              have hpage := hb.pages (hb.results.subset hp)
              exact hb.results.symm.subset (hall (hS p hpage q hq))
          · have hboth := (h.node x ctx hT hctx).and (hlinks x ctx hT hctx)
            refine Wp.bind (hboth.imp ?_)
            rintro n ctx₁ ⟨⟨hctx₁, hin⟩, _, hnode⟩
            cases hlayer : n.layers[layer]? with
            | none =>
                rw [hlayer] at hnode
                have hdone : Done links b.visited x.1 := by
                  intro q hq
                  rw [← hnode] at hq
                  cases hq
                exact ih (hrest.close hdone) hstart hctx₁
            | some list =>
                rw [hlayer] at hnode
                refine Wp.bind ((h.visit_links hpages hwide list (hin list hlayer) hrest hctx₁).imp ?_)
                rintro b' ctx₂ ⟨hctx₂, hb', hlist, hsub⟩
                have hdone : Done links b'.visited x.1 := by
                  intro q hq
                  rw [← hnode] at hq
                  exact hlist hq
                exact ih (hb'.close hdone) (List.Subset.trans hstart hsub) hctx₂

/-- The candidates of so wide a search are closed under the links. -/
theorem Space.searchLayer_whole (h : Space F src dims query layer S T K E)
    (hlinks : ∀ x ctx, T x → K ctx → Wp (Ctx.node src x.1) ctx
      (fun n ctx' => K ctx' ∧ n.layers[layer]?.getD [] = links x.1) E)
    (hS : ∀ p ∈ pages, ∀ q ∈ links p, q ∈ pages) (hwide : pages.length ≤ ef) (hfuel : E outOfFuel)
    {entry : Nat × F32} (hT : T entry) {ctx : Ctx} (hctx : K ctx) :
    Wp (Hnsw.searchLayer F src dims [entry] layer query ef) ctx
      (fun r ctx' => K ctx' ∧ entry.1 ∈ r.map Prod.fst ∧
        ∀ p ∈ r.map Prod.fst, Done links (r.map Prod.fst) p) E := by
  have hfrontier := BinaryHeap.ofList_perm (frontierCmp F) [entry]
  have hresults := BinaryHeap.ofList_perm (worstCmp F) [entry]
  have hstart : Beam.Whole T pages links []
      { visited := [entry].map Prod.fst
        frontier := BinaryHeap.ofList (frontierCmp F) [entry]
        results := BinaryHeap.ofList (worstCmp F) [entry] } := by
    constructor
    case frontier =>
      intro x hx
      rwa [List.mem_singleton.mp (hfrontier.mem_iff.mp hx)]
    case results => exact hresults.map Prod.fst
    case nodup => exact List.nodup_singleton _
    case pages => exact List.cons_subset.mpr ⟨hpages entry hT, List.nil_subset _⟩
    case expanded =>
      intro p hp
      exact Or.inl ((hfrontier.map Prod.fst).mem_iff.mpr hp)
  have hpositive : pages.length ≤ max ef 1 := hwide.trans (le_max_left _ _)
  refine Wp.bind ((h.expand_whole hpages hlinks hS hpositive hfuel hstart (List.Subset.refl _) hctx).imp ?_)
  rintro b ctx' ⟨hctx', hb⟩
  have hperm := (List.perm_insertionSort (fun a b : Nat × F32 => F.cmp b.2 a.2 ≠ .gt) b.results.toList).map Prod.fst
  refine Wp.pure ⟨hctx', hperm.symm.subset (hb.start List.mem_cons_self), ?_⟩
  intro p hp
  exact (hb.closed p (hperm.subset hp)).mono hperm.symm.subset

end Walk

/-! ## What the links reach -/

/-- The pages that the node on a page links to at layer 0. -/
def linksAt (src : PageSource) (pageNo : Nat) : List Nat :=
  match nodeAt src pageNo with
  | .ok node => node.layers[0]?.getD []
  | .error _ => []

/-- A way along the links of layer 0. -/
def Reaches (src : PageSource) (p q : Nat) : Prop := Relation.ReflTransGen (fun p q => q ∈ linksAt src p) p q

/-- Wherever the descent for a query ends, the links of layer 0 reach a node of every
record from there. -/
def Covers (F : Floats) (src : PageSource) (dims root : Nat) (ids : List Ulid) : Prop :=
  ∀ query p, query.length = dims → Lands F src dims root query p → ∀ id ∈ ids, ∃ q node, Reaches src p q ∧
    nodeAt src q = .ok node ∧ node.recordId = id

/-- Every search finds as many hits as it may: one for every accepted record, or `k`. -/
def FillsUp (F : Floats) (src : PageSource) (dims root : Nat) (ids : List Ulid) : Prop :=
  ∀ query params filter k, query.length = dims → 1 ≤ k → k ≤ 2 ^ 32 →
    ∃ o hits, search F src dims root query k params filter = .ok o ∧ o.hits = some hits ∧
      hits.length = min k (ids.dedup.filter filter).length

section Index

variable {H : Xxh3} {F : Floats} {src : PageSource} {dims root m top : Nat} {stats : HnswMeta} {es : List Entry}
  {own : List Nat} {query : List F32}

/-- The node of an entry. -/
theorem nodeAt_entry (hs : Searchable src dims es) {e : Entry} (he : e ∈ es) : nodeAt src e.page = .ok e.node := by
  rcases hs.readable e he with ⟨⟨b, hb, hdecode⟩, _⟩
  unfold nodeAt
  rw [hb, ok_bind, hdecode]

/-- The links of an entry. -/
theorem linksAt_entry (hs : Searchable src dims es) {e : Entry} (he : e ∈ es) :
    linksAt src e.page = e.node.layers[0]?.getD [] := by
  unfold linksAt
  rw [nodeAt_entry hs he]

/-- The links of an entry lead to entries. -/
theorem linksAt_closed (hs : Searchable src dims es) (hwired : Wired m top es) {p q : Nat}
    (hp : ∃ e ∈ es, e.page = p ∧ 0 < e.node.layers.length) (hq : q ∈ linksAt src p) :
    ∃ e ∈ es, e.page = q ∧ 0 < e.node.layers.length := by
  rcases hp with ⟨e, he, rfl, hheight⟩
  rw [linksAt_entry hs he] at hq
  cases hlayer : e.node.layers[0]? with
  | none =>
      rw [hlayer] at hq
      cases hq
  | some list =>
      rw [hlayer] at hq
      exact (hwired.closed 0).step e he ⟨e, he, rfl, hheight⟩ list hlayer q hq

/-- What a search of layer 0 from a node finds: nodes that the links reach, and all of
them if its beam is as wide as the index. -/
structure Explored (src : PageSource) (es : List Entry) (p ef : Nat) (candidates : List (Nat × F32)) : Prop where
  nodes : Nodes0 es candidates
  reached : ∀ x ∈ candidates, Reaches src p x.1
  all : es.length ≤ ef → ∀ q, Reaches src p q → q ∈ candidates.map Prod.fst

/-- The nodes that are reached are closed under the links. -/
theorem closed_reaches (hs : Searchable src dims es) (hwired : Wired m top es) (p : Nat) :
    Closed es 0 (fun q => Reaches src p q ∧ ∃ e ∈ es, e.page = q ∧ 0 < e.node.layers.length) where
  entry := by
    intro q hq
    rcases hq with ⟨_, e, he, hpage, _⟩
    exact ⟨e, he, hpage⟩
  step := by
    intro e he hq list hlist q hin
    have hlink : q ∈ linksAt src e.page := by
      rw [linksAt_entry hs he, hlist]
      exact hin
    exact ⟨hq.1.tail hlink, linksAt_closed hs hwired hq.2 hlink⟩

/-- A beam that is wide enough meets all that is linked. -/
theorem wp_searchLayer_all (hs : Searchable src dims es) (hwired : Wired m top es) {entry : Nat × F32}
    (hentry : ∃ e ∈ es, e.page = entry.1 ∧ 0 < e.node.layers.length) {ef : Nat} (hwide : es.length ≤ ef) {ctx : Ctx}
    (hctx : Coherent es ctx) :
    Wp (searchLayer F src dims [entry] 0 query ef) ctx
      (fun r _ => ∀ q, Reaches src entry.1 q → q ∈ r.map Prod.fst) fun _ => True := by
  have hspace : Space F src dims query 0 _ _ _ _ := space_pages hs.readable hs.distinct (hwired.closed 0)
  have hpages : ∀ x : Nat × F32, (∃ e ∈ es, e.page = x.1 ∧ 0 < e.node.layers.length) →
      x.1 ∈ (es.filter fun e => 0 < e.node.layers.length).map Entry.page := by
    intro x hx
    rcases hx with ⟨e, he, hpage, hheight⟩
    rw [← hpage]
    exact List.mem_map_of_mem (List.mem_filter.mpr ⟨he, decide_eq_true hheight⟩)
  have hlinks : ∀ (x : Nat × F32) ctx, (∃ e ∈ es, e.page = x.1 ∧ 0 < e.node.layers.length) → Coherent es ctx →
      Wp (Ctx.node src x.1) ctx (fun n ctx' => Coherent es ctx' ∧ n.layers[0]?.getD [] = linksAt src x.1)
        fun _ => False := by
    intro x ctx hx hctx
    rcases hx with ⟨e, he, hpage, _⟩
    rw [← hpage]
    refine (wp_node hs.readable hs.distinct he hctx).imp ?_
    rintro n ctx' ⟨rfl, hctx'⟩
    exact ⟨hctx', (linksAt_entry hs he).symm⟩
  have hclosed : ∀ p ∈ (es.filter fun e => 0 < e.node.layers.length).map Entry.page, ∀ q ∈ linksAt src p,
      q ∈ (es.filter fun e => 0 < e.node.layers.length).map Entry.page := by
    intro p hp q hq
    rcases List.mem_map.mp hp with ⟨e, he, rfl⟩
    have hin := List.mem_filter.mp he
    have hnext := linksAt_closed hs hwired ⟨e, hin.1, rfl, of_decide_eq_true hin.2⟩ hq
    exact hpages (q, entry.2) hnext
  have hsize : ((es.filter fun e => 0 < e.node.layers.length).map Entry.page).length ≤ ef := by
    rw [List.length_map]
    exact (List.length_filter_le _ _).trans hwide
  have hweak : Space F src dims query 0 (fun p => ∃ e ∈ es, e.page = p ∧ 0 < e.node.layers.length)
      (fun x => ∃ e ∈ es, e.page = x.1 ∧ 0 < e.node.layers.length) (Coherent es) fun _ => True := by
    constructor
    · intro x ctx hx hctx
      exact (hspace.node x ctx hx hctx).mono (fun _ _ h => h) fun _ _ => trivial
    · intro q ctx hq hctx
      exact (hspace.sim q ctx hq hctx).mono (fun _ _ h => h) fun _ _ => trivial
  refine (hweak.searchLayer_whole hpages ?_ hclosed hsize trivial hentry hctx).imp ?_
  · intro x ctx hx hctx
    exact (hlinks x ctx hx hctx).mono (fun _ _ h => h) fun _ _ => trivial
  · intro r _ hr q hq
    rcases hr with ⟨_, hstart, hdone⟩
    -- along the way from the entry
    induction hq with
    | refl => exact hstart
    | tail _ hlink ih => exact hdone _ ih _ hlink

/-- A beam of any width, and what it has met. -/
theorem wp_searchLayer_explored (hs : Searchable src dims es) (hwired : Wired m top es) {entry : Nat × F32}
    (hentry : ∃ e ∈ es, e.page = entry.1 ∧ 0 < e.node.layers.length) (ef : Nat) {ctx : Ctx} (hctx : Coherent es ctx) :
    Wp (searchLayer F src dims [entry] 0 query ef) ctx
      (fun r ctx' => Coherent es ctx' ∧ Explored src es entry.1 ef r) fun _ => False := by
  have hnodes : Wp (searchLayer F src dims [entry] 0 query ef) ctx _ _ := wp_searchLayer_index hs hwired hentry ef hctx
  have hreached : Wp (searchLayer F src dims [entry] 0 query ef) ctx
      (fun r ctx' => Coherent es ctx' ∧ (∀ x ∈ r, Reaches src entry.1 x.1 ∧
        ∃ e ∈ es, e.page = x.1 ∧ 0 < e.node.layers.length) ∧ (r.map Prod.fst).Nodup) fun _ => False := by
    have hnodup : ([entry].map Prod.fst).Nodup := List.nodup_singleton _
    refine wp_searchLayer hs.readable hs.distinct (closed_reaches hs hwired entry.1) hs.size hnodup ?_ hctx
    intro x hx
    rw [List.mem_singleton.mp hx]
    exact ⟨Relation.ReflTransGen.refl, hentry⟩
  have hall : Wp (searchLayer F src dims [entry] 0 query ef) ctx
      (fun r _ => es.length ≤ ef → ∀ q, Reaches src entry.1 q → q ∈ r.map Prod.fst) fun _ => True := by
    by_cases hwide : es.length ≤ ef
    · exact (wp_searchLayer_all hs hwired hentry hwide hctx).imp fun r _ hr _ => hr
    · exact (hnodes.mono (fun r _ _ h => absurd h hwide) fun _ _ => trivial)
  refine ((hnodes.and hreached).and hall).imp ?_
  intro r ctx' h
  rcases h with ⟨⟨⟨hctx', hn⟩, _, hr, _⟩, ha⟩
  exact ⟨hctx', hn, fun x hx => (hr x hx).1, ha⟩

/-- The search of an empty index. -/
theorem search_none (h : At H src.pageSize dims src.view root stats [] own) (ho : src.Owns own)
    (hlen : query.length = dims) (k : Nat) (params : SearchParams) (filter : Ulid → Bool) :
    search F src dims root query k params filter = .ok .noIndex := by
  have hcount : stats.nodeCount = 0 := h.count
  unfold search
  rw [if_neg (by rw [hlen]; exact fun hne => hne rfl), h.loadMeta ho.pageSize_ge, ok_bind]
  split_ifs with hroot
  · rfl
  · dsimp only
    rw [if_pos hcount]

/-- The record of a page that the search reads. -/
theorem recordOf_nodeAt (hs : Searchable src dims es) {q : Nat} {node : HnswNode} (hq : ∃ e ∈ es, e.page = q)
    (hnode : nodeAt src q = .ok node) : recordOf es q = node.recordId := by
  rcases hq with ⟨e, he, rfl⟩
  rw [nodeAt_entry hs he] at hnode
  cases hnode
  exact recordOf_eq hs.distinct he

/-- The hits of the last round are enough, if the index can be covered. -/
theorem Round.Ends.complete {k p : Nat} {filter : Ulid → Bool} {r : Round} (hs : Searchable src dims es)
    (hcount : stats.nodeCount = es.length) (hsize : es.length ≤ 2 ^ 16 - 1) (hk : 1 ≤ k)
    (h : r.Ends F (recordOf es) stats k filter (Explored src es p))
    (hcover : ∀ id ∈ es.map fun e => e.node.recordId, ∃ q node, Reaches src p q ∧ nodeAt src q = .ok node ∧
      node.recordId = id) :
    r.hits.length = min k (((es.map fun e => e.node.recordId).dedup.filter filter).length) := by
  rcases h.hits with ⟨picked, hpicked, hp⟩
  have hwithin := hp.within hk
  -- a hit is an accepted record
  have hsub : (picked.map fun x => recordOf es x.1) ⊆ (es.map fun e => e.node.recordId).dedup.filter filter := by
    intro id hid
    rcases List.mem_map.mp hid with ⟨x, hx, rfl⟩
    rcases h.candidates.nodes.entries x (hp.sub.subset hx) with ⟨e, he, hpage⟩
    refine List.mem_filter.mpr ⟨List.mem_dedup.mpr ?_, hp.accepted x hx⟩
    rw [← hpage, recordOf_eq hs.distinct he]
    exact List.mem_map_of_mem he
  have hle := (hp.nodup.subperm hsub).length_le
  rw [List.length_map] at hle
  rw [hpicked, List.length_map]
  by_cases hfull : k ≤ picked.length
  · omega
  -- the last round has met a node of every record
  have hmet : ∀ id ∈ es.map fun e => e.node.recordId, ∃ y ∈ r.candidates, recordOf es y.1 = id := by
    intro id hid
    rcases h.last with hlast | hlast | hlast
    · rw [hpicked, List.length_map] at hlast
      exact absurd hlast hfull
    · have hwide : es.length ≤ r.ef := by
        unfold efCeiling at hlast
        omega
      rcases hcover id hid with ⟨q, node, hreach, hnode, hrecord⟩
      have hin := h.candidates.all hwide q hreach
      rcases List.mem_map.mp hin with ⟨y, hy, rfl⟩
      refine ⟨y, hy, ?_⟩
      rw [recordOf_nodeAt hs (h.candidates.nodes.entries y hy) hnode, hrecord]
    · rcases List.mem_map.mp hid with ⟨e, he, rfl⟩
      have hpages : r.candidates.map Prod.fst ⊆ es.map Entry.page := by
        intro q hq
        rcases List.mem_map.mp hq with ⟨y, hy, rfl⟩
        rcases h.candidates.nodes.entries y hy with ⟨e', he', hpage⟩
        rw [← hpage]
        exact List.mem_map_of_mem he'
      have hperm := (h.candidates.nodes.distinct.subperm hpages).perm_of_length_le (by
        rw [List.length_map, List.length_map]
        omega)
      rcases List.mem_map.mp (hperm.symm.subset (List.mem_map_of_mem he)) with ⟨y, hy, hpage⟩
      exact ⟨y, hy, by rw [hpage, recordOf_eq hs.distinct he]⟩
  have hall : (es.map fun e => e.node.recordId).dedup.filter filter ⊆ picked.map fun x => recordOf es x.1 := by
    intro id hid
    rcases List.mem_filter.mp hid with ⟨hid, haccept⟩
    rcases hmet id (List.mem_dedup.mp hid) with ⟨y, hy, rfl⟩
    rcases hp.filled with ⟨_, hfilled⟩ | hfilled
    · omega
    · rcases hfilled y hy haccept with hin | ⟨x, hx, hrecord⟩
      · cases hin
      · rw [← hrecord]
        exact List.mem_map_of_mem hx
  have hge := (((List.nodup_dedup _).filter filter).subperm hall).length_le
  rw [List.length_map] at hge
  omega

/-- The descent for a query ends at one node. -/
theorem Lands.unique {p q : Nat} (hp : Lands F src dims root query p) (hq : Lands F src dims root query q) : p = q := by
  rcases hp with ⟨stats₁, sim₁, ctx₁, hload₁, hrun₁⟩
  rcases hq with ⟨stats₂, sim₂, ctx₂, hload₂, hrun₂⟩
  rw [hload₁] at hload₂
  cases hload₂
  rw [hrun₁] at hrun₂
  cases hrun₂
  rfl

/-- The indexes of which searches return complete results. -/
theorem At.fillsUp_iff (h : At H src.pageSize dims src.view root stats es own) (ho : src.Owns own)
    (hsize : es.length ≤ 2 ^ 16 - 1) :
    FillsUp F src dims root (es.map fun e => e.node.recordId) ↔
      Covers F src dims root (es.map fun e => e.node.recordId) := by
  by_cases hne : es = []
  · subst hne
    constructor
    · intro _ query p _ _ id hid
      cases hid
    · intro _ query params filter k hlen _ _
      refine ⟨_, [], search_none h ho hlen k params filter, rfl, ?_⟩
      exact (Nat.min_zero k).symm
  have hs := h.searchable ho
  have hsearch : ∀ (query : List F32) (k : Nat) (params : SearchParams) (filter : Ulid → Bool), query.length = dims →
      ∃ p, Lands F src dims root query p ∧ (∃ e ∈ es, e.page = p ∧ 0 < e.node.layers.length) ∧
        ∃ o, search F src dims root query k params filter = .ok o ∧
          Ended F (recordOf es) stats k filter (Explored src es p) o := by
    intro query k params filter hlen
    exact search_ended h ho hne hlen k params filter
      (fun entry hentry ef ctx hctx => wp_searchLayer_explored hs h.wired hentry ef hctx)
      (fun _ _ _ hr => hr.nodes.entries)
  constructor
  · intro hfills query p hlen hlands id hid
    rcases hfills query ⟨0⟩ (fun id' => decide (id' = id)) 1 hlen (le_refl _) (by norm_num) with
      ⟨o, hits, ho', hhits, hlength⟩
    rcases hsearch query 1 ⟨0⟩ (fun id' => decide (id' = id)) hlen with ⟨p', hlands', _, o', ho'', hended⟩
    rw [ho'] at ho''
    cases ho''
    cases hlands.unique hlands'
    rcases hended with ⟨_, rfl⟩ | ⟨_, r, rfl, hends⟩
    · cases hhits
    cases hhits
    -- the only accepted record has a hit
    have hone : 0 < ((es.map fun e => e.node.recordId).dedup.filter fun id' => decide (id' = id)).length :=
      List.length_pos_of_mem (List.mem_filter.mpr ⟨List.mem_dedup.mpr hid, decide_eq_true rfl⟩)
    rcases hends.hits with ⟨picked, hpicked, hp⟩
    rw [hpicked, List.length_map] at hlength
    have hsome : picked ≠ [] := List.length_pos_iff.mp (by omega)
    rcases List.exists_mem_of_ne_nil _ hsome with ⟨x, hx⟩
    have hrecord := of_decide_eq_true (hp.accepted x hx)
    rcases hends.candidates.nodes.entries x (hp.sub.subset hx) with ⟨e, he, hpage⟩
    refine ⟨x.1, e.node, hends.candidates.reached x (hp.sub.subset hx), ?_, ?_⟩
    · rw [← hpage]
      exact nodeAt_entry hs he
    · rw [← hrecord, ← hpage, recordOf_eq hs.distinct he]
  · intro hcovers query params filter k hlen hk hk'
    rcases hsearch query k params filter hlen with ⟨p, hlands, _, o, ho', hended⟩
    rcases hended with ⟨hcap, _⟩ | ⟨_, r, rfl, hends⟩
    · unfold HIT_SIZE at hcap
      omega
    · exact ⟨_, r.hits, ho', rfl, hends.complete hs h.count hsize hk (hcovers query p hlen hlands)⟩

end Index

/-- A search of an index of at most 65535 nodes returns as many hits as it may, whatever
it is asked, if and only if the links of layer 0 reach a node of every record from
wherever a descent ends. -/
theorem fills_up_iff {H : Xxh3} {F : Floats} {dims m : Nat} {ids : List Ulid} {c : Committed}
    (h : Run H F dims m ids c) (hsize : ids.length ≤ 2 ^ 16 - 1) :
    FillsUp F (c.source H) dims c.header.hnswMetaPage ids ↔ Covers F (c.source H) dims c.header.hnswMetaPage ids := by
  rcases h.inStore with ⟨hwf, stats, es, own, hin, _, rfl⟩
  rw [List.length_map] at hsize
  exact hin.index.fillsUp_iff (hin.owns.source hwf) hsize

/-- An empty index whose nodes may have two links at layer 0. -/
def narrow : HnswMeta := ⟨1, 200, 0, 0, 0⟩

def narrowStore : Committed where
  header := { (Committed.fresh 8 512).header with pageCount := 2, hnswMetaPage := 1 }
  pages := fun _ => typedPage ⟨fun _ => 0, fun _ _ => 0⟩ ⟨.hnswMeta, 0, 0⟩ 512 narrow.body

theorem narrowStore_page (n : Nat) : narrowStore.pages n =
    typedPage ⟨fun _ => 0, fun _ _ => 0⟩ ⟨.hnswMeta, 0, 0⟩ narrowStore.header.pageSize narrow.body := by
  simp only [narrowStore, Committed.fresh]

/-- The store of the example is well formed. -/
theorem narrowStore_wf : narrowStore.Wf ⟨fun _ => 0, fun _ _ => 0⟩ where
  header := by
    constructor <;> decide
  page := by
    intro n _ _
    rw [narrowStore_page n]
    exact ⟨typedPage_length, typedPage_valid (by decide)⟩

/-- It holds an index without nodes. -/
theorem narrowStore_index : InStore ⟨fun _ => 0, fun _ _ => 0⟩ 1 narrowStore narrow [] [1] where
  index := by
    constructor
    case stats_wf => exact ⟨by decide, by decide, by decide, by decide, by decide, by decide⟩
    case count => rfl
    case stored => simp
    case wired => exact ⟨by simp, by simp⟩
    case level => exact fun h => absurd rfl h
    case entry => exact fun h => absurd rfl h
    case pages =>
      refine Or.inr ⟨by decide, ?_, rfl⟩
      rw [← narrowStore_page 1]
      exact Committed.view_page narrowStore_wf (by decide) (by decide)
  owns := ⟨List.nodup_singleton _, by simp, by simp [narrowStore]⟩

/-- Three equal vectors and a different one. -/
def equalThenOther : List (Ulid × List F32) :=
  [(1, [0x3f800000]), (2, [0x3f800000]), (3, [0x3f800000]), (4, [0])]

/-- Searches of those vectors for the different one. -/
def searchOther (c : Committed) : Except Error Outcome :=
  search unitFloats (c.source ⟨fun _ => 0, fun _ _ => 0⟩) 1 c.header.hnswMetaPage [0] 1 ⟨64⟩ fun id => decide (id = 4)

set_option maxRecDepth 100000 in
/-- After three equal vectors the fourth is not found. -/
theorem exists_equalThenOther : ∃ c r, Run ⟨fun _ => 0, fun _ _ => 0⟩ unitFloats 1 1 [4, 3, 2, 1] c ∧
    searchOther c = .ok (.found r) ∧ r.hits = [] := by
  have hok : ((insertAll ⟨fun _ => 0, fun _ _ => 0⟩ unitFloats 1 equalThenOther (Txn.begin narrowStore)).toOption.any
      fun r => decide (foundHits (searchOther r.2.commit) = some [])) = true := by
    decide +kernel
  have hinit := Run.init (F := unitFloats) narrowStore_wf narrowStore_index rfl
  cases hrun : insertAll ⟨fun _ => 0, fun _ _ => 0⟩ unitFloats 1 equalThenOther (Txn.begin narrowStore) with
  | error e =>
      rw [hrun] at hok
      cases hok
  | ok x =>
      rcases x with ⟨⟨⟩, t⟩
      rw [hrun] at hok
      rcases exists_found (of_decide_eq_true hok) with ⟨r, hr, hhits⟩
      exact ⟨t.commit, r, Run.commit hinit equalThenOther hrun, hr, hhits⟩

/-- An empty answer is not a full one. -/
theorem not_fillsUp_of_empty {c : Committed} {r : Round} (hr : searchOther c = .ok (.found r)) (hhits : r.hits = []) :
    ¬ FillsUp unitFloats (c.source ⟨fun _ => 0, fun _ _ => 0⟩) 1 c.header.hnswMetaPage [4, 3, 2, 1] := by
  intro hfills
  rcases hfills [0] ⟨64⟩ (fun id => decide (id = 4)) 1 rfl (le_refl _) (by norm_num) with ⟨o, hits, ho, hh, hlen⟩
  rw [show search _ _ _ _ _ _ _ _ = _ from hr] at ho
  cases ho
  cases hh
  rw [hhits] at hlen
  revert hlen
  decide

/-- The links do not lead to the fourth of these vectors. -/
theorem fills_up_iff_equalThenOther :
    ∃ c, Run ⟨fun _ => 0, fun _ _ => 0⟩ unitFloats 1 1 [4, 3, 2, 1] c ∧
      ¬ Covers unitFloats (c.source ⟨fun _ => 0, fun _ _ => 0⟩) 1 c.header.hnswMetaPage [4, 3, 2, 1] := by
  rcases exists_equalThenOther with ⟨c, r, hrun, hr, hhits⟩
  exact ⟨c, hrun, fun hcovers => not_fillsUp_of_empty hr hhits ((fills_up_iff hrun (by decide)).mpr hcovers)⟩

/-- A search for the fourth vector, and for its record only, finds nothing. -/
theorem unreachable_vector :
    ∃ c, Run ⟨fun _ => 0, fun _ _ => 0⟩ unitFloats 1 1 [4, 3, 2, 1] c ∧
      (∃ r, searchOther c = .ok (.found r) ∧ r.hits = []) ∧
      ¬ FillsUp unitFloats (c.source ⟨fun _ => 0, fun _ _ => 0⟩) 1 c.header.hnswMetaPage [4, 3, 2, 1] := by
  rcases exists_equalThenOther with ⟨c, r, hrun, hr, hhits⟩
  exact ⟨c, hrun, ⟨r, hr, hhits⟩, not_fillsUp_of_empty hr hhits⟩

end Hnsw

end EmbedMind
