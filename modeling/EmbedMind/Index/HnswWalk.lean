import EmbedMind.Index.Hnsw

/-!
# Walking the graph of the vector index

What the greedy descent and the best-first search do on any pages, those of a hostile
file included. `Space` says what a page that is read gives: a candidate in `T`, or an
error in `E`. Every step of a descent is strictly closer and every candidate is visited
once, so both end where there are finitely many candidates (`Space.greedyClosest`,
`Space.searchLayer`).
-/

namespace EmbedMind

open Lib

namespace Hnsw

/-- Pages that can be walked on: reading a page in `S` gives a candidate in `T`, and the
links of a candidate at the layer lead to pages in `S`. `K` is what the remembered pages
keep, and only errors in `E` occur. -/
structure Space (F : Floats) (src : PageSource) (dims : Nat) (query : List F32) (layer : Nat) (S : Nat → Prop)
    (T : Nat × F32 → Prop) (K : Ctx → Prop) (E : Error → Prop) : Prop where
  node : ∀ x ctx, T x → K ctx → Wp (Ctx.node src x.1) ctx
    (fun n ctx' => K ctx' ∧ ∀ list, n.layers[layer]? = some list → ∀ q ∈ list, S q) E
  sim : ∀ q ctx, S q → K ctx → Wp (Ctx.simTo F src dims query q) ctx (fun s ctx' => K ctx' ∧ T (q, s)) E

section Walk

variable {F : Floats} {src : PageSource} {dims : Nat} {query : List F32} {layer : Nat} {S : Nat → Prop}
  {T : Nat × F32 → Prop} {K : Ctx → Prop} {E : Error → Prop}

/-! ## The greedy descent -/

/-- The candidates that are closer than a similarity. -/
def closerThan (F : Floats) (all : List (Nat × F32)) (sim : F32) : List (Nat × F32) :=
  all.filter fun x => F.lt sim x.2

/-- Moving to a closer candidate leaves fewer that are closer still. -/
theorem closerThan_length_lt {all : List (Nat × F32)} {x : Nat × F32} (hx : x ∈ all) {sim : F32}
    (hlt : F.lt sim x.2 = true) : (closerThan F all x.2).length < (closerThan F all sim).length := by
  have hsub : (closerThan F all x.2).Sublist (closerThan F all sim) := by
    unfold closerThan
    refine List.monotone_filter_right _ ?_
    intro y hy
    exact F.lt_trans _ _ _ hlt hy
  refine lt_of_le_of_ne hsub.length_le ?_
  intro heq
  have hin : x ∈ closerThan F all sim := List.mem_filter.mpr ⟨hx, hlt⟩
  rw [← hsub.eq_of_length heq] at hin
  have hself := (List.mem_filter.mp hin).2
  rw [F.lt_irrefl] at hself
  cases hself

/-- The best of a round: the node it started from, or a closer candidate. -/
def Rounded (F : Floats) (T : Nat × F32 → Prop) (start : Nat × F32) (b : Best) : Prop :=
  (b.improved = false ∧ b.page = start.1 ∧ b.sim = start.2) ∨
    (b.improved = true ∧ T (b.page, b.sim) ∧ F.lt start.2 b.sim = true)

/-- One round over the neighbours of a node. -/
theorem Space.closer (h : Space F src dims query layer S T K E) {list : List Nat} (hlist : ∀ q ∈ list, S q)
    {start : Nat × F32} {ctx : Ctx} (hctx : K ctx) :
    Wp (list.foldlM (closer F src dims query) ⟨start.1, start.2, false⟩) ctx
      (fun b ctx' => K ctx' ∧ Rounded F T start b) E := by
  have hloop := Wp.foldlM (s := ctx) (E := E) (f := Hnsw.closer F src dims query) (g := fun (_ : Unit) _ => ())
    (R := fun _ b ctx' => K ctx' ∧ Rounded F T start b)
    list ?_ (c := ()) (b := ⟨start.1, start.2, false⟩) ⟨hctx, Or.inl ⟨rfl, rfl, rfl⟩⟩
  · exact hloop
  · rintro q hq _ b ctx₁ ⟨hctx₁, hb⟩
    refine Wp.bind ((h.sim q ctx₁ (hlist q hq) hctx₁).imp ?_)
    rintro sim ctx₂ ⟨hctx₂, hT⟩
    refine Wp.pure ⟨hctx₂, ?_⟩
    split
    · rename_i hlt
      refine Or.inr ⟨rfl, hT, ?_⟩
      rcases hb with ⟨_, _, hsim⟩ | ⟨_, _, hlt'⟩
      · rwa [hsim] at hlt
      · exact F.lt_trans _ _ _ hlt' hlt
    · exact hb

/-- The descent in a layer ends at a candidate. -/
theorem Space.greedyClosest (h : Space F src dims query layer S T K E) {all : List (Nat × F32)}
    (hall : ∀ x, T x → x ∈ all) {fuel : Nat} {x : Nat × F32} (hx : T x) {ctx : Ctx} (hctx : K ctx)
    (hfuel : (closerThan F all x.2).length < fuel) :
    Wp (greedyClosest F src dims query layer fuel x.1 x.2) ctx (fun r ctx' => K ctx' ∧ T r) E := by
  induction fuel generalizing x ctx with
  | zero => exact absurd hfuel (Nat.not_lt_zero _)
  | succ fuel ih =>
      unfold Hnsw.greedyClosest
      refine Wp.bind ((h.node x ctx hx hctx).imp ?_)
      rintro n ctx₁ ⟨hctx₁, hlinks⟩
      cases hlayer : n.layers[layer]? with
      | none => exact Wp.pure ⟨hctx₁, hx⟩
      | some list =>
          refine Wp.bind ((h.closer (hlinks list hlayer) hctx₁).imp ?_)
          rintro b ctx₂ ⟨hctx₂, hb⟩
          rcases hb with ⟨himp, hpage, hsim⟩ | ⟨himp, hT, hlt⟩
          · rw [himp, hpage, hsim]
            exact Wp.pure ⟨hctx₂, hx⟩
          · rw [himp, if_pos rfl]
            have hfewer := closerThan_length_lt (hall _ hT) hlt
            exact ih hT hctx₂ (by omega)

/-! ## The best-first search -/

/-- The pages a search has not met. -/
def unmet (pages visited : List Nat) : List Nat := pages.filter fun p => decide (p ∉ visited)

/-- One page less to meet. -/
theorem unmet_length_lt {pages visited : List Nat} {p : Nat} (hp : p ∈ pages) (hnot : p ∉ visited) :
    (unmet pages (p :: visited)).length < (unmet pages visited).length := by
  have hsub : (unmet pages (p :: visited)).Sublist (unmet pages visited) := by
    unfold unmet
    refine List.monotone_filter_right _ ?_
    intro x hx
    simp only [List.mem_cons, not_or, decide_eq_true_eq] at hx ⊢
    exact hx.2
  refine lt_of_le_of_ne hsub.length_le ?_
  intro heq
  have hin : p ∈ unmet pages visited := List.mem_filter.mpr ⟨hp, by simpa using hnot⟩
  rw [← hsub.eq_of_length heq] at hin
  simp [unmet] at hin

/-- Distinct pages and what is left to visit are no more than there are. -/
theorem unmet_start {pages start : List Nat} (hnd : start.Nodup) (hsub : start ⊆ pages) :
    start.length + (unmet pages start).length ≤ pages.length := by
  have hle : start.length ≤ (pages.filter fun p => decide (p ∈ start)).length := by
    refine (hnd.subperm ?_).length_le
    intro p hp
    exact List.mem_filter.mpr ⟨hsub hp, by simpa using hp⟩
  have hsplit := List.length_eq_length_filter_add (l := pages) fun p => decide (p ∈ start)
  have hrest : unmet pages start = pages.filter fun p => !decide (p ∈ start) := by simp [unmet]
  rw [hrest]
  omega

/-- The state of a search: candidates in the frontier, distinct ones in the results, from
`low` to `cap` of them, and of the frontier and what is left to visit no more than
`bound`. -/
structure Beam.Ok (T : Nat × F32 → Prop) (pages : List Nat) (low cap bound : Nat) (b : Beam) : Prop where
  frontier : ∀ x ∈ b.frontier.toList, T x
  results : ∀ x ∈ b.results.toList, T x ∧ x.1 ∈ b.visited
  nodup : (b.results.toList.map Prod.fst).Nodup
  size : low ≤ b.results.size ∧ b.results.size ≤ cap
  bound : b.frontier.toList.length + (unmet pages b.visited).length ≤ bound

/-- A new candidate enters the results, or another one leaves for it. -/
theorem add_results (b : Beam) (ef : Nat) (cand : Nat × F32) :
    (b.add F ef cand).results.toList.Subperm (cand :: b.results.toList) := by
  have hpush := BinaryHeap.push_perm (worstCmp F) cand b.results
  unfold Beam.add
  dsimp only
  split
  · cases hpop : BinaryHeap.pop (worstCmp F) (BinaryHeap.push (worstCmp F) cand b.results) with
    | none => exact hpush.subperm
    | some r =>
        have hrest := (BinaryHeap.pop_perm _ hpop).symm.trans hpush
        exact (List.sublist_cons_self r.1 r.2.toList).subperm.trans hrest.subperm
  · exact hpush.subperm

/-- The results stay within the beam, and there are no fewer. -/
theorem add_results_size {b : Beam} {ef low cap : Nat} (hcap : ef ≤ cap)
    (hsize : low ≤ b.results.size ∧ b.results.size ≤ cap) (cand : Nat × F32) :
    low ≤ (b.add F ef cand).results.size ∧ (b.add F ef cand).results.size ≤ cap := by
  have hpush := (BinaryHeap.push_perm (worstCmp F) cand b.results).length_eq
  rw [Array.length_toList, List.length_cons, Array.length_toList] at hpush
  unfold Beam.add
  dsimp only
  split
  · cases hpop : BinaryHeap.pop (worstCmp F) (BinaryHeap.push (worstCmp F) cand b.results) with
    | none =>
        rw [BinaryHeap.pop_eq_none] at hpop
        have hzero : (BinaryHeap.push (worstCmp F) cand b.results).size = 0 := by
          rw [← Array.length_toList, hpop, List.length_nil]
        omega
    | some r =>
        have hrest := (BinaryHeap.pop_perm _ hpop).length_eq
        rw [Array.length_toList, List.length_cons, Array.length_toList] at hrest
        show low ≤ r.2.size ∧ r.2.size ≤ cap
        omega
  · omega

/-- A candidate that is taken. -/
theorem Beam.Ok.add {pages : List Nat} {low cap bound ef : Nat} {b : Beam} (h : b.Ok T pages low cap bound)
    {cand : Nat × F32} (hT : T cand) (hpage : cand.1 ∈ pages) (hnot : cand.1 ∉ b.visited) (hcap : ef ≤ cap) :
    Beam.Ok T pages low cap bound (Beam.add F { b with visited := cand.1 :: b.visited } ef cand) := by
  -- one page fewer is unmet, which pays for one more in the frontier
  have hlt := unmet_length_lt hpage hnot
  have hfrontier := BinaryHeap.push_perm (frontierCmp F) cand b.frontier
  have hresults := add_results (F := F) { b with visited := cand.1 :: b.visited } ef cand
  constructor
  case frontier =>
    intro x hx
    rcases List.mem_cons.mp (hfrontier.mem_iff.mp hx) with rfl | hx
    · exact hT
    · exact h.frontier x hx
  case results =>
    intro x hx
    rcases List.mem_cons.mp (hresults.subset hx) with rfl | hx
    · exact ⟨hT, List.mem_cons_self⟩
    · exact ⟨(h.results x hx).1, List.mem_cons_of_mem _ (h.results x hx).2⟩
  case nodup =>
    rcases hresults with ⟨l, hperm, hsub⟩
    have hnodup : ((cand :: b.results.toList).map Prod.fst).Nodup := by
      rw [List.map_cons, List.nodup_cons]
      refine ⟨?_, h.nodup⟩
      intro hin
      rcases List.mem_map.mp hin with ⟨x, hx, hxe⟩
      have hin' := (h.results x hx).2
      rw [hxe] at hin'
      exact hnot hin'
    exact (hperm.map _).nodup_iff.mp ((hsub.map _).nodup hnodup)
  case size => exact add_results_size hcap h.size cand
  case bound =>
    have hlen : (Beam.add F { b with visited := cand.1 :: b.visited } ef cand).frontier.toList.length =
        b.frontier.toList.length + 1 := hfrontier.length_eq
    have hb := h.bound
    rw [hlen]
    change b.frontier.toList.length + 1 + (unmet pages (cand.1 :: b.visited)).length ≤ bound
    omega

/-- A candidate that is not. -/
theorem Beam.Ok.skip {pages : List Nat} {low cap bound : Nat} {b : Beam} (h : b.Ok T pages low cap bound) {p : Nat}
    (hpage : p ∈ pages) (hnot : p ∉ b.visited) : Beam.Ok T pages low cap bound { b with visited := p :: b.visited } where
  frontier := h.frontier
  results := fun x hx => ⟨(h.results x hx).1, List.mem_cons_of_mem _ (h.results x hx).2⟩
  nodup := h.nodup
  size := h.size
  bound := by
    have hlt := unmet_length_lt hpage hnot
    have hb := h.bound
    dsimp only
    omega

/-- Without the candidate that is expanded. -/
theorem Beam.Ok.pop {pages : List Nat} {low cap bound : Nat} {b : Beam} (h : b.Ok T pages low cap bound) {x : Nat × F32}
    {frontier : Array (Nat × F32)} (hpop : BinaryHeap.pop (frontierCmp F) b.frontier = some (x, frontier)) :
    T x ∧ 0 < bound ∧ Beam.Ok T pages low cap (bound - 1) { b with frontier } := by
  have hperm := BinaryHeap.pop_perm _ hpop
  have hlen : b.frontier.toList.length = frontier.toList.length + 1 := hperm.length_eq
  have hb := h.bound
  refine ⟨h.frontier x (hperm.mem_iff.mpr List.mem_cons_self), by omega, ?_, h.results, h.nodup, h.size, ?_⟩
  · intro y hy
    exact h.frontier y (hperm.mem_iff.mpr (List.mem_cons_of_mem _ hy))
  · dsimp only
    omega

variable {pages : List Nat} (hpages : ∀ x, T x → x.1 ∈ pages)

include hpages

/-- One visit. -/
theorem Space.visit (h : Space F src dims query layer S T K E) {ef low cap bound : Nat} (hcap : ef ≤ cap) {b : Beam}
    (hb : b.Ok T pages low cap bound) {q : Nat} (hq : S q) {ctx : Ctx} (hctx : K ctx) :
    Wp (Beam.visit F src dims query ef b q) ctx (fun b' ctx' => K ctx' ∧ b'.Ok T pages low cap bound) E := by
  unfold Beam.visit
  split
  · exact Wp.pure ⟨hctx, hb⟩
  · rename_i hnot
    refine Wp.bind ((h.sim q ctx hq hctx).imp ?_)
    rintro sim ctx' ⟨hctx', hT⟩
    refine Wp.pure ⟨hctx', ?_⟩
    split
    · exact hb.add hT (hpages _ hT) hnot hcap
    · exact hb.skip (hpages _ hT) hnot

/-- The search ends with distinct candidates. -/
theorem Space.expand (h : Space F src dims query layer S T K E) {ef low cap fuel bound : Nat} (hcap : ef ≤ cap)
    (hfuel : bound < fuel) {b : Beam} (hb : b.Ok T pages low cap bound) {ctx : Ctx} (hctx : K ctx) :
    Wp (expand F src dims query layer ef fuel b) ctx (fun b' ctx' => K ctx' ∧ b'.Ok T pages low cap bound) E := by
  induction fuel generalizing b bound ctx with
  | zero => exact absurd hfuel (Nat.not_lt_zero _)
  | succ fuel ih =>
      unfold Hnsw.expand
      cases hpop : BinaryHeap.pop (frontierCmp F) b.frontier with
      | none => exact Wp.pure ⟨hctx, hb⟩
      | some r =>
          rcases r with ⟨x, frontier⟩
          rcases hb.pop hpop with ⟨hT, hpos, hrest⟩
          have hwiden : ∀ {b' : Beam}, b'.Ok T pages low cap (bound - 1) → b'.Ok T pages low cap bound := by
            intro b' hb'
            exact { hb' with bound := hb'.bound.trans (Nat.sub_le _ _) }
          dsimp only
          split
          · exact Wp.pure ⟨hctx, hwiden hrest⟩
          · refine Wp.bind ((h.node x ctx hT hctx).imp ?_)
            rintro n ctx₁ ⟨hctx₁, hlinks⟩
            cases hlayer : n.layers[layer]? with
            | none => exact (ih (by omega) hrest hctx₁).imp fun b' ctx' hb' => ⟨hb'.1, hwiden hb'.2⟩
            | some list =>
                have hloop := Wp.foldlM (s := ctx₁) (E := E) (f := Beam.visit F src dims query ef)
                  (g := fun (_ : Unit) _ => ()) (R := fun _ b' ctx' => K ctx' ∧ b'.Ok T pages low cap (bound - 1)) list
                  (fun q hq _ b' ctx' hb' => h.visit hpages hcap hb'.2 (hlinks list hlayer q hq) hb'.1)
                  (c := ()) ⟨hctx₁, hrest⟩
                refine Wp.bind (hloop.imp ?_)
                rintro b' ctx₂ ⟨hctx₂, hb'⟩
                exact (ih (by omega) hb' hctx₂).imp fun b'' ctx' hb'' => ⟨hb''.1, hwiden hb''.2⟩

/-- The candidates of a layer: distinct, no more than the beam is wide, the best first. -/
theorem Space.searchLayer (h : Space F src dims query layer S T K E) (hsize : pages.length < FUEL)
    {entryPoints : List (Nat × F32)} (hnd : (entryPoints.map Prod.fst).Nodup) (hT : ∀ x ∈ entryPoints, T x)
    {ef : Nat} {ctx : Ctx} (hctx : K ctx) :
    Wp (searchLayer F src dims entryPoints layer query ef) ctx
      (fun r ctx' => K ctx' ∧ (∀ x ∈ r, T x) ∧ (r.map Prod.fst).Nodup ∧
        (entryPoints.length ≤ r.length ∧ r.length ≤ max (max ef 1) entryPoints.length) ∧
        ∃ l, r = bestFirst F l) E := by
  have hfrontier := BinaryHeap.ofList_perm (frontierCmp F) entryPoints
  have hresults := BinaryHeap.ofList_perm (worstCmp F) entryPoints
  have hsub : entryPoints.map Prod.fst ⊆ pages := by
    intro p hp
    rcases List.mem_map.mp hp with ⟨x, hx, rfl⟩
    exact hpages x (hT x hx)
  -- the beam that starts from the entry points
  have hstart : Beam.Ok T pages entryPoints.length (max (max ef 1) entryPoints.length) pages.length
      { visited := entryPoints.map Prod.fst
        frontier := BinaryHeap.ofList (frontierCmp F) entryPoints
        results := BinaryHeap.ofList (worstCmp F) entryPoints } := by
    constructor
    case frontier =>
      intro x hx
      exact hT x (hfrontier.mem_iff.mp hx)
    case results =>
      intro x hx
      have hx' := hresults.mem_iff.mp hx
      exact ⟨hT x hx', List.mem_map.mpr ⟨x, hx', rfl⟩⟩
    case nodup => exact (hresults.map _).nodup_iff.mpr hnd
    case size =>
      dsimp only
      rw [← Array.length_toList, hresults.length_eq]
      exact ⟨le_rfl, le_max_right _ _⟩
    case bound =>
      have hbound := unmet_start hnd hsub
      rw [List.length_map] at hbound
      dsimp only
      rw [hfrontier.length_eq]
      exact hbound
  -- every round keeps it; sorting the results at the end moves none
  refine Wp.bind ((h.expand hpages (le_max_left _ _) hsize hstart hctx).imp ?_)
  rintro b ctx' ⟨hctx', hb⟩
  have hperm : (bestFirst F b.results.toList).Perm b.results.toList := List.perm_insertionSort _ _
  refine Wp.pure ⟨hctx', ?_, (hperm.map _).nodup_iff.mpr hb.nodup, ?_, _, rfl⟩
  · intro x hx
    exact (hb.results x (hperm.mem_iff.mp hx)).1
  · rw [hperm.length_eq, Array.length_toList]
    exact hb.size

end Walk

end Hnsw

end EmbedMind
