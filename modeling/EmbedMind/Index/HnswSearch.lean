import EmbedMind.Index.HnswWalk

/-!
# Searching the vector index (`index::search`)

The descent through the upper layers, then a best-first search at layer 0 whose beam is
widened until the hits are enough or the graph is exhausted. `Rounds` says what every
such loop finds on pages that can be walked on, and `search_shape` what it finds on any
pages at all.
-/

namespace EmbedMind

open Lib

namespace Hnsw

structure SearchParams where
  efSearch : Nat

structure Hit where
  recordId : Ulid
  score : F32
deriving DecidableEq

/-- `size_of::<Hit>()`: a 128-bit number, aligned to its size, and an `f32`. -/
def HIT_SIZE : Nat := 32

/-- The last round of a search: how wide its beam was, what it found there, for how many
hits memory was reserved, and the hits. -/
structure Round where
  ef : Nat
  candidates : List (Nat × F32)
  reserved : Nat
  hits : List Hit

/-- What a search ends in. Reserving more than `isize::MAX` bytes is a panic. -/
inductive Outcome where
  | noIndex
  | capacityOverflow
  | found (round : Round)

/-- The hits of a search that has not panicked. -/
def Outcome.hits : Outcome → Option (List Hit)
  | .noIndex => some []
  | .capacityOverflow => none
  | .found round => some round.hits

/-- The hits of the last round of a search that came to one. -/
def foundHits : Except Error Outcome → Option (List Hit)
  | .ok (.found round) => some round.hits
  | _ => none

/-- The hits of a search that found some. -/
theorem exists_found {x : Except Error Outcome} {hits : List Hit} (h : foundHits x = some hits) :
    ∃ r, x = .ok (.found r) ∧ r.hits = hits := by
  unfold foundHits at h
  split at h
  · rename_i r
    exact ⟨r, rfl, Option.some.inj h⟩
  · cases h

section Search

variable (F : Floats) (src : PageSource) (dims : Nat)

/-- The hits among the candidates: one for every accepted record, until there are `k`. -/
def collectHits (k : Nat) (filter : Ulid → Bool) :
    List (Nat × F32) → List Ulid → List Hit → CtxM (List Hit)
  | [], _, hits => pure hits
  | (pageNo, sim) :: rest, seen, hits => do
      let node ← Ctx.node src pageNo
      if node.recordId ∈ seen then collectHits k filter rest seen hits
      else if filter node.recordId then
        let hits := hits ++ [Hit.mk node.recordId sim]
        if k ≤ hits.length then pure hits else collectHits k filter rest (node.recordId :: seen) hits
      else collectHits k filter rest (node.recordId :: seen) hits

/-- `u16::try_from(node_count).unwrap_or(u16::MAX)`. -/
def efCeiling (stats : HnswMeta) : Nat := min stats.nodeCount (2 ^ 16 - 1)

/-- `params.ef_search.max(k as u16).max(1)`. -/
def initialEf (params : SearchParams) (k : Nat) : Nat := max (max params.efSearch (k % 2 ^ 16)) 1

/-- `ef.saturating_mul(4).min(ef_ceiling)`. -/
def widerEf (ceiling ef : Nat) : Nat := min (min (ef * 4) (2 ^ 16 - 1)) ceiling

/-- Widens the beam until the result is filled or the whole graph has been examined. -/
def searchRounds (stats : HnswMeta) (entry : Nat × F32) (query : List F32) (k : Nat) (filter : Ulid → Bool) :
    Nat → Nat → CtxM Outcome
  | 0, _ => throw outOfFuel
  | fuel + 1, ef => do
      let candidates ← searchLayer F src dims [entry] 0 query ef
      if 2 ^ 63 - 1 < k * HIT_SIZE then pure .capacityOverflow
      else do
        let hits ← collectHits src k filter candidates [] []
        if k ≤ hits.length ∨ efCeiling stats ≤ ef ∨ stats.nodeCount ≤ candidates.length then
          pure (.found ⟨ef, candidates, k, hits⟩)
        else searchRounds stats entry query k filter fuel (widerEf (efCeiling stats) ef)

/-- `index::search`, with its last round. -/
def search (hnswMetaPage : Nat) (query : List F32) (k : Nat) (params : SearchParams) (filter : Ulid → Bool) :
    Except Error Outcome :=
  if query.length ≠ dims then .error (.invalidArgument "query length != store dims")
  else do
    let loaded ← loadMeta src hnswMetaPage
    match loaded with
    | none => .ok .noIndex
    | some stats =>
        if stats.nodeCount = 0 then .ok .noIndex
        else do
          let (outcome, _) ← (do
            let entry ← descend F src dims query stats 0
            searchRounds F src dims stats entry query k filter FUEL (initialEf params k) : CtxM Outcome).run {}
          .ok outcome

end Search

/-! ## The hits of a round -/

/-- Candidates, the best first. -/
def BestFirst (F : Floats) (l : List (Nat × F32)) : Prop := l.Pairwise fun a b => F.lt a.2 b.2 = false

/-- The candidates that become hits after those of the records in `seen`, `before` of
them: of every record the first, which is the best, and all that are accepted unless
there are `k`. -/
structure Picked (F : Floats) (record : Nat → Ulid) (k : Nat) (filter : Ulid → Bool) (seen : List Ulid) (before : Nat)
    (candidates picked : List (Nat × F32)) : Prop where
  sub : picked.Sublist candidates
  nodup : (picked.map fun x => record x.1).Nodup
  fresh : ∀ x ∈ picked, record x.1 ∉ seen
  accepted : ∀ x ∈ picked, filter (record x.1) = true
  best : BestFirst F candidates → ∀ x ∈ picked, ∀ y ∈ candidates, record y.1 = record x.1 → F.lt x.2 y.2 = false
  within : before < k → before + picked.length ≤ k
  filled : (picked ≠ [] ∧ k ≤ before + picked.length) ∨
    ∀ y ∈ candidates, filter (record y.1) = true → record y.1 ∈ seen ∨ ∃ x ∈ picked, record x.1 = record y.1

/-- A hit of a candidate. -/
def hitOf (record : Nat → Ulid) (x : Nat × F32) : Hit := ⟨record x.1, x.2⟩

section Picked

variable {F : Floats} {record : Nat → Ulid} {k before : Nat} {filter : Ulid → Bool} {seen : List Ulid}
  {c : Nat × F32} {rest picked : List (Nat × F32)}

/-- A candidate that gives no hit: its record was seen before, or is not accepted. -/
theorem Picked.skip {seen' : List Ulid} (h : Picked F record k filter seen' before rest picked) (hseen : seen ⊆ seen')
    (hc : record c.1 ∈ seen') (hdone : ∀ id ∈ seen', filter id = true → id ∈ seen) :
    Picked F record k filter seen before (c :: rest) picked where
  sub := h.sub.cons c
  nodup := h.nodup
  fresh := fun x hx hin => h.fresh x hx (hseen hin)
  accepted := h.accepted
  best := by
    intro hsorted x hx y hy hrecord
    rcases List.mem_cons.mp hy with rfl | hy
    · exact absurd (hrecord ▸ hc) (h.fresh x hx)
    · exact h.best (List.pairwise_cons.mp hsorted).2 x hx y hy hrecord
  within := h.within
  filled := by
    rcases h.filled with hfull | hall
    · exact Or.inl hfull
    · refine Or.inr ?_
      intro y hy haccept
      rcases List.mem_cons.mp hy with rfl | hy
      · exact Or.inl (hdone _ hc haccept)
      · rcases hall y hy haccept with hin | hin
        · exact Or.inl (hdone _ hin haccept)
        · exact Or.inr hin

/-- A candidate that gives a hit, with the hits after it. -/
theorem Picked.take (h : Picked F record k filter (record c.1 :: seen) (before + 1) rest picked)
    (hc : record c.1 ∉ seen) (haccept : filter (record c.1) = true)
    (hmore : before + 1 < k) : Picked F record k filter seen before (c :: rest) (c :: picked) where
  sub := h.sub.cons_cons c
  nodup := by
    rw [List.map_cons, List.nodup_cons]
    refine ⟨?_, h.nodup⟩
    intro hin
    rcases List.mem_map.mp hin with ⟨x, hx, hrecord⟩
    exact h.fresh x hx (hrecord ▸ List.mem_cons_self)
  fresh := by
    intro x hx
    rcases List.mem_cons.mp hx with rfl | hx
    · exact hc
    · exact fun hin => h.fresh x hx (List.mem_cons_of_mem _ hin)
  accepted := by
    intro x hx
    rcases List.mem_cons.mp hx with rfl | hx
    · exact haccept
    · exact h.accepted x hx
  best := by
    intro hsorted x hx y hy hrecord
    rcases List.mem_cons.mp hx with rfl | hx'
    · rcases List.mem_cons.mp hy with rfl | hy'
      · exact F.lt_irrefl _
      · exact List.rel_of_pairwise_cons hsorted hy'
    · rcases List.mem_cons.mp hy with rfl | hy'
      · exact absurd (hrecord ▸ List.mem_cons_self) (h.fresh x hx')
      · exact h.best (List.pairwise_cons.mp hsorted).2 x hx' y hy' hrecord
  within := by
    intro _
    have hwithin := h.within hmore
    rw [List.length_cons]
    omega
  filled := by
    rcases h.filled with ⟨_, hfull⟩ | hall
    · refine Or.inl ⟨List.cons_ne_nil _ _, ?_⟩
      rw [List.length_cons]
      omega
    · refine Or.inr ?_
      intro y hy hy'
      rcases List.mem_cons.mp hy with rfl | hy
      · exact Or.inr ⟨_, List.mem_cons_self, rfl⟩
      · rcases hall y hy hy' with hin | ⟨x, hx, hrecord⟩
        · rcases List.mem_cons.mp hin with heq | hin
          · exact Or.inr ⟨c, List.mem_cons_self, heq.symm⟩
          · exact Or.inl hin
        · exact Or.inr ⟨x, List.mem_cons_of_mem _ hx, hrecord⟩

/-- The last hit. -/
theorem Picked.last (F : Floats) (rest : List (Nat × F32)) (hc : record c.1 ∉ seen) (haccept : filter (record c.1) = true)
    (hfull : k ≤ before + 1) : Picked F record k filter seen before (c :: rest) [c] where
  sub := List.singleton_sublist.mpr List.mem_cons_self
  nodup := List.nodup_singleton _
  fresh := by
    intro x hx
    rwa [List.mem_singleton.mp hx]
  accepted := by
    intro x hx
    rwa [List.mem_singleton.mp hx]
  best := by
    intro hsorted x hx y hy _
    rw [List.mem_singleton.mp hx]
    rcases List.mem_cons.mp hy with rfl | hy
    · exact F.lt_irrefl _
    · exact List.rel_of_pairwise_cons hsorted hy
  within := by
    intro hlt
    exact hlt
  filled := Or.inl ⟨List.cons_ne_nil _ _, hfull⟩

theorem Picked.none (F : Floats) (record : Nat → Ulid) (k : Nat) (filter : Ulid → Bool) (seen : List Ulid)
    (before : Nat) : Picked F record k filter seen before [] [] where
  sub := List.Sublist.refl _
  nodup := List.nodup_nil
  fresh := by simp
  accepted := by simp
  best := by simp
  within := fun hlt => hlt.le
  filled := Or.inr (by simp)

/-- What the loop over the candidates of a round gives. -/
theorem wp_collectHits (F : Floats) {src : PageSource} {T : Nat × F32 → Prop} {K : Ctx → Prop} {E : Error → Prop}
    (hnode : ∀ x ctx, T x → K ctx → Wp (Ctx.node src x.1) ctx (fun n ctx' => K ctx' ∧ n.recordId = record x.1) E)
    {candidates : List (Nat × F32)} (hT : ∀ x ∈ candidates, T x) {hits : List Hit} {ctx : Ctx} (hctx : K ctx) :
    Wp (collectHits src k filter candidates seen hits) ctx
      (fun r ctx' => K ctx' ∧ ∃ picked, r = hits ++ picked.map (hitOf record) ∧
        Picked F record k filter seen hits.length candidates picked) E := by
  induction candidates generalizing seen hits ctx with
  | nil => exact Wp.pure ⟨hctx, [], (List.append_nil _).symm, Picked.none F record k filter seen _⟩
  | cons c rest ih =>
      have hrest : ∀ x ∈ rest, T x := fun x hx => hT x (List.mem_cons_of_mem _ hx)
      unfold collectHits
      refine Wp.bind ((hnode c ctx (hT c List.mem_cons_self) hctx).imp ?_)
      rintro n ctx₁ ⟨hctx₁, hrecord⟩
      rw [hrecord]
      dsimp only
      split_ifs with hseen haccept hfull
      · refine (ih hrest hctx₁).imp ?_
        rintro r ctx' ⟨hctx', picked, hr, hpicked⟩
        exact ⟨hctx', picked, hr, hpicked.skip (List.Subset.refl _) hseen fun id hid _ => hid⟩
      · -- the loop breaks after the push
        refine Wp.pure ⟨hctx₁, [c], rfl, Picked.last F rest hseen haccept ?_⟩
        rwa [List.length_append] at hfull
      · refine (ih hrest hctx₁).imp ?_
        rintro r ctx' ⟨hctx', picked, hr, hpicked⟩
        rw [List.length_append, List.length_singleton] at hfull hpicked
        refine ⟨hctx', c :: picked, ?_, hpicked.take hseen haccept (by omega)⟩
        rw [hr, List.append_assoc]
        rfl
      · refine (ih hrest hctx₁).imp ?_
        rintro r ctx' ⟨hctx', picked, hr, hpicked⟩
        refine ⟨hctx', picked, hr, hpicked.skip (List.subset_cons_self _ _) List.mem_cons_self ?_⟩
        intro id hid haccept'
        rcases List.mem_cons.mp hid with rfl | hid
        · exact absurd haccept' haccept
        · exact hid

end Picked

/-! ## The rounds -/

/-- Similarities compare as numbers do: there is no NaN among them. -/
def Exact (F : Floats) : Prop := ∀ x y z, F.lt x z = true → F.lt x y = true ∨ F.lt y z = true

/-- The order of similarities. -/
theorem cmp_ne_gt {F : Floats} {x y : F32} : F.cmp x y ≠ .gt ↔ F.lt y x = false := by
  unfold Floats.cmp
  cases hlt : F.lt x y with
  | true =>
      simp only [if_true]
      refine iff_of_true (by decide) ?_
      by_contra hgt
      have hself := F.lt_trans x y x hlt (by simpa using hgt)
      rw [F.lt_irrefl] at hself
      cases hself
  | false => cases F.lt y x <;> simp

/-- Sorting puts the best first. -/
theorem bestFirst_bestFirst {F : Floats} (hF : Exact F) (l : List (Nat × F32)) : BestFirst F (bestFirst F l) := by
  have htotal : Std.Total fun a b : Nat × F32 => F.cmp b.2 a.2 ≠ .gt := by
    refine ⟨?_⟩
    intro a b
    rw [cmp_ne_gt, cmp_ne_gt]
    by_contra hboth
    rw [not_or, Bool.not_eq_false, Bool.not_eq_false] at hboth
    have hself := F.lt_trans _ _ _ hboth.1 hboth.2
    rw [F.lt_irrefl] at hself
    cases hself
  have htrans : IsTrans (Nat × F32) fun a b => F.cmp b.2 a.2 ≠ .gt := by
    refine ⟨?_⟩
    intro a b c hab hbc
    rw [cmp_ne_gt] at hab hbc ⊢
    by_contra hac
    rcases hF a.2 b.2 c.2 (by simpa using hac) with h | h
    · rw [hab] at h
      cases h
    · rw [hbc] at h
      cases h
  have hsorted := List.pairwise_insertionSort (fun a b : Nat × F32 => F.cmp b.2 a.2 ≠ .gt) l
  refine hsorted.imp ?_
  intro a b hab
  exact cmp_ne_gt.mp hab

/-- The round a search ends with: its hits are those of its candidates, and it is the
last for a reason. -/
structure Round.Ends (F : Floats) (record : Nat → Ulid) (stats : HnswMeta) (k : Nat) (filter : Ulid → Bool)
    (L : Nat → List (Nat × F32) → Prop) (r : Round) : Prop where
  candidates : L r.ef r.candidates
  reserved : r.reserved = k
  hits : ∃ picked, r.hits = picked.map (hitOf record) ∧ Picked F record k filter [] 0 r.candidates picked
  last : k ≤ r.hits.length ∨ efCeiling stats ≤ r.ef ∨ stats.nodeCount ≤ r.candidates.length

/-- What the rounds end in: a panic, if the reservation is too large, or a round. -/
def Ended (F : Floats) (record : Nat → Ulid) (stats : HnswMeta) (k : Nat) (filter : Ulid → Bool)
    (L : Nat → List (Nat × F32) → Prop) (o : Outcome) : Prop :=
  (2 ^ 63 - 1 < k * HIT_SIZE ∧ o = .capacityOverflow) ∨
    (k * HIT_SIZE ≤ 2 ^ 63 - 1 ∧ ∃ r, o = .found r ∧ r.Ends F record stats k filter L)

section Rounds

variable {F : Floats} {src : PageSource} {dims : Nat} {query : List F32} {record : Nat → Ulid} {stats : HnswMeta}
  {k : Nat} {filter : Ulid → Bool} {T : Nat × F32 → Prop} {K : Ctx → Prop} {E : Error → Prop}
  {L : Nat → List (Nat × F32) → Prop} {entry : Nat × F32}

/-- Every round that is not the last widens the beam. -/
theorem lt_widerEf {ef : Nat} (hpos : 1 ≤ ef) (hlt : ef < efCeiling stats) : ef < widerEf (efCeiling stats) ef := by
  unfold widerEf
  unfold efCeiling at hlt ⊢
  omega

/-- The rounds of a search, each with a wider beam. -/
theorem wp_searchRounds
    (hnode : ∀ x ctx, T x → K ctx → Wp (Ctx.node src x.1) ctx (fun n ctx' => K ctx' ∧ n.recordId = record x.1) E)
    (hlayer : ∀ ef ctx, K ctx → Wp (searchLayer F src dims [entry] 0 query ef) ctx
      (fun r ctx' => K ctx' ∧ L ef r) E)
    (hT : ∀ ef r, L ef r → ∀ x ∈ r, T x) {fuel ef : Nat} (hpos : 1 ≤ ef)
    (hfuel : efCeiling stats - ef < fuel) {ctx : Ctx} (hctx : K ctx) :
    Wp (searchRounds F src dims stats entry query k filter fuel ef) ctx
      (fun o _ => Ended F record stats k filter L o) E := by
  induction fuel generalizing ef ctx with
  | zero => exact absurd hfuel (Nat.not_lt_zero _)
  | succ fuel ih =>
      unfold searchRounds
      refine Wp.bind ((hlayer ef ctx hctx).imp ?_)
      rintro candidates ctx₁ ⟨hctx₁, hL⟩
      split_ifs with hcap
      · exact Wp.pure (Or.inl ⟨hcap, rfl⟩)
      refine Wp.bind ((wp_collectHits F hnode (hT ef _ hL) hctx₁).imp ?_)
      rintro hits ctx₂ ⟨hctx₂, picked, hhits, hpicked⟩
      split_ifs with hlast
      · exact Wp.pure (Or.inr ⟨not_lt.mp hcap, _, rfl, hL, rfl, ⟨picked, hhits, hpicked⟩, hlast⟩)
      · rw [not_or, not_or, not_le, not_le, not_le] at hlast
        have hwider := lt_widerEf hpos hlast.2.1
        exact ih (by omega) (by omega) hctx₂

end Rounds

/-! ## Any pages -/

/-- The node on a page. -/
def nodeAt (src : PageSource) (pageNo : Nat) : Except Error HnswNode := do
  let page ← src.page pageNo
  HnswNode.decode page pageNo

/-- The vector in a slot of a page. -/
def vectorIn (src : PageSource) (dims : Nat) (slot : Nat × Nat) : Except Error (List F32) := do
  let page ← src.page slot.1
  vectorPageGet page dims slot.2 slot.1

/-- The similarity of the node on a page. -/
def simAt (F : Floats) (src : PageSource) (dims : Nat) (query : List F32) (pageNo : Nat) : Except Error F32 := do
  let node ← nodeAt src pageNo
  let vector ← vectorIn src dims (node.vecPage, node.vecSlot)
  .ok (F.dot vector query)

/-- The record of the node on a page. -/
def recordAt (src : PageSource) (pageNo : Nat) : Ulid :=
  match nodeAt src pageNo with
  | .ok node => node.recordId
  | .error _ => 0

/-- What is remembered is what the source holds. -/
structure Remembers (src : PageSource) (dims : Nat) (ctx : Ctx) : Prop where
  nodes : ∀ p n, ctx.nodes.lookup p = some n → nodeAt src p = .ok n
  vectors : ∀ slot v, ctx.vectors.lookup slot = some v → vectorIn src dims slot = .ok v

/-- An error that the loops have not made up: that they did not end is only reported
where the source has an error of these very words. -/
def Reported (src : PageSource) (e : Error) : Prop := e = outOfFuel → ∃ n, src.page n = .error outOfFuel

/-- The numbers a page can have. -/
def PageNumber (p : Nat) : Prop := p ≠ 0 ∧ p < 2 ^ 64

section Decode

variable {src : PageSource} {page : Bytes} {pageNo : Nat}

theorem errs_okOr {α : Type} {P : Error → Prop} {o : Option α} {e : Error} (h : P e) : Errs P (okOr o e) := by
  cases o with
  | none => exact Errs.error h
  | some a => exact Errs.ok a

theorem reported_malformed {α : Type} (pageNo : Nat) (what : String) :
    Errs (Reported src) (malformed pageNo what : Except Error α) := by
  refine Errs.error ?_
  intro h
  cases h

theorem reported_okOr {α : Type} (o : Option α) (pageNo : Nat) (what : String) :
    Errs (Reported src) (okOr o (.malformedPage pageNo what)) := by
  refine errs_okOr ?_
  intro h
  cases h

theorem reported_page (src : PageSource) (p : Nat) : Errs (Reported src) (src.page p) := by
  intro e he h
  exact ⟨p, h ▸ he⟩

/-- Decoding neighbours fails with a report of the page. -/
theorem decodeNeighbors_reported (count off : Nat) :
    Errs (Reported src) (HnswNode.decodeNeighbors page pageNo count off) := by
  induction count generalizing off with
  | zero => exact Errs.ok _
  | succ count ih =>
      refine Errs.bind (reported_okOr _ _ _) ?_
      intro n _
      split_ifs
      · exact reported_malformed _ _
      · exact Errs.bind (ih _) fun rest _ => Errs.ok _

/-- So does decoding layers. -/
theorem decodeLayers_reported (count off : Nat) :
    Errs (Reported src) (HnswNode.decodeLayers page pageNo count off) := by
  induction count generalizing off with
  | zero => exact Errs.ok _
  | succ count ih =>
      refine Errs.bind (reported_okOr _ _ _) ?_
      intro n _
      split_ifs
      · exact reported_malformed _ _
      · refine Errs.bind (decodeNeighbors_reported _ _) ?_
        intro neighbors _
        exact Errs.bind (ih _) fun rest _ => Errs.ok _

/-- So does reading a node. -/
theorem nodeAt_reported (src : PageSource) (p : Nat) : Errs (Reported src) (nodeAt src p) := by
  refine Errs.bind (reported_page src p) ?_
  intro page _
  refine Errs.bind (reported_okOr _ _ _) ?_
  intro header _
  split_ifs
  · exact reported_malformed _ _
  refine Errs.bind (reported_okOr _ _ _) ?_
  intro recordId _
  refine Errs.bind (reported_okOr _ _ _) ?_
  intro vecPage _
  refine Errs.bind (reported_okOr _ _ _) ?_
  intro vecSlot _
  refine Errs.bind (reported_okOr _ _ _) ?_
  intro layerCount _
  exact Errs.bind (decodeLayers_reported _ _) fun layers _ => Errs.ok _

/-- So does reading a vector. -/
theorem vectorIn_reported (src : PageSource) (dims : Nat) (slot : Nat × Nat) :
    Errs (Reported src) (vectorIn src dims slot) := by
  refine Errs.bind (reported_page src slot.1) ?_
  intro page _
  refine Errs.bind (reported_okOr _ _ _) ?_
  intro header _
  split_ifs
  · exact reported_malformed _ _
  · exact reported_malformed _ _
  · exact Errs.bind (reported_okOr _ _ _) fun bytes _ => Errs.ok _

/-- So does reading the meta page. -/
theorem loadMeta_reported (src : PageSource) (root : Nat) : Errs (Reported src) (loadMeta src root) := by
  unfold loadMeta
  split_ifs
  · exact Errs.ok _
  refine Errs.bind (reported_page src root) ?_
  intro page _
  refine Errs.bind ?_ fun stats _ => Errs.ok _
  refine Errs.bind (reported_okOr _ _ _) ?_
  intro header _
  split_ifs
  · exact reported_malformed _ _
  refine Errs.bind (reported_okOr _ _ _) ?_
  intro m _
  split_ifs
  · exact reported_malformed _ _
  refine Errs.bind (reported_okOr _ _ _) ?_
  intro efConstruction _
  refine Errs.bind (reported_okOr _ _ _) ?_
  intro maxLayer _
  refine Errs.bind (reported_okOr _ _ _) ?_
  intro entryPoint _
  refine Errs.bind (reported_okOr _ _ _) ?_
  intro nodeCount _
  split_ifs
  · exact reported_malformed _ _
  · exact Errs.ok _

/-- A neighbour is never page 0. -/
theorem decodeNeighbors_numbers {count off : Nat} {list : List Nat}
    (h : HnswNode.decodeNeighbors page pageNo count off = .ok list) : ∀ q ∈ list, PageNumber q := by
  induction count generalizing off list with
  | zero =>
      cases h
      simp
  | succ count ih =>
      rcases bind_eq_ok.mp h with ⟨n, hn, h⟩
      split_ifs at h with hzero
      · cases h
      rcases bind_eq_ok.mp h with ⟨rest, hrest, h⟩
      cases h
      intro q hq
      rcases List.mem_cons.mp hq with rfl | hq
      · exact ⟨hzero, readLE_lt (okOr_eq_ok.mp hn)⟩
      · exact ih hrest q hq

/-- Links that were decoded are page numbers. -/
theorem decodeLayers_numbers {count off : Nat} {layers : List (List Nat)}
    (h : HnswNode.decodeLayers page pageNo count off = .ok layers) : ∀ list ∈ layers, ∀ q ∈ list, PageNumber q := by
  induction count generalizing off layers with
  | zero =>
      cases h
      simp
  | succ count ih =>
      rcases bind_eq_ok.mp h with ⟨n, hn, h⟩
      split_ifs at h
      · cases h
      rcases bind_eq_ok.mp h with ⟨neighbors, hneighbors, h⟩
      rcases bind_eq_ok.mp h with ⟨rest, hrest, h⟩
      cases h
      intro list hlist
      rcases List.mem_cons.mp hlist with rfl | hlist
      · exact decodeNeighbors_numbers hneighbors
      · exact ih hrest list hlist

/-- So are the links of a node that was read. -/
theorem nodeAt_numbers {p : Nat} {node : HnswNode} (h : nodeAt src p = .ok node) :
    ∀ list ∈ node.layers, ∀ q ∈ list, PageNumber q := by
  rcases bind_eq_ok.mp h with ⟨page, _, h⟩
  rcases bind_eq_ok.mp h with ⟨header, _, h⟩
  split_ifs at h
  · cases h
  rcases bind_eq_ok.mp h with ⟨recordId, _, h⟩
  rcases bind_eq_ok.mp h with ⟨vecPage, _, h⟩
  rcases bind_eq_ok.mp h with ⟨vecSlot, _, h⟩
  rcases bind_eq_ok.mp h with ⟨layerCount, _, h⟩
  rcases bind_eq_ok.mp h with ⟨layers, hlayers, h⟩
  cases h
  exact decodeLayers_numbers hlayers

/-- So is the entry point of an index with nodes. -/
theorem loadMeta_entry {root : Nat} {stats : HnswMeta} (h : loadMeta src root = .ok (some stats))
    (hcount : stats.nodeCount ≠ 0) : PageNumber stats.entryPointPage := by
  unfold loadMeta at h
  split_ifs at h
  · cases h
  rcases bind_eq_ok.mp h with ⟨page, _, h⟩
  rcases bind_eq_ok.mp h with ⟨stats', hstats, h⟩
  cases h
  rcases bind_eq_ok.mp hstats with ⟨header, _, h⟩
  split_ifs at h
  · cases h
  rcases bind_eq_ok.mp h with ⟨m, _, h⟩
  split_ifs at h
  · cases h
  rcases bind_eq_ok.mp h with ⟨efConstruction, _, h⟩
  rcases bind_eq_ok.mp h with ⟨maxLayer, _, h⟩
  rcases bind_eq_ok.mp h with ⟨entryPoint, hentry, h⟩
  rcases bind_eq_ok.mp h with ⟨nodeCount, _, h⟩
  split_ifs at h with hzero
  · cases h
  cases h
  rw [not_and] at hzero
  exact ⟨hzero (Nat.pos_of_ne_zero hcount), readLE_lt (okOr_eq_ok.mp hentry)⟩

end Decode

section Any

variable {F : Floats} {src : PageSource} {dims : Nat} {query : List F32} {ctx : Ctx}

/-- Reading a node through a cache of anything. -/
theorem wp_nodeAt (p : Nat) (hctx : Remembers src dims ctx) :
    Wp (Ctx.node src p) ctx (fun n ctx' => Remembers src dims ctx' ∧ nodeAt src p = .ok n) (Reported src) := by
  unfold Ctx.node
  refine Wp.bind (Wp.get ?_)
  cases hl : ctx.nodes.lookup p with
  | some n => exact Wp.pure ⟨hctx, hctx.nodes p n hl⟩
  | none =>
      refine Wp.bind (Wp.lift ?_ (reported_page src p))
      intro page hpage
      have hnode : nodeAt src p = HnswNode.decode page p := by
        unfold nodeAt
        rw [hpage, ok_bind]
      refine Wp.bind (Wp.lift ?_ ?_)
      · intro n hn
        rw [← hnode] at hn
        refine Wp.bind (Wp.modify (Wp.pure ⟨⟨?_, hctx.vectors⟩, hn⟩))
        intro q n' hn'
        rw [List.lookup_cons] at hn'
        by_cases hq : q = p
        · subst hq
          rw [beq_self_eq_true] at hn'
          cases hn'
          exact hn
        · rw [beq_false_of_ne hq] at hn'
          exact hctx.nodes q n' hn'
      · rw [← hnode]
        exact nodeAt_reported src p

/-- The similarity of what is on a page. -/
theorem wp_simAt (p : Nat) (hctx : Remembers src dims ctx) :
    Wp (Ctx.simTo F src dims query p) ctx
      (fun s ctx' => Remembers src dims ctx' ∧ simAt F src dims query p = .ok s) (Reported src) := by
  unfold Ctx.simTo Ctx.vector
  refine Wp.bind (Wp.bind ((wp_nodeAt p hctx).imp ?_))
  rintro n ctx₁ ⟨hctx₁, hn⟩
  have hsim : ∀ v, vectorIn src dims (n.vecPage, n.vecSlot) = .ok v →
      simAt F src dims query p = .ok (F.dot v query) := by
    intro v hv
    unfold simAt
    rw [hn, ok_bind, hv, ok_bind]
  refine Wp.bind (Wp.get ?_)
  cases hl : ctx₁.vectors.lookup (n.vecPage, n.vecSlot) with
  | some v => exact Wp.pure (Wp.pure ⟨hctx₁, hsim v (hctx₁.vectors _ v hl)⟩)
  | none =>
      refine Wp.bind (Wp.lift ?_ (reported_page src n.vecPage))
      intro page hpage
      have hvector : vectorIn src dims (n.vecPage, n.vecSlot) = vectorPageGet page dims n.vecSlot n.vecPage := by
        unfold vectorIn
        rw [hpage, ok_bind]
      refine Wp.bind (Wp.lift ?_ ?_)
      · intro v hv
        rw [← hvector] at hv
        refine Wp.bind (Wp.modify (Wp.pure (Wp.pure ⟨⟨hctx₁.nodes, ?_⟩, hsim v hv⟩)))
        intro slot v' hv'
        rw [List.lookup_cons] at hv'
        by_cases hslot : slot = (n.vecPage, n.vecSlot)
        · subst hslot
          rw [beq_self_eq_true] at hv'
          cases hv'
          exact hv
        · rw [beq_false_of_ne hslot] at hv'
          exact hctx₁.vectors slot v' hv'
      · rw [← hvector]
        exact vectorIn_reported src dims _

/-- A page that has been read, with its similarity. -/
def Read (F : Floats) (src : PageSource) (dims : Nat) (query : List F32) (x : Nat × F32) : Prop :=
  PageNumber x.1 ∧ simAt F src dims query x.1 = .ok x.2

/-- Any pages can be walked on. -/
theorem space_any (F : Floats) (src : PageSource) (dims : Nat) (query : List F32) (layer : Nat) :
    Space F src dims query layer PageNumber (Read F src dims query) (Remembers src dims) (Reported src) where
  node := by
    intro x ctx _ hctx
    refine (wp_nodeAt x.1 hctx).imp ?_
    rintro n ctx' ⟨hctx', hn⟩
    refine ⟨hctx', ?_⟩
    intro list hlist
    exact nodeAt_numbers hn list (List.mem_of_getElem? hlist)
  sim := by
    intro q ctx hq hctx
    refine (wp_simAt q hctx).imp ?_
    rintro s ctx' ⟨hctx', hs⟩
    exact ⟨hctx', hq, hs⟩

/-- All page numbers. -/
@[irreducible] def pageNumbers : List Nat := List.range' 1 (2 ^ 64 - 1)

theorem mem_pageNumbers {p : Nat} (h : PageNumber p) : p ∈ pageNumbers := by
  unfold pageNumbers
  rw [List.mem_range'_1]
  have hpos := Nat.pos_of_ne_zero h.1
  have hlt := h.2
  omega

theorem pageNumbers_length : pageNumbers.length < FUEL := by
  unfold pageNumbers
  rw [List.length_range']
  unfold FUEL
  omega

/-- The pages that can be read, with their similarities. -/
def readPages (F : Floats) (src : PageSource) (dims : Nat) (query : List F32) : List (Nat × F32) :=
  pageNumbers.filterMap fun p => (simAt F src dims query p).toOption.map fun s => (p, s)

/-- What was read is on one of the pages. -/
theorem mem_readPages {x : Nat × F32} (h : Read F src dims query x) : x ∈ readPages F src dims query := by
  refine List.mem_filterMap.mpr ⟨x.1, mem_pageNumbers h.1, ?_⟩
  rw [h.2]
  rfl

/-- Fewer pages than fuel. -/
theorem closerThan_readPages (sim : F32) : (closerThan F (readPages F src dims query) sim).length < FUEL := by
  refine lt_of_le_of_lt (List.length_filter_le _ _) ?_
  exact lt_of_le_of_lt (List.length_filterMap_le _ _) pageNumbers_length

/-- The descent through any layers. -/
theorem wp_descend_any {stats : HnswMeta} (hentry : PageNumber stats.entryPointPage) {level : Nat}
    (hctx : Remembers src dims ctx) :
    Wp (descend F src dims query stats level) ctx
      (fun r ctx' => Remembers src dims ctx' ∧ Read F src dims query r) (Reported src) := by
  unfold descend
  refine Wp.bind ((wp_simAt _ hctx).imp ?_)
  rintro s ctx₁ ⟨hctx₁, hs⟩
  have hloop := Wp.foldlM (s := ctx₁) (E := Reported src)
    (f := fun (best : Nat × F32) layer => greedyClosest F src dims query layer FUEL best.1 best.2)
    (g := fun (_ : Unit) _ => ()) (R := fun _ r ctx' => Remembers src dims ctx' ∧ Read F src dims query r)
    (List.range' (level + 1) (stats.maxLayer - level)).reverse ?_ (c := ())
    (b := (stats.entryPointPage, s)) ⟨hctx₁, hentry, hs⟩
  · exact hloop
  · rintro layer _ _ best ctx₂ ⟨hctx₂, hbest⟩
    exact (space_any F src dims query layer).greedyClosest (fun x hx => mem_readPages hx) hbest hctx₂
      (closerThan_readPages _)

/-- The candidates of a round: at most as many distinct pages as the beam is wide, each
with its similarity, the best first. -/
structure Candidates (F : Floats) (src : PageSource) (dims : Nat) (query : List F32) (ef : Nat)
    (candidates : List (Nat × F32)) : Prop where
  read : ∀ x ∈ candidates, Read F src dims query x
  distinct : (candidates.map Prod.fst).Nodup
  width : candidates.length ≤ max ef 1
  bestFirst : BestFirst F candidates

/-- The search of one layer over any pages. -/
theorem wp_searchLayer_any (hF : Exact F) {entry : Nat × F32} (hentry : Read F src dims query entry) {layer ef : Nat}
    (hctx : Remembers src dims ctx) :
    Wp (searchLayer F src dims [entry] layer query ef) ctx
      (fun r ctx' => Remembers src dims ctx' ∧ Candidates F src dims query ef r) (Reported src) := by
  have hentries : ∀ x ∈ [entry], Read F src dims query x := by
    intro x hx
    rwa [List.mem_singleton.mp hx]
  have hdistinct : ([entry].map Prod.fst).Nodup := List.nodup_singleton _
  refine ((space_any F src dims query layer).searchLayer (fun x hx => mem_pageNumbers hx.1) pageNumbers_length
    hdistinct hentries hctx).imp ?_
  rintro r ctx' ⟨hctx', hread, hdistinct', hwidth, l, rfl⟩
  refine ⟨hctx', hread, hdistinct', ?_, bestFirst_bestFirst hF l⟩
  rw [List.length_singleton] at hwidth
  omega

/-- The search over any pages. -/
theorem wp_search_any (hF : Exact F) {stats : HnswMeta} (hentry : PageNumber stats.entryPointPage) (k : Nat)
    (params : SearchParams) (filter : Ulid → Bool) :
    Wp (do
      let entry ← descend F src dims query stats 0
      searchRounds F src dims stats entry query k filter FUEL (initialEf params k) : CtxM Outcome) {}
      (fun o _ => Ended F (recordAt src) stats k filter (Candidates F src dims query) o) (Reported src) := by
  have hempty : Remembers src dims {} := by
    constructor
    · intro p n h
      cases h
    · intro slot v h
      cases h
  refine Wp.bind ((wp_descend_any hentry hempty).imp ?_)
  rintro entry ctx ⟨hctx, hentry'⟩
  refine wp_searchRounds (T := Read F src dims query) (K := Remembers src dims) ?_ ?_ ?_ ?_ ?_ hctx
  · intro x ctx₁ _ hctx₁
    refine (wp_nodeAt x.1 hctx₁).imp ?_
    rintro n ctx₂ ⟨hctx₂, hn⟩
    refine ⟨hctx₂, ?_⟩
    unfold recordAt
    rw [hn]
  · intro ef ctx₁ hctx₁
    exact wp_searchLayer_any hF hentry' hctx₁
  · intro ef r hr
    exact hr.read
  · exact le_max_right _ _
  · unfold efCeiling FUEL
    omega

/-- The hits of a round: at most `k`, of distinct accepted records, the best first, each
with the best similarity of its record among the candidates of the round. -/
structure Shape (F : Floats) (src : PageSource) (dims : Nat) (query : List F32) (k : Nat) (filter : Ulid → Bool)
    (r : Round) : Prop where
  candidates : Candidates F src dims query r.ef r.candidates
  hits_length : r.hits.length ≤ k
  records : (r.hits.map Hit.recordId).Nodup
  accepted : ∀ h ∈ r.hits, filter h.recordId = true
  sorted : r.hits.Pairwise fun a b => F.lt a.score b.score = false
  score : ∀ h ∈ r.hits, (∃ x ∈ r.candidates, recordAt src x.1 = h.recordId ∧ x.2 = h.score) ∧
    ∀ y ∈ r.candidates, recordAt src y.1 = h.recordId → F.lt h.score y.2 = false

/-- The shape of an answer, from the last round. -/
theorem Round.Ends.shape {stats : HnswMeta} {k : Nat} {filter : Ulid → Bool} {r : Round} (hk : 1 ≤ k)
    (h : r.Ends F (recordAt src) stats k filter (Candidates F src dims query)) :
    Shape F src dims query k filter r := by
  rcases h.hits with ⟨picked, hhits, hpicked⟩
  have hmem : ∀ hit ∈ r.hits, ∃ x ∈ picked, hitOf (recordAt src) x = hit := by
    intro hit hhit
    rw [hhits] at hhit
    exact List.mem_map.mp hhit
  constructor
  case candidates => exact h.candidates
  case hits_length =>
    have hwithin := hpicked.within hk
    rw [hhits, List.length_map]
    omega
  case records =>
    rw [hhits, List.map_map]
    exact hpicked.nodup
  case accepted =>
    intro hit hhit
    rcases hmem hit hhit with ⟨x, hx, rfl⟩
    exact hpicked.accepted x hx
  case sorted =>
    rw [hhits, List.pairwise_map]
    exact h.candidates.bestFirst.sublist hpicked.sub
  case score =>
    intro hit hhit
    rcases hmem hit hhit with ⟨x, hx, rfl⟩
    exact ⟨⟨x, hpicked.sub.subset hx, rfl, rfl⟩, hpicked.best h.candidates.bestFirst x hx⟩

/-- On any pages, cyclic links included, a search ends: the error that it did not end is
not one that its loops have made up. What it returns has the shape above. -/
theorem search_shape (hF : Exact F) (src : PageSource) (dims root : Nat) (query : List F32) {k : Nat} (hk : 1 ≤ k)
    (hk' : k ≤ 2 ^ 32) (params : SearchParams) (filter : Ulid → Bool) :
    (∀ e, search F src dims root query k params filter = .error e → Reported src e) ∧
    ∀ o, search F src dims root query k params filter = .ok o →
      o = .noIndex ∨ ∃ r, o = .found r ∧ Shape F src dims query k filter r := by
  unfold search
  -- a query of another length is refused
  split_ifs with hlen
  · refine ⟨Errs.error ?_, ?_⟩
    · intro h
      cases h
    · intro o ho
      cases ho
  cases hload : loadMeta src root with
  | error e =>
      refine ⟨Errs.error (loadMeta_reported src root e hload), ?_⟩
      intro o ho
      cases ho
  | ok loaded =>
      rw [ok_bind]
      cases loaded with
      | none =>
          refine ⟨Errs.ok _, ?_⟩
          intro o ho
          cases ho
          exact Or.inl rfl
      | some stats =>
          dsimp only
          by_cases hcount : stats.nodeCount = 0
          · rw [if_pos hcount]
            refine ⟨Errs.ok _, ?_⟩
            intro o ho
            cases ho
            exact Or.inl rfl
          rw [if_neg hcount]
          -- the search proper: it ends with its hits, or the list of hits does not fit
          have hrun := @wp_search_any F src dims query hF stats (loadMeta_entry hload hcount) k params filter
          constructor
          · refine Errs.bind (fun e he => hrun.error he) ?_
            intro r _
            exact Errs.ok _
          · intro o ho
            rcases bind_eq_ok.mp ho with ⟨⟨o', ctx⟩, hrun', ho'⟩
            cases ho'
            rcases hrun.ok hrun' with ⟨hcap, _⟩ | ⟨_, r, rfl, hends⟩
            · unfold HIT_SIZE at hcap
              omega
            · exact Or.inr ⟨r, rfl, hends.shape hk⟩

end Any

/-- The arithmetic of `f32` on the one-dimensional vectors 0.0 and 1.0; the levels of
the first sixteen nodes. -/
def unitFloats : Floats where
  dot a b := if a = [0x3f800000] ∧ b = [0x3f800000] then 0x3f800000 else 0
  lt a b := decide (a.toNat < b.toNat)
  level _ _ := 0
  lt_irrefl := by simp
  lt_trans := by
    intro x y z h h'
    have h1 := of_decide_eq_true h
    have h2 := of_decide_eq_true h'
    exact decide_eq_true (lt_trans h1 h2)

/-- Floats of the example compare exactly. -/
theorem exact_unitFloats : Exact unitFloats := by
  intro x y z h
  have hlt := of_decide_eq_true h
  rcases Nat.lt_or_ge x.toNat y.toNat with hxy | hyx
  · exact Or.inl (decide_eq_true hxy)
  · exact Or.inr (decide_eq_true (lt_of_le_of_lt hyx hlt))

/-- A file of two nodes of one record that are each other's neighbour, and their own. -/
def cyclicGraph (H : Xxh3) : PageSource where
  page n :=
    if n = 1 then (HnswMeta.mk 16 200 0 2 2).encode H 512
    else if n = 2 then okOr ((HnswNode.mk 7 4 0 [[2, 3]]).encode H 512) doesNotFit
    else if n = 3 then okOr ((HnswNode.mk 7 4 1 [[2, 3]]).encode H 512) doesNotFit
    else if n = 4 then .ok ((PageHeader.mk .vector 2 0).encodeInto
      (splice (List.replicate 512 0) PAGE_HEADER_LEN (encodeVector [0, 0x3f800000])))
    else .error (.pageOutOfBounds n 5)
  pageSize := 512
  formatVersion := FORMAT_VERSION

set_option maxRecDepth 10000 in
/-- The search in that file gives one hit, with the similarity of the better node. -/
theorem search_shape_cyclicGraph :
    ∃ r, search unitFloats (cyclicGraph ⟨fun _ => 0, fun _ _ => 0⟩) 1 1 [0x3f800000] 3 ⟨64⟩ (fun _ => true) =
        .ok (.found r) ∧ r.hits = [⟨7, 0x3f800000⟩] ∧
      Shape unitFloats (cyclicGraph ⟨fun _ => 0, fun _ _ => 0⟩) 1 [0x3f800000] 3 (fun _ => true) r := by
  have hshape := (search_shape exact_unitFloats (cyclicGraph ⟨fun _ => 0, fun _ _ => 0⟩) 1 1 [0x3f800000]
    (k := 3) (by decide) (by decide) ⟨64⟩ fun _ => true).2
  have hrun : foundHits (search unitFloats (cyclicGraph ⟨fun _ => 0, fun _ _ => 0⟩) 1 1 [0x3f800000] 3 ⟨64⟩
      (fun _ => true)) = some [⟨7, 0x3f800000⟩] := by
    decide +kernel
  rcases exists_found hrun with ⟨r, hr, hhits⟩
  rcases hshape _ hr with hnone | ⟨r', hr', hshape'⟩
  · cases hnone
  · cases hr'
    exact ⟨r, hr, hhits, hshape'⟩

end Hnsw

end EmbedMind
