import EmbedMind.Index.HnswRuns
import EmbedMind.Index.HnswSearch

/-!
# The limit of a vector search

A search for `k` hits reserves memory for `k` of them before it looks at a candidate, and
tests whether they are enough after it has added one. `limit_safe_iff` says for which
limits that is harmless.
-/

namespace EmbedMind

open Lib

namespace Hnsw

/-- A search for `k` hits completes for every query and filter, reserves memory for no
more hits than the index has nodes and returns no more than `k`. -/
def LimitSafe (F : Floats) (src : PageSource) (dims root nodes k : Nat) : Prop :=
  ∀ query params filter, query.length = dims → ∃ r, search F src dims root query k params filter = .ok (.found r) ∧
    r.reserved ≤ nodes ∧ r.hits.length ≤ k

/-- The record of the entry on a page. -/
def recordOf (es : List Entry) (pageNo : Nat) : Ulid :=
  match es.find? fun e => e.page = pageNo with
  | some e => e.node.recordId
  | none => 0

section Index

variable {H : Xxh3} {F : Floats} {src : PageSource} {dims root m top : Nat} {stats : HnswMeta} {es : List Entry}
  {own : List Nat} {query : List F32} {k : Nat}

/-- The record of an entry. -/
theorem recordOf_eq (hdist : Distinct es) {e : Entry} (he : e ∈ es) : recordOf es e.page = e.node.recordId := by
  unfold recordOf
  cases hfind : es.find? fun e' => e'.page = e.page with
  | none =>
      have hnone := List.find?_eq_none.mp hfind e he
      simp at hnone
  | some e' =>
      have hpage : e'.page = e.page := by simpa using List.find?_some hfind
      rw [hdist.eq_of_page (List.mem_of_find?_eq_some hfind) he hpage]

/-- What a reader needs to search an index. -/
structure Searchable (src : PageSource) (dims : Nat) (es : List Entry) : Prop where
  readable : Readable src dims es
  distinct : Distinct es
  size : es.length < FUEL

/-- An index can be searched. -/
theorem At.searchable (h : At H src.pageSize dims src.view root stats es own) (ho : src.Owns own) :
    Searchable src dims es where
  readable := fun e he => (h.stored e he).readable ho.pageSize_ge
  distinct := distinct_of_nodup (h.headed.sublist.nodup ho.nodup)
  size := by
    rcases ho.bound with ⟨b, hb, hpages⟩
    calc es.length ≤ (pagesOf es).length := length_le_pagesOf es
      _ ≤ own.length := h.headed.sublist.length_le
      _ ≤ b := PagedTree.length_le_of_lt ho.nodup fun p hp => (hpages p hp).2
      _ < FUEL := hb

/-- The candidates of a search: distinct nodes of the index, at least one. -/
structure Nodes0 (es : List Entry) (candidates : List (Nat × F32)) : Prop where
  entries : ∀ x ∈ candidates, ∃ e ∈ es, e.page = x.1
  distinct : (candidates.map Prod.fst).Nodup
  nonempty : candidates ≠ []

/-- A search at layer 0 from a node of the index. -/
theorem wp_searchLayer_index (hs : Searchable src dims es) (hwired : Wired m top es) {entry : Nat × F32}
    (hentry : ∃ e ∈ es, e.page = entry.1 ∧ 0 < e.node.layers.length) (ef : Nat) {ctx : Ctx} (hctx : Coherent es ctx) :
    Wp (searchLayer F src dims [entry] 0 query ef) ctx (fun r ctx' => Coherent es ctx' ∧ Nodes0 es r)
      fun _ => False := by
  have hclosed := hwired.closed 0
  have hspace : Space F src dims query 0 _ _ _ _ := space_pages hs.readable hs.distinct hclosed
  have hpages : ∀ x : Nat × F32, (∃ e ∈ es, e.page = x.1 ∧ 0 < e.node.layers.length) → x.1 ∈ es.map Entry.page := by
    intro x hx
    rcases hx with ⟨e, he, hpage, _⟩
    rw [← hpage]
    exact List.mem_map_of_mem he
  have hsize : (es.map Entry.page).length < FUEL := by
    rw [List.length_map]
    exact hs.size
  have hnodup : ([entry].map Prod.fst).Nodup := List.nodup_singleton _
  have hentries : ∀ x ∈ [entry], ∃ e ∈ es, e.page = x.1 ∧ 0 < e.node.layers.length := by
    intro x hx
    rwa [List.mem_singleton.mp hx]
  refine (hspace.searchLayer hpages hsize hnodup hentries hctx).imp ?_
  rintro r ctx' ⟨hctx', hmem, hdistinct, ⟨hlow, _⟩, _⟩
  refine ⟨hctx', ?_, hdistinct, ?_⟩
  · intro x hx
    rcases hmem x hx with ⟨e, he, hpage, _⟩
    exact ⟨e, he, hpage⟩
  · intro hnil
    rw [hnil] at hlow
    exact absurd hlow (by simp)

/-- The node at which the descent through the upper layers ends. -/
def Lands (F : Floats) (src : PageSource) (dims root : Nat) (query : List F32) (p : Nat) : Prop :=
  ∃ stats sim ctx, loadMeta src root = .ok (some stats) ∧
    (descend F src dims query stats 0).run {} = .ok ((p, sim), ctx)

/-- A search of an index that is not empty descends to a node and ends with a round there,
unless it reserves too much memory. `L` is what a search of layer 0 from a node finds. -/
theorem search_ended (h : At H src.pageSize dims src.view root stats es own) (ho : src.Owns own) (hne : es ≠ [])
    (hlen : query.length = dims) (k : Nat) (params : SearchParams) (filter : Ulid → Bool)
    {L : Nat → Nat → List (Nat × F32) → Prop}
    (hL : ∀ entry : Nat × F32, (∃ e ∈ es, e.page = entry.1 ∧ 0 < e.node.layers.length) → ∀ ef ctx, Coherent es ctx →
      Wp (searchLayer F src dims [entry] 0 query ef) ctx (fun r ctx' => Coherent es ctx' ∧ L entry.1 ef r)
        fun _ => False)
    (hentries : ∀ p ef r, L p ef r → ∀ x ∈ r, ∃ e ∈ es, e.page = x.1) :
    ∃ p, Lands F src dims root query p ∧ (∃ e ∈ es, e.page = p ∧ 0 < e.node.layers.length) ∧
      ∃ o, search F src dims root query k params filter = .ok o ∧
        Ended F (recordOf es) stats k filter (L p) o := by
  -- the checks before the descent pass
  have hs := h.searchable ho
  have hroot : root ≠ 0 := by
    rcases h.pages with ⟨_, _, hnil, _⟩ | ⟨hroot, _⟩
    · exact absurd hnil hne
    · exact hroot
  have hcount : stats.nodeCount ≠ 0 := by
    rw [h.count]
    exact fun hzero => hne (List.length_eq_zero_iff.mp hzero)
  have hload : loadMeta src root = .ok (some stats) := by
    rw [h.loadMeta ho.pageSize_ge, if_neg hroot]
  rcases h.entry hne with ⟨e, he, hpage, hheight⟩
  have hdescend : Wp (descend F src dims query stats 0) {} _ _ :=
    wp_descend hs.readable hs.distinct h.wired hs.size he hpage hheight (coherent_empty es)
  cases hrun : (descend F src dims query stats 0).run {} with
  | error err => exact (hdescend.error hrun).elim
  | ok r =>
      rcases r with ⟨⟨p, sim⟩, ctx⟩
      rcases hdescend.ok hrun with ⟨hctx, e', he', hpage', hheight'⟩
      rw [Nat.zero_min] at hheight'
      have hentry : ∃ e ∈ es, e.page = p ∧ 0 < e.node.layers.length := ⟨e', he', hpage', hheight'⟩
      refine ⟨p, ⟨stats, sim, ctx, hload, hrun⟩, hentry, ?_⟩
      -- the rounds of the bottom layer start where the descent has ended
      have hrounds : Wp (searchRounds F src dims stats (p, sim) query k filter FUEL (initialEf params k)) ctx
          (fun o _ => Ended F (recordOf es) stats k filter (L p) o) fun _ => False := by
        refine wp_searchRounds (T := fun x => ∃ e ∈ es, e.page = x.1) (K := Coherent es) ?_ ?_ ?_ ?_ ?_ hctx
        · rintro ⟨q, s⟩ ctx₁ ⟨x, hx, rfl⟩ hctx₁
          refine (wp_node hs.readable hs.distinct hx hctx₁).imp ?_
          rintro n ctx₂ ⟨rfl, hctx₂⟩
          exact ⟨hctx₂, (recordOf_eq hs.distinct hx).symm⟩
        · intro ef ctx₁ hctx₁
          exact hL (p, sim) hentry ef ctx₁ hctx₁
        · exact hentries p
        · exact le_max_right _ _
        · unfold efCeiling FUEL
          omega
      unfold search
      rw [if_neg (by rw [hlen]; exact fun hne => hne rfl), hload, ok_bind]
      dsimp only
      rw [if_neg hcount]
      unfold Wp at hrounds
      split at hrounds
      · rename_i o ctx' hok
        refine ⟨o, bind_eq_ok.mpr ⟨(o, ctx'), ?_, rfl⟩, hrounds⟩
        exact bind_eq_ok.mpr ⟨((p, sim), ctx), hrun, hok⟩
      · exact hrounds.elim

/-- A search of an index that is not empty ends with a round, unless it reserves too
much memory. -/
theorem search_index (h : At H src.pageSize dims src.view root stats es own) (ho : src.Owns own) (hne : es ≠ [])
    (hlen : query.length = dims) (k : Nat) (params : SearchParams) (filter : Ulid → Bool) :
    ∃ o, search F src dims root query k params filter = .ok o ∧
      Ended F (recordOf es) stats k filter (fun _ r => Nodes0 es r) o := by
  rcases search_ended h ho hne hlen k params filter (L := fun _ _ r => Nodes0 es r)
    (fun entry hentry ef ctx hctx => wp_searchLayer_index (h.searchable ho) h.wired hentry ef hctx)
    (fun _ _ _ hr => hr.entries) with ⟨_, _, _, hended⟩
  exact hended

/-- The limits that are safe for an index. -/
theorem At.limitSafe_iff (h : At H src.pageSize dims src.view root stats es own) (ho : src.Owns own) (hne : es ≠ []) :
    LimitSafe F src dims root es.length k ↔ 1 ≤ k ∧ k ≤ es.length ∧ k * HIT_SIZE ≤ 2 ^ 63 - 1 := by
  constructor
  · intro hsafe
    have hlen : (List.replicate dims (0 : F32)).length = dims := List.length_replicate
    rcases hsafe (List.replicate dims 0) ⟨0⟩ (fun _ => true) hlen with ⟨r, hr, hreserved, hhits⟩
    rcases search_index h ho hne hlen k ⟨0⟩ fun _ => true with ⟨o, ho', hended⟩
    rw [hr] at ho'
    cases ho'
    rcases hended with ⟨_, hpanic⟩ | ⟨hcap, r', hfound, hends⟩
    · cases hpanic
    cases hfound
    refine ⟨?_, hends.reserved ▸ hreserved, hcap⟩
    -- every record is accepted, and so there is a hit
    rcases hends.hits with ⟨picked, hpicked, hp⟩
    have hsome : picked ≠ [] := by
      rcases hp.filled with ⟨hsome, _⟩ | hall
      · exact hsome
      · rcases List.exists_mem_of_ne_nil _ hends.candidates.nonempty with ⟨y, hy⟩
        rcases hall y hy rfl with hin | ⟨x, hx, _⟩
        · cases hin
        · exact List.ne_nil_of_mem hx
    have hpos := List.length_pos_iff.mpr hsome
    rw [hpicked, List.length_map] at hhits
    omega
  · rintro ⟨hpos, hle, hcap⟩ query params filter hlen
    rcases search_index h ho hne hlen k params filter with ⟨o, ho', hended⟩
    rcases hended with ⟨hpanic, _⟩ | ⟨_, r, rfl, hends⟩
    · omega
    refine ⟨r, ho', hends.reserved ▸ hle, ?_⟩
    rcases hends.hits with ⟨picked, hpicked, hp⟩
    have hwithin := hp.within hpos
    rw [hpicked, List.length_map]
    omega

end Index

/-- The index of a committed state. -/
theorem Run.inStore {H : Xxh3} {F : Floats} {dims m : Nat} {ids : List Ulid} {c : Committed} (h : Run H F dims m ids c) :
    c.Wf H ∧ ∃ stats es own, InStore H dims c stats es own ∧ stats.m = m ∧ es.map (fun e => e.node.recordId) = ids := by
  cases h with
  | init hwf hempty hm => exact ⟨hwf, _, [], _, hempty, hm, rfl⟩
  | commit hrun new ht =>
      rcases (wp_insertAll new hrun.holds).ok ht with ⟨ht', stats, es, own, hin, hm, hids⟩
      exact ⟨ht'.commit, stats, es, own, hin.commit ht', hm, hids⟩

/-- A search of a non-empty index is safe for exactly the limits from 1 to the number of
its nodes (of which there is room for fewer than a reservation would overflow). -/
theorem limit_safe_iff {H : Xxh3} {F : Floats} {dims m : Nat} {ids : List Ulid} {c : Committed}
    (h : Run H F dims m ids c) (hne : ids ≠ []) (k : Nat) :
    LimitSafe F (c.source H) dims c.header.hnswMetaPage ids.length k ↔
      1 ≤ k ∧ k ≤ ids.length ∧ k * HIT_SIZE ≤ 2 ^ 63 - 1 := by
  rcases h.inStore with ⟨hwf, stats, es, own, hin, _, hids⟩
  have hes : es ≠ [] := by
    rintro rfl
    exact hne hids.symm
  rw [← hids, List.length_map]
  exact hin.index.limitSafe_iff (hin.owns.source hwf) hes

/-- The three inserts of `hnsw_structure_three_inserts`. -/
def threeInserts : List (Ulid × List F32) := [(1, [0x3f800000]), (1, [0]), (2, [0x3f800000])]

/-- The three insertions succeed. -/
theorem exists_threeInserts : ∃ t, insertAll ⟨fun _ => 0, fun _ _ => 0⟩ unitFloats 1 threeInserts
    (Txn.begin (Committed.fresh 8 512)) = .ok ((), t) := by
  have hok : (insertAll ⟨fun _ => 0, fun _ _ => 0⟩ unitFloats 1 threeInserts
      (Txn.begin (Committed.fresh 8 512))).toOption.isSome = true := by
    decide +kernel
  cases hrun : insertAll ⟨fun _ => 0, fun _ _ => 0⟩ unitFloats 1 threeInserts (Txn.begin (Committed.fresh 8 512)) with
  | error e =>
      rw [hrun] at hok
      cases hok
  | ok r => exact ⟨r.2, rfl⟩

/-- They make a run. -/
theorem run_threeInserts {t : Txn} (ht : insertAll ⟨fun _ => 0, fun _ _ => 0⟩ unitFloats 1 threeInserts
    (Txn.begin (Committed.fresh 8 512)) = .ok ((), t)) :
    Run ⟨fun _ => 0, fun _ _ => 0⟩ unitFloats 1 16 [2, 1, 1] t.commit := by
  have hinit : Run ⟨fun _ => 0, fun _ _ => 0⟩ unitFloats 1 16 [] (Committed.fresh 8 512) :=
    Run.init (Committed.wf_fresh _ (by decide) (by decide) (by decide))
      (⟨at_empty, ⟨List.nodup_nil, by simp, by simp⟩⟩ : InStore _ 1 (Committed.fresh 8 512) .new [] []) rfl
  exact Run.commit hinit threeInserts ht

/-- The limit 2 is safe for three nodes. -/
theorem limit_safe_iff_two :
    ∃ c, Run ⟨fun _ => 0, fun _ _ => 0⟩ unitFloats 1 16 [2, 1, 1] c ∧
      LimitSafe unitFloats (c.source ⟨fun _ => 0, fun _ _ => 0⟩) 1 c.header.hnswMetaPage 3 2 := by
  rcases exists_threeInserts with ⟨t, ht⟩
  have hrun := run_threeInserts ht
  exact ⟨_, hrun, (limit_safe_iff hrun (by decide) 2).mpr (by decide)⟩

/-- A search of the three nodes. -/
def searchThree (c : Committed) (k : Nat) : Except Error Outcome :=
  search unitFloats (c.source ⟨fun _ => 0, fun _ _ => 0⟩) 1 c.header.hnswMetaPage [0x3f800000] k ⟨64⟩ fun _ => true

/-- The limit 0 gives a hit, and without a limit the search panics. -/
theorem limit_extremes :
    ∃ c, Run ⟨fun _ => 0, fun _ _ => 0⟩ unitFloats 1 16 [2, 1, 1] c ∧
      (∃ r, searchThree c 0 = .ok (.found r) ∧ r.hits.length = 1) ∧ searchThree c (2 ^ 64 - 1) = .ok .capacityOverflow ∧
      ¬ LimitSafe unitFloats (c.source ⟨fun _ => 0, fun _ _ => 0⟩) 1 c.header.hnswMetaPage 3 0 ∧
      ¬ LimitSafe unitFloats (c.source ⟨fun _ => 0, fun _ _ => 0⟩) 1 c.header.hnswMetaPage 3 (2 ^ 64 - 1) := by
  have hok : ((insertAll ⟨fun _ => 0, fun _ _ => 0⟩ unitFloats 1 threeInserts
      (Txn.begin (Committed.fresh 8 512))).toOption.any fun r =>
        decide (foundHits (searchThree r.2.commit 0) = some [⟨1, 0x3f800000⟩]) &&
        decide ((searchThree r.2.commit (2 ^ 64 - 1)).toOption.map Outcome.hits = some none)) = true := by
    decide +kernel
  rcases exists_threeInserts with ⟨t, ht⟩
  rw [ht] at hok
  rcases Bool.and_eq_true_iff.mp hok with ⟨hzero, hmax⟩
  have hfound : ∃ r, searchThree t.commit 0 = .ok (.found r) ∧ r.hits.length = 1 := by
    rcases exists_found (of_decide_eq_true hzero) with ⟨r, hr, hhits⟩
    exact ⟨r, hr, by rw [hhits]; rfl⟩
  have hpanic : searchThree t.commit (2 ^ 64 - 1) = .ok .capacityOverflow := by
    have hnone := of_decide_eq_true hmax
    cases hsearch : searchThree t.commit (2 ^ 64 - 1) with
    | error e =>
        rw [hsearch] at hnone
        cases hnone
    | ok o =>
        rw [hsearch] at hnone
        cases o with
        | capacityOverflow => rfl
        | noIndex => cases hnone
        | found r => cases hnone
  refine ⟨t.commit, run_threeInserts ht, hfound, hpanic, ?_, ?_⟩
  · intro hsafe
    rcases hfound with ⟨r, hr, hlen⟩
    rcases hsafe [0x3f800000] ⟨64⟩ (fun _ => true) rfl with ⟨r', hr', _, hhits⟩
    have heq := hr.symm.trans hr'
    cases heq
    omega
  · intro hsafe
    rcases hsafe [0x3f800000] ⟨64⟩ (fun _ => true) rfl with ⟨r', hr', _⟩
    have heq := hpanic.symm.trans hr'
    cases heq

end Hnsw

end EmbedMind
