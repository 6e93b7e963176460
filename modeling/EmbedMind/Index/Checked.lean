import EmbedMind.Lib.Stash
import EmbedMind.Index.Bmw
import EmbedMind.Index.HnswSearch

/-!
# Searches that ask a check

A caller's predicate on records may have to put an error aside (`Lib.stashing`). These are the
searches of the two indexes with such a predicate, step for step those with a plain one, which
they follow (`Lib.Follows`).
-/

namespace EmbedMind

open Lib Lib.Assoc

/-! ## The full-text index -/

namespace Fts

section Search

variable {α : Type} [Field α] [LinearOrder α] (keep : Ulid → StashM Error Bool)

/-- Pass 2 of the linear scan. -/
def scanAsking (terms : List (α × List Posting)) (avgdl : α) (k : Nat)
    (docLen : Ulid → Except Error (Option Nat)) : List (Hit α) → List (Hit α) → StashM Error (List (Hit α))
  | [], hits => pure hits
  | ⟨id, bound⟩ :: rest, hits =>
      if hits.length = k ∧ (hits[k - 1]?).any (fun h => decide (bound < h.score)) then pure hits
      else do
        let kept ← keep id
        if !kept then scanAsking terms avgdl k docLen rest hits
        else do
          match ← (liftM (docLen id) : StashM Error (Option Nat)) with
          | none => scanAsking terms avgdl k docLen rest hits
          | some dl =>
              let score := exactScore terms avgdl id dl
              if score ≤ 0 then scanAsking terms avgdl k docLen rest hits
              else scanAsking terms avgdl k docLen rest (insertHit k ⟨id, score⟩ hits)

/-- Evaluates the document on which the cursors stand. -/
def Query.evaluateAsking (q : Query α) (id : Ulid) (s : Scan α) : StashM Error (Scan α) := do
  let kept ← keep id
  if kept then do
    match ← (liftM (q.docLen id) : StashM Error (Option Nat)) with
    | none => pure s
    | some dl => do
        let (score, cursors) ← (liftM (scoreAt q.avgdl dl id.val s.cursors 0) : StashM Error (α × List (BmwCursor α)))
        if 0 < score then pure ⟨cursors, insertHit q.k ⟨id, score⟩ s.hits⟩
        else pure ⟨cursors, s.hits⟩
  else pure s

def Query.roundAsking (q : Query α) (s : Scan α) : StashM Error (Option (Scan α)) :=
  let order := inOrder s.cursors
  let theta := q.theta s.hits
  match pivot q.slack theta 0 order with
  | none => pure none
  | some p =>
      match order[p]? with
      | none => throw (.internal "index out of bounds")
      | some (c, _) =>
          let pivotId := c.curId
          let front := frontOf order p pivotId
          let blockAcc := ((coveringBlocks front pivotId).map BmwBlock.ub).sum
          if theta.any (fun t => decide (blockAcc * q.slack ≤ t)) then do
            let cursors ← (liftM (skipBlocks front order[front.length]? pivotId s.cursors) :
              StashM Error (List (BmwCursor α)))
            pure (some ⟨cursors, s.hits⟩)
          else if order.head?.any (fun c => decide (c.1.curId ≠ pivotId)) then do
            -- not aligned yet
            let cursors ← (liftM (forEach (fun c => c.advanceTo pivotId) (order.take p) s.cursors) :
              StashM Error (List (BmwCursor α)))
            pure (some ⟨cursors, s.hits⟩)
          else do
            let s ← q.evaluateAsking keep (Fin.ofNat (2 ^ 128) pivotId) s
            let cursors ← (liftM (forEach (fun c => c.advancePast pivotId) front s.cursors) :
              StashM Error (List (BmwCursor α)))
            pure (some ⟨cursors, s.hits⟩)

def Query.runAsking (q : Query α) : Nat → Scan α → StashM Error (Option (List (Hit α)))
  | 0, _ => pure none
  | rounds + 1, s => do
      match ← q.roundAsking keep s with
      | none => pure (some s.hits)
      | some s => q.runAsking rounds s

variable (H : Xxh3) (U : Unicode) (I : Idf α) (src : PageSource)

def searchLinearAsking (ftsRootPage : Nat) (query : String) (k : Nat) (docLen : Ulid → Except Error (Option Nat)) :
    StashM Error (List (Hit α)) :=
  if k = 0 then pure []
  else do
    match ← (liftM (loadMeta src ftsRootPage) : StashM Error (Option FtsMeta)) with
    | none => pure []
    | some stats =>
        if stats.docCount = 0 ∨ stats.dictRoot = 0 then pure []
        else if (queryTerms U query).isEmpty then pure []
        else do
          let terms ← (liftM (matchTerms H I src stats (queryTerms U query)) : StashM Error (List (α × List Posting)))
          let candidates := ((candidateBounds terms).map fun c => (⟨c.1, c.2⟩ : Hit α)).insertionSort Hit.le
          scanAsking keep terms (avgdl stats) k docLen candidates []

def searchBmwAsking (rounds ftsRootPage : Nat) (query : String) (k : Nat) (docLen : Ulid → Except Error (Option Nat)) :
    StashM Error (Option (List (Hit α))) :=
  if k = 0 then pure (some [])
  else do
    match ← (liftM (loadMeta src ftsRootPage) : StashM Error (Option FtsMeta)) with
    | none => pure (some [])
    | some stats =>
        if stats.docCount = 0 ∨ stats.dictRoot = 0 then pure (some [])
        else if (queryTerms U query).isEmpty then pure (some [])
        else do
          let cursors ← (liftM (openCursors H I src stats (queryTerms U query)) : StashM Error (List (BmwCursor α)))
          if cursors.isEmpty then pure (some [])
          else
            let q : Query α := ⟨k, avgdl stats, boundSlack cursors.length, fun _ => false, docLen⟩
            q.runAsking keep rounds ⟨cursors, []⟩

/-- The rounds that a search can take: every round but the last passes an id. -/
def BMW_ROUNDS : Nat := 2 ^ 128 + 1

/-- `fts::search`: the block-skipping search on the layout whose skip entries have bounds, else the linear scan. -/
def search (ftsRootPage : Nat) (query : String) (k : Nat) (docLen : Ulid → Except Error (Option Nat)) :
    StashM Error (Option (List (Hit α))) :=
  if PostingsLayout.forFormatVersion src.formatVersion = .deltaVarintSkip .v6 then
    searchBmwAsking keep H U I src BMW_ROUNDS ftsRootPage query k docLen
  else do
    let hits ← searchLinearAsking keep H U I src ftsRootPage query k docLen
    pure (some hits)

end Search

/-! ### They follow the plain searches -/

section Follows

variable {α : Type} [Field α] [LinearOrder α] {check : Ulid → Except Error Bool}

/-- The scan of the candidates. -/
theorem scanAsking_follows (terms : List (α × List Posting)) (avgdl : α) (k : Nat)
    (docLen : Ulid → Except Error (Option Nat)) (candidates hits : List (Hit α)) :
    Follows check (scanAsking (stashing check) terms avgdl k docLen candidates hits)
      (scanCandidates terms avgdl k (passes check) docLen candidates hits) := by
  induction candidates generalizing hits with
  | nil => exact Follows.pure hits
  | cons c rest ih =>
      rcases c with ⟨id, bound⟩
      unfold scanAsking scanCandidates
      split
      · exact Follows.pure hits
      · refine (Follows.stashing id).bind (q := .ok (passes check id)) (g := fun kept => if !kept then _ else _) ?_
        intro kept
        cases kept with
        | false => exact ih hits
        | true =>
            refine (Follows.lift (docLen id)).bind ?_
            intro found
            cases found with
            | none => exact ih hits
            | some dl =>
                dsimp only
                split
                · exact ih hits
                · exact ih _

/-- The evaluation of one document. -/
theorem Query.evaluateAsking_follows (q : Query α) (id : Ulid) (s : Scan α) :
    Follows check (q.evaluateAsking (stashing check) id s) ({ q with keep := passes check }.evaluate id s) := by
  unfold Query.evaluateAsking Query.evaluate
  refine (Follows.stashing id).bind (q := .ok (passes check id)) (g := fun kept => if kept then _ else _) ?_
  intro kept
  cases kept with
  | false => exact Follows.pure s
  | true =>
      refine (Follows.lift (q.docLen id)).bind ?_
      intro found
      cases found with
      | none => exact Follows.pure s
      | some dl =>
          refine (Follows.lift (scoreAt q.avgdl dl id.val s.cursors 0)).bind ?_
          intro scored
          rcases scored with ⟨score, cursors⟩
          dsimp only
          split
          · exact Follows.pure _
          · exact Follows.pure _

/-- One round. -/
theorem Query.roundAsking_follows (q : Query α) (s : Scan α) :
    Follows check (q.roundAsking (stashing check) s) ({ q with keep := passes check }.round s) := by
  unfold Query.roundAsking Query.round
  rw [show ({ q with keep := passes check } : Query α).theta s.hits = q.theta s.hits from rfl]
  dsimp only
  cases pivot q.slack (q.theta s.hits) 0 (inOrder s.cursors) with
  | none => exact Follows.pure none
  | some p =>
      dsimp only
      cases (inOrder s.cursors)[p]? with
      | none => exact Follows.lift (.error (Error.internal "index out of bounds"))
      | some c =>
          rcases c with ⟨c, place⟩
          dsimp only
          split
          · exact (Follows.lift _).bind fun cursors => Follows.pure _
          split
          · exact (Follows.lift _).bind fun cursors => Follows.pure _
          · exact (q.evaluateAsking_follows _ s).bind fun s => (Follows.lift _).bind fun cursors => Follows.pure _

/-- The rounds. -/
theorem Query.runAsking_follows (q : Query α) (rounds : Nat) (s : Scan α) :
    Follows check (q.runAsking (stashing check) rounds s) ({ q with keep := passes check }.run rounds s) := by
  induction rounds generalizing s with
  | zero => exact Follows.pure none
  | succ rounds ih =>
      unfold Query.runAsking Query.run
      refine (q.roundAsking_follows s).bind ?_
      intro next
      cases next with
      | none => exact Follows.pure _
      | some s => exact ih s

variable (H : Xxh3) (U : Unicode) (I : Idf α) (src : PageSource)

/-- The search over every posting. -/
theorem searchLinearAsking_follows (root : Nat) (query : String) (k : Nat) (docLen : Ulid → Except Error (Option Nat)) :
    Follows check (searchLinearAsking (stashing check) H U I src root query k docLen)
      (searchLinear H U I src root query k (passes check) docLen) := by
  unfold searchLinearAsking searchLinear
  split
  · exact Follows.pure []
  refine (Follows.lift (loadMeta src root)).bind ?_
  intro loaded
  cases loaded with
  | none => exact Follows.pure []
  | some stats =>
      dsimp only
      split
      · exact Follows.pure []
      split
      · exact Follows.pure []
      · refine (Follows.lift _).bind ?_
        intro terms
        exact scanAsking_follows _ _ _ _ _ _

/-- The search over block bounds. -/
theorem searchBmwAsking_follows (rounds root : Nat) (query : String) (k : Nat)
    (docLen : Ulid → Except Error (Option Nat)) :
    Follows check (searchBmwAsking (stashing check) H U I src rounds root query k docLen)
      (searchBmwCounted H U I src rounds root query k (passes check) docLen) := by
  unfold searchBmwAsking searchBmwCounted
  split
  · exact Follows.pure _
  refine (Follows.lift (loadMeta src root)).bind ?_
  intro loaded
  cases loaded with
  | none => exact Follows.pure _
  | some stats =>
      dsimp only
      split
      · exact Follows.pure _
      split
      · exact Follows.pure _
      · refine (Follows.lift _).bind ?_
        intro cursors
        split
        · exact Follows.pure _
        · exact Query.runAsking_follows _ _ _

/-- The search with a plain predicate. -/
def searchPlain (root : Nat) (query : String) (k : Nat) (keep : Ulid → Bool) (docLen : Ulid → Except Error (Option Nat)) :
    Except Error (Option (List (Hit α))) :=
  if PostingsLayout.forFormatVersion src.formatVersion = .deltaVarintSkip .v6 then
    searchBmwCounted H U I src BMW_ROUNDS root query k keep docLen
  else do
    let hits ← searchLinear H U I src root query k keep docLen
    .ok (some hits)

/-- The text search asks its filter and follows what it says. -/
theorem search_follows (root : Nat) (query : String) (k : Nat) (docLen : Ulid → Except Error (Option Nat)) :
    Follows check (search (stashing check) H U I src root query k docLen)
      (searchPlain H U I src root query k (passes check) docLen) := by
  unfold search searchPlain
  split
  · exact searchBmwAsking_follows H U I src BMW_ROUNDS root query k docLen
  · exact (searchLinearAsking_follows H U I src root query k docLen).bind fun hits => Follows.pure _

end Follows

end Fts

/-! ## The vector index -/

namespace Hnsw

/-- Steps of a search, with a place for an error put aside. -/
abbrev AskM := StateT Ctx (StashM Error)

section Search

variable (F : Floats) (src : PageSource) (dims : Nat) (filter : Ulid → StashM Error Bool)

def collectHitsAsking (k : Nat) : List (Nat × F32) → List Ulid → List Hit → AskM (List Hit)
  | [], _, hits => pure hits
  | (pageNo, sim) :: rest, seen, hits => do
      let node ← quiet (Ctx.node src pageNo)
      if node.recordId ∈ seen then collectHitsAsking k rest seen hits
      else do
        let accepted ← (liftM (filter node.recordId) : AskM Bool)
        if accepted then
          let hits := hits ++ [Hit.mk node.recordId sim]
          if k ≤ hits.length then pure hits else collectHitsAsking k rest (node.recordId :: seen) hits
        else collectHitsAsking k rest (node.recordId :: seen) hits

def searchRoundsAsking (stats : HnswMeta) (entry : Nat × F32) (query : List F32) (k : Nat) : Nat → Nat → AskM Outcome
  | 0, _ => quiet (throw outOfFuel)
  | fuel + 1, ef => do
      let candidates ← quiet (searchLayer F src dims [entry] 0 query ef)
      if 2 ^ 63 - 1 < k * HIT_SIZE then pure .capacityOverflow
      else do
        let hits ← collectHitsAsking src filter k candidates [] []
        if k ≤ hits.length ∨ efCeiling stats ≤ ef ∨ stats.nodeCount ≤ candidates.length then
          pure (.found ⟨ef, candidates, k, hits⟩)
        else searchRoundsAsking stats entry query k fuel (widerEf (efCeiling stats) ef)

def searchAsking (hnswMetaPage : Nat) (query : List F32) (k : Nat) (params : SearchParams) : StashM Error Outcome :=
  if query.length ≠ dims then throw (.invalidArgument "query length != store dims")
  else do
    let loaded ← (liftM (loadMeta src hnswMetaPage) : StashM Error (Option HnswMeta))
    match loaded with
    | none => pure .noIndex
    | some stats =>
        if stats.nodeCount = 0 then pure .noIndex
        else do
          let (outcome, _) ← (do
            let entry ← quiet (descend F src dims query stats 0)
            searchRoundsAsking F src dims filter stats entry query k FUEL (initialEf params k) : AskM Outcome).run {}
          pure outcome

end Search

section Follows

variable {F : Floats} {src : PageSource} {dims : Nat} {check : Ulid → Except Error Bool}

/-- The choice of the hits. -/
theorem collectHitsAsking_follows (k : Nat) (candidates : List (Nat × F32)) (seen : List Ulid) (hits : List Hit) :
    FollowsIn check (collectHitsAsking src (stashing check) k candidates seen hits)
      (collectHits src k (passes check) candidates seen hits) := by
  induction candidates generalizing seen hits with
  | nil => exact FollowsIn.pure hits
  | cons c rest ih =>
      rcases c with ⟨pageNo, sim⟩
      unfold collectHitsAsking collectHits
      refine (FollowsIn.quiet (Ctx.node src pageNo)).bind ?_
      intro node
      split
      · exact ih _ _
      · refine FollowsIn.ask node.recordId (g := fun accepted => if accepted then _ else _) ?_
        intro accepted
        cases accepted with
        | false => exact ih _ _
        | true =>
            rw [if_pos rfl, if_pos rfl]
            dsimp only
            split
            · exact FollowsIn.pure _
            · exact ih _ _

/-- The rounds of a vector search. -/
theorem searchRoundsAsking_follows (stats : HnswMeta) (entry : Nat × F32) (query : List F32) (k fuel ef : Nat) :
    FollowsIn check (searchRoundsAsking F src dims (stashing check) stats entry query k fuel ef)
      (searchRounds F src dims stats entry query k (passes check) fuel ef) := by
  induction fuel generalizing ef with
  | zero => exact FollowsIn.quiet _
  | succ fuel ih =>
      unfold searchRoundsAsking searchRounds
      refine (FollowsIn.quiet _).bind ?_
      intro candidates
      split
      · exact FollowsIn.pure _
      · refine (collectHitsAsking_follows k candidates [] []).bind ?_
        intro hits
        split
        · exact FollowsIn.pure _
        · exact ih _

/-- The vector search asks its filter and follows what it says. -/
theorem searchAsking_follows (root : Nat) (query : List F32) (k : Nat) (params : SearchParams) :
    Follows check (searchAsking F src dims (stashing check) root query k params)
      (search F src dims root query k params (passes check)) := by
  unfold searchAsking search
  split
  · exact Follows.lift (.error (Error.invalidArgument "query length != store dims"))
  refine (Follows.lift (loadMeta src root)).bind ?_
  intro loaded
  cases loaded with
  | none => exact Follows.pure _
  | some stats =>
      dsimp only
      split
      · exact Follows.pure _
      · refine Follows.bind ?_ fun r => Follows.pure r.1
        exact ((FollowsIn.quiet _).bind fun entry => searchRoundsAsking_follows stats entry query k _ _) {}

end Follows

end Hnsw

end EmbedMind
