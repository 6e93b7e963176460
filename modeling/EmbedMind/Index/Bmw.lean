import EmbedMind.Index.BmwCursor

/-!
# The block-skipping search (`search_bmw_counted`, `index/fts.rs`)

One cursor per matched term; documents are dealt with in id order. The bounds of the terms and
of their blocks decide which documents cannot be among the best `k`: those are passed over.
-/

namespace EmbedMind

open Lib Lib.Assoc

namespace Fts

section Search

variable {α : Type} [Field α] [LinearOrder α]

/-! ## Rounds -/

/-- A cursor and its place among the cursors, which are in the order of the terms. -/
abbrev Placed (α : Type) := BmwCursor α × Nat

/-- By the id a cursor stands on, then by its place. -/
def Placed.le (a b : Placed α) : Prop := a.1.curId < b.1.curId ∨ a.1.curId = b.1.curId ∧ a.2 ≤ b.2

instance : DecidableRel (@Placed.le α) := fun a b => by
  unfold Placed.le
  infer_instance

/-- The cursors that are not exhausted, in order. An exhausted one stays so, and the order is by all
of the key: what is left of the last round's order sorts to this. -/
def inOrder (cursors : List (BmwCursor α)) : List (Placed α) :=
  (cursors.zipIdx.filter fun c => !c.1.exhausted).insertionSort Placed.le

/-- The place in the order up to which the bounds of the terms, from `acc` on, beat `theta`. -/
def pivot (slack : α) (theta : Option α) : α → List (Placed α) → Option Nat
  | _, [] => none
  | acc, c :: rest =>
      let acc := acc + c.1.termUb
      if theta.all (fun t => decide (t < acc * slack)) then some 0
      else (pivot slack theta acc rest).map (· + 1)

/-- Applies `f` to the cursors at the places, one after the other. -/
def forEach (f : BmwCursor α → Except Error (BmwCursor α)) :
    List (Placed α) → List (BmwCursor α) → Except Error (List (BmwCursor α))
  | [], cursors => .ok cursors
  | (_, i) :: rest, cursors =>
      match cursors[i]? with
      | none => .error (.internal "index out of bounds")
      | some c => do
          let c ← f c
          forEach f rest (cursors.set i c)

/-- The exact score of the document `id`, over the cursors in order. -/
def scoreAt (avgdl : α) (dl id : Nat) : List (BmwCursor α) → α → Except Error (α × List (BmwCursor α))
  | [], score => .ok (score, [])
  | c :: rest, score =>
      if c.exhausted ∨ c.curId ≠ id then do
        let (score, rest) ← scoreAt avgdl dl id rest score
        .ok (score, c :: rest)
      else do
        let (tf, c) ← c.currentTf
        let (score, rest) ← scoreAt avgdl dl id rest (score + contribution c.idf avgdl tf dl)
        .ok (score, c :: rest)

/-- What a search holds between rounds. -/
structure Scan (α : Type) where
  cursors : List (BmwCursor α)
  hits : List (Hit α)

/-- What a search does not change. -/
structure Query (α : Type) where
  k : Nat
  avgdl : α
  slack : α
  keep : Ulid → Bool
  docLen : Ulid → Except Error (Option Nat)

/-- The score to beat, once there are `k` hits. -/
def Query.theta (q : Query α) (hits : List (Hit α)) : Option α :=
  if hits.length = q.k then hits[q.k - 1]?.map Hit.score else none

/-- Evaluates the document `id`, on which the cursors stand. -/
def Query.evaluate (q : Query α) (id : Ulid) (s : Scan α) : Except Error (Scan α) :=
  if q.keep id then do
    match ← q.docLen id with
    | none => .ok s
    | some dl => do
        let (score, cursors) ← scoreAt q.avgdl dl id.val s.cursors 0
        if 0 < score then .ok ⟨cursors, insertHit q.k ⟨id, score⟩ s.hits⟩
        else .ok ⟨cursors, s.hits⟩
  else .ok s

/-- Where to go on behind the blocks that end at `last` at the earliest; `after` is the cursor behind
those. None: there is nothing behind them. -/
def nextTarget (last : Nat) (after : Option (Placed α)) : Option Nat :=
  match (if last + 1 < 2 ^ 128 then some (last + 1) else none), after with
  | some n, some after => some (min n after.1.curId)
  | none, some after => some after.1.curId
  | n, none => n

/-- The cursors up to the pivot, and those behind it that stand on its id as well. -/
def frontOf (order : List (Placed α)) (p pivotId : Nat) : List (Placed α) :=
  order.take (p + 1 + ((order.drop (p + 1)).takeWhile fun c => decide (c.1.curId = pivotId)).length)

/-- The blocks that may hold the pivot's document. -/
def coveringBlocks (front : List (Placed α)) (pivotId : Nat) : List (BmwBlock α) :=
  front.filterMap fun c => c.1.coveringBlock pivotId

/-- Jumps past the covering block that ends first, or to the next cursor. -/
def skipBlocks (front : List (Placed α)) (after : Option (Placed α)) (pivotId : Nat) (cursors : List (BmwCursor α)) :
    Except Error (List (BmwCursor α)) :=
  let minBlockLast := (coveringBlocks front pivotId).foldl (fun m block => min m block.lastId) (2 ^ 128 - 1)
  match nextTarget minBlockLast after with
  | some n => forEach (fun c => c.advanceTo n) front cursors
  | none => forEach (fun c => .ok { c with exhausted := true }) front cursors

/-- One round: none when nothing that is left can enter the top. -/
def Query.round (q : Query α) (s : Scan α) : Except Error (Option (Scan α)) :=
  let order := inOrder s.cursors
  let theta := q.theta s.hits
  match pivot q.slack theta 0 order with
  | none => .ok none
  | some p =>
      match order[p]? with
      | none => .error (.internal "index out of bounds")
      | some (c, _) =>
          let pivotId := c.curId
          let front := frontOf order p pivotId
          let blockAcc := ((coveringBlocks front pivotId).map BmwBlock.ub).sum
          if theta.any (fun t => decide (blockAcc * q.slack ≤ t)) then do
            let cursors ← skipBlocks front order[front.length]? pivotId s.cursors
            .ok (some ⟨cursors, s.hits⟩)
          else if order.head?.any (fun c => decide (c.1.curId ≠ pivotId)) then do
            -- not aligned yet
            let cursors ← forEach (fun c => c.advanceTo pivotId) (order.take p) s.cursors
            .ok (some ⟨cursors, s.hits⟩)
          else do
            let s ← q.evaluate (Fin.ofNat (2 ^ 128) pivotId) s
            let cursors ← forEach (fun c => c.advancePast pivotId) front s.cursors
            .ok (some ⟨cursors, s.hits⟩)

/-- The rounds of a search: none if they do not end within `rounds` of them. -/
def Query.run (q : Query α) : Nat → Scan α → Except Error (Option (List (Hit α)))
  | 0, _ => .ok none
  | rounds + 1, s => do
      match ← q.round s with
      | none => .ok (some s.hits)
      | some s => q.run rounds s

variable (H : Xxh3) (U : Unicode) (I : Idf α) (src : PageSource)

/-- A cursor per matched term. -/
def openCursors (stats : FtsMeta) : List Bytes → Except Error (List (BmwCursor α))
  | [] => .ok []
  | term :: rest => do
      match ← Dict.get H FTS_DICT src stats.dictRoot term with
      | none => openCursors stats rest
      | some (body, pageNo) => do
          let df ← Dict.readInt body 0 4 pageNo
          if df = 0 then openCursors stats rest
          else do
            let cursor ← openCursor (I.weight stats.docCount df) body pageNo
              (PostingsLayout.forFormatVersion src.formatVersion)
            let found ← openCursors stats rest
            match cursor with
            | none => .ok found
            | some c => .ok (c :: found)

/-- `search_bmw_counted`, in at most `rounds` rounds. -/
def searchBmwCounted (rounds ftsRootPage : Nat) (query : String) (k : Nat) (keep : Ulid → Bool)
    (docLen : Ulid → Except Error (Option Nat)) : Except Error (Option (List (Hit α))) :=
  if k = 0 then .ok (some [])
  else do
    match ← loadMeta src ftsRootPage with
    | none => .ok (some [])
    | some stats =>
        if stats.docCount = 0 ∨ stats.dictRoot = 0 then .ok (some [])
        else if (queryTerms U query).isEmpty then .ok (some [])
        else do
          let cursors ← openCursors H I src stats (queryTerms U query)
          if cursors.isEmpty then .ok (some [])
          else
            let q : Query α := ⟨k, avgdl stats, boundSlack cursors.length, keep, docLen⟩
            q.run rounds ⟨cursors, []⟩

end Search

end Fts

end EmbedMind
