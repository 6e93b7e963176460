import EmbedMind.Ulid

/-!
# Fusing ranked lists (`recall.rs`)

Reciprocal rank fusion: an id at rank `r` of a list, counted from 0, scores
`1 / (60 + r + 1)` there, and what it scores in all lists is summed up. Scores are exact
rational numbers here; ranks are kept in 32 bits for the comparison of ties, as in the
source.
-/

namespace EmbedMind

/-- The RRF constant. -/
def RRF_K : ℚ := 60

/-- One fused hit. -/
structure Fused where
  recordId : Ulid
  score : ℚ
deriving DecidableEq

/-- What is accumulated for an id: the score, the first list and rank it was seen at, and
the lists that have contributed, one bit each. -/
structure FuseEntry where
  id : Ulid
  score : ℚ
  tiebreak : Nat × Nat
  counted : Nat

/-- What a list contributes to the id at a rank. -/
def contribution (rank : Nat) : ℚ := 1 / (RRF_K + rank + 1)

/-- One id of a list: its first rank in the list counts, an id not seen yet is appended. -/
def addRanked (list rank : Nat) (id : Ulid) : List FuseEntry → List FuseEntry
  | [] => [⟨id, contribution rank, (list, rank % 2 ^ 32), 1 <<< list⟩]
  | e :: rest =>
      if e.id = id then
        (if e.counted &&& (1 <<< list) = 0 then
          { e with score := e.score + contribution rank, counted := e.counted ||| (1 <<< list) }
        else e) :: rest
      else e :: addRanked list rank id rest

def addList (acc : List FuseEntry) (list : Nat) (ranked : List Ulid) : List FuseEntry :=
  ranked.zipIdx.foldl (fun acc hit => addRanked list hit.2 hit.1 acc) acc

def accumulate (lists : List (List Ulid)) : List FuseEntry :=
  lists.zipIdx.foldl (fun acc list => addList acc list.2 list.1) []

/-- Best score first, then the first appearance. -/
def FuseEntry.cmp (a b : FuseEntry) : Ordering :=
  (compare b.score a.score).then ((compare a.tiebreak.1 b.tiebreak.1).then (compare a.tiebreak.2 b.tiebreak.2))

def FuseEntry.Before (a b : FuseEntry) : Prop := a.cmp b ≠ .gt

instance : DecidableRel FuseEntry.Before := fun _ _ => inferInstanceAs (Decidable (_ ≠ _))

/-- Fuses ranked lists, each the best first; at most eight of them, since a bit of a byte
stands for each (the source panics on more). -/
def fuseLists (lists : List (List Ulid)) (limit : Nat) : Option (List Fused) :=
  if 8 < lists.length then none
  else some ((((accumulate lists).insertionSort FuseEntry.Before).take limit).map fun e => ⟨e.id, e.score⟩)

def fuse (vector text : List Ulid) (limit : Nat) : Option (List Fused) := fuseLists [vector, text] limit

/-! ## What fusion is for -/

/-- The rank of an id in a list. -/
def rankOf (id : Ulid) (list : List Ulid) : Option Nat := if id ∈ list then some (list.idxOf id) else none

/-- The sum of what the lists that contain the id contribute. -/
def rrfScore (lists : List (List Ulid)) (id : Ulid) : ℚ :=
  (lists.map fun list => ((rankOf id list).map contribution).getD 0).sum

/-- The first list that contains the id, and its rank there. -/
def firstSeen (id : Ulid) : List (List Ulid) → Nat × Nat
  | [] => (0, 0)
  | list :: rest =>
      if id ∈ list then (0, list.idxOf id) else ((firstSeen id rest).1 + 1, (firstSeen id rest).2)

/-- The order of appearance. -/
def Earlier (a b : Nat × Nat) : Prop := a.1 < b.1 ∨ (a.1 = b.1 ∧ a.2 < b.2)

instance (a b : Nat × Nat) : Decidable (Earlier a b) := inferInstanceAs (Decidable (_ ∨ _))

/-- `a` is ranked before `b`: a higher score, or the same and seen earlier. -/
def Outranks (lists : List (List Ulid)) (a b : Ulid) : Prop :=
  rrfScore lists b < rrfScore lists a ∨
    (rrfScore lists a = rrfScore lists b ∧ Earlier (firstSeen a lists) (firstSeen b lists))

instance (lists : List (List Ulid)) : DecidableRel (Outranks lists) :=
  fun _ _ => inferInstanceAs (Decidable (_ ∨ _))

/-- The distinct ids of the lists in the order of `Outranks`, each with its score. -/
def rrf (lists : List (List Ulid)) : List Fused :=
  (lists.flatten.dedup.insertionSort (Outranks lists)).map fun id => ⟨id, rrfScore lists id⟩

end EmbedMind
