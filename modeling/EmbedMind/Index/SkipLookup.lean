import EmbedMind.Lib.BinarySearch
import EmbedMind.Index.PostingsTotal

/-!
# Looking a document up through the skip index (`lookup_via_skip`, `index/fts.rs`)

The lookup searches the first ids of the blocks for the one block that may hold the id, and
decodes that block alone. On every body that decodes, it finds what a search of the whole
list finds.
-/

namespace EmbedMind

open Lib Lib.Assoc

namespace Fts

/-- `lookup_via_skip`. A search by id among decoded postings, whose ids ascend, is `find`. -/
def lookupViaSkip (body : Bytes) (pageNo : Nat) (target : Ulid) (layout : PostingsLayout) :
    Except Error (Option Nat) := do
  let entry ← okOr layout.skipEntryOf (.malformedPage pageNo "fts skip lookup on non-skip layout")
  let count ← Dict.readInt body 0 4 pageNo
  let blockCount ← Dict.readInt body 4 4 pageNo
  if blockCount = 0 then do
    let decoded ← decode body pageNo layout
    .ok (find target decoded)
  else if count < SKIP_MIN_DOC_FREQ ∨ blockCount ≠ expectedBlocks count then
    malformed pageNo "fts skip block_count mismatch"
  else
    let blocksStart := 8 + blockCount * entry.len
    if body.length < blocksStart then malformed pageNo "fts skip index truncated"
    else do
      let lo ← partitionPoint (fun b => do
        let first ← readU128LE body (8 + b * entry.len) pageNo
        .ok (decide (first ≤ target.val))) 0 blockCount
      -- every block starts past the target
      if lo = 0 then .ok none
      else do
        let b := lo - 1
        let storedOffset ← Dict.readInt body (8 + b * entry.len + entry.tailOff) 4 pageNo
        let (block, _) ← decodeBlockRun layout body (blocksStart + storedOffset)
          (blockLen count blockCount b) pageNo
        .ok (find target block)

/-! ## Blocks of a sorted list -/

section Blocks

variable {blocks : List Block}

/-- An id is not before its block's first id, and not in a block that starts past it. -/
theorem find_postings {b : Nat} {block : Block} {target : Ulid} (hsorted : Sorted (postings blocks))
    (h : blocks[b]? = some block) (hne : block.entries ≠ []) (hle : firstId block.entries ≤ target.val)
    (hnext : ∀ x ∈ blocks.drop (b + 1), target.val < firstId x.entries) :
    find target (postings blocks) = find target block.entries := by
  have hs := hsorted
  rw [postings_split h, Sorted, List.pairwise_append, List.pairwise_append] at hs
  rcases hs with ⟨⟨_, _, hbefore⟩, hafter, _⟩
  rw [postings_split h]
  refine find_segment ?_ ?_
  · intro e he heq
    rcases firstId_mem hne with ⟨x, hx, hfirst⟩
    have hlt := Fin.lt_def.mp (hbefore e he x hx)
    rw [heq] at hlt
    omega
  · intro e he heq
    rcases List.mem_flatMap.mp he with ⟨x, hx, hex⟩
    have hlt := hnext x hx
    have hsx : Sorted x.entries := (List.pairwise_flatMap.mp hafter).1 x hx
    have hge := firstId_le hsx e hex
    rw [heq] at hge
    omega

end Blocks

/-! ## The lookup -/

section Lookup

variable {body : Bytes} {pageNo : Nat} {entry : SkipEntry} {layout : PostingsLayout} {blocks : List Block}

/-- Later blocks start later. -/
theorem Blocked.firstId_lt (h : Blocked body pageNo entry layout blocks) {i j : Nat} {x y : Block} (hij : i < j)
    (hx : blocks[i]? = some x) (hy : blocks[j]? = some y) : firstId x.entries < firstId y.entries := by
  have hpair := (List.pairwise_flatMap.mp h.blocks.sorted).2
  rcases List.getElem?_eq_some_iff.mp hx with ⟨hi, rfl⟩
  rcases List.getElem?_eq_some_iff.mp hy with ⟨hj, rfl⟩
  have hlt := List.pairwise_iff_getElem.mp hpair i j hi hj hij
  rcases firstId_mem (h.ne_nil hx) with ⟨p, hp, hpfirst⟩
  rcases firstId_mem (h.ne_nil hy) with ⟨q, hq, hqfirst⟩
  rw [hpfirst, hqfirst]
  exact Fin.lt_def.mp (hlt p hp q hq)

/-- The search among the first ids of the blocks. -/
theorem Blocked.partitionPoint (h : Blocked body pageNo entry layout blocks) (target : Ulid) :
    ∃ n, Lib.partitionPoint (fun b => do
          let first ← readU128LE body (8 + b * entry.len) pageNo
          .ok (decide (first ≤ target.val))) 0 blocks.length = .ok n ∧
      n ≤ blocks.length ∧
      (∀ i block, i < n → blocks[i]? = some block → firstId block.entries ≤ target.val) ∧
      ∀ i block, n ≤ i → blocks[i]? = some block → target.val < firstId block.entries := by
  have hget : ∀ i, i < blocks.length → ∃ block, blocks[i]? = some block := by
    intro i hi
    exact ⟨blocks[i], List.getElem?_eq_getElem hi⟩
  -- the test of the search is a comparison with the first id of a block
  have htest : ∀ i, 0 ≤ i → i < blocks.length →
      (do
        let first ← readU128LE body (8 + i * entry.len) pageNo
        .ok (decide (first ≤ target.val)) : Except Error Bool) =
      .ok (decide (((blocks[i]?.map fun block => firstId block.entries).getD 0) ≤ target.val)) := by
    intro i _ hi
    rcases hget i hi with ⟨block, hblock⟩
    rcases (h.at hblock).stored with ⟨s, hs, hfirst, _⟩
    have hread := (readSkipEntry_inv body pageNo hs).1
    rw [hread, ok_bind, hblock, hfirst]
    rfl
  -- first ids rise with the block, so it turns false once
  have hmono : ∀ i j, i ≤ j → 0 ≤ i → j < blocks.length →
      ((blocks[j]?.map fun block => firstId block.entries).getD 0) ≤ target.val →
      ((blocks[i]?.map fun block => firstId block.entries).getD 0) ≤ target.val := by
    intro i j hij _ hj hle
    rcases hget i (by omega) with ⟨x, hx⟩
    rcases hget j hj with ⟨y, hy⟩
    rw [hy] at hle
    rw [hx]
    rcases Nat.eq_or_lt_of_le hij with rfl | hlt
    · rw [hx] at hy
      cases hy
      exact hle
    · exact le_trans (le_of_lt (h.firstId_lt hlt hx hy)) hle
  rcases Lib.partitionPoint_spec (Nat.zero_le blocks.length) htest hmono with
    ⟨n, hn, _, hhi, hbefore, hafter⟩
  refine ⟨n, hn, hhi, ?_, ?_⟩
  · intro i block hi hblock
    have hle := hbefore i (Nat.zero_le i) hi
    rw [hblock] at hle
    exact hle
  · intro i block hi hblock
    have hnot := hafter i hi (List.getElem?_eq_some_iff.mp hblock).1
    rw [hblock] at hnot
    exact not_le.mp hnot

/-- Looking up through the skip index is looking up in the postings. -/
theorem lookupViaSkip_blocked (h : Blocked body pageNo entry layout blocks)
    (hentry : layout.skipEntryOf = some entry) (target : Ulid) :
    lookupViaSkip body pageNo target layout = .ok (find target (postings blocks)) := by
  rcases checkSkipIndex_inv h.index with ⟨hmin, hblocks, _, hlen⟩
  have hne : blocks.length ≠ 0 := by
    intro hzero
    exact h.nonempty (List.length_eq_zero_iff.mp hzero)
  rcases h.partitionPoint target with ⟨n, hn, hle, hbefore, hafter⟩
  have hhead : ¬ ((postings blocks).length < SKIP_MIN_DOC_FREQ ∨ blocks.length ≠ expectedBlocks (postings blocks).length) := by
    rw [not_or, not_lt, not_not]
    exact ⟨hmin, hblocks⟩
  rw [lookupViaSkip, hentry, okOr_some, ok_bind, h.count, ok_bind, h.blockCount, ok_bind, if_neg hne, if_neg hhead]
  dsimp only
  rw [if_neg (not_lt.mpr hlen), hn, ok_bind]
  by_cases hzero : n = 0
  · -- the target is below the first id of the list
    rw [if_pos hzero]
    refine congrArg Except.ok (Eq.symm (find_eq_none.mpr ?_))
    intro e he heq
    rcases List.mem_flatMap.mp he with ⟨block, hblock, hin⟩
    rcases List.mem_iff_getElem?.mp hblock with ⟨i, hi⟩
    have hlt := hafter i block (by omega) hi
    have hge := firstId_le (h.at hi).run.sorted e hin
    rw [heq] at hge
    omega
  · rw [if_neg hzero]
    have hget : blocks[n - 1]? = some blocks[n - 1] := List.getElem?_eq_getElem (by omega)
    rcases h.at hget with ⟨⟨s, hs, _, hoffset, _⟩, _, next, hdecodes⟩
    have hread := (readSkipEntry_inv body pageNo hs).2
    rw [hread, ok_bind, hoffset, hdecodes, ok_bind]
    refine congrArg Except.ok (Eq.symm (find_postings h.blocks.sorted hget (h.ne_nil hget) ?_ ?_))
    · exact hbefore (n - 1) _ (by omega) hget
    · intro x hx
      rcases List.mem_iff_getElem?.mp hx with ⟨i, hi⟩
      rw [List.getElem?_drop] at hi
      exact hafter _ x (by omega) hi

end Lookup

/-- A lookup through the skip index finds what a search of the decoded list finds: in every body
that decodes, the bodies of the writer's lists among them. -/
theorem skip_lookup_eq_decode (layout : PostingsLayout) (entry : SkipEntry) (hentry : layout.skipEntryOf = some entry)
    (pageNo : Nat) (target : Ulid) :
    (∀ body entries, decode body pageNo layout = .ok entries →
      lookupViaSkip body pageNo target layout = .ok (find target entries)) ∧
    ∀ entries, Sorted entries → (∀ e ∈ entries, 1 ≤ e.2 ∧ e.2 < 2 ^ 32) → (encode entries layout).length < 2 ^ 32 →
      decode (encode entries layout) pageNo layout = .ok entries ∧
        lookupViaSkip (encode entries layout) pageNo target layout = .ok (find target entries) := by
  have hbody : ∀ body entries, decode body pageNo layout = .ok entries →
      lookupViaSkip body pageNo target layout = .ok (find target entries) := by
    intro body entries hdecode
    rcases decode_skip_inv hentry hdecode with ⟨hzero, count, hcount, _⟩ | ⟨blocks, rfl, hblocked⟩
    · rw [lookupViaSkip, hentry, okOr_some, ok_bind, hcount, ok_bind, hzero, ok_bind, if_pos rfl, hdecode]
      rfl
    · exact lookupViaSkip_blocked hblocked hentry target
  constructor
  · exact hbody
  · intro entries hsorted htf hsize
    have hdecode := postings_round_trip pageNo hsorted layout htf hsize
    exact ⟨hdecode, hbody _ entries hdecode⟩

set_option maxRecDepth 100000 in
/-- Over five blocks of odd ids: one that is there, one between two of them, one past the last. -/
theorem skip_lookup_eq_decode_five_blocks :
    lookupViaSkip (encode oddPostings .frameOfReference) 7 257 .frameOfReference = .ok (some 129) ∧
      lookupViaSkip (encode oddPostings .frameOfReference) 7 256 .frameOfReference = .ok none ∧
      lookupViaSkip (encode oddPostings .frameOfReference) 7 1201 .frameOfReference = .ok none := by
  have hlookup : ∀ target, lookupViaSkip (encode oddPostings .frameOfReference) 7 target .frameOfReference =
      .ok (find target oddPostings) := by
    intro target
    rcases skip_lookup_eq_decode .frameOfReference .v6 rfl 7 target with ⟨_, hencoded⟩
    refine (hencoded oddPostings ?_ ?_ ?_).2
    · exact sorted_oddPostings
    · decide +kernel
    · decide +kernel
  refine ⟨?_, ?_, ?_⟩
  · rw [hlookup]
    decide +kernel
  · rw [hlookup]
    decide +kernel
  · rw [hlookup]
    decide +kernel

end Fts

end EmbedMind
