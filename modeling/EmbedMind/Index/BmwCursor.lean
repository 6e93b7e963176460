import EmbedMind.Index.FtsSearch
import EmbedMind.Index.PostingsTotal

/-!
# Block cursors (`BmwCursor`, `index/fts.rs`)

A cursor walks one postings list in id order and decodes only the blocks it lands inside: on
the first posting of a block it stands without having decoded it. What a cursor stands for is
the rest of the list (`BmwCursor.At`); moving it drops what is before the target from the
rest.
-/

namespace EmbedMind

open Lib Lib.Assoc

namespace Fts

section Cursor

variable {α : Type} [Field α] [LinearOrder α]

/-- What a cursor knows of a block before it is decoded. -/
structure BmwBlock (α : Type) where
  firstId : Nat
  lastId : Nat
  offset : Nat
  len : Nat
  maxTf : Nat
  ub : α

structure BmwCursor (α : Type) where
  idf : α
  body : Bytes
  pageNo : Nat
  layout : PostingsLayout
  blocksStart : Nat
  blocks : List (BmwBlock α)
  curBlock : Nat
  entries : List Posting
  pos : Nat
  curId : Nat
  termUb : α
  exhausted : Bool

/-- The blocks of the skip index from `b` on, `left` of them, after the block `prev`. -/
def readBlocks (idf : α) (body : Bytes) (pageNo count blockCount : Nat) :
    Nat → Nat → Option (BmwBlock α) → Except Error (List (BmwBlock α))
  | 0, _, _ => .ok []
  | left + 1, b, prev => do
      let idx := 8 + b * SkipEntry.v6.len
      let first ← readU128LE body idx pageNo
      let last ← readU128LE body (idx + 16) pageNo
      let tail := idx + SkipEntry.v6.tailOff
      let offset ← Dict.readInt body tail 4 pageNo
      let tf ← Dict.readInt body (tail + 4) 4 pageNo
      if last < first ∨ tf = 0 ∨ (b = 0 ∧ offset ≠ 0) ∨
          prev.any (fun p => decide (first ≤ p.lastId) || decide (offset ≤ p.offset)) = true then
        malformed pageNo "fts skip index inconsistent"
      else do
        let block := ⟨first, last, offset, blockLen count blockCount b, tf, boundContribution idf tf⟩
        let rest ← readBlocks idf body pageNo count blockCount left (b + 1) (some block)
        .ok (block :: rest)

/-- The bound of a list: the largest of its blocks. -/
def termBound (blocks : List (BmwBlock α)) : α := blocks.foldl (fun ub block => max ub block.ub) 0

/-- `BmwCursor::open`: none for an empty list. A list without a skip index is one block, decoded. -/
def openCursor (idf : α) (body : Bytes) (pageNo : Nat) (layout : PostingsLayout) :
    Except Error (Option (BmwCursor α)) := do
  let count ← Dict.readInt body 0 4 pageNo
  let blockCount ← Dict.readInt body 4 4 pageNo
  if blockCount = 0 then do
    let decoded ← decode body pageNo layout
    if decoded.isEmpty then .ok none
    else
      let tf := maxTf decoded
      let ub := boundContribution idf tf
      let block := ⟨firstId decoded, lastId decoded, 0, decoded.length, tf, ub⟩
      .ok (some ⟨idf, body, pageNo, layout, 0, [block], 0, decoded, 0, firstId decoded, ub, false⟩)
  else do
    let blocksStart ← checkSkipIndex body count blockCount SkipEntry.v6.len pageNo
    let blocks ← readBlocks idf body pageNo count blockCount blockCount 0 none
    let curId := (blocks.head?.map BmwBlock.firstId).getD 0
    .ok (some ⟨idf, body, pageNo, layout, blocksStart, blocks, 0, [], 0, curId, termBound blocks, false⟩)

namespace BmwCursor

/-- Decodes block `b`, and checks it against its skip entry. -/
def decodeBlock (c : BmwCursor α) (b : Nat) (block : BmwBlock α) : Except Error (BmwCursor α) := do
  let (entries, _) ← decodeBlockRun c.layout c.body (c.blocksStart + block.offset) block.len c.pageNo
  if entries.head?.map (·.1.val) ≠ some block.firstId then malformed c.pageNo "fts skip first_id mismatch"
  else if entries.getLast?.map (·.1.val) ≠ some block.lastId then malformed c.pageNo "fts skip last_id mismatch"
  else if maxTf entries ≠ block.maxTf then malformed c.pageNo "fts skip max_term_freq mismatch"
  else .ok { c with entries := entries, curBlock := b }

/-- How many blocks from the current one on end before the target: `partition_point`. -/
def blocksBefore (c : BmwCursor α) (target : Nat) : Nat :=
  ((c.blocks.drop c.curBlock).takeWhile fun block => decide (block.lastId < target)).length

/-- Block `b` as the current block, decoded. -/
def decoded (c : BmwCursor α) (b : Nat) (block : BmwBlock α) : Except Error (BmwCursor α) :=
  if b ≠ c.curBlock ∨ c.entries = [] then c.decodeBlock b block else .ok c

/-- Onto the first posting of block `b`, without decoding it. -/
def landOn (c : BmwCursor α) (b : Nat) (block : BmwBlock α) : BmwCursor α :=
  { c with
    entries := if b ≠ c.curBlock then [] else c.entries
    curBlock := b
    pos := 0
    curId := block.firstId }

/-- Onto the first posting of the decoded block from the target on. -/
def landIn (c : BmwCursor α) (target : Nat) : Except Error (BmwCursor α) := do
  let pos := (c.entries.takeWhile fun p => decide (p.1.val < target)).length
  let posting ← okOr c.entries[pos]? (.malformedPage c.pageNo "fts skip cursor past block")
  .ok { c with pos := pos, curId := posting.1.val }

/-- Moves to the first posting from the target on. -/
def advanceTo (c : BmwCursor α) (target : Nat) : Except Error (BmwCursor α) :=
  if c.exhausted ∨ target ≤ c.curId then .ok c
  else
    let b := c.curBlock + c.blocksBefore target
    match c.blocks[b]? with
    | none => .ok { c with exhausted := true }
    | some block =>
        if target ≤ block.firstId then .ok (c.landOn b block)
        else do
          let c ← c.decoded b block
          c.landIn target

/-- Moves past an id; there is nothing past the last one. -/
def advancePast (c : BmwCursor α) (id : Nat) : Except Error (BmwCursor α) :=
  if id + 1 < 2 ^ 128 then c.advanceTo (id + 1) else .ok { c with exhausted := true }

/-- The first block from the current one on that ends at the target or past it. -/
def coveringBlock (c : BmwCursor α) (target : Nat) : Option (BmwBlock α) :=
  c.blocks[c.curBlock + c.blocksBefore target]?

/-- The frequency of the posting under the cursor, whose block may have to be decoded. The current
block is one of the blocks. -/
def currentTf (c : BmwCursor α) : Except Error (Nat × BmwCursor α) := do
  let c ← if c.entries = [] then do
      let block ← okOr c.blocks[c.curBlock]? (.internal "index out of bounds")
      let c ← c.decodeBlock c.curBlock block
      .ok { c with pos := 0 }
    else .ok c
  let posting ← okOr c.entries[c.pos]? (.malformedPage c.pageNo "fts skip cursor past block")
  if posting.1.val ≠ c.curId then malformed c.pageNo "fts skip cursor desync"
  else .ok (posting.2, c)

end BmwCursor

/-! ## The rest of the list -/

/-- Before an id. -/
def before (target : Nat) (p : Posting) : Bool := decide (p.1.val < target)

/-- Nothing is dropped from a list that starts past the target. -/
theorem dropWhile_eq_self {target : Nat} {p : Posting} {l : List Posting} (h : target ≤ p.1.val) :
    (p :: l).dropWhile (before target) = p :: l := by
  rw [List.dropWhile_cons_of_neg]
  simpa [before] using h

/-- What comes before the target is dropped with all the blocks that end before it. -/
theorem dropWhile_postings {blocks : List Block} (hsorted : Sorted (postings blocks))
    (hne : ∀ block ∈ blocks, block.entries ≠ []) (target : Nat) :
    let n := (blocks.takeWhile fun block => decide (lastId block.entries < target)).length
    (blocks[n]? = none ∧ (postings blocks).dropWhile (before target) = []) ∨
      ∃ block, blocks[n]? = some block ∧ target ≤ lastId block.entries ∧
        (postings blocks).dropWhile (before target) =
          block.entries.dropWhile (before target) ++ postings (blocks.drop (n + 1)) := by
  induction blocks with
  | nil => exact Or.inl ⟨rfl, rfl⟩
  | cons block rest ih =>
      rcases List.pairwise_append.mp hsorted with ⟨hblock, hrest, _⟩
      intro n
      by_cases hlast : lastId block.entries < target
      · have hn : n = (rest.takeWhile fun block => decide (lastId block.entries < target)).length + 1 := by
          show (List.takeWhile _ _).length = _
          rw [List.takeWhile_cons_of_pos (by simpa using hlast), List.length_cons]
        -- all of the block is below the target
        have hnil : block.entries.dropWhile (before target) = [] := by
          rw [List.dropWhile_eq_nil_iff]
          intro e he
          have := le_lastId hblock e he
          simp only [before, decide_eq_true_eq]
          omega
        have hdrop : (postings (block :: rest)).dropWhile (before target) =
            (postings rest).dropWhile (before target) := by
          rw [postings_cons, List.dropWhile_append, hnil]
          rfl
        rw [hn, hdrop]
        exact ih hrest fun x hx => hne x (List.mem_cons_of_mem _ hx)
      · have hn : n = 0 := by
          show (List.takeWhile _ _).length = _
          rw [List.takeWhile_cons_of_neg (by simpa using hlast)]
          rfl
        -- its last id is not, so the scan stops inside the block
        have hsome : block.entries.dropWhile (before target) ≠ [] := by
          intro hnil
          rcases lastId_mem (hne block List.mem_cons_self) with ⟨e, he, hid⟩
          have := List.dropWhile_eq_nil_iff.mp hnil e he
          simp only [before, decide_eq_true_eq] at this
          omega
        refine Or.inr ⟨block, by rw [hn]; rfl, not_lt.mp hlast, ?_⟩
        rw [hn, postings_cons, List.dropWhile_append, if_neg (by simpa using hsome)]
        rfl

/-- A block as a cursor knows it. -/
def BmwBlock.of (idf : α) (block : Block) : BmwBlock α :=
  ⟨Fts.firstId block.entries, Fts.lastId block.entries, block.offset, block.entries.length, Fts.maxTf block.entries,
    boundContribution idf (Fts.maxTf block.entries)⟩

namespace BmwCursor

/-- A cursor over the postings of `blocks`. A block that is not decoded yet can be. -/
structure Over (c : BmwCursor α) (blocks : List Block) : Prop where
  blocks_eq : c.blocks = blocks.map (BmwBlock.of c.idf)
  sorted : Sorted (postings blocks)
  nonempty : ∀ block ∈ blocks, block.entries ≠ []
  decodes : (c.entries ≠ [] ∧ blocks.length = 1) ∨ ∀ block ∈ blocks, ∃ next,
    decodeBlockRun c.layout c.body (c.blocksStart + block.offset) block.entries.length c.pageNo =
      .ok (block.entries, next)

/-- A cursor that stands before `rest`: on posting `i` of its block, which is decoded unless `i` is 0. -/
structure At (c : BmwCursor α) (blocks : List Block) (rest : List Posting) : Prop where
  list : c.Over blocks
  ended : c.exhausted = true → rest = []
  stands : c.exhausted = false → ∃ block i, blocks[c.curBlock]? = some block ∧
    (block.entries[i]?.map fun p => p.1.val) = some c.curId ∧
    rest = block.entries.drop i ++ postings (blocks.drop (c.curBlock + 1)) ∧
    (c.entries = [] ∧ i = 0 ∨ c.entries = block.entries ∧ c.pos = i)

/-- Moving a cursor leaves what it weighs. -/
structure Moved (c c' : BmwCursor α) : Prop where
  idf : c'.idf = c.idf
  termUb : c'.termUb = c.termUb
  le : c.curId ≤ c'.curId

omit [Field α] [LinearOrder α] in
theorem Moved.refl (c : BmwCursor α) : Moved c c := ⟨rfl, rfl, le_refl _⟩

variable {c : BmwCursor α} {blocks : List Block} {rest : List Posting}

/-- A cursor stands on the first posting of the rest. -/
theorem At.head (h : c.At blocks rest) (hlive : c.exhausted = false) :
    ∃ p l, rest = p :: l ∧ p.1.val = c.curId := by
  rcases h.stands hlive with ⟨block, i, _, hid, hrest, _⟩
  rcases Option.map_eq_some_iff.mp hid with ⟨p, hp, hpid⟩
  rcases List.getElem?_eq_some_iff.mp hp with ⟨hlt, rfl⟩
  rw [List.drop_eq_getElem_cons hlt] at hrest
  exact ⟨_, _, hrest, hpid⟩

/-- The blocks of a cursor are the blocks of its list. -/
theorem Over.blocks_getElem? (h : c.Over blocks) (b : Nat) :
    c.blocks[b]? = blocks[b]?.map (BmwBlock.of c.idf) := by
  rw [h.blocks_eq, List.getElem?_map]

/-- How many blocks end before the target. -/
theorem Over.blocksBefore (h : c.Over blocks) (target : Nat) :
    c.blocksBefore target =
      ((blocks.drop c.curBlock).takeWhile fun block => decide (lastId block.entries < target)).length := by
  rw [BmwCursor.blocksBefore, h.blocks_eq, ← List.map_drop, List.takeWhile_map, List.length_map]
  rfl

/-- The postings from a block on ascend. -/
theorem Over.sorted_drop (h : c.Over blocks) (b : Nat) : Sorted (postings (blocks.drop b)) := by
  have hsplit : postings blocks = postings (blocks.take b) ++ postings (blocks.drop b) := by
    rw [← postings_append, List.take_append_drop]
  have hs := h.sorted
  rw [hsplit] at hs
  exact (List.pairwise_append.mp hs).2.1

/-- The postings of a block ascend. -/
theorem Over.sorted_block (h : c.Over blocks) {b : Nat} {block : Block} (hb : blocks[b]? = some block) :
    Sorted block.entries := (List.pairwise_flatMap.mp h.sorted).1 block (List.mem_of_getElem? hb)

/-- What a target past the cursor leaves of the rest: the blocks from the current one on decide. -/
theorem At.dropWhile (h : c.At blocks rest) (hlive : c.exhausted = false) {target : Nat} (hlt : c.curId < target) :
    rest.dropWhile (before target) = (postings (blocks.drop c.curBlock)).dropWhile (before target) := by
  rcases h.stands hlive with ⟨block, i, hblock, hid, hrest, _⟩
  rcases Option.map_eq_some_iff.mp hid with ⟨p, hp, hpid⟩
  rcases List.getElem?_eq_some_iff.mp hblock with ⟨hb, hbeq⟩
  have hbehind : (block.entries.take i).dropWhile (before target) = [] := by
    rw [List.dropWhile_eq_nil_iff]
    intro e he
    have hs := h.list.sorted_block hblock
    rw [← List.take_append_drop i block.entries, Sorted, List.pairwise_append] at hs
    have hmem : p ∈ block.entries.drop i := by
      rcases List.getElem?_eq_some_iff.mp hp with ⟨hi, rfl⟩
      rw [List.drop_eq_getElem_cons hi]
      exact List.mem_cons_self
    have := Fin.lt_def.mp (hs.2.2 e he p hmem)
    simp only [before, decide_eq_true_eq]
    omega
  have hsplit : postings (blocks.drop c.curBlock) = block.entries.take i ++ rest := by
    rw [List.drop_eq_getElem_cons hb, hbeq, postings_cons, hrest, ← List.append_assoc, List.take_append_drop]
  rw [hsplit, List.dropWhile_append, hbehind]
  rfl

/-- A block that is not decoded yet is decoded as its skip entry has it. -/
theorem Over.decodeBlock (h : c.Over blocks) {b : Nat} {block : Block} (hb : blocks[b]? = some block)
    (hnot : b ≠ c.curBlock ∨ c.entries = []) (hcur : c.curBlock < blocks.length) :
    c.decodeBlock b (BmwBlock.of c.idf block) = .ok { c with entries := block.entries, curBlock := b } := by
  have hdecodes : ∃ next, decodeBlockRun c.layout c.body (c.blocksStart + block.offset) block.entries.length c.pageNo =
      .ok (block.entries, next) := by
    rcases h.decodes with ⟨hentries, hone⟩ | hall
    · -- a list of one block is decoded from the start
      have := (List.getElem?_eq_some_iff.mp hb).1
      rcases hnot with hne | hnil
      · omega
      · exact absurd hnil hentries
    · exact hall block (List.mem_of_getElem? hb)
  rcases hdecodes with ⟨next, hrun⟩
  have hne := h.nonempty block (List.mem_of_getElem? hb)
  have hhead : block.entries.head?.map (fun p => p.1.val) = some (firstId block.entries) := by
    rw [firstId]
    cases hentries : block.entries with
    | nil => exact absurd hentries hne
    | cons p l => rfl
  have hlast : block.entries.getLast?.map (fun p => p.1.val) = some (lastId block.entries) := by
    rw [lastId, List.getLast?_eq_some_getLast hne]
    rfl
  rw [BmwCursor.decodeBlock]
  simp only [BmwBlock.of, hrun, ok_bind, hhead, hlast, ne_eq, not_true_eq_false, if_false]

/-- A target the cursor has reached leaves it where it is. -/
theorem At.stay (h : c.At blocks rest) {target : Nat} (hstay : c.exhausted = true ∨ target ≤ c.curId) :
    rest.dropWhile (before target) = rest := by
  cases hex : c.exhausted with
  | true =>
      rw [h.ended hex]
      rfl
  | false =>
      rcases h.head hex with ⟨p, l, hrest, hid⟩
      have hle : target ≤ p.1.val := by
        rw [hid]
        rcases hstay with hyes | hle
        · rw [hex] at hyes
          cases hyes
        · exact hle
      rw [hrest]
      exact dropWhile_eq_self hle

/-- A cursor at its end. -/
theorem At.exhaust (h : c.At blocks rest) : ({ c with exhausted := true } : BmwCursor α).At blocks [] where
  list := ⟨h.list.blocks_eq, h.list.sorted, h.list.nonempty, h.list.decodes⟩
  ended := by
    intro _
    rfl
  stands := by
    intro hno
    cases hno

/-- A cursor on the first posting of another block. -/
theorem Over.landOn (h : c.Over blocks) (hlive : c.exhausted = false) (hcur : c.curBlock < blocks.length) {b : Nat}
    {block : Block} (hb : blocks[b]? = some block) (hother : b ≠ c.curBlock) :
    (c.landOn b (BmwBlock.of c.idf block)).At blocks (block.entries ++ postings (blocks.drop (b + 1))) where
  list := by
    refine ⟨h.blocks_eq, h.sorted, h.nonempty, Or.inr ?_⟩
    rcases h.decodes with ⟨_, hone⟩ | hall
    · have := (List.getElem?_eq_some_iff.mp hb).1
      omega
    · exact hall
  ended := by
    intro hyes
    rw [show (c.landOn b (BmwBlock.of c.idf block)).exhausted = c.exhausted from rfl, hlive] at hyes
    cases hyes
  stands := by
    intro _
    refine ⟨block, 0, hb, ?_, rfl, Or.inl ⟨if_pos hother, rfl⟩⟩
    show _ = some (firstId block.entries)
    rw [firstId]
    cases hentries : block.entries with
    | nil => exact absurd hentries (h.nonempty block (List.mem_of_getElem? hb))
    | cons p l => rfl

/-- A cursor inside a decoded block, on the first posting from the target on. -/
theorem Over.landIn (h : c.Over blocks) (hlive : c.exhausted = false) {block : Block}
    (hb : blocks[c.curBlock]? = some block) (hentries : c.entries = block.entries) {target : Nat}
    (hlast : target ≤ lastId block.entries) :
    ∃ c', c.landIn target = .ok c' ∧ target ≤ c'.curId ∧ c'.idf = c.idf ∧ c'.termUb = c.termUb ∧
      c'.At blocks (block.entries.dropWhile (before target) ++ postings (blocks.drop (c.curBlock + 1))) := by
  have hmem := List.mem_of_getElem? hb
  -- the block's last id is at or above the target, so the scan stops inside it
  have hstill : block.entries.dropWhile (before target) ≠ [] := by
    intro hnil
    rcases lastId_mem (h.nonempty block hmem) with ⟨e, he, hlastid⟩
    have := List.dropWhile_eq_nil_iff.mp hnil e he
    simp only [before, decide_eq_true_eq] at this
    omega
  -- what it stops at starts the entries not below the target
  have hsplit : block.entries.drop (block.entries.takeWhile (before target)).length =
      block.entries.dropWhile (before target) := by
    have h := List.takeWhile_append_dropWhile (p := before target) (l := block.entries)
    calc block.entries.drop (block.entries.takeWhile (before target)).length
        = (block.entries.takeWhile (before target) ++ block.entries.dropWhile (before target)).drop
            (block.entries.takeWhile (before target)).length := by rw [h]
      _ = block.entries.dropWhile (before target) := List.drop_left
  cases hleft : block.entries.dropWhile (before target) with
  | nil => exact absurd hleft hstill
  | cons p l =>
      have hpos : block.entries[(block.entries.takeWhile (before target)).length]? = some p := by
        rw [← List.head?_drop, hsplit, hleft]
        rfl
      have hge : target ≤ p.1.val := by
        have hhead := List.head_dropWhile_not (before target) hstill
        have hp : (block.entries.dropWhile (before target)).head hstill = p := by simp only [hleft, List.head_cons]
        rw [hp] at hhead
        simpa [before] using hhead
      -- the cursor stands on that entry
      have hland : c.landIn target = .ok { c with
          pos := (block.entries.takeWhile (before target)).length
          curId := p.1.val } := by
        unfold BmwCursor.landIn
        rw [hentries]
        show (okOr block.entries[(block.entries.takeWhile (before target)).length]? _ >>= _) = _
        rw [hpos]
        rfl
      refine ⟨_, hland, hge, rfl, rfl, ?_⟩
      constructor
      case list => exact ⟨h.blocks_eq, h.sorted, h.nonempty, h.decodes⟩
      case ended =>
        intro hyes
        rw [hlive] at hyes
        cases hyes
      case stands =>
        intro _
        refine ⟨block, (block.entries.takeWhile (before target)).length, hb, ?_, ?_, Or.inr ⟨hentries, rfl⟩⟩
        · rw [hpos]
          rfl
        · rw [hsplit, hleft]

/-- The block the cursor is moved into is decoded, now or from before. -/
theorem At.decoded (h : c.At blocks rest) (hlive : c.exhausted = false) {b : Nat} {block : Block}
    (hb : blocks[b]? = some block) :
    c.decoded b (BmwBlock.of c.idf block) = .ok { c with entries := block.entries, curBlock := b } := by
  rcases h.stands hlive with ⟨cur, i, hcur, _, _, hdecoded⟩
  unfold BmwCursor.decoded
  split
  · rename_i hnot
    exact h.list.decodeBlock hb hnot (List.getElem?_eq_some_iff.mp hcur).1
  · rename_i hnot
    rw [not_or, not_not] at hnot
    rcases hnot with ⟨rfl, hsome⟩
    rw [hcur] at hb
    cases hb
    rcases hdecoded with ⟨hnil, _⟩ | ⟨heq, _⟩
    · exact absurd hnil hsome
    · rw [← heq]

/-- Moving a cursor drops what is before the target from the rest. -/
theorem At.advanceTo (h : c.At blocks rest) (target : Nat) :
    ∃ c', c.advanceTo target = .ok c' ∧ c'.At blocks (rest.dropWhile (before target)) ∧ Moved c c' := by
  unfold BmwCursor.advanceTo
  by_cases hstay : c.exhausted = true ∨ target ≤ c.curId
  · rw [if_pos hstay, h.stay hstay]
    exact ⟨c, rfl, h, Moved.refl c⟩
  rw [if_neg hstay]
  rw [not_or, Bool.not_eq_true, not_le] at hstay
  rcases hstay with ⟨hlive, hlt⟩
  rcases h.stands hlive with ⟨cur, i, hcur, hid, _, _⟩
  have hcurlt := (List.getElem?_eq_some_iff.mp hcur).1
  have hne : ∀ block ∈ blocks.drop c.curBlock, block.entries ≠ [] := by
    intro block hblock
    exact h.list.nonempty block (List.mem_of_mem_drop hblock)
  rw [h.dropWhile hlive hlt]
  dsimp only
  rw [h.list.blocks_getElem?, h.list.blocksBefore]
  -- the first block that reaches the target, if there is one
  rcases dropWhile_postings (h.list.sorted_drop c.curBlock) hne target with
    ⟨hnone, hdrop⟩ | ⟨block, hblock, hlast, hdrop⟩
  · -- no block ends at the target or past it
    rw [List.getElem?_drop] at hnone
    rw [hnone, hdrop]
    exact ⟨_, rfl, h.exhaust, ⟨rfl, rfl, le_refl _⟩⟩
  rw [List.getElem?_drop] at hblock
  rw [List.drop_drop] at hdrop
  rw [hblock, hdrop]
  generalize ((blocks.drop c.curBlock).takeWhile fun block => decide (lastId block.entries < target)).length = n at *
  dsimp only [Option.map_some]
  by_cases hfirst : target ≤ firstId block.entries
  -- the target is before it: the cursor lands on its first posting without decoding it
  · rw [if_pos (show target ≤ (BmwBlock.of c.idf block).firstId from hfirst)]
    have hsorted := h.list.sorted_block hblock
    have hother : c.curBlock + n ≠ c.curBlock := by
      intro heq
      rw [heq, hcur] at hblock
      cases hblock
      rcases Option.map_eq_some_iff.mp hid with ⟨p, hp, hpid⟩
      have := firstId_le hsorted p (List.mem_of_getElem? hp)
      omega
    have hall : block.entries.dropWhile (before target) = block.entries := by
      cases hentries : block.entries with
      | nil => rfl
      | cons p l =>
          rw [hentries] at hfirst
          exact dropWhile_eq_self hfirst
    rw [hall]
    exact ⟨_, rfl, h.list.landOn hlive hcurlt hblock hother, ⟨rfl, rfl, le_trans (le_of_lt hlt) hfirst⟩⟩
  -- the target is in it: the block is decoded
  · rw [if_neg (show ¬ target ≤ (BmwBlock.of c.idf block).firstId from hfirst), h.decoded hlive hblock, ok_bind]
    have hover : ({ c with entries := block.entries, curBlock := c.curBlock + n } : BmwCursor α).Over blocks := by
      refine ⟨h.list.blocks_eq, h.list.sorted, h.list.nonempty, ?_⟩
      rcases h.list.decodes with ⟨_, hone⟩ | hall
      · exact Or.inl ⟨h.list.nonempty block (List.mem_of_getElem? hblock), hone⟩
      · exact Or.inr hall
    rcases hover.landIn hlive hblock rfl hlast with ⟨c', hland, hge, hidf, hub, hat⟩
    exact ⟨c', hland, hat, hidf, hub, le_trans (le_of_lt hlt) hge⟩

/-- Moving past an id drops the postings up to it. -/
theorem At.advancePast (h : c.At blocks rest) (id : Nat) :
    ∃ c', c.advancePast id = .ok c' ∧ c'.At blocks (rest.dropWhile (before (id + 1))) ∧ Moved c c' := by
  unfold BmwCursor.advancePast
  split
  · exact h.advanceTo (id + 1)
  · -- every id is before one past the last
    rename_i hbig
    have hnil : rest.dropWhile (before (id + 1)) = [] := by
      rw [List.dropWhile_eq_nil_iff]
      intro e _
      have := e.1.isLt
      simp only [before, decide_eq_true_eq]
      omega
    rw [hnil]
    exact ⟨_, rfl, h.exhaust, ⟨rfl, rfl, le_refl _⟩⟩

/-- The frequency of the posting the cursor stands on. -/
theorem At.currentTf (h : c.At blocks rest) (hlive : c.exhausted = false) :
    ∃ p l c', rest = p :: l ∧ p.1.val = c.curId ∧ c.currentTf = .ok (p.2, c') ∧ c'.At blocks rest ∧ Moved c c' ∧
      c'.exhausted = false ∧ c'.curId = c.curId := by
  rcases h.head hlive with ⟨p, l, hrest, hpid⟩
  rcases h.stands hlive with ⟨block, i, hblock, hid, hsuffix, hdecoded⟩
  rcases Option.map_eq_some_iff.mp hid with ⟨q, hq, hqid⟩
  have hqp : q = p := by
    rcases List.getElem?_eq_some_iff.mp hq with ⟨hi, rfl⟩
    rw [hsuffix, List.drop_eq_getElem_cons hi] at hrest
    exact (List.cons.inj hrest).1
  subst hqp
  refine ⟨q, l, { c with entries := block.entries, pos := i }, hrest, hpid, ?_, ?_, ⟨rfl, rfl, le_refl _⟩, hlive, rfl⟩
  · have hstands : c.currentTf = (do
        let posting ← okOr block.entries[i]? (.malformedPage c.pageNo "fts skip cursor past block")
        if posting.1.val ≠ c.curId then malformed c.pageNo "fts skip cursor desync"
        else .ok (posting.2, { c with entries := block.entries, pos := i })) := by
      unfold BmwCursor.currentTf
      rcases hdecoded with ⟨hnil, rfl⟩ | ⟨heq, rfl⟩
      · have hdecode := h.list.decodeBlock hblock (Or.inr hnil) (List.getElem?_eq_some_iff.mp hblock).1
        rw [if_pos hnil, h.list.blocks_getElem?, hblock, Option.map_some, okOr_some, ok_bind, hdecode]
        rfl
      · have hne := h.list.nonempty block (List.mem_of_getElem? hblock)
        rw [if_neg (by rw [heq]; exact hne), ← heq]
        rfl
    rw [hstands, hq, okOr_some, ok_bind, if_neg (not_not.mpr hqid)]
  · constructor
    case list =>
      refine ⟨h.list.blocks_eq, h.list.sorted, h.list.nonempty, ?_⟩
      rcases h.list.decodes with ⟨_, hone⟩ | hall
      · exact Or.inl ⟨h.list.nonempty block (List.mem_of_getElem? hblock), hone⟩
      · exact Or.inr hall
    case ended =>
      intro hyes
      rw [hlive] at hyes
      cases hyes
    case stands =>
      intro _
      exact ⟨block, i, hblock, hid, hsuffix, Or.inr ⟨rfl, rfl⟩⟩

/-- The covering block is the first block of the list that ends at the target or past it. -/
theorem At.coveringBlock (h : c.At blocks rest) (hlive : c.exhausted = false) {target : Nat} (hle : c.curId ≤ target) :
    c.coveringBlock target =
      (blocks.find? fun block => decide (target ≤ lastId block.entries)).map (BmwBlock.of c.idf) := by
  rcases h.stands hlive with ⟨cur, i, hcur, hid, _, _⟩
  rcases Option.map_eq_some_iff.mp hid with ⟨p, hp, hpid⟩
  -- the blocks behind the cursor end before it
  have hbehind : ∀ block ∈ blocks.take c.curBlock, ¬ target ≤ lastId block.entries := by
    intro block hblock hge
    rcases lastId_mem (h.list.nonempty block (List.mem_of_mem_take hblock)) with ⟨e, he, hlast⟩
    have hs := h.list.sorted
    rw [postings_split hcur, List.append_assoc, Sorted, List.pairwise_append] at hs
    have hlt := hs.2.2 e (List.mem_flatMap.mpr ⟨block, hblock, he⟩) p
      (List.mem_append_left _ (List.mem_of_getElem? hp))
    have := Fin.lt_def.mp hlt
    omega
  have hskip : blocks.find? (fun block => decide (target ≤ lastId block.entries)) =
      (blocks.drop c.curBlock).find? fun block => decide (target ≤ lastId block.entries) := by
    nth_rewrite 1 [← List.take_append_drop c.curBlock blocks]
    rw [List.find?_append, List.find?_eq_none.mpr (by simpa using hbehind)]
    rfl
  rw [BmwCursor.coveringBlock, h.list.blocks_getElem?, h.list.blocksBefore, hskip, ← List.getElem?_drop]
  generalize blocks.drop c.curBlock = l
  congr 1
  induction l with
  | nil => rfl
  | cons block l ih =>
      by_cases hlast : lastId block.entries < target
      · rw [List.takeWhile_cons_of_pos (by simpa using hlast), List.length_cons, List.getElem?_cons_succ, ih,
          List.find?_cons_of_neg (by simpa using hlast)]
      · rw [List.takeWhile_cons_of_neg (by simpa using hlast), List.find?_cons_of_pos (by simpa using hlast)]
        rfl

end BmwCursor

/-! ## Opening -/

/-- The bound of a term is one for each of its blocks. -/
theorem le_termBound {blocks : List (BmwBlock α)} {block : BmwBlock α} (h : block ∈ blocks) :
    block.ub ≤ termBound blocks := by
  have hge : ∀ (l : List (BmwBlock α)) (a : α), a ≤ l.foldl (fun ub block => max ub block.ub) a ∧
      ∀ x ∈ l, x.ub ≤ l.foldl (fun ub block => max ub block.ub) a := by
    intro l
    induction l with
    | nil =>
        intro a
        refine ⟨le_refl a, ?_⟩
        intro x hx
        cases hx
    | cons y l ih =>
        intro a
        rcases ih (max a y.ub) with ⟨hacc, hl⟩
        refine ⟨le_trans (le_max_left _ _) hacc, ?_⟩
        intro x hx
        rcases List.mem_cons.mp hx with rfl | hx
        · exact le_trans (le_max_right _ _) hacc
        · exact hl x hx
  exact (hge blocks 0).2 block h

/-- A block with postings has a frequency. -/
theorem maxTf_pos {block : List Posting} (hne : block ≠ []) (h : ∀ e ∈ block, 0 < e.2) : 0 < maxTf block := by
  cases block with
  | nil => exact absurd rfl hne
  | cons e l =>
      have hle : e.2 ≤ maxTf (e :: l) := le_maxOf (List.mem_map_of_mem List.mem_cons_self)
      exact lt_of_lt_of_le (h e List.mem_cons_self) hle

variable {body : Bytes} {pageNo : Nat} {layout : PostingsLayout} {blocks : List Block} {idf : α}

/-- The skip index is read as the blocks have it. -/
theorem readBlocks_eq (idf : α) (h : Blocked body pageNo .v6 layout blocks) {left b : Nat}
    (prev : Option (BmwBlock α)) (hleft : b + left = blocks.length)
    (hprev : ∀ p ∈ prev, ∀ block ∈ blocks.drop b, p.lastId < firstId block.entries ∧ p.offset < block.offset) :
    readBlocks idf body pageNo (postings blocks).length blocks.length left b prev =
      .ok ((blocks.drop b).map (BmwBlock.of idf)) := by
  induction left generalizing b prev with
  | zero => rw [List.drop_eq_nil_of_le (by omega), readBlocks, List.map_nil]
  | succ left ih =>
      have hb : b < blocks.length := by omega
      have hget : blocks[b]? = some blocks[b] := List.getElem?_eq_getElem hb
      have hat := h.at hget
      have hne := h.ne_nil hget
      rw [List.drop_eq_getElem_cons hb] at hprev ⊢
      generalize blocks[b] = block at *
      -- the index entry holds what the block decodes to
      rcases hat.stored with ⟨s, hs, hfirst, hoffset, htf, hlast⟩
      rcases readSkipEntry_inv body pageNo hs with ⟨hread1, hread3⟩
      rcases readSkipEntry_v6_inv body pageNo hs with ⟨last, hslast, hread2, hread4⟩
      have hlasteq : last = lastId block.entries := hlast last hslast
      have horder : firstId block.entries ≤ lastId block.entries := by
        rcases firstId_mem hne with ⟨e, he, hid⟩
        rw [hid]
        exact le_lastId hat.run.sorted e he
      have hpos : 0 < maxTf block.entries := maxTf_pos hne fun e he => (hat.run.freqs e he).1
      have hstart : b = 0 → block.offset = 0 := by
        intro hzero
        rw [hzero] at hget
        have := h.blocks.start block (by rw [List.head?_eq_getElem?]; exact hget)
        omega
      -- the blocks behind it have larger ids and larger offsets
      have hlater : ∀ x ∈ blocks.drop (b + 1),
          lastId block.entries < firstId x.entries ∧ block.offset < x.offset := by
        intro x hx
        rcases List.mem_iff_getElem?.mp hx with ⟨i, hi⟩
        rw [List.getElem?_drop] at hi
        rcases List.getElem?_eq_some_iff.mp hget with ⟨_, hgb⟩
        rcases List.getElem?_eq_some_iff.mp hi with ⟨hilt, hgi⟩
        constructor
        · have hpair := List.pairwise_iff_getElem.mp (List.pairwise_flatMap.mp h.blocks.sorted).2 b (b + 1 + i) hb hilt
            (by omega)
          rw [hgb, hgi] at hpair
          rcases lastId_mem hne with ⟨e, he, heid⟩
          rcases firstId_mem (h.ne_nil hi) with ⟨f, hf, hfid⟩
          rw [heid, hfid]
          exact Fin.lt_def.mp (hpair e he f hf)
        · have hpair := List.pairwise_iff_getElem.mp h.blocks.offsets b (b + 1 + i) hb hilt (by omega)
          rwa [hgb, hgi] at hpair
      -- so the checks of the entry pass
      have hconsistent : ¬ (lastId block.entries < firstId block.entries ∨ maxTf block.entries = 0 ∨
          (b = 0 ∧ block.offset ≠ 0) ∨
          prev.any (fun p => decide (firstId block.entries ≤ p.lastId) || decide (block.offset ≤ p.offset)) = true) := by
        rintro (hlt | hzero | ⟨hb0, hoff⟩ | hany)
        · omega
        · omega
        · exact hoff (hstart hb0)
        · cases prev with
          | none => cases hany
          | some p =>
              have := hprev p rfl block List.mem_cons_self
              rw [Option.any_some, Bool.or_eq_true, decide_eq_true_eq, decide_eq_true_eq] at hany
              omega
      have hrest := ih (b := b + 1) (some (BmwBlock.of idf block)) (by omega) (by
        intro p hp x hx
        cases hp
        exact hlater x hx)
      have hlen : blockLen (postings blocks).length blocks.length b = block.entries.length := hat.run.count.symm
      rw [readBlocks]
      simp only [hread1, hread2, hread3, hread4, ok_bind, hfirst, hlasteq, hoffset, htf, hlen]
      rw [if_neg hconsistent]
      change (readBlocks idf body pageNo _ _ left (b + 1) (some (BmwBlock.of idf block)) >>= _) = _
      rw [hrest]
      rfl

/-- What a cursor is opened to: the blocks of the list, before the whole of it. -/
theorem openCursor_eq (idf : α) (hskip : layout.skipEntryOf = some .v6) {entries : List Posting}
    (h : decode body pageNo layout = .ok entries) :
    (entries = [] ∧ openCursor idf body pageNo layout = .ok none) ∨
      ∃ c blocks, openCursor idf body pageNo layout = .ok (some c) ∧ postings blocks = entries ∧
        c.At blocks entries ∧ c.exhausted = false ∧ c.idf = idf ∧
        ∀ block ∈ blocks, (BmwBlock.of idf block).ub ≤ c.termUb := by
  -- a short list has no blocks on disk: it becomes one block, decoded at once
  rcases decode_skip_inv hskip h with ⟨hzero, count, hcount, hrun⟩ | ⟨blocks, rfl, hblocked⟩
  · cases hentries : entries with
    | nil =>
        refine Or.inl ⟨rfl, ?_⟩
        rw [openCursor, hcount, ok_bind, hzero, ok_bind, if_pos rfl, h, ok_bind, hentries]
        rfl
    | cons p l =>
        rw [← hentries]
        have hne : entries ≠ [] := by
          rw [hentries]
          exact List.cons_ne_nil p l
        -- the one block is loaded, and its bound is the bound of the list
        refine Or.inr ⟨⟨idf, body, pageNo, layout, 0, [BmwBlock.of idf ⟨0, entries⟩], 0, entries, 0, firstId entries,
          boundContribution idf (maxTf entries), false⟩, [⟨0, entries⟩], ?_, ?_, ?_, rfl, rfl, ?_⟩
        · have hsome : ¬ entries.isEmpty = true := by simpa using hne
          rw [openCursor, hcount, ok_bind, hzero, ok_bind, if_pos rfl, h, ok_bind, if_neg hsome]
          rfl
        · rw [postings_cons, postings_nil, List.append_nil]
        · constructor
          case list =>
            refine ⟨rfl, ?_, ?_, Or.inl ⟨hne, rfl⟩⟩
            · rw [postings_cons, postings_nil, List.append_nil]
              exact hrun.sorted
            · intro block hblock
              rw [List.mem_singleton.mp hblock]
              exact hne
          case ended =>
            intro hno
            cases hno
          case stands =>
            intro _
            refine ⟨⟨0, entries⟩, 0, rfl, ?_, ?_, Or.inr ⟨rfl, rfl⟩⟩
            · rw [hentries]
              rfl
            · exact (List.append_nil _).symm
        · intro block hblock
          rw [List.mem_singleton.mp hblock]
          exact le_refl _
  · right
    -- a blocked list is opened from its skip index; no block is decoded yet
    rcases checkSkipIndex_inv hblocked.index with ⟨_, _, _, _⟩
    have hread := readBlocks_eq idf hblocked none (Nat.zero_add blocks.length) (by
      intro p hp
      cases hp)
    rw [List.drop_zero] at hread
    have hlen : blocks.length ≠ 0 := by
      intro hzero
      exact hblocked.nonempty (List.length_eq_zero_iff.mp hzero)
    cases hblocks : blocks with
    | nil => exact absurd hblocks hblocked.nonempty
    | cons block rest =>
        rw [← hblocks]
        have hget : blocks[0]? = some block := by
          rw [hblocks]
          rfl
        -- the cursor stands before the first posting of the first block
        refine ⟨⟨idf, body, pageNo, layout, 8 + blocks.length * SkipEntry.v6.len, blocks.map (BmwBlock.of idf), 0, [], 0,
          firstId block.entries, termBound (blocks.map (BmwBlock.of idf)), false⟩, blocks, ?_, rfl, ?_, rfl, rfl, ?_⟩
        · rw [openCursor, hblocked.count, ok_bind, hblocked.blockCount, ok_bind, if_neg hlen, hblocked.index, ok_bind,
            hread, ok_bind]
          have hfirst : ((blocks.map (BmwBlock.of idf)).head?.map BmwBlock.firstId).getD 0 = firstId block.entries := by
            rw [hblocks]
            rfl
          rw [hfirst]
        · constructor
          case list =>
            refine ⟨rfl, hblocked.blocks.sorted, ?_, Or.inr ?_⟩
            · intro x hx
              rcases List.mem_iff_getElem?.mp hx with ⟨b, hb⟩
              exact hblocked.ne_nil hb
            · intro x hx
              rcases List.mem_iff_getElem?.mp hx with ⟨b, hb⟩
              have hat := hblocked.at hb
              rw [hat.run.count]
              exact hat.decodes
          case ended =>
            intro hno
            cases hno
          case stands =>
            intro _
            refine ⟨block, 0, hget, ?_, ?_, Or.inl ⟨rfl, rfl⟩⟩
            · have hne := hblocked.ne_nil hget
              cases hentries : block.entries with
              | nil => exact absurd hentries hne
              | cons p l => rfl
            · show postings blocks = _ ++ postings (blocks.drop 1)
              rw [hblocks]
              rfl
        · intro x hx
          exact le_termBound (List.mem_map_of_mem hx)

/-! ## Runs of moves -/

/-- The calls a search makes on a cursor. A frequency is asked for where there is a posting. -/
inductive Move where
  | advanceTo (target : Ulid)
  | advancePast (id : Ulid)
  | currentTf

def Move.run (c : BmwCursor α) : Move → Except Error (BmwCursor α)
  | .advanceTo target => c.advanceTo target.val
  | .advancePast id => c.advancePast id.val
  | .currentTf =>
      if c.exhausted then .ok c
      else do
        let (_, c) ← c.currentTf
        .ok c

/-- The least id a move leaves a cursor on. -/
def Move.target : Move → Nat
  | .advanceTo target => target.val
  | .advancePast id => id.val + 1
  | .currentTf => 0

def runMoves (c : BmwCursor α) : List Move → Except Error (BmwCursor α)
  | [] => .ok c
  | move :: rest => do
      let c ← move.run c
      runMoves c rest

/-- The largest target of a run. -/
def farthest (moves : List Move) : Nat := maxOf (moves.map Move.target)

/-- Dropping twice is dropping to the later target. -/
theorem dropWhile_dropWhile (a b : Nat) (l : List Posting) :
    (l.dropWhile (before a)).dropWhile (before b) = l.dropWhile (before (max a b)) := by
  induction l with
  | nil => rfl
  | cons p l ih =>
      by_cases ha : p.1.val < a
      · rw [List.dropWhile_cons_of_pos (by simpa [before] using ha), ih,
          List.dropWhile_cons_of_pos (by simp [before, ha])]
      · rw [dropWhile_eq_self (not_lt.mp ha)]
        by_cases hb : p.1.val < b
        · rw [List.dropWhile_cons_of_pos (by simpa [before] using hb),
            List.dropWhile_cons_of_pos (by simp [before, hb]), ← ih]
          -- nothing that is left is before `a` either, once `b` is past it
          have hmax : max a b = b := by omega
          rw [ih, hmax]
        · rw [dropWhile_eq_self (not_lt.mp hb), dropWhile_eq_self (by omega)]

namespace BmwCursor

variable {c : BmwCursor α} {rest : List Posting}

/-- One move. -/
theorem At.move (h : c.At blocks rest) (move : Move) :
    ∃ c', move.run c = .ok c' ∧ c'.At blocks (rest.dropWhile (before move.target)) ∧ c'.idf = c.idf := by
  cases move with
  | advanceTo target =>
      rcases h.advanceTo target.val with ⟨c', hrun, hat, hmoved⟩
      exact ⟨c', hrun, hat, hmoved.idf⟩
  | advancePast id =>
      rcases h.advancePast id.val with ⟨c', hrun, hat, hmoved⟩
      exact ⟨c', hrun, hat, hmoved.idf⟩
  | currentTf =>
      have hnone : rest.dropWhile (before Move.currentTf.target) = rest := by
        cases rest with
        | nil => rfl
        | cons p l => exact dropWhile_eq_self (Nat.zero_le _)
      rw [hnone]
      cases hex : c.exhausted with
      | true => exact ⟨c, by rw [Move.run, if_pos hex], h, rfl⟩
      | false =>
          rcases h.currentTf hex with ⟨p, l, c', _, _, hrun, hat, hmoved, _⟩
          refine ⟨c', ?_, hat, hmoved.idf⟩
          rw [Move.run, if_neg (by rw [hex]; exact Bool.false_ne_true), hrun]
          rfl

/-- A run of moves drops what is before its largest target. -/
theorem At.moves (h : c.At blocks rest) (moves : List Move) :
    ∃ c', runMoves c moves = .ok c' ∧ c'.At blocks (rest.dropWhile (before (farthest moves))) ∧ c'.idf = c.idf := by
  have hfrom : ∀ (moves : List Move) (c : BmwCursor α) (a : Nat), c.At blocks (rest.dropWhile (before a)) →
      ∃ c', runMoves c moves = .ok c' ∧
        c'.At blocks (rest.dropWhile (before ((moves.map Move.target).foldl max a))) ∧ c'.idf = c.idf := by
    intro moves
    induction moves with
    | nil =>
        intro c a hat
        exact ⟨c, rfl, hat, rfl⟩
    | cons move moves ih =>
        intro c a hat
        rcases hat.move move with ⟨c', hrun, hat', hidf⟩
        rw [dropWhile_dropWhile] at hat'
        rcases ih c' _ hat' with ⟨c'', hruns, hat'', hidf'⟩
        refine ⟨c'', ?_, hat'', hidf'.trans hidf⟩
        rw [runMoves, hrun, ok_bind, hruns]
  have hzero : rest.dropWhile (before 0) = rest := by
    cases rest with
    | nil => rfl
    | cons p l => exact dropWhile_eq_self (Nat.zero_le _)
  rw [← hzero] at h
  exact hfrom moves c 0 h

/-- Where a cursor over `blocks` is after moves of which `target` is the largest. -/
structure Stands (c : BmwCursor α) (idf : α) (blocks : List Block) (target : Nat) : Prop where
  exhausted : c.exhausted = true ↔ ∀ p ∈ postings blocks, p.1.val < target
  first : ∀ p, (postings blocks).find? (fun p => decide (target ≤ p.1.val)) = some p →
    c.curId = p.1.val ∧ ∃ c', c.currentTf = .ok (p.2, c')
  covering : c.exhausted = false → ∀ id, c.curId ≤ id → c.coveringBlock id =
    (blocks.find? fun block => decide (id ≤ lastId block.entries)).map (BmwBlock.of idf)

/-- A cursor that was moved stands at the first posting not before the target. -/
theorem At.standing {target : Nat} (h : c.At blocks ((postings blocks).dropWhile (before target))) :
    c.Stands c.idf blocks target := by
  have hhead : ((postings blocks).dropWhile (before target)).head? =
      (postings blocks).find? fun p => decide (target ≤ p.1.val) := by
    rw [← List.find?_not_eq_head?_dropWhile]
    congr 1
    funext p
    rw [before, ← decide_not, decide_eq_decide, not_lt]
  have hended : c.exhausted = true ↔ (postings blocks).dropWhile (before target) = [] := by
    constructor
    · exact h.ended
    · intro hnil
      cases hex : c.exhausted with
      | true => rfl
      | false =>
          rcases h.head hex with ⟨p, l, hrest, _⟩
          rw [hnil] at hrest
          cases hrest
  constructor
  case exhausted =>
    rw [hended, List.dropWhile_eq_nil_iff]
    simp only [before, decide_eq_true_eq]
  case first =>
    intro p hp
    rw [← hhead] at hp
    have hlive : c.exhausted = false := by
      cases hex : c.exhausted with
      | false => rfl
      | true =>
          rw [hended.mp hex] at hp
          cases hp
    rcases h.currentTf hlive with ⟨q, l, c', hrest, hid, hrun, _⟩
    rw [hrest] at hp
    cases hp
    exact ⟨hid.symm, c', hrun⟩
  case covering =>
    intro hlive id hle
    exact h.coveringBlock hlive hle

end BmwCursor

/-- Every run of moves from the start of the list leaves the cursor where its largest target puts it,
and the bound of a block is not below any of its postings. -/
def Navigates (idf : α) (body : Bytes) (pageNo : Nat) (layout : PostingsLayout) (entries : List Posting) : Prop :=
  (entries = [] ∧ openCursor idf body pageNo layout = .ok none) ∨
    ∃ c blocks, openCursor idf body pageNo layout = .ok (some c) ∧ postings blocks = entries ∧
      (∀ moves, ∃ c', runMoves c moves = .ok c' ∧ c'.Stands idf blocks (farthest moves)) ∧
      (0 < idf → ∀ block ∈ blocks, ∀ p ∈ block.entries, ∀ avgdl dl,
        contribution idf avgdl p.2 dl ≤ (BmwBlock.of idf block).ub)

end Cursor

section Navigation

variable {α : Type} [Field α] [LinearOrder α] [IsStrictOrderedRing α]

/-- The bound of a block is one for each of its postings. -/
theorem contribution_le_block {idf : α} (hidf : 0 < idf) {block : Block} {p : Posting} (hp : p ∈ block.entries)
    (htf : 0 < p.2) (avgdl : α) (dl : Nat) : contribution idf avgdl p.2 dl ≤ (BmwBlock.of idf block).ub :=
  le_trans (contribution_le_bound hidf avgdl htf dl)
    (boundContribution_mono hidf htf (le_maxOf (List.mem_map_of_mem hp)))

/-- Block cursors navigate: over every body of the v6 and the frame of reference layout that
decodes, the bodies of the writer's lists among them. -/
theorem cursor_navigates (layout : PostingsLayout) (hskip : layout.skipEntryOf = some .v6) (pageNo : Nat) (idf : α) :
    (∀ body entries, decode body pageNo layout = .ok entries → Navigates idf body pageNo layout entries) ∧
    ∀ entries, Sorted entries → (∀ e ∈ entries, 1 ≤ e.2 ∧ e.2 < 2 ^ 32) → (encode entries layout).length < 2 ^ 32 →
      Navigates idf (encode entries layout) pageNo layout entries := by
  have hbody : ∀ body entries, decode body pageNo layout = .ok entries →
      Navigates idf body pageNo layout entries := by
    intro body entries hdecode
    rcases openCursor_eq idf hskip hdecode with hnone | ⟨c, blocks, hopen, rfl, hat, _, rfl, _⟩
    · exact Or.inl hnone
    · refine Or.inr ⟨c, blocks, hopen, rfl, ?_, ?_⟩
      · intro moves
        rcases hat.moves moves with ⟨c', hrun, hat', hidf⟩
        refine ⟨c', hrun, ?_⟩
        rw [← hidf]
        exact hat'.standing
      · intro hidf block hblock p hp avgdl dl
        have hin : p ∈ postings blocks := List.mem_flatMap.mpr ⟨block, hblock, hp⟩
        exact contribution_le_block hidf hp (decode_freqs hskip hdecode p hin).1 avgdl dl
  refine ⟨hbody, ?_⟩
  intro entries hsorted htf hsize
  exact hbody _ entries (postings_round_trip pageNo hsorted layout htf hsize)

set_option maxRecDepth 100000 in
/-- Over five blocks: past an id of the first, and then to one between two ids of the third. -/
theorem cursor_navigates_five_blocks :
    ∃ c c' : BmwCursor ℚ, openCursor 1 (encode oddPostings .frameOfReference) 7 .frameOfReference = .ok (some c) ∧
      runMoves c [.advancePast 9, .currentTf, .advanceTo 600] = .ok c' ∧ c'.exhausted = false ∧ c'.curId = 601 ∧
      ∃ c'', c'.currentTf = .ok (301, c'') := by
  have hnavigates : Navigates (1 : ℚ) (encode oddPostings .frameOfReference) 7 .frameOfReference oddPostings := by
    refine (cursor_navigates .frameOfReference rfl 7 1).2 oddPostings sorted_oddPostings ?_ ?_
    · decide +kernel
    · decide +kernel
  rcases hnavigates with ⟨hnil, _⟩ | ⟨c, blocks, hopen, hpost, hmoves, _⟩
  · have hlen := congrArg List.length hnil
    simp [oddPostings] at hlen
  · rcases hmoves [.advancePast 9, .currentTf, .advanceTo 600] with ⟨c', hrun, hstands⟩
    have hfind : oddPostings.find? (fun p => decide (farthest [.advancePast 9, .currentTf, .advanceTo 600] ≤ p.1.val)) =
        some (601, 301) := by decide +kernel
    rw [← hpost] at hfind
    rcases hstands.first (601, 301) hfind with ⟨hid, htf⟩
    refine ⟨c, c', hopen, hrun, ?_, hid, htf⟩
    cases hex : c'.exhausted with
    | false => rfl
    | true =>
        have hlt := hstands.exhausted.mp hex (601, 301) (List.mem_of_find?_eq_some hfind)
        revert hlt
        decide +kernel

end Navigation

end Fts

end EmbedMind
