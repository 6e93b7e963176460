import EmbedMind.Decoders
import EmbedMind.Index.PostingsProof

/-!
# Postings bodies of any bytes

Every reader of a body ends in an error or in a list of as many postings as it was asked
for, with strictly ascending ids and frequencies from 1 on. A list that is decoded under a
skip index comes block by block (`Blocked`): each entry of the index describes its block,
and leads to it.
-/

namespace EmbedMind

open Lib Lib.Assoc

namespace Fts

/-- What a reader may return: `count` postings after `prev`, none of frequency 0. -/
structure RunOk (count : Nat) (prev : Option Ulid) (entries : List Posting) : Prop where
  ascends : AscendsFrom Prod.fst prev entries
  count : entries.length = count
  freqs : ∀ e ∈ entries, 0 < e.2 ∧ e.2 < 2 ^ 32

theorem RunOk.nil {prev : Option Ulid} : RunOk 0 prev [] where
  ascends := AscendsFrom.nil
  count := rfl
  freqs := by
    intro e he
    cases he

/-- One more posting in front. -/
theorem RunOk.cons {count tf : Nat} {prev : Option Ulid} {id : Ulid} {rest : List Posting} (hid : ∀ p ∈ prev, p < id)
    (htf : 0 < tf ∧ tf < 2 ^ 32) (h : RunOk count (some id) rest) : RunOk (count + 1) prev ((id, tf) :: rest) where
  ascends := by
    refine AscendsFrom.cons ?_ h.ascends
    rw [Bool.not_eq_true, Option.any_eq_false]
    intro p hp
    simpa using hid p hp
  count := by rw [List.length_cons, h.count]
  freqs := by
    intro e he
    rcases List.mem_cons.mp he with rfl | he
    · exact htf
    · exact h.freqs e he

/-- A run ascends. -/
theorem RunOk.sorted {count : Nat} {prev : Option Ulid} {entries : List Posting} (h : RunOk count prev entries) :
    Sorted entries := h.ascends.pairwise

section Total

variable (body : Bytes) (pageNo : Nat)

/-- The next id is above the one before, or the page is malformed. -/
theorem nextId_ends (prev : Option Ulid) (delta : Nat) :
    Ends (fun id => ∀ p ∈ prev, p < id) (Malformed pageNo) (nextId prev delta pageNo) := by
  unfold nextId
  cases prev with
  | none =>
      dsimp only
      split
      · refine Ends.ok ?_
        intro p hp
        cases hp
      · exact ends_malformed _ _
  | some p =>
      dsimp only
      split
      · exact ends_malformed _ _
      rename_i hne
      split
      · refine Ends.ok ?_
        intro q hq
        cases hq
        rw [Fin.lt_def]
        show p.val < p.val + delta
        omega
      · exact ends_malformed _ _

/-- A frequency is positive and fits four bytes. -/
theorem termFreq_ends (value : Nat) :
    Ends (fun tf => 0 < tf ∧ tf < 2 ^ 32) (Malformed pageNo) (termFreq value pageNo) := by
  unfold termFreq
  refine Ends.ite ?_ ?_
  · intro _
    exact ends_malformed _ _
  intro hlt
  refine Ends.ite ?_ ?_
  · intro _
    exact ends_malformed _ _
  intro hne
  exact Ends.ok ⟨Nat.pos_of_ne_zero hne, not_le.mp hlt⟩

/-- A varint takes at least a byte. -/
theorem readVarint_ends (off : Nat) :
    Ends (fun r : Nat × Nat => off < r.2) (Malformed pageNo) (readVarint body off pageNo) := by
  have hfrom : ∀ left i value, Ends (fun r : Nat × Nat => off < r.2) (Malformed pageNo)
      (readVarintFrom body off pageNo left i value) := by
    intro left
    induction left with
    | zero =>
        intro i value
        exact ends_malformed _ _
    | succ left ih =>
        intro i value
        refine ends_present ⟨_, rfl⟩ ?_
        intro byte _
        refine Ends.ite ?_ ?_
        · intro _
          exact ends_malformed _ _
        intro _
        refine Ends.ite ?_ ?_
        · intro _
          refine Ends.ok ?_
          dsimp only
          omega
        · intro _
          exact ih _ _
  exact hfrom MAX_VARINT_LEN 0 0

/-- Differences decode to a run, or the page is malformed. -/
theorem decodeDeltas_ends (count : Nat) (prev : Option Ulid) (off : Nat) :
    Ends (fun r : List Posting × Nat => RunOk count prev r.1 ∧ off + count ≤ r.2) (Malformed pageNo)
      (decodeDeltas body pageNo count prev off) := by
  induction count generalizing prev off with
  | zero => exact Ends.ok ⟨RunOk.nil, le_refl _⟩
  | succ count ih =>
      refine Ends.bind (readVarint_ends body pageNo off) ?_
      intro delta hdelta
      refine Ends.bind (nextId_ends pageNo prev delta.1) ?_
      intro id hid
      refine Ends.bind (readVarint_ends body pageNo delta.2) ?_
      intro value hvalue
      refine Ends.bind (termFreq_ends pageNo value.1) ?_
      intro tf htf
      refine Ends.bind (ih (some id) value.2) ?_
      intro rest hrest
      refine Ends.ok ⟨RunOk.cons hid htf hrest.1, ?_⟩
      have hend := hrest.2
      dsimp only
      omega

/-- So does a frame. -/
theorem decodeFrame_ends (deltaWidth tfWidth count : Nat) (prev : Option Ulid) (deltaOff tfOff : Nat) :
    Ends (RunOk count prev) (Malformed pageNo)
      (decodeFrame body deltaWidth tfWidth pageNo count prev deltaOff tfOff) := by
  induction count generalizing prev deltaOff tfOff with
  | zero => exact Ends.ok RunOk.nil
  | succ count ih =>
      refine ends_present ⟨_, rfl⟩ ?_
      intro delta _
      refine Ends.bind (nextId_ends pageNo prev delta) ?_
      intro id hid
      refine ends_present ⟨_, rfl⟩ ?_
      intro value _
      refine Ends.bind (termFreq_ends pageNo value) ?_
      intro tf htf
      refine Ends.bind (ih (some id) (deltaOff + deltaWidth) (tfOff + tfWidth)) ?_
      intro rest hrest
      exact Ends.ok (RunOk.cons hid htf hrest)

/-- So does a frame block. -/
theorem decodeForBlock_ends (off count : Nat) :
    Ends (fun r : List Posting × Nat => RunOk count none r.1 ∧ off + count ≤ r.2) (Malformed pageNo)
      (decodeForBlock body off count pageNo) := by
  refine ends_present ⟨_, rfl⟩ ?_
  intro deltaWidth _
  refine ends_present ⟨_, rfl⟩ ?_
  intro tfWidth _
  refine Ends.ite ?_ ?_
  · intro _
    exact ends_malformed _ _
  intro hwidth
  refine Ends.ite ?_ ?_
  · intro _
    exact ends_malformed _ _
  intro _
  refine Ends.bind (decodeFrame_ends body pageNo _ _ count none _ _) ?_
  intro entries hentries
  refine Ends.ok ⟨hentries, ?_⟩
  have hcount : count * 1 ≤ count * tfWidth.toNat := Nat.mul_le_mul_left _ (by omega)
  dsimp only
  omega

/-- A block is decoded to as many postings as it is long, in order, or refused. -/
theorem decodeBlockRun_ends (layout : PostingsLayout) (off count : Nat) :
    Ends (fun r : List Posting × Nat => RunOk count none r.1 ∧ off + count ≤ r.2) (Malformed pageNo)
      (decodeBlockRun layout body off count pageNo) := by
  unfold decodeBlockRun
  cases layout with
  | frameOfReference => exact decodeForBlock_ends body pageNo off count
  | _ => exact decodeDeltas_ends body pageNo count none off

/-- What a skip entry is read from. -/
theorem readSkipEntry_inv {b : Nat} {entry : SkipEntry} {s : StoredEntry}
    (h : readSkipEntry body pageNo entry b = .ok s) :
    readU128LE body (8 + b * entry.len) pageNo = .ok s.first ∧
      Dict.readInt body (8 + b * entry.len + entry.tailOff) 4 pageNo = .ok s.offset := by
  cases entry with
  | v5 =>
      rcases bind_eq_ok.mp h with ⟨first, hfirst, h⟩
      rcases bind_eq_ok.mp h with ⟨last, _, h⟩
      rcases bind_eq_ok.mp h with ⟨offset, hoffset, h⟩
      rcases bind_eq_ok.mp h with ⟨tf, _, h⟩
      cases h
      exact ⟨hfirst, hoffset⟩
  | v6 =>
      rcases bind_eq_ok.mp h with ⟨first, hfirst, h⟩
      rcases bind_eq_ok.mp h with ⟨last, _, h⟩
      rcases bind_eq_ok.mp h with ⟨_, _, h⟩
      rcases bind_eq_ok.mp h with ⟨offset, hoffset, h⟩
      rcases bind_eq_ok.mp h with ⟨tf, _, h⟩
      cases h
      exact ⟨hfirst, hoffset⟩

/-- What a skip entry with bounds was read from. -/
theorem readSkipEntry_v6_inv {b : Nat} {s : StoredEntry} (h : readSkipEntry body pageNo .v6 b = .ok s) :
    ∃ last, s.last = some last ∧ readU128LE body (8 + b * SkipEntry.v6.len + 16) pageNo = .ok last ∧
      Dict.readInt body (8 + b * SkipEntry.v6.len + SkipEntry.v6.tailOff + 4) 4 pageNo = .ok s.maxTf := by
  rcases bind_eq_ok.mp h with ⟨first, _, h⟩
  rcases bind_eq_ok.mp h with ⟨last, hlast, h⟩
  rcases bind_eq_ok.mp h with ⟨l, hl, h⟩
  rcases bind_eq_ok.mp h with ⟨offset, _, h⟩
  rcases bind_eq_ok.mp h with ⟨tf, htf, h⟩
  cases hl
  cases h
  exact ⟨last, rfl, hlast, htf⟩

end Total

/-! ## Blocks -/

/-- The first id is a lower bound. -/
theorem firstId_le {block : List Posting} (h : Sorted block) : ∀ e ∈ block, firstId block ≤ e.1.val := by
  intro e he
  cases block with
  | nil => cases he
  | cons p rest =>
      rcases List.mem_cons.mp he with rfl | he
      · exact le_refl _
      · exact le_of_lt ((List.pairwise_cons.mp h).1 e he)

/-- The last id is an upper bound. -/
theorem le_lastId {block : List Posting} (h : Sorted block) : ∀ e ∈ block, e.1.val ≤ lastId block := by
  intro e he
  have hlast := List.getLast?_eq_some_getLast (List.ne_nil_of_mem he)
  rw [lastId, hlast]
  exact h.le_getLast hlast e he

/-- A block and where it starts in the blocks region. -/
structure Block where
  offset : Nat
  entries : List Posting

/-- The postings of the blocks, one block after the other. -/
def postings (blocks : List Block) : List Posting := blocks.flatMap Block.entries

@[simp] theorem postings_nil : postings [] = [] := rfl

@[simp] theorem postings_cons (block : Block) (rest : List Block) :
    postings (block :: rest) = block.entries ++ postings rest := rfl

theorem postings_append (xs ys : List Block) : postings (xs ++ ys) = postings xs ++ postings ys :=
  List.flatMap_append

/-- The list around one of its blocks. -/
theorem postings_split {blocks : List Block} {b : Nat} {block : Block} (h : blocks[b]? = some block) :
    postings blocks = postings (blocks.take b) ++ block.entries ++ postings (blocks.drop (b + 1)) := by
  rcases List.getElem?_eq_some_iff.mp h with ⟨hlt, heq⟩
  have hsplit : blocks = blocks.take b ++ block :: blocks.drop (b + 1) := by
    rw [← heq, ← List.drop_eq_getElem_cons hlt, List.take_append_drop]
  nth_rewrite 1 [hsplit]
  rw [postings_append, postings_cons, List.append_assoc]

section Blocks

variable (body : Bytes) (pageNo : Nat) (entry : SkipEntry) (layout : PostingsLayout) (count blockCount : Nat)

/-- Block `b` of a body: its skip entry describes it and leads to it. -/
structure BlockAt (b : Nat) (block : Block) : Prop where
  stored : ∃ s, readSkipEntry body pageNo entry b = .ok s ∧ s.first = firstId block.entries ∧
    s.offset = block.offset ∧ s.maxTf = maxTf block.entries ∧ (∀ last ∈ s.last, last = lastId block.entries)
  run : RunOk (blockLen count blockCount b) none block.entries
  decodes : ∃ next, decodeBlockRun layout body (8 + blockCount * entry.len + block.offset)
    (blockLen count blockCount b) pageNo = .ok (block.entries, next)

/-- No block is empty. -/
theorem blockLen_pos (b : Nat) (hblocks : blockCount = expectedBlocks count) : 0 < blockLen count blockCount b := by
  unfold blockLen
  simp only [SKIP_BLOCK_SIZE, expectedBlocks] at *
  split <;> omega

/-- A block that passes its check agrees with its entry. -/
theorem checkBlock_inv {s : StoredEntry} {block : List Posting} {prevLast : Option Nat}
    (h : checkBlock s block prevLast pageNo = .ok ()) :
    s.first = firstId block ∧ (∀ last ∈ s.last, last = lastId block) ∧ s.maxTf = maxTf block ∧
      ∀ p ∈ prevLast, p < firstId block := by
  unfold checkBlock at h
  split at h
  · cases h
  rename_i hfirst
  split at h
  · cases h
  rename_i hlast
  split at h
  · cases h
  rename_i htf
  split at h
  · cases h
  rename_i hprev
  refine ⟨not_not.mp hfirst, ?_, not_not.mp htf, ?_⟩
  · intro last hmem
    rw [Option.mem_def.mp hmem] at hlast
    simpa using hlast
  · intro p hp
    rw [Option.mem_def.mp hp] at hprev
    simpa using hprev

/-- What the blocks from `b` on, that lie from `off` on, decode to. -/
structure BlocksFrom (b off : Nat) (prevLast : Option Nat) (blocks : List Block) : Prop where
  each : ∀ i block, blocks[i]? = some block → BlockAt body pageNo entry layout count blockCount (b + i) block
  start : ∀ block ∈ blocks.head?, 8 + blockCount * entry.len + block.offset = off
  offsets : blocks.Pairwise fun x y => x.offset < y.offset
  later : ∀ block ∈ blocks, off ≤ 8 + blockCount * entry.len + block.offset
  sorted : Sorted (postings blocks)
  above : ∀ p ∈ prevLast, ∀ e ∈ postings blocks, p < e.1.val

/-- Blocks that were decoded stand at their offsets and agree with their entries. -/
theorem decodeBlocks_inv (hblocks : blockCount = expectedBlocks count)
    {left b off : Nat} {prevLast : Option Nat} {entries : List Posting} (hleft : b + left = blockCount)
    (h : decodeBlocks body pageNo entry layout count blockCount left b off prevLast = .ok entries) :
    ∃ blocks, blocks.length = left ∧ postings blocks = entries ∧
      BlocksFrom body pageNo entry layout count blockCount b off prevLast blocks := by
  induction left generalizing b off prevLast entries with
  | zero =>
      cases h
      refine ⟨[], rfl, rfl, ?_⟩
      constructor <;> simp [Sorted]
  | succ left ih =>
      rw [decodeBlocks] at h
      rcases bind_eq_ok.mp h with ⟨s, hs, h⟩
      split at h
      · cases h
      rename_i hoff
      rw [not_not] at hoff
      rcases bind_eq_ok.mp h with ⟨⟨block, next⟩, hrun, h⟩
      dsimp only at h
      rcases bind_eq_ok.mp h with ⟨_, hcheck, h⟩
      rcases bind_eq_ok.mp h with ⟨rest, hrest, h⟩
      cases h
      -- the blocks behind the first one
      rcases ih (by omega) hrest with ⟨blocks, hlen, hpost, hfrom⟩
      have hpos := blockLen_pos count blockCount b hblocks
      have hends := decodeBlockRun_ends body pageNo layout off (blockLen count blockCount b)
      rw [hrun] at hends
      rcases hends.of_ok with ⟨hok, hnext⟩
      dsimp only at hok hnext
      -- a block that was decoded has a posting, and its index entry describes it
      have hne : block ≠ [] := by
        intro hnil
        have := hok.count
        rw [hnil, List.length_nil] at this
        omega
      rcases checkBlock_inv pageNo hcheck with ⟨hfirst, hlast, htf, hprev⟩
      have hlater : ∀ x ∈ blocks, s.offset < x.offset := by
        intro x hx
        have := hfrom.later x hx
        omega
      refine ⟨⟨s.offset, block⟩ :: blocks, by rw [List.length_cons, hlen], by rw [postings_cons, hpost], ?_⟩
      constructor
      case each =>
        intro i x hx
        cases i with
        | zero =>
            cases hx
            refine ⟨⟨s, hs, hfirst, rfl, htf, hlast⟩, hok, next, ?_⟩
            rw [hoff]
            exact hrun
        | succ i =>
            have := hfrom.each i x hx
            rwa [show b + 1 + i = b + (i + 1) by omega] at this
      case start =>
        intro x hx
        cases hx
        exact hoff
      case offsets => exact List.pairwise_cons.mpr ⟨hlater, hfrom.offsets⟩
      case later =>
        intro x hx
        rcases List.mem_cons.mp hx with rfl | hx
        · exact le_of_eq hoff.symm
        · have := hlater x hx
          omega
      case sorted =>
        -- the ids of the first block end before those of the next one begin
        refine List.pairwise_append.mpr ⟨hok.sorted, hfrom.sorted, ?_⟩
        intro x hx y hy
        have hle := le_lastId hok.sorted x hx
        have hlt := hfrom.above (lastId block) rfl y hy
        exact Fin.lt_def.mpr (lt_of_le_of_lt hle hlt)
      case above =>
        intro p hp e he
        rcases List.mem_append.mp he with he | he
        · exact lt_of_lt_of_le (hprev p hp) (firstId_le hok.sorted e he)
        -- a later id is above the whole first block
        · rcases firstId_mem hne with ⟨x, hx, hxfirst⟩
          have hle := le_lastId hok.sorted x hx
          have hlt := hfrom.above (lastId block) rfl e he
          have := hprev p hp
          omega

/-- The blocks have as many postings as were announced. -/
theorem blockLen_sum {b left : Nat} (hblocks : blockCount = expectedBlocks count) (hleft : b + left = blockCount)
    {blocks : List Block} (hlen : blocks.length = left)
    (heach : ∀ i block, blocks[i]? = some block → block.entries.length = blockLen count blockCount (b + i)) :
    (postings blocks).length = if left = 0 then 0 else count - b * SKIP_BLOCK_SIZE := by
  induction blocks generalizing b left with
  | nil =>
      rw [← hlen]
      rfl
  | cons block rest ih =>
      rw [List.length_cons] at hlen
      have hfirst := heach 0 block rfl
      have hrest := @ih (b + 1) (left - 1) (by omega) (by omega) (by
        intro i x hx
        have := heach (i + 1) x hx
        rwa [show b + (i + 1) = b + 1 + i by omega] at this)
      rw [postings_cons, List.length_append, hrest, hfirst, blockLen, if_neg (by omega : ¬ left = 0)]
      simp only [SKIP_BLOCK_SIZE, expectedBlocks] at *
      split <;> split <;> omega

end Blocks

/-- A body under a skip index, block by block. -/
structure Blocked (body : Bytes) (pageNo : Nat) (entry : SkipEntry) (layout : PostingsLayout)
    (blocks : List Block) : Prop where
  count : Dict.readInt body 0 4 pageNo = .ok (postings blocks).length
  blockCount : Dict.readInt body 4 4 pageNo = .ok blocks.length
  nonempty : blocks ≠ []
  index : checkSkipIndex body (postings blocks).length blocks.length entry.len pageNo =
    .ok (8 + blocks.length * entry.len)
  blocks : BlocksFrom body pageNo entry layout (postings blocks).length blocks.length 0
    (8 + blocks.length * entry.len) none blocks

/-- A skip index that passes its check. -/
theorem checkSkipIndex_inv {body : Bytes} {count blockCount entryLen pageNo start : Nat}
    (h : checkSkipIndex body count blockCount entryLen pageNo = .ok start) :
    SKIP_MIN_DOC_FREQ ≤ count ∧ blockCount = expectedBlocks count ∧ start = 8 + blockCount * entryLen ∧
      start ≤ body.length := by
  unfold checkSkipIndex at h
  split at h
  · cases h
  rename_i hhead
  rw [not_or, not_lt, not_not] at hhead
  dsimp only at h
  split at h
  · cases h
  rename_i hlen
  rcases bind_eq_ok.mp h with ⟨_, _, h⟩
  cases h
  exact ⟨hhead.1, hhead.2, rfl, not_lt.mp hlen⟩

section Blocked

variable {body : Bytes} {pageNo : Nat} {entry : SkipEntry} {layout : PostingsLayout} {blocks : List Block}

/-- No block of a list is empty. -/
theorem Blocked.ne_nil (h : Blocked body pageNo entry layout blocks) {b : Nat} {block : Block}
    (hb : blocks[b]? = some block) : block.entries ≠ [] := by
  rcases checkSkipIndex_inv h.index with ⟨_, hblocks, _, _⟩
  have hpos := blockLen_pos (postings blocks).length blocks.length b hblocks
  have hcount := (h.blocks.each b block hb).run.count
  rw [Nat.zero_add] at hcount
  intro hnil
  rw [hnil, List.length_nil] at hcount
  omega

/-- The block at a place. -/
theorem Blocked.at (h : Blocked body pageNo entry layout blocks) {b : Nat} {block : Block}
    (hb : blocks[b]? = some block) :
    BlockAt body pageNo entry layout (postings blocks).length blocks.length b block := by
  have := h.blocks.each b block hb
  rwa [Nat.zero_add] at this

/-- Frequencies are positive and fit four bytes. -/
theorem Blocked.freqs (h : Blocked body pageNo entry layout blocks) : ∀ e ∈ postings blocks, 0 < e.2 ∧ e.2 < 2 ^ 32 := by
  intro e he
  rcases List.mem_flatMap.mp he with ⟨block, hblock, hin⟩
  rcases List.mem_iff_getElem?.mp hblock with ⟨b, hb⟩
  exact (h.at hb).run.freqs e hin

end Blocked

/-- The skip entries of a layout, in the layouts that have a skip index. -/
def PostingsLayout.skipEntryOf : PostingsLayout → Option SkipEntry
  | .deltaVarintSkip entry => some entry
  | .frameOfReference => some .v6
  | _ => none

/-- What a body in a skip layout decodes to is one run, or lies in blocks under the index. -/
theorem decodeSkip_inv {body : Bytes} {pageNo : Nat} {entry : SkipEntry} {layout : PostingsLayout}
    {entries : List Posting} (h : decodeSkip body pageNo entry layout = .ok entries) :
    (Dict.readInt body 4 4 pageNo = .ok 0 ∧ ∃ count, Dict.readInt body 0 4 pageNo = .ok count ∧ RunOk count none entries) ∨
      ∃ blocks, postings blocks = entries ∧ Blocked body pageNo entry layout blocks := by
  rcases bind_eq_ok.mp h with ⟨count, hcount, h⟩
  rcases bind_eq_ok.mp h with ⟨blockCount, hblockCount, h⟩
  split at h
  · rename_i hzero
    rw [hzero] at hblockCount
    rcases bind_eq_ok.mp h with ⟨_, _, h⟩
    rcases bind_eq_ok.mp h with ⟨⟨run, next⟩, hrun, h⟩
    cases h
    -- without blocks the body is one run of deltas
    have hends := decodeDeltas_ends body pageNo count none 8
    rw [decodeDeltaRun] at hrun
    rw [hrun] at hends
    exact Or.inl ⟨hblockCount, count, hcount, hends.of_ok.1⟩
  · rename_i hne
    rcases bind_eq_ok.mp h with ⟨start, hindex, h⟩
    -- with blocks, each is decoded at the offset its skip entry gives
    rcases checkSkipIndex_inv hindex with ⟨_, hblocks, rfl, _⟩
    rcases decodeBlocks_inv body pageNo entry layout count blockCount hblocks (Nat.zero_add _) h with
      ⟨blocks, hlen, hpost, hfrom⟩
    have hsum := blockLen_sum count blockCount hblocks (Nat.zero_add _) hlen (by
      intro i block hblock
      exact (hfrom.each i block hblock).run.count)
    rw [if_neg hne, Nat.zero_mul, Nat.sub_zero] at hsum
    refine Or.inr ⟨blocks, hpost, ?_⟩
    rw [← hsum, ← hlen] at hfrom hindex
    constructor
    case count => rw [hsum, hcount]
    case blockCount => rw [hlen, hblockCount]
    case nonempty =>
      rintro rfl
      exact hne hlen.symm
    case index => exact hindex
    case blocks => exact hfrom

/-- A blocked list that was decoded has blocks. -/
theorem decode_skip_inv {body : Bytes} {pageNo : Nat} {entry : SkipEntry} {layout : PostingsLayout}
    {entries : List Posting} (hentry : layout.skipEntryOf = some entry) (h : decode body pageNo layout = .ok entries) :
    (Dict.readInt body 4 4 pageNo = .ok 0 ∧ ∃ count, Dict.readInt body 0 4 pageNo = .ok count ∧ RunOk count none entries) ∨
      ∃ blocks, postings blocks = entries ∧ Blocked body pageNo entry layout blocks := by
  refine decodeSkip_inv ?_
  cases layout with
  | fixedWidth => cases hentry
  | deltaVarint => cases hentry
  | deltaVarintSkip e =>
      cases hentry
      exact h
  | frameOfReference =>
      cases hentry
      exact h

/-- The frequencies of a list that was decoded. -/
theorem decode_freqs {body : Bytes} {pageNo : Nat} {entry : SkipEntry} {layout : PostingsLayout}
    {entries : List Posting} (hentry : layout.skipEntryOf = some entry) (h : decode body pageNo layout = .ok entries) :
    ∀ e ∈ entries, 0 < e.2 ∧ e.2 < 2 ^ 32 := by
  rcases decode_skip_inv hentry h with ⟨_, count, _, hrun⟩ | ⟨blocks, rfl, hblocked⟩
  · exact hrun.freqs
  · exact hblocked.freqs

/-- The document frequency a body starts with is the length of its list. -/
theorem decode_count {body : Bytes} {pageNo : Nat} {entry : SkipEntry} {layout : PostingsLayout}
    {entries : List Posting} (hentry : layout.skipEntryOf = some entry) (h : decode body pageNo layout = .ok entries) :
    Dict.readInt body 0 4 pageNo = .ok entries.length := by
  rcases decode_skip_inv hentry h with ⟨_, count, hcount, hrun⟩ | ⟨blocks, rfl, hblocked⟩
  · rw [hrun.count]
    exact hcount
  · exact hblocked.count

/-- Five blocks of odd ids. -/
def oddPostings : List Posting := (List.range 600).map fun i => (Fin.ofNat (2 ^ 128) (2 * i + 1), i + 1)

theorem sorted_oddPostings : Sorted oddPostings := by
  refine List.pairwise_map.mpr (List.pairwise_lt_range.imp_of_mem ?_)
  intro i j hi hj hij
  rw [List.mem_range] at hi hj
  rw [Fin.lt_def]
  simp only [Fin.ofNat]
  omega

end Fts

end EmbedMind
