import EmbedMind.Storage.Btree
import EmbedMind.Storage.TreeProof

/-!
# The record B-tree is an ordered map

The layout of `Storage.Btree` is lawful (`lawful`): a node reads back from its page,
and the halves of a split node fit theirs. No law gives way to an error here, so an
insertion fails only when the file runs out of page numbers.

Behind the layout: what a cell resolves to (`resolveCell_eq`), and how the parts of a
scan are put together (`andThen`). The map over whole runs is in
`Storage/BtreeMap.lean`.
-/

namespace EmbedMind

open Lib Lib.Assoc Lib.PagedTree

namespace Btree

/-! ## A node reads back -/

section Codec

variable {pageSize : Nat} (pageNo : Nat) {H : Xxh3}

/-- The bytes of a cell. -/
@[simp] theorem encodeCell_length (c : Cell) : (encodeCell c).length = encodedLen c := by
  cases c with
  | inline v =>
      simp only [encodeCell, encodedLen, List.length_cons]
      omega
  | overflow totalLen firstPage => simp [encodeCell, encodedLen, OVERFLOW_CELL_LEN]

theorem encodedLen_pos (c : Cell) : 0 < encodedLen c := by
  cases c with
  | inline v =>
      simp only [encodedLen]
      omega
  | overflow _ _ => simp [encodedLen, OVERFLOW_CELL_LEN]

/-- The slot table has one slot for each cell. -/
@[simp] theorem slotBytes_length (es : List (Key × Cell)) (cursor : Nat) :
    (slotBytes es cursor).length = es.length * SLOT_LEN := by
  induction es generalizing cursor with
  | nil => simp [slotBytes]
  | cons e es ih =>
      obtain ⟨key, cell⟩ := e
      simp only [slotBytes, List.length_append, leBytes_length, key.2, ih, List.length_cons, SLOT_LEN]
      omega

theorem cellsLen_cons (e : Key × Cell) (es : List (Key × Cell)) :
    cellsLen (e :: es) = encodedLen e.2 + cellsLen es := by
  simp [cellsLen]

/-- The cells stand one behind the other. -/
@[simp] theorem cellBytes_length (es : List (Key × Cell)) : (cellBytes es).length = cellsLen es := by
  induction es with
  | nil => rfl
  | cons e es ih =>
      obtain ⟨key, cell⟩ := e
      rw [cellBytes, List.length_append, ih, encodeCell_length, cellsLen_cons, Nat.add_comm]

/-- The entries of an inner page have one length. -/
@[simp] theorem innerBytes_length (es : List (Key × Nat)) :
    (innerBytes es).length = es.length * INNER_ENTRY_LEN := by
  induction es with
  | nil => simp [innerBytes]
  | cons e es ih =>
      obtain ⟨key, child⟩ := e
      simp only [innerBytes, List.length_append, leBytes_length, key.2, ih, List.length_cons,
        INNER_ENTRY_LEN]
      omega

theorem readInt_of_hasAt {buf : Bytes} {off w v : Nat} (h : HasAt buf off (leBytes w v))
    (hv : v < 256 ^ w) : readInt buf off w pageNo = .ok v := by
  rw [readInt, h.readLE hv, okOr_some]

/-- A key is read back. -/
theorem key_of_hasAt {buf : Bytes} {off : Nat} {k : Key} (h : HasAt buf off k.1) :
    (slice buf off 16).bind Key.ofBytes? = some k := by
  rw [h.slice k.2, Option.bind_some, Key.ofBytes?, dif_pos k.2]
  rfl

/-- A cell is read back. -/
theorem decodeCell_encodeCell {c : Cell} (h : c.Pointed MAX_RECORD_LEN) :
    decodeCell (encodeCell c) pageNo = .ok c := by
  cases c with
  | inline v => simp [decodeCell, encodeCell]
  | overflow totalLen firstPage =>
      obtain ⟨htotal, hpos, hlt⟩ := h
      have hsplit : HasAt (encodeCell (.overflow totalLen firstPage)) 0
          ([CELL_OVERFLOW] ++ (leBytes 4 totalLen ++ leBytes 8 firstPage)) :=
        slice_zero_length _
      obtain ⟨_, hrest⟩ := hasAt_append.mp hsplit
      obtain ⟨h1, h2⟩ := hasAt_append.mp hrest
      have htotal' : totalLen < 256 ^ 4 := by
        simp only [MAX_RECORD_LEN] at htotal
        omega
      have hread1 := readInt_of_hasAt pageNo h1 htotal'
      have hread2 := readInt_of_hasAt pageNo h2 (by simpa using hlt)
      simp only [List.length_cons, List.length_nil, leBytes_length, Nat.zero_add,
        Nat.reduceAdd] at hread1 hread2
      have hlen : (encodeCell (.overflow totalLen firstPage)).length = OVERFLOW_CELL_LEN := by
        rw [encodeCell_length]
        rfl
      have hcond : ¬ (firstPage = 0 ∨ MAX_RECORD_LEN < totalLen) := by omega
      unfold decodeCell
      rw [show encodeCell (.overflow totalLen firstPage) =
        CELL_OVERFLOW :: (leBytes 4 totalLen ++ leBytes 8 firstPage) from rfl] at *
      dsimp only
      rw [if_neg (by decide), if_pos ⟨rfl, hlen⟩]
      simp only [hread1, hread2, bind, Except.bind]
      rw [if_neg hcond]

/-- The slots read back, given their bytes and those of their cells. -/
theorem decodeSlots_eq {page : Bytes} (slotsEnd contentEnd : Nat) (es : List (Key × Cell))
    (i : Nat) {cursor : Nat} (prev : Option Key)
    (hslots : HasAt page (PAGE_HEADER_LEN + i * SLOT_LEN) (slotBytes es cursor))
    (hcells : HasAt page (cursor - cellsLen es) (cellBytes es)) (hcur : cursor ≤ contentEnd)
    (hend : contentEnd < 65536) (hfit : slotsEnd + cellsLen es ≤ cursor)
    (hsorted : Sorted es) (hprev : ∀ p ∈ prev, ∀ e ∈ es, p < e.1)
    (hok : ∀ e ∈ es, e.2.Pointed MAX_RECORD_LEN) :
    decodeSlots page pageNo slotsEnd contentEnd es.length i prev = .ok es := by
  induction es generalizing i cursor prev with
  | nil => rfl
  | cons e es ih =>
      obtain ⟨key, cell⟩ := e
      obtain ⟨hlt, hsorted'⟩ := List.pairwise_cons.mp hsorted
      have hlen := cellsLen_cons (key, cell) es
      simp only at hlen
      have hpos := encodedLen_pos cell
      -- the slot: key, offset, length
      simp only [slotBytes, List.append_assoc] at hslots
      obtain ⟨hkey, hslots⟩ := hasAt_append.mp hslots
      obtain ⟨hoff, hslots⟩ := hasAt_append.mp hslots
      obtain ⟨hlen', hslots⟩ := hasAt_append.mp hslots
      simp only [key.2, leBytes_length] at hoff hlen' hslots
      have hkey' := key_of_hasAt hkey
      have hoff' := readInt_of_hasAt pageNo hoff (by omega)
      have hlen'' := readInt_of_hasAt pageNo hlen' (by omega)
      -- the cell ends at `cursor`, and the other cells stand before it
      simp only [cellBytes] at hcells
      obtain ⟨hothers, hcell⟩ := hasAt_append.mp hcells
      rw [cellBytes_length, show cursor - cellsLen ((key, cell) :: es) + cellsLen es =
        cursor - encodedLen cell by omega] at hcell
      rw [show cursor - cellsLen ((key, cell) :: es) = cursor - encodedLen cell - cellsLen es by
        omega] at hothers
      have hslice := hcell.slice (encodeCell_length cell)
      have hnot : ¬ (cursor - encodedLen cell < slotsEnd ∨ encodedLen cell = 0 ∨
          contentEnd < cursor - encodedLen cell + encodedLen cell) := by omega
      have hfresh : prev.any (fun p => decide (key ≤ p)) = false := by
        cases prev with
        | none => rfl
        | some p =>
            have := hprev p rfl (key, cell) List.mem_cons_self
            simpa using this
      have hrest : decodeSlots page pageNo slotsEnd contentEnd es.length (i + 1) (some key) =
          .ok es := by
        refine ih (i + 1) (some key) ?_ hothers (by omega) (by omega) hsorted' ?_ ?_
        · have : PAGE_HEADER_LEN + i * SLOT_LEN + 16 + 2 + 2 =
              PAGE_HEADER_LEN + (i + 1) * SLOT_LEN := by
            simp only [SLOT_LEN]
            omega
          rwa [this] at hslots
        · intro p hp x hx
          cases hp
          exact hlt x hx
        · intro x hx
          exact hok x (List.mem_cons_of_mem _ hx)
      simp only [List.length_cons, decodeSlots, hkey', okOr_some, hfresh, hoff', hlen'', hslice,
        decodeCell_encodeCell pageNo (hok _ List.mem_cons_self), hrest, bind,
        Except.bind, hnot, if_false, Bool.false_eq_true]

/-- The entries of an inner node read back. -/
theorem decodeChildren_eq {page : Bytes} (es : List (Key × Nat)) (i : Nat) (prev : Option Key)
    (h : HasAt page (PAGE_HEADER_LEN + 8 + i * INNER_ENTRY_LEN) (innerBytes es))
    (hsorted : Sorted es) (hprev : ∀ p ∈ prev, ∀ e ∈ es, p < e.1)
    (hok : ∀ e ∈ es, 0 < e.2 ∧ e.2 < 2 ^ 64) :
    decodeChildren page pageNo es.length i prev = .ok es := by
  induction es generalizing i prev with
  | nil => rfl
  | cons e es ih =>
      obtain ⟨key, child⟩ := e
      obtain ⟨hlt, hsorted'⟩ := List.pairwise_cons.mp hsorted
      obtain ⟨hpos, hbound⟩ := hok (key, child) List.mem_cons_self
      simp only [innerBytes, List.append_assoc] at h
      obtain ⟨hkey, h⟩ := hasAt_append.mp h
      obtain ⟨hchild, h⟩ := hasAt_append.mp h
      simp only [key.2, leBytes_length] at hchild h
      have hkey' := key_of_hasAt hkey
      have hchild' := readInt_of_hasAt pageNo hchild (by simpa using hbound)
      have hfresh : prev.any (fun p => decide (key ≤ p)) = false := by
        cases prev with
        | none => rfl
        | some p =>
            have := hprev p rfl (key, child) List.mem_cons_self
            simpa using this
      have hne : child ≠ 0 := by
        simp only at hpos
        omega
      have hrest : decodeChildren page pageNo es.length (i + 1) (some key) = .ok es := by
        refine ih (i + 1) (some key) ?_ hsorted' ?_ ?_
        · have : PAGE_HEADER_LEN + 8 + i * INNER_ENTRY_LEN + 16 + 8 =
              PAGE_HEADER_LEN + 8 + (i + 1) * INNER_ENTRY_LEN := by
            simp only [INNER_ENTRY_LEN]
            omega
          rwa [this] at h
        · intro p hp x hx
          cases hp
          exact hlt x hx
        · intro x hx
          exact hok x (List.mem_cons_of_mem _ hx)
      simp only [List.length_cons, decodeChildren, hkey', okOr_some, hfresh, hchild', hne, hrest,
        bind, Except.bind, if_false, Bool.false_eq_true]

/-! ## The laws of the layout -/

/-- Stamping leaves what is before the trailer. -/
theorem hasAt_stamp {page bs : Bytes} {off : Nat} (h : HasAt page off bs)
    (hend : off + bs.length ≤ page.length - PAGE_TRAILER_LEN) :
    HasAt (stampPageChecksum H page) off bs :=
  h.splice (Or.inl hend)

/-- What a leaf's page holds. -/
theorem encodeLeaf_eq_some {es : List (Key × Cell)} {b : Bytes} (h : encodeLeaf es pageSize = some b) :
    PAGE_HEADER_LEN + es.length * SLOT_LEN + cellsLen es ≤ pageSize - PAGE_TRAILER_LEN ∧
    b = splice (splice ((PageHeader.mk .btreeLeaf es.length 0).encodeInto
      (List.replicate pageSize 0)) PAGE_HEADER_LEN (slotBytes es (pageSize - PAGE_TRAILER_LEN)))
      (pageSize - PAGE_TRAILER_LEN - cellsLen es) (cellBytes es) := by
  simp only [encodeLeaf] at h
  split at h
  · cases h
  · rename_i hfit
    cases h
    exact ⟨by omega, rfl⟩

/-- A leaf is encoded if and only if slots and cells fit the page. -/
theorem encodeLeaf_isSome {es : List (Key × Cell)} : (encodeLeaf es pageSize).isSome = true ↔
    PAGE_HEADER_LEN + es.length * SLOT_LEN + cellsLen es ≤ pageSize - PAGE_TRAILER_LEN := by
  simp only [encodeLeaf]
  split
  · simp
    omega
  · simp
    omega

/-- The page of an inner node. -/
theorem encodeInner_eq_some {es : List (Key × Nat)} {r : Nat} {b : Bytes}
    (h : encodeInner es r pageSize = some b) : es ≠ [] ∧
    PAGE_HEADER_LEN + 8 + es.length * INNER_ENTRY_LEN ≤ pageSize - PAGE_TRAILER_LEN ∧
    b = splice ((PageHeader.mk .btreeInner es.length 0).encodeInto (List.replicate pageSize 0))
      PAGE_HEADER_LEN (leBytes 8 r ++ innerBytes es) := by
  simp only [encodeInner] at h
  split at h
  · cases h
  · rename_i hfit
    cases h
    simp only [List.isEmpty_iff, not_or, not_lt] at hfit
    exact ⟨hfit.1, hfit.2, rfl⟩

/-- An inner node is encoded if and only if it has an entry and fits the page. -/
theorem encodeInner_isSome {es : List (Key × Nat)} {r : Nat} :
    (encodeInner es r pageSize).isSome = true ↔ es ≠ [] ∧
      PAGE_HEADER_LEN + 8 + es.length * INNER_ENTRY_LEN ≤ pageSize - PAGE_TRAILER_LEN := by
  simp only [encodeInner]
  split
  · rename_i h
    simp only [List.isEmpty_iff] at h
    simp
    tauto
  · rename_i h
    simp only [List.isEmpty_iff, not_or, not_lt] at h
    simpa using h

/-- A leaf is read back. -/
theorem decodeNode_encodeLeaf {es : List (Key × Cell)} {b : Bytes} (hlo : 512 ≤ pageSize)
    (hhi : pageSize ≤ 65536) (h : encodeLeaf es pageSize = some b) (hsorted : Sorted es)
    (hok : ∀ e ∈ es, e.2.Pointed MAX_RECORD_LEN) :
    decodeNode (stampPageChecksum H b) pageNo = .ok (.leaf es) := by
  obtain ⟨hfit, hb⟩ := encodeLeaf_eq_some h
  obtain ⟨base, hbase⟩ : ∃ base, (PageHeader.mk .btreeLeaf es.length 0).encodeInto
    (List.replicate pageSize 0) = base := ⟨_, rfl⟩
  have hbaseLen : base.length = pageSize := by simp [← hbase]
  rw [hbase] at hb
  simp only [PAGE_HEADER_LEN, SLOT_LEN, PAGE_TRAILER_LEN] at hfit hb
  have hlen : b.length = pageSize := by simp [hb, hbaseLen]
  -- the header, the slots and the cells, each past the other writes
  have hhead : PageHeader.decode (stampPageChecksum H b) = some ⟨.btreeLeaf, es.length, 0⟩ := by
    have hzeros : 16 ≤ (List.replicate pageSize (0 : UInt8)).length := by
      rw [List.length_replicate]
      omega
    have hcount : es.length < 2 ^ 32 := by omega
    have hzero : (0 : Nat) < 2 ^ 64 := by norm_num
    refine PageHeader.decode_of_slice hzeros hcount hzero ?_
    rw [slice_stampPageChecksum H _ (by simp only [PAGE_TRAILER_LEN]; omega), hbase, hb,
      slice_splice_disjoint (Or.inl (by omega)), slice_splice_disjoint (Or.inl (by omega))]
  have hslots : HasAt (stampPageChecksum H b) 16 (slotBytes es (pageSize - 8)) := by
    have hin : 16 + (slotBytes es (pageSize - 8)).length ≤ base.length := by
      rw [slotBytes_length, hbaseLen, SLOT_LEN]
      omega
    refine hasAt_stamp ?_ ?_
    · rw [hb]
      refine (hasAt_splice hin).splice (Or.inl ?_)
      rw [slotBytes_length, SLOT_LEN]
      omega
    · rw [slotBytes_length, hlen, SLOT_LEN, PAGE_TRAILER_LEN]
      omega
  have hcells : HasAt (stampPageChecksum H b) (pageSize - 8 - cellsLen es) (cellBytes es) := by
    refine hasAt_stamp ?_ ?_
    · rw [hb]
      refine hasAt_splice ?_
      rw [splice_length, cellBytes_length, hbaseLen]
      omega
    · rw [cellBytes_length, hlen, PAGE_TRAILER_LEN]
      omega
  have hentries := decodeSlots_eq pageNo (16 + es.length * 20) (pageSize - 8) es 0 none hslots hcells
    (le_refl _) (by omega) (by omega) hsorted (by simp) hok
  simp only [decodeNode, hhead, okOr_some, bind, Except.bind, stampPageChecksum_length, hlen,
    PAGE_HEADER_LEN, PAGE_TRAILER_LEN, SLOT_LEN, hentries]
  rw [if_neg (by omega)]

/-- An inner node is read back. -/
theorem decodeNode_encodeInner {es : List (Key × Nat)} {r : Nat} {b : Bytes} (hlo : 512 ≤ pageSize)
    (hhi : pageSize ≤ 65536) (h : encodeInner es r pageSize = some b) (hsorted : Sorted es)
    (hok : ∀ e ∈ es, 0 < e.2 ∧ e.2 < 2 ^ 64) (hpos : 0 < r) (hr : r < 2 ^ 64) :
    decodeNode (stampPageChecksum H b) pageNo = .ok (.inner es r) := by
  obtain ⟨hne, hfit, hb⟩ := encodeInner_eq_some h
  obtain ⟨base, hbase⟩ : ∃ base, (PageHeader.mk .btreeInner es.length 0).encodeInto
    (List.replicate pageSize 0) = base := ⟨_, rfl⟩
  have hbaseLen : base.length = pageSize := by simp [← hbase]
  have hcount : 0 < es.length := List.length_pos_iff.mpr hne
  rw [hbase] at hb
  simp only [PAGE_HEADER_LEN, INNER_ENTRY_LEN, PAGE_TRAILER_LEN] at hfit hb
  have hlen : b.length = pageSize := by simp [hb, hbaseLen]
  have hbody : (leBytes 8 r ++ innerBytes es).length = 8 + es.length * 24 := by
    rw [List.length_append, leBytes_length, innerBytes_length, INNER_ENTRY_LEN]
  have hhead : PageHeader.decode (stampPageChecksum H b) = some ⟨.btreeInner, es.length, 0⟩ := by
    have hzeros : 16 ≤ (List.replicate pageSize (0 : UInt8)).length := by
      rw [List.length_replicate]
      omega
    have hcount' : es.length < 2 ^ 32 := by omega
    have hzero : (0 : Nat) < 2 ^ 64 := by norm_num
    refine PageHeader.decode_of_slice hzeros hcount' hzero ?_
    rw [slice_stampPageChecksum H _ (by simp only [PAGE_TRAILER_LEN]; omega), hbase, hb,
      slice_splice_disjoint (Or.inl (by omega))]
  have hat : HasAt (stampPageChecksum H b) 16 (leBytes 8 r ++ innerBytes es) := by
    refine hasAt_stamp ?_ ?_
    · rw [hb]
      refine hasAt_splice ?_
      rw [hbody, hbaseLen]
      omega
    · rw [hbody, hlen, PAGE_TRAILER_LEN]
      omega
  obtain ⟨hright, hinner⟩ := hasAt_append.mp hat
  rw [leBytes_length] at hinner
  have hright' := readInt_of_hasAt pageNo hright (by simpa using hr)
  have hentries := decodeChildren_eq pageNo es 0 none hinner hsorted (by simp) hok
  have hne0 : es.length ≠ 0 := by omega
  have hr0 : r ≠ 0 := by omega
  simp only [decodeNode, hhead, okOr_some, bind, Except.bind, stampPageChecksum_length, hlen,
    PAGE_HEADER_LEN, PAGE_TRAILER_LEN, INNER_ENTRY_LEN, hright', hentries, hne0, hr0, if_false]
  rw [if_neg (by omega)]

end Codec

/-! ## Splits fit -/

section Splits

variable {pageSize : Nat}

/-- What the entries of a leaf take, slots and cells. -/
theorem sum_footprint (es : List (Key × Cell)) :
    (es.map spec.footprint).sum = es.length * SLOT_LEN + cellsLen es := by
  induction es with
  | nil => rfl
  | cons e es ih =>
      rw [List.map_cons, List.sum_cons, ih, cellsLen_cons, List.length_cons]
      show SLOT_LEN + encodedLen e.2 + _ = _
      rw [Nat.add_mul]
      omega

/-- Every entry takes a quarter of a page at most. -/
theorem footprint_le (hps : 512 ≤ pageSize) {e : Key × Cell}
    (h : spec.CellOk pageSize MAX_RECORD_LEN e.2) : spec.footprint e ≤ maxEntryFootprint pageSize := by
  obtain ⟨key, cell⟩ := e
  have hquarter : 122 ≤ maxEntryFootprint pageSize := by
    simp only [maxEntryFootprint, usable, PAGE_HEADER_LEN, PAGE_TRAILER_LEN]
    omega
  cases cell with
  | inline v =>
      have hv : v.length ≤ maxEntryFootprint pageSize - 20 - 1 := h
      show 20 + (1 + v.length) ≤ _
      omega
  | overflow _ _ =>
      show 20 + 13 ≤ _
      omega

/-- The cut leaves half of the bytes on the left, up to one entry. -/
theorem cut_bounds {total F : Nat} (es : List (Key × Cell)) (acc : Nat)
    (hF : ∀ e ∈ es, spec.footprint e ≤ F) (hacc : acc ≤ total / 2)
    (hsum : total / 2 ≤ acc + (es.map spec.footprint).sum) :
    total / 2 ≤ acc + ((es.take (spec.cut total es acc)).map spec.footprint).sum ∧
    acc + ((es.take (spec.cut total es acc)).map spec.footprint).sum ≤ total / 2 + F := by
  induction es generalizing acc with
  | nil =>
      simp only [List.map_nil, List.sum_nil, List.take_nil] at hsum ⊢
      omega
  | cons e es ih =>
      have he := hF e List.mem_cons_self
      unfold TreeSpec.cut
      split
      · rename_i hcut
        simp only [List.take_succ_cons, List.take_zero, List.map_cons, List.map_nil, List.sum_cons,
          List.sum_nil]
        omega
      · rename_i hcut
        have hrest := ih (acc + spec.footprint e) (fun x hx => hF x (List.mem_cons_of_mem _ hx))
          (by omega) (by rw [List.map_cons, List.sum_cons] at hsum; omega)
        rw [Nat.add_comm 1, List.take_succ_cons, List.map_cons, List.sum_cons]
        omega

/-- One more entry, or another cell for one. -/
theorem sum_insertKey_le (k : Key) (c : Cell) (es : List (Key × Cell)) :
    ((insertKey k c es).map spec.footprint).sum ≤
      (es.map spec.footprint).sum + spec.footprint (k, c) := by
  induction es with
  | nil => simp [insertKey]
  | cons e es ih =>
      obtain ⟨k', c'⟩ := e
      unfold insertKey
      split
      · simp only [List.map_cons, List.sum_cons]
        omega
      · split
        · simp only [List.map_cons, List.sum_cons]
          omega
        · simp only [List.map_cons, List.sum_cons]
          omega

/-- A leaf that overflows by one cell can be cut so that both halves fit. -/
theorem leaf_split (hps : 512 ≤ pageSize) {es : List (Key × Cell)} {k : Key} {c : Cell}
    (hfit : (encodeLeaf es pageSize).isSome = true)
    (hok : ∀ e ∈ es, spec.CellOk pageSize MAX_RECORD_LEN e.2)
    (hc : spec.CellOk pageSize MAX_RECORD_LEN c)
    (hnone : encodeLeaf (insertKey k c es) pageSize = none) :
    ∃ i, spec.cut ((insertKey k c es).map spec.footprint).sum (insertKey k c es) 0 = i ∧
      (insertKey k c es).drop i ≠ [] ∧
      (encodeLeaf ((insertKey k c es).take i) pageSize).isSome = true ∧
      (encodeLeaf ((insertKey k c es).drop i) pageSize).isSome = true := by
  have hgrow := sum_insertKey_le k c es
  have hle := footprint_le hps (e := (k, c)) hc
  have hF : ∀ e ∈ insertKey k c es, spec.footprint e ≤ maxEntryFootprint pageSize := by
    intro e he
    rcases mem_insertKey he with rfl | he
    · exact hle
    · exact footprint_le hps (hok e he)
  have hfit' := encodeLeaf_isSome.mp hfit
  have hover : ¬ (encodeLeaf (insertKey k c es) pageSize).isSome = true := by
    rw [hnone]
    simp
  rw [encodeLeaf_isSome] at hover
  generalize insertKey k c es = es' at *
  have hcut := cut_bounds es' 0 hF (Nat.zero_le _)
    (by rw [Nat.zero_add]; exact Nat.div_le_self ((es'.map spec.footprint).sum) 2)
  generalize hi : spec.cut (es'.map spec.footprint).sum es' 0 = i at *
  -- what the cut leaves on the right
  have hsum : ((es'.take i).map spec.footprint).sum + ((es'.drop i).map spec.footprint).sum =
      (es'.map spec.footprint).sum := by
    rw [← List.sum_append, ← List.map_append, List.take_append_drop]
  have hquarter : maxEntryFootprint pageSize = (pageSize - 16 - 8) / 4 := rfl
  simp only [PAGE_HEADER_LEN, PAGE_TRAILER_LEN] at hfit' hover
  have hs := sum_footprint es
  have hs' := sum_footprint es'
  refine ⟨i, rfl, ?_, ?_, ?_⟩
  · intro hnil
    rw [hnil, List.map_nil, List.sum_nil] at hsum
    omega
  · rw [encodeLeaf_isSome]
    have hl := sum_footprint (es'.take i)
    simp only [PAGE_HEADER_LEN, PAGE_TRAILER_LEN]
    omega
  · rw [encodeLeaf_isSome]
    have hr := sum_footprint (es'.drop i)
    simp only [PAGE_HEADER_LEN, PAGE_TRAILER_LEN]
    omega

/-- An inner node that overflows by one entry fits when it is cut in the middle. -/
theorem inner_split (hps : 512 ≤ pageSize) {es es' : List (Key × Nat)} {r r' : Nat}
    (hfit : (encodeInner es r pageSize).isSome = true) (hlen : es'.length = es.length + 1)
    (hnone : encodeInner es' r' pageSize = none) (r'' : Nat) :
    (encodeInner (es'.take (es'.length / 2)) r'' pageSize).isSome = true ∧
    (encodeInner (es'.drop (es'.length / 2 + 1)) r'' pageSize).isSome = true := by
  obtain ⟨_, hfit'⟩ := encodeInner_isSome.mp hfit
  have hne' : es' ≠ [] := by
    intro h
    rw [h] at hlen
    simp at hlen
  have hover : ¬ (encodeInner es' r' pageSize).isSome = true := by
    rw [hnone]
    simp
  rw [encodeInner_isSome, not_and] at hover
  have hover' := hover hne'
  simp only [PAGE_HEADER_LEN, PAGE_TRAILER_LEN, INNER_ENTRY_LEN] at hfit' hover'
  constructor
  · rw [encodeInner_isSome]
    have hl : (es'.take (es'.length / 2)).length = es'.length / 2 := by
      rw [List.length_take]
      omega
    refine ⟨List.length_pos_iff.mp (by omega), ?_⟩
    simp only [PAGE_HEADER_LEN, PAGE_TRAILER_LEN, INNER_ENTRY_LEN, hl]
    omega
  · rw [encodeInner_isSome]
    have hr : (es'.drop (es'.length / 2 + 1)).length = es'.length - (es'.length / 2 + 1) := by
      rw [List.length_drop]
    refine ⟨List.length_pos_iff.mp (by omega), ?_⟩
    simp only [PAGE_HEADER_LEN, PAGE_TRAILER_LEN, INNER_ENTRY_LEN, hr]
    omega

/-- The layout is lawful, with no error but the end of the page numbers. -/
theorem lawful (H : Xxh3) (hlo : 512 ≤ pageSize) (hhi : pageSize ≤ 65536) :
    spec.Lawful H pageSize MAX_RECORD_LEN (fun _ => True) (fun e => e = Txn.pageCountOverflow) where
  pageSize_ge := hlo
  pageSize_le := hhi
  overflow := rfl
  leaf_length := by
    intro es b h
    obtain ⟨_, rfl⟩ := encodeLeaf_eq_some h
    simp
  inner_length := by
    intro es r b h
    obtain ⟨_, _, rfl⟩ := encodeInner_eq_some h
    simp
  inner_ne := by
    intro es r b h
    exact (encodeInner_eq_some h).1
  decode_leaf := by
    intro es b n h hsorted hok
    exact decodeNode_encodeLeaf n hlo hhi h hsorted fun e he => (hok e he).2.pointed
  decode_inner := by
    intro es r b n h hsorted hok hpos hr
    exact decodeNode_encodeInner n hlo hhi h hsorted (fun e he => (hok e he).2) hpos hr
  chunks := fun _ _ => rfl
  overflowLen := by
    intro n hn
    show Except.ok (n % 2 ^ 32) = _
    simp only [MAX_RECORD_LEN] at hn
    rw [Nat.mod_eq_of_lt (by omega)]
  finish := fun _ => ⟨rfl, rfl⟩
  fresh_leaf := by
    intro k c _ hc
    refine Or.inl (encodeLeaf_isSome.mpr ?_)
    have hle := footprint_le hlo (e := (k, c)) hc
    have hone : cellsLen [(k, c)] = encodedLen c := by simp [cellsLen]
    have hquarter : maxEntryFootprint pageSize = (pageSize - 16 - 8) / 4 := rfl
    have hfp : spec.footprint (k, c) = 20 + encodedLen c := rfl
    simp only [PAGE_HEADER_LEN, PAGE_TRAILER_LEN, SLOT_LEN, List.length_cons, List.length_nil, hone]
    omega
  fresh_root := by
    intro k n r _
    refine Or.inl (encodeInner_isSome.mpr ⟨by simp, ?_⟩)
    simp only [PAGE_HEADER_LEN, PAGE_TRAILER_LEN, INNER_ENTRY_LEN, List.length_cons, List.length_nil]
    omega
  leaf_split := by
    intro es k c hfit hok _ hc hnone
    exact Or.inl (leaf_split hlo hfit (fun e he => (hok e he).2) hc hnone)
  inner_split := by
    intro es r es' r' hfit hlen hnone
    exact Or.inl (inner_split hlo hfit hlen hnone)

end Splits

/-! ## Reading -/

section Read

variable {H : Xxh3} {src : PageSource} (hlo : 512 ≤ src.pageSize) (hhi : src.pageSize ≤ 65536)

include hlo hhi

/-- A chain reads back as the chunks it was written from. -/
theorem readOverflow_eq {cs : List Bytes} {p : Nat} {ps : List Nat}
    (h : ChainAt H .overflow src.pageSize src.view cs (p :: ps))
    (hc : ∀ c ∈ cs, 0 < c.length ∧ c.length ≤ usable src.pageSize)
    (hb : ∀ q ∈ ps, 0 < q ∧ q < 2 ^ 64) (fuel : Nat) (hf : cs.flatten.length ≤ fuel) :
    readOverflow src fuel p cs.flatten.length = .ok cs.flatten := by
  induction cs generalizing p ps fuel with
  | nil => cases h
  | cons c cs ih =>
      obtain ⟨h1, h2⟩ := h
      obtain ⟨hc0, hcap⟩ := hc c List.mem_cons_self
      have hnext : ps.head?.getD 0 < 2 ^ 64 := by
        cases ps with
        | nil => simp
        | cons q ps => exact (hb q List.mem_cons_self).2
      have hhead := stamped_chainPage_header H .overflow (ps.head?.getD 0) hlo hhi hcap hnext
      have hload := stamped_chainPage_payload H .overflow (ps.head?.getD 0) hlo hcap
      have hpage := PageSource.page_of_view h1
      have hsum : (c :: cs).flatten.length = c.length + cs.flatten.length := by simp
      rw [hsum] at hf ⊢
      obtain ⟨fuel, rfl⟩ : ∃ f, fuel = f + 1 := ⟨fuel - 1, by omega⟩
      have hne : ¬ c.length + cs.flatten.length = 0 := by omega
      have hused : ¬ (c.length = 0 ∨ c.length + cs.flatten.length < c.length ∨
          usable src.pageSize < c.length) := by omega
      simp only [readOverflow, hne, if_false, hpage, hhead, okOr_some, hused, hload, bind,
        Except.bind, ne_eq, not_true_eq_false, Nat.add_sub_cancel_left]
      cases cs with
      | nil => simp
      | cons d ds =>
          obtain ⟨hd0, _⟩ := hc d (by simp)
          cases ps with
          | nil => cases h2
          | cons q ps =>
              have hq := hb q List.mem_cons_self
              have hrest := ih h2 (fun x hx => hc x (List.mem_cons_of_mem _ hx))
                (fun x hx => hb x (List.mem_cons_of_mem _ hx)) fuel (by omega)
              have hpos : ¬ (d :: ds).flatten.length = 0 := by
                simp only [List.flatten_cons, List.length_append]
                omega
              have hq0 : ¬ q = 0 := by omega
              simp only [hpos, if_false, List.head?_cons, Option.getD_some, hq0, hrest]
              rw [← List.flatten_cons]

/-- The value of a cell, inline or in a chain. -/
theorem resolveCell_eq {c : Cell} {v : Bytes} {ps : List Nat}
    (h : spec.CellAt H src.pageSize MAX_RECORD_LEN src.view c v ps)
    (hb : ∀ p ∈ ps, 0 < p ∧ p < 2 ^ 64) : resolveCell src c = .ok v := by
  cases c with
  | inline value =>
      obtain ⟨rfl, _, _⟩ := h
      rfl
  | overflow totalLen firstPage =>
      obtain ⟨rfl, _, _, hhead, hchain⟩ := h
      have hcap : 0 < usable src.pageSize := by
        simp only [usable, PAGE_HEADER_LEN, PAGE_TRAILER_LEN]
        omega
      cases ps with
      | nil => cases hhead
      | cons p ps =>
          cases hhead
          have hread := readOverflow_eq hlo hhi hchain (fun x hx => mem_chunksUpTo hcap hx)
            (fun q hq => hb q (List.mem_cons_of_mem _ hq)) v.length
            (by rw [chunks_flatten hcap])
          rw [chunks_flatten hcap] at hread
          exact hread

/-- `get` is lookup in the map. -/
theorem get_eq {root b : Nat} {m : List (Key × Bytes)} {own : List Nat} (hnd : own.Nodup)
    (hb : ∀ p ∈ own, 0 < p ∧ p < b) (hlt : b < 2 ^ 64)
    (htree : Rooted (spec.layout H src.pageSize MAX_RECORD_LEN fun _ => True) src.view root m own)
    (k : Key) : get src root k = .ok (find k m) := by
  unfold get
  split
  · rename_i h0
    rcases htree with ⟨_, rfl, _⟩ | ⟨hne, _⟩
    · rfl
    · exact absurd h0 hne
  · rename_i h0
    rcases TreeSpec.lookup_rooted (lawful H hlo hhi) k hnd hb hlt h0 htree with
      ⟨h1, h2⟩ | ⟨c, leaf, v, ps, h1, h2, h3, h4⟩
    · simp [h1, h2, bind, Except.bind]
    · have hres := resolveCell_eq hlo hhi h3 fun p hp =>
        ⟨(hb p (h4 p hp)).1, lt_trans (hb p (h4 p hp)).2 hlt⟩
      simp [h1, h2, hres, bind, Except.bind]

end Read

/-! ## The iterator -/

section Iterator

variable (src : PageSource)

theorem andThen_assoc (a b c : List (Key × Bytes) × Option Error) :
    andThen (andThen a b) c = andThen a (andThen b c) := by
  obtain ⟨a, ea⟩ := a
  obtain ⟨b, eb⟩ := b
  cases ea with
  | some e => rfl
  | none =>
      cases eb with
      | some e => rfl
      | none => simp [andThen]

@[simp] theorem nil_andThen (a : List (Key × Bytes) × Option Error) : andThen ([], none) a = a := by
  simp [andThen]

@[simp] theorem andThen_nil (a : List (Key × Bytes) × Option Error) : andThen a ([], none) = a := by
  obtain ⟨a, e⟩ := a
  cases e <;> simp [andThen]

/-- The rest of a leaf is resolved in order, then the stack below goes on. -/
theorem drains_leaf {rest : List Frame} {r : List (Key × Bytes) × Option Error}
    (h : Drains src rest r) (es : List (Key × Cell)) (next : Nat) :
    Drains src (.leaf es next :: rest) (andThen (visitEntries src (es.drop next)) r) := by
  generalize hd : es.drop next = todo
  induction todo generalizing next with
  | nil =>
      have hnone : es[next]? = none := by
        rw [List.getElem?_eq_none_iff]
        exact List.drop_eq_nil_iff.mp hd
      have hturn : turn src (.leaf es next :: rest) = .ok (.again rest) := by simp [turn, hnone]
      refine Drains.again hturn ?_
      simpa [visitEntries] using h
  | cons e todo ih =>
      obtain ⟨key, cell⟩ := e
      have hget : es[next]? = some (key, cell) := by
        have := congrArg List.head? hd
        rwa [List.head?_drop, List.head?_cons] at this
      have hrest : es.drop (next + 1) = todo := by
        have := congrArg List.tail hd
        rwa [List.tail_drop, List.tail_cons] at this
      cases hv : resolveCell src cell with
      | error e =>
          have hturn : turn src (.leaf es next :: rest) = .error e := by
            simp [turn, hget, hv, bind, Except.bind]
          simpa [visitEntries, hv, andThen] using Drains.fused hturn
      | ok value =>
          have hturn : turn src (.leaf es next :: rest) =
              .ok (.item key value (.leaf es (next + 1) :: rest)) := by
            simp [turn, hget, hv, bind, Except.bind]
          have hitem := Drains.item hturn (ih (next + 1) hrest)
          have heq : andThen (visitEntries src ((key, cell) :: todo)) r =
              ((key, value) :: (andThen (visitEntries src todo) r).1,
                (andThen (visitEntries src todo) r).2) := by
            simp only [visitEntries, hv]
            rw [andThen_assoc]
            simp [andThen]
          rw [heq]
          exact hitem

/-- Pushing a page: an error of the visit, or a stack that yields the visit and goes on. -/
def Pushes (fuel pageNo : Nat) (stack : List Frame) (r : List (Key × Bytes) × Option Error) : Prop :=
  match pushPage src stack pageNo with
  | .error e => visit src fuel pageNo = ([], some e)
  | .ok stack' => Drains src stack' (andThen (visit src fuel pageNo) r)

/-- The rest of an inner node: its children are visited in order. -/
theorem drains_inner {fuel : Nat} {rest : List Frame} {r : List (Key × Bytes) × Option Error}
    (h : Drains src rest r) (hdepth : rest.length + 1 + fuel = MAX_DEPTH)
    (hpush : ∀ pageNo stack r, stack.length + fuel = MAX_DEPTH → Drains src stack r →
      Pushes src fuel pageNo stack r) (cs : List Nat) (next : Nat) :
    Drains src (.inner cs next :: rest)
      (andThen (((cs.drop next).map (visit src fuel)).foldr andThen ([], none)) r) := by
  generalize hd : cs.drop next = todo
  induction todo generalizing next with
  | nil =>
      have hnone : cs[next]? = none := by
        rw [List.getElem?_eq_none_iff]
        exact List.drop_eq_nil_iff.mp hd
      have hturn : turn src (.inner cs next :: rest) = .ok (.again rest) := by simp [turn, hnone]
      refine Drains.again hturn ?_
      simpa using h
  | cons child todo ih =>
      have hget : cs[next]? = some child := by
        have := congrArg List.head? hd
        rwa [List.head?_drop, List.head?_cons] at this
      have hrest : cs.drop (next + 1) = todo := by
        have := congrArg List.tail hd
        rwa [List.tail_drop, List.tail_cons] at this
      have hchild := hpush child (.inner cs (next + 1) :: rest) _ (by simpa using hdepth)
        (ih (next + 1) hrest)
      rw [List.map_cons, List.foldr_cons, andThen_assoc]
      unfold Pushes at hchild
      cases hp : pushPage src (.inner cs (next + 1) :: rest) child with
      | error e =>
          rw [hp] at hchild
          have hturn : turn src (.inner cs next :: rest) = .error e := by
            simp [turn, hget, hp, bind, Except.bind]
          rw [hchild]
          exact Drains.fused hturn
      | ok stack =>
          rw [hp] at hchild
          have hturn : turn src (.inner cs next :: rest) = .ok (.again stack) := by
            simp [turn, hget, hp, bind, Except.bind]
          exact Drains.again hturn hchild

/-- The stack machine does what the recursion on the depth does, on any pages. -/
theorem pushes_visit (fuel pageNo : Nat) (stack : List Frame)
    {r : List (Key × Bytes) × Option Error} (hdepth : stack.length + fuel = MAX_DEPTH)
    (h : Drains src stack r) : Pushes src fuel pageNo stack r := by
  induction fuel generalizing pageNo stack r with
  | zero =>
      have hfull : MAX_DEPTH ≤ stack.length := by omega
      simp [Pushes, pushPage, hfull, visit, malformed]
  | succ fuel ih =>
      have hroom : ¬ MAX_DEPTH ≤ stack.length := by omega
      unfold Pushes
      cases hp : src.page pageNo with
      | error e => simp [pushPage, hroom, hp, visit, bind, Except.bind]
      | ok page =>
          cases hn : decodeNode page pageNo with
          | error e => simp [pushPage, hroom, hp, hn, visit, bind, Except.bind]
          | ok node =>
              cases node with
              | leaf es =>
                  simp only [pushPage, hroom, hp, hn, visit, bind, Except.bind, if_false]
                  exact drains_leaf src h es 0
              | inner es rightmost =>
                  simp only [pushPage, hroom, hp, hn, visit, bind, Except.bind, if_false]
                  exact drains_inner src h (by omega) (fun pageNo stack r hd hr => ih pageNo stack hd hr) _ 0

/-- Draining the iterator gives `scan`, whatever the pages hold. -/
theorem yields_scan (root : Nat) : Yields src root (scan src root) := by
  unfold scan
  split
  · rename_i h0
    exact Yields.empty h0
  · rename_i h0
    have hpush := pushes_visit src MAX_DEPTH root [] rfl (Drains.done rfl)
    unfold Pushes at hpush
    cases hp : pushPage src [] root with
    | error e =>
        rw [hp] at hpush
        rw [hpush]
        exact Yields.fused h0 hp
    | ok stack =>
        rw [hp] at hpush
        rw [andThen_nil] at hpush
        exact Yields.drains h0 hp hpush

end Iterator

end Btree

end EmbedMind
