import EmbedMind.Decoders
import EmbedMind.Index.DictProof
import EmbedMind.Storage.BtreeProof

/-!
# The nodes of both trees, as bytes

A node whose pointers lead somewhere is read back from its page. Of any page, whatever its
bytes are, a node is decoded whose keys ascend and whose pointers lead somewhere, or the
page is refused; `Btree.NodeAt` and `Dict.NodeAt` say where the parts of a decoded node
stand on its page.
-/

namespace EmbedMind

open Lib Lib.Assoc

/-! ## Fields of variable length -/

namespace Dict

variable {β : Type} {Q : β → Prop} {buf : Bytes} {off contentEnd pageNo : Nat} {what : String}

/-- A number, and what follows it. -/
theorem ends_getInt {width : Nat} {f : Nat × Nat → Except Error β}
    (h : ∀ n, n < 256 ^ width → HasAt buf off (leBytes width n) →
      Ends Q (Malformed pageNo) (f (n, off + width))) :
    Ends Q (Malformed pageNo) (getInt buf off width pageNo >>= f) := by
  unfold getInt readInt
  cases hn : readLE buf off width with
  | none => exact ends_malformed _ _
  | some n => exact h n (readLE_lt hn) (hasAt_of_readLE hn)

/-- A string of known length, and what follows it. -/
theorem ends_getSlice {len : Nat} {f : Bytes × Nat → Except Error β}
    (h : ∀ bs, bs.length = len → HasAt buf off bs → off + len ≤ contentEnd →
      Ends Q (Malformed pageNo) (f (bs, off + len))) :
    Ends Q (Malformed pageNo) (getSlice buf off len contentEnd pageNo what >>= f) := by
  unfold getSlice
  split
  · rename_i hend
    cases hs : slice buf off len with
    | none => exact ends_malformed _ _
    | some bs => exact h bs (slice_length hs) (hasAt_of_slice hs) hend
  · exact ends_malformed _ _

/-- A length-prefixed field ends before the end of the content. -/
theorem ends_getBytesU16 {f : Bytes × Nat → Except Error β}
    (h : ∀ bs, HasAt buf off (leBytes 2 bs.length ++ bs) → off + 2 + bs.length ≤ contentEnd →
      Ends Q (Malformed pageNo) (f (bs, off + 2 + bs.length))) :
    Ends Q (Malformed pageNo) (getBytesU16 buf off contentEnd pageNo what >>= f) := by
  unfold getBytesU16
  cases hn : readLE buf off 2 with
  | none => exact ends_malformed _ _
  | some n =>
      rw [okOr_some, ok_bind]
      refine ends_getSlice ?_
      intro bs hlen hbs hend
      have hat := hasAt_of_readLE hn
      rw [← hlen] at hat hend ⊢
      refine h bs (hasAt_append.mpr ⟨hat, ?_⟩) hend
      rw [leBytes_length]
      exact hbs

/-- A string with its length, and what follows it. -/
theorem ends_getBytesU32 {f : Bytes × Nat → Except Error β}
    (h : ∀ bs, HasAt buf off (leBytes 4 bs.length ++ bs) → off + 4 + bs.length ≤ contentEnd →
      Ends Q (Malformed pageNo) (f (bs, off + 4 + bs.length))) :
    Ends Q (Malformed pageNo) (getBytesU32 buf off contentEnd pageNo what >>= f) := by
  unfold getBytesU32 readInt
  cases hn : readLE buf off 4 with
  | none => exact ends_malformed _ _
  | some n =>
      rw [okOr_some, ok_bind]
      refine ends_getSlice ?_
      intro bs hlen hbs hend
      have hat := hasAt_of_readLE hn
      rw [← hlen] at hat hend ⊢
      refine h bs (hasAt_append.mpr ⟨hat, ?_⟩) hend
      rw [leBytes_length]
      exact hbs

end Dict

/-! ## The record tree -/

namespace Btree

/-- Slot `i` of a leaf: its key, and its cell between the slots and the end of the content. -/
structure SlotAt (page : Bytes) (pageNo slotsEnd contentEnd i : Nat) (e : Key × Cell) : Prop where
  key : HasAt page (PAGE_HEADER_LEN + i * SLOT_LEN) e.1.1
  cell : ∃ off bytes, HasAt page (PAGE_HEADER_LEN + i * SLOT_LEN + 16) (leBytes 2 off) ∧
    HasAt page (PAGE_HEADER_LEN + i * SLOT_LEN + 18) (leBytes 2 bytes.length) ∧
    slotsEnd ≤ off ∧ off + bytes.length ≤ contentEnd ∧ HasAt page off bytes ∧ decodeCell bytes pageNo = .ok e.2

/-- Where the parts of a decoded node stand. -/
def NodeAt (page : Bytes) (pageNo : Nat) : Node Key → Prop
  | .leaf entries => Sorted entries ∧ (∀ e ∈ entries, e.2.Pointed MAX_RECORD_LEN) ∧
      PAGE_HEADER_LEN + entries.length * SLOT_LEN ≤ page.length - PAGE_TRAILER_LEN ∧
      ∀ i e, entries[i]? = some e → SlotAt page pageNo (PAGE_HEADER_LEN + entries.length * SLOT_LEN)
        (page.length - PAGE_TRAILER_LEN) i e
  | .inner entries rightmost => Sorted entries ∧ entries ≠ [] ∧ 0 < rightmost ∧ (∀ e ∈ entries, 0 < e.2) ∧
      HasAt page PAGE_HEADER_LEN (leBytes 8 rightmost ++ innerBytes entries) ∧
      PAGE_HEADER_LEN + (leBytes 8 rightmost ++ innerBytes entries).length ≤ page.length - PAGE_TRAILER_LEN

section Total

variable (page : Bytes) (pageNo : Nat)

/-- A cell that was decoded points within bounds. -/
theorem decodeCell_ends (bytes : Bytes) :
    Ends (fun c => bytes ≠ [] ∧ c.Pointed MAX_RECORD_LEN ∧ decodeCell bytes pageNo = .ok c) (Malformed pageNo)
      (decodeCell bytes pageNo) := by
  have hends : Ends (fun c => bytes ≠ [] ∧ c.Pointed MAX_RECORD_LEN) (Malformed pageNo)
      (decodeCell bytes pageNo) := by
    unfold decodeCell
    cases bytes with
    | nil => exact ends_malformed _ _
    | cons tag rest =>
        refine Ends.ite ?_ ?_
        · intro _
          exact Ends.ok ⟨List.cons_ne_nil _ _, trivial⟩
        intro _
        refine Ends.ite ?_ ?_
        · intro _
          refine ends_field ⟨_, rfl⟩ ?_
          intro totalLen _
          refine ends_field ⟨_, rfl⟩ ?_
          intro firstPage hfirst
          refine Ends.ite ?_ ?_
          · intro _
            exact ends_malformed _ _
          intro hok
          rw [not_or, not_lt] at hok
          exact Ends.ok ⟨List.cons_ne_nil _ _, hok.2, Nat.pos_of_ne_zero hok.1, hfirst⟩
        · intro _
          exact ends_malformed _ _
  rcases hends with ⟨c, hc, hspec⟩ | herr
  · exact Or.inl ⟨c, hc, hspec.1, hspec.2, hc⟩
  · exact Or.inr herr

theorem ofBytes?_eq {bs : Bytes} {k : Key} (h : Key.ofBytes? bs = some k) : k.1 = bs := by
  unfold Key.ofBytes? at h
  split at h
  · cases h
    rfl
  · cases h

/-- The slots are in key order, and every cell lies between them and the trailer. -/
theorem decodeSlots_ends (slotsEnd contentEnd n i : Nat) (prev : Option Key) :
    Ends (fun es => AscendsFrom Prod.fst prev es ∧ es.length = n ∧ (∀ e ∈ es, e.2.Pointed MAX_RECORD_LEN) ∧
        ∀ j e, es[j]? = some e → SlotAt page pageNo slotsEnd contentEnd (i + j) e)
      (Malformed pageNo) (decodeSlots page pageNo slotsEnd contentEnd n i prev) := by
  induction n generalizing i prev with
  | zero =>
      refine Ends.ok ⟨AscendsFrom.nil, rfl, ?_, ?_⟩
      · intro e he
        cases he
      · intro j e he
        cases he
  | succ n ih =>
      -- every read may fail, and with the error of this page
      refine ends_present ⟨_, rfl⟩ ?_
      intro key hkey
      refine Ends.ite ?_ ?_
      · intro _
        exact ends_malformed _ _
      intro hnot
      refine ends_present ⟨_, rfl⟩ ?_
      intro off hoff
      refine ends_present ⟨_, rfl⟩ ?_
      intro len hlen
      refine Ends.ite ?_ ?_
      · intro _
        exact ends_malformed _ _
      intro hbounds
      refine ends_present ⟨_, rfl⟩ ?_
      intro bytes hbytes
      refine Ends.bind (decodeCell_ends pageNo bytes) ?_
      intro cell hcell
      refine Ends.bind (ih (i + 1) (some key)) ?_
      intro rest hrest
      -- a slot that was read stands in the page, and its cell within bounds
      rcases hrest with ⟨hascends, hcount, hpointed, hslots⟩
      rw [not_or, not_or, not_lt, not_lt] at hbounds
      refine Ends.ok ⟨AscendsFrom.cons hnot hascends, by rw [List.length_cons, hcount], ?_, ?_⟩
      · intro e he
        rcases List.mem_cons.mp he with rfl | he
        · exact hcell.2.1
        · exact hpointed e he
      · intro j e he
        cases j with
        | zero =>
            cases he
            rcases Option.bind_eq_some_iff.mp hkey with ⟨bs, hbs, hof⟩
            constructor
            case key =>
              show HasAt page _ key.1
              rw [ofBytes?_eq hof]
              exact hasAt_of_slice hbs
            case cell =>
              have hsize := slice_length hbytes
              refine ⟨off, bytes, hasAt_of_readLE hoff, ?_, hbounds.1, ?_, hasAt_of_slice hbytes, hcell.2.2⟩
              · rw [hsize]
                exact hasAt_of_readLE hlen
              · rw [hsize]
                exact hbounds.2.2
        | succ j =>
            have hj := hslots j e he
            rw [Nat.add_right_comm] at hj
            exact hj

theorem decodeChildren_ends (n i : Nat) (prev : Option Key)
    (hoff : PAGE_HEADER_LEN + 8 + i * INNER_ENTRY_LEN ≤ page.length) :
    Ends (fun es => AscendsFrom Prod.fst prev es ∧ es.length = n ∧ (∀ e ∈ es, 0 < e.2) ∧
        HasAt page (PAGE_HEADER_LEN + 8 + i * INNER_ENTRY_LEN) (innerBytes es))
      (Malformed pageNo) (decodeChildren page pageNo n i prev) := by
  induction n generalizing i prev with
  | zero =>
      refine Ends.ok ⟨AscendsFrom.nil, rfl, ?_, hasAt_nil hoff⟩
      intro e he
      cases he
  | succ n ih =>
      refine ends_present ⟨_, rfl⟩ ?_
      intro key hkey
      refine Ends.ite ?_ ?_
      · intro _
        exact ends_malformed _ _
      intro hnot
      refine ends_present ⟨_, rfl⟩ ?_
      intro child hchild
      refine Ends.ite ?_ ?_
      · intro _
        exact ends_malformed _ _
      intro hne
      have hat := hasAt_of_readLE hchild
      have hnext : PAGE_HEADER_LEN + 8 + (i + 1) * INNER_ENTRY_LEN =
          PAGE_HEADER_LEN + 8 + i * INNER_ENTRY_LEN + 16 + 8 := by
        simp only [INNER_ENTRY_LEN]
        omega
      have hend := hat.le
      rw [leBytes_length, ← hnext] at hend
      refine Ends.bind (ih (i + 1) (some key) hend) ?_
      intro rest hrest
      rcases hrest with ⟨hascends, hcount, hpos, hothers⟩
      refine Ends.ok ⟨AscendsFrom.cons hnot hascends, by rw [List.length_cons, hcount], ?_, ?_⟩
      · intro e he
        rcases List.mem_cons.mp he with rfl | he
        · exact Nat.pos_of_ne_zero hne
        · exact hpos e he
      · rcases Option.bind_eq_some_iff.mp hkey with ⟨bs, hbs, hof⟩
        have hkeyAt := hasAt_of_slice hbs
        rw [← ofBytes?_eq hof] at hkeyAt
        rw [hnext] at hothers
        rw [innerBytes, List.append_assoc]
        refine hasAt_append.mpr ⟨hkeyAt, hasAt_append.mpr ?_⟩
        rw [key.2, leBytes_length]
        exact ⟨hat, hothers⟩

/-- A record tree's page is a node whose parts stand in its content, or is refused. -/
theorem decodeNode_ends : Ends (NodeAt page pageNo) (Malformed pageNo) (decodeNode page pageNo) := by
  unfold decodeNode
  refine ends_present ⟨_, rfl⟩ ?_
  intro header _
  dsimp only
  cases header.pageType with
  | btreeLeaf =>
      refine Ends.ite ?_ ?_
      · intro _
        exact ends_malformed _ _
      intro hdir
      refine Ends.bind (decodeSlots_ends page pageNo _ _ header.entryCount 0 none) ?_
      intro entries hentries
      rcases hentries with ⟨hascends, hcount, hpointed, hslots⟩
      rw [← hcount] at hdir hslots
      refine Ends.ok ⟨hascends.pairwise, hpointed, not_lt.mp hdir, ?_⟩
      intro i e he
      have hslot := hslots i e he
      rw [Nat.zero_add] at hslot
      exact hslot
  | btreeInner =>
      refine Ends.ite ?_ ?_
      · intro _
        exact ends_malformed _ _
      intro hne
      refine Ends.ite ?_ ?_
      · intro _
        exact ends_malformed _ _
      intro hfit
      refine ends_present ⟨_, rfl⟩ ?_
      intro rightmost hright
      refine Ends.ite ?_ ?_
      · intro _
        exact ends_malformed _ _
      intro hright0
      have hat := hasAt_of_readLE hright
      have hend := hat.le
      rw [leBytes_length] at hend
      refine Ends.bind (decodeChildren_ends page pageNo header.entryCount 0 none (by omega)) ?_
      intro entries hentries
      rcases hentries with ⟨hascends, hcount, hpos, hothers⟩
      refine Ends.ok ⟨hascends.pairwise, ?_, Nat.pos_of_ne_zero hright0, hpos, ?_, ?_⟩
      · intro hnil
        rw [hnil] at hcount
        exact hne hcount.symm
      · refine hasAt_append.mpr ⟨hat, ?_⟩
        rw [leBytes_length]
        rw [Nat.zero_mul, Nat.add_zero] at hothers
        exact hothers
      · rw [List.length_append, leBytes_length, innerBytes_length, hcount]
        omega
  | _ => exact ends_malformed _ _

end Total

end Btree

/-! ## The dictionary -/

namespace Dict

/-- The entries of a leaf, one after the other: keys and inline values end within the
content, pointers within the page. -/
def EntriesAt (page : Bytes) (contentEnd : Nat) : Nat → List (Bytes × Cell) → Prop
  | _, [] => True
  | off, (key, value) :: rest => HasAt page off (leBytes 2 key.length ++ key ++ encodeValue value) ∧
      off + 2 + key.length ≤ contentEnd ∧ (∀ b, value = .inline b → off + footprint (key, value) ≤ contentEnd) ∧
      EntriesAt page contentEnd (off + footprint (key, value)) rest

/-- The entries of an inner node, in the same way. -/
def ChildrenAt (page : Bytes) (contentEnd : Nat) : Nat → List (Bytes × Nat) → Prop
  | _, [] => True
  | off, (key, child) :: rest => HasAt page off (leBytes 2 key.length ++ key ++ leBytes 8 child) ∧
      off + 2 + key.length ≤ contentEnd ∧ ChildrenAt page contentEnd (off + 2 + key.length + 8) rest

/-- Where the parts of a decoded node stand. -/
def NodeAt (page : Bytes) : Node Bytes → Prop
  | .leaf entries => Sorted entries ∧ (∀ e ∈ entries, e.2.Pointed MAX_VALUE_LEN) ∧
      EntriesAt page (page.length - PAGE_TRAILER_LEN) (PAGE_HEADER_LEN + 1) entries
  | .inner entries rightmost => Sorted entries ∧ entries ≠ [] ∧ 0 < rightmost ∧ (∀ e ∈ entries, 0 < e.2) ∧
      HasAt page (PAGE_HEADER_LEN + 1) (leBytes 8 rightmost) ∧
      ChildrenAt page (page.length - PAGE_TRAILER_LEN) (PAGE_HEADER_LEN + 1 + 8) entries

section Total

variable (spec : DictSpec) (page : Bytes) (contentEnd pageNo : Nat)

/-- An inline value ends within the content, a pointer within the page. -/
theorem decodeValue_ends (off : Nat) :
    Ends (fun r : Cell × Nat => r.1.Pointed MAX_VALUE_LEN ∧ HasAt page off (encodeValue r.1) ∧
        r.2 = off + encodedLen r.1 ∧ ∀ b, r.1 = .inline b → r.2 ≤ contentEnd)
      (Malformed pageNo) (decodeValue page off contentEnd pageNo) := by
  unfold decodeValue
  refine ends_present ⟨_, rfl⟩ ?_
  intro tag htag
  have htagAt := hasAt_of_getElem? htag
  refine Ends.ite ?_ ?_
  · intro hinline
    rw [hinline] at htagAt
    refine ends_getBytesU32 ?_
    intro bs hbs hend
    refine Ends.ok ⟨trivial, hasAt_cons.mpr ⟨htagAt, hbs⟩, ?_, ?_⟩
    · simp only [encodedLen]
      omega
    · intro b _
      exact hend
  intro _
  refine Ends.ite ?_ ?_
  · intro hoverflow
    rw [hoverflow] at htagAt
    refine ends_getInt ?_
    intro totalLen htotal htotalAt
    refine ends_getInt ?_
    intro firstPage hfirst hfirstAt
    refine Ends.ite ?_ ?_
    · intro _
      exact ends_malformed _ _
    intro hne
    refine Ends.ok ⟨⟨Nat.le_pred_of_lt htotal, Nat.pos_of_ne_zero hne, hfirst⟩, ?_, by simp [encodedLen], ?_⟩
    · refine hasAt_cons.mpr ⟨htagAt, hasAt_append.mpr ⟨htotalAt, ?_⟩⟩
      rw [leBytes_length]
      exact hfirstAt
    · intro b hb
      cases hb
  · intro _
    exact ends_malformed _ _

theorem decodeEntries_ends (n off : Nat) (prev : Option Bytes) :
    Ends (fun es => AscendsFrom Prod.fst prev es ∧ es.length = n ∧ (∀ e ∈ es, e.2.Pointed MAX_VALUE_LEN) ∧
        EntriesAt page contentEnd off es)
      (Malformed pageNo) (decodeEntries page contentEnd pageNo n off prev) := by
  induction n generalizing off prev with
  | zero =>
      refine Ends.ok ⟨AscendsFrom.nil, rfl, ?_, trivial⟩
      intro e he
      cases he
  | succ n ih =>
      refine ends_getBytesU16 ?_
      intro key hkey hend
      refine Ends.ite ?_ ?_
      · intro _
        exact ends_malformed _ _
      intro hnot
      refine Ends.bind (decodeValue_ends page contentEnd pageNo _) ?_
      intro value hvalue
      rcases hvalue with ⟨hpointed, hat, hnext, hinline⟩
      refine Ends.bind (ih value.2 (some key)) ?_
      intro rest hrest
      rcases hrest with ⟨hascends, hcount, hall, hothers⟩
      have hfoot : off + footprint (key, value.1) = value.2 := by
        rw [hnext]
        simp only [footprint]
        omega
      refine Ends.ok ⟨AscendsFrom.cons hnot hascends, by rw [List.length_cons, hcount], ?_, ?_⟩
      · intro e he
        rcases List.mem_cons.mp he with rfl | he
        · exact hpointed
        · exact hall e he
      · refine ⟨hasAt_append.mpr ⟨hkey, ?_⟩, hend, ?_, ?_⟩
        · rw [List.length_append, leBytes_length, ← Nat.add_assoc]
          exact hat
        · rw [hfoot]
          exact hinline
        · rw [hfoot]
          exact hothers

theorem decodeChildren_ends (n off : Nat) (prev : Option Bytes) :
    Ends (fun es => AscendsFrom Prod.fst prev es ∧ es.length = n ∧ (∀ e ∈ es, 0 < e.2) ∧
        ChildrenAt page contentEnd off es)
      (Malformed pageNo) (decodeChildren page contentEnd pageNo n off prev) := by
  induction n generalizing off prev with
  | zero =>
      refine Ends.ok ⟨AscendsFrom.nil, rfl, ?_, trivial⟩
      intro e he
      cases he
  | succ n ih =>
      refine ends_getBytesU16 ?_
      intro key hkey hend
      refine Ends.ite ?_ ?_
      · intro _
        exact ends_malformed _ _
      intro hnot
      refine ends_getInt ?_
      intro child _ hchild
      refine Ends.ite ?_ ?_
      · intro _
        exact ends_malformed _ _
      intro hne
      refine Ends.bind (ih (off + 2 + key.length + 8) (some key)) ?_
      intro rest hrest
      rcases hrest with ⟨hascends, hcount, hpos, hothers⟩
      refine Ends.ok ⟨AscendsFrom.cons hnot hascends, by rw [List.length_cons, hcount], ?_, ?_⟩
      · intro e he
        rcases List.mem_cons.mp he with rfl | he
        · exact Nat.pos_of_ne_zero hne
        · exact hpos e he
      · refine ⟨hasAt_append.mpr ⟨hkey, ?_⟩, hend, hothers⟩
        rw [List.length_append, leBytes_length, ← Nat.add_assoc]
        exact hchild

/-- A dictionary's page is a node whose keys stand in its content, or is refused. -/
theorem decodeNode_ends : Ends (NodeAt page) (Malformed pageNo) (decodeNode spec page pageNo) := by
  unfold decodeNode
  refine ends_present ⟨_, rfl⟩ ?_
  intro header _
  refine Ends.ite ?_ ?_
  · intro _
    exact ends_malformed _ _
  intro _
  refine ends_present ⟨_, rfl⟩ ?_
  intro kind _
  refine Ends.ite ?_ ?_
  · intro _
    refine Ends.bind (decodeEntries_ends page _ pageNo header.entryCount _ none) ?_
    intro entries hentries
    exact Ends.ok ⟨hentries.1.pairwise, hentries.2.2.1, hentries.2.2.2⟩
  intro _
  refine Ends.ite ?_ ?_
  · intro _
    refine Ends.ite ?_ ?_
    · intro _
      exact ends_malformed _ _
    intro hne
    refine ends_getInt ?_
    intro rightmost _ hright
    refine Ends.ite ?_ ?_
    · intro _
      exact ends_malformed _ _
    intro hright0
    refine Ends.bind (decodeChildren_ends page _ pageNo header.entryCount _ none) ?_
    intro entries hentries
    rcases hentries with ⟨hascends, hcount, hpos, hat⟩
    refine Ends.ok ⟨hascends.pairwise, ?_, Nat.pos_of_ne_zero hright0, hpos, hright, hat⟩
    intro hnil
    rw [hnil] at hcount
    exact hne hcount.symm
  · intro _
    exact ends_malformed _ _

end Total

end Dict

/-! ## Round trips and totality -/

/-- Some checksum function makes a page its own stamped form: what holds of stamped pages
holds of pages whose trailer is anything. -/
theorem exists_stamp_eq {page : Bytes} (h : PAGE_TRAILER_LEN ≤ page.length) : ∃ H, stampPageChecksum H page = page := by
  have hread : readLE page (page.length - PAGE_TRAILER_LEN) 8 = some _ := readLE_of_le
    (by simp only [PAGE_TRAILER_LEN] at h ⊢; omega)
  refine ⟨⟨fun _ => UInt64.ofNat (leNat ((page.drop (page.length - PAGE_TRAILER_LEN)).take 8)), fun _ _ => 0⟩, ?_⟩
  have hlt := readLE_lt hread
  rw [stampPageChecksum, pageChecksum, UInt64.toNat_ofNat_of_lt' hlt]
  exact splice_hasAt (hasAt_of_readLE hread)

/-- In both trees a node whose pointers lead somewhere is read back from its page, and of
any page a well-formed node is decoded or the page is refused. -/
theorem node_page_codecs (H : Xxh3) (dict : DictSpec) (pageSize pageNo : Nat)
    (hsize : pageSizeIsValid pageSize = true) :
    (∀ entries page, Sorted entries → (∀ e ∈ entries, e.2.Pointed MAX_RECORD_LEN) →
      Btree.encodeLeaf entries pageSize = some page → Btree.decodeNode page pageNo = .ok (.leaf entries) ∧
        Btree.decodeNode (stampPageChecksum H page) pageNo = .ok (.leaf entries)) ∧
    (∀ entries rightmost page, Sorted entries → (∀ e ∈ entries, 0 < e.2 ∧ e.2 < 2 ^ 64) → 0 < rightmost →
      rightmost < 2 ^ 64 → Btree.encodeInner entries rightmost pageSize = some page →
      Btree.decodeNode page pageNo = .ok (.inner entries rightmost) ∧
        Btree.decodeNode (stampPageChecksum H page) pageNo = .ok (.inner entries rightmost)) ∧
    (∀ entries page, Sorted entries → (∀ e ∈ entries, e.2.Pointed Dict.MAX_VALUE_LEN) →
      Dict.encodeLeaf H dict entries pageSize = some page →
      Dict.decodeNode dict page pageNo = .ok (.leaf entries)) ∧
    (∀ entries rightmost page, Sorted entries → (∀ e ∈ entries, 0 < e.2 ∧ e.2 < 2 ^ 64) → 0 < rightmost →
      rightmost < 2 ^ 64 → Dict.encodeInner H dict entries rightmost pageSize = some page →
      Dict.decodeNode dict page pageNo = .ok (.inner entries rightmost)) ∧
    ∀ page, Ends (Btree.NodeAt page pageNo) (Malformed pageNo) (Btree.decodeNode page pageNo) ∧
      Ends (Dict.NodeAt page) (Malformed pageNo) (Dict.decodeNode dict page pageNo) := by
  rcases pageSizeIsValid_iff.mp hsize with ⟨hlo, hhi, _⟩
  have hsmall : PAGE_TRAILER_LEN ≤ pageSize := by
    simp only [PAGE_TRAILER_LEN]
    omega
  refine ⟨?_, ?_, ?_, ?_, ?_⟩
  · intro entries page hsorted hpointed henc
    constructor
    · have hlen := (Btree.lawful H hlo hhi).leaf_length entries page henc
      rcases exists_stamp_eq (hsmall.trans_eq hlen.symm) with ⟨H', hstamp⟩
      rw [← hstamp]
      exact Btree.decodeNode_encodeLeaf pageNo hlo hhi henc hsorted hpointed
    · exact Btree.decodeNode_encodeLeaf pageNo hlo hhi henc hsorted hpointed
  · intro entries rightmost page hsorted hpos hright hlt henc
    constructor
    · have hlen := (Btree.lawful H hlo hhi).inner_length entries rightmost page henc
      rcases exists_stamp_eq (hsmall.trans_eq hlen.symm) with ⟨H', hstamp⟩
      rw [← hstamp]
      exact Btree.decodeNode_encodeInner pageNo hlo hhi henc hsorted hpos hright hlt
    · exact Btree.decodeNode_encodeInner pageNo hlo hhi henc hsorted hpos hright hlt
  · intro entries page hsorted hpointed henc
    exact Dict.decodeNode_encodeLeaf pageNo hlo hhi henc hsorted hpointed
  · intro entries rightmost page hsorted hpos hright hlt henc
    exact Dict.decodeNode_encodeInner pageNo hlo hhi henc hsorted hpos hright hlt
  · intro page
    exact ⟨Btree.decodeNode_ends page pageNo, Dict.decodeNode_ends dict page pageNo⟩

/-- The key after the least one. -/
def oneKey : Key := ⟨List.replicate 15 0 ++ [1], rfl⟩

/-- A leaf of the record tree, with a value of its own and one on overflow pages. -/
def twoCells : List (Key × Cell) := [(zeroKey, .inline [1, 2]), (oneKey, .overflow 1200 9)]

/-- A leaf of the graph dictionary, keys of different lengths. -/
def twoValues : List (Bytes × Cell) := [([1, 97], .overflow 600 4), ([1, 97, 98], .inline [])]

theorem node_page_codecs_two_cells : ∃ page inner dictPage dictInner,
    Btree.encodeLeaf twoCells 512 = some page ∧ Btree.decodeNode page 3 = .ok (.leaf twoCells) ∧
    Btree.encodeInner [(zeroKey, 5), (oneKey, 6)] 7 512 = some inner ∧
    Btree.decodeNode inner 3 = .ok (.inner [(zeroKey, 5), (oneKey, 6)] 7) ∧
    Dict.encodeLeaf ⟨fun _ => 0, fun _ _ => 0⟩ GRAPH_DICT twoValues 512 = some dictPage ∧
    Dict.decodeNode GRAPH_DICT dictPage 3 = .ok (.leaf twoValues) ∧
    Dict.encodeInner ⟨fun _ => 0, fun _ _ => 0⟩ GRAPH_DICT [([1, 97], 5), ([1, 98], 6)] 7 512 = some dictInner ∧
    Dict.decodeNode GRAPH_DICT dictInner 3 = .ok (.inner [([1, 97], 5), ([1, 98], 6)] 7) := by
  have hall := node_page_codecs ⟨fun _ => 0, fun _ _ => 0⟩ GRAPH_DICT 512 3 (by decide)
  have hcells : ∀ e ∈ twoCells, e.2.Pointed MAX_RECORD_LEN := by simp [twoCells, Cell.Pointed, MAX_RECORD_LEN]
  have hvalues : ∀ e ∈ twoValues, e.2.Pointed Dict.MAX_VALUE_LEN := by simp [twoValues, Cell.Pointed, Dict.MAX_VALUE_LEN]
  refine ⟨_, _, _, _, rfl, ?_, rfl, ?_, rfl, ?_, rfl, ?_⟩
  · exact (hall.1 _ _ (by unfold Sorted; decide) hcells rfl).1
  · exact (hall.2.1 _ _ _ (by unfold Sorted; decide) (by decide) (by decide) (by decide) rfl).1
  · exact hall.2.2.1 _ _ (by unfold Sorted; decide) hvalues rfl
  · exact hall.2.2.2.1 _ _ _ (by unfold Sorted; decide) (by decide) (by decide) (by decide) rfl

/-- A full page of the full-text dictionary: its only key leaves room for five bytes of
content, and the pointer after it takes thirteen. -/
def overrunPage : Bytes :=
  (PageHeader.mk .ftsDict 1 0).encodeInto (List.replicate 16 0) ++ Dict.NODE_LEAF ::
    (leBytes 2 480 ++ List.replicate 480 0 ++ Dict.encodeValue (.overflow 1000 7))

set_option maxRecDepth 100000 in
/-- Encoders write null pointers, and lengths past the record limit, that decoders refuse;
and the pointer of a dictionary entry may be read out of the trailer. -/
theorem node_codecs_null_and_overrun :
    (Btree.encodeInner [(zeroKey, 0)] 1 512).map (fun page => Btree.decodeNode page 3) =
      some (.error (.malformedPage 3 "null child")) ∧
    (Btree.encodeInner [(zeroKey, 1)] 0 512).map (fun page => Btree.decodeNode page 3) =
      some (.error (.malformedPage 3 "null rightmost child")) ∧
    (Btree.encodeLeaf [(zeroKey, .overflow 5000 0)] 512).map (fun page => Btree.decodeNode page 3) =
      some (.error (.malformedPage 3 "overflow cell")) ∧
    (Btree.encodeLeaf [(zeroKey, .overflow (MAX_RECORD_LEN + 1) 9)] 512).map (fun page => Btree.decodeNode page 3) =
      some (.error (.malformedPage 3 "overflow cell")) ∧
    (Dict.encodeInner ⟨fun _ => 0, fun _ _ => 0⟩ FTS_DICT [([1], 0)] 1 512).map
      (fun page => Dict.decodeNode FTS_DICT page 3) = some (.error (.malformedPage 3 "dict null child")) ∧
    (Dict.encodeInner ⟨fun _ => 0, fun _ _ => 0⟩ FTS_DICT [([1], 1)] 0 512).map
      (fun page => Dict.decodeNode FTS_DICT page 3) = some (.error (.malformedPage 3 "dict null rightmost child")) ∧
    (Dict.encodeLeaf ⟨fun _ => 0, fun _ _ => 0⟩ FTS_DICT [([1], .overflow 5000 0)] 512).map
      (fun page => Dict.decodeNode FTS_DICT page 3) = some (.error (.malformedPage 3 "dict null overflow page")) ∧
    overrunPage.length = 512 ∧
    Dict.decodeNode FTS_DICT overrunPage 3 = .ok (.leaf [(List.replicate 480 0, .overflow 1000 7)]) ∧
    overrunPage.length - PAGE_TRAILER_LEN <
      PAGE_HEADER_LEN + 1 + Dict.footprint (List.replicate 480 0, .overflow 1000 7) := by
  refine ⟨?_, ?_, ?_, ?_, ?_, ?_, ?_, ?_, ?_, ?_⟩ <;> decide +kernel

end EmbedMind
