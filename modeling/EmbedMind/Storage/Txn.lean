import EmbedMind.Format
import EmbedMind.Lib.Assoc

/-!
# Transactions (`storage/pager.rs`: `Txn`, `PendingHeader`)

A `Committed` value is one committed state of a store: the header and the image
of every other page. A `Txn` buffers its writes over such a state; `Txn.commit`
says which state it commits to, and dropping it leaves the base state as it is.
How a commit reaches the disk is the pager's matter (`Storage.Pager`).

`Txn.Wf` is the invariant of the buffer: dirty pages are stamped, one page long
and within bounds, and every page the transaction has allocated is dirty.
-/

namespace EmbedMind

open Lib Lib.Assoc

/-- `u64::saturating_add`. -/
def saturatingAdd (a b : Nat) : Nat := min (a + b) (2 ^ 64 - 1)

theorem saturatingAdd_lt (a b : Nat) : saturatingAdd a b < 2 ^ 64 := by
  unfold saturatingAdd
  omega

/-- One committed state: page 0 as a header, the other pages as their images. -/
structure Committed where
  header : Header
  pages : Nat → Bytes

namespace Committed

/-- The image of a page; page 0 is the encoded header. -/
def image (H : Xxh3) (c : Committed) (pageNo : Nat) : Bytes :=
  if pageNo = 0 then c.header.image H else c.pages pageNo

@[simp] theorem image_zero (H : Xxh3) (c : Committed) : c.image H 0 = c.header.image H := by
  simp [image]

/-- `Pager::read_page` on this state. -/
def readPage (H : Xxh3) (c : Committed) (pageNo : Nat) : Except Error Bytes :=
  if c.header.pageCount ≤ pageNo then .error (.pageOutOfBounds pageNo c.header.pageCount)
  else if pageChecksumIsValid H (c.image H pageNo) = false then .error (.corruptPage pageNo)
  else .ok (c.image H pageNo)

/-- The header is well formed and every page is one valid page. -/
structure Wf (H : Xxh3) (c : Committed) : Prop where
  header : c.header.Wf
  page : ∀ n, 0 < n → n < c.header.pageCount →
    (c.pages n).length = c.header.pageSize ∧ pageChecksumIsValid H (c.pages n) = true

/-- The pages of a state have one length. -/
theorem Wf.image_length {H : Xxh3} {c : Committed} (h : c.Wf H) {n : Nat}
    (hn : n < c.header.pageCount) : (c.image H n).length = c.header.pageSize := by
  unfold image
  split
  · simp
  · exact (h.page n (by omega) hn).1

/-- The pages of a state have valid checksums. -/
theorem Wf.image_valid {H : Xxh3} {c : Committed} (h : c.Wf H) {n : Nat}
    (hn : n < c.header.pageCount) : pageChecksumIsValid H (c.image H n) = true := by
  unfold image
  split
  · refine pageChecksumIsValid_stamp H ?_
    have := (pageSizeIsValid_iff.mp h.header.pageSize).1
    simp only [Header.layout_length, PAGE_TRAILER_LEN]
    omega
  · exact (h.page n (by omega) hn).2

/-- Reading a page of a state succeeds. -/
theorem Wf.readPage_eq {H : Xxh3} {c : Committed} (h : c.Wf H) {n : Nat}
    (hn : n < c.header.pageCount) : c.readPage H n = .ok (c.image H n) := by
  unfold readPage
  rw [if_neg (by omega), if_neg (by simp [h.image_valid hn])]

/-- The state of a newly created store. -/
def fresh (formatVersion pageSize : Nat) : Committed where
  header :=
    { formatVersion, pageSize, pageCount := 1, rootBtreePage := 0, freelistPage := 0,
      hnswMetaPage := 0, ftsRootPage := 0, graphRootPage := 0, filterMetaPage := 0,
      filterSymbolsPage := 0, txnCounter := 0, embeddingDims := 0, embeddingQuant := 0,
      embeddingModelId := "", flags := 0 }
  pages := fun _ => []

/-- A new state is well formed. -/
theorem wf_fresh (H : Xxh3) {version pageSize : Nat} (hv : 1 ≤ version)
    (hv' : version ≤ FORMAT_VERSION) (hps : pageSizeIsValid pageSize = true) :
    (fresh version pageSize).Wf H := by
  constructor
  · constructor <;> first | exact hv | exact hv' | exact hps | simp [fresh]
  · intro n h0 h1
    have : n < 1 := h1
    omega

end Committed

/-- The header fields a transaction will move. -/
structure PendingHeader where
  rootBtree : Option Nat := none
  hnswMeta : Option Nat := none
  ftsRoot : Option Nat := none
  graphRoot : Option Nat := none
  filterMeta : Option Nat := none
  filterSymbols : Option Nat := none
  embedding : Option (String × Nat) := none

namespace PendingHeader

def isEmpty (p : PendingHeader) : Bool :=
  p.rootBtree.isNone && p.hnswMeta.isNone && p.ftsRoot.isNone && p.graphRoot.isNone &&
    p.filterMeta.isNone && p.filterSymbols.isNone && p.embedding.isNone

/-- The header `commit_txn` writes as the commit frame. -/
def apply (p : PendingHeader) (h : Header) (newPageCount : Nat) : Header :=
  { h with
    pageCount := newPageCount
    rootBtreePage := p.rootBtree.getD h.rootBtreePage
    hnswMetaPage := p.hnswMeta.getD h.hnswMetaPage
    ftsRootPage := p.ftsRoot.getD h.ftsRootPage
    graphRootPage := p.graphRoot.getD h.graphRootPage
    filterMetaPage := p.filterMeta.getD h.filterMetaPage
    filterSymbolsPage := p.filterSymbols.getD h.filterSymbolsPage
    embeddingModelId := (p.embedding.map Prod.fst).getD h.embeddingModelId
    embeddingDims := (p.embedding.map Prod.snd).getD h.embeddingDims
    txnCounter := (h.txnCounter + 1) % 2 ^ 64 }

/-- Every pending value is within the width of its header field. -/
structure Wf (p : PendingHeader) : Prop where
  rootBtree : ∀ n ∈ p.rootBtree, n < 2 ^ 64
  hnswMeta : ∀ n ∈ p.hnswMeta, n < 2 ^ 64
  ftsRoot : ∀ n ∈ p.ftsRoot, n < 2 ^ 64
  graphRoot : ∀ n ∈ p.graphRoot, n < 2 ^ 64
  filterMeta : ∀ n ∈ p.filterMeta, n < 2 ^ 64
  filterSymbols : ∀ n ∈ p.filterSymbols, n < 2 ^ 64
  embedding : ∀ e ∈ p.embedding, (utf8 e.1).length ≤ MAX_MODEL_ID_LEN ∧ e.2 < 2 ^ 16

theorem wf_empty : ({} : PendingHeader).Wf := by
  constructor <;> simp

theorem getD_lt {o : Option Nat} {d b : Nat} (ho : ∀ n ∈ o, n < b) (hd : d < b) :
    o.getD d < b := by
  cases o with
  | none => exact hd
  | some n => exact ho n rfl

/-- Applying well-formed updates keeps the header well formed. -/
theorem Wf.apply {p : PendingHeader} (hp : p.Wf) {h : Header} (hh : h.Wf) {count : Nat}
    (hpos : 1 ≤ count) (hlt : count < 2 ^ 64) : (p.apply h count).Wf where
  version_pos := hh.version_pos
  version_le := hh.version_le
  pageSize := hh.pageSize
  pageCount_pos := hpos
  pageCount := hlt
  rootBtree := getD_lt hp.rootBtree hh.rootBtree
  freelist := hh.freelist
  hnswMeta := getD_lt hp.hnswMeta hh.hnswMeta
  ftsRoot := getD_lt hp.ftsRoot hh.ftsRoot
  graphRoot := getD_lt hp.graphRoot hh.graphRoot
  filterMeta := getD_lt hp.filterMeta hh.filterMeta
  filterSymbols := getD_lt hp.filterSymbols hh.filterSymbols
  txnCounter := Nat.mod_lt _ (by norm_num)
  dims := by
    obtain ⟨_, _, _, _, _, _, emb⟩ := p
    cases emb with
    | none => exact hh.dims
    | some e => exact (hp.embedding e rfl).2
  quant := hh.quant
  modelId := by
    obtain ⟨_, _, _, _, _, _, emb⟩ := p
    cases emb with
    | none => exact hh.modelId
    | some e => exact (hp.embedding e rfl).1
  flags := hh.flags
  unencrypted := hh.unencrypted

end PendingHeader

/-- A transaction: buffered page writes over a committed state. The dirty pages
are kept in ascending page order, as the source's `BTreeMap` keeps them. -/
structure Txn where
  base : Committed
  dirty : List (Nat × Bytes) := []
  pageCount : Nat
  pending : PendingHeader := {}

namespace Txn

/-- `Pager::begin`. -/
def begin (c : Committed) : Txn := { base := c, pageCount := c.header.pageCount }

def pageSize (t : Txn) : Nat := t.base.header.pageSize

def formatVersion (t : Txn) : Nat := t.base.header.formatVersion

def rootBtreePage (t : Txn) : Nat := t.pending.rootBtree.getD t.base.header.rootBtreePage

def hnswMetaPage (t : Txn) : Nat := t.pending.hnswMeta.getD t.base.header.hnswMetaPage

def ftsRootPage (t : Txn) : Nat := t.pending.ftsRoot.getD t.base.header.ftsRootPage

def graphRootPage (t : Txn) : Nat := t.pending.graphRoot.getD t.base.header.graphRootPage

def filterMetaPage (t : Txn) : Nat := t.pending.filterMeta.getD t.base.header.filterMetaPage

def filterSymbolsPage (t : Txn) : Nat :=
  t.pending.filterSymbols.getD t.base.header.filterSymbolsPage

section Operations

variable (H : Xxh3)

/-- A fresh page at the end of the file, zeroed and stamped. -/
def allocatePage (t : Txn) : Except Error (Nat × Txn) :=
  if t.pageCount + 1 < 2 ^ 64 then
    .ok (t.pageCount,
      { t with
        pageCount := t.pageCount + 1
        dirty := insertKey t.pageCount (stampPageChecksum H (List.replicate t.pageSize 0)) t.dirty })
  else .error (.invalidArgument "page count overflow")

def writePage (t : Txn) (pageNo : Nat) (data : Bytes) : Except Error Txn :=
  if data.length ≠ t.pageSize then
    .error (.invalidArgument "page write must be exactly one page")
  else if pageNo = 0 then
    .error (.invalidArgument "page 0 (header) is managed by the pager")
  else if t.pageCount ≤ pageNo then .error (.pageOutOfBounds pageNo t.pageCount)
  else .ok { t with dirty := insertKey pageNo (stampPageChecksum H data) t.dirty }

/-- A page as the transaction sees it, its own writes included. -/
def readPage (t : Txn) (pageNo : Nat) : Except Error Bytes :=
  match find pageNo t.dirty with
  | some page => .ok page
  | none =>
      if t.pageCount ≤ pageNo then .error (.pageOutOfBounds pageNo t.pageCount)
      else t.base.readPage H pageNo

def setRootBtreePage (t : Txn) (n : Nat) : Txn :=
  { t with pending := { t.pending with rootBtree := some n } }

def setHnswMetaPage (t : Txn) (n : Nat) : Txn :=
  { t with pending := { t.pending with hnswMeta := some n } }

def setFtsRootPage (t : Txn) (n : Nat) : Txn :=
  { t with pending := { t.pending with ftsRoot := some n } }

def setGraphRootPage (t : Txn) (n : Nat) : Txn :=
  { t with pending := { t.pending with graphRoot := some n } }

def setFilterMetaPage (t : Txn) (n : Nat) : Txn :=
  { t with pending := { t.pending with filterMeta := some n } }

def setFilterSymbolsPage (t : Txn) (n : Nat) : Txn :=
  { t with pending := { t.pending with filterSymbols := some n } }

def setEmbeddingModel (t : Txn) (modelId : String) (dims : Nat) : Except Error Txn :=
  if MAX_MODEL_ID_LEN < (utf8 modelId).length then
    .error (.invalidArgument "embedding_model_id exceeds 64 bytes")
  else .ok { t with pending := { t.pending with embedding := some (modelId, dims) } }

/-- Nothing to commit. -/
def isEmpty (t : Txn) : Bool :=
  t.dirty.isEmpty && t.pageCount == t.base.header.pageCount && t.pending.isEmpty

/-- The header of the commit frame. -/
def newHeader (t : Txn) : Header := t.pending.apply t.base.header t.pageCount

/-- The state the transaction commits to. -/
def commit (t : Txn) : Committed :=
  if t.isEmpty then t.base
  else { header := t.newHeader, pages := fun n => (find n t.dirty).getD (t.base.pages n) }

end Operations

/-! ## The invariant of the buffer -/

/-- A stamped page of the transaction's page size. -/
def GoodPage (H : Xxh3) (t : Txn) (page : Bytes) : Prop :=
  page.length = t.pageSize ∧ pageChecksumIsValid H page = true

structure Wf (H : Xxh3) (t : Txn) : Prop where
  base : t.base.Wf H
  sorted : Sorted t.dirty
  dirty : ∀ e ∈ t.dirty, 0 < e.1 ∧ e.1 < t.pageCount ∧ t.GoodPage H e.2
  grows : t.base.header.pageCount ≤ t.pageCount
  bound : t.pageCount < 2 ^ 64
  fresh : ∀ n, t.base.header.pageCount ≤ n → n < t.pageCount → ∃ page, find n t.dirty = some page
  pending : t.pending.Wf

section Invariant

variable {H : Xxh3} {t t' : Txn}

/-- A new transaction is well formed. -/
theorem wf_begin {c : Committed} (hc : c.Wf H) : (begin c).Wf H where
  base := hc
  sorted := List.Pairwise.nil
  dirty := by simp [begin]
  grows := le_refl _
  bound := hc.header.pageCount
  fresh := by
    intro n h1 h2
    exact absurd h2 (not_lt.mpr h1)
  pending := PendingHeader.wf_empty

/-- The page size of a transaction. -/
theorem Wf.pageSize_bounds (h : t.Wf H) : 512 ≤ t.pageSize ∧ t.pageSize ≤ 65536 := by
  obtain ⟨h1, h2, _⟩ := pageSizeIsValid_iff.mp h.base.header.pageSize
  exact ⟨h1, h2⟩

theorem Wf.pageCount_pos (h : t.Wf H) : 1 ≤ t.pageCount :=
  le_trans h.base.header.pageCount_pos h.grows

/-- A stamped page can be buffered. -/
theorem goodPage_stamp (h : t.Wf H) {page : Bytes} (hlen : page.length = t.pageSize) :
    t.GoodPage H (stampPageChecksum H page) := by
  refine ⟨by simpa using hlen, pageChecksumIsValid_stamp H ?_⟩
  have := h.pageSize_bounds.1
  simp only [PAGE_TRAILER_LEN]
  omega

/-- Buffering a page keeps the buffer well formed. -/
theorem Wf.insertDirty (h : t.Wf H) {n count : Nat} {page : Bytes} (h0 : 0 < n) (hn : n < count)
    (hpage : t.GoodPage H page) (hgrow : t.pageCount ≤ count) (hbound : count < 2 ^ 64)
    (hfresh : ∀ m, t.pageCount ≤ m → m < count → m = n) :
    ({ t with pageCount := count, dirty := insertKey n page t.dirty } : Txn).Wf H where
  base := h.base
  sorted := sorted_insertKey h.sorted
  dirty := by
    intro e he
    rcases mem_insertKey he with rfl | he
    · exact ⟨h0, hn, hpage⟩
    · obtain ⟨h1, h2, h3⟩ := h.dirty e he
      exact ⟨h1, lt_of_lt_of_le h2 hgrow, h3⟩
  grows := le_trans h.grows hgrow
  bound := hbound
  fresh := by
    intro m h1 h2
    by_cases hm : m = n
    · exact ⟨page, by simp [hm]⟩
    · obtain ⟨q, hq⟩ := h.fresh m h1 (by
        by_contra hlt
        exact hm (hfresh m (by omega) h2))
      exact ⟨q, by simpa [find_insertKey, hm] using hq⟩
  pending := h.pending

/-- Allocating keeps it well formed. -/
theorem Wf.allocatePage (h : t.Wf H) {n : Nat} (ha : t.allocatePage H = .ok (n, t')) :
    t'.Wf H := by
  unfold Txn.allocatePage at ha
  split at ha
  · rename_i hlt
    cases ha
    refine h.insertDirty h.pageCount_pos (by omega) (goodPage_stamp h (by simp)) (by omega) hlt ?_
    intro m h1 h2
    omega
  · cases ha

/-- Writing keeps it well formed. -/
theorem Wf.writePage (h : t.Wf H) {n : Nat} {data : Bytes} (hw : t.writePage H n data = .ok t') :
    t'.Wf H := by
  unfold Txn.writePage at hw
  split_ifs at hw with h1 h2 h3
  cases hw
  refine h.insertDirty (by omega) (by omega) (goodPage_stamp h (not_not.mp h1)) (le_refl _) h.bound ?_
  intro m h4 h5
  omega

/-- Setting header fields keeps it well formed. -/
theorem Wf.withPending (h : t.Wf H) {p : PendingHeader} (hp : p.Wf) :
    ({ t with pending := p } : Txn).Wf H :=
  { h with pending := hp }

/-- What a well-formed transaction commits to is a well-formed state. -/
theorem Wf.commit (h : t.Wf H) : t.commit.Wf H := by
  unfold Txn.commit
  split
  · exact h.base
  · refine ⟨h.pending.apply h.base.header h.pageCount_pos h.bound, ?_⟩
    intro n h0 hn
    have hn' : n < t.pageCount := hn
    show t.GoodPage H ((find n t.dirty).getD (t.base.pages n))
    cases hf : find n t.dirty with
    | some page => exact (h.dirty _ (mem_of_find hf)).2.2
    | none =>
        refine h.base.page n h0 ?_
        by_contra hge
        obtain ⟨q, hq⟩ := h.fresh n (by omega) hn'
        rw [hf] at hq
        cases hq

end Invariant

/-! ## The frames of a commit -/

/-- What `commit_txn` logs: the dirty pages, then the header page. -/
def frames (H : Xxh3) (t : Txn) : List (Nat × Bytes) := t.dirty ++ [(0, t.newHeader.image H)]

section Frames

variable {H : Xxh3} {t : Txn}

theorem newHeader_pageSize : t.newHeader.pageSize = t.pageSize := rfl

/-- The header of a commit. -/
theorem commit_header (hne : t.isEmpty = false) : t.commit.header = t.newHeader := by
  simp [commit, hne]

/-- The pages of a commit. -/
theorem commit_pages (hne : t.isEmpty = false) (n : Nat) :
    t.commit.pages n = (find n t.dirty).getD (t.base.pages n) := by
  simp [commit, hne]

/-- An empty transaction commits to its base. -/
theorem commit_of_isEmpty (hne : t.isEmpty = true) : t.commit = t.base := by
  simp [commit, hne]

/-- The frames of a commit are within bounds. -/
theorem Wf.frames_ok (h : t.Wf H) {page : Nat × Bytes} (hp : page ∈ t.frames H) :
    page.1 < t.pageCount ∧ page.2.length = t.pageSize := by
  rcases List.mem_append.mp hp with hd | hd
  · obtain ⟨_, h2, h3⟩ := h.dirty page hd
    exact ⟨h2, h3.1⟩
  · obtain rfl := List.mem_singleton.mp hd
    refine ⟨h.pageCount_pos, ?_⟩
    rw [Header.image_length, newHeader_pageSize]

/-- A commit logs each page once. -/
theorem Wf.frames_nodup (h : t.Wf H) : ((t.frames H).map Prod.fst).Nodup := by
  simp only [frames, List.map_append, List.map_cons, List.map_nil]
  refine List.Nodup.append h.sorted.nodup_keys (List.nodup_singleton 0) ?_
  intro n hn h0
  obtain ⟨e, he, h1⟩ := List.mem_map.mp hn
  have h2 := (h.dirty e he).1
  have h3 := List.mem_singleton.mp h0
  omega

/-- A logged page has the logged image in the state committed to. -/
theorem Wf.commit_image_of_mem (h : t.Wf H) (hne : t.isEmpty = false) {page : Nat × Bytes}
    (hp : page ∈ t.frames H) : t.commit.image H page.1 = page.2 := by
  rcases List.mem_append.mp hp with hd | hd
  · have h0 := (h.dirty page hd).1
    have hf := find_of_mem h.sorted.nodup_keys hd
    simp only [Committed.image, commit_pages hne, hf]
    rw [if_neg (by omega)]
    rfl
  · obtain rfl := List.mem_singleton.mp hd
    rw [Committed.image_zero, commit_header hne]

/-- Every other page is as it was. -/
theorem Wf.commit_image_of_not_mem (h : t.Wf H) (hne : t.isEmpty = false) {n : Nat}
    (hn : ∀ page ∈ t.frames H, page.1 ≠ n) (hlt : n < t.pageCount) :
    n < t.base.header.pageCount ∧ t.commit.image H n = t.base.image H n := by
  have h0 : n ≠ 0 := fun h0 => hn (0, t.newHeader.image H) (by simp [frames]) h0.symm
  have hf : find n t.dirty = none :=
    find_eq_none.mpr fun e he => hn e (List.mem_append_left _ he)
  refine ⟨?_, ?_⟩
  · by_contra hge
    obtain ⟨q, hq⟩ := h.fresh n (by omega) hlt
    rw [hf] at hq
    cases hq
  · simp [Committed.image, commit_pages hne, h0, hf]

end Frames

end Txn

end EmbedMind
