import EmbedMind.Storage.Vfs

/-!
# Binary layout of the store file (`format.rs`, `docs/FORMAT.md`)

Constants, the common page header, page checksums, the header page and the WAL
framing. The checksum functions come from an external crate and are a parameter
(`Xxh3`); nothing here depends on which functions they are, except that a page
stamped with its checksum validates.

Integers are natural numbers; a field of `w` bytes stores its value modulo
`256 ^ w`, and `Header.Wf` says that every field of a header is within its width,
which is what the source's integer types say.
-/

namespace EmbedMind

open Lib

/-- The engine's typed errors (`error.rs`). -/
inductive Error where
  | io (e : IoError)
  | corruptPage (pageNo : Nat)
  | badHeader
  | unsupportedVersion (found supported : Nat)
  | encrypted
  | writeLocked
  | pageOutOfBounds (pageNo pageCount : Nat)
  | invalidArgument (what : String)
  | malformedPage (pageNo : Nat) (what : String)
  | malformedRecord (what : String)
  | internal (what : String)
deriving DecidableEq, Repr

/-- `Option::ok_or`. -/
def okOr {α : Type} (o : Option α) (e : Error) : Except Error α :=
  match o with
  | some a => .ok a
  | none => .error e

@[simp] theorem okOr_some {α : Type} (a : α) (e : Error) : okOr (some a) e = .ok a := rfl

/-- `ok_or` succeeds on a value, and only there. -/
theorem okOr_eq_ok {α : Type} {o : Option α} {e : Error} {a : α} :
    okOr o e = .ok a ↔ o = some a := by
  cases o <;> simp [okOr]

/-- The hash functions of the `xxhash` crate: `xxh3_64`, and the same with a seed. -/
structure Xxh3 where
  xxh3_64 : Bytes → UInt64
  withSeed : Nat → Bytes → UInt64

/-! ## Constants -/

def MAGIC : Bytes := [77, 73, 78, 68, 70, 77, 84, 49]
def WAL_MAGIC : Bytes := [77, 73, 78, 68, 87, 65, 76, 49]
def FORMAT_VERSION : Nat := 8
def DEFAULT_PAGE_SIZE : Nat := 4096
def MIN_PAGE_SIZE : Nat := 512
def MAX_PAGE_SIZE : Nat := 65536
def PAGE_TRAILER_LEN : Nat := 8
def MAX_MODEL_ID_LEN : Nat := 64
def WAL_HEADER_LEN : Nat := 32
def WAL_FRAME_HEADER_LEN : Nat := 32
def PAGE_HEADER_LEN : Nat := 16
def HEADER_PEEK_LEN : Nat := 16

/-- A power of two between the smallest and the largest page size. -/
def pageSizeIsValid (pageSize : Nat) : Bool :=
  decide (MIN_PAGE_SIZE ≤ pageSize ∧ pageSize ≤ MAX_PAGE_SIZE ∧ 2 ^ Nat.log2 pageSize = pageSize)

/-- The page sizes are the powers of two from 512 to 65536. -/
theorem pageSizeIsValid_iff {ps : Nat} : pageSizeIsValid ps = true ↔
    512 ≤ ps ∧ ps ≤ 65536 ∧ 2 ^ Nat.log2 ps = ps := by
  rw [pageSizeIsValid, decide_eq_true_iff]
  rfl

/-! ## Page types and the common page header -/

inductive PageType where
  | btreeInner | btreeLeaf | vector | hnswNode | hnswMeta | freelist | overflow
  | ftsDict | ftsPostings | graphDict | graphOverflow | filterMeta | filterSymbols
deriving DecidableEq, Repr

def PageType.toU8 : PageType → UInt8
  | .btreeInner => 0x01 | .btreeLeaf => 0x02 | .vector => 0x03 | .hnswNode => 0x04
  | .hnswMeta => 0x05 | .freelist => 0x06 | .overflow => 0x07 | .ftsDict => 0x08
  | .ftsPostings => 0x09 | .graphDict => 0x0A | .graphOverflow => 0x0B
  | .filterMeta => 0x0C | .filterSymbols => 0x0D

def PageType.fromU8 (v : UInt8) : Option PageType :=
  match v with
  | 0x01 => some .btreeInner | 0x02 => some .btreeLeaf | 0x03 => some .vector
  | 0x04 => some .hnswNode | 0x05 => some .hnswMeta | 0x06 => some .freelist
  | 0x07 => some .overflow | 0x08 => some .ftsDict | 0x09 => some .ftsPostings
  | 0x0A => some .graphDict | 0x0B => some .graphOverflow | 0x0C => some .filterMeta
  | 0x0D => some .filterSymbols | _ => none

/-- A page type is read back. -/
@[simp] theorem PageType.fromU8_toU8 (t : PageType) : PageType.fromU8 t.toU8 = some t := by
  cases t <;> rfl

/-- The 16-byte header of every page but page 0. -/
structure PageHeader where
  pageType : PageType
  entryCount : Nat
  nextPage : Nat
deriving DecidableEq, Repr

namespace PageHeader

def encodeInto (h : PageHeader) (page : Bytes) : Bytes :=
  splice (splice (splice page 0 [h.pageType.toU8, 0, 0, 0]) 4 (leBytes 4 h.entryCount)) 8
    (leBytes 8 h.nextPage)

def decode (page : Bytes) : Option PageHeader :=
  if page.length < PAGE_HEADER_LEN then none
  else do
    let tag ← page[0]?
    let pageType ← PageType.fromU8 tag
    let entryCount ← readLE page 4 4
    let nextPage ← readLE page 8 8
    some { pageType, entryCount, nextPage }

@[simp] theorem encodeInto_length (h : PageHeader) (page : Bytes) :
    (h.encodeInto page).length = page.length := by
  simp [encodeInto]

/-- Bytes past the header are left alone. -/
theorem slice_encodeInto (h : PageHeader) (page : Bytes) {o n : Nat} (ho : PAGE_HEADER_LEN ≤ o) :
    slice (h.encodeInto page) o n = slice page o n := by
  have ho' : 16 ≤ o := ho
  unfold encodeInto
  rw [slice_splice_disjoint (by simp; omega), slice_splice_disjoint (by simp; omega),
    slice_splice_disjoint (by simp; omega)]

/-- The header reads back, whatever is later written past it. -/
theorem decode_of_slice {h : PageHeader} {page page' : Bytes} (hlen : 16 ≤ page.length)
    (he : h.entryCount < 2 ^ 32) (hn : h.nextPage < 2 ^ 64)
    (hpage : slice page' 0 16 = slice (h.encodeInto page) 0 16) : decode page' = some h := by
  have hlen' : 16 ≤ page'.length := by
    have h1 : (slice (h.encodeInto page) 0 16).isSome = true :=
      slice_isSome.mpr (by simpa using hlen)
    rw [← hpage] at h1
    simpa using slice_isSome.mp h1
  have hsub : ∀ o n, o + n ≤ 16 → slice page' o n = slice (h.encodeInto page) o n := by
    intro o n hon
    have h2 : slice ((page'.drop 0).take 16) o n = slice page' (0 + o) n :=
      slice_take_drop (by omega) hon
    have h3 : slice (((h.encodeInto page).drop 0).take 16) o n =
        slice (h.encodeInto page) (0 + o) n :=
      slice_take_drop (by simpa using hlen) hon
    rw [slice_of_le (by omega), slice_of_le (by simpa using hlen)] at hpage
    rw [Option.some.inj hpage, h3] at h2
    simpa using h2.symm
  have htag : slice page' 0 1 = some [h.pageType.toU8] := by
    rw [hsub 0 1 (by omega)]
    unfold encodeInto
    rw [slice_splice_disjoint (by simp), slice_splice_disjoint (by simp)]
    have h4 : slice (splice page 0 [h.pageType.toU8, 0, 0, 0]) 0 4 =
        some [h.pageType.toU8, 0, 0, 0] := slice_splice_same rfl (by omega)
    have h5 : slice (((splice page 0 [h.pageType.toU8, 0, 0, 0]).drop 0).take 4) 0 1 =
        slice (splice page 0 [h.pageType.toU8, 0, 0, 0]) (0 + 0) 1 :=
      slice_take_drop (by simp; omega) (by omega)
    rw [(slice_eq_some.mp h4).2] at h5
    simpa [slice] using h5.symm
  have htag' : page'[0]? = some h.pageType.toU8 := by
    obtain ⟨_, heq⟩ := slice_eq_some.mp htag
    have := congrArg (fun l => l[0]?) heq
    simpa using this
  have hcount : readLE page' 4 4 = some h.entryCount := by
    rw [readLE, hsub 4 4 (by omega), ← readLE]
    unfold encodeInto
    rw [readLE_splice_disjoint (by simp)]
    exact readLE_splice_same (by omega) (by simp; omega)
  have hnext : readLE page' 8 8 = some h.nextPage := by
    rw [readLE, hsub 8 8 (by omega), ← readLE]
    exact readLE_splice_same (by omega) (by simp; omega)
  unfold decode
  rw [if_neg (by simp [PAGE_HEADER_LEN]; omega), htag', hcount, hnext]
  simp

/-- A write behind the header leaves it alone. -/
theorem decode_splice {page val : Bytes} {off : Nat} (ho : PAGE_HEADER_LEN ≤ off) :
    decode (splice page off val) = decode page := by
  have hoff : 16 ≤ off := ho
  have hfirst : (splice page off val)[0]? = page[0]? := by
    by_cases hfit : off + val.length ≤ page.length
    · rw [getElem?_splice_of_le hfit, if_neg (by omega)]
    · simp [splice, hfit]
  unfold decode
  rw [splice_length, hfirst, readLE_splice_disjoint (Or.inl (by omega)),
    readLE_splice_disjoint (Or.inl (by omega))]

/-- The fields of a header that was read fit their widths. -/
theorem decode_bounds {h : PageHeader} {page : Bytes} (hd : decode page = some h) :
    16 ≤ page.length ∧ h.entryCount < 2 ^ 32 ∧ h.nextPage < 2 ^ 64 := by
  unfold decode at hd
  split at hd
  · cases hd
  · rename_i hlen
    simp only [Option.bind_eq_bind, Option.bind_eq_some_iff] at hd
    obtain ⟨tag, _, ty, _, ec, hec, np, hnp, rfl⟩ := by simpa using hd
    have h1 := readLE_lt hec
    have h2 := readLE_lt hnp
    simp only [PAGE_HEADER_LEN] at hlen
    exact ⟨by omega, by omega, by omega⟩

end PageHeader

/-! ## Page checksums -/

section Checksums

variable (H : Xxh3)

def pageChecksum (page : Bytes) : UInt64 :=
  H.xxh3_64 (page.take (page.length - PAGE_TRAILER_LEN))

/-- Writes the checksum trailer into the last 8 bytes. -/
def stampPageChecksum (page : Bytes) : Bytes :=
  splice page (page.length - PAGE_TRAILER_LEN) (leBytes 8 (pageChecksum H page).toNat)

def pageChecksumIsValid (page : Bytes) : Bool :=
  if page.length < PAGE_TRAILER_LEN then false
  else readLE page (page.length - PAGE_TRAILER_LEN) 8 == some (pageChecksum H page).toNat

@[simp] theorem stampPageChecksum_length (page : Bytes) :
    (stampPageChecksum H page).length = page.length := by
  simp [stampPageChecksum]

/-- Stamping leaves what is before the trailer. -/
theorem slice_stampPageChecksum (page : Bytes) {o n : Nat}
    (h : o + n ≤ page.length - PAGE_TRAILER_LEN) :
    slice (stampPageChecksum H page) o n = slice page o n :=
  slice_splice_disjoint (Or.inl h)

/-- Stamping leaves all of the page before the trailer. -/
theorem take_stampPageChecksum (page : Bytes) :
    (stampPageChecksum H page).take (page.length - PAGE_TRAILER_LEN) =
      page.take (page.length - PAGE_TRAILER_LEN) := by
  have h := slice_stampPageChecksum H page (o := 0) (n := page.length - PAGE_TRAILER_LEN)
    (by omega)
  rw [slice_of_le (by simp), slice_of_le (by omega)] at h
  simpa using h

/-- A stamped page validates. -/
theorem pageChecksumIsValid_stamp {page : Bytes} (h : PAGE_TRAILER_LEN ≤ page.length) :
    pageChecksumIsValid H (stampPageChecksum H page) = true := by
  have hsum : pageChecksum H (stampPageChecksum H page) = pageChecksum H page := by
    unfold pageChecksum
    rw [stampPageChecksum_length, take_stampPageChecksum]
  unfold pageChecksumIsValid
  rw [stampPageChecksum_length, if_neg (by omega), hsum]
  have hread : readLE (stampPageChecksum H page) (page.length - PAGE_TRAILER_LEN) 8 =
      some (pageChecksum H page).toNat :=
    readLE_splice_same (pageChecksum H page).toNat_lt (by simp only [PAGE_TRAILER_LEN] at *; omega)
  rw [hread]
  exact beq_self_eq_true _

/-- Stamping a page twice is stamping it once. -/
theorem stampPageChecksum_idem (page : Bytes) :
    stampPageChecksum H (stampPageChecksum H page) = stampPageChecksum H page := by
  have hsum : pageChecksum H (stampPageChecksum H page) = pageChecksum H page := by
    unfold pageChecksum
    rw [stampPageChecksum_length, take_stampPageChecksum]
  have hout : stampPageChecksum H (stampPageChecksum H page) =
      splice (stampPageChecksum H page) (page.length - PAGE_TRAILER_LEN)
        (leBytes 8 (pageChecksum H page).toNat) := by
    rw [stampPageChecksum, hsum, stampPageChecksum_length]
  rw [hout, stampPageChecksum]
  by_cases hfit : page.length - PAGE_TRAILER_LEN + 8 ≤ page.length
  · apply List.ext_getElem?
    intro i
    rw [getElem?_splice_of_le (by simpa using hfit), getElem?_splice_of_le (by simpa using hfit)]
    split <;> rfl
  · simp [splice, hfit]

end Checksums

/-! ## The header page -/

structure Header where
  formatVersion : Nat
  pageSize : Nat
  pageCount : Nat
  rootBtreePage : Nat
  freelistPage : Nat
  hnswMetaPage : Nat
  ftsRootPage : Nat
  graphRootPage : Nat
  filterMetaPage : Nat
  filterSymbolsPage : Nat
  txnCounter : Nat
  embeddingDims : Nat
  embeddingQuant : Nat
  embeddingModelId : String
  flags : Nat
deriving DecidableEq

/-- Every field is within the width of its type, and the values that
`Header::decode` refuses do not occur. -/
structure Header.Wf (h : Header) : Prop where
  version_pos : 1 ≤ h.formatVersion
  version_le : h.formatVersion ≤ FORMAT_VERSION
  pageSize : pageSizeIsValid h.pageSize = true
  pageCount_pos : 1 ≤ h.pageCount
  pageCount : h.pageCount < 2 ^ 64
  rootBtree : h.rootBtreePage < 2 ^ 64
  freelist : h.freelistPage < 2 ^ 64
  hnswMeta : h.hnswMetaPage < 2 ^ 64
  ftsRoot : h.ftsRootPage < 2 ^ 64
  graphRoot : h.graphRootPage < 2 ^ 64
  filterMeta : h.filterMetaPage < 2 ^ 64
  filterSymbols : h.filterSymbolsPage < 2 ^ 64
  txnCounter : h.txnCounter < 2 ^ 64
  dims : h.embeddingDims < 2 ^ 16
  quant : h.embeddingQuant < 2 ^ 16
  modelId : (utf8 h.embeddingModelId).length ≤ MAX_MODEL_ID_LEN
  flags : h.flags < 2 ^ 32
  unencrypted : h.flags % 2 = 0

namespace Header

/-- The header of a newly created store. -/
def new (pageSize : Nat) : Except Error Header :=
  if pageSizeIsValid pageSize then
    .ok { formatVersion := FORMAT_VERSION, pageSize, pageCount := 1, rootBtreePage := 0,
          freelistPage := 0, hnswMetaPage := 0, ftsRootPage := 0, graphRootPage := 0,
          filterMetaPage := 0, filterSymbolsPage := 0, txnCounter := 0, embeddingDims := 0,
          embeddingQuant := 0, embeddingModelId := "", flags := 0 }
  else .error (.invalidArgument "unsupported page size")

/-- The recorded page size, from the first bytes of page 0. -/
def peekPageSize (pre : Bytes) : Except Error Nat :=
  if slice pre 0 8 ≠ some MAGIC then .error .badHeader
  else
    match readLE pre 12 4 with
    | none => .error .badHeader
    | some pageSize => if pageSizeIsValid pageSize then .ok pageSize else .error .badHeader

/-- The header fields at their offsets in a page of zeros. -/
def layout (h : Header) : Bytes :=
  let id := utf8 h.embeddingModelId
  let page := List.replicate h.pageSize 0
  let page := splice page 0 MAGIC
  let page := splice page 8 (leBytes 4 h.formatVersion)
  let page := splice page 12 (leBytes 4 h.pageSize)
  let page := splice page 16 (leBytes 8 h.pageCount)
  let page := splice page 24 (leBytes 8 h.rootBtreePage)
  let page := splice page 32 (leBytes 8 h.freelistPage)
  let page := splice page 40 (leBytes 8 h.hnswMetaPage)
  let page := splice page 48 (leBytes 8 h.txnCounter)
  let page := splice page 56 (leBytes 2 h.embeddingDims)
  let page := splice page 58 (leBytes 2 h.embeddingQuant)
  let page := splice page 60 (leBytes 4 id.length)
  let page := splice page 64 id
  let page := splice page 128 (leBytes 4 h.flags)
  let page := splice page 156 (leBytes 8 h.ftsRootPage)
  let page := splice page 164 (leBytes 8 h.graphRootPage)
  let page := splice page 172 (leBytes 8 h.filterMetaPage)
  splice page 180 (leBytes 8 h.filterSymbolsPage)

/-- Encodes the header into a page of `pageLen` bytes. -/
def encode (H : Xxh3) (h : Header) (pageLen : Nat) : Except Error Bytes :=
  if pageLen ≠ h.pageSize ∨ pageSizeIsValid h.pageSize = false then
    .error (.invalidArgument "header buffer must be one page")
  else if MAX_MODEL_ID_LEN < (utf8 h.embeddingModelId).length then
    .error (.invalidArgument "embedding_model_id exceeds 64 bytes")
  else if h.flags % 2 ≠ 0 then
    .error (.invalidArgument "encrypted flag is reserved in v1")
  else .ok (stampPageChecksum H h.layout)

/-- Decodes and validates page 0: magic, version policy, page size, checksum,
encryption flag, then the fields. -/
def decode (H : Xxh3) (page : Bytes) : Except Error Header :=
  if slice page 0 8 ≠ some MAGIC then .error .badHeader
  else do
    let formatVersion ← okOr (readLE page 8 4) .badHeader
    if formatVersion = 0 then .error .badHeader
    else if FORMAT_VERSION < formatVersion then
      .error (.unsupportedVersion formatVersion FORMAT_VERSION)
    else do
      let pageSize ← okOr (readLE page 12 4) .badHeader
      if pageSizeIsValid pageSize = false ∨ page.length ≠ pageSize then .error .badHeader
      else if pageChecksumIsValid H page = false then .error (.corruptPage 0)
      else do
        let flags ← okOr (readLE page 128 4) .badHeader
        if flags % 2 ≠ 0 then .error .encrypted
        else do
          let idLen ← okOr (readLE page 60 4) .badHeader
          if MAX_MODEL_ID_LEN < idLen then .error .badHeader
          else do
            let idBytes ← okOr (slice page 64 idLen) .badHeader
            let embeddingModelId ← okOr (ofUtf8? idBytes) .badHeader
            let pageCount ← okOr (readLE page 16 8) .badHeader
            if pageCount = 0 then .error .badHeader
            else do
              let rootBtreePage ← okOr (readLE page 24 8) .badHeader
              let freelistPage ← okOr (readLE page 32 8) .badHeader
              let hnswMetaPage ← okOr (readLE page 40 8) .badHeader
              let ftsRootPage ← okOr (readLE page 156 8) .badHeader
              let graphRootPage ← okOr (readLE page 164 8) .badHeader
              let filterMetaPage ← okOr (readLE page 172 8) .badHeader
              let filterSymbolsPage ← okOr (readLE page 180 8) .badHeader
              let txnCounter ← okOr (readLE page 48 8) .badHeader
              let embeddingDims ← okOr (readLE page 56 2) .badHeader
              let embeddingQuant ← okOr (readLE page 58 2) .badHeader
              .ok { formatVersion, pageSize, pageCount, rootBtreePage, freelistPage,
                    hnswMetaPage, ftsRootPage, graphRootPage, filterMetaPage,
                    filterSymbolsPage, txnCounter, embeddingDims, embeddingQuant,
                    embeddingModelId, flags }

@[simp] theorem layout_length (h : Header) : h.layout.length = h.pageSize := by
  simp [layout]

/-- A well-formed header is encoded as its stamped layout. -/
theorem encode_eq_ok {H : Xxh3} {h : Header} (hwf : h.Wf) :
    h.encode H h.pageSize = .ok (stampPageChecksum H h.layout) := by
  have hid : (utf8 h.embeddingModelId).length ≤ 64 := hwf.modelId
  unfold encode
  rw [if_neg (by simp [hwf.pageSize]), if_neg (by simp only [MAX_MODEL_ID_LEN]; omega),
    if_neg (by simp [hwf.unencrypted])]

/-- The image of page 0 that `encode` writes. -/
def image (H : Xxh3) (h : Header) : Bytes := stampPageChecksum H h.layout

@[simp] theorem image_length (H : Xxh3) (h : Header) : (h.image H).length = h.pageSize := by
  simp [image]

/-- The fields of the header page are those of its layout. -/
theorem readLE_image {H : Xxh3} {h : Header} (hwf : h.Wf) {o w : Nat} (ho : o + w ≤ 504) :
    readLE (h.image H) o w = readLE h.layout o w := by
  have hps := (pageSizeIsValid_iff.mp hwf.pageSize).1
  rw [readLE, readLE, image, slice_stampPageChecksum]
  simp only [layout_length, PAGE_TRAILER_LEN]
  omega

/-- The strings of the header page are those of its layout. -/
theorem slice_image {H : Xxh3} {h : Header} (hwf : h.Wf) {o n : Nat} (ho : o + n ≤ 504) :
    slice (h.image H) o n = slice h.layout o n := by
  have hps := (pageSizeIsValid_iff.mp hwf.pageSize).1
  rw [image, slice_stampPageChecksum]
  simp only [layout_length, PAGE_TRAILER_LEN]
  omega

/-- The fields of page 0, each read at its offset. -/
theorem image_fields {H : Xxh3} {h : Header} (hwf : h.Wf) :
    slice (h.image H) 0 8 = some MAGIC ∧
    readLE (h.image H) 8 4 = some h.formatVersion ∧
    readLE (h.image H) 12 4 = some h.pageSize ∧
    readLE (h.image H) 16 8 = some h.pageCount ∧
    readLE (h.image H) 24 8 = some h.rootBtreePage ∧
    readLE (h.image H) 32 8 = some h.freelistPage ∧
    readLE (h.image H) 40 8 = some h.hnswMetaPage ∧
    readLE (h.image H) 48 8 = some h.txnCounter ∧
    readLE (h.image H) 56 2 = some h.embeddingDims ∧
    readLE (h.image H) 58 2 = some h.embeddingQuant ∧
    readLE (h.image H) 60 4 = some (utf8 h.embeddingModelId).length ∧
    slice (h.image H) 64 (utf8 h.embeddingModelId).length = some (utf8 h.embeddingModelId) ∧
    readLE (h.image H) 128 4 = some h.flags ∧
    readLE (h.image H) 156 8 = some h.ftsRootPage ∧
    readLE (h.image H) 164 8 = some h.graphRootPage ∧
    readLE (h.image H) 172 8 = some h.filterMetaPage ∧
    readLE (h.image H) 180 8 = some h.filterSymbolsPage := by
  obtain ⟨hps, hpsle, _⟩ := pageSizeIsValid_iff.mp hwf.pageSize
  have hid : (utf8 h.embeddingModelId).length ≤ 64 := hwf.modelId
  have hv : h.formatVersion ≤ 8 := hwf.version_le
  have := hwf.pageCount
  have := hwf.rootBtree
  have := hwf.freelist
  have := hwf.hnswMeta
  have := hwf.ftsRoot
  have := hwf.graphRoot
  have := hwf.filterMeta
  have := hwf.filterSymbols
  have := hwf.txnCounter
  have := hwf.dims
  have := hwf.quant
  have := hwf.flags
  have hmagic : MAGIC.length = 8 := rfl
  refine ⟨?_, ?_, ?_, ?_, ?_, ?_, ?_, ?_, ?_, ?_, ?_, ?_, ?_, ?_, ?_, ?_, ?_⟩ <;>
    (first | rw [readLE_image hwf (by omega)] | rw [slice_image hwf (by omega)]) <;>
    simp only [layout] <;>
    repeat first
      | rw [readLE_splice_same (by omega) (by simp; omega)]
      | rw [slice_splice_same rfl (by simp; omega)]
      | rw [slice_splice_same hmagic (by simp; omega)]
      | rw [readLE_splice_disjoint (by (try simp only [leBytes_length]); omega)]
      | rw [slice_splice_disjoint (by (try simp only [leBytes_length]); omega)]

/-- Page 0 as encoded decodes to the header it encodes. -/
theorem decode_image {H : Xxh3} {h : Header} (hwf : h.Wf) : decode H (h.image H) = .ok h := by
  obtain ⟨hmagic, hver, hsize, hcount, hroot, hfree, hhnsw, htxn, hdims, hquant, hidlen, hid,
    hflags, hfts, hgraph, hmeta, hsym⟩ := image_fields (H := H) hwf
  have hidle : (utf8 h.embeddingModelId).length ≤ 64 := hwf.modelId
  have hps := (pageSizeIsValid_iff.mp hwf.pageSize).1
  have hvalid : pageChecksumIsValid H (h.image H) = true :=
    pageChecksumIsValid_stamp H (by simp [PAGE_TRAILER_LEN]; omega)
  have hv1 := hwf.version_pos
  have hv2 : h.formatVersion ≤ 8 := hwf.version_le
  have hpc := hwf.pageCount_pos
  unfold decode
  rw [hmagic]
  simp only [ne_eq, not_true_eq_false, if_false, hver, okOr_some, hsize,
    image_length, hvalid, hflags, hidlen, hid, ofUtf8?_utf8, hcount, hroot, hfree, hhnsw, hfts, hgraph, hmeta, hsym, htxn, hdims, hquant,
    hwf.pageSize, hwf.unencrypted, bind, Except.bind]
  rw [if_neg (by omega), if_neg (by simp only [FORMAT_VERSION]; omega), if_neg (by simp),
    if_neg (by simp), if_neg (by simp only [MAX_MODEL_ID_LEN]; omega), if_neg (by omega)]

/-- The first bytes of a header page give its page size. -/
theorem peekPageSize_of_slice {H : Xxh3} {h : Header} (hwf : h.Wf) {pre : Bytes}
    (hpre : slice (h.image H) 0 16 = some pre) : peekPageSize pre = .ok h.pageSize := by
  obtain ⟨hmagic, _, hsize, _⟩ := image_fields (H := H) hwf
  have hps := (pageSizeIsValid_iff.mp hwf.pageSize).1
  obtain ⟨hle, heq⟩ := slice_eq_some.mp hpre
  have hsub : ∀ o n, o + n ≤ 16 → slice pre o n = slice (h.image H) o n := by
    intro o n hon
    rw [← heq, slice_take_drop (by omega) hon, Nat.zero_add]
  unfold peekPageSize
  rw [hsub 0 8 (by omega), hmagic, readLE, hsub 12 4 (by omega), ← readLE, hsize]
  simp [hwf.pageSize]

end Header

/-! ## WAL framing -/

structure WalHeader where
  formatVersion : Nat
  pageSize : Nat
  salt : Nat
deriving DecidableEq

namespace WalHeader

def encode (h : WalHeader) : Bytes :=
  let buf := List.replicate WAL_HEADER_LEN 0
  let buf := splice buf 0 WAL_MAGIC
  let buf := splice buf 8 (leBytes 4 h.formatVersion)
  let buf := splice buf 12 (leBytes 4 h.pageSize)
  splice buf 16 (leBytes 8 h.salt)

/-- Decodes a WAL header as a build that supports the versions up to `maxVersion` does. -/
def decodeUpTo (maxVersion : Nat) (buf : Bytes) : Option WalHeader :=
  if slice buf 0 8 ≠ some WAL_MAGIC then none
  else do
    let formatVersion ← readLE buf 8 4
    let pageSize ← readLE buf 12 4
    if formatVersion = 0 ∨ maxVersion < formatVersion ∨ pageSizeIsValid pageSize = false then none
    else do
      let salt ← readLE buf 16 8
      some { formatVersion, pageSize, salt }

/-- `None` = not a valid WAL. -/
def decode (buf : Bytes) : Option WalHeader := decodeUpTo FORMAT_VERSION buf

@[simp] theorem encode_length (h : WalHeader) : h.encode.length = WAL_HEADER_LEN := by
  simp [encode]

theorem decode_encode {h : WalHeader} (hv : 1 ≤ h.formatVersion)
    (hv' : h.formatVersion ≤ FORMAT_VERSION) (hps : pageSizeIsValid h.pageSize = true)
    (hs : h.salt < 2 ^ 64) : decode h.encode = some h := by
  have hv8 : h.formatVersion ≤ 8 := hv'
  obtain ⟨_, hpsle, _⟩ := pageSizeIsValid_iff.mp hps
  have hmagic : slice h.encode 0 8 = some WAL_MAGIC := by
    simp only [encode]
    rw [slice_splice_disjoint (by simp), slice_splice_disjoint (by simp),
      slice_splice_disjoint (by simp)]
    exact slice_splice_same (by decide) (by simp [WAL_HEADER_LEN])
  have hver : readLE h.encode 8 4 = some h.formatVersion := by
    simp only [encode]
    rw [readLE_splice_disjoint (by simp), readLE_splice_disjoint (by simp),
      readLE_splice_same (by omega) (by simp [WAL_HEADER_LEN])]
  have hsize : readLE h.encode 12 4 = some h.pageSize := by
    simp only [encode]
    rw [readLE_splice_disjoint (by simp), readLE_splice_same (by omega) (by simp [WAL_HEADER_LEN])]
  have hsalt : readLE h.encode 16 8 = some h.salt := by
    simp only [encode]
    rw [readLE_splice_same (by omega) (by simp [WAL_HEADER_LEN])]
  unfold decode decodeUpTo
  rw [hmagic, hver, hsize, hsalt]
  simp only [ne_eq, not_true_eq_false, if_false, Option.bind_eq_bind, Option.bind_some, hps]
  rw [if_neg (by simp; omega)]

end WalHeader

structure WalFrameHeader where
  pageNo : Nat
  txnId : Nat
  commit : Bool
deriving DecidableEq

section Frames

variable (H : Xxh3)

/-- Seeded with the salt, over the first 24 header bytes and the page image. -/
def frameChecksum (frameHeader pageImage : Bytes) (salt : Nat) : UInt64 :=
  H.withSeed salt (frameHeader.take 24 ++ pageImage)

/-- The checksummed part of a frame header, in a 32-byte buffer of zeros. -/
def WalFrameHeader.layout (h : WalFrameHeader) : Bytes :=
  let buf := List.replicate WAL_FRAME_HEADER_LEN 0
  let buf := splice buf 0 (leBytes 8 h.pageNo)
  let buf := splice buf 8 (leBytes 8 h.txnId)
  splice buf 16 [if h.commit then 1 else 0]

def WalFrameHeader.encode (h : WalFrameHeader) (pageImage : Bytes) (salt : Nat) : Bytes :=
  splice h.layout 24 (leBytes 8 (frameChecksum H h.layout pageImage salt).toNat)

/-- `None` = invalid frame, which ends the valid prefix of the log. -/
def WalFrameHeader.decode (buf pageImage : Bytes) (salt : Nat) : Option WalFrameHeader :=
  if buf.length < WAL_FRAME_HEADER_LEN then none
  else do
    let stored ← readLE buf 24 8
    if stored ≠ (frameChecksum H buf pageImage salt).toNat then none
    else do
      let commitByte : UInt8 ← buf[16]?
      if 1 < commitByte then none
      else do
        let pageNo ← readLE buf 0 8
        let txnId ← readLE buf 8 8
        some { pageNo, txnId, commit := commitByte == 1 }

namespace WalFrameHeader

@[simp] theorem encode_length (h : WalFrameHeader) (pageImage : Bytes) (salt : Nat) :
    (h.encode H pageImage salt).length = WAL_FRAME_HEADER_LEN := by
  simp [encode, layout]

theorem decode_encode {h : WalFrameHeader} (hp : h.pageNo < 2 ^ 64) (ht : h.txnId < 2 ^ 64)
    (pageImage : Bytes) (salt : Nat) :
    decode H (h.encode H pageImage salt) pageImage salt = some h := by
  have hlen : h.layout.length = 32 := by simp [layout, WAL_FRAME_HEADER_LEN]
  have htake : (h.encode H pageImage salt).take 24 = h.layout.take 24 := by
    have h1 : slice (h.encode H pageImage salt) 0 24 = slice h.layout 0 24 :=
      slice_splice_disjoint (Or.inl (by omega))
    rw [slice_of_le (by simp [WAL_FRAME_HEADER_LEN]), slice_of_le (by omega)] at h1
    simpa using h1
  have hsum : frameChecksum H (h.encode H pageImage salt) pageImage salt =
      frameChecksum H h.layout pageImage salt := by
    simp only [frameChecksum, htake]
  have hstored : readLE (h.encode H pageImage salt) 24 8 =
      some (frameChecksum H h.layout pageImage salt).toNat :=
    readLE_splice_same (UInt64.toNat_lt _) (by omega)
  have hcommit : (h.encode H pageImage salt)[16]? = some (if h.commit then 1 else 0) := by
    rw [encode, getElem?_splice_of_le (by simp [hlen]), if_neg (by simp)]
    simp only [layout]
    rw [getElem?_splice_of_le (by simp [WAL_FRAME_HEADER_LEN]), if_pos (by simp)]
    rfl
  have hpage : readLE (h.encode H pageImage salt) 0 8 = some h.pageNo := by
    simp only [encode, layout]
    rw [readLE_splice_disjoint (by simp), readLE_splice_disjoint (by simp),
      readLE_splice_disjoint (by simp), readLE_splice_same (by omega) (by simp [WAL_FRAME_HEADER_LEN])]
  have htxn : readLE (h.encode H pageImage salt) 8 8 = some h.txnId := by
    simp only [encode, layout]
    rw [readLE_splice_disjoint (by simp), readLE_splice_disjoint (by simp),
      readLE_splice_same (by omega) (by simp [WAL_FRAME_HEADER_LEN])]
  unfold decode
  rw [if_neg (by simp), hstored, hsum, hcommit, hpage, htxn]
  obtain ⟨pageNo, txnId, commit⟩ := h
  cases commit <;> simp

end WalFrameHeader

end Frames

end EmbedMind
