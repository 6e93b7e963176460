import EmbedMind.Decoders
import EmbedMind.Index.HnswProof

/-!
# The header page and the pages of the vector index, as bytes

What is encoded is read back, and every page, whatever its bytes are, is decoded to a
well-formed value or refused with a typed error.
-/

namespace EmbedMind

open Lib

/-! ## The header page -/

/-- What `Header::decode` refuses a page with. -/
inductive HeaderRefusal : Error → Prop
  | badHeader : HeaderRefusal .badHeader
  | unsupportedVersion (found : Nat) (h : FORMAT_VERSION < found) :
      HeaderRefusal (.unsupportedVersion found FORMAT_VERSION)
  | corruptPage : HeaderRefusal (.corruptPage 0)
  | encrypted : HeaderRefusal .encrypted

/-- Page 0 is refused, or its header is within the format's bounds. -/
theorem Header.decode_ends (H : Xxh3) (page : Bytes) :
    Ends (fun h : Header => h.Wf ∧ h.pageSize = page.length) HeaderRefusal (Header.decode H page) := by
  have hbad : HeaderRefusal .badHeader := .badHeader
  unfold Header.decode
  refine Ends.ite ?_ ?_
  · intro _
    exact Ends.error hbad
  intro _
  refine ends_field hbad ?_
  intro version _
  refine Ends.ite ?_ ?_
  · intro _
    exact Ends.error hbad
  intro hversion
  refine Ends.ite ?_ ?_
  · intro hnew
    exact Ends.error (.unsupportedVersion version hnew)
  intro hold
  refine ends_field hbad ?_
  intro pageSize _
  refine Ends.ite ?_ ?_
  · intro _
    exact Ends.error hbad
  intro hsize
  refine Ends.ite ?_ ?_
  · intro _
    exact Ends.error .corruptPage
  intro _
  refine ends_field hbad ?_
  intro flags hflags
  refine Ends.ite ?_ ?_
  · intro _
    exact Ends.error .encrypted
  intro hplain
  refine ends_field hbad ?_
  intro idLen _
  refine Ends.ite ?_ ?_
  · intro _
    exact Ends.error hbad
  intro hidLen
  refine ends_present hbad ?_
  intro idBytes hidBytes
  refine ends_present hbad ?_
  intro modelId hmodelId
  refine ends_field hbad ?_
  intro pageCount hpageCount
  refine Ends.ite ?_ ?_
  · intro _
    exact Ends.error hbad
  intro hcount
  -- the rest of the fields may be anything
  refine ends_field hbad ?_
  intro rootBtree hrootBtree
  refine ends_field hbad ?_
  intro freelist hfreelist
  refine ends_field hbad ?_
  intro hnswMeta hhnswMeta
  refine ends_field hbad ?_
  intro ftsRoot hftsRoot
  refine ends_field hbad ?_
  intro graphRoot hgraphRoot
  refine ends_field hbad ?_
  intro filterMeta hfilterMeta
  refine ends_field hbad ?_
  intro filterSymbols hfilterSymbols
  refine ends_field hbad ?_
  intro txnCounter htxnCounter
  refine ends_field hbad ?_
  intro dims hdims
  refine ends_field hbad ?_
  intro quant hquant
  simp only [not_or, not_not, Bool.not_eq_false] at hsize hplain
  have hid : (utf8 modelId).length ≤ MAX_MODEL_ID_LEN := by
    rw [utf8_of_ofUtf8? hmodelId, slice_length hidBytes]
    exact not_lt.mp hidLen
  refine Ends.ok ⟨?_, hsize.2.symm⟩
  exact {
    version_pos := Nat.pos_of_ne_zero hversion
    version_le := not_lt.mp hold
    pageSize := hsize.1
    pageCount_pos := Nat.pos_of_ne_zero hcount
    pageCount := hpageCount
    rootBtree := hrootBtree
    freelist := hfreelist
    hnswMeta := hhnswMeta
    ftsRoot := hftsRoot
    graphRoot := hgraphRoot
    filterMeta := hfilterMeta
    filterSymbols := hfilterSymbols
    txnCounter := htxnCounter
    dims := hdims
    quant := hquant
    modelId := hid
    flags := hflags
    unencrypted := hplain }

namespace Hnsw

/-! ## Node and meta pages -/

/-- Neighbours are decoded as page numbers, or the page is malformed. -/
theorem decodeNeighbors_ends (page : Bytes) (pageNo count off : Nat) :
    Ends (fun list => ∀ n ∈ list, n ≠ 0 ∧ n < 2 ^ 64) (Malformed pageNo)
      (HnswNode.decodeNeighbors page pageNo count off) := by
  induction count generalizing off with
  | zero =>
      refine Ends.ok ?_
      intro n hn
      cases hn
  | succ count ih =>
      refine ends_field ⟨_, rfl⟩ ?_
      intro n hn
      refine Ends.ite ?_ ?_
      · intro _
        exact ends_malformed _ _
      intro hne
      refine Ends.bind (ih (off + 8)) ?_
      intro rest hrest
      refine Ends.ok ?_
      intro q hq
      rcases List.mem_cons.mp hq with rfl | hq
      · exact ⟨hne, hn⟩
      · exact hrest q hq

/-- So are the layers. -/
theorem decodeLayers_ends (page : Bytes) (pageNo count off : Nat) :
    Ends (fun layers => ∀ layer ∈ layers, ∀ n ∈ layer, n ≠ 0 ∧ n < 2 ^ 64) (Malformed pageNo)
      (HnswNode.decodeLayers page pageNo count off) := by
  induction count generalizing off with
  | zero =>
      refine Ends.ok ?_
      intro layer hlayer
      cases hlayer
  | succ count ih =>
      refine ends_field ⟨_, rfl⟩ ?_
      intro n _
      refine Ends.ite ?_ ?_
      · intro _
        exact ends_malformed _ _
      intro _
      refine Ends.bind (decodeNeighbors_ends page pageNo n (off + 2)) ?_
      intro neighbors hneighbors
      refine Ends.bind (ih (off + 2 + n * 8)) ?_
      intro rest hrest
      refine Ends.ok ?_
      intro layer hlayer
      rcases List.mem_cons.mp hlayer with rfl | hlayer
      · exact hneighbors
      · exact hrest layer hlayer

/-- A node that was decoded is well formed. -/
theorem node_decode_ends (page : Bytes) (pageNo : Nat) :
    Ends HnswNode.Wf (Malformed pageNo) (HnswNode.decode page pageNo) := by
  unfold HnswNode.decode
  refine ends_present ⟨_, rfl⟩ ?_
  intro header _
  refine Ends.ite ?_ ?_
  · intro _
    exact ends_malformed _ _
  intro _
  refine ends_present ⟨_, rfl⟩ ?_
  intro recordId _
  refine ends_field ⟨_, rfl⟩ ?_
  intro vecPage hvecPage
  refine ends_field ⟨_, rfl⟩ ?_
  intro vecSlot hvecSlot
  refine ends_field ⟨_, rfl⟩ ?_
  intro layerCount _
  refine Ends.bind (decodeLayers_ends page pageNo layerCount (PAGE_HEADER_LEN + 27)) ?_
  intro layers hlayers
  exact Ends.ok ⟨hvecPage, hvecSlot, hlayers⟩

/-- A meta page that was decoded is well formed. -/
theorem meta_decode_ends (page : Bytes) (pageNo : Nat) :
    Ends HnswMeta.Wf (Malformed pageNo) (HnswMeta.decode page pageNo) := by
  unfold HnswMeta.decode
  refine ends_present ⟨_, rfl⟩ ?_
  intro header _
  refine Ends.ite ?_ ?_
  · intro _
    exact ends_malformed _ _
  intro _
  refine ends_field ⟨_, rfl⟩ ?_
  intro m hm
  refine Ends.ite ?_ ?_
  · intro _
    exact ends_malformed _ _
  intro hne
  refine ends_field ⟨_, rfl⟩ ?_
  intro ef hef
  refine ends_field ⟨_, rfl⟩ ?_
  intro maxLayer hmaxLayer
  refine ends_field ⟨_, rfl⟩ ?_
  intro entry hentry
  refine ends_field ⟨_, rfl⟩ ?_
  intro nodeCount hnodeCount
  refine Ends.ite ?_ ?_
  · intro _
    exact ends_malformed _ _
  intro hroot
  refine Ends.ok ⟨⟨Nat.pos_of_ne_zero hne, hm⟩, hef, hmaxLayer, hentry, hnodeCount, ?_⟩
  intro hpos hzero
  exact hroot ⟨hpos, hzero⟩

/-- The fields are within the widths of their types. -/
structure HnswMeta.Typed (stats : HnswMeta) : Prop where
  m : stats.m < 2 ^ 16
  efConstruction : stats.efConstruction < 2 ^ 16
  maxLayer : stats.maxLayer < 2 ^ 8
  entryPointPage : stats.entryPointPage < 2 ^ 64
  nodeCount : stats.nodeCount < 2 ^ 64

/-- A meta page is written exactly for parameters that are read back. -/
theorem meta_encode_wf {H : Xxh3} {stats : HnswMeta} {pageSize : Nat} {page : Bytes} (htyped : stats.Typed)
    (h : stats.encode H pageSize = .ok page) : stats.Wf := by
  unfold HnswMeta.encode at h
  split at h
  · cases h
  rename_i hm
  split at h
  · cases h
  rename_i hentry
  refine ⟨⟨Nat.pos_of_ne_zero hm, htyped.m⟩, htyped.efConstruction, htyped.maxLayer, htyped.entryPointPage,
    htyped.nodeCount, ?_⟩
  intro hpos hzero
  exact hentry ⟨hpos, hzero⟩

end Hnsw

/-! ## Round trips and totality -/

open Hnsw in
/-- Headers, nodes and meta pages are read back from what is encoded of them, and any page
is decoded to a well-formed value or refused. -/
theorem header_hnsw_codecs (H : Xxh3) :
    (∀ h : Header, h.Wf → ∃ page, h.encode H h.pageSize = .ok page ∧ page.length = h.pageSize ∧
      Header.decode H page = .ok h) ∧
    (∀ pageSize, pageSizeIsValid pageSize = true → ∀ pageNo (node : HnswNode) page, node.Wf →
      node.encode H pageSize = some page → page.length = pageSize ∧ HnswNode.decode page pageNo = .ok node) ∧
    (∀ pageSize, pageSizeIsValid pageSize = true → ∀ pageNo (stats : HnswMeta) page, stats.Typed →
      stats.encode H pageSize = .ok page → page.length = pageSize ∧ HnswMeta.decode page pageNo = .ok stats) ∧
    (∀ page, Ends (fun h : Header => h.Wf ∧ h.pageSize = page.length) HeaderRefusal (Header.decode H page)) ∧
    ∀ page pageNo, Ends HnswNode.Wf (Malformed pageNo) (HnswNode.decode page pageNo) ∧
      Ends HnswMeta.Wf (Malformed pageNo) (HnswMeta.decode page pageNo) := by
  refine ⟨?_, ?_, ?_, Header.decode_ends H, ?_⟩
  · intro h hwf
    exact ⟨h.image H, Header.encode_eq_ok hwf, Header.image_length H h, Header.decode_image hwf⟩
  · intro pageSize hsize pageNo node page hwf henc
    have hlo := (pageSizeIsValid_iff.mp hsize).1
    have hpage := (encode_eq_some henc).2.2.2
    constructor
    · rw [hpage, typedPage_length]
    · exact node_round_trip pageNo hwf hlo henc
  · intro pageSize hsize pageNo stats page htyped henc
    have hlo := (pageSizeIsValid_iff.mp hsize).1
    rcases meta_round_trip (H := H) pageNo (meta_encode_wf htyped henc) hlo with ⟨heq, hdecode⟩
    rw [heq] at henc
    cases henc
    exact ⟨typedPage_length, hdecode⟩
  · intro page pageNo
    exact ⟨node_decode_ends page pageNo, meta_decode_ends page pageNo⟩

/-- The header of a store with the longest model id. -/
def longestModelId : Header where
  formatVersion := 8
  pageSize := 512
  pageCount := 1
  rootBtreePage := 0
  freelistPage := 0
  hnswMetaPage := 0
  ftsRootPage := 0
  graphRootPage := 0
  filterMetaPage := 0
  filterSymbolsPage := 0
  txnCounter := 2 ^ 64 - 1
  embeddingDims := 384
  embeddingQuant := 0
  embeddingModelId := "mmmmmmmmmmmmmmmmmmmmmmmmmmmmmmmmmmmmmmmmmmmmmmmmmmmmmmmmmmmmmmmm"
  flags := 2

theorem longestModelId_wf : longestModelId.Wf := by
  constructor <;> decide

/-- The longest model id ends where the flags start, and both are read back. -/
theorem header_hnsw_codecs_longestModelId :
    64 + (utf8 longestModelId.embeddingModelId).length = 128 ∧
    ∃ page, longestModelId.encode ⟨fun _ => 0, fun _ _ => 0⟩ 512 = .ok page ∧ page.length = 512 ∧
      Header.decode ⟨fun _ => 0, fun _ _ => 0⟩ page = .ok longestModelId := by
  constructor
  · decide
  · exact (header_hnsw_codecs ⟨fun _ => 0, fun _ _ => 0⟩).1 longestModelId longestModelId_wf

end EmbedMind
