import EmbedMind.Index.HnswWalk

/-!
# One operation on the vector index

The pages of nodes and vectors read back, through the pages an operation remembers. A
search in a set of nodes that the links of a layer do not leave meets no unreadable
page, ends, and returns distinct nodes of the set; a selection returns some of its
candidates.
-/

namespace EmbedMind

open Lib

namespace Hnsw

/-! ## Codecs -/

/-- A location and neighbours within their types; no neighbour is page 0. -/
structure HnswNode.Wf (node : HnswNode) : Prop where
  vecPage : node.vecPage < 2 ^ 64
  vecSlot : node.vecSlot < 2 ^ 16
  neighbors : ∀ layer ∈ node.layers, ∀ n ∈ layer, n ≠ 0 ∧ n < 2 ^ 64

structure HnswMeta.Wf (stats : HnswMeta) : Prop where
  m : 1 ≤ stats.m ∧ stats.m < 2 ^ 16
  efConstruction : stats.efConstruction < 2 ^ 16
  maxLayer : stats.maxLayer < 2 ^ 8
  entryPointPage : stats.entryPointPage < 2 ^ 64
  nodeCount : stats.nodeCount < 2 ^ 64
  entry : 0 < stats.nodeCount → stats.entryPointPage ≠ 0

section Codec

variable {H : Xxh3} {page : Bytes} {off pageSize : Nat} (pageNo : Nat)

/-- Neighbours are read back. -/
theorem decodeNeighbors_eq {layer : List Nat} (hok : ∀ n ∈ layer, n ≠ 0 ∧ n < 2 ^ 64)
    (h : HasAt page off (layer.flatMap (leBytes 8))) :
    HnswNode.decodeNeighbors page pageNo layer.length off = .ok layer := by
  induction layer generalizing off with
  | nil => rfl
  | cons n layer ih =>
      obtain ⟨hne, hlt⟩ := hok n List.mem_cons_self
      rw [List.flatMap_cons] at h
      obtain ⟨h1, h2⟩ := hasAt_append.mp h
      rw [leBytes_length] at h2
      have hrest := ih (fun x hx => hok x (List.mem_cons_of_mem _ hx)) h2
      simp only [List.length_cons, HnswNode.decodeNeighbors, h1.readLE (show n < 256 ^ 8 from hlt), okOr_some,
        ok_bind, hne, if_false, hrest]

theorem flatMap_leBytes_length (layer : List Nat) : (layer.flatMap (leBytes 8)).length = layer.length * 8 := by
  induction layer with
  | nil => rfl
  | cons n layer ih =>
      rw [List.flatMap_cons, List.length_append, leBytes_length, ih, List.length_cons]
      omega

/-- The bytes of a layer. -/
theorem encodeLayer_length (layer : List Nat) : (HnswNode.encodeLayer layer).length = 2 + layer.length * 8 := by
  rw [HnswNode.encodeLayer, List.length_append, leBytes_length, flatMap_leBytes_length]

/-- Layers are read back. -/
theorem decodeLayers_eq {layers : List (List Nat)} (hok : ∀ layer ∈ layers, ∀ n ∈ layer, n ≠ 0 ∧ n < 2 ^ 64)
    (hlen : ∀ layer ∈ layers, layer.length < 2 ^ 16)
    (h : HasAt page off (layers.flatMap HnswNode.encodeLayer)) :
    HnswNode.decodeLayers page pageNo layers.length off = .ok layers := by
  induction layers generalizing off with
  | nil => rfl
  | cons layer layers ih =>
      rw [List.flatMap_cons] at h
      obtain ⟨h1, h2⟩ := hasAt_append.mp h
      rw [encodeLayer_length] at h2
      obtain ⟨hcount, hneighbors⟩ := hasAt_append.mp h1
      rw [leBytes_length] at hneighbors
      have hfit := hneighbors.le
      rw [flatMap_leBytes_length] at hfit
      have hread := hcount.readLE (show layer.length < 256 ^ 2 from hlen layer List.mem_cons_self)
      have hlayer := decodeNeighbors_eq pageNo (hok layer List.mem_cons_self) hneighbors
      rw [← Nat.add_assoc] at h2
      have hrest := ih (fun x hx => hok x (List.mem_cons_of_mem _ hx))
        (fun x hx => hlen x (List.mem_cons_of_mem _ hx)) h2
      simp only [List.length_cons, HnswNode.decodeLayers, hread, okOr_some, ok_bind]
      rw [if_neg (by omega), hlayer, ok_bind, hrest]
      rfl

/-- What `encode` writes, when it writes. -/
theorem encode_eq_some {node : HnswNode} (h : node.encode H pageSize = some page) :
    node.layers.length ≤ 255 ∧ (∀ layer ∈ node.layers, layer.length < 2 ^ 16) ∧
      PAGE_HEADER_LEN + node.body.length ≤ pageSize - PAGE_TRAILER_LEN ∧
      page = typedPage H ⟨.hnswNode, 0, 0⟩ pageSize node.body := by
  unfold HnswNode.encode at h
  split at h
  · cases h
  · rename_i h1
    split at h
    · cases h
    · rename_i h2
      split at h
      · cases h
      · rename_i h3
        cases h
        refine ⟨not_lt.mp h1, ?_, not_lt.mp h3, rfl⟩
        intro layer hl
        by_contra hge
        exact h2 (List.any_eq_true.mpr ⟨layer, hl, by simpa using hge⟩)

/-- Nodes are read back. -/
theorem node_round_trip {node : HnswNode} (hwf : node.Wf) (hlo : 512 ≤ pageSize)
    (h : node.encode H pageSize = some page) : HnswNode.decode page pageNo = .ok node := by
  obtain ⟨hcount, hlens, hfit, rfl⟩ := encode_eq_some h
  have hhead : PageHeader.decode (typedPage H ⟨.hnswNode, 0, 0⟩ pageSize node.body) =
      some ⟨.hnswNode, 0, 0⟩ := typedPage_header hlo (by norm_num) (by norm_num)
  have hbody : HasAt (typedPage H ⟨.hnswNode, 0, 0⟩ pageSize node.body) PAGE_HEADER_LEN node.body :=
    typedPage_body hfit
  obtain ⟨hrest, h5⟩ := hasAt_append.mp hbody
  obtain ⟨hrest, h4⟩ := hasAt_append.mp hrest
  obtain ⟨hrest, h3⟩ := hasAt_append.mp hrest
  obtain ⟨h1, h2⟩ := hasAt_append.mp hrest
  simp only [List.length_append, leBytes_length, Ulid.toBytes_length] at h2 h3 h4 h5
  have hid := h1.slice (Ulid.toBytes_length node.recordId)
  have hpage := h2.readLE (show node.vecPage < 256 ^ 8 from hwf.vecPage)
  have hslot := h3.readLE (show node.vecSlot < 256 ^ 2 from hwf.vecSlot)
  have hlayers := h4.readLE (show node.layers.length < 256 ^ 1 by omega)
  have hall := decodeLayers_eq pageNo hwf.neighbors hlens h5
  simp only [HnswNode.decode, hhead, okOr_some, ok_bind, ne_eq, not_true_eq_false, if_false, hid, hpage,
    hslot, hlayers, hall, Ulid.fromBytes_toBytes]

theorem HnswMeta.body_length (stats : HnswMeta) : stats.body.length = 21 := by
  simp [HnswMeta.body]

/-- The meta page is read back. -/
theorem meta_round_trip {stats : HnswMeta} (hwf : stats.Wf) (hlo : 512 ≤ pageSize) :
    stats.encode H pageSize = .ok (typedPage H ⟨.hnswMeta, 0, 0⟩ pageSize stats.body) ∧
    HnswMeta.decode (typedPage H ⟨.hnswMeta, 0, 0⟩ pageSize stats.body) pageNo = .ok stats := by
  have hm : ¬ stats.m = 0 := Nat.ne_of_gt hwf.m.1
  have hentry : ¬ (0 < stats.nodeCount ∧ stats.entryPointPage = 0) := fun h => hwf.entry h.1 h.2
  constructor
  · unfold HnswMeta.encode
    rw [if_neg hm, if_neg hentry]
  · have hfit : PAGE_HEADER_LEN + stats.body.length ≤ pageSize - PAGE_TRAILER_LEN := by
      rw [HnswMeta.body_length]
      simp only [PAGE_HEADER_LEN, PAGE_TRAILER_LEN]
      omega
    have hhead : PageHeader.decode (typedPage H ⟨.hnswMeta, 0, 0⟩ pageSize stats.body) =
        some ⟨.hnswMeta, 0, 0⟩ := typedPage_header hlo (by norm_num) (by norm_num)
    have hbody : HasAt (typedPage H ⟨.hnswMeta, 0, 0⟩ pageSize stats.body) PAGE_HEADER_LEN stats.body :=
      typedPage_body hfit
    obtain ⟨hrest, h5⟩ := hasAt_append.mp hbody
    obtain ⟨hrest, h4⟩ := hasAt_append.mp hrest
    obtain ⟨hrest, h3⟩ := hasAt_append.mp hrest
    obtain ⟨h1, h2⟩ := hasAt_append.mp hrest
    simp only [List.length_append, leBytes_length] at h2 h3 h4 h5
    have r1 := h1.readLE (show stats.m < 256 ^ 2 from hwf.m.2)
    have r2 := h2.readLE (show stats.efConstruction < 256 ^ 2 from hwf.efConstruction)
    have r3 := h3.readLE (show stats.maxLayer < 256 ^ 1 from hwf.maxLayer)
    have r4 := h4.readLE (show stats.entryPointPage < 256 ^ 8 from hwf.entryPointPage)
    have r5 := h5.readLE (show stats.nodeCount < 256 ^ 8 from hwf.nodeCount)
    simp only [HnswMeta.decode, hhead, okOr_some, ok_bind, ne_eq, not_true_eq_false, if_false, r1, hm, r2,
      r3, r4, r5, hentry]

/-! ### Vectors -/

theorem encodeVector_length (v : List F32) : (encodeVector v).length = v.length * VECTOR_STRIDE_F32 := by
  induction v with
  | nil => rfl
  | cons x v ih =>
      simp only [encodeVector, List.flatMap_cons, List.length_append, leBytes_length, List.length_cons,
        VECTOR_STRIDE_F32] at ih ⊢
      omega

/-- A vector is read back. -/
theorem decodeVector_encodeVector (v : List F32) : decodeVector (encodeVector v) = v := by
  induction v with
  | nil => rfl
  | cons x v ih =>
      have hx : leNat (leBytes 4 x.toNat) = x.toNat := leNat_leBytes_of_lt x.toNat_lt
      rw [encodeVector, List.flatMap_cons]
      simp only [leBytes] at hx ⊢
      simp only [List.cons_append, List.nil_append, decodeVector, hx]
      rw [UInt32.ofNat_toNat]
      exact congrArg _ ih

/-- The page of one vector. -/
def vectorImage (H : Xxh3) (pageSize : Nat) (v : List F32) : Bytes :=
  stampPageChecksum H ((PageHeader.mk .vector 1 0).encodeInto
    (splice (initVectorPage (List.replicate pageSize 0)) PAGE_HEADER_LEN (encodeVector v)))

@[simp] theorem vectorImage_length (v : List F32) : (vectorImage H pageSize v).length = pageSize := by
  simp [vectorImage, initVectorPage]

/-- A vector that goes into a fresh page is read back from slot 0. -/
theorem vectorPagePush_fresh {dims slot : Nat} {v : List F32} (hlo : 512 ≤ pageSize)
    (h : vectorPagePush (initVectorPage (List.replicate pageSize 0)) dims v = .ok (some (page, slot))) :
    v.length = dims ∧ slot = 0 ∧ stampPageChecksum H page = vectorImage H pageSize v ∧
      vectorPageGet (vectorImage H pageSize v) dims 0 pageNo = .ok v := by
  have hzeros : 16 ≤ (List.replicate pageSize (0 : UInt8)).length := by
    rw [List.length_replicate]
    omega
  have hhead : PageHeader.decode (initVectorPage (List.replicate pageSize 0)) = some ⟨.vector, 0, 0⟩ :=
    PageHeader.decode_of_slice hzeros (by norm_num) (by norm_num) rfl
  unfold vectorPagePush at h
  split at h
  · cases h
  · rename_i hlen
    rw [not_not] at hlen
    simp only [hhead, okOr_some, ok_bind, ne_eq, not_true_eq_false, if_false] at h
    split at h
    · cases h
    · rename_i hroom
      simp only [Except.ok.injEq, Option.some.injEq, Prod.mk.injEq, Nat.zero_mul, Nat.add_zero,
        Nat.zero_mod, Nat.zero_add] at h
      obtain ⟨rfl, rfl⟩ := h
      refine ⟨hlen, rfl, rfl, ?_⟩
      have hsize : (initVectorPage (List.replicate pageSize 0)).length = pageSize := by
        simp [initVectorPage]
      rw [hsize] at hroom
      -- the slot lies between the header and the trailer
      have hfit : PAGE_HEADER_LEN + dims * VECTOR_STRIDE_F32 ≤ pageSize - PAGE_TRAILER_LEN := by
        unfold vectorSlotsPerPage at hroom
        split at hroom
        · omega
        · have hle := Nat.div_mul_le_self (pageSize - PAGE_HEADER_LEN - PAGE_TRAILER_LEN)
            (dims * VECTOR_STRIDE_F32)
          have hone := Nat.mul_le_mul_right (dims * VECTOR_STRIDE_F32) (not_le.mp hroom)
          simp only [PAGE_HEADER_LEN, PAGE_TRAILER_LEN] at hle hone ⊢
          omega
      have hfit' := hfit
      simp only [PAGE_HEADER_LEN, PAGE_TRAILER_LEN] at hfit'
      have hlens : (splice (initVectorPage (List.replicate pageSize 0)) PAGE_HEADER_LEN
          (encodeVector v)).length = pageSize := by
        rw [splice_length, hsize]
      have hhead' : PageHeader.decode (vectorImage H pageSize v) = some ⟨.vector, 1, 0⟩ := by
        have hlong : 16 ≤ (splice (initVectorPage (List.replicate pageSize 0)) PAGE_HEADER_LEN
            (encodeVector v)).length := by
          rw [hlens]
          omega
        refine PageHeader.decode_of_slice hlong (by norm_num) (by norm_num) ?_
        unfold vectorImage
        rw [slice_stampPageChecksum]
        rw [PageHeader.encodeInto_length, hlens, PAGE_TRAILER_LEN]
        omega
      have hbytes : slice (vectorImage H pageSize v) PAGE_HEADER_LEN (dims * VECTOR_STRIDE_F32) =
          some (encodeVector v) := by
        unfold vectorImage
        rw [slice_stampPageChecksum, PageHeader.slice_encodeInto _ _ (le_refl _)]
        · refine slice_splice_same ?_ ?_
          · rw [encodeVector_length, hlen]
          · rw [hsize]
            simp only [PAGE_HEADER_LEN]
            omega
        · rw [PageHeader.encodeInto_length, hlens]
          exact hfit
      simp only [vectorPageGet, hhead', okOr_some, ok_bind, ne_eq, not_true_eq_false, if_false, Nat.zero_mul,
        Nat.add_zero, hbytes, decodeVector_encodeVector]
      rw [if_neg (by norm_num)]

end Codec

/-! ## Reading nodes and vectors -/

/-- A node with its page and its vector. -/
structure Entry where
  page : Nat
  node : HnswNode
  vector : List F32

/-- A reader finds every entry. -/
def Readable (src : PageSource) (dims : Nat) (es : List Entry) : Prop :=
  ∀ e ∈ es, (∃ b, src.page e.page = .ok b ∧ HnswNode.decode b e.page = .ok e.node) ∧
    ∃ b, src.page e.node.vecPage = .ok b ∧
      vectorPageGet b dims e.node.vecSlot e.node.vecPage = .ok e.vector

/-- What is remembered is what the pages hold. -/
structure Coherent (es : List Entry) (ctx : Ctx) : Prop where
  nodes : ∀ p n, ctx.nodes.lookup p = some n → ∃ e ∈ es, e.page = p ∧ e.node = n
  vectors : ∀ k v, ctx.vectors.lookup k = some v →
    ∃ e ∈ es, (e.node.vecPage, e.node.vecSlot) = k ∧ e.vector = v

/-- A new cache. -/
theorem coherent_empty (es : List Entry) : Coherent es {} where
  nodes := by
    intro p n h
    cases h
  vectors := by
    intro k v h
    cases h

/-- A cache when there is one more entry. -/
theorem Coherent.cons {es : List Entry} {ctx : Ctx} (h : Coherent es ctx) (e : Entry) : Coherent (e :: es) ctx where
  nodes := by
    intro p n hl
    obtain ⟨x, hx, hp⟩ := h.nodes p n hl
    exact ⟨x, List.mem_cons_of_mem _ hx, hp⟩
  vectors := by
    intro k v hl
    obtain ⟨x, hx, hk⟩ := h.vectors k v hl
    exact ⟨x, List.mem_cons_of_mem _ hx, hk⟩

/-- Pages and vector locations identify entries. -/
structure Distinct (es : List Entry) : Prop where
  pages : (es.map Entry.page).Nodup
  vecPages : (es.map fun e => e.node.vecPage).Nodup

/-- Entries are told apart by their pages. -/
theorem Distinct.eq_of_page {es : List Entry} (h : Distinct es) {e e' : Entry} (he : e ∈ es) (he' : e' ∈ es)
    (heq : e.page = e'.page) : e = e' :=
  List.inj_on_of_nodup_map h.pages he he' heq

/-- So they are by the pages of their vectors. -/
theorem Distinct.eq_of_vecPage {es : List Entry} (h : Distinct es) {e e' : Entry} (he : e ∈ es) (he' : e' ∈ es)
    (heq : e.node.vecPage = e'.node.vecPage) : e = e' :=
  List.inj_on_of_nodup_map h.vecPages he he' heq

section Read

variable {F : Floats} {src : PageSource} {dims : Nat} {es : List Entry} {ctx : Ctx} {e : Entry}
  (hread : Readable src dims es) (hdist : Distinct es)

include hread hdist

/-- Reading a node through the cache. -/
theorem wp_node (he : e ∈ es) (hctx : Coherent es ctx) :
    Wp (Ctx.node src e.page) ctx (fun n ctx' => n = e.node ∧ Coherent es ctx') fun _ => False := by
  unfold Ctx.node
  refine Wp.bind (Wp.get ?_)
  cases hl : ctx.nodes.lookup e.page with
  | some n =>
      obtain ⟨e', he', hpage, hn⟩ := hctx.nodes e.page n hl
      rw [hdist.eq_of_page he' he hpage] at hn
      exact Wp.pure ⟨hn.symm, hctx⟩
  | none =>
      obtain ⟨⟨b, hb, hdecode⟩, _⟩ := hread e he
      refine Wp.bind (Wp.lift ?_ ?_)
      · intro b' hb'
        rw [hb] at hb'
        cases hb'
        refine Wp.bind (Wp.lift ?_ ?_)
        · intro n hn
          rw [hdecode] at hn
          cases hn
          refine Wp.bind (Wp.modify (Wp.pure ⟨rfl, ?_, hctx.vectors⟩))
          intro p n' hn'
          rw [List.lookup_cons] at hn'
          by_cases hp : p = e.page
          · subst hp
            rw [beq_self_eq_true] at hn'
            exact ⟨e, he, rfl, Option.some.inj hn'⟩
          · rw [beq_false_of_ne hp] at hn'
            exact hctx.nodes p n' hn'
        · intro err herr
          rw [hdecode] at herr
          cases herr
      · intro err herr
        rw [hb] at herr
        cases herr

/-- Reading a vector through the cache. -/
theorem wp_vector (he : e ∈ es) (hctx : Coherent es ctx) :
    Wp (Ctx.vector src dims e.page) ctx (fun v ctx' => v = e.vector ∧ Coherent es ctx') fun _ => False := by
  unfold Ctx.vector
  refine Wp.bind ((wp_node hread hdist he hctx).imp ?_)
  rintro n ctx₁ ⟨rfl, hctx₁⟩
  refine Wp.bind (Wp.get ?_)
  cases hl : ctx₁.vectors.lookup (e.node.vecPage, e.node.vecSlot) with
  | some v =>
      obtain ⟨e', he', hkey, hv⟩ := hctx₁.vectors _ v hl
      rw [hdist.eq_of_vecPage he' he (Prod.mk.inj hkey).1] at hv
      exact Wp.pure ⟨hv.symm, hctx₁⟩
  | none =>
      obtain ⟨_, b, hb, hget⟩ := hread e he
      refine Wp.bind (Wp.lift ?_ ?_)
      · intro b' hb'
        rw [hb] at hb'
        cases hb'
        refine Wp.bind (Wp.lift ?_ ?_)
        · intro v hv
          rw [hget] at hv
          cases hv
          refine Wp.bind (Wp.modify (Wp.pure ⟨rfl, hctx₁.nodes, ?_⟩))
          intro k v' hv'
          rw [List.lookup_cons] at hv'
          by_cases hk : k = (e.node.vecPage, e.node.vecSlot)
          · subst hk
            rw [beq_self_eq_true] at hv'
            exact ⟨e, he, rfl, Option.some.inj hv'⟩
          · rw [beq_false_of_ne hk] at hv'
            exact hctx₁.vectors k v' hv'
        · intro err herr
          rw [hget] at herr
          cases herr
      · intro err herr
        rw [hb] at herr
        cases herr

/-- The similarity of an entry. -/
theorem wp_simTo (query : List F32) (he : e ∈ es) (hctx : Coherent es ctx) :
    Wp (Ctx.simTo F src dims query e.page) ctx
      (fun s ctx' => s = F.dot e.vector query ∧ Coherent es ctx') fun _ => False := by
  refine Wp.bind ((wp_vector hread hdist he hctx).imp ?_)
  rintro v ctx' ⟨rfl, hctx'⟩
  exact Wp.pure ⟨rfl, hctx'⟩

end Read

/-! ## Searching -/

/-- A set of nodes that the links of a layer do not leave. -/
structure Closed (es : List Entry) (layer : Nat) (S : Nat → Prop) : Prop where
  entry : ∀ p, S p → ∃ e ∈ es, e.page = p
  step : ∀ e ∈ es, S e.page → ∀ list, e.node.layers[layer]? = some list → ∀ q ∈ list, S q

section Search

variable {F : Floats} {src : PageSource} {dims : Nat} {es : List Entry} {query : List F32} {layer : Nat}
  {S : Nat → Prop} (hread : Readable src dims es) (hdist : Distinct es) (hclosed : Closed es layer S)

/-- The entries that are closer than a similarity. -/
def nearer (F : Floats) (query : List F32) (es : List Entry) (sim : F32) : List Entry :=
  es.filter fun e => F.lt sim (F.dot e.vector query)

include hread hdist hclosed

/-- Links lead to entries. -/
theorem space_links {e : Entry} (he : e ∈ es) (hS : S e.page) {ctx : Ctx} (hctx : Coherent es ctx) :
    Wp (Ctx.node src e.page) ctx
      (fun n ctx' => Coherent es ctx' ∧ ∀ list, n.layers[layer]? = some list → ∀ q ∈ list, S q) fun _ => False := by
  refine (wp_node hread hdist he hctx).imp ?_
  rintro n ctx' ⟨rfl, hctx'⟩
  exact ⟨hctx', hclosed.step e he hS⟩

/-- The nodes of a closed set, each with its similarity. -/
theorem space_entries : Space F src dims query layer S
    (fun x => S x.1 ∧ ∃ e ∈ es, e.page = x.1 ∧ x.2 = F.dot e.vector query) (Coherent es) fun _ => False where
  node := by
    rintro ⟨p, sim⟩ ctx ⟨hS, e, he, rfl, _⟩ hctx
    exact space_links hread hdist hclosed he hS hctx
  sim := by
    intro q ctx hq hctx
    obtain ⟨e, he, rfl⟩ := hclosed.entry q hq
    refine (wp_simTo hread hdist query he hctx).imp ?_
    rintro sim ctx' ⟨rfl, hctx'⟩
    exact ⟨hctx', hq, e, he, rfl, rfl⟩

/-- The nodes of a closed set, with any similarities. -/
theorem space_pages : Space F src dims query layer S (fun x => S x.1) (Coherent es) fun _ => False where
  node := by
    intro x ctx hS hctx
    obtain ⟨e, he, hpage⟩ := hclosed.entry x.1 hS
    rw [← hpage] at hS ⊢
    exact space_links hread hdist hclosed he hS hctx
  sim := by
    intro q ctx hq hctx
    obtain ⟨e, he, rfl⟩ := hclosed.entry q hq
    refine (wp_simTo hread hdist query he hctx).imp ?_
    rintro sim ctx' ⟨rfl, hctx'⟩
    exact ⟨hctx', hq⟩

/-- The descent in a layer ends at a node of the set. -/
theorem wp_greedyClosest {fuel : Nat} {e : Entry} (he : e ∈ es) (hS : S e.page) {ctx : Ctx}
    (hctx : Coherent es ctx)
    (hfuel : (nearer F query es (F.dot e.vector query)).length < fuel) :
    Wp (greedyClosest F src dims query layer fuel e.page (F.dot e.vector query)) ctx
      (fun r ctx' => Coherent es ctx' ∧ S r.1 ∧ ∃ e ∈ es, e.page = r.1 ∧ r.2 = F.dot e.vector query)
      fun _ => False := by
  have hspace : Space F src dims query layer S _ _ _ := space_entries hread hdist hclosed
  have hall : ∀ x : Nat × F32, (S x.1 ∧ ∃ e ∈ es, e.page = x.1 ∧ x.2 = F.dot e.vector query) →
      x ∈ es.map fun e => (e.page, F.dot e.vector query) := by
    rintro ⟨p, sim⟩ ⟨_, e, he, rfl, rfl⟩
    exact List.mem_map_of_mem he
  refine hspace.greedyClosest hall (x := (e.page, F.dot e.vector query)) ⟨hS, e, he, rfl, rfl⟩ hctx ?_
  unfold closerThan
  unfold nearer at hfuel
  rwa [List.filter_map, List.length_map]

/-- The search of one layer finds entries, best first. -/
theorem wp_searchLayer (hsize : es.length < FUEL) {entryPoints : List (Nat × F32)}
    (hnd : (entryPoints.map Prod.fst).Nodup) (hS : ∀ x ∈ entryPoints, S x.1) {ef : Nat} {ctx : Ctx}
    (hctx : Coherent es ctx) :
    Wp (searchLayer F src dims entryPoints layer query ef) ctx
      (fun r ctx' => Coherent es ctx' ∧ (∀ x ∈ r, S x.1) ∧ (r.map Prod.fst).Nodup) fun _ => False := by
  have hpages : ∀ x : Nat × F32, S x.1 → x.1 ∈ es.map Entry.page := by
    intro x hx
    obtain ⟨e, he, hpage⟩ := hclosed.entry x.1 hx
    rw [← hpage]
    exact List.mem_map_of_mem he
  have hspace : Space F src dims query layer S _ _ _ := space_pages hread hdist hclosed
  refine (hspace.searchLayer hpages ?_ hnd hS hctx).imp ?_
  · rwa [List.length_map]
  · rintro r ctx' ⟨hctx', hmem, hnodup, _⟩
    exact ⟨hctx', hmem, hnodup⟩

end Search



/-! ## Selecting -/

section Select

variable {F : Floats} {src : PageSource} {dims : Nat} {es : List Entry} (hread : Readable src dims es)
  (hdist : Distinct es)

include hread hdist

/-- Whether a candidate is nearer to the base than to those selected. -/
theorem wp_diverse {candVec : List F32} {candSim : F32} {selected : List (Nat × F32)}
    (hsel : ∀ x ∈ selected, ∃ e ∈ es, e.page = x.1) {ctx : Ctx} (hctx : Coherent es ctx) :
    Wp (diverse F src dims candVec candSim selected) ctx (fun _ ctx' => Coherent es ctx') fun _ => False := by
  induction selected generalizing ctx with
  | nil => exact Wp.pure hctx
  | cons x rest ih =>
      obtain ⟨sel, s⟩ := x
      obtain ⟨e, he, heq⟩ := hsel (sel, s) List.mem_cons_self
      dsimp only at heq
      subst heq
      unfold diverse
      refine Wp.bind ((wp_vector hread hdist he hctx).imp ?_)
      rintro v ctx' ⟨rfl, hctx'⟩
      split
      · exact Wp.pure hctx'
      · exact ih (fun x hx => hsel x (List.mem_cons_of_mem _ hx)) hctx'

/-- Every candidate ends up selected, pruned or unseen. -/
theorem wp_selectDiverse {cap : Nat} {cands selected : List (Nat × F32)} {pruned : List Nat}
    (hcands : ∀ x ∈ cands, ∃ e ∈ es, e.page = x.1) (hsel : ∀ x ∈ selected, ∃ e ∈ es, e.page = x.1)
    (hlen : selected.length ≤ cap) {ctx : Ctx} (hctx : Coherent es ctx) :
    Wp (selectDiverse F src dims cap cands selected pruned) ctx
      (fun r ctx' => Coherent es ctx' ∧ r.1.length ≤ cap ∧ ∃ rest,
        (r.1.map Prod.fst ++ r.2 ++ rest).Perm (selected.map Prod.fst ++ pruned ++ cands.map Prod.fst))
      fun _ => False := by
  induction cands generalizing selected pruned ctx with
  | nil => exact Wp.pure ⟨hctx, hlen, [], by simp⟩
  | cons x cands ih =>
      obtain ⟨cand, candSim⟩ := x
      unfold selectDiverse
      split
      · exact Wp.pure ⟨hctx, hlen, _, List.Perm.refl _⟩
      · rename_i hroom
        obtain ⟨e, he, heq⟩ := hcands (cand, candSim) List.mem_cons_self
        dsimp only at heq
        subst heq
        have hrest : ∀ x ∈ cands, ∃ e ∈ es, e.page = x.1 := fun x hx => hcands x (List.mem_cons_of_mem _ hx)
        refine Wp.bind ((wp_vector hread hdist he hctx).imp ?_)
        -- the candidate's vector, and its comparison with those already selected
        rintro v ctx₁ ⟨rfl, hctx₁⟩
        refine Wp.bind ((wp_diverse hread hdist hsel hctx₁).imp ?_)
        intro keep ctx₂ hctx₂
        split
        -- kept: it joins the selected ones
        · have hsel' : ∀ x ∈ selected ++ [(e.page, candSim)], ∃ e ∈ es, e.page = x.1 := by
            intro x hx
            rcases List.mem_append.mp hx with hx | hx
            · exact hsel x hx
            · rw [List.mem_singleton.mp hx]
              exact ⟨e, he, rfl⟩
          refine (ih hrest hsel' (by simp; omega) hctx₂).imp ?_
          rintro r ctx₃ ⟨hctx₃, hlen₃, rest, hperm⟩
          refine ⟨hctx₃, hlen₃, rest, hperm.trans ?_⟩
          simp only [List.map_append, List.map_cons, List.map_nil, List.append_assoc, List.singleton_append]
          exact List.Perm.append_left _ (List.perm_middle.symm)
        · refine (ih hrest hsel hlen hctx₂).imp ?_
          rintro r ctx₃ ⟨hctx₃, hlen₃, rest, hperm⟩
          refine ⟨hctx₃, hlen₃, rest, hperm.trans ?_⟩
          simp

/-- At most `cap` of the candidates, each once. -/
theorem wp_selectNeighbors {cap : Nat} {cands : List (Nat × F32)}
    (hcands : ∀ x ∈ cands, ∃ e ∈ es, e.page = x.1) (hnd : (cands.map Prod.fst).Nodup) {ctx : Ctx}
    (hctx : Coherent es ctx) :
    Wp (selectNeighbors F src dims cands cap) ctx
      (fun r ctx' => Coherent es ctx' ∧ r.Nodup ∧ r.length ≤ cap ∧ ∀ p ∈ r, p ∈ cands.map Prod.fst)
      fun _ => False := by
  refine Wp.bind ((wp_selectDiverse hread hdist hcands (by simp) (Nat.zero_le _) hctx).imp ?_)
  rintro ⟨selected, pruned⟩ ctx' ⟨hctx', hlen, rest, hperm⟩
  dsimp only at hlen hperm
  rw [List.map_nil, List.nil_append, List.nil_append] at hperm
  have hsub : (selected.map Prod.fst ++ pruned.take (cap - selected.length)).Sublist
      (selected.map Prod.fst ++ pruned ++ rest) :=
    ((List.Sublist.refl _).append (List.take_sublist _ _)).trans (List.sublist_append_left _ _)
  refine Wp.pure ⟨hctx', hsub.nodup (hperm.nodup_iff.mpr hnd), ?_, ?_⟩
  · rw [List.length_append, List.length_map, List.length_take]
    omega
  · intro p hp
    exact hperm.mem_iff.mp (hsub.subset hp)

/-- Scoring pages. -/
theorem wp_scoreAll {base : List F32} {pages : List Nat} (hpages : ∀ p ∈ pages, ∃ e ∈ es, e.page = p)
    {ctx : Ctx} (hctx : Coherent es ctx) :
    Wp (scoreAll F src dims base pages) ctx
      (fun r ctx' => Coherent es ctx' ∧ r.map Prod.fst = pages) fun _ => False := by
  induction pages generalizing ctx with
  | nil => exact Wp.pure ⟨hctx, rfl⟩
  | cons p pages ih =>
      obtain ⟨e, he, rfl⟩ := hpages p List.mem_cons_self
      unfold scoreAll
      refine Wp.bind ((wp_simTo hread hdist base he hctx).imp ?_)
      rintro sim ctx₁ ⟨_, hctx₁⟩
      refine Wp.bind ((ih (fun q hq => hpages q (List.mem_cons_of_mem _ hq)) hctx₁).imp ?_)
      rintro r ctx₂ ⟨hctx₂, hr⟩
      exact Wp.pure ⟨hctx₂, by simp [hr]⟩

/-- Choosing the links of a full node again. -/
theorem wp_reselect {cap : Nat} {e : Entry} (he : e ∈ es) {pages : List Nat}
    (hpages : ∀ p ∈ pages, ∃ e ∈ es, e.page = p) (hnd : pages.Nodup) {ctx : Ctx} (hctx : Coherent es ctx) :
    Wp (reselect F src dims e.page pages cap) ctx
      (fun r ctx' => Coherent es ctx' ∧ r.Nodup ∧ r.length ≤ cap ∧ ∀ p ∈ r, p ∈ pages) fun _ => False := by
  refine Wp.bind ((wp_vector hread hdist he hctx).imp ?_)
  rintro v ctx₁ ⟨_, hctx₁⟩
  refine Wp.bind ((wp_scoreAll hread hdist hpages hctx₁).imp ?_)
  rintro scored ctx₂ ⟨hctx₂, hscored⟩
  have hsorted : (bestFirst F scored).Perm scored := List.perm_insertionSort _ _
  have hmap : ((bestFirst F scored).map Prod.fst).Perm pages := by
    rw [← hscored]
    exact hsorted.map _
  refine (wp_selectNeighbors hread hdist ?_ (hmap.nodup_iff.mpr hnd) hctx₂).imp ?_
  · intro x hx
    exact hpages x.1 (hmap.mem_iff.mp (List.mem_map.mpr ⟨x, hx, rfl⟩))
  · rintro r ctx₃ ⟨hctx₃, hnodup, hlen, hmem⟩
    exact ⟨hctx₃, hnodup, hlen, fun p hp => hmap.mem_iff.mp (hmem p hp)⟩

end Select

end Hnsw

end EmbedMind
