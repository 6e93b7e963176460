import EmbedMind.Index.HnswProof
import EmbedMind.Lib.Agree
import EmbedMind.Lib.PagedTree

/-!
# Inserting keeps the graph wired

`Wired`: every neighbour list is short, without repetitions, and leads to nodes that
have its layer. Links are rewritten one node at a time while the new node stands on its
page without links; what keeps the search of a layer away from it is that no list of
that layer or below names it yet (`Linked.fresh`).
-/

namespace EmbedMind

open Lib

namespace Hnsw

/-! ## The wiring -/

/-- What no rewiring changes of a node. -/
structure Frame where
  page : Nat
  recordId : Ulid
  vecPage : Nat
  vecSlot : Nat
  vector : List F32
  height : Nat

def Entry.frame (e : Entry) : Frame :=
  ⟨e.page, e.node.recordId, e.node.vecPage, e.node.vecSlot, e.vector, e.node.layers.length⟩

/-- The neighbours of a node at a layer. -/
structure ListOk (m : Nat) (fs : List Frame) (page layer : Nat) (list : List Nat) : Prop where
  nodup : list.Nodup
  length : list.length ≤ layerCap m layer
  linked : ∀ q ∈ list, q ≠ page ∧ ∃ f ∈ fs, f.page = q ∧ layer < f.height

def LayersOk (m : Nat) (fs : List Frame) (page : Nat) (layers : List (List Nat)) : Prop :=
  ∀ layer list, layers[layer]? = some list → ListOk m fs page layer list

structure Wired (m top : Nat) (es : List Entry) : Prop where
  lists : ∀ e ∈ es, LayersOk m (es.map Entry.frame) e.page e.node.layers
  heights : ∀ e ∈ es, e.node.layers.length ≤ top + 1

/-- Empty layers. -/
theorem layersOk_replicate {m n : Nat} {fs : List Frame} {page : Nat} :
    LayersOk m fs page (List.replicate n []) := by
  intro layer list hl
  rw [List.getElem?_replicate] at hl
  split at hl
  · cases hl
    exact ⟨List.nodup_nil, Nat.zero_le _, by simp⟩
  · cases hl

/-- Layers after one list has changed. -/
theorem LayersOk.set {m page : Nat} {fs : List Frame} {layers : List (List Nat)}
    (h : LayersOk m fs page layers) {layer : Nat} {list : List Nat} (hl : ListOk m fs page layer list) :
    LayersOk m fs page (layers.set layer list) := by
  intro layer' list' hl'
  rw [List.getElem?_set] at hl'
  split at hl'
  · rename_i heq
    subst heq
    split at hl'
    · cases hl'
      exact hl
    · cases hl'
  · exact h layer' list' hl'

/-- The layers of the node on a page replaced. -/
def put (page : Nat) (layers : List (List Nat)) (es : List Entry) : List Entry :=
  es.map fun e => if e.page = page then { e with node := { e.node with layers } } else e

section Put

variable {es : List Entry} {e : Entry} {layers : List (List Nat)}

/-- The entries after one node has changed. -/
theorem mem_put (hdist : Distinct es) (he : e ∈ es) {x : Entry} :
    x ∈ put e.page layers es ↔
      x = { e with node := { e.node with layers } } ∨ (x ∈ es ∧ x.page ≠ e.page) := by
  unfold put
  rw [List.mem_map]
  constructor
  · rintro ⟨y, hy, rfl⟩
    by_cases hp : y.page = e.page
    · rw [if_pos hp, hdist.eq_of_page hy he hp]
      exact Or.inl rfl
    · rw [if_neg hp]
      exact Or.inr ⟨hy, hp⟩
  · rintro (rfl | ⟨hx, hp⟩)
    · exact ⟨e, he, by simp⟩
    · exact ⟨x, hx, by rw [if_neg hp]⟩

/-- As many layers as before: nothing else changes. -/
theorem frames_put (hdist : Distinct es) (he : e ∈ es) (hlen : layers.length = e.node.layers.length) :
    (put e.page layers es).map Entry.frame = es.map Entry.frame := by
  unfold put
  rw [List.map_map]
  refine List.map_congr_left ?_
  intro y hy
  by_cases hp : y.page = e.page
  · have heq := hdist.eq_of_page hy he hp
    subst heq
    simp [Entry.frame, hlen]
  · simp [hp]

/-- A graph stays wired when one node takes proper layers. -/
theorem Wired.put {m top : Nat} (h : Wired m top es) (hdist : Distinct es) (he : e ∈ es)
    (hlen : layers.length = e.node.layers.length)
    (hlayers : LayersOk m (es.map Entry.frame) e.page layers) : Wired m top (put e.page layers es) where
  lists := by
    intro x hx
    rw [frames_put hdist he hlen]
    rcases (mem_put hdist he).mp hx with rfl | ⟨hx, _⟩
    · exact hlayers
    · exact h.lists x hx
  heights := by
    intro x hx
    rcases (mem_put hdist he).mp hx with rfl | ⟨hx, _⟩
    · change layers.length ≤ top + 1
      rw [hlen]
      exact h.heights e he
    · exact h.heights x hx

end Put

/-! ## A wired node fits its page -/

/-- The bytes of layers within their caps. -/
theorem layers_length_le {m : Nat} {layers : List (List Nat)}
    (h : ∀ layer list, layers[layer]? = some list → list.length ≤ layerCap m layer) :
    (layers.flatMap HnswNode.encodeLayer).length ≤ (2 + m * 2 * 8) + (layers.length - 1) * (2 + m * 8) := by
  have hupper : ∀ rest : List (List Nat), (∀ list ∈ rest, list.length ≤ m) →
      (rest.flatMap HnswNode.encodeLayer).length ≤ rest.length * (2 + m * 8) := by
    intro rest hrest
    induction rest with
    | nil => simp
    | cons list rest ih =>
        have h1 := hrest list List.mem_cons_self
        have h2 := ih fun x hx => hrest x (List.mem_cons_of_mem _ hx)
        rw [List.flatMap_cons, List.length_append, encodeLayer_length, List.length_cons, Nat.add_mul]
        omega
  cases layers with
  | nil => simp
  | cons base rest =>
      have h0 := h 0 base rfl
      have hrest : ∀ list ∈ rest, list.length ≤ m := by
        intro list hl
        obtain ⟨i, hi⟩ := List.mem_iff_getElem?.mp hl
        exact h (i + 1) list hi
      have h1 := hupper rest hrest
      simp only [layerCap, if_true] at h0
      rw [List.flatMap_cons, List.length_append, encodeLayer_length, List.length_cons, Nat.add_sub_cancel]
      omega

/-- A node of lists within their caps, no higher than the highest level, is encoded. -/
theorem encode_isSome {H : Xxh3} {pageSize m cap : Nat} (hhi : pageSize ≤ 65536)
    (hcap : maxHnswLevel pageSize m = some cap) {node : HnswNode} (hheight : node.layers.length ≤ cap + 1)
    (hlists : ∀ layer list, node.layers[layer]? = some list → list.length ≤ layerCap m layer) :
    ∃ b, node.encode H pageSize = some b := by
  unfold maxHnswLevel at hcap
  dsimp only at hcap
  split at hcap
  · cases hcap
  · rename_i hroom
    have hcap' := Option.some.inj hcap
    have hcap31 : cap ≤ 31 := by omega
    have hdiv : cap ≤ (pageSize - PAGE_HEADER_LEN - PAGE_TRAILER_LEN - (NODE_FIXED_LEN + (2 + m * 2 * 8))) /
        (2 + m * 8) := by omega
    have hmul : cap * (2 + m * 8) ≤
        pageSize - PAGE_HEADER_LEN - PAGE_TRAILER_LEN - (NODE_FIXED_LEN + (2 + m * 2 * 8)) :=
      le_trans (Nat.mul_le_mul_right _ hdiv) (Nat.div_mul_le_self _ _)
    have hlayers := layers_length_le hlists
    have hupper : (node.layers.length - 1) * (2 + m * 8) ≤ cap * (2 + m * 8) :=
      Nat.mul_le_mul_right _ (by omega)
    have hbody : node.body.length = 27 + (node.layers.flatMap HnswNode.encodeLayer).length := by
      simp only [HnswNode.body, List.length_append, Ulid.toBytes_length, leBytes_length]
    simp only [PAGE_HEADER_LEN, PAGE_TRAILER_LEN, NODE_FIXED_LEN] at hroom hmul
    have hm : m * 2 < 2 ^ 16 := by omega
    have hshort : ¬ node.layers.any (fun layer => decide (2 ^ 16 ≤ layer.length)) = true := by
      intro hany
      obtain ⟨list, hl, hlong⟩ := List.any_eq_true.mp hany
      obtain ⟨i, hi⟩ := List.mem_iff_getElem?.mp hl
      have hle := hlists i list hi
      have hlong' := of_decide_eq_true hlong
      unfold layerCap at hle
      split at hle <;> omega
    refine ⟨typedPage H ⟨.hnswNode, 0, 0⟩ pageSize node.body, ?_⟩
    unfold HnswNode.encode
    rw [if_neg (by omega), if_neg hshort, if_neg]
    rw [hbody]
    simp only [PAGE_HEADER_LEN, PAGE_TRAILER_LEN]
    omega

/-! ## The pages of the nodes -/

/-- A node and its vector on the pages of a view. -/
structure EntryAt (H : Xxh3) (pageSize dims : Nat) (μ : Nat → Option Bytes) (e : Entry) : Prop where
  node : ∃ b, e.node.encode H pageSize = some b ∧ μ e.page = some b
  wf : e.node.Wf
  slot : e.node.vecSlot = 0
  image : μ e.node.vecPage = some (vectorImage H pageSize e.vector)
  vector : ∀ p, vectorPageGet (vectorImage H pageSize e.vector) dims 0 p = .ok e.vector

def pagesOf (es : List Entry) : List Nat := es.flatMap fun e => [e.page, e.node.vecPage]

section Pages

variable {es : List Entry} {e : Entry}

theorem mem_pagesOf_page (he : e ∈ es) : e.page ∈ pagesOf es :=
  List.mem_flatMap.mpr ⟨e, he, by simp⟩

theorem mem_pagesOf_vecPage (he : e ∈ es) : e.node.vecPage ∈ pagesOf es :=
  List.mem_flatMap.mpr ⟨e, he, by simp⟩

/-- An entry has a page. -/
theorem length_le_pagesOf (es : List Entry) : es.length ≤ (pagesOf es).length := by
  induction es with
  | nil => simp
  | cons e es ih =>
      simp only [pagesOf, List.flatMap_cons, List.length_append, List.length_cons, List.length_nil] at ih ⊢
      omega

/-- Changing a node keeps its pages. -/
theorem pagesOf_put (page : Nat) (layers : List (List Nat)) (es : List Entry) :
    pagesOf (put page layers es) = pagesOf es := by
  induction es with
  | nil => rfl
  | cons e es ih =>
      simp only [pagesOf, put, List.map_cons, List.flatMap_cons] at ih ⊢
      rw [ih]
      split <;> rfl

/-- The node pages are pages. -/
theorem pages_sublist (es : List Entry) : (es.map Entry.page).Sublist (pagesOf es) := by
  induction es with
  | nil => exact List.Sublist.refl _
  | cons e es ih => exact (ih.cons e.node.vecPage).cons_cons e.page

/-- The vector pages are pages. -/
theorem vecPages_sublist (es : List Entry) : (es.map fun e => e.node.vecPage).Sublist (pagesOf es) := by
  induction es with
  | nil => exact List.Sublist.refl _
  | cons e es ih => exact (ih.cons_cons e.node.vecPage).cons e.page

/-- Entries on distinct pages are distinct. -/
theorem distinct_of_nodup (h : (pagesOf es).Nodup) : Distinct es :=
  ⟨(pages_sublist es).nodup h, (vecPages_sublist es).nodup h⟩

/-- No page holds a node and a vector. -/
theorem page_ne_vecPage (h : (pagesOf es).Nodup) (he : e ∈ es) {e' : Entry} (he' : e' ∈ es) :
    e.page ≠ e'.node.vecPage := by
  induction es with
  | nil => cases he
  | cons x es ih =>
      simp only [pagesOf, List.flatMap_cons, List.cons_append, List.nil_append, List.nodup_cons,
        List.mem_cons, not_or] at h
      rcases List.mem_cons.mp he with rfl | hes
      · rcases List.mem_cons.mp he' with rfl | hes'
        · exact h.1.1
        · intro heq
          exact h.1.2 (heq ▸ mem_pagesOf_vecPage hes')
      · rcases List.mem_cons.mp he' with rfl | hes'
        · intro heq
          exact h.2.1 (heq ▸ mem_pagesOf_page hes)
        · exact ih h.2.2 hes hes'

end Pages

/-- Wired nodes in a transaction. -/
structure Nodes (H : Xxh3) (dims m top : Nat) (t : Txn) (es : List Entry) : Prop where
  stored : ∀ e ∈ es, EntryAt H t.pageSize dims (t.view H) e
  owns : t.Owns (pagesOf es)
  wired : Wired m top es

section Nodes

variable {H : Xxh3} {F : Floats} {dims m top : Nat} {t t' : Txn} {es : List Entry} {ctx : Ctx}

theorem Nodes.distinct (h : Nodes H dims m top t es) : Distinct es := distinct_of_nodup h.owns.nodup

/-- An entry can be read: its node and its vector. -/
theorem EntryAt.readable {src : PageSource} {e : Entry} (h : EntryAt H src.pageSize dims src.view e)
    (hlo : 512 ≤ src.pageSize) :
    (∃ b, src.page e.page = .ok b ∧ HnswNode.decode b e.page = .ok e.node) ∧
      ∃ b, src.page e.node.vecPage = .ok b ∧
        vectorPageGet b dims e.node.vecSlot e.node.vecPage = .ok e.vector := by
  obtain ⟨b, hb, hv⟩ := h.node
  constructor
  · exact ⟨b, PageSource.page_of_view hv, node_round_trip _ h.wf hlo hb⟩
  · refine ⟨_, PageSource.page_of_view h.image, ?_⟩
    rw [h.slot]
    exact h.vector _

/-- So can all entries of a transaction. -/
theorem Nodes.readable (h : Nodes H dims m top t es) (ht : t.Wf H) : Readable (t.source H) dims es :=
  fun e he => (h.stored e he).readable ht.pageSize_bounds.1

/-- There are fewer entries than fuel. -/
theorem Nodes.length_lt (h : Nodes H dims m top t es) (ht : t.Wf H) : es.length < FUEL :=
  calc es.length ≤ (pagesOf es).length := length_le_pagesOf es
    _ ≤ t.pageCount := PagedTree.length_le_of_lt h.owns.nodup h.owns.lt
    _ < FUEL := ht.bound

/-- Steps that leave the pages of the nodes alone. -/
theorem EntryAt.frame {pageSize : Nat} {μ μ' : Nat → Option Bytes} {e : Entry}
    (h : EntryAt H pageSize dims μ e) (hnode : μ' e.page = μ e.page)
    (hvec : μ' e.node.vecPage = μ e.node.vecPage) : EntryAt H pageSize dims μ' e where
  node := by rw [hnode]; exact h.node
  wf := h.wf
  slot := h.slot
  image := by rw [hvec]; exact h.image
  vector := h.vector

/-- A read of the operation, inside the transaction. -/
theorem wp_within {α : Type} {f : PageSource → CtxM α} {Q : α → Ctx → Prop} {E : Error → Prop}
    (h : Wp (f (t.source H)) ctx Q fun _ => False) :
    Wp (within H ctx f) t (fun r t' => t' = t ∧ Q r.1 r.2) E := by
  refine Txn.wp_reading ?_ ?_
  · rintro ⟨a, ctx'⟩ hrun
    exact ⟨rfl, h.ok hrun⟩
  · intro e hrun
    exact absurd (h.error hrun) id

/-- Rewriting the layers of a node on its page. -/
theorem wp_writeNodeAt {cap : Nat} {E : Error → Prop} (h : Nodes H dims m top t es) (ht : t.Wf H)
    (hctx : Coherent es ctx) (hcap : maxHnswLevel t.pageSize m = some cap) (htop : top ≤ cap)
    {e : Entry} (he : e ∈ es) {layers : List (List Nat)} (hlen : layers.length = e.node.layers.length)
    (hlayers : LayersOk m (es.map Entry.frame) e.page layers) :
    Wp (writeNodeAt H e.page { e.node with layers } ctx) t (fun ctx' t' =>
      Nodes H dims m top t' (put e.page layers es) ∧ Coherent (put e.page layers es) ctx' ∧
      t.Moved H t' (pagesOf es) (pagesOf es)) E := by
  have hwired := h.wired.put h.distinct he hlen hlayers
  have hin : { e with node := { e.node with layers } } ∈ put e.page layers es :=
    (mem_put h.distinct he).mpr (Or.inl rfl)
  -- a node of this height fits a page
  obtain ⟨b, hb⟩ : ∃ b, HnswNode.encode H { e.node with layers } t.pageSize = some b :=
    encode_isSome ht.pageSize_bounds.2 hcap (le_trans (hwired.heights _ hin) (by omega))
      fun layer list hl => (hlayers layer list hl).length
  unfold writeNodeAt
  refine Wp.bind (Txn.wp_current ?_)
  rw [hb]
  refine Wp.bind (Wp.lift ?_ ?_)
  swap
  · intro err herr
    cases herr
  intro b' hb'
  cases hb'
  have hbytes := (encode_eq_some hb).2.2.2
  have hlenb : b.length = t.pageSize := by rw [hbytes, typedPage_length]
  have hstamp : stampPageChecksum H b = b := by rw [hbytes, stamp_typedPage]
  refine Wp.bind ((Txn.wp_writeOwned ht h.owns (mem_pagesOf_page he) hlenb).imp ?_)
  rintro _ t' ⟨hview, hmoved, hothers⟩
  rw [hstamp] at hview
  refine Wp.pure ⟨⟨?_, ?_, hwired⟩, ?_, hmoved⟩
  · -- the written node, and the others behind their own pages
    intro x hx
    rw [hmoved.pageSize]
    rcases (mem_put h.distinct he).mp hx with rfl | ⟨hx, hne⟩
    · have hold := h.stored e he
      refine ⟨⟨b, hb, hview⟩, ⟨hold.wf.vecPage, hold.wf.vecSlot, ?_⟩, hold.slot, ?_, hold.vector⟩
      · intro list hl q hq
        obtain ⟨i, hi⟩ := List.mem_iff_getElem?.mp hl
        obtain ⟨_, f, hf, rfl, _⟩ := (hlayers i list hi).linked q hq
        obtain ⟨e', he', rfl⟩ := List.mem_map.mp hf
        have hb := h.owns.bounds ht e'.page (mem_pagesOf_page he')
        exact ⟨Nat.ne_of_gt hb.1, hb.2⟩
      · have hvec : t'.view H e.node.vecPage = t.view H e.node.vecPage :=
          hothers _ (mem_pagesOf_vecPage he) (page_ne_vecPage h.owns.nodup he he).symm
        exact hvec.trans hold.image
    · refine (h.stored x hx).frame ?_ ?_
      · exact hothers _ (mem_pagesOf_page hx) hne
      · exact hothers _ (mem_pagesOf_vecPage hx) (page_ne_vecPage h.owns.nodup he hx).symm
  · rw [pagesOf_put]
    exact hmoved.owns ht h.owns
  -- what is remembered is the written node, and what was remembered of the others
  · constructor
    · intro p n hn
      rw [List.lookup_cons] at hn
      by_cases hp : p = e.page
      · subst hp
        rw [beq_self_eq_true] at hn
        exact ⟨_, hin, rfl, Option.some.inj hn⟩
      · rw [beq_false_of_ne hp] at hn
        obtain ⟨x, hx, rfl, hnode⟩ := hctx.nodes p n hn
        exact ⟨x, (mem_put h.distinct he).mpr (Or.inr ⟨hx, hp⟩), rfl, hnode⟩
    · intro k v hv
      obtain ⟨x, hx, hk, hvec⟩ := hctx.vectors k v hv
      by_cases hp : x.page = e.page
      · rw [h.distinct.eq_of_page hx he hp] at hk hvec
        exact ⟨_, hin, hk, hvec⟩
      · exact ⟨x, (mem_put h.distinct he).mpr (Or.inr ⟨hx, hp⟩), hk, hvec⟩

end Nodes

/-! ## Linking -/

/-- The graph while a node is linked: the node stands on its page without links, and
below `bound` no list names it. -/
structure Linked (H : Xxh3) (dims m top : Nat) (fs : List Frame) (node : HnswNode) (newPage bound : Nat)
    (t : Txn) (es : List Entry) : Prop where
  wf : t.Wf H
  nodes : Nodes H dims m top t es
  frames : es.map Entry.frame = fs
  unlinked : ∃ e ∈ es, e.page = newPage ∧ e.node = node
  fresh : ∀ e ∈ es, ∀ layer list, layer < bound → e.node.layers[layer]? = some list → newPage ∉ list

section Link

variable {H : Xxh3} {F : Floats} {dims m top cap : Nat} {fs : List Frame} {node : HnswNode}
  {newPage bound : Nat} {t t₀ : Txn} {es : List Entry} {ctx : Ctx} {own : List Nat}

/-- A later bound. -/
theorem Linked.mono (h : Linked H dims m top fs node newPage bound t es) {bound' : Nat} (hle : bound' ≤ bound) :
    Linked H dims m top fs node newPage bound' t es :=
  ⟨h.wf, h.nodes, h.frames, h.unlinked, fun e he layer list hl => h.fresh e he layer list (by omega)⟩

/-- A frame is that of an entry. -/
theorem Linked.entry (h : Linked H dims m top fs node newPage bound t es) {f : Frame} (hf : f ∈ fs) :
    ∃ e ∈ es, e.frame = f := by
  rw [← h.frames] at hf
  exact List.mem_map.mp hf

/-- Linking the new node at one of the selected neighbours. -/
theorem agree_connect (grow : List (List Nat) → Nat → List (List Nat)) {E : Error → Prop} {layer : Nat}
    (h : Linked H dims m top fs node newPage layer t es) (hctx : Coherent es ctx)
    (hmoved : t₀.Moved H t own (pagesOf es)) (hcap : maxHnswLevel t₀.pageSize m = some cap) (htop : top ≤ cap)
    (hnew : ∃ f ∈ fs, f.page = newPage ∧ layer < f.height) {p : Nat} (hp : p ≠ newPage)
    (hpage : ∃ f ∈ fs, f.page = p ∧ layer < f.height) :
    Agree (connectWith H F dims resizeLayers m newPage layer ctx p)
      (connectWith H F dims grow m newPage layer ctx p) t (fun ctx' t' => ∃ es',
        Linked H dims m top fs node newPage layer t' es' ∧ Coherent es' ctx' ∧
        t₀.Moved H t' own (pagesOf es')) E := by
  obtain ⟨f, hf, rfl, hheight⟩ := hpage
  obtain ⟨e, he, rfl⟩ := h.entry hf
  have hread := h.nodes.readable h.wf
  have hdist := h.nodes.distinct
  unfold connectWith
  refine Agree.bind (Agree.of_wp ((wp_within (wp_node hread hdist he hctx)).imp ?_))
  rintro ⟨n, ctx₁⟩ t₁ ⟨rfl, rfl, hctx₁⟩
  -- the layer exists: both versions keep the layers as they are
  have hnot : ¬ e.node.layers.length ≤ layer := not_le.mpr hheight
  simp only [if_neg hnot]
  obtain ⟨list, hlist⟩ : ∃ list, e.node.layers[layer]? = some list :=
    ⟨_, List.getElem?_eq_getElem (not_le.mp hnot)⟩
  have hget : e.node.layers.getD layer [] = list := by
    rw [List.getD_eq_getElem?_getD, hlist]
    rfl
  rw [hget]
  have hlistOk := h.nodes.wired.lists e he layer list hlist
  rw [h.frames] at hlistOk
  refine Agree.of_wp ?_
  split
  · exact Wp.pure ⟨es, h, hctx₁, hmoved⟩
  rename_i hnotin
  have hnodup : (list ++ [newPage]).Nodup := by
    rw [List.nodup_append]
    exact ⟨hlistOk.nodup, List.nodup_singleton _, by
      intro a ha b hb heq
      rw [List.mem_singleton.mp hb] at heq
      exact hnotin (heq ▸ ha)⟩
  have hlinked : ∀ q ∈ list ++ [newPage], q ≠ e.page ∧ ∃ f ∈ fs, f.page = q ∧ layer < f.height := by
    intro q hq
    rcases List.mem_append.mp hq with hq | hq
    · exact hlistOk.linked q hq
    · rw [List.mem_singleton.mp hq]
      exact ⟨Ne.symm hp, hnew⟩
  -- what is kept is short and among the old neighbours and the new one
  have hkept : Wp (within H ctx₁ fun src =>
      if layerCap m layer < (list ++ [newPage]).length then
        reselect F src dims e.page (list ++ [newPage]) (layerCap m layer)
      else pure (list ++ [newPage])) t₁ (fun r t' => t' = t₁ ∧ Coherent es r.2 ∧ r.1.Nodup ∧
        r.1.length ≤ layerCap m layer ∧ ∀ q ∈ r.1, q ∈ list ++ [newPage]) E := by
    refine wp_within (Q := fun (r : List Nat) ctx' => Coherent es ctx' ∧ r.Nodup ∧ r.length ≤ layerCap m layer ∧
      ∀ q ∈ r, q ∈ list ++ [newPage]) ?_
    split
    · refine wp_reselect hread hdist he ?_ hnodup hctx₁
      intro q hq
      obtain ⟨_, f, hf, rfl, _⟩ := hlinked q hq
      obtain ⟨e', he', rfl⟩ := h.entry hf
      exact ⟨e', he', rfl⟩
    · rename_i hshort
      exact Wp.pure ⟨hctx₁, hnodup, not_lt.mp hshort, fun q hq => hq⟩
  refine Wp.bind (hkept.imp ?_)
  rintro ⟨kept, ctx₂⟩ t₂ ⟨rfl, hctx₂, hknodup, hklen, hkmem⟩
  have hkeptOk : ListOk m (es.map Entry.frame) e.page layer kept := by
    rw [h.frames]
    exact ⟨hknodup, hklen, fun q hq => hlinked q (hkmem q hq)⟩
  have hcap₂ : maxHnswLevel t₂.pageSize m = some cap := by
    rw [hmoved.pageSize]
    exact hcap
  have hlen : (e.node.layers.set layer kept).length = e.node.layers.length := List.length_set
  refine (wp_writeNodeAt h.nodes h.wf hctx₂ hcap₂ htop he hlen
    ((h.nodes.wired.lists e he).set hkeptOk)).imp ?_
  rintro ctx₃ t₃ ⟨hnodes₃, hctx₃, hmoved₃⟩
  refine ⟨_, ⟨hmoved₃.wf, hnodes₃, ?_, ?_, ?_⟩, hctx₃, ?_⟩
  · rw [frames_put hdist he hlen, h.frames]
  · obtain ⟨e', he', hpage', hnode'⟩ := h.unlinked
    exact ⟨e', (mem_put hdist he).mpr (Or.inr ⟨he', by rw [hpage']; exact Ne.symm hp⟩), hpage', hnode'⟩
  · intro x hx layer' list' hlt hl'
    rcases (mem_put hdist he).mp hx with rfl | ⟨hx, _⟩
    · rw [List.getElem?_set, if_neg (by omega)] at hl'
      exact h.fresh e he layer' list' hlt hl'
    · exact h.fresh x hx layer' list' hlt hl'
  · rw [pagesOf_put]
    exact hmoved.trans hmoved₃

/-- Every layer has room for `m` links. -/
theorem le_layerCap (m layer : Nat) : m ≤ layerCap m layer := by
  unfold layerCap
  split <;> omega

/-- Before layer `n - 1` is linked. -/
structure LinkState (H : Xxh3) (dims m top : Nat) (fs : List Frame) (node : HnswNode) (newPage : Nat) (t₀ : Txn)
    (own : List Nat) (n : Nat) (s : Linking) (t : Txn) (es : List Entry) : Prop where
  linked : Linked H dims m top fs node newPage n t es
  coherent : Coherent es s.ctx
  moved : t₀.Moved H t own (pagesOf es)
  distinct : (s.entryPoints.map Prod.fst).Nodup
  entries : ∀ x ∈ s.entryPoints, x.1 ≠ newPage ∧ ∃ f ∈ fs, f.page = x.1 ∧ n ≤ f.height
  height : s.layers.length = node.layers.length
  layers : LayersOk m fs newPage s.layers

/-- The nodes a search of layer `n` meets: those of the layer, without the new one. -/
theorem Linked.closed {n : Nat} (h : Linked H dims m top fs node newPage (n + 1) t es) :
    Closed es n fun p => p ≠ newPage ∧ ∃ f ∈ fs, f.page = p ∧ n < f.height where
  entry := by
    rintro p ⟨_, f, hf, rfl, _⟩
    obtain ⟨e, he, rfl⟩ := h.entry hf
    exact ⟨e, he, rfl⟩
  step := by
    intro e he _ list hl q hq
    constructor
    · rintro rfl
      exact h.fresh e he n list (Nat.lt_succ_self n) hl hq
    · have hok := h.nodes.wired.lists e he n list hl
      rw [h.frames] at hok
      exact (hok.linked q hq).2

/-- Linking one layer: what it does, and that the fuel does not show. -/
theorem agree_linkLayer (grow : List (List Nat) → Nat → List (List Nat)) {E : Error → Prop} {n : Nat}
    {stats : HnswMeta} {vector : List F32} {s : Linking} (hm : stats.m = m)
    (h : LinkState H dims m top fs node newPage t₀ own (n + 1) s t es)
    (hcap : maxHnswLevel t₀.pageSize m = some cap) (htop : top ≤ cap) (hn : n < node.layers.length) :
    Agree (linkLayerWith H F dims resizeLayers stats vector newPage s n)
      (linkLayerWith H F dims grow stats vector newPage s n) t
      (fun s' t' => ∃ es', LinkState H dims m top fs node newPage t₀ own n s' t' es') E := by
  have hread := h.linked.nodes.readable h.linked.wf
  have hdist := h.linked.nodes.distinct
  have hnew : ∃ f ∈ fs, f.page = newPage ∧ n < f.height := by
    obtain ⟨e, he, hpage, hnode⟩ := h.linked.unlinked
    refine ⟨e.frame, ?_, hpage, ?_⟩
    · rw [← h.linked.frames]
      exact List.mem_map.mpr ⟨e, he, rfl⟩
    · change n < e.node.layers.length
      rw [hnode]
      exact hn
  unfold linkLayerWith
  refine Agree.bind (Agree.of_wp ((wp_within (wp_searchLayer hread hdist h.linked.closed
    (h.linked.nodes.length_lt h.linked.wf) h.distinct h.entries h.coherent)).imp ?_))
  rintro ⟨candidates, ctx₁⟩ t₁ ⟨rfl, hctx₁, hcands, hcandsnd⟩
  have hcands' : ∀ x ∈ candidates, ∃ e ∈ es, e.page = x.1 := fun x hx => h.linked.closed.entry _ (hcands x hx)
  refine Agree.bind (Agree.of_wp ((wp_within (wp_selectNeighbors hread hdist hcands' hcandsnd hctx₁)).imp ?_))
  rintro ⟨selected, ctx₂⟩ t₂ ⟨rfl, hctx₂, hselnd, hsellen, hselmem⟩
  have hsel : ∀ p ∈ selected, p ≠ newPage ∧ ∃ f ∈ fs, f.page = p ∧ n < f.height := by
    intro p hp
    obtain ⟨x, hx, rfl⟩ := List.mem_map.mp (hselmem p hp)
    exact hcands x hx
  -- every selected neighbour is linked back
  refine Agree.bind ((Agree.foldlM (R := fun ctx t' => ∃ es',
    Linked H dims m top fs node newPage n t' es' ∧ Coherent es' ctx ∧ t₀.Moved H t' own (pagesOf es'))
    selected ?_ ⟨es, h.linked.mono (Nat.le_succ n), hctx₂, h.moved⟩).imp ?_)
  · rintro p hp ctx t' ⟨es', hlinked, hctx, hmoved⟩
    rw [hm]
    exact agree_connect grow hlinked hctx hmoved hcap htop hnew (hsel p hp).1 (hsel p hp).2
  · rintro ctx₃ t₃ ⟨es', hlinked, hctx₃, hmoved₃⟩
    refine Agree.of_wp (Wp.pure ⟨es', hlinked, hctx₃, hmoved₃, hcandsnd, ?_, ?_, ?_⟩)
    · intro x hx
      obtain ⟨hne, f, hf, hpage, hlt⟩ := hcands x hx
      exact ⟨hne, f, hf, hpage, le_of_lt hlt⟩
    · rw [List.length_set]
      exact h.height
    · refine h.layers.set ⟨hselnd, ?_, hsel⟩
      exact le_trans hsellen (hm ▸ le_layerCap m n)

/-- All layers below `n`, from the top. -/
theorem agree_linkLayers (grow : List (List Nat) → Nat → List (List Nat)) {E : Error → Prop} {n : Nat}
    {stats : HnswMeta} {vector : List F32} {s : Linking} (hm : stats.m = m)
    (h : LinkState H dims m top fs node newPage t₀ own n s t es)
    (hcap : maxHnswLevel t₀.pageSize m = some cap) (htop : top ≤ cap) (hn : n ≤ node.layers.length) :
    Agree ((List.range n).reverse.foldlM (linkLayerWith H F dims resizeLayers stats vector newPage) s)
      ((List.range n).reverse.foldlM (linkLayerWith H F dims grow stats vector newPage) s) t
      (fun s' t' => ∃ es', LinkState H dims m top fs node newPage t₀ own 0 s' t' es') E := by
  induction n generalizing s t es with
  | zero =>
      rw [List.range_zero, List.reverse_nil, List.foldlM_nil, List.foldlM_nil]
      exact Agree.of_wp (Wp.pure ⟨es, h⟩)
  | succ n ih =>
      rw [List.range_succ, List.reverse_append, List.reverse_singleton, List.singleton_append,
        List.foldlM_cons, List.foldlM_cons]
      refine Agree.bind ((agree_linkLayer grow hm h hcap htop hn).imp ?_)
      rintro s' t' ⟨es', h'⟩
      exact ih h' (by omega)

end Link

/-! ## The descent -/

section Descend

variable {F : Floats} {src : PageSource} {dims m top : Nat} {es : List Entry} {query : List F32}

/-- The nodes of a layer are closed under its links. -/
theorem Wired.closed (h : Wired m top es) (layer : Nat) :
    Closed es layer fun p => ∃ e ∈ es, e.page = p ∧ layer < e.node.layers.length where
  entry := by
    rintro p ⟨e, he, hp, _⟩
    exact ⟨e, he, hp⟩
  step := by
    intro e he _ list hl q hq
    obtain ⟨_, f, hf, hpage, hlt⟩ := (h.lists e he layer list hl).linked q hq
    obtain ⟨e', he', rfl⟩ := List.mem_map.mp hf
    exact ⟨e', he', hpage, hlt⟩

/-- Through `k` layers above `level`: the node it ends at is higher than `level`. -/
theorem wp_descendLoop (hread : Readable src dims es) (hdist : Distinct es) (hwired : Wired m top es)
    (hsize : es.length < FUEL) {level k : Nat} {e : Entry} (he : e ∈ es)
    (hheight : level + k < e.node.layers.length) {ctx : Ctx} (hctx : Coherent es ctx) :
    Wp ((List.range' (level + 1) k).reverse.foldlM
        (fun best layer => greedyClosest F src dims query layer FUEL best.1 best.2)
        (e.page, F.dot e.vector query)) ctx
      (fun r ctx' => Coherent es ctx' ∧ ∃ e ∈ es, e.page = r.1 ∧ level < e.node.layers.length)
      fun _ => False := by
  induction k generalizing e ctx with
  | zero =>
      rw [List.range'_zero, List.reverse_nil, List.foldlM_nil]
      exact Wp.pure ⟨hctx, e, he, rfl, hheight⟩
  | succ k ih =>
      rw [List.range'_1_concat, List.reverse_append, List.reverse_singleton, List.singleton_append,
        List.foldlM_cons]
      have hfuel : (nearer F query es (F.dot e.vector query)).length < FUEL :=
        lt_of_le_of_lt (List.length_filter_le _ _) hsize
      have hlt : level + 1 + k < e.node.layers.length := by omega
      refine Wp.bind ((wp_greedyClosest hread hdist (hwired.closed (level + 1 + k)) he
        ⟨e, he, rfl, hlt⟩ hctx hfuel).imp ?_)
      rintro ⟨page, sim⟩ ctx' ⟨hctx', ⟨e', he', hpage', hlt'⟩, e'', he'', hpage'', hsim⟩
      dsimp only at hpage' hpage'' hsim
      have heq : e' = e'' := hdist.eq_of_page he' he'' (hpage'.trans hpage''.symm)
      subst heq
      rw [← hpage', hsim]
      exact ih he' (by omega) hctx'

/-- The descent ends at a node. -/
theorem wp_descend (hread : Readable src dims es) (hdist : Distinct es) {stats : HnswMeta}
    (hwired : Wired m top es) (hsize : es.length < FUEL) {e : Entry} (he : e ∈ es)
    (hpage : e.page = stats.entryPointPage) (hheight : e.node.layers.length = stats.maxLayer + 1) {level : Nat}
    {ctx : Ctx} (hctx : Coherent es ctx) :
    Wp (descend F src dims query stats level) ctx
      (fun r ctx' => Coherent es ctx' ∧
        ∃ e ∈ es, e.page = r.1 ∧ min level stats.maxLayer < e.node.layers.length) fun _ => False := by
  unfold descend
  rw [← hpage]
  refine Wp.bind ((wp_simTo hread hdist query he hctx).imp ?_)
  rintro sim ctx₁ ⟨rfl, hctx₁⟩
  rcases le_total level stats.maxLayer with hle | hle
  · refine (wp_descendLoop hread hdist hwired hsize he (by omega) hctx₁).imp ?_
    rintro r ctx₂ ⟨hctx₂, e', he', hpage', hlt⟩
    exact ⟨hctx₂, e', he', hpage', by omega⟩
  · rw [Nat.sub_eq_zero_of_le hle, List.range'_zero, List.reverse_nil, List.foldlM_nil]
    exact Wp.pure ⟨hctx₁, e, he, rfl, by omega⟩

end Descend

/-! ## New pages -/

section Fresh

variable {H : Xxh3} {dims : Nat} {t : Txn} {E : Error → Prop}

/-- A page for a new node. -/
theorem wp_allocNodePage (ht : t.Wf H) {node : HnswNode} {b : Bytes} (hb : node.encode H t.pageSize = some b)
    (hE : E Txn.pageCountOverflow) :
    Wp (allocNodePage H node) t (fun n t' => n = t.pageCount ∧ t'.view H n = some b ∧ t.Moved H t' [] [n]) E := by
  unfold allocNodePage
  refine Wp.bind ((Txn.wp_allocatePage ht hE).imp ?_)
  rintro n t₁ ⟨rfl, hmoved₁⟩
  refine Wp.bind (Txn.wp_current ?_)
  rw [hmoved₁.pageSize, hb]
  refine Wp.bind (Wp.lift ?_ ?_)
  swap
  · intro err herr
    cases herr
  intro b' hb'
  cases hb'
  have hbytes := (encode_eq_some hb).2.2.2
  have hlen : b.length = t₁.pageSize := by rw [hbytes, typedPage_length, hmoved₁.pageSize]
  have ho₁ : t₁.Owns [t.pageCount] := hmoved₁.owns ht ⟨List.nodup_nil, by simp, by simp⟩
  refine Wp.bind ((Txn.wp_writeOwned hmoved₁.wf ho₁ List.mem_cons_self hlen).imp ?_)
  rintro _ t₂ ⟨hview, hmoved₂, _⟩
  rw [hbytes, stamp_typedPage, ← hbytes] at hview
  exact Wp.pure ⟨rfl, hview, hmoved₁.trans hmoved₂⟩

/-- A vector that does not fit a page. -/
def vectorDoesNotFit : Error := .internal "vector does not fit in one page"

/-- A page for a new vector. -/
theorem wp_storeVector (ht : t.Wf H) {vector : List F32} (hlen : vector.length = dims)
    (hE : E Txn.pageCountOverflow) (hE' : vectorSlotsPerPage t.pageSize dims = 0 → E vectorDoesNotFit) :
    Wp (storeVector H dims vector) t (fun r t' => r = (t.pageCount, 0) ∧
      t'.view H t.pageCount = some (vectorImage H t.pageSize vector) ∧
      (∀ p, vectorPageGet (vectorImage H t.pageSize vector) dims 0 p = .ok vector) ∧
      t.Moved H t' [] [t.pageCount]) E := by
  unfold storeVector
  refine Wp.bind ((Txn.wp_allocatePage ht hE).imp ?_)
  rintro n t₁ ⟨rfl, hmoved₁⟩
  refine Wp.bind (Txn.wp_current ?_)
  rw [hmoved₁.pageSize]
  have hlo := ht.pageSize_bounds.1
  -- a fresh page takes the vector, unless no page can
  have hpushed : ∀ r, vectorPagePush (initVectorPage (List.replicate t.pageSize 0)) dims vector = r →
      (r = .ok none ∧ vectorSlotsPerPage t.pageSize dims = 0) ∨ ∃ x, r = .ok (some x) := by
    rintro r rfl
    have hzeros : 16 ≤ (List.replicate t.pageSize (0 : UInt8)).length := by
      rw [List.length_replicate]
      omega
    have hhead : PageHeader.decode (initVectorPage (List.replicate t.pageSize 0)) = some ⟨.vector, 0, 0⟩ :=
      PageHeader.decode_of_slice hzeros (by norm_num) (by norm_num) rfl
    have hsize : (initVectorPage (List.replicate t.pageSize 0)).length = t.pageSize := by
      simp [initVectorPage]
    unfold vectorPagePush
    rw [if_neg (not_not.mpr hlen)]
    simp only [hhead, okOr_some, ok_bind, ne_eq, not_true_eq_false, if_false, hsize]
    split
    · rename_i hfull
      exact Or.inl ⟨rfl, Nat.le_zero.mp hfull⟩
    · exact Or.inr ⟨_, rfl⟩
  refine Wp.bind (Wp.lift ?_ ?_)
  swap
  · intro err herr
    rcases hpushed _ herr with ⟨h, _⟩ | ⟨x, h⟩ <;> cases h
  intro pushed hpush
  rcases hpushed _ hpush with ⟨h, hfull⟩ | ⟨x, h⟩
  · cases h
    refine Wp.bind (Wp.lift ?_ ?_)
    · intro a ha
      cases ha
    · intro err herr
      cases herr
      exact hE' hfull
  · cases h
    obtain ⟨page, slot⟩ := x
    refine Wp.bind (Wp.lift ?_ ?_)
    swap
    · intro err herr
      cases herr
    rintro _ ⟨⟩
    -- what is written is read back
    have hread := fun p => vectorPagePush_fresh (H := H) p hlo hpush
    obtain ⟨_, rfl, himage, _⟩ := hread 0
    have ho₁ : t₁.Owns [t.pageCount] := hmoved₁.owns ht ⟨List.nodup_nil, by simp, by simp⟩
    have hlenp : page.length = t₁.pageSize := by
      rw [hmoved₁.pageSize, ← stampPageChecksum_length H page, himage, vectorImage_length]
    refine Wp.bind ((Txn.wp_writeOwned hmoved₁.wf ho₁ List.mem_cons_self hlenp).imp ?_)
    rintro _ t₂ ⟨hview, hmoved₂, _⟩
    rw [himage] at hview
    exact Wp.pure ⟨rfl, hview, fun p => (hread p).2.2.2, hmoved₁.trans hmoved₂⟩

end Fresh

/-! ## The index in a transaction -/

/-- The index on the pages of a view. -/
structure At (H : Xxh3) (pageSize dims : Nat) (μ : Nat → Option Bytes) (root : Nat) (stats : HnswMeta)
    (es : List Entry) (own : List Nat) : Prop where
  stats_wf : stats.Wf
  count : stats.nodeCount = es.length
  stored : ∀ e ∈ es, EntryAt H pageSize dims μ e
  wired : Wired stats.m stats.maxLayer es
  level : es ≠ [] → ∃ cap, maxHnswLevel pageSize stats.m = some cap ∧ stats.maxLayer ≤ cap
  entry : es ≠ [] → ∃ e ∈ es, e.page = stats.entryPointPage ∧ e.node.layers.length = stats.maxLayer + 1
  pages : (root = 0 ∧ stats = .new ∧ es = [] ∧ own = []) ∨
    (root ≠ 0 ∧ μ root = some (typedPage H ⟨.hnswMeta, 0, 0⟩ pageSize stats.body) ∧ own = root :: pagesOf es)

structure InTxn (H : Xxh3) (dims : Nat) (t : Txn) (stats : HnswMeta) (es : List Entry) (own : List Nat) :
    Prop where
  index : At H t.pageSize dims (t.view H) t.hnswMetaPage stats es own
  owns : t.Owns own

/-- Only the index's own root moves. -/
def RootOnly (p q : PendingHeader) : Prop := ∃ r, q = { p with hnswMeta := r }

theorem RootOnly.refl (p : PendingHeader) : RootOnly p p := ⟨p.hnswMeta, rfl⟩

theorem RootOnly.trans (p q r : PendingHeader) (h : RootOnly p q) (h' : RootOnly q r) : RootOnly p r := by
  obtain ⟨x, rfl⟩ := h
  obtain ⟨y, rfl⟩ := h'
  exact ⟨y, rfl⟩

theorem HnswMeta.wf_new : HnswMeta.new.Wf :=
  ⟨by decide, by decide, by decide, by decide, by decide, by decide⟩

section Index

variable {H : Xxh3} {dims : Nat} {t t' : Txn} {root : Nat} {stats : HnswMeta} {es : List Entry}
  {own own' : List Nat}

theorem at_empty {pageSize : Nat} {μ : Nat → Option Bytes} : At H pageSize dims μ 0 .new [] [] where
  stats_wf := HnswMeta.wf_new
  count := rfl
  stored := by simp
  wired := ⟨by simp, by simp⟩
  level := fun h => absurd rfl h
  entry := fun h => absurd rfl h
  pages := Or.inl ⟨rfl, rfl, rfl, rfl⟩

/-- The nodes are behind the meta page. -/
theorem At.headed {pageSize : Nat} {μ : Nat → Option Bytes} (h : At H pageSize dims μ root stats es own) :
    Txn.Headed root own (pagesOf es) := by
  rcases h.pages with ⟨h0, _, rfl, rfl⟩ | ⟨hne, _, hown⟩
  · exact Or.inl ⟨h0, rfl⟩
  · exact Or.inr ⟨hne, hown⟩

/-- Writes to other pages leave the index. -/
theorem At.frame {pageSize : Nat} {μ μ' : Nat → Option Bytes} (h : At H pageSize dims μ root stats es own)
    (hμ : ∀ p ∈ own, μ' p = μ p) : At H pageSize dims μ' root stats es own where
  stats_wf := h.stats_wf
  count := h.count
  stored := by
    intro e he
    have hsub := h.headed.sublist.subset
    exact (h.stored e he).frame (hμ _ (hsub (mem_pagesOf_page he))) (hμ _ (hsub (mem_pagesOf_vecPage he)))
  wired := h.wired
  level := h.level
  entry := h.entry
  pages := by
    rcases h.pages with h0 | ⟨hne, hpage, rfl⟩
    · exact Or.inl h0
    · exact Or.inr ⟨hne, by rw [hμ root List.mem_cons_self, hpage], rfl⟩

/-- Loading the meta page. -/
theorem At.loadMeta {src : PageSource} (h : At H src.pageSize dims src.view root stats es own)
    (hlo : 512 ≤ src.pageSize) : loadMeta src root = .ok (if root = 0 then none else some stats) := by
  unfold Hnsw.loadMeta
  rcases h.pages with ⟨rfl, _⟩ | ⟨hne, hpage, _⟩
  · rfl
  · rw [if_neg hne, if_neg hne, PageSource.page_of_view hpage, ok_bind,
      (meta_round_trip (H := H) root h.stats_wf hlo).2]
    rfl

/-- The meta page, or the default without one. -/
theorem At.loaded {src : PageSource} (h : At H src.pageSize dims src.view root stats es own)
    (hlo : 512 ≤ src.pageSize) : ∃ loaded, Hnsw.loadMeta src root = .ok loaded ∧ loaded.getD .new = stats := by
  refine ⟨_, h.loadMeta hlo, ?_⟩
  rcases h.pages with ⟨h0, rfl, _⟩ | ⟨hne, _⟩
  · rw [if_pos h0]
    rfl
  · rw [if_neg hne]
    rfl

/-- The nodes a transaction reads. -/
theorem InTxn.nodes (h : InTxn H dims t stats es own) : Nodes H dims stats.m stats.maxLayer t es where
  stored := h.index.stored
  owns := h.owns.sublist h.index.headed.sublist
  wired := h.index.wired

/-- Saving the meta page, a new one for a new index. -/
theorem wp_saveMeta {E : Error → Prop} (ht : t.Wf H) (hw : stats.Wf) (hcount : stats.nodeCount = es.length)
    (hnodes : Nodes H dims stats.m stats.maxLayer t es)
    (hlevel : ∃ cap, maxHnswLevel t.pageSize stats.m = some cap ∧ stats.maxLayer ≤ cap)
    (hentry : ∃ e ∈ es, e.page = stats.entryPointPage ∧ e.node.layers.length = stats.maxLayer + 1)
    (hroot : Txn.Headed t.hnswMetaPage own (pagesOf es)) (ho : t.Owns own)
    (hE : E Txn.pageCountOverflow) :
    Wp (saveMeta H stats) t (fun _ t' => ∃ own', InTxn H dims t' stats es own' ∧
      t.Stepped H RootOnly t' own own') E := by
  unfold saveMeta
  refine Wp.bind (Txn.wp_current ?_)
  have hencode := (meta_round_trip (H := H) 0 hw ht.pageSize_bounds.1).1
  simp only [hencode, lift_ok_bind]
  refine Txn.wp_saveRoot ht hroot ho typedPage_length hE ?_
  intro n t' hpos hn hmoved hview hkeep
  rw [stamp_typedPage] at hview
  have hsize : (t'.setHnswMetaPage n).pageSize = t.pageSize := hmoved.pageSize
  have ho' := hmoved.owns ht ho
  refine Wp.of_ok (a := ()) rfl ⟨n :: pagesOf es, ⟨?_, ⟨ho'.nodup, ho'.pos, ho'.lt⟩⟩, ?_⟩
  · rw [hsize]
    refine ⟨hw, hcount, ?_, hnodes.wired, fun _ => hlevel, fun _ => hentry,
      Or.inr ⟨Nat.ne_of_gt hpos, hview, rfl⟩⟩
    intro e he
    exact (hnodes.stored e he).frame (hkeep _ (mem_pagesOf_page he)) (hkeep _ (mem_pagesOf_vecPage he))
  · constructor
    case wf =>
      refine hmoved.wf.withPending { hmoved.wf.pending with hnswMeta := ?_ }
      intro x hx
      cases hx
      exact hn
    case base => exact hmoved.base
    case pending =>
      refine ⟨some n, ?_⟩
      rw [← hmoved.pending]
      rfl
    case step => exact hmoved.step

/-- Allocating a page leaves the nodes where they are. -/
theorem Nodes.fresh {m top n : Nat} (h : Nodes H dims m top t es) (hmoved : t.Moved H t' [] [n]) :
    Nodes H dims m top t' es where
  stored := by
    intro e he
    rw [hmoved.pageSize]
    exact (h.stored e he).frame
      (hmoved.step.frame _ (h.owns.lt _ (mem_pagesOf_page he)) (by simp))
      (hmoved.step.frame _ (h.owns.lt _ (mem_pagesOf_vecPage he)) (by simp))
  owns := ⟨h.owns.nodup, h.owns.pos, fun p hp => lt_of_lt_of_le (h.owns.lt p hp) hmoved.grow⟩
  wired := h.wired

/-- A new node without links. -/
theorem Wired.cons {m top level : Nat} (h : Wired m top es) {e : Entry}
    (hlayers : e.node.layers = List.replicate (level + 1) []) : Wired m (max top level) (e :: es) where
  lists := by
    intro x hx
    rcases List.mem_cons.mp hx with rfl | hx
    · rw [hlayers]
      exact layersOk_replicate
    · intro layer list hl
      have hold := h.lists x hx layer list hl
      refine ⟨hold.nodup, hold.length, ?_⟩
      intro q hq
      obtain ⟨hne, f, hf, hpage, hlt⟩ := hold.linked q hq
      exact ⟨hne, f, List.mem_cons_of_mem _ hf, hpage, hlt⟩
  heights := by
    intro x hx
    rcases List.mem_cons.mp hx with rfl | hx
    · rw [hlayers, List.length_replicate]
      omega
    · have := h.heights x hx
      omega

/-- A page beside others. -/
theorem moved_fresh {n : Nat} {rest : List Nat} (hmoved : t.Moved H t' [] [n]) (ho : t.Owns rest) :
    t.Moved H t' rest (n :: rest) := by
  have ho' : t.Owns ([] ++ [] ++ rest) := by simpa using ho
  simpa using hmoved.within ho'

/-- A node without links on fresh pages. -/
theorem Nodes.cons {m top level v n : Nat} {t₁ t₂ : Txn} (h : Nodes H dims m top t es) (ht : t.Wf H)
    (hv : t.Moved H t₁ [] [v]) (hn : t₁.Moved H t₂ [] [n]) {e : Entry} (hpage : e.page = n)
    (hvec : e.node.vecPage = v) (hslot : e.node.vecSlot = 0)
    (hlayers : e.node.layers = List.replicate (level + 1) []) {b : Bytes}
    (hb : e.node.encode H t.pageSize = some b) (hview : t₂.view H n = some b)
    (himage : t₁.view H v = some (vectorImage H t.pageSize e.vector))
    (hget : ∀ p, vectorPageGet (vectorImage H t.pageSize e.vector) dims 0 p = .ok e.vector) :
    Nodes H dims m (max top level) t₂ (e :: es) ∧ t.Moved H t₂ (pagesOf es) (pagesOf (e :: es)) := by
  have hmv := moved_fresh hv h.owns
  have hov := hmv.owns ht h.owns
  have hmn := moved_fresh hn hov
  have hmoved : t.Moved H t₂ (pagesOf es) (pagesOf (e :: es)) := by
    have heq : pagesOf (e :: es) = n :: v :: pagesOf es := by
      simp [pagesOf, hpage, hvec]
    rw [heq]
    exact hmv.trans hmn
  refine ⟨⟨?_, hmoved.owns ht h.owns, h.wired.cons hlayers⟩, hmoved⟩
  have hold := ((h.fresh hv).fresh hn).stored
  intro x hx
  rcases List.mem_cons.mp hx with rfl | hx
  · rw [hmoved.pageSize]
    have hvlt : v < 2 ^ 64 := lt_trans (hv.step.bound v List.mem_cons_self) hv.wf.bound
    refine ⟨⟨b, hb, by rw [hpage]; exact hview⟩, ⟨by rw [hvec]; exact hvlt, by rw [hslot]; norm_num, ?_⟩,
      hslot, ?_, hget⟩
    · intro layer hl
      rw [hlayers] at hl
      rw [List.eq_of_mem_replicate hl]
      simp
    · rw [hvec, ← himage]
      exact hn.step.frame v (hv.step.bound v List.mem_cons_self) (by simp)
  · exact hold x hx

/-- What an insert adds to the index. -/
structure Inserted (H : Xxh3) (dims : Nat) (t : Txn) (stats : HnswMeta) (es : List Entry) (own : List Nat)
    (recordId : Ulid) (vector : List F32) (vecPage : Nat) (t' : Txn) (stats' : HnswMeta) (es' : List Entry)
    (own' : List Nat) : Prop where
  inTxn : InTxn H dims t' stats' es' own'
  stepped : t.Stepped H RootOnly t' own own'
  params : stats'.m = stats.m ∧ stats'.efConstruction = stats.efConstruction
  added : ∃ f : Frame, f.recordId = recordId ∧ f.vector = vector ∧ f.vecPage = vecPage ∧ f.vecSlot = 0 ∧
    es'.map Entry.frame = f :: es.map Entry.frame

/-- The meta page at the end of an insert. -/
theorem wp_finish {E : Error → Prop} {recordId : Ulid} {vector : List F32} {v : Nat} (stats' : HnswMeta)
    {es' : List Entry} {t₁ : Txn} (h : InTxn H dims t stats es own) (ht : t.Wf H)
    (hmoved : t.Moved H t₁ (pagesOf es) (pagesOf es'))
    (hnodes : Nodes H dims stats'.m stats'.maxLayer t₁ es') (hw : stats'.Wf)
    (hcount : stats'.nodeCount = es'.length)
    (hlevel : ∃ cap, maxHnswLevel t.pageSize stats'.m = some cap ∧ stats'.maxLayer ≤ cap)
    (hentry : ∃ e ∈ es', e.page = stats'.entryPointPage ∧ e.node.layers.length = stats'.maxLayer + 1)
    (hparams : stats'.m = stats.m ∧ stats'.efConstruction = stats.efConstruction)
    (hadded : ∃ f : Frame, f.recordId = recordId ∧ f.vector = vector ∧ f.vecPage = v ∧ f.vecSlot = 0 ∧
      es'.map Entry.frame = f :: es.map Entry.frame)
    (hE : E Txn.pageCountOverflow) :
    Wp (saveMeta H stats') t₁ (fun _ t' => ∃ own',
      Inserted H dims t stats es own recordId vector v t' stats' es' own') E := by
  obtain ⟨own₁, hroot₁, hown₁⟩ := h.index.headed.move h.owns hmoved
  have hmeta : t₁.hnswMetaPage = t.hnswMetaPage := by
    rw [Txn.hnswMetaPage, Txn.hnswMetaPage, hmoved.pending, hmoved.base]
  rw [← hmeta] at hroot₁
  have hlevel₁ : ∃ cap, maxHnswLevel t₁.pageSize stats'.m = some cap ∧ stats'.maxLayer ≤ cap := by
    rw [hmoved.pageSize]
    exact hlevel
  refine (wp_saveMeta hmoved.wf hw hcount hnodes hlevel₁ hentry hroot₁ (hown₁.owns ht h.owns) hE).imp ?_
  rintro _ t' ⟨own', hin, hstep⟩
  exact ⟨own', hin, (hown₁.stepped RootOnly.refl).trans hstep RootOnly.trans, hparams, hadded⟩

end Index

/-! ## Inserting a node -/

section Insert

variable {H : Xxh3} {F : Floats} {dims : Nat} {t t₁ : Txn} {stats : HnswMeta} {es : List Entry}
  {own : List Nat} {E : Error → Prop} {recordId : Ulid} {vector : List F32} {v level cap : Nat}

/-- The node as it is first written. -/
def bare (recordId : Ulid) (v level : Nat) : HnswNode := ⟨recordId, v, 0, List.replicate (level + 1) []⟩

/-- A node without links fits a page. -/
theorem bare_encode {pageSize m : Nat} (hhi : pageSize ≤ 65536) (hcap : maxHnswLevel pageSize m = some cap)
    (hlevel : level ≤ cap) : ∃ b, (bare recordId v level).encode H pageSize = some b := by
  refine encode_isSome hhi hcap ?_ ?_
  · simp only [bare, List.length_replicate]
    omega
  · intro layer list hl
    have hok : LayersOk m [] 0 (List.replicate (level + 1) []) := layersOk_replicate
    exact (hok layer list hl).length

/-- The level is capped. -/
theorem cap_le {pageSize m : Nat} (hcap : maxHnswLevel pageSize m = some cap) : cap ≤ 31 := by
  unfold maxHnswLevel at hcap
  dsimp only at hcap
  split at hcap
  · cases hcap
  · have := Option.some.inj hcap
    omega

/-- The first node of an index. -/
theorem wp_insertFirst (h : InTxn H dims t stats es own) (ht : t.Wf H) (hcount : stats.nodeCount = 0)
    (hv : t.Moved H t₁ [] [v]) (himage : t₁.view H v = some (vectorImage H t.pageSize vector))
    (hget : ∀ p, vectorPageGet (vectorImage H t.pageSize vector) dims 0 p = .ok vector)
    (hcap : maxHnswLevel t.pageSize stats.m = some cap) (hlevel : level ≤ cap) (hE : E Txn.pageCountOverflow) :
    Wp (insertFirst H stats recordId (v, 0) level) t₁ (fun _ t' => ∃ stats' es' own',
      Inserted H dims t stats es own recordId vector v t' stats' es' own') E := by
  have hnil : es = [] := List.eq_nil_of_length_eq_zero (by rw [← h.index.count, hcount])
  subst hnil
  have hcap₁ : maxHnswLevel t₁.pageSize stats.m = some cap := by
    rw [hv.pageSize]
    exact hcap
  obtain ⟨b, hb⟩ : ∃ b, (bare recordId v level).encode H t₁.pageSize = some b :=
    bare_encode hv.wf.pageSize_bounds.2 hcap₁ hlevel
  unfold insertFirst
  -- the node gets its page; it has no neighbours, so it is wired
  refine Wp.bind ((wp_allocNodePage hv.wf hb hE).imp ?_)
  rintro n t₂ ⟨rfl, hview, hn⟩
  rw [hv.pageSize] at hb
  have hwired : Nodes H dims stats.m 0 t [] := ⟨by simp, ⟨by simp [pagesOf], by simp [pagesOf], by simp [pagesOf]⟩,
    ⟨by simp, by simp⟩⟩
  obtain ⟨hnodes, hmoved⟩ := hwired.cons ht hv hn (e := ⟨t₁.pageCount, bare recordId v level, vector⟩)
    rfl rfl rfl rfl hb hview himage hget
  have hlevel31 := le_trans hlevel (cap_le hcap)
  have hmod : level % 2 ^ 8 = level := Nat.mod_eq_of_lt (by omega)
  rw [hmod]
  have hw := h.index.stats_wf
  rw [Nat.zero_max] at hnodes
  have hpos := hnodes.owns.bounds hmoved.wf t₁.pageCount (mem_pagesOf_page List.mem_cons_self)
  -- and becomes the entry point of an index of one node
  refine (wp_finish { stats with entryPointPage := t₁.pageCount, maxLayer := level, nodeCount := 1 } h ht hmoved hnodes
    ⟨hw.m, hw.efConstruction, ?_, hpos.2, ?_, fun _ => Nat.ne_of_gt hpos.1⟩ rfl ⟨cap, hcap, hlevel⟩
    ⟨_, List.mem_cons_self, rfl, by simp [bare]⟩ ⟨rfl, rfl⟩
    ⟨_, rfl, rfl, rfl, rfl, rfl⟩ hE).imp ?_
  · dsimp only
    omega
  · dsimp only
    norm_num
  · rintro _ t' ⟨own', hins⟩
    exact ⟨_, _, own', hins⟩

/-- The linking starts with the new node on its page, named by no list. -/
theorem linked_start {n : Nat} {t₂ : Txn} (h : InTxn H dims t stats es own) (hv : t.Moved H t₁ [] [v])
    (hn : t₁.Moved H t₂ [] [n]) (hfresh : n = t₁.pageCount) (node : HnswNode)
    (hlayers : node.layers = List.replicate (level + 1) [])
    (hnodes : Nodes H dims stats.m (max stats.maxLayer level) t₂ (⟨n, node, vector⟩ :: es)) (bound : Nat) :
    Linked H dims stats.m (max stats.maxLayer level) ((⟨n, node, vector⟩ :: es).map Entry.frame) node n bound t₂
      (⟨n, node, vector⟩ :: es) where
  wf := hn.wf
  nodes := hnodes
  frames := rfl
  unlinked := ⟨_, List.mem_cons_self, rfl, rfl⟩
  fresh := by
    intro e he layer list _ hl hin
    rcases List.mem_cons.mp he with rfl | he
    · rw [hlayers, List.getElem?_replicate] at hl
      split at hl
      · cases hl
        cases hin
      · cases hl
    · obtain ⟨_, f, hf, hpage, _⟩ := (h.index.wired.lists e he layer list hl).linked n hin
      obtain ⟨e', he', rfl⟩ := List.mem_map.mp hf
      have hlt := h.nodes.owns.lt e'.page (mem_pagesOf_page he')
      have hgrow := hv.grow
      change e'.page = n at hpage
      omega

/-- The linking starts where the descent has ended. -/
theorem linkState_start {n entry : Nat} (sim : F32) {t₂ : Txn} {ctx : Ctx} {e : Entry}
    (h : InTxn H dims t stats es own) (hv : t.Moved H t₁ [] [v]) (hn : t₁.Moved H t₂ [] [n]) (hfresh : n = t₁.pageCount)
    (hnodes : Nodes H dims stats.m (max stats.maxLayer level) t₂ (⟨n, bare recordId v level, vector⟩ :: es))
    (hmoved : t.Moved H t₂ (pagesOf es) (pagesOf (⟨n, bare recordId v level, vector⟩ :: es))) (hctx : Coherent es ctx)
    (he : e ∈ es) (hpage : e.page = entry) (hheight : min level stats.maxLayer < e.node.layers.length) :
    LinkState H dims stats.m (max stats.maxLayer level) ((⟨n, bare recordId v level, vector⟩ :: es).map Entry.frame)
      (bare recordId v level) n t (pagesOf es) (min level stats.maxLayer + 1)
      ⟨List.replicate (level + 1) [], [(entry, sim)], ctx⟩ t₂ (⟨n, bare recordId v level, vector⟩ :: es) := by
  have hstart := linked_start h hv hn hfresh (bare recordId v level) rfl hnodes (min level stats.maxLayer + 1)
  -- the new node is on a fresh page
  have hne : e.page ≠ n := by
    have hlt := h.nodes.owns.lt e.page (mem_pagesOf_page he)
    have hgrow := hv.grow
    omega
  refine ⟨hstart, hctx.cons _, hmoved, List.nodup_singleton _, ?_, rfl, layersOk_replicate⟩
  intro x hx
  rw [List.mem_singleton.mp hx]
  exact ⟨hpage ▸ hne, e.frame, List.mem_map.mpr ⟨e, List.mem_cons_of_mem _ he, rfl⟩, hpage, hheight⟩

/-- The entry point once a node of this level has been added: the new node if it is higher than all others. -/
theorem entry_added {n : Nat} {new e₀ : Entry} {es' : List Entry} (hframes : es'.map Entry.frame = (new :: es).map Entry.frame)
    (hpage : new.page = n) (hheight : new.node.layers.length = level + 1) (he₀ : e₀ ∈ es)
    (hpage₀ : e₀.page = stats.entryPointPage) (hheight₀ : e₀.node.layers.length = stats.maxLayer + 1) :
    ∃ e ∈ es', e.page = (if stats.maxLayer < level then n else stats.entryPointPage) ∧
      e.node.layers.length = max stats.maxLayer level + 1 := by
  have hfind : ∀ f ∈ (new :: es).map Entry.frame, ∃ e ∈ es', e.frame = f := by
    intro f hf
    rw [← hframes] at hf
    exact List.mem_map.mp hf
  by_cases hhigh : stats.maxLayer < level
  · obtain ⟨e, he, hframe⟩ := hfind _ (List.mem_map.mpr ⟨_, List.mem_cons_self, rfl⟩)
    refine ⟨e, he, ?_, ?_⟩
    · rw [if_pos hhigh, ← hpage]
      exact congrArg Frame.page hframe
    · rw [max_eq_right (le_of_lt hhigh), ← hheight]
      exact congrArg Frame.height hframe
  · obtain ⟨e, he, hframe⟩ := hfind _ (List.mem_map.mpr ⟨e₀, List.mem_cons_of_mem _ he₀, rfl⟩)
    refine ⟨e, he, ?_, ?_⟩
    · rw [if_neg hhigh, ← hpage₀]
      exact congrArg Frame.page hframe
    · rw [max_eq_left (not_lt.mp hhigh), ← hheight₀]
      exact congrArg Frame.height hframe

/-- Every further node: the descent, the linking of its layers, and the meta page. -/
theorem agree_insertNext (grow : List (List Nat) → Nat → List (List Nat)) (h : InTxn H dims t stats es own)
    (ht : t.Wf H) (hcount : stats.nodeCount ≠ 0) (hv : t.Moved H t₁ [] [v])
    (himage : t₁.view H v = some (vectorImage H t.pageSize vector))
    (hget : ∀ p, vectorPageGet (vectorImage H t.pageSize vector) dims 0 p = .ok vector)
    (hcap : maxHnswLevel t.pageSize stats.m = some cap) (hlevel : level ≤ cap) (hE : E Txn.pageCountOverflow) :
    Agree (insertNextWith H F dims resizeLayers stats recordId vector (v, 0) level)
      (insertNextWith H F dims grow stats recordId vector (v, 0) level) t₁ (fun _ t' => ∃ stats' es' own',
      Inserted H dims t stats es own recordId vector v t' stats' es' own') E := by
  have hne : es ≠ [] := by
    rintro rfl
    exact hcount h.index.count
  obtain ⟨e₀, he₀, hpage₀, hheight₀⟩ := h.index.entry hne
  obtain ⟨cap', hcap', htop⟩ := h.index.level hne
  rw [hcap] at hcap'
  cases hcap'
  have hnodes₁ := h.nodes.fresh hv
  have hcap₁ : maxHnswLevel t₁.pageSize stats.m = some cap := by
    rw [hv.pageSize]
    exact hcap
  obtain ⟨b, hb⟩ : ∃ b, (bare recordId v level).encode H t₁.pageSize = some b :=
    bare_encode hv.wf.pageSize_bounds.2 hcap₁ hlevel
  have hlevel31 := le_trans hlevel (cap_le hcap)
  have hmod : level % 2 ^ 8 = level := Nat.mod_eq_of_lt (by omega)
  unfold insertNextWith
  -- the descent only reads; it ends on a node of the layer
  refine Agree.bind (Agree.of_wp ((wp_within (wp_descend (hnodes₁.readable hv.wf) hnodes₁.distinct hnodes₁.wired
    (hnodes₁.length_lt hv.wf) he₀ hpage₀ hheight₀ (coherent_empty es))).imp ?_))
  rintro ⟨⟨entry, entrySim⟩, ctx⟩ t₁' ⟨rfl, hctx, e₁, he₁, hpage₁, hheight₁⟩
  dsimp only at hpage₁ hctx
  -- the bare node gets its page
  refine Agree.bind (Agree.of_wp ((wp_allocNodePage hv.wf hb hE).imp ?_))
  rintro n t₂ ⟨hfresh, hview, hn⟩
  rw [hv.pageSize] at hb
  obtain ⟨hnodes₂, hmoved₂⟩ := h.nodes.cons ht hv hn (e := ⟨n, bare recordId v level, vector⟩)
    rfl rfl rfl rfl hb hview himage hget
  have hstate := linkState_start entrySim h hv hn hfresh hnodes₂ hmoved₂ hctx he₁ hpage₁ hheight₁
  have hbound : min level stats.maxLayer + 1 ≤ (bare recordId v level).layers.length := by
    simp only [bare, List.length_replicate]
    omega
  -- the two runs agree on the linking, where they differ in the layers they grow
  refine Agree.bind ((agree_linkLayers grow rfl hstate hcap (max_le htop hlevel) hbound).imp ?_)
  rintro s t₃ ⟨es₃, hs⟩
  obtain ⟨e₃, he₃, hpage₃, hnode₃⟩ := hs.linked.unlinked
  -- the linked node replaces the bare one
  have hlen : s.layers.length = e₃.node.layers.length := by rw [hs.height, hnode₃]
  have hlayersOk : LayersOk stats.m (es₃.map Entry.frame) e₃.page s.layers := by
    rw [hs.linked.frames, hpage₃]
    exact hs.layers
  have hcap₃ : maxHnswLevel t₃.pageSize stats.m = some cap := by
    rw [hs.moved.pageSize]
    exact hcap
  have hwrite := wp_writeNodeAt (E := E) hs.linked.nodes hs.linked.wf hs.coherent hcap₃ (max_le htop hlevel) he₃ hlen
    hlayersOk
  rw [hnode₃, hpage₃] at hwrite
  refine Agree.of_wp (Wp.bind (hwrite.imp ?_))
  rintro _ t₄ ⟨hnodes₄, _, hmoved₄⟩
  have hframes : (put n s.layers es₃).map Entry.frame =
      (⟨n, bare recordId v level, vector⟩ :: es).map Entry.frame := by
    rw [← hpage₃, frames_put hs.linked.nodes.distinct he₃ hlen, hs.linked.frames, hpage₃]
  have hmoved : t.Moved H t₄ (pagesOf es) (pagesOf (put n s.layers es₃)) := by
    rw [pagesOf_put]
    exact hs.moved.trans hmoved₄
  have hcount₄ : (put n s.layers es₃).length = stats.nodeCount + 1 := by
    rw [← List.length_map (f := Entry.frame), hframes, List.length_map, List.length_cons, h.index.count]
  -- the meta page
  have hcount64 := hnodes₄.length_lt hmoved.wf
  have hw := h.index.stats_wf
  have htop' : (if stats.maxLayer < level then level % 2 ^ 8 else stats.maxLayer) = max stats.maxLayer level := by
    rw [hmod]
    split <;> omega
  have hheight : (bare recordId v level).layers.length = level + 1 := by simp [bare]
  rw [htop']
  obtain ⟨e₄, he₄, hpage₄, hheight₄⟩ := entry_added hframes rfl hheight he₀ hpage₀ hheight₀
  have hpos := hnodes₄.owns.bounds hmoved.wf e₄.page (mem_pagesOf_page he₄)
  rw [hpage₄] at hpos
  refine (wp_finish { stats with
    maxLayer := max stats.maxLayer level
    entryPointPage := if stats.maxLayer < level then n else stats.entryPointPage
    nodeCount := stats.nodeCount + 1 } h ht hmoved hnodes₄
    ⟨hw.m, hw.efConstruction, ?_, hpos.2, ?_, fun _ => Nat.ne_of_gt hpos.1⟩ hcount₄.symm
    ⟨cap, hcap, max_le htop hlevel⟩ ⟨e₄, he₄, hpage₄, hheight₄⟩ ⟨rfl, rfl⟩
    ⟨Entry.frame ⟨n, bare recordId v level, vector⟩, rfl, rfl, rfl, rfl, hframes⟩ hE).imp ?_
  · have := hw.maxLayer
    dsimp only
    omega
  · dsimp only
    rw [← hcount₄]
    exact hcount64
  · rintro _ t' ⟨own', hins⟩
    exact ⟨_, _, own', hins⟩

/-- The errors an insert returns. -/
inductive Refused (pageSize dims : Nat) (stats : HnswMeta) (vector : List F32) : Error → Prop where
  | length : vector.length ≠ dims → Refused pageSize dims stats vector
      (.invalidArgument "vector length != store dims")
  | pageSize : maxHnswLevel pageSize stats.m = none → Refused pageSize dims stats vector
      (.invalidArgument "page size too small for this index's M parameter")
  | vector : vectorSlotsPerPage pageSize dims = 0 → Refused pageSize dims stats vector vectorDoesNotFit
  | full : Refused pageSize dims stats vector Txn.pageCountOverflow

/-- An insert adds one node; `grow` is never asked. -/
theorem agree_insert (grow : List (List Nat) → Nat → List (List Nat)) (h : InTxn H dims t stats es own)
    (ht : t.Wf H) :
    Agree (insert H F dims recordId vector) (insertWith H F dims grow recordId vector) t
      (fun r t' => r.2 = 0 ∧ ∃ stats' es' own',
        Inserted H dims t stats es own recordId vector r.1 t' stats' es' own')
      (Refused t.pageSize dims stats vector) := by
  unfold insert insertWith
  by_cases hlen : vector.length = dims
  swap
  · rw [if_pos hlen, if_pos hlen]
    exact Agree.of_wp (Wp.throw (.length hlen))
  rw [if_neg (not_not.mpr hlen), if_neg (not_not.mpr hlen)]
  -- the checks before the first write are the same
  refine Agree.bind (Agree.of_wp (Txn.wp_current ?_))
  have hindex : At H (t.source H).pageSize dims (t.source H).view t.hnswMetaPage stats es own := h.index
  obtain ⟨loaded, hload, hstats⟩ := hindex.loaded ht.pageSize_bounds.1
  refine Agree.bind (Agree.of_wp (Txn.wp_reading ?_ ?_))
  swap
  · intro e he
    rw [hload] at he
    cases he
  intro a ha
  rw [hload] at ha
  cases ha
  rw [hstats]
  refine Agree.bind (Agree.of_wp (Wp.lift ?_ ?_))
  swap
  · intro e he
    cases hcap : maxHnswLevel t.pageSize stats.m with
    | none =>
        rw [hcap] at he
        cases he
        exact .pageSize hcap
    | some cap =>
        rw [hcap] at he
        cases he
  intro cap hcap
  have hcap : maxHnswLevel t.pageSize stats.m = some cap := by
    cases hc : maxHnswLevel t.pageSize stats.m with
    | none =>
        rw [hc] at hcap
        cases hcap
    | some c =>
        rw [hc] at hcap
        cases hcap
        rfl
  refine Agree.bind (Agree.of_wp ((wp_storeVector ht hlen .full .vector).imp ?_))
  rintro ⟨v, slot⟩ t₁ ⟨hv, himage, hget, hmoved⟩
  cases hv
  dsimp only
  -- only the linking of a further node depends on how layers grow
  by_cases hcount : stats.nodeCount = 0
  · rw [if_pos hcount, if_pos hcount]
    refine Agree.of_wp (Wp.bind ((wp_insertFirst h ht hcount hmoved himage hget hcap (min_le_right _ _) .full).imp ?_))
    intro _ t' hins
    exact Wp.pure ⟨rfl, hins⟩
  · rw [if_neg hcount, if_neg hcount]
    refine Agree.bind ((agree_insertNext grow h ht hcount hmoved himage hget hcap (min_le_right _ _) .full).imp ?_)
    intro _ t' hins
    exact Agree.of_wp (Wp.pure ⟨rfl, hins⟩)

end Insert

end Hnsw

end EmbedMind
