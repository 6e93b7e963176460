import EmbedMind.Storage.Pages

/-!
# Chains of item pages

A log of small items on a chain of pages that grows at its head: a page holds its items
oldest first behind the common header, and points to the next older page. An item goes to
the end of the head page while there is room, and to a fresh head page after that.

`ItemChain` says what a view shows of a chain, `chainItems` are its items newest first.
-/

namespace EmbedMind

open Lib

variable {α : Type}

/-- One page of a chain: its items and the next older page. -/
structure ItemPage (ty : PageType) (pageSize : Nat) (enc : α → Bytes) (page : Bytes) (items : List α)
    (next : Nat) : Prop where
  length : page.length = pageSize
  header : PageHeader.decode page = some ⟨ty, items.length, next⟩
  body : HasAt page PAGE_HEADER_LEN (items.flatMap enc)
  fits : PAGE_HEADER_LEN + (items.flatMap enc).length ≤ pageSize - PAGE_TRAILER_LEN

section ItemPage

variable {H : Xxh3} {ty : PageType} {pageSize : Nat} {enc : α → Bytes} {page : Bytes} {items : List α} {next : Nat}

/-- A page that is written with a new header over a body. -/
theorem itemPage_stamp (hlen : page.length = pageSize) (hcount : items.length < 2 ^ 32) (hnext : next < 2 ^ 64)
    (hbody : HasAt page PAGE_HEADER_LEN (items.flatMap enc))
    (hfits : PAGE_HEADER_LEN + (items.flatMap enc).length ≤ pageSize - PAGE_TRAILER_LEN) :
    ItemPage ty pageSize enc
      (stampPageChecksum H ((PageHeader.mk ty items.length next).encodeInto page)) items next := by
  have hge : 16 ≤ pageSize - 8 := by
    simp only [PAGE_HEADER_LEN, PAGE_TRAILER_LEN] at hfits
    omega
  constructor
  case length => rw [stampPageChecksum_length, PageHeader.encodeInto_length, hlen]
  case fits => exact hfits
  case header =>
    have hlong : 16 ≤ page.length := by omega
    refine PageHeader.decode_of_slice hlong hcount hnext ?_
    rw [slice_stampPageChecksum]
    rw [PageHeader.encodeInto_length, hlen, PAGE_TRAILER_LEN]
    omega
  case body =>
    unfold HasAt
    rw [slice_stampPageChecksum, PageHeader.slice_encodeInto _ _ (le_refl _)]
    · exact hbody
    · rw [PageHeader.encodeInto_length, hlen]
      exact hfits

/-- One item more at the end of a page. -/
theorem ItemPage.append (h : ItemPage ty pageSize enc page items next) {x : α}
    (hfits : PAGE_HEADER_LEN + (items.flatMap enc).length + (enc x).length ≤ pageSize - PAGE_TRAILER_LEN)
    (hcount : items.length + 1 < 2 ^ 32) :
    ItemPage ty pageSize enc (stampPageChecksum H ((PageHeader.mk ty (items.length + 1) next).encodeInto
      (splice page (PAGE_HEADER_LEN + (items.flatMap enc).length) (enc x)))) (items ++ [x]) next := by
  have hin : PAGE_HEADER_LEN + (items.flatMap enc).length + (enc x).length ≤ page.length := by
    rw [h.length]
    omega
  have hbytes : (items ++ [x]).flatMap enc = items.flatMap enc ++ enc x := by simp
  have hstamp : ItemPage ty pageSize enc (stampPageChecksum H ((PageHeader.mk ty (items ++ [x]).length next).encodeInto
      (splice page (PAGE_HEADER_LEN + (items.flatMap enc).length) (enc x)))) (items ++ [x]) next := by
    refine itemPage_stamp ?_ ?_ (PageHeader.decode_bounds h.header).2.2 ?_ ?_
    · rw [splice_length, h.length]
    · simpa using hcount
    · rw [hbytes, hasAt_append]
      exact ⟨h.body.splice (Or.inl (le_refl _)), hasAt_splice hin⟩
    · rw [hbytes, List.length_append]
      omega
  rwa [List.length_append, List.length_singleton] at hstamp

/-- A fresh page with one item. -/
theorem itemPage_first {x : α} (hnext : next < 2 ^ 64)
    (hfits : PAGE_HEADER_LEN + (enc x).length ≤ pageSize - PAGE_TRAILER_LEN) :
    ItemPage ty pageSize enc (stampPageChecksum H (splice ((PageHeader.mk ty 1 next).encodeInto
      (List.replicate pageSize 0)) PAGE_HEADER_LEN (enc x))) [x] next := by
  have hbytes : [x].flatMap enc = enc x := by simp
  have hin : PAGE_HEADER_LEN + (enc x).length ≤ pageSize - 8 := hfits
  have hge : 16 ≤ pageSize - 8 := by
    simp only [PAGE_HEADER_LEN] at hin
    omega
  constructor
  case length => rw [stampPageChecksum_length, splice_length, PageHeader.encodeInto_length, List.length_replicate]
  case fits =>
    rw [hbytes]
    exact hfits
  case header =>
    have hlong : 16 ≤ (List.replicate pageSize (0 : UInt8)).length := by
      rw [List.length_replicate]
      omega
    refine PageHeader.decode_of_slice hlong (by norm_num) hnext ?_
    rw [slice_stampPageChecksum, slice_splice_disjoint (Or.inl (by simp [PAGE_HEADER_LEN]))]
    · rfl
    · rw [splice_length, PageHeader.encodeInto_length, List.length_replicate, PAGE_TRAILER_LEN]
      omega
  case body =>
    rw [hbytes]
    unfold HasAt
    rw [slice_stampPageChecksum, slice_splice_same rfl]
    · rw [PageHeader.encodeInto_length, List.length_replicate]
      omega
    · rw [splice_length, PageHeader.encodeInto_length, List.length_replicate]
      exact hfits

end ItemPage

/-- A chain from its head on: the page numbers with their items. -/
inductive ItemChain (ty : PageType) (pageSize : Nat) (enc : α → Bytes) (μ : Nat → Option Bytes) :
    Nat → List (Nat × List α) → Prop where
  | nil : ItemChain ty pageSize enc μ 0 []
  | cons {head next : Nat} {page : Bytes} {items : List α} {rest : List (Nat × List α)} (hne : head ≠ 0)
      (hview : μ head = some page) (hpage : ItemPage ty pageSize enc page items next)
      (hrest : ItemChain ty pageSize enc μ next rest) :
      ItemChain ty pageSize enc μ head ((head, items) :: rest)

/-- The pages of a chain, head first. -/
def chainPagesOf (ps : List (Nat × List α)) : List Nat := ps.map Prod.fst

/-- The items of a chain, newest first. -/
def chainItems (ps : List (Nat × List α)) : List α := ps.flatMap fun p => p.2.reverse

section ItemChain

variable {H : Xxh3} {ty : PageType} {pageSize : Nat} {enc : α → Bytes} {μ μ' : Nat → Option Bytes} {head : Nat}
  {ps : List (Nat × List α)}

/-- Writes to other pages leave the chain. -/
theorem ItemChain.frame (h : ItemChain ty pageSize enc μ head ps)
    (hμ : ∀ p ∈ chainPagesOf ps, μ' p = μ p) : ItemChain ty pageSize enc μ' head ps := by
  induction h with
  | nil => exact ItemChain.nil
  | cons hne hview hpage _ ih =>
      refine ItemChain.cons hne ?_ hpage (ih ?_)
      · rw [hμ _ List.mem_cons_self, hview]
      · intro p hp
        exact hμ p (List.mem_cons_of_mem _ hp)

/-- The head page and the rest, of a chain that has a page. -/
theorem ItemChain.of_ne_zero (h : ItemChain ty pageSize enc μ head ps) (hne : head ≠ 0) :
    ∃ next page items rest, ps = (head, items) :: rest ∧ μ head = some page ∧
      ItemPage ty pageSize enc page items next ∧ ItemChain ty pageSize enc μ next rest := by
  cases h with
  | nil => exact absurd rfl hne
  | cons _ hview hpage hrest => exact ⟨_, _, _, _, rfl, hview, hpage, hrest⟩

/-- The head is a page of the chain. -/
theorem ItemChain.head_mem (h : ItemChain ty pageSize enc μ head ps) (hne : head ≠ 0) : head ∈ chainPagesOf ps := by
  rcases h.of_ne_zero hne with ⟨_, _, items, rest, rfl, _⟩
  exact List.mem_cons_self

end ItemChain

/-! ## Adding an item -/

namespace Txn

variable {H : Xxh3} {t : Txn} {ty : PageType} {enc : α → Bytes} {head next : Nat} {own : List Nat}
  {items : List α} {rest : List (Nat × List α)}

/-- The head page is rewritten with one item more. -/
theorem wp_appendItem {E : Error → Prop} (ht : t.Wf H) (ho : t.Owns own) {page : Bytes} {x : α}
    (hne : head ≠ 0) (hpage : ItemPage ty t.pageSize enc page items next)
    (hrest : ItemChain ty t.pageSize enc (t.view H) next rest)
    (hown : (head :: chainPagesOf rest).Sublist own)
    (hfits : PAGE_HEADER_LEN + (items.flatMap enc).length + (enc x).length ≤ t.pageSize - PAGE_TRAILER_LEN)
    (hcount : items.length + 1 < 2 ^ 32) :
    Wp (TxnM.writePage H head ((PageHeader.mk ty (items.length + 1) next).encodeInto
        (splice page (PAGE_HEADER_LEN + (items.flatMap enc).length) (enc x)))) t
      (fun _ t' => ItemChain ty t.pageSize enc (t'.view H) head ((head, items ++ [x]) :: rest) ∧
        t.Moved H t' own own ∧ ∀ p ∈ own, p ≠ head → t'.view H p = t.view H p) E := by
  have hmem : head ∈ own := hown.subset List.mem_cons_self
  refine (wp_writeOwned ht ho hmem ?_).imp ?_
  · rw [PageHeader.encodeInto_length, splice_length, hpage.length]
  · intro _ t' hpost
    rcases hpost with ⟨hview', hmoved, hothers⟩
    refine ⟨?_, hmoved, hothers⟩
    refine ItemChain.cons hne hview' (hpage.append hfits hcount) (hrest.frame ?_)
    intro p hp
    have hnd : (head :: chainPagesOf rest).Nodup := hown.nodup ho.nodup
    refine hothers p (hown.subset (List.mem_cons_of_mem _ hp)) ?_
    intro heq
    exact (List.nodup_cons.mp hnd).1 (heq ▸ hp)

end Txn

end EmbedMind
