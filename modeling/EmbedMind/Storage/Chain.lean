import EmbedMind.Lib.Chunks
import EmbedMind.Storage.Pages

/-!
# Overflow chains (`storage/btree.rs`, `index/dict.rs`)

A value that does not fit its leaf stands on a chain of pages, each with one chunk
of the value and the number of the next page. The record tree and the dictionary
write chains the same way: the pages of the chain being replaced first, then
fresh ones (`pagesFor`), each page once (`writeChunks`).

`ChainAt` says that the pages of a view hold given chunks.
-/

namespace EmbedMind

open Lib

/-- Content bytes of a page, between the common header and the checksum trailer. -/
def usable (pageSize : Nat) : Nat := pageSize - PAGE_HEADER_LEN - PAGE_TRAILER_LEN

/-! ## Pages of a chain -/

/-- One page of a chain, before its checksum is stamped. -/
def chainPage (pageType : PageType) (pageSize : Nat) (chunk : Bytes) (nextPage : Nat) : Bytes :=
  splice ((PageHeader.mk pageType chunk.length nextPage).encodeInto (List.replicate pageSize 0))
    PAGE_HEADER_LEN chunk

/-- A page of a chain is one page long. -/
@[simp] theorem chainPage_length (ty : PageType) (pageSize : Nat) (chunk : Bytes) (next : Nat) :
    (chainPage ty pageSize chunk next).length = pageSize := by
  simp [chainPage]

section ChainPage

variable (H : Xxh3) (ty : PageType) {pageSize : Nat} (next : Nat) {chunk : Bytes}

/-- The header of a chain page is read back. -/
theorem stamped_chainPage_header (hps : 512 ≤ pageSize) (hps' : pageSize ≤ 65536)
    (hchunk : chunk.length ≤ usable pageSize) (hnext : next < 2 ^ 64) :
    PageHeader.decode (stampPageChecksum H (chainPage ty pageSize chunk next)) =
      some ⟨ty, chunk.length, next⟩ := by
  have hcap : chunk.length ≤ pageSize - 16 - 8 := hchunk
  have hlen : 16 ≤ (List.replicate pageSize (0 : UInt8)).length := by
    simp
    omega
  have hcount : chunk.length < 2 ^ 32 := by omega
  refine PageHeader.decode_of_slice hlen hcount hnext ?_
  rw [slice_stampPageChecksum H _ (by simp [PAGE_TRAILER_LEN]; omega), chainPage,
    slice_splice_disjoint (by simp [PAGE_HEADER_LEN])]

/-- The chunk of a chain page is read back. -/
theorem stamped_chainPage_payload (hps : 512 ≤ pageSize) (hchunk : chunk.length ≤ usable pageSize) :
    slice (stampPageChecksum H (chainPage ty pageSize chunk next)) PAGE_HEADER_LEN chunk.length =
      some chunk := by
  have hcap : chunk.length ≤ pageSize - 16 - 8 := hchunk
  rw [slice_stampPageChecksum H _ (by simp [PAGE_TRAILER_LEN, PAGE_HEADER_LEN]; omega), chainPage]
  exact slice_splice_same rfl (by simp [PAGE_HEADER_LEN]; omega)

end ChainPage

/-- The pages hold the chunks, each page pointing to the next one. -/
def ChainAt (H : Xxh3) (ty : PageType) (pageSize : Nat) (μ : Nat → Option Bytes) :
    List Bytes → List Nat → Prop
  | [], [] => True
  | c :: cs, p :: ps =>
      μ p = some (stampPageChecksum H (chainPage ty pageSize c (ps.head?.getD 0))) ∧
        ChainAt H ty pageSize μ cs ps
  | _, _ => False

section ChainAt

variable {H : Xxh3} {ty : PageType} {pageSize : Nat} {μ μ' : Nat → Option Bytes}

/-- Writes to other pages leave the chain. -/
theorem ChainAt.frame {cs : List Bytes} {ps : List Nat} (h : ChainAt H ty pageSize μ cs ps)
    (hμ : ∀ p ∈ ps, μ' p = μ p) : ChainAt H ty pageSize μ' cs ps := by
  induction cs generalizing ps with
  | nil =>
      cases ps with
      | nil => trivial
      | cons _ _ => cases h
  | cons c cs ih =>
      cases ps with
      | nil => cases h
      | cons p ps =>
          obtain ⟨h1, h2⟩ := h
          refine ⟨?_, ih h2 ?_⟩
          · rw [hμ p List.mem_cons_self, h1]
          · intro q hq
            exact hμ q (List.mem_cons_of_mem _ hq)

/-- A chain has one page for each chunk. -/
theorem ChainAt.length {cs : List Bytes} {ps : List Nat} (h : ChainAt H ty pageSize μ cs ps) :
    ps.length = cs.length := by
  induction cs generalizing ps with
  | nil =>
      cases ps with
      | nil => rfl
      | cons _ _ => cases h
  | cons c cs ih =>
      cases ps with
      | nil => cases h
      | cons p ps => simp [ih h.2]

end ChainAt

/-! ## Writing a chain -/

section Write

variable (H : Xxh3)

/-- The pages of a chain of `n` chunks: those of `reuse` first, then fresh ones. -/
def pagesFor : Nat → List Nat → TxnM (List Nat)
  | 0, _ => pure []
  | n + 1, p :: reuse => do
      let pages ← pagesFor n reuse
      pure (p :: pages)
  | n + 1, [] => do
      let p ← TxnM.allocatePage H
      let pages ← pagesFor n []
      pure (p :: pages)

/-- Writes one page for each chunk. `finish` is what the caller does to a page
before it hands it to the transaction. -/
def writeChunks (finish : Bytes → Bytes) (ty : PageType) (pageSize : Nat) :
    List Bytes → List Nat → TxnM Unit
  | c :: cs, p :: ps => do
      TxnM.writePage H p (finish (chainPage ty pageSize c (ps.head?.getD 0)))
      writeChunks finish ty pageSize cs ps
  | _, _ => pure ()

variable {H} {t : Txn} {E : Error → Prop}

/-- The pages of a chain: those to be used again, then new ones. -/
theorem wp_pagesFor (n : Nat) (reuse : List Nat) (h : t.Wf H) (hE : E Txn.pageCountOverflow)
    (hr : ∀ p ∈ reuse, p < t.pageCount) :
    Wp (pagesFor H n reuse) t (fun pages t' => pages.length = n ∧ t.Moved H t' reuse pages) E := by
  induction n generalizing t reuse with
  | zero =>
      refine Wp.pure ⟨rfl, (Txn.Moved.refl h hr).subperm ?_⟩
      exact List.nil_subperm
  | succ n ih =>
      cases reuse with
      | cons p reuse =>
          have hp : p < t.pageCount := hr p List.mem_cons_self
          have hrest := ih reuse h fun q hq => hr q (List.mem_cons_of_mem _ hq)
          refine Wp.bind (hrest.imp ?_)
          rintro pages t' ⟨hlen, hmoved⟩
          refine Wp.pure ⟨by simp [hlen], ?_⟩
          simpa using hmoved.focus (l := [p]) (r := []) (by simpa using hp) (by simp)
      | nil =>
          refine Wp.bind ((Txn.wp_allocatePage h hE).imp ?_)
          rintro p t₁ ⟨_, hmoved⟩
          have hp : p < t₁.pageCount := hmoved.step.bound p (by simp)
          refine Wp.bind ((ih [] hmoved.wf (by simp)).imp ?_)
          rintro pages t' ⟨hlen, hmoved'⟩
          refine Wp.pure ⟨by simp [hlen], ?_⟩
          have hfocus := hmoved'.focus (l := [p]) (r := []) (by simpa using hp) (by simp)
          exact hmoved.trans (by simpa using hfocus)

/-- Writing the chunks makes the chain, on distinct pages of the file. -/
theorem wp_writeChunks {finish : Bytes → Bytes} (ty : PageType)
    (hfin : ∀ page, (finish page).length = page.length ∧
      stampPageChecksum H (finish page) = stampPageChecksum H page)
    (cs : List Bytes) {ps : List Nat} (h : t.Wf H) (hlen : ps.length = cs.length) (hnd : ps.Nodup)
    (hp : ∀ p ∈ ps, 0 < p ∧ p < t.pageCount) :
    Wp (writeChunks H finish ty t.pageSize cs ps) t (fun _ t' =>
      ChainAt H ty t.pageSize (t'.view H) cs ps ∧ t.Moved H t' ps ps) E := by
  induction cs generalizing t ps with
  | nil =>
      obtain rfl := List.length_eq_zero_iff.mp hlen
      exact Wp.pure ⟨trivial, Txn.Moved.refl h (by simp)⟩
  | cons c cs ih =>
      cases ps with
      | nil => cases hlen
      | cons p ps =>
          obtain ⟨hnotin, hnd'⟩ := List.nodup_cons.mp hnd
          obtain ⟨h0, hpb⟩ := hp p List.mem_cons_self
          refine Wp.bind ((Txn.wp_writePage h h0 hpb (by rw [(hfin _).1]; simp)).imp ?_)
          rintro _ t₁ ⟨hview, hmoved, hcount⟩
          rw [(hfin _).2] at hview
          rw [← hmoved.pageSize]
          refine (ih hmoved.wf (by simpa using hlen) hnd' ?_).imp ?_
          · intro q hq
            rw [hcount]
            exact hp q (List.mem_cons_of_mem _ hq)
          · rintro _ t' ⟨hchain, hmoved'⟩
            -- the later writes leave this page alone
            have hkeep : t'.view H p = t₁.view H p :=
              hmoved'.step.frame p (by rw [hcount]; exact hpb) hnotin
            refine ⟨⟨?_, hchain⟩, ?_⟩
            · rw [hkeep, hview, hmoved.pageSize]
            · have h1 : t.Moved H t₁ (p :: ps) (p :: ps) := by
                refine hmoved.focus (l := []) (r := ps) (by simp) ?_
                intro q hq
                exact (hp q (List.mem_cons_of_mem _ hq)).2
              have h2 : t₁.Moved H t' ([p] ++ ps ++ []) ([p] ++ ps ++ []) := by
                refine hmoved'.focus ?_ (by simp)
                intro q hq
                rw [List.mem_singleton.mp hq, hcount]
                exact hpb
              exact h1.trans (by simpa using h2)

end Write

/-! ## The pages of a chain -/

/-- Page numbers of an existing chain, in order; at most `fuel` of them. The texts
are those of the two errors. -/
def chainPages (ty : PageType) (noHeader notChain : String) (src : PageSource) :
    Nat → Nat → Except Error (List Nat)
  | 0, _ => .ok []
  | fuel + 1, pageNo => do
      let page ← src.page pageNo
      let header ← okOr (PageHeader.decode page) (.malformedPage pageNo noHeader)
      if header.pageType ≠ ty then .error (.malformedPage pageNo notChain)
      else if header.nextPage = 0 then .ok [pageNo]
      else do
        let rest ← chainPages ty noHeader notChain src fuel header.nextPage
        .ok (pageNo :: rest)

/-- Walking a chain finds its pages. -/
theorem chainPages_eq {H : Xxh3} {ty : PageType} {noHeader notChain : String} {src : PageSource}
    {cs : List Bytes} {p : Nat} {ps : List Nat} (hps : 512 ≤ src.pageSize)
    (hps' : src.pageSize ≤ 65536) (h : ChainAt H ty src.pageSize src.view cs (p :: ps))
    (hc : ∀ c ∈ cs, c.length ≤ usable src.pageSize) (hb : ∀ q ∈ ps, 0 < q ∧ q < 2 ^ 64)
    {fuel : Nat} (hf : cs.length ≤ fuel) :
    chainPages ty noHeader notChain src fuel p = .ok (p :: ps) := by
  induction ps generalizing p cs fuel with
  | nil =>
      match cs, h with
      | [c], ⟨h1, _⟩ =>
          obtain ⟨fuel, rfl⟩ : ∃ f, fuel = f + 1 := ⟨fuel - 1, by simp at hf; omega⟩
          have hdec := stamped_chainPage_header H ty 0 hps hps'
            (hc c (by simp)) (by norm_num)
          simp only [List.head?_nil, Option.getD_none] at h1
          simp [chainPages, PageSource.page_of_view h1, hdec, bind, Except.bind]
  | cons q ps ih =>
      match cs, h with
      | c :: cs, ⟨h1, h2⟩ =>
          obtain ⟨fuel, rfl⟩ : ∃ f, fuel = f + 1 := ⟨fuel - 1, by simp at hf; omega⟩
          obtain ⟨hq0, hq⟩ := hb q (by simp)
          have hdec := stamped_chainPage_header H ty q hps hps' (hc c (by simp)) hq
          simp only [List.head?_cons, Option.getD_some] at h1
          have hrest := ih h2 (fun c hc' => hc c (List.mem_cons_of_mem _ hc'))
            (fun r hr => hb r (List.mem_cons_of_mem _ hr)) (by simpa using hf)
          have hne : q ≠ 0 := by omega
          simp [chainPages, PageSource.page_of_view h1, hdec, hne, hrest, bind, Except.bind]

end EmbedMind
