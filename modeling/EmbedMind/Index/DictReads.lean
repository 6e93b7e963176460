import EmbedMind.Index.DictProof

/-!
# Reading a dictionary of a hostile file

An overflow chain is followed page by page. `readsChain n` is the reader with `n` page
reads; `readOverflowChain` is what it returns (`readOverflowChain_of_reads`). A page of a
chain may be empty, so a chain can outlast its length: `dict_reads_end_iff` says exactly
on which files none does. A reader may spend one page more than it has bytes left, and
two empty pages with only one-byte pages between them spend two (`EmptyRun`).
-/

namespace EmbedMind

open Lib

namespace Dict

/-- One page of a chain: its payload and the next page. -/
def chainHop (spec : DictSpec) (src : PageSource) (pageNo remaining : Nat) : Except Error (Bytes × Nat) := do
  let page ← src.page pageNo
  let header ← okOr (PageHeader.decode page) (.malformedPage pageNo "dict overflow header")
  if header.pageType ≠ spec.overflow then malformed pageNo "not a dict overflow page"
  else if remaining < header.entryCount ∨ usable src.pageSize < header.entryCount then
    malformed pageNo "dict overflow payload length"
  else do
    let payload ← okOr (slice page PAGE_HEADER_LEN header.entryCount)
      (.malformedPage pageNo "dict overflow payload bounds")
    .ok (payload, header.nextPage)

/-- Reads a chain with a number of page reads; none if it takes more. -/
def readsChain (spec : DictSpec) (src : PageSource) : Nat → Nat → Nat → Option (Except Error Bytes)
  | 0, _, _ => none
  | reads + 1, pageNo, remaining =>
      match chainHop spec src pageNo remaining with
      | .error e => some (.error e)
      | .ok (payload, next) =>
          if remaining - payload.length = 0 then some (.ok payload)
          else if next = 0 then some (malformed pageNo "broken dict overflow chain")
          else (readsChain spec src reads next (remaining - payload.length)).map fun r => r.map (payload ++ ·)

/-- `get`, with one page read more for a chain than it has bytes; none if it takes more. -/
def getReads (H : Xxh3) (spec : DictSpec) (src : PageSource) (root : Nat) (key : Bytes) :
    Option (Except Error (Option (Bytes × Nat))) :=
  if root = 0 then some (.ok none)
  else
    match (tree H spec).lookup src key MAX_DEPTH root with
    | .error e => some (.error e)
    | .ok none => some (.ok none)
    | .ok (some (.inline body, leaf)) => some (.ok (some (body, leaf)))
    | .ok (some (.overflow totalLen firstPage, _)) =>
        (readsChain spec src (totalLen + 1) firstPage totalLen).map fun r => r.map fun body => some (body, firstPage)

section Reads

variable {H : Xxh3} {spec : DictSpec} {src : PageSource} {n pageNo remaining : Nat}

/-- A page of a chain with its payload length and its link to the next page. -/
structure Linked (spec : DictSpec) (src : PageSource) (pageNo used next : Nat) : Prop where
  page : ∃ payload, chainHop spec src pageNo (max used 1) = .ok (payload, next) ∧ payload.length = used
  next : next ≠ 0

/-- An empty page of a chain and then `k` pages of one byte, up to the given page. -/
inductive OnesAfterEmpty (spec : DictSpec) (src : PageSource) : Nat → Nat → Prop where
  | empty {pageNo next : Nat} : Linked spec src pageNo 0 next → OnesAfterEmpty spec src 0 next
  | one {k pageNo next : Nat} : OnesAfterEmpty spec src k pageNo → Linked spec src pageNo 1 next →
      OnesAfterEmpty spec src (k + 1) next

/-- Two empty pages of a chain with `k` pages of one byte between them. -/
def EmptyRun (spec : DictSpec) (src : PageSource) (k : Nat) : Prop :=
  ∃ pageNo next, OnesAfterEmpty spec src k pageNo ∧ Linked spec src pageNo 0 next

/-- Whatever chain is read, and whatever key is looked up, the reader ends after at most
one page more than there are bytes, with all of them or an error. -/
structure ReadsEnd (H : Xxh3) (spec : DictSpec) (src : PageSource) : Prop where
  chain : ∀ first total, total < 2 ^ 32 →
    ∃ r, readsChain spec src (total + 1) first total = some r ∧ ∀ bs, r = .ok bs → bs.length = total
  get : ∀ root key, ∃ r, getReads H spec src root key = some r

/-- The payload of a page, its length and what it may be used for. -/
theorem chainHop_ok {payload : Bytes} {next : Nat} (h : chainHop spec src pageNo remaining = .ok (payload, next)) :
    payload.length ≤ remaining ∧ ∀ r, payload.length ≤ r → chainHop spec src pageNo r = .ok (payload, next) := by
  unfold chainHop at h
  rcases bind_eq_ok.mp h with ⟨page, hpage, h⟩
  rcases bind_eq_ok.mp h with ⟨header, hheader, h⟩
  split_ifs at h with htype hused
  · cases h
  · cases h
  rcases bind_eq_ok.mp h with ⟨bytes, hbytes, h⟩
  cases h
  have hslice := okOr_eq_ok.mp hbytes
  have hlen : payload.length = header.entryCount := slice_length hslice
  rw [not_or, not_lt, not_lt] at hused
  refine ⟨hlen ▸ hused.1, ?_⟩
  intro r hr
  unfold chainHop
  refine bind_eq_ok.mpr ⟨page, hpage, bind_eq_ok.mpr ⟨header, hheader, ?_⟩⟩
  rw [if_neg htype, if_neg (by rw [← hlen]; omega)]
  exact bind_eq_ok.mpr ⟨payload, hbytes, rfl⟩

/-- One step of the reader. -/
theorem readOverflowChain_succ (spec : DictSpec) (src : PageSource) (n pageNo remaining : Nat) :
    readOverflowChain spec src (n + 1) pageNo remaining = (do
      let p ← chainHop spec src pageNo remaining
      if remaining - p.1.length = 0 then .ok p.1
      else if p.2 = 0 then malformed pageNo "broken dict overflow chain"
      else do
        let rest ← readOverflowChain spec src n p.2 (remaining - p.1.length)
        .ok (p.1 ++ rest)) := by
  rw [readOverflowChain]
  unfold chainHop
  cases src.page pageNo with
  | error e => rfl
  | ok page =>
      simp only [ok_bind]
      cases PageHeader.decode page with
      | none => rfl
      | some header =>
          simp only [okOr, ok_bind]
          by_cases htype : header.pageType ≠ spec.overflow
          · rw [if_pos htype, if_pos htype]
            rfl
          rw [if_neg htype, if_neg htype]
          by_cases hused : remaining < header.entryCount ∨ usable src.pageSize < header.entryCount
          · rw [if_pos hused, if_pos hused]
            rfl
          rw [if_neg hused, if_neg hused]
          cases hslice : slice page PAGE_HEADER_LEN header.entryCount with
          | none => rfl
          | some payload =>
              have hlen : payload.length = header.entryCount := slice_length hslice
              rw [← hlen]
              rfl

/-- `readOverflowChain` is the reader that is given enough page reads. -/
theorem readOverflowChain_of_reads {r : Except Error Bytes} (h : readsChain spec src n pageNo remaining = some r) :
    readOverflowChain spec src n pageNo remaining = r := by
  induction n generalizing pageNo remaining r with
  | zero => cases h
  | succ n ih =>
      rw [readOverflowChain_succ]
      unfold readsChain at h
      cases hpage : chainHop spec src pageNo remaining with
      | error e =>
          rw [hpage] at h
          cases h
          rfl
      | ok p =>
          rw [hpage] at h
          show (if remaining - p.1.length = 0 then .ok p.1
            else if p.2 = 0 then malformed pageNo "broken dict overflow chain"
            else do
              let rest ← readOverflowChain spec src n p.2 (remaining - p.1.length)
              .ok (p.1 ++ rest)) = r
          dsimp only at h
          split_ifs at h ⊢
          · exact Option.some.inj h
          · exact Option.some.inj h
          · rcases Option.map_eq_some_iff.mp h with ⟨r', hr', rfl⟩
            rw [ih hr']
            cases r' <;> rfl

/-- A hop along a chain that is linked. -/
theorem chainHop_of_linked {used next : Nat} (h : Linked spec src pageNo used next) (hr : max used 1 ≤ remaining) :
    ∃ payload, chainHop spec src pageNo remaining = .ok (payload, next) ∧ payload.length = used := by
  rcases h.page with ⟨payload, hpage, hlen⟩
  have hle : payload.length ≤ remaining := by omega
  exact ⟨payload, (chainHop_ok hpage).2 remaining hle, hlen⟩

/-- A linked page costs a page read and gives its bytes. -/
theorem readsChain_linked {used next reads : Nat} (h : Linked spec src pageNo used next) (hr : 0 < remaining)
    (hnone : readsChain spec src reads next remaining = none) :
    readsChain spec src (reads + 1) pageNo (remaining + used) = none := by
  rcases chainHop_of_linked h (show max used 1 ≤ remaining + used by omega) with ⟨payload, hpage, hlen⟩
  unfold readsChain
  rw [hpage]
  dsimp only
  rw [hlen, Nat.add_sub_cancel, if_neg (by omega), if_neg h.next, hnone]
  rfl

/-- The chain that ends in an empty page and `k` pages of one byte takes a read more than
it gives bytes. -/
theorem readsChain_onesAfterEmpty {k reads : Nat} (h : OnesAfterEmpty spec src k pageNo) (hr : 0 < remaining)
    (hnone : readsChain spec src reads pageNo remaining = none) :
    ∃ first, readsChain spec src (reads + k + 1) first (remaining + k) = none := by
  induction h generalizing reads remaining with
  | @empty first next hlink => exact ⟨first, readsChain_linked hlink hr hnone⟩
  | @one k pageNo next hones hlink ih =>
      have hstep := readsChain_linked hlink hr hnone
      rcases ih (Nat.succ_pos remaining) hstep with ⟨first, hfirst⟩
      refine ⟨first, ?_⟩
      rw [show reads + (k + 1) + 1 = reads + 1 + k + 1 by omega,
        show remaining + (k + 1) = remaining + 1 + k by omega]
      exact hfirst

/-- Two empty pages outlast the bytes between them and one more. -/
theorem readsChain_emptyRun {k : Nat} (h : EmptyRun spec src k) :
    ∃ first, readsChain spec src (k + 2) first (k + 1) = none := by
  rcases h with ⟨pageNo, next, hones, hlink⟩
  have hlast : readsChain spec src 1 pageNo 1 = none := readsChain_linked hlink Nat.one_pos rfl
  rcases readsChain_onesAfterEmpty hones Nat.one_pos hlast with ⟨first, hfirst⟩
  refine ⟨first, ?_⟩
  rw [show k + 2 = 1 + k + 1 by omega, show k + 1 = 1 + k by omega]
  exact hfirst

/-- What is left to read is met by the page reads left: by one more than the bytes, or, once
an empty page has been read, by as many. -/
inductive Enough (spec : DictSpec) (src : PageSource) (reads pageNo remaining : Nat) : Prop where
  | spare : remaining + 1 ≤ reads → Enough spec src reads pageNo remaining
  | exact {k : Nat} : remaining ≤ reads → 0 < remaining → OnesAfterEmpty spec src k pageNo →
      k + remaining < 2 ^ 32 → Enough spec src reads pageNo remaining

/-- Reading takes a page. -/
theorem Enough.pos {reads : Nat} (h : Enough spec src reads pageNo remaining) : 0 < reads := by
  cases h with
  | spare h => omega
  | exact h hpos => omega

/-- A page that leaves bytes to read leaves enough reads for them. -/
theorem Enough.next {reads next used : Nat} (hruns : ∀ k, k + 1 < 2 ^ 32 → ¬ EmptyRun spec src k)
    (h : Enough spec src (reads + 1) pageNo (remaining + used)) (hlink : Linked spec src pageNo used next)
    (hpos : 0 < remaining) (hlt : remaining + used < 2 ^ 32) : Enough spec src reads next remaining := by
  cases h with
  | spare hle =>
      -- an empty page uses up the spare read, a page of bytes keeps it
      rcases Nat.eq_zero_or_pos used with hzero | hused
      · subst hzero
        exact .exact (by omega) hpos (.empty hlink) (by omega)
      · exact .spare (by omega)
  | @exact k hle _ hones hk =>
      rcases Nat.eq_zero_or_pos used with hzero | hused
      · subst hzero
        exact absurd ⟨pageNo, next, hones, hlink⟩ (hruns k (by omega))
      rcases Nat.eq_or_lt_of_le hused with hone | hmore
      · subst hone
        exact .exact (by omega) hpos (.one hones hlink) (by omega)
      · exact .spare (by omega)

/-- Where no two empty pages are that close, the reader ends within its page reads. -/
theorem readsChain_ends {reads : Nat} (hruns : ∀ k, k + 1 < 2 ^ 32 → ¬ EmptyRun spec src k)
    (hlt : remaining < 2 ^ 32) (h : Enough spec src reads pageNo remaining) :
    ∃ r, readsChain spec src reads pageNo remaining = some r ∧ ∀ bs, r = .ok bs → bs.length = remaining := by
  induction reads generalizing pageNo remaining with
  | zero => exact absurd h.pos (lt_irrefl 0)
  | succ reads ih =>
      unfold readsChain
      cases hpage : chainHop spec src pageNo remaining with
      | error e =>
          refine ⟨.error e, rfl, ?_⟩
          intro bs hbs
          cases hbs
      | ok p =>
          rcases p with ⟨payload, next⟩
          have hle := (chainHop_ok hpage).1
          dsimp only
          split_ifs with hdone hnext
          · refine ⟨.ok payload, rfl, ?_⟩
            intro bs hbs
            cases hbs
            omega
          · refine ⟨_, rfl, ?_⟩
            intro bs hbs
            cases hbs
          · have hlink : Linked spec src pageNo payload.length next :=
              ⟨⟨payload, (chainHop_ok hpage).2 _ (le_max_left _ _), rfl⟩, hnext⟩
            have hsplit : remaining = remaining - payload.length + payload.length := by omega
            rw [hsplit] at h hlt
            have henough := h.next hruns hlink (by omega) hlt
            rcases ih (by omega) henough with ⟨r, hr, hlen⟩
            refine ⟨r.map (payload ++ ·), by rw [hr]; rfl, ?_⟩
            intro bs hbs
            cases r with
            | error e => cases hbs
            | ok rest =>
                have hrest := hlen rest rfl
                cases hbs
                rw [List.length_append]
                omega

/-! ## Lookups -/

/-- The length in an overflow cell of a decoded leaf is a 32-bit number. -/
theorem decodeValue_overflow {page : Bytes} {off contentEnd totalLen firstPage off' : Nat}
    (h : decodeValue page off contentEnd pageNo = .ok (.overflow totalLen firstPage, off')) :
    totalLen < 2 ^ 32 := by
  unfold decodeValue at h
  rcases bind_eq_ok.mp h with ⟨tag, _, h⟩
  split_ifs at h
  · rcases bind_eq_ok.mp h with ⟨body, _, h⟩
    cases h
  · rcases bind_eq_ok.mp h with ⟨⟨len, o⟩, hlen, hcell⟩
    rcases bind_eq_ok.mp hcell with ⟨⟨first, o'⟩, _, hnull⟩
    dsimp only at hnull
    split_ifs at hnull
    · cases hnull
    · cases hnull
      rcases bind_eq_ok.mp hlen with ⟨v, hv, hpair⟩
      cases hpair
      exact readLE_lt (okOr_eq_ok.mp hv)
  · cases h

/-- The length of an overflow value that was read fits four bytes. -/
theorem decodeEntries_overflow {page : Bytes} {off contentEnd totalLen firstPage n : Nat} {prev : Option Bytes}
    {es : List (Bytes × Cell)} {key : Bytes} (h : decodeEntries page contentEnd pageNo n off prev = .ok es)
    (hmem : (key, Cell.overflow totalLen firstPage) ∈ es) : totalLen < 2 ^ 32 := by
  induction n generalizing off prev es with
  | zero =>
      cases h
      cases hmem
  | succ n ih =>
      rcases bind_eq_ok.mp h with ⟨⟨key', off'⟩, _, h⟩
      dsimp only at h
      split_ifs at h
      · cases h
      rcases bind_eq_ok.mp h with ⟨⟨value, off''⟩, hvalue, h⟩
      rcases bind_eq_ok.mp h with ⟨rest, hrest, h⟩
      cases h
      rcases List.mem_cons.mp hmem with heq | hmem
      · cases heq
        exact decodeValue_overflow hvalue
      · exact ih hrest hmem

/-- So it does in a leaf. -/
theorem decodeNode_overflow {page : Bytes} {totalLen firstPage : Nat} {es : List (Bytes × Cell)} {key : Bytes}
    (h : decodeNode spec page pageNo = .ok (.leaf es)) (hmem : (key, Cell.overflow totalLen firstPage) ∈ es) :
    totalLen < 2 ^ 32 := by
  rcases bind_eq_ok.mp h with ⟨header, _, h⟩
  split_ifs at h
  · cases h
  rcases bind_eq_ok.mp h with ⟨kind, _, h⟩
  dsimp only at h
  split_ifs at h
  · rcases bind_eq_ok.mp h with ⟨entries, hentries, h⟩
    cases h
    exact decodeEntries_overflow hentries hmem
  · cases h
  · rcases bind_eq_ok.mp h with ⟨⟨rightmost, off⟩, _, h⟩
    dsimp only at h
    split_ifs at h
    · cases h
    · rcases bind_eq_ok.mp h with ⟨entries, _, h⟩
      cases h
  · cases h

/-- So it does for a value that a lookup finds. -/
theorem lookup_overflow {key : Bytes} {totalLen firstPage leaf : Nat}
    (h : (tree H spec).lookup src key n pageNo = .ok (some (.overflow totalLen firstPage, leaf))) :
    totalLen < 2 ^ 32 := by
  induction n generalizing pageNo with
  | zero => cases h
  | succ n ih =>
      rcases bind_eq_ok.mp h with ⟨page, _, h⟩
      rcases bind_eq_ok.mp h with ⟨node, hnode, h⟩
      cases node with
      | leaf entries =>
          have hfind := Except.ok.inj h
          rcases Option.map_eq_some_iff.mp hfind with ⟨cell, hcell, heq⟩
          cases heq
          exact decodeNode_overflow hnode (Assoc.mem_of_find hcell)
      | inner entries rightmost => exact ih h

/-- A lookup ends where the chains do. -/
theorem getReads_ends (hchain : ∀ first total, total < 2 ^ 32 → ∃ r, readsChain spec src (total + 1) first total = some r)
    (root : Nat) (key : Bytes) : ∃ r, getReads H spec src root key = some r := by
  unfold getReads
  split_ifs with hroot
  · exact ⟨_, rfl⟩
  cases hlookup : (tree H spec).lookup src key MAX_DEPTH root with
  | error e => exact ⟨_, rfl⟩
  | ok found =>
      rcases found with _ | ⟨cell, leaf⟩
      · exact ⟨_, rfl⟩
      cases cell with
      | inline body => exact ⟨_, rfl⟩
      | overflow totalLen firstPage =>
          rcases hchain firstPage totalLen (lookup_overflow hlookup) with ⟨r, hr⟩
          refine ⟨r.map fun body => some (body, firstPage), ?_⟩
          dsimp only
          rw [hr]
          rfl

/-- `get` is the lookup that is given enough page reads. -/
theorem get_of_getReads {root : Nat} {key : Bytes} {r : Except Error (Option (Bytes × Nat))}
    (h : getReads H spec src root key = some r) : get H spec src root key = r := by
  unfold getReads at h
  unfold get
  split_ifs at h ⊢
  · exact Option.some.inj h
  cases hlookup : (tree H spec).lookup src key MAX_DEPTH root with
  | error e =>
      rw [hlookup] at h
      exact Option.some.inj h
  | ok found =>
      rw [hlookup] at h
      rcases found with _ | ⟨cell, leaf⟩
      · exact Option.some.inj h
      cases cell with
      | inline body => exact Option.some.inj h
      | overflow totalLen firstPage =>
          rcases Option.map_eq_some_iff.mp h with ⟨r', hr', rfl⟩
          show (do
            let body ← readOverflowChain spec src (totalLen + 1) firstPage totalLen
            .ok (some (body, firstPage))) = _
          rw [readOverflowChain_of_reads hr']
          cases r' <;> rfl

end Reads

end Dict

open Dict

/-- Reads end on a file exactly if no chain of it holds two empty pages with fewer than
`2 ^ 32 - 1` pages of one byte, and no others, between them. -/
theorem dict_reads_end_iff (H : Xxh3) (spec : DictSpec) (src : PageSource) :
    ReadsEnd H spec src ↔ ∀ k, k + 1 < 2 ^ 32 → ¬ EmptyRun spec src k := by
  constructor
  · intro h k hk hrun
    rcases readsChain_emptyRun hrun with ⟨first, hfirst⟩
    rcases h.chain first (k + 1) hk with ⟨r, hr, _⟩
    rw [hfirst] at hr
    cases hr
  · intro hruns
    have hchain : ∀ first total, total < 2 ^ 32 → ∃ r, readsChain spec src (total + 1) first total = some r ∧
        ∀ bs, r = .ok bs → bs.length = total := by
      intro first total htotal
      exact readsChain_ends hruns htotal (.spare le_rfl)
    refine ⟨hchain, getReads_ends ?_⟩
    intro first total htotal
    rcases hchain first total htotal with ⟨r, hr, _⟩
    exact ⟨r, hr⟩

/-- A file whose every page is an empty overflow page that points at page 1. -/
def cyclicSource : PageSource where
  page _ := .ok ((PageHeader.mk FTS_DICT.overflow 0 1).encodeInto (List.replicate 512 0))
  pageSize := 512
  formatVersion := FORMAT_VERSION

set_option maxRecDepth 10000 in
theorem cyclicSource_page : chainHop FTS_DICT cyclicSource 1 1 = .ok ([], 1) := by decide +kernel

theorem cyclicSource_linked : Linked FTS_DICT cyclicSource 1 0 1 :=
  ⟨⟨[], cyclicSource_page, rfl⟩, Nat.one_ne_zero⟩

/-- A page that is empty and its own successor is read again and again. -/
theorem readsChain_cyclicSource (reads : Nat) : readsChain FTS_DICT cyclicSource reads 1 1 = none := by
  induction reads with
  | zero => rfl
  | succ reads ih =>
      have hstep := @readsChain_linked FTS_DICT cyclicSource 1 1 0 1 reads cyclicSource_linked Nat.one_pos ih
      rwa [Nat.add_zero] at hstep

/-- No number of page reads ends the chain of one byte that starts there. -/
theorem dict_reads_cycle : (∀ reads, readsChain FTS_DICT cyclicSource reads 1 1 = none) ∧
    ∀ H, ¬ ReadsEnd H FTS_DICT cyclicSource := by
  constructor
  · intro reads
    exact readsChain_cyclicSource reads
  · intro H h
    rcases h.chain 1 1 (by norm_num) with ⟨r, hr, _⟩
    rw [readsChain_cyclicSource] at hr
    cases hr

end EmbedMind
