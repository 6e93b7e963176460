import EmbedMind.Index.FilterMeta
import EmbedMind.Lib.Decoding
import EmbedMind.Storage.ItemChain

/-!
# What the sidecar's pages hold

The page decoders accept exactly the pages that hold well-formed items (`decodeEntries_iff`,
`decodeSymbols_iff`), and the walk over a chain accepts exactly the chains that end
(`walkChain_iff`): on a page cycle it stops with an error. Both are about arbitrary bytes;
the chains that the writer builds are a case of them.
-/

namespace EmbedMind

open Lib Lib.Assoc

namespace FilterMeta

/-! ## Entry pages -/

/-- The numbers of an entry are within their fields. -/
structure Entry.Wf (e : Entry) : Prop where
  projectSym : e.projectSym < 2 ^ 32
  agentSym : e.agentSym < 2 ^ 32
  docLen : e.docLen < 2 ^ 32

def encodeEntry (e : Ulid × Entry) : Bytes := e.2.encode e.1

@[simp] theorem encodeEntry_length (e : Ulid × Entry) : (encodeEntry e).length = ENTRY_LEN := by
  simp [encodeEntry, Entry.encode, ENTRY_LEN]

/-- The entries of a page have one length. -/
@[simp] theorem flatMap_encodeEntry_length (es : List (Ulid × Entry)) :
    (es.flatMap encodeEntry).length = es.length * ENTRY_LEN := by
  induction es with
  | nil => simp
  | cons e es ih =>
      rw [List.flatMap_cons, List.length_append, encodeEntry_length, ih, List.length_cons]
      ring

/-- An entry is decoded from its own bytes only. -/
theorem decodeEntry_iff {bytes : Bytes} {pageNo : Nat} {e : Ulid × Entry} (hlen : bytes.length = ENTRY_LEN) :
    decodeEntry bytes pageNo = .ok e ↔ bytes = encodeEntry e ∧ e.2.Wf := by
  rcases e with ⟨id, flags, projectSym, agentSym, docLen⟩
  constructor
  · intro h
    rcases bind_eq_ok.mp h with ⟨idBytes, hid, h⟩
    rcases bind_eq_ok.mp h with ⟨p, hp, h⟩
    rcases bind_eq_ok.mp h with ⟨a, ha, h⟩
    rcases bind_eq_ok.mp h with ⟨d, hd, h⟩
    rw [okOr_eq_ok] at hid hp ha hd
    cases h
    have hflag : HasAt bytes 16 [bytes.getD 16 0] := by
      refine hasAt_of_getElem? ?_
      rw [List.getD_eq_getElem?_getD, List.getElem?_eq_getElem (by rw [hlen, ENTRY_LEN]; omega)]
      rfl
    -- the fields stand one after the other and fill the bytes
    have hall : HasAt bytes 0 (encodeEntry (Ulid.fromBytes idBytes, ⟨bytes.getD 16 0, projectSym, agentSym, docLen⟩)) := by
      rw [encodeEntry, Entry.encode, Ulid.toBytes_fromBytes (slice_length hid), hasAt_append, hasAt_cons,
        hasAt_append, hasAt_append]
      simp only [slice_length hid, List.length_append, leBytes_length]
      exact ⟨hasAt_of_slice hid, hflag, ⟨hasAt_of_readLE hp, hasAt_of_readLE ha⟩, hasAt_of_readLE hd⟩
    refine ⟨?_, ⟨by simpa using readLE_lt hp, by simpa using readLE_lt ha, by simpa using readLE_lt hd⟩⟩
    have hwhole := (slice_eq_some.mp (hall.slice (encodeEntry_length _))).2
    rwa [List.drop_zero, ← hlen, List.take_length] at hwhole
  · intro h
    rcases h with ⟨hbytes, hp, ha, hd⟩
    have hall : HasAt bytes 0 (encodeEntry (id, ⟨flags, projectSym, agentSym, docLen⟩)) := by
      rw [← hbytes]
      exact hasAt_zero bytes
    rw [encodeEntry, Entry.encode, hasAt_append, hasAt_cons, hasAt_append, hasAt_append] at hall
    rcases hall with ⟨hid, hflag, ⟨hproject, hagent⟩, hdoc⟩
    simp only [Ulid.toBytes_length, List.length_append, leBytes_length] at hflag hproject hagent hdoc
    have hget : bytes.getD 16 0 = flags := by
      have := hflag.getElem?
      rw [List.getD_eq_getElem?_getD, show (16 : Nat) = 0 + 16 from rfl, this]
      rfl
    unfold decodeEntry
    rw [hid.slice (Ulid.toBytes_length id), hproject.readLE (by simpa using hp), hagent.readLE (by simpa using ha),
      hdoc.readLE (by simpa using hd), hget]
    simp only [okOr_some, ok_bind, Ulid.fromBytes_toBytes]

/-- So is a run of entries. -/
theorem decodeEntryRun_iff {page : Bytes} {pageNo count i : Nat} {es : List (Ulid × Entry)} :
    decodeEntryRun page pageNo count i = .ok es ↔
      es.length = count ∧ (count = 0 ∨ HasAt page (PAGE_HEADER_LEN + i * ENTRY_LEN) (es.flatMap encodeEntry)) ∧
        ∀ e ∈ es, e.2.Wf := by
  induction count generalizing i es with
  | zero =>
      constructor
      · intro h
        cases h
        exact ⟨rfl, Or.inl rfl, by simp⟩
      · intro h
        rw [List.length_eq_zero_iff.mp h.1]
        rfl
  | succ count ih =>
      have hoff : PAGE_HEADER_LEN + i * ENTRY_LEN + ENTRY_LEN = PAGE_HEADER_LEN + (i + 1) * ENTRY_LEN := by ring
      constructor
      · intro h
        -- read: the first entry, then the run behind it
        rcases bind_eq_ok.mp h with ⟨bytes, hbytes, h⟩
        rcases bind_eq_ok.mp h with ⟨entry, hentry, h⟩
        rcases bind_eq_ok.mp h with ⟨rest, hrest, h⟩
        cases h
        rw [okOr_eq_ok] at hbytes
        rcases (decodeEntry_iff (slice_length hbytes)).mp hentry with ⟨rfl, hwf⟩
        rcases ih.mp hrest with ⟨hlen, hat, hall⟩
        refine ⟨by rw [List.length_cons, hlen], Or.inr ?_, ?_⟩
        · rw [List.flatMap_cons, hasAt_append, encodeEntry_length, hoff]
          refine ⟨hasAt_of_slice hbytes, ?_⟩
          rcases hat with h0 | hat
          · -- no entry follows: the empty string stands behind the last one
            rw [h0] at hlen
            rw [List.length_eq_zero_iff.mp hlen, List.flatMap_nil, ← hoff]
            have hle := (slice_eq_some.mp hbytes).1
            exact slice_of_le (by simpa using hle)
          · exact hat
        · intro e he
          rcases List.mem_cons.mp he with rfl | he
          · exact hwf
          · exact hall e he
      · intro h
        rcases h with ⟨hlen, hat, hall⟩
        -- written: the same steps the other way
        cases es with
        | nil => cases hlen
        | cons e es =>
            rcases hat with h0 | hat
            · cases h0
            rw [List.flatMap_cons, hasAt_append, encodeEntry_length, hoff] at hat
            rcases hat with ⟨hentry, hat⟩
            unfold decodeEntryRun
            rw [hentry.slice (encodeEntry_length e), okOr_some, ok_bind,
              (decodeEntry_iff (encodeEntry_length e)).mpr ⟨rfl, hall e List.mem_cons_self⟩, ok_bind,
              ih.mpr ⟨Nat.succ.inj hlen, Or.inr hat, fun e' he' => hall e' (List.mem_cons_of_mem _ he')⟩, ok_bind]

/-- An entry page is accepted exactly when it holds the entries it is read as. -/
theorem decodeEntries_iff {page : Bytes} {pageNo : Nat} {es : List (Ulid × Entry)}
    (hlen : PAGE_HEADER_LEN + PAGE_TRAILER_LEN ≤ page.length) :
    decodeEntries page pageNo = .ok es ↔
      ∃ next, ItemPage .filterMeta page.length encodeEntry page es next ∧ ∀ e ∈ es, e.2.Wf := by
  constructor
  · intro h
    rcases bind_eq_ok.mp h with ⟨header, hheader, h⟩
    rw [okOr_eq_ok] at hheader
    split at h
    · cases h
    rename_i htype
    split at h
    · cases h
    rename_i hcount
    rcases decodeEntryRun_iff.mp h with ⟨hnum, hat, hall⟩
    -- the count passed the capacity check, so the entries end before the trailer
    have hfits : PAGE_HEADER_LEN + es.length * ENTRY_LEN ≤ page.length - PAGE_TRAILER_LEN := by
      have hle : header.entryCount * ENTRY_LEN ≤ page.length - (PAGE_HEADER_LEN + PAGE_TRAILER_LEN) :=
        le_trans (Nat.mul_le_mul_right _ (not_lt.mp hcount)) (Nat.div_mul_le_self _ _)
      rw [hnum]
      omega
    refine ⟨header.nextPage, ?_, hall⟩
    constructor
    case length => rfl
    case header =>
      rw [hheader, ← not_not.mp htype, hnum]
    case fits => rwa [flatMap_encodeEntry_length]
    case body =>
      rcases hat with h0 | hat
      · rw [h0] at hnum
        rw [List.length_eq_zero_iff.mp hnum, List.flatMap_nil]
        exact slice_of_le (by simp only [List.length_nil]; omega)
      · simpa using hat
  · intro h
    rcases h with ⟨next, hpage, hall⟩
    have hfits := hpage.fits
    rw [flatMap_encodeEntry_length] at hfits
    -- and entries that fit pass that check
    have hcap : es.length ≤ entryCapacity page.length := by
      rw [entryCapacity, Nat.le_div_iff_mul_le (by rw [ENTRY_LEN]; omega)]
      omega
    unfold decodeEntries
    rw [hpage.header, okOr_some, ok_bind, if_neg (not_not.mpr rfl), if_neg (not_lt.mpr hcap)]
    refine decodeEntryRun_iff.mpr ⟨rfl, Or.inr ?_, hall⟩
    simpa using hpage.body

/-! ## Symbol pages -/

/-- A symbol that can be stored: a number other than the reserved one, a string of two-byte length. -/
structure SymbolOk (sym : Nat × String) : Prop where
  pos : 0 < sym.1
  lt : sym.1 < 2 ^ 32
  length : (utf8 sym.2).length < 2 ^ 16

/-- The bytes of a symbol. -/
theorem encodeSymbol_length (sym : Nat × String) :
    (encodeSymbol sym).length = SYMBOL_PREFIX_LEN + (utf8 sym.2).length := by
  simp only [encodeSymbol, SYMBOL_PREFIX_LEN, List.length_append, leBytes_length]

/-- Every string ends in front of the checksum. -/
def SymbolsFit (bodyEnd : Nat) : Nat → List (Nat × String) → Prop
  | _, [] => True
  | off, sym :: rest =>
      (utf8 sym.2).length ≤ bodyEnd - (off + SYMBOL_PREFIX_LEN) ∧
        SymbolsFit bodyEnd (off + (encodeSymbol sym).length) rest

/-- Symbols that end within the body fit. -/
theorem symbolsFit_of_le {bodyEnd off : Nat} {syms : List (Nat × String)}
    (h : off + (syms.flatMap encodeSymbol).length ≤ bodyEnd) : SymbolsFit bodyEnd off syms := by
  induction syms generalizing off with
  | nil => trivial
  | cons sym syms ih =>
      rw [List.flatMap_cons, List.length_append] at h
      have hlen := encodeSymbol_length sym
      exact ⟨by omega, ih (by omega)⟩

/-- A run of symbols is decoded from its own bytes, within the body of the page. -/
theorem decodeSymbolRun_iff {page : Bytes} {pageNo bodyEnd count off : Nat} {syms : List (Nat × String)} :
    decodeSymbolRun page pageNo bodyEnd count off = .ok syms ↔
      syms.length = count ∧ (count = 0 ∨ HasAt page off (syms.flatMap encodeSymbol)) ∧
        SymbolsFit bodyEnd off syms ∧ ∀ sym ∈ syms, SymbolOk sym := by
  induction count generalizing off syms with
  | zero =>
      constructor
      · intro h
        cases h
        exact ⟨rfl, Or.inl rfl, trivial, by simp⟩
      · intro h
        rw [List.length_eq_zero_iff.mp h.1]
        rfl
  | succ count ih =>
      constructor
      · intro h
        -- what was read is an encoded symbol
        rcases bind_eq_ok.mp h with ⟨sym, hsym, h⟩
        split at h
        · cases h
        rename_i hne
        rcases bind_eq_ok.mp h with ⟨len, hlen, h⟩
        dsimp only at h
        split at h
        · cases h
        rename_i hfit
        rcases bind_eq_ok.mp h with ⟨s, hs, h⟩
        rcases bind_eq_ok.mp h with ⟨rest, hrest, h⟩
        cases h
        rw [okOr_eq_ok] at hsym hlen hs
        rcases Option.bind_eq_some_iff.mp hs with ⟨bytes, hbytes, hutf⟩
        have hutf' := utf8_of_ofUtf8? hutf
        have hslen : (utf8 s).length = len := by
          rw [hutf']
          exact slice_length hbytes
        have hsize : (encodeSymbol (sym, s)).length = SYMBOL_PREFIX_LEN + len := by
          rw [encodeSymbol_length, hslen]
        have hnext : off + (encodeSymbol (sym, s)).length = off + SYMBOL_PREFIX_LEN + len := by
          rw [hsize]
          omega
        rcases ih.mp hrest with ⟨hnum, hat, hfits, hall⟩
        -- the bytes of the first symbol stand in the page
        have hfirst : HasAt page off (encodeSymbol (sym, s)) := by
          rw [encodeSymbol, hasAt_append, hasAt_append, List.length_append, leBytes_length, leBytes_length, hslen]
          refine ⟨⟨hasAt_of_readLE hsym, hasAt_of_readLE hlen⟩, ?_⟩
          rw [hutf']
          exact hasAt_of_slice hbytes
        -- and those of the rest follow
        refine ⟨by rw [List.length_cons, hnum], Or.inr ?_, ⟨?_, ?_⟩, ?_⟩
        · rw [List.flatMap_cons, hasAt_append, hnext]
          refine ⟨hfirst, ?_⟩
          rcases hat with h0 | hat
          · rw [h0] at hnum
            rw [List.length_eq_zero_iff.mp hnum, List.flatMap_nil, ← hnext]
            exact slice_of_le (by simpa using hfirst.le)
          · exact hat
        · rw [hslen]
          exact not_lt.mp hfit
        · rw [hnext]
          exact hfits
        · intro x hx
          rcases List.mem_cons.mp hx with rfl | hx
          · refine ⟨Nat.pos_of_ne_zero hne, by simpa using readLE_lt hsym, ?_⟩
            rw [hslen]
            simpa using readLE_lt hlen
          · exact hall x hx
      · intro h
        -- symbols that stand in the page are read back one by one
        rcases h with ⟨hnum, hat, hfits, hall⟩
        cases syms with
        | nil => cases hnum
        | cons x syms =>
            rcases x with ⟨sym, s⟩
            rcases hat with h0 | hat
            · cases h0
            rcases hfits with ⟨hfit, hfits⟩
            have hok := hall (sym, s) List.mem_cons_self
            have hnext : off + (encodeSymbol (sym, s)).length = off + SYMBOL_PREFIX_LEN + (utf8 s).length := by
              rw [encodeSymbol_length, Nat.add_assoc]
            rw [List.flatMap_cons, hasAt_append, hnext] at hat
            rcases hat with ⟨hfirst, hat⟩
            rw [encodeSymbol, hasAt_append, hasAt_append, List.length_append, leBytes_length, leBytes_length] at hfirst
            rcases hfirst with ⟨⟨hsym, hlen⟩, hs⟩
            rw [hnext] at hfits
            unfold decodeSymbolRun
            have hne : sym ≠ SYM_NONE := Nat.ne_of_gt hok.pos
            rw [hsym.readLE (by simpa using hok.lt), okOr_some, ok_bind, if_neg hne,
              hlen.readLE (by simpa using hok.length), okOr_some, ok_bind]
            dsimp only
            have hs' : slice page (off + SYMBOL_PREFIX_LEN) (utf8 s).length = some (utf8 s) := hs
            rw [if_neg (not_lt.mpr hfit), hs', Option.bind_some, ofUtf8?_utf8, okOr_some, ok_bind,
              ih.mpr ⟨Nat.succ.inj hnum, Or.inr hat, hfits, fun x hx => hall x (List.mem_cons_of_mem _ hx)⟩, ok_bind]

/-- A symbol page is accepted exactly when it holds the symbols it is read as, and no more of
them than fit. -/
theorem decodeSymbols_iff {page : Bytes} {pageNo : Nat} {syms : List (Nat × String)} :
    decodeSymbols page pageNo = .ok syms ↔
      (∃ next, PageHeader.decode page = some ⟨.filterSymbols, syms.length, next⟩) ∧
        syms.length ≤ (page.length - PAGE_TRAILER_LEN - PAGE_HEADER_LEN) / SYMBOL_PREFIX_LEN ∧
        HasAt page PAGE_HEADER_LEN (syms.flatMap encodeSymbol) ∧
        SymbolsFit (page.length - PAGE_TRAILER_LEN) PAGE_HEADER_LEN syms ∧ ∀ sym ∈ syms, SymbolOk sym := by
  constructor
  · intro h
    rcases bind_eq_ok.mp h with ⟨header, hheader, h⟩
    rw [okOr_eq_ok] at hheader
    split at h
    · cases h
    rename_i htype
    dsimp only at h
    split at h
    · cases h
    rename_i hcount
    rcases decodeSymbolRun_iff.mp h with ⟨hnum, hat, hfits, hall⟩
    refine ⟨⟨header.nextPage, ?_⟩, ?_, ?_, hfits, hall⟩
    · rw [hheader, ← not_not.mp htype, hnum]
    · rw [hnum]
      exact not_lt.mp hcount
    · rcases hat with h0 | hat
      · rw [h0] at hnum
        rw [List.length_eq_zero_iff.mp hnum, List.flatMap_nil]
        exact slice_of_le (PageHeader.decode_bounds hheader).1
      · exact hat
  · intro h
    rcases h with ⟨⟨next, hheader⟩, hcount, hat, hfits, hall⟩
    unfold decodeSymbols
    rw [hheader, okOr_some, ok_bind, if_neg (not_not.mpr rfl)]
    dsimp only
    rw [if_neg (not_lt.mpr hcount)]
    exact decodeSymbolRun_iff.mpr ⟨rfl, Or.inr hat, hfits, hall⟩

/-- Symbols take at least their prefixes. -/
theorem symbolsLength_le (syms : List (Nat × String)) :
    syms.length * SYMBOL_PREFIX_LEN ≤ (syms.flatMap encodeSymbol).length := by
  induction syms with
  | nil => simp
  | cons sym syms ih =>
      have hlen := encodeSymbol_length sym
      rw [List.flatMap_cons, List.length_append, List.length_cons, Nat.succ_mul]
      omega

/-- The pages that the writer leaves are accepted. -/
theorem decodeSymbols_of_page {page : Bytes} {pageNo next : Nat} {syms : List (Nat × String)}
    (hpage : ItemPage .filterSymbols page.length encodeSymbol page syms next) (hall : ∀ sym ∈ syms, SymbolOk sym) :
    decodeSymbols page pageNo = .ok syms := by
  have hfits := hpage.fits
  have hsix := symbolsLength_le syms
  refine decodeSymbols_iff.mpr ⟨⟨next, hpage.header⟩, ?_, hpage.body, symbolsFit_of_le hfits, hall⟩
  rw [Nat.le_div_iff_mul_le (by rw [SYMBOL_PREFIX_LEN]; omega)]
  omega

/-! ## Walking a chain -/

/-- The pages from a head on, each of the expected type, down to a page without a next one. -/
inductive Linked (src : PageSource) (ty : PageType) : Nat → List Nat → Prop where
  | nil : Linked src ty 0 []
  | cons {head : Nat} {page : Bytes} {header : PageHeader} {rest : List Nat} (hne : head ≠ 0)
      (hpage : src.page head = .ok page) (hheader : PageHeader.decode page = some header)
      (htype : header.pageType = ty) (hrest : Linked src ty header.nextPage rest) :
      Linked src ty head (head :: rest)

section Walk

variable {src : PageSource} {ty : PageType} {head : Nat} {ps : List Nat}

/-- The pages of a chain are determined. -/
theorem Linked.unique {qs : List Nat} (h : Linked src ty head ps) (h' : Linked src ty head qs) : ps = qs := by
  induction h generalizing qs with
  | nil =>
      generalize hz : 0 = n at h'
      cases h' with
      | nil => rfl
      | cons hne => exact absurd hz.symm hne
  | cons hne hpage hheader _ _ ih =>
      cases h' with
      | nil => exact absurd rfl hne
      | cons _ hpage' hheader' _ hrest' =>
          rw [hpage] at hpage'
          cases hpage'
          rw [hheader] at hheader'
          cases hheader'
          rw [ih hrest']

/-- A page of a chain starts a chain of its own, which is shorter unless it is the head. -/
theorem Linked.suffix (h : Linked src ty head ps) {p : Nat} (hp : p ∈ ps) :
    ∃ qs, Linked src ty p qs ∧ qs.length ≤ ps.length ∧ (p ≠ head → qs.length < ps.length) := by
  induction h with
  | nil => cases hp
  | @cons head page header rest hne hpage hheader htype hrest ih =>
      rcases List.mem_cons.mp hp with rfl | hp
      · exact ⟨p :: rest, Linked.cons hne hpage hheader htype hrest, le_refl _, fun h => absurd rfl h⟩
      · rcases ih hp with ⟨qs, hqs, hle, _⟩
        rw [List.length_cons]
        exact ⟨qs, hqs, by omega, fun _ => by omega⟩

/-- A chain that ends repeats no page. -/
theorem Linked.nodup (h : Linked src ty head ps) : ps.Nodup := by
  induction h with
  | nil => exact List.nodup_nil
  | @cons head page header rest hne hpage hheader htype hrest ih =>
      refine List.nodup_cons.mpr ⟨?_, ih⟩
      intro hmem
      -- the head again: the chain from there is as long as this one, and shorter
      rcases hrest.suffix hmem with ⟨qs, hqs, hle, _⟩
      have heq := hqs.unique (Linked.cons hne hpage hheader htype hrest)
      rw [heq, List.length_cons] at hle
      omega

/-- The pages of a chain have page numbers. -/
theorem Linked.lt (h : Linked src ty head ps) (hhead : head < 2 ^ 64) : ∀ p ∈ ps, p < 2 ^ 64 := by
  induction h with
  | nil => simp
  | cons _ _ hheader _ _ ih =>
      intro p hp
      rcases List.mem_cons.mp hp with rfl | hp
      · exact hhead
      · exact ih (PageHeader.decode_bounds hheader).2.2 p hp

/-- The walk finds a chain that is linked, short enough, and not seen before. -/
theorem walkFrom_iff {fuel : Nat} {seen : List Nat} :
    walkFrom src ty fuel seen head = .ok ps ↔
      Linked src ty head ps ∧ ps.length < fuel ∧ ∀ p ∈ ps, p ∉ seen := by
  induction fuel generalizing seen head ps with
  | zero =>
      constructor
      · intro h
        cases h
      · intro h
        exact absurd h.2.1 (Nat.not_lt_zero _)
  | succ fuel ih =>
      unfold walkFrom
      by_cases hzero : head = 0
      · rw [if_pos hzero]
        subst hzero
        constructor
        -- a page that is visited is linked, and was not seen
        · intro h
          cases h
          exact ⟨Linked.nil, Nat.succ_pos _, by simp⟩
        · intro h
          rw [h.1.unique Linked.nil]
      · rw [if_neg hzero]
        constructor
        · intro h
          split at h
          · cases h
          rename_i hseen
          rcases bind_eq_ok.mp h with ⟨page, hpage, h⟩
          rcases bind_eq_ok.mp h with ⟨header, hheader, h⟩
          rw [okOr_eq_ok] at hheader
          split at h
          · cases h
          rename_i htype
          rcases bind_eq_ok.mp h with ⟨rest, hrest, h⟩
          cases h
          rcases ih.mp hrest with ⟨hlinked, hlt, hnot⟩
          refine ⟨Linked.cons hzero hpage hheader (not_not.mp htype) hlinked, ?_, ?_⟩
          · rw [List.length_cons]
            omega
          · intro p hp
            rcases List.mem_cons.mp hp with rfl | hp
            · exact hseen
            · exact fun hin => hnot p hp (List.mem_cons_of_mem _ hin)
        · intro h
          -- a chain without repetitions is walked to its end
          rcases h with ⟨hlinked, hlt, hnot⟩
          have hnd := hlinked.nodup
          cases hlinked with
          | nil => exact absurd rfl hzero
          | @cons _ page header rest _ hpage hheader htype hrest =>
              rw [List.length_cons] at hlt
              have hwalk : walkFrom src ty fuel (head :: seen) header.nextPage = .ok rest := by
                refine ih.mpr ⟨hrest, by omega, ?_⟩
                intro p hp hin
                rcases List.mem_cons.mp hin with rfl | hin
                · exact (List.nodup_cons.mp hnd).1 hp
                · exact hnot p (List.mem_cons_of_mem _ hp) hin
              rw [if_neg (hnot head List.mem_cons_self), hpage, ok_bind, hheader, okOr_some, ok_bind,
                if_neg (not_not.mpr htype), hwalk, ok_bind]

/-- The walk succeeds exactly on the chains that end. There are fewer pages than steps, so it
stops on every other source with an error. -/
theorem walkChain_iff (hhead : head < 2 ^ 64) : walkChain src head ty = .ok ps ↔ Linked src ty head ps := by
  unfold walkChain
  rw [walkFrom_iff]
  constructor
  · intro h
    exact h.1
  · intro h
    refine ⟨h, ?_, by simp⟩
    have hsub : ps.Subperm (List.range (2 ^ 64)) := by
      refine List.subperm_of_subset h.nodup ?_
      intro p hp
      exact List.mem_range.mpr (h.lt hhead p hp)
    have hle := hsub.length_le
    rw [List.length_range] at hle
    unfold WALK_FUEL
    omega

end Walk

/-- A chain of item pages is linked. -/
theorem linked_of_chain {α : Type} {enc : α → Bytes} {src : PageSource} {ty : PageType} {head : Nat}
    {ps : List (Nat × List α)} (h : ItemChain ty src.pageSize enc src.view head ps) :
    Linked src ty head (chainPagesOf ps) := by
  induction h with
  | nil => exact Linked.nil
  | cons hne hview hpage _ ih => exact Linked.cons hne (PageSource.page_of_view hview) hpage.header rfl ih

end FilterMeta

end EmbedMind
