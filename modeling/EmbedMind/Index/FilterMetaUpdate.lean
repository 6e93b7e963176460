import EmbedMind.Index.FilterMetaProof
import EmbedMind.Lib.Sorting

/-!
# Updating and loading the sidecar

`At` says what a view shows of a sidecar: the log of its entries, newest first, and its
symbols. An update adds one entry to the log and the symbols it has to intern
(`wp_recordUpdate`); the only error is that the file is full. A load gives the newest entry
of each id and the number of each string (`At.load`).
-/

namespace EmbedMind

open Lib Lib.Assoc

namespace FilterMeta

/-- Entries by id, newest first. -/
abbrev Entries := List (Ulid × Entry)

/-- Symbols as numbers and strings. -/
abbrev Symbols := List (Nat × String)

/-- Numbers and strings stand for each other. -/
structure SymbolsOk (syms : Symbols) : Prop where
  ok : ∀ sym ∈ syms, SymbolOk sym
  ne : ∀ sym ∈ syms, sym.2 ≠ ""
  numbers : (syms.map Prod.fst).Nodup
  strings : (syms.map Prod.snd).Nodup

/-- The sidecar on the pages of a view. -/
structure At (pageSize : Nat) (μ : Nat → Option Bytes) (metaRoot symbolsRoot : Nat) (log : Entries) (syms : Symbols)
    (own : List Nat) : Prop where
  log_ok : ∀ e ∈ log, e.2.Wf
  syms_ok : SymbolsOk syms
  pages : ∃ ps qs, ItemChain .filterMeta pageSize encodeEntry μ metaRoot ps ∧ chainItems ps = log ∧
    ItemChain .filterSymbols pageSize encodeSymbol μ symbolsRoot qs ∧ chainItems qs = syms ∧
    own = chainPagesOf ps ++ chainPagesOf qs

section View

variable {pageSize metaRoot symbolsRoot : Nat} {μ μ' : Nat → Option Bytes} {log : Entries} {syms : Symbols}
  {own : List Nat}

theorem at_empty : At pageSize μ 0 0 [] [] [] where
  log_ok := by simp
  syms_ok := ⟨by simp, by simp, List.nodup_nil, List.nodup_nil⟩
  pages := ⟨[], [], ItemChain.nil, rfl, ItemChain.nil, rfl, rfl⟩

/-- Writes to other pages leave the sidecar. -/
theorem At.frame (h : At pageSize μ metaRoot symbolsRoot log syms own) (hμ : ∀ p ∈ own, μ' p = μ p) :
    At pageSize μ' metaRoot symbolsRoot log syms own where
  log_ok := h.log_ok
  syms_ok := h.syms_ok
  pages := by
    rcases h.pages with ⟨ps, qs, hps, hlog, hqs, hsyms, rfl⟩
    refine ⟨ps, qs, hps.frame ?_, hlog, hqs.frame ?_, hsyms, rfl⟩
    · exact fun p hp => hμ p (List.mem_append_left _ hp)
    · exact fun p hp => hμ p (List.mem_append_right _ hp)

end View

/-! ## The symbol table -/

/-- A map from strings to the numbers of a symbol list. -/
structure Tabled (symbols : List (Bytes × Nat)) (syms : Symbols) : Prop where
  sorted : Sorted symbols
  find : ∀ s n, find (utf8 s) symbols = some n ↔ (n, s) ∈ syms
  strings : ∀ e ∈ symbols, ∃ s, e.1 = utf8 s

theorem tabled_nil : Tabled [] [] := ⟨List.Pairwise.nil, by simp, by simp⟩

/-- One more symbol in the table. -/
theorem Tabled.insert {symbols : List (Bytes × Nat)} {syms : Symbols} (h : Tabled symbols syms) {s : String} {n : Nat}
    (hnew : Assoc.find (utf8 s) symbols = none) : Tabled (insertKey (utf8 s) n symbols) ((n, s) :: syms) where
  sorted := sorted_insertKey h.sorted
  find := by
    intro s' n'
    rw [find_insertKey, List.mem_cons]
    by_cases hs : s' = s
    · subst hs
      rw [if_pos rfl]
      constructor
      · intro heq
        cases heq
        exact Or.inl rfl
      · intro hmem
        rcases hmem with heq | hmem
        · cases heq
          rfl
        · rw [(h.find s' n').mpr hmem] at hnew
          cases hnew
    · rw [if_neg fun heq => hs (utf8_inj heq), h.find]
      constructor
      · exact Or.inr
      · intro hmem
        rcases hmem with heq | hmem
        · cases heq
          exact absurd rfl hs
        · exact hmem
  strings := by
    intro e he
    rcases mem_insertKey he with rfl | he
    · exact ⟨s, rfl⟩
    · exact h.strings e he

/-- The numbers of the table are those of the symbols. -/
theorem Tabled.mem_numbers {symbols : List (Bytes × Nat)} {syms : Symbols} (h : Tabled symbols syms) {n : Nat} :
    n ∈ symbols.map Prod.snd ↔ n ∈ syms.map Prod.fst := by
  constructor
  · intro hn
    rcases List.mem_map.mp hn with ⟨⟨b, n⟩, he, rfl⟩
    rcases h.strings _ he with ⟨s, hs⟩
    dsimp only at hs
    subst hs
    exact List.mem_map.mpr ⟨(n, s), (h.find s n).mp (find_of_mem h.sorted.nodup_keys he), rfl⟩
  · intro hn
    rcases List.mem_map.mp hn with ⟨⟨n, s⟩, he, rfl⟩
    exact List.mem_map.mpr ⟨(utf8 s, n), mem_of_find ((h.find s n).mpr he), rfl⟩

/-- A symbol that the table does not have. -/
theorem Tabled.find_eq_none {symbols : List (Bytes × Nat)} {syms : Symbols} (h : Tabled symbols syms) {s : String} :
    Assoc.find (utf8 s) symbols = none ↔ s ∉ syms.map Prod.snd := by
  constructor
  · intro hnone hs
    rcases List.mem_map.mp hs with ⟨⟨n, s⟩, he, rfl⟩
    rw [(h.find s n).mpr he] at hnone
    cases hnone
  · intro hs
    cases hf : Assoc.find (utf8 s) symbols with
    | none => rfl
    | some n => exact absurd (List.mem_map.mpr ⟨(n, s), (h.find s n).mp hf, rfl⟩) hs

/-- Two tables of the same symbols, in any order. -/
theorem Tabled.of_mem_iff {symbols : List (Bytes × Nat)} {syms syms' : Symbols} (h : Tabled symbols syms)
    (hmem : ∀ x, x ∈ syms ↔ x ∈ syms') : Tabled symbols syms' :=
  ⟨h.sorted, fun s n => (h.find s n).trans (hmem _), h.strings⟩

/-! ## Loading -/

section Load

variable {src : PageSource} {metaRoot symbolsRoot : Nat} {log : Entries} {syms : Symbols} {own : List Nat}

/-- The first entry of an id counts. -/
theorem foldl_orInsert (es acc : Entries) (hs : Sorted acc) :
    Sorted (es.foldl orInsert acc) ∧ ∀ id, find id (es.foldl orInsert acc) = (find id acc).or (find id es) := by
  induction es generalizing acc with
  | nil => exact ⟨hs, fun id => by simp⟩
  | cons e es ih =>
      rcases e with ⟨id₀, e⟩
      rw [List.foldl_cons]
      have hstep : Sorted (orInsert acc (id₀, e)) ∧
          ∀ id, find id (orInsert acc (id₀, e)) = (find id acc).or (if id = id₀ then some e else none) := by
        unfold orInsert
        split
        · rename_i hsome
          refine ⟨hs, fun id => ?_⟩
          by_cases hid : id = id₀
          · subst hid
            rcases Option.isSome_iff_exists.mp hsome with ⟨x, hx⟩
            dsimp only at hx
            rw [hx]
            rfl
          · rw [if_neg hid, Option.or_none]
        · rename_i hnone
          refine ⟨sorted_insertKey hs, fun id => ?_⟩
          rw [find_insertKey]
          by_cases hid : id = id₀
          · subst hid
            rw [if_pos rfl, if_pos rfl]
            have h0 : find id acc = none := by simpa using hnone
            rw [h0]
            rfl
          · rw [if_neg hid, if_neg hid, Option.or_none]
      rcases ih _ hstep.1 with ⟨hsorted, hfind⟩
      refine ⟨hsorted, fun id => ?_⟩
      rw [hfind, hstep.2, find, Option.or_assoc]
      congr 1
      split <;> simp

/-- The newest entry of an id is the first one in the log. -/
theorem foldlM_loadEntries {head : Nat} {ps : List (Nat × List (Ulid × Entry))}
    (h : ItemChain .filterMeta src.pageSize encodeEntry src.view head ps) (hlo : 512 ≤ src.pageSize)
    (hall : ∀ e ∈ chainItems ps, e.2.Wf) (acc : Entries) :
    (chainPagesOf ps).foldlM (loadEntries src) acc = .ok ((chainItems ps).foldl orInsert acc) := by
  induction h generalizing acc with
  | nil => rfl
  | @cons head next page items rest hne hview hpage _ ih =>
      have hitems : chainItems ((head, items) :: rest) = items.reverse ++ chainItems rest := by simp [chainItems]
      rw [hitems] at hall
      have hdec : decodeEntries page head = .ok items := by
        refine (decodeEntries_iff ?_).mpr ⟨next, ?_, ?_⟩
        · rw [hpage.length, PAGE_HEADER_LEN, PAGE_TRAILER_LEN]
          omega
        · rw [hpage.length]
          exact hpage
        · exact fun e he => hall e (List.mem_append_left _ (List.mem_reverse.mpr he))
      have hload : loadEntries src acc head = .ok (items.reverse.foldl orInsert acc) := by
        unfold loadEntries
        rw [PageSource.page_of_view hview, ok_bind, hdec, ok_bind]
      rw [hitems, List.foldl_append, ← ih fun e he => hall e (List.mem_append_right _ he)]
      show (head :: chainPagesOf rest).foldlM (loadEntries src) acc = _
      rw [List.foldlM_cons, hload, ok_bind]

/-- Symbols whose numbers and strings are all new go into the table. -/
theorem foldlM_addSymbol (pageNo : Nat) (new : Symbols) {symbols : List (Bytes × Nat)} {done : Symbols}
    (h : Tabled symbols done) (hnum : ((new.reverse ++ done).map Prod.fst).Nodup)
    (hstr : ((new.reverse ++ done).map Prod.snd).Nodup) :
    new.foldlM (fun symbols sym => addSymbol symbols pageNo sym) symbols =
        .ok (new.foldl (fun symbols sym => insertKey (utf8 sym.2) sym.1 symbols) symbols) ∧
      Tabled (new.foldl (fun symbols sym => insertKey (utf8 sym.2) sym.1 symbols) symbols) (new.reverse ++ done) := by
  induction new generalizing symbols done with
  | nil => exact ⟨rfl, h⟩
  | cons sym new ih =>
      rcases sym with ⟨n, s⟩
      rw [List.reverse_cons, List.append_assoc, List.singleton_append] at hnum hstr ⊢
      rw [List.map_append, List.map_cons] at hnum hstr
      have hn : n ∉ done.map Prod.fst := (List.nodup_cons.mp (List.nodup_append.mp hnum).2.1).1
      have hs : s ∉ done.map Prod.snd := (List.nodup_cons.mp (List.nodup_append.mp hstr).2.1).1
      have hnone := h.find_eq_none.mpr hs
      have hadd : addSymbol symbols pageNo (n, s) = .ok (insertKey (utf8 s) n symbols) := by
        unfold addSymbol
        rw [if_neg]
        intro hdup
        rcases hdup with hdup | hdup
        · exact hn (h.mem_numbers.mp hdup)
        · rw [hnone] at hdup
          cases hdup
      rw [List.foldlM_cons, hadd, ok_bind, List.foldl_cons]
      refine ih (h.insert hnone) ?_ ?_
      · rwa [List.map_append, List.map_cons]
      · rwa [List.map_append, List.map_cons]

/-- The loader and a writer read the same table. -/
theorem foldlM_loadSymbols {head : Nat} {qs : List (Nat × List (Nat × String))}
    (h : ItemChain .filterSymbols src.pageSize encodeSymbol src.view head qs)
    (hall : ∀ sym ∈ chainItems qs, SymbolOk sym) {symbols : List (Bytes × Nat)} {done : Symbols}
    (ht : Tabled symbols done) (hnum : ((chainItems qs ++ done).map Prod.fst).Nodup)
    (hstr : ((chainItems qs ++ done).map Prod.snd).Nodup) :
    ∃ table, (chainPagesOf qs).foldlM (loadSymbols src) symbols = .ok table ∧
      (chainPagesOf qs).foldlM (readSymbols src) symbols = .ok table ∧ Tabled table (chainItems qs ++ done) := by
  induction h generalizing symbols done with
  | nil => exact ⟨symbols, rfl, rfl, ht⟩
  | @cons head next page items rest hne hview hpage _ ih =>
      have hitems : chainItems ((head, items) :: rest) = items.reverse ++ chainItems rest := by simp [chainItems]
      have hperm : (chainItems ((head, items) :: rest) ++ done).Perm (chainItems rest ++ (items.reverse ++ done)) := by
        rw [hitems, ← List.append_assoc]
        exact (List.perm_append_comm).append_right done
      have hnum' := ((hperm.map Prod.fst).nodup_iff).mp hnum
      have hstr' := ((hperm.map Prod.snd).nodup_iff).mp hstr
      rw [hitems] at hall
      have hdec : decodeSymbols page head = .ok items := by
        have hown : ItemPage .filterSymbols page.length encodeSymbol page items next := hpage.length.symm ▸ hpage
        exact decodeSymbols_of_page hown fun sym hsym => hall sym (List.mem_append_left _ (List.mem_reverse.mpr hsym))
      have hsub : (items.reverse ++ done).Sublist (chainItems rest ++ (items.reverse ++ done)) :=
        List.sublist_append_right _ _
      rcases foldlM_addSymbol head items ht ((hsub.map Prod.fst).nodup hnum') ((hsub.map Prod.snd).nodup hstr') with
        ⟨hadd, htabled⟩
      have hload : loadSymbols src symbols head =
          .ok (items.foldl (fun symbols sym => insertKey (utf8 sym.2) sym.1 symbols) symbols) := by
        unfold loadSymbols
        rw [PageSource.page_of_view hview, ok_bind, hdec, ok_bind, hadd]
      have hread : readSymbols src symbols head =
          .ok (items.foldl (fun symbols sym => insertKey (utf8 sym.2) sym.1 symbols) symbols) := by
        unfold readSymbols
        rw [PageSource.page_of_view hview, ok_bind, hdec, ok_bind]
      rcases ih (fun sym hsym => hall sym (List.mem_append_right _ hsym)) htabled hnum' hstr' with
        ⟨table, hloads, hreads, htable⟩
      refine ⟨table, ?_, ?_, htable.of_mem_iff fun x => (hperm.mem_iff).symm⟩
      · show (head :: chainPagesOf rest).foldlM (loadSymbols src) symbols = _
        rw [List.foldlM_cons, hload, ok_bind, hloads]
      · show (head :: chainPagesOf rest).foldlM (readSymbols src) symbols = _
        rw [List.foldlM_cons, hread, ok_bind, hreads]

/-- A table in memory is the sidecar's: the newest entry of each id, the number of each string. -/
structure Table.Of (table : Table) (log : Entries) (syms : Symbols) : Prop where
  entries : ∀ id, table.get id = find id log
  symbols : Tabled table.symbols syms

/-- The head of a chain is a page number. -/
theorem root_lt_of_chain {α : Type} {ty : PageType} {enc : α → Bytes} {head : Nat} {ps : List (Nat × List α)}
    (h : ItemChain ty src.pageSize enc src.view head ps) (hb : ∀ p ∈ chainPagesOf ps, p < 2 ^ 64) : head < 2 ^ 64 := by
  by_cases hne : head = 0
  · omega
  · exact hb head (h.head_mem hne)

/-- The symbols that a writer starts from. -/
theorem At.readSymbols (h : At src.pageSize src.view metaRoot symbolsRoot log syms own) (ho : src.Owns own) :
    ∃ pages symbols, walkChain src symbolsRoot .filterSymbols = .ok pages ∧
      pages.foldlM (FilterMeta.readSymbols src) [] = .ok symbols ∧ pages.foldlM (loadSymbols src) [] = .ok symbols ∧
      Tabled symbols syms := by
  rcases h.pages with ⟨ps, qs, _, _, hqs, rfl, rfl⟩
  rcases ho.bound with ⟨b, hb, hbound⟩
  have hlt : symbolsRoot < 2 ^ 64 :=
    root_lt_of_chain hqs fun p hp => lt_trans (hbound p (List.mem_append_right _ hp)).2 hb
  have hnum : ((chainItems qs ++ []).map Prod.fst).Nodup := by
    rw [List.append_nil]
    exact h.syms_ok.numbers
  have hstr : ((chainItems qs ++ []).map Prod.snd).Nodup := by
    rw [List.append_nil]
    exact h.syms_ok.strings
  rcases foldlM_loadSymbols hqs h.syms_ok.ok tabled_nil hnum hstr with ⟨symbols, hload, hread, htabled⟩
  rw [List.append_nil] at htabled
  exact ⟨_, symbols, (walkChain_iff hlt).mpr (linked_of_chain hqs), hread, hload, htabled⟩

/-- Loading gives the table of the log and the symbols. -/
theorem At.load (h : At src.pageSize src.view metaRoot symbolsRoot log syms own) (ho : src.Owns own) :
    ∃ table, FilterMeta.load src metaRoot symbolsRoot = .ok table ∧ table.Of log syms := by
  rcases h.readSymbols ho with ⟨symbolPages, symbols, hwalk, _, hsymbols, htabled⟩
  rcases h.pages with ⟨ps, qs, hps, rfl, _, _, rfl⟩
  rcases ho.bound with ⟨b, hb, hbound⟩
  have hlt : metaRoot < 2 ^ 64 :=
    root_lt_of_chain hps fun p hp => lt_trans (hbound p (List.mem_append_left _ hp)).2 hb
  have hentries := foldlM_loadEntries hps ho.pageSize_ge h.log_ok []
  rcases foldl_orInsert (chainItems ps) [] List.Pairwise.nil with ⟨_, hfind⟩
  refine ⟨⟨(chainItems ps).foldl orInsert [], symbols⟩, ?_, ?_, htabled⟩
  · unfold FilterMeta.load
    rw [hwalk, ok_bind, hsymbols, ok_bind, (walkChain_iff hlt).mpr (linked_of_chain hps), ok_bind, hentries, ok_bind]
  · intro id
    unfold Table.get
    rw [hfind]
    rfl

end Load

/-! ## Writing -/

/-- The sidecar in a transaction. -/
structure InTxn (H : Xxh3) (t : Txn) (log : Entries) (syms : Symbols) (own : List Nat) : Prop where
  index : At t.pageSize (t.view H) t.filterMetaPage t.filterSymbolsPage log syms own
  owns : t.Owns own

/-- Only the sidecar's own roots move. -/
def RootOnly (p q : PendingHeader) : Prop := ∃ r s, q = { p with filterMeta := r, filterSymbols := s }

theorem RootOnly.refl (p : PendingHeader) : RootOnly p p := ⟨p.filterMeta, p.filterSymbols, rfl⟩

theorem RootOnly.trans (p q r : PendingHeader) (h : RootOnly p q) (h' : RootOnly q r) : RootOnly p r := by
  rcases h with ⟨a, b, rfl⟩
  rcases h' with ⟨c, d, rfl⟩
  exact ⟨c, d, rfl⟩

section Write

variable {H : Xxh3} {t t' : Txn} {log : Entries} {syms : Symbols} {own own' : List Nat}

/-- A step on the pages leaves the roots where they are. -/
theorem inTxn_of_moved (hm : t.Moved H t' own own') (ho : t'.Owns own')
    (h : At t.pageSize (t'.view H) t.filterMetaPage t.filterSymbolsPage log syms own') : InTxn H t' log syms own' where
  index := by
    have hmeta : t'.filterMetaPage = t.filterMetaPage := by
      rw [Txn.filterMetaPage, Txn.filterMetaPage, hm.pending, hm.base]
    have hsyms : t'.filterSymbolsPage = t.filterSymbolsPage := by
      rw [Txn.filterSymbolsPage, Txn.filterSymbolsPage, hm.pending, hm.base]
    rw [hm.pageSize, hmeta, hsyms]
    exact h
  owns := ho

/-- Setting the root keeps the transaction well formed. -/
theorem wf_setFilterMetaPage (ht : t.Wf H) {n : Nat} (hn : n < 2 ^ 64) : (t.setFilterMetaPage n).Wf H := by
  refine ht.withPending { ht.pending with filterMeta := ?_ }
  intro x hx
  cases hx
  exact hn

/-- So does setting the root of the symbols. -/
theorem wf_setFilterSymbolsPage (ht : t.Wf H) {n : Nat} (hn : n < 2 ^ 64) : (t.setFilterSymbolsPage n).Wf H := by
  refine ht.withPending { ht.pending with filterSymbols := ?_ }
  intro x hx
  cases hx
  exact hn

/-- The root of the entries moves. -/
theorem inTxn_setFilterMetaPage (hm : t.Moved H t' own own') {n : Nat}
    (h : At t.pageSize (t'.view H) n t.filterSymbolsPage log syms own') (ho : t'.Owns own') :
    InTxn H (t'.setFilterMetaPage n) log syms own' where
  index := by
    have hsize : (t'.setFilterMetaPage n).pageSize = t.pageSize := hm.pageSize
    have hsyms : (t'.setFilterMetaPage n).filterSymbolsPage = t.filterSymbolsPage := by
      rw [Txn.filterSymbolsPage, Txn.filterSymbolsPage, ← hm.pending, ← hm.base]
      rfl
    rw [hsize, hsyms]
    exact h
  owns := ⟨ho.nodup, ho.pos, ho.lt⟩

/-- The root of the symbols moves. -/
theorem inTxn_setFilterSymbolsPage (hm : t.Moved H t' own own') {n : Nat}
    (h : At t.pageSize (t'.view H) t.filterMetaPage n log syms own') (ho : t'.Owns own') :
    InTxn H (t'.setFilterSymbolsPage n) log syms own' where
  index := by
    have hsize : (t'.setFilterSymbolsPage n).pageSize = t.pageSize := hm.pageSize
    have hmeta : (t'.setFilterSymbolsPage n).filterMetaPage = t.filterMetaPage := by
      rw [Txn.filterMetaPage, Txn.filterMetaPage, ← hm.pending, ← hm.base]
      rfl
    rw [hsize, hmeta]
    exact h
  owns := ⟨ho.nodup, ho.pos, ho.lt⟩

/-- A step that moves the root of the entries. -/
theorem stepped_setFilterMetaPage (hm : t.Moved H t' own own') {n : Nat} (hn : n < 2 ^ 64) :
    t.Stepped H RootOnly (t'.setFilterMetaPage n) own own' where
  wf := wf_setFilterMetaPage hm.wf hn
  base := hm.base
  pending := by
    refine ⟨some n, t'.pending.filterSymbols, ?_⟩
    rw [← hm.pending]
    rfl
  step := hm.step

/-- A step that moves the root of the symbols. -/
theorem stepped_setFilterSymbolsPage (hm : t.Moved H t' own own') {n : Nat} (hn : n < 2 ^ 64) :
    t.Stepped H RootOnly (t'.setFilterSymbolsPage n) own own' where
  wf := wf_setFilterSymbolsPage hm.wf hn
  base := hm.base
  pending := by
    refine ⟨t'.pending.filterMeta, some n, ?_⟩
    rw [← hm.pending]
    rfl
  step := hm.step

/-- A fresh page in front of a chain. -/
theorem wp_prependPage {α : Type} {ty : PageType} {enc : α → Bytes} {head : Nat} {ps : List (Nat × List α)} {x : α}
    {E : Error → Prop} (hE : E Txn.pageCountOverflow) (ht : t.Wf H) (ho : t.Owns own) (hchain : ItemChain ty t.pageSize enc (t.view H) head ps)
    (hsub : ∀ p ∈ chainPagesOf ps, p ∈ own)
    (hfits : PAGE_HEADER_LEN + (enc x).length ≤ t.pageSize - PAGE_TRAILER_LEN) :
    Wp (prependPage H ty head (enc x)) t (fun n t' => n < 2 ^ 64 ∧
      ItemChain ty t.pageSize enc (t'.view H) n ((n, [x]) :: ps) ∧ t.Moved H t' own (n :: own) ∧
      ∀ p ∈ own, t'.view H p = t.view H p) E := by
  have hhead : head < 2 ^ 64 := by
    by_cases hne : head = 0
    · omega
    · exact (ho.bounds ht head (hsub head (hchain.head_mem hne))).2
  unfold prependPage
  refine Wp.bind ((Txn.wp_allocatePage ht hE).imp ?_)
  intro n t₁ h₁
  rcases h₁ with ⟨rfl, hmoved⟩
  have hmoved₁ : t.Moved H t₁ own (t.pageCount :: own) := by
    have ho' : t.Owns ([] ++ [] ++ own) := by simpa using ho
    simpa using hmoved.within ho'
  -- the new page lies above all pages in use
  have hkeep₁ : ∀ p ∈ own, t₁.view H p = t.view H p := by
    intro p hp
    exact hmoved.step.frame p (ho.lt p hp) (by simp)
  have ho₁ := hmoved₁.owns ht ho
  have hsize : t₁.pageSize = t.pageSize := hmoved₁.pageSize
  refine Wp.bind (Wp.of_ok (a := t₁.pageSize) rfl ?_)
  refine Wp.bind ((Txn.wp_writeOwned hmoved₁.wf ho₁ List.mem_cons_self ?_).imp ?_)
  · rw [splice_length, PageHeader.encodeInto_length, List.length_replicate]
  · intro _ t₂ h₂
    rcases h₂ with ⟨hview, hmoved₂, hothers⟩
    have hkeep : ∀ p ∈ own, t₂.view H p = t.view H p := by
      intro p hp
      have hne : p ≠ t.pageCount := ne_of_lt (ho.lt p hp)
      rw [hothers p (List.mem_cons_of_mem _ hp) hne, hkeep₁ p hp]
    rw [hsize] at hview
    refine Wp.pure ⟨?_, ?_, hmoved₁.trans hmoved₂, hkeep⟩
    · exact lt_trans (hmoved₁.step.bound _ List.mem_cons_self) hmoved₁.wf.bound
    -- it links to the old head, whose chain is unchanged
    · refine ItemChain.cons (Nat.ne_of_gt ht.pageCount_pos) hview (itemPage_first hhead hfits) (hchain.frame ?_)
      exact fun p hp => hkeep p (hsub p hp)

/-- The entries of a full page fit. -/
theorem entryCapacity_mul_le (pageSize : Nat) (hlo : 512 ≤ pageSize) :
    PAGE_HEADER_LEN + entryCapacity pageSize * ENTRY_LEN ≤ pageSize - PAGE_TRAILER_LEN := by
  have hle : entryCapacity pageSize * ENTRY_LEN ≤ pageSize - (PAGE_HEADER_LEN + PAGE_TRAILER_LEN) :=
    Nat.div_mul_le_self _ _
  rw [PAGE_HEADER_LEN, PAGE_TRAILER_LEN] at hle ⊢
  omega

/-- One entry more in the log. -/
theorem wp_appendEntry {E : Error → Prop} (hE : E Txn.pageCountOverflow) (ht : t.Wf H) (h : InTxn H t log syms own)
    {e : Ulid × Entry} (he : e.2.Wf) :
    Wp (appendEntry H (encodeEntry e)) t (fun _ t' => ∃ own', InTxn H t' (e :: log) syms own' ∧
      t.Stepped H RootOnly t' own own') E := by
  rcases h.index.pages with ⟨ps, qs, hps, rfl, hqs, rfl, rfl⟩
  have hlo := ht.pageSize_bounds.1
  have hall : ∀ x ∈ e :: chainItems ps, x.2.Wf := by
    intro x hx
    rcases List.mem_cons.mp hx with rfl | hx
    · exact he
    · exact h.index.log_ok x hx
  have hkeepSyms : ∀ t' : Txn, (∀ p ∈ chainPagesOf qs, t'.view H p = t.view H p) →
      ItemChain .filterSymbols t.pageSize encodeSymbol (t'.view H) t.filterSymbolsPage qs :=
    fun t' hkeep => hqs.frame hkeep
  have hcapacity := entryCapacity_mul_le t.pageSize hlo
  unfold appendEntry
  refine Wp.bind (Txn.wp_current ?_)
  dsimp only
  -- no room: a fresh page in front of the chain
  have hprepend : Wp (do
      let pageNo ← prependPage H .filterMeta t.filterMetaPage (encodeEntry e)
      TxnM.update fun t => t.setFilterMetaPage pageNo) t (fun _ t' => ∃ own',
        InTxn H t' (e :: chainItems ps) (chainItems qs) own' ∧
        t.Stepped H RootOnly t' (chainPagesOf ps ++ chainPagesOf qs) own') E := by
    have hroom : PAGE_HEADER_LEN + (encodeEntry e).length ≤ t.pageSize - PAGE_TRAILER_LEN := by
      rw [encodeEntry_length, PAGE_HEADER_LEN, PAGE_TRAILER_LEN, ENTRY_LEN]
      omega
    refine Wp.bind ((wp_prependPage hE ht h.owns hps (fun p hp => List.mem_append_left _ hp) hroom).imp ?_)
    intro n t' hpost
    rcases hpost with ⟨hn, hchain, hmoved, hkeep⟩
    have hat : At t.pageSize (t'.view H) n t.filterSymbolsPage (e :: chainItems ps) (chainItems qs)
        (n :: (chainPagesOf ps ++ chainPagesOf qs)) :=
      ⟨hall, h.index.syms_ok, (n, [e]) :: ps, qs, hchain, by simp [chainItems],
        hkeepSyms t' fun p hp => hkeep p (List.mem_append_right _ hp), rfl, rfl⟩
    exact Wp.of_ok (a := ()) rfl ⟨_, inTxn_setFilterMetaPage hmoved hat (hmoved.owns ht h.owns),
      stepped_setFilterMetaPage hmoved hn⟩
  by_cases hhead : t.filterMetaPage = 0
  · refine Wp.bind ?_
    rw [if_pos hhead]
    exact Wp.pure hprepend
  · rcases hps.of_ne_zero hhead with ⟨next, page, items, rest, rfl, hview, hpage, hrest⟩
    refine Wp.bind ?_
    rw [if_neg hhead]
    refine Wp.bind (Txn.wp_readPage hview ?_)
    refine Wp.bind (Wp.lift ?_ ?_)
    · intro header hheader
      rw [hpage.header, okOr_some] at hheader
      cases hheader
      rw [if_neg (not_not.mpr rfl)]
      by_cases hcount : items.length < entryCapacity t.pageSize
      · rw [if_pos hcount]
        refine Wp.pure ?_
        have hbody : PAGE_HEADER_LEN + (items.flatMap encodeEntry).length + (encodeEntry e).length ≤
            t.pageSize - PAGE_TRAILER_LEN := by
          have hmul : (items.length + 1) * ENTRY_LEN ≤ entryCapacity t.pageSize * ENTRY_LEN :=
            Nat.mul_le_mul_right _ hcount
          rw [flatMap_encodeEntry_length, encodeEntry_length]
          rw [Nat.succ_mul] at hmul
          omega
        have hfew : items.length + 1 < 2 ^ 32 := by
          have hhi := ht.pageSize_bounds.2
          have hcap : entryCapacity t.pageSize ≤ t.pageSize := by
            unfold entryCapacity
            exact le_trans (Nat.div_le_self _ _) (Nat.sub_le _ _)
          omega
        have hwrite := Txn.wp_appendItem (E := E) ht h.owns hhead hpage hrest
          (List.sublist_append_left _ (chainPagesOf qs)) hbody hfew
        rw [flatMap_encodeEntry_length] at hwrite
        refine hwrite.imp ?_
        intro _ t' hpost
        rcases hpost with ⟨hchain, hmoved, hothers⟩
        have hnd := h.owns.nodup
        have hat : At t.pageSize (t'.view H) t.filterMetaPage t.filterSymbolsPage
            (e :: chainItems ((t.filterMetaPage, items) :: rest)) (chainItems qs)
            (chainPagesOf ((t.filterMetaPage, items) :: rest) ++ chainPagesOf qs) := by
          refine ⟨hall, h.index.syms_ok, (t.filterMetaPage, items ++ [e]) :: rest, qs, hchain, by simp [chainItems],
            hkeepSyms t' ?_, rfl, rfl⟩
          intro p hp
          refine hothers p (List.mem_append_right _ hp) ?_
          intro heq
          exact (List.nodup_append.mp hnd).2.2 _ List.mem_cons_self p hp heq.symm
        exact ⟨_, inTxn_of_moved hmoved (hmoved.owns ht h.owns) hat, hmoved.stepped RootOnly.refl⟩
      · rw [if_neg hcount]
        exact Wp.pure hprepend
    · intro err herr
      rw [hpage.header] at herr
      cases herr

/-- The bytes of the symbols of a page. -/
theorem sum_used (items : List (Nat × String)) :
    (items.map fun s => SYMBOL_PREFIX_LEN + (utf8 s.2).length).sum = (items.flatMap encodeSymbol).length := by
  induction items with
  | nil => rfl
  | cons s items ih =>
      rw [List.map_cons, List.sum_cons, List.flatMap_cons, List.length_append, encodeSymbol_length, ih]

/-- One symbol more. -/
theorem wp_appendSymbol {E : Error → Prop} (hE : E Txn.pageCountOverflow) (ht : t.Wf H) (h : InTxn H t log syms own)
    {sym : Nat × String} (hsyms : SymbolsOk (sym :: syms))
    (hroom : PAGE_HEADER_LEN + (encodeSymbol sym).length ≤ t.pageSize - PAGE_TRAILER_LEN) :
    Wp (appendSymbol H sym) t (fun _ t' => ∃ own', InTxn H t' log (sym :: syms) own' ∧
      t.Stepped H RootOnly t' own own') E := by
  rcases h.index.pages with ⟨ps, qs, hps, rfl, hqs, rfl, rfl⟩
  have hkeepLog : ∀ t' : Txn, (∀ p ∈ chainPagesOf ps, t'.view H p = t.view H p) →
      ItemChain .filterMeta t.pageSize encodeEntry (t'.view H) t.filterMetaPage ps :=
    fun t' hkeep => hps.frame hkeep
  unfold appendSymbol
  dsimp only
  refine Wp.bind (Txn.wp_current ?_)
  -- no room: a fresh page in front of the chain
  have hprepend : Wp (do
      let pageNo ← prependPage H .filterSymbols t.filterSymbolsPage (encodeSymbol sym)
      TxnM.update fun t => t.setFilterSymbolsPage pageNo) t (fun _ t' => ∃ own',
        InTxn H t' (chainItems ps) (sym :: chainItems qs) own' ∧
        t.Stepped H RootOnly t' (chainPagesOf ps ++ chainPagesOf qs) own') E := by
    refine Wp.bind ((wp_prependPage hE ht h.owns hqs (fun p hp => List.mem_append_right _ hp) hroom).imp ?_)
    intro n t' hpost
    rcases hpost with ⟨hn, hchain, hmoved, hkeep⟩
    have hperm : (chainPagesOf ps ++ n :: chainPagesOf qs).Perm (n :: (chainPagesOf ps ++ chainPagesOf qs)) :=
      List.perm_middle
    have hmoved' := hmoved.subperm hperm.subperm
    have hat : At t.pageSize (t'.view H) t.filterMetaPage n (chainItems ps) (sym :: chainItems qs)
        (chainPagesOf ps ++ n :: chainPagesOf qs) :=
      ⟨h.index.log_ok, hsyms, ps, (n, [sym]) :: qs, hkeepLog t' fun p hp => hkeep p (List.mem_append_left _ hp), rfl,
        hchain, by simp [chainItems], rfl⟩
    exact Wp.of_ok (a := ()) rfl ⟨_, inTxn_setFilterSymbolsPage hmoved' hat (hmoved'.owns ht h.owns),
      stepped_setFilterSymbolsPage hmoved' hn⟩
  by_cases hhead : t.filterSymbolsPage = 0
  · refine Wp.bind ?_
    rw [if_pos hhead]
    exact Wp.pure hprepend
  · rcases hqs.of_ne_zero hhead with ⟨next, page, items, rest, rfl, hview, hpage, hrest⟩
    have hitems : ∀ x ∈ items, SymbolOk x := by
      intro x hx
      refine h.index.syms_ok.ok x ?_
      simp [chainItems, hx]
    have hdec : decodeSymbols page t.filterSymbolsPage = .ok items := by
      have hown : ItemPage .filterSymbols page.length encodeSymbol page items next := hpage.length.symm ▸ hpage
      exact decodeSymbols_of_page hown hitems
    refine Wp.bind ?_
    rw [if_neg hhead]
    refine Wp.bind (Txn.wp_readPage hview ?_)
    rw [hdec]
    refine Wp.bind (Wp.of_ok (a := items) rfl ?_)
    rw [sum_used]
    by_cases hfits : PAGE_HEADER_LEN + (items.flatMap encodeSymbol).length + (encodeSymbol sym).length ≤
        t.pageSize - PAGE_TRAILER_LEN
    · rw [if_pos hfits]
      refine Wp.pure ?_
      dsimp only
      rw [PageHeader.decode_splice (Nat.le_add_right _ _), hpage.header]
      refine Wp.bind (Wp.of_ok (a := PageHeader.mk .filterSymbols items.length next) rfl ?_)
      have hfew : items.length + 1 < 2 ^ 32 := by
        have hhi := ht.pageSize_bounds.2
        have hsix : items.length * 6 ≤ (items.flatMap encodeSymbol).length := symbolsLength_le items
        omega
      refine (Txn.wp_appendItem (E := E) ht h.owns hhead hpage hrest
        (List.sublist_append_right (chainPagesOf ps) _) hfits hfew).imp ?_
      intro _ t' hpost
      rcases hpost with ⟨hchain, hmoved, hothers⟩
      have hnd := h.owns.nodup
      have hat : At t.pageSize (t'.view H) t.filterMetaPage t.filterSymbolsPage (chainItems ps)
          (sym :: chainItems ((t.filterSymbolsPage, items) :: rest))
          (chainPagesOf ps ++ chainPagesOf ((t.filterSymbolsPage, items) :: rest)) := by
        refine ⟨h.index.log_ok, hsyms, ps, (t.filterSymbolsPage, items ++ [sym]) :: rest, hkeepLog t' ?_, rfl, hchain,
          by simp [chainItems], rfl⟩
        intro p hp
        refine hothers p (List.mem_append_left _ hp) ?_
        intro heq
        exact (List.nodup_append.mp hnd).2.2 p hp _ List.mem_cons_self heq
      exact ⟨_, inTxn_of_moved hmoved (hmoved.owns ht h.owns) hat, hmoved.stepped RootOnly.refl⟩
    · rw [if_neg hfits]
      exact Wp.pure hprepend

/-- What a string's symbol is: the number it stands for, or none. -/
def SymOf (syms : Symbols) (s : String) (n : Nat) : Prop := (s = "" ∧ n = SYM_NONE) ∨ (s ≠ "" ∧ (n, s) ∈ syms)

/-- A symbol stays when others are added. -/
theorem SymOf.mono {syms' : Symbols} {s : String} {n : Nat} (h : SymOf syms s n) (hsub : ∀ x ∈ syms, x ∈ syms') :
    SymOf syms' s n := by
  rcases h with h | ⟨hne, hmem⟩
  · exact Or.inl h
  · exact Or.inr ⟨hne, hsub _ hmem⟩

theorem SymOf.lt {s : String} {n : Nat} (hok : SymbolsOk syms) (h : SymOf syms s n) : n < 2 ^ 32 := by
  rcases h with ⟨_, rfl⟩ | ⟨_, hmem⟩
  · unfold SYM_NONE
    omega
  · exact (hok.ok _ hmem).lt

/-- One string has one symbol, and the other way round. -/
theorem SymOf.eq_iff {s s' : String} {n n' : Nat} (hok : SymbolsOk syms) (h : SymOf syms s n) (h' : SymOf syms s' n') :
    n = n' ↔ s = s' := by
  rcases h with ⟨rfl, rfl⟩ | ⟨hne, hmem⟩
  · rcases h' with ⟨rfl, rfl⟩ | ⟨hne', hmem'⟩
    · simp
    · have hpos := (hok.ok _ hmem').pos
      constructor
      · intro heq
        rw [← heq] at hpos
        cases hpos
      · intro heq
        exact absurd heq.symm hne'
  · rcases h' with ⟨rfl, rfl⟩ | ⟨hne', hmem'⟩
    · have hpos := (hok.ok _ hmem).pos
      constructor
      · intro heq
        rw [heq] at hpos
        cases hpos
      · intro heq
        exact absurd heq hne
    · constructor
      · intro heq
        subst heq
        exact congrArg Prod.snd (List.inj_on_of_nodup_map hok.numbers hmem hmem' rfl)
      · intro heq
        subst heq
        exact congrArg Prod.fst (List.inj_on_of_nodup_map hok.strings hmem hmem' rfl)

/-- A fresh number is above all that are used. -/
theorem freshSym_gt {symbols : List (Bytes × Nat)} {n : Nat} (h : freshSym symbols = some n) :
    0 < n ∧ n < 2 ^ 32 ∧ ∀ m ∈ symbols.map Prod.snd, m < n := by
  unfold freshSym at h
  dsimp only at h
  split at h
  · rename_i hlt
    cases h
    rcases foldl_max_ge (symbols.map Prod.snd) SYM_NONE with ⟨_, hall⟩
    exact ⟨Nat.succ_pos _, hlt, fun m hm => Nat.lt_succ_of_le (hall m hm)⟩
  · cases h

/-- Interning a string gives its symbol, or nothing for a string that cannot have one. -/
theorem wp_intern {E : Error → Prop} (hE : E Txn.pageCountOverflow) (ht : t.Wf H) (h : InTxn H t log syms own)
    {symbols : List (Bytes × Nat)} (htab : Tabled symbols syms) (s : String) :
    Wp (intern H symbols s) t (fun r t' => ∃ syms' own', InTxn H t' log syms' own' ∧ Tabled r.2 syms' ∧
      (∀ x ∈ syms, x ∈ syms') ∧ (∀ n, r.1 = some n → SymOf syms' s n) ∧ t.Stepped H RootOnly t' own own') E := by
  have hstay : t.Stepped H RootOnly t own own := (Txn.Moved.refl ht h.owns.lt).stepped RootOnly.refl
  unfold intern
  -- the empty string needs no symbol, a known one has its own
  by_cases hs : s = ""
  · rw [if_pos hs]
    refine Wp.pure ⟨syms, own, h, htab, fun x hx => hx, ?_, hstay⟩
    intro n hn
    cases hn
    exact Or.inl ⟨hs, rfl⟩
  · rw [if_neg hs]
    cases hf : find (utf8 s) symbols with
    | some sym =>
        refine Wp.pure ⟨syms, own, h, htab, fun x hx => hx, ?_, hstay⟩
        intro n hn
        cases hn
        exact Or.inr ⟨hs, (htab.find s sym).mp hf⟩
    | none =>
        dsimp only
        refine Wp.bind (Wp.of_ok (a := t.pageSize) rfl ?_)
        -- a string that is too long is not interned, nor is any once the numbers are used up
        by_cases hlong : 2 ^ 16 - 1 < (utf8 s).length ∨
            t.pageSize - PAGE_HEADER_LEN - PAGE_TRAILER_LEN < SYMBOL_PREFIX_LEN + (utf8 s).length
        · rw [if_pos hlong]
          refine Wp.pure ⟨syms, own, h, htab, fun x hx => hx, ?_, hstay⟩
          intro n hn
          cases hn
        · rw [if_neg hlong]
          rcases not_or.mp hlong with ⟨hshort, hbody⟩
          cases hfresh : freshSym symbols with
          | none =>
              refine Wp.pure ⟨syms, own, h, htab, fun x hx => hx, ?_, hstay⟩
              intro n hn
              cases hn
          | some n =>
              rcases freshSym_gt hfresh with ⟨hpos, hlt, hmax⟩
              -- a fresh number keeps the table a table
              have hsyms : SymbolsOk ((n, s) :: syms) := by
                have hok := h.index.syms_ok
                constructor
                case ok =>
                  intro x hx
                  rcases List.mem_cons.mp hx with rfl | hx
                  · exact ⟨hpos, hlt, by dsimp only; omega⟩
                  · exact hok.ok x hx
                case ne =>
                  intro x hx
                  rcases List.mem_cons.mp hx with rfl | hx
                  · exact hs
                  · exact hok.ne x hx
                case numbers =>
                  refine List.nodup_cons.mpr ⟨?_, hok.numbers⟩
                  intro hmem
                  exact lt_irrefl _ (hmax n (htab.mem_numbers.mpr hmem))
                case strings => exact List.nodup_cons.mpr ⟨htab.find_eq_none.mp hf, hok.strings⟩
              have hroom : PAGE_HEADER_LEN + (encodeSymbol (n, s)).length ≤ t.pageSize - PAGE_TRAILER_LEN := by
                have hlo := ht.pageSize_bounds.1
                rw [encodeSymbol_length]
                rw [PAGE_HEADER_LEN, PAGE_TRAILER_LEN] at hbody ⊢
                dsimp only
                omega
              refine Wp.bind ((wp_appendSymbol hE ht h hsyms hroom).imp ?_)
              intro _ t' hpost
              rcases hpost with ⟨own', h', hstep⟩
              refine Wp.pure ⟨(n, s) :: syms, own', h', htab.insert hf, fun x hx => List.mem_cons_of_mem _ hx, ?_, hstep⟩
              intro m hm
              cases hm
              exact Or.inr ⟨hs, List.mem_cons_self⟩

/-! ## Updates -/

/-- An entry tells of a record what an update says of it; a scope that overflowed is not told. -/
structure Mirrors (syms : Symbols) (u : Update) (e : Entry) : Prop where
  dead : e.flags &&& (FLAG_TOMBSTONE ||| FLAG_SUPERSEDED) ≠ 0 ↔ u.tombstone = true ∨ u.superseded = true
  hasMetadata : e.flags &&& FLAG_HAS_METADATA ≠ 0 ↔ u.hasMetadata = true
  scope : e.flags &&& FLAG_SCOPE_OVERFLOW ≠ 0 ∨
    SymOf syms (u.project.getD "") e.projectSym ∧ SymOf syms u.agent e.agentSym
  docLen : e.docLen = u.docLen

/-- An entry mirrors its update when symbols are added. -/
theorem Mirrors.mono {syms' : Symbols} {u : Update} {e : Entry} (h : Mirrors syms u e)
    (hsub : ∀ x ∈ syms, x ∈ syms') : Mirrors syms' u e where
  dead := h.dead
  hasMetadata := h.hasMetadata
  scope := h.scope.imp id fun hs => ⟨hs.1.mono hsub, hs.2.mono hsub⟩
  docLen := h.docLen

/-- The flag bits of an update read back. -/
theorem flags_bits (tombstone superseded hasMetadata overflow : Bool) (f : UInt8)
    (hf : f = ((if tombstone then FLAG_TOMBSTONE else 0) ||| (if superseded then FLAG_SUPERSEDED else 0) |||
      (if hasMetadata then FLAG_HAS_METADATA else 0)) ||| (if overflow then FLAG_SCOPE_OVERFLOW else 0)) :
    (f &&& (FLAG_TOMBSTONE ||| FLAG_SUPERSEDED) ≠ 0 ↔ tombstone = true ∨ superseded = true) ∧
      (f &&& FLAG_HAS_METADATA ≠ 0 ↔ hasMetadata = true) ∧ (f &&& FLAG_SCOPE_OVERFLOW ≠ 0 ↔ overflow = true) := by
  subst hf
  cases tombstone <;> cases superseded <;> cases hasMetadata <;> cases overflow <;> decide

/-- The entry of an update mirrors it. -/
theorem mirrors_entry {u : Update} {p a : Option Nat} (hp : ∀ n, p = some n → SymOf syms (u.project.getD "") n)
    (ha : ∀ n, a = some n → SymOf syms u.agent n) : Mirrors syms u (u.entry p a) := by
  have hoverflow : ∀ f, f = u.flags ||| FLAG_SCOPE_OVERFLOW → Mirrors syms u ⟨f, SYM_NONE, SYM_NONE, u.docLen⟩ := by
    intro f hf
    rcases flags_bits u.tombstone u.superseded u.hasMetadata true f (by rw [hf]; rfl) with ⟨hdead, hmeta, hover⟩
    exact ⟨hdead, hmeta, Or.inl (hover.mpr rfl), rfl⟩
  cases p with
  | none => exact hoverflow _ rfl
  | some p =>
      cases a with
      | none => exact hoverflow _ rfl
      | some a =>
          rcases flags_bits u.tombstone u.superseded u.hasMetadata false u.flags (by simp [Update.flags]) with
            ⟨hdead, hmeta, _⟩
          exact ⟨hdead, hmeta, Or.inr ⟨hp p rfl, ha a rfl⟩, rfl⟩

/-- The entry of an update is well formed. -/
theorem entry_wf {u : Update} (hok : SymbolsOk syms) (hdoc : u.docLen < 2 ^ 32) {p a : Option Nat}
    (hp : ∀ n, p = some n → SymOf syms (u.project.getD "") n) (ha : ∀ n, a = some n → SymOf syms u.agent n) :
    (u.entry p a).Wf := by
  have hnone : SYM_NONE < 2 ^ 32 := by
    unfold SYM_NONE
    omega
  cases p with
  | none => exact ⟨hnone, hnone, hdoc⟩
  | some p =>
      cases a with
      | none => exact ⟨hnone, hnone, hdoc⟩
      | some a => exact ⟨(hp p rfl).lt hok, (ha a rfl).lt hok, hdoc⟩

/-- One update puts an entry that mirrors it in front of the log. -/
theorem wp_recordUpdate {E : Error → Prop} (hE : E Txn.pageCountOverflow) (ht : t.Wf H) (h : InTxn H t log syms own)
    {symbols : List (Bytes × Nat)} (htab : Tabled symbols syms) {u : Update} (hdoc : u.docLen < 2 ^ 32) :
    Wp (recordUpdate H symbols u) t (fun symbols' t' => ∃ e syms' own', InTxn H t' ((u.id, e) :: log) syms' own' ∧
      Tabled symbols' syms' ∧ (∀ x ∈ syms, x ∈ syms') ∧ Mirrors syms' u e ∧ t.Stepped H RootOnly t' own own') E := by
  unfold recordUpdate
  refine Wp.bind ((wp_intern hE ht h htab (u.project.getD "")).imp ?_)
  intro r₁ t₁ h₁
  rcases r₁ with ⟨p, symbols₁⟩
  rcases h₁ with ⟨syms₁, own₁, hin₁, htab₁, hsub₁, hp₁, hstep₁⟩
  refine Wp.bind ((wp_intern hE hstep₁.wf hin₁ htab₁ u.agent).imp ?_)
  intro r₂ t₂ h₂
  rcases r₂ with ⟨a, symbols₂⟩
  rcases h₂ with ⟨syms₂, own₂, hin₂, htab₂, hsub₂, ha₂, hstep₂⟩
  have hp₂ : ∀ n, p = some n → SymOf syms₂ (u.project.getD "") n := fun n hn => (hp₁ n hn).mono hsub₂
  have hwf := entry_wf hin₂.index.syms_ok hdoc hp₂ ha₂
  refine Wp.bind ((wp_appendEntry (e := (u.id, u.entry p a)) hE hstep₂.wf hin₂ hwf).imp ?_)
  intro _ t₃ h₃
  rcases h₃ with ⟨own₃, hin₃, hstep₃⟩
  refine Wp.pure ⟨u.entry p a, syms₂, own₃, hin₃, htab₂, fun x hx => hsub₂ x (hsub₁ x hx), mirrors_entry hp₂ ha₂, ?_⟩
  exact (hstep₁.trans hstep₂ RootOnly.trans).trans hstep₃ RootOnly.trans

/-- What the log says of each id after some updates: the last update of it, or what it said before. -/
structure Updated (syms syms' : Symbols) (log log' : Entries) (updates : List Update) : Prop where
  keeps : ∀ x ∈ syms, x ∈ syms'
  others : ∀ id, (∀ u ∈ updates, u.id ≠ id) → find id log' = find id log
  mirrors : ∀ id, (∃ u ∈ updates, u.id = id) → ∃ u ∈ updates, u.id = id ∧ ∃ e, find id log' = some e ∧ Mirrors syms' u e

/-- The updates of a transaction, one after the other. -/
theorem wp_recordUpdateAll {E : Error → Prop} (hE : E Txn.pageCountOverflow) (updates : List Update)
    (hdoc : ∀ u ∈ updates, u.docLen < 2 ^ 32) {symbols : List (Bytes × Nat)} (ht : t.Wf H) (h : InTxn H t log syms own)
    (htab : Tabled symbols syms) :
    Wp (updates.foldlM (recordUpdate H) symbols) t (fun _ t' => ∃ log' syms' own', InTxn H t' log' syms' own' ∧
      Updated syms syms' log log' updates ∧ t.Stepped H RootOnly t' own own') E := by
  induction updates generalizing t log syms own symbols with
  | nil =>
      refine Wp.pure ⟨log, syms, own, h, ⟨fun x hx => hx, fun _ _ => rfl, ?_⟩,
        (Txn.Moved.refl ht h.owns.lt).stepped RootOnly.refl⟩
      intro id hid
      rcases hid with ⟨u, hu, _⟩
      cases hu
  | cons u updates ih =>
      rw [List.foldlM_cons]
      refine Wp.bind ((wp_recordUpdate hE ht h htab (hdoc u List.mem_cons_self)).imp ?_)
      intro symbols₁ t₁ h₁
      rcases h₁ with ⟨e, syms₁, own₁, hin₁, htab₁, hsub₁, hmirror, hstep₁⟩
      refine (ih (fun x hx => hdoc x (List.mem_cons_of_mem _ hx)) hstep₁.wf hin₁ htab₁).imp ?_
      intro _ t₂ h₂
      rcases h₂ with ⟨log₂, syms₂, own₂, hin₂, hupd, hstep₂⟩
      refine ⟨log₂, syms₂, own₂, hin₂, ?_, hstep₁.trans hstep₂ RootOnly.trans⟩
      constructor
      case keeps => exact fun x hx => hupd.keeps x (hsub₁ x hx)
      case others =>
        intro id hid
        rw [hupd.others id fun x hx => hid x (List.mem_cons_of_mem _ hx), find,
          if_neg fun heq => hid u List.mem_cons_self heq.symm]
      case mirrors =>
        intro id hid
        by_cases hlater : ∃ x ∈ updates, x.id = id
        · rcases hupd.mirrors id hlater with ⟨x, hx, hxid, hfound⟩
          exact ⟨x, List.mem_cons_of_mem _ hx, hxid, hfound⟩
        · -- the entry of this update stays the newest one
          rcases hid with ⟨x, hx, hxid⟩
          have hux : u.id = id := by
            rcases List.mem_cons.mp hx with rfl | hx
            · exact hxid
            · exact absurd ⟨x, hx, hxid⟩ hlater
          refine ⟨u, List.mem_cons_self, hux, e, ?_, hmirror.mono hupd.keeps⟩
          rw [hupd.others id fun y hy heq => hlater ⟨y, hy, heq⟩, find, if_pos hux.symm]

/-- The updates of one transaction. An older file has no sidecar, and gets none. -/
theorem wp_recordUpdates {E : Error → Prop} (hE : E Txn.pageCountOverflow) (updates : List Update)
    (hdoc : ∀ u ∈ updates, u.docLen < 2 ^ 32) (ht : t.Wf H) (h : InTxn H t log syms own) :
    Wp (recordUpdates H updates) t (fun _ t' => ∃ log' syms' own', InTxn H t' log' syms' own' ∧
      (MIN_FORMAT_VERSION ≤ t.formatVersion → Updated syms syms' log log' updates) ∧
      (t.formatVersion < MIN_FORMAT_VERSION → t' = t) ∧ t.Stepped H RootOnly t' own own') E := by
  have hstay : t.Stepped H RootOnly t own own := (Txn.Moved.refl ht h.owns.lt).stepped RootOnly.refl
  unfold recordUpdates
  refine Wp.bind (Txn.wp_current ?_)
  -- an old file has no sidecar, and no update is no write
  by_cases hold : t.formatVersion < MIN_FORMAT_VERSION ∨ updates.isEmpty = true
  · rw [if_pos hold]
    refine Wp.pure ⟨log, syms, own, h, ?_, fun _ => rfl, hstay⟩
    intro hversion
    rcases hold with hlt | hempty
    · exact absurd hversion (not_le.mpr hlt)
    · rw [List.isEmpty_iff.mp hempty]
      refine ⟨fun x hx => hx, fun _ _ => rfl, ?_⟩
      intro id hid
      rcases hid with ⟨u, hu, _⟩
      cases hu
  · rw [if_neg hold]
    rcases not_or.mp hold with ⟨hversion, _⟩
    have howns : (t.source H).Owns own := h.owns.source ht
    rcases h.index.readSymbols howns with ⟨pages, symbols, hwalk, hread, _, htab⟩
    refine Wp.bind (Txn.wp_reading ?_ ?_)
    · intro symbols' hrun
      rw [hwalk, ok_bind, hread] at hrun
      cases hrun
      refine Wp.bind ((wp_recordUpdateAll hE updates hdoc ht h htab).imp ?_)
      intro _ t' hpost
      rcases hpost with ⟨log', syms', own', hin, hupd, hstep⟩
      exact Wp.pure ⟨log', syms', own', hin, fun _ => hupd, fun hlt => absurd hlt hversion, hstep⟩
    · intro e hrun
      rw [hwalk, ok_bind, hread] at hrun
      cases hrun

end Write

end FilterMeta

end EmbedMind
