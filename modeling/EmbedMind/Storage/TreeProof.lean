import EmbedMind.Storage.Tree

/-!
# The paged trees keep their maps

For every lawful layout: `wp_makeCell` (a value is written on its own pages, those
of the value it replaces included), `wp_insertLeaf` and `wp_splitInner` (a node
takes a new entry, or splits), and from them by induction on the height
`wp_insertRec`: an insertion puts one entry into the map of the tree, leaves every
page the tree does not own as it was, and only takes fresh pages. `lookup_eq` reads
the map back.
-/

namespace EmbedMind

open Lib Lib.Assoc Lib.PagedTree

/-- A cell whose pointer, where it is one, leads to a page. -/
def Cell.Pointed (maxLen : Nat) : Cell → Prop
  | .inline _ => True
  | .overflow totalLen firstPage => totalLen ≤ maxLen ∧ 0 < firstPage ∧ firstPage < 2 ^ 64

namespace TreeSpec

variable {K : Type} [LinearOrder K] {S : TreeSpec K} {H : Xxh3} {maxLen : Nat} {keyOk : K → Prop}
  {E : Error → Prop} {t : Txn}

theorem wp_pageSize {Q : Nat → Txn → Prop} (h : Q t.pageSize t) : Wp TxnM.pageSize t Q E := Wp.of_ok rfl h

/-! ## Values -/

/-- A cell that fits points within bounds. -/
theorem CellOk.pointed {pageSize : Nat} {c : Cell} (h : S.CellOk pageSize maxLen c) : c.Pointed maxLen := by
  cases c with
  | inline _ => trivial
  | overflow _ _ => exact h

section Values

variable {pageSize : Nat} (L : S.Lawful H pageSize maxLen keyOk E)

include L

theorem Lawful.usable_pos : 0 < usable pageSize := by
  have := L.pageSize_ge
  simp only [usable, PAGE_HEADER_LEN, PAGE_TRAILER_LEN]
  omega

/-- A cell that stands in a page fits. -/
theorem Lawful.cellOk {μ : Nat → Option Bytes} {c : Cell} {v : Bytes} {ps : List Nat}
    (hc : S.CellAt H pageSize maxLen μ c v ps) (hb : ∀ p ∈ ps, 0 < p ∧ p < 2 ^ 64) :
    S.CellOk pageSize maxLen c := by
  cases c with
  | inline value =>
      obtain ⟨rfl, h, _⟩ := hc
      exact h
  | overflow totalLen firstPage =>
      obtain ⟨rfl, _, hmax, hhead, _⟩ := hc
      have hmem : firstPage ∈ ps := List.mem_of_mem_head? hhead
      exact ⟨hmax, hb _ hmem⟩

/-- The chain of the cell that is replaced, whatever cell it is. -/
theorem wp_reusable {c : Cell} {v : Bytes} {ps : List Nat} (ht : t.Wf H) (hps : t.pageSize = pageSize)
    (hc : S.CellAt H pageSize maxLen (t.view H) c v ps) (ho : t.Owns ps) :
    Wp (S.reusable H (some c)) t (fun pages t' => pages = ps ∧ t' = t) E := by
  cases c with
  | inline value =>
      obtain ⟨_, _, rfl⟩ := hc
      exact Wp.pure ⟨rfl, rfl⟩
  | overflow totalLen firstPage =>
      obtain ⟨rfl, _, _, hhead, hchain⟩ := hc
      obtain ⟨rest, rfl⟩ : ∃ rest, ps = firstPage :: rest := by
        cases ps with
        | nil => cases hhead
        | cons p rest =>
            cases hhead
            exact ⟨rest, rfl⟩
      have hcap := L.usable_pos
      -- the walk is long enough for the whole chain
      have hlen : (Lib.chunks (usable pageSize) v).length ≤
          max ((v.length + usable pageSize - 1) / usable pageSize) 1 := by
        rw [Lib.chunks, chunksUpTo_length hcap (le_refl _)]
        exact le_max_left _ _
      have hpages : chainPages S.overflowType S.texts.chainHeader S.texts.notChain (t.source H)
          (max ((v.length + usable pageSize - 1) / usable pageSize) 1) firstPage =
          .ok (firstPage :: rest) := by
        have hsrc : (t.source H).pageSize = pageSize := hps
        refine chainPages_eq (H := H) (hsrc ▸ L.pageSize_ge) (hsrc ▸ L.pageSize_le) ?_ ?_ ?_ hlen
        · rw [hsrc]
          exact hchain
        · intro c hc
          rw [hsrc]
          exact (mem_chunksUpTo hcap hc).2
        · intro q hq
          exact ho.bounds ht q (List.mem_cons_of_mem _ hq)
      refine Wp.bind (wp_pageSize ?_)
      refine Wp.of_ok ?_ ⟨rfl, rfl⟩
      simp only [TxnM.reading, hps, hpages]
      rfl

/-- Writing a value: its cell, on the pages of the value it replaces and fresh ones. -/
theorem wp_makeCell {value : Bytes} {reuse : List Nat} (ht : t.Wf H) (hps : t.pageSize = pageSize)
    (hv : value.length ≤ maxLen ∨ ∃ e, S.overflowLen value.length = .error e ∧ E e)
    (ho : t.Owns reuse) :
    Wp (S.makeCell H value reuse) t (fun c t' => ∃ ps,
      S.CellAt H pageSize maxLen (t'.view H) c value ps ∧ t.Moved H t' reuse ps) E := by
  refine Wp.bind (wp_pageSize ?_)
  rw [hps]
  split
  · rename_i hin
    refine Wp.pure ⟨[], ⟨rfl, hin, rfl⟩, (Txn.Moved.refl ht ho.lt).subperm List.nil_subperm⟩
  · rename_i hout
    rcases hv with hv | ⟨e, he, hE⟩
    · refine Wp.bind (Wp.lift ?_ ?_)
      case refine_2 =>
        intro e he
        rw [L.overflowLen _ hv] at he
        cases he
      intro n hn
      rw [L.overflowLen _ hv] at hn
      cases hn
      have hpos : 0 < value.length := by omega
      have hcap := L.usable_pos
      have hne := chunks_ne_nil (usable pageSize) hpos
      refine Wp.bind (Wp.bind (wp_pageSize ?_))
      rw [hps, L.chunks value hpos]
      -- the pages first, then one write for each
      refine Wp.bind ((wp_pagesFor _ reuse ht L.overflow ho.lt).imp ?_)
      rintro pages t₁ ⟨hlen, hmoved⟩
      have ho₁ : t₁.Owns pages := hmoved.owns ht ho
      have hps₁ : t₁.pageSize = pageSize := hmoved.pageSize.trans hps
      have hwrite := wp_writeChunks (E := E) S.overflowType L.finish
        (Lib.chunks (usable pageSize) value) hmoved.wf hlen ho₁.nodup fun p hp => ⟨ho₁.pos p hp, ho₁.lt p hp⟩
      rw [hps₁] at hwrite
      refine Wp.bind (hwrite.imp ?_)
      rintro _ t₂ ⟨hchain, hmoved₂⟩
      cases pages with
      | nil =>
          have := hlen.symm
          rw [List.length_nil, List.length_eq_zero_iff] at this
          exact absurd this hne
      | cons first rest =>
          refine Wp.pure (Wp.pure ⟨first :: rest, ?_, hmoved.trans hmoved₂⟩)
          exact ⟨rfl, by omega, hv, rfl, hchain⟩
    · refine Wp.bind (Wp.lift ?_ ?_)
      · intro n hn
        rw [he] at hn
        cases hn
      · intro e' he'
        rw [he] at he'
        cases he'
        exact hE

end Values

/-! ## Nodes -/

/-- The tree on the pages a transaction shows. -/
abbrev TreeIn (S : TreeSpec K) (H : Xxh3) (pageSize maxLen : Nat) (keyOk : K → Prop) (t : Txn)
    (h : Nat) : Sub K Bytes :=
  TreeAt (S.layout H pageSize maxLen keyOk) (t.view H) h

/-- What an insertion leaves: the tree with the map `m`, or two trees that share
its range and its map. -/
def Inserted (S : TreeSpec K) (H : Xxh3) (pageSize maxLen : Nat) (keyOk : K → Prop) (t t' : Txn)
    (h n : Nat) (lo : WithBot K) (hi : WithTop K) (m : List (K × Bytes)) (own : List Nat) :
    Ins K → Prop
  | .fit => ∃ own', S.TreeIn H pageSize maxLen keyOk t' h n lo hi m own' ∧ t.Moved H t' own own'
  | .split sep right => ∃ m₁ m₂ o₁ o₂, keyOk sep ∧ lo < sep ∧ sep < hi ∧
      S.TreeIn H pageSize maxLen keyOk t' h n lo sep m₁ o₁ ∧
      S.TreeIn H pageSize maxLen keyOk t' h right sep hi m₂ o₂ ∧
      m = m₁ ++ m₂ ∧ t.Moved H t' own (o₁ ++ o₂)

section Nodes

variable {pageSize : Nat} (L : S.Lawful H pageSize maxLen keyOk E)
  {n : Nat} {lo : WithBot K} {hi : WithTop K} {own : List Nat}

/-- Rewriting the page of a node keeps the pages below it. -/
theorem wp_writeNode (ht : t.Wf H) {ps : List Nat} (ho : t.Owns (n :: ps)) {page : Bytes}
    (hlen : page.length = t.pageSize) :
    Wp (TxnM.writePage H n page >>= fun _ => (pure Ins.fit : TxnM (Ins K))) t (fun r t' =>
      r = .fit ∧ t.Moved H t' (n :: ps) (n :: ps) ∧
      t'.view H n = some (stampPageChecksum H page) ∧ ∀ p ∈ ps, t'.view H p = t.view H p) E := by
  refine Wp.bind ((Txn.wp_writeOwned ht ho List.mem_cons_self hlen).imp ?_)
  rintro _ t' ⟨hview, hmoved, hkeep⟩
  refine Wp.pure ⟨rfl, hmoved, hview, ?_⟩
  intro p hp
  refine hkeep p (List.mem_cons_of_mem _ hp) ?_
  rintro rfl
  exact (List.nodup_cons.mp ho.nodup).1 hp

/-- Writing the halves of a node: the left one on its page, the right one on a fresh page. -/
theorem wp_writeHalves (ht : t.Wf H) (hE : E Txn.pageCountOverflow) {o₁ o₂ : List Nat}
    (ho : t.Owns (n :: (o₁ ++ o₂))) {sep : K} {leftPage rightPage : Bytes}
    (hl : leftPage.length = t.pageSize) (hr : rightPage.length = t.pageSize) :
    Wp (writeHalves H n sep leftPage rightPage) t (fun r t' => ∃ right, r = .split sep right ∧
      t.Moved H t' (n :: (o₁ ++ o₂)) ((n :: o₁) ++ (right :: o₂)) ∧
      t'.view H n = some (stampPageChecksum H leftPage) ∧
      t'.view H right = some (stampPageChecksum H rightPage) ∧
      ∀ p ∈ o₁ ++ o₂, t'.view H p = t.view H p) E := by
  refine Wp.bind ((Txn.wp_allocatePage ht hE).imp ?_)
  rintro right t₁ ⟨hright, hmoved⟩
  have ho' : t.Owns ((n :: o₁) ++ [] ++ o₂) := by simpa using ho
  have hmoved₁ : t.Moved H t₁ (n :: (o₁ ++ o₂)) ((n :: o₁) ++ (right :: o₂)) := by
    simpa using hmoved.within ho'
  have ho₁ := hmoved₁.owns ht ho
  -- the new page is none of the old ones
  have hnot : ∀ p ∈ n :: (o₁ ++ o₂), p ≠ right := by
    intro p hp
    have := ho.lt p hp
    omega
  refine Wp.bind ((Txn.wp_writeOwned hmoved₁.wf ho₁ (n := n) (by simp) ?_).imp ?_)
  · rw [hmoved₁.pageSize, hl]
  rintro _ t₂ ⟨hview, hmoved₂, hkeep₂⟩
  have ho₂ := hmoved₂.owns hmoved₁.wf ho₁
  refine Wp.bind ((Txn.wp_writeOwned hmoved₂.wf ho₂ (n := right) (by simp) ?_).imp ?_)
  · rw [hmoved₂.pageSize, hmoved₁.pageSize, hr]
  rintro _ t₃ ⟨hview₃, hmoved₃, hkeep₃⟩
  -- neither write touches the other half or a child
  refine Wp.pure ⟨right, rfl, hmoved₁.trans (hmoved₂.trans hmoved₃), ?_, hview₃, ?_⟩
  · rw [hkeep₃ n (by simp) (hnot n List.mem_cons_self), hview]
  · intro p hp
    have hin : p ∈ (n :: o₁) ++ (right :: o₂) := by
      simp only [List.mem_append, List.mem_cons] at hp ⊢
      tauto
    have hne : p ≠ n := by
      rintro rfl
      exact (List.nodup_cons.mp ho.nodup).1 hp
    rw [hkeep₃ p hin (hnot p (List.mem_cons_of_mem _ hp)), hkeep₂ p hin hne]
    exact hmoved.step.frame p (ho.lt p (List.mem_cons_of_mem _ hp)) (by simp)

/-- An insertion behind another step. -/
theorem Inserted.after {t₁ t' : Txn} {h : Nat} {m : List (K × Bytes)}
    {own₁ : List Nat} {r : Ins K} (hmoved : t.Moved H t₁ own own₁)
    (hr : S.Inserted H pageSize maxLen keyOk t₁ t' h n lo hi m own₁ r) :
    S.Inserted H pageSize maxLen keyOk t t' h n lo hi m own r := by
  cases r with
  | fit =>
      obtain ⟨own', h1, h2⟩ := hr
      exact ⟨own', h1, hmoved.trans h2⟩
  | split sep right =>
      obtain ⟨m₁, m₂, o₁, o₂, h1, h2, h3, h4, h5, h6, h7⟩ := hr
      exact ⟨m₁, m₂, o₁, o₂, h1, h2, h3, h4, h5, h6, hmoved.trans h7⟩

include L

/-- The entries of a leaf fit. -/
theorem Lawful.entriesOk {μ : Nat → Option Bytes} {es : List (K × Cell)} {m : List (K × Bytes)}
    {ps : List Nat} (hes : Entries (S.layout H pageSize maxLen keyOk) μ es m ps)
    (hb : ∀ p ∈ ps, 0 < p ∧ p < 2 ^ 64) : ∀ e ∈ es, keyOk e.1 ∧ S.CellOk pageSize maxLen e.2 := by
  refine hes.all ?_
  intro k c v qs hk hc hsub
  exact ⟨hk, L.cellOk hc fun p hp => hb p (hsub p hp)⟩

/-- Splitting a leaf. -/
theorem wp_splitLeaf {es : List (K × Cell)} {m : List (K × Bytes)} {ps : List Nat} (ht : t.Wf H)
    (hps : t.pageSize = pageSize) (ho : t.Owns (n :: ps))
    (hes : Entries (S.layout H pageSize maxLen keyOk) (t.view H) es m ps) (hm : Sorted m)
    (hb : ∀ e ∈ m, lo < e.1 ∧ e.1 ≤ hi)
    (hsplit : (∃ i, S.cut (es.map S.footprint).sum es 0 = i ∧ es.drop i ≠ [] ∧
      (S.encodeLeaf (es.take i) pageSize).isSome = true ∧
      (S.encodeLeaf (es.drop i) pageSize).isSome = true) ∨ ∀ e, E e) :
    Wp (S.splitLeaf H n es) t (fun r t' =>
      S.Inserted H pageSize maxLen keyOk t t' 0 n lo hi m (n :: ps) r) E := by
  refine Wp.bind (wp_pageSize ?_)
  rw [hps]
  dsimp only
  generalize hi' : S.cut (es.map S.footprint).sum es 0 = i at hsplit ⊢
  split
  · -- no right half
    rename_i hempty
    rcases hsplit with ⟨j, rfl, hne, _⟩ | hall
    · exact absurd (List.isEmpty_iff.mp hempty) hne
    · exact Wp.throw (hall _)
  rename_i hright
  have hright : es.drop i ≠ [] := by simpa using hright
  split
  · -- no left half: the cut is at least one
    rename_i hlast
    have hleft : es.take i = [] := List.getLast?_eq_none_iff.mp hlast
    rcases hsplit with ⟨j, rfl, _⟩ | hall
    · exfalso
      cases es with
      | nil => simp at hright
      | cons e es =>
          have hpos : 0 < i := by
            rw [← hi', cut]
            split <;> omega
          obtain ⟨j, rfl⟩ : ∃ j, i = j + 1 := ⟨i - 1, by omega⟩
          simp at hleft
    · exact Wp.throw (hall _)
  rename_i sep c hlast
  split
  case h_2 =>
    rename_i hnone
    rcases hsplit with ⟨j, rfl, _, hl, hr⟩ | hall
    · obtain ⟨l, hl⟩ := Option.isSome_iff_exists.mp hl
      obtain ⟨r, hr⟩ := Option.isSome_iff_exists.mp hr
      exact absurd hr (hnone l r hl)
    · exact Wp.throw (hall _)
  rename_i leftPage rightPage hl hr
  -- both halves fit
  rw [← List.take_append_drop i es] at hes
  obtain ⟨m₁, m₂, o₁, o₂, rfl, rfl, hes₁, hes₂⟩ := hes.append
  obtain ⟨hm₁, hm₂, hlt⟩ := List.pairwise_append.mp hm
  have hsepIn : ∃ e ∈ m₁, e.1 = sep := by
    have hmem : sep ∈ (es.take i).map Prod.fst :=
      List.mem_map.mpr ⟨(sep, c), List.mem_of_getLast? hlast, rfl⟩
    rw [hes₁.keys] at hmem
    simpa using hmem
  have hle : ∀ e ∈ m₁, e.1 ≤ sep := by
    intro e he
    have hmem : e.1 ∈ (es.take i).map Prod.fst := by
      rw [hes₁.keys]
      exact List.mem_map_of_mem he
    obtain ⟨e', he', heq⟩ := List.mem_map.mp hmem
    rw [← heq]
    exact (hes₁.sorted hm₁).le_getLast hlast e' he'
  obtain ⟨e₀, he₀, rfl⟩ := hsepIn
  have hgt : ∀ e ∈ m₂, e₀.1 < e.1 := fun e he => hlt e₀ he₀ e he
  have hkey : keyOk e₀.1 := by
    have hok := L.entriesOk hes₁ (fun p hp => ho.bounds ht p (by simp [hp])) (e₀.1, c)
      (List.mem_of_getLast? hlast)
    exact hok.1
  have hne₂ : ∃ e, e ∈ m₂ := by
    have hlen : m₂ ≠ [] := by
      rintro rfl
      have hkeys := hes₂.keys
      simp only [List.map_nil, List.map_eq_nil_iff] at hkeys
      exact hright hkeys
    exact List.exists_mem_of_ne_nil _ hlen
  refine (wp_writeHalves ht L.overflow ho ?_ ?_).imp ?_
  · rw [L.leaf_length _ _ hl, hps]
  · rw [L.leaf_length _ _ hr, hps]
  rintro _ t' ⟨right, rfl, hmoved, hview, hview', hkeep⟩
  refine ⟨m₁, m₂, n :: o₁, right :: o₂, hkey, ?_, ?_, ?_, ?_, rfl, hmoved⟩
  · exact (hb e₀ (List.mem_append_left _ he₀)).1
  · obtain ⟨e, he⟩ := hne₂
    exact lt_of_lt_of_le (WithTop.coe_lt_coe.mpr (hgt e he)) (hb e (List.mem_append_right _ he)).2
  · refine ⟨es.take i, o₁, stampPageChecksum H leftPage, hview, by simp [layout, hl],
      hes₁.frame fun p hp => hkeep p (List.mem_append_left _ hp), hm₁, ?_, rfl⟩
    intro e he
    exact ⟨(hb e (List.mem_append_left _ he)).1, WithTop.coe_le_coe.mpr (hle e he)⟩
  · refine ⟨es.drop i, o₂, stampPageChecksum H rightPage, hview', by simp [layout, hr],
      hes₂.frame fun p hp => hkeep p (List.mem_append_right _ hp), hm₂, ?_, rfl⟩
    intro e he
    exact ⟨WithBot.coe_lt_coe.mpr (hgt e he), (hb e (List.mem_append_right _ he)).2⟩

/-- Upsert in a leaf. -/
theorem wp_insertLeaf {es : List (K × Cell)} {m : List (K × Bytes)} {ps : List Nat} {k : K}
    {v : Bytes} (ht : t.Wf H) (hps : t.pageSize = pageSize) (ho : t.Owns (n :: ps))
    (hfits : (S.encodeLeaf es pageSize).isSome = true)
    (hes : Entries (S.layout H pageSize maxLen keyOk) (t.view H) es m ps) (hm : Sorted m)
    (hb : ∀ e ∈ m, lo < e.1 ∧ e.1 ≤ hi) (hk : keyOk k) (hlo : lo < k) (hhi : k ≤ hi)
    (hv : v.length ≤ maxLen ∨ ∃ e, S.overflowLen v.length = .error e ∧ E e) :
    Wp (S.insertLeaf H n es k v) t (fun r t' =>
      S.Inserted H pageSize maxLen keyOk t t' 0 n lo hi (insertKey k v m) (n :: ps) r) E := by
  have hops : t.Owns ps := ho.sublist (List.sublist_cons_self _ _)
  have hok := L.entriesOk hes (hops.bounds ht)
  obtain ⟨l, qs, r, rfl, hfind, hrebuild⟩ := hes.focus hm hk
  have ho' : t.Owns ((n :: l) ++ qs ++ r) := by simpa using ho
  have hoqs : t.Owns qs :=
    hops.sublist ((List.sublist_append_right l qs).trans (List.sublist_append_left _ _))
  refine Wp.bind (wp_pageSize ?_)
  -- the chain of the value that is replaced, if there is one
  have hreuse : Wp (S.reusable H (find k es)) t (fun pages t' => pages = qs ∧ t' = t) E := by
    rcases hfind with ⟨hnone, rfl⟩ | ⟨c, v₀, hsome, hc⟩
    · rw [hnone]
      exact Wp.pure ⟨rfl, rfl⟩
    · rw [hsome]
      exact wp_reusable L ht hps hc hoqs
  refine Wp.bind (hreuse.imp ?_)
  rintro _ _ ⟨rfl, rfl⟩
  refine Wp.bind ((wp_makeCell L ht hps hv hoqs).imp ?_)
  rintro c t₁ ⟨qs', hc, hmoved⟩
  have hps₁ : t₁.pageSize = pageSize := hmoved.pageSize.trans hps
  have hmoved₁ := hmoved.within ho'
  have ho₁ : t₁.Owns (n :: (l ++ qs' ++ r)) := by simpa using hmoved₁.owns ht ho'
  have hes₁ := hrebuild (t₁.view H) c v qs' (by
    intro p hp
    refine hmoved.around ho' p ?_
    simp only [List.mem_append, List.mem_cons] at hp ⊢
    tauto) hc
  have hm₁ : Sorted (insertKey k v m) := sorted_insertKey hm
  have hb₁ : ∀ e ∈ insertKey k v m, lo < e.1 ∧ e.1 ≤ hi := by
    intro e he
    rcases mem_insertKey he with rfl | he
    · exact ⟨hlo, hhi⟩
    · exact hb e he
  have hcok : S.CellOk pageSize maxLen c := by
    exact L.cellOk hc ((hmoved.owns ht hoqs).bounds hmoved.wf)
  dsimp only
  rw [hps]
  split
  · rename_i encoded henc
    refine (wp_writeNode hmoved.wf ho₁ ?_).imp ?_
    · rw [L.leaf_length _ _ henc, hps₁]
    rintro _ t' ⟨rfl, hmoved', hview, hkeep⟩
    refine ⟨n :: (l ++ qs' ++ r), ⟨insertKey k c es, l ++ qs' ++ r, _, hview, ?_,
      hes₁.frame hkeep, hm₁, hb₁, rfl⟩, ?_⟩
    · simp [layout, henc]
    · have hall := hmoved₁.trans (by simpa using hmoved')
      simpa using hall
  · rename_i henc
    have hsplit := L.leaf_split es k c hfits hok hk hcok henc
    refine (wp_splitLeaf L hmoved.wf hps₁ ho₁ hes₁ hm₁ hb₁ hsplit).imp ?_
    intro r' t' hr
    exact Inserted.after (by simpa using hmoved₁) hr

/-- Splitting an inner node. -/
theorem wp_splitInner {h : Nat} {es : List (K × Nat)} {rightmost : Nat} {m : List (K × Bytes)}
    {ps : List Nat} (ht : t.Wf H) (hps : t.pageSize = pageSize) (ho : t.Owns (n :: ps)) (hne : es ≠ [])
    (hkids : Kids keyOk (S.TreeIn H pageSize maxLen keyOk t h) lo hi es rightmost m ps)
    (hsplit : (∀ r, (S.encodeInner (es.take (es.length / 2)) r pageSize).isSome = true ∧
      (S.encodeInner (es.drop (es.length / 2 + 1)) r pageSize).isSome = true) ∨ ∀ e, E e) :
    Wp (S.splitInner H n es rightmost) t (fun r t' =>
      S.Inserted H pageSize maxLen keyOk t t' (h + 1) n lo hi m (n :: ps) r) E := by
  have hpos : 0 < es.length := List.length_pos_iff.mpr hne
  obtain ⟨i, hi'⟩ : ∃ i, es.length / 2 = i := ⟨_, rfl⟩
  have hlt : i < es.length := by omega
  obtain ⟨⟨k, c⟩, hkc⟩ : ∃ e, es[i]? = some e := ⟨es[i], List.getElem?_eq_getElem hlt⟩
  have htake : es.take (i + 1) = es.take i ++ [(k, c)] := by
    rw [List.take_add_one, hkc]
    rfl
  -- the entry in the middle is moved up: its child becomes the left half's rightmost one
  have hes : es = es.take i ++ (k, c) :: es.drop (i + 1) := by
    conv_lhs => rw [← List.take_append_drop (i + 1) es, htake]
    simp
  refine Wp.bind (wp_pageSize ?_)
  dsimp only
  rw [hps, hi', htake, List.getLast?_concat, List.dropLast_concat]
  dsimp only
  rw [hi'] at hsplit
  split
  case h_2 =>
    rename_i hnone
    rcases hsplit with hfit | hall
    · obtain ⟨l, hl⟩ := Option.isSome_iff_exists.mp (hfit c).1
      obtain ⟨r, hr⟩ := Option.isSome_iff_exists.mp (hfit rightmost).2
      exact absurd hr (hnone l r hl)
    · exact Wp.throw (hall _)
  rename_i leftPage rightPage hl hr
  rw [hes] at hkids
  have hsep := hkids.seps (k, c) (by simp)
  -- the children, their pages and their entries are divided at the same place
  obtain ⟨m₁, m₂, o₁, o₂, rfl, rfl, hkids₁, hkids₂⟩ := hkids.split
  -- the left half keeps its page, the right half gets a new one
  refine (wp_writeHalves ht L.overflow ho ?_ ?_).imp ?_
  · rw [L.inner_length _ _ _ hl, hps]
  · rw [L.inner_length _ _ _ hr, hps]
  rintro _ t' ⟨right, rfl, hmoved, hview, hview', hkeep⟩
  refine ⟨m₁, m₂, n :: o₁, right :: o₂, hsep.1, hsep.2.1, hsep.2.2, ?_, ?_, rfl, hmoved⟩
  · refine ⟨es.take i, c, o₁, _, hview, by simp [layout, hl], L.inner_ne _ _ _ hl, ?_, rfl⟩
    refine hkids₁.mono ?_
    intro n' lo' hi' m' o hsub hsubtree
    exact hsubtree.frame fun p hp => hkeep p (List.mem_append_left _ (hsub p hp))
  · refine ⟨es.drop (i + 1), rightmost, o₂, _, hview', by simp [layout, hr],
      L.inner_ne _ _ _ hr, ?_, rfl⟩
    refine hkids₂.mono ?_
    intro n' lo' hi' m' o hsub hsubtree
    exact hsubtree.frame fun p hp => hkeep p (List.mem_append_right _ (hsub p hp))

end Nodes

/-! ## The descent -/

section Index

variable {pre post : List (K × Nat)} {k : K}

/-- The index the code computes is where the hole is. -/
theorem childIndex_append (hpre : ∀ e ∈ pre, e.1 < k) (hpost : ∀ e ∈ post.head?, k ≤ e.1) :
    childIndex (pre ++ post) k = pre.length := by
  unfold childIndex
  induction pre with
  | nil =>
      cases post with
      | nil => rfl
      | cons e post =>
          have hle := hpost e (by simp)
          simp [List.findIdx_cons, hle]
  | cons e pre ih =>
      have hlt := hpre e List.mem_cons_self
      simp only [List.cons_append, List.findIdx_cons, not_le.mpr hlt, decide_false, cond_false,
        List.length_cons]
      rw [ih fun x hx => hpre x (List.mem_cons_of_mem _ hx)]

omit [LinearOrder K] in
/-- The child between two parts of the entries. -/
theorem childAt_append (rightmost : Nat) :
    childAt (pre ++ post) rightmost pre.length = childOf post rightmost := by
  unfold childAt childOf
  rw [List.getElem?_append_right (le_refl _), Nat.sub_self]
  cases post with
  | nil => rfl
  | cons e post => rfl

omit [LinearOrder K] in
/-- An entry between two parts. -/
theorem insertIdx_append (e : K × Nat) : (pre ++ post).insertIdx pre.length e = pre ++ e :: post := by
  induction pre with
  | nil => simp
  | cons x pre ih => simp [ih]

omit [LinearOrder K] in
/-- Redirecting the child between two parts. -/
theorem setChild_append (rightmost right : Nat) : setChild (pre ++ post) rightmost pre.length right =
    (pre ++ (redirect post rightmost right).1, (redirect post rightmost right).2) := by
  unfold setChild redirect
  rw [List.getElem?_append_right (le_refl _), Nat.sub_self]
  cases post with
  | nil => rfl
  | cons x post =>
      simp only [List.getElem?_cons_zero]
      rw [List.set_append_right _ _ (le_refl _), Nat.sub_self, List.set_cons_zero]

omit [LinearOrder K] in
/-- Redirecting keeps the number of entries. -/
theorem length_redirect (rightmost right : Nat) :
    (redirect post rightmost right).1.length = post.length := by
  cases post with
  | nil => rfl
  | cons x post => simp [redirect]

end Index

section Child

variable {pageSize n h : Nat} {lo : WithBot K} {hi : WithTop K} {own : List Nat} {m : List (K × Bytes)}

/-- A node owns the pages around the hole, and those of the child in it. -/
theorem owns_around {x : Hole K Bytes} {es : List (K × Nat)} {rightmost : Nat} {ps midPages : List Nat} {k : K}
    {mid : List (K × Bytes)} (hx : x.At keyOk (S.TreeIn H pageSize maxLen keyOk t h) lo hi es rightmost m ps k mid midPages)
    (ho : t.Owns (n :: ps)) : t.Owns ((n :: x.leftPages) ++ midPages ++ x.rightPages) := by
  rw [hx.pages] at ho
  simpa using ho

/-- When the child in the hole moves, the other children stay. -/
theorem keeps_around {x : Hole K Bytes} {midPages o : List Nat} {t₁ : Txn}
    (ho : t.Owns ((n :: x.leftPages) ++ midPages ++ x.rightPages)) (hmoved : t.Moved H t₁ midPages o) :
    x.Keeps (S.TreeIn H pageSize maxLen keyOk t h) (S.TreeIn H pageSize maxLen keyOk t₁ h) := by
  intro n' lo' hi' m' o' hsub hsubtree
  refine hsubtree.frame fun p hp => hmoved.around ho p ?_
  have := hsub p hp
  simp only [List.mem_append, List.mem_cons] at this ⊢
  tauto

/-- A node whose child has taken the entry on its own page stays as it is. -/
theorem Inserted.kept {x : Hole K Bytes} {es : List (K × Nat)} {rightmost : Nat} {ps midPages : List Nat} {k : K}
    {mid mid' : List (K × Bytes)} {b : Bytes} {t₁ : Txn} (hview : t.view H n = some b)
    (hb : (S.layout H pageSize maxLen keyOk).innerPage es rightmost = some b) (hne : es ≠ [])
    (hx : x.At keyOk (S.TreeIn H pageSize maxLen keyOk t h) lo hi es rightmost m ps k mid midPages)
    (ho : t.Owns (n :: ps))
    (hr : S.Inserted H pageSize maxLen keyOk t t₁ h (childOf x.post rightmost) x.lo x.hi mid' midPages .fit) :
    S.Inserted H pageSize maxLen keyOk t t₁ (h + 1) n lo hi (x.left ++ mid' ++ x.right) (n :: ps) .fit := by
  have ho' := owns_around hx ho
  obtain ⟨o, htree, hmoved⟩ := hr
  refine ⟨n :: (x.leftPages ++ o ++ x.rightPages), ?_, ?_⟩
  · refine ⟨es, rightmost, _, b, ?_, hb, hne, hx.fill _ _ _ (keeps_around ho' hmoved) htree, rfl⟩
    rw [← hview]
    exact hmoved.around ho' n (by simp)
  · rw [hx.pages]
    simpa using hmoved.within ho'

end Child

section Descent

variable {pageSize : Nat} (L : S.Lawful H pageSize maxLen keyOk E)
  {n h : Nat} {lo : WithBot K} {hi : WithTop K} {own : List Nat} {m : List (K × Bytes)}

include L

/-- Pages of the tree decode to its nodes. -/
theorem Lawful.decode_leafAt {μ : Nat → Option Bytes} {es : List (K × Cell)} {ps : List Nat}
    {b : Bytes} (ho : ∀ p ∈ ps, 0 < p ∧ p < 2 ^ 64)
    (hb : (S.layout H pageSize maxLen keyOk).leafPage es = some b)
    (hes : Entries (S.layout H pageSize maxLen keyOk) μ es m ps) (hm : Sorted m) :
    S.decodeNode b n = .ok (.leaf es) := by
  obtain ⟨b', hb', rfl⟩ := Option.map_eq_some_iff.mp hb
  exact L.decode_leaf es b' n hb' (hes.sorted hm) (L.entriesOk hes ho)

/-- An inner page is read back. -/
theorem Lawful.decode_innerAt {P : Sub K Bytes} {es : List (K × Nat)} {rightmost : Nat}
    {ps : List Nat} {b : Bytes} (ho : ∀ p ∈ ps, 0 < p ∧ p < 2 ^ 64)
    (hb : (S.layout H pageSize maxLen keyOk).innerPage es rightmost = some b)
    (hkids : Kids keyOk P lo hi es rightmost m ps) (hP : ∀ n lo hi m o, P n lo hi m o → n ∈ o) :
    S.decodeNode b n = .ok (.inner es rightmost) := by
  obtain ⟨b', hb', rfl⟩ := Option.map_eq_some_iff.mp hb
  obtain ⟨hright, hchild⟩ := hkids.children hP
  refine L.decode_inner es rightmost b' n hb' hkids.sorted_seps ?_ (ho _ hright).1 (ho _ hright).2
  intro e he
  exact ⟨(hkids.seps e he).1, ho _ (hchild e he)⟩

/-- A node whose child has split takes one more separator, or splits in turn. -/
theorem wp_insertChild {x : Hole K Bytes} {es : List (K × Nat)} {rightmost right : Nat} {ps midPages : List Nat}
    {k sep : K} {mid mid' : List (K × Bytes)} {t₁ : Txn} (ht : t.Wf H) (hps : t.pageSize = pageSize)
    (hfits : (S.encodeInner es rightmost pageSize).isSome = true)
    (hx : x.At keyOk (S.TreeIn H pageSize maxLen keyOk t h) lo hi es rightmost m ps k mid midPages)
    (ho : t.Owns (n :: ps))
    (hr : S.Inserted H pageSize maxLen keyOk t t₁ h (childOf x.post rightmost) x.lo x.hi mid' midPages (.split sep right)) :
    Wp (S.insertChild H n es rightmost x.pre.length sep (childOf x.post rightmost) right) t₁ (fun r t' =>
      S.Inserted H pageSize maxLen keyOk t t' (h + 1) n lo hi (x.left ++ mid' ++ x.right) (n :: ps) r) E := by
  have ho' := owns_around hx ho
  obtain ⟨m₁, m₂, o₁, o₂, hsep, hlos, hshi, htree₁, htree₂, rfl, hmoved⟩ := hr
  have hmoved₁ := hmoved.within ho'
  have ho₁ : t₁.Owns (n :: (x.leftPages ++ (o₁ ++ o₂) ++ x.rightPages)) := by
    simpa using hmoved₁.owns ht ho'
  have hps₁ : t₁.pageSize = pageSize := hmoved.pageSize.trans hps
  -- the two halves fill the hole
  have hkids₁ := hx.fill_two _ sep right m₁ m₂ o₁ o₂ (keeps_around ho' hmoved) hsep hlos hshi htree₁ htree₂
  have hown : t.Moved H t₁ (n :: ps) (n :: (x.leftPages ++ (o₁ ++ o₂) ++ x.rightPages)) := by
    rw [hx.pages]
    simpa using hmoved₁
  have hne₁ : x.pre ++ (sep, childOf x.post rightmost) :: (redirect x.post rightmost right).1 ≠ [] := by simp
  unfold insertChild
  refine Wp.bind (wp_pageSize ?_)
  dsimp only
  rw [hx.es_eq, setChild_append]
  dsimp only
  rw [insertIdx_append, hps₁]
  split
  · -- the separator fits
    rename_i encoded henc
    refine (wp_writeNode hmoved.wf ho₁ ?_).imp ?_
    · rw [L.inner_length _ _ _ henc, hps₁]
    rintro _ t' ⟨rfl, hmoved', hview', hkeep⟩
    refine ⟨_, ⟨_, _, _, _, hview', by simp [layout, henc], hne₁, hkids₁.mono ?_, rfl⟩, hown.trans hmoved'⟩
    intro n' lo' hi' m' o' hsub hsubtree
    exact hsubtree.frame fun p hp => hkeep p (hsub p hp)
  · -- it does not: the node had its separators, so it splits with one more
    rename_i henc
    have hlen : (x.pre ++ (sep, childOf x.post rightmost) ::
        (redirect x.post rightmost right).1).length = es.length + 1 := by
      rw [hx.es_eq]
      simp only [List.length_append, List.length_cons, length_redirect]
      omega
    have hsplit := L.inner_split es rightmost _ _ hfits hlen henc
    refine (wp_splitInner L hmoved.wf hps₁ ho₁ hne₁ hkids₁ hsplit).imp ?_
    intro r' t' hr
    exact Inserted.after hown hr

/-- The descent: an insertion puts one entry into the map of the tree. -/
theorem wp_insertRec {fuel : Nat} {k : K} {v : Bytes} (ht : t.Wf H) (hps : t.pageSize = pageSize)
    (ho : t.Owns own) (htree : S.TreeIn H pageSize maxLen keyOk t h n lo hi m own) (hk : keyOk k)
    (hlo : lo < k) (hhi : k ≤ hi) (hf : h < fuel)
    (hv : v.length ≤ maxLen ∨ ∃ e, S.overflowLen v.length = .error e ∧ E e) :
    Wp (S.insertRec H fuel n k v) t (fun r t' =>
      S.Inserted H pageSize maxLen keyOk t t' h n lo hi (insertKey k v m) own r) E := by
  induction h generalizing n lo hi m own fuel t with
  | zero =>
      obtain ⟨fuel, rfl⟩ : ∃ f, fuel = f + 1 := ⟨fuel - 1, by omega⟩
      obtain ⟨es, ps, b, hview, hb, hes, hm, hbd, rfl⟩ := htree
      have hops : t.Owns ps := ho.sublist (List.sublist_cons_self _ _)
      refine Wp.bind (Txn.wp_readPage hview ?_)
      refine Wp.bind (Wp.lift ?_ ?_)
      case refine_2 =>
        intro e he
        rw [L.decode_leafAt (hops.bounds ht) hb hes hm] at he
        cases he
      intro node hnode
      rw [L.decode_leafAt (hops.bounds ht) hb hes hm] at hnode
      cases hnode
      have hfits : (S.encodeLeaf es pageSize).isSome = true := by
        obtain ⟨b', hb', _⟩ := Option.map_eq_some_iff.mp hb
        rw [hb']
        rfl
      exact wp_insertLeaf L ht hps ho hfits hes hm hbd hk hlo hhi hv
  | succ h ih =>
      obtain ⟨fuel, rfl⟩ : ∃ f, fuel = f + 1 := ⟨fuel - 1, by omega⟩
      obtain ⟨es, rightmost, ps, b, hview, hb, hne, hkids, rfl⟩ := htree
      have hops : t.Owns ps := ho.sublist (List.sublist_cons_self _ _)
      have hdec := L.decode_innerAt (n := n) (hops.bounds ht) hb hkids
        fun _ _ _ _ _ hsub => hsub.root_mem
      have hfits : (S.encodeInner es rightmost pageSize).isSome = true := by
        obtain ⟨b', hb', _⟩ := Option.map_eq_some_iff.mp hb
        rw [hb']
        rfl
      refine Wp.bind (Txn.wp_readPage hview ?_)
      refine Wp.bind (Wp.lift ?_ ?_)
      case refine_2 =>
        intro e he
        rw [hdec] at he
        cases he
      intro node hnode
      rw [hdec] at hnode
      cases hnode
      -- the child in the hole at the key takes the entry
      obtain ⟨x, mid, midPages, hx⟩ := hkids.focus (fun _ _ _ _ _ hsub => hsub.bounds) hlo hhi
      have hidx : childIndex es k = x.pre.length := by
        rw [hx.es_eq]
        exact childIndex_append hx.below hx.above
      have hchild : childAt es rightmost x.pre.length = childOf x.post rightmost := by
        rw [hx.es_eq]
        exact childAt_append rightmost
      have hopsmid : t.Owns midPages :=
        (owns_around hx ho).sublist ((List.sublist_append_right _ _).trans (List.sublist_append_left _ _))
      have hmap : insertKey k v m = x.left ++ insertKey k v mid ++ x.right := by
        rw [hx.entries]
        exact insertKey_segment hx.left_lt hx.right_gt
      dsimp only
      rw [hidx, hchild, hmap]
      refine Wp.bind ((ih ht hps hopsmid hx.child hx.lo_lt hx.le_hi (by omega)).imp ?_)
      intro r t₁ hr
      cases r with
      | fit => exact Wp.pure (Inserted.kept hview hb hne hx ho hr)
      | split sep right => exact wp_insertChild L ht hps hfits hx ho hr

/-- The lookup finds the cell of the value the map has under the key. -/
theorem lookup_eq {src : PageSource} {fuel : Nat} (k : K) (hb : ∀ p ∈ own, 0 < p ∧ p < 2 ^ 64)
    (htree : TreeAt (S.layout H pageSize maxLen keyOk) src.view h n lo hi m own) (hlo : lo < k)
    (hhi : k ≤ hi) (hf : h < fuel) :
    (S.lookup src k fuel n = .ok none ∧ find k m = none) ∨
    ∃ c leaf v ps, S.lookup src k fuel n = .ok (some (c, leaf)) ∧ find k m = some v ∧
      S.CellAt H pageSize maxLen src.view c v ps ∧ ∀ p ∈ ps, p ∈ own := by
  induction h generalizing n lo hi m own fuel with
  | zero =>
      obtain ⟨fuel, rfl⟩ : ∃ f, fuel = f + 1 := ⟨fuel - 1, by omega⟩
      obtain ⟨es, ps, b, hview, hpage, hes, hm, _, rfl⟩ := htree
      have hdec := L.decode_leafAt (n := n) (fun p hp => hb p (List.mem_cons_of_mem _ hp))
        hpage hes hm
      have hrun : S.lookup src k (fuel + 1) n = .ok ((find k es).map (·, n)) := by
        simp [lookup, PageSource.page_of_view hview, hdec, bind, Except.bind]
      -- the leaf's entries are the segment's, so the search in it decides
      rcases hes.find k with ⟨h1, h2⟩ | ⟨c, v, qs, h1, h2, h3, h4⟩
      · exact Or.inl ⟨by rw [hrun, h1]; rfl, h2⟩
      · refine Or.inr ⟨c, n, v, qs, by rw [hrun, h1]; rfl, h2, h3, ?_⟩
        intro p hp
        exact List.mem_cons_of_mem _ (h4 p hp)
  | succ h ih =>
      obtain ⟨fuel, rfl⟩ : ∃ f, fuel = f + 1 := ⟨fuel - 1, by omega⟩
      obtain ⟨es, rightmost, ps, b, hview, hpage, _, hkids, rfl⟩ := htree
      have hdec := L.decode_innerAt (n := n) (fun p hp => hb p (List.mem_cons_of_mem _ hp))
        hpage hkids fun _ _ _ _ _ hsub => hsub.root_mem
      -- the child taken is the one whose range holds the key
      obtain ⟨x, mid, midPages, hx⟩ := hkids.focus (fun _ _ _ _ _ hsub => hsub.bounds) hlo hhi
      have hchild : childAt es rightmost (childIndex es k) = childOf x.post rightmost := by
        rw [hx.es_eq, childIndex_append hx.below hx.above]
        exact childAt_append rightmost
      have hrun : S.lookup src k (fuel + 1) n =
          S.lookup src k fuel (childOf x.post rightmost) := by
        simp [lookup, PageSource.page_of_view hview, hdec, bind, Except.bind, hchild]
      -- no entry outside its segment has the key
      have hfind : find k m = find k mid := by
        rw [hx.entries]
        exact find_segment (fun e he => (hx.left_lt e he).ne) fun e he => (hx.right_gt e he).ne'
      have hmid : ∀ p ∈ midPages, p ∈ n :: ps := by
        intro p hp
        rw [hx.pages]
        simp [hp]
      rw [hrun, hfind]
      rcases ih (fun p hp => hb p (hmid p hp)) hx.child hx.lo_lt hx.le_hi
        (Nat.lt_of_succ_lt_succ hf) with
        hnone | ⟨c, leaf, v, qs, h1, h2, h3, h4⟩
      · exact Or.inl hnone
      · exact Or.inr ⟨c, leaf, v, qs, h1, h2, h3, fun p hp => hmid p (h4 p hp)⟩

end Descent

/-! ## The root -/

section Root

variable {pageSize : Nat} (L : S.Lawful H pageSize maxLen keyOk E)
  {own : List Nat} {m : List (K × Bytes)} {root : Nat} {k : K} {v : Bytes}

/-- A map kept in a tree, on the pages a transaction shows. -/
abbrev RootedIn (S : TreeSpec K) (H : Xxh3) (pageSize maxLen : Nat) (keyOk : K → Prop) (t : Txn)
    (root : Nat) (m : List (K × Bytes)) (own : List Nat) : Prop :=
  Rooted (S.layout H pageSize maxLen keyOk) (t.view H) root m own

include L

/-- The first entry of a tree. -/
theorem wp_freshLeaf (ht : t.Wf H) (hps : t.pageSize = pageSize) (hk : keyOk k)
    (hv : v.length ≤ maxLen ∨ ∃ e, S.overflowLen v.length = .error e ∧ E e) :
    Wp (S.freshLeaf H k v) t (fun root t' => ∃ own',
      S.RootedIn H pageSize maxLen keyOk t' root [(k, v)] own' ∧ t.Moved H t' [] own') E := by
  have ho : t.Owns [] := ⟨List.nodup_nil, by simp, by simp⟩
  refine Wp.bind (wp_pageSize ?_)
  -- the cell and its overflow pages, then a page for the leaf
  refine Wp.bind ((wp_makeCell L ht hps hv ho).imp ?_)
  rintro c t₁ ⟨ps, hc, hmoved⟩
  have ho₁ : t₁.Owns ([] ++ [] ++ ps) := by simpa using hmoved.owns ht ho
  refine Wp.bind ((Txn.wp_allocatePage hmoved.wf L.overflow).imp ?_)
  rintro p t₂ ⟨_, hmoved₂⟩
  have hmoved₂' : t₁.Moved H t₂ ps (p :: ps) := by simpa using hmoved₂.within ho₁
  have ho₂ : t₂.Owns (p :: ps) := hmoved₂'.owns hmoved.wf (by simpa using ho₁)
  have hcell : S.CellAt H pageSize maxLen (t₂.view H) c v ps := by
    refine (S.layout H pageSize maxLen keyOk).cellAt_frame ?_ hc
    intro q hq
    exact hmoved₂.around ho₁ q (by simpa using hq)
  have hcok : S.CellOk pageSize maxLen c :=
    L.cellOk hc ((hmoved.owns ht ho).bounds hmoved.wf)
  rw [hps]
  split
  · rename_i hnone
    -- one cell always fits a leaf
    rcases L.fresh_leaf k c hk hcok with hsome | hall
    · rw [hnone] at hsome
      cases hsome
    · exact Wp.throw (hall _)
  · rename_i page hpage
    have hlen : page.length = t₂.pageSize := by
      rw [L.leaf_length _ _ hpage, hmoved₂.pageSize, hmoved.pageSize, hps]
    refine Wp.bind ((Txn.wp_writeOwned hmoved₂.wf ho₂ List.mem_cons_self hlen).imp ?_)
    rintro _ t₃ ⟨hview, hmoved₃, hkeep⟩
    -- writing the leaf leaves the cell's pages alone
    refine Wp.pure ⟨p :: ps, Or.inr ⟨?_, 0, ?_⟩, hmoved.trans (hmoved₂'.trans hmoved₃)⟩
    · exact (ho₂.pos p List.mem_cons_self).ne'
    · have hes : Entries (S.layout H pageSize maxLen keyOk) (t₂.view H) [(k, c)] [(k, v)] (ps ++ []) :=
        Entries.cons hk hcell Entries.nil
      rw [List.append_nil] at hes
      refine ⟨[(k, c)], ps, _, hview, by simp [layout, hpage], hes.frame ?_,
        List.pairwise_singleton _ _, by simp, rfl⟩
      intro q hq
      refine hkeep q (List.mem_cons_of_mem _ hq) ?_
      rintro rfl
      exact (List.nodup_cons.mp ho₂.nodup).1 hq

/-- One upsert puts one entry into the map. -/
theorem wp_upsert (ht : t.Wf H) (hps : t.pageSize = pageSize) (ho : t.Owns own)
    (htree : S.RootedIn H pageSize maxLen keyOk t root m own) (hk : keyOk k)
    (hv : v.length ≤ maxLen ∨ ∃ e, S.overflowLen v.length = .error e ∧ E e) :
    Wp (S.upsert H root k v) t (fun root' t' => ∃ own',
      S.RootedIn H pageSize maxLen keyOk t' root' (insertKey k v m) own' ∧ t.Moved H t' own own') E := by
  rcases htree with ⟨rfl, rfl, rfl⟩ | ⟨hne, h, htree⟩
  · exact wp_freshLeaf L ht hps hk hv
  · have hheight : h < MAX_DEPTH := htree.height_lt ho.nodup ho.lt ht.bound
    unfold upsert
    rw [if_neg hne]
    refine Wp.bind ((wp_insertRec L ht hps ho htree hk (WithBot.bot_lt_coe k) le_top hheight hv).imp ?_)
    rintro (_ | ⟨sep, right⟩) t₁ hr
    · obtain ⟨own', htree', hmoved⟩ := hr
      exact Wp.pure ⟨own', Or.inr ⟨hne, h, htree'⟩, hmoved⟩
    · -- the root split: one level more
      obtain ⟨m₁, m₂, o₁, o₂, hsep, hlo, hhi, htree₁, htree₂, hm, hmoved⟩ := hr
      have ho₁ := hmoved.owns ht ho
      have ho₁' : t₁.Owns ([] ++ [] ++ (o₁ ++ o₂)) := by simpa using ho₁
      refine Wp.bind (wp_pageSize ?_)
      refine Wp.bind ((Txn.wp_allocatePage hmoved.wf L.overflow).imp ?_)
      rintro p t₂ ⟨_, hmoved₂⟩
      have hmoved₂' : t₁.Moved H t₂ (o₁ ++ o₂) (p :: (o₁ ++ o₂)) := by
        simpa using hmoved₂.within ho₁'
      have ho₂ := hmoved₂'.owns hmoved.wf ho₁
      have hkeep₂ : ∀ q ∈ o₁ ++ o₂, t₂.view H q = t₁.view H q := by
        intro q hq
        exact hmoved₂.around ho₁' q (by simpa using hq)
      rw [hmoved.pageSize, hps]
      split
      · rename_i hnone
        rcases L.fresh_root sep root right hsep with hsome | hall
        · rw [hnone] at hsome
          cases hsome
        · exact Wp.throw (hall _)
      · rename_i page hpage
        have hlen : page.length = t₂.pageSize := by
          rw [L.inner_length _ _ _ hpage, hmoved₂.pageSize, hmoved.pageSize, hps]
        refine Wp.bind ((Txn.wp_writeOwned hmoved₂.wf ho₂ List.mem_cons_self hlen).imp ?_)
        rintro _ t₃ ⟨hview, hmoved₃, hkeep₃⟩
        have hkeep : ∀ q ∈ o₁ ++ o₂, t₃.view H q = t₁.view H q := by
          intro q hq
          have hne : q ≠ p := by
            rintro rfl
            exact (List.nodup_cons.mp ho₂.nodup).1 hq
          rw [hkeep₃ q (List.mem_cons_of_mem _ hq) hne, hkeep₂ q hq]
        refine Wp.pure ⟨p :: (o₁ ++ o₂), Or.inr ⟨(ho₂.pos p List.mem_cons_self).ne', h + 1, ?_⟩,
          hmoved.trans (hmoved₂'.trans hmoved₃)⟩
        rw [hm]
        refine ⟨[(sep, root)], right, o₁ ++ o₂, _, hview, by simp [layout, hpage], by simp, ?_, rfl⟩
        refine Kids.cons hsep hlo hhi ?_ (Kids.last ?_)
        · exact htree₁.frame fun q hq => hkeep q (List.mem_append_left _ hq)
        · exact htree₂.frame fun q hq => hkeep q (List.mem_append_right _ hq)

/-- Reading a key of a rooted tree. -/
theorem lookup_rooted {src : PageSource} (k : K) {b : Nat} (hnd : own.Nodup)
    (hb : ∀ p ∈ own, 0 < p ∧ p < b) (hlt : b < 2 ^ 64) (hroot : root ≠ 0)
    (htree : Rooted (S.layout H pageSize maxLen keyOk) src.view root m own) :
    (S.lookup src k MAX_DEPTH root = .ok none ∧ find k m = none) ∨
    ∃ c leaf v ps, S.lookup src k MAX_DEPTH root = .ok (some (c, leaf)) ∧ find k m = some v ∧
      S.CellAt H pageSize maxLen src.view c v ps ∧ ∀ p ∈ ps, p ∈ own := by
  rcases htree with ⟨h0, _⟩ | ⟨_, h, htree⟩
  · exact absurd h0 hroot
  · have hheight : h < MAX_DEPTH := htree.height_lt hnd (fun p hp => (hb p hp).2) hlt
    refine lookup_eq L k ?_ htree (WithBot.bot_lt_coe k) le_top hheight
    intro p hp
    exact ⟨(hb p hp).1, lt_trans (hb p hp).2 hlt⟩

end Root

end TreeSpec

end EmbedMind
