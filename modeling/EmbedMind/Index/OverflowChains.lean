import EmbedMind.Lib.Fallible
import EmbedMind.Storage.BtreeMap
import EmbedMind.Index.DictMap

/-!
# Overflow chains have one owner

`TreeSpec.inventory` walks a tree and lists its nodes and, for every key, the pages of
its value. In every tree that insertions make, no page is listed twice
(`chains_owned`). A value that replaces another one on its chain takes exactly the pages
that the chain is short of (`wp_upsert_replace`).
-/

namespace EmbedMind

open Lib Lib.Assoc Lib.PagedTree

namespace TreeSpec

variable {K : Type}

/-- The node pages of a tree, and the chain pages of every key. -/
structure Inventory (K : Type) where
  nodes : List Nat
  chains : List (K × List Nat)

/-- The pages of a value. -/
def chainOf (S : TreeSpec K) (src : PageSource) : Cell → Except Error (List Nat)
  | .inline _ => .ok []
  | .overflow totalLen firstPage =>
      let cap := usable src.pageSize
      chainPages S.overflowType S.texts.chainHeader S.texts.notChain src (max ((totalLen + cap - 1) / cap) 1)
        firstPage

def chainsOf (S : TreeSpec K) (src : PageSource) : List (K × Cell) → Except Error (List (K × List Nat))
  | [] => .ok []
  | (key, cell) :: rest => do
      let chain ← S.chainOf src cell
      let chains ← chainsOf S src rest
      .ok ((key, chain) :: chains)

def collect (f : Nat → Except Error (Inventory K)) : List Nat → Except Error (Inventory K)
  | [] => .ok ⟨[], []⟩
  | child :: rest => do
      let first ← f child
      let others ← collect f rest
      .ok ⟨first.nodes ++ others.nodes, first.chains ++ others.chains⟩

/-- The pages below a node. -/
def inventoryBelow (S : TreeSpec K) (src : PageSource) : Nat → Nat → Except Error (Inventory K)
  | 0, pageNo => .error (.malformedPage pageNo S.texts.tooDeep)
  | fuel + 1, pageNo => do
      let page ← src.page pageNo
      match ← S.decodeNode page pageNo with
      | .leaf entries => do
          let chains ← S.chainsOf src entries
          .ok ⟨[pageNo], chains⟩
      | .inner entries rightmost => do
          let below ← collect (inventoryBelow S src fuel) (entries.map Prod.snd ++ [rightmost])
          .ok ⟨pageNo :: below.nodes, below.chains⟩

/-- The pages of a tree; root 0 is the empty tree. -/
def inventory (S : TreeSpec K) (src : PageSource) (root : Nat) : Except Error (Inventory K) :=
  if root = 0 then .ok ⟨[], []⟩ else S.inventoryBelow src MAX_DEPTH root

/-- The pages an overflowing value takes. -/
def chainPagesFor (pageSize len : Nat) : Nat := (len + usable pageSize - 1) / usable pageSize

/-- The pages a value takes outside its leaf. -/
def chainLength (S : TreeSpec K) (pageSize : Nat) (value : Bytes) : Nat :=
  if value.length ≤ S.maxInline pageSize then 0 else chainPagesFor pageSize value.length

/-- The chains of distinct keys share no page, and none of them is a node. -/
structure ChainsOwned (S : TreeSpec K) (src : PageSource) (root : Nat) (m : List (K × Bytes))
    (pages : Inventory K) : Prop where
  found : S.inventory src root = .ok pages
  lengths : pages.chains.map (fun x => (x.1, x.2.length)) = m.map fun e => (e.1, S.chainLength src.pageSize e.2)
  nodes : pages.nodes.Nodup
  chain : ∀ x ∈ pages.chains, x.2.Nodup ∧ x.2.Disjoint pages.nodes
  disjoint : pages.chains.Pairwise fun x y => x.2.Disjoint y.2

section Inventory

variable [LinearOrder K] {S : TreeSpec K} {H : Xxh3} {maxLen : Nat} {keyOk : K → Prop} {E : Error → Prop}
  {src : PageSource} {own : List Nat} {m : List (K × Bytes)}

/-- The listed pages are the pages of the tree. -/
structure Inventory.Lists (S : TreeSpec K) (pageSize : Nat) (m : List (K × Bytes)) (own : List Nat)
    (pages : Inventory K) : Prop where
  perm : (pages.nodes ++ pages.chains.flatMap Prod.snd).Perm own
  lengths : pages.chains.map (fun x => (x.1, x.2.length)) = m.map fun e => (e.1, S.chainLength pageSize e.2)

/-- The chain of a cell is found by walking it. -/
theorem chainOf_eq (L : S.Lawful H src.pageSize maxLen keyOk E) {c : Cell} {v : Bytes} {ps : List Nat}
    (hc : S.CellAt H src.pageSize maxLen src.view c v ps) (hb : ∀ p ∈ ps, 0 < p ∧ p < 2 ^ 64) :
    S.chainOf src c = .ok ps ∧ ps.length = S.chainLength src.pageSize v := by
  cases c with
  | inline value =>
      rcases hc with ⟨rfl, hin, rfl⟩
      refine ⟨rfl, ?_⟩
      unfold chainLength
      rw [if_pos hin, List.length_nil]
  | overflow totalLen firstPage =>
      rcases hc with ⟨rfl, hout, _, hhead, hchain⟩
      have hcount : ps.length = chainPagesFor src.pageSize v.length := by
        rw [hchain.length]
        exact chunksUpTo_length L.usable_pos (le_refl _)
      constructor
      · cases ps with
        | nil => cases hhead
        | cons p rest =>
            cases hhead
            refine chainPages_eq L.pageSize_ge L.pageSize_le hchain ?_ ?_ ?_
            · intro chunk hchunk
              exact (mem_chunksUpTo L.usable_pos hchunk).2
            · exact fun q hq => hb q (List.mem_cons_of_mem _ hq)
            · rw [← hchain.length, hcount]
              exact le_max_left _ _
      · unfold chainLength
        rw [if_neg (by omega), hcount]

/-- So are the chains of a leaf. -/
theorem chainsOf_eq (L : S.Lawful H src.pageSize maxLen keyOk E) {es : List (K × Cell)} {ps : List Nat}
    (hes : Entries (S.layout H src.pageSize maxLen keyOk) src.view es m ps) (hb : ∀ p ∈ ps, 0 < p ∧ p < 2 ^ 64) :
    ∃ chains, S.chainsOf src es = .ok chains ∧ chains.flatMap Prod.snd = ps ∧
      chains.map (fun x => (x.1, x.2.length)) = m.map fun e => (e.1, S.chainLength src.pageSize e.2) := by
  induction hes with
  | nil => exact ⟨[], rfl, rfl, rfl⟩
  | @cons k c v ps es m own _ hc _ ih =>
      rcases chainOf_eq L hc fun p hp => hb p (List.mem_append_left _ hp) with ⟨hchain, hlen⟩
      rcases ih fun p hp => hb p (List.mem_append_right _ hp) with ⟨chains, hchains, hpages, hlens⟩
      refine ⟨(k, ps) :: chains, ?_, ?_, ?_⟩
      · unfold chainsOf
        rw [hchain, ok_bind, hchains, ok_bind]
      · rw [List.flatMap_cons, hpages]
      · rw [List.map_cons, List.map_cons, hlens, hlen]

/-- The children list their pages one after the other. -/
theorem collect_eq {ok : K → Prop} {P : Sub K Bytes} {lo : WithBot K} {hi : WithTop K} {es : List (K × Nat)}
    {rightmost pageSize : Nat} {f : Nat → Except Error (Inventory K)} (h : Kids ok P lo hi es rightmost m own)
    (hf : ∀ n lo hi m o, (∀ p ∈ o, p ∈ own) → P n lo hi m o →
      ∃ pages, f n = .ok pages ∧ pages.Lists S pageSize m o) :
    ∃ pages, collect f (es.map Prod.snd ++ [rightmost]) = .ok pages ∧ pages.Lists S pageSize m own := by
  induction h with
  | last hn =>
      rcases hf _ _ _ _ _ (fun p hp => hp) hn with ⟨pages, hpages, hlists⟩
      refine ⟨⟨pages.nodes ++ [], pages.chains ++ []⟩, ?_, ?_⟩
      · unfold collect
        rw [List.map_nil, List.nil_append]
        dsimp only
        rw [hpages, ok_bind]
        rfl
      · rw [List.append_nil, List.append_nil]
        exact hlists
  | @cons lo hi sep n rightmost es m m' own own' _ _ _ hn _ ih =>
      rcases hf _ _ _ _ _ (fun p hp => List.mem_append_left _ hp) hn with ⟨first, hfirst, hlists⟩
      have hrest := ih fun n lo hi m o ho => hf n lo hi m o fun p hp => List.mem_append_right _ (ho p hp)
      rcases hrest with ⟨others, hothers, hlists'⟩
      refine ⟨⟨first.nodes ++ others.nodes, first.chains ++ others.chains⟩, ?_, ?_, ?_⟩
      · rw [List.map_cons, List.cons_append]
        unfold collect
        rw [hfirst, ok_bind, hothers, ok_bind]
      · -- nodes before chains, or child by child
        have hswap : (first.nodes ++ others.nodes ++ (first.chains ++ others.chains).flatMap Prod.snd).Perm
            ((first.nodes ++ first.chains.flatMap Prod.snd) ++ (others.nodes ++ others.chains.flatMap Prod.snd)) := by
          rw [List.flatMap_append, List.append_assoc, List.append_assoc]
          refine List.Perm.append_left _ ?_
          rw [← List.append_assoc, ← List.append_assoc]
          exact List.Perm.append_right _ List.perm_append_comm
        exact hswap.trans (hlists.perm.append hlists'.perm)
      · rw [List.map_append, List.map_append, hlists.lengths, hlists'.lengths]

/-- So are all chains below a node. -/
theorem inventoryBelow_eq (L : S.Lawful H src.pageSize maxLen keyOk E) {h n fuel : Nat} {lo : WithBot K}
    {hi : WithTop K} (htree : TreeAt (S.layout H src.pageSize maxLen keyOk) src.view h n lo hi m own)
    (hb : ∀ p ∈ own, 0 < p ∧ p < 2 ^ 64) (hf : h < fuel) :
    ∃ pages, S.inventoryBelow src fuel n = .ok pages ∧ pages.Lists S src.pageSize m own := by
  induction h generalizing n lo hi m own fuel with
  | zero =>
      rcases Nat.exists_eq_add_one_of_ne_zero (Nat.ne_of_gt hf) with ⟨fuel, rfl⟩
      rcases htree with ⟨es, ps, b, hview, hpage, hes, hm, _, rfl⟩
      have hps : ∀ p ∈ ps, 0 < p ∧ p < 2 ^ 64 := fun p hp => hb p (List.mem_cons_of_mem _ hp)
      rcases chainsOf_eq L hes hps with ⟨chains, hchains, hpages, hlens⟩
      refine ⟨⟨[n], chains⟩, ?_, ?_, hlens⟩
      · unfold inventoryBelow
        rw [PageSource.page_of_view hview, ok_bind, L.decode_leafAt hps hpage hes hm, ok_bind]
        dsimp only
        rw [hchains, ok_bind]
      · rw [hpages]
        exact List.Perm.refl _
  | succ h ih =>
      rcases Nat.exists_eq_add_one_of_ne_zero (Nat.ne_of_gt (Nat.zero_lt_of_lt hf)) with ⟨fuel, rfl⟩
      rcases htree with ⟨es, rightmost, ps, b, hview, hpage, _, hkids, rfl⟩
      have hps : ∀ p ∈ ps, 0 < p ∧ p < 2 ^ 64 := fun p hp => hb p (List.mem_cons_of_mem _ hp)
      have hbelow : ∃ pages, collect (S.inventoryBelow src fuel) (es.map Prod.snd ++ [rightmost]) = .ok pages ∧
          pages.Lists S src.pageSize _ _ := collect_eq hkids
        fun n lo hi m o ho hsub => ih hsub (fun p hp => hps p (ho p hp)) (by omega)
      rcases hbelow with ⟨below, hbelow, hlists⟩
      refine ⟨⟨n :: below.nodes, below.chains⟩, ?_, ?_, hlists.lengths⟩
      · unfold inventoryBelow
        rw [PageSource.page_of_view hview, ok_bind, L.decode_innerAt hps hpage hkids
          (fun _ _ _ _ _ hsub => hsub.root_mem), ok_bind]
        dsimp only
        rw [hbelow, ok_bind]
      · exact hlists.perm.cons n

/-- No page of a tree has two owners. -/
theorem chains_owned (L : S.Lawful H src.pageSize maxLen keyOk E) {root b : Nat}
    (htree : Rooted (S.layout H src.pageSize maxLen keyOk) src.view root m own) (hnd : own.Nodup)
    (hb : ∀ p ∈ own, 0 < p ∧ p < b) (hlt : b < 2 ^ 64) : ∃ pages, S.ChainsOwned src root m pages := by
  have hlists : ∃ pages, S.inventory src root = .ok pages ∧ pages.Lists S src.pageSize m own := by
    unfold inventory
    rcases htree with ⟨rfl, rfl, rfl⟩ | ⟨hne, h, htree⟩
    · exact ⟨⟨[], []⟩, rfl, List.Perm.refl _, rfl⟩
    · have hheight : h < MAX_DEPTH := htree.height_lt hnd (fun p hp => (hb p hp).2) hlt
      rw [if_neg hne]
      exact inventoryBelow_eq L htree (fun p hp => ⟨(hb p hp).1, lt_trans (hb p hp).2 hlt⟩) hheight
  rcases hlists with ⟨pages, hpages, hlists⟩
  have hall := hlists.perm.nodup_iff.mpr hnd
  rcases List.nodup_append.mp hall with ⟨hnodes, hchains, happart⟩
  rcases List.nodup_flatMap.mp hchains with ⟨hchain, hdisjoint⟩
  refine ⟨pages, hpages, hlists.lengths, hnodes, ?_, hdisjoint⟩
  intro x hx
  refine ⟨hchain x hx, ?_⟩
  intro p hp hnode
  exact happart p hnode p (List.mem_flatMap.mpr ⟨x, hx, hp⟩) rfl

end Inventory

/-! ## Replacing a value -/

section Count

variable {H : Xxh3} {t : Txn}

/-- An allocation adds one page. -/
theorem wp_allocatePage_count :
    Wp (TxnM.allocatePage H) t (fun _ t' => t'.pageCount = t.pageCount + 1) fun _ => True := by
  refine Wp.of_results ?_
  intro p t' h
  unfold TxnM.allocatePage Txn.allocatePage at h
  split at h
  · cases h
    rfl
  · cases h

/-- A write adds none. -/
theorem wp_writePage_count {n : Nat} {page : Bytes} :
    Wp (TxnM.writePage H n page) t (fun _ t' => t'.pageCount = t.pageCount) fun _ => True := by
  refine Wp.of_results ?_
  intro u t' h
  unfold TxnM.writePage at h
  cases hwrite : t.writePage H n page with
  | error e =>
      rw [hwrite] at h
      cases h
  | ok t₁ =>
      rw [hwrite] at h
      cases h
      unfold Txn.writePage at hwrite
      split_ifs at hwrite
      cases hwrite
      rfl

/-- A chain takes the pages that the old one is short of. -/
theorem wp_pagesFor_count (n : Nat) (reuse : List Nat) :
    Wp (pagesFor H n reuse) t (fun _ t' => t'.pageCount = t.pageCount + (n - reuse.length)) fun _ => True := by
  induction n generalizing t reuse with
  | zero =>
      refine Wp.pure ?_
      omega
  | succ n ih =>
      cases reuse with
      | cons p reuse =>
          refine Wp.bind ((ih reuse).imp ?_)
          intro pages t' hcount
          refine Wp.pure ?_
          rw [hcount, List.length_cons]
          omega
      | nil =>
          refine Wp.bind (wp_allocatePage_count.imp ?_)
          intro p t₁ hcount₁
          refine Wp.bind ((ih []).imp ?_)
          intro pages t' hcount
          refine Wp.pure ?_
          rw [hcount, hcount₁, List.length_nil]
          omega

/-- Neither does writing a chain. -/
theorem wp_writeChunks_count {finish : Bytes → Bytes} {ty : PageType} {pageSize : Nat} (cs : List Bytes)
    (ps : List Nat) :
    Wp (writeChunks H finish ty pageSize cs ps) t (fun _ t' => t'.pageCount = t.pageCount) fun _ => True := by
  induction cs generalizing t ps with
  | nil => exact Wp.pure rfl
  | cons c cs ih =>
      cases ps with
      | nil => exact Wp.pure rfl
      | cons p ps =>
          refine Wp.bind (wp_writePage_count.imp ?_)
          intro _ t₁ hcount₁
          refine (ih ps).imp ?_
          intro _ t' hcount
          rw [hcount, hcount₁]

end Count

section Replace

variable [LinearOrder K] {S : TreeSpec K} {H : Xxh3} {maxLen pageSize : Nat} {keyOk : K → Prop} {E : Error → Prop}
  {t : Txn} {m : List (K × Bytes)} {own : List Nat} {k : K} {v old : Bytes}

/-- A leaf fits its page whatever chain an entry points to. -/
def PointersFit (S : TreeSpec K) (pageSize : Nat) : Prop :=
  ∀ es k len first len' first', Sorted es → find k es = some (.overflow len first) →
    (S.encodeLeaf es pageSize).isSome = true →
    (S.encodeLeaf (insertKey k (.overflow len' first') es) pageSize).isSome = true

/-- A value takes the pages it needs, less those used again. -/
theorem wp_makeCell_count (L : S.Lawful H pageSize maxLen keyOk E) (hps : t.pageSize = pageSize)
    (hout : S.maxInline pageSize < v.length) (reuse : List Nat) :
    Wp (S.makeCell H v reuse) t (fun c t' => (∃ len first, c = .overflow len first) ∧
      t'.pageCount = t.pageCount + (chainPagesFor pageSize v.length - reuse.length)) fun _ => True := by
  have hpos : 0 < v.length := Nat.zero_lt_of_lt hout
  have hlen : (S.chunks (usable pageSize) v).length = chainPagesFor pageSize v.length := by
    rw [L.chunks v hpos]
    exact chunksUpTo_length L.usable_pos (le_refl _)
  refine Wp.bind (wp_pageSize ?_)
  rw [hps, if_neg (by omega)]
  refine Wp.bind (Wp.lift ?_ fun _ _ => trivial)
  intro len _
  refine Wp.bind (Wp.bind (wp_pageSize ?_))
  rw [hps]
  refine Wp.bind ((wp_pagesFor_count _ reuse).imp ?_)
  intro pages t₁ hcount₁
  refine Wp.bind ((wp_writeChunks_count _ pages).imp ?_)
  intro _ t₂ hcount₂
  cases pages with
  | nil => exact Wp.throw trivial
  | cons first rest =>
      refine Wp.pure (Wp.pure ⟨⟨len, first, rfl⟩, ?_⟩)
      rw [hcount₂, hcount₁, hlen]

/-- In a leaf: the new chain stands on the pages of the old one, and the leaf still fits. -/
theorem wp_insertLeaf_replace (L : S.Lawful H pageSize maxLen keyOk E) (hfit : S.PointersFit pageSize) {n : Nat}
    {es : List (K × Cell)} {ps : List Nat} (ht : t.Wf H) (hps : t.pageSize = pageSize) (ho : t.Owns ps)
    (hfits : (S.encodeLeaf es pageSize).isSome = true)
    (hes : Entries (S.layout H pageSize maxLen keyOk) (t.view H) es m ps) (hm : Sorted m) (hk : keyOk k)
    (hfind : find k m = some old) (hold : S.maxInline pageSize < old.length) (hout : S.maxInline pageSize < v.length) :
    Wp (S.insertLeaf H n es k v) t (fun r t' => r = .fit ∧
      t'.pageCount = t.pageCount + (chainPagesFor pageSize v.length - chainPagesFor pageSize old.length))
      fun _ => True := by
  -- the cell of the key is a chain, as long as the old value takes
  have hcell : ∃ len first, find k es = some (.overflow len first) ∧ len = old.length := by
    rcases hes.find k with ⟨_, hnone⟩ | ⟨c, v₀, qs, hsome, hv₀, hc, _⟩
    · rw [hfind] at hnone
      cases hnone
    · rw [hfind] at hv₀
      cases hv₀
      cases c with
      | inline value =>
          rcases hc with ⟨_, hin, _⟩
          omega
      | overflow len first => exact ⟨len, first, hsome, hc.1⟩
  rcases hcell with ⟨len, first, hsome, rfl⟩
  rcases hes.focus hm hk with ⟨l, qs, r, rfl, hfocus, _⟩
  have hchain : ∃ v₀, S.CellAt H pageSize maxLen (t.view H) (.overflow old.length first) v₀ qs := by
    rcases hfocus with ⟨hnone, _⟩ | ⟨c, v₀, hc, hat⟩
    · rw [hsome] at hnone
      cases hnone
    · rw [hsome] at hc
      cases hc
      exact ⟨v₀, hat⟩
  rcases hchain with ⟨v₀, hat⟩
  have hcount : qs.length = chainPagesFor pageSize old.length := by
    rcases hat with ⟨hlen, _, _, _, hchain⟩
    rw [hchain.length, hlen]
    exact chunksUpTo_length L.usable_pos (le_refl _)
  have hoqs : t.Owns qs := ho.sublist ((List.sublist_append_right l qs).trans (List.sublist_append_left _ _))
  refine Wp.bind (wp_pageSize ?_)
  rw [hsome, hps]
  refine Wp.bind (((wp_reusable L ht hps hat hoqs).mono (fun _ _ h => h) fun _ _ => trivial).imp ?_)
  rintro pages t₁ ⟨rfl, rfl⟩
  refine Wp.bind ((wp_makeCell_count L hps hout pages).imp ?_)
  rintro c t₁ ⟨⟨len', first', rfl⟩, hcount₁⟩
  have hsize := hfit es k _ _ len' first' (hes.sorted hm) hsome hfits
  rcases Option.isSome_iff_exists.mp hsize with ⟨encoded, hencoded⟩
  dsimp only
  rw [hencoded]
  refine Wp.bind (wp_writePage_count.imp ?_)
  intro _ t₂ hcount₂
  refine Wp.pure ⟨rfl, ?_⟩
  rw [hcount₂, hcount₁, hcount]

/-- The descent changes no inner node. -/
theorem wp_insertRec_replace (L : S.Lawful H pageSize maxLen keyOk E) (hfit : S.PointersFit pageSize) {h n fuel : Nat}
    {lo : WithBot K} {hi : WithTop K} (ht : t.Wf H) (hps : t.pageSize = pageSize) (ho : t.Owns own)
    (htree : S.TreeIn H pageSize maxLen keyOk t h n lo hi m own) (hk : keyOk k) (hlo : lo < k) (hhi : k ≤ hi)
    (hfind : find k m = some old) (hold : S.maxInline pageSize < old.length) (hout : S.maxInline pageSize < v.length) :
    Wp (S.insertRec H fuel n k v) t (fun r t' => r = .fit ∧
      t'.pageCount = t.pageCount + (chainPagesFor pageSize v.length - chainPagesFor pageSize old.length))
      fun _ => True := by
  induction h generalizing n lo hi m own fuel with
  | zero =>
      cases fuel with
      | zero => exact Wp.throw trivial
      | succ fuel =>
          rcases htree with ⟨es, ps, b, hview, hb, hes, hm, _, rfl⟩
          have hops : t.Owns ps := ho.sublist (List.sublist_cons_self _ _)
          refine Wp.bind (Txn.wp_readPage hview ?_)
          refine Wp.bind (Wp.lift ?_ fun _ _ => trivial)
          intro node hnode
          rw [L.decode_leafAt (hops.bounds ht) hb hes hm] at hnode
          cases hnode
          have hfits : (S.encodeLeaf es pageSize).isSome = true := by
            rcases Option.map_eq_some_iff.mp hb with ⟨b', hb', _⟩
            rw [hb']
            rfl
          -- the leaf holds the key, so its entry is replaced in place
          exact wp_insertLeaf_replace L hfit ht hps hops hfits hes hm hk hfind hold hout
  | succ h ih =>
      cases fuel with
      | zero => exact Wp.throw trivial
      | succ fuel =>
          rcases htree with ⟨es, rightmost, ps, b, hview, hb, _, hkids, rfl⟩
          have hops : t.Owns ps := ho.sublist (List.sublist_cons_self _ _)
          refine Wp.bind (Txn.wp_readPage hview ?_)
          refine Wp.bind (Wp.lift ?_ fun _ _ => trivial)
          intro node hnode
          rw [L.decode_innerAt (hops.bounds ht) hb hkids fun _ _ _ _ _ hsub => hsub.root_mem] at hnode
          cases hnode
          -- the descent goes into the one child whose range holds the key
          rcases hkids.focus (fun _ _ _ _ _ hsub => hsub.bounds) hlo hhi with ⟨x, mid, midPages, hx⟩
          have hidx : childIndex es k = x.pre.length := by
            rw [hx.es_eq]
            exact childIndex_append hx.below hx.above
          have hchild : childAt es rightmost x.pre.length = childOf x.post rightmost := by
            rw [hx.es_eq]
            exact childAt_append rightmost
          have homid : t.Owns midPages := by
            rw [hx.pages] at hops
            exact hops.sublist ((List.sublist_append_right _ _).trans (List.sublist_append_left _ _))
          have hmid : find k mid = some old := by
            rw [← hfind, hx.entries]
            exact (find_segment (fun e he => (hx.left_lt e he).ne) fun e he => (hx.right_gt e he).ne').symm
          dsimp only
          rw [hidx, hchild]
          refine Wp.bind ((ih homid hx.child hx.lo_lt hx.le_hi hmid).imp ?_)
          -- the child did not split, so this node is not touched
          rintro r t' ⟨rfl, hcount⟩
          exact Wp.pure ⟨rfl, hcount⟩

/-- An overflowing value that replaces another one takes the pages that the old chain is
short of, and the root stays. -/
theorem wp_upsert_replace (L : S.Lawful H pageSize maxLen keyOk E) (hfit : S.PointersFit pageSize) {root : Nat}
    (ht : t.Wf H) (hps : t.pageSize = pageSize) (ho : t.Owns own)
    (htree : S.RootedIn H pageSize maxLen keyOk t root m own) (hk : keyOk k) (hfind : find k m = some old)
    (hold : S.maxInline pageSize < old.length) (hout : S.maxInline pageSize < v.length) :
    Wp (S.upsert H root k v) t (fun root' t' => root' = root ∧
      t'.pageCount = t.pageCount + (chainPagesFor pageSize v.length - chainPagesFor pageSize old.length))
      fun _ => True := by
  rcases htree with ⟨_, rfl, _⟩ | ⟨hne, h, htree⟩
  · cases hfind
  · unfold upsert
    rw [if_neg hne]
    refine Wp.bind ((wp_insertRec_replace L hfit ht hps ho htree hk (WithBot.bot_lt_coe k) le_top hfind hold
      hout).imp ?_)
    rintro r t' ⟨rfl, hcount⟩
    exact Wp.pure ⟨rfl, hcount⟩

end Replace

end TreeSpec

/-! ## The record tree and the dictionaries -/

open TreeSpec

/-- The chains of a tree have one owner each, and replacing an overflowing value takes
exactly the pages that its chain is short of and changes no other value. `write` is the
operation, `root` and `get` read the tree that it leaves. -/
structure ExactChains {K : Type} [LinearOrder K] (S : TreeSpec K) (H : Xxh3) (m : List (K × Bytes)) (t : Txn)
    (root : Nat) (write : K → Bytes → TxnM Nat) (get : PageSource → Nat → K → Except Error (Option Bytes)) :
    Prop where
  owned : ∃ pages, S.ChainsOwned (t.source H) root m pages
  replace : ∀ k old v root' t', find k m = some old → S.maxInline t.pageSize < old.length →
    S.maxInline t.pageSize < v.length → write k v t = .ok (root', t') →
    t'.pageCount - t.pageCount = chainPagesFor t.pageSize v.length - chainPagesFor t.pageSize old.length ∧
      t.pageCount ≤ t'.pageCount ∧
      get (t'.source H) root' k = .ok (some v) ∧
      ∀ k', k' ≠ k → get (t'.source H) root' k' = get (t.source H) root k'

namespace Btree

variable {H : Xxh3} {t : Txn} {m : List (Key × Bytes)} {own : List Nat}

theorem pointersFit (pageSize : Nat) : spec.PointersFit pageSize := by
  intro es k len first len' first' hsorted hfind hfits
  have hlens : (insertKey k (.overflow len' first') es).map (fun e => encodedLen e.2) =
      es.map fun e => encodedLen e.2 := map_insertKey_same hsorted hfind rfl
  have hlength : (insertKey k (.overflow len' first') es).length = es.length := by
    rw [← List.length_map (f := fun e : Key × Cell => encodedLen e.2), hlens, List.length_map]
  have hcells : cellsLen (insertKey k (.overflow len' first') es) = cellsLen es := by
    unfold cellsLen
    rw [hlens]
  change (encodeLeaf es pageSize).isSome = true at hfits
  change (encodeLeaf (insertKey k (.overflow len' first') es) pageSize).isSome = true
  unfold encodeLeaf at hfits ⊢
  dsimp only at hfits ⊢
  rw [hlength, hcells]
  split at hfits
  · cases hfits
  · rename_i hroom
    rw [if_neg hroom]
    rfl

/-- Insertions that succeed are of values that are not too long. -/
theorem insertAll_lengths {ops : List (Key × Bytes)} {t' : Txn} (h : insertAll H ops t = .ok ((), t')) :
    ∀ op ∈ ops, op.2.length ≤ MAX_RECORD_LEN := by
  induction ops generalizing t with
  | nil =>
      intro op hop
      cases hop
  | cons op ops ih =>
      rcases op with ⟨k, v⟩
      rcases bind_eq_ok.mp h with ⟨⟨⟨⟩, t₁⟩, hinsert, hrest⟩
      intro op hop
      rcases List.mem_cons.mp hop with rfl | hop
      · by_contra hlong
        unfold insert at hinsert
        rw [if_pos (not_le.mp hlong)] at hinsert
        cases hinsert
      · exact ih hrest op hop

/-- An insertion, with the root it leaves. -/
def insertRooted (H : Xxh3) (k : Key) (v : Bytes) : TxnM Nat := do
  insert H k v
  let t ← TxnM.current
  pure t.rootBtreePage

theorem InTxn.exactChains (h : InTxn H t m own) :
    ExactChains spec H m t t.rootBtreePage (insertRooted H) get where
  owned := chains_owned (lawful H h.wf.pageSize_bounds.1 h.wf.pageSize_bounds.2) h.rooted
    h.owns.nodup (fun p hp => ⟨h.owns.pos p hp, h.owns.lt p hp⟩) h.wf.bound
  replace := by
    intro k old v root' t' hfind hold hout hrun
    have L := lawful H h.wf.pageSize_bounds.1 h.wf.pageSize_bounds.2
    rcases bind_eq_ok.mp hrun with ⟨⟨⟨⟩, t₁⟩, hinsert, hroot⟩
    cases hroot
    have hlen : v.length ≤ MAX_RECORD_LEN := by
      by_contra hlong
      unfold insert at hinsert
      rw [if_pos (not_le.mp hlong)] at hinsert
      cases hinsert
    rcases (wp_insert h hlen).ok hinsert with ⟨own', h', _⟩
    have hcount : Wp (insert H k v) t (fun _ t' => t'.pageCount = t.pageCount +
        (chainPagesFor t.pageSize v.length - chainPagesFor t.pageSize old.length)) fun _ => True := by
      unfold insert
      rw [if_neg (not_lt.mpr hlen)]
      refine Wp.bind (Wp.of_ok (a := t) rfl ?_)
      refine Wp.bind ((wp_upsert_replace L (pointersFit t.pageSize) h.wf rfl h.owns h.rooted trivial hfind hold
        hout).imp ?_)
      rintro root t₂ ⟨rfl, hcount⟩
      rw [if_pos rfl]
      exact Wp.pure hcount
    have hpages := hcount.ok hinsert
    refine ⟨by omega, by omega, ?_, ?_⟩
    · exact (h'.tree.get k).trans (by rw [find_insertKey_self])
    · intro k' hne
      exact (h'.tree.get k').trans (by rw [find_insertKey_ne hne, h.tree.get k'])

end Btree

namespace Dict

variable {H : Xxh3} {spec : DictSpec} {t : Txn} {root : Nat} {m : List (Bytes × Bytes)} {own : List Nat}

theorem pointersFit (H : Xxh3) (spec : DictSpec) (pageSize : Nat) : (tree H spec).PointersFit pageSize := by
  intro es k len first len' first' hsorted hfind hfits
  have hprints : (insertKey k (.overflow len' first') es).map footprint = es.map footprint :=
    map_insertKey_same hsorted hfind rfl
  change (encodeLeaf H spec es pageSize).isSome = true at hfits
  change (encodeLeaf H spec (insertKey k (.overflow len' first') es) pageSize).isSome = true
  unfold encodeLeaf at hfits ⊢
  dsimp only at hfits ⊢
  rw [hprints]
  split at hfits
  · cases hfits
  · rename_i hroom
    rw [if_neg hroom]
    rfl

theorem InTxn.exactChains (h : InTxn H spec t root m own) (ht : t.Wf H) :
    ExactChains (tree H spec) H m t root (upsert H spec root) (getBody H spec) where
  owned := chains_owned (lawful H spec ht.pageSize_bounds.1 ht.pageSize_bounds.2 h.keys) h.rooted
    h.owns.nodup (fun p hp => ⟨h.owns.pos p hp, h.owns.lt p hp⟩) ht.bound
  replace := by
    intro k old v root' t' hfind hold hout hrun
    have L := lawful H spec ht.pageSize_bounds.1 ht.pageSize_bounds.2 h.keys
    rcases (wp_upsert h ht k v).ok hrun with ⟨own', h', hmoved⟩
    have hcount : Wp (upsert H spec root k v) t (fun root' t' => root' = root ∧ t'.pageCount = t.pageCount +
        (chainPagesFor t.pageSize v.length - chainPagesFor t.pageSize old.length)) fun _ => True := by
      unfold upsert
      split
      · exact Wp.throw trivial
      · rename_i hkey
        exact wp_upsert_replace L (pointersFit H spec t.pageSize) ht rfl h.owns h.rooted (not_lt.mp hkey) hfind hold
          hout
    rcases hcount.ok hrun with ⟨rfl, hpages⟩
    refine ⟨by omega, by omega, ?_, ?_⟩
    · exact ((h'.holds hmoved.wf).getBody k).trans (by rw [find_insertKey_self])
    · intro k' hne
      exact ((h'.holds hmoved.wf).getBody k').trans (by rw [find_insertKey_ne hne, (h.holds ht).getBody k'])

end Dict

/-- In every state of the record tree and of both dictionaries that insertions make,
inside a transaction or committed. -/
theorem overflow_chains_exact (H : Xxh3) :
    (∀ (c : Committed) (m : List (Key × Bytes)) (ops : List (Key × Bytes)) (t : Txn), Btree.Run H c m →
      Btree.insertAll H ops (Txn.begin c) = .ok ((), t) →
      ExactChains Btree.spec H (extend m ops) t t.rootBtreePage (Btree.insertRooted H) Btree.get) ∧
    ∀ spec, spec = FTS_DICT ∨ spec = GRAPH_DICT →
      ∀ (c : Committed) (root : Nat) (m ops : List (Bytes × Bytes)) (root' : Nat) (t : Txn), Dict.Run H spec c root m →
        Dict.upsertAll H spec root ops (Txn.begin c) = .ok (root', t) →
        ExactChains (Dict.tree H spec) H (extend m ops) t root' (Dict.upsert H spec root') (Dict.getBody H spec) := by
  constructor
  · intro c m ops t hrun ht
    rcases hrun.inStore with ⟨own, hstore⟩
    rcases (Btree.wp_insertAll hstore.begin (Btree.insertAll_lengths ht)).ok ht with ⟨own', h'⟩
    exact h'.exactChains
  · intro spec hspec c root m ops root' t hrun ht
    have hkeys : spec.maxKeyLen < 2 ^ 16 := by
      rcases hspec with rfl | rfl <;> decide
    rcases hrun.inStore hkeys with ⟨hwf, own, hstore⟩
    rcases (Dict.wp_upsertAll ops hstore.begin (Txn.wf_begin hwf)).ok ht with ⟨ht', own', h'⟩
    exact h'.exactChains ht'

/-- A value of 600 bytes on pages of 512 takes two of them, one of 1200 bytes three. -/
theorem overflow_chains_exact_grow :
    ∃ t root t', Btree.insertAll ⟨fun _ => 0, fun _ _ => 0⟩ [(⟨List.replicate 16 7, rfl⟩, List.replicate 600 1)]
        (Txn.begin (Committed.fresh 8 512)) = .ok ((), t) ∧
      Btree.insertRooted ⟨fun _ => 0, fun _ _ => 0⟩ ⟨List.replicate 16 7, rfl⟩ (List.replicate 1200 2) t =
        .ok (root, t') ∧ t'.pageCount - t.pageCount = 1 := by
  have hok : ((Btree.insertAll ⟨fun _ => 0, fun _ _ => 0⟩ [(⟨List.replicate 16 7, rfl⟩, List.replicate 600 1)]
      (Txn.begin (Committed.fresh 8 512))).toOption.any fun r =>
        (Btree.insertRooted ⟨fun _ => 0, fun _ _ => 0⟩ ⟨List.replicate 16 7, rfl⟩ (List.replicate 1200 2)
          r.2).isOk && decide (r.2.pageSize = 512)) = true := by
    decide +kernel
  cases hrun : Btree.insertAll ⟨fun _ => 0, fun _ _ => 0⟩ [(⟨List.replicate 16 7, rfl⟩, List.replicate 600 1)]
      (Txn.begin (Committed.fresh 8 512)) with
  | error e =>
      rw [hrun] at hok
      cases hok
  | ok r =>
      rcases r with ⟨⟨⟩, t⟩
      rw [hrun] at hok
      simp only [Except.toOption, Option.any_some, Bool.and_eq_true, decide_eq_true_eq] at hok
      rcases hok with ⟨hinsert, hsize'⟩
      cases hreplace : Btree.insertRooted ⟨fun _ => 0, fun _ _ => 0⟩ ⟨List.replicate 16 7, rfl⟩
          (List.replicate 1200 2) t with
      | error e =>
          rw [hreplace] at hinsert
          cases hinsert
      | ok r' =>
          rcases r' with ⟨root, t'⟩
          have hinit : Btree.Run ⟨fun _ => 0, fun _ _ => 0⟩ (Committed.fresh 8 512) [] :=
            Btree.Run.init (Committed.wf_fresh _ (by decide) (by decide) (by decide)) rfl
          have hexact := (overflow_chains_exact ⟨fun _ => 0, fun _ _ => 0⟩).1 _ _ _ _ hinit hrun
          have hinline : Btree.spec.maxInline 512 = 101 := by decide
          generalize hold : List.replicate 600 (1 : UInt8) = old at hexact
          generalize hnew : List.replicate 1200 (2 : UInt8) = new at hreplace ⊢
          have holdlen : old.length = 600 := by rw [← hold, List.length_replicate]
          have hnewlen : new.length = 1200 := by rw [← hnew, List.length_replicate]
          have hcount := (hexact.replace _ old new root t' (find_insertKey_self _ _ _)
            (by rw [hsize', hinline, holdlen]; omega) (by rw [hsize', hinline, hnewlen]; omega) hreplace).1
          rw [hsize', holdlen, hnewlen] at hcount
          exact ⟨t, root, t', rfl, hreplace, hcount⟩

end EmbedMind
