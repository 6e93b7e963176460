import EmbedMind.Storage.BtreeProof

/-!
# The record B-tree over whole runs

`Tree H src root m own`: the record tree at a root holds the map `m` on the pages
`own`. `get` and `scan` read the map (`Tree.get`, `Tree.scan`), `insert` puts one
entry into it (`wp_insert`). A run of transactions, committed or dropped, leaves in
the committed state the map of the committed insertions (`btree_refines_map`).
-/

namespace EmbedMind

open Lib Lib.Assoc Lib.PagedTree

namespace Btree

/-- The layout of the record tree on pages of a size. -/
abbrev pageLayout (H : Xxh3) (pageSize : Nat) : Layout Bytes Key Cell Bytes :=
  spec.layout H pageSize MAX_RECORD_LEN fun _ => True

/-- The record tree a reader sees. -/
structure Tree (H : Xxh3) (src : PageSource) (root : Nat) (m : List (Key × Bytes))
    (own : List Nat) : Prop where
  rooted : Rooted (pageLayout H src.pageSize) src.view root m own
  nodup : own.Nodup
  bound : ∃ b, b < 2 ^ 64 ∧ ∀ p ∈ own, 0 < p ∧ p < b
  pageSize_ge : 512 ≤ src.pageSize
  pageSize_le : src.pageSize ≤ 65536

section Read

variable {H : Xxh3} {src : PageSource} {root : Nat} {m : List (Key × Bytes)} {own : List Nat}

/-- Reading a tree is looking its map up. -/
theorem Tree.get (h : Tree H src root m own) (k : Key) : Btree.get src root k = .ok (find k m) := by
  obtain ⟨b, hlt, hb⟩ := h.bound
  exact get_eq h.pageSize_ge h.pageSize_le h.nodup hb hlt h.rooted k

/-- The cells of a leaf are scanned in order. -/
theorem visitEntries_eq (hlo : 512 ≤ src.pageSize) (hhi : src.pageSize ≤ 65536)
    {es : List (Key × Cell)} {ps : List Nat}
    (h : Entries (pageLayout H src.pageSize) src.view es m ps)
    (hb : ∀ p ∈ ps, 0 < p ∧ p < 2 ^ 64) : visitEntries src es = (m, none) := by
  induction h with
  | nil => rfl
  | cons _ hc _ ih =>
      have hres := resolveCell_eq hlo hhi hc fun p hp => hb p (List.mem_append_left _ hp)
      rw [visitEntries, hres, ih fun p hp => hb p (List.mem_append_right _ hp)]
      rfl

/-- Visiting the children in order gives the entries in order. -/
theorem visit_kids {P : Sub Key Bytes} {f : Nat → List (Key × Bytes) × Option Error}
    {ok : Key → Prop} {lo : WithBot Key} {hi : WithTop Key} {es : List (Key × Nat)} {r : Nat}
    (h : Kids ok P lo hi es r m own)
    (hf : ∀ n lo hi m o, (∀ p ∈ o, p ∈ own) → P n lo hi m o → f n = (m, none)) :
    ((es.map Prod.snd ++ [r]).map f).foldr andThen ([], none) = (m, none) := by
  induction h with
  | last hn => simp [hf _ _ _ _ _ (fun p hp => hp) hn]
  | cons _ _ _ hn _ ih =>
      have hrest := ih fun n lo hi m o ho =>
        hf n lo hi m o fun p hp => List.mem_append_right _ (ho p hp)
      have hhead := hf _ _ _ _ _ (fun p hp => List.mem_append_left _ hp) hn
      rw [List.map_cons, List.cons_append, List.map_cons, List.foldr_cons, hrest, hhead]
      rfl

/-- A subtree is scanned in order. -/
theorem visit_eq (hlo : 512 ≤ src.pageSize) (hhi : src.pageSize ≤ 65536) {h n fuel : Nat}
    {lo : WithBot Key} {hi : WithTop Key}
    (ht : TreeAt (pageLayout H src.pageSize) src.view h n lo hi m own)
    (hb : ∀ p ∈ own, 0 < p ∧ p < 2 ^ 64) (hf : h < fuel) : visit src fuel n = (m, none) := by
  have L := lawful H hlo hhi
  induction h generalizing n lo hi m own fuel with
  | zero =>
      obtain ⟨fuel, rfl⟩ : ∃ f, fuel = f + 1 := ⟨fuel - 1, by omega⟩
      obtain ⟨es, ps, b, hview, hpage, hes, hm, _, rfl⟩ := ht
      have hps : ∀ p ∈ ps, 0 < p ∧ p < 2 ^ 64 := fun p hp => hb p (List.mem_cons_of_mem _ hp)
      have hdec : decodeNode b n = .ok (.leaf es) := L.decode_leafAt hps hpage hes hm
      simp only [visit, PageSource.page_of_view hview, bind, Except.bind, hdec]
      exact visitEntries_eq hlo hhi hes hps
  | succ h ih =>
      obtain ⟨fuel, rfl⟩ : ∃ f, fuel = f + 1 := ⟨fuel - 1, by omega⟩
      obtain ⟨es, r, ps, b, hview, hpage, _, hkids, rfl⟩ := ht
      have hps : ∀ p ∈ ps, 0 < p ∧ p < 2 ^ 64 := fun p hp => hb p (List.mem_cons_of_mem _ hp)
      have hdec : decodeNode b n = .ok (.inner es r) :=
        L.decode_innerAt hps hpage hkids fun _ _ _ _ _ hsub => hsub.root_mem
      simp only [visit, PageSource.page_of_view hview, bind, Except.bind, hdec]
      refine visit_kids hkids ?_
      intro n' lo' hi' m' o ho hsub
      exact ih hsub (fun p hp => hps p (ho p hp)) (by omega)

/-- A scan gives the entries of the map, in order, and no error. -/
theorem Tree.scan (h : Tree H src root m own) : Btree.scan src root = (m, none) := by
  obtain ⟨b, hlt, hb⟩ := h.bound
  unfold Btree.scan
  rcases h.rooted with ⟨rfl, rfl, _⟩ | ⟨hne, d, ht⟩
  · rfl
  · rw [if_neg hne]
    have hheight : d < MAX_DEPTH := ht.height_lt h.nodup (fun p hp => (hb p hp).2) hlt
    exact visit_eq h.pageSize_ge h.pageSize_le ht
      (fun p hp => ⟨(hb p hp).1, lt_trans (hb p hp).2 hlt⟩) hheight

end Read

/-! ## Insertion -/

section Insert

variable {H : Xxh3} {t : Txn} {m : List (Key × Bytes)} {own : List Nat}

/-- The record tree inside a transaction. -/
structure InTxn (H : Xxh3) (t : Txn) (m : List (Key × Bytes)) (own : List Nat) : Prop where
  wf : t.Wf H
  rooted : Rooted (pageLayout H t.pageSize) (t.view H) t.rootBtreePage m own
  owns : t.Owns own

/-- The tree a transaction reads. -/
theorem InTxn.tree (h : InTxn H t m own) : Tree H (t.source H) t.rootBtreePage m own where
  rooted := h.rooted
  nodup := h.owns.nodup
  bound := ⟨t.pageCount, h.wf.bound, fun p hp => ⟨h.owns.pos p hp, h.owns.lt p hp⟩⟩
  pageSize_ge := h.wf.pageSize_bounds.1
  pageSize_le := h.wf.pageSize_bounds.2

theorem wf_setRootBtreePage (ht : t.Wf H) {n : Nat} (hn : n < 2 ^ 64) :
    (t.setRootBtreePage n).Wf H := by
  refine ht.withPending { ht.pending with rootBtree := ?_ }
  intro x hx
  cases hx
  exact hn

/-- What an operation on the record tree does to the rest of the transaction: no
header field but the tree's root moves, and only the tree's pages. -/
structure Step (H : Xxh3) (t t' : Txn) (own own' : List Nat) : Prop where
  wf : t'.Wf H
  base : t'.base = t.base
  pending : ∃ r, t'.pending = { t.pending with rootBtree := r }
  step : Owned.Step (t.view H) (t'.view H) t.pageCount t'.pageCount own own'

/-- One insertion, from a well-formed transaction. -/
theorem wp_insert {k : Key} {v : Bytes} (h : InTxn H t m own) (hv : v.length ≤ MAX_RECORD_LEN) :
    Wp (insert H k v) t (fun _ t' => ∃ own', InTxn H t' (insertKey k v m) own' ∧
      Step H t t' own own') (fun e => e = Txn.pageCountOverflow) := by
  unfold insert
  rw [if_neg (not_lt.mpr hv)]
  refine Wp.bind (Wp.of_ok (a := t) rfl ?_)
  have L := lawful H h.wf.pageSize_bounds.1 h.wf.pageSize_bounds.2
  refine Wp.bind ((TreeSpec.wp_upsert L h.wf rfl h.owns h.rooted trivial (Or.inl hv)).imp ?_)
  rintro root t₁ ⟨own', htree, hmoved⟩
  have howns := hmoved.owns h.wf h.owns
  have hsize : t₁.pageSize = t.pageSize := hmoved.pageSize
  split
  · rename_i hsame
    refine Wp.pure ⟨own', ⟨hmoved.wf, ?_, howns⟩, hmoved.wf, hmoved.base,
      ⟨t.pending.rootBtree, hmoved.pending⟩, hmoved.step⟩
    have hroot : t₁.rootBtreePage = root := by
      rw [hsame, Txn.rootBtreePage, Txn.rootBtreePage, hmoved.pending, hmoved.base]
    rw [hroot, hsize]
    exact htree
  · -- the root moved to a page of the tree
    have hlt : root < 2 ^ 64 := by
      rcases htree with ⟨_, hnil, _⟩ | ⟨_, d, ht⟩
      · have hmem := find_insertKey_self k v m
        rw [hnil] at hmem
        cases hmem
      · exact lt_trans (howns.lt root ht.root_mem) hmoved.wf.bound
    refine Wp.of_ok (a := ()) rfl ⟨own', ⟨wf_setRootBtreePage hmoved.wf hlt, ?_, ?_⟩, ?_⟩
    · have hsize' : (t₁.setRootBtreePage root).pageSize = t.pageSize := hsize
      rw [hsize']
      exact htree
    · exact ⟨howns.nodup, howns.pos, howns.lt⟩
    · refine ⟨wf_setRootBtreePage hmoved.wf hlt, hmoved.base, ⟨some root, ?_⟩, hmoved.step⟩
      rw [← hmoved.pending]
      rfl

/-- The insertions of one transaction. -/
def insertAll (H : Xxh3) : List (Key × Bytes) → TxnM Unit
  | [] => pure ()
  | (k, v) :: rest => do
      insert H k v
      insertAll H rest

/-- The insertions of a transaction. -/
theorem wp_insertAll {ops : List (Key × Bytes)} (h : InTxn H t m own)
    (hops : ∀ op ∈ ops, op.2.length ≤ MAX_RECORD_LEN) :
    Wp (insertAll H ops) t (fun _ t' => ∃ own', InTxn H t' (extend m ops) own')
      (fun e => e = Txn.pageCountOverflow) := by
  induction ops generalizing t m own with
  | nil => exact Wp.pure ⟨own, h⟩
  | cons op ops ih =>
      obtain ⟨k, v⟩ := op
      refine Wp.bind ((wp_insert h (hops (k, v) List.mem_cons_self)).imp ?_)
      rintro _ t' ⟨own', h', _⟩
      exact ih h' fun op hop => hops op (List.mem_cons_of_mem _ hop)

end Insert

/-! ## Runs -/

section Runs

variable {H : Xxh3} {c : Committed} {m : List (Key × Bytes)} {own : List Nat}

/-- The record tree of a committed state. -/
structure InStore (H : Xxh3) (c : Committed) (m : List (Key × Bytes)) (own : List Nat) : Prop where
  wf : c.Wf H
  rooted : Rooted (pageLayout H c.header.pageSize) (c.view H) c.header.rootBtreePage m own
  nodup : own.Nodup
  pages : ∀ p ∈ own, 0 < p ∧ p < c.header.pageCount

/-- The tree a store reads. -/
theorem InStore.tree (h : InStore H c m own) : Tree H (c.source H) c.header.rootBtreePage m own where
  rooted := h.rooted
  nodup := h.nodup
  bound := ⟨c.header.pageCount, h.wf.header.pageCount, h.pages⟩
  pageSize_ge := (pageSizeIsValid_iff.mp h.wf.header.pageSize).1
  pageSize_le := (pageSizeIsValid_iff.mp h.wf.header.pageSize).2.1

/-- A transaction starts on the tree of its store. -/
theorem InStore.begin (h : InStore H c m own) : InTxn H (Txn.begin c) m own where
  wf := Txn.wf_begin h.wf
  rooted := h.rooted.frame fun p _ => Txn.view_begin c p
  owns := ⟨h.nodup, fun p hp => (h.pages p hp).1, fun p hp => (h.pages p hp).2⟩

/-- A commit leaves the tree of its transaction. -/
theorem InTxn.commit {t : Txn} (h : InTxn H t m own) : InStore H t.commit m own where
  wf := h.wf.commit
  rooted := by
    rw [Txn.commit_pageSize, Txn.commit_rootBtreePage]
    exact h.rooted.frame fun p hp => h.wf.view_commit (h.owns.pos p hp) (h.owns.lt p hp)
  nodup := h.owns.nodup
  pages := by
    intro p hp
    rw [Txn.commit_pageCount]
    exact ⟨h.owns.pos p hp, h.owns.lt p hp⟩

/-- The committed states of a store whose record tree starts empty, with the map
that the committed insertions make. -/
inductive Run (H : Xxh3) : Committed → List (Key × Bytes) → Prop where
  | init {c : Committed} (hwf : c.Wf H) (hroot : c.header.rootBtreePage = 0) : Run H c []
  | commit {c : Committed} {m : List (Key × Bytes)} {t : Txn} (h : Run H c m)
      (ops : List (Key × Bytes)) (hops : ∀ op ∈ ops, op.2.length ≤ MAX_RECORD_LEN)
      (ht : insertAll H ops (Txn.begin c) = .ok ((), t)) : Run H t.commit (extend m ops)
  | rollback {c : Committed} {m : List (Key × Bytes)} (h : Run H c m) (ops : List (Key × Bytes))
      (hops : ∀ op ∈ ops, op.2.length ≤ MAX_RECORD_LEN) : Run H c m

/-- Every run leaves a tree that holds its map. -/
theorem Run.inStore (h : Run H c m) : ∃ own, InStore H c m own := by
  induction h with
  | init hwf hroot =>
      refine ⟨[], hwf, ?_, List.nodup_nil, by simp⟩
      rw [hroot]
      exact rooted_empty
  | commit _ ops hops ht ih =>
      obtain ⟨own, ih⟩ := ih
      obtain ⟨own', h'⟩ := (wp_insertAll ih.begin hops).ok ht
      exact ⟨own', h'.commit⟩
  | rollback _ _ _ ih => exact ih

/-- The record tree refines an ordered map. After any run: the map is sorted, `get`
is lookup in it and the scan yields it; and a further transaction inserts without an
internal or a malformed-page error, showing its own insertions. -/
theorem btree_refines_map (h : Run H c m) :
    Sorted m ∧
    (∀ k, get (c.source H) c.header.rootBtreePage k = .ok (find k m)) ∧
    Yields (c.source H) c.header.rootBtreePage (m, none) ∧
    ∀ ops : List (Key × Bytes), (∀ op ∈ ops, op.2.length ≤ MAX_RECORD_LEN) →
      match insertAll H ops (Txn.begin c) with
      | .error e => e = .invalidArgument "page count overflow"
      | .ok (_, t) =>
          (∀ k, get (t.source H) t.rootBtreePage k = .ok (find k (extend m ops))) ∧
          Yields (t.source H) t.rootBtreePage (extend m ops, none) := by
  obtain ⟨own, hstore⟩ := h.inStore
  refine ⟨hstore.rooted.sorted, hstore.tree.get, ?_, ?_⟩
  · rw [← hstore.tree.scan]
    exact yields_scan _ _
  · intro ops hops
    have hwp := wp_insertAll hstore.begin hops
    cases hrun : insertAll H ops (Txn.begin c) with
    | error e => exact hwp.error hrun
    | ok r =>
        obtain ⟨own', h'⟩ := hwp.ok hrun
        refine ⟨h'.tree.get, ?_⟩
        rw [← h'.tree.scan]
        exact yields_scan _ _

/-- Transactions one after the other, each committed. -/
def commits (H : Xxh3) : List (List (Key × Bytes)) → Committed → Except Error Committed
  | [], c => .ok c
  | ops :: txns, c =>
      match insertAll H ops (Txn.begin c) with
      | .error e => .error e
      | .ok (_, t) => commits H txns t.commit

/-- Committed transactions are a run. -/
theorem Run.commits {c' : Committed} {txns : List (List (Key × Bytes))} (h : Run H c m)
    (hops : ∀ ops ∈ txns, ∀ op ∈ ops, op.2.length ≤ MAX_RECORD_LEN) (hc : Btree.commits H txns c = .ok c') :
    Run H c' (txns.foldl extend m) := by
  induction txns generalizing c m with
  | nil =>
      cases hc
      exact h
  | cons ops txns ih =>
      unfold Btree.commits at hc
      split at hc
      · cases hc
      · rename_i t hrun
        exact ih (h.commit ops (hops ops List.mem_cons_self) hrun) (fun o ho => hops o (List.mem_cons_of_mem _ ho)) hc

def lastByteKey (b : UInt8) : Key := ⟨List.replicate 15 0 ++ [b], rfl⟩

/-- Five values, more than one leaf of 512 bytes holds; then one of them goes to overflow pages. -/
def splitTxns : List (List (Key × Bytes)) :=
  [[1, 2, 3, 4, 5].map fun b => (lastByteKey b, List.replicate 100 b), [(lastByteKey 2, List.replicate 600 7)]]

/-- What a transaction would do that is dropped in the end. -/
def droppedOps : List (Key × Bytes) := [(lastByteKey 2, [8]), (lastByteKey 9, [8])]

/-- The root of the record tree is an inner node. -/
def hasInnerRoot (H : Xxh3) (c : Committed) : Bool :=
  ((c.source H).page c.header.rootBtreePage).toOption.any fun page =>
    match decodeNode page c.header.rootBtreePage with
    | .ok (.inner _ _) => true
    | _ => false

/-- A leaf splits, a value moves to overflow pages, a transaction is dropped, and the value comes back into its leaf. -/
theorem btree_refines_map_split :
    ∃ c c' : Committed, commits ⟨fun _ => 0, fun _ _ => 0⟩ splitTxns (Committed.fresh 8 512) = .ok c ∧
      hasInnerRoot ⟨fun _ => 0, fun _ _ => 0⟩ c = true ∧
      (insertAll ⟨fun _ => 0, fun _ _ => 0⟩ droppedOps (Txn.begin c)).isOk = true ∧
      commits ⟨fun _ => 0, fun _ _ => 0⟩ [[(lastByteKey 2, [9])]] c = .ok c' ∧
      get (c.source ⟨fun _ => 0, fun _ _ => 0⟩) c.header.rootBtreePage (lastByteKey 2) = .ok (some (List.replicate 600 7)) ∧
      get (c'.source ⟨fun _ => 0, fun _ _ => 0⟩) c'.header.rootBtreePage (lastByteKey 2) = .ok (some [9]) ∧
      get (c'.source ⟨fun _ => 0, fun _ _ => 0⟩) c'.header.rootBtreePage (lastByteKey 5) = .ok (some (List.replicate 100 5)) ∧
      get (c'.source ⟨fun _ => 0, fun _ _ => 0⟩) c'.header.rootBtreePage (lastByteKey 9) = .ok none := by
  have hall : ((commits ⟨fun _ => 0, fun _ _ => 0⟩ splitTxns (Committed.fresh 8 512)).toOption.any fun c =>
      hasInnerRoot ⟨fun _ => 0, fun _ _ => 0⟩ c &&
        ((insertAll ⟨fun _ => 0, fun _ _ => 0⟩ droppedOps (Txn.begin c)).isOk &&
          (commits ⟨fun _ => 0, fun _ _ => 0⟩ [[(lastByteKey 2, [9])]] c).isOk)) = true := by decide +kernel
  rcases (Option.any_eq_true _ _).mp hall with ⟨c, hc, hfacts⟩
  rw [Bool.and_eq_true, Bool.and_eq_true] at hfacts
  have hsplit := toOption_eq_some.mp hc
  have hinit : Run ⟨fun _ => 0, fun _ _ => 0⟩ (Committed.fresh 8 512) [] :=
    Run.init (Committed.wf_fresh _ (by decide) (by decide) (by decide)) rfl
  have hfirst := hinit.commits (by decide +kernel) hsplit
  cases hlast : commits ⟨fun _ => 0, fun _ _ => 0⟩ [[(lastByteKey 2, [9])]] c with
  | error e =>
      rw [hlast] at hfacts
      cases hfacts.2.2
  | ok c' =>
      have hsecond := (hfirst.rollback droppedOps (by decide +kernel)).commits (by decide +kernel) hlast
      have hget := (btree_refines_map hsecond).2.1
      exact ⟨c, c', hsplit, hfacts.1, hfacts.2.1, hlast, (btree_refines_map hfirst).2.1 _, hget _, hget _, hget _⟩

end Runs

end Btree

end EmbedMind
