import EmbedMind.Index.DictProof

/-!
# The dictionary over whole runs

A caller keeps the root that the last `upsert` returned. A run of transactions, each
a sequence of upserts that all succeed and then commits, leaves the map of the
committed upserts at the root (`Run.inStore`); a transaction with a failed upsert is
dropped and leaves nothing.
-/

namespace EmbedMind

open Lib Lib.Assoc Lib.PagedTree

namespace Dict

variable {H : Xxh3} {spec : DictSpec}

/-- A dictionary in a committed state. -/
structure InStore (H : Xxh3) (spec : DictSpec) (c : Committed) (root : Nat)
    (m : List (Bytes × Bytes)) (own : List Nat) : Prop where
  rooted : Rooted (pageLayout H spec c.header.pageSize) (c.view H) root m own
  owns : c.Owns own
  keys : spec.maxKeyLen < 2 ^ 16

section Store

variable {c : Committed} {t : Txn} {root : Nat} {m : List (Bytes × Bytes)} {own : List Nat}

/-- The dictionary a store reads. -/
theorem InStore.holds (h : InStore H spec c root m own) (hc : c.Wf H) :
    Holds H spec (c.source H) root m own where
  rooted := h.rooted
  nodup := h.owns.nodup
  bound := ⟨c.header.pageCount, hc.header.pageCount, fun p hp => ⟨h.owns.pos p hp, h.owns.lt p hp⟩⟩
  pageSize_ge := (pageSizeIsValid_iff.mp hc.header.pageSize).1
  pageSize_le := (pageSizeIsValid_iff.mp hc.header.pageSize).2.1
  keys := h.keys

/-- A transaction starts on the dictionary of its store. -/
theorem InStore.begin (h : InStore H spec c root m own) : InTxn H spec (Txn.begin c) root m own where
  rooted := h.rooted.frame fun p _ => Txn.view_begin c p
  owns := h.owns.begin
  keys := h.keys

/-- A commit leaves the dictionary of its transaction. -/
theorem InTxn.commit (h : InTxn H spec t root m own) (ht : t.Wf H) :
    InStore H spec t.commit root m own where
  rooted := by
    rw [Txn.commit_pageSize]
    exact h.rooted.frame fun p hp => ht.view_commit (h.owns.pos p hp) (h.owns.lt p hp)
  owns := h.owns.commit
  keys := h.keys

end Store

/-! ## Runs -/

/-- The upserts of one transaction, each at the root the previous one returned. -/
def upsertAll (H : Xxh3) (spec : DictSpec) : Nat → List (Bytes × Bytes) → TxnM Nat
  | root, [] => pure root
  | root, (key, body) :: rest => do
      let root ← upsert H spec root key body
      upsertAll H spec root rest

/-- The upserts of a transaction. -/
theorem wp_upsertAll (ops : List (Bytes × Bytes)) {t : Txn} {root : Nat} {m : List (Bytes × Bytes)}
    {own : List Nat} (h : InTxn H spec t root m own) (ht : t.Wf H) :
    Wp (upsertAll H spec root ops) t (fun root' t' => t'.Wf H ∧
      ∃ own', InTxn H spec t' root' (extend m ops) own') fun _ => True := by
  induction ops generalizing t root m own with
  | nil => exact Wp.pure ⟨ht, own, h⟩
  | cons op ops ih =>
      obtain ⟨key, body⟩ := op
      refine Wp.bind ((wp_upsert h ht key body).imp ?_)
      rintro root' t' ⟨own', h', hmoved⟩
      exact ih h' hmoved.wf

/-- The committed states of a store in which a dictionary starts empty, with its root
and the map of the committed upserts. -/
inductive Run (H : Xxh3) (spec : DictSpec) : Committed → Nat → List (Bytes × Bytes) → Prop where
  | init {c : Committed} (hwf : c.Wf H) : Run H spec c 0 []
  | commit {c : Committed} {root root' : Nat} {m : List (Bytes × Bytes)} {t : Txn}
      (h : Run H spec c root m) (ops : List (Bytes × Bytes))
      (ht : upsertAll H spec root ops (Txn.begin c) = .ok (root', t)) :
      Run H spec t.commit root' (extend m ops)
  | rollback {c : Committed} {root : Nat} {m : List (Bytes × Bytes)} (h : Run H spec c root m)
      (ops : List (Bytes × Bytes)) : Run H spec c root m

/-- Every run leaves a dictionary that holds its map. -/
theorem Run.inStore (hkeys : spec.maxKeyLen < 2 ^ 16) {c : Committed} {root : Nat}
    {m : List (Bytes × Bytes)} (h : Run H spec c root m) :
    c.Wf H ∧ ∃ own, InStore H spec c root m own := by
  induction h with
  | init hwf => exact ⟨hwf, [], rooted_empty, ⟨List.nodup_nil, by simp, by simp⟩, hkeys⟩
  | commit _ ops ht ih =>
      obtain ⟨hwf, own, ih⟩ := ih
      obtain ⟨ht', own', h'⟩ := (wp_upsertAll ops ih.begin (Txn.wf_begin hwf)).ok ht
      exact ⟨ht'.commit, own', h'.commit ht'⟩
  | rollback _ _ ih => exact ih

/-- What a lookup returns, without the page of its errors' context. -/
def getBody (H : Xxh3) (spec : DictSpec) (src : PageSource) (root : Nat) (key : Bytes) :
    Except Error (Option Bytes) :=
  (get H spec src root key).map (Option.map Prod.fst)

/-- Reading a dictionary is looking its map up. -/
theorem Holds.getBody {src : PageSource} {root : Nat} {m : List (Bytes × Bytes)} {own : List Nat}
    (h : Holds H spec src root m own) (key : Bytes) :
    getBody H spec src root key = .ok (find key m) := by
  unfold Dict.getBody
  rcases h.get key with ⟨hget, hfind⟩ | ⟨v, page, hget, hfind⟩
  · rw [hget, hfind]
    rfl
  · rw [hget, hfind]
    rfl

/-- Both dictionaries refine a map. After any run of transactions `get` is lookup in
the map of the committed upserts, and inside a further transaction it shows the
upserts made so far. -/
theorem dict_refines_map (hspec : spec = FTS_DICT ∨ spec = GRAPH_DICT) {c : Committed} {root : Nat}
    {m : List (Bytes × Bytes)} (h : Run H spec c root m) :
    (∀ key, getBody H spec (c.source H) root key = .ok (find key m)) ∧
    ∀ ops root' t, upsertAll H spec root ops (Txn.begin c) = .ok (root', t) →
      ∀ key, getBody H spec (t.source H) root' key = .ok (find key (extend m ops)) := by
  have hkeys : spec.maxKeyLen < 2 ^ 16 := by
    rcases hspec with rfl | rfl <;> decide
  obtain ⟨hwf, own, hstore⟩ := h.inStore hkeys
  constructor
  · exact (hstore.holds hwf).getBody
  · intro ops root' t ht
    obtain ⟨ht', own', h'⟩ := (wp_upsertAll ops hstore.begin (Txn.wf_begin hwf)).ok ht
    exact (h'.holds ht').getBody

/-- Transactions one after the other, each committed, with the root that they leave. -/
def commits (H : Xxh3) (spec : DictSpec) : List (List (Bytes × Bytes)) → Committed × Nat → Except Error (Committed × Nat)
  | [], s => .ok s
  | ops :: txns, s =>
      match upsertAll H spec s.2 ops (Txn.begin s.1) with
      | .error e => .error e
      | .ok (root, t) => commits H spec txns (t.commit, root)

/-- Committed transactions are a run. -/
theorem Run.commits {s s' : Committed × Nat} {m : List (Bytes × Bytes)} {txns : List (List (Bytes × Bytes))}
    (h : Run H spec s.1 s.2 m) (hs : Dict.commits H spec txns s = .ok s') :
    Run H spec s'.1 s'.2 (txns.foldl extend m) := by
  induction txns generalizing s m with
  | nil =>
      cases hs
      exact h
  | cons ops txns ih =>
      unfold Dict.commits at hs
      split at hs
      · cases hs
      · rename_i root t hrun
        exact ih (h.commit ops hrun) hs

/-- The key of an entity whose name is one letter, again and again. -/
def longKey (b : UInt8) : Bytes := 1 :: List.replicate 100 b

/-- Five keys, more than one leaf of 512 bytes holds; then the body of one, empty so far, goes to overflow pages. -/
def splitTxns : List (List (Bytes × Bytes)) :=
  [[97, 98, 99, 100, 101].map fun b => (longKey b, []), [(longKey 98, List.replicate 600 7)]]

/-- What a transaction would do that is dropped in the end. -/
def droppedOps : List (Bytes × Bytes) := [(longKey 98, [8]), (longKey 120, [8])]

/-- The root of a dictionary is an inner node. -/
def hasInnerRoot (H : Xxh3) (spec : DictSpec) (s : Committed × Nat) : Bool :=
  ((s.1.source H).page s.2).toOption.any fun page =>
    match decodeNode spec page s.2 with
    | .ok (.inner _ _) => true
    | _ => false

/-- A leaf splits, a body moves to overflow pages, a transaction is dropped, and the body comes back into its leaf. -/
theorem dict_refines_map_split :
    ∃ s s' : Committed × Nat, commits ⟨fun _ => 0, fun _ _ => 0⟩ GRAPH_DICT splitTxns (Committed.fresh 8 512, 0) = .ok s ∧
      hasInnerRoot ⟨fun _ => 0, fun _ _ => 0⟩ GRAPH_DICT s = true ∧
      (upsertAll ⟨fun _ => 0, fun _ _ => 0⟩ GRAPH_DICT s.2 droppedOps (Txn.begin s.1)).isOk = true ∧
      commits ⟨fun _ => 0, fun _ _ => 0⟩ GRAPH_DICT [[(longKey 98, [])]] s = .ok s' ∧
      getBody ⟨fun _ => 0, fun _ _ => 0⟩ GRAPH_DICT (s.1.source ⟨fun _ => 0, fun _ _ => 0⟩) s.2 (longKey 98) =
        .ok (some (List.replicate 600 7)) ∧
      getBody ⟨fun _ => 0, fun _ _ => 0⟩ GRAPH_DICT (s'.1.source ⟨fun _ => 0, fun _ _ => 0⟩) s'.2 (longKey 98) = .ok (some []) ∧
      getBody ⟨fun _ => 0, fun _ _ => 0⟩ GRAPH_DICT (s'.1.source ⟨fun _ => 0, fun _ _ => 0⟩) s'.2 (longKey 101) =
        .ok (some ([])) ∧
      getBody ⟨fun _ => 0, fun _ _ => 0⟩ GRAPH_DICT (s'.1.source ⟨fun _ => 0, fun _ _ => 0⟩) s'.2 (longKey 120) = .ok none := by
  have hall : ((commits ⟨fun _ => 0, fun _ _ => 0⟩ GRAPH_DICT splitTxns (Committed.fresh 8 512, 0)).toOption.any fun s =>
      hasInnerRoot ⟨fun _ => 0, fun _ _ => 0⟩ GRAPH_DICT s &&
        ((upsertAll ⟨fun _ => 0, fun _ _ => 0⟩ GRAPH_DICT s.2 droppedOps (Txn.begin s.1)).isOk &&
          (commits ⟨fun _ => 0, fun _ _ => 0⟩ GRAPH_DICT [[(longKey 98, [])]] s).isOk)) = true := by decide +kernel
  rcases (Option.any_eq_true _ _).mp hall with ⟨s, hs, hfacts⟩
  rw [Bool.and_eq_true, Bool.and_eq_true] at hfacts
  have hsplit := toOption_eq_some.mp hs
  have hinit : Run ⟨fun _ => 0, fun _ _ => 0⟩ GRAPH_DICT (Committed.fresh 8 512) 0 [] :=
    Run.init (Committed.wf_fresh _ (by decide) (by decide) (by decide))
  have hfirst := Run.commits (s := (Committed.fresh 8 512, 0)) hinit hsplit
  cases hlast : commits ⟨fun _ => 0, fun _ _ => 0⟩ GRAPH_DICT [[(longKey 98, [])]] s with
  | error e =>
      rw [hlast] at hfacts
      cases hfacts.2.2
  | ok s' =>
      have hsecond := (hfirst.rollback droppedOps).commits hlast
      have hget := (dict_refines_map (Or.inr rfl) hsecond).1
      refine ⟨s, s', hsplit, hfacts.1, hfacts.2.1, hlast, ?_, ?_, ?_, ?_⟩
      · rw [(dict_refines_map (Or.inr rfl) hfirst).1 (longKey 98)]
        exact congrArg Except.ok (by decide +kernel)
      · rw [hget (longKey 98)]
        exact congrArg Except.ok (by decide +kernel)
      · rw [hget (longKey 101)]
        exact congrArg Except.ok (by decide +kernel)
      · rw [hget (longKey 120)]
        exact congrArg Except.ok (by decide +kernel)

end Dict

end EmbedMind
