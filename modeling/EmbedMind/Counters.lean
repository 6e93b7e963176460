import EmbedMind.Index.HnswCodecs
import EmbedMind.Index.HnswInsert
import EmbedMind.Index.HnswSearch
import EmbedMind.Storage.FailStop
import EmbedMind.Storage.WalPrefix
import EmbedMind.Store

/-!
# Counters of a file

The transaction counter, the page count and the node count come from the file, and any
64-bit value of them is accepted. What commit, page allocation, insertion into the vector
index and `stats` make of them: only the page count is checked before it is raised.
-/

namespace EmbedMind

open Lib Lib.Assoc

/-! ## Operations of a transaction stay on its base -/

/-- Every run of `p` on a transaction over `base` that succeeds ends on one over `base`. -/
def OnBase {α : Type} (base : Committed) (p : TxnM α) : Prop :=
  ∀ t : Txn, t.base = base → Wp p t (fun _ t' => t'.base = base) (fun _ => True)

namespace OnBase

variable {α β : Type} {base : Committed} {H : Xxh3}

theorem pure (a : α) : OnBase base (pure a : TxnM α) := by
  intro t ht
  exact Wp.pure ht

/-- A sequence keeps the base when its parts do. -/
theorem bind {p : TxnM α} {f : α → TxnM β} (hp : OnBase base p) (hf : ∀ a, OnBase base (f a)) :
    OnBase base (p >>= f) := by
  intro t ht
  refine Wp.bind ((hp t ht).imp ?_)
  intro a t' ht'
  exact hf a t' ht'

theorem ite {c : Prop} [Decidable c] {p q : TxnM α} (hp : OnBase base p) (hq : OnBase base q) :
    OnBase base (if c then p else q) := by
  split
  · exact hp
  · exact hq

theorem lift (x : Except Error α) : OnBase base (liftM x : TxnM α) := by
  intro t ht
  exact Wp.lift (fun _ _ => ht) (fun _ _ => trivial)

/-- Reading through the transaction keeps the base. -/
theorem reading (f : PageSource → Except Error α) : OnBase base (TxnM.reading H f) := by
  intro t ht
  refine Wp.of_results ?_
  intro a t' hrun
  unfold TxnM.reading at hrun
  cases hf : f (t.source H) with
  | error e =>
      rw [hf] at hrun
      cases hrun
  | ok b =>
      rw [hf] at hrun
      cases hrun
      exact ht

theorem current : OnBase base TxnM.current := by
  intro t ht
  exact Wp.of_ok rfl ht

/-- Allocating keeps the base. -/
theorem allocatePage : OnBase base (TxnM.allocatePage H) := by
  intro t ht
  refine Wp.of_results ?_
  intro n t' hrun
  unfold TxnM.allocatePage Txn.allocatePage at hrun
  split at hrun
  · cases hrun
    exact ht
  · cases hrun

/-- Writing keeps the base. -/
theorem writePage (n : Nat) (data : Bytes) : OnBase base (TxnM.writePage H n data) := by
  intro t ht
  refine Wp.of_results ?_
  intro u t' hrun
  unfold TxnM.writePage Txn.writePage at hrun
  split at hrun
  · cases hrun
  split at hrun
  · cases hrun
  split at hrun
  · cases hrun
  · cases hrun
    exact ht

/-- So does a loop. -/
theorem foldlM (l : List α) {f : β → α → TxnM β} (h : ∀ b a, OnBase base (f b a)) (b : β) :
    OnBase base (l.foldlM f b) := by
  induction l generalizing b with
  | nil => exact pure b
  | cons a l ih =>
      rw [List.foldlM_cons]
      exact bind (h b a) ih

end OnBase

namespace Hnsw

section Base

variable {H : Xxh3} {F : Floats} {dims : Nat} {base : Committed}

/-- Writing a node keeps the base. -/
theorem onBase_writeNodeAt (pageNo : Nat) (node : HnswNode) (ctx : Ctx) :
    OnBase base (writeNodeAt H pageNo node ctx) := by
  unfold writeNodeAt
  refine OnBase.current.bind ?_
  intro txn
  refine (OnBase.lift _).bind ?_
  intro page
  exact (OnBase.writePage _ _).bind fun _ => OnBase.pure _

/-- Storing a vector keeps the base. -/
theorem onBase_storeVector (vector : List F32) : OnBase base (storeVector H dims vector) := by
  unfold storeVector
  refine OnBase.allocatePage.bind ?_
  intro pageNo
  refine OnBase.current.bind ?_
  intro txn
  refine (OnBase.lift _).bind ?_
  intro pushed
  refine (OnBase.lift _).bind ?_
  intro placed
  exact (OnBase.writePage _ _).bind fun _ => OnBase.pure _

/-- Connecting a neighbour keeps the base. -/
theorem onBase_connectWith (grow : List (List Nat) → Nat → List (List Nat)) (m newPage layer : Nat) (ctx : Ctx)
    (nodePage : Nat) : OnBase base (connectWith H F dims grow m newPage layer ctx nodePage) := by
  unfold connectWith
  refine (OnBase.reading _).bind ?_
  intro loaded
  refine OnBase.ite (OnBase.pure _) ?_
  refine (OnBase.reading _).bind ?_
  intro kept
  exact onBase_writeNodeAt _ _ _

/-- Linking a layer keeps the base. -/
theorem onBase_linkLayerWith (grow : List (List Nat) → Nat → List (List Nat)) (stats : HnswMeta)
    (vector : List F32) (newPage : Nat) (s : Linking) (layer : Nat) :
    OnBase base (linkLayerWith H F dims grow stats vector newPage s layer) := by
  unfold linkLayerWith
  refine (OnBase.reading _).bind ?_
  intro found
  refine (OnBase.reading _).bind ?_
  intro selected
  refine (OnBase.foldlM _ (fun ctx p => onBase_connectWith grow _ _ _ ctx p) _).bind ?_
  intro ctx
  exact OnBase.pure _

/-! ## The node count of the index -/

/-- A transaction shows a meta page with these parameters. -/
def Shows (H : Xxh3) (t : Txn) (stats : HnswMeta) : Prop :=
  loadMeta (t.source H) t.hnswMetaPage = .ok (some stats)

/-- The numbers of the parameters, within their widths. -/
structure Widths (stats : HnswMeta) : Prop where
  m : stats.m < 2 ^ 16
  efConstruction : stats.efConstruction < 2 ^ 16
  maxLayer : stats.maxLayer < 2 ^ 8
  entryPointPage : stats.entryPointPage < 2 ^ 64

/-- What is read of a meta page that was written: the node count is stored in 64 bits. -/
theorem meta_read_back {stats : HnswMeta} (hw : Widths stats) {pageSize : Nat} (hlo : 512 ≤ pageSize)
    {page : Bytes} (h : stats.encode H pageSize = .ok page) (pageNo : Nat) :
    HnswMeta.decode (stampPageChecksum H page) pageNo =
      .ok { stats with nodeCount := stats.nodeCount % 2 ^ 64 } := by
  have hbody : { stats with nodeCount := stats.nodeCount % 2 ^ 64 }.body = stats.body := by
    have hbytes : leBytes 8 (stats.nodeCount % 2 ^ 64) = leBytes 8 stats.nodeCount := by
      refine leNat_inj (by simp) ?_
      rw [leNat_leBytes, leNat_leBytes]
      exact Nat.mod_mod _ _
    simp only [HnswMeta.body, hbytes]
  unfold HnswMeta.encode at h
  split at h
  · cases h
  rename_i hm
  split at h
  · cases h
  rename_i hentry
  cases h
  have hwf : HnswMeta.Wf { stats with nodeCount := stats.nodeCount % 2 ^ 64 } := by
    refine ⟨⟨Nat.pos_of_ne_zero hm, hw.m⟩, hw.efConstruction, hw.maxLayer, hw.entryPointPage,
      Nat.mod_lt _ (by norm_num), ?_⟩
    intro hpos hzero
    have hcount : 0 < stats.nodeCount := by
      by_contra hnot
      have hzero' : stats.nodeCount = 0 := by omega
      simp [hzero'] at hpos
    exact hentry ⟨hcount, hzero⟩
  rw [stamp_typedPage, ← hbody]
  exact (meta_round_trip (H := H) pageNo hwf hlo).2

/-- The meta page, read and decoded. -/
theorem shows_of_read {t : Txn} {stats : HnswMeta} (pageNo : Nat) {page : Bytes} (hroot : t.hnswMetaPage = pageNo)
    (hne : pageNo ≠ 0) (hread : t.readPage H pageNo = .ok page) (hdec : HnswMeta.decode page pageNo = .ok stats) :
    Shows H t stats := by
  unfold Shows loadMeta
  rw [hroot, if_neg hne]
  show (do
    let page ← t.readPage H pageNo
    let stats ← HnswMeta.decode page pageNo
    .ok (some stats)) = _
  rw [hread, ok_bind, hdec, ok_bind]

/-- A saved meta page is read back, its node count as a `u64`. -/
theorem wp_saveMeta_shows {t : Txn} {stats : HnswMeta} (hlo : 512 ≤ t.pageSize) (hw : Widths stats) :
    Wp (saveMeta H stats) t (fun _ t' => Shows H t' { stats with nodeCount := stats.nodeCount % 2 ^ 64 })
      (fun _ => True) := by
  unfold saveMeta
  refine Wp.bind (Txn.wp_current ?_)
  have hroot : OnBase t.base (TxnM.pageOrFresh H t.hnswMetaPage) :=
    OnBase.ite OnBase.allocatePage (OnBase.pure _)
  refine Wp.bind ((hroot t rfl).imp ?_)
  intro pageNo t₁ hbase₁
  refine Wp.bind (Wp.lift ?_ fun _ _ => trivial)
  intro page hpage
  refine Wp.bind (Wp.of_results ?_)
  intro u t₂ hwrite
  unfold TxnM.writePage Txn.writePage at hwrite
  split at hwrite
  · cases hwrite
  split at hwrite
  · cases hwrite
  rename_i hne
  split at hwrite
  · cases hwrite
  cases hwrite
  refine Wp.of_ok rfl ?_
  -- the page of the parameters is the one just written
  refine shows_of_read pageNo rfl hne ?_ (meta_read_back hw hlo hpage pageNo)
  unfold Txn.readPage
  simp [Txn.setHnswMetaPage]

/-- The number of an allocated page is a 64-bit number. -/
theorem wp_allocNodePage_lt (node : HnswNode) (t : Txn) :
    Wp (allocNodePage H node) t (fun n t' => t'.base = t.base ∧ n < 2 ^ 64) (fun _ => True) := by
  unfold allocNodePage
  refine Wp.bind (Wp.of_results ?_)
  intro pageNo t₁ halloc
  have hbase : t₁.base = t.base := by
    have hkeep := (OnBase.allocatePage (H := H) t rfl).ok halloc
    exact hkeep
  have hlt : pageNo < 2 ^ 64 := by
    unfold TxnM.allocatePage Txn.allocatePage at halloc
    split at halloc
    · cases halloc
      omega
    · cases halloc
  refine Wp.bind (Txn.wp_current ?_)
  refine Wp.bind (Wp.lift ?_ fun _ _ => trivial)
  intro page _
  refine Wp.bind ((OnBase.writePage pageNo page t₁ hbase).imp ?_)
  intro u t₂ hbase₂
  exact Wp.pure ⟨hbase₂, hlt⟩

/-- The parameters an insertion starts from. -/
def Starts (H : Xxh3) (t : Txn) (stats : HnswMeta) : Prop :=
  ∃ loaded, loadMeta (t.source H) t.hnswMetaPage = .ok loaded ∧ stats = loaded.getD HnswMeta.new

/-- An index starts in one way. -/
theorem Starts.unique {t : Txn} {stats stats' : HnswMeta} (h : Starts H t stats) (h' : Starts H t stats') :
    stats = stats' := by
  rcases h with ⟨loaded, hload, hstats⟩
  rcases h' with ⟨loaded', hload', hstats'⟩
  rw [hload] at hload'
  cases hload'
  rw [hstats, hstats']

/-- What an index starts with is well formed. -/
theorem Starts.wf {t : Txn} {stats : HnswMeta} (h : Starts H t stats) : stats.Wf := by
  rcases h with ⟨loaded, hload, hstats⟩
  subst hstats
  cases loaded with
  | none => exact HnswMeta.wf_new
  | some stats =>
      unfold loadMeta at hload
      split at hload
      · cases hload
      rcases bind_eq_ok.mp hload with ⟨page, _, hload⟩
      rcases bind_eq_ok.mp hload with ⟨stats', hdec, hload⟩
      cases hload
      have hends := meta_decode_ends page t.hnswMetaPage
      rw [hdec] at hends
      exact hends.of_ok

/-- An insertion that succeeds stores the node count plus one, in 64 bits. -/
theorem wp_insert_count {t : Txn} (hlo : 512 ≤ t.pageSize) (recordId : Ulid) (vector : List F32) :
    Wp (insert H F dims recordId vector) t
      (fun _ t' => ∃ stats stats', Starts H t stats ∧ Shows H t' stats' ∧
        stats'.nodeCount = (stats.nodeCount + 1) % 2 ^ 64)
      (fun _ => True) := by
  unfold insert insertWith
  split
  · exact Wp.throw trivial
  refine Wp.bind (Txn.wp_current ?_)
  refine Wp.bind (Wp.of_results ?_)
  intro loaded t₁ hload
  -- reading the meta page changes nothing
  have hloaded : loadMeta (t.source H) t.hnswMetaPage = .ok loaded ∧ t₁ = t := by
    unfold TxnM.reading at hload
    dsimp only at hload
    cases hl : loadMeta (t.source H) t.hnswMetaPage with
    | error e =>
        rw [hl] at hload
        cases hload
    | ok l =>
        rw [hl] at hload
        cases hload
        exact ⟨rfl, rfl⟩
  rcases hloaded with ⟨hl, ht₁⟩
  subst ht₁
  have hstarts : Starts H t₁ (loaded.getD HnswMeta.new) := ⟨loaded, hl, rfl⟩
  generalize loaded.getD HnswMeta.new = stats at hstarts ⊢
  have hwf := hstarts.wf
  -- the counter is written with the meta page, whatever the steps before it do
  refine Wp.bind (Wp.lift ?_ fun _ _ => trivial)
  intro levelCap _
  refine Wp.bind ((onBase_storeVector vector t₁ rfl).imp ?_)
  intro vecRef t₂ hbase₂
  have hsize : ∀ t' : Txn, t'.base = t₁.base → 512 ≤ t'.pageSize := by
    intro t' ht'
    unfold Txn.pageSize at hlo ⊢
    rwa [ht']
  have hshort : ∀ n : Nat, n % 2 ^ 8 < 2 ^ 8 := fun n => Nat.mod_lt _ (by norm_num)
  refine Wp.bind ?_
  split
  · rename_i hzero
    -- the first node sets the counter to one
    unfold insertFirst
    refine Wp.bind ((wp_allocNodePage_lt _ t₂).imp ?_)
    intro nodePage t₃ hnode
    rcases hnode with ⟨hbase₃, hlt⟩
    have hwidths : Widths { stats with
        entryPointPage := nodePage
        maxLayer := min (randomLevel F stats.nodeCount stats.m) levelCap % 2 ^ 8
        nodeCount := 1 } := ⟨hwf.m.2, hwf.efConstruction, hshort _, hlt⟩
    refine (wp_saveMeta_shows (hsize t₃ (hbase₃.trans hbase₂)) hwidths).imp ?_
    intro u t₄ hshows
    exact Wp.pure ⟨stats, _, hstarts, hshows, by simp [hzero]⟩
  · unfold insertNextWith
    -- every further node adds one to it
    have hdescend : OnBase t₁.base (within H {} fun src => descend F src dims vector stats
        (min (randomLevel F stats.nodeCount stats.m) levelCap)) := OnBase.reading _
    refine Wp.bind ((hdescend t₂ hbase₂).imp ?_)
    intro entered t₃ hbase₃
    refine Wp.bind ((wp_allocNodePage_lt _ t₃).imp ?_)
    intro newPage t₄ hnode
    rcases hnode with ⟨hbase₄, hlt⟩
    have hlink : ∀ s layers, OnBase t₁.base
        (List.foldlM (linkLayerWith H F dims resizeLayers stats vector newPage) s layers) :=
      fun s layers => OnBase.foldlM layers (onBase_linkLayerWith resizeLayers stats vector newPage) s
    refine Wp.bind ((hlink _ _ t₄ (hbase₄.trans hbase₃)).imp ?_)
    intro s t₅ hbase₅
    refine Wp.bind ((onBase_writeNodeAt newPage _ s.ctx t₅ hbase₅).imp ?_)
    intro ctx t₆ hbase₆
    -- the meta page has room for each field but the counter, which wraps
    have hwidths : Widths { stats with
        maxLayer := if stats.maxLayer < min (randomLevel F stats.nodeCount stats.m) levelCap
          then min (randomLevel F stats.nodeCount stats.m) levelCap % 2 ^ 8 else stats.maxLayer
        entryPointPage := if stats.maxLayer < min (randomLevel F stats.nodeCount stats.m) levelCap
          then newPage else stats.entryPointPage
        nodeCount := stats.nodeCount + 1 } := by
      refine ⟨hwf.m.2, hwf.efConstruction, ?_, ?_⟩
      · dsimp only
        split
        · exact hshort _
        · exact hwf.maxLayer
      · dsimp only
        split
        · exact hlt
        · exact hwf.entryPointPage
    refine (wp_saveMeta_shows (hsize t₆ hbase₆) hwidths).imp ?_
    intro u t₇ hshows
    exact Wp.pure ⟨stats, _, hstarts, hshows, rfl⟩

end Base

end Hnsw

/-! ## Transaction ids -/

section Ids

variable {R : Runtime} {p : Pager}

/-- A checkpoint keeps the header. -/
theorem checkpoint_header : (p.checkpoint R).Ends fun r => r.1.header = p.header := by
  have hinner : (p.checkpointInner R).run.Ends fun r => ∀ p', r = .ok p' → p'.header = p.header := by
    unfold Pager.checkpointInner
    refine Prog.ends_bindExcept fun _ => Prog.ends_bindExcept fun _ => Prog.ends_bindExcept fun _ => ?_
    intro p' hp'
    cases hp'
    rfl
  unfold Pager.checkpoint
  split
  · rfl
  · split
    · rfl
    · refine hinner.bind ?_
      intro r hr
      cases r with
      | ok p' => exact hr p' rfl
      | error e => rfl

/-- Nothing to commit: no dirty page, no page more, no pending header field. -/
def Pager.Idle (p : Pager) (dirty : List (Nat × Bytes)) (count : Nat) (pending : PendingHeader) : Prop :=
  (dirty.isEmpty && count == p.header.pageCount && pending.isEmpty) = true

/-- A commit that is acknowledged returns the counter of its header, the next number in 64 bits. -/
theorem commitTxn_id {salt : UInt64} {dirty : List (Nat × Bytes)} {count : Nat} {pending : PendingHeader}
    (hwork : ¬ p.Idle dirty count pending) :
    (p.commitTxn R salt dirty count pending).Ends fun r => ∀ id, r.2 = .ok id →
      id = (p.header.txnCounter + 1) % 2 ^ 64 ∧ r.1.header.txnCounter = id := by
  -- a broken pager and a header that does not encode return an error
  by_cases hbroken : p.broken = true
  · unfold Pager.commitTxn
    rw [if_pos hbroken]
    intro id hid
    cases hid
  have husable : p.broken = false := by simpa using hbroken
  have hne : (dirty.isEmpty && count == p.header.pageCount && pending.isEmpty) = false := by
    simpa [Pager.Idle] using hwork
  cases henc : (pending.apply p.header count).encode R.xxh p.header.pageSize with
  | error e =>
      unfold Pager.commitTxn
      rw [if_neg hbroken, if_neg (by simp [hne])]
      dsimp only
      rw [henc]
      intro id hid
      cases hid
  | ok page0 =>
      -- after the append the header is the staged one; a checkpoint does not change it
      rw [commitTxn_eq husable hne henc]
      refine (Prog.ends_true _).bind ?_
      intro r _
      cases r with
      | error e =>
          intro id hid
          cases hid
      | ok appended =>
          dsimp only
          unfold Pager.afterAppend
          split
          · refine checkpoint_header.bind ?_
            intro r hr id hid
            cases hresult : r.2 with
            | error e =>
                rw [hresult] at hid
                cases hid
            | ok u =>
                rw [hresult] at hid
                cases hid
                exact ⟨rfl, by rw [hr]⟩
          · intro id hid
            cases hid
            exact ⟨rfl, rfl⟩

/-- Acknowledged commits on one pager, on any file system, with the ids they return. -/
inductive Commits (R : Runtime) : Pager → List Nat → Pager → Prop where
  | done (p : Pager) : Commits R p [] p
  | commit {p p' q : Pager} {salt : UInt64} {dirty : List (Nat × Bytes)} {count : Nat} {pending : PendingHeader}
      {fs fs' : Fs} {n id : Nat} {ids : List Nat} (hwork : ¬ p.Idle dirty count pending)
      (hrun : Prog.Runs (Fs.fails R) (p.commitTxn R salt dirty count pending) fs n fs' (p', .ok id))
      (hrest : Commits R p' ids q) : Commits R p (id :: ids) q

/-- The ids of a run ascend exactly if the counter does not reach its bound. -/
theorem Commits.ascending_iff {ids : List Nat} {q : Pager} (h : Commits R p ids q)
    (hp : p.header.txnCounter < 2 ^ 64) :
    (p.header.txnCounter :: ids).Pairwise (· < ·) ↔ p.header.txnCounter + ids.length < 2 ^ 64 := by
  induction h with
  | done p => simpa using hp
  | @commit p p' q salt dirty count pending fs fs' n id ids hwork hrun hrest ih =>
      rcases hrun.ends (commitTxn_id hwork) id rfl with ⟨hid, hheader⟩
      rw [hheader] at ih
      have hlt : id < 2 ^ 64 := by
        rw [hid]
        exact Nat.mod_lt _ (by norm_num)
      rw [List.pairwise_cons, ih hlt, List.length_cons]
      constructor
      · intro h
        have hstep := h.1 id List.mem_cons_self
        have hle := h.2
        by_cases hlast : p.header.txnCounter + 1 < 2 ^ 64
        · rw [Nat.mod_eq_of_lt hlast] at hid
          omega
        · rw [show p.header.txnCounter + 1 = 2 ^ 64 by omega, Nat.mod_self] at hid
          omega
      · intro h
        rw [Nat.mod_eq_of_lt (by omega)] at hid
        refine ⟨?_, by omega⟩
        intro x hx
        have hsorted := (ih hlt).mpr (by omega)
        rcases List.mem_cons.mp hx with hx | hx
        · omega
        · have := (List.pairwise_cons.mp hsorted).1 x hx
          omega

/-- A commit of header fields on a new log of a healthy device is acknowledged. -/
theorem run_firstCommit {fs : Fs} {f : Nat} {salt : UInt64} {pending : PendingHeader} (hbroken : p.broken = false)
    (hh : fs.handles p.wal.file = some f) (hfile : fs.files f = File.clean []) (hsalt : p.wal.salt = none)
    (hps : p.wal.pageSize = p.header.pageSize) (hwork : ¬ p.Idle [] p.header.pageCount pending)
    (hwf : (pending.apply p.header p.header.pageCount).Wf)
    (hroom : WAL_HEADER_LEN + (WAL_FRAME_HEADER_LEN + p.header.pageSize) < p.checkpointThreshold) :
    ∃ p', ((p.commitTxn R salt [] p.header.pageCount pending).run fs).2 =
      (p', .ok (pending.apply p.header p.header.pageCount).txnCounter) := by
  have hne : (([] : List (Nat × Bytes)).isEmpty && p.header.pageCount == p.header.pageCount && pending.isEmpty) =
      false := by
    simpa [Pager.Idle] using hwork
  have hpages : PagesOk p.wal.pageSize
      ([] ++ [(0, (pending.apply p.header p.header.pageCount).image R.xxh)]) := by
    intro page hpage
    rw [List.nil_append, List.mem_singleton] at hpage
    subst hpage
    refine ⟨by norm_num, ?_⟩
    rw [Header.image_length, hps]
    rfl
  have henc : (pending.apply p.header p.header.pageCount).encode R.xxh p.header.pageSize =
      .ok ((pending.apply p.header p.header.pageCount).image R.xxh) := Header.encode_eq_ok hwf
  have happend := run_appendTxn (H := R.xxh) salt (pending.apply p.header p.header.pageCount).txnCounter hh hfile
    (Or.inr ⟨hsalt, rfl, rfl, rfl⟩) hpages
  have hlen : ((generation p.wal.pageSize salt.toNat).encode ++
      txnBytes R.xxh (pending.apply p.header p.header.pageCount).txnCounter salt.toNat
        ([] ++ [(0, (pending.apply p.header p.header.pageCount).image R.xxh)])).length =
      WAL_HEADER_LEN + (WAL_FRAME_HEADER_LEN + p.header.pageSize) := by
    rw [List.length_append, txnBytes_length hpages, WalHeader.encode_length, hps]
    simp
  rw [hlen] at happend
  rw [commitTxn_eq hbroken hne henc, Prog.run_bind]
  rw [show Prog.run _ fs = _ from happend]
  dsimp only
  unfold Pager.afterAppend
  rw [if_neg]
  · exact ⟨_, rfl⟩
  · show ¬ p.checkpointThreshold ≤ WAL_HEADER_LEN + (WAL_FRAME_HEADER_LEN + p.header.pageSize)
    omega

end Ids

/-! ## All counters -/

/-- What the counters of an accepted file become. An allocated page has the next number or
is refused. The other counters are exact exactly if they are not at their bound: the id that
an acknowledged commit returns, the ids of a whole run of commits, the node count that an
insertion stores, and the file size that `stats` reports. -/
theorem counters_exact_iff (R : Runtime) (F : Floats) (dims : Nat) {page : Bytes} {h : Header}
    (hdec : Header.decode R.xxh page = .ok h) :
    (∀ (p p' : Pager) (salt : UInt64) (dirty : List (Nat × Bytes)) (count : Nat) (pending : PendingHeader)
        (fs fs' : Fs) (n id : Nat), p.header = h → ¬ p.Idle dirty count pending →
        Prog.Runs (Fs.fails R) (p.commitTxn R salt dirty count pending) fs n fs' (p', .ok id) →
        (id = h.txnCounter + 1 ↔ h.txnCounter + 1 < 2 ^ 64)) ∧
    (∀ (p q : Pager) (ids : List Nat), p.header = h → Commits R p ids q →
        ((h.txnCounter :: ids).Pairwise (· < ·) ↔ h.txnCounter + ids.length < 2 ^ 64)) ∧
    (∀ t : Txn, t.base.header = h →
        (∃ t', t.allocatePage R.xxh = .ok (t.pageCount, t') ∧ t'.pageCount = t.pageCount + 1 ∧
          t'.pageCount < 2 ^ 64) ∨
        t.allocatePage R.xxh = .error (.invalidArgument "page count overflow")) ∧
    (∀ (t t' : Txn) (recordId : Ulid) (vector : List F32) (vecRef : Nat × Nat), t.base.header = h →
        Hnsw.insert R.xxh F dims recordId vector t = .ok (vecRef, t') →
        ∀ stats, Hnsw.Starts R.xxh t stats → ∃ stats', Hnsw.Shows R.xxh t' stats' ∧
          (stats'.nodeCount = stats.nodeCount + 1 ↔ stats.nodeCount + 1 < 2 ^ 64)) ∧
    (∀ (c : Committed) (s : Store.StoreStats), c.header = h → Store.stats R.xxh c = .ok s →
        (s.fileBytes = h.pageSize * h.pageCount ↔ h.pageSize * h.pageCount < 2 ^ 64)) := by
  have hwf : h.Wf := by
    have hends := Header.decode_ends R.xxh page
    rw [hdec] at hends
    exact hends.of_ok.1
  -- every counter is kept in 64 bits
  have hmod : ∀ a : Nat, a % 2 ^ 64 = a ↔ a < 2 ^ 64 := by
    intro a
    constructor
    · intro ha
      rw [← ha]
      exact Nat.mod_lt _ (by norm_num)
    · exact Nat.mod_eq_of_lt
  refine ⟨?_, ?_, ?_, ?_, ?_⟩
  case refine_1 =>
    -- one commit
    intro p p' salt dirty count pending fs fs' n id hp hwork hrun
    rcases hrun.ends (commitTxn_id hwork) id rfl with ⟨hid, _⟩
    rw [hid, hp]
    exact hmod _
  case refine_2 =>
    -- a run of commits
    intro p q ids hp hrun
    have hiff := hrun.ascending_iff (by rw [hp]; exact hwf.txnCounter)
    rwa [hp] at hiff
  case refine_3 =>
    -- page allocation checks the counter instead
    intro t _
    unfold Txn.allocatePage
    split
    · rename_i hlt
      exact Or.inl ⟨_, rfl, rfl, hlt⟩
    · exact Or.inr rfl
  case refine_4 =>
    -- an insertion into the graph
    intro t t' recordId vector vecRef ht hrun stats hstarts
    have hlo : 512 ≤ t.pageSize := by
      unfold Txn.pageSize
      rw [ht]
      exact (pageSizeIsValid_iff.mp hwf.pageSize).1
    have hinsert : Wp (Hnsw.insert R.xxh F dims recordId vector) t _ _ := Hnsw.wp_insert_count hlo recordId vector
    rcases hinsert.ok hrun with
      ⟨stats₀, stats', hstarts₀, hshows, hcount⟩
    refine ⟨stats', hshows, ?_⟩
    rw [hcount, hstarts₀.unique hstarts]
    exact hmod _
  case refine_5 =>
    -- the bytes of the file
    intro c s hc hstats
    have hbytes : s.fileBytes = Store.fileBytes h := by
      unfold Store.stats at hstats
      rcases bind_eq_ok.mp hstats with ⟨memories, _, hstats⟩
      rcases bind_eq_ok.mp hstats with ⟨graph, _, hstats⟩
      rcases bind_eq_ok.mp hstats with ⟨entries, _, hstats⟩
      rcases bind_eq_ok.mp hstats with ⟨fts, _, hstats⟩
      cases hstats
      rw [hc]
    rw [hbytes]
    exact hmod _

section Example

/-- A header of pages of 512 bytes, with these counters. -/
def headerWith (pageCount txnCounter : Nat) : Header :=
  { (Committed.fresh FORMAT_VERSION 512).header with pageCount, txnCounter }

/-- A header with any counters is well formed. -/
theorem headerWith_wf {pageCount txnCounter : Nat} (hpos : 1 ≤ pageCount) (hlt : pageCount < 2 ^ 64)
    (hid : txnCounter < 2 ^ 64) : (headerWith pageCount txnCounter).Wf :=
  { (Committed.wf_fresh Runtime.plain.xxh (by decide) (by decide) (by decide)).header with
    pageCount_pos := hpos
    pageCount := hlt
    txnCounter := hid }

/-- A pager with this header over an empty log. -/
def pagerWith (pageCount txnCounter : Nat) : Pager :=
  { main := 1, wal := newLog, walPath := "memory.mind-wal", header := headerWith pageCount txnCounter,
    checkpointThreshold := DEFAULT_CHECKPOINT_THRESHOLD }

/-- The first use of a file by a store with an embedder stamps the model into the header. -/
def stampModel : PendingHeader := { embedding := some ("m", 4) }

theorem stampModel_wf : stampModel.Wf :=
  { rootBtree := by simp [stampModel]
    hnswMeta := by simp [stampModel]
    ftsRoot := by simp [stampModel]
    graphRoot := by simp [stampModel]
    filterMeta := by simp [stampModel]
    filterSymbols := by simp [stampModel]
    embedding := by
      intro e he
      cases he
      decide }

/-- A commit of the embedding model on a header with any counters. -/
theorem run_stampModel {pageCount txnCounter : Nat} (hpos : 1 ≤ pageCount) (hlt : pageCount < 2 ^ 64)
    (hid : txnCounter < 2 ^ 64) :
    ∃ p', (((pagerWith pageCount txnCounter).commitTxn Runtime.plain 1 [] pageCount stampModel).run
      emptyLogFile).2 = (p', .ok ((txnCounter + 1) % 2 ^ 64)) := by
  have hwf : (headerWith pageCount txnCounter).Wf := headerWith_wf hpos hlt hid
  refine @run_firstCommit Runtime.plain (pagerWith pageCount txnCounter) emptyLogFile 0 1 stampModel rfl rfl rfl rfl
    rfl ?_ (stampModel_wf.apply hwf hpos hlt) ?_
  · simp [Pager.Idle, stampModel, PendingHeader.isEmpty]
  · show 576 < DEFAULT_CHECKPOINT_THRESHOLD
    decide

/-- The node count of the vector index that a transaction shows. -/
def shownNodeCount (t : Txn) : Option Nat :=
  (Hnsw.loadMeta (t.source Runtime.plain.xxh) t.hnswMetaPage).toOption.bind fun stats => stats.map Hnsw.HnswMeta.nodeCount

theorem shows_of_shownNodeCount {t : Txn} {n : Nat} (h : shownNodeCount t = some n) :
    ∃ stats, Hnsw.Shows Runtime.plain.xxh t stats ∧ stats.nodeCount = n := by
  rcases Option.bind_eq_some_iff.mp h with ⟨loaded, hload, hcount⟩
  rcases Option.map_eq_some_iff.mp hcount with ⟨stats, hstats, hn⟩
  rw [hstats] at hload
  exact ⟨stats, toOption_eq_some.mp hload, hn⟩

/-- A file of three pages after its commit 41. -/
def laterFile : Committed := ⟨headerWith 3 41, fun _ => []⟩

/-- On that file a commit returns the next id, which is greater, the first insertion counts one node, and `stats`
reports three pages. -/
theorem counters_exact_iff_later_file :
    (∃ p', (((pagerWith 3 41).commitTxn Runtime.plain 1 [] 3 stampModel).run emptyLogFile).2 = (p', .ok 42)) ∧
      ([41, 42] : List Nat).Pairwise (· < ·) ∧
      (∃ vecRef t' stats', Hnsw.insert Runtime.plain.xxh Hnsw.unitFloats 1 7 [0x3f800000] (Txn.begin laterFile) =
          .ok (vecRef, t') ∧ Hnsw.Shows Runtime.plain.xxh t' stats' ∧ stats'.nodeCount = 0 + 1) ∧
      ∃ s, Store.stats Runtime.plain.xxh laterFile = .ok s ∧ s.fileBytes = 512 * 3 := by
  have hwf : (headerWith 3 41).Wf := headerWith_wf (by norm_num) (by norm_num) (by norm_num)
  have hexact := counters_exact_iff Runtime.plain Hnsw.unitFloats 1 (Header.decode_image hwf)
  rcases run_stampModel (show 1 ≤ 3 by norm_num) (by norm_num) (show 41 < 2 ^ 64 by norm_num) with ⟨p', hrun⟩
  have hruns : Prog.Runs (Fs.fails Runtime.plain) ((pagerWith 3 41).commitTxn Runtime.plain 1 [] 3 stampModel)
      emptyLogFile 0 _ _ := Prog.runs_undisturbed _ _
  rw [hrun] at hruns
  have hwork : ¬ (pagerWith 3 41).Idle [] 3 stampModel := by
    simp [Pager.Idle, stampModel, PendingHeader.isEmpty]
  have hcommits : Commits Runtime.plain (pagerWith 3 41) [42] p' := .commit hwork hruns (.done p')
  refine ⟨⟨p', hrun⟩, (hexact.2.1 (pagerWith 3 41) p' [42] rfl hcommits).mpr (by decide), ?_, ?_⟩
  · have hinserted : (Hnsw.insert Runtime.plain.xxh Hnsw.unitFloats 1 7 [0x3f800000] (Txn.begin laterFile)).toOption.isSome =
        true := by decide +kernel
    rcases Option.isSome_iff_exists.mp hinserted with ⟨⟨vecRef, t'⟩, hins⟩
    have hok := toOption_eq_some.mp hins
    rcases hexact.2.2.2.1 (Txn.begin laterFile) t' 7 [0x3f800000] vecRef rfl hok Hnsw.HnswMeta.new ⟨none, rfl, rfl⟩ with
      ⟨stats', hshows, hcount⟩
    exact ⟨vecRef, t', stats', hok, hshows, hcount.mpr (by decide)⟩
  · refine ⟨_, rfl, ?_⟩
    exact (hexact.2.2.2.2 laterFile _ rfl rfl).mpr (by decide)

/-- A vector index of one node that has counted to its bound. -/
def fullCount : Committed :=
  ⟨{ headerWith 4 0 with hnswMetaPage := 1 }, fun n =>
    if n = 1 then ((Hnsw.HnswMeta.mk 16 200 0 2 (2 ^ 64 - 1)).encode Runtime.plain.xxh 512).toOption.getD []
    else if n = 2 then ((Hnsw.HnswNode.mk 5 3 0 [[]]).encode Runtime.plain.xxh 512).getD []
    else (PageHeader.mk .vector 1 0).encodeInto (splice (List.replicate 512 0) PAGE_HEADER_LEN (Hnsw.encodeVector [0x3f800000]))⟩

/-- A file whose counters are at their bounds is accepted. The commit that stamps it returns
the id 0, an insertion stores a node count of 0, and `stats` reports a file of 0 bytes. -/
theorem counters_wrap :
    Header.decode Runtime.plain.xxh ((headerWith (2 ^ 55) (2 ^ 64 - 1)).image Runtime.plain.xxh) =
        .ok (headerWith (2 ^ 55) (2 ^ 64 - 1)) ∧
      (∃ p', (((pagerWith (2 ^ 55) (2 ^ 64 - 1)).commitTxn Runtime.plain 1 [] (2 ^ 55) stampModel).run
        emptyLogFile).2 = (p', .ok 0)) ∧
      (∃ vecRef t' stats stats', Hnsw.Starts Runtime.plain.xxh (Txn.begin fullCount) stats ∧ stats.nodeCount = 2 ^ 64 - 1 ∧
        Hnsw.insert Runtime.plain.xxh Hnsw.unitFloats 1 7 [0x3f800000] (Txn.begin fullCount) = .ok (vecRef, t') ∧
        Hnsw.Shows Runtime.plain.xxh t' stats' ∧ stats'.nodeCount = 0) ∧
      ∃ s, Store.stats Runtime.plain.xxh ⟨headerWith (2 ^ 55) (2 ^ 64 - 1), fun _ => []⟩ = .ok s ∧
        s.fileBytes = 0 ∧ s.pageSize * s.pageCount = 2 ^ 64 := by
  have hheader : (headerWith (2 ^ 55) (2 ^ 64 - 1)).Wf := headerWith_wf (by norm_num) (by norm_num) (by norm_num)
  refine ⟨Header.decode_image hheader, ?_, ?_, ?_⟩
  · have hrun := run_stampModel (show 1 ≤ 2 ^ 55 by norm_num) (by norm_num) (show 2 ^ 64 - 1 < 2 ^ 64 by norm_num)
    rwa [show (2 ^ 64 - 1 + 1) % 2 ^ 64 = 0 by norm_num] at hrun
  · have hstart : shownNodeCount (Txn.begin fullCount) = some (2 ^ 64 - 1) := by decide +kernel
    have hinserted : ((Hnsw.insert Runtime.plain.xxh Hnsw.unitFloats 1 7 [0x3f800000] (Txn.begin fullCount)).toOption.any
        fun r => decide (shownNodeCount r.2 = some 0)) = true := by decide +kernel
    rcases shows_of_shownNodeCount hstart with ⟨stats, hstats, hcount⟩
    rcases (Option.any_eq_true _ _).mp hinserted with ⟨⟨vecRef, t'⟩, hins, hzero⟩
    rcases shows_of_shownNodeCount (of_decide_eq_true hzero) with ⟨stats', hstats', hcount'⟩
    exact ⟨vecRef, t', stats, stats', ⟨some stats, hstats, rfl⟩, hcount, toOption_eq_some.mp hins, hstats', hcount'⟩
  · refine ⟨_, rfl, ?_, ?_⟩
    · decide
    · decide

end Example

end EmbedMind
