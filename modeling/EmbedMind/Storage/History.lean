import EmbedMind.Lib.Decoding
import EmbedMind.Storage.Durability

/-!
# Histories of a store

`History` collects every run of a store from its creation on: transactions,
checkpoints, closes, drops, reopens, and power failures inside any of them,
recovery included. It carries what the run has promised so far (`Expected`): the
state after the last commit that returned `Ok`, and the transaction whose commit
was cut short by the last power failure, if any.

The invariant of a history is that a running pager shows the promised state
(`Live`) and that a store nobody has open holds one of the two (`AtRest`).
-/

namespace EmbedMind

open Lib Lib.Assoc

/-- The calls a transaction is made of. -/
inductive TxnOp where
  | allocatePage
  | writePage (pageNo : Nat) (data : Bytes)
  | setRootBtreePage (pageNo : UInt64)
  | setHnswMetaPage (pageNo : UInt64)
  | setFtsRootPage (pageNo : UInt64)
  | setGraphRootPage (pageNo : UInt64)
  | setFilterMetaPage (pageNo : UInt64)
  | setFilterSymbolsPage (pageNo : UInt64)
  | setEmbeddingModel (modelId : String) (dims : UInt16)

/-- One call on an open transaction; a call that is refused changes nothing. -/
def TxnOp.apply (H : Xxh3) (t : Txn) : TxnOp → Txn
  | .allocatePage =>
      match t.allocatePage H with
      | .ok (_, t') => t'
      | .error _ => t
  | .writePage pageNo data =>
      match t.writePage H pageNo data with
      | .ok t' => t'
      | .error _ => t
  | .setRootBtreePage n => t.setRootBtreePage n.toNat
  | .setHnswMetaPage n => t.setHnswMetaPage n.toNat
  | .setFtsRootPage n => t.setFtsRootPage n.toNat
  | .setGraphRootPage n => t.setGraphRootPage n.toNat
  | .setFilterMetaPage n => t.setFilterMetaPage n.toNat
  | .setFilterSymbolsPage n => t.setFilterSymbolsPage n.toNat
  | .setEmbeddingModel modelId dims =>
      match t.setEmbeddingModel modelId dims.toNat with
      | .ok t' => t'
      | .error _ => t

/-- The calls of a transaction, in order. -/
def Txn.performs (H : Xxh3) (t : Txn) (ops : List TxnOp) : Txn :=
  ops.foldl (fun t op => op.apply H t) t

/-- A call keeps a transaction well formed. -/
theorem TxnOp.apply_wf {H : Xxh3} {t : Txn} (h : t.Wf H) (op : TxnOp) :
    (op.apply H t).Wf H ∧ (op.apply H t).base = t.base := by
  have hlt : ∀ n : UInt64, ∀ m ∈ some n.toNat, m < 2 ^ 64 := by
    rintro n m ⟨⟩
    exact n.toNat_lt
  cases op with
  | allocatePage =>
      simp only [apply]
      split
      · rename_i n t' ha
        refine ⟨h.allocatePage ha, ?_⟩
        unfold Txn.allocatePage at ha
        split at ha <;> cases ha
        rfl
      · exact ⟨h, rfl⟩
  | writePage n data =>
      simp only [apply]
      split
      · rename_i t' hw
        refine ⟨h.writePage hw, ?_⟩
        unfold Txn.writePage at hw
        split_ifs at hw
        cases hw
        rfl
      · exact ⟨h, rfl⟩
  | setRootBtreePage n => exact ⟨h.withPending { h.pending with rootBtree := hlt n }, rfl⟩
  | setHnswMetaPage n => exact ⟨h.withPending { h.pending with hnswMeta := hlt n }, rfl⟩
  | setFtsRootPage n => exact ⟨h.withPending { h.pending with ftsRoot := hlt n }, rfl⟩
  | setGraphRootPage n => exact ⟨h.withPending { h.pending with graphRoot := hlt n }, rfl⟩
  | setFilterMetaPage n => exact ⟨h.withPending { h.pending with filterMeta := hlt n }, rfl⟩
  | setFilterSymbolsPage n => exact ⟨h.withPending { h.pending with filterSymbols := hlt n }, rfl⟩
  | setEmbeddingModel id dims =>
      simp only [apply, Txn.setEmbeddingModel]
      split_ifs with hlen
      · exact ⟨h, rfl⟩
      · refine ⟨h.withPending { h.pending with embedding := ?_ }, rfl⟩
        rintro e ⟨⟩
        exact ⟨not_lt.mp hlen, dims.toNat_lt⟩

/-- Calls keep a transaction well formed. -/
theorem Txn.performs_wf {H : Xxh3} {t : Txn} (h : t.Wf H) (ops : List TxnOp) :
    (t.performs H ops).Wf H ∧ (t.performs H ops).base = t.base := by
  induction ops generalizing t with
  | nil => exact ⟨h, rfl⟩
  | cons op ops ih =>
      obtain ⟨h1, h2⟩ := TxnOp.apply_wf h op
      obtain ⟨h3, h4⟩ := ih h1
      exact ⟨h3, h4.trans h2⟩

/-! ## Every transaction is made of calls -/

section Performed

variable {H : Xxh3} {t : Txn}

/-- Stamping a valid page changes nothing. -/
theorem stamp_of_valid {page : Bytes} (h : pageChecksumIsValid H page = true) : stampPageChecksum H page = page := by
  unfold pageChecksumIsValid at h
  split at h
  · cases h
  · exact splice_hasAt (hasAt_of_readLE (beq_iff_eq.mp h))

/-- Calls in two parts. -/
theorem Txn.performs_append (t : Txn) (ops ops' : List TxnOp) :
    t.performs H (ops ++ ops') = (t.performs H ops).performs H ops' :=
  List.foldl_append

/-- Allocating pages one after the other. -/
theorem Txn.Wf.performs_allocate (h : t.Wf H) (n : Nat) (hn : t.pageCount + n < 2 ^ 64) :
    ∃ dirty, t.performs H (List.replicate n .allocatePage) = { t with pageCount := t.pageCount + n, dirty } ∧
      ∀ e ∈ dirty, e ∈ t.dirty ∨ t.pageCount ≤ e.1 := by
  induction n generalizing t with
  | zero => exact ⟨t.dirty, rfl, fun e he => Or.inl he⟩
  | succ n ih =>
      have halloc : t.allocatePage H = .ok (t.pageCount, _) := if_pos (by omega)
      have happly : TxnOp.allocatePage.apply H t = { t with
          pageCount := t.pageCount + 1
          dirty := insertKey t.pageCount (stampPageChecksum H (List.replicate t.pageSize 0)) t.dirty } := by
        unfold TxnOp.apply
        rw [halloc]
      rcases ih (h.allocatePage halloc) (by simp only; omega) with ⟨dirty, hrun, hdirty⟩
      refine ⟨dirty, ?_, ?_⟩
      · rw [List.replicate_succ]
        change Txn.performs H (TxnOp.allocatePage.apply H t) _ = _
        rw [happly, hrun]
        congr 1
        simp only
        omega
      · intro e he
        rcases hdirty e he with hmem | hle
        · rcases mem_insertKey hmem with rfl | hmem
          · exact Or.inr le_rfl
          · exact Or.inl hmem
        · exact Or.inr (le_trans (Nat.le_succ _) hle)

/-- Writing pages that are stamped already. -/
theorem Txn.performs_writes (l : List (Nat × Bytes))
    (hl : ∀ e ∈ l, 0 < e.1 ∧ e.1 < t.pageCount ∧ t.GoodPage H e.2) :
    t.performs H (l.map fun e => .writePage e.1 e.2) = { t with dirty := extend t.dirty l } := by
  induction l generalizing t with
  | nil => rfl
  | cons e l ih =>
      rcases hl e List.mem_cons_self with ⟨hpos, hlt, hlen, hvalid⟩
      have hwrite : t.writePage H e.1 e.2 = .ok { t with dirty := insertKey e.1 e.2 t.dirty } := by
        unfold Txn.writePage
        rw [if_neg (not_not.mpr hlen), if_neg (by omega), if_neg (by omega), stamp_of_valid hvalid]
      have happly : (TxnOp.writePage e.1 e.2).apply H t = { t with dirty := insertKey e.1 e.2 t.dirty } := by
        simp only [TxnOp.apply, hwrite]
      have hrest := ih (t := { t with dirty := insertKey e.1 e.2 t.dirty }) fun x hx => hl x (List.mem_cons_of_mem _ hx)
      rw [List.map_cons]
      change Txn.performs H ((TxnOp.writePage e.1 e.2).apply H t) _ = _
      rw [happly, hrest]
      rfl

/-- The calls that set the header fields of `p`. -/
def PendingHeader.ops (p : PendingHeader) : List TxnOp :=
  p.rootBtree.toList.map (fun n => .setRootBtreePage (.ofNat n)) ++
    p.hnswMeta.toList.map (fun n => .setHnswMetaPage (.ofNat n)) ++
    p.ftsRoot.toList.map (fun n => .setFtsRootPage (.ofNat n)) ++
    p.graphRoot.toList.map (fun n => .setGraphRootPage (.ofNat n)) ++
    p.filterMeta.toList.map (fun n => .setFilterMetaPage (.ofNat n)) ++
    p.filterSymbols.toList.map (fun n => .setFilterSymbolsPage (.ofNat n)) ++
    p.embedding.toList.map (fun e => .setEmbeddingModel e.1 (.ofNat e.2))

/-- One header field, set or left alone. -/
theorem Txn.performs_slot {α : Type} {value : Option α} {set : α → TxnOp} {u : Txn}
    (put : Option α → PendingHeader → PendingHeader) (hnone : put none u.pending = u.pending)
    (hsome : ∀ a, value = some a → (set a).apply H u = { u with pending := put (some a) u.pending }) :
    u.performs H (value.toList.map set) = { u with pending := put value u.pending } := by
  cases hvalue : value with
  | none =>
      rw [hnone]
      rfl
  | some a => exact hsome a hvalue

/-- Setting every header field of `p`. -/
theorem Txn.performs_pending {p : PendingHeader} (hp : p.Wf) (ht : t.pending = {}) :
    t.performs H p.ops = { t with pending := p } := by
  have hnat : ∀ {n : Nat}, n < 2 ^ 64 → (UInt64.ofNat n).toNat = n := fun h => UInt64.toNat_ofNat_of_lt' h
  have hroot : ∀ u : Txn, u.performs H (p.rootBtree.toList.map fun n => .setRootBtreePage (.ofNat n)) =
      { u with pending := { u.pending with rootBtree := p.rootBtree.or u.pending.rootBtree } } := by
    intro u
    refine performs_slot (fun v q => { q with rootBtree := v.or q.rootBtree }) rfl ?_
    intro n hn
    simp [TxnOp.apply, Txn.setRootBtreePage, hnat (hp.rootBtree n hn)]
  have hhnsw : ∀ u : Txn, u.performs H (p.hnswMeta.toList.map fun n => .setHnswMetaPage (.ofNat n)) =
      { u with pending := { u.pending with hnswMeta := p.hnswMeta.or u.pending.hnswMeta } } := by
    intro u
    refine performs_slot (fun v q => { q with hnswMeta := v.or q.hnswMeta }) rfl ?_
    intro n hn
    simp [TxnOp.apply, Txn.setHnswMetaPage, hnat (hp.hnswMeta n hn)]
  have hfts : ∀ u : Txn, u.performs H (p.ftsRoot.toList.map fun n => .setFtsRootPage (.ofNat n)) =
      { u with pending := { u.pending with ftsRoot := p.ftsRoot.or u.pending.ftsRoot } } := by
    intro u
    refine performs_slot (fun v q => { q with ftsRoot := v.or q.ftsRoot }) rfl ?_
    intro n hn
    simp [TxnOp.apply, Txn.setFtsRootPage, hnat (hp.ftsRoot n hn)]
  have hgraph : ∀ u : Txn, u.performs H (p.graphRoot.toList.map fun n => .setGraphRootPage (.ofNat n)) =
      { u with pending := { u.pending with graphRoot := p.graphRoot.or u.pending.graphRoot } } := by
    intro u
    refine performs_slot (fun v q => { q with graphRoot := v.or q.graphRoot }) rfl ?_
    intro n hn
    simp [TxnOp.apply, Txn.setGraphRootPage, hnat (hp.graphRoot n hn)]
  have hfilter : ∀ u : Txn, u.performs H (p.filterMeta.toList.map fun n => .setFilterMetaPage (.ofNat n)) =
      { u with pending := { u.pending with filterMeta := p.filterMeta.or u.pending.filterMeta } } := by
    intro u
    refine performs_slot (fun v q => { q with filterMeta := v.or q.filterMeta }) rfl ?_
    intro n hn
    simp [TxnOp.apply, Txn.setFilterMetaPage, hnat (hp.filterMeta n hn)]
  have hsymbols : ∀ u : Txn, u.performs H (p.filterSymbols.toList.map fun n => .setFilterSymbolsPage (.ofNat n)) =
      { u with pending := { u.pending with filterSymbols := p.filterSymbols.or u.pending.filterSymbols } } := by
    intro u
    refine performs_slot (fun v q => { q with filterSymbols := v.or q.filterSymbols }) rfl ?_
    intro n hn
    simp [TxnOp.apply, Txn.setFilterSymbolsPage, hnat (hp.filterSymbols n hn)]
  have hmodel : ∀ u : Txn, u.performs H (p.embedding.toList.map fun e => .setEmbeddingModel e.1 (.ofNat e.2)) =
      { u with pending := { u.pending with embedding := p.embedding.or u.pending.embedding } } := by
    intro u
    refine performs_slot (fun v q => { q with embedding := v.or q.embedding }) rfl ?_
    intro e he
    rcases hp.embedding e he with ⟨hlen, hdims⟩
    simp [TxnOp.apply, Txn.setEmbeddingModel, not_lt.mpr hlen, UInt16.toNat_ofNat_of_lt' hdims]
  unfold PendingHeader.ops
  rw [Txn.performs_append, Txn.performs_append, Txn.performs_append, Txn.performs_append, Txn.performs_append,
    Txn.performs_append, hroot, hhnsw, hfts, hgraph, hfilter, hsymbols, hmodel, ht]
  simp

/-- Every well-formed transaction is made by calls. -/
theorem Txn.Wf.performed (h : t.Wf H) : ∃ ops, t = (Txn.begin t.base).performs H ops := by
  have hbegin := Txn.wf_begin h.base
  rcases hbegin.performs_allocate (t.pageCount - t.base.header.pageCount) (by
    have := h.grows
    have := h.bound
    simp only [Txn.begin]
    omega) with ⟨dirty, halloc, hdirty⟩
  have hcount : (Txn.begin t.base).pageCount + (t.pageCount - t.base.header.pageCount) = t.pageCount := by
    have := h.grows
    simp only [Txn.begin]
    omega
  rw [hcount] at halloc
  have hwf := (Txn.performs_wf hbegin (List.replicate (t.pageCount - t.base.header.pageCount) .allocatePage)).1
  rw [halloc] at hwf
  have hextend : extend dirty t.dirty = t.dirty := by
    refine eq_of_find (sorted_extend hwf.sorted) h.sorted ?_
    intro k
    cases hk : find k t.dirty with
    | some page => exact find_extend_of_mem h.sorted.nodup_keys (mem_of_find hk)
    | none =>
        rw [find_extend_of_not_mem (find_eq_none.mp hk)]
        refine find_eq_none.mpr ?_
        rintro ⟨n, page⟩ he rfl
        -- an allocated page is dirty
        rcases hdirty _ he with hnil | hle
        · cases hnil
        · rcases h.fresh n hle (hwf.dirty _ he).2.1 with ⟨q, hq⟩
          rw [hk] at hq
          cases hq
  refine ⟨List.replicate (t.pageCount - t.base.header.pageCount) .allocatePage ++
    t.dirty.map (fun e => .writePage e.1 e.2) ++ t.pending.ops, ?_⟩
  have hwrites := Txn.performs_writes (H := H)
    (t := { base := t.base, dirty := dirty, pageCount := t.pageCount, pending := (Txn.begin t.base).pending }) t.dirty h.dirty
  rw [Txn.performs_append, Txn.performs_append, halloc]
  change t = Txn.performs H (Txn.performs H { base := t.base, dirty, pageCount := t.pageCount, pending := _ } _) _
  rw [hwrites, hextend, Txn.performs_pending h.pending rfl]

/-- The invariant holds of exactly the transactions that calls make. -/
theorem Txn.wf_iff_performed : t.Wf H ↔ t.base.Wf H ∧ ∃ ops, t = (Txn.begin t.base).performs H ops := by
  constructor
  · intro h
    exact ⟨h.base, h.performed⟩
  · rintro ⟨hbase, ops, hops⟩
    rw [hops]
    exact (Txn.performs_wf (Txn.wf_begin hbase) ops).1

end Performed

/-! ## Creation -/

/-- File numbers in use are below the next one, and files not yet made are unlocked. -/
structure Fs.Wf (fs : Fs) : Prop where
  names_lt : ∀ path f, fs.names path = some f → f < fs.nextFile
  locks_lt : ∀ f, fs.nextFile ≤ f → fs.locks f = none

/-- The state of a newly created store. -/
def createdState (opts : PagerOptions) : Committed :=
  Committed.fresh opts.formatVersion opts.pageSize

/-- A process that dies: the files stay, its handles and locks go. -/
def Fs.died (fs : Fs) : Fs := { fs with handles := fun _ => none, locks := fun _ => none }

/-- A store that nobody has open, with the bytes of its two files. -/
structure Closed (path : Path) (fs : Fs) (fm : Nat) (main wal : Bytes) : Prop where
  name : fs.names path = some fm
  name_lt : fm < fs.nextFile
  wal_ne : ∀ fw, fs.names (walPathFor path) = some fw → fw ≠ fm
  unlocked : fs.locks fm = none
  main_eq : (fs.files fm).current = main
  wal_eq : (walFile path fs).current = wal

/-- What a process that dies in a creation leaves: no store, an empty main file beside the
log that was there, or a main file without a log, empty or with the header page in it. -/
inductive Creating (R : Runtime) (path : Path) (opts : PagerOptions) (fs s : Fs) : Prop where
  | before : s.names path = none → Creating R path opts fs s
  | opened (fm : Nat) : Closed path s.died fm [] (walFile path fs).current → Creating R path opts fs s
  | unlogged (fm : Nat) (main : Bytes) : Closed path s.died fm main [] →
      main = [] ∨ main = (createdState opts).header.image R.xxh → Creating R path opts fs s

section Create

variable {R : Runtime} {path : Path} {fs : Fs} {opts : PagerOptions}

/-- A store without a log is closed over an empty one. -/
theorem closed_of_noWal {fm : Nat} (hname : fs.names path = some fm) (hlt : fm < fs.nextFile)
    (hwal : fs.names (walPathFor path) = none) : Closed path fs.died fm (fs.files fm).current [] := by
  refine ⟨hname, hlt, ?_, rfl, rfl, ?_⟩
  · intro fw hfw
    exact absurd (hwal.symm.trans hfw) (by simp)
  · have hwal' : fs.died.names (walPathFor path) = none := hwal
    simp only [walFile, hwal']

/-- A new store can be stored. -/
theorem storable_created (hv : 1 ≤ opts.formatVersion) (hv' : opts.formatVersion ≤ FORMAT_VERSION)
    (hps : pageSizeIsValid opts.pageSize = true) : Storable R.xxh (createdState opts) := by
  have hle := (pageSizeIsValid_iff.mp hps).2.1
  refine ⟨Committed.wf_fresh R.xxh hv hv' hps, ?_⟩
  · show 1 * opts.pageSize ≤ 2 ^ 64
    omega

/-- A new main file beside the log that is there. -/
theorem closed_addFile (path : Path) (hfs : fs.Wf) :
    Closed path ((fs.addFile path).addHandle fs.nextFile).died fs.nextFile [] (walFile path fs).current := by
  have hnames : ((fs.addFile path).addHandle fs.nextFile).died.names (walPathFor path) = fs.names (walPathFor path) := by
    simp [Fs.died, Fs.addHandle, Fs.addFile, walPathFor_ne path]
  refine ⟨?_, ?_, ?_, rfl, ?_, ?_⟩
  · simp [Fs.died, Fs.addHandle, Fs.addFile]
  · simp [Fs.died, Fs.addHandle, Fs.addFile]
  · intro fw hfw
    have hlt := hfs.names_lt _ _ (hnames.symm.trans hfw)
    omega
  · simp [Fs.died, Fs.addHandle, Fs.addFile]
  · unfold walFile
    rw [hnames]
    cases hw : fs.names (walPathFor path) with
    | none => rfl
    | some fw =>
        have hlt := hfs.names_lt _ _ hw
        simp [Fs.died, Fs.addHandle, Fs.addFile, Function.update_of_ne (Nat.ne_of_lt hlt)]

/-- The last part of a creation: the header page, its sync, and a new log file. -/
theorem wpc_create_files {hm : Nat} (fm : Nat) {C : Fs → Prop} (hstore : Storable R.xxh (createdState opts))
    (hname : fs.names path = some fm) (hwal : fs.names (walPathFor path) = none)
    (hlt : fm < fs.nextFile) (hh : fs.handles hm = some fm) (hhlt : hm < fs.nextHandle)
    (hlock : fs.locks fm = some hm) (hfile : fs.files fm = {})
    (hC : ∀ s main, Closed path s.died fm main [] →
      main = [] ∨ main = (createdState opts).header.image R.xxh → C s) :
    Wpc (do
      let page0 ← Io.ofExcept ((createdState opts).header.encode R.xxh opts.pageSize)
      Io.writeAt hm 0 page0
      Io.sync hm
      let walFile ← Io.openFile (walPathFor path) .openOrCreate
      pure { main := hm, wal := { file := walFile, pageSize := opts.pageSize },
             walPath := walPathFor path, header := (createdState opts).header,
             checkpointThreshold := opts.checkpointThreshold } : Io Pager).run fs
      (fun r s => ∃ p, r = .ok p ∧
        (∃ fm fw main, Live R.xxh (createdState opts) path p s fm fw main []) ∧ C s)
      C := by
  have hencode : (createdState opts).header.encode R.xxh opts.pageSize =
      .ok ((createdState opts).header.image R.xxh) := Header.encode_eq_ok hstore.wf.header
  have hpatch : patch [] 0 ((createdState opts).header.image R.xxh) =
      (createdState opts).header.image R.xxh := by
    have := patch_at_end [] ((createdState opts).header.image R.xxh)
    simpa using this
  -- the states between the calls up to the sync differ in the main file alone
  have hfiles : ∀ file : File, file.current = [] ∨ file.current = (createdState opts).header.image R.xxh →
      C (fs.setFile fm file) := by
    intro file hfile
    have hclosed : Closed path (fs.setFile fm file).died fm ((fs.setFile fm file).files fm).current [] :=
      closed_of_noWal hname hlt hwal
    simp only [Fs.setFile_files, Function.update_self] at hclosed
    exact hC _ _ hclosed hfile
  have hstart : C fs := by
    refine hC fs _ (closed_of_noWal hname hlt hwal) (Or.inl ?_)
    rw [hfile]
  have hwritten : ((fs.files fm).write 0 ((createdState opts).header.image R.xxh)).current =
      (createdState opts).header.image R.xxh := by
    simp only [File.write, hfile, hpatch]
  refine Io.wpc_ofExcept hencode ?_
  have htorn : (fs.files fm).current = [] := by rw [hfile]
  refine Io.wpc_writeAt hh hstart ?_ ?_
  · exact hfiles _ (Or.inl htorn)
  refine Io.wpc_sync hh ?_ ?_
  · exact hfiles _ (Or.inr hwritten)
  have hclean : ((fs.setFile fm ((fs.files fm).write 0
      ((createdState opts).header.image R.xxh))).files fm).sync =
      File.clean ((createdState opts).header.image R.xxh) := by
    simp only [Fs.setFile_files, Function.update_self, File.write, hfile, File.sync, File.clean,
      hpatch]
  rw [hclean, Fs.setFile_setFile]
  have hne : fm ≠ fs.nextFile := Nat.ne_of_lt hlt
  have hsynced : C (fs.setFile fm (File.clean ((createdState opts).header.image R.xxh))) := by
    refine hfiles _ (Or.inr ?_)
    simp only [File.clean]
  refine Io.wpc_openFile
    (((fs.setFile fm (File.clean ((createdState opts).header.image R.xxh))).addFile
      (walPathFor path)).addHandle fs.nextFile) fs.nextHandle ?_ hsynced ?_
  · simp only [Fs.exec, Fs.setFile_names, hwal]
    rfl
  have hfull : MainFull R.xxh (createdState opts) ((createdState opts).header.image R.xxh) := by
    intro n hn
    have hn0 : n = 0 := Nat.lt_one_iff.mp hn
    subst hn0
    rw [Nat.zero_mul, Committed.image_zero]
    have := slice_zero_length ((createdState opts).header.image R.xxh)
    rwa [Header.image_length] at this
  have hopened : Opened path hm fs.nextHandle fm fs.nextFile
      (((fs.setFile fm (File.clean ((createdState opts).header.image R.xxh))).addFile
        (walPathFor path)).addHandle fs.nextFile) := by
    refine ⟨⟨?_, ?_, hne, ?_, ?_⟩, ?_, ?_, hlock, by omega⟩
    · simp [Fs.addHandle, Fs.addFile, Function.update_of_ne (walPathFor_ne path).symm, hname]
    · simp [Fs.addHandle, Fs.addFile, Fs.setFile]
    · simp only [Fs.addHandle, Fs.addFile, Fs.setFile]
      omega
    · simp [Fs.addHandle, Fs.addFile, Fs.setFile]
    · simp only [Fs.addHandle, Fs.addFile, Fs.setFile]
      rw [Function.update_of_ne (by omega), hh]
    · simp [Fs.addHandle, Fs.addFile, Fs.setFile]
  have hend : C (((fs.setFile fm (File.clean ((createdState opts).header.image R.xxh))).addFile
      (walPathFor path)).addHandle fs.nextFile) := by
    refine hC _ ((createdState opts).header.image R.xxh) ?_ (Or.inr rfl)
    refine ⟨hopened.main, hopened.main_lt, ?_, rfl, ?_, ?_⟩
    · intro fw hfw
      cases hopened.wal.symm.trans hfw
      exact hne.symm
    · simp [Fs.died, Fs.addHandle, Fs.addFile, Fs.setFile, Function.update_of_ne hne, File.clean]
    · simp [Fs.died, walFile, Fs.addHandle, Fs.addFile, Fs.setFile]
  refine Io.wpc_pure ⟨_, rfl, ⟨fm, fs.nextFile, _, live_of_full hstore hfull hopened ?_ ?_
    opts.checkpointThreshold⟩, hend⟩ hend
  · simp [Fs.addHandle, Fs.addFile, Fs.setFile, Function.update_of_ne hne]
  · simp [Fs.addHandle, Fs.addFile, Fs.setFile, File.clean]

/-- A creation over a free name, with valid options, gives a running pager over the
empty store. -/
theorem wpc_create (hfs : fs.Wf) (hv : 1 ≤ opts.formatVersion)
    (hv' : opts.formatVersion ≤ FORMAT_VERSION) (hps : pageSizeIsValid opts.pageSize = true)
    (hnew : fs.names path = none) :
    Wpc (Pager.create R path opts).run fs
      (fun r s => ∃ p, r = .ok p ∧
        ∃ fm fw main, Live R.xxh (createdState opts) path p s fm fw main [])
      (Creating R path opts fs) := by
  have hstore : Storable R.xxh (createdState opts) := storable_created hv hv' hps
  unfold Pager.create
  rw [if_neg (by omega)]
  refine Io.wpc_ofExcept (a := (createdState { opts with formatVersion := FORMAT_VERSION }).header)
    (by simp [Header.new, hps, createdState, Committed.fresh]) ?_
  refine Io.wpc_openFile ((fs.addFile path).addHandle fs.nextFile) fs.nextHandle
    (by simp [Fs.exec, hnew, Fs.addFile]) (.before hnew) ?_
  have hnames : ∀ q, q ≠ path → ((fs.addFile path).addHandle fs.nextFile).names q = fs.names q := by
    intro q hq
    simp [Fs.addHandle, Fs.addFile, hq]
  -- until the log is deleted the main file is empty and the log the one that was there
  have hopened : ∀ locks : Nat → Option Nat,
      Creating R path opts fs { (fs.addFile path).addHandle fs.nextFile with locks := locks } :=
    fun _ => .opened fs.nextFile (closed_addFile path hfs)
  rw [← bind_pure (Io.owning fs.nextHandle _)]
  refine Io.wpc_owning (R := fun p s =>
    (∃ fm fw main, Live R.xxh (createdState opts) path p s fm fw main []) ∧ Creating R path opts fs s) ?_
    fun p s hp => Io.wpc_pure ⟨p, rfl, hp.1⟩ hp.2
  refine Io.wpc_tryLockExclusive (f := fs.nextFile) (by simp [Fs.addHandle, Fs.addFile])
    (hfs.locks_lt _ (le_refl _)) (hopened _) ?_
  simp only [Bool.not_true, Bool.false_eq_true, if_false]
  refine Io.wpc_fileExists ?_
  cases hw : fs.names (walPathFor path) with
  | none =>
      simp only [hnames _ (walPathFor_ne path), hw, Option.isSome_none, Bool.false_eq_true, if_false]
      refine wpc_create_files fs.nextFile hstore ?_ ?_ ?_ ?_ ?_ ?_ ?_
        (fun s main hclosed hmain => .unlogged fs.nextFile main hclosed hmain) <;>
        simp [Fs.addHandle, Fs.addFile, hw, Function.update_of_ne (walPathFor_ne path)]
  | some f =>
      -- an orphan log of a deleted store
      simp only [hnames _ (walPathFor_ne path), hw, Option.isSome_some, if_true]
      refine Io.wpc_delete (f := f) (by simp [hnames _ (walPathFor_ne path), hw]) (hopened _) ?_
      refine wpc_create_files fs.nextFile hstore ?_ ?_ ?_ ?_ ?_ ?_ ?_
        (fun s main hclosed hmain => .unlogged fs.nextFile main hclosed hmain) <;>
        simp [Fs.unlink, Fs.addHandle, Fs.addFile, Function.update_of_ne (walPathFor_ne path).symm]

/-- A store can be created where there is none. -/
theorem exists_create (R : Runtime) (path : Path) (opts : PagerOptions) (hfs : fs.Wf) (hv : 1 ≤ opts.formatVersion)
    (hv' : opts.formatVersion ≤ FORMAT_VERSION) (hps : pageSizeIsValid opts.pageSize = true)
    (hnew : fs.names path = none) :
    ∃ fs' p, (Pager.create R path opts).run.run fs = (fs', .ok p) ∧
      p.header = (createdState opts).header := by
  obtain ⟨p, hp, fm, fw, main, hlive⟩ := (wpc_create (R := R) hfs hv hv' hps hnew).1
  exact ⟨_, p, Prod.ext rfl hp, hlive.header⟩

/-- A creation that succeeded had valid options. -/
theorem valid_of_create {fs' : Fs} {p : Pager} (h : (Pager.create R path opts).run.run fs = (fs', .ok p)) :
    1 ≤ opts.formatVersion ∧ opts.formatVersion ≤ FORMAT_VERSION ∧ pageSizeIsValid opts.pageSize = true := by
  by_cases hv : opts.formatVersion = 0 ∨ FORMAT_VERSION < opts.formatVersion
  · unfold Pager.create at h
    rw [if_pos hv] at h
    cases h
  by_cases hps : pageSizeIsValid opts.pageSize = true
  · exact ⟨by omega, by omega, hps⟩
  · have hnew : Header.new opts.pageSize =
        .error (.invalidArgument "unsupported page size") := by
      simp [Header.new, hps]
    unfold Pager.create at h
    rw [if_neg hv, hnew] at h
    cases h

/-- A creation that succeeded had a free name. -/
theorem live_of_create {fs' : Fs} {p : Pager} (hfs : fs.Wf)
    (h : (Pager.create R path opts).run.run fs = (fs', .ok p)) :
    ∃ fm fw main, Live R.xxh (createdState opts) path p fs' fm fw main [] := by
  obtain ⟨hv, hv', hps⟩ := valid_of_create h
  cases hn : fs.names path with
  | some f =>
      have hexec : Fs.exec fs (.openFile path .createNew) = (fs, .error .alreadyExists) := by
        simp [Fs.exec, hn]
      have hfail : Wpc (Pager.create R path opts).run fs (fun r _ => ∃ e, r = .error e)
          (fun _ => True) := by
        unfold Pager.create
        rw [if_neg (by omega)]
        refine Io.wpc_ofExcept
          (a := (createdState { opts with formatVersion := FORMAT_VERSION }).header)
          (by simp [Header.new, hps, createdState, Committed.fresh]) ?_
        refine Io.wpc_ofCall (Io.wpc_call trivial (fun _ => False.elim) ?_ trivial)
        rw [hexec]
        exact ⟨⟨_, rfl⟩, trivial⟩
      obtain ⟨e, he⟩ := hfail.1
      rw [h] at he
      cases he
  | none =>
      obtain ⟨p', hp', hlive⟩ := (wpc_create (R := R) hfs hv hv' hps hn).1
      rw [h] at hp' hlive
      cases hp'
      exact hlive

end Create

/-! ## Power failures -/

/-- A power failure with ideal checksums. -/
def Crash (R : Runtime) (fs fs' : Fs) : Prop :=
  PowerFail fs fs' ∧ ∀ f, IdealChecksums R.xxh (fs.files f) (fs'.files f).current

/-- What a power failure leaves is a store at rest, in one of the states it may be in. -/
theorem CrashOk.atRest {R : Runtime} {P : Committed → Prop} {path : Path} {fs fs' : Fs}
    (h : CrashOk R.xxh P path fs) (hc : Crash R fs fs') :
    ∃ c fm main wal, P c ∧ AtRest R.xxh c path fs' fm main wal := by
  obtain ⟨fm, hname, hlt, hwal, hdisk⟩ := h
  obtain ⟨⟨hnames, hnext, _, _, hlocks, hfiles⟩, hideal⟩ := hc
  obtain ⟨main, hmain, hmain'⟩ := hfiles fm
  obtain ⟨wal, hwals, hwal', hwali⟩ : ∃ wal, (walFile path fs).Survives wal ∧
      walFile path fs' = File.clean wal ∧ IdealChecksums R.xxh (walFile path fs) wal := by
    cases hn : fs.names (walPathFor path) with
    | some fw =>
        obtain ⟨wal, hw, hw'⟩ := hfiles fw
        have hi : IdealChecksums R.xxh (fs.files fw) wal := by
          have := hideal fw
          rwa [hw'] at this
        refine ⟨wal, ?_, ?_, ?_⟩
        · simpa [walFile, hn] using hw
        · simpa [walFile, hnames, hn] using hw'
        · simpa [walFile, hn] using hi
    | none =>
        refine ⟨[], ?_, ?_, ?_⟩
        · simp only [walFile, hn]
          exact File.clean_survives []
        · simp [walFile, hnames, hn, File.clean]
        · intro header k hd
          cases hd
  obtain ⟨c, hP, hr⟩ := hdisk.diskOk main wal hmain hwals hwali
  refine ⟨c, fm, main, wal, hP, hnames ▸ hname, hnext ▸ hlt, ?_, hlocks fm, hmain', hwal', hr⟩
  rw [hnames, hnext]
  exact hwal

/-- A power failure that loses everything not yet synced. -/
theorem crash_to_synced (R : Runtime) (fs : Fs) : ∃ fs', Crash R fs fs' := by
  refine ⟨{ fs with
    files := fun f => File.clean (fs.files f).synced
    handles := fun _ => none
    locks := fun _ => none }, ⟨rfl, rfl, rfl, fun _ => rfl, fun _ => rfl, ?_⟩, ?_⟩
  · intro f
    refine ⟨(fs.files f).synced, ⟨(fs.files f).current, mixes_left _ _, ?_⟩, rfl⟩
    cases (fs.files f).cut with
    | none => exact mixes_left _ _
    | some cut => exact Or.inl (mixes_left _ _)
  · intro f header k _ _
    exact ⟨(fs.files f).synced, Or.inl rfl, rfl⟩

/-! ## States that read the same -/

section Same

variable {H : Xxh3} {c c' : Committed}

/-- The header and every page of the two states are the same. -/
def Committed.Same (H : Xxh3) (c c' : Committed) : Prop :=
  c.header = c'.header ∧ ∀ n, n < c.header.pageCount → c.image H n = c'.image H n

/-- Being well formed does not depend on the bytes that no page shows. -/
theorem Committed.Wf.same (h : c.Wf H) (hs : c.Same H c') : c'.Wf H := by
  refine ⟨hs.1 ▸ h.header, ?_⟩
  intro n h0 hn
  have hn' : n < c.header.pageCount := by rw [hs.1]; exact hn
  have himg : c.pages n = c'.pages n := by
    have := hs.2 n hn'
    simpa [Committed.image, Nat.ne_of_gt h0] using this
  rw [← himg, ← hs.1]
  exact h.page n h0 hn'

/-- Neither does what a pager keeps. -/
theorem Live.same {path : Path} {p : Pager} {fs : Fs} {fm fw : Nat} {main log : Bytes}
    (h : Live H c path p fs fm fw main log) (hs : c.Same H c') :
    Live H c' path p fs fm fw main log := by
  obtain ⟨hheader, himage⟩ := hs
  have hmain : MainOk H c' p.walIndex main := by
    refine ⟨hheader ▸ h.mainOk.peek, ?_⟩
    intro n hn hf
    rw [← hheader] at hn ⊢
    rw [← himage n hn]
    exact h.mainOk.pages n hn hf
  have hview : LogView H c' log p.walIndex := by
    have himages : ∀ e ∈ p.walIndex, e.1 < c'.header.pageCount ∧
        slice log e.2 c'.header.pageSize = some (c'.image H e.1) := by
      intro e he
      obtain ⟨h1, h2⟩ := h.view.images e he
      rw [← hheader, ← himage e.1 h1]
      exact ⟨h1, h2⟩
    refine ⟨hheader ▸ h.view.scan, h.view.sorted, himages, fun hne => ?_⟩
    have hchain := h.view.chain hne
    refine hchain.replace hheader ⟨h.storable.wf.same ⟨hheader, himage⟩, ?_, hchain.holds.header⟩
    rw [← h.view.index_eq]
    exact himages
  exact
    { h with
      storable := ⟨h.storable.wf.same ⟨hheader, himage⟩, hheader ▸ h.storable.fits⟩
      header := h.header.trans hheader
      pageSize := by rw [h.pageSize, hheader]
      mainOk := hmain
      view := hview }

/-- A pager returns the header and the pages of `c`. -/
def Shows (R : Runtime) (p : Pager) (fs : Fs) (c : Committed) : Prop :=
  p.header = c.header ∧ ∀ n, (p.readPage R n).run.run fs = (fs, c.readPage R.xxh n)

/-- A pager shows one state. -/
theorem same_of_shows {R : Runtime} {p : Pager} {fs : Fs} (hc : c.Wf R.xxh)
    (h : Shows R p fs c) (h' : Shows R p fs c') : c.Same R.xxh c' := by
  have hheader : c.header = c'.header := h.1.symm.trans h'.1
  refine ⟨hheader, ?_⟩
  intro n hn
  have hread : c.readPage R.xxh n = c'.readPage R.xxh n := by
    have := (h.2 n).symm.trans (h'.2 n)
    exact congrArg Prod.snd this
  rw [hc.readPage_eq hn, Committed.readPage, if_neg (by rw [← hheader]; omega)] at hread
  split_ifs at hread
  exact Except.ok.inj hread

end Same

/-! ## Histories -/

/-- What a history has promised: the state after the last commit that returned
`Ok`, and the transaction whose commit did not get to return. -/
structure Expected where
  last : Committed
  inFlight : Option Committed := none

/-- The states the next opening may show. -/
def Expected.Allows (e : Expected) (c : Committed) : Prop := c = e.last ∨ e.inFlight = some c

def Expected.afterCommit (e : Expected) (c : Committed) : Except Error Nat → Expected
  | .ok _ => { last := c }
  | .error _ => { e with inFlight := some c }

/-- The transaction that a pager, running in the promised state, builds by `ops`. -/
def Pager.transact (R : Runtime) (p : Pager) (e : Expected) (ops : List TxnOp) : Txn :=
  (Txn.begin { header := p.header, pages := e.last.pages }).performs R.xxh ops

/-- The runs of a store. Page offsets are 64-bit numbers, so no transaction
commits more pages than these can address. -/
inductive History (R : Runtime) (path : Path) : Fs → Option Pager → Expected → Prop where
  | create {fs fs' : Fs} {opts : PagerOptions} {p : Pager} : fs.Wf →
      (Pager.create R path opts).run.run fs = (fs', .ok p) →
      History R path fs' (some p) { last := createdState opts }
  | rollback {fs : Fs} {p : Pager} {e : Expected} (ops : List TxnOp) :
      History R path fs (some p) e → History R path fs (some p) e
  | commit {fs fs' : Fs} {p p' : Pager} {e : Expected} {t : Txn} {r : Except Error Nat}
      (ops : List TxnOp) (salt : UInt64) : History R path fs (some p) e →
      t = p.transact R e ops → t.pageCount * t.pageSize ≤ 2 ^ 64 →
      (p.commitTxn R salt t.dirty t.pageCount t.pending).run fs = (fs', p', r) →
      History R path fs' (some p') (e.afterCommit t.commit r)
  | commitCrash {fs fs' fs'' : Fs} {p : Pager} {e : Expected} {t : Txn}
      (ops : List TxnOp) (salt : UInt64) : History R path fs (some p) e →
      t = p.transact R e ops → t.pageCount * t.pageSize ≤ 2 ^ 64 →
      Prog.Interrupt (p.commitTxn R salt t.dirty t.pageCount t.pending) fs fs' →
      Crash R fs' fs'' → History R path fs'' none { e with inFlight := some t.commit }
  | checkpoint {fs fs' : Fs} {p p' : Pager} {e : Expected} {r : Except Error Unit} :
      History R path fs (some p) e → (p.checkpoint R).run fs = (fs', p', r) →
      History R path fs' (some p') e
  | checkpointCrash {fs fs' fs'' : Fs} {p : Pager} {e : Expected} :
      History R path fs (some p) e → Prog.Interrupt (p.checkpoint R) fs fs' →
      Crash R fs' fs'' → History R path fs'' none e
  | close {fs fs' : Fs} {p : Pager} {e : Expected} {r : Except Error Unit} :
      History R path fs (some p) e → (p.close R).run.run fs = (fs', r) →
      History R path fs' none e
  | closeCrash {fs fs' fs'' : Fs} {p : Pager} {e : Expected} :
      History R path fs (some p) e → Prog.Interrupt (p.close R).run fs fs' →
      Crash R fs' fs'' → History R path fs'' none e
  | drop {fs fs' : Fs} {p : Pager} {e : Expected} {r : Except Error Unit} :
      History R path fs (some p) e → p.drop.run.run fs = (fs', r) → History R path fs' none e
  | dropCrash {fs fs' fs'' : Fs} {p : Pager} {e : Expected} :
      History R path fs (some p) e → Prog.Interrupt p.drop.run fs fs' →
      Crash R fs' fs'' → History R path fs'' none e
  | reopen {fs fs' : Fs} {opts : PagerOptions} {p : Pager} {e : Expected} {c : Committed} :
      History R path fs none e → (Pager.openStore R path opts).run.run fs = (fs', .ok p) →
      e.Allows c → Shows R p fs' c → History R path fs' (some p) { last := c }
  | reopenCrash {fs fs' fs'' : Fs} {opts : PagerOptions} {e : Expected} :
      History R path fs none e → Prog.Interrupt (Pager.openStore R path opts).run fs fs' →
      Crash R fs' fs'' → History R path fs'' none e

/-- The invariant of a history. -/
def Kept (R : Runtime) (path : Path) (fs : Fs) (e : Expected) : Option Pager → Prop
  | some p => e.inFlight = none ∧ ∃ fm fw main log, Live R.xxh e.last path p fs fm fw main log
  | none => ∃ c fm main wal, e.Allows c ∧ AtRest R.xxh c path fs fm main wal

/-- The calls of a pager that commit nothing, and the power failures inside them. -/
inductive Quiet (R : Runtime) (path : Path) : Fs → Option Pager → Fs → Option Pager → Prop where
  | checkpoint {fs fs' : Fs} {p p' : Pager} {r : Except Error Unit} :
      (p.checkpoint R).run fs = (fs', p', r) → Quiet R path fs (some p) fs' (some p')
  | checkpointCrash {fs fs' fs'' : Fs} {p : Pager} :
      Prog.Interrupt (p.checkpoint R) fs fs' → Crash R fs' fs'' → Quiet R path fs (some p) fs'' none
  | close {fs fs' : Fs} {p : Pager} {r : Except Error Unit} :
      (p.close R).run.run fs = (fs', r) → Quiet R path fs (some p) fs' none
  | closeCrash {fs fs' fs'' : Fs} {p : Pager} :
      Prog.Interrupt (p.close R) fs fs' → Crash R fs' fs'' → Quiet R path fs (some p) fs'' none
  | drop {fs fs' : Fs} {p : Pager} {r : Except Error Unit} :
      p.drop.run.run fs = (fs', r) → Quiet R path fs (some p) fs' none
  | dropCrash {fs fs' fs'' : Fs} {p : Pager} :
      Prog.Interrupt p.drop.run fs fs' → Crash R fs' fs'' → Quiet R path fs (some p) fs'' none
  | reopenCrash {fs fs' fs'' : Fs} {opts : PagerOptions} :
      Prog.Interrupt (Pager.openStore R path opts).run fs fs' → Crash R fs' fs'' → Quiet R path fs none fs'' none

section History

variable {R : Runtime} {path : Path} {fs fs' : Fs} {e : Expected} {p : Pager}

/-- A running pager shows its state. -/
theorem Live.shows {c : Committed} {fm fw : Nat} {main log : Bytes}
    (h : Live R.xxh c path p fs fm fw main log) : Shows R p fs c :=
  ⟨h.header, h.readPage⟩

/-- A transaction of a running pager is well formed over its state. -/
theorem Live.transact {fm fw : Nat} {main log : Bytes}
    (h : Live R.xxh e.last path p fs fm fw main log) (ops : List TxnOp) :
    (p.transact R e ops).Wf R.xxh ∧ (p.transact R e ops).base = e.last := by
  have hbase : ({ header := p.header, pages := e.last.pages } : Committed) = e.last := by
    rw [h.header]
  unfold Pager.transact
  rw [hbase]
  exact Txn.performs_wf (Txn.wf_begin h.storable.wf) ops

/-- What a power failure leaves keeps the promise. -/
theorem kept_of_crashOk {P : Committed → Prop} (hc : CrashOk R.xxh P path fs)
    (hcrash : Crash R fs fs') (hP : ∀ c, P c → e.Allows c) : Kept R path fs' e none := by
  obtain ⟨c, fm, main, wal, h1, h2⟩ := hc.atRest hcrash
  exact ⟨c, fm, main, wal, hP c h1, h2⟩

/-- A call that commits nothing keeps what was promised. -/
theorem Kept.quiet {pager pager' : Option Pager} (h : Kept R path fs e pager) (hquiet : Quiet R path fs pager fs' pager') :
    Kept R path fs' e pager' := by
  cases hquiet with
  | checkpoint hrun =>
      rcases h with ⟨hnone, fm, fw, main, log, hlive⟩
      rcases (wpc_checkpoint hlive).1 with ⟨_, main', hnew⟩
      rw [hrun] at hnew
      exact ⟨hnone, fm, fw, main', [], hnew⟩
  | checkpointCrash hint hcrash =>
      rcases h with ⟨_, fm, fw, main, log, hlive⟩
      exact kept_of_crashOk ((wpc_checkpoint hlive).2 _ hint) hcrash fun c hc => Or.inl hc
  | close hrun =>
      rcases h with ⟨_, fm, fw, main, log, hlive⟩
      rcases (wpc_close hlive).1 with ⟨_, _, main', hrest⟩
      rw [hrun] at hrest
      exact ⟨_, fm, main', [], Or.inl rfl, hrest⟩
  | closeCrash hint hcrash =>
      rcases h with ⟨_, fm, fw, main, log, hlive⟩
      exact kept_of_crashOk ((wpc_close hlive).2 _ hint) hcrash fun c hc => Or.inl hc
  | drop hrun =>
      rcases h with ⟨_, fm, fw, main, log, hlive⟩
      rcases (wpc_drop hlive).1 with ⟨_, _, hrest⟩
      rw [hrun] at hrest
      exact ⟨_, fm, main, log, Or.inl rfl, hrest⟩
  | dropCrash hint hcrash =>
      rcases h with ⟨_, fm, fw, main, log, hlive⟩
      exact kept_of_crashOk ((wpc_drop hlive).2 _ hint) hcrash fun c hc => Or.inl hc
  | reopenCrash hint hcrash =>
      rcases h with ⟨c, fm, main, wal, hc, hrest⟩
      exact kept_of_crashOk ((wpc_openStore hrest _).2 _ hint) hcrash fun x hx => hx ▸ hc

/-- Every history keeps its promises. -/
theorem History.kept {pager : Option Pager} (h : History R path fs pager e) :
    Kept R path fs e pager := by
  induction h with
  | create hfs hrun =>
      obtain ⟨fm, fw, main, hlive⟩ := live_of_create hfs hrun
      exact ⟨rfl, fm, fw, main, [], hlive⟩
  | rollback ops _ ih => exact ih
  | @commit fs fs' p p' e t r ops salt _ ht hfits hrun ih =>
      obtain ⟨_, fm, fw, main, log, hlive⟩ := ih
      obtain ⟨hwf, hbase⟩ := hlive.transact ops
      subst ht
      obtain ⟨hid, main', log', hnew⟩ :=
        (wpc_commitTxn (hbase ▸ hlive) hwf hfits salt).1
      rw [hrun] at hid hnew
      simp only at hid hnew
      subst hid
      exact ⟨rfl, fm, fw, main', log', hnew⟩
  | @commitCrash fs fs' fs'' p e t ops salt _ ht hfits hint hcrash ih =>
      obtain ⟨_, fm, fw, main, log, hlive⟩ := ih
      obtain ⟨hwf, hbase⟩ := hlive.transact ops
      subst ht
      -- cut anywhere, the disk holds the pages before the commit or those after it
      refine kept_of_crashOk ((wpc_commitTxn (hbase ▸ hlive) hwf hfits salt).2 _ hint) hcrash ?_
      rintro c (rfl | rfl)
      · exact Or.inl hbase
      · exact Or.inr rfl
  | checkpoint _ hrun ih => exact ih.quiet (.checkpoint hrun)
  | checkpointCrash _ hint hcrash ih => exact ih.quiet (.checkpointCrash hint hcrash)
  | close _ hrun ih => exact ih.quiet (.close hrun)
  | closeCrash _ hint hcrash ih => exact ih.quiet (.closeCrash hint hcrash)
  | drop _ hrun ih => exact ih.quiet (.drop hrun)
  | dropCrash _ hint hcrash ih => exact ih.quiet (.dropCrash hint hcrash)
  | @reopen fs fs' opts p e c _ hrun _ hshows ih =>
      obtain ⟨c', fm, main, wal, _, hrest⟩ := ih
      obtain ⟨p', hp', fw, b, hlive⟩ := (wpc_openStore hrest opts).1
      rw [hrun] at hp' hlive
      cases hp'
      exact ⟨rfl, fm, fw, b, [], hlive.same (same_of_shows hlive.storable.wf hlive.shows hshows)⟩
  | reopenCrash _ hint hcrash ih => exact ih.quiet (.reopenCrash hint hcrash)

/-- After any history, power failures included, opening the store succeeds and
shows exactly the state after the last commit that returned `Ok`, or that state
plus the whole transaction whose commit was in flight. -/
theorem open_recovers_committed (h : History R path fs none e) (opts : PagerOptions) :
    ∃ fs' p c, (Pager.openStore R path opts).run.run fs = (fs', .ok p) ∧ e.Allows c ∧
      p.header = c.header ∧
      (∀ n, n < c.header.pageCount → (p.readPage R n).run.run fs' = (fs', .ok (c.image R.xxh n))) ∧
      ∀ n, c.header.pageCount ≤ n →
        (p.readPage R n).run.run fs' = (fs', .error (.pageOutOfBounds n c.header.pageCount)) := by
  obtain ⟨c, fm, main, wal, hc, hrest⟩ := h.kept
  obtain ⟨p, hp, fw, b, hlive⟩ := (wpc_openStore hrest opts).1
  refine ⟨_, p, c, Prod.ext rfl hp, hc, hlive.header, ?_, ?_⟩
  · intro n hn
    rw [hlive.readPage n, hlive.storable.wf.readPage_eq hn]
  · intro n hn
    rw [hlive.readPage n, Committed.readPage, if_pos hn]

/-- A runtime whose hashes are constant and whose maps iterate in key order. -/
def Runtime.plain : Runtime where
  xxh := { xxh3_64 := fun _ => 0, withSeed := fun _ _ => 0 }
  hashOrder := id
  hashOrder_perm := fun l => List.Perm.refl l

theorem Fs.wf_empty : Fs.empty.Wf := by
  constructor <;> simp [Fs.empty]

/-- The transaction that a running pager makes of some calls. -/
def nextTxn (R : Runtime) (s : Fs × Pager × Committed) (ops : List TxnOp) : Txn := s.2.1.transact R { last := s.2.2 } ops

def commitNext (R : Runtime) (s : Fs × Pager × Committed) (ops : List TxnOp) : Prog vfs (Pager × Except Error Nat) :=
  s.2.1.commitTxn R 7 (nextTxn R s ops).dirty (nextTxn R s ops).pageCount (nextTxn R s ops).pending

/-- One more transaction, committed. -/
def commitOps (R : Runtime) (s : Fs × Pager × Committed) (ops : List TxnOp) : Option (Fs × Pager × Committed) :=
  if (nextTxn R s ops).pageCount * (nextTxn R s ops).pageSize ≤ 2 ^ 64 then
    some (((commitNext R s ops).run s.1).1, ((commitNext R s ops).run s.1).2.1, (nextTxn R s ops).commit)
  else none

/-- A new store of the smallest page size, after some transactions. -/
def storeAfter (R : Runtime) (path : Path) (txns : List (List TxnOp)) : Option (Fs × Pager × Committed) :=
  match (Pager.create R path { pageSize := 512 }).run.run Fs.empty with
  | (fs, .ok p) => txns.foldlM (commitOps R) (fs, p, createdState { pageSize := 512 })
  | (_, .error _) => none

/-- A transaction goes on with the history. -/
theorem History.commitOps {s s' : Fs × Pager × Committed} {ops : List TxnOp}
    (h : History R path s.1 (some s.2.1) { last := s.2.2 }) (hs : EmbedMind.commitOps R s ops = some s') :
    History R path s'.1 (some s'.2.1) { last := s'.2.2 } := by
  unfold EmbedMind.commitOps at hs
  split at hs
  · rename_i hfits
    cases hs
    rcases h.kept with ⟨_, fm, fw, main, log, hlive⟩
    rcases hlive.transact ops with ⟨hwf, hbase⟩
    have hok := (wpc_commitTxn (hbase ▸ hlive) hwf hfits 7).1.1
    have hrun : (commitNext R s ops).run s.1 = (((commitNext R s ops).run s.1).1, ((commitNext R s ops).run s.1).2.1,
        .ok (nextTxn R s ops).commit.header.txnCounter) := Prod.ext rfl (Prod.ext rfl hok)
    exact History.commit ops 7 h rfl hfits hrun
  · cases hs

/-- The transactions of a new store are a history. -/
theorem History.storeAfter {txns : List (List TxnOp)} {s : Fs × Pager × Committed}
    (h : EmbedMind.storeAfter R path txns = some s) : History R path s.1 (some s.2.1) { last := s.2.2 } := by
  unfold EmbedMind.storeAfter at h
  split at h
  · rename_i fs p hrun
    have hcreated : History R path fs (some p) { last := createdState { pageSize := 512 } } := .create Fs.wf_empty hrun
    have hfold : ∀ (txns : List (List TxnOp)) (s₀ : Fs × Pager × Committed),
        History R path s₀.1 (some s₀.2.1) { last := s₀.2.2 } → txns.foldlM (EmbedMind.commitOps R) s₀ = some s →
        History R path s.1 (some s.2.1) { last := s.2.2 } := by
      intro txns
      induction txns with
      | nil =>
          intro s₀ h₀ hrun
          cases hrun
          exact h₀
      | cons ops txns ih =>
          intro s₀ h₀ hrun
          rw [List.foldlM_cons] at hrun
          rcases Option.bind_eq_some_iff.mp hrun with ⟨s₁, hfirst, hrest⟩
          exact ih s₁ (h₀.commitOps hfirst) hrest
    exact hfold txns _ hcreated h
  · cases h

/-- One page of sevens. -/
def pageOps : List TxnOp := [.allocatePage, .writePage 1 (List.replicate 512 7)]

/-- What is in the log, written through or not. -/
def logLength (path : Path) (fs : Fs) : Nat := (walFile path fs).current.length

/-- A page has been committed; the power fails inside the append of the next transaction, behind its first write. -/
theorem open_recovers_committed_cut_append :
    ∃ s fs', storeAfter Runtime.plain "memory.mind" [pageOps] = some s ∧ s.2.2.header.txnCounter = 1 ∧
      logLength "memory.mind" s.1 < logLength "memory.mind" ((commitNext Runtime.plain s pageOps).cutAfter 1 s.1) ∧
      logLength "memory.mind" ((commitNext Runtime.plain s pageOps).cutAfter 1 s.1) <
        logLength "memory.mind" ((commitNext Runtime.plain s pageOps).run s.1).1 ∧
      Crash Runtime.plain ((commitNext Runtime.plain s pageOps).cutAfter 1 s.1) fs' ∧
      History Runtime.plain "memory.mind" fs' none { last := s.2.2, inFlight := some (nextTxn Runtime.plain s pageOps).commit } ∧
      ∃ fs'' p c, (Pager.openStore Runtime.plain "memory.mind" {}).run.run fs' = (fs'', .ok p) ∧
        Expected.Allows { last := s.2.2, inFlight := some (nextTxn Runtime.plain s pageOps).commit } c ∧ p.header = c.header ∧
        (∀ n, n < c.header.pageCount →
          (p.readPage Runtime.plain n).run.run fs'' = (fs'', .ok (c.image Runtime.plain.xxh n))) ∧
        ∀ n, c.header.pageCount ≤ n → (p.readPage Runtime.plain n).run.run fs'' =
          (fs'', .error (.pageOutOfBounds n c.header.pageCount)) := by
  have hall : ((storeAfter Runtime.plain "memory.mind" [pageOps]).any fun s =>
      decide (s.2.2.header.txnCounter = 1 ∧
        logLength "memory.mind" s.1 < logLength "memory.mind" ((commitNext Runtime.plain s pageOps).cutAfter 1 s.1) ∧
        logLength "memory.mind" ((commitNext Runtime.plain s pageOps).cutAfter 1 s.1) <
          logLength "memory.mind" ((commitNext Runtime.plain s pageOps).run s.1).1 ∧
        (nextTxn Runtime.plain s pageOps).pageCount * (nextTxn Runtime.plain s pageOps).pageSize ≤ 2 ^ 64)) = true := by
    decide +kernel
  rcases (Option.any_eq_true _ _).mp hall with ⟨s, hs, hfacts⟩
  rcases of_decide_eq_true hfacts with ⟨hcounter, hstarted, hunfinished, hfits⟩
  rcases crash_to_synced Runtime.plain ((commitNext Runtime.plain s pageOps).cutAfter 1 s.1) with ⟨fs', hcrash⟩
  have hcut := History.commitCrash pageOps 7 (History.storeAfter hs) rfl hfits (Prog.interrupt_cutAfter 1 _ _) hcrash
  exact ⟨s, fs', hs, hcounter, hstarted, hunfinished, hcrash, hcut, open_recovers_committed hcut {}⟩

end History

end EmbedMind
