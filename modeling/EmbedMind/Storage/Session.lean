import EmbedMind.Storage.History

/-!
# What a running pager shows

The calls of one process on its pager and on its open transaction, as the code
computes them over the two files (`Session.Step`), and what they are for
(`Model.step`): a map from page numbers to images, a draft of it while a transaction
is open, and a counter. The pager's answers are the model's (`Session.Run.simulates`)
wherever the pages happen to live. `Tally` reads off a trace which pages were handed
out and which ids were given by the transactions that committed.
-/

namespace EmbedMind

open Lib Lib.Assoc

/-! ## The calls -/

inductive Call where
  | header
  | readPage (pageNo : Nat)
  | checkpoint
  | begin
  | txnReadPage (pageNo : Nat)
  | txnOp (op : TxnOp)
  | commit (salt : UInt64)
  | drop

inductive Answer where
  | header (h : Header)
  | page (r : Except Error Bytes)
  | done (r : Except Error Unit)
  | did (r : Except Error (Option Nat))
  | committed (r : Except Error Nat)
  | dropped

/-- What a call on a transaction returns; `allocate_page` returns a page number. -/
def TxnOp.result (H : Xxh3) (t : Txn) : TxnOp → Except Error (Option Nat)
  | .allocatePage => (t.allocatePage H).map fun r => some r.1
  | .writePage pageNo data => (t.writePage H pageNo data).map fun _ => none
  | .setEmbeddingModel modelId dims => (t.setEmbeddingModel modelId dims.toNat).map fun _ => none
  | _ => .ok none

/-- `Pager::begin`. The buffer starts empty; what the transaction does not find in it,
it reads from the pager. -/
def Pager.begin (p : Pager) : Except Error Txn :=
  if p.broken then .error Pager.failedState
  else .ok (Txn.begin { header := p.header, pages := fun _ => [] })

/-- `Txn::read_page`: the buffer, else the pager. -/
def Txn.readThrough (R : Runtime) (p : Pager) (t : Txn) (pageNo : Nat) : Io Bytes :=
  match find pageNo t.dirty with
  | some page => pure page
  | none =>
      if t.pageCount ≤ pageNo then throw (.pageOutOfBounds pageNo t.pageCount)
      else p.readPage R pageNo

/-- A process with an open store; while a transaction is open it borrows the pager. -/
structure Session where
  pager : Pager
  txn : Option Txn := none

/-- One call. Page offsets are 64-bit numbers, so no transaction commits more pages
than these can address. -/
inductive Session.Step (R : Runtime) : Fs → Session → Call → Answer → Fs → Session → Prop where
  | header {fs : Fs} {p : Pager} : Step R fs ⟨p, none⟩ .header (.header p.header) fs ⟨p, none⟩
  | readPage {fs fs' : Fs} {p : Pager} {n : Nat} {r : Except Error Bytes} :
      (p.readPage R n).run.run fs = (fs', r) →
      Step R fs ⟨p, none⟩ (.readPage n) (.page r) fs' ⟨p, none⟩
  | checkpoint {fs fs' : Fs} {p p' : Pager} {r : Except Error Unit} :
      (p.checkpoint R).run fs = (fs', p', r) →
      Step R fs ⟨p, none⟩ .checkpoint (.done r) fs' ⟨p', none⟩
  | begin {fs : Fs} {p : Pager} {t : Txn} : p.begin = .ok t →
      Step R fs ⟨p, none⟩ .begin (.done (.ok ())) fs ⟨p, some t⟩
  | refused {fs : Fs} {p : Pager} {err : Error} : p.begin = .error err →
      Step R fs ⟨p, none⟩ .begin (.done (.error err)) fs ⟨p, none⟩
  | txnReadPage {fs fs' : Fs} {p : Pager} {t : Txn} {n : Nat} {r : Except Error Bytes} :
      (t.readThrough R p n).run.run fs = (fs', r) →
      Step R fs ⟨p, some t⟩ (.txnReadPage n) (.page r) fs' ⟨p, some t⟩
  | txnOp {fs : Fs} {p : Pager} {t : Txn} (op : TxnOp) :
      Step R fs ⟨p, some t⟩ (.txnOp op) (.did (op.result R.xxh t)) fs ⟨p, some (op.apply R.xxh t)⟩
  | commit {fs fs' : Fs} {p p' : Pager} {t : Txn} {r : Except Error Nat} (salt : UInt64) :
      t.pageCount * p.header.pageSize ≤ 2 ^ 64 →
      (p.commitTxn R salt t.dirty t.pageCount t.pending).run fs = (fs', p', r) →
      Step R fs ⟨p, some t⟩ (.commit salt) (.committed r) fs' ⟨p', none⟩
  | drop {fs : Fs} {p : Pager} {t : Txn} : Step R fs ⟨p, some t⟩ .drop .dropped fs ⟨p, none⟩

/-- A sequence of calls with their answers. -/
inductive Session.Run (R : Runtime) : Fs → Session → List (Call × Answer) → Fs → Session → Prop where
  | nil {fs : Fs} {s : Session} : Run R fs s [] fs s
  | cons {fs fs' fs'' : Fs} {s s' s'' : Session} {call : Call} {answer : Answer}
      {rest : List (Call × Answer)} : Session.Step R fs s call answer fs' s' →
      Run R fs' s' rest fs'' s'' → Run R fs s ((call, answer) :: rest) fs'' s''

/-! ## What the calls are for -/

/-- The pages as an open transaction has made them so far. -/
structure Draft where
  pageCount : Nat
  image : Nat → Bytes
  pending : PendingHeader := {}
  touched : Bool := false

/-- The last committed state, and the draft of the open transaction. -/
structure Model where
  committed : Committed
  draft : Option Draft := none

namespace Draft

variable (H : Xxh3) (pageSize : Nat)

def begin (c : Committed) : Draft := { pageCount := c.header.pageCount, image := c.image H }

/-- One more page, zeroed. -/
def allocatePage (d : Draft) : Draft × Except Error (Option Nat) :=
  if d.pageCount + 1 < 2 ^ 64 then
    ({ d with
       pageCount := d.pageCount + 1
       image := Function.update d.image d.pageCount (stampPageChecksum H (List.replicate pageSize 0))
       touched := true }, .ok (some d.pageCount))
  else (d, .error (.invalidArgument "page count overflow"))

def writePage (d : Draft) (pageNo : Nat) (data : Bytes) : Draft × Except Error (Option Nat) :=
  if data.length ≠ pageSize then (d, .error (.invalidArgument "page write must be exactly one page"))
  else if pageNo = 0 then (d, .error (.invalidArgument "page 0 (header) is managed by the pager"))
  else if d.pageCount ≤ pageNo then (d, .error (.pageOutOfBounds pageNo d.pageCount))
  else ({ d with image := Function.update d.image pageNo (stampPageChecksum H data), touched := true },
    .ok none)

/-- A header field that the commit will move. -/
def move (d : Draft) (f : PendingHeader → PendingHeader) : Draft × Except Error (Option Nat) :=
  ({ d with pending := f d.pending, touched := true }, .ok none)

def perform (d : Draft) : TxnOp → Draft × Except Error (Option Nat)
  | .allocatePage => d.allocatePage H pageSize
  | .writePage pageNo data => d.writePage H pageSize pageNo data
  | .setRootBtreePage n => d.move fun p => { p with rootBtree := some n.toNat }
  | .setHnswMetaPage n => d.move fun p => { p with hnswMeta := some n.toNat }
  | .setFtsRootPage n => d.move fun p => { p with ftsRoot := some n.toNat }
  | .setGraphRootPage n => d.move fun p => { p with graphRoot := some n.toNat }
  | .setFilterMetaPage n => d.move fun p => { p with filterMeta := some n.toNat }
  | .setFilterSymbolsPage n => d.move fun p => { p with filterSymbols := some n.toNat }
  | .setEmbeddingModel modelId dims =>
      if MAX_MODEL_ID_LEN < (utf8 modelId).length then
        (d, .error (.invalidArgument "embedding_model_id exceeds 64 bytes"))
      else d.move fun p => { p with embedding := some (modelId, dims.toNat) }

def readPage (d : Draft) (pageNo : Nat) : Except Error Bytes :=
  if pageNo < d.pageCount then .ok (d.image pageNo) else .error (.pageOutOfBounds pageNo d.pageCount)

/-- The state a draft commits to: nothing moves unless the transaction did something. -/
def commit (d : Draft) (c : Committed) : Committed :=
  if d.touched then { header := d.pending.apply c.header d.pageCount, pages := d.image } else c

end Draft

namespace Model

/-- The image of a committed page. -/
def readPage (H : Xxh3) (c : Committed) (pageNo : Nat) : Except Error Bytes :=
  if pageNo < c.header.pageCount then .ok (c.image H pageNo)
  else .error (.pageOutOfBounds pageNo c.header.pageCount)

/-- One call on the model. Calls that the borrow of the pager rules out have no answer. -/
def step (H : Xxh3) (m : Model) (call : Call) : Option (Model × Answer) :=
  match call, m.draft with
  | .header, none => some (m, .header m.committed.header)
  | .readPage n, none => some (m, .page (readPage H m.committed n))
  | .checkpoint, none => some (m, .done (.ok ()))
  | .begin, none =>
      some ({ m with draft := some (Draft.begin H m.committed) }, .done (.ok ()))
  | .txnReadPage n, some d => some (m, .page (d.readPage n))
  | .txnOp op, some d =>
      some ({ m with draft := some (d.perform H m.committed.header.pageSize op).1 },
        .did (d.perform H m.committed.header.pageSize op).2)
  | .commit _, some d =>
      some ({ committed := d.commit m.committed, draft := none },
        .committed (.ok (d.commit m.committed).header.txnCounter))
  | .drop, some _ => some ({ m with draft := none }, .dropped)
  | _, _ => none

/-- A trace of the model. -/
def run (H : Xxh3) (m : Model) : List Call → Option (Model × List Answer)
  | [] => some (m, [])
  | call :: rest => do
      let (m, answer) ← m.step H call
      let (m, answers) ← m.run H rest
      some (m, answer :: answers)

/-- The commits of a trace keep page offsets within 64 bits. -/
def fits (H : Xxh3) (m : Model) : List Call → Bool
  | [] => true
  | call :: rest =>
      (m.draft.all fun d => decide (d.pageCount * m.committed.header.pageSize ≤ 2 ^ 64)) &&
        (m.step H call).all fun r => r.1.fits H rest

end Model

/-! ## The pager answers as the model does -/

/-- The buffer of a transaction over `c` is the draft. -/
structure DraftOf (H : Xxh3) (c : Committed) (t : Txn) (d : Draft) : Prop where
  wf : ({ t with base := c } : Txn).Wf H
  header : t.base.header = c.header
  pageCount : d.pageCount = t.pageCount
  pending : d.pending = t.pending
  image : ∀ n, d.image n = (find n t.dirty).getD (c.image H n)
  touched : d.touched = !({ t with base := c } : Txn).isEmpty

section Draft

variable {H : Xxh3} {c : Committed} {t : Txn} {d : Draft}

/-- A new transaction is a new draft. -/
theorem draftOf_begin (hc : c.Wf H) (pages : Nat → Bytes) :
    DraftOf H c (Txn.begin { header := c.header, pages }) (Draft.begin H c) where
  wf := Txn.wf_begin hc
  header := rfl
  pageCount := rfl
  pending := rfl
  image := fun _ => rfl
  touched := by simp [Draft.begin, Txn.begin, Txn.isEmpty, PendingHeader.isEmpty]

/-- A buffered page image. -/
theorem DraftOf.insertDirty (h : DraftOf H c t d) {n count : Nat} {page : Bytes}
    (hwf : ({ t with base := c, pageCount := count, dirty := insertKey n page t.dirty } : Txn).Wf H) :
    DraftOf H c { t with pageCount := count, dirty := insertKey n page t.dirty }
      { d with pageCount := count, image := Function.update d.image n page, touched := true } where
  wf := hwf
  header := h.header
  pageCount := rfl
  pending := h.pending
  image := by
    intro m
    rw [find_insertKey]
    by_cases hm : m = n
    · simp [hm]
    · simp [hm, h.image]
  touched := by
    have hne : (insertKey n page t.dirty).isEmpty = false := by
      cases hd : insertKey n page t.dirty with
      | nil =>
          have := find_insertKey_self n page t.dirty
          rw [hd] at this
          cases this
      | cons _ _ => rfl
    simp [Txn.isEmpty, hne]

/-- A moved header field. -/
theorem DraftOf.move (h : DraftOf H c t d) (f : PendingHeader → PendingHeader)
    (hwf : (f t.pending).Wf) (hne : (f t.pending).isEmpty = false) :
    DraftOf H c { t with pending := f t.pending } (d.move f).1 where
  wf := h.wf.withPending hwf
  header := h.header
  pageCount := h.pageCount
  pending := by simp [Draft.move, h.pending]
  image := h.image
  touched := by simp [Draft.move, Txn.isEmpty, hne]

/-- Every call on the transaction. -/
theorem DraftOf.perform (h : DraftOf H c t d) (op : TxnOp) :
    DraftOf H c (op.apply H t) (d.perform H c.header.pageSize op).1 ∧
      op.result H t = (d.perform H c.header.pageSize op).2 := by
  have hps : t.pageSize = c.header.pageSize := by rw [Txn.pageSize, h.header]
  have hlt : ∀ n : UInt64, ∀ m ∈ some n.toNat, m < 2 ^ 64 := by
    rintro n m ⟨⟩
    exact n.toNat_lt
  -- one case for each call a transaction takes; the draft refuses what the code refuses
  have hpend := h.wf.pending
  cases op with
  | allocatePage =>
      by_cases hb : t.pageCount + 1 < 2 ^ 64
      · have hrun : t.allocatePage H = .ok (t.pageCount, { t with
            pageCount := t.pageCount + 1
            dirty := insertKey t.pageCount
              (stampPageChecksum H (List.replicate c.header.pageSize 0)) t.dirty }) := by
          rw [Txn.allocatePage, if_pos hb, hps]
        have hwf := h.wf.allocatePage (if_pos hb)
        simp only [TxnOp.apply, TxnOp.result, hrun, Draft.perform, Draft.allocatePage, h.pageCount, if_pos hb]
        exact ⟨h.insertDirty hwf, rfl⟩
      · have hrun : t.allocatePage H = .error (.invalidArgument "page count overflow") := if_neg hb
        simp only [TxnOp.apply, TxnOp.result, hrun, Draft.perform, Draft.allocatePage, h.pageCount, if_neg hb]
        exact ⟨h, rfl⟩
  | writePage n data =>
      -- the three refusals in the order the code makes them
      by_cases h1 : data.length ≠ c.header.pageSize
      · simp only [TxnOp.apply, TxnOp.result, Txn.writePage, hps, Draft.perform, Draft.writePage, if_pos h1]
        exact ⟨h, rfl⟩
      by_cases h2 : n = 0
      · simp only [TxnOp.apply, TxnOp.result, Txn.writePage, hps, Draft.perform, Draft.writePage, if_neg h1,
          if_pos h2]
        exact ⟨h, rfl⟩
      by_cases h3 : t.pageCount ≤ n
      · simp only [TxnOp.apply, TxnOp.result, Txn.writePage, hps, Draft.perform, Draft.writePage, if_neg h1,
          if_neg h2, h.pageCount, if_pos h3]
        exact ⟨h, rfl⟩
      have hwf := h.wf.writePage ((if_neg h1).trans ((if_neg h2).trans (if_neg h3)))
      have hnew := h.insertDirty hwf
      simp only [TxnOp.apply, TxnOp.result, Txn.writePage, hps, Draft.perform, Draft.writePage, if_neg h1,
        if_neg h2, h.pageCount, if_neg h3]
      exact ⟨hnew, rfl⟩
  | setRootBtreePage n =>
      exact ⟨h.move (fun p => { p with rootBtree := some n.toNat }) { hpend with rootBtree := hlt n }
        (by simp [PendingHeader.isEmpty]), rfl⟩
  | setHnswMetaPage n =>
      exact ⟨h.move (fun p => { p with hnswMeta := some n.toNat }) { hpend with hnswMeta := hlt n }
        (by simp [PendingHeader.isEmpty]), rfl⟩
  | setFtsRootPage n =>
      exact ⟨h.move (fun p => { p with ftsRoot := some n.toNat }) { hpend with ftsRoot := hlt n }
        (by simp [PendingHeader.isEmpty]), rfl⟩
  | setGraphRootPage n =>
      exact ⟨h.move (fun p => { p with graphRoot := some n.toNat }) { hpend with graphRoot := hlt n }
        (by simp [PendingHeader.isEmpty]), rfl⟩
  | setFilterMetaPage n =>
      exact ⟨h.move (fun p => { p with filterMeta := some n.toNat }) { hpend with filterMeta := hlt n }
        (by simp [PendingHeader.isEmpty]), rfl⟩
  | setFilterSymbolsPage n =>
      exact ⟨h.move (fun p => { p with filterSymbols := some n.toNat }) { hpend with filterSymbols := hlt n }
        (by simp [PendingHeader.isEmpty]), rfl⟩
  | setEmbeddingModel id dims =>
      simp only [TxnOp.apply, TxnOp.result, Draft.perform, Txn.setEmbeddingModel]
      split_ifs with hlen
      · exact ⟨h, rfl⟩
      · refine ⟨h.move (fun p => { p with embedding := some (id, dims.toNat) })
          { hpend with embedding := ?_ } (by simp [PendingHeader.isEmpty]), rfl⟩
        rintro e ⟨⟩
        exact ⟨not_lt.mp hlen, dims.toNat_lt⟩

/-- A page is read from the buffer, or else from the state. -/
theorem DraftOf.readPage (h : DraftOf H c t d) (n : Nat) :
    d.readPage n = match find n t.dirty with
      | some page => .ok page
      | none => if t.pageCount ≤ n then .error (.pageOutOfBounds n t.pageCount) else c.readPage H n := by
  unfold Draft.readPage
  rw [h.pageCount, h.image]
  cases hf : find n t.dirty with
  | some page =>
      have hlt : n < t.pageCount := (h.wf.dirty (n, page) (mem_of_find hf)).2.1
      rw [if_pos hlt]
      rfl
  | none =>
      by_cases hn : n < t.pageCount
      · -- not in the buffer, so not new: a page of the committed state
        have hold : n < c.header.pageCount := by
          by_contra hge
          obtain ⟨page, hpage⟩ := h.wf.fresh n (not_lt.mp hge) hn
          have hf' : find n ({ t with base := c } : Txn).dirty = none := hf
          rw [hf'] at hpage
          cases hpage
        rw [if_pos hn]
        simp only [if_neg (not_le.mpr hn), h.wf.base.readPage_eq hold]
        rfl
      · rw [if_neg hn]
        simp only [if_pos (not_lt.mp hn)]

/-- A commit is the commit of the draft. -/
theorem DraftOf.commit (h : DraftOf H c t d) :
    ({ t with base := c } : Txn).commit.Same H (d.commit c) := by
  cases he : ({ t with base := c } : Txn).isEmpty with
  | true =>
      have ht : d.touched = false := by rw [h.touched, he]; rfl
      rw [Txn.commit_of_isEmpty he, Draft.commit, ht]
      exact ⟨rfl, fun _ _ => rfl⟩
  | false =>
      have ht : d.touched = true := by rw [h.touched, he]; rfl
      have hheader : ({ t with base := c } : Txn).commit.header = (d.commit c).header := by
        rw [Txn.commit_header he, Draft.commit, ht, Txn.newHeader]
        simp only [if_true, h.pending, h.pageCount]
      refine ⟨hheader, ?_⟩
      intro n _
      unfold Committed.image
      split
      · rw [hheader]
      · rename_i h0
        rw [Txn.commit_pages he, Draft.commit, ht]
        simp only [if_true, h.image, Committed.image, if_neg h0]

end Draft

/-- The pager runs in the model's committed state, and its transaction is the draft. -/
structure Simulates (R : Runtime) (path : Path) (fs : Fs) (s : Session) (m : Model) : Prop where
  live : ∃ fm fw main log, Live R.xxh m.committed path s.pager fs fm fw main log
  draft : match s.txn, m.draft with
    | none, none => True
    | some t, some d => DraftOf R.xxh m.committed t d
    | _, _ => False

section Simulation

variable {R : Runtime} {path : Path} {fs fs' : Fs} {s s' : Session} {m : Model}

/-- Reading a state is reading its pages. -/
theorem Committed.Wf.readPage_model {H : Xxh3} {c : Committed} (h : c.Wf H) (n : Nat) :
    c.readPage H n = Model.readPage H c n := by
  unfold Model.readPage
  split
  · rename_i hn
    exact h.readPage_eq hn
  · rename_i hn
    rw [Committed.readPage, if_pos (not_lt.mp hn)]

/-- A pager without a transaction. -/
theorem Simulates.idle {p : Pager} (h : Simulates R path fs ⟨p, none⟩ m) :
    ∃ c fm fw main log, m = ⟨c, none⟩ ∧ Live R.xxh c path p fs fm fw main log := by
  obtain ⟨⟨fm, fw, main, log, hlive⟩, hdraft⟩ := h
  obtain ⟨c, draft⟩ := m
  cases draft with
  | none => exact ⟨c, fm, fw, main, log, rfl, hlive⟩
  | some d => exact hdraft.elim

/-- A pager with a transaction. -/
theorem Simulates.busy {p : Pager} {t : Txn} (h : Simulates R path fs ⟨p, some t⟩ m) :
    ∃ c d fm fw main log, m = ⟨c, some d⟩ ∧ DraftOf R.xxh c t d ∧
      Live R.xxh c path p fs fm fw main log := by
  obtain ⟨⟨fm, fw, main, log, hlive⟩, hdraft⟩ := h
  obtain ⟨c, draft⟩ := m
  cases draft with
  | none => exact hdraft.elim
  | some d => exact ⟨c, d, fm, fw, main, log, rfl, hdraft, hlive⟩

/-- Reads through a transaction are reads of the draft. -/
theorem Live.readThrough {c : Committed} {p : Pager} {t : Txn} {d : Draft} {fm fw : Nat} {main log : Bytes}
    (h : Live R.xxh c path p fs fm fw main log) (hd : DraftOf R.xxh c t d) (n : Nat) :
    (t.readThrough R p n).run.run fs = (fs, d.readPage n) := by
  rw [hd.readPage]
  unfold Txn.readThrough
  cases find n t.dirty with
  | some page => rfl
  | none =>
      simp only
      split
      · rfl
      · exact h.readPage n

/-- One call: the model gives the same answer and is simulated again. -/
theorem Session.Step.simulates {call : Call} {answer : Answer} (hstep : Session.Step R fs s call answer fs' s')
    (h : Simulates R path fs s m) :
    ∃ m', m.step R.xxh call = some (m', answer) ∧ Simulates R path fs' s' m' := by
  cases hstep with
  | header =>
      obtain ⟨c, fm, fw, main, log, rfl, hlive⟩ := h.idle
      exact ⟨_, by rw [hlive.header]; rfl, h⟩
  | readPage hrun =>
      obtain ⟨c, fm, fw, main, log, rfl, hlive⟩ := h.idle
      rw [hlive.readPage, hlive.storable.wf.readPage_model] at hrun
      cases hrun
      exact ⟨_, rfl, h⟩
  | checkpoint hrun =>
      obtain ⟨c, fm, fw, main, log, rfl, hlive⟩ := h.idle
      obtain ⟨hres, main', hnew⟩ := (wpc_checkpoint hlive).1
      rw [hrun] at hres hnew
      simp only at hres hnew
      subst hres
      exact ⟨_, rfl, ⟨fm, fw, main', [], hnew⟩, trivial⟩
  | begin hbegin =>
      obtain ⟨c, fm, fw, main, log, rfl, hlive⟩ := h.idle
      rw [Pager.begin, if_neg (by simp [hlive.usable]), hlive.header] at hbegin
      cases hbegin
      exact ⟨_, rfl, ⟨fm, fw, main, log, hlive⟩, draftOf_begin hlive.storable.wf _⟩
  | refused hbegin =>
      obtain ⟨c, fm, fw, main, log, rfl, hlive⟩ := h.idle
      -- a live pager is not broken, so it is never refused
      rw [Pager.begin, if_neg (by simp [hlive.usable])] at hbegin
      cases hbegin
  | txnReadPage hrun =>
      obtain ⟨c, d, fm, fw, main, log, rfl, hd, hlive⟩ := h.busy
      rw [hlive.readThrough hd] at hrun
      cases hrun
      exact ⟨_, rfl, h⟩
  | txnOp op =>
      obtain ⟨c, d, fm, fw, main, log, rfl, hd, hlive⟩ := h.busy
      obtain ⟨hd', hres⟩ := hd.perform op
      exact ⟨_, by rw [hres]; rfl, ⟨fm, fw, main, log, hlive⟩, hd'⟩
  | commit salt hfits hrun =>
      obtain ⟨c, d, fm, fw, main, log, rfl, hd, hlive⟩ := h.busy
      rw [hlive.header] at hfits
      -- the commit's own theorem: it returns the id and leaves a live pager over the draft's pages
      obtain ⟨hid, main', log', hnew⟩ := (wpc_commitTxn hlive hd.wf hfits salt).1
      rw [hrun] at hid hnew
      simp only at hid hnew
      subst hid
      have hsame := hd.commit
      exact ⟨_, by rw [hsame.1]; rfl, ⟨fm, fw, main', log', hnew.same hsame⟩, trivial⟩
  | drop =>
      obtain ⟨c, d, fm, fw, main, log, rfl, hd, hlive⟩ := h.busy
      exact ⟨_, rfl, ⟨fm, fw, main, log, hlive⟩, trivial⟩

/-- A whole sequence of calls. -/
theorem Session.Run.simulates {trace : List (Call × Answer)} (hrun : Session.Run R fs s trace fs' s')
    (h : Simulates R path fs s m) :
    ∃ m', m.run R.xxh (trace.map Prod.fst) = some (m', trace.map Prod.snd) ∧ Simulates R path fs' s' m' := by
  induction hrun generalizing m with
  | nil => exact ⟨m, rfl, h⟩
  | cons hstep _ ih =>
      obtain ⟨m', hm', h'⟩ := hstep.simulates h
      obtain ⟨m'', hm'', h''⟩ := ih h'
      refine ⟨m'', ?_, h''⟩
      simp [Model.run, hm', hm'']

/-- A running pager answers every call that the model answers. -/
theorem Simulates.exists_step {call : Call} (h : Simulates R path fs s m) (hsome : (m.step R.xxh call).isSome = true)
    (hfits : m.draft.all (fun d => decide (d.pageCount * m.committed.header.pageSize ≤ 2 ^ 64)) = true) :
    ∃ answer fs' s', Session.Step R fs s call answer fs' s' := by
  rcases s with ⟨p, txn⟩
  cases txn with
  | none =>
      rcases h.idle with ⟨c, fm, fw, main, log, rfl, hlive⟩
      cases call with
      | header => exact ⟨_, _, _, .header⟩
      | readPage n => exact ⟨_, _, _, .readPage rfl⟩
      | checkpoint => exact ⟨_, _, _, .checkpoint rfl⟩
      | begin =>
          have hbegin : p.begin = .ok (Txn.begin { header := p.header, pages := fun _ => [] }) := by
            rw [Pager.begin, if_neg (by simp [hlive.usable])]
          exact ⟨_, _, _, .begin hbegin⟩
      | txnReadPage n => cases hsome
      | txnOp op => cases hsome
      | commit salt => cases hsome
      | drop => cases hsome
  | some t =>
      rcases h.busy with ⟨c, d, fm, fw, main, log, rfl, hd, hlive⟩
      cases call with
      | txnReadPage n => exact ⟨_, _, _, .txnReadPage rfl⟩
      | txnOp op => exact ⟨_, _, _, .txnOp op⟩
      | commit salt =>
          refine ⟨_, _, _, .commit salt ?_ rfl⟩
          rw [hlive.header, ← hd.pageCount]
          exact of_decide_eq_true hfits
      | drop => exact ⟨_, _, _, .drop⟩
      | header => cases hsome
      | readPage n => cases hsome
      | checkpoint => cases hsome
      | begin => cases hsome

/-- A running pager answers as the model does, call by call. -/
theorem Simulates.exists_run {calls : List Call} {answers : List Answer} {m' : Model} (h : Simulates R path fs s m)
    (hrun : m.run R.xxh calls = some (m', answers)) (hfits : m.fits R.xxh calls = true) :
    ∃ fs' s', Session.Run R fs s (calls.zip answers) fs' s' := by
  induction calls generalizing fs s m answers with
  | nil =>
      cases hrun
      exact ⟨fs, s, .nil⟩
  | cons call calls ih =>
      simp only [Model.run, Option.bind_eq_bind, Option.bind_eq_some_iff] at hrun
      rcases hrun with ⟨⟨m₁, answer⟩, hstep, ⟨m₂, answers'⟩, hrest, hend⟩
      cases hend
      unfold Model.fits at hfits
      rw [hstep, Bool.and_eq_true] at hfits
      rcases h.exists_step (by rw [hstep]; rfl) hfits.1 with ⟨answer', fs₁, s₁, hfirst⟩
      rcases hfirst.simulates h with ⟨m₁', hm₁, h₁⟩
      rw [hstep] at hm₁
      cases hm₁
      rcases ih h₁ hrest hfits.2 with ⟨fs', s', hrun'⟩
      exact ⟨fs', s', .cons hfirst hrun'⟩

end Simulation

/-! ## Page numbers and transaction ids -/

/-- What a trace shows of the transactions that committed: the pages they were handed
and the ids they were given. -/
structure Tally where
  allocated : List Nat := []
  ids : List Nat := []
  /-- Of the open transaction: the pages handed out, and whether it did anything. -/
  pending : List Nat := []
  touched : Bool := false

def Tally.step (x : Tally) : Call × Answer → Tally
  | (.begin, _) => { x with pending := [], touched := false }
  | (.txnOp _, .did (.ok (some n))) => { x with pending := x.pending ++ [n], touched := true }
  | (.txnOp _, .did (.ok none)) => { x with touched := true }
  | (.commit _, .committed (.ok id)) =>
      if x.touched then { allocated := x.allocated ++ x.pending, ids := x.ids ++ [id] } else x
  | _ => x

def Tally.of (trace : List (Call × Answer)) : Tally := trace.foldl Tally.step {}

/-- The tally of a trace that led the model from `c` to `m`. -/
structure Tally.Of (c : Committed) (m : Model) (x : Tally) : Prop where
  pageCount : m.committed.header.pageCount = c.header.pageCount + x.allocated.length
  allocated : x.allocated = List.range' c.header.pageCount x.allocated.length
  txnCounter : m.committed.header.txnCounter = (c.header.txnCounter + x.ids.length) % 2 ^ 64
  ids : x.ids = (List.range x.ids.length).map fun i => (c.header.txnCounter + 1 + i) % 2 ^ 64
  draft : ∀ d ∈ m.draft, d.touched = x.touched ∧
    d.pageCount = m.committed.header.pageCount + x.pending.length ∧
    x.pending = List.range' m.committed.header.pageCount x.pending.length

section Counting

variable {H : Xxh3} {c : Committed} {m m' : Model} {x : Tally}

/-- A call on the transaction that hands out no page keeps the page count. -/
theorem Draft.perform_pageCount (d : Draft) (pageSize : Nat) (op : TxnOp) :
    (d.perform H pageSize op).1.touched = (match (d.perform H pageSize op).2 with
      | .ok _ => true
      | .error _ => d.touched) ∧
    match (d.perform H pageSize op).2 with
      | .ok (some n) => n = d.pageCount ∧ (d.perform H pageSize op).1.pageCount = d.pageCount + 1
      | _ => (d.perform H pageSize op).1.pageCount = d.pageCount := by
  cases op with
  | allocatePage =>
      simp only [perform, allocatePage]
      split
      · exact ⟨rfl, rfl, rfl⟩
      · exact ⟨rfl, rfl⟩
  | writePage n data =>
      simp only [perform, writePage]
      split_ifs <;> exact ⟨rfl, rfl⟩
  | setEmbeddingModel id dims =>
      simp only [perform]
      split_ifs <;> exact ⟨rfl, rfl⟩
  | _ => exact ⟨rfl, rfl⟩

/-- One call, counted. -/
theorem Tally.Of.step (h : x.Of c m) {call : Call} {answer : Answer}
    (hstep : m.step H call = some (m', answer)) : (x.step (call, answer)).Of c m' := by
  obtain ⟨comm, draft⟩ := m
  cases call with
  | header =>
      cases draft <;> cases hstep
      exact h
  | readPage n =>
      cases draft <;> cases hstep
      exact h
  | checkpoint =>
      cases draft <;> cases hstep
      exact h
  | txnReadPage n =>
      cases draft <;> cases hstep
      exact h
  | begin =>
      cases draft <;> cases hstep
      refine ⟨h.pageCount, h.allocated, h.txnCounter, h.ids, ?_⟩
      rintro d ⟨⟩
      exact ⟨rfl, rfl, rfl⟩
  | drop =>
      cases draft <;> cases hstep
      exact ⟨h.pageCount, h.allocated, h.txnCounter, h.ids, by rintro d ⟨⟩⟩
  | txnOp op =>
      cases draft with
      | none => cases hstep
      | some d =>
          cases hstep
          obtain ⟨htouched, hcount, hpending⟩ := h.draft d rfl
          obtain ⟨h1, h2⟩ := d.perform_pageCount (H := H) comm.header.pageSize op
          -- the draft after the call, by what it answered
          cases hres : (d.perform H comm.header.pageSize op).2 with
          | error e =>
              rw [hres] at h1 h2
              refine ⟨h.pageCount, h.allocated, h.txnCounter, h.ids, ?_⟩
              rintro d' ⟨⟩
              exact ⟨h1.trans htouched, h2.trans hcount, hpending⟩
          | ok o =>
              rw [hres] at h1 h2
              cases o with
              | none =>
                  refine ⟨h.pageCount, h.allocated, h.txnCounter, h.ids, ?_⟩
                  rintro d' ⟨⟩
                  exact ⟨h1, h2.trans hcount, hpending⟩
              | some n =>
                  obtain ⟨hn, h2⟩ := h2
                  refine ⟨h.pageCount, h.allocated, h.txnCounter, h.ids, ?_⟩
                  rintro d' ⟨⟩
                  refine ⟨h1, ?_, ?_⟩
                  · rw [h2, hcount]
                    simp [Tally.step]
                    omega
                  · simp only [Tally.step, List.length_append, List.length_singleton]
                    rw [List.range'_concat, ← hpending, hn, hcount]
                    simp
  | commit salt =>
      cases draft with
      | none => cases hstep
      | some d =>
          cases hstep
          obtain ⟨htouched, hcount, hpending⟩ := h.draft d rfl
          simp only [Tally.step, ← htouched, Draft.commit]
          split
          · -- the transaction's pages follow those of the committed ones
            have hc := h.pageCount
            have hx := h.txnCounter
            refine ⟨?_, ?_, ?_, ?_, by rintro d ⟨⟩⟩
            · simp only [PendingHeader.apply, List.length_append]
              simp only at hc hcount
              omega
            · rw [List.length_append, List.range'_append_1.symm, ← h.allocated]
              simp only at hc hpending
              rw [← hc, ← hpending]
            · simp only [PendingHeader.apply, List.length_append, List.length_singleton]
              simp only at hx
              omega
            · rw [List.length_append, List.length_singleton, List.range_succ, List.map_append, ← h.ids]
              simp only [PendingHeader.apply, List.map_cons, List.map_nil]
              simp only at hx
              congr 2
              omega
          · exact ⟨h.pageCount, h.allocated, h.txnCounter, h.ids, by rintro d ⟨⟩⟩

/-- The calls of a session, counted. -/
theorem Tally.Of.run {trace : List (Call × Answer)} (h : x.Of c m)
    (hrun : m.run H (trace.map Prod.fst) = some (m', trace.map Prod.snd)) :
    (trace.foldl Tally.step x).Of c m' := by
  induction trace generalizing m x with
  | nil =>
      cases hrun
      exact h
  | cons e trace ih =>
      obtain ⟨call, answer⟩ := e
      simp only [List.map_cons, Model.run, Option.bind_eq_bind, Option.bind_eq_some_iff] at hrun
      obtain ⟨⟨m1, a⟩, h1, ⟨m2, as⟩, h2, h3⟩ := hrun
      simp only [Option.some.injEq, Prod.mk.injEq, List.cons.injEq] at h3
      obtain ⟨rfl, rfl, rfl⟩ := h3
      exact ih (h.step h1) h2

end Counting

/-- Whatever has happened to the store before, the answers of a running pager are those
of a plain map of page images with a draft for the open transaction; the pages handed
out by committed transactions follow one another, and so do the ids of the commits
that had something to commit (as 64-bit numbers). -/
theorem live_pager_semantics {R : Runtime} {path : Path} {fs fs' : Fs} {p : Pager} {e : Expected}
    {s : Session} {trace : List (Call × Answer)} (h : History R path fs (some p) e)
    (hrun : Session.Run R fs ⟨p, none⟩ trace fs' s) :
    (∃ m, Model.run R.xxh ⟨e.last, none⟩ (trace.map Prod.fst) = some (m, trace.map Prod.snd)) ∧
    (Tally.of trace).allocated =
      List.range' e.last.header.pageCount (Tally.of trace).allocated.length ∧
    (Tally.of trace).ids = (List.range (Tally.of trace).ids.length).map
      fun i => (e.last.header.txnCounter + 1 + i) % 2 ^ 64 := by
  obtain ⟨_, fm, fw, main, log, hlive⟩ := h.kept
  obtain ⟨m, hm, _⟩ := hrun.simulates (m := ⟨e.last, none⟩) ⟨⟨fm, fw, main, log, hlive⟩, trivial⟩
  have hstart : Tally.Of e.last ⟨e.last, none⟩ {} := by
    refine ⟨rfl, rfl, ?_, rfl, by rintro d ⟨⟩⟩
    exact (Nat.mod_eq_of_lt hlive.storable.wf.header.txnCounter).symm
  have htally := hstart.run hm
  exact ⟨⟨m, hm⟩, htally.allocated, htally.ids⟩

/-- The calls of a small session, with their answers. A page is committed and read while it lives in the log; a
transaction is dropped; the page is read again after a checkpoint, and the next transaction is handed the page that the
dropped one had. -/
def smallTrace (data : Bytes) : List (Call × Answer) :=
  [(.begin, .done (.ok ())), (.txnOp .allocatePage, .did (.ok (some 1))), (.txnOp (.writePage 1 data), .did (.ok none)),
    (.commit 0, .committed (.ok 1)), (.readPage 1, .page (.ok (stampPageChecksum Runtime.plain.xxh data))),
    (.begin, .done (.ok ())), (.txnOp .allocatePage, .did (.ok (some 2))), (.drop, .dropped),
    (.readPage 2, .page (.error (.pageOutOfBounds 2 2))), (.checkpoint, .done (.ok ())),
    (.readPage 1, .page (.ok (stampPageChecksum Runtime.plain.xxh data))), (.begin, .done (.ok ())),
    (.txnOp .allocatePage, .did (.ok (some 2))), (.commit 1, .committed (.ok 2))]

set_option maxRecDepth 100000 in
theorem live_pager_semantics_small_trace :
    ∃ fs p fs' s, History Runtime.plain "memory.mind" fs (some p) { last := createdState { pageSize := 512 } } ∧
      Session.Run Runtime.plain fs ⟨p, none⟩ (smallTrace (List.replicate 512 7)) fs' s ∧
      (∃ m, Model.run Runtime.plain.xxh ⟨createdState { pageSize := 512 }, none⟩
          ((smallTrace (List.replicate 512 7)).map Prod.fst) =
        some (m, (smallTrace (List.replicate 512 7)).map Prod.snd)) ∧
      (Tally.of (smallTrace (List.replicate 512 7))).allocated = [1, 2] ∧
      (Tally.of (smallTrace (List.replicate 512 7))).ids = [1, 2] := by
  rcases exists_create Runtime.plain "memory.mind" { pageSize := 512 } Fs.wf_empty (by decide) (by decide) (by decide) rfl
    with ⟨fs, p, hrun, _⟩
  have hcreated := History.create Fs.wf_empty hrun
  rcases hcreated.kept with ⟨_, fm, fw, main, log, hlive⟩
  have hsim : Simulates Runtime.plain "memory.mind" fs ⟨p, none⟩ ⟨createdState { pageSize := 512 }, none⟩ :=
    ⟨⟨fm, fw, main, log, hlive⟩, trivial⟩
  have hmodel : ∃ m, Model.run Runtime.plain.xxh ⟨createdState { pageSize := 512 }, none⟩
      ((smallTrace (List.replicate 512 7)).map Prod.fst) =
        some (m, (smallTrace (List.replicate 512 7)).map Prod.snd) := ⟨_, rfl⟩
  rcases hmodel with ⟨m, hm⟩
  -- the pager answers what the model answers
  rcases hsim.exists_run hm (by decide +kernel) with ⟨fs', s, hsession⟩
  have hanswers := live_pager_semantics hcreated hsession
  exact ⟨fs, p, fs', s, hcreated, hsession, hanswers⟩

end EmbedMind
