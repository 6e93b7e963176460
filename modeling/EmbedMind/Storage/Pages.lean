import EmbedMind.Lib.Fallible
import EmbedMind.Lib.Ownership
import EmbedMind.Storage.Txn

/-!
# Pages as the indexes see them (`storage/btree.rs`: `PageSource`; `storage/pager.rs`: `Txn`)

The trees and chains of a store read through a `PageSource`, a committed state or
a transaction, and write through a transaction (`TxnM`). What they read is the
`view` of the source. `Txn.Moved` is what an operation on some pages of a
transaction does: it keeps the transaction well formed, changes no header field
and takes the step `Owned.Step` on the view.
-/

namespace EmbedMind

open Lib Lib.Assoc

/-- Read access to committed or transaction-local pages. -/
structure PageSource where
  page : Nat → Except Error Bytes
  pageSize : Nat
  formatVersion : Nat

/-- The images of the pages that can be read. -/
def PageSource.view (src : PageSource) (n : Nat) : Option Bytes := (src.page n).toOption

/-- A page in view is read. -/
theorem PageSource.page_of_view {src : PageSource} {n : Nat} {b : Bytes} (h : src.view n = some b) :
    src.page n = .ok b := by
  unfold view at h
  cases hp : src.page n with
  | error e =>
      rw [hp] at h
      cases h
  | ok b' =>
      rw [hp] at h
      cases h
      rfl

def Committed.source (H : Xxh3) (c : Committed) : PageSource :=
  ⟨c.readPage H, c.header.pageSize, c.header.formatVersion⟩

def Txn.source (H : Xxh3) (t : Txn) : PageSource := ⟨t.readPage H, t.pageSize, t.formatVersion⟩

abbrev Committed.view (H : Xxh3) (c : Committed) : Nat → Option Bytes := (c.source H).view

/-- The pages of a well-formed state are in view. -/
theorem Committed.view_page {H : Xxh3} {c : Committed} (hc : c.Wf H) {n : Nat} (hpos : 0 < n)
    (hlt : n < c.header.pageCount) : c.view H n = some (c.pages n) := by
  have hne : n ≠ 0 := Nat.ne_of_gt hpos
  simp [Committed.view, PageSource.view, Committed.source, hc.readPage_eq hlt, Except.toOption, Committed.image, hne]

abbrev Txn.view (H : Xxh3) (t : Txn) : Nat → Option Bytes := (t.source H).view

/-- Code that works on a transaction and may fail. A caller drops the transaction
of a failed call, so its buffer is not kept. -/
abbrev TxnM := StateT Txn (Except Error)

namespace TxnM

variable (H : Xxh3)

def readPage (pageNo : Nat) : TxnM Bytes := fun t => (t.readPage H pageNo).map (·, t)

def allocatePage : TxnM Nat := fun t => t.allocatePage H

def writePage (pageNo : Nat) (data : Bytes) : TxnM Unit :=
  fun t => (t.writePage H pageNo data).map ((), ·)

def pageSize : TxnM Nat := fun t => .ok (t.pageSize, t)

/-- The transaction as it stands. -/
def current : TxnM Txn := fun t => .ok (t, t)

/-- A change that cannot fail: a setter of a pending header field. -/
def update (f : Txn → Txn) : TxnM Unit := fun t => .ok ((), f t)

/-- The page of a root, a fresh one for root 0. -/
def pageOrFresh (root : Nat) : TxnM Nat := if root = 0 then allocatePage H else pure root

/-- A reader run on the transaction itself. -/
def reading {α : Type} (f : PageSource → Except Error α) : TxnM α :=
  fun t => (f (t.source H)).map (·, t)

end TxnM

/-! ## What a transaction shows -/

namespace Txn

variable {H : Xxh3} {t t' t'' : Txn}

/-- A transaction sees its own writes. -/
theorem view_of_dirty {n : Nat} {page : Bytes} (h : find n t.dirty = some page) :
    t.view H n = some page := by
  simp [view, PageSource.view, source, readPage, h, Except.toOption]

/-- It sees the base where it wrote nothing. -/
theorem view_of_clean {n : Nat} (h : find n t.dirty = none) (hn : n < t.pageCount) :
    t.view H n = t.base.view H n := by
  simp [view, PageSource.view, source, readPage, h, Committed.source, not_le.mpr hn]

/-- At its beginning it sees the base. -/
theorem view_begin (c : Committed) (n : Nat) : (begin c).view H n = c.view H n := by
  by_cases hn : n < c.header.pageCount
  · exact view_of_clean rfl hn
  · have hge : c.header.pageCount ≤ n := not_lt.mp hn
    simp [view, PageSource.view, source, readPage, Committed.view, Committed.source,
      Committed.readPage, begin, hge]

/-! ## What a transaction commits to -/

section Commit

variable (t)

/-- A commit takes the page count over. -/
theorem commit_pageCount : t.commit.header.pageCount = t.pageCount := by
  cases he : t.isEmpty with
  | false =>
      rw [commit_header he]
      rfl
  | true =>
      rw [commit_of_isEmpty he]
      simp only [isEmpty, Bool.and_eq_true, beq_iff_eq] at he
      exact he.1.2.symm

/-- A commit keeps the page size. -/
theorem commit_pageSize : t.commit.header.pageSize = t.pageSize := by
  cases he : t.isEmpty with
  | false => rw [commit_header he, newHeader_pageSize]
  | true => rw [commit_of_isEmpty he, pageSize]

/-- A commit keeps the format version. -/
theorem commit_formatVersion : t.commit.header.formatVersion = t.formatVersion := by
  cases he : t.isEmpty with
  | false =>
      rw [commit_header he]
      rfl
  | true => rw [commit_of_isEmpty he, formatVersion]

theorem pending_of_isEmpty (he : t.isEmpty = true) : t.pending.isEmpty = true := by
  simp only [isEmpty, Bool.and_eq_true] at he
  exact he.2

/-- A commit takes the root over. -/
theorem commit_rootBtreePage : t.commit.header.rootBtreePage = t.rootBtreePage := by
  cases he : t.isEmpty with
  | false =>
      rw [commit_header he]
      rfl
  | true =>
      have hp := t.pending_of_isEmpty he
      simp only [PendingHeader.isEmpty, Bool.and_eq_true, Option.isNone_iff_eq_none] at hp
      rw [commit_of_isEmpty he, rootBtreePage, hp.1.1.1.1.1.1]
      rfl

end Commit

/-- A page of the committed state is the page the transaction showed last. -/
theorem Wf.view_commit (h : t.Wf H) {n : Nat} (h0 : 0 < n) (hn : n < t.pageCount) :
    t.commit.view H n = t.view H n := by
  have himage : t.commit.view H n = some (t.commit.image H n) := by
    have hlt : n < t.commit.header.pageCount := by rwa [commit_pageCount]
    simp [Committed.view, PageSource.view, Committed.source, h.commit.readPage_eq hlt,
      Except.toOption]
  have hne : n ≠ 0 := by omega
  cases hf : find n t.dirty with
  | some page =>
      have he : t.isEmpty = false := by
        cases hd : t.dirty with
        | nil =>
            rw [hd] at hf
            cases hf
        | cons _ _ => simp [isEmpty, hd]
      rw [himage, view_of_dirty hf]
      simp [Committed.image, hne, commit_pages he, hf]
  | none =>
      have hlt : n < t.base.header.pageCount := by
        by_contra hge
        obtain ⟨q, hq⟩ := h.fresh n (not_lt.mp hge) hn
        rw [hf] at hq
        cases hq
      have hbase : t.base.view H n = some (t.base.image H n) := by
        simp [Committed.view, PageSource.view, Committed.source, h.base.readPage_eq hlt,
          Except.toOption]
      have hsame : t.commit.image H n = t.base.image H n := by
        cases he : t.isEmpty with
        | true => rw [commit_of_isEmpty he]
        | false => simp [Committed.image, hne, commit_pages he, hf]
      rw [himage, view_of_clean hf hn, hbase, hsame]

/-! ## Steps of a transaction -/

/-- From `t` to `t'`, on the pages `own` and then `own'`. -/
structure Moved (H : Xxh3) (t t' : Txn) (own own' : List Nat) : Prop where
  wf : t'.Wf H
  base : t'.base = t.base
  pending : t'.pending = t.pending
  step : Owned.Step (t.view H) (t'.view H) t.pageCount t'.pageCount own own'

variable {own own' own'' : List Nat}

/-- Nothing was done. -/
theorem Moved.refl (h : t.Wf H) (hb : ∀ p ∈ own, p < t.pageCount) : Moved H t t own own :=
  ⟨h, rfl, rfl, Owned.Step.refl hb⟩

/-- One step after another. -/
theorem Moved.trans (h : Moved H t t' own own') (h' : Moved H t' t'' own' own'') :
    Moved H t t'' own own'' :=
  ⟨h'.wf, h'.base.trans h.base, h'.pending.trans h.pending, h.step.trans h'.step⟩

/-- The pages beside those that moved stay. -/
theorem Moved.focus (h : Moved H t t' own own') {l r : List Nat} (hl : ∀ p ∈ l, p < t.pageCount)
    (hr : ∀ p ∈ r, p < t.pageCount) : Moved H t t' (l ++ own ++ r) (l ++ own' ++ r) :=
  ⟨h.wf, h.base, h.pending, h.step.focus hl hr⟩

/-- Owning less. -/
theorem Moved.subperm (h : Moved H t t' own own') (hs : own''.Subperm own') :
    Moved H t t' own own'' :=
  ⟨h.wf, h.base, h.pending, h.step.subperm hs⟩

/-- The page size stays. -/
theorem Moved.pageSize (h : Moved H t t' own own') : t'.pageSize = t.pageSize := by
  rw [Txn.pageSize, Txn.pageSize, h.base]

theorem Moved.grow (h : Moved H t t' own own') : t.pageCount ≤ t'.pageCount := h.step.grow

/-! ## The page operations -/

/-- The one error of a page operation on valid pages. -/
def pageCountOverflow : Error := .invalidArgument "page count overflow"

variable {E : Error → Prop}

/-- Reading a page in view. -/
theorem wp_readPage {n : Nat} {b : Bytes} {Q : Bytes → Txn → Prop} (hv : t.view H n = some b)
    (hQ : Q b t) : Wp (TxnM.readPage H n) t Q E := by
  refine Wp.of_ok ?_ hQ
  have hpage : t.readPage H n = .ok b := PageSource.page_of_view hv
  simp [TxnM.readPage, hpage, Except.map]

/-- A new page. -/
theorem wp_allocatePage (h : t.Wf H) (hE : E pageCountOverflow) :
    Wp (TxnM.allocatePage H) t (fun n t' => n = t.pageCount ∧ Moved H t t' [] [n]) E := by
  by_cases hlt : t.pageCount + 1 < 2 ^ 64
  · have hrun : t.allocatePage H = .ok (t.pageCount, { t with
        pageCount := t.pageCount + 1
        dirty := insertKey t.pageCount (stampPageChecksum H (List.replicate t.pageSize 0)) t.dirty }) := by
      unfold Txn.allocatePage
      rw [if_pos hlt]
    refine Wp.of_ok hrun ⟨rfl, ?_⟩
    refine ⟨h.allocatePage hrun, rfl, rfl, ?_⟩
    constructor
    case grow => exact Nat.le_succ _
    case pages =>
      intro p hp
      exact Or.inr (List.mem_singleton.mp hp).ge
    case bound =>
      intro p hp
      rw [List.mem_singleton.mp hp]
      exact Nat.lt_succ_self _
    case nodup => exact fun _ => List.nodup_singleton _
    case frame =>
      intro p hp _
      have hne : p ≠ t.pageCount := ne_of_lt hp
      have hle : ¬ t.pageCount + 1 ≤ p := by omega
      simp [view, PageSource.view, source, readPage, find_insertKey, hne, hle, not_le.mpr hp]
  · have hrun : TxnM.allocatePage H t = .error pageCountOverflow := by
      unfold TxnM.allocatePage Txn.allocatePage
      rw [if_neg hlt]
      rfl
    exact Wp.of_error hrun hE

/-- Writing a page of one's own. -/
theorem wp_writePage (h : t.Wf H) {n : Nat} {data : Bytes} (h0 : 0 < n) (hn : n < t.pageCount)
    (hlen : data.length = t.pageSize) :
    Wp (TxnM.writePage H n data) t (fun _ t' => t'.view H n = some (stampPageChecksum H data) ∧
      Moved H t t' [n] [n] ∧ t'.pageCount = t.pageCount) E := by
  have hrun : t.writePage H n data = .ok { t with
      dirty := insertKey n (stampPageChecksum H data) t.dirty } := by
    unfold Txn.writePage
    rw [if_neg (by simpa using hlen), if_neg (by omega), if_neg (by omega)]
  have hrun' : TxnM.writePage H n data t = .ok ((), { t with
      dirty := insertKey n (stampPageChecksum H data) t.dirty }) := by
    unfold TxnM.writePage
    rw [hrun]
    rfl
  refine Wp.of_ok hrun' ⟨?_, ?_, rfl⟩
  · exact view_of_dirty (by simp)
  · refine ⟨h.writePage hrun, rfl, rfl, ?_⟩
    constructor
    case grow => exact le_refl _
    case pages => exact fun p hp => Or.inl hp
    case bound =>
      intro p hp
      rw [List.mem_singleton.mp hp]
      exact hn
    case nodup => exact id
    case frame =>
      intro p hp hnot
      have hne : p ≠ n := by simpa using hnot
      simp [view, PageSource.view, source, readPage, find_insertKey, hne]

/-! ## Pages a structure owns -/

/-- Distinct pages of the file, page 0 aside. -/
structure Owns (t : Txn) (own : List Nat) : Prop where
  nodup : own.Nodup
  pos : ∀ p ∈ own, 0 < p
  lt : ∀ p ∈ own, p < t.pageCount

/-- What is owned after a step. -/
theorem Moved.owns (h : Moved H t t' own own') (hw : t.Wf H) (ho : t.Owns own) : t'.Owns own' where
  nodup := h.step.nodup ho.nodup
  pos := by
    intro p hp
    rcases h.step.pages p hp with h1 | h1
    · exact ho.pos p h1
    · exact lt_of_lt_of_le hw.pageCount_pos h1
  lt := h.step.bound

/-- Pages that are owned have proper numbers. -/
theorem Owns.bounds (h : t.Owns own) (ht : t.Wf H) : ∀ p ∈ own, 0 < p ∧ p < 2 ^ 64 :=
  fun p hp => ⟨h.pos p hp, lt_trans (h.lt p hp) ht.bound⟩

/-- Owning less. -/
theorem Owns.sublist (h : t.Owns own) (hs : own'.Sublist own) : t.Owns own' where
  nodup := hs.nodup h.nodup
  pos := fun p hp => h.pos p (hs.subset hp)
  lt := fun p hp => h.lt p (hs.subset hp)

/-- Frame rule for the pages `own` of `l ++ own ++ r`. -/
theorem Moved.within (h : Moved H t t' own own') {l r : List Nat} (ho : t.Owns (l ++ own ++ r)) :
    Moved H t t' (l ++ own ++ r) (l ++ own' ++ r) := by
  refine h.focus ?_ ?_
  · intro p hp
    exact ho.lt p (by simp [hp])
  · intro p hp
    exact ho.lt p (by simp [hp])

/-- The pages around the ones an operation works on keep their images. -/
theorem Moved.around (h : Moved H t t' own own') {l r : List Nat} (ho : t.Owns (l ++ own ++ r)) :
    ∀ p ∈ l ++ r, t'.view H p = t.view H p := by
  have hnd := ho.nodup
  rw [List.nodup_append, List.nodup_append] at hnd
  obtain ⟨⟨_, _, hlo⟩, _, hor⟩ := hnd
  refine h.step.others ?_ ?_
  · intro p hp
    rcases List.mem_append.mp hp with h1 | h1 <;> exact ho.lt p (by simp [h1])
  · intro p hp hin
    rcases List.mem_append.mp hp with h1 | h1
    · exact hlo p h1 p hin rfl
    · exact hor p (List.mem_append_right _ hin) p h1 rfl

/-- Writing one page of a structure. -/
theorem wp_writeOwned (h : t.Wf H) (ho : t.Owns own) {n : Nat} (hn : n ∈ own) {data : Bytes}
    (hlen : data.length = t.pageSize) :
    Wp (TxnM.writePage H n data) t (fun _ t' => t'.view H n = some (stampPageChecksum H data) ∧
      Moved H t t' own own ∧ ∀ p ∈ own, p ≠ n → t'.view H p = t.view H p) E := by
  refine (wp_writePage h (ho.pos n hn) (ho.lt n hn) hlen).imp ?_
  rintro _ t' ⟨hview, hmoved, _⟩
  obtain ⟨l, r, rfl⟩ := List.append_of_mem hn
  have ho' : t.Owns (l ++ [n] ++ r) := by simpa using ho
  refine ⟨hview, ?_, ?_⟩
  · simpa using hmoved.within ho'
  · intro p hp hne
    refine hmoved.around ho' p ?_
    simp only [List.mem_append, List.mem_cons] at hp ⊢
    tauto

end Txn

/-! ## Steps that move header fields -/

namespace Txn

/-- From `t` to `t'`, on the pages `own` and then `own'`; the pending header fields
move as `R` allows. -/
structure Stepped (H : Xxh3) (R : PendingHeader → PendingHeader → Prop) (t t' : Txn)
    (own own' : List Nat) : Prop where
  wf : t'.Wf H
  base : t'.base = t.base
  pending : R t.pending t'.pending
  step : Owned.Step (t.view H) (t'.view H) t.pageCount t'.pageCount own own'

variable {H : Xxh3} {R : PendingHeader → PendingHeader → Prop} {t t' t'' : Txn}
  {own own' own'' : List Nat}

/-- A step of pages is one of any relation on roots that is reflexive. -/
theorem Moved.stepped (h : t.Moved H t' own own') (hR : ∀ p, R p p) : t.Stepped H R t' own own' :=
  ⟨h.wf, h.base, by rw [h.pending]; exact hR _, h.step⟩

/-- One step after another. -/
theorem Stepped.trans (h : t.Stepped H R t' own own') (h' : t'.Stepped H R t'' own' own'')
    (hR : ∀ p q r, R p q → R q r → R p r) : t.Stepped H R t'' own own'' :=
  ⟨h'.wf, h'.base.trans h.base, hR _ _ _ h.pending h'.pending, h.step.trans h'.step⟩

/-- The page size stays. -/
theorem Stepped.pageSize (h : t.Stepped H R t' own own') : t'.pageSize = t.pageSize := by
  rw [Txn.pageSize, Txn.pageSize, h.base]

/-- The format version stays. -/
theorem Stepped.formatVersion (h : t.Stepped H R t' own own') : t'.formatVersion = t.formatVersion := by
  rw [Txn.formatVersion, Txn.formatVersion, h.base]

/-- What is owned after a step. -/
theorem Stepped.owns (h : t.Stepped H R t' own own') (hw : t.Wf H) (ho : t.Owns own) : t'.Owns own' where
  nodup := h.step.nodup ho.nodup
  pos := by
    intro p hp
    rcases h.step.pages p hp with h1 | h1
    · exact ho.pos p h1
    · exact lt_of_lt_of_le hw.pageCount_pos h1
  lt := h.step.bound

/-- A reader run inside a transaction. -/
theorem wp_reading {α : Type} {f : PageSource → Except Error α} {Q : α → Txn → Prop}
    {E : Error → Prop} (hok : ∀ a, f (t.source H) = .ok a → Q a t)
    (herr : ∀ e, f (t.source H) = .error e → E e) : Wp (TxnM.reading H f) t Q E := by
  cases hf : f (t.source H) with
  | ok a =>
      have hrun : TxnM.reading H f t = .ok (a, t) := by simp [TxnM.reading, hf, Except.map]
      exact Wp.of_ok hrun (hok a hf)
  | error e =>
      have hrun : TxnM.reading H f t = .error e := by simp [TxnM.reading, hf, Except.map]
      exact Wp.of_error hrun (herr e hf)

/-- The page of a structure's root, with the rest of the structure in place. -/
theorem wp_pageOrFresh {root : Nat} {rest : List Nat} {E : Error → Prop} (ht : t.Wf H)
    (hroot : (root = 0 ∧ own = rest) ∨ (root ≠ 0 ∧ own = root :: rest)) (ho : t.Owns own)
    (hE : E pageCountOverflow) :
    Wp (TxnM.pageOrFresh H root) t (fun n t' => t.Moved H t' own (n :: rest) ∧
      ∀ p ∈ rest, t'.view H p = t.view H p) E := by
  unfold TxnM.pageOrFresh
  rcases hroot with ⟨rfl, rfl⟩ | ⟨hne, rfl⟩
  · refine (wp_allocatePage ht hE).imp ?_
    rintro n t' ⟨_, hmoved⟩
    have ho' : t.Owns ([] ++ [] ++ own) := by simpa using ho
    refine ⟨by simpa using hmoved.within ho', ?_⟩
    intro p hp
    exact hmoved.step.frame p (ho.lt p hp) (by simp)
  · rw [if_neg hne]
    exact Wp.pure ⟨Moved.refl ht ho.lt, fun p _ => rfl⟩

/-- A structure behind a root page: its pages, and those of the rest of it. -/
def Headed (root : Nat) (own rest : List Nat) : Prop :=
  (root = 0 ∧ own = rest) ∨ (root ≠ 0 ∧ own = root :: rest)

/-- The pages behind the root are among the owned ones. -/
theorem Headed.sublist {root : Nat} {rest : List Nat} (h : Headed root own rest) : rest.Sublist own := by
  rcases h with ⟨_, rfl⟩ | ⟨_, rfl⟩
  · exact List.Sublist.refl _
  · exact List.sublist_cons_self _ _

/-- A step on the rest leaves the root page where it is. -/
theorem Headed.move {root : Nat} {rest rest' : List Nat} (h : Headed root own rest) (ho : t.Owns own)
    (hm : t.Moved H t' rest rest') : ∃ own', Headed root own' rest' ∧ t.Moved H t' own own' := by
  rcases h with ⟨h0, rfl⟩ | ⟨hne, rfl⟩
  · exact ⟨rest', Or.inl ⟨h0, rfl⟩, hm⟩
  · have ho' : t.Owns ([root] ++ rest ++ []) := by simpa using ho
    exact ⟨root :: rest', Or.inr ⟨hne, rfl⟩, by simpa using hm.within ho'⟩

/-- Writing the root page of a structure, a fresh one if there is none. -/
theorem wp_saveRoot {α : Type} {root : Nat} {rest : List Nat} {page : Bytes} {k : Nat → TxnM α}
    {Q : α → Txn → Prop} {E : Error → Prop} (ht : t.Wf H) (hroot : Headed root own rest)
    (ho : t.Owns own) (hlen : page.length = t.pageSize) (hE : E pageCountOverflow)
    (hk : ∀ n t', 0 < n → n < 2 ^ 64 → t.Moved H t' own (n :: rest) →
      t'.view H n = some (stampPageChecksum H page) → (∀ p ∈ rest, t'.view H p = t.view H p) →
      Wp (k n) t' Q E) :
    Wp (do
      let n ← TxnM.pageOrFresh H root
      TxnM.writePage H n page
      k n) t Q E := by
  refine Wp.bind ((wp_pageOrFresh ht hroot ho hE).imp ?_)
  rintro n t₁ ⟨hmoved₁, hkeep₁⟩
  have ho₁ := hmoved₁.owns ht ho
  refine Wp.bind ((wp_writeOwned hmoved₁.wf ho₁ List.mem_cons_self
    (by rw [hlen, hmoved₁.pageSize])).imp ?_)
  rintro _ t₂ ⟨hview, hmoved₂, hothers⟩
  have hmoved := hmoved₁.trans hmoved₂
  have hn : n < 2 ^ 64 := lt_trans (hmoved.step.bound n List.mem_cons_self) hmoved.wf.bound
  refine hk n t₂ (ho₁.pos n List.mem_cons_self) hn hmoved hview ?_
  intro p hp
  have hne : p ≠ n := fun heq => (List.nodup_cons.mp ho₁.nodup).1 (heq ▸ hp)
  calc t₂.view H p = t₁.view H p := hothers p (List.mem_cons_of_mem _ hp) hne
    _ = t.view H p := hkeep₁ p hp

theorem wp_current {Q : Txn → Txn → Prop} {E : Error → Prop} (h : Q t t) : Wp TxnM.current t Q E :=
  Wp.of_ok rfl h

end Txn

/-- The pages of a structure as a reader sees them. -/
structure PageSource.Owns (src : PageSource) (own : List Nat) : Prop where
  nodup : own.Nodup
  bound : ∃ b, b < 2 ^ 64 ∧ ∀ p ∈ own, 0 < p ∧ p < b
  pageSize_ge : 512 ≤ src.pageSize
  pageSize_le : src.pageSize ≤ 65536

/-- Owning less. -/
theorem PageSource.Owns.sublist {src : PageSource} {own own' : List Nat} (h : src.Owns own)
    (hs : own'.Sublist own) : src.Owns own' where
  nodup := hs.nodup h.nodup
  bound := by
    obtain ⟨b, hb, hp⟩ := h.bound
    exact ⟨b, hb, fun p hin => hp p (hs.subset hin)⟩
  pageSize_ge := h.pageSize_ge
  pageSize_le := h.pageSize_le

/-- What a transaction owns it can read. -/
theorem Txn.Owns.source {H : Xxh3} {t : Txn} {own : List Nat} (h : t.Owns own) (ht : t.Wf H) :
    (t.source H).Owns own where
  nodup := h.nodup
  bound := ⟨t.pageCount, ht.bound, fun p hp => ⟨h.pos p hp, h.lt p hp⟩⟩
  pageSize_ge := ht.pageSize_bounds.1
  pageSize_le := ht.pageSize_bounds.2

/-- The pages of a structure in a committed state. -/
structure Committed.Owns (c : Committed) (own : List Nat) : Prop where
  nodup : own.Nodup
  pos : ∀ p ∈ own, 0 < p
  lt : ∀ p ∈ own, p < c.header.pageCount

/-- A transaction starts with the pages of its base. -/
theorem Committed.Owns.begin {c : Committed} {own : List Nat} (h : c.Owns own) :
    (Txn.begin c).Owns own :=
  ⟨h.nodup, h.pos, h.lt⟩

/-- What a state owns it can read. -/
theorem Committed.Owns.source {H : Xxh3} {c : Committed} {own : List Nat} (h : c.Owns own)
    (hc : c.Wf H) : (c.source H).Owns own where
  nodup := h.nodup
  bound := ⟨c.header.pageCount, hc.header.pageCount, fun p hp => ⟨h.pos p hp, h.lt p hp⟩⟩
  pageSize_ge := (pageSizeIsValid_iff.mp hc.header.pageSize).1
  pageSize_le := (pageSizeIsValid_iff.mp hc.header.pageSize).2.1

/-- A commit keeps what is owned. -/
theorem Txn.Owns.commit {t : Txn} {own : List Nat} (h : t.Owns own) : t.commit.Owns own where
  nodup := h.nodup
  pos := h.pos
  lt := by
    intro p hp
    rw [Txn.commit_pageCount]
    exact h.lt p hp

end EmbedMind
