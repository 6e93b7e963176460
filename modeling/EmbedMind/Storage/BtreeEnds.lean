import EmbedMind.Storage.BtreeProof

/-!
# Reading the record tree ends, whatever the pages hold

The loops and the recursion of the source as runs, with the pages they read: a page may
point back to its ancestors, or to itself, and nothing of a page source is assumed. Each
function of `Storage.Btree` is what its run returns, and the runs are short: as many
node pages as the depth cap admits, an overflow page for every byte, and for the scan a
finite list of items of which only the last can be an error.
-/

namespace EmbedMind

open Lib Lib.Assoc

/-! ## The descent of an insertion -/

namespace TreeSpec

variable {K : Type} [LinearOrder K] (S : TreeSpec K) (H : Xxh3)

def readNode (pageNo : Nat) : TxnM (Node K) := do
  let page ← TxnM.readPage H pageNo
  liftM (S.decodeNode page pageNo)

/-- A run of `insert_rec` at a depth, with the number of levels it goes down. -/
inductive InsertRun (key : K) (value : Bytes) : Nat → Nat → Txn → Nat → Except Error (Ins K × Txn) → Prop
  | tooDeep {depth pageNo : Nat} {t : Txn} (h : MAX_DEPTH ≤ depth) :
      InsertRun key value depth pageNo t 0 (.error (.malformedPage pageNo S.texts.tooDeep))
  | unread {depth pageNo : Nat} {t : Txn} {e : Error} (h : depth < MAX_DEPTH)
      (hnode : S.readNode H pageNo t = .error e) : InsertRun key value depth pageNo t 1 (.error e)
  | leaf {depth pageNo : Nat} {t t' : Txn} {entries : List (K × Cell)} (h : depth < MAX_DEPTH)
      (hnode : S.readNode H pageNo t = .ok (.leaf entries, t')) :
      InsertRun key value depth pageNo t 1 (S.insertLeaf H pageNo entries key value t')
  | innerError {depth pageNo levels : Nat} {t t' : Txn} {entries : List (K × Nat)} {rightmost : Nat} {e : Error}
      (h : depth < MAX_DEPTH) (hnode : S.readNode H pageNo t = .ok (.inner entries rightmost, t'))
      (hchild : InsertRun key value (depth + 1) (childAt entries rightmost (childIndex entries key)) t' levels (.error e)) :
      InsertRun key value depth pageNo t (levels + 1) (.error e)
  | innerFit {depth pageNo levels : Nat} {t t' t'' : Txn} {entries : List (K × Nat)} {rightmost : Nat}
      (h : depth < MAX_DEPTH) (hnode : S.readNode H pageNo t = .ok (.inner entries rightmost, t'))
      (hchild : InsertRun key value (depth + 1) (childAt entries rightmost (childIndex entries key)) t' levels
        (.ok (.fit, t''))) :
      InsertRun key value depth pageNo t (levels + 1) (.ok (.fit, t''))
  | innerSplit {depth pageNo levels : Nat} {t t' t'' : Txn} {entries : List (K × Nat)} {rightmost : Nat} {sep : K}
      {right : Nat} (h : depth < MAX_DEPTH) (hnode : S.readNode H pageNo t = .ok (.inner entries rightmost, t'))
      (hchild : InsertRun key value (depth + 1) (childAt entries rightmost (childIndex entries key)) t' levels
        (.ok (.split sep right, t''))) :
      InsertRun key value depth pageNo t (levels + 1)
        (S.insertChild H pageNo entries rightmost (childIndex entries key) sep
          (childAt entries rightmost (childIndex entries key)) right t'')

/-- One level of an insertion. -/
theorem insertRec_succ (fuel pageNo : Nat) (key : K) (value : Bytes) (t : Txn) :
    S.insertRec H (fuel + 1) pageNo key value t =
      (match S.readNode H pageNo t with
      | .error e => .error e
      | .ok (.leaf entries, t') => S.insertLeaf H pageNo entries key value t'
      | .ok (.inner entries rightmost, t') =>
          match S.insertRec H fuel (childAt entries rightmost (childIndex entries key)) key value t' with
          | .error e => .error e
          | .ok (.fit, t'') => .ok (.fit, t'')
          | .ok (.split sep right, t'') =>
              S.insertChild H pageNo entries rightmost (childIndex entries key) sep
                (childAt entries rightmost (childIndex entries key)) right t'') := by
  simp only [insertRec, readNode, bind, StateT.bind, Except.bind]
  cases TxnM.readPage H pageNo t with
  | error e => rfl
  | ok r =>
      rcases r with ⟨page, t'⟩
      dsimp only
      cases S.decodeNode page pageNo with
      | error e => rfl
      | ok node =>
          cases node with
          | leaf entries => rfl
          | inner entries rightmost =>
              have hlift : (liftM (Except.ok (Node.inner entries rightmost) : Except Error (Node K)) : TxnM (Node K)) t' =
                  .ok (.inner entries rightmost, t') := rfl
              rw [hlift]
              simp only [StateT.bind, bind, Except.bind]
              cases S.insertRec H fuel (childAt entries rightmost (childIndex entries key)) key value t' with
              | error e => rfl
              | ok r =>
                  rcases r with ⟨ins, t''⟩
                  cases ins <;> rfl

/-- `insert_rec` goes down as many levels as the cap leaves, on any pages. -/
theorem insertRun_insertRec (key : K) (value : Bytes) (fuel depth pageNo : Nat) (t : Txn)
    (hdepth : depth + fuel = MAX_DEPTH) :
    ∃ levels ≤ fuel, S.InsertRun H key value depth pageNo t levels (S.insertRec H fuel pageNo key value t) := by
  induction fuel generalizing depth pageNo t with
  | zero => exact ⟨0, le_refl _, InsertRun.tooDeep (by omega)⟩
  | succ fuel ih =>
      have hlt : depth < MAX_DEPTH := by omega
      rw [insertRec_succ]
      cases hnode : S.readNode H pageNo t with
      | error e => exact ⟨1, by omega, InsertRun.unread hlt hnode⟩
      | ok r =>
          rcases r with ⟨node, t'⟩
          cases node with
          | leaf entries => exact ⟨1, by omega, InsertRun.leaf hlt hnode⟩
          | inner entries rightmost =>
              rcases ih (depth + 1) (childAt entries rightmost (childIndex entries key)) t' (by omega) with
                ⟨levels, hlevels, hrun⟩
              refine ⟨levels + 1, by omega, ?_⟩
              dsimp only
              cases hchild : S.insertRec H fuel (childAt entries rightmost (childIndex entries key)) key value t' with
              | error e =>
                  rw [hchild] at hrun
                  exact InsertRun.innerError hlt hnode hrun
              | ok r =>
                  rw [hchild] at hrun
                  rcases r with ⟨ins, t''⟩
                  cases ins with
                  | fit => exact InsertRun.innerFit hlt hnode hrun
                  | split sep right => exact InsertRun.innerSplit hlt hnode hrun

end TreeSpec

namespace Btree

/-! ## Overflow chains -/

variable (src : PageSource)

/-- One round of the loop of `read_overflow`: the payload of a page and the page after it. -/
def chainHop (pageNo remaining : Nat) : Except Error (Bytes × Nat) := do
  let page ← src.page pageNo
  let header ← okOr (PageHeader.decode page) (.malformedPage pageNo "overflow header")
  if header.pageType ≠ .overflow then malformed pageNo "not an overflow page"
  else if header.entryCount = 0 ∨ remaining < header.entryCount ∨ usable src.pageSize < header.entryCount then
    malformed pageNo "overflow payload length"
  else do
    let payload ← okOr (slice page PAGE_HEADER_LEN header.entryCount)
      (.malformedPage pageNo "overflow payload length")
    if 0 < remaining - header.entryCount ∧ header.nextPage = 0 then malformed pageNo "broken overflow chain"
    else .ok (payload, header.nextPage)

/-- A run of the loop of `read_overflow` while bytes remain, with the pages it reads. -/
inductive ChainRun : Nat → Nat → List Nat → Except Error Bytes → Prop
  | done {pageNo : Nat} : ChainRun pageNo 0 [] (.ok [])
  | failed {pageNo remaining : Nat} {e : Error} (h : 0 < remaining) (hhop : chainHop src pageNo remaining = .error e) :
      ChainRun pageNo remaining [pageNo] (.error e)
  | hop {pageNo remaining nextPage : Nat} {payload : Bytes} {reads : List Nat} {r : Except Error Bytes}
      (h : 0 < remaining) (hhop : chainHop src pageNo remaining = .ok (payload, nextPage))
      (hrest : ChainRun nextPage (remaining - payload.length) reads r) :
      ChainRun pageNo remaining (pageNo :: reads) (r.map fun rest => payload ++ rest)

/-- A round consumes a byte or more. -/
theorem chainHop_ok {pageNo remaining nextPage : Nat} {payload : Bytes}
    (h : chainHop src pageNo remaining = .ok (payload, nextPage)) :
    0 < payload.length ∧ payload.length ≤ remaining := by
  rcases bind_eq_ok.mp h with ⟨page, _, h⟩
  rcases bind_eq_ok.mp h with ⟨header, _, h⟩
  split at h
  · cases h
  split at h
  · cases h
  rename_i hlen
  rcases bind_eq_ok.mp h with ⟨bs, hbs, h⟩
  split at h
  · cases h
  cases h
  rw [slice_length (okOr_eq_ok.mp hbs)]
  rw [not_or, not_or, not_lt] at hlen
  exact ⟨Nat.pos_of_ne_zero hlen.1, hlen.2.1⟩

/-- One hop along an overflow chain. -/
theorem readOverflow_succ (fuel pageNo : Nat) {remaining : Nat} (h : 0 < remaining) :
    readOverflow src (fuel + 1) pageNo remaining =
      (match chainHop src pageNo remaining with
      | .error e => .error e
      | .ok (payload, nextPage) =>
          if remaining - payload.length = 0 then .ok payload
          else (readOverflow src fuel nextPage (remaining - payload.length)).map fun rest => payload ++ rest) := by
  rw [readOverflow, if_neg (Nat.ne_of_gt h)]
  unfold chainHop
  cases src.page pageNo with
  | error e => rfl
  | ok page =>
      rw [ok_bind, ok_bind]
      cases PageHeader.decode page with
      | none => rfl
      | some header =>
          rw [okOr_some, ok_bind, ok_bind]
          dsimp only
          by_cases htype : header.pageType ≠ .overflow
          · rw [if_pos htype, if_pos htype]
            rfl
          rw [if_neg htype, if_neg htype]
          by_cases hused : header.entryCount = 0 ∨ remaining < header.entryCount ∨ usable src.pageSize < header.entryCount
          · rw [if_pos hused, if_pos hused]
            rfl
          rw [if_neg hused, if_neg hused]
          cases hs : slice page PAGE_HEADER_LEN header.entryCount with
          | none => rfl
          | some payload =>
              have hlen := slice_length hs
              rw [okOr_some, ok_bind, ok_bind]
              by_cases hlast : remaining - header.entryCount = 0
              · rw [if_pos hlast, if_neg (by omega)]
                simp only [hlen, hlast, if_true]
              · rw [if_neg hlast]
                by_cases hnext : header.nextPage = 0
                · rw [if_pos hnext, if_pos ⟨Nat.pos_of_ne_zero hlast, hnext⟩]
                  rfl
                · rw [if_neg hnext, if_neg (by tauto)]
                  simp only [hlen, hlast, if_false]
                  cases readOverflow src fuel header.nextPage (remaining - header.entryCount) <;> rfl

/-- The loop ends, after a page for every byte at most, with what `readOverflow` returns. -/
theorem chainRun_readOverflow (fuel pageNo remaining : Nat) (hfuel : remaining ≤ fuel) :
    ∃ reads, ChainRun src pageNo remaining reads (readOverflow src fuel pageNo remaining) ∧
      reads.length ≤ remaining := by
  induction fuel generalizing pageNo remaining with
  | zero =>
      have hzero : remaining = 0 := by omega
      rw [hzero]
      exact ⟨[], ChainRun.done, le_refl _⟩
  | succ fuel ih =>
      rcases Nat.eq_zero_or_pos remaining with hzero | hpos
      · rw [hzero]
        refine ⟨[], ?_, le_refl _⟩
        unfold readOverflow
        exact ChainRun.done
      rw [readOverflow_succ src fuel pageNo hpos]
      cases hhop : chainHop src pageNo remaining with
      | error e => exact ⟨[pageNo], ChainRun.failed hpos hhop, hpos⟩
      | ok r =>
          rcases r with ⟨payload, nextPage⟩
          rcases chainHop_ok src hhop with ⟨hbyte, hle⟩
          rcases ih nextPage (remaining - payload.length) (by omega) with ⟨reads, hrun, hreads⟩
          refine ⟨pageNo :: reads, ?_, by rw [List.length_cons]; omega⟩
          have hall := ChainRun.hop hpos hhop hrun
          dsimp only
          split
          · rename_i hlast
            rw [hlast] at hall
            have hnil : readOverflow src fuel nextPage 0 = .ok [] := by
              cases fuel <;> rfl
            rw [hnil] at hall
            simpa [Except.map] using hall
          · exact hall

/-! ## Lookup -/

def nodeAt (pageNo : Nat) : Except Error (Node Key) := do
  let page ← src.page pageNo
  decodeNode page pageNo

/-- A run of the loop of `get` from its round `i` on, with the nodes it reads. -/
inductive GetRun (key : Key) : Nat → Nat → List Nat → Except Error (Option Bytes) → Prop
  | tooDeep {i pageNo : Nat} (h : MAX_DEPTH ≤ i) :
      GetRun key i pageNo [] (.error (.malformedPage pageNo "b-tree deeper than MAX_DEPTH"))
  | unread {i pageNo : Nat} {e : Error} (h : i < MAX_DEPTH) (hnode : nodeAt src pageNo = .error e) :
      GetRun key i pageNo [pageNo] (.error e)
  | absent {i pageNo : Nat} {entries : List (Key × Cell)} (h : i < MAX_DEPTH)
      (hnode : nodeAt src pageNo = .ok (.leaf entries)) (hfind : find key entries = none) :
      GetRun key i pageNo [pageNo] (.ok none)
  | found {i pageNo : Nat} {entries : List (Key × Cell)} {cell : Cell} (h : i < MAX_DEPTH)
      (hnode : nodeAt src pageNo = .ok (.leaf entries)) (hfind : find key entries = some cell) :
      GetRun key i pageNo [pageNo] ((resolveCell src cell).map some)
  | inner {i pageNo rightmost : Nat} {entries : List (Key × Nat)} {reads : List Nat} {r : Except Error (Option Bytes)}
      (h : i < MAX_DEPTH) (hnode : nodeAt src pageNo = .ok (.inner entries rightmost))
      (hrest : GetRun key (i + 1) (TreeSpec.childAt entries rightmost (TreeSpec.childIndex entries key)) reads r) :
      GetRun key i pageNo (pageNo :: reads) r

/-- What `get` makes of the cell that was looked up. -/
def resolveFound : Option (Cell × Nat) → Except Error (Option Bytes)
  | none => .ok none
  | some (cell, _) => (resolveCell src cell).map some

/-- One level of a lookup. -/
theorem lookup_succ (key : Key) (fuel pageNo : Nat) : spec.lookup src key (fuel + 1) pageNo =
    (match nodeAt src pageNo with
    | .error e => .error e
    | .ok (.leaf entries) => .ok ((find key entries).map (·, pageNo))
    | .ok (.inner entries rightmost) =>
        spec.lookup src key fuel (TreeSpec.childAt entries rightmost (TreeSpec.childIndex entries key))) := by
  rw [TreeSpec.lookup]
  unfold nodeAt
  cases src.page pageNo with
  | error e => rfl
  | ok page =>
      rw [ok_bind, ok_bind]
      show (decodeNode page pageNo >>= _) = _
      cases decodeNode page pageNo with
      | error e => rfl
      | ok node => cases node <;> rfl

/-- The loop ends after as many nodes as the cap leaves. -/
theorem getRun_lookup (key : Key) (fuel i pageNo : Nat) (hdepth : i + fuel = MAX_DEPTH) :
    ∃ reads, GetRun src key i pageNo reads (spec.lookup src key fuel pageNo >>= resolveFound src) ∧
      reads.length ≤ fuel := by
  induction fuel generalizing i pageNo with
  | zero => exact ⟨[], GetRun.tooDeep (by omega), le_refl _⟩
  | succ fuel ih =>
      have hlt : i < MAX_DEPTH := by omega
      rw [lookup_succ]
      cases hnode : nodeAt src pageNo with
      | error e => exact ⟨[pageNo], GetRun.unread hlt hnode, by simp⟩
      | ok node =>
          cases node with
          | leaf entries =>
              refine ⟨[pageNo], ?_, by simp⟩
              dsimp only
              rw [ok_bind]
              cases hfind : find key entries with
              | none => exact GetRun.absent hlt hnode hfind
              | some cell => exact GetRun.found hlt hnode hfind
          | inner entries rightmost =>
              rcases ih (i + 1) (TreeSpec.childAt entries rightmost (TreeSpec.childIndex entries key)) (by omega) with
                ⟨reads, hrun, hreads⟩
              refine ⟨pageNo :: reads, GetRun.inner hlt hnode hrun, ?_⟩
              rw [List.length_cons]
              omega

/-- A read is a lookup, and the value of the cell it finds. -/
theorem get_eq_lookup {root : Nat} (h : root ≠ 0) (key : Key) :
    get src root key = spec.lookup src key MAX_DEPTH root >>= resolveFound src := by
  unfold get
  rw [if_neg h]
  cases spec.lookup src key MAX_DEPTH root with
  | error e => rfl
  | ok found =>
      rw [ok_bind, ok_bind]
      cases found with
      | none => rfl
      | some r =>
          rcases r with ⟨cell, leaf⟩
          show (resolveCell src cell >>= _) = (resolveCell src cell).map some
          cases resolveCell src cell <;> rfl

/-! ## Scan -/

/-- The iterator: the root to start from, its stack, and whether it is fused. -/
structure Scan where
  start : Option Nat
  stack : List Frame
  fused : Bool

/-- `scan`. -/
def Scan.new (root : Nat) : Scan := ⟨if root = 0 then none else some root, [], false⟩

/-- The loop of `Scan::advance`: an item and the stack after it, the end, or an error. -/
inductive Loops : List Frame → Except Error (Option ((Key × Bytes) × List Frame)) → Prop
  | done {stack : List Frame} (h : turn src stack = .ok .done) : Loops stack (.ok none)
  | item {stack stack' : List Frame} {key : Key} {value : Bytes}
      (h : turn src stack = .ok (.item key value stack')) : Loops stack (.ok (some ((key, value), stack')))
  | failed {stack : List Frame} {e : Error} (h : turn src stack = .error e) : Loops stack (.error e)
  | again {stack stack' : List Frame} {r : Except Error (Option ((Key × Bytes) × List Frame))}
      (h : turn src stack = .ok (.again stack')) (hrest : Loops stack' r) : Loops stack r

/-- `Scan::advance`. -/
def Advances (s : Scan) (r : Except Error (Option ((Key × Bytes) × List Frame))) : Prop :=
  match s.start with
  | none => Loops src s.stack r
  | some root =>
      match pushPage src s.stack root with
      | .error e => r = .error e
      | .ok stack => Loops src stack r

/-- `Scan::next`. The stack of a fused iterator is not read again. -/
inductive Next (s : Scan) : Option (Except Error (Key × Bytes)) → Scan → Prop
  | fused (h : s.fused = true) : Next s none s
  | item {item : Key × Bytes} {stack : List Frame} (h : s.fused = false)
      (hadvance : Advances src s (.ok (some (item, stack)))) : Next s (some (.ok item)) ⟨none, stack, false⟩
  | ended (h : s.fused = false) (hadvance : Advances src s (.ok none)) : Next s none ⟨none, [], true⟩
  | failed {e : Error} (h : s.fused = false) (hadvance : Advances src s (.error e)) :
      Next s (some (.error e)) ⟨none, [], true⟩

/-- What the calls of `next` return until one returns `None`. -/
inductive Calls : Scan → List (Except Error (Key × Bytes)) → Prop
  | stop {s s' : Scan} (h : Next src s none s') : Calls s []
  | call {s s' : Scan} {item : Except Error (Key × Bytes)} {items : List (Except Error (Key × Bytes))}
      (h : Next src s (some item) s') (hrest : Calls s' items) : Calls s (item :: items)

/-- The items of an iteration, then its error. -/
def outputs (r : List (Key × Bytes) × Option Error) : List (Except Error (Key × Bytes)) :=
  r.1.map .ok ++ r.2.toList.map .error

/-- An iterator that advances as another does returns what the other returns. -/
theorem Calls.of_advances {s s' : Scan} (hs : s.fused = false) (hs' : s'.fused = false)
    (h : ∀ r, Advances src s' r → Advances src s r) {items : List (Except Error (Key × Bytes))}
    (hcalls : Calls src s' items) : Calls src s items := by
  cases hcalls with
  | stop hnext =>
      cases hnext with
      | fused hf =>
          rw [hs'] at hf
          cases hf
      | ended _ hadvance => exact Calls.stop (Next.ended hs (h _ hadvance))
  | call hnext hrest =>
      cases hnext with
      | item _ hadvance => exact Calls.call (Next.item hs (h _ hadvance)) hrest
      | failed _ hadvance => exact Calls.call (Next.failed hs (h _ hadvance)) hrest

/-- A scan that drains its stack has been called until its end. -/
theorem calls_of_drains {stack : List Frame} {r : List (Key × Bytes) × Option Error} (h : Drains src stack r) :
    Calls src ⟨none, stack, false⟩ (outputs r) := by
  induction h with
  | done hturn => exact Calls.stop (Next.ended rfl (Loops.done hturn))
  | @fused stack e hturn =>
      have hadvance : Advances src ⟨none, stack, false⟩ (.error e) := Loops.failed hturn
      exact Calls.call (Next.failed rfl hadvance) (Calls.stop (Next.fused rfl))
  | again hturn _ ih =>
      refine ih.of_advances src rfl rfl ?_
      intro r hr
      exact Loops.again hturn hr
  | item hturn _ ih => exact Calls.call (Next.item rfl (Loops.item hturn)) ih

/-- The calls of `next` return the items of `scan`, then its error, then nothing more. -/
theorem calls_scan (root : Nat) : Calls src (Scan.new root) (outputs (scan src root)) := by
  have hyields := yields_scan src root
  generalize scan src root = r at hyields
  unfold Scan.new
  cases hyields with
  | empty h =>
      rw [if_pos h]
      exact Calls.stop (Next.ended rfl (Loops.done rfl))
  | @fused h e hpush =>
      rw [if_neg h]
      have hadvance : Advances src ⟨some root, [], false⟩ (.error e) := by
        unfold Advances
        dsimp only
        rw [hpush]
      exact Calls.call (Next.failed rfl hadvance) (Calls.stop (Next.fused rfl))
  | drains h hpush hr =>
      rw [if_neg h]
      refine (calls_of_drains src hr).of_advances src rfl rfl ?_
      intro r' hr'
      unfold Advances
      dsimp only
      rw [hpush]
      exact hr'

/-- The loop of a scan has one outcome. -/
theorem Loops.unique {stack : List Frame} {r r' : Except Error (Option ((Key × Bytes) × List Frame))}
    (h : Loops src stack r) (h' : Loops src stack r') : r = r' := by
  induction h with
  | done hturn =>
      cases h' with
      | done _ => rfl
      | item h2 => rw [hturn] at h2; cases h2
      | failed h2 => rw [hturn] at h2; cases h2
      | again h2 _ => rw [hturn] at h2; cases h2
  | item hturn =>
      cases h' with
      | done h2 => rw [hturn] at h2; cases h2
      | item h2 => rw [hturn] at h2; cases h2; rfl
      | failed h2 => rw [hturn] at h2; cases h2
      | again h2 _ => rw [hturn] at h2; cases h2
  | failed hturn =>
      cases h' with
      | done h2 => rw [hturn] at h2; cases h2
      | item h2 => rw [hturn] at h2; cases h2
      | failed h2 => rw [hturn] at h2; cases h2; rfl
      | again h2 _ => rw [hturn] at h2; cases h2
  | again hturn _ ih =>
      cases h' with
      | done h2 => rw [hturn] at h2; cases h2
      | item h2 => rw [hturn] at h2; cases h2
      | failed h2 => rw [hturn] at h2; cases h2
      | again h2 h3 =>
          rw [hturn] at h2
          cases h2
          exact ih h3

/-- A scan moves on in one way. -/
theorem Advances.unique {s : Scan} {r r' : Except Error (Option ((Key × Bytes) × List Frame))}
    (h : Advances src s r) (h' : Advances src s r') : r = r' := by
  unfold Advances at h h'
  cases hstart : s.start with
  | none =>
      rw [hstart] at h h'
      exact h.unique src h'
  | some root =>
      rw [hstart] at h h'
      dsimp only at h h'
      cases hpush : pushPage src s.stack root with
      | error e =>
          rw [hpush] at h h'
          exact h.trans h'.symm
      | ok stack =>
          rw [hpush] at h h'
          exact h.unique src h'

/-- A call of `next` has one answer. -/
theorem Next.unique {s s₁ s₂ : Scan} {o₁ o₂ : Option (Except Error (Key × Bytes))} (h₁ : Next src s o₁ s₁)
    (h₂ : Next src s o₂ s₂) : o₁ = o₂ ∧ s₁ = s₂ := by
  cases h₁ with
  | fused hf =>
      cases h₂ with
      | fused _ => exact ⟨rfl, rfl⟩
      | item h _ => rw [hf] at h; cases h
      | ended h _ => rw [hf] at h; cases h
      | failed h _ => rw [hf] at h; cases h
  | item hf hadvance =>
      cases h₂ with
      | fused h => rw [hf] at h; cases h
      | item _ h => cases hadvance.unique src h; exact ⟨rfl, rfl⟩
      | ended _ h => cases hadvance.unique src h
      | failed _ h => cases hadvance.unique src h
  | ended hf hadvance =>
      cases h₂ with
      | fused h => rw [hf] at h; cases h
      | item _ h => cases hadvance.unique src h
      | ended _ _ => exact ⟨rfl, rfl⟩
      | failed _ h => cases hadvance.unique src h
  | failed hf hadvance =>
      cases h₂ with
      | fused h => rw [hf] at h; cases h
      | item _ h => cases hadvance.unique src h
      | ended _ h => cases hadvance.unique src h
      | failed _ h => cases hadvance.unique src h; exact ⟨rfl, rfl⟩

/-- The calls of a scan have one list of answers. -/
theorem Calls.unique {s : Scan} {a b : List (Except Error (Key × Bytes))} (ha : Calls src s a)
    (hb : Calls src s b) : a = b := by
  induction ha generalizing b with
  | stop h =>
      cases hb with
      | stop _ => rfl
      | call h' _ => cases (h.unique src h').1
  | call h _ ih =>
      cases hb with
      | stop h' => cases (h.unique src h').1
      | call h' hrest =>
          rcases h.unique src h' with ⟨hitem, hnext⟩
          cases hitem
          rw [← hnext] at hrest
          rw [ih hrest]

/-- Once `next` has returned `None`, or an error, it returns `None` forever. -/
theorem Next.ends {s s' s'' : Scan} {o : Option (Except Error (Key × Bytes))} (h : Next src s none s')
    (h' : Next src s' o s'') : o = none := by
  have hfused : s'.fused = true := by
    cases h with
    | fused hf => exact hf
    | ended _ _ => rfl
  exact (h'.unique src (Next.fused hfused)).1

/-! ## Insertion -/

/-- What `insert` does once `insert_rec` is back: the root moves if it was split. -/
def afterRec (H : Xxh3) (root : Nat) (ins : Ins Key) : TxnM Unit := do
  let newRoot ← (match ins with
    | .fit => pure root
    | .split sep right => spec.freshRoot H root sep right : TxnM Nat)
  if newRoot = root then pure ()
  else TxnM.update fun t => t.setRootBtreePage newRoot

/-- An insertion into a tree is the descent, and what is done about a split of the root. -/
theorem insert_eq (H : Xxh3) {t : Txn} (key : Key) {value : Bytes} (hroot : t.rootBtreePage ≠ 0)
    (hlen : value.length ≤ MAX_RECORD_LEN) : insert H key value t =
      spec.insertRec H MAX_DEPTH t.rootBtreePage key value t >>= fun r => afterRec H t.rootBtreePage r.1 r.2 := by
  unfold insert
  rw [if_neg (not_lt.mpr hlen)]
  show ((spec.upsert H t.rootBtreePage key value) t >>= _) = _
  unfold TreeSpec.upsert
  rw [if_neg hroot]
  show ((spec.insertRec H MAX_DEPTH t.rootBtreePage key value t >>= _) >>= _) = _
  cases spec.insertRec H MAX_DEPTH t.rootBtreePage key value t with
  | error e => rfl
  | ok r =>
      rcases r with ⟨ins, t'⟩
      cases ins <;> rfl

/-! ## All of them -/

/-- On any page source, `get` ends after at most `MAX_DEPTH` nodes, `insert` after as many
levels, `read_overflow` after a page for every byte, and `scan` yields finitely many items
and then at most one error. -/
theorem reads_end (H : Xxh3) (src : PageSource) :
    (∀ root key, root ≠ 0 → ∃ reads, GetRun src key 0 root reads (get src root key) ∧ reads.length ≤ MAX_DEPTH) ∧
    (∀ (t : Txn) key (value : Bytes), t.rootBtreePage ≠ 0 → value.length ≤ MAX_RECORD_LEN → ∃ levels ≤ MAX_DEPTH,
      ∃ r, spec.InsertRun H key value 0 t.rootBtreePage t levels r ∧
        insert H key value t = r >>= fun x => afterRec H t.rootBtreePage x.1 x.2) ∧
    (∀ firstPage totalLen, ∃ reads, ChainRun src firstPage totalLen reads (readOverflow src totalLen firstPage totalLen) ∧
      reads.length ≤ totalLen) ∧
    ∀ root, ∃ items : List (Key × Bytes), ∃ error : Option Error,
      Calls src (Scan.new root) (items.map .ok ++ error.toList.map .error) ∧
      ∀ out, Calls src (Scan.new root) out → out = items.map .ok ++ error.toList.map .error := by
  refine ⟨?_, ?_, ?_, ?_⟩
  · intro root key hroot
    rw [get_eq_lookup src hroot]
    exact getRun_lookup src key MAX_DEPTH 0 root (Nat.zero_add _)
  · intro t key value hroot hlen
    rcases spec.insertRun_insertRec H key value MAX_DEPTH 0 t.rootBtreePage t (Nat.zero_add _) with
      ⟨levels, hlevels, hrun⟩
    exact ⟨levels, hlevels, _, hrun, insert_eq H key hroot hlen⟩
  · intro firstPage totalLen
    exact chainRun_readOverflow src totalLen firstPage totalLen (le_refl _)
  · intro root
    refine ⟨(scan src root).1, (scan src root).2, calls_scan src root, ?_⟩
    intro out hout
    exact hout.unique src (calls_scan src root)

/-- A source on which every page is an inner node whose children are page 7. -/
def cycle : PageSource where
  page := fun _ => okOr (encodeInner [(zeroKey, 7)] 7 512) .badHeader
  pageSize := 512
  formatVersion := FORMAT_VERSION

/-- On pages that lead round in a circle a lookup ends too. -/
theorem reads_end_cycle : ∃ reads, GetRun cycle ⟨List.replicate 16 1, List.length_replicate⟩ 0 7 reads
      (get cycle 7 ⟨List.replicate 16 1, List.length_replicate⟩) ∧ reads.length ≤ MAX_DEPTH :=
  (reads_end ⟨fun _ => 0, fun _ _ => 0⟩ cycle).1 7 _ (by decide)

end Btree

end EmbedMind
