import EmbedMind.Index.DictProof
import EmbedMind.Index.Postings
import EmbedMind.Lib.Sorting

/-!
# A postings body reads back

`decode_encode`: decoding an encoded list gives the list, or the error of a zero
frequency if there is one. The encoder and the decoder walk the same structure, so
each lemma here reads one piece of it at an offset: a varint, a run, a frame, a skip
entry, a block.
-/

namespace EmbedMind

open Lib Lib.Assoc

namespace Fts

variable {body : Bytes} {off : Nat} (pageNo : Nat)

/-- The result of reading entries: a zero frequency is refused. -/
def checked {β : Type} (entries : List Posting) (pageNo : Nat) (x : β) : Except Error β :=
  if entries.all (fun p => decide (p.2 ≠ 0)) then .ok x
  else malformed pageNo "fts posting zero term_freq"

/-- Postings without a zero frequency pass the check. -/
theorem checked_of_pos {β : Type} {entries : List Posting} (x : β) (h : ∀ p ∈ entries, 0 < p.2) :
    checked entries pageNo x = .ok x := by
  unfold checked
  rw [if_pos]
  rw [List.all_eq_true]
  intro p hp
  have := h p hp
  simp
  omega

/-! ## Varints -/

theorem putVarintUpTo_length_pos {fuel : Nat} (h : 0 < fuel) (v : Nat) :
    0 < (putVarintUpTo fuel v).length := by
  obtain ⟨n, rfl⟩ : ∃ n, fuel = n + 1 := ⟨fuel - 1, by omega⟩
  unfold putVarintUpTo
  split <;> simp

theorem putVarint_length_pos (v : Nat) : 0 < (putVarint v).length :=
  putVarintUpTo_length_pos (by decide) v

/-- Reading from byte `i` on: the bits before it are in `value`, those to come in `v`. -/
theorem readVarintFrom_eq {fuel left v : Nat} (i value : Nat) (hv : v < 128 ^ fuel) (hfuel : 0 < fuel)
    (hleft : fuel ≤ left) (hvalue : value < 2 ^ (7 * i)) (hbound : v * 2 ^ (7 * i) < 2 ^ 128)
    (h : HasAt body (off + i) (putVarintUpTo fuel v)) :
    readVarintFrom body off pageNo left i value =
      .ok (value + v * 2 ^ (7 * i), off + i + (putVarintUpTo fuel v).length) := by
  induction fuel generalizing left i value v with
  | zero => omega
  | succ fuel ih =>
      obtain ⟨left, rfl⟩ : ∃ l, left = l + 1 := ⟨left - 1, by omega⟩
      -- the low seven bits are added above the bits that are there
      have hlow : v % 128 * 2 ^ (7 * i) ≤ v * 2 ^ (7 * i) :=
        Nat.mul_le_mul_right _ (Nat.mod_le _ _)
      have hshift : v % 128 * 2 ^ (7 * i) % 2 ^ 128 = v % 128 * 2 ^ (7 * i) :=
        Nat.mod_eq_of_lt (lt_of_le_of_lt hlow hbound)
      have hback : v % 128 * 2 ^ (7 * i) / 2 ^ (7 * i) = v % 128 :=
        Nat.mul_div_cancel _ (by positivity)
      have hor : value ||| v % 128 * 2 ^ (7 * i) = value + v % 128 * 2 ^ (7 * i) := by
        rw [Nat.mul_comm, Nat.or_comm, ← Nat.two_pow_add_eq_or_of_lt hvalue, Nat.add_comm]
      unfold putVarintUpTo at h ⊢
      split at h
      · -- the last byte
        rename_i hlast
        rw [if_pos hlast]
        have hlt : v < 128 := by omega
        have hsmall : v % 128 = v := Nat.mod_eq_of_lt hlt
        rw [hsmall] at h hshift hback hor ⊢
        have hbyte := (hasAt_cons.mp h).1.getElem?
        have htoNat : (UInt8.ofNat v).toNat = v := by
          rw [UInt8.toNat_ofNat']
          omega
        simp only [readVarintFrom, hbyte, okOr_some, bind, Except.bind, htoNat, hsmall, hshift, hback,
          hor, hlt, ne_eq, not_true_eq_false, and_false, if_false, if_true, List.length_singleton]
      · rename_i hmore
        rw [if_neg hmore]
        -- more bytes follow
        obtain ⟨hbyte, hrest⟩ := hasAt_cons.mp h
        have htoNat : (UInt8.ofNat (v % 128 + 128)).toNat = v % 128 + 128 := by
          rw [UInt8.toNat_ofNat']
          omega
        have hbits : (v % 128 + 128) % 128 = v % 128 := by omega
        have hpow : 2 ^ (7 * (i + 1)) = 128 * 2 ^ (7 * i) := by
          rw [Nat.mul_add, pow_add, Nat.mul_comm]
          norm_num
        have hsplit : v * 2 ^ (7 * i) = v / 128 * 2 ^ (7 * (i + 1)) + v % 128 * 2 ^ (7 * i) := by
          conv_lhs => rw [← Nat.div_add_mod v 128]
          rw [hpow]
          ring
        -- the bits so far stay below the next byte's
        have hvalue' : value + v % 128 * 2 ^ (7 * i) < 2 ^ (7 * (i + 1)) := by
          have h1 : v % 128 * 2 ^ (7 * i) ≤ 127 * 2 ^ (7 * i) :=
            Nat.mul_le_mul_right _ (by omega)
          rw [hpow]
          omega
        have hv' : v / 128 < 128 ^ fuel := by
          rw [pow_succ] at hv
          exact Nat.div_lt_of_lt_mul (by rwa [Nat.mul_comm])
        have hfuel' : 0 < fuel := by
          rcases Nat.eq_zero_or_pos fuel with rfl | hpos
          · simp at hv'
            omega
          · exact hpos
        have hnext := ih (i + 1) (value + v % 128 * 2 ^ (7 * i)) hv' hfuel' (Nat.le_of_succ_le_succ hleft) hvalue'
          (by omega) hrest
        simp only [readVarintFrom, hbyte.getElem?, okOr_some, bind, Except.bind, htoNat, hbits, hshift,
          hback, hor, ne_eq, not_true_eq_false, and_false, if_false, List.length_cons]
        rw [if_neg (by omega), hnext, hsplit]
        congr 2 <;> ring

/-- A varint is read back. -/
theorem readVarint_eq {v : Nat} (hv : v < 2 ^ 128) (h : HasAt body off (putVarint v)) :
    readVarint body off pageNo = .ok (v, off + (putVarint v).length) := by
  have hv' : v < 128 ^ MAX_VARINT_LEN := lt_of_lt_of_le hv (by norm_num [MAX_VARINT_LEN])
  have hread := readVarintFrom_eq pageNo 0 0 hv' (by decide) (le_refl _) (by norm_num)
    (by simpa using hv) h
  simpa [readVarint, putVarint] using hread

/-! ## Runs -/

/-- The number a delta is taken from. -/
def base (prev : Option Ulid) : Nat := (prev.map Fin.val).getD 0

/-- The difference of ids in order does not wrap. -/
theorem wrappingSub_eq {a b : Nat} (hab : b ≤ a) (ha : a < 2 ^ 128) : wrappingSub a b = a - b := by
  unfold wrappingSub
  omega

theorem wrappingSub_lt (a b : Nat) : wrappingSub a b < 2 ^ 128 := Nat.mod_lt _ (by norm_num)

/-- The next id is read back from its difference. -/
theorem nextId_eq {prev : Option Ulid} {id : Ulid} (h : ∀ p ∈ prev, p < id) :
    nextId prev (wrappingSub id.val (base prev)) pageNo = .ok id := by
  have hid := id.isLt
  cases prev with
  | none =>
      have hsub : wrappingSub id.val 0 = id.val := wrappingSub_eq (Nat.zero_le _) hid
      simp only [nextId, base, Option.map_none, Option.getD_none, hsub]
      rw [dif_pos hid]
  | some p =>
      have hlt : p.val < id.val := h p rfl
      have hsub : wrappingSub id.val p.val = id.val - p.val := wrappingSub_eq (by omega) hid
      have hne : id.val - p.val ≠ 0 := by omega
      have hadd : p.val + (id.val - p.val) = id.val := by omega
      simp only [nextId, base, Option.map_some, Option.getD_some, hsub, hne, if_false, hadd]
      rw [dif_pos hid]

/-- A frequency is read, zero being refused. -/
theorem termFreq_eq {tf : Nat} (h : tf < 2 ^ 32) :
    termFreq tf pageNo = if tf = 0 then malformed pageNo "fts posting zero term_freq" else .ok tf := by
  unfold termFreq
  rw [if_neg (by omega)]

/-- Checking one more posting. -/
theorem checked_cons {β : Type} {p : Posting} {entries : List Posting} (x : β) :
    checked (p :: entries) pageNo x =
      if p.2 = 0 then malformed pageNo "fts posting zero term_freq" else checked entries pageNo x := by
  unfold checked
  by_cases h : p.2 = 0
  · simp [h]
  · have hpos : decide (p.2 ≠ 0) = true := by simpa using h
    rw [List.all_cons, hpos, Bool.true_and, if_neg h]

/-- What follows a checked read is checked with it. -/
theorem checked_ok {β : Type} {entries : List Posting} {x y : β}
    (h : checked entries pageNo x = .ok y) : (∀ p ∈ entries, 0 < p.2) ∧ x = y := by
  unfold checked at h
  split at h
  · rename_i hall
    cases h
    refine ⟨?_, rfl⟩
    intro p hp
    have := List.all_eq_true.mp hall p hp
    simp only [ne_eq, decide_eq_true_eq] at this
    omega
  · cases h

/-- A check that comes first. -/
theorem checked_bind {β γ : Type} {entries : List Posting} (x : β) (f : β → Except Error γ) (y : γ)
    (h : f x = .ok y) : (checked entries pageNo x >>= f) = checked entries pageNo y := by
  unfold checked
  split
  · exact h
  · rfl

/-- One entry of a run: its frequency is checked, then the rest. -/
theorem checked_step {β γ : Type} {entries : List Posting} {id : Ulid} {tf : Nat} (htf : tf < 2 ^ 32)
    (x : β) (f : Nat → β → Except Error γ) (y : γ) (h : f tf x = .ok y) :
    (termFreq tf pageNo >>= fun tf => checked entries pageNo x >>= f tf) =
      checked ((id, tf) :: entries) pageNo y := by
  rw [termFreq_eq pageNo htf, checked_cons]
  split
  · rfl
  · exact checked_bind pageNo x _ y h

variable {entries : List Posting}

/-- Differences and frequencies are read back. -/
theorem decodeDeltas_eq (prev : Option Ulid) (hsorted : Sorted entries)
    (hprev : ∀ p ∈ prev, ∀ e ∈ entries, p < e.1) (htf : ∀ e ∈ entries, e.2 < 2 ^ 32)
    (h : HasAt body off (encodeDeltas (base prev) entries)) :
    decodeDeltas body pageNo entries.length prev off =
      checked entries pageNo (entries, off + (encodeDeltas (base prev) entries).length) := by
  induction entries generalizing prev off with
  | nil => simp [decodeDeltas, encodeDeltas, checked]
  | cons e rest ih =>
      obtain ⟨id, tf⟩ := e
      obtain ⟨hlt, hsorted'⟩ := List.pairwise_cons.mp hsorted
      have htf' : tf < 2 ^ 32 := htf (id, tf) List.mem_cons_self
      simp only [encodeDeltas, List.append_assoc] at h
      obtain ⟨h1, h⟩ := hasAt_append.mp h
      obtain ⟨h2, h3⟩ := hasAt_append.mp h
      have hread1 := readVarint_eq pageNo (wrappingSub_lt _ _) h1
      have hid : nextId prev (wrappingSub id.val (base prev)) pageNo = .ok id :=
        nextId_eq pageNo fun p hp => hprev p hp (id, tf) List.mem_cons_self
      have hread2 := readVarint_eq pageNo (by omega : tf < 2 ^ 128) h2
      have hrest := ih (some id) hsorted' (by
        intro p hp x hx
        cases hp
        exact hlt x hx) (fun x hx => htf x (List.mem_cons_of_mem _ hx)) h3
      simp only [List.length_cons, decodeDeltas, hread1, ok_bind, hid, hread2, hrest]
      refine checked_step pageNo htf' _ (fun tf (r : List Posting × Nat) => .ok ((id, tf) :: r.1, r.2)) _ ?_
      simp only [encodeDeltas, List.length_append, base, Option.map_some, Option.getD_some]
      congr 2
      omega

/-- So is a run of them. -/
theorem decodeDeltaRun_eq (hsorted : Sorted entries) (htf : ∀ e ∈ entries, e.2 < 2 ^ 32)
    (h : HasAt body off (encodeDeltaRun entries)) :
    decodeDeltaRun body off entries.length pageNo =
      checked entries pageNo (entries, off + (encodeDeltaRun entries).length) :=
  decodeDeltas_eq pageNo none hsorted (by simp) htf h

/-- A posting takes at least two bytes. -/
theorem two_mul_length_le_encodeDeltas (prev : Nat) (entries : List Posting) :
    2 * entries.length ≤ (encodeDeltas prev entries).length := by
  induction entries generalizing prev with
  | nil => simp
  | cons e rest ih =>
      obtain ⟨id, tf⟩ := e
      have h1 := putVarint_length_pos (wrappingSub id.val prev)
      have h2 := putVarint_length_pos tf
      have h3 := ih id.val
      simp only [encodeDeltas, List.length_append, List.length_cons]
      omega

/-! ## Frames of reference -/

/-- The width is the least that holds the value. -/
theorem byteWidthUpTo_spec {fuel v : Nat} (hv : v < 256 ^ fuel) (hfuel : 0 < fuel) :
    1 ≤ byteWidthUpTo fuel v ∧ byteWidthUpTo fuel v ≤ fuel ∧ v < 256 ^ byteWidthUpTo fuel v := by
  induction fuel generalizing v with
  | zero => omega
  | succ fuel ih =>
      unfold byteWidthUpTo
      split
      · refine ⟨le_refl _, by omega, by simpa⟩
      · rename_i hbig
        have hv' : v / 256 < 256 ^ fuel := by
          rw [pow_succ] at hv
          exact Nat.div_lt_of_lt_mul (by rwa [Nat.mul_comm])
        have hfuel' : 0 < fuel := by
          rcases Nat.eq_zero_or_pos fuel with rfl | hpos
          · simp at hv'
            omega
          · exact hpos
        obtain ⟨h1, h2, h3⟩ := ih hv' hfuel'
        refine ⟨by omega, by omega, ?_⟩
        rw [pow_add, pow_one]
        omega

/-- No wider than any width that holds it. -/
theorem byteWidthUpTo_le {fuel w v : Nat} (hv : v < 256 ^ w) (hw : 0 < w) : byteWidthUpTo fuel v ≤ w := by
  induction fuel generalizing v w with
  | zero => exact Nat.zero_le _
  | succ fuel ih =>
      unfold byteWidthUpTo
      split
      · exact hw
      · rename_i hbig
        obtain ⟨w, rfl⟩ : ∃ u, w = u + 1 := ⟨w - 1, by omega⟩
        have hv' : v / 256 < 256 ^ w := by
          rw [pow_succ] at hv
          exact Nat.div_lt_of_lt_mul (by rwa [Nat.mul_comm])
        have hw' : 0 < w := by
          rcases Nat.eq_zero_or_pos w with rfl | hpos
          · simp at hv'
            omega
          · exact hpos
        have := ih hv' hw'
        omega

/-- The maximum is an upper bound. -/
theorem le_maxOf {l : List Nat} {x : Nat} (h : x ∈ l) : x ≤ maxOf l := (foldl_max_ge l 0).2 x h

theorem maxOf_lt {l : List Nat} {b : Nat} (hb : 0 < b) (h : ∀ x ∈ l, x < b) : maxOf l < b :=
  foldl_max_lt hb h

/-- Differences fit an id. -/
theorem deltas_lt {prev : Nat} {entries : List Posting} : ∀ d ∈ deltas prev entries, d < 2 ^ 128 := by
  induction entries generalizing prev with
  | nil => simp [deltas]
  | cons e rest ih =>
      intro d hd
      rcases List.mem_cons.mp hd with rfl | hd
      · exact wrappingSub_lt _ _
      · exact ih d hd

@[simp] theorem deltas_length (prev : Nat) (entries : List Posting) :
    (deltas prev entries).length = entries.length := by
  induction entries generalizing prev with
  | nil => rfl
  | cons e rest ih => simp [deltas, ih]

@[simp] theorem putFixed_length (w : Nat) (values : List Nat) :
    (putFixed w values).length = values.length * w := by
  induction values with
  | nil => simp [putFixed]
  | cons v values ih =>
      have hcons : putFixed w (v :: values) = leBytes w v ++ putFixed w values := rfl
      rw [hcons, List.length_append, leBytes_length, ih, List.length_cons]
      ring

/-- A number of fixed width is read back. -/
theorem readFixed_eq {w v : Nat} (hv : v < 256 ^ w) (h : HasAt body off (leBytes w v)) :
    readFixed body off w pageNo = .ok v := by
  rw [readFixed, h.readLE hv, okOr_some]

/-- A frame of fixed widths is read back. -/
theorem decodeFrame_eq {dw tw tfOff : Nat} (prev : Option Ulid) (hsorted : Sorted entries)
    (hprev : ∀ p ∈ prev, ∀ e ∈ entries, p < e.1) (htf : ∀ e ∈ entries, e.2 < 2 ^ 32)
    (hdw : ∀ d ∈ deltas (base prev) entries, d < 256 ^ dw) (htw : ∀ e ∈ entries, e.2 < 256 ^ tw)
    (hd : HasAt body off (putFixed dw (deltas (base prev) entries)))
    (ht : HasAt body tfOff (putFixed tw (entries.map Prod.snd))) :
    decodeFrame body dw tw pageNo entries.length prev off tfOff = checked entries pageNo entries := by
  induction entries generalizing prev off tfOff with
  | nil => simp [decodeFrame, checked]
  | cons e rest ih =>
      obtain ⟨id, tf⟩ := e
      obtain ⟨hlt, hsorted'⟩ := List.pairwise_cons.mp hsorted
      have htf' : tf < 2 ^ 32 := htf (id, tf) List.mem_cons_self
      have hdw' : wrappingSub id.val (base prev) < 256 ^ dw := hdw _ List.mem_cons_self
      have htw' : tf < 256 ^ tw := htw (id, tf) List.mem_cons_self
      obtain ⟨hd1, hd2⟩ := hasAt_append.mp hd
      obtain ⟨ht1, ht2⟩ := hasAt_append.mp ht
      rw [leBytes_length] at hd2 ht2
      have hread1 := readFixed_eq pageNo hdw' hd1
      have hid : nextId prev (wrappingSub id.val (base prev)) pageNo = .ok id :=
        nextId_eq pageNo fun p hp => hprev p hp (id, tf) List.mem_cons_self
      have hread2 := readFixed_eq pageNo htw' ht1
      have hrest := ih (some id) hsorted' (by
        intro p hp x hx
        cases hp
        exact hlt x hx) (fun x hx => htf x (List.mem_cons_of_mem _ hx))
        (fun d hd => hdw d (List.mem_cons_of_mem _ hd))
        (fun x hx => htw x (List.mem_cons_of_mem _ hx)) hd2 ht2
      simp only [List.length_cons, decodeFrame, hread1, ok_bind, hid, hread2, hrest]
      exact checked_step pageNo htf' _ (fun tf r => .ok ((id, tf) :: r)) _ rfl

/-- The bytes of a frame block. -/
theorem encodeForBlock_length (entries : List Posting) :
    (encodeForBlock entries).length = 2 + entries.length * (byteWidth (maxOf (deltas 0 entries)) +
      byteWidth (maxOf (entries.map Prod.snd))) := by
  simp only [encodeForBlock, List.length_cons, List.length_append, putFixed_length, deltas_length,
    List.length_map]
  ring

/-- A frame block is read back. -/
theorem decodeForBlock_eq (hsorted : Sorted entries) (htf : ∀ e ∈ entries, e.2 < 2 ^ 32)
    (h : HasAt body off (encodeForBlock entries)) :
    decodeForBlock body off entries.length pageNo =
      checked entries pageNo (entries, off + (encodeForBlock entries).length) := by
  have hend := h.le
  rw [encodeForBlock_length] at hend ⊢
  -- both widths hold every value of their column
  have hmaxd : maxOf (deltas 0 entries) < 256 ^ 16 := maxOf_lt (by norm_num) deltas_lt
  have hmaxt : maxOf (entries.map Prod.snd) < 256 ^ 4 := by
    refine maxOf_lt (by norm_num) ?_
    intro x hx
    obtain ⟨e, he, rfl⟩ := List.mem_map.mp hx
    exact htf e he
  obtain ⟨hd1, hd2, hd3⟩ := byteWidthUpTo_spec hmaxd (by norm_num)
  have ht16 : maxOf (entries.map Prod.snd) < 256 ^ 16 := lt_of_lt_of_le hmaxt (by norm_num)
  obtain ⟨ht1, _, ht3⟩ := byteWidthUpTo_spec ht16 (by norm_num)
  have ht2 : byteWidth (maxOf (entries.map Prod.snd)) ≤ 4 := byteWidthUpTo_le hmaxt (by norm_num)
  -- the two width bytes, then the two columns
  obtain ⟨hb1, h⟩ := hasAt_cons.mp h
  obtain ⟨hb2, h⟩ := hasAt_cons.mp h
  obtain ⟨hs1, hs2⟩ := hasAt_append.mp h
  rw [putFixed_length, deltas_length] at hs2
  change 1 ≤ byteWidth (maxOf (deltas 0 entries)) at hd1
  change byteWidth (maxOf (deltas 0 entries)) ≤ 16 at hd2
  change _ < 256 ^ byteWidth (maxOf (deltas 0 entries)) at hd3
  change 1 ≤ byteWidth (maxOf (entries.map Prod.snd)) at ht1
  change _ < 256 ^ byteWidth (maxOf (entries.map Prod.snd)) at ht3
  generalize byteWidth (maxOf (deltas 0 entries)) = dw at *
  generalize byteWidth (maxOf (entries.map Prod.snd)) = tw at *
  have hdw : (UInt8.ofNat dw).toNat = dw := by
    rw [UInt8.toNat_ofNat']
    omega
  have htw : (UInt8.ofNat tw).toNat = tw := by
    rw [UInt8.toNat_ofNat']
    omega
  -- the frame behind them decodes to the entries
  have hframe : decodeFrame body dw tw pageNo entries.length none (off + 1 + 1) _ = _ :=
    decodeFrame_eq pageNo none hsorted (by simp) htf (fun d hd => lt_of_le_of_lt (le_maxOf hd) hd3)
      (fun e he => lt_of_le_of_lt (le_maxOf (List.mem_map_of_mem he)) ht3) hs1 hs2
  have hrange : ¬ (¬ (1 ≤ dw ∧ dw ≤ 16) ∨ ¬ (1 ≤ tw ∧ tw ≤ 4)) := by omega
  have hfits : ¬ body.length < off + 2 + entries.length * (dw + tw) := by omega
  rw [decodeForBlock, hb1.getElem?, okOr_some, ok_bind, hb2.getElem?, okOr_some, ok_bind]
  simp only [hdw, htw]
  rw [if_neg hrange, if_neg hfits, hframe]
  refine checked_bind pageNo _ _ _ ?_
  congr 2
  ring

/-! ## Fixed width -/

/-- Entries of fixed width are read back. -/
theorem decodeFixedEntries_eq (prev : Option Ulid) (hsorted : Sorted entries)
    (hprev : ∀ p ∈ prev, ∀ e ∈ entries, p < e.1) (htf : ∀ e ∈ entries, e.2 < 2 ^ 32)
    (h : HasAt body off (encodeFixedWidth entries)) :
    decodeFixedEntries body pageNo entries.length prev off = checked entries pageNo entries := by
  induction entries generalizing prev off with
  | nil => simp [decodeFixedEntries, checked]
  | cons e rest ih =>
      obtain ⟨id, tf⟩ := e
      obtain ⟨hlt, hsorted'⟩ := List.pairwise_cons.mp hsorted
      have hcons : encodeFixedWidth ((id, tf) :: rest) =
          Ulid.toBytes id ++ leBytes 4 tf ++ encodeFixedWidth rest := rfl
      rw [hcons] at h
      obtain ⟨h1, h3⟩ := hasAt_append.mp h
      obtain ⟨h1, h2⟩ := hasAt_append.mp h1
      rw [List.length_append, Ulid.toBytes_length, leBytes_length] at h3
      rw [Ulid.toBytes_length] at h2
      have hfresh : prev.any (fun p => decide (id ≤ p)) = false := by
        cases prev with
        | none => rfl
        | some p =>
            have := hprev p rfl (id, tf) List.mem_cons_self
            simpa using this
      have hread := Dict.readInt_of_hasAt pageNo h2 (htf (id, tf) List.mem_cons_self)
      have hrest := ih (some id) hsorted' (by
        intro p hp x hx
        cases hp
        exact hlt x hx) (fun x hx => htf x (List.mem_cons_of_mem _ hx)) h3
      simp only [List.length_cons, decodeFixedEntries, h1.slice (Ulid.toBytes_length id), okOr_some,
        ok_bind, Ulid.fromBytes_toBytes, hfresh, Bool.false_eq_true, if_false, hread, POSTING_LEN, hrest,
        checked_cons]
      split
      · rfl
      · exact checked_bind pageNo _ _ _ rfl

theorem encodeFixedWidth_length (entries : List Posting) :
    (encodeFixedWidth entries).length = entries.length * POSTING_LEN := by
  induction entries with
  | nil => simp [encodeFixedWidth]
  | cons e rest ih =>
      have hcons : encodeFixedWidth (e :: rest) =
          Ulid.toBytes e.1 ++ leBytes 4 e.2 ++ encodeFixedWidth rest := rfl
      rw [hcons, List.length_append, List.length_append, Ulid.toBytes_length, leBytes_length, ih,
        List.length_cons, Nat.succ_mul, POSTING_LEN]
      omega

/-! ## The skip index -/

section Skip

variable {entry : SkipEntry} {fr : Bool} {blocks : List (List Posting)}

/-- Where block `b` starts in the blocks region. -/
def blockOffset (fr : Bool) (blocks : List (List Posting)) (b : Nat) : Nat :=
  ((blocks.take b).flatMap (encodeBlock fr)).length

@[simp] theorem skipEntry_length (byteOffset : Nat) (block : List Posting) :
    (skipEntry entry byteOffset block).length = entry.len := by
  cases entry <;> simp [skipEntry, SkipEntry.len, SKIP_ENTRY_LEN_V5, SKIP_ENTRY_LEN_V6]

@[simp] theorem skipIndex_length (o : Nat) :
    (skipIndex entry fr o blocks).length = blocks.length * entry.len := by
  induction blocks generalizing o with
  | nil => simp [skipIndex]
  | cons block rest ih =>
      rw [skipIndex, List.length_append, skipEntry_length, ih, List.length_cons, Nat.succ_mul]
      omega

/-- The entry of a block stands at its place in the skip index. -/
theorem skipIndex_hasAt {o b : Nat} {block : List Posting}
    (h : HasAt body off (skipIndex entry fr o blocks)) (hb : blocks[b]? = some block) :
    HasAt body (off + b * entry.len) (skipEntry entry (o + blockOffset fr blocks b) block) := by
  induction blocks generalizing off o b with
  | nil => simp at hb
  | cons c rest ih =>
      rw [skipIndex] at h
      obtain ⟨h1, h2⟩ := hasAt_append.mp h
      rw [skipEntry_length] at h2
      cases b with
      | zero =>
          simp only [List.getElem?_cons_zero, Option.some.injEq] at hb
          subst hb
          simpa [blockOffset] using h1
      | succ b =>
          have hnext := ih h2 (by simpa using hb)
          have hoff : off + (b + 1) * entry.len = off + entry.len + b * entry.len := by ring
          have hbo : o + blockOffset fr (c :: rest) (b + 1) =
              o + (encodeBlock fr c).length + blockOffset fr rest b := by
            simp only [blockOffset, List.take_succ_cons, List.flatMap_cons, List.length_append]
            omega
          rw [hoff, hbo]
          exact hnext

/-- A block stands at its offset. -/
theorem blocks_hasAt {b : Nat} {block : List Posting}
    (h : HasAt body off (blocks.flatMap (encodeBlock fr))) (hb : blocks[b]? = some block) :
    HasAt body (off + blockOffset fr blocks b) (encodeBlock fr block) := by
  induction blocks generalizing off b with
  | nil => simp at hb
  | cons c rest ih =>
      rw [List.flatMap_cons] at h
      obtain ⟨h1, h2⟩ := hasAt_append.mp h
      cases b with
      | zero =>
          simp only [List.getElem?_cons_zero, Option.some.injEq] at hb
          subst hb
          simpa [blockOffset] using h1
      | succ b =>
          have hnext := ih h2 (by simpa using hb)
          have hbo : off + blockOffset fr (c :: rest) (b + 1) =
              off + (encodeBlock fr c).length + blockOffset fr rest b := by
            simp only [blockOffset, List.take_succ_cons, List.flatMap_cons, List.length_append]
            omega
          rw [hbo]
          exact hnext

/-- What a reader finds in the skip entry of a block. -/
def stored (entry : SkipEntry) (byteOffset : Nat) (block : List Posting) : StoredEntry :=
  ⟨firstId block, if entry = .v6 then some (lastId block) else none, byteOffset, maxTf block⟩

theorem firstId_lt (block : List Posting) : firstId block < 2 ^ 128 := by
  unfold firstId
  cases block with
  | nil => norm_num
  | cons e _ => exact e.1.isLt

theorem lastId_lt (block : List Posting) : lastId block < 2 ^ 128 := by
  unfold lastId
  cases block.getLast? with
  | none => norm_num
  | some e => exact e.1.isLt

/-- The largest frequency of a block fits four bytes. -/
theorem maxTf_lt {block : List Posting} (h : ∀ e ∈ block, e.2 < 2 ^ 32) : maxTf block < 2 ^ 32 := by
  refine maxOf_lt (by norm_num) ?_
  intro x hx
  obtain ⟨e, he, rfl⟩ := List.mem_map.mp hx
  exact h e he

theorem readU128LE_eq {v : Nat} (hv : v < 2 ^ 128) (h : HasAt body off (leBytes 16 v)) :
    readU128LE body off pageNo = .ok v := by
  have hv' : v < 256 ^ 16 := hv
  rw [readU128LE, h.readLE hv', okOr_some]

/-- A skip entry is read back. -/
theorem readSkipEntry_eq {b o : Nat} {block : List Posting} (ho : o < 2 ^ 32)
    (htf : ∀ e ∈ block, e.2 < 2 ^ 32) (h : HasAt body (8 + b * entry.len) (skipEntry entry o block)) :
    readSkipEntry body pageNo entry b = .ok (stored entry o block) := by
  have htf' := maxTf_lt htf
  unfold skipEntry at h
  obtain ⟨h, h4⟩ := hasAt_append.mp h
  obtain ⟨h, h3⟩ := hasAt_append.mp h
  obtain ⟨h1, h2⟩ := hasAt_append.mp h
  have hread1 := readU128LE_eq pageNo (firstId_lt block) h1
  cases entry with
  | v5 =>
      simp only [reduceCtorEq, if_false, List.append_nil, List.length_append, leBytes_length] at h3 h4
      have hread3 := Dict.readInt_of_hasAt pageNo h3 ho
      have hread4 := Dict.readInt_of_hasAt pageNo h4 htf'
      rw [← Nat.add_assoc] at hread4
      simp only [readSkipEntry, SkipEntry.tailOff, hread1, ok_bind, hread3, hread4, stored, reduceCtorEq,
        if_false]
  | v6 =>
      simp only [if_true, List.length_append, leBytes_length] at h2 h3 h4
      have hread2 := readU128LE_eq pageNo (lastId_lt block) h2
      have hread3 := Dict.readInt_of_hasAt pageNo h3 ho
      have hread4 := Dict.readInt_of_hasAt pageNo h4 htf'
      rw [← Nat.add_assoc] at hread4
      simp only [readSkipEntry, SkipEntry.tailOff, hread1, ok_bind, hread2, hread3, hread4, stored, if_true]

/-- The block bodies of a layout. -/
def PostingsLayout.isFrame : PostingsLayout → Bool
  | .frameOfReference => true
  | _ => false

/-- A block is read back. -/
theorem decodeBlockRun_eq (layout : PostingsLayout) (hsorted : Sorted entries)
    (htf : ∀ e ∈ entries, e.2 < 2 ^ 32) (h : HasAt body off (encodeBlock layout.isFrame entries)) :
    decodeBlockRun layout body off entries.length pageNo =
      checked entries pageNo (entries, off + (encodeBlock layout.isFrame entries).length) := by
  cases layout with
  | frameOfReference => exact decodeForBlock_eq pageNo hsorted htf h
  | fixedWidth => exact decodeDeltaRun_eq pageNo hsorted htf h
  | deltaVarint => exact decodeDeltaRun_eq pageNo hsorted htf h
  | deltaVarintSkip _ => exact decodeDeltaRun_eq pageNo hsorted htf h

/-- The entry of a block passes its check. -/
theorem checkBlock_stored {o : Nat} {block : List Posting} {prevLast : Option Nat}
    (h : ∀ p ∈ prevLast, p < firstId block) :
    checkBlock (stored entry o block) block prevLast pageNo = .ok () := by
  have hprev : prevLast.any (fun p => decide (firstId block ≤ p)) = false := by
    cases prevLast with
    | none => rfl
    | some p => simpa using h p rfl
  have hlast : (stored entry o block).last.any (fun s => decide (s ≠ lastId block)) = false := by
    cases entry <;> simp [stored]
  unfold checkBlock
  rw [if_neg (by simp [stored]), hlast, if_neg (by simp), if_neg (by simp [stored]), hprev,
    if_neg (by simp)]

/-- Checking two blocks. -/
theorem checked_append {β γ : Type} {a b : List Posting} (x : β) (f : β → Except Error γ) (y : γ)
    (h : f x = checked b pageNo y) : (checked a pageNo x >>= f) = checked (a ++ b) pageNo y := by
  unfold checked at h ⊢
  rw [List.all_append]
  cases ha : a.all (fun p => decide (p.2 ≠ 0)) with
  | true => exact h
  | false => rfl

/-- The first id of a block is one of its ids. -/
theorem firstId_mem {block : List Posting} (h : block ≠ []) : ∃ e ∈ block, firstId block = e.1.val := by
  cases block with
  | nil => exact absurd rfl h
  | cons e _ => exact ⟨e, List.mem_cons_self, rfl⟩

/-- So is the last. -/
theorem lastId_mem {block : List Posting} (h : block ≠ []) : ∃ e ∈ block, lastId block = e.1.val := by
  refine ⟨block.getLast h, List.getLast_mem h, ?_⟩
  rw [lastId, List.getLast?_eq_some_getLast h]
  rfl

/-- The blocks decode one after the other: `pre` are behind, `bs` to come. -/
theorem decodeBlocks_eq (layout : PostingsLayout) {count : Nat} (pre bs : List (List Posting))
    (hblocks : blocks = pre ++ bs) (hidx : HasAt body 8 (skipIndex entry layout.isFrame 0 blocks))
    (hbody : HasAt body (8 + blocks.length * entry.len) (blocks.flatMap (encodeBlock layout.isFrame)))
    (hsize : (blocks.flatMap (encodeBlock layout.isFrame)).length < 2 ^ 32)
    (hlen : ∀ b block, blocks[b]? = some block → block.length = blockLen count blocks.length b)
    (hne : ∀ block ∈ blocks, block ≠ []) (hsorted : Sorted bs.flatten)
    (htf : ∀ e ∈ bs.flatten, e.2 < 2 ^ 32) (prevLast : Option Nat)
    (hprev : ∀ p ∈ prevLast, ∀ e ∈ bs.flatten, p < e.1.val) :
    decodeBlocks body pageNo entry layout count blocks.length bs.length pre.length
        (8 + blocks.length * entry.len + blockOffset layout.isFrame blocks pre.length) prevLast =
      checked bs.flatten pageNo bs.flatten := by
  induction bs generalizing pre prevLast with
  | nil => simp [decodeBlocks, checked]
  | cons block rest ih =>
      have hget : blocks[pre.length]? = some block := by simp [hblocks]
      have hmem : block ∈ blocks := by simp [hblocks]
      have hnext : blockOffset layout.isFrame blocks (pre ++ [block]).length =
          blockOffset layout.isFrame blocks pre.length + (encodeBlock layout.isFrame block).length := by
        simp [blockOffset, hblocks]
      have hoffset : blockOffset layout.isFrame blocks pre.length < 2 ^ 32 := by
        refine lt_of_le_of_lt ?_ hsize
        rw [blockOffset]
        exact ((List.take_sublist _ _).flatMap _).length_le
      rw [List.flatten_cons] at hsorted htf hprev
      obtain ⟨hs1, hs2, hs12⟩ := List.pairwise_append.mp hsorted
      have htf1 : ∀ e ∈ block, e.2 < 2 ^ 32 := fun e he => htf e (List.mem_append_left _ he)
      -- the skip entry of this block, its entries and the comparison of the two
      have hread := readSkipEntry_eq pageNo (by simpa using hoffset) htf1 (skipIndex_hasAt hidx hget)
      rw [Nat.zero_add] at hread
      have hrun := decodeBlockRun_eq pageNo layout hs1 htf1 (blocks_hasAt hbody hget)
      rw [hlen _ _ hget] at hrun
      have hcheck : checkBlock (stored entry (blockOffset layout.isFrame blocks pre.length) block) block
          prevLast pageNo = .ok () := by
        refine checkBlock_stored pageNo ?_
        intro p hp
        obtain ⟨e, he, hfirst⟩ := firstId_mem (hne block hmem)
        rw [hfirst]
        exact hprev p hp e (List.mem_append_left _ he)
      -- the blocks behind it continue from its last id
      have hrest := ih (pre ++ [block]) (by simp [hblocks]) hs2
        (fun e he => htf e (List.mem_append_right _ he)) (some (lastId block)) (by
          intro p hp e he
          cases hp
          obtain ⟨e', he', hlast⟩ := lastId_mem (hne block hmem)
          rw [hlast]
          exact hs12 e' he' e he)
      rw [hnext, ← Nat.add_assoc, List.length_append, List.length_singleton] at hrest
      -- the two together, and the total check at the end
      rw [List.length_cons, decodeBlocks, hread, ok_bind, if_neg (by simp [stored]), hrun,
        List.flatten_cons]
      refine checked_append pageNo _ _ _ ?_
      simp only [hcheck, ok_bind, hrest]
      exact checked_bind pageNo _ _ _ rfl

end Skip

/-! ## Bodies -/

section Body

/-- The lengths of the blocks. -/
theorem blockLen_chunks {b : Nat} {block : List Posting}
    (hb : (chunks SKIP_BLOCK_SIZE entries)[b]? = some block) :
    block.length = blockLen entries.length (chunks SKIP_BLOCK_SIZE entries).length b := by
  have hlt := (List.getElem?_eq_some_iff.mp hb).1
  rw [chunks_getElem? hlt] at hb
  cases hb
  rw [chunks_length (by decide)] at hlt ⊢
  rw [blockLen, List.length_take, List.length_drop]
  split
  · simp only [SKIP_BLOCK_SIZE] at *
    omega
  · simp only [SKIP_BLOCK_SIZE] at *
    omega

/-- A posting of a block takes at least two bytes. -/
theorem two_mul_length_le_encodeBlock (fr : Bool) (block : List Posting) :
    2 * block.length ≤ (encodeBlock fr block).length := by
  unfold encodeBlock
  split
  · rw [encodeForBlock_length]
    have hpos : ∀ v, 1 ≤ byteWidth v := by
      intro v
      unfold byteWidth byteWidthUpTo
      split <;> omega
    have h1 := hpos (maxOf (deltas 0 block))
    have h2 := hpos (maxOf (block.map Prod.snd))
    have h3 : block.length * 2 ≤ block.length * (byteWidth (maxOf (deltas 0 block)) +
        byteWidth (maxOf (block.map Prod.snd))) := Nat.mul_le_mul_left _ (by omega)
    omega
  · exact two_mul_length_le_encodeDeltas 0 block

/-- So do all postings. -/
theorem two_mul_length_le_blocks (fr : Bool) (blocks : List (List Posting)) :
    2 * blocks.flatten.length ≤ (blocks.flatMap (encodeBlock fr)).length := by
  induction blocks with
  | nil => simp
  | cons block rest ih =>
      have := two_mul_length_le_encodeBlock fr block
      simp only [List.flatten_cons, List.flatMap_cons, List.length_append]
      omega

/-- A body is at least as long as its list. -/
theorem length_le_encode (entries : List Posting) (layout : PostingsLayout) :
    entries.length ≤ (encode entries layout).length := by
  have hdelta := two_mul_length_le_encodeDeltas 0 entries
  have hskip : ∀ entry fr, entries.length ≤ (encodeSkip entries entry fr).length := by
    intro entry fr
    unfold encodeSkip
    split
    · rw [List.length_append, encodeDeltaRun]
      omega
    · have hblocks := two_mul_length_le_blocks fr (chunks SKIP_BLOCK_SIZE entries)
      rw [chunks_flatten (by decide)] at hblocks
      simp only [List.length_append]
      omega
  unfold encode
  rw [List.length_append]
  cases layout with
  | fixedWidth =>
      simp only [encodeFixedWidth_length, POSTING_LEN]
      omega
  | deltaVarint =>
      simp only [encodeDeltaRun]
      omega
  | deltaVarintSkip entry =>
      have := hskip entry false
      simp only
      omega
  | frameOfReference =>
      have := hskip .v6 true
      simp only
      omega

/-- An honest count is not refused. -/
theorem rejectHostileDeltaCount_eq {count : Nat} (h : 4 + count * 2 ≤ body.length) :
    rejectHostileDeltaCount body count pageNo = .ok () := by
  unfold rejectHostileDeltaCount
  rw [if_neg (by omega)]

/-- A list long enough for a skip index. -/
theorem checkSkipIndex_eq {entry : SkipEntry} {count blockCount : Nat}
    (hcount : SKIP_MIN_DOC_FREQ ≤ count) (hblocks : blockCount = expectedBlocks count)
    (hlen : 8 + blockCount * entry.len + 2 * count ≤ body.length) :
    checkSkipIndex body count blockCount entry.len pageNo = .ok (8 + blockCount * entry.len) := by
  have hreject : rejectHostileDeltaCount (body.drop (8 + blockCount * entry.len - 4)) count pageNo = .ok () := by
    refine rejectHostileDeltaCount_eq pageNo ?_
    rw [List.length_drop]
    omega
  have hhead : ¬ (count < SKIP_MIN_DOC_FREQ ∨ blockCount ≠ expectedBlocks count) := by
    rw [hblocks]
    simp
    exact hcount
  have hfits : ¬ body.length < 8 + blockCount * entry.len := by omega
  unfold checkSkipIndex
  rw [if_neg hhead]
  simp only [hfits, if_false, hreject, ok_bind]

variable (hsorted : Sorted entries) (htf : ∀ e ∈ entries, e.2 < 2 ^ 32)

include hsorted htf

/-- A blocked list is read back. -/
theorem decodeSkip_encodeSkip (entry : SkipEntry) (layout : PostingsLayout)
    (hbody : body = leBytes 4 entries.length ++ encodeSkip entries entry layout.isFrame)
    (hsize : body.length < 2 ^ 32) :
    decodeSkip body pageNo entry layout = checked entries pageNo entries := by
  have hall : HasAt body 0 (leBytes 4 entries.length ++ encodeSkip entries entry layout.isFrame) := by
    rw [← hbody]
    exact hasAt_zero body
  obtain ⟨h0, hskip⟩ := hasAt_append.mp hall
  rw [leBytes_length, Nat.zero_add] at hskip
  have hlen := congrArg List.length hbody
  rw [List.length_append, leBytes_length] at hlen
  unfold encodeSkip at hskip hlen
  split at hskip
  · -- a short list: no index
    rename_i hshort
    rw [if_pos hshort, List.length_append, leBytes_length] at hlen
    obtain ⟨h1, h2⟩ := hasAt_append.mp hskip
    rw [leBytes_length] at h2
    -- its count is written in full
    have hcount : entries.length < 256 ^ 4 := by
      simp only [SKIP_MIN_DOC_FREQ, SKIP_BLOCK_SIZE] at hshort
      omega
    have hread0 := Dict.readInt_of_hasAt pageNo h0 hcount
    have hread1 := Dict.readInt_of_hasAt pageNo h1 (by norm_num)
    have hreject : rejectHostileDeltaCount body entries.length pageNo = .ok () := by
      have := two_mul_length_le_encodeDeltas 0 entries
      refine rejectHostileDeltaCount_eq pageNo ?_
      simp only [encodeDeltaRun] at hlen
      omega
    rw [decodeSkip, hread0, ok_bind, hread1, ok_bind, if_pos rfl, hreject, ok_bind,
      decodeDeltaRun_eq pageNo hsorted htf h2]
    exact checked_bind pageNo _ _ _ rfl
  -- a long list: the index, then the blocks
  · rename_i hlong
    rw [if_neg hlong] at hlen
    simp only [List.length_append, leBytes_length, skipIndex_length] at hlen
    rw [List.append_assoc] at hskip
    obtain ⟨h1, h2⟩ := hasAt_append.mp hskip
    obtain ⟨h2, h3⟩ := hasAt_append.mp h2
    rw [leBytes_length] at h2 h3
    rw [skipIndex_length] at h3
    have hflat : (chunks SKIP_BLOCK_SIZE entries).flatten = entries := chunks_flatten (by decide) entries
    have hne : ∀ block ∈ chunks SKIP_BLOCK_SIZE entries, block ≠ [] := by
      intro block hblock
      have := (mem_chunksUpTo (by decide : 0 < SKIP_BLOCK_SIZE) hblock).1
      rwa [← List.length_pos_iff]
    -- the body is below 2^32 bytes, so every count and offset fits its field
    have hentryLen : 24 ≤ entry.len := by cases entry <;> decide
    have htwo := two_mul_length_le_blocks layout.isFrame (chunks SKIP_BLOCK_SIZE entries)
    rw [hflat] at htwo
    have hmany : 24 * (chunks SKIP_BLOCK_SIZE entries).length ≤
        (chunks SKIP_BLOCK_SIZE entries).length * entry.len := by
      rw [Nat.mul_comm]
      exact Nat.mul_le_mul_left _ hentryLen
    have hread0 := Dict.readInt_of_hasAt pageNo h0 (by omega : entries.length < 256 ^ 4)
    have hread1 := Dict.readInt_of_hasAt pageNo h1
      (by omega : (chunks SKIP_BLOCK_SIZE entries).length < 256 ^ 4)
    have hblocks : (chunks SKIP_BLOCK_SIZE entries).length = expectedBlocks entries.length :=
      chunks_length (by decide) entries
    have hpos : (chunks SKIP_BLOCK_SIZE entries).length ≠ 0 := by
      rw [hblocks]
      simp only [SKIP_MIN_DOC_FREQ, SKIP_BLOCK_SIZE, expectedBlocks] at hlong ⊢
      omega
    -- the index is accepted, and the blocks are read one by one
    have hindex : checkSkipIndex body entries.length (chunks SKIP_BLOCK_SIZE entries).length entry.len
        pageNo = .ok (8 + (chunks SKIP_BLOCK_SIZE entries).length * entry.len) :=
      checkSkipIndex_eq pageNo (not_lt.mp hlong) hblocks (by omega)
    have hrun := decodeBlocks_eq pageNo layout [] (chunks SKIP_BLOCK_SIZE entries)
      (List.nil_append _).symm h2 h3 (by omega)
      (fun b block hb => blockLen_chunks hb) hne (by rwa [hflat]) (by rwa [hflat]) none (by simp)
    rw [hflat] at hrun
    rw [decodeSkip, hread0, ok_bind, hread1, ok_bind, if_neg hpos, hindex, ok_bind]
    simpa [blockOffset] using hrun

/-- A body decodes to the list it was encoded from, unless a frequency is zero. -/
theorem decode_encode (layout : PostingsLayout) (hsize : (encode entries layout).length < 2 ^ 32) :
    decode (encode entries layout) pageNo layout = checked entries pageNo entries := by
  cases layout with
  | fixedWidth =>
      have h := hasAt_zero (encode entries .fixedWidth)
      obtain ⟨h0, h1⟩ := hasAt_append.mp h
      rw [leBytes_length, Nat.zero_add] at h1
      have hlen : (encode entries .fixedWidth).length = 4 + entries.length * POSTING_LEN := by
        simp [encode, encodeFixedWidth_length]
      rw [hlen, POSTING_LEN] at hsize
      have hread0 := Dict.readInt_of_hasAt pageNo h0 (by omega : entries.length < 256 ^ 4)
      rw [decode, decodeFixedWidth, hread0, ok_bind, if_neg (by omega)]
      exact decodeFixedEntries_eq pageNo none hsorted (by simp) htf h1
  | deltaVarint =>
      have h := hasAt_zero (encode entries .deltaVarint)
      obtain ⟨h0, h1⟩ := hasAt_append.mp h
      rw [leBytes_length, Nat.zero_add] at h1
      have hlen : (encode entries .deltaVarint).length = 4 + (encodeDeltaRun entries).length := by
        simp [encode]
      have htwo := two_mul_length_le_encodeDeltas 0 entries
      simp only [encodeDeltaRun] at hlen
      have hread0 := Dict.readInt_of_hasAt pageNo h0 (by omega : entries.length < 256 ^ 4)
      rw [decode, decodeDeltaVarint, hread0, ok_bind, rejectHostileDeltaCount_eq pageNo (by omega), ok_bind,
        decodeDeltaRun_eq pageNo hsorted htf h1]
      exact checked_bind pageNo _ _ _ rfl
  | deltaVarintSkip entry =>
      exact decodeSkip_encodeSkip pageNo hsorted htf entry (.deltaVarintSkip entry) rfl hsize
  | frameOfReference =>
      exact decodeSkip_encodeSkip pageNo hsorted htf .v6 .frameOfReference rfl hsize

omit htf in
/-- Every list the writer can hold reads back, in each layout. -/
theorem postings_round_trip (layout : PostingsLayout)
    (htf : ∀ e ∈ entries, 1 ≤ e.2 ∧ e.2 < 2 ^ 32) (hsize : (encode entries layout).length < 2 ^ 32) :
    decode (encode entries layout) pageNo layout = .ok entries := by
  rw [decode_encode pageNo hsorted (fun e he => (htf e he).2) layout hsize]
  exact checked_of_pos pageNo entries fun e he => (htf e he).1

/-- Five blocks of postings, the last one not full, up to the greatest id and frequency. -/
def manyPostings : List Posting :=
  ((List.range 600).map fun i => (Fin.ofNat (2 ^ 128) (3 * i), i + 1)) ++ [(Fin.last _, 2 ^ 32 - 1)]

omit hsorted htf in
/-- In each layout, the two with a skip index included. -/
theorem postings_round_trip_many : SKIP_MIN_DOC_FREQ ≤ manyPostings.length ∧
    ∀ layout, decode (encode manyPostings layout) 7 layout = .ok manyPostings := by
  have hsorted : Sorted manyPostings := by
    have hchain : (manyPostings.map Prod.fst).IsChain (· < ·) := by decide +kernel
    exact List.pairwise_map.mp (List.isChain_iff_pairwise.mp hchain)
  have hbounds : ∀ e ∈ manyPostings, 1 ≤ e.2 ∧ e.2 < 2 ^ 32 := by decide +kernel
  have hsize : ∀ layout, (encode manyPostings layout).length < 2 ^ 32 := by
    intro layout
    cases layout with
    | fixedWidth => decide +kernel
    | deltaVarint => decide +kernel
    | deltaVarintSkip entry => cases entry <;> decide +kernel
    | frameOfReference => decide +kernel
  refine ⟨by decide +kernel, ?_⟩
  intro layout
  exact postings_round_trip 7 hsorted layout hbounds (hsize layout)

end Body

end Fts

end EmbedMind
