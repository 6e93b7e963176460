import EmbedMind.Record

/-!
# Records round trip

The readers of a record are exact (`Lib.Exact`): each reads what its writer writes and
nothing else. `decode_iff` says which byte strings are records and of what; the round
trips and the refusal of prefixes and extensions follow from it.
-/

namespace EmbedMind

open Lib Lib.Assoc

/-! ## Numbers and strings -/

namespace Reader

/-- Reading `n` bytes. -/
theorem exact_bytes (n : Nat) : Exact (bytes n) (fun b => b) fun b => b.length = n := by
  intro input a rest
  unfold bytes
  constructor
  · intro h
    split at h
    · rename_i hle
      cases h
      exact ⟨List.length_take_of_le hle, (List.take_append_drop n input).symm⟩
    · cases h
  · rintro ⟨rfl, rfl⟩
    rw [if_pos (by simp), List.take_left', List.drop_left'] <;> rfl

theorem exact_u8 : Exact u8 (fun b => [b]) fun _ => True := by
  refine ((exact_bytes 1).map (fun b => [b]) ?_ fun _ => rfl).congr (by simp) fun _ _ => rfl
  intro a ha
  obtain ⟨x, rfl⟩ := List.length_eq_one_iff.mp ha
  rfl

/-- Reading a `u16`. -/
theorem exact_u16 : Exact u16 (fun n => leBytes 2 n.toNat) fun _ => True := by
  refine ((exact_bytes 2).map (fun n => leBytes 2 n.toNat) ?_ ?_).congr (by simp) fun _ _ => rfl
  · intro a ha
    have hlt : leNat a < 2 ^ 16 := by simpa [ha] using leNat_lt a
    rw [UInt16.toNat_ofNat_of_lt' hlt, ← ha, leBytes_leNat]
  · intro n
    rw [leNat_leBytes_of_lt (UInt16.toNat_lt n), UInt16.ofNat_toNat]

/-- Reading a `u32`. -/
theorem exact_u32 : Exact u32 (fun n => leBytes 4 n.toNat) fun _ => True := by
  refine ((exact_bytes 4).map (fun n => leBytes 4 n.toNat) ?_ ?_).congr (by simp) fun _ _ => rfl
  · intro a ha
    have hlt : leNat a < 2 ^ 32 := by simpa [ha] using leNat_lt a
    rw [UInt32.toNat_ofNat_of_lt' hlt, ← ha, leBytes_leNat]
  · intro n
    rw [leNat_leBytes_of_lt (UInt32.toNat_lt n), UInt32.ofNat_toNat]

/-- Reading a `u64`. -/
theorem exact_u64 : Exact u64 (fun n => leBytes 8 n.toNat) fun _ => True := by
  refine ((exact_bytes 8).map (fun n => leBytes 8 n.toNat) ?_ ?_).congr (by simp) fun _ _ => rfl
  · intro a ha
    have hlt : leNat a < 2 ^ 64 := by simpa [ha] using leNat_lt a
    rw [UInt64.toNat_ofNat_of_lt' hlt, ← ha, leBytes_leNat]
  · intro n
    rw [leNat_leBytes_of_lt (UInt64.toNat_lt n), UInt64.ofNat_toNat]

/-- Reading an `i64`. -/
theorem exact_i64 : Exact i64 (fun n => leBytes 8 n.toUInt64.toNat) fun _ => True :=
  exact_u64.map Int64.toUInt64 (fun _ _ => UInt64.toUInt64_toInt64 _) Int64.toInt64_toUInt64

end Reader

/-- A length-prefixed string. -/
def strBytes (s : String) : Bytes := leBytes 4 (utf8 s).length ++ utf8 s

/-- A string whose length fits its prefix. -/
def Short (s : String) : Prop := (utf8 s).length < 2 ^ 32

/-- Reading a string with its length. -/
theorem Reader.exact_string (what : String) : Exact (Reader.string what) strBytes Short := by
  intro input s rest
  unfold Reader.string
  rw [StateT.bind_ok_iff]
  constructor
  · rintro ⟨len, mid, hlen, h⟩
    obtain ⟨_, rfl⟩ := (exact_u32 _ _ _).mp hlen
    obtain ⟨mid', mid'', hget, h⟩ := StateT.bind_ok_iff.mp h
    obtain ⟨rfl, rfl⟩ : mid = mid' ∧ mid = mid'' := by
      cases hget
      exact ⟨rfl, rfl⟩
    split at h
    · cases h
    · obtain ⟨b, mid', hb, hs⟩ := StateT.bind_ok_iff.mp h
      obtain ⟨hblen, rfl⟩ := (exact_bytes _ _ _ _).mp hb
      cases hutf8 : ofUtf8? b with
      | none =>
          rw [hutf8] at hs
          cases hs
      | some s' =>
          rw [hutf8] at hs
          obtain ⟨rfl, rfl⟩ := StateT.pure_ok_iff.mp hs
          have hutf := utf8_of_ofUtf8? hutf8
          have hlt := UInt32.toNat_lt len
          refine ⟨by rw [Short, hutf, hblen]; exact hlt, ?_⟩
          rw [strBytes, hutf, hblen, List.append_assoc]
  · rintro ⟨hs, rfl⟩
    have hlen : (UInt32.ofNat (utf8 s).length).toNat = (utf8 s).length := UInt32.toNat_ofNat_of_lt' hs
    refine ⟨UInt32.ofNat (utf8 s).length, utf8 s ++ rest, ?_, ?_⟩
    · refine (exact_u32 _ _ _).mpr ⟨trivial, ?_⟩
      dsimp only
      rw [hlen, strBytes, List.append_assoc]
    · refine StateT.bind_ok_iff.mpr ⟨utf8 s ++ rest, utf8 s ++ rest, rfl, ?_⟩
      rw [hlen, if_neg (by simp)]
      refine StateT.bind_ok_iff.mpr ⟨utf8 s, rest, (exact_bytes _ _ _ _).mpr ⟨rfl, rfl⟩, ?_⟩
      rw [ofUtf8?_utf8]
      rfl

/-! ## Entries -/

def Scalar.bytes : Scalar → Bytes
  | .null => [TAG_NULL]
  | .bool b => [TAG_BOOL, if b then 1 else 0]
  | .i64 v => TAG_I64 :: leBytes 8 v.toUInt64.toNat
  | .f64 v => TAG_F64 :: leBytes 8 v.toNat
  | .str s => TAG_STR :: strBytes s

def Scalar.Short : Scalar → Prop
  | .str s => EmbedMind.Short s
  | _ => True

/-- Reading a metadata value. -/
theorem Reader.exact_scalar : Exact Reader.scalar Scalar.bytes Scalar.Short := by
  intro input v rest
  unfold Reader.scalar
  rw [StateT.bind_ok_iff]
  constructor
  · rintro ⟨tag, mid, htag, h⟩
    obtain ⟨_, rfl⟩ := (exact_u8 _ _ _).mp htag
    split at h
    · rename_i hnull
      obtain ⟨rfl, rfl⟩ := StateT.pure_ok_iff.mp h
      exact ⟨trivial, by rw [hnull]; rfl⟩
    split at h
    · rename_i hbool
      obtain ⟨b, mid', hb, h'⟩ := StateT.bind_ok_iff.mp h
      obtain ⟨_, rfl⟩ := (exact_u8 _ _ _).mp hb
      split at h'
      · rename_i h0
        obtain ⟨rfl, rfl⟩ := StateT.pure_ok_iff.mp h'
        exact ⟨trivial, by rw [hbool, h0]; rfl⟩
      split at h'
      · rename_i h1
        obtain ⟨rfl, rfl⟩ := StateT.pure_ok_iff.mp h'
        exact ⟨trivial, by rw [hbool, h1]; rfl⟩
      · cases h'
    split at h
    · rename_i hi64
      obtain ⟨n, mid', hn, h'⟩ := StateT.bind_ok_iff.mp h
      obtain ⟨_, rfl⟩ := (exact_i64 _ _ _).mp hn
      obtain ⟨rfl, rfl⟩ := StateT.pure_ok_iff.mp h'
      exact ⟨trivial, by rw [hi64]; rfl⟩
    split at h
    · rename_i hf64
      obtain ⟨n, mid', hn, h'⟩ := StateT.bind_ok_iff.mp h
      obtain ⟨_, rfl⟩ := (exact_u64 _ _ _).mp hn
      obtain ⟨rfl, rfl⟩ := StateT.pure_ok_iff.mp h'
      exact ⟨trivial, by rw [hf64]; rfl⟩
    split at h
    · rename_i hstr
      obtain ⟨s, mid', hs, h'⟩ := StateT.bind_ok_iff.mp h
      obtain ⟨hshort, rfl⟩ := (exact_string _ _ _ _).mp hs
      obtain ⟨rfl, rfl⟩ := StateT.pure_ok_iff.mp h'
      exact ⟨hshort, by rw [hstr]; rfl⟩
    · cases h
  · rintro ⟨hshort, rfl⟩
    -- the tag, then the payload of the case it selects
    cases v with
    | null => exact ⟨TAG_NULL, rest, (exact_u8 _ _ _).mpr ⟨trivial, rfl⟩, rfl⟩
    | bool b =>
        refine ⟨TAG_BOOL, (if b then 1 else 0) :: rest, (exact_u8 _ _ _).mpr ⟨trivial, rfl⟩, ?_⟩
        cases b <;> rfl
    | i64 n =>
        refine ⟨TAG_I64, leBytes 8 n.toUInt64.toNat ++ rest, (exact_u8 _ _ _).mpr ⟨trivial, rfl⟩, ?_⟩
        exact StateT.bind_ok_iff.mpr ⟨n, rest, (exact_i64 _ _ _).mpr ⟨trivial, rfl⟩, rfl⟩
    | f64 n =>
        refine ⟨TAG_F64, leBytes 8 n.toNat ++ rest, (exact_u8 _ _ _).mpr ⟨trivial, rfl⟩, ?_⟩
        exact StateT.bind_ok_iff.mpr ⟨n, rest, (exact_u64 _ _ _).mpr ⟨trivial, rfl⟩, rfl⟩
    | str s =>
        refine ⟨TAG_STR, strBytes s ++ rest, (exact_u8 _ _ _).mpr ⟨trivial, rfl⟩, ?_⟩
        exact StateT.bind_ok_iff.mpr ⟨s, rest, (exact_string _ _ _ _).mpr ⟨hshort, rfl⟩, rfl⟩

def entryBytes (e : Text × Scalar) : Bytes := strBytes e.1.str ++ e.2.bytes

def EntryShort (e : Text × Scalar) : Prop := Short e.1.str ∧ e.2.Short

/-- Reading a metadata entry. -/
theorem Reader.exact_entry : Exact Reader.entry entryBytes EntryShort := by
  unfold Reader.entry
  refine (exact_string "metadata key").bind (fun e : Text × Scalar => e.1.str) (fun e => e.2.bytes)
    (fun e => e.2.Short) ?_
  intro key _ input e rest
  rw [StateT.bind_ok_iff]
  constructor
  · rintro ⟨v, mid, hv, hpure⟩
    obtain ⟨rfl, rfl⟩ := StateT.pure_ok_iff.mp hpure
    obtain ⟨hshort, rfl⟩ := (exact_scalar _ _ _).mp hv
    exact ⟨⟨rfl, hshort⟩, rfl⟩
  · rintro ⟨⟨rfl, hshort⟩, rfl⟩
    exact ⟨e.2, rest, (exact_scalar _ _ _).mpr ⟨hshort, rfl⟩, rfl⟩

/-! ## The fields -/

namespace Fields

def bytes (f : Fields) : Bytes :=
  f.id.toBytes ++ [f.flags] ++ strBytes f.content ++ leBytes 8 f.pageNo.toNat ++ leBytes 2 f.slot.toNat ++
    strBytes f.project ++ strBytes f.agent ++ strBytes f.sessionId ++ leBytes 8 f.createdAtMicros.toUInt64.toNat ++
    leBytes 2 f.count.toNat

structure Short (f : Fields) : Prop where
  content : EmbedMind.Short f.content
  project : EmbedMind.Short f.project
  agent : EmbedMind.Short f.agent
  sessionId : EmbedMind.Short f.sessionId

end Fields

namespace MemoryRecord

open Reader

/-- Reading the fixed fields. -/
theorem exact_readFields : Exact readFields Fields.bytes Fields.Short := by
  intro input f rest
  unfold readFields
  simp only [StateT.bind_ok_iff, exact_bytes _ _ _ _, exact_u8 _ _ _, exact_string _ _ _ _, exact_u64 _ _ _,
    exact_u16 _ _ _, exact_i64 _ _ _, StateT.pure_ok_iff]
  constructor
  · rintro ⟨id, _, ⟨hid, rfl⟩, flags, _, ⟨_, rfl⟩, content, _, ⟨hcontent, rfl⟩, pageNo, _, ⟨_, rfl⟩, slot, _, ⟨_, rfl⟩,
      project, _, ⟨hproject, rfl⟩, agent, _, ⟨hagent, rfl⟩, sessionId, _, ⟨hsession, rfl⟩, created, _, ⟨_, rfl⟩,
      count, _, ⟨_, rfl⟩, rfl, rfl⟩
    refine ⟨⟨hcontent, hproject, hagent, hsession⟩, ?_⟩
    simp only [Fields.bytes, Ulid.toBytes_fromBytes hid, List.append_assoc]
  · rintro ⟨hshort, rfl⟩
    obtain ⟨id, flags, content, pageNo, slot, project, agent, sessionId, created, count⟩ := f
    refine ⟨id.toBytes, _, ⟨id.toBytes_length, ?_⟩, flags, _, ⟨trivial, rfl⟩, content, _, ⟨hshort.content, rfl⟩,
      pageNo, _, ⟨trivial, rfl⟩, slot, _, ⟨trivial, rfl⟩, project, _, ⟨hshort.project, rfl⟩, agent, _,
      ⟨hshort.agent, rfl⟩, sessionId, _, ⟨hshort.sessionId, rfl⟩, created, _, ⟨trivial, rfl⟩, count, rest,
      ⟨trivial, rfl⟩, ?_, rfl⟩
    · simp only [Fields.bytes, List.append_assoc]
    · rw [Ulid.fromBytes_toBytes]

/-! ## What a byte string stores -/

/-- The entries in the order of the file. -/
def readEntries : Nat → Reader (List (Text × Scalar))
  | 0 => pure []
  | n + 1 => do
      let e ← Reader.entry
      let es ← readEntries n
      pure (e :: es)

/-- The metadata keys of a stored record, in the order of the file. -/
def metadataKeys (buf : Bytes) : List Text :=
  match (do let f ← readFields; readEntries f.count.toNat : Reader (List (Text × Scalar))) buf with
  | .ok (es, _) => es.map Prod.fst
  | .error _ => []

/-- Reading the metadata entries. -/
theorem exact_readEntries (n : Nat) : Exact (readEntries n) (fun es => es.flatMap entryBytes) fun es =>
    es.length = n ∧ ∀ e ∈ es, EntryShort e :=
  exact_entry.replicate rfl (fun _ => rfl) n

/-- The map of the entries of a file. -/
def ofEntries (es : List (Text × Scalar)) : Metadata := ⟨extend [] es, sorted_extend List.Pairwise.nil⟩

/-- A byte string stores fields and entries, every key once. -/
structure Stores (buf : Bytes) (f : Fields) (es : List (Text × Scalar)) : Prop where
  bytes : buf = f.bytes ++ es.flatMap entryBytes
  short : f.Short
  count : es.length = f.count.toNat
  entries : ∀ e ∈ es, EntryShort e
  keys : (es.map Prod.fst).Nodup

/-- Reading the metadata: distinct keys, added to those that are there. -/
theorem readMetadata_iff {n : Nat} {m m' : Metadata} {input rest : Bytes} :
    readMetadata n m input = .ok (m', rest) ↔ ∃ es, es.length = n ∧ (∀ e ∈ es, EntryShort e) ∧
      input = es.flatMap entryBytes ++ rest ∧ (es.map Prod.fst).Nodup ∧ (∀ e ∈ es, find e.1 m.entries = none) ∧
      m'.entries = extend m.entries es := by
  induction n generalizing m input with
  | zero =>
      unfold readMetadata
      rw [StateT.pure_ok_iff]
      constructor
      · rintro ⟨rfl, rfl⟩
        exact ⟨[], rfl, by simp, rfl, List.nodup_nil, by simp, rfl⟩
      · rintro ⟨es, hlen, _, rfl, _, _, hm⟩
        rw [List.eq_nil_of_length_eq_zero hlen] at hm ⊢
        obtain ⟨entries, _⟩ := m'
        cases hm
        exact ⟨rfl, rfl⟩
  | succ n ih =>
      unfold readMetadata
      rw [StateT.bind_ok_iff]
      constructor
      · rintro ⟨e, mid, he, h⟩
        obtain ⟨hshort, rfl⟩ := (exact_entry _ _ _).mp he
        dsimp only [Metadata.insert] at h
        -- a key that is there already is refused
        cases hold : find e.1 m.entries with
        | some v =>
            rw [hold] at h
            cases h
        | none =>
            rw [hold] at h
            obtain ⟨es, rfl, hes, rfl, hnd, hnew, hm⟩ := ih.mp h
            -- so no later key is this one
            have hne : ∀ x ∈ es, x.1 ≠ e.1 := by
              intro x hx heq
              have hx' := hnew x hx
              rw [heq, find_insertKey_self] at hx'
              cases hx'
            refine ⟨e :: es, rfl, ?_, by simp only [List.flatMap_cons, List.append_assoc], ?_, ?_, hm⟩
            · intro x hx
              rcases List.mem_cons.mp hx with rfl | hx
              · exact hshort
              · exact hes x hx
            · refine List.nodup_cons.mpr ⟨?_, hnd⟩
              intro hin
              obtain ⟨x, hx, heq⟩ := List.mem_map.mp hin
              exact hne x hx heq
            · intro x hx
              rcases List.mem_cons.mp hx with rfl | hx
              · exact hold
              · have hx' := hnew x hx
                rwa [find_insertKey_ne (hne x hx)] at hx'
      -- entries with different keys are read back one by one
      · rintro ⟨es, hlen, hes, rfl, hnd, hnew, hm⟩
        cases es with
        | nil => cases hlen
        | cons e es =>
            have hold := hnew e List.mem_cons_self
            obtain ⟨hnot, hnd'⟩ := List.nodup_cons.mp hnd
            refine ⟨e, es.flatMap entryBytes ++ rest, ?_, ?_⟩
            · exact (exact_entry _ _ _).mpr ⟨hes e List.mem_cons_self, by
                simp only [List.flatMap_cons, List.append_assoc]⟩
            · dsimp only [Metadata.insert]
              rw [hold]
              refine ih.mpr ⟨es, Nat.succ.inj hlen, fun x hx => hes x (List.mem_cons_of_mem _ hx), rfl, hnd', ?_, hm⟩
              intro x hx
              have hne : x.1 ≠ e.1 := fun heq => hnot (heq ▸ List.mem_map_of_mem hx)
              rw [find_insertKey_ne hne]
              exact hnew x (List.mem_cons_of_mem _ hx)

/-- Which byte strings are records, and of what. -/
theorem decode_iff {buf : Bytes} {r : MemoryRecord} :
    decode buf = .ok r ↔ buf.length ≤ MAX_RECORD_LEN ∧ ∃ f es, Stores buf f es ∧ r = ofFields f (ofEntries es) := by
  unfold decode
  by_cases hlen : MAX_RECORD_LEN < buf.length
  · rw [if_pos hlen]
    constructor
    · intro h
      cases h
    · rintro ⟨hle, _⟩
      omega
  rw [if_neg hlen]
  -- the reader succeeds on exactly the encodings, with nothing left over
  have hread : ∀ rest, read buf = .ok (r, rest) ↔
      rest = [] ∧ ∃ f es, Stores buf f es ∧ r = ofFields f (ofEntries es) := by
    intro rest
    unfold read
    simp only [StateT.bind_ok_iff, exact_readFields _ _ _, readMetadata_iff]
    constructor
    · rintro ⟨f, _, ⟨hf, rfl⟩, m, mid, ⟨es, hcount, hes, rfl, hnd, _, hm⟩, mid', mid'', hget, h⟩
      obtain ⟨rfl, rfl⟩ : mid = mid' ∧ mid = mid'' := by
        cases hget
        exact ⟨rfl, rfl⟩
      split at h
      · cases h
      · rename_i hrest
        obtain ⟨rfl, rfl⟩ := StateT.pure_ok_iff.mp h
        rw [not_not] at hrest
        subst hrest
        refine ⟨rfl, f, es, ⟨by rw [List.append_nil], hf, hcount, hes, hnd⟩, ?_⟩
        obtain ⟨entries, _⟩ := m
        cases hm
        rfl
    · rintro ⟨rfl, f, es, hstores, rfl⟩
      refine ⟨f, _, ⟨hstores.short, hstores.bytes⟩, ofEntries es, [], ⟨es, hstores.count, hstores.entries, ?_,
        hstores.keys, fun _ _ => rfl, rfl⟩, [], [], rfl, rfl⟩
      rw [List.append_nil]
  constructor
  · intro h
    refine ⟨not_lt.mp hlen, ?_⟩
    change (read buf).map Prod.fst = .ok r at h
    cases hrun : read buf with
    | error e =>
        rw [hrun] at h
        cases h
    | ok x =>
        rw [hrun] at h
        cases h
        exact ((hread x.2).mp hrun).2
  · rintro ⟨_, hstores⟩
    change (read buf).map Prod.fst = .ok r
    rw [(hread []).mpr ⟨rfl, hstores⟩]
    rfl

/-- What a byte string stores is determined, and it is no proper beginning of another. -/
theorem Stores.unique {buf buf' rest : Bytes} {f f' : Fields} {es es' : List (Text × Scalar)}
    (h : Stores buf f es) (h' : Stores buf' f' es') (heq : buf = buf' ++ rest) :
    f = f' ∧ es = es' ∧ rest = [] := by
  rw [h.bytes, h'.bytes, List.append_assoc] at heq
  obtain ⟨rfl, hrest⟩ := exact_readFields.unique h.short h'.short heq
  have htail : es.flatMap entryBytes ++ [] = es'.flatMap entryBytes ++ rest := by rw [List.append_nil, hrest]
  obtain ⟨rfl, hnil⟩ := (exact_readEntries f.count.toNat).unique ⟨h.count, h.entries⟩ ⟨h'.count, h'.entries⟩ htail
  exact ⟨rfl, rfl, hnil.symm⟩

/-- The keys of the metadata, read from the bytes. -/
theorem Stores.metadataKeys_eq {buf : Bytes} {f : Fields} {es : List (Text × Scalar)} (h : Stores buf f es) :
    metadataKeys buf = es.map Prod.fst := by
  have hrun : (do let f ← readFields; readEntries f.count.toNat : Reader (List (Text × Scalar))) buf =
      .ok (es, []) := by
    refine StateT.bind_ok_iff.mpr ⟨f, es.flatMap entryBytes, ?_, ?_⟩
    · exact (exact_readFields _ _ _).mpr ⟨h.short, h.bytes⟩
    · exact (exact_readEntries _ _ _ _).mpr ⟨⟨h.count, h.entries⟩, by simp⟩
  unfold metadataKeys
  rw [hrun]

/-! ## What an encoding stores -/

/-- Writing a string succeeds when its length fits. -/
theorem putStr_iff {out b : Bytes} {s : String} : putStr out s = .ok b ↔ Short s ∧ b = out ++ strBytes s := by
  unfold putStr
  constructor
  · intro h
    split at h
    · rename_i hshort
      cases h
      exact ⟨hshort, List.append_assoc _ _ _⟩
    · cases h
  · rintro ⟨hshort, rfl⟩
    unfold Short at hshort
    rw [if_pos hshort, List.append_assoc]
    rfl

/-- Writing a metadata value. -/
theorem putScalar_iff {out b : Bytes} {v : Scalar} :
    putScalar out v = .ok b ↔ v.Short ∧ b = out ++ v.bytes := by
  cases v with
  | str s => simp only [putScalar, putStr_iff, Scalar.Short, Scalar.bytes, List.append_assoc, List.singleton_append]
  | _ =>
      simp only [putScalar, Scalar.Short, Scalar.bytes, Except.ok.injEq, true_and, List.append_assoc,
        List.cons_append, List.nil_append]
      exact eq_comm

/-- Writing a metadata entry. -/
theorem putEntry_iff {out b : Bytes} {e : Text × Scalar} :
    putEntry out e = .ok b ↔ EntryShort e ∧ b = out ++ entryBytes e := by
  unfold putEntry
  rw [bind_eq_ok]
  constructor
  · rintro ⟨out', hkey, hvalue⟩
    obtain ⟨hshort, rfl⟩ := putStr_iff.mp hkey
    obtain ⟨hshort', rfl⟩ := putScalar_iff.mp hvalue
    exact ⟨⟨hshort, hshort'⟩, List.append_assoc _ _ _⟩
  · rintro ⟨⟨hshort, hshort'⟩, rfl⟩
    exact ⟨_, putStr_iff.mpr ⟨hshort, rfl⟩, putScalar_iff.mpr ⟨hshort', (List.append_assoc _ _ _).symm⟩⟩

/-- Writing the metadata entries. -/
theorem putEntries_iff {out b : Bytes} {es : List (Text × Scalar)} :
    es.foldlM putEntry out = .ok b ↔ (∀ e ∈ es, EntryShort e) ∧ b = out ++ es.flatMap entryBytes := by
  induction es generalizing out with
  | nil =>
      rw [List.foldlM_nil]
      constructor
      · intro h
        cases h
        exact ⟨by simp, by simp⟩
      · rintro ⟨_, rfl⟩
        simp only [List.flatMap_nil, List.append_nil]
        rfl
  | cons e es ih =>
      rw [List.foldlM_cons, bind_eq_ok]
      constructor
      · rintro ⟨out', he, hrest⟩
        obtain ⟨hshort, rfl⟩ := putEntry_iff.mp he
        obtain ⟨hes, rfl⟩ := ih.mp hrest
        refine ⟨?_, by rw [List.flatMap_cons, List.append_assoc]⟩
        intro x hx
        rcases List.mem_cons.mp hx with rfl | hx
        · exact hshort
        · exact hes x hx
      · rintro ⟨hes, rfl⟩
        refine ⟨_, putEntry_iff.mpr ⟨hes e List.mem_cons_self, rfl⟩, ?_⟩
        exact ih.mpr ⟨fun x hx => hes x (List.mem_cons_of_mem _ hx), by rw [List.flatMap_cons, List.append_assoc]⟩

/-- The fields of a record, as `encode` writes them. -/
def fields (r : MemoryRecord) : Fields where
  id := r.id
  flags := r.flags
  content := r.content
  pageNo := (r.vecRef.getD ⟨0, 0⟩).pageNo
  slot := (r.vecRef.getD ⟨0, 0⟩).slot
  project := r.project.getD ""
  agent := r.provenance.agent
  sessionId := r.provenance.sessionId.getD ""
  createdAtMicros := r.provenance.createdAtMicros
  count := UInt16.ofNat r.metadata.entries.length

/-- When a record is encoded, and as what. -/
theorem encode_iff {r : MemoryRecord} {buf : Bytes} :
    encode r = .ok buf ↔ r.metadata.entries.length ≤ MAX_METADATA_ENTRIES ∧ buf.length ≤ MAX_RECORD_LEN ∧
      Stores buf r.fields r.metadata.entries := by
  unfold encode
  by_cases hcount : MAX_METADATA_ENTRIES < r.metadata.entries.length
  · rw [if_pos hcount]
    constructor
    · intro h
      cases h
    · rintro ⟨hle, _⟩
      omega
  rw [if_neg hcount]
  have hnat : r.fields.count.toNat = r.metadata.entries.length := by
    refine UInt16.toNat_ofNat_of_lt' ?_
    simp only [MAX_METADATA_ENTRIES] at hcount
    change _ < 2 ^ 16
    omega
  simp only [bind_eq_ok, putStr_iff, putEntries_iff]
  constructor
  · rintro ⟨_, ⟨hcontent, rfl⟩, _, ⟨hproject, rfl⟩, _, ⟨hagent, rfl⟩, _, ⟨hsession, rfl⟩, out, ⟨hes, hout⟩, h⟩
    split at h
    · cases h
    · rename_i hlen
      cases h
      refine ⟨not_lt.mp hcount, not_lt.mp hlen, ?_, ⟨hcontent, hproject, hagent, hsession⟩, hnat.symm, hes,
        r.metadata.sorted.nodup_keys⟩
      rw [hout, Fields.bytes, hnat]
      simp only [fields, List.append_assoc]
  · rintro ⟨_, hlen, hstores⟩
    refine ⟨_, ⟨hstores.short.content, rfl⟩, _, ⟨hstores.short.project, rfl⟩, _, ⟨hstores.short.agent, rfl⟩, _,
      ⟨hstores.short.sessionId, rfl⟩, buf, ⟨hstores.entries, ?_⟩, ?_⟩
    · rw [hstores.bytes, Fields.bytes, hnat]
      simp only [fields, List.append_assoc]
    · rw [if_neg (not_lt.mpr hlen)]

/-! ## Round trips -/

/-- An empty project, an empty session id and the all-zero reference are read as absent. -/
def normalize (r : MemoryRecord) : MemoryRecord :=
  { r with
    vecRef := if r.vecRef = some ⟨0, 0⟩ then none else r.vecRef
    project := if r.project = some "" then none else r.project
    provenance := { r.provenance with
      sessionId := if r.provenance.sessionId = some "" then none else r.provenance.sessionId } }

/-- The empty string stands for no string. -/
theorem nonEmpty_getD (o : Option String) : nonEmpty (o.getD "") = if o = some "" then none else o := by
  cases o with
  | none => rfl
  | some s => simp [nonEmpty]

/-- A string that was read is written back. -/
theorem getD_nonEmpty (s : String) : (nonEmpty s).getD "" = s := by
  unfold nonEmpty
  split
  · rename_i h
    exact h.symm
  · rfl

/-- Entries in order are their own metadata. -/
theorem ofEntries_sorted {es : List (Text × Scalar)} (h : Sorted es) : ofEntries es = ⟨es, h⟩ := by
  have hperm : (extend [] es).Perm es := perm_extend (m := []) (fun _ _ => rfl) h.nodup_keys
  have heq : extend [] es = es := by
    refine hperm.eq_of_pairwise ?_ (sorted_extend List.Pairwise.nil) h
    intro a b _ _ hab hba
    exact absurd hab (lt_asymm hba)
  simp only [ofEntries, heq]

/-- The fields of a record, read back. -/
theorem ofFields_fields (r : MemoryRecord) : ofFields r.fields (ofEntries r.metadata.entries) = r.normalize := by
  obtain ⟨id, tombstone, superseded, content, vecRef, project, ⟨agent, sessionId, created⟩, ⟨entries, hsorted⟩⟩ := r
  have hflags : (((if tombstone then FLAG_TOMBSTONE else 0) ||| (if superseded then FLAG_SUPERSEDED else 0)) &&&
        FLAG_TOMBSTONE != 0) = tombstone ∧
      (((if tombstone then FLAG_TOMBSTONE else 0) ||| (if superseded then FLAG_SUPERSEDED else 0)) &&&
        FLAG_SUPERSEDED != 0) = superseded := by
    cases tombstone <;> cases superseded <;> decide
  have hvec : (if (vecRef.getD ⟨0, 0⟩).pageNo = 0 ∧ (vecRef.getD ⟨0, 0⟩).slot = 0 then none
      else some (⟨(vecRef.getD ⟨0, 0⟩).pageNo, (vecRef.getD ⟨0, 0⟩).slot⟩ : VecRef)) =
      if vecRef = some ⟨0, 0⟩ then none else vecRef := by
    cases vecRef with
    | none => rfl
    | some v =>
        obtain ⟨pageNo, slot⟩ := v
        simp [VecRef.mk.injEq]
  simp only [ofFields, fields, flags, normalize, nonEmpty_getD, ofEntries_sorted hsorted, hflags, MemoryRecord.mk.injEq,
    true_and, and_true]
  exact hvec

/-- What `encode` keeps of the flags. -/
def keptFlags (flags : UInt8) : UInt8 := flags &&& (FLAG_TOMBSTONE ||| FLAG_SUPERSEDED)

/-- The two flags of a record that was read. -/
theorem flags_ofFields (flags : UInt8) :
    ((if flags &&& FLAG_TOMBSTONE != 0 then FLAG_TOMBSTONE else 0) |||
      (if flags &&& FLAG_SUPERSEDED != 0 then FLAG_SUPERSEDED else 0)) = keptFlags flags := by
  obtain ⟨⟨n⟩⟩ := flags
  revert n
  decide +kernel

/-- No flag is lost when only the two known ones are set. -/
theorem keptFlags_eq (flags : UInt8) : keptFlags flags = flags ↔ flags &&& 0xFC = 0 := by
  obtain ⟨⟨n⟩⟩ := flags
  revert n
  decide +kernel

/-- The fields of a decoded record: those of the file, without reserved flag bits. -/
theorem fields_ofFields {f : Fields} {es : List (Text × Scalar)} (hcount : es.length = f.count.toNat)
    (hkeys : (es.map Prod.fst).Nodup) :
    (ofFields f (ofEntries es)).fields = { f with flags := keptFlags f.flags } := by
  have hlen : (extend [] es).length = es.length := (perm_extend (m := []) (fun _ _ => rfl) hkeys).length_eq
  obtain ⟨id, flags, content, pageNo, slot, project, agent, sessionId, created, count⟩ := f
  have hvec : ((if pageNo = 0 ∧ slot = 0 then none else some ⟨pageNo, slot⟩ : Option VecRef).getD ⟨0, 0⟩) =
      ⟨pageNo, slot⟩ := by
    split
    · rename_i h
      rw [h.1, h.2]
      rfl
    · rfl
  simp only [ofFields, fields, MemoryRecord.flags, flags_ofFields, hvec, getD_nonEmpty, ofEntries, hlen, hcount,
    UInt16.ofNat_toNat]

/-- The flags do not change the length. -/
theorem bytes_length_congr {f : Fields} (flags : UInt8) : ({ f with flags } : Fields).bytes.length = f.bytes.length := by
  simp [Fields.bytes]

/-- The flags are the byte behind the id. -/
theorem Stores.flags {buf : Bytes} {f : Fields} {es : List (Text × Scalar)} (h : Stores buf f es) :
    buf.getD 16 0 = f.flags := by
  have hid := f.id.toBytes_length
  have heq : buf = f.id.toBytes ++ (f.flags :: (strBytes f.content ++ leBytes 8 f.pageNo.toNat ++
      leBytes 2 f.slot.toNat ++ strBytes f.project ++ strBytes f.agent ++ strBytes f.sessionId ++
      leBytes 8 f.createdAtMicros.toUInt64.toNat ++ leBytes 2 f.count.toNat ++ es.flatMap entryBytes)) := by
    rw [h.bytes, Fields.bytes]
    simp only [List.append_assoc, List.cons_append, List.nil_append]
  rw [heq, List.getD_eq_getElem?_getD, List.getElem?_append_right (by omega), hid]
  rfl

/-- Decoding an encoding gives the record, up to what counts as absent; encoding what was
decoded gives as many bytes, and the same bytes when no reserved flag is set and the keys
are in order; no beginning and no continuation of an encoding is a record. -/
theorem record_codec :
    (∀ r buf, encode r = .ok buf → decode buf = .ok r.normalize) ∧
    (∀ buf r, decode buf = .ok r → ∃ buf', encode r = .ok buf' ∧ buf'.length = buf.length ∧
      (buf' = buf ↔ buf.getD 16 0 &&& 0xFC = 0 ∧ (metadataKeys buf).Pairwise (· < ·))) ∧
    (∀ r buf, encode r = .ok buf → ∀ front rest, buf = front ++ rest → rest ≠ [] → ∃ e, decode front = .error e) ∧
    ∀ r buf, encode r = .ok buf → ∀ rest, rest ≠ [] → ∃ e, decode (buf ++ rest) = .error e := by
  -- of a buffer and a longer one at most one decodes, for fields are read back one way
  have hrefused : ∀ r front rest whole, rest ≠ [] → whole = front ++ rest →
      (decode front = .ok r → ∃ e, decode whole = .error e) ∧ (decode whole = .ok r → ∃ e, decode front = .error e) := by
    intro r front rest whole hne hwhole
    have hboth : ∀ r r', decode front = .ok r → decode whole = .ok r' → False := by
      intro r r' h h'
      obtain ⟨_, f, es, hf, _⟩ := decode_iff.mp h
      obtain ⟨_, f', es', hf', _⟩ := decode_iff.mp h'
      exact hne (hf'.unique hf hwhole).2.2
    constructor
    · intro h
      cases hd : decode whole with
      | error e => exact ⟨e, rfl⟩
      | ok r' => exact (hboth r r' h hd).elim
    · intro h
      cases hd : decode front with
      | error e => exact ⟨e, rfl⟩
      | ok r' => exact (hboth r' r hd h).elim
  have hround : ∀ r buf, encode r = .ok buf → decode buf = .ok r.normalize := by
    intro r buf h
    obtain ⟨_, hlen, hstores⟩ := encode_iff.mp h
    exact decode_iff.mpr ⟨hlen, _, _, hstores, (ofFields_fields r).symm⟩
  refine ⟨hround, ?_, ?_, ?_⟩
  · intro buf r h
    obtain ⟨hlen, f, es, hstores, rfl⟩ := decode_iff.mp h
    -- encoding sorts the metadata and clears the reserved flags, in the same length
    have hperm : (extend [] es).Perm es := perm_extend (m := []) (fun _ _ => rfl) hstores.keys
    have hfields := fields_ofFields hstores.count hstores.keys
    have hlength : (({ f with flags := keptFlags f.flags } : Fields).bytes ++
        (extend [] es).flatMap entryBytes).length = buf.length := by
      rw [hstores.bytes, List.length_append, List.length_append, bytes_length_congr,
        (hperm.flatMap_right entryBytes).length_eq]
    have hout : Stores (({ f with flags := keptFlags f.flags } : Fields).bytes ++ (extend [] es).flatMap entryBytes)
        { f with flags := keptFlags f.flags } (extend [] es) :=
      ⟨rfl, ⟨hstores.short.content, hstores.short.project, hstores.short.agent, hstores.short.sessionId⟩,
        hperm.length_eq.trans hstores.count, fun e he => hstores.entries e (hperm.mem_iff.mp he),
        (sorted_extend (m := []) List.Pairwise.nil).nodup_keys⟩
    refine ⟨_, encode_iff.mpr ⟨?_, hlength.trans_le hlen, hfields.symm ▸ hout⟩, hlength, ?_⟩
    · have hcount := UInt16.toNat_lt f.count
      change (extend [] es).length ≤ MAX_METADATA_ENTRIES
      rw [hperm.length_eq, hstores.count, MAX_METADATA_ENTRIES]
      omega
    -- so it gives the same bytes if these were canonical
    · rw [hstores.flags, ← keptFlags_eq, hstores.metadataKeys_eq, List.pairwise_map]
      constructor
      · intro heq
        obtain ⟨hf, hes, _⟩ := hout.unique hstores (heq.trans (List.append_nil _).symm)
        refine ⟨congrArg Fields.flags hf, ?_⟩
        rw [← hes]
        exact sorted_extend List.Pairwise.nil
      · rintro ⟨hflags, hsorted⟩
        have hes := congrArg Metadata.entries (ofEntries_sorted hsorted)
        change extend [] es = es at hes
        rw [hflags, hes, hstores.bytes]
  · intro r buf h front rest hwhole hne
    exact (hrefused _ front rest buf hne hwhole).2 (hround r buf h)
  · intro r buf h rest hne
    exact (hrefused _ buf rest _ hne rfl).1 (hround r buf h)

/-- A superseded memory with a vector, an empty project and metadata of every type. -/
def fullRecord : MemoryRecord where
  id := 7
  tombstone := false
  superseded := true
  content := String.ofList ['a', Char.ofNat 0xe9]
  vecRef := some ⟨12, 3⟩
  project := some ""
  provenance := ⟨String.ofList ['g'], some (String.ofList ['s']), -1⟩
  metadata :=
    ⟨[(⟨String.ofList ['b']⟩, .null), (⟨String.ofList ['k']⟩, .f64 5), (⟨String.ofList ['l']⟩, .i64 (-9)),
      (⟨String.ofList ['m']⟩, .str (String.ofList ['x', 'y'])), (⟨String.ofList ['n']⟩, .bool true)], by unfold Sorted; decide +kernel⟩

/-- It is read back without the empty project; with a byte more or a byte less it is refused. -/
theorem record_codec_full_record :
    ∃ buf, encode fullRecord = .ok buf ∧ decode buf = .ok { fullRecord with project := none } ∧
      (∃ e, decode (buf ++ [0]) = .error e) ∧ ∃ e, decode buf.dropLast = .error e := by
  have hok : (encode fullRecord).toOption.any (fun buf => !buf.isEmpty) = true := by decide +kernel
  rcases (Option.any_eq_true _ _).mp hok with ⟨buf, hrun, hne⟩
  have hrun := toOption_eq_some.mp hrun
  have hdecode := record_codec.1 _ _ hrun
  have hnonempty : buf ≠ [] := by
    intro hnil
    rw [hnil] at hne
    cases hne
  refine ⟨buf, hrun, hdecode, record_codec.2.2.2 _ _ hrun [0] (by simp), ?_⟩
  exact record_codec.2.2.1 _ _ hrun _ [buf.getLast hnonempty] (List.dropLast_append_getLast hnonempty).symm (by simp)

end MemoryRecord

end EmbedMind
