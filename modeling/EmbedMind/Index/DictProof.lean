import EmbedMind.Index.Dict
import EmbedMind.Storage.TypedPage

/-!
# The dictionary keeps a map

A node reads back from its page (`decodeNode_encodeLeaf`, `decodeNode_encodeInner`),
so the layout is lawful with the trivial error condition. From there: `Holds.get`
reads the map of a dictionary, `wp_upsert` puts an entry into it.
-/

namespace EmbedMind

open Lib Lib.Assoc Lib.PagedTree

namespace Dict

/-! ## Reading what stands in a buffer -/

section Reading

variable {buf bs : Bytes} {off : Nat}

/-- A number is read back. -/
theorem readInt_of_hasAt (pageNo : Nat) {w v : Nat} (h : HasAt buf off (leBytes w v))
    (hv : v < 256 ^ w) : readInt buf off w pageNo = .ok v := by
  rw [readInt, h.readLE hv, okOr_some]

/-- A number is read back, and the offset moves behind it. -/
theorem getInt_of_hasAt (pageNo : Nat) {w v : Nat} (h : HasAt buf off (leBytes w v))
    (hv : v < 256 ^ w) : getInt buf off w pageNo = .ok (v, off + w) := by
  simp [getInt, readInt_of_hasAt pageNo h hv, bind, Except.bind]

/-- So is a string of known length. -/
theorem getSlice_of_hasAt (pageNo : Nat) (what : String) (contentEnd : Nat) (h : HasAt buf off bs)
    (hend : off + bs.length ≤ contentEnd) :
    getSlice buf off bs.length contentEnd pageNo what = .ok (bs, off + bs.length) := by
  rw [getSlice, if_pos hend, h.slice rfl]

/-- So is a string with a length of two bytes. -/
theorem getBytesU16_of_hasAt (pageNo : Nat) (what : String) (contentEnd : Nat)
    (h : HasAt buf off (leBytes 2 bs.length ++ bs)) (hlen : bs.length < 2 ^ 16)
    (hend : off + 2 + bs.length ≤ contentEnd) :
    getBytesU16 buf off contentEnd pageNo what = .ok (bs, off + 2 + bs.length) := by
  obtain ⟨h1, h2⟩ := hasAt_append.mp h
  rw [leBytes_length] at h2
  have hread := h1.readLE (by simpa using hlen)
  simp [getBytesU16, hread, okOr_some, bind, Except.bind, getSlice_of_hasAt pageNo what contentEnd h2 hend]

/-- So is a string with a length of four bytes. -/
theorem getBytesU32_of_hasAt (pageNo : Nat) (what : String) (contentEnd : Nat)
    (h : HasAt buf off (leBytes 4 bs.length ++ bs)) (hlen : bs.length < 2 ^ 32)
    (hend : off + 4 + bs.length ≤ contentEnd) :
    getBytesU32 buf off contentEnd pageNo what = .ok (bs, off + 4 + bs.length) := by
  obtain ⟨h1, h2⟩ := hasAt_append.mp h
  rw [leBytes_length] at h2
  have hread := readInt_of_hasAt pageNo h1 (by simpa using hlen)
  simp [getBytesU32, hread, bind, Except.bind, getSlice_of_hasAt pageNo what contentEnd h2 hend]

end Reading

/-! ## A node reads back -/

/-- Keys and values of a dictionary: the key bound, and values whose length is a u32. -/
def MAX_VALUE_LEN : Nat := 2 ^ 32 - 1

section Codec

variable {H : Xxh3} {spec : DictSpec} {pageSize : Nat} (pageNo : Nat)

@[simp] theorem encodeValue_length (c : Cell) : (encodeValue c).length = encodedLen c := by
  cases c with
  | inline b =>
      simp only [encodeValue, encodedLen, List.length_cons, List.length_append, leBytes_length]
      omega
  | overflow _ _ => simp [encodeValue, encodedLen]

@[simp] theorem leafBytes_length (es : List (Bytes × Cell)) :
    (leafBytes es).length = (es.map footprint).sum := by
  induction es with
  | nil => rfl
  | cons e es ih =>
      obtain ⟨key, value⟩ := e
      simp only [leafBytes, List.length_append, leBytes_length, encodeValue_length, ih, List.map_cons,
        List.sum_cons, footprint]

@[simp] theorem innerBytes_length (es : List (Bytes × Nat)) :
    (innerBytes es).length = (es.map fun e => 2 + e.1.length + 8).sum := by
  induction es with
  | nil => rfl
  | cons e es ih =>
      obtain ⟨key, child⟩ := e
      simp only [innerBytes, List.length_append, leBytes_length, ih, List.map_cons, List.sum_cons]

/-- A value is read back, inline or as a pointer. -/
theorem decodeValue_of_hasAt {page : Bytes} {off : Nat} (contentEnd : Nat) {c : Cell}
    (h : HasAt page off (encodeValue c)) (hend : off + encodedLen c ≤ contentEnd)
    (hcap : contentEnd ≤ 65536) (hc : c.Pointed MAX_VALUE_LEN) :
    decodeValue page off contentEnd pageNo = .ok (c, off + encodedLen c) := by
  cases c with
  | inline b =>
      obtain ⟨htag, hrest⟩ := hasAt_cons.mp h
      have hlen : b.length < 2 ^ 32 := by
        simp only [encodedLen] at hend
        omega
      have hbody := getBytesU32_of_hasAt pageNo "dict inline value" contentEnd hrest hlen
        (by simp only [encodedLen] at hend; omega)
      have hoff : off + 1 + 4 + b.length = off + encodedLen (.inline b) := by
        simp only [encodedLen]
        omega
      simp [decodeValue, htag.getElem?, okOr_some, bind, Except.bind, VALUE_INLINE, hbody, hoff]
  | overflow totalLen firstPage =>
      obtain ⟨htotal, hpos, hlt⟩ := hc
      obtain ⟨htag, hrest⟩ := hasAt_cons.mp h
      obtain ⟨h1, h2⟩ := hasAt_append.mp hrest
      rw [leBytes_length] at h2
      have htotal' : totalLen < 256 ^ 4 := by
        simp only [MAX_VALUE_LEN] at htotal
        omega
      have hread1 := getInt_of_hasAt pageNo h1 htotal'
      have hread2 := getInt_of_hasAt pageNo h2 (by simpa using hlt)
      have hne : firstPage ≠ 0 := by omega
      simp [decodeValue, htag.getElem?, okOr_some, bind, Except.bind, VALUE_INLINE, VALUE_OVERFLOW,
        hread1, hread2, hne, encodedLen]

/-- The entries of a leaf are read back. -/
theorem decodeEntries_eq {page : Bytes} (contentEnd : Nat) (es : List (Bytes × Cell)) (off : Nat)
    (prev : Option Bytes) (h : HasAt page off (leafBytes es))
    (hend : off + (leafBytes es).length ≤ contentEnd) (hcap : contentEnd ≤ 65536)
    (hsorted : Sorted es) (hprev : ∀ p ∈ prev, ∀ e ∈ es, p < e.1) (hok : ∀ e ∈ es, e.2.Pointed MAX_VALUE_LEN) :
    decodeEntries page contentEnd pageNo es.length off prev = .ok es := by
  induction es generalizing off prev with
  | nil => rfl
  | cons e es ih =>
      obtain ⟨key, value⟩ := e
      obtain ⟨hlt, hsorted'⟩ := List.pairwise_cons.mp hsorted
      have hc := hok (key, value) List.mem_cons_self
      have hsize : (leafBytes ((key, value) :: es)).length =
          2 + key.length + encodedLen value + (leafBytes es).length := by
        simp [footprint]
      rw [hsize] at hend
      simp only [leafBytes, List.append_assoc] at h
      rw [← List.append_assoc] at h
      obtain ⟨hkeyAt, h⟩ := hasAt_append.mp h
      obtain ⟨hvalue, hrest⟩ := hasAt_append.mp h
      rw [List.length_append, leBytes_length, ← Nat.add_assoc] at hvalue hrest
      rw [encodeValue_length] at hrest
      have hkey' := getBytesU16_of_hasAt pageNo "dict leaf key" contentEnd hkeyAt (by omega)
        (by omega)
      have hvalue' := decodeValue_of_hasAt pageNo contentEnd hvalue (by omega) hcap hc
      have hfresh : prev.any (fun p => decide (key ≤ p)) = false := by
        cases prev with
        | none => rfl
        | some p =>
            have := hprev p rfl (key, value) List.mem_cons_self
            simpa using this
      have hrest' := ih (off + 2 + key.length + encodedLen value) (some key) hrest (by omega) hsorted'
        (by
          intro p hp x hx
          cases hp
          exact hlt x hx)
        (fun x hx => hok x (List.mem_cons_of_mem _ hx))
      simp only [List.length_cons, decodeEntries, hkey', hfresh, hvalue', hrest', bind, Except.bind,
        if_false, Bool.false_eq_true]

/-- The entries of an inner node are read back. -/
theorem decodeChildren_eq {page : Bytes} (contentEnd : Nat) (es : List (Bytes × Nat)) (off : Nat)
    (prev : Option Bytes) (h : HasAt page off (innerBytes es))
    (hend : off + (innerBytes es).length ≤ contentEnd) (hcap : contentEnd ≤ 65536)
    (hsorted : Sorted es) (hprev : ∀ p ∈ prev, ∀ e ∈ es, p < e.1) (hok : ∀ e ∈ es, 0 < e.2 ∧ e.2 < 2 ^ 64) :
    decodeChildren page contentEnd pageNo es.length off prev = .ok es := by
  induction es generalizing off prev with
  | nil => rfl
  | cons e es ih =>
      obtain ⟨key, child⟩ := e
      obtain ⟨hlt, hsorted'⟩ := List.pairwise_cons.mp hsorted
      obtain ⟨hpos, hbound⟩ := hok (key, child) List.mem_cons_self
      simp only at hpos hbound
      have hsize : (innerBytes ((key, child) :: es)).length =
          2 + key.length + 8 + (innerBytes es).length := by
        simp
      rw [hsize] at hend
      simp only [innerBytes, List.append_assoc] at h
      rw [← List.append_assoc] at h
      obtain ⟨hkeyAt, h⟩ := hasAt_append.mp h
      obtain ⟨hchild, hrest⟩ := hasAt_append.mp h
      rw [List.length_append, leBytes_length, ← Nat.add_assoc] at hchild hrest
      rw [leBytes_length] at hrest
      have hkey' := getBytesU16_of_hasAt pageNo "dict inner key" contentEnd hkeyAt (by omega)
        (by omega)
      have hchild' := getInt_of_hasAt pageNo hchild (by simpa using hbound)
      have hne : child ≠ 0 := by omega
      have hfresh : prev.any (fun p => decide (key ≤ p)) = false := by
        cases prev with
        | none => rfl
        | some p =>
            have := hprev p rfl (key, child) List.mem_cons_self
            simpa using this
      have hrest' := ih (off + 2 + key.length + 8) (some key) hrest (by omega) hsorted'
        (by
          intro p hp x hx
          cases hp
          exact hlt x hx)
        (fun x hx => hok x (List.mem_cons_of_mem _ hx))
      simp only [List.length_cons, decodeChildren, hkey', hfresh, hchild', hrest', hne, bind,
        Except.bind, if_false, Bool.false_eq_true]

section NodePage

variable {entryCount : Nat} {body : Bytes}

/-- The header of a node page is read back. -/
theorem nodePage_header (hlo : 512 ≤ pageSize) (hcount : entryCount < 2 ^ 32) :
    PageHeader.decode (nodePage H spec pageSize entryCount body) = some ⟨spec.dict, entryCount, 0⟩ :=
  typedPage_header hlo hcount (by norm_num)

/-- The body of a node page stands behind its header. -/
theorem nodePage_body (hfit : PAGE_HEADER_LEN + body.length ≤ pageSize - PAGE_TRAILER_LEN) :
    HasAt (nodePage H spec pageSize entryCount body) PAGE_HEADER_LEN body :=
  typedPage_body hfit

@[simp] theorem nodePage_length : (nodePage H spec pageSize entryCount body).length = pageSize :=
  typedPage_length

end NodePage

/-- The page of a leaf. -/
theorem encodeLeaf_eq_some {es : List (Bytes × Cell)} {b : Bytes}
    (h : encodeLeaf H spec es pageSize = some b) :
    PAGE_HEADER_LEN + (NODE_LEAF :: leafBytes es).length ≤ pageSize - PAGE_TRAILER_LEN ∧
    b = nodePage H spec pageSize es.length (NODE_LEAF :: leafBytes es) := by
  simp only [encodeLeaf] at h
  split at h
  · cases h
  · rename_i hfit
    cases h
    refine ⟨?_, rfl⟩
    rw [List.length_cons, leafBytes_length]
    omega

/-- The page of an inner node. -/
theorem encodeInner_eq_some {es : List (Bytes × Nat)} {r : Nat} {b : Bytes}
    (h : encodeInner H spec es r pageSize = some b) : es ≠ [] ∧
    PAGE_HEADER_LEN + (NODE_INNER :: (leBytes 8 r ++ innerBytes es)).length ≤
      pageSize - PAGE_TRAILER_LEN ∧
    b = nodePage H spec pageSize es.length (NODE_INNER :: (leBytes 8 r ++ innerBytes es)) := by
  simp only [encodeInner] at h
  split at h
  · cases h
  · rename_i hfit
    cases h
    simp only [List.isEmpty_iff, not_or, not_lt] at hfit
    refine ⟨hfit.1, ?_, rfl⟩
    rw [List.length_cons, List.length_append, leBytes_length, innerBytes_length]
    omega

/-- A leaf has no more entries than bytes. -/
theorem count_le_leafBytes (es : List (Bytes × Cell)) : es.length ≤ (leafBytes es).length := by
  induction es with
  | nil => simp
  | cons e es ih =>
      simp only [leafBytes_length, List.map_cons, List.sum_cons, List.length_cons, footprint] at ih ⊢
      omega

/-- Neither has an inner node. -/
theorem count_le_innerBytes (es : List (Bytes × Nat)) : es.length ≤ (innerBytes es).length := by
  induction es with
  | nil => simp
  | cons e es ih =>
      simp only [innerBytes_length, List.map_cons, List.sum_cons, List.length_cons] at ih ⊢
      omega

/-- A leaf is read back. -/
theorem decodeNode_encodeLeaf {es : List (Bytes × Cell)} {b : Bytes} (hlo : 512 ≤ pageSize)
    (hhi : pageSize ≤ 65536) (h : encodeLeaf H spec es pageSize = some b) (hsorted : Sorted es)
    (hok : ∀ e ∈ es, e.2.Pointed MAX_VALUE_LEN) :
    decodeNode spec b pageNo = .ok (.leaf es) := by
  obtain ⟨hfit, rfl⟩ := encodeLeaf_eq_some h
  have hcount := count_le_leafBytes es
  have hbody : HasAt (nodePage H spec pageSize es.length (NODE_LEAF :: leafBytes es))
      PAGE_HEADER_LEN (NODE_LEAF :: leafBytes es) := nodePage_body hfit
  obtain ⟨hkind, hentries⟩ := hasAt_cons.mp hbody
  have hfit' := hfit
  simp only [PAGE_HEADER_LEN, PAGE_TRAILER_LEN, List.length_cons] at hfit'
  have hhead : PageHeader.decode (nodePage H spec pageSize es.length (NODE_LEAF :: leafBytes es)) =
      some ⟨spec.dict, es.length, 0⟩ := nodePage_header hlo (by omega)
  have hdec := decodeEntries_eq pageNo (pageSize - PAGE_TRAILER_LEN) es (PAGE_HEADER_LEN + 1) none
    hentries
    (by simp only [PAGE_HEADER_LEN, PAGE_TRAILER_LEN]; omega)
    (by simp only [PAGE_TRAILER_LEN]; omega) hsorted (by simp) hok
  simp [decodeNode, hhead, okOr_some, bind, Except.bind, hkind.getElem?, hdec]

/-- An inner node is read back. -/
theorem decodeNode_encodeInner {es : List (Bytes × Nat)} {r : Nat} {b : Bytes} (hlo : 512 ≤ pageSize)
    (hhi : pageSize ≤ 65536) (h : encodeInner H spec es r pageSize = some b) (hsorted : Sorted es)
    (hok : ∀ e ∈ es, 0 < e.2 ∧ e.2 < 2 ^ 64) (hpos : 0 < r)
    (hr : r < 2 ^ 64) : decodeNode spec b pageNo = .ok (.inner es r) := by
  obtain ⟨hne, hfit, rfl⟩ := encodeInner_eq_some h
  have hcount := count_le_innerBytes es
  have hbody : HasAt (nodePage H spec pageSize es.length (NODE_INNER :: (leBytes 8 r ++ innerBytes es)))
      PAGE_HEADER_LEN (NODE_INNER :: (leBytes 8 r ++ innerBytes es)) := nodePage_body hfit
  obtain ⟨hkind, hrest⟩ := hasAt_cons.mp hbody
  obtain ⟨hright, hentries⟩ := hasAt_append.mp hrest
  rw [leBytes_length] at hentries
  have hfit' := hfit
  simp only [PAGE_HEADER_LEN, PAGE_TRAILER_LEN, List.length_cons, List.length_append,
    leBytes_length] at hfit'
  have hhead : PageHeader.decode (nodePage H spec pageSize es.length
      (NODE_INNER :: (leBytes 8 r ++ innerBytes es))) = some ⟨spec.dict, es.length, 0⟩ :=
    nodePage_header hlo (by omega)
  have hright' := getInt_of_hasAt pageNo hright (by simpa using hr)
  have hdec := decodeChildren_eq pageNo (pageSize - PAGE_TRAILER_LEN) es (PAGE_HEADER_LEN + 1 + 8) none
    hentries
    (by simp only [PAGE_HEADER_LEN, PAGE_TRAILER_LEN]; omega) (by simp only [PAGE_TRAILER_LEN]; omega) hsorted
    (by simp) hok
  have hne0 : es.length ≠ 0 := fun h0 => hne (List.length_eq_zero_iff.mp h0)
  have hr0 : r ≠ 0 := by omega
  have hkinds : NODE_INNER ≠ NODE_LEAF := by decide
  simp [decodeNode, hhead, okOr_some, bind, Except.bind, hkind.getElem?, hright', hdec, hne, hr0,
    hkinds]

end Codec

/-- The layout is lawful; which upserts fail is left open. -/
theorem lawful (H : Xxh3) (spec : DictSpec) {pageSize : Nat} (hlo : 512 ≤ pageSize)
    (hhi : pageSize ≤ 65536) (hkey : spec.maxKeyLen < 2 ^ 16) :
    (tree H spec).Lawful H pageSize MAX_VALUE_LEN (fun k => k.length ≤ spec.maxKeyLen)
      (fun _ => True) where
  pageSize_ge := hlo
  pageSize_le := hhi
  overflow := trivial
  leaf_length := by
    intro es b h
    obtain ⟨_, rfl⟩ := encodeLeaf_eq_some h
    simp
  inner_length := by
    intro es r b h
    obtain ⟨_, _, rfl⟩ := encodeInner_eq_some h
    simp
  inner_ne := by
    intro es r b h
    exact (encodeInner_eq_some h).1
  decode_leaf := by
    intro es b n h hsorted hok
    have hstamp : stampPageChecksum H b = b := by
      obtain ⟨_, rfl⟩ := encodeLeaf_eq_some h
      exact stampPageChecksum_idem H _
    rw [hstamp]
    exact decodeNode_encodeLeaf n hlo hhi h hsorted fun e he => (hok e he).2.pointed
  decode_inner := by
    intro es r b n h hsorted hok hpos hr
    have hstamp : stampPageChecksum H b = b := by
      obtain ⟨_, _, rfl⟩ := encodeInner_eq_some h
      exact stampPageChecksum_idem H _
    rw [hstamp]
    exact decodeNode_encodeInner n hlo hhi h hsorted (fun e he => (hok e he).2) hpos hr
  chunks := by
    intro v hv
    cases v with
    | nil => simp at hv
    | cons _ _ => rfl
  overflowLen := by
    intro n hn
    simp only [MAX_VALUE_LEN] at hn
    have hlt : n < 2 ^ 32 := by omega
    show (if n < 2 ^ 32 then _ else _) = _
    rw [if_pos hlt]
  finish := fun page => ⟨stampPageChecksum_length H page, stampPageChecksum_idem H page⟩
  fresh_leaf := fun _ _ _ _ => Or.inr fun _ => trivial
  fresh_root := fun _ _ _ _ => Or.inr fun _ => trivial
  leaf_split := fun _ _ _ _ _ _ _ _ => Or.inr fun _ => trivial
  inner_split := fun _ _ _ _ _ _ _ => Or.inr fun _ => trivial

/-! ## Reading the map -/

/-- The layout of a dictionary on pages of a size. -/
abbrev pageLayout (H : Xxh3) (spec : DictSpec) (pageSize : Nat) : Layout Bytes Bytes Cell Bytes :=
  (tree H spec).layout H pageSize MAX_VALUE_LEN fun k => k.length ≤ spec.maxKeyLen

/-- The dictionary a reader sees at a root holds the map `m` on the pages `own`. -/
structure Holds (H : Xxh3) (spec : DictSpec) (src : PageSource) (root : Nat)
    (m : List (Bytes × Bytes)) (own : List Nat) : Prop where
  rooted : Rooted (pageLayout H spec src.pageSize) src.view root m own
  nodup : own.Nodup
  bound : ∃ b, b < 2 ^ 64 ∧ ∀ p ∈ own, 0 < p ∧ p < b
  pageSize_ge : 512 ≤ src.pageSize
  pageSize_le : src.pageSize ≤ 65536
  keys : spec.maxKeyLen < 2 ^ 16

section Read

variable {H : Xxh3} {spec : DictSpec} {src : PageSource}

/-- A chain reads back as the chunks it was written from. -/
theorem readOverflowChain_eq (hlo : 512 ≤ src.pageSize) (hhi : src.pageSize ≤ 65536)
    {cs : List Bytes} {p : Nat} {ps : List Nat}
    (h : ChainAt H spec.overflow src.pageSize src.view cs (p :: ps))
    (hc : ∀ c ∈ cs, 0 < c.length ∧ c.length ≤ usable src.pageSize)
    (hb : ∀ q ∈ ps, 0 < q ∧ q < 2 ^ 64) (fuel : Nat) (hf : cs.flatten.length < fuel) :
    readOverflowChain spec src fuel p cs.flatten.length = .ok cs.flatten := by
  induction cs generalizing p ps fuel with
  | nil => cases h
  | cons c cs ih =>
      obtain ⟨h1, h2⟩ := h
      obtain ⟨hc0, hcap⟩ := hc c List.mem_cons_self
      have hnext : ps.head?.getD 0 < 2 ^ 64 := by
        cases ps with
        | nil => simp
        | cons q ps => exact (hb q List.mem_cons_self).2
      have hhead := stamped_chainPage_header H spec.overflow (ps.head?.getD 0) hlo hhi hcap hnext
      have hload := stamped_chainPage_payload H spec.overflow (ps.head?.getD 0) hlo hcap
      have hpage := PageSource.page_of_view h1
      have hsum : (c :: cs).flatten.length = c.length + cs.flatten.length := by simp
      rw [hsum] at hf ⊢
      obtain ⟨fuel, rfl⟩ : ∃ f, fuel = f + 1 := ⟨fuel - 1, by omega⟩
      have hused : ¬ (c.length + cs.flatten.length < c.length ∨ usable src.pageSize < c.length) := by
        omega
      simp only [readOverflowChain, hpage, hhead, okOr_some, hused, hload, bind, Except.bind, ne_eq,
        not_true_eq_false, if_false, Nat.add_sub_cancel_left]
      cases cs with
      | nil => simp
      | cons d ds =>
          obtain ⟨hd0, _⟩ := hc d (by simp)
          cases ps with
          | nil => cases h2
          | cons q ps =>
              have hq := hb q List.mem_cons_self
              have hrest := ih h2 (fun x hx => hc x (List.mem_cons_of_mem _ hx))
                (fun x hx => hb x (List.mem_cons_of_mem _ hx)) fuel (by omega)
              have hpos : ¬ (d :: ds).flatten.length = 0 := by
                simp only [List.flatten_cons, List.length_append]
                omega
              have hq0 : ¬ q = 0 := by omega
              simp only [hpos, if_false, List.head?_cons, Option.getD_some, hq0, hrest]
              rw [← List.flatten_cons]

/-- The values of the map, read through the cells of the leaf they stand in. -/
theorem Holds.get {root : Nat} {m : List (Bytes × Bytes)} {own : List Nat}
    (h : Holds H spec src root m own) (k : Bytes) :
    (Dict.get H spec src root k = .ok none ∧ find k m = none) ∨
    ∃ v page, Dict.get H spec src root k = .ok (some (v, page)) ∧ find k m = some v := by
  obtain ⟨b, hlt, hb⟩ := h.bound
  unfold Dict.get
  rcases h.rooted with ⟨rfl, rfl, _⟩ | ⟨hne, _⟩
  · exact Or.inl ⟨rfl, rfl⟩
  · rw [if_neg hne]
    have L := lawful H spec h.pageSize_ge h.pageSize_le h.keys
    rcases TreeSpec.lookup_rooted L k h.nodup hb hlt hne h.rooted with
      ⟨h1, h2⟩ | ⟨c, leaf, v, ps, h1, h2, h3, h4⟩
    · exact Or.inl ⟨by simp [h1, bind, Except.bind], h2⟩
    · refine Or.inr ?_
      cases c with
      | inline value =>
          obtain ⟨rfl, _, _⟩ := h3
          exact ⟨value, leaf, by simp [h1, bind, Except.bind], h2⟩
      | overflow totalLen firstPage =>
          obtain ⟨rfl, _, _, hhead, hchain⟩ := h3
          have hcap : 0 < usable src.pageSize := by
            have := h.pageSize_ge
            simp only [usable, PAGE_HEADER_LEN, PAGE_TRAILER_LEN]
            omega
          cases ps with
          | nil => cases hhead
          | cons p ps =>
              cases hhead
              have hread := readOverflowChain_eq h.pageSize_ge h.pageSize_le hchain
                (fun x hx => mem_chunksUpTo hcap hx)
                (fun q hq => ⟨(hb q (h4 q (List.mem_cons_of_mem _ hq))).1,
                  lt_trans (hb q (h4 q (List.mem_cons_of_mem _ hq))).2 hlt⟩)
                (v.length + 1) (by rw [chunks_flatten hcap]; omega)
              rw [chunks_flatten hcap] at hread
              exact ⟨v, firstPage, by simp [h1, hread, bind, Except.bind], h2⟩

/-- A value of the map is one that the codec can hold. -/
theorem Holds.length_lt {root : Nat} {m : List (Bytes × Bytes)} {own : List Nat}
    (h : Holds H spec src root m own) {k v : Bytes} (hv : find k m = some v) : v.length < 2 ^ 32 := by
  obtain ⟨b, hlt, hb⟩ := h.bound
  have hps := h.pageSize_le
  rcases h.rooted with ⟨rfl, rfl, _⟩ | ⟨hne, _⟩
  · cases hv
  · have L := lawful H spec h.pageSize_ge h.pageSize_le h.keys
    rcases TreeSpec.lookup_rooted L k h.nodup hb hlt hne h.rooted with
      ⟨_, h2⟩ | ⟨c, leaf, v', ps, _, h2, h3, _⟩
    · rw [h2] at hv
      cases hv
    · rw [h2] at hv
      cases hv
      cases c with
      | inline value =>
          have hle : v.length ≤ maxInlineBody spec src.pageSize := h3.2.1
          simp only [maxInlineBody, maxEntryFootprint, usable] at hle
          omega
      | overflow totalLen firstPage =>
          have hle : v.length ≤ MAX_VALUE_LEN := h3.2.2.1
          simp only [MAX_VALUE_LEN] at hle
          omega

/-- The values of a leaf fit on its page and on the pages of their chains. -/
theorem entries_weight_le {pageSize : Nat} (hlo : 512 ≤ pageSize) {μ : Nat → Option Bytes}
    {es : List (Bytes × Cell)} {m : List (Bytes × Bytes)} {ps : List Nat}
    (h : Entries (pageLayout H spec pageSize) μ es m ps) :
    (m.map fun e => e.2.length).sum ≤ (es.map footprint).sum + ps.length * pageSize := by
  have hcap : 0 < usable pageSize := by
    simp only [usable, PAGE_HEADER_LEN, PAGE_TRAILER_LEN]
    omega
  induction h with
  | nil => simp
  | @cons k c v ps es m own _ hc _ ih =>
      have hv : v.length ≤ footprint (k, c) + ps.length * pageSize := by
        cases c with
        | inline value =>
            obtain ⟨rfl, _, rfl⟩ := hc
            simp only [footprint, encodedLen]
            omega
        | overflow totalLen firstPage =>
            obtain ⟨_, _, _, _, hchain⟩ := hc
            have hlen := hchain.length
            have hchunks := length_le_of_chunks hcap v
            have hle : usable pageSize ≤ pageSize := by
              simp only [usable]
              omega
            have hpages := Nat.mul_le_mul_left ps.length hle
            rw [← hlen] at hchunks
            omega
      simp only [List.map_cons, List.sum_cons, List.length_append, Nat.add_mul]
      omega

/-- The bytes of all values of a dictionary, against its pages. -/
theorem size_le {pageSize : Nat} (hlo : 512 ≤ pageSize) {μ : Nat → Option Bytes} {root : Nat}
    {m : List (Bytes × Bytes)} {own : List Nat} (h : Rooted (pageLayout H spec pageSize) μ root m own) :
    (m.map fun e => e.2.length).sum ≤ own.length * pageSize := by
  refine h.weight_le ?_
  intro es m ps b hb hes
  have hle := entries_weight_le hlo hes
  have hb' : ∃ b', encodeLeaf H spec es pageSize = some b' := by
    have hmap : (encodeLeaf H spec es pageSize).map (stampPageChecksum H) = some b := hb
    obtain ⟨b', hb', _⟩ := Option.map_eq_some_iff.mp hmap
    exact ⟨b', hb'⟩
  obtain ⟨b', hb'⟩ := hb'
  have hfit := (encodeLeaf_eq_some hb').1
  rw [List.length_cons, leafBytes_length] at hfit
  rw [Nat.add_mul]
  omega

end Read

/-! ## Writing the map -/

section Write

variable {H : Xxh3} {spec : DictSpec} {t : Txn} {root : Nat} {m : List (Bytes × Bytes)}
  {own : List Nat}

/-- A dictionary in a transaction, on pages of the transaction's file. -/
structure InTxn (H : Xxh3) (spec : DictSpec) (t : Txn) (root : Nat) (m : List (Bytes × Bytes))
    (own : List Nat) : Prop where
  rooted : Rooted (pageLayout H spec t.pageSize) (t.view H) root m own
  owns : t.Owns own
  keys : spec.maxKeyLen < 2 ^ 16

/-- The dictionary a transaction reads. -/
theorem InTxn.holds (h : InTxn H spec t root m own) (ht : t.Wf H) :
    Holds H spec (t.source H) root m own where
  rooted := h.rooted
  nodup := h.owns.nodup
  bound := ⟨t.pageCount, ht.bound, fun p hp => ⟨h.owns.pos p hp, h.owns.lt p hp⟩⟩
  pageSize_ge := ht.pageSize_bounds.1
  pageSize_le := ht.pageSize_bounds.2
  keys := h.keys

/-- The root is a page number. -/
theorem InTxn.root_lt (h : InTxn H spec t root m own) (ht : t.Wf H) : root < 2 ^ 64 := by
  rcases h.rooted with ⟨rfl, _⟩ | ⟨_, d, htree⟩
  · norm_num
  · exact lt_trans (h.owns.lt root htree.root_mem) ht.bound

/-- An upsert that succeeds puts its entry into the map. -/
theorem wp_upsert (h : InTxn H spec t root m own) (ht : t.Wf H) (key body : Bytes) :
    Wp (upsert H spec root key body) t (fun root' t' => ∃ own',
      InTxn H spec t' root' (insertKey key body m) own' ∧ t.Moved H t' own own') fun _ => True := by
  unfold upsert
  split
  · exact Wp.throw trivial
  · rename_i hkey
    have L := lawful H spec ht.pageSize_bounds.1 ht.pageSize_bounds.2 h.keys
    have hlen : body.length ≤ MAX_VALUE_LEN ∨
        ∃ e, (tree H spec).overflowLen body.length = .error e ∧ True := by
      by_cases hb : body.length < 2 ^ 32
      · exact Or.inl (Nat.le_pred_of_lt hb)
      · exact Or.inr ⟨_, if_neg hb, trivial⟩
    refine (TreeSpec.wp_upsert L ht rfl h.owns h.rooted (not_lt.mp hkey) hlen).imp ?_
    rintro root' t' ⟨own', htree, hmoved⟩
    refine ⟨own', ⟨?_, hmoved.owns ht h.owns, h.keys⟩, hmoved⟩
    rw [hmoved.pageSize]
    exact htree

end Write

end Dict

end EmbedMind
