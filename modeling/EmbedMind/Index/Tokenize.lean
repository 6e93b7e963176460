import EmbedMind.Index.Dict

/-!
# The tokenizer (`index/fts.rs`)

Tokens are maximal runs of alphanumeric characters, lowercased. A term is a token
clipped to `MAX_TERM_LEN` bytes, as the bytes the dictionary is keyed by. Which
characters are alphanumeric and what their lowercase is comes from the Unicode tables
of the standard library, which stand here as a parameter.
-/

namespace EmbedMind

open Lib Lib.Assoc

/-- `char::is_alphanumeric` and `char::to_lowercase`; the latter yields at least one
character. -/
structure Unicode where
  isAlphanumeric : Char → Bool
  toLowercase : Char → List Char
  toLowercase_ne : ∀ c, toLowercase c ≠ []

/-- The tables on ASCII text. -/
def Unicode.ascii : Unicode := ⟨Char.isAlphanum, fun c => [c.toLower], by simp⟩

namespace Fts

section Tokenizer

variable (U : Unicode)

/-- The loop of `tokenize`; `cur` is the token being read. -/
def tokenizeFrom : List Char → List Char → List (List Char)
  | cur, [] => if cur.isEmpty then [] else [cur]
  | cur, ch :: rest =>
      if U.isAlphanumeric ch then tokenizeFrom (cur ++ U.toLowercase ch) rest
      else if cur.isEmpty then tokenizeFrom cur rest
      else cur :: tokenizeFrom [] rest

def tokenize (text : String) : List (List Char) := tokenizeFrom U [] text.toList

/-- `u32::saturating_add` of one. -/
def saturatingSucc (count : Nat) : Nat := min (count + 1) (2 ^ 32 - 1)

def docLenFrom : Nat → Bool → List Char → Nat
  | count, inToken, [] => if inToken then saturatingSucc count else count
  | count, inToken, ch :: rest =>
      if U.isAlphanumeric ch then docLenFrom count true rest
      else if inToken then docLenFrom (saturatingSucc count) false rest
      else docLenFrom count false rest

/-- Token count of a text, saturating. -/
def docLen (text : String) : Nat := docLenFrom U 0 false text.toList

/-- The longest prefix of whole characters that takes at most `room` bytes. -/
def clipChars : Nat → List Char → List Char
  | _, [] => []
  | room, ch :: rest =>
      if ch.utf8Size ≤ room then ch :: clipChars (room - ch.utf8Size) rest else []

def clipTerm (term : List Char) : List Char := clipChars MAX_TERM_LEN term

/-- `str::as_bytes`. -/
def asBytes (term : List Char) : Bytes := term.flatMap String.utf8EncodeChar

/-- The clipped tokens of a text, in order. -/
def terms (text : String) : List Bytes :=
  ((tokenize U text).map fun token => asBytes (clipTerm token)).filter fun term => !term.isEmpty

/-- One more occurrence of a term; the counters are u32. -/
def countTerm (freqs : List (Bytes × Nat)) (term : Bytes) : List (Bytes × Nat) :=
  insertKey term (((find term freqs).getD 0 + 1) % 2 ^ 32) freqs

/-- How often each term occurs, sorted by term. -/
def termFreqs (text : String) : List (Bytes × Nat) := (terms U text).foldl countTerm []

/-- `Vec::dedup`. -/
def dedup : List Bytes → List Bytes
  | a :: b :: rest => if a = b then dedup (b :: rest) else a :: dedup (b :: rest)
  | l => l

/-- The distinct terms of a query, sorted. -/
def queryTerms (query : String) : List Bytes :=
  dedup ((terms U query).insertionSort (· ≤ ·))

end Tokenizer

/-! ## Counting -/

section Counting

variable (U : Unicode)

/-- Counting up to the maximum. -/
theorem saturatingSucc_min (n : Nat) :
    saturatingSucc (min n (2 ^ 32 - 1)) = min (n + 1) (2 ^ 32 - 1) := by
  unfold saturatingSucc
  omega

/-- The counter of `docLen` and the token list of `tokenize` move together: a token is
open in one exactly if it is in the other. -/
theorem docLenFrom_eq (cs : List Char) (n : Nat) (cur : List Char) :
    docLenFrom U (min n (2 ^ 32 - 1)) (!cur.isEmpty) cs =
      min (n + (tokenizeFrom U cur cs).length) (2 ^ 32 - 1) := by
  induction cs generalizing n cur with
  | nil =>
      cases cur with
      | nil => rfl
      | cons c cur => exact saturatingSucc_min n
  | cons ch rest ih =>
      by_cases hch : U.isAlphanumeric ch = true
      · have hne : (cur ++ U.toLowercase ch).isEmpty = false := by
          simp [U.toLowercase_ne ch]
        have hrest := ih n (cur ++ U.toLowercase ch)
        rw [hne] at hrest
        simpa [docLenFrom, tokenizeFrom, hch] using hrest
      · cases cur with
        | nil =>
            have hrest := ih n []
            simpa [docLenFrom, tokenizeFrom, hch] using hrest
        | cons c cur =>
            have hrest := ih (n + 1) []
            rw [← saturatingSucc_min] at hrest
            simp only [docLenFrom, tokenizeFrom, hch, Bool.false_eq_true, if_false,
              List.isEmpty_cons, Bool.not_false, if_true, List.length_cons]
            rw [show n + ((tokenizeFrom U [] rest).length + 1) =
              n + 1 + (tokenizeFrom U [] rest).length by omega]
            exact hrest

/-- A document's length is the number of its tokens, saturated. -/
theorem docLen_eq (text : String) : docLen U text = min (tokenize U text).length (2 ^ 32 - 1) := by
  have h := docLenFrom_eq U text.toList 0 []
  rw [Nat.zero_add] at h
  exact h

/-- No token is empty. -/
theorem mem_tokenizeFrom_ne {cs cur token : List Char} (h : token ∈ tokenizeFrom U cur cs) :
    token ≠ [] := by
  induction cs generalizing cur with
  | nil =>
      unfold tokenizeFrom at h
      split at h
      · cases h
      · rename_i hne
        rw [List.mem_singleton.mp h]
        simpa using hne
  | cons ch rest ih =>
      unfold tokenizeFrom at h
      split at h
      · exact ih h
      · split at h
        · exact ih h
        · rename_i hne
          rcases List.mem_cons.mp h with rfl | h
          · simpa using hne
          · exact ih h

theorem utf8Size_le_four (c : Char) : c.utf8Size ≤ 4 := by
  rcases c.utf8Size_eq with h | h | h | h <;> omega

/-- A token keeps at least its first character when it is clipped. -/
theorem asBytes_clipTerm_ne {token : List Char} (h : token ≠ []) : asBytes (clipTerm token) ≠ [] := by
  cases token with
  | nil => exact absurd rfl h
  | cons c rest =>
      have hfit : c.utf8Size ≤ MAX_TERM_LEN := le_trans (utf8Size_le_four c) (by decide)
      have hne : String.utf8EncodeChar c ≠ [] := by
        intro h0
        have hlen := congrArg List.length h0
        rw [String.length_utf8EncodeChar] at hlen
        have := c.utf8Size_pos
        simp at hlen
        omega
      simp [clipTerm, clipChars, hfit, asBytes, hne]

/-- Clipping loses no token: every one is a term. -/
theorem terms_eq (text : String) :
    terms U text = (tokenize U text).map fun token => asBytes (clipTerm token) := by
  unfold terms
  rw [List.filter_eq_self]
  intro term hterm
  obtain ⟨token, htoken, rfl⟩ := List.mem_map.mp hterm
  have := asBytes_clipTerm_ne (mem_tokenizeFrom_ne U htoken)
  simpa using this

/-- There is a term for each token. -/
theorem terms_length (text : String) : (terms U text).length = (tokenize U text).length := by
  rw [terms_eq, List.length_map]

/-- Counting keeps the terms in order. -/
theorem foldl_countTerm_sorted (ts : List Bytes) {freqs : List (Bytes × Nat)} (h : Sorted freqs) :
    Sorted (ts.foldl countTerm freqs) := by
  induction ts generalizing freqs with
  | nil => exact h
  | cons t ts ih => exact ih (sorted_insertKey h)

/-- The count of a term, saturated. -/
theorem find_foldl_countTerm (ts : List Bytes) (freqs : List (Bytes × Nat)) (term : Bytes)
    (hf : ∀ n, find term freqs = some n → n < 2 ^ 32) :
    find term (ts.foldl countTerm freqs) =
      if ts.count term = 0 then find term freqs
      else some (((find term freqs).getD 0 + ts.count term) % 2 ^ 32) := by
  induction ts generalizing freqs with
  | nil => simp
  | cons t ts ih =>
      rw [List.foldl_cons]
      by_cases ht : t = term
      · subst ht
        have hself : find t (countTerm freqs t) = some (((find t freqs).getD 0 + 1) % 2 ^ 32) :=
          find_insertKey_self _ _ _
        rw [ih (countTerm freqs t) (by
          intro n hn
          rw [hself] at hn
          cases hn
          exact Nat.mod_lt _ (by norm_num)), hself, List.count_cons_self]
        simp only [Option.getD_some]
        split
        · rename_i h0
          simp [h0]
        · simp only [Nat.succ_ne_zero, if_false, Option.some.injEq]
          omega
      · have hother : find term (countTerm freqs t) = find term freqs :=
          find_insertKey_ne (Ne.symm ht) _ _
        rw [ih (countTerm freqs t) (by rwa [hother]), hother, List.count_cons_of_ne ht]

/-- The frequencies of a text ascend by term. -/
theorem sorted_termFreqs (text : String) : Sorted (termFreqs U text) :=
  foldl_countTerm_sorted _ List.Pairwise.nil

/-- The frequency of a term is its number of occurrences, as a u32. -/
theorem find_termFreqs (text : String) (term : Bytes) :
    find term (termFreqs U text) =
      if (terms U text).count term = 0 then none else some ((terms U text).count term % 2 ^ 32) := by
  have h := find_foldl_countTerm (terms U text) [] term (by simp)
  simpa [termFreqs] using h

end Counting

end Fts

end EmbedMind
