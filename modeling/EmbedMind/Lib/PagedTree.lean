import Mathlib.Order.WithBot
import EmbedMind.Lib.Assoc

/-!
# B-trees on pages

What it means that the pages of a file hold a B-tree. Leaves hold entries, an
inner node holds separators with their children and one rightmost child; a child
covers the keys up to its separator, the rightmost one the rest. How a node or a
value is laid out on a page is a parameter (`Layout`).

`TreeAt L μ h n lo hi m own`: page `n` is the root of a tree of height `h` whose
keys lie in `(lo, hi]`, whose entries in key order are `m`, and which stands on
the pages `own`, the pages of its values included.

The tree is read by going to one child (`Kids.find`), written by replacing one
child by one or two (`Kids.focus`), and a node is split by splitting its children
(`Kids.split`). Every inner node has two children at least, so a tree of height
`h` owns `2 ^ h` pages (`TreeAt.pow_le_length`).
-/

namespace Lib

open Assoc

/-- How a tree is laid out: the image of a leaf with the given entries, of an
inner node with the given separators and rightmost child, and the pages on which
a cell's value stands. -/
structure Layout (B K C V : Type) where
  leafPage : List (K × C) → Option B
  innerPage : List (K × Nat) → Nat → Option B
  keyOk : K → Prop
  cellAt : (Nat → Option B) → C → V → List Nat → Prop
  cellAt_frame : ∀ {μ μ' : Nat → Option B} {c : C} {v : V} {ps : List Nat},
    (∀ p ∈ ps, μ' p = μ p) → cellAt μ c v ps → cellAt μ' c v ps

namespace PagedTree

variable {B K C V : Type} [LinearOrder K]

/-- The entries of a leaf, the key-value pairs they stand for and the pages of the values. -/
inductive Entries (L : Layout B K C V) (μ : Nat → Option B) :
    List (K × C) → List (K × V) → List Nat → Prop where
  | nil : Entries L μ [] [] []
  | cons {k : K} {c : C} {v : V} {ps : List Nat} {es : List (K × C)} {m : List (K × V)}
      {own : List Nat} (hk : L.keyOk k) (hc : L.cellAt μ c v ps) (hes : Entries L μ es m own) :
      Entries L μ ((k, c) :: es) ((k, v) :: m) (ps ++ own)

/-- A child with the keys it covers, its entries and its pages. -/
abbrev Sub (K V : Type) := Nat → WithBot K → WithTop K → List (K × V) → List Nat → Prop

/-- The children of an inner node, each with the range its separators leave it. -/
inductive Kids (ok : K → Prop) (P : Sub K V) :
    WithBot K → WithTop K → List (K × Nat) → Nat → List (K × V) → List Nat → Prop where
  | last {lo : WithBot K} {hi : WithTop K} {n : Nat} {m : List (K × V)} {own : List Nat}
      (h : P n lo hi m own) : Kids ok P lo hi [] n m own
  | cons {lo : WithBot K} {hi : WithTop K} {sep : K} {n rightmost : Nat} {es : List (K × Nat)}
      {m m' : List (K × V)} {own own' : List Nat} (hk : ok sep) (hlo : lo < sep) (hhi : sep < hi)
      (h : P n lo sep m own) (hrest : Kids ok P sep hi es rightmost m' own') :
      Kids ok P lo hi ((sep, n) :: es) rightmost (m ++ m') (own ++ own')

/-- Page `n` is the root of a tree of height `h`. -/
def TreeAt (L : Layout B K C V) (μ : Nat → Option B) : Nat → Sub K V
  | 0, n, lo, hi, m, own => ∃ es ps b, μ n = some b ∧ L.leafPage es = some b ∧
      Entries L μ es m ps ∧ Sorted m ∧ (∀ e ∈ m, lo < e.1 ∧ e.1 ≤ hi) ∧ own = n :: ps
  | h + 1, n, lo, hi, m, own => ∃ es rightmost ps b, μ n = some b ∧
      L.innerPage es rightmost = some b ∧ es ≠ [] ∧
      Kids L.keyOk (TreeAt L μ h) lo hi es rightmost m ps ∧ own = n :: ps

/-! ## Entries of a leaf -/

section Entries

variable {L : Layout B K C V} {μ μ' : Nat → Option B}

/-- The cells of a leaf have the keys of their entries. -/
theorem Entries.keys {es : List (K × C)} {m : List (K × V)} {own : List Nat}
    (h : Entries L μ es m own) : es.map Prod.fst = m.map Prod.fst := by
  induction h with
  | nil => rfl
  | cons _ _ _ ih => simp [ih]

/-- The cells of a leaf are in the order of their entries. -/
theorem Entries.sorted {es : List (K × C)} {m : List (K × V)} {own : List Nat}
    (h : Entries L μ es m own) (hm : Sorted m) : Sorted es := by
  have hkeys := h.keys
  unfold Sorted at hm ⊢
  rw [← List.pairwise_map (R := fun a b => a < b)] at hm ⊢
  rwa [hkeys]

/-- Writes to other pages leave the entries. -/
theorem Entries.frame {es : List (K × C)} {m : List (K × V)} {own : List Nat}
    (h : Entries L μ es m own) (hμ : ∀ p ∈ own, μ' p = μ p) : Entries L μ' es m own := by
  induction h with
  | nil => exact Entries.nil
  | cons hk hc _ ih =>
      refine Entries.cons hk (L.cellAt_frame ?_ hc) (ih ?_)
      · intro p hp
        exact hμ p (List.mem_append_left _ hp)
      · intro p hp
        exact hμ p (List.mem_append_right _ hp)

/-- A property of cells that stand for a value holds of every entry. -/
theorem Entries.all {P : K × C → Prop} {es : List (K × C)} {m : List (K × V)} {own : List Nat}
    (h : Entries L μ es m own)
    (hP : ∀ k c v ps, L.keyOk k → L.cellAt μ c v ps → (∀ p ∈ ps, p ∈ own) → P (k, c)) :
    ∀ e ∈ es, P e := by
  induction h with
  | nil =>
      intro e he
      cases he
  | cons hk hc _ ih =>
      intro e he
      rcases List.mem_cons.mp he with rfl | he
      · refine hP _ _ _ _ hk hc ?_
        intro p hp
        exact List.mem_append_left _ hp
      · refine ih ?_ e he
        intro k c v ps hk' hc' hsub
        exact hP k c v ps hk' hc' fun p hp => List.mem_append_right _ (hsub p hp)

/-- The entries of a leaf that is cut in two. -/
theorem Entries.append {l r : List (K × C)} {m : List (K × V)} {own : List Nat}
    (h : Entries L μ (l ++ r) m own) : ∃ m₁ m₂ o₁ o₂, m = m₁ ++ m₂ ∧ own = o₁ ++ o₂ ∧
      Entries L μ l m₁ o₁ ∧ Entries L μ r m₂ o₂ := by
  induction l generalizing m own with
  | nil => exact ⟨[], m, [], own, rfl, rfl, Entries.nil, h⟩
  | cons e l ih =>
      cases h with
      | cons hk hc hes =>
          obtain ⟨m₁, m₂, o₁, o₂, rfl, rfl, h₁, h₂⟩ := ih hes
          exact ⟨_ :: m₁, m₂, _ ++ o₁, o₂, rfl, (List.append_assoc _ _ _).symm,
            Entries.cons hk hc h₁, h₂⟩

/-- Reading: an entry is found in the leaf exactly when it is in the map. -/
theorem Entries.find {es : List (K × C)} {m : List (K × V)} {own : List Nat}
    (h : Entries L μ es m own) (k : K) :
    (Assoc.find k es = none ∧ Assoc.find k m = none) ∨
    ∃ c v ps, Assoc.find k es = some c ∧ Assoc.find k m = some v ∧ L.cellAt μ c v ps ∧
      ∀ p ∈ ps, p ∈ own := by
  induction h with
  | nil => exact Or.inl ⟨rfl, rfl⟩
  | cons hk hc hes ih =>
      rename_i k' c v ps es m own
      by_cases heq : k = k'
      · refine Or.inr ⟨c, v, ps, by simp [Assoc.find, heq], by simp [Assoc.find, heq], hc, ?_⟩
        intro p hp
        exact List.mem_append_left _ hp
      · rcases ih with ⟨h1, h2⟩ | ⟨c', v', ps', h1, h2, h3, h4⟩
        · exact Or.inl ⟨by simp [Assoc.find, heq, h1], by simp [Assoc.find, heq, h2]⟩
        · refine Or.inr ⟨c', v', ps', by simp [Assoc.find, heq, h1],
            by simp [Assoc.find, heq, h2], h3, ?_⟩
          intro p hp
          exact List.mem_append_right _ (h4 p hp)

/-- Writing: the pages of one key's value are one segment of the leaf's pages, and
replacing the key's cell replaces that segment. -/
theorem Entries.focus {es : List (K × C)} {m : List (K × V)} {own : List Nat}
    (h : Entries L μ es m own) (hm : Sorted m) {k : K} (hk : L.keyOk k) :
    ∃ l ps r, own = l ++ ps ++ r ∧
      ((Assoc.find k es = none ∧ ps = []) ∨
        ∃ c v, Assoc.find k es = some c ∧ L.cellAt μ c v ps) ∧
      ∀ μ' c' v' ps', (∀ p ∈ l ++ r, μ' p = μ p) → L.cellAt μ' c' v' ps' →
        Entries L μ' (insertKey k c' es) (insertKey k v' m) (l ++ ps' ++ r) := by
  induction h with
  | nil =>
      refine ⟨[], [], [], rfl, Or.inl ⟨rfl, rfl⟩, ?_⟩
      intro μ' c' v' ps' _ hc'
      simpa [insertKey] using Entries.cons hk hc' Entries.nil
  | cons hk' hc hes ih =>
      rename_i k' c v ps es m own
      obtain ⟨hlt, hm'⟩ := List.pairwise_cons.mp hm
      rcases lt_trichotomy k k' with hkk | rfl | hkk
      · -- the new entry comes before all others
        refine ⟨[], [], ps ++ own, rfl, Or.inl ⟨?_, rfl⟩, ?_⟩
        · refine find_eq_none.mpr ?_
          intro e he heq
          rcases List.mem_cons.mp he with rfl | he
          · exact absurd heq (ne_of_gt hkk)
          · have hmem : e.1 ∈ m.map Prod.fst := by
              rw [← hes.keys]
              exact List.mem_map_of_mem he
            obtain ⟨x, hx, hxe⟩ := List.mem_map.mp hmem
            have hgt := lt_trans hkk (hlt x hx)
            rw [hxe, heq] at hgt
            exact lt_irrefl k hgt
        · intro μ' c' v' ps' hμ hc'
          have hold : Entries L μ' ((k', c) :: es) ((k', v) :: m) (ps ++ own) :=
            (Entries.cons hk' hc hes).frame (by simpa using hμ)
          simpa [insertKey, hkk] using Entries.cons hk hc' hold
      · -- the entry is replaced
        refine ⟨[], ps, own, rfl, Or.inr ⟨c, v, by simp [Assoc.find], hc⟩, ?_⟩
        intro μ' c' v' ps' hμ hc'
        have hold : Entries L μ' es m own := hes.frame (by simpa using hμ)
        simpa [insertKey] using Entries.cons hk hc' hold
      · obtain ⟨l, ps₀, r, rfl, hfind, hrebuild⟩ := ih hm'
        have hne : k ≠ k' := ne_of_gt hkk
        refine ⟨ps ++ l, ps₀, r, by simp, ?_, ?_⟩
        · simpa [Assoc.find, hne] using hfind
        · intro μ' c' v' ps' hμ hc'
          have hrest := hrebuild μ' c' v' ps' (fun p hp => hμ p (by
            rcases List.mem_append.mp hp with h1 | h1 <;> simp [h1])) hc'
          have hhead : L.cellAt μ' c v ps :=
            L.cellAt_frame (fun p hp => hμ p (by simp [hp])) hc
          have := Entries.cons hk' hhead hrest
          simpa [insertKey, not_lt.mpr hkk.le, hne] using this

end Entries

/-! ## Children of an inner node -/

section Kids

variable {ok : K → Prop} {P P' : Sub K V} {lo : WithBot K} {hi : WithTop K}
  {es : List (K × Nat)} {rightmost : Nat} {m : List (K × V)} {own : List Nat}

/-- Weakening what is known of each subtree. -/
theorem Kids.mono (h : Kids ok P lo hi es rightmost m own)
    (hP : ∀ n lo hi m o, (∀ p ∈ o, p ∈ own) → P n lo hi m o → P' n lo hi m o) :
    Kids ok P' lo hi es rightmost m own := by
  induction h with
  | last hn => exact Kids.last (hP _ _ _ _ _ (fun p hp => hp) hn)
  | cons hk hlo hhi hn _ ih =>
      refine Kids.cons hk hlo hhi (hP _ _ _ _ _ ?_ hn) (ih ?_)
      · intro p hp
        exact List.mem_append_left _ hp
      · intro n lo' hi' m' o ho
        exact hP n lo' hi' m' o fun p hp => List.mem_append_right _ (ho p hp)

/-- Every separator lies in the range of the node. -/
theorem Kids.seps (h : Kids ok P lo hi es rightmost m own) :
    ∀ e ∈ es, ok e.1 ∧ lo < e.1 ∧ e.1 < hi := by
  induction h with
  | last _ =>
      intro e he
      cases he
  | cons hk hlo hhi _ _ ih =>
      intro e he
      rcases List.mem_cons.mp he with rfl | he
      · exact ⟨hk, hlo, hhi⟩
      · obtain ⟨h1, h2, h3⟩ := ih e he
        exact ⟨h1, lt_trans hlo h2, h3⟩

/-- The separators ascend. -/
theorem Kids.sorted_seps (h : Kids ok P lo hi es rightmost m own) : Sorted es := by
  induction h with
  | last _ => exact List.Pairwise.nil
  | cons _ _ _ _ hrest ih =>
      refine List.pairwise_cons.mpr ⟨?_, ih⟩
      intro e he
      exact WithBot.coe_lt_coe.mp (hrest.seps e he).2.1

/-- Every child is a page of the node. -/
theorem Kids.children (h : Kids ok P lo hi es rightmost m own)
    (hP : ∀ n lo hi m o, P n lo hi m o → n ∈ o) :
    rightmost ∈ own ∧ ∀ e ∈ es, e.2 ∈ own := by
  induction h with
  | last hn =>
      refine ⟨hP _ _ _ _ _ hn, ?_⟩
      intro e he
      cases he
  | cons _ _ _ hn _ ih =>
      refine ⟨List.mem_append_right _ ih.1, ?_⟩
      intro e he
      rcases List.mem_cons.mp he with rfl | he
      · exact List.mem_append_left _ (hP _ _ _ _ _ hn)
      · exact List.mem_append_right _ (ih.2 e he)

/-- The keys of the subtrees are within the bounds of the node. -/
theorem Kids.bounds (h : Kids ok P lo hi es rightmost m own)
    (hP : ∀ n lo hi m o, P n lo hi m o → ∀ e ∈ m, lo < e.1 ∧ e.1 ≤ hi) :
    ∀ e ∈ m, lo < e.1 ∧ e.1 ≤ hi := by
  induction h with
  | last hn => exact hP _ _ _ _ _ hn
  | cons _ hlo hhi hn _ ih =>
      intro e he
      rcases List.mem_append.mp he with he | he
      · obtain ⟨h1, h2⟩ := hP _ _ _ _ _ hn e he
        exact ⟨h1, le_trans h2 hhi.le⟩
      · obtain ⟨h1, h2⟩ := ih e he
        exact ⟨lt_trans hlo h1, h2⟩

/-- The entries below a node ascend. -/
theorem Kids.sorted (h : Kids ok P lo hi es rightmost m own)
    (hP : ∀ n lo hi m o, P n lo hi m o → ∀ e ∈ m, lo < e.1 ∧ e.1 ≤ hi)
    (hS : ∀ n lo hi m o, P n lo hi m o → Sorted m) : Sorted m := by
  induction h with
  | last hn => exact hS _ _ _ _ _ hn
  | cons _ _ _ hn hrest ih =>
      refine List.pairwise_append.mpr ⟨hS _ _ _ _ _ hn, ih, ?_⟩
      intro a ha b hb
      have h1 := (hP _ _ _ _ _ hn a ha).2
      have h2 := (hrest.bounds hP b hb).1
      exact lt_of_le_of_lt (WithTop.coe_le_coe.mp h1) (WithBot.coe_lt_coe.mp h2)

/-- `N` pages for each child. -/
theorem Kids.length (h : Kids ok P lo hi es rightmost m own) {N : Nat}
    (hP : ∀ n lo hi m o, P n lo hi m o → N ≤ o.length) : (es.length + 1) * N ≤ own.length := by
  induction h with
  | last hn => simpa using hP _ _ _ _ _ hn
  | cons _ _ _ hn _ ih =>
      have h1 := hP _ _ _ _ _ hn
      simp only [List.length_cons, List.length_append]
      rw [Nat.add_mul, Nat.one_mul]
      omega

/-- Splitting the children at a separator splits the entries and the pages. -/
theorem Kids.split {l r : List (K × Nat)} {sep : K} {c : Nat}
    (h : Kids ok P lo hi (l ++ (sep, c) :: r) rightmost m own) :
    ∃ m₁ m₂ o₁ o₂, m = m₁ ++ m₂ ∧ own = o₁ ++ o₂ ∧
      Kids ok P lo sep l c m₁ o₁ ∧ Kids ok P sep hi r rightmost m₂ o₂ := by
  induction l generalizing lo m own with
  | nil =>
      cases h with
      | cons _ _ _ hn hrest => exact ⟨_, _, _, _, rfl, rfl, Kids.last hn, hrest⟩
  | cons e l ih =>
      cases h with
      | cons hk hlo _ hn hrest =>
          obtain ⟨m₁, m₂, o₁, o₂, rfl, rfl, h₁, h₂⟩ := ih hrest
          have hlt := (hrest.seps (sep, c) (by simp)).2.1
          refine ⟨_ ++ m₁, m₂, _ ++ o₁, o₂, (List.append_assoc _ _ _).symm,
            (List.append_assoc _ _ _).symm, Kids.cons hk hlo ?_ hn h₁, h₂⟩
          exact WithTop.coe_lt_coe.mpr (WithBot.coe_lt_coe.mp hlt)

/-- The child that covers a key: the first one whose separator is not below it. -/
def childOf (post : List (K × Nat)) (rightmost : Nat) : Nat :=
  match post with
  | [] => rightmost
  | (_, c) :: _ => c

/-- The children from that one on, with the child replaced. -/
def redirect (post : List (K × Nat)) (rightmost right : Nat) : List (K × Nat) × Nat :=
  match post with
  | [] => ([], right)
  | (sep, _) :: rest => ((sep, right) :: rest, rightmost)

/-- One child of a node singled out: the separators before it and from it on, its
range, and the entries and pages of the children before and after it. -/
structure Hole (K V : Type) where
  pre : List (K × Nat)
  post : List (K × Nat)
  lo : WithBot K
  hi : WithTop K
  left : List (K × V)
  right : List (K × V)
  leftPages : List Nat
  rightPages : List Nat

/-- The children that do not stand in the hole keep their trees. -/
def Hole.Keeps (x : Hole K V) (P P' : Sub K V) : Prop :=
  ∀ n lo hi m o, (∀ p ∈ o, p ∈ x.leftPages ++ x.rightPages) → P n lo hi m o → P' n lo hi m o

/-- The hole at a key: the child in it covers the key, and a node comes back when
the hole is filled with a child, or with two. -/
structure Hole.At (x : Hole K V) (ok : K → Prop) (P : Sub K V) (lo : WithBot K) (hi : WithTop K)
    (es : List (K × Nat)) (rightmost : Nat) (m : List (K × V)) (own : List Nat) (k : K)
    (mid : List (K × V)) (midPages : List Nat) : Prop where
  es_eq : es = x.pre ++ x.post
  below : ∀ e ∈ x.pre, e.1 < k
  above : ∀ e ∈ x.post.head?, k ≤ e.1
  lo_lt : x.lo < k
  le_hi : k ≤ x.hi
  child : P (childOf x.post rightmost) x.lo x.hi mid midPages
  entries : m = x.left ++ mid ++ x.right
  pages : own = x.leftPages ++ midPages ++ x.rightPages
  left_lt : ∀ e ∈ x.left, e.1 < k
  right_gt : ∀ e ∈ x.right, k < e.1
  fill : ∀ P' m' o', x.Keeps P P' → P' (childOf x.post rightmost) x.lo x.hi m' o' →
    Kids ok P' lo hi es rightmost (x.left ++ m' ++ x.right) (x.leftPages ++ o' ++ x.rightPages)
  fill_two : ∀ P' s n m₁ m₂ o₁ o₂, x.Keeps P P' → ok s → x.lo < s → s < x.hi →
    P' (childOf x.post rightmost) x.lo s m₁ o₁ → P' n s x.hi m₂ o₂ →
    Kids ok P' lo hi (x.pre ++ (s, childOf x.post rightmost) :: (redirect x.post rightmost n).1)
      (redirect x.post rightmost n).2 (x.left ++ (m₁ ++ m₂) ++ x.right)
      (x.leftPages ++ (o₁ ++ o₂) ++ x.rightPages)

/-- Every key in a node's range has its hole. -/
theorem Kids.focus (h : Kids ok P lo hi es rightmost m own)
    (hP : ∀ n lo hi m o, P n lo hi m o → ∀ e ∈ m, lo < e.1 ∧ e.1 ≤ hi) {k : K} (hlo : lo < k)
    (hhi : k ≤ hi) : ∃ x mid midPages, Hole.At x ok P lo hi es rightmost m own k mid midPages := by
  induction h with
  | last hn =>
      rename_i lo hi n m own
      refine ⟨⟨[], [], lo, hi, [], [], [], []⟩, m, own, ?_⟩
      constructor
      case fill =>
        intro P' m' o' _ hc
        simpa [childOf] using Kids.last hc
      case fill_two =>
        intro P' s n' m₁ m₂ o₁ o₂ _ hs hlos hshi h₁ h₂
        simpa [redirect] using Kids.cons hs hlos hshi h₁ (Kids.last h₂)
      case child => exact hn
      case lo_lt => exact hlo
      case le_hi => exact hhi
      all_goals simp
  | cons hk hlo' hhi' hn hrest ih =>
      rename_i lo hi sep n rightmost es m m' own own'
      rcases le_or_gt k sep with hks | hks
      · -- the first child covers the key
        refine ⟨⟨[], (sep, n) :: es, lo, sep, [], m', [], own'⟩, m, own, ?_⟩
        constructor
        -- the other children come back as they were, and the new one stands in its place
        case fill =>
          intro P' m₀ o₀ hkeep hc
          have hrest' : Kids ok P' sep hi es rightmost m' own' := by
            refine hrest.mono ?_
            intro n lo hi m o ho
            exact hkeep n lo hi m o (by simpa using ho)
          simpa [childOf] using Kids.cons hk hlo' hhi' hc hrest'
        case fill_two =>
          intro P' s n' m₁ m₂ o₁ o₂ hkeep hs hlos hshi h₁ h₂
          have hrest' : Kids ok P' sep hi es rightmost m' own' := by
            refine hrest.mono ?_
            intro n lo hi m o ho
            exact hkeep n lo hi m o (by simpa using ho)
          have hs' : (s : WithBot K) < sep := WithBot.coe_lt_coe.mpr (WithTop.coe_lt_coe.mp hshi)
          have htwo := Kids.cons hs hlos (lt_trans hshi hhi') h₁ (Kids.cons hk hs' hhi' h₂ hrest')
          simpa [redirect] using htwo
        case child => exact hn
        case lo_lt => exact hlo
        case le_hi => exact WithTop.coe_le_coe.mpr hks
        case right_gt =>
          intro e he
          exact lt_of_le_of_lt hks (WithBot.coe_lt_coe.mp (hrest.bounds hP e he).1)
        case above =>
          intro e he
          simp only [List.head?_cons, Option.mem_some_iff] at he
          rw [← he]
          exact hks
        all_goals simp
      · -- the key lies beyond the first child
        obtain ⟨x, mid, midPages, hx⟩ := ih (WithBot.coe_lt_coe.mpr hks) hhi
        refine ⟨⟨(sep, n) :: x.pre, x.post, x.lo, x.hi, m ++ x.left, x.right,
          own ++ x.leftPages, x.rightPages⟩, mid, midPages, ?_⟩
        -- the hole lies in the rest; the first child is one more that stays
        have hkeeps : ∀ P', Hole.Keeps ⟨(sep, n) :: x.pre, x.post, x.lo, x.hi, m ++ x.left, x.right,
            own ++ x.leftPages, x.rightPages⟩ P P' → x.Keeps P P' ∧ P' n lo sep m own := by
          intro P' hkeep
          constructor
          · intro n lo hi m o ho
            refine hkeep n lo hi m o ?_
            intro p hp
            have := ho p hp
            simp only [List.mem_append] at this ⊢
            tauto
          · exact hkeep _ _ _ _ _ (by simp +contextual) hn
        constructor
        case fill =>
          intro P' m₀ o₀ hkeep hc
          obtain ⟨hkeep', hn'⟩ := hkeeps P' hkeep
          simpa using Kids.cons hk hlo' hhi' hn' (hx.fill P' m₀ o₀ hkeep' hc)
        case fill_two =>
          intro P' s n' m₁ m₂ o₁ o₂ hkeep hs hlos hshi h₁ h₂
          obtain ⟨hkeep', hn'⟩ := hkeeps P' hkeep
          have htwo := hx.fill_two P' s n' m₁ m₂ o₁ o₂ hkeep' hs hlos hshi h₁ h₂
          simpa using Kids.cons hk hlo' hhi' hn' htwo
        case es_eq => simp [hx.es_eq]
        case below =>
          intro e he
          rcases List.mem_cons.mp he with rfl | he
          · exact hks
          · exact hx.below e he
        case above => exact hx.above
        case lo_lt => exact hx.lo_lt
        case le_hi => exact hx.le_hi
        case child => exact hx.child
        case entries => simp [hx.entries]
        case pages => simp [hx.pages]
        case left_lt =>
          intro e he
          rcases List.mem_append.mp he with he | he
          · exact lt_of_le_of_lt (WithTop.coe_le_coe.mp (hP _ _ _ _ _ hn e he).2) hks
          · exact hx.left_lt e he
        case right_gt => exact hx.right_gt

/-- The weight below a node is bounded by its pages. -/
theorem Kids.weight_le {ok : K → Prop} {P : Sub K V} {w : V → Nat} {cap : Nat}
    {lo : WithBot K} {hi : WithTop K} {es : List (K × Nat)} {n : Nat} {m : List (K × V)} {own : List Nat}
    (hkids : Kids ok P lo hi es n m own)
    (hP : ∀ n lo hi m own, P n lo hi m own → (m.map fun e => w e.2).sum ≤ own.length * cap) :
    (m.map fun e => w e.2).sum ≤ own.length * cap := by
  induction hkids with
  | last h => exact hP _ _ _ _ _ h
  | cons _ _ _ h _ ih =>
      have h1 := hP _ _ _ _ _ h
      rw [List.map_append, List.sum_append, List.length_append, Nat.add_mul]
      omega

end Kids

/-! ## Trees -/

section TreeAt

variable {L : Layout B K C V} {μ μ' : Nat → Option B} {h n : Nat} {lo : WithBot K} {hi : WithTop K}
  {m : List (K × V)} {own : List Nat}

/-- A node is among its own pages. -/
theorem TreeAt.root_mem (ht : TreeAt L μ h n lo hi m own) : n ∈ own := by
  cases h with
  | zero =>
      obtain ⟨_, _, _, _, _, _, _, _, rfl⟩ := ht
      exact List.mem_cons_self
  | succ h =>
      obtain ⟨_, _, _, _, _, _, _, _, rfl⟩ := ht
      exact List.mem_cons_self

/-- Every key lies in the range of the tree. -/
theorem TreeAt.bounds (ht : TreeAt L μ h n lo hi m own) : ∀ e ∈ m, lo < e.1 ∧ e.1 ≤ hi := by
  induction h generalizing n lo hi m own with
  | zero =>
      obtain ⟨_, _, _, _, _, _, _, hb, _⟩ := ht
      exact hb
  | succ h ih =>
      obtain ⟨_, _, _, _, _, _, _, hkids, _⟩ := ht
      exact hkids.bounds fun _ _ _ _ _ hsub => ih hsub

/-- The entries of a subtree ascend. -/
theorem TreeAt.sorted (ht : TreeAt L μ h n lo hi m own) : Sorted m := by
  induction h generalizing n lo hi m own with
  | zero =>
      obtain ⟨_, _, _, _, _, _, hs, _, _⟩ := ht
      exact hs
  | succ h ih =>
      obtain ⟨_, _, _, _, _, _, _, hkids, _⟩ := ht
      exact hkids.sorted (fun _ _ _ _ _ hsub => hsub.bounds) fun _ _ _ _ _ hsub => ih hsub

/-- A tree depends on its own pages only. -/
theorem TreeAt.frame (ht : TreeAt L μ h n lo hi m own) (hμ : ∀ p ∈ own, μ' p = μ p) :
    TreeAt L μ' h n lo hi m own := by
  induction h generalizing n lo hi m own with
  | zero =>
      obtain ⟨es, ps, b, hn, hb, hes, hs, hbd, rfl⟩ := ht
      refine ⟨es, ps, b, ?_, hb, hes.frame ?_, hs, hbd, rfl⟩
      · rw [hμ n List.mem_cons_self, hn]
      · intro p hp
        exact hμ p (List.mem_cons_of_mem _ hp)
  | succ h ih =>
      obtain ⟨es, rightmost, ps, b, hn, hb, hne, hkids, rfl⟩ := ht
      refine ⟨es, rightmost, ps, b, ?_, hb, hne, hkids.mono ?_, rfl⟩
      · rw [hμ n List.mem_cons_self, hn]
      · intro n' lo' hi' m' o ho hsub
        exact ih hsub fun p hp => hμ p (List.mem_cons_of_mem _ (ho p hp))

/-- Two children at least for every inner node, hence `2 ^ h` leaves. -/
theorem TreeAt.pow_le_length (ht : TreeAt L μ h n lo hi m own) : 2 ^ h ≤ own.length := by
  induction h generalizing n lo hi m own with
  | zero =>
      obtain ⟨_, _, _, _, _, _, _, _, rfl⟩ := ht
      simp
  | succ h ih =>
      obtain ⟨es, rightmost, ps, b, _, _, hne, hkids, rfl⟩ := ht
      have hlen := hkids.length fun _ _ _ _ _ hsub => ih hsub
      have htwo : 2 ≤ es.length + 1 := by
        have := List.length_pos_iff.mpr hne
        omega
      calc 2 ^ (h + 1) = 2 * 2 ^ h := by ring
        _ ≤ (es.length + 1) * 2 ^ h := Nat.mul_le_mul_right _ htwo
        _ ≤ (n :: ps).length := by
          rw [List.length_cons]
          omega

/-- If the values of a leaf weigh at most `cap` per page, so do those of a tree. -/
theorem TreeAt.weight_le {w : V → Nat} {cap : Nat}
    (hleaf : ∀ es m ps b, L.leafPage es = some b → Entries L μ es m ps →
      (m.map fun e => w e.2).sum ≤ (ps.length + 1) * cap)
    (ht : TreeAt L μ h n lo hi m own) : (m.map fun e => w e.2).sum ≤ own.length * cap := by
  induction h generalizing n lo hi m own with
  | zero =>
      obtain ⟨es, ps, b, _, hb, hes, _, _, rfl⟩ := ht
      exact hleaf es m ps b hb hes
  | succ h ih =>
      obtain ⟨es, rightmost, ps, b, _, _, _, hkids, rfl⟩ := ht
      have hsum := hkids.weight_le fun _ _ _ _ _ hsub => ih hsub
      rw [List.length_cons, Nat.add_mul]
      omega

/-- Distinct pages below a bound are no more than the bound. -/
theorem length_le_of_lt {own : List Nat} (hnd : own.Nodup) {b : Nat} (hb : ∀ p ∈ own, p < b) :
    own.length ≤ b := by
  have hsub : own.toFinset ⊆ Finset.range b := by
    intro p hp
    exact Finset.mem_range.mpr (hb p (List.mem_toFinset.mp hp))
  have hcard := Finset.card_le_card hsub
  rwa [List.toFinset_card_of_nodup hnd, Finset.card_range] at hcard

/-- With fewer than `2 ^ d` pages in the file a tree is less than `d` high. -/
theorem TreeAt.height_lt (ht : TreeAt L μ h n lo hi m own) (hnd : own.Nodup) {b d : Nat}
    (hb : ∀ p ∈ own, p < b) (hd : b < 2 ^ d) : h < d := by
  have hlen : own.length ≤ b := length_le_of_lt hnd hb
  have hpow := ht.pow_le_length
  exact (Nat.pow_lt_pow_iff_right (by norm_num)).mp (lt_of_le_of_lt (le_trans hpow hlen) hd)

end TreeAt

/-! ## Rooted trees -/

/-- The tree a root pointer names; pointer 0 is the empty tree. -/
def Rooted (L : Layout B K C V) (μ : Nat → Option B) (root : Nat) (m : List (K × V))
    (own : List Nat) : Prop :=
  (root = 0 ∧ m = [] ∧ own = []) ∨ (root ≠ 0 ∧ ∃ h, TreeAt L μ h root ⊥ ⊤ m own)

section Rooted

variable {L : Layout B K C V} {μ μ' : Nat → Option B} {root : Nat} {m : List (K × V)}
  {own : List Nat}

theorem rooted_empty : Rooted L μ 0 [] [] := Or.inl ⟨rfl, rfl, rfl⟩

/-- Writes to other pages leave the tree. -/
theorem Rooted.frame (h : Rooted L μ root m own) (hμ : ∀ p ∈ own, μ' p = μ p) :
    Rooted L μ' root m own := by
  rcases h with h | ⟨h0, d, h⟩
  · exact Or.inl h
  · exact Or.inr ⟨h0, d, h.frame hμ⟩

/-- The weight of a tree is bounded by its pages. -/
theorem Rooted.weight_le {w : V → Nat} {cap : Nat} (h : Rooted L μ root m own)
    (hleaf : ∀ es m ps b, L.leafPage es = some b → Entries L μ es m ps →
      (m.map fun e => w e.2).sum ≤ (ps.length + 1) * cap) :
    (m.map fun e => w e.2).sum ≤ own.length * cap := by
  rcases h with ⟨_, rfl, rfl⟩ | ⟨_, d, h⟩
  · simp
  · exact h.weight_le hleaf

/-- The entries of a tree ascend. -/
theorem Rooted.sorted (h : Rooted L μ root m own) : Sorted m := by
  rcases h with ⟨_, rfl, _⟩ | ⟨_, d, h⟩
  · exact List.Pairwise.nil
  · exact h.sorted

end Rooted

end PagedTree

end Lib
