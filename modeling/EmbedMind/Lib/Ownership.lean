import Mathlib.Tactic

/-!
# Pages and their owners

A paged structure owns a list of page numbers. An operation on it may rewrite the
pages it owns, take fresh pages at the end of the file and give pages up; every
other page keeps its image. `Step` says this of one operation, and composes: in
sequence (`Step.trans`), and from a part of a structure to the whole
(`Step.focus`), which is the frame rule of every structure that shares the file.

`μ p` is the image of page `p` and `b` the page count; fresh pages are those from
`b` on.
-/

namespace Lib.Owned

variable {B : Type}

/-- From `μ`, `b` and the pages `own` to `μ'`, `b'` and the pages `own'`. -/
structure Step (μ μ' : Nat → Option B) (b b' : Nat) (own own' : List Nat) : Prop where
  grow : b ≤ b'
  frame : ∀ p, p < b → p ∉ own → μ' p = μ p
  pages : ∀ p ∈ own', p ∈ own ∨ b ≤ p
  bound : ∀ p ∈ own', p < b'
  nodup : own.Nodup → own'.Nodup

variable {μ μ' μ'' : Nat → Option B} {b b' b'' : Nat} {own own' own'' : List Nat}

/-- Nothing is done. -/
theorem Step.refl (h : ∀ p ∈ own, p < b) : Step μ μ b b own own where
  grow := le_refl b
  frame := fun _ _ _ => rfl
  pages := fun _ hp => Or.inl hp
  bound := h
  nodup := id

/-- One step after another. -/
theorem Step.trans (h : Step μ μ' b b' own own') (h' : Step μ' μ'' b' b'' own' own'') :
    Step μ μ'' b b'' own own'' where
  grow := le_trans h.grow h'.grow
  frame := by
    intro p hp hnot
    have hnot' : p ∉ own' := by
      intro hin
      rcases h.pages p hin with h1 | h1
      · exact hnot h1
      · omega
    have hp' : p < b' := lt_of_lt_of_le hp h.grow
    rw [h'.frame p hp' hnot', h.frame p hp hnot]
  pages := by
    intro p hp
    rcases h'.pages p hp with h1 | h1
    · exact h.pages p h1
    · exact Or.inr (le_trans h.grow h1)
  bound := h'.bound
  nodup := fun hn => h'.nodup (h.nodup hn)

/-- The frame rule: what one part does, the whole does. -/
theorem Step.focus (h : Step μ μ' b b' own own') {l r : List Nat} (hl : ∀ p ∈ l, p < b)
    (hr : ∀ p ∈ r, p < b) : Step μ μ' b b' (l ++ own ++ r) (l ++ own' ++ r) where
  grow := h.grow
  frame := by
    intro p hp hnot
    simp only [List.mem_append, not_or] at hnot
    exact h.frame p hp hnot.1.2
  pages := by
    intro p hp
    simp only [List.mem_append] at hp ⊢
    rcases hp with (hp | hp) | hp
    · exact Or.inl (Or.inl (Or.inl hp))
    · rcases h.pages p hp with h1 | h1
      · exact Or.inl (Or.inl (Or.inr h1))
      · exact Or.inr h1
    · exact Or.inl (Or.inr hp)
  bound := by
    intro p hp
    simp only [List.mem_append] at hp
    rcases hp with (hp | hp) | hp
    · exact lt_of_lt_of_le (hl p hp) h.grow
    · exact h.bound p hp
    · exact lt_of_lt_of_le (hr p hp) h.grow
  nodup := by
    intro hn
    rw [List.nodup_append, List.nodup_append] at hn ⊢
    obtain ⟨⟨hnl, hno, hlo⟩, hnr, hor⟩ := hn
    -- a new page is an old one or at least `b`, and the other parts lie below `b`
    refine ⟨⟨hnl, h.nodup hno, ?_⟩, hnr, ?_⟩
    · intro x hx y hy hxy
      rcases h.pages y hy with h1 | h1
      · exact hlo x hx y h1 hxy
      · have := hl x hx
        omega
    · intro x hx y hy hxy
      rcases List.mem_append.mp hx with h1 | h1
      · exact hor x (List.mem_append_left _ h1) y hy hxy
      · rcases h.pages x h1 with h2 | h2
        · exact hor x (List.mem_append_right _ h2) y hy hxy
        · have := hr y hy
          omega

/-- Ownership is a set of pages: the order does not matter, and pages can be given up. -/
theorem Step.subperm (h : Step μ μ' b b' own own') (hsub : own''.Subperm own') :
    Step μ μ' b b' own own'' where
  grow := h.grow
  frame := h.frame
  pages := fun p hp => h.pages p (hsub.subset hp)
  bound := fun p hp => h.bound p (hsub.subset hp)
  nodup := by
    intro hn
    obtain ⟨l, hperm, hl⟩ := hsub
    exact hperm.nodup_iff.mp (hl.nodup (h.nodup hn))

/-- The pages of another structure keep their images. -/
theorem Step.others (h : Step μ μ' b b' own own') {o : List Nat} (hb : ∀ p ∈ o, p < b)
    (hd : ∀ p ∈ o, p ∉ own) : ∀ p ∈ o, μ' p = μ p :=
  fun p hp => h.frame p (hb p hp) (hd p hp)

end Lib.Owned
