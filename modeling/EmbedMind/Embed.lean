import Mathlib.Tactic

/-!
# The windows of a long text (`embed.rs`)

The model sees a bounded number of tokens at once, so a longer text is embedded window by
window. `chunk_windows_cover` says that the windows lose nothing: they are slices in text
order, neighbours share the tokens of the overlap and nothing else, and every run of
tokens that is no longer than the overlap is seen whole.
-/

namespace EmbedMind

namespace Embed

/-- Content tokens of a window. -/
def WINDOW_TOKENS : Nat := 510

/-- Tokens that neighbouring windows share. -/
def OVERLAP_TOKENS : Nat := 64

variable {α : Type}

/-- The tokens at the positions from `span.1` up to `span.2`. -/
def window (ids : List α) (span : Nat × Nat) : List α := (ids.take span.2).drop span.1

/-- The loop of `chunk_windows`. -/
def chunkWindowsFrom (ids : List α) (start : Nat) : List (List α) :=
  if start < ids.length then
    let stop := min (start + WINDOW_TOKENS) ids.length
    if stop = ids.length then [window ids (start, stop)]
    else window ids (start, stop) :: chunkWindowsFrom ids (start + (WINDOW_TOKENS - OVERLAP_TOKENS))
  else []
termination_by ids.length - start
decreasing_by
  unfold WINDOW_TOKENS OVERLAP_TOKENS
  omega

def chunkWindows (ids : List α) : List (List α) := chunkWindowsFrom ids 0

/-- The first window, and what each further one adds to it. -/
def rejoin : List (List α) → List α
  | [] => []
  | first :: rest => first ++ rest.flatMap (List.drop OVERLAP_TOKENS)

theorem rejoin_cons (first : List α) (rest : List (List α)) :
    rejoin (first :: rest) = first ++ rest.flatMap (List.drop OVERLAP_TOKENS) := rfl

/-- The spans of windows from a first one up to the end of the text. -/
structure Spans (ids : List α) (first : Nat × Nat) (rest : List (Nat × Nat)) : Prop where
  span : ∀ s ∈ first :: rest, s.1 < s.2 ∧ s.2 ≤ ids.length ∧ s.2 ≤ s.1 + WINDOW_TOKENS
  linked : (first :: rest).IsChain fun a b => a.1 < b.1 ∧ a.2 < b.2 ∧ a.2 = b.1 + OVERLAP_TOKENS
  last : ∀ s ∈ (first :: rest).getLast?, s.2 = ids.length

section Spans

variable {ids : List α} {first next : Nat × Nat} {rest : List (Nat × Nat)}

/-- Spans without the first one. -/
theorem Spans.tail (h : Spans ids first (next :: rest)) : Spans ids next rest where
  span := fun s hs => h.span s (List.mem_cons_of_mem _ hs)
  linked := (List.isChain_cons_cons.mp h.linked).2
  last := by
    intro s hs
    refine h.last s ?_
    rwa [List.getLast?_cons_cons]

/-- A span and the next one overlap by `OVERLAP_TOKENS`. -/
theorem Spans.link (h : Spans ids first (next :: rest)) :
    first.1 < next.1 ∧ first.2 < next.2 ∧ first.2 = next.1 + OVERLAP_TOKENS :=
  (List.isChain_cons_cons.mp h.linked).1

theorem Spans.stop (h : Spans ids first []) : first.2 = ids.length := h.last first rfl

/-- A window and what follows it. -/
theorem window_append (ids : List α) {span : Nat × Nat} (hle : span.1 ≤ span.2) (hin : span.2 ≤ ids.length) :
    window ids span ++ ids.drop span.2 = ids.drop span.1 := by
  have hlen : span.1 ≤ (ids.take span.2).length := by
    rw [List.length_take]
    omega
  unfold window
  rw [← List.drop_append_of_le_length hlen, List.take_append_drop]

/-- Rejoined windows give the tokens from the first span on. -/
theorem Spans.rejoin (h : Spans ids first rest) :
    Embed.rejoin ((first :: rest).map (window ids)) = ids.drop first.1 := by
  induction rest generalizing first with
  | nil =>
      have hspan := h.span first List.mem_cons_self
      have hall := window_append ids hspan.1.le hspan.2.1
      rw [h.stop, List.drop_length, List.append_nil] at hall
      rw [List.map_cons, List.map_nil, rejoin_cons, List.flatMap_nil, List.append_nil, hall]
  | cons next rest ih =>
      have hspan := h.span first List.mem_cons_self
      rcases h.link with ⟨_, hlt, hshared⟩
      have hnext := ih h.tail
      rw [List.map_cons, rejoin_cons] at hnext
      -- the next window is longer than what it shares with this one
      have hlen : OVERLAP_TOKENS ≤ (window ids next).length := by
        have hin := (h.tail.span next List.mem_cons_self).2.1
        unfold window
        rw [List.length_drop, List.length_take]
        omega
      rw [List.map_cons, List.map_cons, rejoin_cons]
      calc window ids first ++ (window ids next :: rest.map (window ids)).flatMap (List.drop OVERLAP_TOKENS)
          = window ids first ++ (window ids next ++
              (rest.map (window ids)).flatMap (List.drop OVERLAP_TOKENS)).drop OVERLAP_TOKENS := by
            rw [List.flatMap_cons, List.drop_append_of_le_length hlen]
        _ = window ids first ++ ids.drop first.2 := by
            rw [hnext, List.drop_drop, hshared]
        _ = ids.drop first.1 := window_append ids hspan.1.le hspan.2.1

/-- A short run that starts in this window or later lies in one of the windows. -/
theorem Spans.run (h : Spans ids first rest) {p r : Nat} (hr : r ≤ OVERLAP_TOKENS) (hp : first.1 ≤ p)
    (hin : p + r ≤ ids.length) : ∃ s ∈ first :: rest, s.1 ≤ p ∧ p + r ≤ s.2 := by
  induction rest generalizing first with
  | nil =>
      refine ⟨first, List.mem_cons_self, hp, ?_⟩
      rwa [h.stop]
  | cons next rest ih =>
      by_cases hfits : p + r ≤ first.2
      · exact ⟨first, List.mem_cons_self, hp, hfits⟩
      · have hshared := h.link.2.2
        rcases ih h.tail (by omega) with ⟨s, hs, hrun⟩
        exact ⟨s, List.mem_cons_of_mem _ hs, hrun⟩

end Spans

/-- The windows from a position are the windows of spans that reach the end. -/
theorem chunkWindowsFrom_spans (ids : List α) {start : Nat} (hstart : start < ids.length) :
    ∃ rest, chunkWindowsFrom ids start =
        ((start, min (start + WINDOW_TOKENS) ids.length) :: rest).map (window ids) ∧
      Spans ids (start, min (start + WINDOW_TOKENS) ids.length) rest := by
  induction hn : ids.length - start using Nat.strong_induction_on generalizing start with
  | _ n ih =>
      have hwide : OVERLAP_TOKENS < WINDOW_TOKENS := by decide
      unfold chunkWindowsFrom
      rw [if_pos hstart]
      dsimp only
      -- the window that reaches the end is the last one
      by_cases hlast : min (start + WINDOW_TOKENS) ids.length = ids.length
      · rw [if_pos hlast]
        refine ⟨[], rfl, ?_⟩
        constructor
        case span =>
          intro s hs
          rw [List.mem_singleton.mp hs]
          dsimp only
          omega
        case linked => exact List.isChain_singleton _
        case last =>
          intro s hs
          cases hs
          exact hlast
      · rw [if_neg hlast]
        have hnext : start + (WINDOW_TOKENS - OVERLAP_TOKENS) < ids.length := by omega
        -- the windows from the next start on
        rcases ih (ids.length - (start + (WINDOW_TOKENS - OVERLAP_TOKENS))) (by omega) hnext rfl with
          ⟨rest, hwindows, hspans⟩
        refine ⟨(start + (WINDOW_TOKENS - OVERLAP_TOKENS),
          min (start + (WINDOW_TOKENS - OVERLAP_TOKENS) + WINDOW_TOKENS) ids.length) :: rest, ?_, ?_⟩
        · rw [hwindows]
          rfl
        · constructor
          case span =>
            intro s hs
            rcases List.mem_cons.mp hs with rfl | hs
            · dsimp only
              omega
            · exact hspans.span s hs
          -- the next start lies OVERLAP_TOKENS before this window's end
          case linked =>
            refine List.isChain_cons_cons.mpr ⟨?_, hspans.linked⟩
            dsimp only
            omega
          case last =>
            intro s hs
            rw [List.getLast?_cons_cons] at hs
            exact hspans.last s hs

/-- The windows of a text: slices of bounded length in text order; neighbours share
exactly the overlap; together they are the text; and no short run is cut by all of them. -/
theorem chunk_windows_cover (ids : List α) : ∃ spans : List (Nat × Nat),
    chunkWindows ids = spans.map (window ids) ∧
    (∀ s ∈ spans, s.1 < s.2 ∧ s.2 ≤ ids.length ∧ s.2 - s.1 ≤ WINDOW_TOKENS) ∧
    (spans.IsChain fun a b => a.1 < b.1 ∧ a.2 < b.2 ∧ a.2 - b.1 = OVERLAP_TOKENS) ∧
    rejoin (chunkWindows ids) = ids ∧
    ∀ p r, 0 < r → r ≤ OVERLAP_TOKENS → p + r ≤ ids.length → ∃ s ∈ spans, s.1 ≤ p ∧ p + r ≤ s.2 := by
  unfold chunkWindows
  by_cases hempty : 0 < ids.length
  · rcases chunkWindowsFrom_spans ids hempty with ⟨rest, hwindows, hspans⟩
    refine ⟨(0, min (0 + WINDOW_TOKENS) ids.length) :: rest, hwindows, ?_, ?_, ?_, ?_⟩
    · intro s hs
      have hspan := hspans.span s hs
      omega
    · refine hspans.linked.imp ?_
      intro a b hab
      omega
    · rw [hwindows, hspans.rejoin]
      rfl
    · intro p r _ hr hin
      exact hspans.run hr (Nat.zero_le p) hin
  · have hnil : ids = [] := List.length_eq_zero_iff.mp (by omega)
    have hnone : chunkWindowsFrom ids 0 = [] := by
      unfold chunkWindowsFrom
      rw [if_neg hempty]
    refine ⟨[], hnone, by simp, List.isChain_nil, ?_, ?_⟩
    · rw [hnone, hnil]
      rfl
    · intro p r hpos _ hin
      omega

end Embed

end EmbedMind
