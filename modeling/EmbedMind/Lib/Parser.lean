import Mathlib.Tactic

/-!
# Sequential readers

A reader takes symbols from the front of its input and returns the rest. `Exact` ties
it to a writer: the reader succeeds exactly on what the writer writes of a valid value,
followed by anything. Written values are then prefix free (`Exact.unique`).
-/

namespace Lib

variable {σ ε α β γ : Type}

/-- A sequence of parsers succeeds when both do, one behind the other. -/
theorem StateT.bind_ok_iff {p : StateT σ (Except ε) α} {f : α → StateT σ (Except ε) β} {s s' : σ} {b : β} :
    (p >>= f) s = .ok (b, s') ↔ ∃ a mid, p s = .ok (a, mid) ∧ f a mid = .ok (b, s') := by
  change ((p s).bind fun r => f r.1 r.2) = .ok (b, s') ↔ _
  cases hp : p s with
  | error e =>
      constructor
      · intro h
        cases h
      · rintro ⟨a, mid, h, _⟩
        cases h
  | ok r =>
      constructor
      · intro h
        exact ⟨r.1, r.2, rfl, h⟩
      · rintro ⟨a, mid, h, hf⟩
        cases h
        exact hf

theorem StateT.pure_ok_iff {a b : α} {s s' : σ} :
    (pure a : StateT σ (Except ε) α) s = .ok (b, s') ↔ a = b ∧ s = s' := by
  change Except.ok (a, s) = .ok (b, s') ↔ _
  rw [Except.ok.injEq, Prod.mk.injEq]

/-- `p` reads exactly what `write` writes of valid values. -/
def Exact (p : StateT (List γ) (Except ε) α) (write : α → List γ) (valid : α → Prop) : Prop :=
  ∀ input a rest, p input = .ok (a, rest) ↔ valid a ∧ input = write a ++ rest

namespace Exact

variable {p : StateT (List γ) (Except ε) α} {write : α → List γ} {valid : α → Prop}

/-- No written value is a proper beginning of another. -/
theorem unique (h : Exact p write valid) {a a' : α} {rest rest' : List γ} (ha : valid a) (ha' : valid a')
    (heq : write a ++ rest = write a' ++ rest') : a = a' ∧ rest = rest' := by
  have h1 := (h (write a ++ rest) a rest).mpr ⟨ha, rfl⟩
  have h2 := (h (write a ++ rest) a' rest').mpr ⟨ha', heq⟩
  rw [h1] at h2
  cases h2
  exact ⟨rfl, rfl⟩

/-- Two readers in sequence; the first value can be told from the result. -/
theorem bind {f : α → StateT (List γ) (Except ε) β} (h : Exact p write valid) (of : β → α)
    (write' : β → List γ) (valid' : β → Prop)
    (hf : ∀ a, valid a → ∀ input b rest,
      f a input = .ok (b, rest) ↔ (of b = a ∧ valid' b) ∧ input = write' b ++ rest) :
    Exact (p >>= f) (fun b => write (of b) ++ write' b) fun b => valid (of b) ∧ valid' b := by
  intro input b rest
  rw [StateT.bind_ok_iff]
  constructor
  · rintro ⟨a, mid, hp, hb⟩
    obtain ⟨ha, rfl⟩ := (h _ _ _).mp hp
    obtain ⟨⟨rfl, hb'⟩, rfl⟩ := (hf _ ha _ _ _).mp hb
    exact ⟨⟨ha, hb'⟩, (List.append_assoc _ _ _).symm⟩
  · rintro ⟨⟨ha, hb⟩, rfl⟩
    refine ⟨of b, write' b ++ rest, ?_, (hf _ ha _ _ _).mpr ⟨⟨rfl, hb⟩, rfl⟩⟩
    exact (h _ _ _).mpr ⟨ha, List.append_assoc _ _ _⟩

/-- A reader and a conversion of what it reads. -/
theorem map {g : α → β} (of : β → α) (h : Exact p write valid) (hof : ∀ a, valid a → of (g a) = a)
    (hg : ∀ b, g (of b) = b) : Exact (p >>= fun a => pure (g a)) (fun b => write (of b)) fun b => valid (of b) := by
  intro input b rest
  rw [StateT.bind_ok_iff]
  constructor
  · rintro ⟨a, mid, hp, hpure⟩
    obtain ⟨rfl, rfl⟩ := StateT.pure_ok_iff.mp hpure
    obtain ⟨ha, rfl⟩ := (h _ _ _).mp hp
    dsimp only
    rw [hof a ha]
    exact ⟨ha, rfl⟩
  · rintro ⟨hb, rfl⟩
    exact ⟨of b, rest, (h _ _ _).mpr ⟨hb, rfl⟩, StateT.pure_ok_iff.mpr ⟨hg b, rfl⟩⟩

/-- An exact parser is exact for any equal description of its inputs. -/
theorem congr {write' : α → List γ} {valid' : α → Prop} (h : Exact p write valid)
    (hvalid : ∀ a, valid a ↔ valid' a) (hwrite : ∀ a, valid a → write a = write' a) : Exact p write' valid' := by
  intro input a rest
  rw [h, ← hvalid]
  constructor
  · rintro ⟨ha, rfl⟩
    exact ⟨ha, by rw [hwrite a ha]⟩
  · rintro ⟨ha, rfl⟩
    exact ⟨ha, by rw [hwrite a ha]⟩

/-- A reader run `n` times. -/
theorem replicate (h : Exact p write valid) {f : Nat → StateT (List γ) (Except ε) (List α)}
    (hzero : f 0 = pure []) (hsucc : ∀ n, f (n + 1) = do
      let a ← p
      let as ← f n
      pure (a :: as)) (n : Nat) :
    Exact (f n) (fun as => as.flatMap write) fun as => as.length = n ∧ ∀ a ∈ as, valid a := by
  induction n with
  | zero =>
      intro input as rest
      rw [hzero, StateT.pure_ok_iff]
      constructor
      · rintro ⟨rfl, rfl⟩
        simp
      · rintro ⟨⟨hlen, _⟩, rfl⟩
        rw [List.eq_nil_of_length_eq_zero hlen]
        simp
  | succ n ih =>
      intro input as rest
      rw [hsucc, StateT.bind_ok_iff]
      constructor
      · rintro ⟨a, mid, hp, hrest⟩
        obtain ⟨as', mid', has, hpure⟩ := StateT.bind_ok_iff.mp hrest
        obtain ⟨rfl, rfl⟩ := StateT.pure_ok_iff.mp hpure
        obtain ⟨ha, rfl⟩ := (h _ _ _).mp hp
        obtain ⟨⟨hlen, hall⟩, rfl⟩ := (ih _ _ _).mp has
        refine ⟨⟨by rw [List.length_cons, hlen], ?_⟩, by simp only [List.flatMap_cons, List.append_assoc]⟩
        intro x hx
        rcases List.mem_cons.mp hx with rfl | hx
        · exact ha
        · exact hall x hx
      · rintro ⟨⟨hlen, hall⟩, rfl⟩
        cases as with
        | nil => cases hlen
        | cons a as =>
            refine ⟨a, as.flatMap write ++ rest, ?_, ?_⟩
            · exact (h _ _ _).mpr ⟨hall a List.mem_cons_self, by simp only [List.flatMap_cons, List.append_assoc]⟩
            · refine StateT.bind_ok_iff.mpr ⟨as, rest, ?_, StateT.pure_ok_iff.mpr ⟨rfl, rfl⟩⟩
              exact (ih _ _ _).mpr ⟨⟨Nat.succ.inj hlen, fun x hx => hall x (List.mem_cons_of_mem _ hx)⟩, rfl⟩

end Exact

end Lib
