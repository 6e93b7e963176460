import EmbedMind.Index.FilterMetaUpdate

/-!
# What the sidecar decides

A table asked about a record it mirrors never decides against the record: what it accepts
passes the liveness and scope checks, what it rejects fails one of them or has no metadata
for the filters. It only defers a record whose scope overflowed or
whose metadata has to be read (`Table.decide_cases`).
-/

namespace EmbedMind

open Lib Lib.Assoc

namespace FilterMeta

/-- The checks of a query that the sidecar can answer, on what it mirrors of a record. -/
structure Update.Passes (u : Update) (project agent : Option String) : Prop where
  live : u.tombstone = false
  current : u.superseded = false
  project : ∀ q, project = some q → q ≠ "" ∧ u.project.getD "" = q
  agent : ∀ a, agent = some a → u.agent = a

/-- A constraint on a symbol stands for a condition on the string. -/
structure Want.Says (want : Want) (n : Nat) (P : Prop) : Prop where
  absent : want = .absent → ¬ P
  sym : ∀ m, want = .sym m → (n = m ↔ P)

section Deciding

variable {table : Table} {log : Entries} {syms : Symbols}

/-- The constraint of a string other than the empty one. -/
theorem wantSym_answers (h : table.Of log syms) (hok : SymbolsOk syms) {s q : String} {n : Nat} (hs : SymOf syms s n)
    (hq : q ≠ "") : (table.wantSym q).Says n (s = q) := by
  unfold Table.wantSym Table.resolve
  cases hf : find (utf8 q) table.symbols with
  | none =>
      constructor
      · intro _ heq
        subst heq
        rcases hs with ⟨rfl, _⟩ | ⟨_, hmem⟩
        · exact hq rfl
        · rw [(h.symbols.find s n).mpr hmem] at hf
          cases hf
      · intro m hm
        cases hm
  | some m =>
      constructor
      · intro habs
        cases habs
      · intro m' hm'
        cases hm'
        exact SymOf.eq_iff hok hs (Or.inr ⟨hq, (h.symbols.find q m).mp hf⟩)

/-- What the table says about a project. -/
theorem wantProject_answers (h : table.Of log syms) (hok : SymbolsOk syms) {s : String} {n : Nat} (hs : SymOf syms s n)
    (project : Option String) : (table.wantProject project).Says n (∀ q, project = some q → q ≠ "" ∧ s = q) := by
  cases project with
  | none =>
      constructor
      · intro habs
        cases habs
      · intro m hm
        cases hm
  | some q =>
      unfold Table.wantProject
      dsimp only
      by_cases hq : q = ""
      · rw [if_pos hq]
        constructor
        · intro _ hall
          exact (hall q rfl).1 hq
        · intro m hm
          cases hm
      · rw [if_neg hq]
        have hanswer := wantSym_answers h hok hs hq
        have hiff : (∀ q', some q = some q' → q' ≠ "" ∧ s = q') ↔ s = q := by
          constructor
          · exact fun hall => (hall q rfl).2
          · intro heq q' hq'
            cases hq'
            exact ⟨hq, heq⟩
        exact ⟨fun habs hall => hanswer.absent habs (hiff.mp hall), fun m hm => (hanswer.sym m hm).trans hiff.symm⟩

/-- What the table says about an agent. -/
theorem wantAgent_answers (h : table.Of log syms) (hok : SymbolsOk syms) {s : String} {n : Nat} (hs : SymOf syms s n)
    (agent : Option String) : (table.wantAgent agent).Says n (∀ a, agent = some a → s = a) := by
  cases agent with
  | none =>
      constructor
      · intro habs
        cases habs
      · intro m hm
        cases hm
  | some a =>
      have hiff : (∀ a', some a = some a' → s = a') ↔ s = a := by
        constructor
        · exact fun hall => hall a rfl
        · intro heq a' ha'
          cases ha'
          exact heq
      unfold Table.wantAgent
      dsimp only
      by_cases ha : a = ""
      · rw [if_pos ha]
        subst ha
        constructor
        · intro habs
          cases habs
        · intro m hm
          cases hm
          exact (SymOf.eq_iff hok hs (Or.inl ⟨rfl, rfl⟩)).trans hiff.symm
      · rw [if_neg ha]
        have hanswer := wantSym_answers h hok hs ha
        exact ⟨fun habs hall => hanswer.absent habs (hiff.mp hall), fun m hm => (hanswer.sym m hm).trans hiff.symm⟩

theorem wantSym_ne_any (q : String) : table.wantSym q ≠ .any := by
  unfold Table.wantSym
  cases table.resolve q with
  | none => simp
  | some m => simp

/-- Any project will do when none was asked for. -/
theorem wantProject_eq_any {project : Option String} (h : table.wantProject project = .any) : project = none := by
  cases project with
  | none => rfl
  | some q =>
      unfold Table.wantProject at h
      dsimp only at h
      by_cases hq : q = ""
      · rw [if_pos hq] at h
        cases h
      · rw [if_neg hq] at h
        exact absurd h (wantSym_ne_any q)

/-- Any agent will do when none was asked for. -/
theorem wantAgent_eq_any {agent : Option String} (h : table.wantAgent agent = .any) : agent = none := by
  cases agent with
  | none => rfl
  | some a =>
      unfold Table.wantAgent at h
      dsimp only at h
      by_cases ha : a = ""
      · rw [if_pos ha] at h
        cases h
      · rw [if_neg ha] at h
        exact absurd h (wantSym_ne_any a)

/-- The scope of an entry whose symbols are valid. -/
theorem decideScope_valid {want₁ want₂ : Want} {n₁ n₂ : Nat} {P₁ P₂ : Prop} (h₁ : want₁.Says n₁ P₁)
    (h₂ : want₂.Says n₂ P₂) (hany₁ : want₁ = .any → P₁) (hany₂ : want₂ = .any → P₂) :
    (Table.decideScope false [(want₁, n₁), (want₂, n₂)] = none ∧ P₁ ∧ P₂) ∨
      (Table.decideScope false [(want₁, n₁), (want₂, n₂)] = some (.reject .outOfScope) ∧ ¬ (P₁ ∧ P₂)) := by
  have hsecond : (Table.decideScope false [(want₂, n₂)] = none ∧ P₂) ∨
      (Table.decideScope false [(want₂, n₂)] = some (.reject .outOfScope) ∧ ¬ P₂) := by
    cases want₂ with
    | any => exact Or.inl ⟨rfl, hany₂ rfl⟩
    | absent => exact Or.inr ⟨rfl, h₂.absent rfl⟩
    | sym m =>
        by_cases hm : n₂ = m
        · exact Or.inl ⟨by simp [Table.decideScope, hm], (h₂.sym m rfl).mp hm⟩
        · exact Or.inr ⟨by simp [Table.decideScope, hm], fun hP => hm ((h₂.sym m rfl).mpr hP)⟩
  have hfirst : (Table.decideScope false [(want₁, n₁), (want₂, n₂)] = Table.decideScope false [(want₂, n₂)] ∧ P₁) ∨
      (Table.decideScope false [(want₁, n₁), (want₂, n₂)] = some (.reject .outOfScope) ∧ ¬ P₁) := by
    cases want₁ with
    | any => exact Or.inl ⟨rfl, hany₁ rfl⟩
    | absent => exact Or.inr ⟨rfl, h₁.absent rfl⟩
    | sym m =>
        by_cases hm : n₁ = m
        · refine Or.inl ⟨?_, (h₁.sym m rfl).mp hm⟩
          rw [Table.decideScope, if_neg (by decide), if_neg (not_not.mpr hm)]
        · refine Or.inr ⟨?_, fun hP => hm ((h₁.sym m rfl).mpr hP)⟩
          rw [Table.decideScope, if_neg (by decide), if_pos hm]
  rcases hfirst with ⟨heq, hP₁⟩ | ⟨heq, hP₁⟩
  · rw [heq]
    rcases hsecond with ⟨hnone, hP₂⟩ | ⟨hrej, hP₂⟩
    · exact Or.inl ⟨hnone, hP₁, hP₂⟩
    · exact Or.inr ⟨hrej, fun hP => hP₂ hP.2⟩
  · exact Or.inr ⟨heq, fun hP => hP₁ hP.1⟩

/-- The scope of an entry that overflowed is never decided. -/
theorem decideScope_overflow {want₁ want₂ : Want} {n₁ n₂ : Nat} :
    (Table.decideScope true [(want₁, n₁), (want₂, n₂)] = none ∧ want₁ = .any ∧ want₂ = .any) ∨
      Table.decideScope true [(want₁, n₁), (want₂, n₂)] = some .needRecord := by
  cases want₁ with
  | any =>
      cases want₂ with
      | any => exact Or.inl ⟨rfl, rfl, rfl⟩
      | sym m => exact Or.inr rfl
      | absent => exact Or.inr rfl
  | sym m => exact Or.inr rfl
  | absent => exact Or.inr rfl

/-- The needs of a query on a project scope and an agent. -/
def Table.needs (table : Table) (project agent : Option String) (filters : Bool) : QueryNeeds :=
  ⟨table.wantProject project, table.wantAgent agent, filters⟩

variable {id : Ulid} {u : Update} {e : Entry}

/-- What a table says of a record it mirrors, scope and liveness first. -/
theorem Table.decide_cases (h : table.Of log syms) (hok : SymbolsOk syms) (he : find id log = some e)
    (hm : Mirrors syms u e) (project agent : Option String) (filters : Bool) :
    (table.decide id (table.needs project agent filters) = .needRecord ∧ e.flags &&& FLAG_SCOPE_OVERFLOW ≠ 0 ∧
        ¬ (project = none ∧ agent = none)) ∨
      (¬ u.Passes project agent ∧ ∃ reason, table.decide id (table.needs project agent filters) = .reject reason) ∨
      (u.Passes project agent ∧ table.decide id (table.needs project agent filters) =
        if filters then if u.hasMetadata then .needRecord else .reject .filteredOut else .accept) := by
  have hget : table.get id = some e := by rw [h.entries, he]
  unfold Table.decide
  rw [hget]
  dsimp only [Table.needs]
  by_cases hdead : e.flags &&& (FLAG_TOMBSTONE ||| FLAG_SUPERSEDED) ≠ 0
  · rw [if_pos hdead]
    refine Or.inr (Or.inl ⟨?_, .dead, rfl⟩)
    intro hpass
    rcases hm.dead.mp hdead with ht | hs
    · rw [hpass.live] at ht
      cases ht
    · rw [hpass.current] at hs
      cases hs
  rw [if_neg hdead]
  have hlive : u.tombstone = false ∧ u.superseded = false := by
    have hnot := mt hm.dead.mpr hdead
    rw [not_or, Bool.not_eq_true, Bool.not_eq_true] at hnot
    exact hnot
  -- what is left once the scope is decided
  have hfilters : (if filters then if e.flags &&& FLAG_HAS_METADATA = 0 then Decision.reject .filteredOut
      else .needRecord else .accept) =
      if filters then if u.hasMetadata then .needRecord else .reject .filteredOut else .accept := by
    by_cases hbits : e.flags &&& FLAG_HAS_METADATA = 0
    · have hmeta : u.hasMetadata = false := by
        rw [← Bool.not_eq_true]
        exact fun htrue => hm.hasMetadata.mpr htrue hbits
      simp [hbits, hmeta]
    · simp [hbits, hm.hasMetadata.mp hbits]
  by_cases hover : e.flags &&& FLAG_SCOPE_OVERFLOW ≠ 0
  · have hbit : (e.flags &&& FLAG_SCOPE_OVERFLOW != 0) = true := by simpa using hover
    rw [hbit]
    have hscope := @decideScope_overflow (table.wantProject project) (table.wantAgent agent) e.projectSym e.agentSym
    rcases hscope with ⟨hnone, hany₁, hany₂⟩ | hneed
    · have hproject := wantProject_eq_any hany₁
      have hagent := wantAgent_eq_any hany₂
      refine Or.inr (Or.inr ⟨⟨hlive.1, hlive.2, ?_, ?_⟩, ?_⟩)
      · intro q hq
        rw [hproject] at hq
        cases hq
      · intro a ha
        rw [hagent] at ha
        cases ha
      · rw [hnone]
        exact hfilters
    · refine Or.inl ⟨?_, hover, ?_⟩
      · rw [hneed]
      · intro hboth
        rcases hboth with ⟨rfl, rfl⟩
        cases hneed
  · have hbit : (e.flags &&& FLAG_SCOPE_OVERFLOW != 0) = false := by simpa using hover
    rw [hbit]
    rcases hm.scope with habs | ⟨hp, ha⟩
    · exact absurd habs hover
    have hp_any : table.wantProject project = .any → ∀ q, project = some q → q ≠ "" ∧ u.project.getD "" = q := by
      intro hwant q hq
      rw [wantProject_eq_any hwant] at hq
      cases hq
    have ha_any : table.wantAgent agent = .any → ∀ a, agent = some a → u.agent = a := by
      intro hwant a ha
      rw [wantAgent_eq_any hwant] at ha
      cases ha
    rcases decideScope_valid (wantProject_answers h hok hp project) (wantAgent_answers h hok ha agent) hp_any ha_any with
      ⟨hnone, hP, hA⟩ | ⟨hrej, hnot⟩
    · refine Or.inr (Or.inr ⟨⟨hlive.1, hlive.2, hP, hA⟩, ?_⟩)
      rw [hnone]
      exact hfilters
    · refine Or.inr (Or.inl ⟨fun hpass => hnot ⟨hpass.project, hpass.agent⟩, .outOfScope, ?_⟩)
      rw [hrej]

end Deciding

end FilterMeta

end EmbedMind
