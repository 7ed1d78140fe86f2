import Mathlib.Data.List.Basic

/-!
# Loops that emit

A loop over a list that carries a state, emits values in each round and may fail.  A run
splits where the list does; an invariant of the rounds that knows the items seen and the
values emitted holds at the end of a run; and if a round of one loop is answered by a round
of another one, so is a run.
-/

set_option autoImplicit false

namespace Rdns.Lib

variable {σ τ α β γ ε : Type}

def transduce (round : σ → α → Except ε (List β × σ)) : σ → List α → Except ε (List β × σ)
  | state, [] => .ok ([], state)
  | state, item :: rest => do
    let (emitted, next) ← round state item
    let (later, last) ← transduce round next rest
    pure (emitted ++ later, last)

section Runs

variable {round : σ → α → Except ε (List β × σ)}

theorem transduce_cons_iff {state last : σ} {item : α} {rest : List α} {values : List β} :
    transduce round state (item :: rest) = .ok (values, last) ↔
      ∃ emitted next later, round state item = .ok (emitted, next) ∧
        transduce round next rest = .ok (later, last) ∧ values = emitted ++ later := by
  rw [transduce]
  constructor
  · intro run
    cases first : round state item with
    | error e =>
      rw [first] at run
      cases run
    | ok made =>
      obtain ⟨emitted, next⟩ := made
      rw [first] at run
      change (transduce round next rest >>= _) = _ at run
      cases others : transduce round next rest with
      | error e =>
        rw [others] at run
        cases run
      | ok found =>
        rw [others] at run
        cases run
        exact ⟨emitted, next, found.1, rfl, others, rfl⟩
  · rintro ⟨emitted, next, later, first, others, rfl⟩
    rw [first]
    change (transduce round next rest >>= _) = _
    rw [others]
    rfl

theorem transduce_append_iff {items more : List α} : ∀ {state last : σ} {values : List β},
    transduce round state (items ++ more) = .ok (values, last) ↔
      ∃ early middle late, transduce round state items = .ok (early, middle) ∧
        transduce round middle more = .ok (late, last) ∧ values = early ++ late := by
  induction items with
  | nil =>
    intro state last values
    constructor
    · intro run
      exact ⟨[], state, values, rfl, run, rfl⟩
    · rintro ⟨early, middle, late, start, run, rfl⟩
      cases start
      exact run
  | cons item rest ih =>
    intro state last values
    rw [List.cons_append, transduce_cons_iff]
    constructor
    · rintro ⟨emitted, next, later, first, others, rfl⟩
      obtain ⟨early, middle, late, before, after, rfl⟩ := ih.mp others
      refine ⟨emitted ++ early, middle, late, ?_, after, (List.append_assoc _ _ _).symm⟩
      exact transduce_cons_iff.mpr ⟨emitted, next, early, first, before, rfl⟩
    · rintro ⟨early, middle, late, before, after, rfl⟩
      obtain ⟨emitted, next, later, first, others, rfl⟩ := transduce_cons_iff.mp before
      refine ⟨emitted, next, later ++ late, first, ?_, List.append_assoc _ _ _⟩
      exact ih.mpr ⟨later, middle, late, others, after, rfl⟩

theorem transduce_invariant (inv : List α → List β → σ → Prop)
    (keeps : ∀ {seen : List α} {made : List β} {state : σ} {item : α} {emitted : List β} {next : σ},
      inv seen made state → round state item = .ok (emitted, next) →
        inv (seen ++ [item]) (made ++ emitted) next) {items : List α} :
    ∀ {seen : List α} {made : List β} {state last : σ} {values : List β}, inv seen made state →
      transduce round state items = .ok (values, last) →
        inv (seen ++ items) (made ++ values) last := by
  induction items with
  | nil =>
    intro seen made state last values start run
    cases run
    rwa [List.append_nil, List.append_nil]
  | cons item rest ih =>
    intro seen made state last values start run
    obtain ⟨emitted, next, later, first, others, rfl⟩ := transduce_cons_iff.mp run
    have whole := ih (keeps start first) others
    rwa [List.append_assoc, List.append_assoc] at whole

end Runs

theorem transduce_simulates (round : σ → α → Except ε (List β × σ))
    (round' : τ → α → Except ε (List γ × τ)) (rel : σ → τ → Prop)
    (agree : List β → List γ → Prop) (nothing : agree [] [])
    (joined : ∀ {first second : List β} {first' second' : List γ}, agree first first' →
      agree second second' → agree (first ++ second) (first' ++ second'))
    (answers : ∀ {state : σ} {state' : τ} {item : α} {emitted : List β} {next : σ},
      rel state state' → round state item = .ok (emitted, next) →
        ∃ emitted' next', round' state' item = .ok (emitted', next') ∧ rel next next' ∧
          agree emitted emitted') {items : List α} :
    ∀ {state last : σ} {state' : τ} {values : List β}, rel state state' →
      transduce round state items = .ok (values, last) →
        ∃ values' last', transduce round' state' items = .ok (values', last') ∧ rel last last' ∧
          agree values values' := by
  induction items with
  | nil =>
    intro state last state' values related run
    cases run
    exact ⟨[], state', rfl, related, nothing⟩
  | cons item rest ih =>
    intro state last state' values related run
    obtain ⟨emitted, next, later, first, others, rfl⟩ := transduce_cons_iff.mp run
    obtain ⟨emitted', next', first', related', here⟩ := answers related first
    obtain ⟨later', last', others', ended, there⟩ := ih related' others
    refine ⟨emitted' ++ later', last', ?_, ended, joined here there⟩
    exact transduce_cons_iff.mpr ⟨emitted', next', later', first', others', rfl⟩

end Rdns.Lib
