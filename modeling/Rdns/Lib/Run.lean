import Mathlib.Data.List.Basic

/-!
# Runs of labelled transition systems

A system is a step relation between states, each step under a label that says
who does what.  A property that every step keeps holds after every run; a run
whose steps all meet a condition is a run of the system restricted to it.
-/

set_option autoImplicit false

namespace Rdns.Lib

variable {σ α : Type}

inductive Run (step : σ → α → σ → Prop) : σ → List α → σ → Prop
  | done (state : σ) : Run step state [] state
  | next {first middle last : σ} {label : α} {labels : List α} (head : step first label middle)
      (tail : Run step middle labels last) : Run step first (label :: labels) last

def When (condition : σ → α → Prop) (step : σ → α → σ → Prop) : σ → α → σ → Prop :=
  fun state label state' => condition state label ∧ step state label state'

variable {step : σ → α → σ → Prop} {first last : σ} {labels : List α}

theorem Run.invariant {inv : σ → Prop} (run : Run step first labels last)
    (keeps : ∀ state label state', inv state → step state label state' → inv state')
    (initial : inv first) : inv last := by
  induction run with
  | done state => exact initial
  | next head _ ih => exact ih (keeps _ _ _ initial head)

theorem Run.mono {step' : σ → α → σ → Prop} (run : Run step first labels last)
    (wider : ∀ state label state', step state label state' → step' state label state') :
    Run step' first labels last := by
  induction run with
  | done state => exact .done _
  | next head _ ih => exact .next (wider _ _ _ head) ih

theorem Run.invariant_of_labels (inv : σ → Prop) (fine : α → Prop)
    (run : Run step first labels last)
    (keeps : ∀ state label state', fine label → inv state → step state label state' → inv state')
    (all : ∀ label ∈ labels, fine label) (initial : inv first) : inv last := by
  induction run with
  | done state => exact initial
  | next head _ ih =>
    obtain ⟨here, later⟩ := List.forall_mem_cons.mp all
    exact ih later (keeps _ _ _ here initial head)

theorem Run.when_of_labels {condition : σ → α → Prop} (inv : σ → Prop) (fine : α → Prop)
    (run : Run step first labels last)
    (keeps : ∀ state label state', fine label → inv state → step state label state' → inv state')
    (meets : ∀ state label, inv state → condition state label) (all : ∀ label ∈ labels, fine label)
    (initial : inv first) : Run (When condition step) first labels last := by
  induction run with
  | done state => exact .done _
  | next head _ ih =>
    obtain ⟨here, later⟩ := List.forall_mem_cons.mp all
    exact .next ⟨meets _ _ initial, head⟩ (ih later (keeps _ _ _ here initial head))

theorem Run.append {middle : σ} {labels' : List α} (run : Run step first labels middle)
    (run' : Run step middle labels' last) :
    Run step first (labels ++ labels') last := by
  induction run with
  | done state => exact run'
  | next head _ ih => exact .next head (ih run')

theorem Run.split {labels' : List α} :
    ∀ {labels : List α} {first : σ}, Run step first (labels ++ labels') last →
      ∃ middle, Run step first labels middle ∧ Run step middle labels' last := by
  intro labels
  induction labels with
  | nil => exact fun run => ⟨_, .done _, run⟩
  | cons label rest ih =>
    rintro first (_ | ⟨head, tail⟩)
    obtain ⟨middle, before, after⟩ := ih tail
    exact ⟨middle, .next head before, after⟩

theorem Run.view {β : Type} (run : Run step first labels last) (view : σ → β) (next : β → α → β)
    (steps : ∀ state label state', step state label state' →
      view state' = next (view state) label) : view last = labels.foldl next (view first) := by
  induction run with
  | done state => rfl
  | next head _ ih => rw [ih, List.foldl_cons, steps _ _ _ head]

def Steps (step : σ → α → Option σ) : σ → α → σ → Prop :=
  fun state label state' => step state label = some state'

def exec (step : σ → α → Option σ) : List α → σ → Option σ
  | [], state => some state
  | label :: labels, state => (step state label).bind (exec step labels)

theorem run_of_exec {step : σ → α → Option σ} (reached : exec step labels first = some last) :
    Run (Steps step) first labels last := by
  induction labels generalizing first with
  | nil =>
    cases reached
    exact .done _
  | cons label labels ih =>
    obtain ⟨middle, head, tail⟩ := Option.bind_eq_some_iff.mp reached
    exact .next head (ih tail)

end Rdns.Lib
