import Mathlib.Order.Defs.Unbundled

/-!
# Stateful computations

A specification of a computation relates the state before it, its value and the
state after it; one of the value alone says nothing about states.  A relation between
states that is reflexive and transitive is kept by a computation if its parts keep it.
-/

set_option autoImplicit false

namespace Rdns.Lib

variable {σ α β : Type}

def Meets (m : StateM σ α) (spec : σ → α → σ → Prop) : Prop :=
  ∀ state, spec state (m state).1 (m state).2

/-- The specification of the rest is read in the state and with the value the first
part leaves. -/
theorem Meets.bind {m : StateM σ α} {f : α → StateM σ β} {first : σ → α → σ → Prop}
    {spec : σ → β → σ → Prop} (head : Meets m first)
    (tail : ∀ state value, Meets (f value) fun middle result last =>
      first state value middle → spec state result last) :
    Meets (m >>= f) spec :=
  fun state => tail state (m state).1 (m state).2 (head state)

def Returns (m : StateM σ α) (good : α → Prop) : Prop := ∀ state, good (m state).1

theorem Returns.pure {value : α} {good : α → Prop} (fine : good value) :
    Returns (pure value : StateM σ α) good :=
  fun _ => fine

theorem Returns.bind {m : StateM σ α} {f : α → StateM σ β} {first : α → Prop} {good : β → Prop}
    (head : Returns m first) (tail : ∀ value, first value → Returns (f value) good) :
    Returns (m >>= f) good :=
  fun state => tail (m state).1 (head state) (m state).2

/-- The computation leads from every state to one in the relation. -/
def Keeps (rel : σ → σ → Prop) (m : StateM σ α) : Prop :=
  Meets m fun state _ state' => rel state state'

section Preorder

variable {rel : σ → σ → Prop} [preorder : IsPreorder σ rel]

include preorder

theorem Keeps.pure (value : α) : Keeps rel (pure value) := fun state => refl_of rel state

theorem Keeps.bind {m : StateM σ α} {f : α → StateM σ β} (head : Keeps rel m)
    (tail : ∀ value, Keeps rel (f value)) : Keeps rel (m >>= f) :=
  fun state => trans_of rel (head state) (tail _ _)

end Preorder

end Rdns.Lib
