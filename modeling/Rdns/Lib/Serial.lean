import Mathlib.Data.List.Basic
import Mathlib.Data.List.Nodup

/-!
# Serial histories

Writers change one shared cell.  A history is serial if the cell holds what the
edits that landed leave behind when they are made one after the other, in some
order.  The rule: an edit that lands as if it were made at once on the present
contents keeps the history serial.
-/

set_option autoImplicit false

namespace Rdns.Lib

variable {γ ε ι : Type}

def replay (apply : ε → γ → Option γ) (edits : List ε) (cell : γ) : Option γ :=
  edits.foldlM (fun cell edit => apply edit cell) cell

theorem replay_cons (apply : ε → γ → Option γ) (edit : ε) (edits : List ε) (cell : γ) :
    replay apply (edit :: edits) cell = (apply edit cell).bind (replay apply edits) := rfl

theorem replay_concat (apply : ε → γ → Option γ) (edits : List ε) (edit : ε) (cell : γ) :
    replay apply (edits ++ [edit]) cell = (replay apply edits cell).bind (apply edit) := by
  unfold replay
  rw [List.foldlM_append]
  refine congrArg (Option.bind _) (funext fun middle => ?_)
  exact bind_pure (apply edit middle)

/-- `landed` says which writers have landed, and with which edit. -/
def Serial (apply : ε → γ → Option γ) (first : γ) (landed : ι → Option ε) (cell : γ) : Prop :=
  ∃ order : List (ι × ε), (order.map Prod.fst).Nodup ∧
    (∀ writer edit, (writer, edit) ∈ order ↔ landed writer = some edit) ∧
    replay apply (order.map Prod.snd) first = some cell

theorem Serial.initial (apply : ε → γ → Option γ) (first : γ) :
    Serial apply first (fun _ : ι => none) first :=
  ⟨[], List.nodup_nil, by simp, rfl⟩

theorem Serial.commit {apply : ε → γ → Option γ} {first cell cell' : γ}
    {landed landed' : ι → Option ε} (writer : ι) (edit : ε)
    (serial : Serial apply first landed cell) (fresh : landed writer = none)
    (made : apply edit cell = some cell') (own : landed' writer = some edit)
    (others : ∀ other, other ≠ writer → landed' other = landed other) :
    Serial apply first landed' cell' := by
  obtain ⟨order, nodup, members, replayed⟩ := serial
  have absent : writer ∉ order.map Prod.fst := by
    intro member
    obtain ⟨⟨_, old⟩, listed, rfl⟩ := List.mem_map.mp member
    rw [(members _ _).mp listed] at fresh
    cases fresh
  refine ⟨order ++ [(writer, edit)], ?_, ?_, ?_⟩
  · rw [List.map_append]
    refine List.nodup_append.mpr ⟨nodup, List.nodup_singleton _, ?_⟩
    intro other member last same
    rcases List.mem_singleton.mp same with rfl
    rintro rfl
    exact absent member
  · intro other edit'
    by_cases same : other = writer
    · subst same
      have none : (other, edit') ∉ order := fun member =>
        absent (List.mem_map.mpr ⟨_, member, rfl⟩)
      simp [none, own, eq_comm]
    · rw [others other same, ← members other edit']
      simp [same]
  · rw [List.map_append, List.map_singleton, replay_concat, replayed]
    exact made

theorem Serial.of_two {apply : ε → γ → Option γ} {first cell : γ} {landed : ι → Option ε}
    {left right : ι} {edit edit' : ε} (serial : Serial apply first landed cell)
    (differ : left ≠ right) (own : landed left = some edit) (own' : landed right = some edit')
    (others : ∀ writer, writer ≠ left → writer ≠ right → landed writer = none) :
    replay apply [edit, edit'] first = some cell ∨
      replay apply [edit', edit] first = some cell := by
  obtain ⟨order, nodup, members, replayed⟩ := serial
  have listed : ∀ entry, entry ∈ order ↔ entry ∈ [(left, edit), (right, edit')] := by
    rintro ⟨writer, entry⟩
    rw [members writer entry]
    by_cases isLeft : writer = left
    · subst isLeft
      rw [own]
      simp [differ, eq_comm (a := edit)]
    · by_cases isRight : writer = right
      · subst isRight
        rw [own']
        simp [differ.symm, eq_comm (a := edit')]
      · simp [others writer isLeft isRight, isLeft, isRight]
  have perm : order.Perm [(left, edit), (right, edit')] :=
    (List.perm_ext_iff_of_nodup nodup.of_map (by simp [differ])).mpr listed
  obtain ⟨former, latter, rfl⟩ := List.length_eq_two.mp perm.length_eq
  have distinct : former.1 ≠ latter.1 := by simpa using nodup
  have among := List.mem_pair.mp ((listed former).mp (by simp))
  have among' := List.mem_pair.mp ((listed latter).mp (by simp))
  rcases among with rfl | rfl <;> rcases among' with rfl | rfl
  · exact absurd rfl distinct
  · exact .inl replayed
  · exact .inr replayed
  · exact absurd rfl distinct

end Rdns.Lib
