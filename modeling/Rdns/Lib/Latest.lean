import Mathlib.Data.List.Basic
import Mathlib.Data.List.Induction
import Rdns.Lib.HashMap

/-!
# Maps through changes

A list of keys with their values, where setting a key takes its entry out and appends
the new one, or a finite map: through any changes a key has the value of the latest one
that set it, unless it was removed since.
-/

set_option autoImplicit false

namespace Rdns.Lib

variable {κ ν : Type} [DecidableEq κ]

inductive Change (κ ν : Type)
  | set (key : κ) (value : ν)
  | remove (key : κ)

namespace Change

def key : Change κ ν → κ
  | set key _ => key
  | remove key => key

def value : Change κ ν → Option ν
  | set _ value => some value
  | remove _ => none

def apply (entries : List (κ × ν)) : Change κ ν → List (κ × ν)
  | set key value => (entries.filter fun entry => entry.1 ≠ key) ++ [(key, value)]
  | remove key => entries.filter fun entry => entry.1 ≠ key

end Change

def valueAt (entries : List (κ × ν)) (key : κ) : Option ν :=
  (entries.find? fun entry => entry.1 = key).map Prod.snd

theorem valueAt_filter (entries : List (κ × ν)) (removed key : κ) :
    valueAt (entries.filter fun entry => entry.1 ≠ removed) key =
      if removed = key then none else valueAt entries key := by
  induction entries with
  | nil => simp [valueAt]
  | cons entry rest ih =>
    unfold valueAt at ih ⊢
    by_cases gone : entry.1 = removed
    · rw [List.filter_cons_of_neg (by simp [gone]), ih]
      by_cases same : removed = key
      · rw [if_pos same, if_pos same]
      · have other : entry.1 ≠ key := gone ▸ same
        rw [if_neg same, if_neg same, List.find?_cons_of_neg (by simpa using other)]
    · rw [List.filter_cons_of_pos (by simpa using gone)]
      by_cases own : entry.1 = key
      · have apart : removed ≠ key := fun same => gone (own.trans same.symm)
        rw [if_neg apart, List.find?_cons_of_pos (by simpa using own),
          List.find?_cons_of_pos (by simpa using own)]
      · rw [List.find?_cons_of_neg (by simpa using own),
          List.find?_cons_of_neg (by simpa using own), ih]

theorem valueAt_apply (entries : List (κ × ν)) (change : Change κ ν) (key : κ) :
    valueAt (change.apply entries) key =
      if change.key = key then change.value else valueAt entries key := by
  cases change with
  | remove removed => exact valueAt_filter entries removed key
  | set changed value =>
    have kept := valueAt_filter entries changed key
    unfold Change.apply Change.key Change.value valueAt at *
    rw [List.find?_append, Option.map_or, kept]
    by_cases same : changed = key
    · simp [same]
    · simp [same]

def IsLatest (changes : List (Change κ ν)) (key : κ) (value : ν) : Prop :=
  ∃ before after, changes = before ++ .set key value :: after ∧
    ∀ change ∈ after, change.key ≠ key

omit [DecidableEq κ] in
theorem not_isLatest_nil (key : κ) (value : ν) : ¬ IsLatest [] key value := by
  rintro ⟨before, after, same, _⟩
  exact List.append_ne_nil_of_right_ne_nil before (List.cons_ne_nil _ _) same.symm

theorem isLatest_append (changes : List (Change κ ν)) (last : Change κ ν) (key : κ) (value : ν) :
    IsLatest (changes ++ [last]) key value ↔
      if last.key = key then last.value = some value else IsLatest changes key value := by
  constructor
  · rintro ⟨before, after, same, clear⟩
    rcases List.eq_nil_or_concat' after with rfl | ⟨init, final, rfl⟩
    · obtain ⟨_, isLast⟩ := List.append_inj' same rfl
      cases isLast
      have own : (Change.set key value).key = key := rfl
      rw [if_pos own]
      rfl
    · rw [← List.cons_append, ← List.append_assoc] at same
      obtain ⟨rfl, isLast⟩ := List.append_inj' same rfl
      cases isLast
      rw [if_neg (clear last (by simp))]
      exact ⟨before, init, rfl, fun change member => clear change (by simp [member])⟩
  · intro latest
    split at latest
    · rename_i own
      cases last with
      | remove removed => cases latest
      | set changed final =>
        cases latest
        cases own
        exact ⟨changes, [], rfl, List.forall_mem_nil _⟩
    · rename_i other
      obtain ⟨before, after, rfl, clear⟩ := latest
      refine ⟨before, after ++ [last], by simp, fun change member => ?_⟩
      rcases List.mem_append.mp member with early | final
      · exact clear change early
      · rw [List.mem_singleton.mp final]
        exact other

theorem exists_isLatest_iff {changes : List (Change κ ν)}
    (sets : ∀ change ∈ changes, change.value ≠ none) (key : κ) :
    (∃ value, IsLatest changes key value) ↔ ∃ change ∈ changes, change.key = key := by
  induction changes using List.reverseRecOn with
  | nil =>
    refine iff_of_false ?_ (by simp)
    rintro ⟨value, latest⟩
    exact not_isLatest_nil key value latest
  | append_singleton changes last ih =>
    have earlier := ih fun change member => sets change (List.mem_append_left _ member)
    simp only [isLatest_append, List.mem_append, List.mem_singleton]
    by_cases own : last.key = key
    · obtain ⟨value, set⟩ := Option.ne_none_iff_exists'.mp (sets last (by simp))
      refine iff_of_true ⟨value, ?_⟩ ⟨last, Or.inr rfl, own⟩
      rw [if_pos own]
      exact set
    · simp only [if_neg own, earlier]
      constructor
      · rintro ⟨change, member, same⟩
        exact ⟨change, Or.inl member, same⟩
      · rintro ⟨change, member | rfl, same⟩
        · exact ⟨change, member, same⟩
        · exact absurd same own

/-- A state that answers for the changed key with the change and for the others as before. -/
theorem read_foldl_iff {σ : Type} {read : σ → κ → Option ν} {apply : σ → Change κ ν → σ}
    (step : ∀ state change key, read (apply state change) key =
      if change.key = key then change.value else read state key)
    {start : σ} (blank : ∀ key, read start key = none) (changes : List (Change κ ν)) (key : κ)
    (value : ν) :
    read (changes.foldl apply start) key = some value ↔ IsLatest changes key value := by
  induction changes using List.reverseRecOn with
  | nil =>
    refine iff_of_false (fun found => ?_) (not_isLatest_nil key value)
    rw [List.foldl_nil, blank] at found
    cases found
  | append_singleton changes last ih =>
    rw [List.foldl_append, List.foldl_cons, List.foldl_nil, step, isLatest_append]
    split
    · exact Iff.rfl
    · exact ih

theorem valueAt_foldl_iff (changes : List (Change κ ν)) (key : κ) (value : ν) :
    valueAt (changes.foldl Change.apply []) key = some value ↔ IsLatest changes key value :=
  read_foldl_iff valueAt_apply (fun _ => rfl) changes key value

namespace HashMap

def change (map : HashMap κ ν) : Change κ ν → HashMap κ ν
  | .set key value => map.insert key value
  | .remove key => map.remove key

theorem get?_change (map : HashMap κ ν) (change : Change κ ν) (key : κ) :
    (map.change change).get? key =
      if change.key = key then change.value else map.get? key := by
  cases change with
  | set changed value =>
    rw [HashMap.change, get?_insert, Change.key, Change.value]
    simp only [eq_comm]
  | remove removed =>
    rw [HashMap.change, get?_remove, Change.key, Change.value]
    simp only [eq_comm]

theorem get?_foldl_change_iff (changes : List (Change κ ν)) (key : κ) (value : ν) :
    (changes.foldl HashMap.change empty).get? key = some value ↔ IsLatest changes key value :=
  read_foldl_iff get?_change get?_empty changes key value

end HashMap

end Rdns.Lib
