import Mathlib.Data.List.Basic
import Mathlib.Data.List.Forall2

/-!
# Loops that may stop

A loop over a list whose rounds may fail, as a `mapM` in `Option` or `Except`: it returns
when every round does, and what it returns is described round by round through a
view of the collected values.  Chunks of a slice lose and reorder nothing.
-/

set_option autoImplicit false

namespace Rdns.Lib

variable {α β γ : Type}

variable {ε : Type} {size : Nat} {round : α → Option β} {chunk : List α}

theorem mapM_some (round : α → Option β) (view : β → γ) (expected : α → γ) :
    ∀ items : List α, (∀ item ∈ items, ∃ value, round item = some value ∧
      view value = expected item) →
      ∃ values, items.mapM round = some values ∧ values.map view = items.map expected := by
  intro items
  induction items with
  | nil =>
    intro _
    exact ⟨[], rfl, rfl⟩
  | cons item rest ih =>
    intro each
    obtain ⟨here, later⟩ := List.forall_mem_cons.mp each
    obtain ⟨value, first, viewed⟩ := here
    obtain ⟨values, others, agree⟩ := ih later
    refine ⟨value :: values, ?_, ?_⟩
    · rw [List.mapM_cons, first, others]
      rfl
    · rw [List.map_cons, List.map_cons, viewed, agree]

theorem mapM_eq_some_iff {result : α → β} {holds : α → Prop} {items : List α}
    (each : ∀ item ∈ items, ∀ value, round item = some value ↔ holds item ∧ value = result item) :
    ∀ values, items.mapM round = some values ↔
      (∀ item ∈ items, holds item) ∧ values = items.map result := by
  induction items with
  | nil =>
    intro values
    simp [eq_comm]
  | cons item rest ih =>
    intro values
    have first := each item (List.mem_cons_self ..)
    have others := ih fun other member => each other (List.mem_cons_of_mem _ member)
    rw [List.mapM_cons, List.forall_mem_cons, List.map_cons]
    constructor
    · intro success
      obtain ⟨value, head, success⟩ := Option.bind_eq_some_iff.mp success
      obtain ⟨tail, later, success⟩ := Option.bind_eq_some_iff.mp success
      obtain ⟨good, rfl⟩ := (first value).mp head
      obtain ⟨all, rfl⟩ := (others tail).mp later
      exact ⟨⟨good, all⟩, (Option.some.inj success).symm⟩
    · rintro ⟨⟨good, all⟩, rfl⟩
      rw [(first _).mpr ⟨good, rfl⟩, (others _).mpr ⟨all, rfl⟩]
      rfl

theorem mapM_view (round : α → Option β) (view : β → γ) (expected : α → γ) :
    ∀ (items : List α) {values : List β},
      (∀ item ∈ items, ∀ value, round item = some value → view value = expected item) →
      items.mapM round = some values → values.map view = items.map expected := by
  intro items
  induction items with
  | nil =>
    intro values _ success
    cases success
    rfl
  | cons item rest ih =>
    intro values each success
    obtain ⟨here, later⟩ := List.forall_mem_cons.mp each
    rw [List.mapM_cons] at success
    obtain ⟨value, first, success⟩ := Option.bind_eq_some_iff.mp success
    obtain ⟨others, collected, success⟩ := Option.bind_eq_some_iff.mp success
    cases success
    rw [List.map_cons, List.map_cons, here value first, ih later collected]

theorem mem_mapM {value : β} :
    ∀ {items : List α} {values : List β}, items.mapM round = some values →
      (value ∈ values ↔ ∃ item ∈ items, round item = some value) := by
  intro items
  induction items with
  | nil =>
    intro values success
    cases success
    simp
  | cons item rest ih =>
    intro values success
    rw [List.mapM_cons] at success
    obtain ⟨first, here, success⟩ := Option.bind_eq_some_iff.mp success
    obtain ⟨others, collected, success⟩ := Option.bind_eq_some_iff.mp success
    cases success
    rw [List.mem_cons, ih collected, List.exists_mem_cons_iff, here, Option.some_inj, eq_comm]

theorem getElem?_of_mapM :
    ∀ {items : List α} {values : List β}, items.mapM round = some values →
      ∀ i : Nat, values[i]? = items[i]?.bind round := by
  intro items
  induction items with
  | nil =>
    intro values success i
    cases success
    rfl
  | cons item rest ih =>
    intro values success i
    rw [List.mapM_cons] at success
    obtain ⟨first, here, success⟩ := Option.bind_eq_some_iff.mp success
    obtain ⟨others, collected, success⟩ := Option.bind_eq_some_iff.mp success
    cases success
    cases i with
    | zero => exact here.symm
    | succ i => exact ih collected i

theorem toOption_eq_some_iff {result : Except ε α} {value : α} :
    result.toOption = some value ↔ result = .ok value := by
  cases result with
  | error e =>
    constructor
    · intro same
      cases same
    · intro same
      cases same
  | ok found =>
    constructor
    · intro same
      cases same
      rfl
    · intro same
      cases same
      rfl

/-- A test that the value of a computation passes, when it has one. -/
theorem exists_of_toOption_any {result : Except ε α} {test : α → Bool}
    (passed : result.toOption.any test = true) :
    ∃ value, result = .ok value ∧ test value = true := by
  cases result with
  | error e => cases passed
  | ok value => exact ⟨value, rfl, passed⟩

theorem forall₂_of_mapM_ok {round : α → Except ε β} :
    ∀ {items : List α} {values : List β}, items.mapM round = .ok values →
      List.Forall₂ (fun item value => round item = .ok value) items values := by
  intro items
  induction items with
  | nil =>
    intro values done
    cases done
    exact .nil
  | cons item rest ih =>
    intro values done
    rw [List.mapM_cons] at done
    cases here : round item with
    | error e =>
      rw [here] at done
      cases done
    | ok first =>
      cases later : rest.mapM round with
      | error e =>
        rw [here, later] at done
        cases done
      | ok others =>
        rw [here, later] at done
        cases done
        exact .cons here (ih later)

theorem exists_of_mem_forall₂ {relates : α → β → Prop} {items : List α} {values : List β}
    {value : β} (each : List.Forall₂ relates items values) (member : value ∈ values) :
    ∃ item ∈ items, relates item value := by
  induction each with
  | nil => cases member
  | cons here _ ih =>
    rcases List.mem_cons.mp member with rfl | inside
    · exact ⟨_, List.mem_cons_self, here⟩
    · obtain ⟨item, among, read⟩ := ih inside
      exact ⟨item, List.mem_cons_of_mem _ among, read⟩

theorem mem_of_mapM_ok {round : α → Except ε β} {items : List α} {values : List β} {value : β}
    (done : items.mapM round = .ok values) (member : value ∈ values) :
    ∃ item ∈ items, round item = .ok value := by
  obtain ⟨item, among, read⟩ := exists_of_mem_forall₂ (forall₂_of_mapM_ok done) member
  exact ⟨item, among, read⟩

theorem filterMap_of_map_some {read : α → Option β} {items : List α} {values : List β}
    (all : items.map read = values.map some) : items.filterMap read = values := by
  have through : (items.map read).filterMap id = values := by
    rw [all, List.filterMap_map]
    exact List.filterMap_some
  rwa [List.filterMap_map] at through

theorem perm_of_filter_key {κ : Type} [DecidableEq α] [DecidableEq κ] (key : α → κ)
    {left right : List α} (same : ∀ value, (left.filter fun item => key item = value) =
      right.filter fun item => key item = value) : left.Perm right := by
  refine List.perm_iff_count.mpr fun item => ?_
  have own : ∀ items : List α,
      items.count item = (items.filter fun other => key other = key item).count item :=
    fun items => (List.count_filter (by simp)).symm
  rw [own left, own right, same]

/-! ## First and last -/

def firstOccurrences [DecidableEq α] (values : List α) : List α :=
  values.foldl (fun seen value => if seen.contains value then seen else seen ++ [value]) []

theorem mem_firstOccurrences [DecidableEq α] (value : α) (values : List α) :
    value ∈ firstOccurrences values ↔ value ∈ values := by
  have each : ∀ rest seen : List α,
      value ∈ rest.foldl (fun seen value => if seen.contains value then seen else seen ++ [value])
        seen ↔ value ∈ seen ∨ value ∈ rest := by
    intro rest
    induction rest with
    | nil =>
      intro seen
      simp
    | cons first rest ih =>
      intro seen
      rw [List.foldl_cons, ih, List.mem_cons]
      split
      · rename_i known
        have held := List.contains_iff_mem.mp known
        constructor
        · exact fun found => found.imp_right Or.inr
        · rintro (found | rfl | found)
          · exact Or.inl found
          · exact Or.inl held
          · exact Or.inr found
      · rw [List.mem_append, List.mem_singleton, or_assoc]
  rw [firstOccurrences, each]
  simp

/-- `Iterator::max_by_key`: of several with the greatest key the last. -/
def maxByKey (key : α → Nat) (values : List α) : Option α :=
  values.foldl (fun best value =>
    match best with
    | none => some value
    | some other => if key other ≤ key value then some value else some other) none

/-! ## The first of a range -/

theorem findSome?_range' (read : Nat → Option β) (value : β) :
    ∀ count start : Nat, (List.range' start count).findSome? read = some value ↔
      ∃ index, start ≤ index ∧ index < start + count ∧ read index = some value ∧
        ∀ earlier, start ≤ earlier → earlier < index → read earlier = none := by
  intro count
  induction count with
  | zero =>
    intro start
    refine iff_of_false (by simp) ?_
    rintro ⟨index, from_, below, _⟩
    omega
  | succ count ih =>
    intro start
    rw [List.range'_succ, List.findSome?_cons]
    cases here : read start with
    | some other =>
      simp only [Option.some_inj]
      constructor
      · rintro rfl
        exact ⟨start, Nat.le_refl start, by omega, here, fun earlier from_ below => by omega⟩
      · rintro ⟨index, from_, _, found, before⟩
        rcases Nat.eq_or_lt_of_le from_ with rfl | later
        · rw [here] at found
          exact Option.some.inj found
        · rw [before start (Nat.le_refl start) later] at here
          cases here
    | none =>
      simp only
      rw [ih (start + 1)]
      constructor
      · rintro ⟨index, from_, below, found, before⟩
        refine ⟨index, by omega, by omega, found, fun earlier at_ below => ?_⟩
        rcases Nat.eq_or_lt_of_le at_ with rfl | later
        · exact here
        · exact before earlier later below
      · rintro ⟨index, from_, below, found, before⟩
        have later : start ≠ index := by
          rintro rfl
          rw [here] at found
          cases found
        exact ⟨index, by omega, by omega, found,
          fun earlier at_ below => before earlier (by omega) below⟩

/-! ## Chunks -/

/-- `slice::chunks`; a round takes at least one element. -/
def chunksLoop (size : Nat) : Nat → List α → List (List α)
  | _, [] => []
  | 0, _ => []
  | fuel + 1, items => items.take size :: chunksLoop size fuel (items.drop size)

def chunks (size : Nat) (items : List α) : List (List α) :=
  chunksLoop size items.length items

theorem chunksLoop_flatten (size : Nat) (positive : 0 < size) :
    ∀ (fuel : Nat) (items : List α), items.length ≤ fuel →
      (chunksLoop size fuel items).flatten = items := by
  intro fuel
  induction fuel with
  | zero =>
    intro items short
    rw [List.length_eq_zero_iff.mp (Nat.le_zero.mp short)]
    rfl
  | succ fuel ih =>
    intro items short
    cases items with
    | nil => rfl
    | cons item rest =>
      have smaller : ((item :: rest).drop size).length ≤ fuel := by
        rw [List.length_drop]
        omega
      rw [chunksLoop, List.flatten_cons, ih _ smaller, List.take_append_drop]
      simp

theorem chunks_flatten (size : Nat) (positive : 0 < size) (items : List α) :
    (chunks size items).flatten = items :=
  chunksLoop_flatten size positive items.length items (Nat.le_refl _)

theorem chunksLoop_fuel (positive : 0 < size) :
    ∀ (fuel fuel' : Nat) (items : List α), items.length ≤ fuel → items.length ≤ fuel' →
      chunksLoop size fuel items = chunksLoop size fuel' items := by
  intro fuel
  induction fuel with
  | zero =>
    intro fuel' items short _
    rw [List.length_eq_zero_iff.mp (Nat.le_zero.mp short)]
    cases fuel' <;> rfl
  | succ fuel ih =>
    intro fuel' items short short'
    cases items with
    | nil => cases fuel' <;> rfl
    | cons item rest =>
      cases fuel' with
      | zero => cases short'
      | succ fuel' =>
        have fewer : ((item :: rest).drop size).length ≤ rest.length := by
          rw [List.length_drop, List.length_cons]
          omega
        rw [chunksLoop, chunksLoop, ih fuel' _ (Nat.le_trans fewer (Nat.le_of_succ_le_succ short))
          (Nat.le_trans fewer (Nat.le_of_succ_le_succ short'))]
        · simp
        · simp

theorem chunks_cons (positive : 0 < size) (item : α) (rest : List α) :
    chunks size (item :: rest) =
      (item :: rest).take size :: chunks size ((item :: rest).drop size) := by
  have fewer : ((item :: rest).drop size).length ≤ rest.length := by
    rw [List.length_drop, List.length_cons]
    omega
  rw [chunks, List.length_cons, chunksLoop, chunksLoop_fuel positive _ _ _ fewer (Nat.le_refl _)]
  · rfl
  · simp

theorem chunks_append (positive : 0 < size) (full : chunk.length = size) (rest : List α) :
    chunks size (chunk ++ rest) = chunk :: chunks size rest := by
  cases chunk with
  | nil =>
    rw [List.length_nil] at full
    omega
  | cons item more =>
    rw [List.cons_append, chunks_cons positive, ← List.cons_append, List.take_left' full,
      List.drop_left' full]

theorem chunks_last (nonempty : chunk ≠ []) (short : chunk.length ≤ size) :
    chunks size chunk = [chunk] := by
  cases chunk with
  | nil => exact absurd rfl nonempty
  | cons item more =>
    have positive : 0 < size := Nat.lt_of_lt_of_le (Nat.zero_lt_succ _) short
    rw [chunks_cons positive, List.take_of_length_le short, List.drop_eq_nil_of_le short]
    rfl

theorem chunks_induction (positive : 0 < size) {motive : List α → Prop} (nil : motive [])
    (last : ∀ chunk, chunk ≠ [] → chunk.length < size → motive chunk)
    (full : ∀ chunk rest, chunk.length = size → motive rest → motive (chunk ++ rest)) :
    ∀ items, motive items := by
  have bounded : ∀ (bound : Nat) (items : List α), items.length ≤ bound → motive items := by
    intro bound
    induction bound with
    | zero =>
      intro items short
      rw [List.length_eq_zero_iff.mp (Nat.le_zero.mp short)]
      exact nil
    | succ bound ih =>
      intro items short
      by_cases small : items.length < size
      · by_cases empty : items = []
        · rw [empty]
          exact nil
        · exact last items empty small
      · have taken : (items.take size).length = size := by
          rw [List.length_take]
          omega
        have fewer : (items.drop size).length ≤ bound := by
          rw [List.length_drop]
          omega
        rw [← List.take_append_drop size items]
        exact full _ _ taken (ih _ fewer)
  exact fun items => bounded items.length items (Nat.le_refl _)

theorem chunksLoop_map {β : Type} (size : Nat) (f : α → β) :
    ∀ (fuel : Nat) (items : List α),
      chunksLoop size fuel (items.map f) = (chunksLoop size fuel items).map (List.map f) := by
  intro fuel
  induction fuel with
  | zero =>
    intro items
    cases items <;> rfl
  | succ fuel ih =>
    intro items
    cases items with
    | nil => rfl
    | cons item rest =>
      have step := ih ((item :: rest).drop size)
      rw [List.map_drop, List.map_cons] at step
      rw [List.map_cons, chunksLoop, chunksLoop, step, List.map_cons, List.map_take,
        List.map_cons]
      · simp
      · simp

theorem chunks_map {β : Type} (size : Nat) (f : α → β) (items : List α) :
    chunks size (items.map f) = (chunks size items).map (List.map f) := by
  rw [chunks, List.length_map]
  exact chunksLoop_map size f items.length items

theorem mem_chunksLoop (positive : 0 < size) :
    ∀ (fuel : Nat) (items : List α), chunk ∈ chunksLoop size fuel items →
      chunk ≠ [] ∧ chunk.length ≤ size := by
  intro fuel
  induction fuel with
  | zero =>
    intro items member
    cases items <;> cases member
  | succ fuel ih =>
    intro items member
    cases items with
    | nil => cases member
    | cons item rest =>
      rcases List.mem_cons.mp member with rfl | later
      · refine ⟨?_, List.length_take_le size _⟩
        simp only [ne_eq, List.take_eq_nil_iff, reduceCtorEq, or_false]
        omega
      · exact ih _ later

theorem mem_chunks (positive : 0 < size) {items chunk : List α}
    (member : chunk ∈ chunks size items) :
    chunk ≠ [] ∧ chunk.length ≤ size ∧ ∀ item ∈ chunk, item ∈ items := by
  obtain ⟨nonempty, short⟩ := mem_chunksLoop positive _ _ member
  refine ⟨nonempty, short, fun item inside => ?_⟩
  rw [← chunks_flatten size positive items]
  exact List.mem_flatten.mpr ⟨chunk, member, inside⟩

end Rdns.Lib
