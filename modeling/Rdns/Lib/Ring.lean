import Mathlib.Data.List.Rotate
import Mathlib.Data.List.Sort

/-!
# Sorted rings

Distinct values in increasing order, each linked to the next one and the last
one to the first.  The links cut the whole order into ranges: between two
neighbours, and one that wraps around the ends.  A value that is no member lies
in one range only; at the members the two ways to close a range differ, and the
open ranges hold no member.
-/

set_option autoImplicit false

namespace Rdns.Lib

/-! ## Removing equal neighbours -/

/-- `Vec::dedup`: of equal neighbours only the first stays. -/
def dedup {α : Type} [DecidableEq α] : List α → List α
  | [] => []
  | [value] => [value]
  | first :: second :: rest =>
    if first = second then dedup (second :: rest) else first :: dedup (second :: rest)

theorem mem_dedup {α : Type} [DecidableEq α] (value : α) (values : List α) :
    value ∈ dedup values ↔ value ∈ values := by
  fun_induction dedup values with
  | case1 => rfl
  | case2 => rfl
  | case3 second rest ih =>
    rw [ih]
    simp
  | case4 first second rest _ ih => simp only [List.mem_cons, ih]

/-- The loop of `Vec::dedup_by_key` after an element that stays. -/
def dedupAfter {α κ : Type} [DecidableEq κ] (key : α → κ) : α → List α → List α
  | _, [] => []
  | last, value :: rest =>
    if key value = key last then dedupAfter key last rest else value :: dedupAfter key value rest

/-- `Vec::dedup_by_key`: of neighbours with equal keys only the first stays. -/
def dedupByKey {α κ : Type} [DecidableEq κ] (key : α → κ) : List α → List α
  | [] => []
  | first :: rest => first :: dedupAfter key first rest

theorem dedupByKey_sublist {α κ : Type} [DecidableEq κ] (key : α → κ) (values : List α) :
    (dedupByKey key values).Sublist values := by
  have after : ∀ (rest : List α) (last : α), (dedupAfter key last rest).Sublist rest := by
    intro rest
    induction rest with
    | nil =>
      intro last
      exact List.Sublist.refl _
    | cons value rest ih =>
      intro last
      unfold dedupAfter
      split
      · exact (ih last).cons value
      · exact (ih value).cons_cons value
  cases values with
  | nil => exact List.Sublist.refl _
  | cons first rest => exact (after rest first).cons_cons first

theorem exists_mem_dedupByKey {α κ : Type} [DecidableEq κ] (key : α → κ) {values : List α}
    {value : α} (member : value ∈ values) :
    ∃ kept ∈ dedupByKey key values, key kept = key value := by
  have after : ∀ (rest : List α) (last : α), ∀ value ∈ rest,
      key value = key last ∨ ∃ kept ∈ dedupAfter key last rest, key kept = key value := by
    intro rest
    induction rest with
    | nil =>
      intro last value member
      cases member
    | cons first rest ih =>
      intro last value member
      unfold dedupAfter
      split
      · rename_i same
        rcases List.mem_cons.mp member with rfl | inside
        · exact Or.inl same
        · exact ih last value inside
      · right
        rcases List.mem_cons.mp member with rfl | inside
        · exact ⟨value, List.mem_cons_self, rfl⟩
        · rcases ih first value inside with same | ⟨kept, listed, same⟩
          · exact ⟨first, List.mem_cons_self, same.symm⟩
          · exact ⟨kept, List.mem_cons_of_mem _ listed, same⟩
  cases values with
  | nil => cases member
  | cons first rest =>
    rcases List.mem_cons.mp member with rfl | inside
    · exact ⟨value, List.mem_cons_self, rfl⟩
    · rcases after rest first value inside with same | ⟨kept, listed, same⟩
      · exact ⟨first, List.mem_cons_self, same.symm⟩
      · exact ⟨kept, List.mem_cons_of_mem _ listed, same⟩

/-- Grouping by distinct keys moves values and loses none. -/
theorem flatMap_filter_perm {α κ : Type} [DecidableEq κ] (key : α → κ) (keys : List κ)
    (distinct : keys.Nodup) :
    ∀ values : List α, (∀ value ∈ values, key value ∈ keys) →
      (keys.flatMap fun wanted => values.filter fun value => key value = wanted).Perm values := by
  induction keys with
  | nil =>
    intro values covered
    cases values with
    | nil => exact .nil
    | cons value rest => exact nomatch covered value List.mem_cons_self
  | cons first rest ih =>
    intro values covered
    obtain ⟨fresh, distinct⟩ := List.nodup_cons.mp distinct
    have others : (rest.flatMap fun wanted => values.filter fun value => key value = wanted) =
        rest.flatMap fun wanted => (values.filter fun value => !decide (key value = first)).filter
          fun value => key value = wanted := by
      refine List.flatMap_congr fun wanted member => ?_
      rw [List.filter_filter]
      refine List.filter_congr fun value _ => ?_
      by_cases same : key value = wanted
      · have apart : key value ≠ first := by
          intro first
          rw [← first, same] at fresh
          exact fresh member
        simp [same, same ▸ apart]
      · simp [same]
    rw [List.flatMap_cons, others]
    refine (List.Perm.append_left _ (ih distinct _ ?_)).trans
      (List.filter_append_perm (fun value => decide (key value = first)) values)
    intro value member
    obtain ⟨inside, apart⟩ := List.mem_filter.mp member
    rcases List.mem_cons.mp (covered value inside) with same | listed
    · simp [same] at apart
    · exact listed

section Order

variable {α : Type} [LE α] [LT α] [Std.IsLinearOrder α] [Std.LawfulOrderLT α] {members : List α}

/-- Where equal keys mean equal values, a sorted list becomes strictly sorted. -/
theorem dedup_strict {β : Type} [DecidableEq β] {key : β → α} (exact : key.Injective)
    {values : List β} (sorted : values.Pairwise fun left right => key left ≤ key right) :
    (dedup values).Pairwise fun left right => key left < key right := by
  fun_induction dedup values with
  | case1 => exact .nil
  | case2 value => exact List.pairwise_singleton _ _
  | case3 second rest ih => exact ih (List.pairwise_cons.mp sorted).2
  | case4 first second rest differ ih =>
    obtain ⟨below, later⟩ := List.pairwise_cons.mp sorted
    refine List.pairwise_cons.mpr ⟨fun value member => ?_, ih later⟩
    have bound := below second (by simp)
    have keys : key first ≠ key second := fun same => differ (exact same)
    have upper : key second ≤ key value := by
      rcases List.mem_cons.mp ((mem_dedup _ _).mp member) with same | inside
      · rw [same]
        exact Std.le_refl _
      · exact (List.pairwise_cons.mp later).1 value inside
    grind

theorem dedupAfter_strict {β : Type} [DecidableEq α] {key : β → α} :
    ∀ (values : List β) (last : β), (∀ value ∈ values, key last ≤ key value) →
      (values.Pairwise fun left right => key left ≤ key right) →
      (∀ value ∈ dedupAfter key last values, key last < key value) ∧
        (dedupAfter key last values).Pairwise fun left right => key left < key right := by
  intro values
  induction values with
  | nil =>
    intro last _ _
    exact ⟨by simp [dedupAfter], List.Pairwise.nil⟩
  | cons first rest ih =>
    intro last lower sorted
    obtain ⟨below, later⟩ := List.pairwise_cons.mp sorted
    unfold dedupAfter
    split
    · exact ih last (fun value member => lower value (by simp [member])) later
    rename_i differ
    obtain ⟨above, strict⟩ := ih first below later
    have bound := lower first (by simp)
    refine ⟨fun value member => ?_, List.pairwise_cons.mpr ⟨above, strict⟩⟩
    rcases List.mem_cons.mp member with same | inside
    · rw [same]
      grind
    · have := above value inside
      grind

theorem dedupByKey_strict {β : Type} [DecidableEq α] {key : β → α} {values : List β}
    (sorted : values.Pairwise fun left right => key left ≤ key right) :
    (dedupByKey key values).Pairwise fun left right => key left < key right := by
  cases values with
  | nil => exact .nil
  | cons first rest =>
    obtain ⟨below, later⟩ := List.pairwise_cons.mp sorted
    obtain ⟨above, strict⟩ := dedupAfter_strict rest first below later
    exact List.pairwise_cons.mpr ⟨above, strict⟩

/-! ## Links -/

omit [LE α] [LT α] [Std.IsLinearOrder α] [Std.LawfulOrderLT α] in
def links (members : List α) : List (α × α) := members.zip (members.rotate 1)

omit [LE α] [LT α] [Std.IsLinearOrder α] [Std.LawfulOrderLT α] in
theorem links_cons (first : α) (rest : List α) :
    links (first :: rest) = (first :: rest).zip (rest ++ [first]) := by
  rw [links, List.rotate_cons_succ, List.rotate_zero]

omit [LE α] [LT α] [Std.IsLinearOrder α] [Std.LawfulOrderLT α] in
theorem getElem?_links {i : Nat} {link : α × α} (found : (links members)[i]? = some link) :
    members[i]? = some link.1 ∧ members[(i + 1) % members.length]? = some link.2 := by
  obtain ⟨own, next⟩ := List.getElem?_zip_eq_some.mp found
  have inside : i < members.length := (List.getElem?_eq_some_iff.mp own).1
  rw [List.getElem?_rotate inside] at next
  exact ⟨own, next⟩

omit [LE α] [LT α] [Std.IsLinearOrder α] [Std.LawfulOrderLT α] in
theorem exists_link {i : Nat} {member : α} (found : members[i]? = some member) :
    ∃ next, (links members)[i]? = some (member, next) := by
  have inside : i < members.length := (List.getElem?_eq_some_iff.mp found).1
  have after : i < (members.rotate 1).length := by
    rw [List.length_rotate]
    exact inside
  exact ⟨_, List.getElem?_zip_eq_some.mpr ⟨found, List.getElem?_eq_getElem after⟩⟩

/-- After the owner, up to and including the next member. -/
def Follows (owner next value : α) : Prop :=
  (owner < next → owner < value ∧ value ≤ next) ∧ (¬ owner < next → owner < value ∨ value ≤ next)

/-- From the owner on, up to but not including the next member. -/
def Encloses (owner next value : α) : Prop :=
  (owner < next → owner ≤ value ∧ value < next) ∧ (¬ owner < next → owner ≤ value ∨ value < next)

def Within (owner next value : α) : Prop :=
  (owner < next → owner < value ∧ value < next) ∧ (¬ owner < next → owner < value ∨ value < next)

theorem Follows.within {owner next value : α} (follows : Follows owner next value)
    (differs : value ≠ next) : Within owner next value := by
  have strict : value ≤ next → value < next := fun below => Std.lt_of_le_of_ne below differs
  exact ⟨fun ordered => (follows.1 ordered).imp_right strict,
    fun wrapped => (follows.2 wrapped).imp_right strict⟩

omit [Std.IsLinearOrder α] [Std.LawfulOrderLT α] [LE α] [LT α] in
theorem mem_links_of_next {value : α} (member : value ∈ members) :
    ∃ owner, (owner, value) ∈ links members := by
  have rotated : value ∈ members.rotate 1 := List.mem_rotate.mpr member
  obtain ⟨index, inside, found⟩ := List.mem_iff_getElem.mp rotated
  have bound : index < members.length := by simpa using inside
  refine ⟨members[index], ?_⟩
  rw [links, ← found]
  exact List.mem_iff_getElem.mpr ⟨index, by simpa using bound, by simp⟩

omit [LE α] [LT α] [Std.IsLinearOrder α] [Std.LawfulOrderLT α] in
theorem arc_last (base : α) :
    ∀ (rest : List α) (first : α),
      ∃ link, ((first :: rest).zip (rest ++ [base])).getLast? = some link ∧ link.2 = base := by
  intro rest
  induction rest with
  | nil =>
    intro first
    exact ⟨(first, base), rfl, rfl⟩
  | cons second rest ih =>
    intro first
    obtain ⟨link, last, back⟩ := ih second
    refine ⟨link, ?_, back⟩
    change ((first, second) :: (second :: rest).zip (rest ++ [base])).getLast? = _
    rw [List.getLast?_cons, last]
    rfl

theorem arc_link {base : α} :
    ∀ (rest : List α) (first : α), (first :: rest).Pairwise (· < ·) →
      ∀ link ∈ (first :: rest).zip (rest ++ [base]),
        first ≤ link.1 ∧
          (link.1 < link.2 ∨ ((first :: rest).zip (rest ++ [base])).getLast? = some link) := by
  intro rest
  induction rest with
  | nil =>
    intro first _ link member
    obtain rfl : link = (first, base) := by simpa using member
    exact ⟨Std.le_refl _, Or.inr rfl⟩
  | cons second rest ih =>
    intro first sorted link member
    obtain ⟨below, later⟩ := List.pairwise_cons.mp sorted
    have step := below second (by simp)
    rcases List.mem_cons.mp member with same | inside
    · rw [same]
      exact ⟨Std.le_refl _, Or.inl step⟩
    · obtain ⟨lower, direction⟩ := ih second later link inside
      refine ⟨Std.le_of_lt (Std.lt_of_lt_of_le step lower), direction.imp_right fun last => ?_⟩
      change ((first, second) :: (second :: rest).zip (rest ++ [base])).getLast? = _
      rw [List.getLast?_cons, last]
      rfl

/-- The part of a ring from one of its members on: a value after that member
follows exactly one link. -/
theorem arc_follows_unique {base value : α} :
    ∀ (rest : List α) (first : α), (first :: rest).Pairwise (· < ·) → base ≤ first →
      first < value →
      ∃! link, link ∈ (first :: rest).zip (rest ++ [base]) ∧ Follows link.1 link.2 value := by
  intro rest
  induction rest with
  | nil =>
    intro first _ lower after
    refine ⟨(first, base), ⟨by simp, ?_⟩, fun link known => by simpa using known.1⟩
    unfold Follows
    grind
  | cons second rest ih =>
    intro first sorted lower after
    obtain ⟨below, later⟩ := List.pairwise_cons.mp sorted
    have step := below second (by simp)
    change ∃! link, link ∈ (first, second) :: (second :: rest).zip (rest ++ [base]) ∧ _
    by_cases here : value ≤ second
    · refine ⟨(first, second), ⟨by simp, by unfold Follows; grind⟩, fun link known => ?_⟩
      rcases List.mem_cons.mp known.1 with same | inside
      · exact same
      · -- a later link starts at or after the value, and the one that goes back ends before it
        obtain ⟨start, direction⟩ := arc_link rest second later link inside
        have follows := known.2
        unfold Follows at follows
        rcases direction with up | last
        · have := (follows.1 up).1
          grind
        · obtain ⟨_, same, back⟩ := arc_last base rest second
          obtain rfl := Option.some.inj (same.symm.trans last)
          rw [back] at follows
          grind
    · obtain ⟨link, known, only⟩ := ih second later (by grind) (by grind)
      refine ⟨link, ⟨by simp [known.1], known.2⟩, fun other claim => ?_⟩
      rcases List.mem_cons.mp claim.1 with same | inside
      · have follows := claim.2
        rw [same] at follows
        unfold Follows at follows
        grind
      · exact only other ⟨inside, claim.2⟩

/-- Every value follows exactly one link, also a member: its predecessor's. -/
theorem follows_unique (some : members ≠ []) (sorted : members.Pairwise (· < ·)) (value : α) :
    ∃! link, link ∈ links members ∧ Follows link.1 link.2 value := by
  obtain ⟨first, rest, rfl⟩ := List.exists_cons_of_ne_nil some
  rw [links_cons]
  by_cases after : first < value
  · exact arc_follows_unique rest first sorted (Std.le_refl _) after
  -- up to the first member only the link that goes back reaches
  obtain ⟨link, last, back⟩ := arc_last first rest first
  have member := List.mem_of_getLast? last
  have lower := (arc_link rest first sorted link member).1
  refine ⟨link, ⟨member, ?_⟩, fun other known => ?_⟩
  · unfold Follows
    grind
  · obtain ⟨start, direction⟩ := arc_link rest first sorted other known.1
    have follows := known.2
    unfold Follows at follows
    rcases direction with up | ends
    · grind
    · exact Option.some.inj (ends.symm.trans last)

theorem not_within_of_mem (sorted : members.Pairwise (· < ·)) {value : α} (member : value ∈ members)
    {link : α × α} (linked : link ∈ links members) : ¬ Within link.1 link.2 value := by
  intro within
  obtain ⟨owner, before⟩ := mem_links_of_next member
  have ends : Follows owner value value := by
    unfold Follows
    grind
  have follows : Follows link.1 link.2 value := by
    unfold Within at within
    unfold Follows
    grind
  -- the only link a member follows is the one that ends there
  have same : link = (owner, value) :=
    (follows_unique (List.ne_nil_of_mem member) sorted value).unique ⟨linked, follows⟩
      ⟨before, ends⟩
  rw [same] at within
  unfold Within at within
  grind

/-- Searching a part of a ring from its first member, at or after which the value
lies: the last member not after the value encloses it. -/
theorem arc_encloses [DecidableLE α] {base value : α} :
    ∀ (rest : List α) (first : α), (first :: rest).Pairwise (· < ·) → base ≤ first →
      first ≤ value →
      ∃ link, (((first :: rest).zip (rest ++ [base])).takeWhile
          fun link => link.1 ≤ value).getLast? = some link ∧ Encloses link.1 link.2 value := by
  intro rest
  induction rest with
  | nil =>
    intro first _ lower after
    refine ⟨(first, base), by simp [after], ?_⟩
    unfold Encloses
    grind
  | cons second rest ih =>
    intro first sorted lower after
    obtain ⟨below, later⟩ := List.pairwise_cons.mp sorted
    have step := below second (by simp)
    change ∃ link, (((first, second) :: (second :: rest).zip (rest ++ [base])).takeWhile
      fun link => link.1 ≤ value).getLast? = some link ∧ _
    rw [List.takeWhile_cons_of_pos (by simpa using after)]
    by_cases here : second ≤ value
    · obtain ⟨link, found, encloses⟩ := ih second later (by grind) here
      refine ⟨link, ?_, encloses⟩
      rw [List.getLast?_cons, found]
      rfl
    · -- the next member is already after the value
      refine ⟨(first, second), ?_, by unfold Encloses; grind⟩
      have stops : ((second :: rest).zip (rest ++ [base])).takeWhile
          (fun link => link.1 ≤ value) = [] := by
        cases rest <;> simp [here]
      rw [stops]
      rfl

omit [LE α] [LT α] [Std.IsLinearOrder α] [Std.LawfulOrderLT α] in
/-- The last item of the leading ones that pass the test, or else the last of all. -/
def search (test : α → Bool) (items : List α) : Option α :=
  (items.takeWhile test).getLast? <|> items.getLast?

omit [LE α] [LT α] [Std.IsLinearOrder α] [Std.LawfulOrderLT α] in
theorem search_map {β : Type} (change : β → α) (test : α → Bool) (items : List β) :
    search test (items.map change) = (search (test ∘ change) items).map change := by
  rw [search, search, List.takeWhile_map, List.getLast?_map, List.getLast?_map]
  cases (items.takeWhile (test ∘ change)).getLast? <;> rfl

omit [LE α] [LT α] [Std.IsLinearOrder α] [Std.LawfulOrderLT α] in
theorem mem_of_search {test : α → Bool} {items : List α} {item : α}
    (found : search test items = some item) : item ∈ items := by
  unfold search at found
  cases leading : (items.takeWhile test).getLast? with
  | none =>
    rw [leading] at found
    exact List.mem_of_getLast? found
  | some other =>
    rw [leading] at found
    cases found
    exact (List.takeWhile_prefix test).subset (List.mem_of_getLast? leading)

/-- The search over a whole ring, with the last link for values before the first
member. -/
theorem search_encloses [DecidableLE α] (some : members ≠ []) (sorted : members.Pairwise (· < ·))
    (value : α) :
    ∃ link, search (fun link => link.1 ≤ value) (links members) = .some link ∧
      Encloses link.1 link.2 value := by
  obtain ⟨first, rest, rfl⟩ := List.exists_cons_of_ne_nil some
  rw [links_cons, search]
  by_cases after : first ≤ value
  · obtain ⟨link, found, encloses⟩ :=
      arc_encloses rest first sorted (Std.le_refl _) after
    exact ⟨link, by rw [found]; rfl, encloses⟩
  obtain ⟨link, last, back⟩ := arc_last first rest first
  have lower := (arc_link rest first sorted link (List.mem_of_getLast? last)).1
  have stops : ((first :: rest).zip (rest ++ [first])).takeWhile
      (fun link => link.1 ≤ value) = [] := by
    cases rest <;> simp [after]
  refine ⟨link, by rw [stops, last]; rfl, ?_⟩
  unfold Encloses
  grind

omit [LE α] [LT α] [Std.IsLinearOrder α] [Std.LawfulOrderLT α] in
theorem links_map {β : Type} (change : β → α) (members : List β) :
    links (members.map change) = (links members).map (Prod.map change change) := by
  rw [links, links, ← List.map_rotate, List.zip_map]

end Order

end Rdns.Lib
