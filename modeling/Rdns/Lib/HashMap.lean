import Mathlib.Data.List.AList

/-!
# Finite maps

A hash map is an association list with distinct keys.  The order of the entries
stands for the iteration order of the hash table, which its users may not rely
on: results proved for every map are proved for every order.  A map that may lose
entries is compared with the function it would be without the losses.
-/

set_option autoImplicit false

namespace Rdns.Lib

abbrev HashMap (κ ν : Type) := AList fun _ : κ => ν

namespace HashMap

variable {κ ν : Type} [DecidableEq κ]

def empty : HashMap κ ν := ∅

def get? (map : HashMap κ ν) (key : κ) : Option ν := AList.lookup key map

def containsKey (map : HashMap κ ν) (key : κ) : Bool := (map.get? key).isSome

def insert (map : HashMap κ ν) (key : κ) (value : ν) : HashMap κ ν := AList.insert key value map

def remove (map : HashMap κ ν) (key : κ) : HashMap κ ν := AList.erase key map

/-- `get_mut` followed by an in-place change. -/
def modify (map : HashMap κ ν) (key : κ) (change : ν → ν) : HashMap κ ν :=
  match map.get? key with
  | none => map
  | some value => map.insert key (change value)

/-- `entry(key).or_default()` followed by an in-place change. -/
def upsert [Inhabited ν] (map : HashMap κ ν) (key : κ) (change : ν → ν) : HashMap κ ν :=
  map.insert key (change ((map.get? key).getD default))

omit [DecidableEq κ] in
def retain (map : HashMap κ ν) (keep : κ → ν → Bool) : HashMap κ ν :=
  ⟨map.entries.filter fun entry => keep entry.1 entry.2,
    map.nodupKeys.sublist List.filter_sublist⟩

omit [DecidableEq κ] in
def keys (map : HashMap κ ν) : List κ := AList.keys map

omit [DecidableEq κ] in
def len (map : HashMap κ ν) : Nat := map.entries.length

omit [DecidableEq κ] in
def values (map : HashMap κ ν) : List ν := map.entries.map Sigma.snd

variable (map : HashMap κ ν)

theorem mem_entries_iff (key : κ) (value : ν) :
    (⟨key, value⟩ : Σ _ : κ, ν) ∈ map.entries ↔ map.get? key = some value :=
  (AList.mem_lookup_iff (s := map)).symm

@[simp] theorem get?_empty (key : κ) : (empty : HashMap κ ν).get? key = none := rfl

theorem get?_insert (key other : κ) (value : ν) :
    (map.insert key value).get? other = if other = key then some value else map.get? other := by
  by_cases same : other = key
  · subst same
    rw [if_pos rfl]
    exact AList.lookup_insert map
  · rw [if_neg same]
    exact AList.lookup_insert_ne same

theorem get?_remove (key other : κ) :
    (map.remove key).get? other = if other = key then none else map.get? other := by
  by_cases same : other = key
  · subst same
    rw [if_pos rfl]
    exact AList.lookup_erase other map
  · rw [if_neg same]
    exact AList.lookup_erase_ne same

theorem get?_modify (key other : κ) (change : ν → ν) :
    (map.modify key change).get? other =
      if other = key then (map.get? key).map change else map.get? other := by
  unfold modify
  cases found : map.get? key with
  | none =>
    by_cases same : other = key
    · subst same
      simp [found]
    · simp [same]
  | some value => simp [get?_insert]

theorem get?_upsert [Inhabited ν] (key other : κ) (change : ν → ν) :
    (map.upsert key change).get? other =
      if other = key then some (change ((map.get? key).getD default)) else map.get? other :=
  get?_insert map key other _

theorem get?_retain (keep : κ → ν → Bool) (key : κ) :
    (map.retain keep).get? key = (map.get? key).filter (keep key) := by
  apply Option.ext
  intro value
  rw [← mem_entries_iff, Option.filter_eq_some_iff, ← mem_entries_iff]
  simp [retain]

theorem values_insert (key : κ) (value : ν) :
    (map.insert key value).values = value :: (map.remove key).values := by
  rw [values, insert, AList.entries_insert]
  rfl

theorem remove_of_get?_eq_none {map : HashMap κ ν} {key : κ} (missing : map.get? key = none) :
    map.remove key = map := by
  apply AList.ext
  exact List.kerase_of_notMem_keys (AList.lookup_eq_none.mp missing)

theorem values_perm_of_get? {map : HashMap κ ν} {key : κ} {value : ν}
    (found : map.get? key = some value) :
    map.values.Perm (value :: (map.remove key).values) := by
  have stored : AList.lookup key map = some value := found
  have inside : key ∈ map.entries.keys :=
    AList.mem_keys.mp (AList.lookup_isSome.mp (by rw [stored]; rfl))
  obtain ⟨other, before, after, _, entries, rest⟩ := List.exists_of_kerase inside
  have same : other = value := by
    have member : (⟨key, other⟩ : Σ _ : κ, ν) ∈ map.entries := by
      rw [entries]
      simp
    exact Option.some.inj (((mem_entries_iff map key other).mp member).symm.trans found)
  have removed : (map.remove key).entries = before ++ after := rest
  rw [values, values, entries, removed, same, List.map_append, List.map_cons, List.map_append]
  exact List.perm_middle

theorem get?_of_removeAll {keys : List κ} {map : HashMap κ ν} {key : κ} {value : ν}
    (found : (keys.foldl HashMap.remove map).get? key = some value) :
    map.get? key = some value := by
  induction keys generalizing map with
  | nil => exact found
  | cons first rest ih =>
    have kept : (map.remove first).get? key = some value := ih found
    rw [get?_remove] at kept
    split at kept
    · cases kept
    · exact kept

theorem get?_of_perm {map map' : HashMap κ ν} (shuffled : map.entries.Perm map'.entries) (key : κ) :
    map.get? key = map'.get? key :=
  AList.perm_lookup shuffled

/-! ## Sizes -/

theorem get?_collect {μ : Type} (compute : κ → ν → Option μ) {map : HashMap κ ν}
    {values : List (κ × μ)} (done : (map.entries.mapM fun entry => do
      let value ← compute entry.1 entry.2
      pure (entry.1, value)) = some values) (key : κ) :
    (values.foldl (fun built entry => built.insert entry.1 entry.2) empty).get? key =
      (map.get? key).bind (compute key) := by
  have each : ∀ (entries : List (Sigma fun _ : κ => ν)) (values : List (κ × μ))
      (built : HashMap κ μ), entries.NodupKeys →
      (entries.mapM fun entry => do
        let value ← compute entry.1 entry.2
        pure (entry.1, value)) = some values →
      (values.foldl (fun built entry => built.insert entry.1 entry.2) built).get? key =
        match entries.dlookup key with
        | some value => compute key value
        | none => built.get? key := by
    intro entries
    induction entries with
    | nil =>
      intro values built _ done
      cases done
      rfl
    | cons entry rest ih =>
      intro values built distinct done
      obtain ⟨fresh, distinct⟩ := List.nodupKeys_cons.mp distinct
      rw [List.mapM_cons] at done
      obtain ⟨first, computed, done⟩ := Option.bind_eq_some_iff.mp done
      obtain ⟨others, later, same⟩ := Option.bind_eq_some_iff.mp done
      obtain ⟨value, here, pair⟩ := Option.bind_eq_some_iff.mp computed
      cases same
      cases pair
      rw [List.foldl_cons, ih others _ distinct later, get?_insert]
      by_cases same : key = entry.1
      · subst same
        rw [List.dlookup_eq_none.mpr fresh, List.dlookup_cons_eq, if_pos rfl]
        exact here.symm
      · rw [List.dlookup_cons_ne _ _ same, if_neg same]
  have built := each map.entries values empty map.nodupKeys done
  have found : map.get? key = map.entries.dlookup key := rfl
  rw [built, found]
  cases map.entries.dlookup key with
  | none => rfl
  | some value => rfl

theorem containsKey_iff (key : κ) : map.containsKey key = true ↔ key ∈ map.keys :=
  AList.lookup_isSome.trans AList.mem_keys.symm

omit [DecidableEq κ] in
theorem length_keys : map.keys.length = map.len := List.length_map _

theorem len_remove (key : κ) :
    (map.remove key).len = if map.containsKey key then map.len - 1 else map.len := by
  have keys : (map.remove key).keys = map.keys.erase key := List.keys_kerase
  rw [← length_keys, ← length_keys, keys]
  by_cases present : map.containsKey key = true
  · rw [if_pos present, List.length_erase_of_mem ((containsKey_iff map key).mp present)]
  · rw [if_neg present, List.erase_of_not_mem fun member =>
      present ((containsKey_iff map key).mpr member)]

theorem len_insert (key : κ) (value : ν) :
    (map.insert key value).len = if map.containsKey key then map.len else map.len + 1 := by
  have entries : (map.insert key value).len = (map.remove key).len + 1 := by
    rw [len, insert, AList.entries_insert]
    rfl
  rw [entries, len_remove]
  by_cases present : map.containsKey key = true
  · have filled : 0 < map.len := by
      rw [← length_keys]
      exact List.length_pos_of_mem ((containsKey_iff map key).mp present)
    rw [if_pos present, if_pos present]
    omega
  · rw [if_neg present, if_neg present]

omit [DecidableEq κ] in
theorem len_retain_le (keep : κ → ν → Bool) : (map.retain keep).len ≤ map.len :=
  List.length_filter_le _ _

theorem len_removeAll_le (keys : List κ) (map : HashMap κ ν) :
    (keys.foldl HashMap.remove map).len ≤ map.len := by
  induction keys generalizing map with
  | nil => exact Nat.le_refl _
  | cons first rest ih =>
    refine Nat.le_trans (ih (map.remove first)) ?_
    rw [len_remove]
    split <;> omega

/-! ## Maps that lose entries -/

def Below (map : HashMap κ ν) (full : κ → Option ν) : Prop :=
  ∀ key value, map.get? key = some value → full key = some value

namespace Below

variable {map : HashMap κ ν} {full : κ → Option ν}

theorem empty (full : κ → Option ν) : Below HashMap.empty full := by
  intro key value found
  cases found

theorem of_perm {map' : HashMap κ ν} (shuffled : map'.entries.Perm map.entries)
    (below : Below map full) : Below map' full := by
  intro key value found
  rw [get?_of_perm shuffled] at found
  exact below key value found

theorem remove (key : κ) (below : Below map full) : Below (map.remove key) full := by
  intro other value found
  rw [get?_remove] at found
  split at found
  · cases found
  · exact below other value found

theorem removeAll (keys : List κ) (below : Below map full) :
    Below (keys.foldl HashMap.remove map) full :=
  fun key value found => below key value (get?_of_removeAll found)

theorem retain (keep : κ → ν → Bool) (below : Below map full) : Below (map.retain keep) full := by
  intro key value found
  rw [get?_retain] at found
  exact below key value (Option.filter_eq_some_iff.mp found).1

theorem insert {full' : κ → Option ν} {key : κ} {value : ν} (below : Below map full)
    (here : full' key = some value) (others : ∀ other, other ≠ key → full' other = full other) :
    Below (map.insert key value) full' := by
  intro other found stored
  rw [get?_insert] at stored
  split at stored
  · rename_i same
    cases stored
    rw [same]
    exact here
  · rename_i apart
    rw [others other apart]
    exact below other found stored

end Below

end HashMap

end Rdns.Lib
