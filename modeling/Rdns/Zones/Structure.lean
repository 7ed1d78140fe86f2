import Rdns.Zones.Soa

/-!
# The structure of the zone store

Every node of the map holds records of its own name only, lies at or below the
origin and is never empty, and the count is the number of stored records.  A node
that is present but empty would turn NXDOMAIN into NODATA, so each edit has to
clean up after itself; in between, an update record may leave an empty node
behind, which is why the clauses are kept apart.
-/

set_option autoImplicit false

namespace Rdns.Zones

open Rdns.Lib Rdns.Proto

variable {name : DnsName} {zone zone' : Zone} {rtype : String}

def Placed (origin : DnsName) (records : Records) : Prop :=
  ∀ name node, records.get? name = some node →
    (∀ record ∈ node, record.name = name) ∧ name.endsWith origin = true

def Occupied (records : Records) : Prop :=
  ∀ name node, records.get? name = some node → node ≠ []

def storedCount (records : Records) : Nat := (records.values.map List.length).sum

structure Structured (zone : Zone) : Prop where
  placed : Placed zone.origin zone.records
  occupied : Occupied zone.records
  counted : zone.recordCount = storedCount zone.records

/-! ## Changes of a single node -/

section Placed

variable {origin : DnsName} {records : Records}

theorem placed_insert {node : List Record} (placed : Placed origin records)
    (owned : ∀ record ∈ node, record.name = name) (below : name.endsWith origin = true) :
    Placed origin (records.insert name node) := by
  intro other stored found
  rw [HashMap.get?_insert] at found
  split at found
  · rename_i same
    cases found
    rw [same]
    exact ⟨owned, below⟩
  · exact placed other stored found

theorem placed_remove (name : DnsName) (placed : Placed origin records) :
    Placed origin (records.remove name) := by
  intro other stored found
  rw [HashMap.get?_remove] at found
  split at found
  · cases found
  · exact placed other stored found

theorem placed_modify {change : List Record → List Record} (placed : Placed origin records)
    (owned : ∀ node, (∀ record ∈ node, record.name = name) →
      ∀ record ∈ change node, record.name = name) : Placed origin (records.modify name change) := by
  unfold HashMap.modify
  split
  · exact placed
  · rename_i node found
    obtain ⟨before, below⟩ := placed name node found
    exact placed_insert placed (owned node before) below

theorem node_owned (placed : Placed origin records) (name : DnsName) :
    ∀ record ∈ (records.get? name).getD [], record.name = name := by
  intro record member
  cases found : records.get? name with
  | none =>
    rw [found] at member
    cases member
  | some node =>
    rw [found] at member
    exact (placed name node found).1 record member

theorem placed_upsert {change : List Record → List Record} (placed : Placed origin records)
    (below : name.endsWith origin = true)
    (owned : ∀ node, (∀ record ∈ node, record.name = name) →
      ∀ record ∈ change node, record.name = name) : Placed origin (records.upsert name change) :=
  placed_insert placed (owned _ (node_owned placed name)) below

end Placed

theorem occupied_insert {records : Records} {node : List Record} (occupied : Occupied records)
    (filled : node ≠ []) : Occupied (records.insert name node) := by
  intro other stored found
  rw [HashMap.get?_insert] at found
  split at found
  · cases found
    exact filled
  · exact occupied other stored found

theorem occupied_remove {records : Records} (name : DnsName) (occupied : Occupied records) :
    Occupied (records.remove name) := by
  intro other stored found
  rw [HashMap.get?_remove] at found
  split at found
  · cases found
  · exact occupied other stored found

/-! ## The count -/

theorem storedCount_insert (records : Records) (name : DnsName) (node : List Record) :
    storedCount (records.insert name node) = node.length + storedCount (records.remove name) := by
  rw [storedCount, HashMap.values_insert, List.map_cons, List.sum_cons]
  rfl

theorem storedCount_remove (records : Records) (name : DnsName) :
    storedCount records =
      ((records.get? name).getD []).length + storedCount (records.remove name) := by
  cases found : records.get? name with
  | none =>
    rw [HashMap.remove_of_get?_eq_none found]
    exact (Nat.zero_add _).symm
  | some node =>
    have split := (HashMap.values_perm_of_get? found).map List.length
    exact split.sum_eq

theorem storedCount_upsert (records : Records) (name : DnsName) (record : Record) :
    storedCount (records.upsert name (· ++ [record])) = storedCount records + 1 := by
  rw [storedCount_remove records name, HashMap.upsert, storedCount_insert, List.length_append]
  change ((records.get? name).getD []).length + 1 + _ = _
  omega

theorem storedCount_modify (records : Records) (name : DnsName)
    (change : List Record → List Record) (same : ∀ node, (change node).length = node.length) :
    storedCount (records.modify name change) = storedCount records := by
  unfold HashMap.modify
  split
  · rfl
  · rename_i node found
    rw [storedCount_insert, storedCount_remove records name, found, same]
    rfl

theorem recount_counted (zone : Zone) :
    zone.recount.recordCount = storedCount zone.recount.records := rfl

/-! ## Construction -/

theorem collect_structured (origin : DnsName) :
    ∀ (all : List Record) (soa : Option Record) (records : Records) (count : Nat)
      (soa' : Option Record) (records' : Records) (count' : Nat),
      Zone.collect origin all soa records count = .ok (soa', records', count') →
      Placed origin records ∧ Occupied records ∧ count = storedCount records ∧
        (∀ record, soa = some record → record.name = origin) →
      Placed origin records' ∧ Occupied records' ∧ count' = storedCount records' ∧
        (∀ record, soa' = some record → record.name = origin) := by
  intro all
  induction all with
  | nil =>
    intro soa records count soa' records' count' collected kept
    cases collected
    exact kept
  | cons record rest ih =>
    intro soa records count soa' records' count' collected kept
    obtain ⟨placed, occupied, counted, owner⟩ := kept
    unfold Zone.collect at collected
    split at collected
    · cases collected
    rename_i inside
    split at collected
    · cases collected
    rename_i proper
    split at collected
    · cases collected
    refine ih _ _ _ _ _ _ collected ⟨?_, ?_, ?_, ?_⟩
    · refine placed_upsert placed (by simpa using inside) fun node owned other member => ?_
      rcases List.mem_append.mp member with member | member
      · exact owned other member
      · rw [List.mem_singleton.mp member]
    · exact occupied_insert occupied (by simp)
    · rw [storedCount_upsert, counted]
    · intro other chosen
      split at chosen
      · rename_i soaType
        cases chosen
        by_contra elsewhere
        exact proper ⟨soaType, elsewhere⟩
      · exact owner other chosen

/-- The SOA field is owned by the origin, so that the copy the serial bump writes
into the map belongs there. -/
def SoaOwned (zone : Zone) : Prop := zone.soa.name = zone.origin

def Kept (zone : Zone) : Prop := Structured zone ∧ SoaOwned zone

theorem fromRecords_structured {origin : DnsName} {all : List Record}
    (built : Zone.fromRecords origin all = .ok zone) : Kept zone := by
  obtain ⟨rfl, collected⟩ := fromRecords_ok built
  have bare : Placed zone.origin HashMap.empty := by
    intro name node found
    cases found
  have vacuous : Occupied HashMap.empty := by
    intro name node found
    cases found
  obtain ⟨placed, occupied, counted, owner⟩ :=
    collect_structured zone.origin all none HashMap.empty 0 _ _ _ collected
      ⟨bare, vacuous, rfl, fun record chosen => by cases chosen⟩
  exact ⟨⟨placed, occupied, counted⟩, owner zone.soa rfl⟩

/-! ## The management API and the serial -/

theorem replaceSoa_records {middle : Zone} {code : UInt16} {fresh : List Record}
    (named : ∀ record ∈ fresh, record.name = name)
    (replaced : zone.replaceSoa name code fresh = .ok middle) :
    middle.origin = zone.origin ∧ middle.records = zone.records ∧
      (SoaOwned zone → SoaOwned middle) := by
  rcases replaceSoa_cases replaced with ⟨_, rfl⟩ | ⟨_, apex, record, rfl, rfl⟩
  · exact ⟨rfl, rfl, id⟩
  · refine ⟨rfl, rfl, fun _ => ?_⟩
    exact (named record (by simp)).trans apex

theorem replaceRrset_structured {ttl : UInt32} {contents : List String} (kept : Kept zone)
    (success : zone.replaceRrset name rtype ttl contents = (.ok (), zone')) : Kept zone' := by
  obtain ⟨code, data, middle, typed, below, filled, parsed, replaced, success⟩ :=
    replaceRrset_ok success
  obtain ⟨rfl, _⟩ := replaceNode_ok success
  have named := fun record member => (replaced_fresh typed parsed name ttl record member).1
  have several : data.map (fun rdata => (⟨name, classIn, ttl, rdata⟩ : Record)) ≠ [] := by
    intro empty
    have length := (forall₂_of_mapM_ok parsed).length_eq
    rw [List.map_eq_nil_iff.mp empty] at length
    exact filled (List.length_eq_zero_iff.mp length)
  generalize data.map (fun rdata => (⟨name, classIn, ttl, rdata⟩ : Record)) = fresh at *
  obtain ⟨sameOrigin, sameRecords, soaOwned⟩ := replaceSoa_records named replaced
  have placed := kept.1.placed
  rw [← sameOrigin, ← sameRecords] at placed
  rw [← sameOrigin] at below
  have entered : Placed middle.origin (middle.records.upsert name id) :=
    placed_upsert placed below fun node owned => owned
  have owned : ∀ record ∈ (middle.node name).filter (fun record => record.rtype ≠ code) ++ fresh,
      record.name = name := by
    intro record member
    rcases List.mem_append.mp member with member | member
    · exact node_owned placed name record (List.mem_filter.mp member).1
    · exact named record member
  refine ⟨⟨placed_insert entered owned below, ?_, recount_counted _⟩, soaOwned kept.2⟩
  · -- the entry created on the way is overwritten with a node that holds the new records
    intro other node found
    change ((middle.records.upsert name id).insert name _).get? other = some node at found
    rw [HashMap.get?_insert, HashMap.get?_upsert] at found
    by_cases here : other = name
    · rw [if_pos here] at found
      cases found
      simp [several]
    · rw [if_neg here, if_neg here, sameRecords] at found
      exact kept.1.occupied other node found

theorem deleteRrset_structured (kept : Kept zone)
    (success : zone.deleteRrset name rtype = (.ok (), zone')) : Kept zone' := by
  obtain ⟨code, records, _, _, rfl, changed⟩ := deleteRrset_cases success
  have stored : Placed zone.origin records ∧ Occupied records := by
    rcases changed with ⟨_, rfl⟩ | ⟨node, rest, found, remaining, ⟨_, rfl⟩ | ⟨filled, rfl⟩⟩
    · exact ⟨kept.1.placed, kept.1.occupied⟩
    · exact ⟨placed_remove name kept.1.placed, occupied_remove name kept.1.occupied⟩
    · obtain ⟨owned, below⟩ := kept.1.placed name node found
      refine ⟨placed_insert kept.1.placed (fun record member => ?_) below,
        occupied_insert kept.1.occupied filled⟩
      rw [remaining] at member
      exact owned record (List.mem_filter.mp member).1
  exact ⟨⟨stored.1, stored.2, recount_counted _⟩, kept.2⟩

theorem bumpSerial_structured (kept : Kept zone) : Kept zone.bumpSerial := by
  unfold Zone.bumpSerial
  split
  · rename_i soa fields
    generalize freshEq :
      ({ zone.soa with rdata := .soa { soa with serial := soa.serial + 1 } } : Record) =
      fresh
    have owner : fresh.name = zone.origin := by
      rw [← freshEq]
      exact kept.2
    refine ⟨⟨?_, ?_, ?_⟩, owner⟩
    · refine placed_modify kept.1.placed fun node owned record member => ?_
      obtain ⟨before, inside, rfl⟩ := List.mem_map.mp member
      split
      · exact owner
      · exact owned before inside
    · intro name node found
      change (zone.records.modify zone.origin _).get? name = some node at found
      rw [HashMap.get?_modify] at found
      split at found
      · obtain ⟨before, stored, rfl⟩ := Option.map_eq_some_iff.mp found
        intro empty
        exact kept.1.occupied _ before stored (List.map_eq_nil_iff.mp empty)
      · exact kept.1.occupied name node found
    · rw [kept.1.counted]
      exact (storedCount_modify _ _ _ fun node => List.length_map _).symm
  · exact kept

/-! ## Dynamic updates -/

/-- The node an update record empties is gone before the next one is looked at. -/
theorem updateOne_placed {update : Record} (placed : Placed zone.origin zone.records)
    (below : update.name.endsWith zone.origin = true) (done : zone.updateOne update = some zone') :
    Placed zone'.origin zone'.records ∧ Occupied zone'.records := by
  obtain ⟨origin, _, _, entries⟩ := updateOne_spec done
  constructor
  · intro name node found
    rw [entries] at found
    obtain ⟨rfl, filled⟩ := (entryOf_eq_some_iff _ _).mp found
    have owned := node_owned placed name
    rw [origin]
    split at filled
    · rename_i here
      rw [if_pos here]
      refine ⟨fun record member => ?_, here ▸ below⟩
      rcases mem_nodeAfter member with ⟨old, among, rfl | rfl⟩ | ⟨_, rfl⟩
      · exact owned record among
      · exact owned old among
      · exact here.symm
    · rename_i other
      rw [if_neg other]
      refine ⟨owned, ?_⟩
      unfold Zone.node at filled
      cases stored : zone.records.get? name with
      | none =>
        rw [stored] at filled
        exact absurd rfl filled
      | some node => exact (placed name node stored).2
  · intro name node found
    rw [entries] at found
    exact ((entryOf_eq_some_iff _ _).mp found).2

theorem updateAll_structured (updates : List Record) :
    ∀ {zone zone' : Zone}, Placed zone.origin zone.records → Occupied zone.records →
      (∀ update ∈ updates, update.name.endsWith zone.origin = true) →
      zone.updateAll updates = (rcodeNoerror, zone') →
      Structured zone' ∧ zone'.origin = zone.origin ∧ zone'.soa = zone.soa := by
  induction updates with
  | nil =>
    intro zone zone' placed occupied _ done
    cases done
    exact ⟨⟨placed, occupied, recount_counted zone⟩, rfl, rfl⟩
  | cons update rest ih =>
    intro zone zone' placed occupied below done
    obtain ⟨middle, stepped, done⟩ := updateAll_cons_ok done
    obtain ⟨origin, soa, _⟩ := updateOne_spec stepped
    obtain ⟨here, later⟩ := List.forall_mem_cons.mp below
    obtain ⟨placed', occupied'⟩ := updateOne_placed placed here stepped
    rw [← origin] at later
    obtain ⟨structured, sameOrigin, sameSoa⟩ := ih placed' occupied' later done
    exact ⟨structured, sameOrigin.trans origin, sameSoa.trans soa⟩

theorem applyUpdate_structured {prereqs updates : List Record} (kept : Kept zone)
    (done : zone.applyUpdate prereqs updates = (rcodeNoerror, zone')) : Kept zone' := by
  obtain ⟨_, inside, applied⟩ := applyUpdate_ok done
  obtain ⟨structured, origin, soa⟩ :=
    updateAll_structured updates kept.1.placed kept.1.occupied inside applied
  refine ⟨structured, ?_⟩
  rw [SoaOwned, origin, soa]
  exact kept.2

/-! ## Runs -/

theorem edits_structured {edit : Edit} (kept : Kept zone) (step : Edits zone edit zone') :
    Kept zone' := by
  cases step with
  | replace success => exact replaceRrset_structured kept success
  | delete success => exact deleteRrset_structured kept success
  | update success => exact applyUpdate_structured kept success
  | bump => exact bumpSerial_structured kept

section Invariant

variable {property : Zone → Prop} (recounted : ∀ zone : Zone, property zone → property zone.recount)

include recounted

theorem updateAll_invariant (updates : List Record) (stepped : ∀ update ∈ updates,
      ∀ zone zone', property zone → zone.updateOne update = some zone' → property zone') :
    ∀ {zone : Zone}, property zone → property (zone.updateAll updates).2 := by
  induction updates with
  | nil => exact fun holds => recounted _ holds
  | cons update rest ih =>
    intro zone holds
    obtain ⟨first, later⟩ := List.forall_mem_cons.mp stepped
    unfold Zone.updateAll
    split
    · exact holds
    · rename_i middle done
      exact ih later (first zone middle holds done)

/-- What every record keeps an update keeps, whether it is accepted or stops midway. -/
theorem applyUpdate_invariant (prereqs : List Record) {updates : List Record}
    (stepped : ∀ update ∈ updates, ∀ zone zone', property zone →
      zone.updateOne update = some zone' → property zone') (holds : property zone) :
    property (zone.applyUpdate prereqs updates).2 := by
  unfold Zone.applyUpdate
  split
  · exact holds
  · split
    · exact holds
    · exact updateAll_invariant recounted updates stepped holds

end Invariant

theorem applyUpdate_origin (zone : Zone) (prereqs updates : List Record) :
    (zone.applyUpdate prereqs updates).2.origin = zone.origin := by
  have stepped : ∀ update ∈ updates, ∀ middle middle' : Zone, middle.origin = zone.origin →
      middle.updateOne update = some middle' → middle'.origin = zone.origin :=
    fun _ _ _ _ same done => (updateOne_spec done).1.trans same
  exact applyUpdate_invariant (fun _ same => same) prereqs stepped rfl

theorem edits_origin {edit : Edit} (step : Edits zone edit zone') : zone'.origin = zone.origin := by
  cases step with
  | replace success =>
    obtain ⟨code, data, middle, named, _, _, parsed, replaced, success⟩ := replaceRrset_ok success
    obtain ⟨rfl, _⟩ := replaceNode_ok success
    refine (replaceSoa_records (fun record member => ?_) replaced).1
    exact (replaced_fresh named parsed _ _ record member).1
  | delete success =>
    obtain ⟨_, _, _, _, rfl, _⟩ := deleteRrset_cases success
    rfl
  | @update _ prereqs updates success =>
    have same := applyUpdate_origin zone prereqs updates
    rw [success] at same
    exact same
  | bump => exact bumpSerial_origin zone

theorem run_structured {origin : DnsName} {all : List Record} {zone last : Zone}
    {edits : List Edit} (built : Zone.fromRecords origin all = .ok zone)
    (run : Run Edits zone edits last) : Structured last := by
  have kept : Kept last := by
    refine run.invariant (fun state edit state' kept step => ?_) (fromRecords_structured built)
    exact edits_structured kept step
  exact kept.1

theorem shell_structured : Structured shell := (fromRecords_structured shell_built).1

theorem run_structured_shell :
    ∃ last, Run Edits shell [.update [] [apexAddress], .bump, .delete apexName "A"] last ∧
      Structured last := by
  obtain ⟨last, run⟩ := shell_run
  have plain := run.mono fun state edit state' step => step.2
  exact ⟨last, plain, run_structured shell_built plain⟩

end Rdns.Zones
