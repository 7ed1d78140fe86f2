import Rdns.Zones.Structure

/-!
# RRsets under the management API

All records of a name share one vector, whatever their type.  `replace_rrset` and
`delete_rrset` edit the records of one type there; seen as RRsets, they write one of
them and leave the others as they are.
-/

set_option autoImplicit false

namespace Rdns.Zones

open Rdns.Lib Rdns.Proto

variable {zone zone' : Zone} {name : DnsName} {code : UInt16}

namespace Zone

/-- The same zone; the nodes are compared by name, not by their place in the table. -/
structure Unchanged (zone zone' : Zone) : Prop where
  origin : zone'.origin = zone.origin
  soa : zone'.soa = zone.soa
  recordCount : zone'.recordCount = zone.recordCount
  nodes : ∀ name, zone'.records.get? name = zone.records.get? name

theorem Unchanged.refl (zone : Zone) : Unchanged zone zone := ⟨rfl, rfl, rfl, fun _ => rfl⟩

def rrset (zone : Zone) (owner : DnsName) (rtype : UInt16) : List Record :=
  (zone.node owner).filter fun record => record.rtype = rtype

theorem mem_rrset {zone : Zone} {owner : DnsName} {rtype : UInt16} {record : Record} :
    record ∈ zone.rrset owner rtype ↔ record ∈ zone.node owner ∧ record.rtype = rtype := by
  rw [rrset, List.mem_filter, decide_eq_true_iff]

def OthersKept (zone zone' : Zone) (name : DnsName) (code : UInt16) : Prop :=
  ∀ owner rtype, (owner, rtype) ≠ (name, code) → zone'.rrset owner rtype = zone.rrset owner rtype

theorem othersKept_of_node (elsewhere : ∀ owner, owner ≠ name → zone'.node owner = zone.node owner)
    (here : ∀ rtype, rtype ≠ code → zone'.rrset name rtype = zone.rrset name rtype) :
    OthersKept zone zone' name code := by
  intro owner rtype other
  by_cases same : owner = name
  · subst same
    exact here rtype fun typed => other (by rw [typed])
  · rw [rrset, rrset, elsewhere owner same]

end Zone

theorem filter_rtype_of_ne {node : List Record} {code rtype : UInt16} (other : rtype ≠ code) :
    (node.filter fun record => record.rtype ≠ code).filter (fun record => record.rtype = rtype) =
      node.filter fun record => record.rtype = rtype := by
  rw [List.filter_filter]
  refine List.filter_congr fun record _ => ?_
  by_cases typed : record.rtype = rtype
  · simp [typed, other]
  · simp [typed]

theorem filter_rtype_removed (node : List Record) (code : UInt16) :
    (node.filter fun record => record.rtype ≠ code).filter (fun record => record.rtype = code) =
      [] := by
  rw [List.filter_filter]
  refine List.filter_eq_nil_iff.mpr fun record _ => ?_
  simp

/-! ## Replacing -/

section Replace

variable {fresh : List Record}

theorem replaceNode_node (success : zone.replaceNode name code fresh = (.ok (), zone'))
    (owner : DnsName) :
    zone'.node owner =
      if owner = name then (zone.node name).filter (fun record => record.rtype ≠ code) ++ fresh
      else zone.node owner := by
  obtain ⟨rfl, _⟩ := replaceNode_ok success
  change (((zone.records.upsert name id).insert name _).get? owner).getD [] = _
  rw [HashMap.get?_insert, HashMap.get?_upsert]
  by_cases here : owner = name
  · rw [if_pos here, if_pos here]
    rfl
  · rw [if_neg here, if_neg here, if_neg here]
    rfl

theorem replaceNode_rrset (typed : ∀ record ∈ fresh, record.rtype = code)
    (success : zone.replaceNode name code fresh = (.ok (), zone')) :
    zone'.rrset name code = fresh ∧ Zone.OthersKept zone zone' name code := by
  have here := replaceNode_node success name
  rw [if_pos rfl] at here
  constructor
  · rw [Zone.rrset, here, List.filter_append, filter_rtype_removed, List.nil_append]
    exact List.filter_eq_self.mpr fun record member => decide_eq_true (typed record member)
  · refine Zone.othersKept_of_node (fun owner other => ?_) fun rtype other => ?_
    · rw [replaceNode_node success, if_neg other]
    · have none : fresh.filter (fun record => record.rtype = rtype) = [] := by
        refine List.filter_eq_nil_iff.mpr fun record member marked => ?_
        exact other ((of_decide_eq_true marked).symm.trans (typed record member))
      rw [Zone.rrset, here, List.filter_append, none, List.append_nil, filter_rtype_of_ne other]
      rfl

end Replace

theorem replaceSoa_node {zone middle : Zone} {fresh : List Record}
    (named : ∀ record ∈ fresh, record.name = name)
    (replaced : zone.replaceSoa name code fresh = .ok middle) (owner : DnsName) :
    middle.node owner = zone.node owner := by
  rw [Zone.node, (replaceSoa_records named replaced).2.1]
  rfl

theorem replaceRrset_exact {rtype : String} {ttl : UInt32} {contents : List String}
    (success : zone.replaceRrset name rtype ttl contents = (.ok (), zone')) :
    ∃ code data, typeCode rtype = some code ∧
      List.Forall₂ (fun content rdata => rdataFromText rtype content zone.origin = .ok rdata)
        contents data ∧
      (∀ rdata ∈ data, rdata.rtype = code) ∧
      zone'.rrset name code = data.map (fun rdata => ⟨name, classIn, ttl, rdata⟩) ∧
      Zone.OthersKept zone zone' name code := by
  obtain ⟨code, data, middle, named, _, _, parsed, replaced, success⟩ := replaceRrset_ok success
  have fresh := replaced_fresh named parsed name ttl
  obtain ⟨own, others⟩ := replaceNode_rrset (fun record member => (fresh record member).2) success
  refine ⟨code, data, named, forall₂_of_mapM_ok parsed, fun _ => replaced_rtype named parsed, own,
    fun owner other apart => ?_⟩
  rw [others owner other apart, Zone.rrset, Zone.rrset,
    replaceSoa_node (fun record member => (fresh record member).1) replaced]

/-! ## Deleting -/

theorem deleteRrset_node {rtype : String}
    (success : zone.deleteRrset name rtype = (.ok (), zone')) :
    ∃ code, typeCode rtype = some code ∧
      zone'.node name = (zone.node name).filter (fun record => record.rtype ≠ code) ∧
      (zone'.records.get? name = none ↔
        (zone.node name).filter (fun record => record.rtype ≠ code) = []) ∧
      ∀ owner, owner ≠ name → zone'.node owner = zone.node owner := by
  obtain ⟨code, records, named, _, rfl, changed⟩ := deleteRrset_cases success
  refine ⟨code, named, ?_⟩
  change ((records.get? name).getD []) = _ ∧ (records.get? name = none ↔ _) ∧
    ∀ owner, owner ≠ name → (records.get? owner).getD [] = zone.node owner
  unfold Zone.node
  rcases changed with ⟨missing, rfl⟩ | ⟨node, kept, found, remaining, ⟨empty, rfl⟩ | ⟨filled, rfl⟩⟩
  · rw [missing]
    exact ⟨rfl, iff_of_true rfl rfl, fun _ _ => rfl⟩
  · rw [found, HashMap.get?_remove, if_pos rfl, Option.getD_some, ← remaining, empty]
    refine ⟨rfl, iff_of_true rfl rfl, fun owner other => ?_⟩
    rw [HashMap.get?_remove, if_neg other]
  · rw [found, HashMap.get?_insert, if_pos rfl, Option.getD_some, Option.getD_some, ← remaining]
    refine ⟨rfl, iff_of_false (by simp) filled, fun owner other => ?_⟩
    rw [HashMap.get?_insert, if_neg other]

theorem deleteRrset_exact {rtype : String}
    (success : zone.deleteRrset name rtype = (.ok (), zone')) :
    ∃ code, typeCode rtype = some code ∧ zone'.rrset name code = [] ∧
      Zone.OthersKept zone zone' name code ∧
      (zone'.records.get? name = none ↔ ∀ other, other ≠ code → zone.rrset name other = []) := by
  obtain ⟨code, named, here, gone, elsewhere⟩ := deleteRrset_node success
  refine ⟨code, named, ?_, Zone.othersKept_of_node elsewhere fun other apart => ?_, ?_⟩
  · rw [Zone.rrset, here, filter_rtype_removed]
  · rw [Zone.rrset, here, filter_rtype_of_ne apart]
    rfl
  · rw [gone]
    constructor
    · intro none other apart
      rw [Zone.rrset, ← filter_rtype_of_ne apart, none]
      rfl
    · intro none
      refine List.filter_eq_nil_iff.mpr fun record member kept => ?_
      have listed := Zone.mem_rrset.mpr ⟨member, rfl⟩
      rw [none record.rtype (of_decide_eq_true kept)] at listed
      cases listed

/-! ## Both edits -/

/-- A replaced RRset is what its contents say, in their order; a deleted one is empty and
its name goes with the last RRset.  No other RRset changes. -/
theorem rrsetEdit_exact (zone zone' : Zone) (name : DnsName) (rtype : String) :
    (∀ ttl contents, zone.replaceRrset name rtype ttl contents = (.ok (), zone') →
      ∃ code data, typeCode rtype = some code ∧
        List.Forall₂ (fun content rdata => rdataFromText rtype content zone.origin = .ok rdata)
          contents data ∧
        (∀ rdata ∈ data, rdata.rtype = code) ∧
        zone'.rrset name code = data.map (fun rdata => ⟨name, classIn, ttl, rdata⟩) ∧
        Zone.OthersKept zone zone' name code) ∧
    (zone.deleteRrset name rtype = (.ok (), zone') →
      ∃ code, typeCode rtype = some code ∧ zone'.rrset name code = [] ∧
        Zone.OthersKept zone zone' name code ∧
        (zone'.records.get? name = none ↔
          ∀ other, other ≠ code → zone.rrset name other = [])) :=
  ⟨fun _ _ success => replaceRrset_exact success, deleteRrset_exact⟩

/-- Two addresses at the apex of a zone that has its SOA only, and their deletion. -/
theorem rrsetEdit_exact_shell :
    ∃ edited last, shell.replaceRrset apexName "a" 60 ["10.0.0.1", "10.0.0.2"] = (.ok (), edited) ∧
      edited.deleteRrset apexName "A" = (.ok (), last) ∧
      Zone.OthersKept shell edited apexName typeA ∧ last.rrset apexName typeA = [] := by
  have replaced : shell.replaceRrset apexName "a" 60 ["10.0.0.1", "10.0.0.2"] =
      (.ok (), (shell.replaceRrset apexName "a" 60 ["10.0.0.1", "10.0.0.2"]).2) :=
    Prod.ext (by decide +kernel) rfl
  generalize (shell.replaceRrset apexName "a" 60 ["10.0.0.1", "10.0.0.2"]).2 = edited at replaced
  have code : typeCode "a" = some typeA := by decide
  obtain ⟨_, _, named, _, _, _, others⟩ :=
    (rrsetEdit_exact shell edited apexName "a").1 60 ["10.0.0.1", "10.0.0.2"] replaced
  rw [code] at named
  cases named
  have deleted : edited.deleteRrset apexName "A" =
      (.ok (), (edited.deleteRrset apexName "A").2) := Prod.ext rfl rfl
  obtain ⟨_, named, empty, _⟩ := (rrsetEdit_exact edited _ apexName "A").2 deleted
  have upper : typeCode "A" = some typeA := by decide
  rw [upper] at named
  cases named
  exact ⟨edited, _, replaced, deleted, others, empty⟩

end Rdns.Zones
