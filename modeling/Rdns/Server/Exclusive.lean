import Rdns.Server.Writers
import Rdns.Zones.Rrsets

/-!
# A CNAME stands alone in the zones of the management API

`replace_rrset` checks the two directions of RFC 1034 §3.6.2 apart: a CNAME comes only
to a name without other types, another type only to a name without a CNAME.  Over a
whole life of a zone, from the shell of `create_zone` through any edits of the API, a
name with a record of type CNAME has no second record.  Dynamic updates do not go
through these checks and are not edits of the API.
-/

set_option autoImplicit false

namespace Rdns.Server

open Rdns.Lib Rdns.Proto Rdns.Zones

variable {zone zone' : Zone} {name : DnsName}

/-- The types of the records under a name decide whether it breaks the rule. -/
def typesAt (zone : Zone) (name : DnsName) : List UInt16 := (zone.node name).map Record.rtype

def CnamesAlone (zone : Zone) : Prop :=
  ∀ name, typeCname ∈ typesAt zone name → (typesAt zone name).length = 1

theorem mem_typesAt {rtype : UInt16} :
    rtype ∈ typesAt zone name ↔ ∃ record ∈ zone.node name, record.rtype = rtype := by
  rw [typesAt, List.mem_map]

/-! ## One edit -/

/-- The three refusals of `replace_rrset` that concern CNAMEs, where none was made. -/
theorem replaceNode_admits {code : UInt16} {fresh : List Record}
    (success : zone.replaceNode name code fresh = (.ok (), zone')) :
    (code = typeCname → fresh.length ≤ 1 ∧ ∀ record ∈ zone.node name, record.rtype = typeCname) ∧
      (code ≠ typeCname → ∀ record ∈ zone.node name, record.rtype ≠ typeCname) := by
  obtain ⟨-, noOther, noCname, notMany⟩ := replaceNode_ok success
  refine ⟨fun isCname => ⟨?_, fun record member => ?_⟩, fun notCname record member typed => ?_⟩
  · exact Nat.le_of_not_lt fun many => notMany ⟨many, isCname⟩
  · by_contra other
    refine noOther ⟨isCname, List.any_eq_true.mpr ⟨record, member, decide_eq_true ?_⟩⟩
    rw [isCname]
    exact other
  · exact noCname ⟨notCname, List.any_eq_true.mpr ⟨record, member, decide_eq_true typed⟩⟩

theorem replaceNode_cnamesAlone {code : UInt16} {fresh : List Record} (alone : CnamesAlone zone)
    (typed : ∀ record ∈ fresh, record.rtype = code)
    (success : zone.replaceNode name code fresh = (.ok (), zone')) : CnamesAlone zone' := by
  obtain ⟨asCname, asOther⟩ := replaceNode_admits success
  intro owner listed
  by_cases here : owner = name
  · subst here
    rw [mem_typesAt, replaceNode_node success, if_pos rfl] at listed
    rw [typesAt, replaceNode_node success, if_pos rfl, List.length_map]
    by_cases isCname : code = typeCname
    · -- all that was there is of the type and goes; one record comes
      obtain ⟨few, all⟩ := asCname isCname
      have emptied : (zone.node owner).filter (fun record => record.rtype ≠ code) = [] := by
        refine List.filter_eq_nil_iff.mpr fun record member kept => ?_
        exact of_decide_eq_true kept ((all record member).trans isCname.symm)
      rw [emptied, List.nil_append] at listed ⊢
      obtain ⟨record, member, _⟩ := listed
      exact Nat.le_antisymm few (List.length_pos_of_mem member)
    · -- no record of type CNAME was there and none comes
      obtain ⟨record, member, rtype⟩ := listed
      rcases List.mem_append.mp member with old | new
      · exact absurd rtype (asOther isCname record (List.mem_filter.mp old).1)
      · exact absurd ((typed record new).symm.trans rtype) isCname
  · have kept : typesAt zone' owner = typesAt zone owner := by
      rw [typesAt, replaceNode_node success, if_neg here]
      rfl
    rw [kept] at listed ⊢
    exact alone owner listed

theorem replaceRrset_cnamesAlone {rtype : String} {ttl : UInt32} {contents : List String}
    (alone : CnamesAlone zone)
    (success : zone.replaceRrset name rtype ttl contents = (.ok (), zone')) :
    CnamesAlone zone' := by
  obtain ⟨code, data, middle, named, _, _, parsed, replaced, success⟩ := replaceRrset_ok success
  have fresh := replaced_fresh named parsed name ttl
  have before : CnamesAlone middle := by
    intro owner
    rw [typesAt, replaceSoa_node (fun record member => (fresh record member).1) replaced]
    exact alone owner
  exact replaceNode_cnamesAlone before (fun record member => (fresh record member).2) success

theorem deleteRrset_cnamesAlone {rtype : String} (alone : CnamesAlone zone)
    (success : zone.deleteRrset name rtype = (.ok (), zone')) : CnamesAlone zone' := by
  obtain ⟨code, _, here, _, elsewhere⟩ := deleteRrset_node success
  intro owner listed
  have fewer : (zone'.node owner).Sublist (zone.node owner) := by
    by_cases same : owner = name
    · rw [same, here]
      exact List.filter_sublist
    · rw [elsewhere owner same]
  have types : (typesAt zone' owner).Sublist (typesAt zone owner) := fewer.map Record.rtype
  have before := alone owner (types.subset listed)
  exact Nat.le_antisymm (before ▸ types.length_le) (List.length_pos_of_mem listed)

theorem bumpSerial_typesAt (zone : Zone) (name : DnsName) :
    typesAt zone.bumpSerial name = typesAt zone name := by
  unfold Zone.bumpSerial
  split
  · rename_i fields _
    rw [typesAt, typesAt, Zone.node, getD_modify _ _ _ _ rfl]
    split
    · rename_i here
      rw [List.map_map, Zone.node, here]
      refine List.map_congr_left fun record _ => ?_
      dsimp only [Function.comp_apply]
      split
      · rename_i isSoa
        exact isSoa.symm
      · rfl
    · rfl
  · rfl

/-! ## The life of a zone -/

inductive ApiEdit
  | rrset (change : RrsetIn)
  | bump

/-- A handler edits a copy of the zone and puts it back only if the edit went through. -/
def ApiEdit.apply (zone : Zone) : ApiEdit → Zone
  | .rrset change =>
    match applyRrset zone change with
    | (.ok (), edited) => edited
    | (.error _, _) => zone
  | .bump => zone.bumpSerial

theorem applyRrset_cnamesAlone {rrset : RrsetIn} (alone : CnamesAlone zone)
    (done : applyRrset zone rrset = (.ok (), zone')) : CnamesAlone zone' := by
  obtain ⟨owner, _, replaced | deleted⟩ := applyRrset_ok done
  · exact replaceRrset_cnamesAlone alone replaced
  · exact deleteRrset_cnamesAlone alone deleted

theorem ApiEdit.apply_cnamesAlone (alone : CnamesAlone zone) (edit : ApiEdit) :
    CnamesAlone (edit.apply zone) := by
  cases edit with
  | rrset change =>
    rw [ApiEdit.apply]
    split
    · rename_i edited done
      exact applyRrset_cnamesAlone alone done
    · exact alone
  | bump =>
    intro name
    rw [ApiEdit.apply, bumpSerial_typesAt]
    exact alone name

theorem shell_cnamesAlone {origin : DnsName} {soa : Record} {shell : Zone}
    (built : Zone.fromRecords origin [soa] = .ok shell) : CnamesAlone shell := by
  have collected := (fromRecords_ok built).2
  have records : shell.records = HashMap.empty.upsert soa.name (· ++ [soa]) := by
    simp only [Zone.collect] at collected
    split at collected
    · cases collected
    split at collected
    · cases collected
    · split at collected
      · cases collected
      · simp only [Except.ok.injEq, Prod.mk.injEq] at collected
        exact collected.2.1.symm
  intro name listed
  rw [mem_typesAt, Zone.node, records, HashMap.get?_upsert] at listed
  rw [typesAt, Zone.node, records, HashMap.get?_upsert, List.length_map]
  by_cases here : name = soa.name
  · rw [if_pos here]
    rfl
  · rw [if_neg here] at listed
    obtain ⟨record, member, _⟩ := listed
    cases member

theorem newZone_cnamesAlone {origin : DnsName} {rrsets : List RrsetIn}
    (done : newZone origin rrsets = .ok zone) : CnamesAlone zone := by
  obtain ⟨soa, shell, built, edited⟩ := newZone_ok done
  exact applyRrsets_invariant (fun _ _ _ alone stepped => applyRrset_cnamesAlone alone stepped)
    _ (shell_cnamesAlone built) edited

theorem edits_cnamesAlone (edits : List ApiEdit) :
    ∀ {zone : Zone}, CnamesAlone zone → CnamesAlone (edits.foldl ApiEdit.apply zone) := by
  induction edits with
  | nil => exact fun alone => alone
  | cons edit rest ih => exact fun alone => ih (edit.apply_cnamesAlone alone)

/-- However a zone that `create_zone` has added is edited through the API, a name with a
record of type CNAME has that record only. -/
theorem cname_alone {origin : DnsName} {rrsets : List RrsetIn} {current zones : List Zone}
    {start : Zone} (created : createZone origin rrsets current = .ok zones)
    (found : zones.find? (atOrigin origin) = some start) (edits : List ApiEdit)
    (name : DnsName) (record : Record)
    (member : record ∈ (edits.foldl ApiEdit.apply start).node name)
    (typed : record.rtype = typeCname) :
    (edits.foldl ApiEdit.apply start).node name = [record] := by
  have made : newZone origin rrsets = .ok start := by
    unfold createZone at created
    split at created
    · cases created
    rename_i fresh
    obtain ⟨zone, made, done⟩ := fallible_bind created
    cases done
    have others : current.find? (atOrigin origin) = none := by
      simpa using fresh
    rw [List.find?_append, others, Option.none_or] at found
    have last := List.mem_of_find?_eq_some found
    obtain rfl := List.mem_singleton.mp last
    exact made
  have alone := edits_cnamesAlone edits (newZone_cnamesAlone made) name
    (mem_typesAt.mpr ⟨record, member, typed⟩)
  rw [typesAt, List.length_map] at alone
  obtain ⟨only, single⟩ := List.length_eq_one_iff.mp alone
  rw [single] at member ⊢
  rw [List.mem_singleton.mp member]

def aliasEdits : List ApiEdit :=
  [.rrset ⟨"www.ex.test.", "TYPE5", none, none, ["\\# 9 026578047465737400"]⟩,
    .rrset ⟨"www.ex.test.", "A", none, none, ["10.0.0.1"]⟩, .bump]

def soaIn : RrsetIn :=
  ⟨"ex.test.", "SOA", none, none, ["ex.test. ex.test. 1 7200 3600 1209600 300"]⟩

theorem wwwName_valid : ValidLabels [[119, 119, 119], [101, 120], [116, 101, 115, 116]] := by
  decide

def wwwName : DnsName := ⟨[[119, 119, 119], [101, 120], [116, 101, 115, 116]], wwwName_valid⟩

theorem cname_alone_www :
    ∃ zones start record, createZone apexName [soaIn] [] = .ok zones ∧
      zones.find? (atOrigin apexName) = some start ∧ record.rtype = typeCname ∧
      (aliasEdits.foldl ApiEdit.apply start).node wwwName = [record] := by
  have computed : ((createZone apexName [soaIn] []).toOption.any fun zones =>
      (zones.find? (atOrigin apexName)).any fun start =>
        ((aliasEdits.foldl ApiEdit.apply start).node wwwName).any fun record =>
          decide (record.rtype = typeCname)) = true := by decide +kernel
  obtain ⟨zones, created, checked⟩ := exists_of_toOption_any computed
  obtain ⟨start, found, checked⟩ := (Option.any_eq_true _ _).mp checked
  obtain ⟨record, member, typed⟩ := List.any_eq_true.mp checked
  rw [decide_eq_true_iff] at typed
  exact ⟨zones, start, record, created, found, typed,
    cname_alone created found aliasEdits wwwName record member typed⟩

end Rdns.Server
