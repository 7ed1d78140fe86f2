import Rdns.Zones.Answers
import Rdns.Zones.Rrsets

/-!
# Refused replacements

`Zone::replace_rrset` checks and writes by turns: the SOA field is set and the entry
of the name is made before CNAME exclusivity is looked at.  A refusal leaves the zone
as it was except in two cases, a CNAME RRset of several records for a name that is not
there and another SOA for an apex that holds a CNAME.
-/

set_option autoImplicit false

namespace Rdns.Zones

open Rdns.Lib Rdns.Proto

namespace Zone

/-! ## What lookups read -/

section Lookups

variable {zone zone' : Zone}

theorem Unchanged.wildcardNode (same : Unchanged zone zone') (name : DnsName) (skips : List Nat) :
    zone'.wildcardNode name skips = zone.wildcardNode name skips := by
  induction skips with
  | nil => rfl
  | cons skip rest ih =>
    unfold Zone.wildcardNode
    cases name.wildcardAt skip with
    | none => rfl
    | some wildcard =>
      dsimp only
      rw [same.nodes wildcard, ih]

theorem Unchanged.findNode (same : Unchanged zone zone') (name : DnsName) :
    zone'.findNode name = zone.findNode name := by
  unfold Zone.findNode
  rw [same.nodes name, same.origin, same.wildcardNode name]

theorem Unchanged.hasNamesBelow (same : Unchanged zone zone') (name : DnsName) :
    zone'.hasNamesBelow name = zone.hasNamesBelow name := by
  have agree : zone'.hasNamesBelow name = false ↔ zone.hasNamesBelow name = false := by
    rw [hasNamesBelow_eq_false_iff, hasNamesBelow_eq_false_iff]
    simp only [same.nodes]
  cases before : zone.hasNamesBelow name with
  | false => exact agree.mpr before
  | true =>
    rw [← Bool.not_eq_false]
    intro after
    rw [agree.mp after] at before
    cases before

theorem Unchanged.lookupLoop (same : Unchanged zone zone') (qtype : UInt16) :
    ∀ (rounds : Nat) (name : DnsName) (answers : List Record),
      zone'.lookupLoop qtype rounds name answers = zone.lookupLoop qtype rounds name answers := by
  intro rounds
  induction rounds with
  | zero =>
    intro name answers
    rfl
  | succ rounds ih =>
    intro name answers
    unfold Zone.lookupLoop
    rw [same.findNode name, same.hasNamesBelow name, same.origin]
    simp only [ih]

theorem Unchanged.lookup (same : Unchanged zone zone') (qname : DnsName) (qtype : UInt16) :
    zone'.lookup qname qtype = zone.lookup qname qtype :=
  same.lookupLoop qtype 8 qname []

end Lookups

/-! ## Where a replacement is refused -/

section Refused

variable {zone zone' : Zone} {name : DnsName} {rtype : String} {ttl : UInt32}
  {contents : List String} {code : UInt16} {fresh : List Record} {e : Abort String}

/-- The node is refused with the entry already made, for one of three reasons. -/
theorem replaceNode_failed (failed : zone.replaceNode name code fresh = (.error e, zone')) :
    zone' = { zone with records := zone.records.upsert name id } ∧
      ((code = typeCname ∧ (zone.node name).any (fun record => record.rtype ≠ code) = true) ∨
        (code ≠ typeCname ∧ (zone.node name).any (fun record => record.rtype = typeCname) = true) ∨
        (1 < fresh.length ∧ code = typeCname)) := by
  unfold Zone.replaceNode at failed
  dsimp only at failed
  rw [node_touched] at failed
  split at failed
  · rename_i mixed
    cases failed
    exact ⟨rfl, Or.inl mixed⟩
  split at failed
  · rename_i covered
    cases failed
    exact ⟨rfl, Or.inr (Or.inl covered)⟩
  split at failed
  · rename_i several
    cases failed
    exact ⟨rfl, Or.inr (Or.inr several)⟩
  · cases failed

theorem get?_of_node_any {test : Record → Bool} (held : (zone.node name).any test = true) :
    zone.records.get? name ≠ none := by
  intro missing
  rw [Zone.node, missing] at held
  cases held

theorem unchanged_touched (stored : zone.records.get? name ≠ none) :
    Unchanged zone { zone with records := zone.records.upsert name id } := by
  refine ⟨rfl, rfl, rfl, ?_⟩
  intro other
  rw [HashMap.get?_upsert]
  split
  · rename_i same
    obtain ⟨node, found⟩ := Option.ne_none_iff_exists'.mp stored
    rw [same, found]
    rfl
  · rfl

theorem replaceRrset_reaches {data : List RData} {middle : Zone}
    (named : typeCode rtype = some code)
    (inside : name.endsWith zone.origin = true) (filled : data ≠ [])
    (parsed : contents.mapM (fun content => rdataFromText rtype content zone.origin) = .ok data)
    (replaced : zone.replaceSoa name code (data.map fun rdata => ⟨name, classIn, ttl, rdata⟩) =
      .ok middle) :
    zone.replaceRrset name rtype ttl contents =
      middle.replaceNode name code (data.map fun rdata => ⟨name, classIn, ttl, rdata⟩) := by
  have some : contents.isEmpty = false := by
    cases contents with
    | nil =>
      cases parsed
      exact absurd rfl filled
    | cons first rest => rfl
  unfold Zone.replaceRrset
  rw [named]
  dsimp only
  rw [inside, some, parsed]
  dsimp only
  rw [replaced]
  rfl

end Refused

/-! ## The two refusals that write -/

/-- Several CNAMEs for a name that has no node: the empty node stays. -/
def AddsNode (zone : Zone) (name : DnsName) (rtype : String) (contents : List String) : Prop :=
  typeCode rtype = some typeCname ∧ name.endsWith zone.origin = true ∧
    zone.records.get? name = none ∧
    ∃ data, contents.mapM (fun content => rdataFromText rtype content zone.origin) = .ok data ∧
      1 < data.length

/-- Another SOA for an apex with a CNAME: the field keeps it. -/
def SwapsSoa (zone : Zone) (name : DnsName) (rtype : String) (ttl : UInt32)
    (contents : List String) : Prop :=
  typeCode rtype = some typeSoa ∧ name = zone.origin ∧
    (zone.node name).any (fun record => record.rtype = typeCname) = true ∧
    ∃ rdata, contents.mapM (fun content => rdataFromText rtype content zone.origin) =
        .ok [rdata] ∧
      (⟨name, classIn, ttl, rdata⟩ : Record) ≠ zone.soa

section Writes

variable {zone zone' : Zone} {name : DnsName} {rtype : String} {ttl : UInt32}
  {contents : List String} {e : Abort String}

theorem AddsNode.refused (adds : zone.AddsNode name rtype contents) (ttl : UInt32) :
    zone.replaceRrset name rtype ttl contents =
      (.error (.failed "CNAME rrset must contain exactly one record"),
        { zone with records := zone.records.upsert name id }) := by
  obtain ⟨named, inside, missing, data, parsed, several⟩ := adds
  have filled : data ≠ [] := List.ne_nil_of_length_pos (by omega)
  have bare : zone.node name = [] := by
    rw [Zone.node, missing]
    rfl
  have plain : zone.replaceSoa name typeCname
      (data.map fun rdata => ⟨name, classIn, ttl, rdata⟩) = .ok zone := by
    unfold Zone.replaceSoa
    rw [if_pos (by decide)]
  rw [replaceRrset_reaches named inside filled parsed plain]
  unfold Zone.replaceNode
  dsimp only
  rw [node_touched, bare, if_neg (by simp), if_neg (by simp),
    if_pos ⟨by simpa using several, rfl⟩]

theorem AddsNode.changes (adds : zone.AddsNode name rtype contents) :
    ¬Unchanged zone { zone with records := zone.records.upsert name id } := by
  intro same
  have made := same.nodes name
  rw [HashMap.get?_upsert, if_pos rfl, adds.2.2.1] at made
  cases made

theorem SwapsSoa.refused (swaps : zone.SwapsSoa name rtype ttl contents) :
    ∃ record, record ≠ zone.soa ∧
      zone.replaceRrset name rtype ttl contents =
        (.error (.failed (name.display ++ " is a CNAME; delete it first")),
          { zone with soa := record, records := zone.records.upsert name id }) := by
  obtain ⟨named, apex, held, rdata, parsed, other⟩ := swaps
  have inside : name.endsWith zone.origin = true := by
    rw [apex]
    exact DnsName.endsWith_refl zone.origin
  have replaced : zone.replaceSoa name typeSoa
      ([rdata].map fun rdata => ⟨name, classIn, ttl, rdata⟩) =
        .ok { zone with soa := ⟨name, classIn, ttl, rdata⟩ } := by
    unfold Zone.replaceSoa
    rw [if_neg (by decide), if_neg (not_not.mpr apex)]
    rfl
  refine ⟨⟨name, classIn, ttl, rdata⟩, other, ?_⟩
  rw [replaceRrset_reaches named inside (List.cons_ne_nil _ _) parsed replaced]
  unfold Zone.replaceNode
  dsimp only
  rw [node_touched { zone with soa := ⟨name, classIn, ttl, rdata⟩ }]
  rw [if_neg fun both => absurd both.1 (by decide), if_pos ⟨by decide, held⟩]

theorem unchanged_of_failed
    (failed : zone.replaceRrset name rtype ttl contents = (.error e, zone'))
    (keeps : ¬zone.AddsNode name rtype contents) (same : ¬zone.SwapsSoa name rtype ttl contents) :
    Unchanged zone zone' := by
  have cases := replaceRrset_cases zone name rtype ttl contents
  rw [failed] at cases
  rcases cases with ⟨_, refused⟩ | ⟨code, data, middle, named, inside, _, parsed, replaced, run⟩
  · cases refused
    exact Unchanged.refl zone
  · obtain ⟨left, reason⟩ := replaceNode_failed run.symm
    rw [left]
    rcases replaceSoa_cases replaced with
      ⟨ordinary, rest⟩ | ⟨soaCode, apex, record, single, rest⟩
    · subst middle
      rcases reason with ⟨_, held⟩ | ⟨_, held⟩ | ⟨several, cnameCode⟩
      · exact unchanged_touched (get?_of_node_any held)
      · exact unchanged_touched (get?_of_node_any held)
      · apply unchanged_touched
        intro missing
        rw [List.length_map] at several
        rw [cnameCode] at named
        exact keeps ⟨named, inside, missing, data, parsed, several⟩
    · obtain ⟨rdata, one, rfl⟩ := List.map_eq_singleton_iff.mp single
      have held : (zone.node name).any (fun record => record.rtype = typeCname) = true := by
        rw [soaCode, rest] at reason
        rcases reason with ⟨other, _⟩ | ⟨_, held⟩ | ⟨_, other⟩
        · cases other
        · exact held
        · cases other
      have kept : (⟨name, classIn, ttl, rdata⟩ : Record) = zone.soa := by
        by_contra other
        rw [one] at parsed
        rw [soaCode] at named
        exact same ⟨named, apex, held, rdata, parsed, other⟩
      rw [rest, kept]
      exact unchanged_touched (get?_of_node_any held)

end Writes

end Zone

/-- A refused replacement leaves the zone, and so every lookup, as it was, unless it makes
an empty node or swaps the SOA. -/
theorem replaceRrset_refused_iff (zone : Zone) (name : DnsName) (rtype : String) (ttl : UInt32)
    (contents : List String) :
    (∀ e zone', zone.replaceRrset name rtype ttl contents = (.error (.failed e), zone') →
      Zone.Unchanged zone zone' ∧
        ∀ qname qtype, zone'.lookup qname qtype = zone.lookup qname qtype) ↔
      ¬(zone.AddsNode name rtype contents ∨ zone.SwapsSoa name rtype ttl contents) := by
  constructor
  · rintro stays (adds | swaps)
    · exact adds.changes (stays _ _ (adds.refused ttl)).1
    · obtain ⟨record, other, refused⟩ := swaps.refused
      exact other (stays _ _ refused).1.soa
  · intro neither e zone' failed
    have same : Zone.Unchanged zone zone' :=
      Zone.unchanged_of_failed failed (fun adds => neither (Or.inl adds))
        fun swaps => neither (Or.inr swaps)
    exact ⟨same, same.lookup⟩

theorem aliasName_valid : ValidLabels [[119], [101, 120], [116, 101, 115, 116]] := by decide

def aliasName : DnsName := ⟨[[119], [101, 120], [116, 101, 115, 116]], aliasName_valid⟩

/-- Two CNAMEs for a new name: the call fails, and the name is no longer NXDOMAIN. -/
theorem shell_refused :
    Structured shell ∧
      ∃ e zone' before after,
        shell.replaceRrset aliasName "CNAME" 60 ["a.ex.test.", "b.ex.test."] =
          (.error (.failed e), zone') ∧
        shell.records.get? aliasName = none ∧ zone'.records.get? aliasName = some [] ∧
        shell.lookup aliasName typeA = some before ∧ before.rcode = rcodeNxdomain ∧
        zone'.lookup aliasName typeA = some after ∧ after.rcode = rcodeNoerror := by
  have computed : ((["a.ex.test.", "b.ex.test."].mapM fun content =>
      rdataFromText "CNAME" content shell.origin).toOption.any fun data =>
        decide (1 < data.length)) = true := by decide +kernel
  obtain ⟨data, parsed, several⟩ := exists_of_toOption_any computed
  have adds : shell.AddsNode aliasName "CNAME" ["a.ex.test.", "b.ex.test."] :=
    ⟨by decide, by decide, rfl, data, parsed, by simpa using several⟩
  exact ⟨shell_structured, _, _, _, _, adds.refused 60, rfl, rfl, rfl, rfl, rfl, rfl⟩

end Rdns.Zones
