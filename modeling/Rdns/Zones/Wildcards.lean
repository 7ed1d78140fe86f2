import Rdns.Zones.Lookup
import Rdns.Zones.Soa

/-!
# Wildcards

A name without records of its own may be answered from a wildcard.  By RFC 4592 this
is the one below its closest encloser, the longest ancestor that exists, be it only
through names below it.  `find_node` takes the first wildcard on the way up instead,
past names that exist.
-/

set_option autoImplicit false

namespace Rdns.Zones

open Rdns.Lib Rdns.Proto

variable {name : DnsName}

/-! ## Ancestors -/

def above (name : DnsName) (skip : Nat) : DnsName :=
  ⟨name.labels.drop skip, name.valid.drop skip⟩

theorem above_zero (name : DnsName) : above name 0 = name := rfl

theorem endsWith_above (name : DnsName) (skip : Nat) : name.endsWith (above name skip) = true :=
  (DnsName.endsWith_iff _ _).mpr (List.drop_suffix _ _)

theorem above_ne {skip : Nat} (proper : 1 ≤ skip) (within : skip ≤ name.labelCount) :
    above name skip ≠ name := by
  intro same
  have length := congrArg (fun name => name.labels.length) same
  simp only [above, List.length_drop] at length
  unfold DnsName.labelCount at within
  omega

theorem above_endsWith_above_iff {lower upper : Nat} (within : upper ≤ name.labelCount)
    (below : lower ≤ name.labelCount) :
    (above name lower).endsWith (above name upper) = true ↔ lower ≤ upper := by
  unfold DnsName.labelCount at within below
  rw [DnsName.endsWith_iff]
  constructor
  · intro suffixed
    have shorter := suffixed.length_le
    simp only [above, List.length_drop] at shorter
    omega
  · intro ordered
    have further : name.labels.drop upper = (name.labels.drop lower).drop (upper - lower) := by
      rw [List.drop_drop]
      congr 1
      omega
    change name.labels.drop upper <:+ name.labels.drop lower
    rw [further]
    exact List.drop_suffix _ _

theorem above_endsWith_iff {origin : DnsName} (inside : name.endsWith origin = true) {skip : Nat}
    (within : skip ≤ name.labelCount) :
    (above name skip).endsWith origin = true ↔ skip ≤ name.labelCount - origin.labelCount := by
  have suffixed := (DnsName.endsWith_iff _ _).mp inside
  have shorter := suffixed.length_le
  have own : above name (name.labelCount - origin.labelCount) = origin :=
    DnsName.ext (List.suffix_iff_eq_drop.mp suffixed).symm
  have at_ : name.labelCount - origin.labelCount ≤ name.labelCount := Nat.sub_le _ _
  rw [← above_endsWith_above_iff at_ within, own]

theorem eq_above_of_endsWith {upper : DnsName} (below : name.endsWith upper = true) :
    ∃ skip, skip ≤ name.labelCount ∧ upper = above name skip := by
  have suffixed := (DnsName.endsWith_iff _ _).mp below
  exact ⟨name.labelCount - upper.labelCount, Nat.sub_le _ _,
    DnsName.ext (List.suffix_iff_eq_drop.mp suffixed)⟩

theorem eq_above_of_ne {upper : DnsName} (below : name.endsWith upper = true)
    (proper : upper ≠ name) :
    ∃ skip, 1 ≤ skip ∧ skip ≤ name.labelCount ∧ upper = above name skip := by
  obtain ⟨skip, within, rfl⟩ := eq_above_of_endsWith below
  refine ⟨skip, Nat.pos_of_ne_zero fun zero => ?_, within, rfl⟩
  rw [zero, above_zero] at proper
  exact proper rfl

def Starred (wildcard source : DnsName) : Prop := wildcard.labels = DnsName.star :: source.labels

theorem wildcardAt_eq_some_iff (name wildcard : DnsName) (skip : Nat) :
    name.wildcardAt skip = some wildcard ↔
      1 ≤ skip ∧ skip ≤ name.labelCount ∧ Starred wildcard (above name skip) := by
  unfold DnsName.wildcardAt DnsName.labelCount Starred
  split
  · rename_i outside
    exact iff_of_false (by simp) fun within => by omega
  rename_i inside
  rw [Option.some_inj]
  constructor
  · rintro rfl
    exact ⟨by omega, by omega, rfl⟩
  · rintro ⟨_, _, labels⟩
    exact DnsName.ext labels.symm

/-! ## The scan -/

namespace Zone

variable {skip : Nat} {node : List Record} {wildcard : DnsName}

def drawn (zone : Zone) (name : DnsName) (skip : Nat) : Option (List Record) :=
  (name.wildcardAt skip).bind fun wildcard =>
    (zone.records.get? wildcard).map fun node => node.map fun record => { record with name }

theorem wildcardNode_eq (zone : Zone) (name : DnsName) :
    ∀ skips : List Nat, (∀ skip ∈ skips, 1 ≤ skip ∧ skip ≤ name.labelCount) →
      zone.wildcardNode name skips = skips.findSome? (zone.drawn name) := by
  intro skips
  induction skips with
  | nil => exact fun _ => rfl
  | cons skip rest ih =>
    intro valid
    obtain ⟨here, later⟩ := List.forall_mem_cons.mp valid
    have made : ∃ wildcard, name.wildcardAt skip = some wildcard := by
      unfold DnsName.wildcardAt
      unfold DnsName.labelCount at here
      rw [dif_neg (by omega)]
      exact ⟨_, rfl⟩
    obtain ⟨wildcard, made⟩ := made
    rw [wildcardNode, List.findSome?_cons, drawn, made, Option.bind_some]
    dsimp only
    cases zone.records.get? wildcard with
    | none => exact ih later
    | some node => rfl

/-- The first wildcard on the way up from the name to the origin, so many labels up. -/
structure Taken (zone : Zone) (qname : DnsName) (skip : Nat) (wildcard : DnsName)
    (node : List Record) : Prop where
  proper : 1 ≤ skip
  inside : skip ≤ qname.labelCount - zone.origin.labelCount
  starred : Starred wildcard (above qname skip)
  stored : zone.records.get? wildcard = some node
  first : ∀ earlier other, 1 ≤ earlier → earlier < skip → Starred other (above qname earlier) →
    zone.records.get? other = none

variable {zone : Zone} {qname : DnsName}

theorem findNode_of_absent (absent : zone.records.get? qname = none) :
    zone.findNode qname =
      (List.range' 1 (qname.labelCount - zone.origin.labelCount)).findSome? (zone.drawn qname) := by
  unfold findNode
  rw [absent]
  dsimp only
  split
  · rename_i short
    rw [Nat.sub_eq_zero_of_le (Nat.le_of_lt short)]
    rfl
  · refine wildcardNode_eq zone qname _ fun skip member => ?_
    have range := List.mem_range'_1.mp member
    omega

theorem drawn_eq_some_iff (skip : Nat) (node : List Record) :
    zone.drawn qname skip = some node ↔
      ∃ wildcard source, qname.wildcardAt skip = some wildcard ∧
        zone.records.get? wildcard = some source ∧
        node = source.map fun record => { record with name := qname } := by
  unfold drawn
  constructor
  · intro found
    obtain ⟨wildcard, made, read⟩ := Option.bind_eq_some_iff.mp found
    obtain ⟨source, stored, rfl⟩ := Option.map_eq_some_iff.mp read
    exact ⟨wildcard, source, made, stored, rfl⟩
  · rintro ⟨wildcard, source, made, stored, rfl⟩
    rw [made, Option.bind_some, stored]
    rfl

theorem drawn_eq_none_iff (proper : 1 ≤ skip) (within : skip ≤ qname.labelCount) :
    zone.drawn qname skip = none ↔
      ∀ wildcard, Starred wildcard (above qname skip) → zone.records.get? wildcard = none := by
  constructor
  · intro missed wildcard starred
    have made := (wildcardAt_eq_some_iff qname wildcard skip).mpr ⟨proper, within, starred⟩
    rw [drawn, made, Option.bind_some] at missed
    exact Option.map_eq_none_iff.mp missed
  · intro missed
    unfold drawn
    cases made : qname.wildcardAt skip with
    | none => rfl
    | some wildcard =>
      obtain ⟨_, _, starred⟩ := (wildcardAt_eq_some_iff _ _ _).mp made
      rw [Option.bind_some, missed wildcard starred]
      rfl

theorem findNode_eq_some_iff (absent : zone.records.get? qname = none) (node : List Record) :
    zone.findNode qname = some node ↔
      ∃ skip wildcard source, zone.Taken qname skip wildcard source ∧
        node = source.map fun record => { record with name := qname } := by
  rw [findNode_of_absent absent, findSome?_range']
  constructor
  · rintro ⟨skip, proper, below, found, before⟩
    obtain ⟨wildcard, source, made, stored, rfl⟩ := (drawn_eq_some_iff skip node).mp found
    obtain ⟨_, _, starred⟩ := (wildcardAt_eq_some_iff _ _ _).mp made
    refine ⟨skip, wildcard, source, ⟨proper, by omega, starred, stored, ?_⟩, rfl⟩
    intro earlier other from_ under named
    exact (drawn_eq_none_iff from_ (by omega)).mp (before earlier from_ under) other named
  · rintro ⟨skip, wildcard, source, taken, rfl⟩
    have proper := taken.proper
    have inside := taken.inside
    have made : qname.wildcardAt skip = some wildcard :=
      (wildcardAt_eq_some_iff _ _ _).mpr ⟨proper, by omega, taken.starred⟩
    refine ⟨skip, proper, by omega, ?_, fun earlier from_ under => ?_⟩
    · exact (drawn_eq_some_iff skip _).mpr ⟨wildcard, source, made, taken.stored, rfl⟩
    · refine (drawn_eq_none_iff from_ (by omega)).mpr fun other named => ?_
      exact taken.first earlier other from_ under named

theorem findNode_cases (found : zone.findNode name = some node) :
    zone.records.get? name = some node ∨
      ∃ skip wildcard source, zone.Taken name skip wildcard source ∧
        node = source.map fun record => { record with name } := by
  cases here : zone.records.get? name with
  | none => exact Or.inr ((findNode_eq_some_iff here node).mp found)
  | some held =>
    rw [findNode, here] at found
    exact Or.inl found

/-! ## Closest enclosers -/

/-- The name is stored, or an empty non-terminal: some stored name is at or below it. -/
def Exists (zone : Zone) (name : DnsName) : Prop :=
  ∃ key node, zone.records.get? key = some node ∧ key.endsWith name = true

/-- The longest of the ancestors in the zone that exist. -/
structure ClosestEncloser (zone : Zone) (qname encloser : DnsName) : Prop where
  below : qname.endsWith encloser = true
  proper : encloser ≠ qname
  inside : encloser.endsWith zone.origin = true
  exists_ : zone.Exists encloser
  longest : ∀ other, qname.endsWith other = true → other ≠ qname → zone.Exists other →
    encloser.endsWith other = true

/-- RFC 4592 §3.3.1: the name does not exist, and records are stored at the wildcard of its
closest encloser. -/
def SourceOfSynthesis (zone : Zone) (qname : DnsName) : Prop :=
  ¬ zone.Exists qname ∧ ∃ encloser wildcard node, zone.ClosestEncloser qname encloser ∧
    Starred wildcard encloser ∧ zone.records.get? wildcard = some node

/-- The first wildcard on the way up lies above an existing name that is the query name or
one of its ancestors. -/
def Crossed (zone : Zone) (qname : DnsName) : Prop :=
  ∃ skip wildcard node closer, zone.Taken qname skip wildcard node ∧ closer < skip ∧
    zone.Exists (above qname closer)

theorem exists_of_starred {source : DnsName} (starred : Starred wildcard source)
    (stored : zone.records.get? wildcard = some node) : zone.Exists source := by
  refine ⟨wildcard, node, stored, (DnsName.endsWith_iff _ _).mpr ?_⟩
  rw [starred]
  exact List.suffix_cons _ _

theorem Taken.source_exists (taken : zone.Taken qname skip wildcard node) :
    zone.Exists (above qname skip) :=
  exists_of_starred taken.starred taken.stored

theorem Taken.unique {skip' : Nat} {wildcard' : DnsName} {node' : List Record}
    (left : zone.Taken qname skip wildcard node) (right : zone.Taken qname skip' wildcard' node') :
    skip = skip' := by
  rcases Nat.lt_trichotomy skip skip' with less | same | greater
  · have none := right.first skip wildcard left.proper less left.starred
    rw [left.stored] at none
    cases none
  · exact same
  · have none := left.first skip' wildcard' right.proper greater right.starred
    rw [right.stored] at none
    cases none

section Inside

variable (inside : qname.endsWith zone.origin = true)

include inside

/-- Where the RFC has a wildcard apply, the scan stops there. -/
theorem SourceOfSynthesis.taken (source : zone.SourceOfSynthesis qname) :
    ∃ skip wildcard node, zone.Taken qname skip wildcard node ∧
      ∀ closer < skip, ¬ zone.Exists (above qname closer) := by
  obtain ⟨missing, encloser, wildcard, node, closest, starred, stored⟩ := source
  obtain ⟨skip, proper, within, rfl⟩ := eq_above_of_ne closest.below closest.proper
  have unobstructed : ∀ closer < skip, ¬ zone.Exists (above qname closer) := by
    intro closer under present
    rcases Nat.eq_zero_or_pos closer with rfl | positive
    · exact missing present
    · have apart : above qname closer ≠ qname := above_ne positive (by omega)
      have ordered := closest.longest _ (endsWith_above qname closer) apart present
      rw [above_endsWith_above_iff (by omega) within] at ordered
      omega
  have bound := (above_endsWith_iff inside within).mp closest.inside
  refine ⟨skip, wildcard, node,
    ⟨proper, bound, starred, stored, fun earlier other _ under named => ?_⟩, unobstructed⟩
  cases found : zone.records.get? other with
  | none => rfl
  | some held => exact absurd (exists_of_starred named found) (unobstructed earlier under)

/-- A wildcard with nothing between it and the name is below the closest encloser. -/
theorem Taken.source (taken : zone.Taken qname skip wildcard node)
    (unobstructed : ∀ closer < skip, ¬ zone.Exists (above qname closer)) :
    zone.SourceOfSynthesis qname := by
  have proper := taken.proper
  have bound := taken.inside
  have within : skip ≤ qname.labelCount := by omega
  refine ⟨unobstructed 0 (by omega), above qname skip, wildcard, node, ⟨endsWith_above qname skip,
    fun same => ?_, (above_endsWith_iff inside within).mpr bound, taken.source_exists, ?_⟩,
    taken.starred, taken.stored⟩
  · have present := taken.source_exists
    rw [same] at present
    exact unobstructed 0 (by omega) present
  · intro other upper _ present
    obtain ⟨distance, at_, rfl⟩ := eq_above_of_endsWith upper
    rw [above_endsWith_above_iff at_ within]
    by_contra nearer
    exact unobstructed distance (by omega) present

end Inside

/-- Names without records of their own are answered from wildcards as the RFC has it,
unless the scan crosses an existing name. -/
theorem findNode_synthesis_iff (zone : Zone) (qname : DnsName)
    (inside : qname.endsWith zone.origin = true) (absent : zone.records.get? qname = none) :
    ((∃ node, zone.findNode qname = some node) ↔ zone.SourceOfSynthesis qname) ↔
      ¬ zone.Crossed qname := by
  have scan : (∃ node, zone.findNode qname = some node) ↔
      ∃ skip wildcard source, zone.Taken qname skip wildcard source := by
    constructor
    · rintro ⟨node, found⟩
      obtain ⟨skip, wildcard, source, taken, _⟩ := (findNode_eq_some_iff absent node).mp found
      exact ⟨skip, wildcard, source, taken⟩
    · rintro ⟨skip, wildcard, source, taken⟩
      exact ⟨_, (findNode_eq_some_iff absent _).mpr ⟨skip, wildcard, source, taken, rfl⟩⟩
  rw [scan]
  constructor
  · rintro same ⟨skip, wildcard, node, closer, taken, under, present⟩
    obtain ⟨other, _, _, alsoTaken, unobstructed⟩ :=
      (same.mp ⟨skip, wildcard, node, taken⟩).taken inside
    rw [taken.unique alsoTaken] at under
    exact unobstructed closer under present
  · intro clear
    constructor
    · rintro ⟨skip, wildcard, node, taken⟩
      refine taken.source inside fun closer under present => clear ?_
      exact ⟨skip, wildcard, node, closer, taken, under, present⟩
    · intro source
      obtain ⟨skip, wildcard, node, taken, _⟩ := source.taken inside
      exact ⟨skip, wildcard, node, taken⟩

end Zone

theorem hostName_valid (first : UInt8) :
    ValidLabels [[first], [101, 120], [116, 101, 115, 116]] := by
  simp [ValidLabels, ValidLabel, labelsLen, maxLabelLen, maxNameWireLen]

def hostName (first : UInt8) : DnsName :=
  ⟨[[first], [101, 120], [116, 101, 115, 116]], hostName_valid first⟩

def hostAddress (first : UInt8) : Record := { apexAddress with name := hostName first }

theorem deepName_valid : ValidLabels [[97], [98], [101, 120], [116, 101, 115, 116]] := by decide

def deepName : DnsName := ⟨[[97], [98], [101, 120], [116, 101, 115, 116]], deepName_valid⟩

def crossing : Zone :=
  { shell with
    recordCount := 3
    records := (shell.records.insert (hostName 42) [hostAddress 42]).insert (hostName 98)
      [hostAddress 98] }

theorem findNode_synthesis_crossing :
    deepName.endsWith crossing.origin = true ∧ crossing.records.get? deepName = none ∧
      (((∃ node, crossing.findNode deepName = some node) ↔ crossing.SourceOfSynthesis deepName) ↔
        ¬ crossing.Crossed deepName) := by
  have inside : deepName.endsWith crossing.origin = true := by decide
  have absent : crossing.records.get? deepName = none := by decide +kernel
  exact ⟨inside, absent, Zone.findNode_synthesis_iff crossing deepName inside absent⟩

/-- A delegation is an NS record below the apex. -/
def Undelegated (zone : Zone) : Prop :=
  ∀ name node, zone.records.get? name = some node → ∀ record ∈ node, record.rtype = typeNs →
    name = zone.origin

/-- The wildcard at the apex answers for a name below the host, which is its closest
encloser. -/
theorem wildcard_across_host :
    Zone.fromRecords apexName [apexSoa, hostAddress 42, hostAddress 98] = .ok crossing ∧
      Undelegated crossing ∧ deepName.endsWith crossing.origin = true ∧
      crossing.records.get? deepName = none ∧
      (∃ node, crossing.findNode deepName = some node) ∧
      ¬ crossing.SourceOfSynthesis deepName := by
  have inside : deepName.endsWith crossing.origin = true := by decide
  have served : (crossing.findNode deepName).isSome = true := by decide +kernel
  have nearby : crossing.records.get? (hostName 98) = some [hostAddress 98] := by rfl
  refine ⟨rfl, ?_, inside, by decide +kernel, Option.isSome_iff_exists.mp served, fun source => ?_⟩
  · intro name node stored record member delegated
    have none : ∀ entry ∈ crossing.records.entries, ∀ record ∈ entry.2, record.rtype ≠ typeNs := by
      decide +kernel
    exact absurd delegated (none _ (AList.mem_lookup_iff.mp stored) record member)
  · obtain ⟨skip, wildcard, node, taken, clear⟩ := source.taken inside
    have bound : skip ≤ 2 := taken.inside
    rcases Nat.lt_or_ge 1 skip with far | near
    · exact clear 1 far ⟨hostName 98, _, nearby, by decide⟩
    · obtain rfl : skip = 1 := Nat.le_antisymm near taken.proper
      have starred : deepName.wildcardAt 1 = some wildcard :=
        (wildcardAt_eq_some_iff _ _ _).mpr ⟨le_rfl, by decide, taken.starred⟩
      have unstored : (deepName.wildcardAt 1).bind crossing.records.get? = none := by
        decide +kernel
      rw [starred, Option.bind_some, taken.stored] at unstored
      cases unstored

end Rdns.Zones
