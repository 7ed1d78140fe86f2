import Rdns.Zones.Store

/-!
# Authoritative lookups

`Zone::lookup` of dns-zone: an exact node or a wildcard, a bounded chase of
CNAMEs inside the zone, and the three negative outcomes (no such name, an empty
non-terminal, no such type).
-/

set_option autoImplicit false

namespace Rdns.Zones

open Rdns.Lib Rdns.Proto

structure LookupResult where
  rcode : UInt8
  answers : List Record
  /-- The last step was NXDOMAIN or NODATA. -/
  negative : Bool
  /-- A CNAME chain left the zone at this target. -/
  offsite : Option DnsName

namespace Zone

variable {zone : Zone} {qtype : UInt16} {qname name : DnsName}

def wildcardNode (zone : Zone) (name : DnsName) : List Nat → Option (List Record)
  | [] => none
  | skip :: rest =>
    match name.wildcardAt skip with
    | none => none
    | some wildcard =>
      match zone.records.get? wildcard with
      | some node => some (node.map fun record => { record with name })
      | none => zone.wildcardNode name rest

def findNode (zone : Zone) (name : DnsName) : Option (List Record) :=
  match zone.records.get? name with
  | some node => some node
  | none =>
    if name.labelCount < zone.origin.labelCount then none
    else zone.wildcardNode name (List.range' 1 (name.labelCount - zone.origin.labelCount))

def hasNamesBelow (zone : Zone) (name : DnsName) : Bool :=
  zone.records.keys.any fun key => key ≠ name ∧ key.endsWith name

/-- The CNAME chase; none where a record of type CNAME holds no CNAME data, which
is an `unreachable!`. -/
def lookupLoop (zone : Zone) (qtype : UInt16) :
    Nat → DnsName → List Record → Option LookupResult
  | 0, _, answers =>
    some { rcode := rcodeServfail, answers, negative := false, offsite := none }
  | rounds + 1, name, answers =>
    match zone.findNode name with
    | none =>
      let rcode := if zone.hasNamesBelow name || !answers.isEmpty then rcodeNoerror
        else rcodeNxdomain
      some { rcode, answers, negative := true, offsite := none }
    | some node =>
      let matched := node.filter fun record => qtype = typeAny ∨ record.rtype = qtype
      if !matched.isEmpty then
        some { rcode := rcodeNoerror, answers := answers ++ matched, negative := false
               offsite := none }
      else
        match node.find? fun record => record.rtype = typeCname with
        | some cname =>
          match cname.rdata with
          | .cname target =>
            let answers := answers ++ [cname]
            if target.endsWith zone.origin then zone.lookupLoop qtype rounds target answers
            else some { rcode := rcodeNoerror, answers, negative := false
                        offsite := some target }
          | _ => none
        | none => some { rcode := rcodeNoerror, answers, negative := true, offsite := none }

def lookup (zone : Zone) (qname : DnsName) (qtype : UInt16) : Option LookupResult :=
  zone.lookupLoop qtype 8 qname []

/-! ## Negative outcomes -/

theorem lookupLoop_answers :
    ∀ (rounds : Nat) (name : DnsName) (answers : List Record) (result : LookupResult),
      zone.lookupLoop qtype rounds name answers = some result → answers <+: result.answers := by
  intro rounds
  induction rounds with
  | zero =>
    intro name answers result found
    cases found
    exact List.prefix_refl _
  | succ rounds ih =>
    intro name answers result found
    unfold lookupLoop at found
    split at found
    · cases found
      exact List.prefix_refl _
    dsimp only at found
    split at found
    · cases found
      exact List.prefix_append _ _
    split at found
    · rename_i cname _
      split at found
      · split at found
        · exact (List.prefix_append answers [cname]).trans (ih _ _ _ found)
        · cases found
          exact List.prefix_append _ _
      · cases found
    · cases found
      exact List.prefix_refl _

theorem lookup_negative {result : LookupResult} (found : zone.lookup qname qtype = some result)
    (negative : result.negative = true) (empty : result.answers = []) :
    zone.findNode qname = none ∨
      ∃ node, zone.findNode qname = some node ∧ result.rcode = rcodeNoerror ∧
        node.filter (fun record => qtype = typeAny ∨ record.rtype = qtype) = [] := by
  unfold lookup lookupLoop at found
  split at found
  · exact Or.inl ‹_›
  rename_i node here
  refine Or.inr ⟨node, here, ?_⟩
  dsimp only at found
  split at found
  · cases found
    cases negative
  rename_i none
  have missing : node.filter (fun record => qtype = typeAny ∨ record.rtype = qtype) = [] := by
    simpa using none
  split at found
  · rename_i cname _
    split at found
    · split at found
      · -- a chase has already put the CNAME into the answer
        have kept := lookupLoop_answers _ _ _ _ found
        rw [empty] at kept
        cases List.prefix_nil.mp kept
      · cases found
        cases negative
    · cases found
  · cases found
    exact ⟨rfl, missing⟩

theorem lookup_absent (qtype : UInt16) (absent : zone.findNode qname = none) :
    zone.lookup qname qtype =
      some { rcode := if zone.hasNamesBelow qname then rcodeNoerror else rcodeNxdomain
             answers := [], negative := true, offsite := none } := by
  rw [lookup, lookupLoop, absent]
  simp

theorem lookup_negative_stored {result : LookupResult} {node : List Record}
    (stored : zone.records.get? qname = some node) (found : zone.lookup qname qtype = some result)
    (negative : result.negative = true) (empty : result.answers = []) :
    result.rcode = rcodeNoerror ∧ ∀ record ∈ node, record.rtype ≠ qtype := by
  have exact : zone.findNode qname = some node := by
    rw [findNode, stored]
  rcases lookup_negative found negative empty with gone | ⟨seen, looked, rcode, none⟩
  · rw [gone] at exact
    cases exact
  · rw [exact] at looked
    cases looked
    refine ⟨rcode, fun record member typed => ?_⟩
    exact List.filter_eq_nil_iff.mp none record member (decide_eq_true (Or.inr typed))

/-! ## Lookups that do not return -/

/-- The record of type CNAME that a lookup takes at a name which has a node, but no
records of the type asked for. -/
def Alias (zone : Zone) (qtype : UInt16) (name : DnsName) (cname : Record) : Prop :=
  ∃ node, zone.findNode name = some node ∧
    node.filter (fun record => qtype = typeAny ∨ record.rtype = qtype) = [] ∧
    node.find? (fun record => record.rtype = typeCname) = some cname

/-- A lookup comes from the first name to the second by so many CNAMEs, all inside the
zone. -/
inductive Chased (zone : Zone) (qtype : UInt16) : Nat → DnsName → DnsName → Prop
  | here {name : DnsName} : Chased zone qtype 0 name name
  | next {steps : Nat} {name target last : DnsName} {cname : Record}
      (taken : zone.Alias qtype name cname) (data : cname.rdata = .cname target)
      (inside : target.endsWith zone.origin = true) (rest : Chased zone qtype steps target last) :
      Chased zone qtype (steps + 1) name last

def Followable (zone : Zone) (qname : DnsName) (qtype : UInt16) : Prop :=
  ∀ steps < 8, ∀ last cname, zone.Chased qtype steps qname last → zone.Alias qtype last cname →
    ∃ target, cname.rdata = .cname target

theorem Alias.unique {left right : Record} (first : zone.Alias qtype name left)
    (second : zone.Alias qtype name right) : left = right := by
  obtain ⟨node, looked, _, found⟩ := first
  obtain ⟨node', looked', _, found'⟩ := second
  rw [looked] at looked'
  cases looked'
  rw [found] at found'
  cases found'
  rfl

theorem lookupLoop_alias {cname : Record} (taken : zone.Alias qtype name cname) (rounds : Nat)
    (answers : List Record) :
    zone.lookupLoop qtype (rounds + 1) name answers =
      match cname.rdata with
      | .cname target =>
        if target.endsWith zone.origin then
          zone.lookupLoop qtype rounds target (answers ++ [cname])
        else some { rcode := rcodeNoerror, answers := answers ++ [cname], negative := false
                    offsite := some target }
      | _ => none := by
  obtain ⟨node, looked, unmatched, found⟩ := taken
  rw [lookupLoop, looked]
  simp only [unmatched, found, List.isEmpty_nil, Bool.not_true, Bool.false_eq_true, if_false]

theorem lookupLoop_of_no_alias (plain : ∀ cname, ¬ zone.Alias qtype name cname) (rounds : Nat)
    (answers : List Record) :
    ∃ result, zone.lookupLoop qtype (rounds + 1) name answers = some result := by
  unfold lookupLoop
  split
  · exact ⟨_, rfl⟩
  rename_i node looked
  dsimp only
  split
  · exact ⟨_, rfl⟩
  rename_i unmatched
  split
  · rename_i cname found
    exact absurd ⟨node, looked, by simpa using unmatched, found⟩ (plain cname)
  · exact ⟨_, rfl⟩

theorem lookupLoop_returns_iff :
    ∀ (rounds : Nat) (name : DnsName) (answers : List Record),
      (∃ result, zone.lookupLoop qtype rounds name answers = some result) ↔
        ∀ steps < rounds, ∀ last cname, zone.Chased qtype steps name last →
          zone.Alias qtype last cname → ∃ target, cname.rdata = .cname target := by
  intro rounds
  induction rounds with
  | zero =>
    intro name answers
    exact ⟨fun _ steps impossible => absurd impossible (Nat.not_lt_zero steps),
      fun _ => ⟨_, rfl⟩⟩
  | succ rounds ih =>
    intro name answers
    by_cases aliased : ∃ cname, zone.Alias qtype name cname
    · obtain ⟨cname, taken⟩ := aliased
      rw [lookupLoop_alias taken]
      by_cases typed : ∃ target, cname.rdata = .cname target
      · obtain ⟨target, data⟩ := typed
        simp only [data]
        by_cases inside : target.endsWith zone.origin = true
        · -- the rounds from the target on are those of the name, less the first
          rw [if_pos inside, ih]
          constructor
          · intro later steps within last other chased found
            cases chased with
            | here => exact ⟨target, by rw [← taken.unique found, data]⟩
            | next taken' data' _ rest =>
              cases taken.unique taken'
              rw [data] at data'
              cases data'
              exact later _ (Nat.lt_of_succ_lt_succ within) last other rest found
          · intro all steps within last other chased found
            exact all (steps + 1) (Nat.succ_lt_succ within) last other
              (.next taken data inside chased) found
        · rw [if_neg inside]
          refine ⟨fun _ steps within last other chased found => ?_, fun _ => ⟨_, rfl⟩⟩
          cases chased with
          | here => exact ⟨target, by rw [← taken.unique found, data]⟩
          | next taken' data' inside' _ =>
            cases taken.unique taken'
            rw [data] at data'
            cases data'
            exact absurd inside' inside
      · constructor
        · rintro ⟨result, found⟩
          split at found
          · rename_i target data
            exact absurd ⟨target, data⟩ typed
          · cases found
        · intro all
          exact absurd (all 0 (Nat.succ_pos rounds) name cname .here taken) typed
    · have plain : ∀ cname, ¬ zone.Alias qtype name cname := not_exists.mp aliased
      refine ⟨fun _ steps _ last cname chased found => ?_, fun _ =>
        lookupLoop_of_no_alias plain rounds answers⟩
      cases chased with
      | here => exact absurd found (plain cname)
      | next taken _ _ _ => exact absurd taken (plain _)

/-- A lookup returns exactly when the aliases on its way hold CNAME data. -/
theorem lookup_returns_iff (zone : Zone) (qname : DnsName) (qtype : UInt16) :
    (∃ result, zone.lookup qname qtype = some result) ↔ zone.Followable qname qtype :=
  lookupLoop_returns_iff 8 qname []

end Zone

end Rdns.Zones
