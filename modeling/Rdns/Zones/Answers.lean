import Rdns.Zones.Aliases

/-!
# The shape of an authoritative answer

A lookup follows CNAMEs for at most eight rounds and stops in one of three ways: at a
name without an alias, at a target outside the zone, or because the rounds are used
up.  In the last case the answer is SERVFAIL, and the records at the eighth target are not
looked at any more.
-/

set_option autoImplicit false

namespace Rdns.Zones

open Rdns.Lib Rdns.Proto

namespace Zone

variable {zone : Zone} {name last : DnsName} {qtype : UInt16} {aliases : List Record}

/-! ## Where records come from -/

def Matches (zone : Zone) (name wildcard : DnsName) : Prop :=
  ∃ source, name.endsWith source = true ∧ source ≠ name ∧ source.endsWith zone.origin = true ∧
    Starred wildcard source

/-- A record stored at its owner, or at a wildcard for its owner. -/
def Drawn (zone : Zone) (record : Record) : Prop :=
  record ∈ zone.node record.name ∨
    ∃ wildcard original, zone.Matches record.name wildcard ∧ original ∈ zone.node wildcard ∧
      record = { original with name := record.name }

structure Absent (zone : Zone) (name : DnsName) : Prop where
  unstored : zone.records.get? name = none
  unmatched : ∀ wildcard, zone.Matches name wildcard → zone.records.get? wildcard = none
  leaf : ∀ key node, zone.records.get? key = some node → key ≠ name → key.endsWith name = false

def matching (zone : Zone) (qtype : UInt16) (name : DnsName) : List Record :=
  ((zone.findNode name).getD []).filter fun record => qtype = typeAny ∨ record.rtype = qtype

theorem Taken.matches_ {wildcard : DnsName} {skip : Nat} {source : List Record}
    (inside : name.endsWith zone.origin = true) (taken : zone.Taken name skip wildcard source) :
    zone.Matches name wildcard := by
  have proper := taken.proper
  have bound := taken.inside
  have within : skip ≤ name.labelCount := by omega
  exact ⟨above name skip, endsWith_above name skip, above_ne proper within,
    (above_endsWith_iff inside within).mpr bound, taken.starred⟩

theorem hasNamesBelow_eq_false_iff (zone : Zone) (name : DnsName) :
    zone.hasNamesBelow name = false ↔
      ∀ key node, zone.records.get? key = some node → key ≠ name → key.endsWith name = false := by
  unfold hasNamesBelow
  rw [List.any_eq_false]
  constructor
  · intro none key node stored other
    have held : zone.records.containsKey key = true := by rw [HashMap.containsKey, stored]; rfl
    simpa [other] using none key ((HashMap.containsKey_iff _ _).mp held)
  · intro none key listed
    have held := (HashMap.containsKey_iff _ _).mpr listed
    obtain ⟨node, stored⟩ := Option.isSome_iff_exists.mp held
    simpa using none key node stored

section Placed

variable (placed : Placed zone.origin zone.records)

include placed

theorem inside_of_findNode {node : List Record} (found : zone.findNode name = some node) :
    name.endsWith zone.origin = true := by
  rcases findNode_cases found with stored | ⟨skip, wildcard, source, taken, _⟩
  · exact (placed name node stored).2
  · -- what is left of the name behind the star still ends in the origin
    have proper := taken.proper
    have bound := taken.inside
    have starred := taken.starred
    have below := (DnsName.endsWith_iff _ _).mp (placed wildcard source taken.stored).2
    rw [Starred] at starred
    rw [starred, List.suffix_cons_iff] at below
    rcases below with whole | rest
    · have length := congrArg List.length whole
      simp only [above, List.length_cons, List.length_drop] at length
      unfold DnsName.labelCount at bound
      omega
    · exact (DnsName.endsWith_iff _ _).mpr (rest.trans (List.drop_suffix skip name.labels))

theorem findNode_drawn {held : List Record} (found : zone.findNode name = some held)
    {record : Record} (member : record ∈ held) : record.name = name ∧ zone.Drawn record := by
  have inside := inside_of_findNode placed found
  rcases findNode_cases found with stored | ⟨skip, wildcard, source, taken, rfl⟩
  · have owner := (placed name held stored).1 record member
    refine ⟨owner, Or.inl ?_⟩
    rw [node, owner, stored]
    exact member
  · obtain ⟨original, among, rfl⟩ := List.mem_map.mp member
    refine ⟨rfl, Or.inr ⟨wildcard, original, taken.matches_ inside, ?_, rfl⟩⟩
    rw [node, taken.stored]
    exact among

theorem findNode_eq_none_iff (name : DnsName) :
    zone.findNode name = none ↔ zone.records.get? name = none ∧
      ∀ wildcard, zone.Matches name wildcard → zone.records.get? wildcard = none := by
  constructor
  · intro missing
    have unstored : zone.records.get? name = none := by
      cases stored : zone.records.get? name with
      | none => rfl
      | some held =>
        rw [findNode, stored] at missing
        cases missing
    refine ⟨unstored, ?_⟩
    rintro wildcard ⟨source, below, proper, inside, starred⟩
    obtain ⟨skip, positive, within, rfl⟩ := eq_above_of_ne below proper
    have whole := (DnsName.endsWith_iff _ _).mp inside
    have nameInside : name.endsWith zone.origin = true :=
      (DnsName.endsWith_iff _ _).mpr (whole.trans (List.drop_suffix skip name.labels))
    have bound := (above_endsWith_iff nameInside within).mp inside
    rw [findNode_of_absent unstored, List.findSome?_eq_none_iff] at missing
    have missed := missing skip (List.mem_range'_1.mpr ⟨positive, by omega⟩)
    exact (drawn_eq_none_iff positive within).mp missed wildcard starred
  · rintro ⟨unstored, unmatched⟩
    cases found : zone.findNode name with
    | none => rfl
    | some held =>
      have inside := inside_of_findNode placed found
      rcases findNode_cases found with stored | ⟨skip, wildcard, source, taken, _⟩
      · rw [unstored] at stored
        cases stored
      · have stored := taken.stored
        rw [unmatched wildcard (taken.matches_ inside)] at stored
        cases stored

theorem absent_iff (name : DnsName) :
    zone.Absent name ↔ zone.findNode name = none ∧ zone.hasNamesBelow name = false := by
  rw [findNode_eq_none_iff placed, hasNamesBelow_eq_false_iff]
  constructor
  · exact fun absent => ⟨⟨absent.unstored, absent.unmatched⟩, absent.leaf⟩
  · exact fun ⟨⟨unstored, unmatched⟩, leaf⟩ => ⟨unstored, unmatched, leaf⟩

end Placed

/-! ## The chase -/

/-- CNAMEs, each owned by the target of the one before, from a name to the last target. -/
inductive Linked : DnsName → List Record → DnsName → Prop
  | nil {name : DnsName} : Linked name [] name
  | cons {name target last : DnsName} {cname : Record} {rest : List Record}
      (owner : cname.name = name) (data : cname.rdata = .cname target)
      (more : Linked target rest last) : Linked name (cname :: rest) last

theorem Linked.snoc {target : DnsName} {cname : Record} (linked : Linked name aliases last)
    (owner : cname.name = last) (data : cname.rdata = .cname target) :
    Linked name (aliases ++ [cname]) target := by
  induction linked with
  | nil => exact .cons owner data .nil
  | cons first given _ ih => exact .cons first given (ih owner)

theorem Linked.unique {left right : DnsName} (one : Linked name aliases left)
    (other : Linked name aliases right) : left = right := by
  induction one with
  | nil =>
    cases other
    rfl
  | cons _ data _ ih =>
    cases other with
    | cons _ data' more =>
      rw [data] at data'
      cases data'
      exact ih more

theorem Linked.last_target (linked : Linked name aliases last) :
    (aliases = [] ∧ last = name) ∨ ∃ cname ∈ aliases, cname.rdata = .cname last := by
  induction linked with
  | nil => exact Or.inl ⟨rfl, rfl⟩
  | cons _ data _ ih =>
    refine Or.inr ?_
    rcases ih with ⟨rfl, rfl⟩ | ⟨cname, member, target⟩
    · exact ⟨_, List.mem_cons_self, data⟩
    · exact ⟨cname, List.mem_cons_of_mem _ member, target⟩

/-- What a chase inside the zone collects, and where it leaves the loop. -/
structure Walk (zone : Zone) (qtype : UInt16) (name last : DnsName) (aliases : List Record) :
    Prop where
  linked : Linked name aliases last
  drawn : ∀ cname ∈ aliases, zone.Drawn cname
  inside : ∀ cname ∈ aliases, ∀ target, cname.rdata = .cname target →
    target.endsWith zone.origin = true
  loop : ∀ rounds answers, zone.lookupLoop qtype (rounds + aliases.length) name answers =
    zone.lookupLoop qtype rounds last (answers ++ aliases)

theorem Walk.last_inside (walk : zone.Walk qtype name last aliases) (some : aliases ≠ []) :
    last.endsWith zone.origin = true := by
  rcases walk.linked.last_target with ⟨none, _⟩ | ⟨cname, member, data⟩
  · exact absurd none some
  · exact walk.inside cname member last data

theorem Alias.drawn (placed : Placed zone.origin zone.records) {cname : Record}
    (taken : zone.Alias qtype name cname) : cname.name = name ∧ zone.Drawn cname := by
  obtain ⟨node, looked, _, found⟩ := taken
  exact findNode_drawn placed looked (List.mem_of_find?_eq_some found)

theorem Chased.walk (placed : Placed zone.origin zone.records) {steps : Nat}
    (chased : zone.Chased qtype steps name last) :
    ∃ aliases, aliases.length = steps ∧ zone.Walk qtype name last aliases := by
  induction chased with
  | here =>
    refine ⟨[], rfl, .nil, fun _ none => ?_, fun _ none => ?_, fun rounds answers => ?_⟩
    · cases none
    · cases none
    · rw [List.append_nil]
      rfl
  | @next steps name target last cname taken data inside _ ih =>
    obtain ⟨aliases, length, walk⟩ := ih
    obtain ⟨owner, drawn⟩ := taken.drawn placed
    refine ⟨cname :: aliases, by rw [List.length_cons, length], .cons owner data walk.linked,
      ?_, ?_, ?_⟩
    · exact List.forall_mem_cons.mpr ⟨drawn, walk.drawn⟩
    · refine List.forall_mem_cons.mpr ⟨fun other same => ?_, walk.inside⟩
      rw [data] at same
      cases same
      exact inside
    · intro rounds answers
      rw [List.length_cons, ← Nat.add_assoc, lookupLoop_alias taken]
      simp only [data, inside, if_true]
      rw [walk.loop, List.append_assoc]
      rfl

/-- How a chase ends: its rounds are used up, at a name without an alias, or with a target
outside. -/
theorem chase_ends (typed : CnamesTyped zone) (qtype : UInt16) :
    ∀ (rounds : Nat) (name : DnsName), ∃ steps last, zone.Chased qtype steps name last ∧
      (steps = rounds ∨ steps < rounds ∧ ((∀ cname, ¬ zone.Alias qtype last cname) ∨
        ∃ cname target, zone.Alias qtype last cname ∧ cname.rdata = .cname target ∧
          target.endsWith zone.origin = false)) := by
  intro rounds
  induction rounds with
  | zero => exact fun name => ⟨0, name, .here, Or.inl rfl⟩
  | succ rounds ih =>
    intro name
    by_cases aliased : ∃ cname, zone.Alias qtype name cname
    · obtain ⟨cname, taken⟩ := aliased
      obtain ⟨target, data⟩ := typed.alias taken
      cases inside : target.endsWith zone.origin with
      | false =>
        refine ⟨0, name, .here, Or.inr ⟨Nat.succ_pos rounds, Or.inr ?_⟩⟩
        exact ⟨cname, target, taken, data, inside⟩
      | true =>
        obtain ⟨steps, last, chased, ended⟩ := ih target
        refine ⟨steps + 1, last, .next taken data inside chased, ?_⟩
        rcases ended with rfl | ⟨early, ended⟩
        · exact Or.inl rfl
        · exact Or.inr ⟨Nat.succ_lt_succ early, ended⟩
    · exact ⟨0, name, .here, Or.inr ⟨Nat.succ_pos rounds, Or.inl (not_exists.mp aliased)⟩⟩

theorem lookupLoop_plain (plain : ∀ cname, ¬ zone.Alias qtype name cname) (rounds : Nat)
    (answers : List Record) :
    zone.lookupLoop qtype (rounds + 1) name answers =
      some { rcode := if zone.findNode name = none ∧ zone.hasNamesBelow name = false ∧
                 answers = [] then rcodeNxdomain else rcodeNoerror
             answers := answers ++ zone.matching qtype name
             negative := (zone.matching qtype name).isEmpty
             offsite := none } := by
  unfold lookupLoop matching
  cases looked : zone.findNode name with
  | none =>
    cases names : zone.hasNamesBelow name <;> cases answers <;> simp
  | some node =>
    simp only [Option.getD_some]
    cases matched : node.filter fun record => qtype = typeAny ∨ record.rtype = qtype with
    | cons first rest => simp
    | nil =>
      have unaliased : node.find? (fun record => record.rtype = typeCname) = none := by
        cases found : node.find? fun record => record.rtype = typeCname with
        | none => rfl
        | some cname => exact absurd ⟨node, looked, matched, found⟩ (plain cname)
      simp [unaliased]

/-! ## Answers -/

/-- CNAMEs up to the last name and then other records, with the fields that go with them. -/
structure Outline (zone : Zone) (qname : DnsName) (result : LookupResult)
    (aliases matched : List Record) (last : DnsName) : Prop where
  answers : result.answers = aliases ++ matched
  short : aliases.length ≤ 8
  linked : Linked qname aliases last
  inside : ∀ cname ∈ aliases.dropLast, ∀ target, cname.rdata = .cname target →
    target.endsWith zone.origin = true
  drawn : ∀ record ∈ result.answers, zone.Drawn record
  nxdomain : result.rcode = rcodeNxdomain ↔ aliases = [] ∧ zone.Absent qname
  servfail : result.rcode = rcodeServfail ↔
    aliases.length = 8 ∧ last.endsWith zone.origin = true
  noerror : result.rcode = rcodeNxdomain ∨ result.rcode = rcodeServfail ∨
    result.rcode = rcodeNoerror
  offsite : ∀ target, result.offsite = some target ↔
    target = last ∧ aliases ≠ [] ∧ matched = [] ∧ last.endsWith zone.origin = false
  negative : result.negative = true ↔
    matched = [] ∧ result.offsite = none ∧ result.rcode ≠ rcodeServfail

/-- Behind the CNAMEs stand all the matching records of the last name. -/
structure Shape (zone : Zone) (qname : DnsName) (qtype : UInt16) (result : LookupResult)
    (aliases matched : List Record) (last : DnsName) : Prop
    extends zone.Outline qname result aliases matched last where
  found : matched = zone.matching qtype last

/-- The same up to the bound on the chase: under SERVFAIL there are the CNAMEs alone. -/
structure BoundedShape (zone : Zone) (qname : DnsName) (qtype : UInt16) (result : LookupResult)
    (aliases matched : List Record) (last : DnsName) : Prop
    extends zone.Outline qname result aliases matched last where
  found : result.rcode ≠ rcodeServfail → matched = zone.matching qtype last
  cut : result.rcode = rcodeServfail → matched = []

def Truncated (zone : Zone) (qname : DnsName) (qtype : UInt16) : Prop :=
  ∃ last, zone.Chased qtype 8 qname last ∧ zone.matching qtype last ≠ []

section Shapes

variable (placed : Placed zone.origin zone.records) {qname : DnsName}

include placed

theorem matching_drawn {record : Record} (member : record ∈ zone.matching qtype name) :
    zone.Drawn record := by
  unfold matching at member
  obtain ⟨held, _⟩ := List.mem_filter.mp member
  cases found : zone.findNode name with
  | none =>
    rw [found] at held
    cases held
  | some node =>
    rw [found] at held
    exact (findNode_drawn placed found held).2

theorem Walk.shape_plain (walk : zone.Walk qtype qname last aliases) (early : aliases.length < 8)
    (plain : ∀ cname, ¬ zone.Alias qtype last cname) :
    ∃ result, zone.lookup qname qtype = some result ∧
      zone.Shape qname qtype result aliases (zone.matching qtype last) last := by
  obtain ⟨rounds, eight⟩ : ∃ rounds, 8 = rounds + 1 + aliases.length :=
    ⟨7 - aliases.length, by omega⟩
  have looked := walk.loop (rounds + 1) []
  rw [← eight, lookupLoop_plain plain, List.nil_append] at looked
  have onsite : aliases ≠ [] → last.endsWith zone.origin ≠ false := by
    intro some
    rw [walk.last_inside some]
    decide
  refine ⟨_, looked, ⟨rfl, by omega, walk.linked, ?_, ?_, ?_, ?_, ?_, ?_, ?_⟩, rfl⟩
  · exact fun cname member => walk.inside cname ((List.dropLast_sublist _).subset member)
  · intro record member
    rcases List.mem_append.mp member with member | member
    · exact walk.drawn record member
    · exact matching_drawn placed member
  · rw [absent_iff placed]
    dsimp only
    split
    · rename_i missing
      obtain ⟨unfound, alone, rfl⟩ := missing
      cases walk.linked
      exact ⟨fun _ => ⟨rfl, unfound, alone⟩, fun _ => rfl⟩
    · rename_i present
      refine iff_of_false (by decide) ?_
      rintro ⟨rfl, unfound, alone⟩
      cases walk.linked
      exact present ⟨unfound, alone, rfl⟩
  · refine iff_of_false ?_ fun full => by omega
    dsimp only
    split <;> decide
  · dsimp only
    split <;> decide
  · intro target
    exact iff_of_false (by simp) fun away => onsite away.2.1 away.2.2.2
  · dsimp only
    rw [List.isEmpty_iff]
    refine ⟨fun none => ⟨none, rfl, ?_⟩, fun none => none.1⟩
    split <;> decide

theorem Walk.shape_offsite (walk : zone.Walk qtype qname last aliases)
    (early : aliases.length < 8) {cname : Record} {target : DnsName}
    (taken : zone.Alias qtype last cname) (data : cname.rdata = .cname target)
    (outside : target.endsWith zone.origin = false) :
    ∃ result, zone.lookup qname qtype = some result ∧
      zone.Shape qname qtype result (aliases ++ [cname]) [] target := by
  obtain ⟨rounds, eight⟩ : ∃ rounds, 8 = rounds + 1 + aliases.length :=
    ⟨7 - aliases.length, by omega⟩
  obtain ⟨owner, drawn⟩ := taken.drawn placed
  have looked := walk.loop (rounds + 1) []
  rw [← eight, lookupLoop_alias taken, List.nil_append] at looked
  simp only [data, outside, Bool.false_eq_true, if_false] at looked
  have unfound : zone.findNode target = none := by
    cases found : zone.findNode target with
    | none => rfl
    | some node =>
      rw [inside_of_findNode placed found] at outside
      cases outside
  have unmatched : [] = zone.matching qtype target := by
    rw [matching, unfound]
    rfl
  refine ⟨_, looked, ⟨by simp, by simp; omega, walk.linked.snoc owner data, ?_, ?_, ?_,
    ?_, ?_, ?_, ?_⟩, unmatched⟩
  · rw [List.dropLast_concat]
    exact walk.inside
  · intro record member
    rcases List.mem_append.mp member with member | member
    · exact walk.drawn record member
    · rw [List.mem_singleton.mp member]
      exact drawn
  · have apart : rcodeNoerror ≠ rcodeNxdomain := by decide
    exact iff_of_false apart fun none => by simp at none
  · have apart : rcodeNoerror ≠ rcodeServfail := by decide
    refine iff_of_false apart fun full => ?_
    rw [outside] at full
    cases full.2
  · exact Or.inr (Or.inr rfl)
  · intro other
    rw [Option.some_inj]
    constructor
    · rintro rfl
      exact ⟨rfl, by simp, rfl, outside⟩
    · rintro ⟨rfl, _⟩
      rfl
  · simp

omit placed in
theorem Walk.outline_exhausted (walk : zone.Walk qtype qname last aliases)
    (full : aliases.length = 8) :
    ∃ result, zone.lookup qname qtype = some result ∧ result.rcode = rcodeServfail ∧
      zone.Outline qname result aliases [] last := by
  have looked := walk.loop 0 []
  rw [full, List.nil_append] at looked
  have some : aliases ≠ [] := by
    intro none
    rw [none] at full
    cases full
  have inside := walk.last_inside some
  refine ⟨_, looked, rfl, by simp, by omega, walk.linked, ?_, walk.drawn, ?_, ?_, ?_, ?_, ?_⟩
  · exact fun cname member => walk.inside cname ((List.dropLast_sublist _).subset member)
  · have apart : rcodeServfail ≠ rcodeNxdomain := by decide
    exact iff_of_false apart fun none => some none.1
  · exact ⟨fun _ => ⟨full, inside⟩, fun _ => rfl⟩
  · exact Or.inr (Or.inl rfl)
  · intro target
    simp [inside]
  · simp

theorem Truncated.unshaped (truncated : zone.Truncated qname qtype) {result : LookupResult}
    (looked : zone.lookup qname qtype = some result) (matched : List Record) (final : DnsName) :
    ¬ zone.Shape qname qtype result aliases matched final := by
  intro shape
  obtain ⟨last, chased, some⟩ := truncated
  obtain ⟨walked, length, walk⟩ := chased.walk placed
  have exhausted := walk.loop 0 []
  rw [length, List.nil_append] at exhausted
  rw [lookup, exhausted] at looked
  cases looked
  obtain ⟨full, _⟩ := shape.servfail.mp rfl
  have answers : walked = aliases ++ matched := shape.answers
  have none : matched = [] := by
    have count := congrArg List.length answers
    rw [List.length_append] at count
    exact List.length_eq_zero_iff.mp (by omega)
  rw [none, List.append_nil] at answers
  subst answers
  have found := shape.found
  rw [none, shape.linked.unique walk.linked] at found
  exact some found.symm

end Shapes

/-- Answers have this shape, except where the rounds end before the records. -/
theorem lookup_shape_iff (zone : Zone) (qname : DnsName) (qtype : UInt16)
    (structured : Structured zone) (typed : CnamesTyped zone) :
    (∃ result aliases matched last, zone.lookup qname qtype = some result ∧
      zone.Shape qname qtype result aliases matched last) ↔ ¬ zone.Truncated qname qtype := by
  have placed := structured.placed
  constructor
  · rintro ⟨result, aliases, matched, last, looked, shape⟩ truncated
    exact truncated.unshaped placed looked matched last shape
  · intro whole
    obtain ⟨steps, last, chased, ended⟩ := chase_ends typed qtype 8 qname
    obtain ⟨aliases, rfl, walk⟩ := chased.walk placed
    rcases ended with full | ⟨early, plain | ⟨cname, target, taken, data, outside⟩⟩
    · have unmatched : zone.matching qtype last = [] := by
        by_contra some
        exact whole ⟨last, full ▸ chased, some⟩
      obtain ⟨result, looked, _, outline⟩ := walk.outline_exhausted full
      exact ⟨result, aliases, [], last, looked, outline, unmatched.symm⟩
    · obtain ⟨result, looked, shape⟩ := walk.shape_plain placed early plain
      exact ⟨result, aliases, _, last, looked, shape⟩
    · obtain ⟨result, looked, shape⟩ := walk.shape_offsite placed early taken data outside
      exact ⟨result, _, [], target, looked, shape⟩

/-- Every lookup returns an answer of this shape, with SERVFAIL for a chase that takes more
than the eight rounds. -/
theorem lookup_shape (zone : Zone) (qname : DnsName) (qtype : UInt16)
    (structured : Structured zone) (typed : CnamesTyped zone) :
    ∃ result aliases matched last, zone.lookup qname qtype = some result ∧
      zone.BoundedShape qname qtype result aliases matched last := by
  have placed := structured.placed
  obtain ⟨steps, last, chased, ended⟩ := chase_ends typed qtype 8 qname
  obtain ⟨aliases, rfl, walk⟩ := chased.walk placed
  rcases ended with full | ⟨early, plain | ⟨cname, target, taken, data, outside⟩⟩
  · obtain ⟨result, looked, failed, outline⟩ := walk.outline_exhausted full
    exact ⟨result, aliases, [], last, looked, outline, fun other => absurd failed other,
      fun _ => rfl⟩
  · obtain ⟨result, looked, shape⟩ := walk.shape_plain placed early plain
    refine ⟨result, aliases, _, last, looked, shape.toOutline, fun _ => rfl, fun failed => ?_⟩
    have full := (shape.servfail.mp failed).1
    omega
  · obtain ⟨result, looked, shape⟩ := walk.shape_offsite placed early taken data outside
    exact ⟨result, _, [], target, looked, shape.toOutline, fun _ => shape.found, fun _ => rfl⟩

end Zone

theorem lookup_shape_shell :
    Structured shell ∧ CnamesTyped shell ∧
      ∃ result aliases matched last, shell.lookup apexName typeA = some result ∧
        shell.BoundedShape apexName typeA result aliases matched last :=
  ⟨shell_structured, shell_cnamesTyped,
    Zone.lookup_shape shell apexName typeA shell_structured shell_cnamesTyped⟩

def hostAlias (first : UInt8) : Record :=
  { name := hostName first, class_ := classIn, ttl := 60, rdata := .cname (hostName (first + 1)) }

def eightAliases : List Record := [97, 98, 99, 100, 101, 102, 103, 104].map hostAlias

/-- Eight CNAMEs in a row and an address at the end come out as SERVFAIL without the
address. -/
theorem eightAliases_unshaped :
    ∃ zone, Zone.fromRecords apexName (apexSoa :: hostAddress 105 :: eightAliases) = .ok zone ∧
      Structured zone ∧ CnamesTyped zone ∧
      ¬ ∃ result aliases matched last, zone.lookup (hostName 97) typeA = some result ∧
        zone.Shape (hostName 97) typeA result aliases matched last := by
  have computed : (Zone.fromRecords apexName
      (apexSoa :: hostAddress 105 :: eightAliases)).toOption.any (fun zone =>
        (zone.lookup (hostName 97) typeA).any (fun result =>
          result.rcode = rcodeServfail ∧ result.answers = eightAliases) ∧
        zone.matching typeA (hostName 105) = [hostAddress 105]) = true := by decide +kernel
  obtain ⟨zone, built, passed⟩ := exists_of_toOption_any computed
  obtain ⟨answered, address⟩ := of_decide_eq_true passed
  have typed : CnamesTyped zone := by
    refine (fromRecords_cnamesTyped_iff built).mpr fun record member rtype => ?_
    rcases List.mem_cons.mp member with rfl | member
    · exact absurd rtype (by decide)
    rcases List.mem_cons.mp member with rfl | member
    · exact absurd rtype (by decide)
    obtain ⟨first, _, rfl⟩ := List.mem_map.mp member
    exact ⟨_, rfl⟩
  refine ⟨zone, built, (fromRecords_structured built).1, typed, ?_⟩
  rintro ⟨result, aliases, matched, last, looked, shape⟩
  rw [looked] at answered
  obtain ⟨rcode, answers⟩ := of_decide_eq_true answered
  obtain ⟨full, _⟩ := shape.servfail.mp rcode
  rw [shape.answers] at answers
  obtain ⟨same, none⟩ := List.append_inj (answers.trans (List.append_nil _).symm) full
  have linked : Zone.Linked (hostName 97) eightAliases (hostName 105) :=
    .cons rfl rfl (.cons rfl rfl (.cons rfl rfl (.cons rfl rfl
      (.cons rfl rfl (.cons rfl rfl (.cons rfl rfl (.cons rfl rfl .nil)))))))
  have ended : last = hostName 105 := (same ▸ shape.linked).unique linked
  have found := shape.found
  rw [none, ended, address] at found
  cases found

end Rdns.Zones
