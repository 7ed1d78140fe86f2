import Rdns.Lib.Latest
import Rdns.Zones.File
import Rdns.Resolver.Serve

/-!
# Response policy

`Rpz::parse` and `Rpz::lookup` of dns-resolver, and the place of the policy in
`resolve_local`.  A rule is for its name and everything below it, and the most specific
one decides; the walk up the labels stops before the root.  The names that go to the
cache and upstream are fixed before the cache is read (`plan`).
-/

set_option autoImplicit false

namespace Rdns.Resolver.Serve

open Rdns.Lib Rdns.Proto Rdns.Dnssec Rdns.Zones

/-! ## Reading the rules -/

def parseIpAddr (text : List Char) : Option IpAddr :=
  let read := ((readIpv4 text).map fun found => (IpAddr.v4 found.1, found.2)).or
    ((readIpv6 text).map fun found => (IpAddr.v6 found.1, found.2))
  match read with
  | some (address, []) => some address
  | _ => none

abbrev Rule := DnsName × RpzAction

def ruleAction (line : Nat) : List (List Char) → Except String RpzAction
  | [] => .ok .block
  | ip :: _ =>
    match parseIpAddr ip with
    | some address => .ok (.redirect address)
    | none =>
      .error ("rpz line " ++ toString line ++ ": bad address '" ++ String.ofList ip ++ "'")

/-- One line of the file; none where nothing stands before its comment. -/
def parseRule (line : Nat) (raw : List Char) : Except String (Option Rule) :=
  match splitWhitespace (raw.takeWhile fun c => c ≠ '#' ∧ c ≠ ';') with
  | [] => .ok none
  | nameStr :: fields =>
    match DnsName.parseStr (String.ofList nameStr) with
    | .error e =>
      .error ("rpz line " ++ toString line ++ ": bad name '" ++ String.ofList nameStr ++
        "': " ++ e.display)
    | .ok name => do
      let action ← ruleAction line fields
      if 1 < fields.length then .error ("rpz line " ++ toString line ++ ": trailing fields")
      else .ok (some (name, action))

namespace Rpz

def parseFrom : Nat → List (List Char) → HashMap DnsName RpzAction →
    Except String (HashMap DnsName RpzAction)
  | _, [], rules => .ok rules
  | line, raw :: rest, rules => do
    match ← parseRule line raw with
    | none => parseFrom (line + 1) rest rules
    | some (name, action) => parseFrom (line + 1) rest (rules.insert name action)

def parse (text : String) : Except String Rpz := do
  let rules ← parseFrom 1 (lines text.toList) HashMap.empty
  pure ⟨rules⟩

end Rpz

def rulesFrom : Nat → List (List Char) → List Rule
  | _, [] => []
  | line, raw :: rest =>
    match parseRule line raw with
    | .ok (some rule) => rule :: rulesFrom (line + 1) rest
    | _ => rulesFrom (line + 1) rest

def rulesOf (text : String) : List Rule := rulesFrom 1 (lines text.toList)

def Rule.change (rule : Rule) : Change DnsName RpzAction := .set rule.1 rule.2

namespace Rpz

theorem parseFrom_ok : ∀ {raws : List (List Char)} {line : Nat}
    {rules last : HashMap DnsName RpzAction}, parseFrom line raws rules = .ok last →
      last = ((rulesFrom line raws).map Rule.change).foldl HashMap.change rules := by
  intro raws
  induction raws with
  | nil =>
    intro line rules last done
    cases done
    rfl
  | cons raw rest ih =>
    intro line rules last done
    unfold parseFrom at done
    obtain ⟨read, parsed, done⟩ := fallible_bind done
    cases read with
    | none | some rule =>
      rw [rulesFrom, parsed]
      exact ih done

theorem parse_latest {text : String} {rpz : Rpz} (parsed : parse text = .ok rpz) (name : DnsName)
    (action : RpzAction) :
    rpz.rules.get? name = some action ↔ IsLatest ((rulesOf text).map Rule.change) name action := by
  obtain ⟨rules, read, done⟩ := fallible_bind parsed
  cases done
  rw [parseFrom_ok read, ← HashMap.get?_foldl_change_iff]
  rfl

/-! ## The walk up the labels -/

/-- The longest of the rule names at or above the name, with its action. -/
structure Decides (rpz : Rpz) (qname name : DnsName) (action : RpzAction) : Prop where
  rule : rpz.rules.get? name = some action
  covers : qname.endsWith name = true
  longest : ∀ other action', rpz.rules.get? other = some action' → qname.endsWith other = true →
    other.labelCount ≤ name.labelCount

def Covers (rpz : Rpz) (qname : DnsName) : Prop :=
  ∃ name action, rpz.rules.get? name = some action ∧ qname.endsWith name = true

theorem Decides.unique {rpz : Rpz} {qname first second : DnsName} {action action' : RpzAction}
    (left : rpz.Decides qname first action) (right : rpz.Decides qname second action') :
    first = second ∧ action = action' := by
  have count : first.labelCount = second.labelCount :=
    Nat.le_antisymm (right.longest first action left.rule left.covers)
      (left.longest second action' right.rule right.covers)
  have same := DnsName.eq_of_endsWith left.covers right.covers count
  have rule := left.rule
  rw [same, right.rule] at rule
  exact ⟨same, (Option.some.inj rule).symm⟩

theorem lookup_cons (rpz : Rpz) {qname above : DnsName} {label : Label}
    (shape : qname.labels = label :: above.labels) :
    rpz.lookup qname = (rpz.rules.get? qname).or (rpz.lookup above) := by
  have whole : DnsName.fromLabels (label :: above.labels) = .ok qname := by
    rw [← shape]
    exact (DnsName.fromLabels_eq_ok_iff _ _).mpr rfl
  rw [lookup, shape, lookupFrom, whole]
  dsimp only
  cases rpz.rules.get? qname with
  | none => rfl
  | some action => rfl

theorem endsWith_cons_iff {qname above : DnsName} {label : Label}
    (shape : qname.labels = label :: above.labels) (name : DnsName) :
    qname.endsWith name = true ↔ name = qname ∨ above.endsWith name = true := by
  rw [DnsName.endsWith_iff, DnsName.endsWith_iff, shape, List.suffix_cons_iff, ← shape]
  exact or_congr_left ⟨DnsName.ext, congrArg DnsName.labels⟩

theorem endsWith_root (name : DnsName) : name.endsWith DnsName.root = true :=
  (DnsName.endsWith_iff name DnsName.root).mpr List.nil_suffix

/-- Either a rule other than the root's decides, or there is none. -/
theorem lookup_cases (rpz : Rpz) (qname : DnsName) :
    (∃ name action, name ≠ DnsName.root ∧ rpz.Decides qname name action ∧
        rpz.lookup qname = some action) ∨
      (rpz.lookup qname = none ∧ ∀ name action, rpz.rules.get? name = some action →
        qname.endsWith name = true → name = DnsName.root) := by
  obtain ⟨labels, valid⟩ := qname
  induction labels with
  | nil =>
    refine Or.inr ⟨rfl, fun name action _ covers => ?_⟩
    have short := (DnsName.endsWith_iff _ name).mp covers
    exact DnsName.ext (List.suffix_nil.mp short)
  | cons label rest ih =>
    have upper : ValidLabels rest := valid.drop 1
    have shape : (⟨label :: rest, valid⟩ : DnsName).labels =
        label :: (⟨rest, upper⟩ : DnsName).labels := rfl
    have suffixes := endsWith_cons_iff shape
    rw [lookup_cons rpz shape]
    cases here : rpz.rules.get? ⟨label :: rest, valid⟩ with
    | some action =>
      refine Or.inl ⟨_, action, fun same => ?_, ⟨here, DnsName.endsWith_refl _, ?_⟩, rfl⟩
      · cases congrArg DnsName.labels same
      · intro other _ _ covers
        exact DnsName.labelCount_le_of_endsWith covers
    | none =>
      -- the name itself has no rule, so nothing changes on the way up
      have higher : ∀ name action, rpz.rules.get? name = some action →
          (⟨label :: rest, valid⟩ : DnsName).endsWith name = true →
            (⟨rest, upper⟩ : DnsName).endsWith name = true := by
        intro name action rule covers
        rcases (suffixes name).mp covers with same | above
        · rw [same, here] at rule
          cases rule
        · exact above
      rcases ih upper with ⟨name, action, proper, decides, found⟩ | ⟨missed, only⟩
      · refine Or.inl ⟨name, action, proper, ⟨decides.rule, ?_, ?_⟩, found⟩
        · exact (suffixes name).mpr (Or.inr decides.covers)
        · intro other action' rule covers
          exact decides.longest other action' rule (higher other action' rule covers)
      · refine Or.inr ⟨missed, fun name action rule covers => ?_⟩
        exact only name action rule (higher name action rule covers)

theorem lookup_eq_some_iff (rpz : Rpz) (qname : DnsName) (action : RpzAction) :
    rpz.lookup qname = some action ↔
      ∃ name, name ≠ DnsName.root ∧ rpz.Decides qname name action := by
  rcases rpz.lookup_cases qname with ⟨name, found, proper, decides, looked⟩ | ⟨missed, only⟩
  · rw [looked]
    constructor
    · intro same
      cases same
      exact ⟨name, proper, decides⟩
    · rintro ⟨other, _, also⟩
      rw [(decides.unique also).2]
  · rw [missed]
    refine iff_of_false (fun impossible => by cases impossible) ?_
    rintro ⟨name, proper, decides⟩
    exact proper (only name action decides.rule decides.covers)

theorem lookup_eq_none_iff (rpz : Rpz) (qname : DnsName) :
    rpz.lookup qname = none ↔ ∀ name action, rpz.rules.get? name = some action →
      qname.endsWith name = true → name = DnsName.root := by
  rcases rpz.lookup_cases qname with ⟨name, found, proper, decides, looked⟩ | ⟨missed, only⟩
  · rw [looked]
    refine iff_of_false (fun impossible => by cases impossible) fun only => ?_
    exact proper (only name found decides.rule decides.covers)
  · exact iff_of_true missed only

end Rpz

/-! ## The most specific rule -/

/-- The result is the action of the last line of the longest rule name at or above the
name; there is none if and only if there is no such rule name. -/
structure Prescribed (rules : List Rule) (qname : DnsName) (result : Option RpzAction) : Prop where
  decided : ∀ action, result = some action ↔
    ∃ name, IsLatest (rules.map Rule.change) name action ∧ qname.endsWith name = true ∧
      ∀ rule ∈ rules, qname.endsWith rule.1 = true → rule.1.labelCount ≤ name.labelCount
  undecided : result = none ↔ ∀ rule ∈ rules, qname.endsWith rule.1 = false

def RootIdle (rules : List Rule) (qname : DnsName) : Prop :=
  (∃ rule ∈ rules, rule.1 = DnsName.root) →
    ∃ rule ∈ rules, rule.1 ≠ DnsName.root ∧ qname.endsWith rule.1 = true

section Prescribed

variable {text : String} {rpz : Rpz}

theorem rule_iff (parsed : Rpz.parse text = .ok rpz) (name : DnsName) :
    (∃ action, rpz.rules.get? name = some action) ↔ ∃ rule ∈ rulesOf text, rule.1 = name := by
  have sets : ∀ change ∈ (rulesOf text).map Rule.change, change.value ≠ none := by
    intro change member
    obtain ⟨rule, _, rfl⟩ := List.mem_map.mp member
    exact Option.some_ne_none _
  simp only [Rpz.parse_latest parsed, exists_isLatest_iff sets, List.mem_map]
  constructor
  · rintro ⟨_, ⟨rule, member, rfl⟩, same⟩
    exact ⟨rule, member, same⟩
  · rintro ⟨rule, member, same⟩
    exact ⟨rule.change, ⟨rule, member, rfl⟩, same⟩

theorem decides_iff (parsed : Rpz.parse text = .ok rpz) (qname name : DnsName)
    (action : RpzAction) :
    rpz.Decides qname name action ↔
      IsLatest ((rulesOf text).map Rule.change) name action ∧ qname.endsWith name = true ∧
        ∀ rule ∈ rulesOf text, qname.endsWith rule.1 = true →
          rule.1.labelCount ≤ name.labelCount := by
  rw [← Rpz.parse_latest parsed]
  constructor
  · intro decides
    refine ⟨decides.rule, decides.covers, fun rule member covers => ?_⟩
    obtain ⟨action', stored⟩ := (rule_iff parsed rule.1).mpr ⟨rule, member, rfl⟩
    exact decides.longest rule.1 action' stored covers
  · rintro ⟨stored, covers, longest⟩
    refine ⟨stored, covers, fun other action' rule covers => ?_⟩
    obtain ⟨line, member, rfl⟩ := (rule_iff parsed other).mp ⟨action', rule⟩
    exact longest line member covers

theorem rootIdle_of_prescribed (parsed : Rpz.parse text = .ok rpz) {qname : DnsName}
    (prescribed : Prescribed (rulesOf text) qname (rpz.lookup qname)) :
    RootIdle (rulesOf text) qname := by
  intro rootRule
  by_contra alone
  obtain ⟨action, stored⟩ := (rule_iff parsed DnsName.root).mpr rootRule
  have longest : ∀ other action', rpz.rules.get? other = some action' →
      qname.endsWith other = true → other.labelCount ≤ DnsName.root.labelCount := by
    intro other action' rule covers
    obtain ⟨line, member, rfl⟩ := (rule_iff parsed other).mp ⟨action', rule⟩
    by_cases top : line.1 = DnsName.root
    · rw [top]
    · exact absurd ⟨line, member, top, covers⟩ alone
  have decides : rpz.Decides qname DnsName.root action := ⟨stored, Rpz.endsWith_root qname, longest⟩
  have found := (prescribed.decided action).mpr
    ⟨DnsName.root, (decides_iff parsed qname DnsName.root action).mp decides⟩
  obtain ⟨name, proper, other⟩ := (rpz.lookup_eq_some_iff qname action).mp found
  exact proper (other.unique decides).1

theorem ne_root_of_decides (parsed : Rpz.parse text = .ok rpz) {qname name : DnsName}
    {action : RpzAction} (idle : RootIdle (rulesOf text) qname)
    (decides : rpz.Decides qname name action) : name ≠ DnsName.root := by
  rintro rfl
  obtain ⟨rule, member, other, covers⟩ :=
    idle ((rule_iff parsed DnsName.root).mp ⟨action, decides.rule⟩)
  obtain ⟨action', stored⟩ := (rule_iff parsed rule.1).mpr ⟨rule, member, rfl⟩
  have short := decides.longest rule.1 action' stored covers
  exact other (DnsName.ext (List.length_eq_zero_iff.mp (Nat.le_zero.mp short)))

theorem lookup_none_of_rootIdle (parsed : Rpz.parse text = .ok rpz) {qname : DnsName}
    (idle : RootIdle (rulesOf text) qname) :
    rpz.lookup qname = none ↔ ∀ rule ∈ rulesOf text, qname.endsWith rule.1 = false := by
  rw [rpz.lookup_eq_none_iff]
  constructor
  · intro only rule member
    by_contra covers
    rw [Bool.not_eq_false] at covers
    obtain ⟨action, stored⟩ := (rule_iff parsed rule.1).mpr ⟨rule, member, rfl⟩
    obtain ⟨other, listed, apart, also⟩ := idle ⟨rule, member, only rule.1 action stored covers⟩
    obtain ⟨action', stored'⟩ := (rule_iff parsed other.1).mpr ⟨other, listed, rfl⟩
    exact apart (only other.1 action' stored' also)
  · intro none name action stored covers
    obtain ⟨rule, member, rfl⟩ := (rule_iff parsed name).mp ⟨action, stored⟩
    rw [none rule member] at covers
    cases covers

end Prescribed

/-- The lookup is by the most specific rule, unless that is the root's. -/
theorem rpzLookup_prescribed_iff {text : String} {rpz : Rpz} (parsed : Rpz.parse text = .ok rpz)
    (qname : DnsName) :
    Prescribed (rulesOf text) qname (rpz.lookup qname) ↔ RootIdle (rulesOf text) qname := by
  constructor
  · exact rootIdle_of_prescribed parsed
  · intro idle
    refine ⟨fun action => ?_, lookup_none_of_rootIdle parsed idle⟩
    rw [rpz.lookup_eq_some_iff]
    simp only [← decides_iff parsed]
    constructor
    · rintro ⟨name, _, decides⟩
      exact ⟨name, decides⟩
    · rintro ⟨name, decides⟩
      exact ⟨name, ne_root_of_decides parsed idle decides, decides⟩

def nestedRules : String := "test 10.0.0.9\nex.test\nex.test 10.0.0.8 # sinkhole\n"

theorem nestedRules_prescribed :
    ∃ rpz, Rpz.parse nestedRules = .ok rpz ∧
      Prescribed (rulesOf nestedRules) apexName (rpz.lookup apexName) := by
  have computed : ((Rpz.parse nestedRules).toOption.any fun _ => true) = true := by decide +kernel
  obtain ⟨rpz, parsed, _⟩ := exists_of_toOption_any computed
  refine ⟨rpz, parsed, (rpzLookup_prescribed_iff parsed apexName).mpr ?_⟩
  rintro ⟨rule, member, top⟩
  have proper : ((rulesOf nestedRules).all fun rule => rule.1 ≠ DnsName.root) = true := by
    decide +kernel
  exact absurd top (by simpa using List.all_eq_true.mp proper rule member)

theorem rulesOf_dot : rulesOf "." = [(DnsName.root, .block)] := rfl

/-- A rule for all names is found for none. -/
theorem rootRule_ignored :
    ∃ rpz, Rpz.parse "." = .ok rpz ∧
      (∃ rule ∈ rulesOf ".", ∀ qname : DnsName, qname.endsWith rule.1 = true) ∧
      ∀ qname, rpz.lookup qname = none ∧ ¬Prescribed (rulesOf ".") qname (rpz.lookup qname) := by
  have parsed : Rpz.parse "." = .ok ⟨HashMap.empty.insert DnsName.root .block⟩ := rfl
  refine ⟨_, parsed, ?_, fun qname => ?_⟩
  · rw [rulesOf_dot]
    exact ⟨_, List.mem_singleton_self _, Rpz.endsWith_root⟩
  · have missed : (⟨HashMap.empty.insert DnsName.root .block⟩ : Rpz).lookup qname = none := by
      rw [Rpz.lookup_eq_none_iff]
      intro name action stored _
      rw [HashMap.get?_insert] at stored
      split at stored
      · rename_i same
        exact same
      · cases stored
    refine ⟨missed, fun prescribed => ?_⟩
    have uncovered := prescribed.undecided.mp missed (DnsName.root, .block)
      (by rw [rulesOf_dot]; exact List.mem_singleton_self _)
    rw [Rpz.endsWith_root] at uncovered
    cases uncovered

/-! ## What goes to the cache and upstream -/

section Plan

variable {crypto : Crypto} (config : Config crypto) (query : Message) (recursionAllowed : Bool)

def Policed (client : IpAddr) : Prop :=
  ∀ rest, plan config query recursionAllowed client = some (.external rest) →
    ¬config.rpz.Covers rest.target

/-- A CNAME chain in a zone leaves to names without a rule only. -/
def ChainsClear (client : IpAddr) (q : Question) : Prop :=
  ∀ zone resp target, findZone (config.zonesFor client) q.qname = some zone →
    zoneResponse config query (openResponse config query recursionAllowed) q zone =
      some (resp, some target) →
    config.canRecurse target = true → ¬config.rpz.Covers target

def RootBacked (client : IpAddr) (q : Question) : Prop :=
  findZone (config.zonesFor client) q.qname = none → config.canRecurse q.qname = true →
    config.rpz.rules.get? DnsName.root ≠ none →
    ∃ name action, name ≠ DnsName.root ∧ config.rpz.rules.get? name = some action ∧
      q.qname.endsWith name = true

/-- Of the names that reach the cache, those outside the zones are checked, up to the root;
those a zone points to are not. -/
theorem resolveLocal_policed_iff (client : IpAddr) :
    (∀ cache now, resolveLocal config cache now query recursionAllowed client =
      (plan config query recursionAllowed client).map (Plan.run cache now)) ∧
    (Policed config query recursionAllowed client ↔
      ∀ q, screenQuery query = .ok q → query.flags.rd = true → recursionAllowed = true →
        ChainsClear config query recursionAllowed client q ∧ RootBacked config client q) := by
  refine ⟨fun cache now =>
    resolveLocal_eq_plan config query recursionAllowed cache now client, ?_⟩
  constructor
  · intro policed q asked desired allowed
    refine ⟨fun zone resp target zoned answered able => ?_, fun outside able rootRule => ?_⟩
    · exact policed ⟨resp, target, q.qtype, true⟩
        ((plan_external_iff config query recursionAllowed client _).mpr
          ⟨q, asked, desired, allowed, able, Or.inl ⟨zone, resp, zoned, answered, rfl⟩⟩)
    · by_contra alone
      have missed : config.rpz.lookup q.qname = none := by
        rw [Rpz.lookup_eq_none_iff]
        intro name action stored covers
        by_contra proper
        exact alone ⟨name, action, proper, stored, covers⟩
      obtain ⟨action, stored⟩ := Option.ne_none_iff_exists'.mp rootRule
      exact policed ⟨_, q.qname, q.qtype, false⟩
        ((plan_external_iff config query recursionAllowed client _).mpr
          ⟨q, asked, desired, allowed, able, Or.inr ⟨outside, missed, rfl⟩⟩)
        ⟨DnsName.root, action, stored, Rpz.endsWith_root q.qname⟩
  · intro clear rest planned covered
    obtain ⟨q, asked, desired, allowed, able, ways⟩ :=
      (plan_external_iff config query recursionAllowed client rest).mp planned
    obtain ⟨chains, backed⟩ := clear q asked desired allowed
    rcases ways with ⟨zone, resp, zoned, answered, _⟩ | ⟨outside, missed, rfl⟩
    · exact chains zone resp rest.target zoned answered able covered
    · -- only the root's rule is left, and another one would have been found
      obtain ⟨name, action, stored, covers⟩ := covered
      have only := (config.rpz.lookup_eq_none_iff q.qname).mp missed
      have top := only name action stored covers
      rw [top] at stored
      obtain ⟨other, action', proper, rule, also⟩ :=
        backed outside able (by rw [stored]; exact Option.some_ne_none action)
      exact proper (only other action' rule also)

end Plan

theorem badName_valid : ValidLabels [[98, 97, 100]] := by decide

def badName : DnsName := ⟨[[98, 97, 100]], badName_valid⟩

def badAlias : Record :=
  { name := drawnName, class_ := classIn, ttl := 60, rdata := .cname badName }

def aliasZone : Zone :=
  ⟨apexName, apexSoa, 2, (HashMap.empty.insert apexName [apexSoa]).insert drawnName [badAlias]⟩

example : Zone.fromRecords apexName [apexSoa, badAlias] = .ok aliasZone := rfl

def blocking : Config sampleCrypto :=
  { serving aliasZone with rpz := ⟨HashMap.empty.insert badName .block⟩, signs := nofun }

def aliasQuery : Message :=
  { asking drawnName typeA with flags := { Flags.default with rd := true } }

/-- Asked for the alias, it goes upstream for the blocked name. -/
theorem blocking_leaks :
    Rpz.parse "bad\n" = .ok blocking.rpz ∧ blocking.rpz.lookup badName = some .block ∧
      blocking.rpz.Covers badName ∧
      ∃ rest cache, resolveLocal blocking (Cache.new 10) 0 aliasQuery true loopback =
        some (.pending rest, cache) ∧ rest.target = badName :=
  ⟨rfl, rfl, ⟨badName, .block, rfl, by decide⟩, _, _, rfl, rfl⟩

end Rdns.Resolver.Serve
