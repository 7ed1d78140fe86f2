import Rdns.Lib.Loops
import Rdns.Zones.Lookup
import Rdns.Dnssec.Nsec3Denial
import Rdns.Resolver.Cache
import Rdns.Resolver.Validator

/-!
# Answering queries

`Resolver::resolve_local` of dns-resolver, the part of a query that needs no
upstream: the checks of the header and the question, authoritative zones per the
client's view, response policy, and the cache.  What is left over is a `Pending`
response, which `resolve_pending` completes.  Where the program would stop with a
panic the functions return none; counters and log lines are left out.
-/

set_option autoImplicit false

namespace Rdns.Resolver.Serve

open Rdns.Lib Rdns.Proto Rdns.Dnssec Rdns.Zones

/-! ## Clients -/

def bitsOf (width : Nat) (octets : Bytes) : BitVec width :=
  BitVec.ofNat width (octets.foldl (fun value octet => value * 256 + octet.toNat) 0)

def prefixMask (width : Nat) (length : UInt8) : BitVec width :=
  if length = 0 then 0 else BitVec.allOnes width <<< (width - length.toNat)

def widthOf : IpAddr → Nat
  | .v4 _ => 32
  | .v6 _ => 128

/-- A network; parsing refuses a prefix longer than the address. -/
structure Cidr where
  net : IpAddr
  length : UInt8
  fits : length.toNat ≤ widthOf net

def Cidr.contains (cidr : Cidr) (ip : IpAddr) : Bool :=
  match cidr.net, ip with
  | .v4 net, .v4 ip =>
    let mask := prefixMask 32 cidr.length
    bitsOf 32 net.toList &&& mask = bitsOf 32 ip.toList &&& mask
  | .v6 net, .v6 ip =>
    let mask := prefixMask 128 cidr.length
    bitsOf 128 net.toList &&& mask = bitsOf 128 ip.toList &&& mask
  | _, _ => false

structure Acl where
  nets : List Cidr

def Acl.isAllowed (acl : Acl) (ip : IpAddr) : Bool := acl.nets.any (·.contains ip)

/-! ## Response policy -/

inductive RpzAction
  | block
  | redirect (ip : IpAddr)

structure Rpz where
  rules : HashMap DnsName RpzAction

def Rpz.lookupFrom (rpz : Rpz) : List Label → Option RpzAction
  | [] => none
  | label :: rest =>
    match DnsName.fromLabels (label :: rest) with
    | .error _ => none
    | .ok candidate =>
      match rpz.rules.get? candidate with
      | some action => some action
      | none => rpz.lookupFrom rest

def Rpz.lookup (rpz : Rpz) (qname : DnsName) : Option RpzAction := rpz.lookupFrom qname.labels

/-! ## The resolver -/

/-- The parts of a `Resolver` that a query reads, other than its cache: of the
upstreams only which there are.  Signed material comes from `SignedZone::sign` alone. -/
structure Config (crypto : Crypto) where
  zones : List Zone
  views : List (Acl × List Zone)
  signed : HashMap DnsName SignedZone
  rpz : Rpz
  pool : Bool
  recursor : Bool
  forwards : List DnsName
  signs : ∀ origin material, signed.get? origin = some material →
    ∃ zone keys now validitySecs nsec3,
      SignedZone.sign crypto zone keys now validitySecs nsec3 = some material

variable {crypto : Crypto}

namespace Config

def zonesFor (config : Config crypto) (client : IpAddr) : List Zone :=
  match config.views.find? fun view => view.1.isAllowed client with
  | some view => view.2
  | none => config.zones

def canRecurse (config : Config crypto) (name : DnsName) : Bool :=
  config.forwards.any name.endsWith || config.recursor || config.pool

end Config

/-- A response that still needs upstream traffic; with `append` the result goes behind
an authoritative CNAME chain, else it is the whole answer. -/
structure Pending where
  resp : Message
  target : DnsName
  qtype : UInt16
  append : Bool

inductive Outcome
  | done (resp : Message)
  | pending (rest : Pending)

def findZone (zones : List Zone) (name : DnsName) : Option Zone :=
  maxByKey (fun zone => zone.origin.labelCount)
    (zones.filter fun zone => name.endsWith zone.origin)

def withRcode (resp : Message) (rcode : UInt8) : Message :=
  { resp with flags := { resp.flags with rcode } }

/-- Cached or fetched records go into a response, and their security into its AD bit. -/
def merge (resp : Message) (hit : Hit) (append : Bool) : Message :=
  if append then
    { resp with
      authorities := if hit.answers.isEmpty then resp.authorities ++ hit.authorities
        else resp.authorities
      answers := resp.answers ++ hit.answers
      flags := { resp.flags with rcode := hit.rcode, ad := resp.flags.ad && hit.secure } }
  else
    { resp with
      answers := hit.answers
      authorities := hit.authorities
      flags := { resp.flags with rcode := hit.rcode, ad := hit.secure } }

def chaosText : Bytes := utf8 "rdns 0.1.0".toList

/-- `version.bind` and `version.server`; the rest of the class is refused. -/
def chaosAnswer (resp : Message) (q : Question) : Message :=
  let isVersion := ["version.bind", "version.server"].any fun text =>
    match DnsName.parseStr text with
    | .ok name => decide (name = q.qname)
    | .error _ => false
  if isVersion ∧ (q.qtype = typeTxt ∨ q.qtype = typeAny) then
    { resp with answers := resp.answers ++
        [{ name := q.qname, class_ := classCh, ttl := 0, rdata := .txt [chaosText] }] }
  else withRcode resp rcodeRefused

/-! ## Authoritative answers -/

def rrsigsFor (signed : SignedZone) (owner : DnsName) (rtype : UInt16) : List Record :=
  (signed.rrsigs.get? (owner, rtype)).getD []

/-- Signatures beside every RRset of the answer, and the proof of a denial. -/
def attachDnssec (crypto : Crypto) (resp : Message) (q : Question) (zone : Zone)
    (signed : SignedZone) (negative : Bool) : Option Message :=
  let sets := firstOccurrences (resp.answers.map fun record => (record.name, record.rtype))
  let resp := { resp with
    answers := resp.answers ++ sets.flatMap fun set => rrsigsFor signed set.1 set.2 }
  if negative then do
    let denial ← signed.denialRecords crypto q.qname (resp.flags.rcode = rcodeNxdomain)
    pure { resp with
      authorities := resp.authorities ++ rrsigsFor signed zone.origin typeSoa ++ denial }
  else some resp

def dnssecFor (config : Config crypto) (query : Message) (zone : Zone) : Option SignedZone :=
  match query.edns with
  | some edns => if edns.doBit then config.signed.get? zone.origin else none
  | none => none

def apexRecords (dnssec : Option SignedZone) (zone : Zone) (q : Question) : Option (List Record) :=
  match dnssec with
  | none => none
  | some signed =>
    if q.qtype = typeDnskey ∧ q.qname = zone.origin then
      some (signed.dnskeyRrset ++ signed.dnskeyRrsigs)
    else if q.qtype = typeNsec3param ∧ q.qname = zone.origin then
      signed.nsec3param.map fun record =>
        record :: rrsigsFor signed zone.origin typeNsec3param
    else none

def zoneAnswer (crypto : Crypto) (resp : Message) (q : Question) (zone : Zone)
    (dnssec : Option SignedZone) (result : LookupResult) : Option Message :=
  let resp := { withRcode resp result.rcode with
    answers := result.answers
    authorities := if result.negative then resp.authorities ++ [zone.soa] else resp.authorities }
  match dnssec with
  | some signed => attachDnssec crypto resp q zone signed result.negative
  | none => some resp

/-- The authoritative part of a response, and where a CNAME chain left the zone. -/
def zoneResponse (config : Config crypto) (query resp : Message) (q : Question) (zone : Zone) :
    Option (Message × Option DnsName) :=
  let resp := { resp with flags := { resp.flags with aa := true } }
  let dnssec := dnssecFor config query zone
  match apexRecords dnssec zone q with
  | some records => some ({ resp with answers := resp.answers ++ records }, none)
  | none => do
    let result ← zone.lookup q.qname q.qtype
    let resp ← zoneAnswer crypto resp q zone dnssec result
    pure (resp, result.offsite)

/-- The checks of header and question: the question, or the response to a query that
goes no further. -/
def screenQuery (query : Message) : Except Message Question :=
  let resp := Message.responseTo query
  if query.edns.any fun edns => edns.version > 0 then
    -- BADVERS is extended rcode 16: one in the OPT record, zero in the header
    .error { resp with edns := resp.edns.map fun edns => { edns with extRcode := 1 } }
  else if query.flags.opcode ≠ 0 then .error (withRcode resp rcodeNotimp)
  else
    match query.questions with
    | [q] =>
      if q.qclass = classCh then .error (chaosAnswer resp q)
      else if q.qclass ≠ classIn ∧ q.qclass ≠ classAny then .error (withRcode resp rcodeNotimp)
      else if q.qtype = typeAxfr ∨ q.qtype = typeIxfr then .error (withRcode resp rcodeNotimp)
      else .ok q
    | _ => .error (withRcode resp rcodeFormerr)

def redirectRecord (q : Question) (ip : IpAddr) : Option Record :=
  let rdata : Option RData :=
    match ip with
    | .v4 octets => if q.qtype = typeA ∨ q.qtype = typeAny then some (.a octets) else none
    | .v6 octets => if q.qtype = typeAaaa ∨ q.qtype = typeAny then some (.aaaa octets) else none
  rdata.map fun rdata => { name := q.qname, class_ := classIn, ttl := 60, rdata }

section Query

variable (config : Config crypto) (cache : Cache) (now : Instant) (query : Message)
  (recursionAllowed : Bool)

/-- A question for one of the zones.  A CNAME chain that leaves it is followed for
clients that may recurse and ask for it. -/
def resolveZone (resp : Message) (q : Question) (zone : Zone) : Option (Outcome × Cache) := do
  let (resp, offsite) ← zoneResponse config query resp q zone
  match offsite with
  | some target =>
    if query.flags.rd && config.canRecurse target && recursionAllowed then
      match cache.get ⟨target, q.qtype⟩ now with
      | (some hit, cache) => pure (.done (merge resp hit true), cache)
      | (none, cache) => pure (.pending ⟨resp, target, q.qtype, true⟩, cache)
    else pure (.done resp, cache)
  | none => pure (.done resp, cache)

/-- A question outside the zones: response policy, then recursion. -/
def resolveOther (resp : Message) (q : Question) : Outcome × Cache :=
  match config.rpz.lookup q.qname with
  | some .block => (.done (withRcode resp rcodeNxdomain), cache)
  | some (.redirect ip) =>
    (.done { resp with answers := resp.answers ++ (redirectRecord q ip).toList }, cache)
  | none =>
    if !query.flags.rd || !config.canRecurse q.qname then
      (.done (withRcode resp rcodeRefused), cache)
    else if !recursionAllowed then (.done (withRcode resp rcodeRefused), cache)
    else
      match cache.get ⟨q.qname, q.qtype⟩ now with
      | (some hit, cache) => (.done (merge resp hit false), cache)
      | (none, cache) => (.pending ⟨resp, q.qname, q.qtype, false⟩, cache)

def openResponse : Message :=
  let resp := Message.responseTo query
  { resp with flags := { resp.flags with
    ra := (config.pool || config.recursor || !config.forwards.isEmpty) && recursionAllowed } }

def resolveLocal (client : IpAddr) : Option (Outcome × Cache) :=
  match screenQuery query with
  | .error resp => some (.done resp, cache)
  | .ok q =>
    let resp := openResponse config query recursionAllowed
    match findZone (config.zonesFor client) q.qname with
    | some zone => resolveZone config cache now query recursionAllowed resp q zone
    | none => some (resolveOther config cache now query recursionAllowed resp q)

end Query

/-- Completion of a pending response: the looked-up records, or a stale entry in their
place, or SERVFAIL. -/
def resolvePending (rest : Pending) (result : Except ForwardError Hit) (stale : Option Hit) :
    Message :=
  match result with
  | .ok hit => merge rest.resp hit rest.append
  | .error .bogus =>
    { withRcode rest.resp rcodeServfail with
      edns := some ((rest.resp.edns.getD Edns.ours).setOption ednsEde
        (edeOption 6 "DNSSEC bogus")) }
  | .error _ =>
    match stale with
    | some hit => merge rest.resp hit rest.append
    | none => withRcode rest.resp rcodeServfail

/-! ## The checks -/

theorem screenQuery_eq_ok_iff (query : Message) (q : Question) :
    screenQuery query = .ok q ↔
      (∀ edns ∈ query.edns, edns.version = 0) ∧ query.flags.opcode = 0 ∧ query.questions = [q] ∧
        (q.qclass = classIn ∨ q.qclass = classAny) ∧ q.qtype ≠ typeAxfr ∧ q.qtype ≠ typeIxfr := by
  have versioned : (query.edns.any fun edns => edns.version > 0) = true ↔
      ¬ ∀ edns ∈ query.edns, edns.version = 0 := by
    cases query.edns with
    | none => simp
    | some edns => simp [UInt8.pos_iff_ne_zero]
  constructor
  · intro admitted
    unfold screenQuery at admitted
    dsimp only at admitted
    split at admitted
    · cases admitted
    rename_i newer
    split at admitted
    · cases admitted
    rename_i opcode
    split at admitted
    · rename_i single asked
      split at admitted
      · cases admitted
      split at admitted
      · cases admitted
      rename_i inClass
      split at admitted
      · cases admitted
      · rename_i notTransfer
        cases admitted
        exact ⟨not_not.mp (mt versioned.mpr newer), not_not.mp opcode, asked,
          or_iff_not_and_not.mpr inClass, not_or.mp notTransfer⟩
    · cases admitted
  · rintro ⟨version, opcode, asked, inClass, notTransfer⟩
    have notChaos : q.qclass ≠ classCh := by
      rcases inClass with internet | anything
      · rw [internet]
        decide
      · rw [anything]
        decide
    unfold screenQuery
    rw [if_neg (mt versioned.mp (not_not.mpr version)), if_neg (not_not.mpr opcode), asked]
    dsimp only
    rw [if_neg notChaos, if_neg (or_iff_not_and_not.mp inClass), if_neg (not_or.mpr notTransfer)]

theorem screenQuery_error {query resp : Message} (refused : screenQuery query = .error resp) :
    resp = { Message.responseTo query with
      edns := (Message.responseTo query).edns.map fun edns => { edns with extRcode := 1 } } ∨
    (∃ rcode, resp = withRcode (Message.responseTo query) rcode) ∨
    ∃ q, query.questions = [q] ∧ resp = chaosAnswer (Message.responseTo query) q := by
  unfold screenQuery at refused
  dsimp only at refused
  split at refused
  · cases refused
    exact .inl rfl
  split at refused
  · cases refused
    exact .inr (.inl ⟨_, rfl⟩)
  split at refused
  · rename_i q single
    split at refused
    · cases refused
      exact .inr (.inr ⟨q, single, rfl⟩)
    split at refused
    · cases refused
      exact .inr (.inl ⟨_, rfl⟩)
    · split at refused
      · cases refused
        exact .inr (.inl ⟨_, rfl⟩)
      · cases refused
  · cases refused
    exact .inr (.inl ⟨_, rfl⟩)

/-! ## What a zone puts into a response -/

structure Sections where
  rcode : UInt8
  answers : List Record
  authorities : List Record
  offsite : Option DnsName

def signaturesFor (dnssec : Option SignedZone) (answers : List Record) : List Record :=
  match dnssec with
  | none => []
  | some signed =>
    (firstOccurrences (answers.map fun record => (record.name, record.rtype))).flatMap
      fun set => rrsigsFor signed set.1 set.2

def denialFor (crypto : Crypto) (dnssec : Option SignedZone) (zone : Zone) (q : Question)
    (result : LookupResult) : Option (List Record) :=
  if result.negative then
    match dnssec with
    | none => some [zone.soa]
    | some signed =>
      (signed.denialRecords crypto q.qname (result.rcode = rcodeNxdomain)).map fun denial =>
        [zone.soa] ++ rrsigsFor signed zone.origin typeSoa ++ denial
  else some []

def sections (crypto : Crypto) (dnssec : Option SignedZone) (zone : Zone) (q : Question) :
    Option Sections :=
  match apexRecords dnssec zone q with
  | some records => some ⟨rcodeNoerror, records, [], none⟩
  | none => do
    let result ← zone.lookup q.qname q.qtype
    let authorities ← denialFor crypto dnssec zone q result
    pure ⟨result.rcode, result.answers ++ signaturesFor dnssec result.answers, authorities,
      result.offsite⟩

def Sections.into (sections : Sections) (resp : Message) : Message :=
  { resp with
    flags := { resp.flags with aa := true, rcode := sections.rcode }
    answers := sections.answers
    authorities := sections.authorities }

structure Fresh (resp : Message) : Prop where
  answers : resp.answers = []
  authorities : resp.authorities = []
  rcode : resp.flags.rcode = rcodeNoerror

theorem openResponse_fresh (config : Config crypto) (query : Message) (recursionAllowed : Bool) :
    Fresh (openResponse config query recursionAllowed) := ⟨rfl, rfl, rfl⟩

theorem zoneAnswer_eq (dnssec : Option SignedZone) {resp : Message} (fresh : Fresh resp)
    (q : Question) (zone : Zone) (result : LookupResult) :
    zoneAnswer crypto { resp with flags := { resp.flags with aa := true } } q zone dnssec result =
      (denialFor crypto dnssec zone q result).map fun authorities =>
        Sections.into ⟨result.rcode, result.answers ++ signaturesFor dnssec result.answers,
          authorities, result.offsite⟩ resp := by
  obtain ⟨id, flags, questions, answers, authorities, additionals, edns, tsig, tsigStart⟩ := resp
  obtain ⟨none, empty, _⟩ := fresh
  dsimp only at none empty
  subst none empty
  unfold zoneAnswer denialFor signaturesFor
  cases dnssec with
  | none =>
    cases result.negative <;> simp [withRcode, Sections.into]
  | some signed =>
    unfold attachDnssec
    cases result.negative with
    | false => simp [withRcode, Sections.into]
    | true =>
      dsimp only [withRcode]
      cases signed.denialRecords crypto q.qname (result.rcode = rcodeNxdomain) with
      | none => simp
      | some denial => simp [Sections.into]

theorem zoneResponse_eq (config : Config crypto) (query : Message) {resp : Message}
    (fresh : Fresh resp) (q : Question) (zone : Zone) :
    zoneResponse config query resp q zone =
      (sections crypto (dnssecFor config query zone) zone q).map fun sections =>
        (sections.into resp, sections.offsite) := by
  unfold zoneResponse sections
  dsimp only
  cases apexRecords (dnssecFor config query zone) zone q with
  | some records =>
    have kept : { resp.flags with aa := true } =
        { resp.flags with aa := true, rcode := rcodeNoerror } := by rw [← fresh.rcode]
    simp [Sections.into, fresh.answers, ← fresh.authorities, kept]
  | none =>
    dsimp only
    cases zone.lookup q.qname q.qtype with
    | none => rfl
    | some result =>
      simp only [Option.bind_eq_bind, Option.bind_some, zoneAnswer_eq _ fresh]
      cases denialFor crypto (dnssecFor config query zone) zone q result with
      | none => rfl
      | some authorities => rfl

/-! ## What is left to the cache and upstream -/

/-- What is left to do for a query before the cache is read. -/
inductive Plan
  | answer (resp : Message)
  | external (rest : Pending)

def Plan.run (cache : Cache) (now : Instant) : Plan → Outcome × Cache
  | .answer resp => (.done resp, cache)
  | .external rest =>
    match cache.get ⟨rest.target, rest.qtype⟩ now with
    | (some hit, cache) => (.done (merge rest.resp hit rest.append), cache)
    | (none, cache) => (.pending rest, cache)

section Plan

variable {crypto : Crypto} (config : Config crypto) (query : Message) (recursionAllowed : Bool)

def planZone (resp : Message) (q : Question) (zone : Zone) : Option Plan := do
  let (resp, offsite) ← zoneResponse config query resp q zone
  match offsite with
  | some target =>
    if query.flags.rd && config.canRecurse target && recursionAllowed then
      pure (.external ⟨resp, target, q.qtype, true⟩)
    else pure (.answer resp)
  | none => pure (.answer resp)

def planOther (resp : Message) (q : Question) : Plan :=
  match config.rpz.lookup q.qname with
  | some .block => .answer (withRcode resp rcodeNxdomain)
  | some (.redirect ip) =>
    .answer { resp with answers := resp.answers ++ (redirectRecord q ip).toList }
  | none =>
    if !query.flags.rd || !config.canRecurse q.qname then .answer (withRcode resp rcodeRefused)
    else if !recursionAllowed then .answer (withRcode resp rcodeRefused)
    else .external ⟨resp, q.qname, q.qtype, false⟩

def plan (client : IpAddr) : Option Plan :=
  match screenQuery query with
  | .error resp => some (.answer resp)
  | .ok q =>
    let resp := openResponse config query recursionAllowed
    match findZone (config.zonesFor client) q.qname with
    | some zone => planZone config query recursionAllowed resp q zone
    | none => some (planOther config query recursionAllowed resp q)

variable (cache : Cache) (now : Instant)

theorem resolveZone_eq_plan (resp : Message) (q : Question) (zone : Zone) :
    resolveZone config cache now query recursionAllowed resp q zone =
      (planZone config query recursionAllowed resp q zone).map (Plan.run cache now) := by
  unfold resolveZone planZone
  cases zoneResponse config query resp q zone with
  | none => rfl
  | some answered =>
    obtain ⟨resp, offsite⟩ := answered
    cases offsite with
    | none => rfl
    | some target =>
      change (if _ then _ else _) = Option.map _ (if _ then _ else _)
      split
      · change _ = some (Plan.run cache now _)
        unfold Plan.run
        dsimp only
        rcases cache.get ⟨target, q.qtype⟩ now with ⟨_ | hit, left⟩ <;> rfl
      · rfl

theorem resolveOther_eq_plan (resp : Message) (q : Question) :
    resolveOther config cache now query recursionAllowed resp q =
      (planOther config query recursionAllowed resp q).run cache now := by
  unfold resolveOther planOther
  cases config.rpz.lookup q.qname with
  | some action =>
    cases action with
    | block => rfl
    | redirect ip => rfl
  | none =>
    dsimp only
    split
    · rfl
    · split
      · rfl
      · rfl

/-- The cache is read once, for the target of the plan. -/
theorem resolveLocal_eq_plan (client : IpAddr) :
    resolveLocal config cache now query recursionAllowed client =
      (plan config query recursionAllowed client).map (Plan.run cache now) := by
  unfold resolveLocal plan
  cases screenQuery query with
  | error resp => rfl
  | ok q =>
    dsimp only
    cases findZone (config.zonesFor client) q.qname with
    | none =>
      dsimp only
      rw [resolveOther_eq_plan]
      rfl
    | some zone => exact resolveZone_eq_plan config query recursionAllowed cache now _ q zone

theorem planZone_external_iff (resp : Message) (q : Question) (zone : Zone) (rest : Pending) :
    planZone config query recursionAllowed resp q zone = some (.external rest) ↔
      query.flags.rd = true ∧ recursionAllowed = true ∧ config.canRecurse rest.target = true ∧
        ∃ resp', zoneResponse config query resp q zone = some (resp', some rest.target) ∧
          rest = ⟨resp', rest.target, q.qtype, true⟩ := by
  unfold planZone
  constructor
  · intro planned
    obtain ⟨⟨resp', offsite⟩, answered, planned⟩ := Option.bind_eq_some_iff.mp planned
    cases offsite with
    | none => cases planned
    | some target =>
      dsimp only at planned
      split at planned
      · rename_i recursing
        cases planned
        rw [Bool.and_eq_true, Bool.and_eq_true] at recursing
        exact ⟨recursing.1.1, recursing.2, recursing.1.2, resp', answered, rfl⟩
      · cases planned
  · rintro ⟨desired, allowed, able, resp', answered, shape⟩
    rw [answered, shape]
    dsimp only [bind, Option.bind]
    rw [desired, able, allowed]
    rfl

theorem planOther_external_iff (resp : Message) (q : Question) (rest : Pending) :
    planOther config query recursionAllowed resp q = .external rest ↔
      query.flags.rd = true ∧ recursionAllowed = true ∧ config.canRecurse rest.target = true ∧
        config.rpz.lookup q.qname = none ∧ rest = ⟨resp, q.qname, q.qtype, false⟩ := by
  unfold planOther
  constructor
  · intro planned
    split at planned
    · cases planned
    · cases planned
    · rename_i missed
      split at planned
      · cases planned
      rename_i recursing
      split at planned
      · cases planned
      · rename_i allowed
        cases planned
        simp only [Bool.or_eq_true, Bool.not_eq_true', not_or, Bool.not_eq_false] at recursing
        exact ⟨recursing.1, by simpa using allowed, recursing.2, missed, rfl⟩
  · rintro ⟨desired, allowed, able, missed, rfl⟩
    rw [missed, desired, able, allowed]
    rfl

/-- The two ways out: a CNAME chain that leaves a zone, and a name outside the zones that
has passed the policy. -/
theorem plan_external_iff (client : IpAddr) (rest : Pending) :
    plan config query recursionAllowed client = some (.external rest) ↔
      ∃ q, screenQuery query = .ok q ∧ query.flags.rd = true ∧ recursionAllowed = true ∧
        config.canRecurse rest.target = true ∧
        ((∃ zone resp, findZone (config.zonesFor client) q.qname = some zone ∧
            zoneResponse config query (openResponse config query recursionAllowed) q zone =
              some (resp, some rest.target) ∧ rest = ⟨resp, rest.target, q.qtype, true⟩) ∨
          (findZone (config.zonesFor client) q.qname = none ∧ config.rpz.lookup q.qname = none ∧
            rest = ⟨openResponse config query recursionAllowed, q.qname, q.qtype, false⟩)) := by
  unfold plan
  cases screenQuery query with
  | error resp => simp
  | ok q =>
    dsimp only
    cases zoned : findZone (config.zonesFor client) q.qname with
    | none => simp [planOther_external_iff, zoned]
    | some zone => simp [planZone_external_iff, zoned]

/-- A plan comes from the checks, from a zone, or from the policy and recursion. -/
theorem plan_cases {client : IpAddr} {planned : Plan}
    (made : plan config query recursionAllowed client = some planned) :
    (∃ resp, screenQuery query = .error resp ∧ planned = .answer resp) ∨
    ∃ q, screenQuery query = .ok q ∧
      ((∃ sections : Sections,
          planned = .answer (sections.into (openResponse config query recursionAllowed)) ∨
          ∃ target, planned = .external ⟨sections.into (openResponse config query recursionAllowed),
            target, q.qtype, true⟩) ∨
        findZone (config.zonesFor client) q.qname = none ∧
          (planned =
              .external ⟨openResponse config query recursionAllowed, q.qname, q.qtype, false⟩ ∨
          ∃ rcode answers, planned = .answer
            { withRcode (openResponse config query recursionAllowed) rcode with answers })) := by
  unfold plan at made
  cases admitted : screenQuery query with
  | error resp =>
    rw [admitted] at made
    cases made
    exact .inl ⟨resp, rfl, rfl⟩
  | ok q =>
    rw [admitted] at made
    dsimp only at made
    refine .inr ⟨q, rfl, ?_⟩
    cases inZone : findZone (config.zonesFor client) q.qname with
    | some zone =>
      rw [inZone] at made
      dsimp only at made
      rw [planZone, zoneResponse_eq config query (openResponse_fresh config query recursionAllowed)]
        at made
      obtain ⟨⟨resp, offsite⟩, answered, made⟩ := Option.bind_eq_some_iff.mp made
      obtain ⟨sections, _, same⟩ := Option.map_eq_some_iff.mp answered
      cases same
      refine .inl ⟨sections, ?_⟩
      dsimp only at made
      split at made
      · split at made
        · cases made
          exact .inr ⟨_, rfl⟩
        · cases made
          exact .inl rfl
      · cases made
        exact .inl rfl
    | none =>
      rw [inZone] at made
      cases made
      refine .inr ⟨rfl, ?_⟩
      unfold planOther
      split
      · exact .inr ⟨rcodeNxdomain, [], rfl⟩
      · exact .inr ⟨rcodeNoerror, _, rfl⟩
      · split
        · exact .inr ⟨rcodeRefused, [], rfl⟩
        · split
          · exact .inr ⟨rcodeRefused, [], rfl⟩
          · exact .inl rfl

end Plan

theorem Plan.run_cases {planned : Plan} {cache cache' : Cache} {now : Instant} {outcome : Outcome}
    (ran : planned.run cache now = (outcome, cache')) :
    (∃ resp, planned = .answer resp ∧ outcome = .done resp ∧ cache' = cache) ∨
    ∃ rest found, planned = .external rest ∧
      cache.get ⟨rest.target, rest.qtype⟩ now = (found, cache') ∧
      (found = none ∧ outcome = .pending rest ∨
        ∃ hit, found = some hit ∧ outcome = .done (merge rest.resp hit rest.append)) := by
  cases planned with
  | answer resp =>
    cases ran
    exact .inl ⟨resp, rfl, rfl, rfl⟩
  | external rest =>
    unfold Plan.run at ran
    dsimp only at ran
    split at ran
    · rename_i hit left probed
      cases ran
      exact .inr ⟨rest, some hit, rfl, probed, .inr ⟨hit, rfl, rfl⟩⟩
    · rename_i left probed
      cases ran
      exact .inr ⟨rest, none, rfl, probed, .inl ⟨rfl, rfl⟩⟩

/-! ## Clients without recursion -/

/-- The query asks one question, in a way that is served, for a name of the zone; and
the answer is not one the signing provides. -/
structure LooksUp (config : Config crypto) (query : Message) (client : IpAddr) (q : Question)
    (zone : Zone) : Prop where
  version : ∀ edns ∈ query.edns, edns.version = 0
  opcode : query.flags.opcode = 0
  question : query.questions = [q]
  inClass : q.qclass = classIn ∨ q.qclass = classAny
  notTransfer : q.qtype ≠ typeAxfr ∧ q.qtype ≠ typeIxfr
  inZone : findZone (config.zonesFor client) q.qname = some zone
  fromZone : apexRecords (dnssecFor config query zone) zone q = none

theorem looksUp_iff {config : Config crypto} {query : Message} {client : IpAddr} {q : Question}
    {zone : Zone} :
    LooksUp config query client q zone ↔ screenQuery query = .ok q ∧
      findZone (config.zonesFor client) q.qname = some zone ∧
      apexRecords (dnssecFor config query zone) zone q = none := by
  rw [screenQuery_eq_ok_iff]
  constructor
  · intro looks
    exact ⟨⟨looks.version, looks.opcode, looks.question, looks.inClass, looks.notTransfer⟩,
      looks.inZone, looks.fromZone⟩
  · rintro ⟨⟨version, opcode, question, inClass, notTransfer⟩, inZone, fromZone⟩
    exact ⟨version, opcode, question, inClass, notTransfer, inZone, fromZone⟩

theorem dnssecFor_signs {config : Config crypto} {query : Message} {zone : Zone}
    {signed : SignedZone} (found : dnssecFor config query zone = some signed) :
    config.signed.get? zone.origin = some signed := by
  unfold dnssecFor at found
  split at found
  · split at found
    · exact found
    · cases found
  · cases found

theorem attachDnssec_returns {config : Config crypto} {query : Message} {zone : Zone}
    {signed : SignedZone} (found : dnssecFor config query zone = some signed) (resp : Message)
    (q : Question) (negative : Bool) :
    ∃ answer, attachDnssec crypto resp q zone signed negative = some answer := by
  obtain ⟨source, keys, now, validitySecs, nsec3, done⟩ := config.signs _ _ (dnssecFor_signs found)
  obtain ⟨denial, offered⟩ := denialRecords_returns done q.qname (resp.flags.rcode = rcodeNxdomain)
  cases negative with
  | false => exact ⟨_, rfl⟩
  | true =>
    simp only [attachDnssec, offered, if_true, Option.bind_eq_bind, Option.bind_some]
    exact ⟨_, rfl⟩

theorem zoneAnswer_returns (config : Config crypto) (query resp : Message) (q : Question)
    (zone : Zone) (result : LookupResult) :
    ∃ answer, zoneAnswer crypto resp q zone (dnssecFor config query zone) result = some answer := by
  cases found : dnssecFor config query zone with
  | none => exact ⟨_, rfl⟩
  | some signed => exact attachDnssec_returns found _ q result.negative

theorem zoneResponse_returns_iff (config : Config crypto) (query resp : Message) (q : Question)
    (zone : Zone) :
    (∃ found, zoneResponse config query resp q zone = some found) ↔
      (apexRecords (dnssecFor config query zone) zone q = none →
        zone.Followable q.qname q.qtype) := by
  unfold zoneResponse
  dsimp only
  split
  · rename_i records made
    exact ⟨fun _ none => absurd (made.symm.trans none) (by simp), fun _ => ⟨_, rfl⟩⟩
  rename_i fromZone
  rw [← Zone.lookup_returns_iff]
  constructor
  · rintro ⟨found, done⟩ _
    obtain ⟨result, looked, _⟩ := Option.bind_eq_some_iff.mp done
    exact ⟨result, looked⟩
  · intro returns
    obtain ⟨result, looked⟩ := returns fromZone
    obtain ⟨answer, answered⟩ := zoneAnswer_returns config query
      { resp with flags := { resp.flags with aa := true } } q zone result
    exact ⟨_, by
      simp only [looked, answered, Option.bind_eq_bind, Option.bind_some]
      rfl⟩

section Barred

variable (config : Config crypto) {query : Message} {recursionAllowed : Bool}

theorem planZone_returns_iff (resp : Message) (q : Question) (zone : Zone) :
    (∃ planned, planZone config query recursionAllowed resp q zone = some planned) ↔
      ∃ found, zoneResponse config query resp q zone = some found := by
  unfold planZone
  cases zoneResponse config query resp q zone with
  | none => exact ⟨fun ⟨_, never⟩ => (nomatch never), fun ⟨_, never⟩ => (nomatch never)⟩
  | some found =>
    obtain ⟨resp', offsite⟩ := found
    refine ⟨fun _ => ⟨_, rfl⟩, fun _ => ?_⟩
    cases offsite with
    | none => exact ⟨_, rfl⟩
    | some target =>
      simp only [Option.bind_eq_bind, Option.bind_some]
      split <;> exact ⟨_, rfl⟩

theorem plan_returns_iff (client : IpAddr) :
    (∃ planned, plan config query recursionAllowed client = some planned) ↔
      ∀ q zone, LooksUp config query client q zone → zone.Followable q.qname q.qtype := by
  simp only [looksUp_iff]
  unfold plan
  cases screenQuery query with
  | error resp => exact ⟨fun _ _ _ looks => (nomatch looks.1), fun _ => ⟨_, rfl⟩⟩
  | ok q =>
    dsimp only
    cases found : findZone (config.zonesFor client) q.qname with
    | none =>
      refine ⟨?_, fun _ => ⟨_, rfl⟩⟩
      rintro _ q' zone ⟨same, inZone, _⟩
      cases same
      rw [found] at inZone
      cases inZone
    | some zone =>
      dsimp only
      rw [planZone_returns_iff, zoneResponse_returns_iff]
      constructor
      · rintro returns q' zone' ⟨same, inZone, fromZone⟩
        cases same
        rw [found] at inZone
        cases inZone
        exact returns fromZone
      · exact fun followable fromZone => followable q zone ⟨rfl, found, fromZone⟩

variable (barred : recursionAllowed = false ∨ query.flags.rd = false)

include barred

theorem plan_barred {client : IpAddr} {planned : Plan}
    (made : plan config query recursionAllowed client = some planned) :
    ∃ resp, planned = .answer resp := by
  cases planned with
  | answer resp => exact ⟨resp, rfl⟩
  | external rest =>
    obtain ⟨_, _, desired, allowed, _⟩ :=
      (plan_external_iff config query recursionAllowed client rest).mp made
    rcases barred with refused | undesired
    · rw [refused] at allowed
      cases allowed
    · rw [undesired] at desired
      cases desired

theorem resolveLocal_barred (client : IpAddr) :
    ∃ answer : Option Message,
      (∀ cache now, resolveLocal config cache now query recursionAllowed client =
        answer.map fun resp => (.done resp, cache)) ∧
      ((∃ resp, answer = some resp) ↔
        ∀ q zone, LooksUp config query client q zone → zone.Followable q.qname q.qtype) := by
  have returns : (∃ planned, plan config query recursionAllowed client = some planned) ↔ _ :=
    plan_returns_iff config client
  simp only [resolveLocal_eq_plan, ← returns]
  cases made : plan config query recursionAllowed client with
  | none => exact ⟨none, fun _ _ => rfl, by simp⟩
  | some planned =>
    obtain ⟨resp, rfl⟩ := plan_barred config barred made
    exact ⟨some resp, fun _ _ => rfl, by simp⟩

end Barred

/-- Clients that may not recurse, or do not ask for it, get one and the same response
from resolvers that differ in their caches, exactly when the aliases their query meets
in a zone hold CNAME data. -/
theorem resolveLocal_uncached_iff (config : Config crypto) (query : Message)
    (recursionAllowed : Bool) (client : IpAddr)
    (barred : recursionAllowed = false ∨ query.flags.rd = false)
    (left right : Cache) (now later : Instant) :
    (∃ resp,
      (resolveLocal config left now query recursionAllowed client).map Prod.fst =
        some (.done resp) ∧
      (resolveLocal config right later query recursionAllowed client).map Prod.fst =
        some (.done resp)) ↔
    ∀ q zone, LooksUp config query client q zone → zone.Followable q.qname q.qtype := by
  obtain ⟨answer, uncached, returns⟩ := resolveLocal_barred config barred client
  rw [uncached left now, uncached right later, ← returns]
  constructor
  · rintro ⟨resp, found, _⟩
    cases answer with
    | none => cases found
    | some resp' => exact ⟨resp', rfl⟩
  · rintro ⟨resp, rfl⟩
    exact ⟨resp, rfl, rfl⟩

def serving (zone : Zone) : Config sampleCrypto where
  zones := [zone]
  views := []
  signed := HashMap.empty
  rpz := ⟨HashMap.empty⟩
  pool := true
  recursor := false
  forwards := []
  signs := nofun

def asking (qname : DnsName) (qtype : UInt16) : Message :=
  { Message.new 7 Flags.default with questions := [⟨qname, qtype, classIn⟩] }

def loopback : IpAddr := .v4 (.new 127 0 0 1)

def warmCache : Cache :=
  (Cache.new 10).insert ⟨apexName, typeA⟩ rcodeNoerror [apexAddress] [] false 0

/-- The cached address does not get into the answer of a zone that has none. -/
theorem resolveLocal_uncached_shell :
    warmCache.get ⟨apexName, typeA⟩ 0 ≠ (none, warmCache) ∧ ∃ resp,
      (resolveLocal (serving shell) (Cache.new 10) 0 (asking apexName typeA) true loopback).map
        Prod.fst = some (.done resp) ∧
      (resolveLocal (serving shell) warmCache 0 (asking apexName typeA) true loopback).map
        Prod.fst = some (.done resp) := by
  refine ⟨fun missed => ?_, ?_⟩
  · have hit : (warmCache.get ⟨apexName, typeA⟩ 0).1.isSome = true := by decide +kernel
    rw [missed] at hit
    cases hit
  · refine (resolveLocal_uncached_iff (serving shell) (asking apexName typeA) true loopback
      (.inr rfl) (Cache.new 10) warmCache 0 0).mpr fun q zone looks => ?_
    have question : q = ⟨apexName, typeA, classIn⟩ := by
      have asked := looks.question
      cases asked
      rfl
    subst question
    have served : zone = shell := by
      have inZone := looks.inZone
      cases inZone
      rfl
    rw [served, ← Zone.lookup_returns_iff]
    exact Option.isSome_iff_exists.mp (by decide +kernel)

/-- A record of type CNAME as an update carries it with an RDLENGTH of zero. -/
def emptyAlias : Record :=
  { name := drawnName, class_ := classIn, ttl := 60, rdata := .unknown typeCname [] }

/-- After an update that was accepted, a query for the address of its name brings no
response, whatever is in the cache. -/
theorem emptyAlias_unanswered :
    (shell.applyUpdate [] [emptyAlias]).1 = rcodeNoerror ∧
      ¬ ∃ resp, (resolveLocal (serving (shell.applyUpdate [] [emptyAlias]).2) (Cache.new 10) 0
        (asking drawnName typeA) false loopback).map Prod.fst = some (.done resp) := by
  refine ⟨by decide +kernel, ?_⟩
  rintro ⟨resp, found⟩
  have stopped : (resolveLocal (serving (shell.applyUpdate [] [emptyAlias]).2) (Cache.new 10) 0
      (asking drawnName typeA) false loopback).isNone = true := by decide +kernel
  rw [Option.isNone_iff_eq_none.mp stopped] at found
  cases found

end Rdns.Resolver.Serve
