import Rdns.Lib.HashMap
import Rdns.Resolver.Denial

/-!
# The validating resolver

`Validator` of dns-resolver: the walk from a signer up to a trust anchor
(`dnskeys`, `delegated_ds`), the check of a section RRset by RRset
(`verify_section`), and the verdict on a message (`validate`).  The walk keeps
its results in a table for the length of one validation.
-/

set_option autoImplicit false

namespace Rdns.Resolver

open Rdns.Lib Rdns.Proto Rdns.Dnssec

inductive ForwardError
  | io
  | timeout
  | noUpstream
  | bogus
deriving DecidableEq

/-- The source of DNSKEY and DS replies, which nobody vouches for: a reply may
depend on all that was asked before (the newest question first). -/
abbrev Fetcher := List SetKey → DnsName → UInt16 → Except ForwardError Message

def maxDepth : Nat := 20

inductive Security
  | secure
  | insecure
  | bogus
deriving DecidableEq

structure TrustAnchor where
  zone : DnsName
  dsRdata : Bytes

structure Validator where
  anchors : List TrustAnchor

/-- The state of one validation.  A zone's entry is `none` if it was judged
insecure, no keys if bogus.  The questions asked so far are what a fetcher can
know of it. -/
structure Ctx where
  keys : HashMap DnsName (Option (List Bytes))
  asked : List SetKey

def Ctx.new : Ctx := ⟨HashMap.empty, []⟩

def Ctx.remember (ctx : Ctx) (zone : DnsName) (result : Option (List Bytes)) : Ctx :=
  { ctx with keys := ctx.keys.insert zone result }

def Ctx.ask (ctx : Ctx) (name : DnsName) (qtype : UInt16) : Ctx :=
  { ctx with asked := (name, qtype) :: ctx.asked }

def Ctx.enter (ctx : Ctx) (zone : DnsName) : Ctx := (ctx.remember zone none).ask zone typeDnskey

inductive DsResult
  | secure (set : List Bytes)
  | insecure
  | bogus

structure SectionResult where
  anySecure : Bool
  bogus : Bool

/-- What the signatures over one RRset came to, with the one that decided. -/
inductive Outcome
  | unsigned
  | insecure (sig : Bytes)
  | secure (sig : Bytes)
  | bogus
deriving DecidableEq

variable (crypto : Crypto) (fetcher : Fetcher)

/-! ## Keys of a zone -/

def dnskeyData (msg : Message) : List Bytes := (ofType typeDnskey msg.answers).filterMap unknownData

def vouchedKeys (zone : DnsName) (msg : Message) (dsSet : List Bytes) : List Bytes :=
  let trusted := (dnskeyData msg).filter fun key => dsSet.any fun ds => verifyDs crypto zone key ds
  if trusted.isEmpty then []
  else
    let ok := (signatures msg.answers).any fun sig =>
      trusted.any fun key => verifyRrsig crypto (ofType typeDnskey msg.answers) sig key
    if ok then dnskeyData msg else []

/-- The reply to a DS question, read with the validated keys of the parent. -/
def dsOf (zone : DnsName) (msg : Message) (parentKeys : List Bytes) : DsResult :=
  let dsRecords := ofType typeDs msg.answers
  if dsRecords.isEmpty then
    if authoritySignedBy crypto msg.authorities parentKeys &&
        authenticatedNoDs crypto zone msg.authorities then .insecure
    else .bogus
  else
    let signed := (signatures msg.answers).any fun sig =>
      parentKeys.any fun key => verifyRrsig crypto dsRecords sig key
    if signed then .secure (dsRecords.filterMap unknownData) else .bogus

/-- `dnskeys` one level further up is an argument: it is the recursion. -/
def delegatedDs (dnskeys : DnsName → Ctx → Option (List Bytes) × Ctx) (zone : DnsName)
    (ctx : Ctx) : DsResult × Ctx :=
  match zone.parent with
  | none => (.bogus, ctx)
  | some parent =>
    match dnskeys parent ctx with
    | (none, ctx) => (.insecure, ctx)
    | (some [], ctx) => (.bogus, ctx)
    | (some (key :: keys), ctx) =>
      match fetcher ctx.asked zone typeDs with
      | .error _ => (.bogus, ctx.ask zone typeDs)
      | .ok msg => (dsOf crypto zone msg (key :: keys), ctx.ask zone typeDs)

/-- The verdict on a zone once its DNSKEY reply and its DS set are known. -/
def settle (zone : DnsName) (msg : Message) : DsResult → Option (List Bytes)
  | .insecure => none
  | .bogus => some []
  | .secure set => some (vouchedKeys crypto zone msg set)

def sectionSets (records : List Record) : List SetKey :=
  setsOf (records.filter fun record => record.rtype ≠ typeRrsig)

def isDenial (msg : Message) : Bool :=
  (msg.answers.all fun record => record.rtype = typeRrsig) ||
    decide (msg.flags.rcode = rcodeNxdomain)

namespace Validator

variable (self : Validator)

/-- `dnskeys(zone, depth)`, where `budget` counts the levels left: it is
`MAX_DEPTH + 1 - depth`, and zero is the refusal of `depth > MAX_DEPTH`. -/
def dnskeys : Nat → DnsName → Ctx → Option (List Bytes) × Ctx
  | 0, _, ctx => (none, ctx)
  | budget + 1, zone, ctx =>
    match ctx.keys.get? zone with
    | some cached => (cached, ctx)
    | none =>
      let reply := fetcher ctx.asked zone typeDnskey
      let ctx := ctx.enter zone
      match reply with
      | .error _ => (none, ctx.remember zone none)
      | .ok msg =>
        if (dnskeyData msg).isEmpty then (none, ctx.remember zone none)
        else
          let dsSet : DsResult × Ctx :=
            match self.anchors.find? fun anchor => anchor.zone = zone with
            | some anchor => (.secure [anchor.dsRdata], ctx)
            | none => delegatedDs crypto fetcher (dnskeys budget) zone ctx
          let result := settle crypto zone msg dsSet.1
          (result, dsSet.2.remember zone result)

/-! ## Sections -/

def trySigs (rrset : List Record) : List Bytes → Ctx → Outcome × Ctx
  | [], ctx => (.bogus, ctx)
  | sig :: rest, ctx =>
    match parseRrsig sig with
    | none => trySigs rrset rest ctx
    | some fields =>
      match self.dnskeys crypto fetcher (maxDepth + 1) fields.signer ctx with
      | (none, ctx) => (.insecure sig, ctx)
      | (some keys, ctx) =>
        if keys.any fun key => verifyRrsig crypto rrset sig key then (.secure sig, ctx)
        else trySigs rrset rest ctx

def verifyRrset (records : List Record) (set : SetKey) (ctx : Ctx) : Outcome × Ctx :=
  match sigsFor records set with
  | [] => (.unsigned, ctx)
  | sigs => self.trySigs crypto fetcher (rrsetOf records set) sigs ctx

def verifySets (records : List Record) : List SetKey → Bool → Ctx → SectionResult × Ctx
  | [], anySecure, ctx => (⟨anySecure, false⟩, ctx)
  | set :: rest, anySecure, ctx =>
    match self.verifyRrset crypto fetcher records set ctx with
    | (.bogus, ctx) => (⟨anySecure, true⟩, ctx)
    | (.secure _, ctx) => verifySets records rest true ctx
    | (_, ctx) => verifySets records rest anySecure ctx

def verifySection (records : List Record) (ctx : Ctx) : SectionResult × Ctx :=
  self.verifySets crypto fetcher records (sectionSets records) false ctx

/-! ## Verdict -/

/-- `validate`, with the state it ends in. -/
def run (msg : Message) : Security × Ctx :=
  let (answer, ctx) := self.verifySection crypto fetcher msg.answers Ctx.new
  let settled := if answer.anySecure then Security.secure else .insecure
  if answer.bogus then (.bogus, ctx)
  else if nsec3IterationsExceed msg.authorities maxNsec3Iterations then (settled, ctx)
  else if isDenial msg && !msg.authorities.isEmpty then
    let (auth, ctx) := self.verifySection crypto fetcher msg.authorities ctx
    if auth.bogus then (.bogus, ctx)
    else if auth.anySecure && denialProven crypto msg then (.secure, ctx)
    else if auth.anySecure && hasNsec msg.authorities then (.bogus, ctx)
    else (settled, ctx)
  else (settled, ctx)

def validate (msg : Message) : Security := (self.run crypto fetcher msg).1

end Validator

end Rdns.Resolver
