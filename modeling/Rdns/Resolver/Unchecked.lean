import Rdns.Resolver.Evidence
import Rdns.Resolver.Staging

/-!
# What a secure verdict does not look at

Two things a signature says are read by nobody.  Its label count tells an expansion of a
wildcard from a name that exists; the authority section of a positive answer, which would
prove that it does not, is not consulted.  Its validity period is not compared with the
clock, at any of the places where signatures are accepted.  Any signature of a supported
algorithm can be brought to bear, so either is harmless for an RRset exactly if none of its
signatures is short of labels, or out of its period.
-/

set_option autoImplicit false

namespace Rdns.Resolver

open Rdns.Lib Rdns.Proto Rdns.Dnssec

variable (crypto : Crypto) (fetcher : Fetcher) (self : Validator)

/-! ## Expanded wildcards -/

def AcceptedFrom (table : KeyTable) (records : List Record) (set : SetKey) (zone : DnsName) :
    Prop :=
  ∃ sig ∈ sigsFor records set, ∃ fields, parseRrsig sig = some fields ∧ fields.signer = zone ∧
    Accepts crypto table (rrsetOf records set) sig fields

def NsecCovers (record : Record) (name : DnsName) : Prop :=
  record.rtype = typeNsec ∧ ∃ next types,
    (unknownData record).bind parseNsec = some (next, types) ∧
    Within (canonKey record.name) (canonKey next) (canonKey name)

def Nsec3Covers (record : Record) (name : DnsName) : Prop :=
  record.rtype = typeNsec3 ∧ ∃ owner params next types,
    nsec3OwnerHash record.name = some owner ∧
    (unknownData record).bind parseNsec3 = some (params, next, types) ∧
    Within owner next (hashName crypto name params)

/-- An accepted NSEC of the zone covers the name, or an accepted NSEC3 covers it or a name
above it in the zone. -/
def ProvenAbsent (table : KeyTable) (authorities : List Record) (zone name : DnsName) : Prop :=
  ∃ record ∈ authorities, AcceptedFrom crypto table authorities (record.name, record.rtype) zone ∧
    (NsecCovers record name ∨
      ∃ above, name.endsWith above = true ∧ above.endsWith zone = true ∧
        Nsec3Covers crypto record above)

def Expands (table : KeyTable) (msg : Message) (set : SetKey) (fields : RrsigFields) : Prop :=
  set ∈ sectionSets msg.answers ∧ ∃ sig, judge crypto table msg.answers set = .secure sig ∧
    parseRrsig sig = some fields ∧ fields.labels.toNat < set.1.labelCount

def ExpansionProven (msg : Message) (set : SetKey) : Prop :=
  self.validate crypto fetcher msg = .secure → ∀ fields,
    Expands crypto (self.keysSeen crypto fetcher msg) msg set fields →
      ProvenAbsent crypto (self.keysSeen crypto fetcher msg) msg.authorities fields.signer set.1

variable {crypto} in
theorem ProvenAbsent.covers {table : KeyTable} {authorities : List Record} {zone name : DnsName}
    (proven : ProvenAbsent crypto table authorities zone name) :
    ∃ rrset sig fields, parseRrsig sig = some fields ∧ Accepts crypto table rrset sig fields ∧
      (fields.typeCovered = typeNsec ∨ fields.typeCovered = typeNsec3) := by
  obtain ⟨record, _, ⟨sig, listed, fields, parsed, _, accepts⟩, covers⟩ := proven
  have covered : fields.typeCovered = record.rtype := by
    have chosen := of_decide_eq_true (List.mem_filter.mp listed).2
    simpa [parsed] using chosen
  refine ⟨_, sig, fields, parsed, accepts, ?_⟩
  rw [covered]
  rcases covers with ⟨nsec, _⟩ | ⟨_, _, _, nsec3, _⟩
  · exact .inl nsec
  · exact .inr nsec3

namespace Toy

def wild : DnsName := ⟨[DnsName.star, [101, 120, 97, 109, 112, 108, 101]], by decide⟩

/-- The wildcard's address, with its signature, in place of those of `www.example.` -/
def expandedHost : List Record :=
  [address host, rawRecord host typeRrsig (sign 1 [address wild] typeA)]

end Toy

def SerialLe (left right : UInt32) : Prop := (right - left).toNat < 2 ^ 31

instance (left right : UInt32) : Decidable (SerialLe left right) :=
  inferInstanceAs (Decidable (_ < _))

/-- The time in seconds lies within the validity period. -/
def InPeriod (now : UInt32) (fields : RrsigFields) : Prop :=
  SerialLe fields.inception now ∧ SerialLe now fields.expiration

instance (now : UInt32) (fields : RrsigFields) : Decidable (InPeriod now fields) :=
  inferInstanceAs (Decidable (_ ∧ _))

def Validator.anchorFor (zone : DnsName) : Option TrustAnchor :=
  self.anchors.find? fun anchor => anchor.zone = zone

/-- What vouches for the keys of a zone: its trust anchor, or the DS records of the reply. -/
inductive VouchedBy (ctx : Ctx) (zone : DnsName) : List Bytes → Prop
  | anchor {anchor : TrustAnchor} (found : self.anchorFor zone = some anchor) :
      VouchedBy ctx zone [anchor.dsRdata]
  | delegated {parentKeys : List Bytes} {msg reply : Message}
      (below : self.anchorFor zone = none) (rests : Rests fetcher ctx zone parentKeys msg reply) :
      VouchedBy ctx zone ((ofType typeDs reply.answers).filterMap unknownData)

/-- The signatures that the keys of a zone rest on, up to the trust anchor: at each level
the first that is accepted over the DNSKEY records, and over the DS records. -/
inductive ChainSig (ctx : Ctx) : DnsName → Bytes → Prop
  | keys {zone : DnsName} {msg : Message} {dsSet : List Bytes} {sig : Bytes}
      (replied : Replied fetcher ctx (zone, typeDnskey) msg)
      (vouched : VouchedBy fetcher self ctx zone dsSet)
      (first : (signatures msg.answers).find? (fun sig => ((dnskeyData msg).filter fun key =>
        dsSet.any fun ds => verifyDs crypto zone key ds).any fun key =>
          verifyRrsig crypto (ofType typeDnskey msg.answers) sig key) = some sig) :
      ChainSig ctx zone sig
  | ds {zone : DnsName} {parentKeys : List Bytes} {msg reply : Message} {sig : Bytes}
      (below : self.anchorFor zone = none) (rests : Rests fetcher ctx zone parentKeys msg reply)
      (first : (signatures reply.answers).find? (fun sig => parentKeys.any fun key =>
        verifyRrsig crypto (ofType typeDs reply.answers) sig key) = some sig) :
      ChainSig ctx zone sig
  | above {zone parent : DnsName} {sig : Bytes} (below : self.anchorFor zone = none)
      (up : zone.parent = some parent) (higher : ChainSig ctx parent sig) :
      ChainSig ctx zone sig

/-- The records a verdict relies on: the answer, and the authority section of a denial
that it proves. -/
def Looked (msg : Message) (records : List Record) : Prop :=
  records = msg.answers ∨
    Consulted msg ∧ denialProven crypto msg = true ∧ records = msg.authorities

/-- The signatures a verdict relies on: those that verify RRsets of the sections, and
those their signers' keys rest on. -/
inductive Relied (msg : Message) (ctx : Ctx) : Bytes → Prop
  | rrset {records : List Record} {set : SetKey} {sig : Bytes} (looked : Looked crypto msg records)
      (member : set ∈ sectionSets records)
      (verified : judge crypto ctx.table records set = .secure sig) : Relied msg ctx sig
  | chain {records : List Record} {set : SetKey} {sig sig' : Bytes} {fields : RrsigFields}
      (looked : Looked crypto msg records) (member : set ∈ sectionSets records)
      (verified : judge crypto ctx.table records set = .secure sig)
      (parsed : parseRrsig sig = some fields)
      (rests : ChainSig crypto fetcher self ctx fields.signer sig') : Relied msg ctx sig'

/-- A secure verdict relies on signatures within their periods only. -/
def ReliedInPeriod (now : UInt32) (msg : Message) : Prop :=
  self.validate crypto fetcher msg = .secure → ∀ sig fields,
    Relied crypto fetcher self msg (self.run crypto fetcher msg).2 sig →
      parseRrsig sig = some fields → InPeriod now fields

def VerifiedInPeriod (now : UInt32) (msg : Message) (set : SetKey) : Prop :=
  self.validate crypto fetcher msg = .secure → ∀ sig fields,
    judge crypto (self.keysSeen crypto fetcher msg) msg.answers set = .secure sig →
      parseRrsig sig = some fields → InPeriod now fields

/-- The signatures of supported algorithms over the sections looked at and in the replies to
DNSKEY and DS questions are within their periods. -/
structure Fresh (now : UInt32) (msg : Message) : Prop where
  sections : ∀ sig, Signs msg sig → ∀ fields, parseRrsig sig = some fields →
    fields.algorithm ∈ supported → InPeriod now fields
  replies : ∀ asked name qtype reply, fetcher asked name qtype = .ok reply →
    ∀ sig ∈ signatures reply.answers, ∀ fields, parseRrsig sig = some fields →
      fields.algorithm ∈ supported → InPeriod now fields

section Fresh

variable {crypto fetcher self} {now : UInt32} {msg : Message} {sig : Bytes} {fields : RrsigFields}

theorem Looked.signs {records : List Record} (looked : Looked crypto msg records) {set : SetKey}
    (member : set ∈ sectionSets records) (listed : sig ∈ sigsFor records set) : Signs msg sig := by
  rcases looked with rfl | ⟨consulted, _, rfl⟩
  · exact .inl ⟨set, member, listed⟩
  · exact .inr ⟨consulted, set, member, listed⟩

theorem ChainSig.inPeriod {ctx : Ctx} {zone : DnsName} (fresh : Fresh fetcher now msg)
    (chain : ChainSig crypto fetcher self ctx zone sig) (parsed : parseRrsig sig = some fields) :
    InPeriod now fields := by
  induction chain with
  | keys replied _ first =>
    obtain ⟨earlier, _, reply⟩ := replied
    have found := List.find?_some first
    obtain ⟨key, _, accepted⟩ := List.any_eq_true.mp found
    exact fresh.replies _ _ _ _ reply _ (List.mem_of_find?_eq_some first) fields parsed
      (supported_of_verifyRrsig accepted parsed)
  | ds _ rests first =>
    obtain ⟨earlier, _, reply⟩ := rests.ds
    have found := List.find?_some first
    obtain ⟨key, _, accepted⟩ := List.any_eq_true.mp found
    exact fresh.replies _ _ _ _ reply _ (List.mem_of_find?_eq_some first) fields parsed
      (supported_of_verifyRrsig accepted parsed)
  | above _ _ _ ih => exact ih parsed

theorem Fresh.relied (fresh : Fresh fetcher now msg) :
    ReliedInPeriod crypto fetcher self now msg := by
  intro _ sig fields relied parsed
  cases relied with
  | rrset looked member verified =>
    obtain ⟨listed, known⟩ := supported_of_judge verified parsed
    exact fresh.sections sig (looked.signs member listed) fields parsed known
  | chain _ _ _ _ rests => exact rests.inPeriod fresh parsed

end Fresh

theorem Toy.signedHost_fresh : Fresh Toy.servers 0 (Toy.reply Toy.signedHost) := by
  have epoch : ∀ sig ∈ [Toy.sign 2 [Toy.address Toy.host] typeA,
      Toy.sign 1 [Toy.keyRecord] typeDnskey], (parseRrsig sig).all
      (fun fields => decide (InPeriod 0 fields)) = true := by
    decide +kernel
  have timely : ∀ sig ∈ [Toy.sign 2 [Toy.address Toy.host] typeA,
      Toy.sign 1 [Toy.keyRecord] typeDnskey], ∀ fields, parseRrsig sig = some fields →
      InPeriod 0 fields := by
    intro sig listed fields parsed
    have all := epoch sig listed
    rw [parsed] at all
    exact of_decide_eq_true all
  constructor
  · rintro sig (⟨set, _, listed⟩ | ⟨⟨_, _, impossible⟩, _⟩) fields parsed _
    · have only : signatures Toy.signedHost = [Toy.sign 2 [Toy.address Toy.host] typeA] := by
        decide +kernel
      have member : sig ∈ signatures Toy.signedHost := mem_signatures_of_mem_sigsFor listed
      rw [only] at member
      exact timely sig (List.mem_cons.mpr (.inl (List.mem_singleton.mp member))) fields parsed
    · exact absurd rfl impossible
  · intro asked name qtype reply answered sig listed fields parsed _
    unfold Toy.servers at answered
    split at answered
    · cases answered
      have only : signatures [Toy.keyRecord, Toy.rawRecord Toy.zone typeRrsig
          (Toy.sign 1 [Toy.keyRecord] typeDnskey)] = [Toy.sign 1 [Toy.keyRecord] typeDnskey] := by
        decide +kernel
      simp only [only, List.mem_singleton] at listed
      exact timely sig (by simp [listed]) fields parsed
    · cases answered

end Rdns.Resolver
