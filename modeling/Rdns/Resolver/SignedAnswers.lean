import Rdns.Zones.File
import Rdns.Resolver.Serve
import Mathlib.Data.List.DropRight

/-!
# Signed answers

The way of a signature from the key file to an answer: `load_dnssec_keys` of the
server, `Resolver::resign` and the signatures beside the RRsets of an authoritative
response.  All keys are loaded for the first configured zone, and the signatures of
an RRset are looked up under the name it is served with.  An answer can be verified
if both of these are the names of the RRset that was signed.
-/

set_option autoImplicit false

namespace Rdns.Resolver.Serve

open Rdns.Lib Rdns.Proto Rdns.Dnssec Rdns.Zones

variable {key : DnssecKey} {rtype : UInt16} {zone : Zone} {signer : DnsName} {keys : List DnssecKey}
  {inception expiration : UInt32}

/-! ## Keys -/

structure KeyPair where
  algorithm : UInt8
  public_ : Bytes
  sign : Bytes → Bytes

def KeyPair.finish (pair : KeyPair) (signer : DnsName) (ksk : Bool) : DnssecKey :=
  DnssecKey.finish pair.sign pair.algorithm ksk signer pair.public_

/-- The codec of key material and the generator of keys, which also writes the key
file; and the text of that file, if there is one. -/
structure KeySource where
  decode : String → Except String KeyPair
  generate : UInt8 → Except String KeyPair
  file : Option (Except String String)

def KeySource.fromMaterial (source : KeySource) (signer : DnsName) (encoded : List Char)
    (ksk : Bool) : Except String DnssecKey :=
  (source.decode (String.ofList encoded)).map fun pair => pair.finish signer ksk

def trim (text : List Char) : List Char := (text.dropWhile isWhitespace).rdropWhile isWhitespace

def KeySource.keyLine (source : KeySource) (signer : DnsName) (line : List Char) :
    Except String DnssecKey :=
  match splitOnce ' ' line with
  | some (role, material) =>
    if role = "ksk".toList then source.fromMaterial signer (trim material) true
    else if role = "zsk".toList then source.fromMaterial signer (trim material) false
    else source.fromMaterial signer line true
  | none => source.fromMaterial signer line true

def signingAlgorithm (text : String) : Except String UInt8 :=
  let name := String.ofList (text.toList.map Char.toLower)
  if name = "ed25519" then .ok algEd25519
  else if name = "ecdsap256" ∨ name = "ecdsa" then .ok algEcdsap256
  else if name = "rsasha256" ∨ name = "rsa" then .ok algRsasha256
  else .error ("unknown dnssec algorithm '" ++ name ++ "'")

def KeySource.load (source : KeySource) (signer : DnsName) (algorithm : UInt8) :
    Except String (List DnssecKey) :=
  match source.file with
  | some contents => do
    let text ← contents
    let material := ((lines text.toList).map trim).filter fun line => !line.isEmpty
    material.mapM (source.keyLine signer)
  | none => do
    let pair ← source.generate algorithm
    pure [pair.finish signer true]

def dnssecOrigin (zone : String) : Except String DnsName :=
  match DnsName.parseStr zone with
  | .ok origin => .ok origin
  | .error e => .error ("dnssec zone '" ++ zone ++ "': " ++ e.display)

/-- The keys and the zones they sign; the first zone is the signer of every key. -/
def loadDnssecKeys (source : KeySource) (zones : List String) (algorithm : String) :
    Except String (Option (List DnssecKey × List DnsName)) := do
  let origins ← zones.mapM dnssecOrigin
  match origins with
  | [] => pure none
  | signer :: _ =>
    let algorithm ← signingAlgorithm algorithm
    let keys ← source.load signer algorithm
    pure (some (keys, origins))

variable {source : KeySource}

theorem fromMaterial_signer {encoded : List Char} {ksk : Bool}
    (made : source.fromMaterial signer encoded ksk = .ok key) : key.signer = signer := by
  unfold KeySource.fromMaterial at made
  cases decoded : source.decode (String.ofList encoded) with
  | error e =>
    rw [decoded] at made
    cases made
  | ok pair =>
    rw [decoded] at made
    cases made
    rfl

theorem keyLine_signer {line : List Char} (made : source.keyLine signer line = .ok key) :
    key.signer = signer := by
  unfold KeySource.keyLine at made
  split at made
  · split at made
    · exact fromMaterial_signer made
    · split at made
      · exact fromMaterial_signer made
      · exact fromMaterial_signer made
  · exact fromMaterial_signer made

theorem load_signer {algorithm : UInt8} (loaded : source.load signer algorithm = .ok keys) :
    ∀ key ∈ keys, key.signer = signer := by
  intro key member
  unfold KeySource.load at loaded
  split at loaded
  · rename_i contents _
    cases contents with
    | error e => cases loaded
    | ok text =>
      obtain ⟨line, _, made⟩ := mem_of_mapM_ok loaded member
      exact keyLine_signer made
  · cases generated : source.generate algorithm with
    | error e =>
      rw [generated] at loaded
      cases loaded
    | ok pair =>
      rw [generated] at loaded
      cases loaded
      rw [List.mem_singleton.mp member]
      rfl

theorem loadDnssecKeys_signer {zones : List String} {algorithm : String} {origins : List DnsName}
    (loaded : loadDnssecKeys source zones algorithm = .ok (some (keys, origins))) :
    ∃ signer, origins.head? = some signer ∧ signer.Lowercase ∧
      ∀ key ∈ keys, key.signer = signer := by
  unfold loadDnssecKeys at loaded
  cases named : zones.mapM dnssecOrigin with
  | error e =>
    rw [named] at loaded
    cases loaded
  | ok parsed =>
    rw [named] at loaded
    cases parsed with
    | nil => cases loaded
    | cons signer rest =>
      cases chosen : signingAlgorithm algorithm with
      | error e =>
        simp only [chosen, bind, Except.bind] at loaded
        cases loaded
      | ok code =>
        cases made : source.load signer code with
        | error e =>
          simp only [chosen, made, bind, Except.bind] at loaded
          cases loaded
        | ok keys' =>
          simp only [chosen, made, bind, Except.bind] at loaded
          cases loaded
          refine ⟨signer, rfl, ?_, load_signer made⟩
          obtain ⟨zone, _, origin⟩ := mem_of_mapM_ok named List.mem_cons_self
          unfold dnssecOrigin at origin
          split at origin
          · rename_i read
            cases origin
            exact parseStr_lowercase read
          · cases origin

/-! ## Signing the served zones -/

variable {crypto : Crypto}

namespace Config

section Resign

variable (config : Config crypto) (keys : List DnssecKey) (origins : List DnsName)
  (now validitySecs : UInt64) (nsec3 : Option Nsec3Params)

def zoneAt (origin : DnsName) : Option Zone :=
  config.zones.find? fun zone => zone.origin = origin

def signInto (signed : HashMap DnsName SignedZone) (origin : DnsName) :
    Option (HashMap DnsName SignedZone) :=
  match config.zoneAt origin with
  | some zone => do
    let material ← SignedZone.sign crypto zone keys now validitySecs nsec3
    pure (signed.insert origin material)
  | none => some signed

def signAll : Option (HashMap DnsName SignedZone) :=
  origins.foldlM (config.signInto keys now validitySecs nsec3) HashMap.empty

def signedZone (origin : DnsName) : Option Zone :=
  if origin ∈ origins then config.zoneAt origin else none

end Resign

variable {config : Config crypto} {keys : List DnssecKey} {origins : List DnsName}
  {now validitySecs : UInt64} {nsec3 : Option Nsec3Params}

theorem signedZone_cons (first origin : DnsName) (rest : List DnsName) :
    config.signedZone (first :: rest) origin =
      if origin = first then config.zoneAt origin else config.signedZone rest origin := by
  unfold signedZone
  by_cases same : origin = first
  · rw [if_pos (same ▸ List.mem_cons_self), if_pos same]
  · simp [same]

theorem signedZone_origin {origin : DnsName}
    (found : config.signedZone origins origin = some zone) : zone.origin = origin := by
  unfold signedZone zoneAt at found
  split at found
  · have matched := List.find?_some found
    exact of_decide_eq_true matched
  · cases found

theorem signInto_get? {origin : DnsName} {before after : HashMap DnsName SignedZone}
    (done : config.signInto keys now validitySecs nsec3 before origin = some after)
    (other : DnsName) :
    (∀ zone, other = origin → config.zoneAt origin = some zone →
      ∃ material, SignedZone.sign crypto zone keys now validitySecs nsec3 = some material ∧
        after.get? other = some material) ∧
    (other ≠ origin ∨ config.zoneAt origin = none → after.get? other = before.get? other) := by
  unfold signInto at done
  split at done
  · rename_i zone found
    obtain ⟨material, made, same⟩ := Option.bind_eq_some_iff.mp done
    cases same
    rw [HashMap.get?_insert]
    refine ⟨fun zone' here found' => ?_, fun apart => ?_⟩
    · rw [found] at found'
      cases found'
      exact ⟨material, made, if_pos here⟩
    · rcases apart with differs | missing
      · exact if_neg differs
      · rw [found] at missing
        cases missing
  · rename_i missing
    cases done
    refine ⟨fun zone _ found => ?_, fun _ => rfl⟩
    rw [missing] at found
    cases found

theorem foldlM_signInto (origin : DnsName) :
    ∀ (origins : List DnsName) (before after : HashMap DnsName SignedZone),
      origins.foldlM (config.signInto keys now validitySecs nsec3) before = some after →
      (∀ zone, config.signedZone origins origin = some zone →
        ∃ material, SignedZone.sign crypto zone keys now validitySecs nsec3 = some material ∧
          after.get? origin = some material) ∧
      (config.signedZone origins origin = none → after.get? origin = before.get? origin) := by
  intro origins
  induction origins with
  | nil =>
    intro before after done
    cases done
    exact ⟨fun zone listed => by simp [signedZone] at listed, fun _ => rfl⟩
  | cons first rest ih =>
    intro before after done
    rw [List.foldlM_cons] at done
    obtain ⟨middle, here, later⟩ := Option.bind_eq_some_iff.mp done
    obtain ⟨found, missed⟩ := ih middle after later
    obtain ⟨signed, kept⟩ := signInto_get? here origin
    rw [signedZone_cons]
    by_cases same : origin = first
    · rw [if_pos same]
      -- a later occurrence of the name signs the same zone again
      cases again : config.signedZone rest origin with
      | some zone =>
        have first : config.zoneAt origin = some zone := by
          unfold signedZone at again
          split at again
          · exact again
          · cases again
        rw [first]
        refine ⟨fun zone' at_ => ?_, fun none => by cases none⟩
        cases at_
        exact found zone again
      | none =>
        rw [missed again, same]
        refine ⟨fun zone at_ => same ▸ signed zone same at_, fun none => ?_⟩
        exact same ▸ kept (.inr none)
    · rw [if_neg same]
      exact ⟨found, fun none => (missed none).trans (kept (.inl same))⟩

theorem signAll_signs {signed : HashMap DnsName SignedZone}
    (done : config.signAll keys origins now validitySecs nsec3 = some signed) :
    ∀ origin material, signed.get? origin = some material →
      ∃ zone keys now validitySecs nsec3,
        SignedZone.sign crypto zone keys now validitySecs nsec3 = some material := by
  intro origin material found
  obtain ⟨listed, unlisted⟩ := foldlM_signInto origin origins HashMap.empty signed done
  cases at_ : config.signedZone origins origin with
  | none =>
    rw [unlisted at_] at found
    cases found
  | some zone =>
    obtain ⟨material', made, found'⟩ := listed zone at_
    rw [found] at found'
    cases found'
    exact ⟨zone, keys, now, validitySecs, nsec3, made⟩

def resign (config : Config crypto) (keys : List DnssecKey) (origins : List DnsName)
    (now validitySecs : UInt64) (nsec3 : Option Nsec3Params) : Option (Config crypto) :=
  match done : config.signAll keys origins now validitySecs nsec3 with
  | some signed => some { config with signed, signs := signAll_signs done }
  | none => none

theorem resign_ok {config' : Config crypto}
    (done : config.resign keys origins now validitySecs nsec3 = some config') :
    ∃ signed, ∃ all : config.signAll keys origins now validitySecs nsec3 = some signed,
      config' = { config with signed, signs := signAll_signs all } := by
  unfold resign at done
  split at done
  · rename_i signed all
    cases done
    exact ⟨signed, all, rfl⟩
  · cases done

theorem resign_zonesFor {config' : Config crypto}
    (done : config.resign keys origins now validitySecs nsec3 = some config') (client : IpAddr) :
    config'.zonesFor client = config.zonesFor client := by
  obtain ⟨_, _, rfl⟩ := resign_ok done
  rfl

def dnskeyRecords (config : Config crypto) (origin : DnsName) : List Record :=
  ((config.signed.get? origin).map SignedZone.dnskeyRrset).getD []

theorem resign_get? {config' : Config crypto}
    (done : config.resign keys origins now validitySecs nsec3 = some config') (origin : DnsName) :
    (∀ zone, config.signedZone origins origin = some zone →
      ∃ material, SignedZone.sign crypto zone keys now validitySecs nsec3 = some material ∧
        config'.signed.get? origin = some material) ∧
    (config.signedZone origins origin = none → config'.signed.get? origin = none) := by
  obtain ⟨signed, all, rfl⟩ := resign_ok done
  exact foldlM_signInto origin origins HashMap.empty signed all

end Config

/-! ## The signatures of a zone -/

def rrsetIn (records : List Record) (owner : DnsName) (rtype : UInt16) : List Record :=
  records.filter fun record => record.name = owner ∧ record.rtype = rtype

def ownRrset (zone : Zone) (nsec3 : Option Nsec3Params) (owner : DnsName) (rtype : UInt16) :
    List Record :=
  rrsetIn zone.allRecords owner rtype ++
    match nsec3 with
    | some params =>
      if owner = zone.origin ∧ rtype = typeNsec3param then
        [SignedZone.nsec3paramRecord zone params]
      else []
    | none => []

theorem get?_groupsOf_own (zone : Zone) (nsec3 : Option Nsec3Params) (owner : DnsName)
    (rtype : UInt16) :
    (SignedZone.groupsOf zone nsec3).get? (owner, rtype) =
      match ownRrset zone nsec3 owner rtype with
      | [] => none
      | set => some set := by
  have plain : (SignedZone.groupsOf zone none).get? (owner, rtype) =
      match rrsetIn zone.allRecords owner rtype with
      | [] => none
      | set => some set := by
    have same : (zone.allRecords.filter fun record =>
        (record.name, record.rtype) = (owner, rtype)) = rrsetIn zone.allRecords owner rtype := by
      simp only [rrsetIn, Prod.mk.injEq]
    rw [SignedZone.get?_groupsOf]
    cases own : rrsetIn zone.allRecords owner rtype with
    | nil => simp only [same.trans own]
    | cons first rest => simp only [same.trans own]
  cases nsec3 with
  | none => simpa [ownRrset] using plain
  | some params =>
    change (HashMap.upsert (SignedZone.groupsOf zone none) (zone.origin, typeNsec3param)
      (· ++ [SignedZone.nsec3paramRecord zone params])).get? (owner, rtype) = _
    rw [HashMap.get?_upsert]
    by_cases apex : owner = zone.origin ∧ rtype = typeNsec3param
    · obtain ⟨rfl, rfl⟩ := apex
      rw [if_pos rfl, plain]
      simp only [ownRrset, and_self, if_true]
      cases rrsetIn zone.allRecords zone.origin typeNsec3param with
      | nil => rfl
      | cons first rest => rfl
    · rw [if_neg (by simpa using apex), plain]
      simp only [ownRrset, if_neg apex, List.append_nil]

theorem preferred_ne_nil {α : Type} (role : α → Bool) {items : List α} (some : items ≠ []) :
    (items.filter fun item => role item || !items.any role) ≠ [] := by
  intro none
  have refused := List.filter_eq_nil_iff.mp none
  obtain ⟨item, member⟩ := List.exists_mem_of_ne_nil _ some
  have lacking : ∀ item ∈ items, role item = false ∧ items.any role = true := by
    intro item member
    simpa using refused item member
  obtain ⟨other, among, has⟩ := List.any_eq_true.mp (lacking item member).2
  rw [(lacking other among).1] at has
  cases has

/-- Which signatures a signed zone holds: one per key chosen for the RRset. -/
structure SignedBy (zone : Zone) (keys : List DnssecKey) (nsec3 : Option Nsec3Params)
    (signed : SignedZone) (inception expiration : UInt32) (ksks zsks : List DnssecKey) : Prop where
  keySigners : ksks ⊆ keys ∧ (keys ≠ [] → ksks ≠ [])
  zoneSigners : zsks ⊆ keys ∧ (keys ≠ [] → zsks ≠ [])
  keyset : signed.dnskeyRrset = keys.map fun key => key.dnskeyRecord zone.soa.ttl
  nsec3param : signed.nsec3param = nsec3.map (SignedZone.nsec3paramRecord zone)
  keysetSigned : ∀ rrsig, rrsig ∈ signed.dnskeyRrsigs ↔
    ∃ key ∈ ksks, signRrset key zone.origin typeDnskey signed.dnskeyRrset inception expiration =
      some rrsig
  setSigned : ∀ owner rtype rrsig, rrsig ∈ rrsigsFor signed owner rtype ↔
    ∃ key ∈ zsks, signRrset key owner rtype (ownRrset zone nsec3 owner rtype) inception expiration =
      some rrsig

theorem sign_signedBy {now validitySecs : UInt64} {nsec3 : Option Nsec3Params} {signed : SignedZone}
    (done : SignedZone.sign crypto zone keys now validitySecs nsec3 = some signed) :
    ∃ inception expiration ksks zsks,
      SignedBy zone keys nsec3 signed inception expiration ksks zsks := by
  unfold SignedZone.sign at done
  dsimp only at done
  generalize UInt32.ofNat (now.toNat - 3600) = inception at done
  generalize (now + validitySecs).toUInt32 = expiration at done
  generalize zsksEq : (keys.filter fun key => !key.isKsk || !keys.any fun key => !key.isKsk) =
    zsks at done
  generalize ksksEq : (keys.filter fun key => key.isKsk || !keys.any DnssecKey.isKsk) = ksks at done
  have keySigners : ksks ⊆ keys ∧ (keys ≠ [] → ksks ≠ []) := by
    rw [← ksksEq]
    exact ⟨List.filter_subset_self _, preferred_ne_nil _⟩
  have zoneSigners : zsks ⊆ keys ∧ (keys ≠ [] → zsks ≠ []) := by
    rw [← zsksEq]
    exact ⟨List.filter_subset_self _, preferred_ne_nil fun key : DnssecKey => !key.isKsk⟩
  obtain ⟨sets, setsSigned, done⟩ := Option.bind_eq_some_iff.mp done
  have rest : ∃ keysetSigs, SignedZone.signWith ksks zone.origin typeDnskey
        (keys.map fun key => key.dnskeyRecord zone.soa.ttl) inception expiration =
          some keysetSigs ∧
      signed.dnskeyRrset = (keys.map fun key => key.dnskeyRecord zone.soa.ttl) ∧
      signed.nsec3param = nsec3.map (SignedZone.nsec3paramRecord zone) ∧
      signed.dnskeyRrsigs = keysetSigs ∧
      signed.rrsigs = sets.foldl (fun map entry => map.insert entry.1 entry.2) HashMap.empty := by
    cases nsec3 with
    | none | some params =>
      obtain ⟨denial, _, done⟩ := Option.bind_eq_some_iff.mp done
      obtain ⟨keysetSigs, keysetSigned, done⟩ := Option.bind_eq_some_iff.mp done
      cases done
      exact ⟨keysetSigs, keysetSigned, rfl, rfl, rfl, rfl⟩
  obtain ⟨keysetSigs, keysetSigned, keyset, nsec3param, keysetSigsEq, rrsigs⟩ := rest
  refine ⟨inception, expiration, ksks, zsks, keySigners, zoneSigners, keyset, nsec3param, ?_, ?_⟩
  · intro rrsig
    rw [keysetSigsEq, keyset]
    exact mem_mapM keysetSigned
  · intro owner rtype rrsig
    have collected := HashMap.get?_collect (fun key set =>
      SignedZone.signWith zsks key.1 key.2 set inception expiration) setsSigned (owner, rtype)
    rw [rrsigsFor, rrsigs, collected, get?_groupsOf_own]
    cases own : ownRrset zone nsec3 owner rtype with
    | nil => simp [signRrset]
    | cons first rest =>
      obtain ⟨sigs, made⟩ := signWith_some zsks owner rtype (List.cons_ne_nil first rest)
        inception expiration
      rw [Option.bind_some, made]
      exact mem_mapM made

/-! ## Signatures that are accepted -/

/-- What is asked of signatures: a key accepts what it signed, and no key of the list
accepts a signature by one of them for other data. -/
structure Idealised (crypto : Crypto) (keys : List DnssecKey) : Prop where
  accepts : ∀ key ∈ keys, ∀ data,
    verifySignature crypto key.algorithm key.public_ data (key.sign data) = true
  only : ∀ key ∈ keys, ∀ other ∈ keys, ∀ data data',
    verifySignature crypto other.algorithm other.public_ data (key.sign data') = true → data = data'

def Vouches (crypto : Crypto) (origin : DnsName) (dnskeys rrset : List Record) (owner : DnsName)
    (rtype : UInt16) (rrsig : Record) : Prop :=
  rrsig.name = owner ∧ ∃ data fields, rrsig.rdata = .unknown typeRrsig data ∧
    parseRrsig data = some fields ∧ fields.typeCovered = rtype ∧ fields.signer = origin ∧
    ∃ dnskey ∈ dnskeys, dnskey.name = origin ∧ ∃ key, dnskey.rdata = .unknown typeDnskey key ∧
      verifyRrsig crypto rrset data key = true

/-- The octets a signature over one RRset covers are those of the other. -/
def SameForm (rrset signed : List Record) : Prop :=
  ∃ first rest, signed = first :: rest ∧
    canonicalForm first.ttl rrset = canonicalForm first.ttl signed

section Vouching

variable {keys : List DnssecKey} (ideal : Idealised crypto keys) {signer : DnsName}
  (lowercase : signer.Lowercase) (signers : ∀ key ∈ keys, key.signer = signer)

variable {owner : DnsName} {rrset : List Record}

include ideal lowercase signers

theorem vouches_signRrset (listed : key ∈ keys) {set : List Record} {rrsig : Record}
    (made : signRrset key owner rtype set inception expiration = some rrsig) {owner' : DnsName}
    {rtype' : UInt16} (named : ∀ record ∈ rrset, record.name = owner') (ttl : UInt32)
    (origin : DnsName) :
    Vouches crypto origin (keys.map fun key => key.dnskeyRecord ttl) rrset owner' rtype' rrsig ↔
      owner = owner' ∧ rtype = rtype' ∧ signer = origin ∧ SameForm rrset set := by
  obtain ⟨first, filled, rfl⟩ := Option.map_eq_some_iff.mp made
  obtain ⟨rest, rfl⟩ : ∃ rest, set = first :: rest := by
    cases set with
    | nil => cases filled
    | cons other rest =>
      cases filled
      exact ⟨rest, rfl⟩
  dsimp only
  generalize signatureEq : key.sign _ = signature
  have signedAs : key.sign (rrsigPrefix key owner rtype first.ttl inception expiration ++
      canonicalForm first.ttl (first :: rest)) = signature := signatureEq
  obtain ⟨fields, parsed, _, _, _, _, _, _, covered, signedFor⟩ :=
    parseRrsig_prefix key owner rtype first.ttl inception expiration signature
  rw [signers key listed, DnsName.lower_of_lowercase lowercase] at signedFor
  constructor
  · rintro ⟨rfl, data, fields', rdata, parsed', covered', signedFor', dnskey, among, keyOwner,
      keyData, keyRdata, verified⟩
    cases rdata
    rw [parsed] at parsed'
    cases parsed'
    obtain ⟨other, otherListed, rfl⟩ := List.mem_map.mp among
    cases keyRdata
    obtain ⟨_, _, accepted⟩ := (verifyRrsig_fields crypto key other rtype first.ttl inception
      expiration signature named).mp verified
    rw [← signedAs] at accepted
    have same := ideal.only key listed other otherListed _ _ accepted
    exact ⟨rfl, covered.symm.trans covered', signedFor.symm.trans signedFor', first, rest, rfl,
      List.append_cancel_left same⟩
  · rintro ⟨rfl, rfl, rfl, first', rest', shape, same⟩
    cases shape
    refine ⟨rfl, _, fields, rfl, parsed, covered, signedFor, key.dnskeyRecord ttl,
      List.mem_map_of_mem listed, signers key listed, _, rfl, ?_⟩
    refine (verifyRrsig_fields crypto key key rtype first.ttl inception expiration signature
      named).mpr ⟨rfl, rfl, ?_⟩
    rw [same, ← signedAs]
    exact ideal.accepts key listed _

/-- One of the signatures that the chosen keys made over an RRset is accepted for
another. -/
theorem vouched_iff {chosen : List DnssecKey} (among : chosen ⊆ keys)
    (some : keys ≠ [] → chosen ≠ []) {sigs set : List Record} (signed : ∀ rrsig, rrsig ∈ sigs ↔
      ∃ key ∈ chosen, signRrset key owner rtype set inception expiration = .some rrsig)
    {owner' : DnsName} {rtype' : UInt16} (named : ∀ record ∈ rrset, record.name = owner')
    (ttl : UInt32) (origin : DnsName) :
    (∃ rrsig ∈ sigs, Vouches crypto origin (keys.map fun key => key.dnskeyRecord ttl) rrset owner'
        rtype' rrsig) ↔
      owner = owner' ∧ rtype = rtype' ∧ signer = origin ∧ keys ≠ [] ∧ SameForm rrset set := by
  constructor
  · rintro ⟨rrsig, member, vouches⟩
    obtain ⟨key, inside, made⟩ := (signed rrsig).mp member
    obtain ⟨sameOwner, sameType, own, same⟩ := (vouches_signRrset ideal lowercase signers
      (among inside) made named ttl origin).mp vouches
    exact ⟨sameOwner, sameType, own, List.ne_nil_of_mem (among inside), same⟩
  · rintro ⟨sameOwner, sameType, own, filled, same⟩
    obtain ⟨key, inside⟩ := List.exists_mem_of_ne_nil _ (some filled)
    obtain ⟨first, rest, rfl, form⟩ := same
    have made : ∃ rrsig, signRrset key owner rtype (first :: rest) inception expiration =
        .some rrsig := ⟨_, rfl⟩
    obtain ⟨rrsig, made⟩ := made
    refine ⟨rrsig, (signed rrsig).mpr ⟨key, inside, made⟩, ?_⟩
    exact (vouches_signRrset ideal lowercase signers (among inside) made named ttl origin).mpr
      ⟨sameOwner, sameType, own, first, rest, rfl, form⟩

theorem attached_iff {nsec3 : Option Nsec3Params} {signed : SignedZone} {ksks zsks : List DnssecKey}
    (by_ : SignedBy zone keys nsec3 signed inception expiration ksks zsks)
    {sets : List (DnsName × UInt16)} (asked : (owner, rtype) ∈ sets)
    (named : ∀ record ∈ rrset, record.name = owner) (ttl : UInt32) (origin : DnsName) :
    (∃ rrsig ∈ sets.flatMap fun set => rrsigsFor signed set.1 set.2,
        Vouches crypto origin (keys.map fun key => key.dnskeyRecord ttl) rrset owner rtype rrsig) ↔
      signer = origin ∧ keys ≠ [] ∧ SameForm rrset (ownRrset zone nsec3 owner rtype) := by
  have each : ∀ set : DnsName × UInt16,
      (∃ rrsig ∈ rrsigsFor signed set.1 set.2, Vouches crypto origin
        (keys.map fun key => key.dnskeyRecord ttl) rrset owner rtype rrsig) ↔
      set.1 = owner ∧ set.2 = rtype ∧ signer = origin ∧ keys ≠ [] ∧
        SameForm rrset (ownRrset zone nsec3 set.1 set.2) := fun set =>
    vouched_iff ideal lowercase signers by_.zoneSigners.1 by_.zoneSigners.2
      (by_.setSigned set.1 set.2) named ttl origin
  constructor
  · rintro ⟨rrsig, member, vouches⟩
    obtain ⟨set, _, inside⟩ := List.mem_flatMap.mp member
    obtain ⟨sameOwner, sameType, own, filled, same⟩ := (each set).mp ⟨rrsig, inside, vouches⟩
    rw [sameOwner, sameType] at same
    exact ⟨own, filled, same⟩
  · rintro ⟨own, filled, same⟩
    obtain ⟨rrsig, inside, vouches⟩ := (each (owner, rtype)).mpr ⟨rfl, rfl, own, filled, same⟩
    exact ⟨rrsig, List.mem_flatMap.mpr ⟨_, asked, inside⟩, vouches⟩

end Vouching

/-! ## Authoritative answers with signatures -/

def Verifiable (crypto : Crypto) (origin : DnsName) (dnskeys answers : List Record) : Prop :=
  ∀ record ∈ answers, record.rtype ≠ typeRrsig → ∃ rrsig ∈ answers,
    Vouches crypto origin dnskeys (rrsetIn answers record.name record.rtype) record.name
      record.rtype
      rrsig

theorem rrsetIn_append {sigs : List Record} (onlySigs : ∀ sig ∈ sigs, sig.rtype = typeRrsig)
    (records : List Record) (owner : DnsName) (other : rtype ≠ typeRrsig) :
    rrsetIn (records ++ sigs) owner rtype = rrsetIn records owner rtype := by
  have none : rrsetIn sigs owner rtype = [] := by
    refine List.filter_eq_nil_iff.mpr fun sig member => ?_
    have typed := onlySigs sig member
    simp only [decide_eq_true_eq, not_and]
    exact fun _ same => other (same.symm.trans typed)
  unfold rrsetIn at none ⊢
  rw [List.filter_append, none, List.append_nil]

theorem verifiable_append {sigs : List Record} (onlySigs : ∀ sig ∈ sigs, sig.rtype = typeRrsig)
    (origin : DnsName) (dnskeys records : List Record) :
    Verifiable crypto origin dnskeys (records ++ sigs) ↔
      ∀ record ∈ records, record.rtype ≠ typeRrsig →
        (∃ stored ∈ records, Vouches crypto origin dnskeys
          (rrsetIn records record.name record.rtype) record.name record.rtype stored) ∨
        ∃ rrsig ∈ sigs, Vouches crypto origin dnskeys
          (rrsetIn records record.name record.rtype) record.name record.rtype rrsig := by
  constructor
  · intro verifiable record member other
    obtain ⟨rrsig, inside, vouches⟩ :=
      verifiable record (List.mem_append_left _ member) other
    rw [rrsetIn_append onlySigs records record.name other] at vouches
    rcases List.mem_append.mp inside with stored | attached
    · exact .inl ⟨rrsig, stored, vouches⟩
    · exact .inr ⟨rrsig, attached, vouches⟩
  · intro each record member other
    rcases List.mem_append.mp member with held | sig
    · rw [rrsetIn_append onlySigs records record.name other]
      rcases each record held other with ⟨stored, inside, vouches⟩ | ⟨rrsig, inside, vouches⟩
      · exact ⟨stored, List.mem_append_left _ inside, vouches⟩
      · exact ⟨rrsig, List.mem_append_right _ inside, vouches⟩
    · exact absurd (onlySigs record sig) other

def answerSets (answers : List Record) : List (DnsName × UInt16) :=
  firstOccurrences (answers.map fun record => (record.name, record.rtype))

/-- The answers of a positive response: those of the signing, or what was found with
its signatures. -/
theorem zoneResponse_answers (config : Config crypto) (query : Message) (recursionAllowed : Bool)
    {q : Question} {result : LookupResult} (looked : zone.lookup q.qname q.qtype = some result)
    (positive : result.negative = false) (inside : result.offsite = none) :
    ∃ resp, zoneResponse config query (openResponse config query recursionAllowed) q zone =
        some (resp, none) ∧
      resp.answers = (apexRecords (dnssecFor config query zone) zone q).getD
        (result.answers ++ match dnssecFor config query zone with
          | some signed =>
            (answerSets result.answers).flatMap fun set => rrsigsFor signed set.1 set.2
          | none => []) := by
  unfold zoneResponse
  dsimp only
  cases apexRecords (dnssecFor config query zone) zone q with
  | some records => exact ⟨_, rfl, rfl⟩
  | none =>
    dsimp only
    rw [looked, Option.bind_eq_bind, Option.bind_some, inside]
    cases dnssecFor config query zone with
    | none =>
      refine ⟨_, rfl, ?_⟩
      simp
    | some signed =>
      simp only [zoneAnswer, positive, attachDnssec]
      exact ⟨_, rfl, rfl⟩

theorem resolveLocal_zone {config : Config crypto} {query : Message} {q : Question}
    (admitted : screenQuery query = .ok q) {client : IpAddr}
    (inZone : findZone (config.zonesFor client) q.qname = some zone) {recursionAllowed : Bool}
    {resp : Message}
    (made : zoneResponse config query (openResponse config query recursionAllowed) q zone =
      some (resp, none)) (cache : Cache) (now : Instant) :
    resolveLocal config cache now query recursionAllowed client = some (.done resp, cache) := by
  unfold resolveLocal
  rw [admitted]
  dsimp only
  rw [inZone]
  dsimp only
  rw [resolveZone, made]
  rfl

section Served

variable (config : Config crypto) (keys : List DnssecKey) (origins : List DnsName)
  (nsec3 : Option Nsec3Params) (zone : Zone) (q : Question)

def asksKeys : Prop := q.qtype = typeDnskey ∧ q.qname = zone.origin

instance : Decidable (asksKeys zone q) := inferInstanceAs (Decidable (_ ∧ _))

def provided (base : Zone) : Option (List Record) :=
  if asksKeys zone q then some (keys.map fun key => key.dnskeyRecord base.soa.ttl)
  else if q.qtype = typeNsec3param ∧ q.qname = zone.origin then
    nsec3.map fun params => [SignedZone.nsec3paramRecord base params]
  else none

def presented (result : LookupResult) : List Record :=
  ((config.signedZone origins zone.origin).bind fun base =>
    provided keys nsec3 zone q base).getD result.answers

def signedSet (base : Zone) (owner : DnsName) (rtype : UInt16) : List Record :=
  if asksKeys zone q then keys.map fun key => key.dnskeyRecord base.soa.ttl
  else ownRrset base nsec3 owner rtype

/-- The zone is the one the keys were loaded for, and the RRset is in canonical form
the one of the zone that was signed. -/
def Covered (rrset : List Record) (owner : DnsName) (rtype : UInt16) : Prop :=
  origins.head? = some zone.origin ∧ keys ≠ [] ∧
    ∃ base, config.signedZone origins zone.origin = some base ∧
      SameForm rrset (signedSet keys nsec3 zone q base owner rtype)

end Served

theorem signRrset_rtype {owner : DnsName} {set : List Record} {rrsig : Record}
    (made : signRrset key owner rtype set inception expiration = some rrsig) :
    rrsig.rtype = typeRrsig := by
  obtain ⟨first, _, rfl⟩ := Option.map_eq_some_iff.mp made
  rfl

theorem mem_rrsetIn {records : List Record} {owner : DnsName} :
    ∀ record ∈ rrsetIn records owner rtype, record.name = owner := by
  intro record member
  exact (of_decide_eq_true (List.mem_filter.mp member).2).1

def attached (signed : SignedZone) (zone : Zone) (q : Question) (records : List Record) :
    List Record :=
  if asksKeys zone q then signed.dnskeyRrsigs
  else (answerSets records).flatMap fun set => rrsigsFor signed set.1 set.2

section Attached

variable {base zone : Zone} {keys : List DnssecKey} {nsec3 : Option Nsec3Params}
  {signed : SignedZone} {inception expiration : UInt32} {ksks zsks : List DnssecKey}
  (by_ : SignedBy base keys nsec3 signed inception expiration ksks zsks)
  (same : base.origin = zone.origin) (q : Question)

include by_

theorem attached_rtype (records : List Record) :
    ∀ sig ∈ attached signed zone q records, sig.rtype = typeRrsig := by
  intro sig member
  unfold attached at member
  split at member
  · obtain ⟨key, _, made⟩ := (by_.keysetSigned sig).mp member
    exact signRrset_rtype made
  · obtain ⟨set, _, inside⟩ := List.mem_flatMap.mp member
    obtain ⟨key, _, made⟩ := (by_.setSigned set.1 set.2 sig).mp inside
    exact signRrset_rtype made

include same

/-- The answers of a response over a signed zone: records and the signatures of their
RRsets. -/
theorem answers_signed (found : List Record) :
    (apexRecords (some signed) zone q).getD
        (found ++ (answerSets found).flatMap fun set => rrsigsFor signed set.1 set.2) =
      (provided keys nsec3 zone q base).getD found ++
        attached signed zone q ((provided keys nsec3 zone q base).getD found) := by
  unfold apexRecords provided attached
  dsimp only
  by_cases asks : q.qtype = typeDnskey ∧ q.qname = zone.origin
  · have asks' : asksKeys zone q := asks
    rw [if_pos asks, if_pos asks', if_pos asks', by_.keyset]
    rfl
  have asks' : ¬ asksKeys zone q := asks
  rw [if_neg asks, if_neg asks', if_neg asks']
  by_cases params : q.qtype = typeNsec3param ∧ q.qname = zone.origin
  · rw [if_pos params, if_pos params, by_.nsec3param]
    cases nsec3 with
    | none => rfl
    | some chosen =>
      have alone : answerSets [SignedZone.nsec3paramRecord base chosen] =
          [(zone.origin, typeNsec3param)] := by
        rw [← same]
        rfl
      simp only [Option.map_some, Option.getD_some, alone, List.flatMap_singleton,
        List.singleton_append]
  · rw [if_neg params, if_neg params]
    rfl

theorem attached_vouches_iff (ideal : Idealised crypto keys) (lowercase : signer.Lowercase)
    (signers : ∀ key ∈ keys, key.signer = signer) (found : List Record) {record : Record}
    (member : record ∈ (provided keys nsec3 zone q base).getD found) {rrset : List Record}
    (named : ∀ other ∈ rrset, other.name = record.name) :
    (∃ rrsig ∈ attached signed zone q ((provided keys nsec3 zone q base).getD found),
        Vouches crypto zone.origin signed.dnskeyRrset rrset record.name record.rtype rrsig) ↔
      signer = zone.origin ∧ keys ≠ [] ∧
        SameForm rrset (signedSet keys nsec3 zone q base record.name record.rtype) := by
  rw [by_.keyset]
  by_cases asks : asksKeys zone q
  · rw [attached, if_pos asks, signedSet, if_pos asks, vouched_iff ideal lowercase signers
      by_.keySigners.1 by_.keySigners.2 by_.keysetSigned named, by_.keyset, same]
    rw [provided, if_pos asks] at member
    obtain ⟨key, listed, rfl⟩ := List.mem_map.mp member
    have owner : (key.dnskeyRecord base.soa.ttl).name = signer := signers key listed
    rw [owner]
    constructor
    · rintro ⟨_, _, own, filled, form⟩
      exact ⟨own, filled, form⟩
    · rintro ⟨own, filled, form⟩
      exact ⟨own.symm, rfl, own, filled, form⟩
  · have asked : (record.name, record.rtype) ∈
        answerSets ((provided keys nsec3 zone q base).getD found) := by
      rw [answerSets, mem_firstOccurrences]
      exact List.mem_map_of_mem member
    rw [attached, if_neg asks, signedSet, if_neg asks]
    exact attached_iff ideal lowercase signers by_ asked named base.soa.ttl zone.origin

end Attached

/-- A DO query with a positive answer from a zone gets a response that can be verified
exactly if every RRset is covered, a signature found in the zone itself apart. -/
theorem resolveLocal_verifiable_iff {source : KeySource} {names : List String} {algorithm : String}
    {keys : List DnssecKey} {origins : List DnsName}
    (loaded : loadDnssecKeys source names algorithm = .ok (some (keys, origins)))
    (ideal : Idealised crypto keys) {config config' : Config crypto}
    {signedAt validitySecs : UInt64} {nsec3 : Option Nsec3Params}
    (resigned : config.resign keys origins signedAt validitySecs nsec3 = some config')
    {query : Message} {q : Question} (admitted : screenQuery query = .ok q)
    (wants : query.edns.any (·.doBit) = true) {client : IpAddr} {zone : Zone}
    (inZone : findZone (config'.zonesFor client) q.qname = some zone) {result : LookupResult}
    (looked : zone.lookup q.qname q.qtype = some result) (positive : result.negative = false)
    (inside : result.offsite = none) (cache : Cache) (now : Instant) (recursionAllowed : Bool) :
    ∃ resp, resolveLocal config' cache now query recursionAllowed client =
        some (.done resp, cache) ∧
      (Verifiable crypto zone.origin (config'.dnskeyRecords zone.origin) resp.answers ↔
        ∀ record ∈ presented config keys origins nsec3 zone q result, record.rtype ≠ typeRrsig →
          let rrset := rrsetIn (presented config keys origins nsec3 zone q result) record.name
            record.rtype
          (∃ stored ∈ presented config keys origins nsec3 zone q result,
            Vouches crypto zone.origin (config'.dnskeyRecords zone.origin) rrset record.name
              record.rtype stored) ∨
          Covered config keys origins nsec3 zone q rrset record.name record.rtype) := by
  obtain ⟨signer, first, lowercase, signers⟩ := loadDnssecKeys_signer loaded
  obtain ⟨listed, unlisted⟩ := Config.resign_get? resigned zone.origin
  obtain ⟨resp, made, answers⟩ :=
    zoneResponse_answers config' query recursionAllowed looked positive inside
  refine ⟨resp, resolveLocal_zone admitted inZone made cache now, ?_⟩
  have dnssec : dnssecFor config' query zone = config'.signed.get? zone.origin := by
    obtain ⟨edns, some, flagged⟩ := (Option.any_eq_true _ _).mp wants
    rw [dnssecFor, some]
    exact if_pos flagged
  rw [dnssec] at answers
  have head : origins.head? = some zone.origin ↔ signer = zone.origin := by
    rw [first]
    exact Option.some_inj
  cases at_ : config.signedZone origins zone.origin with
  | none =>
    -- nothing is signed under the name, and no key is published
    have bare : config'.dnskeyRecords zone.origin = [] := by
      rw [Config.dnskeyRecords, unlisted at_]
      rfl
    have found : presented config keys origins nsec3 zone q result = result.answers := by
      rw [presented, at_]
      rfl
    rw [unlisted at_] at answers
    have unsigned : resp.answers = result.answers ++ [] := answers
    rw [unsigned, bare, found, verifiable_append (List.forall_mem_nil _)]
    refine forall₂_congr fun record _ => imp_congr_right fun _ => or_congr_right ?_
    constructor
    · rintro ⟨rrsig, member, _⟩
      cases member
    · rintro ⟨_, _, base, held, _⟩
      rw [at_] at held
      cases held
  | some base =>
    obtain ⟨signed, done, held⟩ := listed base at_
    obtain ⟨inception, expiration, ksks, zsks, by_⟩ := sign_signedBy done
    have same : base.origin = zone.origin := Config.signedZone_origin at_
    have keyset : config'.dnskeyRecords zone.origin = signed.dnskeyRrset := by
      rw [Config.dnskeyRecords, held]
      rfl
    have found : presented config keys origins nsec3 zone q result =
        (provided keys nsec3 zone q base).getD result.answers := by
      rw [presented, at_]
      rfl
    rw [held] at answers
    rw [answers, answers_signed by_ same, keyset, found,
      verifiable_append (attached_rtype by_ q _)]
    refine forall₂_congr fun record member => imp_congr_right fun _ => or_congr_right ?_
    rw [attached_vouches_iff by_ same q ideal lowercase signers result.answers member mem_rrsetIn]
    unfold Covered
    rw [head]
    refine and_congr_right fun _ => and_congr_right fun _ => ?_
    constructor
    · exact fun form => ⟨base, at_, form⟩
    · rintro ⟨base', at', form⟩
      rw [at_] at at'
      cases at'
      exact form

def echoCrypto : Crypto :=
  { sampleCrypto with ed25519 := fun _ data signature => decide (signature = data) }

def echoPair : KeyPair := ⟨algEd25519, [1, 2, 3], id⟩

def echoSource : KeySource := ⟨fun _ => .ok echoPair, fun _ => .ok echoPair, none⟩

def echoKey : DnssecKey := echoPair.finish apexName true

theorem echoKey_loaded :
    loadDnssecKeys echoSource ["ex.test"] "ed25519" = .ok (some ([echoKey], [apexName])) := rfl

theorem echoKey_ideal : Idealised echoCrypto [echoKey] := by
  constructor
  · intro key listed data
    rw [List.mem_singleton.mp listed]
    exact decide_eq_true rfl
  · intro key listed other otherListed data data' accepted
    rw [List.mem_singleton.mp listed, List.mem_singleton.mp otherListed] at accepted
    have same : data' = data := of_decide_eq_true accepted
    exact same.symm

def hosting (zone : Zone) : Config echoCrypto where
  zones := [zone]
  views := []
  signed := HashMap.empty
  rpz := ⟨HashMap.empty⟩
  pool := false
  recursor := false
  forwards := []
  signs := nofun

def resignHosting (zone : Zone) : Option (Config echoCrypto) :=
  (hosting zone).resign [echoKey] [apexName] 1700000000 1209600 none

def askingSigned (qname : DnsName) (qtype : UInt16) : Message :=
  { asking qname qtype with edns := some { Edns.ours with doBit := true } }

/-- The SOA of a zone comes with a signature that is accepted. -/
theorem resolveLocal_verifiable_shell :
    ∃ config' resp, resignHosting shell = some config' ∧
      resolveLocal config' (Cache.new 10) 0 (askingSigned apexName typeSoa) false loopback =
        some (.done resp, Cache.new 10) ∧
      Verifiable echoCrypto apexName (config'.dnskeyRecords apexName) resp.answers := by
  have returns : (resignHosting shell).isSome = true := by decide +kernel
  obtain ⟨config', resigned⟩ := Option.isSome_iff_exists.mp returns
  have inZone : findZone (config'.zonesFor loopback) apexName = some shell := by
    rw [Config.resign_zonesFor resigned]
    rfl
  have admitted : screenQuery (askingSigned apexName typeSoa) =
    .ok ⟨apexName, typeSoa, classIn⟩ := rfl
  have wants : (askingSigned apexName typeSoa).edns.any (·.doBit) = true := rfl
  have looked : shell.lookup apexName typeSoa = some ⟨rcodeNoerror, [apexSoa], false, none⟩ := rfl
  obtain ⟨resp, resolved, verifiable⟩ := resolveLocal_verifiable_iff echoKey_loaded echoKey_ideal
    resigned admitted wants inZone looked rfl rfl (Cache.new 10) 0 false
  refine ⟨config', resp, resigned, resolved, verifiable.mpr fun record member _ => .inr ?_⟩
  have soa : record = apexSoa := List.mem_singleton.mp member
  rw [soa]
  exact ⟨rfl, List.cons_ne_nil _ _, shell, rfl, apexSoa, [], rfl, rfl⟩

/-- An address drawn from a wildcard is served without any signature. -/
theorem starred_unverifiable :
    ∃ config' result resp cache', resignHosting starred = some config' ∧
      starred.lookup drawnName typeA = some result ∧ result.rcode = rcodeNoerror ∧
      result.negative = false ∧ result.offsite = none ∧
      resolveLocal config' (Cache.new 10) 0 (askingSigned drawnName typeA) false loopback =
        some (.done resp, cache') ∧
      ¬ Verifiable echoCrypto apexName (config'.dnskeyRecords apexName) resp.answers := by
  have checked : ((resignHosting starred).any fun config' =>
      (resolveLocal config' (Cache.new 10) 0 (askingSigned drawnName typeA) false loopback).any
        fun outcome => match outcome.1 with
          | .done resp => !resp.answers.isEmpty &&
              resp.answers.all fun record => record.rtype ≠ typeRrsig
          | .pending _ => false) = true := by decide +kernel
  obtain ⟨config', resigned, checked⟩ := (Option.any_eq_true _ _).mp checked
  obtain ⟨⟨outcome, cache'⟩, resolved, checked⟩ := (Option.any_eq_true _ _).mp checked
  cases outcome with
  | pending rest => cases checked
  | done resp =>
    obtain ⟨filled, unsigned⟩ := Bool.and_eq_true_iff.mp checked
    have unsigned : ∀ record ∈ resp.answers, record.rtype ≠ typeRrsig := by
      simpa using unsigned
    refine ⟨config', ⟨rcodeNoerror, [{ starAddress with name := drawnName }], false, none⟩, resp,
      cache', resigned, rfl, rfl, rfl, rfl, resolved, fun verifiable => ?_⟩
    obtain ⟨record, member⟩ := List.exists_mem_of_ne_nil resp.answers (by simpa using filled)
    obtain ⟨rrsig, among, _, data, fields, rdata, _⟩ :=
      verifiable record member (unsigned record member)
    refine unsigned rrsig among ?_
    rw [Record.rtype, rdata]
    rfl

end Rdns.Resolver.Serve
