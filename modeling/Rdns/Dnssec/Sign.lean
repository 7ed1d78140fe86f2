import Rdns.Proto.RoundTrip
import Rdns.Dnssec.Validate

/-!
# Signing an RRset

`DnssecKey` and `sign_rrset` of dns-dnssec, and that the verifier of
`Rdns.Dnssec.Validate` accepts what they produce.  The signer concatenates the
signed octets from structured fields; the verifier takes the RRSIG rdata apart
again, finding the end of the prefix by decoding the signer's name.  What both
halves compute is compared octet by octet.
-/

set_option autoImplicit false

namespace Rdns.Dnssec

open Rdns.Lib Rdns.Proto

def flagZoneKey : UInt16 := 0x0100
def flagSep : UInt16 := 0x0001

def dnskeyRdata (flags : UInt16) (algorithm : UInt8) (public_ : Bytes) : Bytes :=
  toBe16 flags ++ [3, algorithm] ++ public_

/-- The signer has its own `key_tag`, line for line the verifier's. -/
def signerKeyTag (rdata : Bytes) : UInt16 := keyTag rdata

/-- A key with its signing material.  Signing is randomised for some algorithms:
`sign` is whatever function of the data the material turned out to be. -/
structure DnssecKey where
  algorithm : UInt8
  flags : UInt16
  public_ : Bytes
  signer : DnsName
  keyTag : UInt16
  sign : Bytes → Bytes
  tagged : keyTag = signerKeyTag (dnskeyRdata flags algorithm public_)

namespace DnssecKey

def finish (sign : Bytes → Bytes) (algorithm : UInt8) (ksk : Bool) (signer : DnsName)
    (public_ : Bytes) : DnssecKey :=
  let flags := flagZoneKey ||| if ksk then flagSep else 0
  { algorithm, flags, public_, signer, sign
    keyTag := signerKeyTag (dnskeyRdata flags algorithm public_)
    tagged := rfl }

def isKsk (key : DnssecKey) : Bool := key.flags &&& flagSep ≠ 0

def dnskeyData (key : DnssecKey) : Bytes := dnskeyRdata key.flags key.algorithm key.public_

def dnskeyRecord (key : DnssecKey) (ttl : UInt32) : Record where
  name := key.signer
  class_ := classIn
  ttl := ttl
  rdata := .unknown typeDnskey key.dnskeyData

end DnssecKey

def rrsigPrefix (key : DnssecKey) (owner : DnsName) (rtype : UInt16) (originalTtl inception
    expiration : UInt32) : Bytes :=
  let head := toBe16 rtype ++ [key.algorithm, UInt8.ofNat owner.labelCount] ++
    toBe32 originalTtl ++ toBe32 expiration ++ toBe32 inception ++ toBe16 key.keyTag
  (key.signer.toWire head none).1

def canonicalOctets (originalTtl : UInt32) (record : Record) : Bytes :=
  (record.encodeCanonical originalTtl ([], Compressor.default)).1

/-- The TTL is taken from the first record: an empty RRset is an index panic. -/
def signRrset (key : DnssecKey) (owner : DnsName) (rtype : UInt16) (rrset : List Record)
    (inception expiration : UInt32) : Option Record :=
  rrset.head?.map fun first =>
    let originalTtl := first.ttl
    let prefix_ := rrsigPrefix key owner rtype originalTtl inception expiration
    let canon := (rrset.map (canonicalOctets originalTtl)).insertionSort (· ≤ ·)
    let signature := key.sign (prefix_ ++ canon.flatten)
    { name := owner, class_ := classIn, ttl := originalTtl
      rdata := .unknown typeRrsig (prefix_ ++ signature) }

/-! ## What the verifier reads back -/

section Fields

variable (key : DnssecKey) (owner : DnsName) (rtype : UInt16)
  (originalTtl inception expiration : UInt32) (signature : Bytes)

def rrsigHead : Bytes :=
  toBe16 rtype ++ [key.algorithm, UInt8.ofNat owner.labelCount] ++ toBe32 originalTtl ++
    toBe32 expiration ++ toBe32 inception ++ toBe16 key.keyTag

theorem rrsigPrefix_eq :
    rrsigPrefix key owner rtype originalTtl inception expiration =
      rrsigHead key owner rtype originalTtl inception expiration ++
        plainOctets key.signer.labels := by
  rw [rrsigPrefix, DnsName.toWire, toWireLoop_none]
  rfl

theorem parseRrsig_prefix :
    ∃ fields, parseRrsig (rrsigPrefix key owner rtype originalTtl inception expiration ++
        signature) = some fields ∧
      fields.algorithm = key.algorithm ∧ fields.labels = UInt8.ofNat owner.labelCount ∧
      fields.originalTtl = originalTtl ∧ fields.keyTag = key.keyTag ∧
      fields.prefix_ = rrsigPrefix key owner rtype originalTtl inception expiration ∧
      fields.signature = signature ∧ fields.typeCovered = rtype ∧
      fields.signer = key.signer.lower := by
  rw [rrsigPrefix_eq]
  generalize headEq : rrsigHead key owner rtype originalTtl inception expiration = head
  have length : head.length = 18 := by
    rw [← headEq]
    rfl
  have decoded := fromWire_plain key.signer head signature
  rw [length] at decoded
  have long : ¬ (head ++ plainOctets key.signer.labels ++ signature).length < 18 := by
    rw [List.length_append, List.length_append]
    omega
  have whole : (head ++ plainOctets key.signer.labels).length =
      18 + (plainOctets key.signer.labels).length := by
    rw [List.length_append, length]
  unfold parseRrsig
  rw [if_neg long, decoded]
  refine ⟨_, rfl, ?_, ?_, ?_, ?_, ?_, ?_, ?_, rfl⟩
  · rw [← headEq]
    rfl
  · rw [← headEq]
    rfl
  · rw [← headEq]
    exact ofBe32_toBe32 originalTtl
  · rw [← headEq]
    exact ofBe16_toBe16 key.keyTag
  · change List.take (18 + _) _ = _
    rw [← whole, List.take_left]
  · change List.drop (18 + _) _ = _
    rw [← whole, List.drop_left]
  · rw [← headEq]
    exact ofBe16_toBe16 rtype

theorem parseDnskey_dnskeyData :
    parseDnskey key.dnskeyData =
      some { flags := key.flags, algorithm := key.algorithm, public_ := key.public_ } := by
  have long : ¬ key.dnskeyData.length < 4 := by
    simp only [DnssecKey.dnskeyData, dnskeyRdata, List.length_append, toBe16_length,
      List.length_cons, List.length_nil]
    omega
  rw [parseDnskey, if_neg long]
  refine congrArg some ?_
  have flags : be16At key.dnskeyData 0 = key.flags := ofBe16_toBe16 key.flags
  rw [flags]
  rfl

end Fields

theorem wildcardOwner_self (owner : DnsName) :
    wildcardOwner owner (UInt8.ofNat owner.labelCount) = owner := by
  have count := owner.labelCount_le
  have exact : (UInt8.ofNat owner.labelCount).toNat = owner.labelCount := by
    rw [UInt8.toNat_ofNat']
    omega
  rw [wildcardOwner, if_pos (by rw [exact])]

theorem insertionSort_congr {values values' : List Bytes} (perm : values.Perm values') :
    values.insertionSort (· ≤ ·) = values'.insertionSort (· ≤ ·) := by
  refine List.Perm.eq_of_pairwise (fun left right _ _ => Std.Antisymm.antisymm left right)
    (List.pairwise_insertionSort _ _) (List.pairwise_insertionSort _ _) ?_
  exact ((List.perm_insertionSort _ values).trans perm).trans
    (List.perm_insertionSort _ values').symm

def withoutTtl (record : Record) : Record := { record with ttl := 0 }

def canonicalForm (originalTtl : UInt32) (rrset : List Record) : Bytes :=
  ((rrset.map (canonicalOctets originalTtl)).insertionSort (· ≤ ·)).flatten

theorem canonicalForm_congr (originalTtl : UInt32) {rrset received : List Record}
    (same : (received.map withoutTtl).Perm (rrset.map withoutTtl)) :
    canonicalForm originalTtl received = canonicalForm originalTtl rrset := by
  have plain : ∀ records : List Record, records.map (canonicalOctets originalTtl) =
      (records.map withoutTtl).map (canonicalOctets originalTtl) := by
    intro records
    rw [List.map_map]
    rfl
  rw [canonicalForm, canonicalForm, plain received, plain rrset, insertionSort_congr (same.map _)]

theorem signedData_eq {owner : DnsName} {fields : RrsigFields} {rrset : List Record}
    (labels : fields.labels = UInt8.ofNat owner.labelCount)
    (owned : ∀ record ∈ rrset, record.name = owner) :
    signedData fields rrset = fields.prefix_ ++ canonicalForm fields.originalTtl rrset := by
  have canon : rrset.map (fun record => canonicalOctets fields.originalTtl
      { record with name := wildcardOwner record.name fields.labels }) =
      rrset.map (canonicalOctets fields.originalTtl) := by
    apply List.map_congr_left
    intro record member
    rw [owned record member, labels, wildcardOwner_self, ← owned record member]
  change fields.prefix_ ++ ((rrset.map fun record => canonicalOctets fields.originalTtl
    { record with name := wildcardOwner record.name fields.labels }).insertionSort
      (· ≤ ·)).flatten = _
  rw [canon]
  rfl

/-- What the verifier makes of RRSIG rdata that one key's fields were written to and
another key is tried on. -/
theorem verifyRrsig_fields (crypto : Crypto) (key other : DnssecKey) {owner : DnsName}
    (rtype : UInt16) (originalTtl inception expiration : UInt32) (signature : Bytes)
    {rrset : List Record} (owned : ∀ record ∈ rrset, record.name = owner) :
    verifyRrsig crypto rrset
        (rrsigPrefix key owner rtype originalTtl inception expiration ++ signature)
        other.dnskeyData = true ↔
      key.algorithm = other.algorithm ∧ key.keyTag = other.keyTag ∧
        verifySignature crypto other.algorithm other.public_
          (rrsigPrefix key owner rtype originalTtl inception expiration ++
            canonicalForm originalTtl rrset) signature = true := by
  obtain ⟨fields, parsed, algorithm, labels, ttl, tag, prefixed, signed, _⟩ :=
    parseRrsig_prefix key owner rtype originalTtl inception expiration signature
  have data := signedData_eq labels owned
  have otherTag : keyTag other.dnskeyData = other.keyTag := other.tagged.symm
  rw [prefixed, ttl] at data
  unfold verifyRrsig
  rw [parsed, parseDnskey_dnskeyData]
  simp only
  rw [data, signed, algorithm, tag, otherTag]
  by_cases sameAlgorithm : key.algorithm = other.algorithm
  · by_cases sameTag : key.keyTag = other.keyTag
    · simp [sameAlgorithm, sameTag]
    · simp [sameAlgorithm, sameTag]
  · simp [sameAlgorithm]

theorem verifyRrsig_signRrset (crypto : Crypto) (key : DnssecKey)
    (signs : ∀ data, verifySignature crypto key.algorithm key.public_ data (key.sign data) = true)
    (owner : DnsName) (rtype : UInt16) (rrset received : List Record) (some : rrset ≠ [])
    (owned : ∀ record ∈ rrset, record.name = owner ∧ record.rtype = rtype)
    (same : (received.map withoutTtl).Perm (rrset.map withoutTtl))
    (inception expiration : UInt32) :
    ∃ rrsig data, signRrset key owner rtype rrset inception expiration = .some rrsig ∧
      rrsig.rdata = .unknown typeRrsig data ∧
      verifyRrsig crypto received data key.dnskeyData = true := by
  obtain ⟨first, rest, rfl⟩ := List.exists_cons_of_ne_nil some
  have named : ∀ record ∈ received, record.name = owner := by
    intro record member
    have inside := same.subset (List.mem_map_of_mem (f := withoutTtl) member)
    obtain ⟨sent, listed, equal⟩ := List.mem_map.mp inside
    have names : (withoutTtl sent).name = (withoutTtl record).name := congrArg Record.name equal
    exact names.symm.trans (owned sent listed).1
  refine ⟨_, _, rfl, rfl, ?_⟩
  refine (verifyRrsig_fields crypto key key rtype first.ttl inception expiration _ named).mpr
    ⟨rfl, rfl, ?_⟩
  rw [canonicalForm_congr first.ttl same]
  exact signs _

def sampleKey (signer : DnsName) : DnssecKey :=
  DnssecKey.finish (fun data => data.take 4) algEd25519 false signer [1, 2, 3]

def sampleCrypto : Crypto where
  ed25519 := fun _ data signature => decide (signature = data.take 4)
  ecdsaP256Sha256 := fun _ _ _ => false
  ecdsaP384Sha384 := fun _ _ _ => false
  rsaSha1 := fun _ _ _ _ => false
  rsaSha256 := fun _ _ _ _ => false
  rsaSha512 := fun _ _ _ _ => false
  sha1 := fun data => data.take 20
  sha256 := fun data => data.take 32

def sampleAddress (last : UInt8) (ttl : UInt32) : Record :=
  { name := ⟨[[119, 119, 119]], by decide⟩, class_ := classIn, ttl
    rdata := .a (.new 10 0 0 last) }

theorem verifyRrsig_signRrset_sample :
    ∃ rrsig data, signRrset (sampleKey .root) (sampleAddress 1 300).name typeA
        [sampleAddress 1 300, sampleAddress 2 300] 0 1209600 = some rrsig ∧
      rrsig.rdata = .unknown typeRrsig data ∧
      verifyRrsig sampleCrypto [sampleAddress 2 17, sampleAddress 1 18] data
        (sampleKey .root).dnskeyData = true := by
  refine verifyRrsig_signRrset sampleCrypto (sampleKey .root) (fun data => ?_) _ typeA _ _
    (List.cons_ne_nil _ _) (fun record member => ?_) ?_ 0 1209600
  · exact decide_eq_true rfl
  · rcases List.mem_pair.mp member with rfl | rfl
    · exact ⟨rfl, rfl⟩
    · exact ⟨rfl, rfl⟩
  · exact List.Perm.swap (withoutTtl (sampleAddress 1 18)) (withoutTtl (sampleAddress 2 17)) []

end Rdns.Dnssec
