import Rdns.Proto.Message
import Mathlib.Data.List.Sort

/-!
# Signature validation

The verifier side of dns-dnssec: RRSIG and DNSKEY rdata, the octets a signature
covers, and the checks of a signature and of a DS digest.  The signature schemes
and digests themselves belong to a cryptography library and are parameters.
-/

set_option autoImplicit false

namespace Rdns.Dnssec

open Rdns.Lib Rdns.Proto

/-- Signature checks and digests.  Nothing is assumed of them. -/
structure Crypto where
  ed25519 : (key data signature : Bytes) → Bool
  ecdsaP256Sha256 : (point data signature : Bytes) → Bool
  ecdsaP384Sha384 : (point data signature : Bytes) → Bool
  rsaSha1 : (modulus exponent data signature : Bytes) → Bool
  rsaSha256 : (modulus exponent data signature : Bytes) → Bool
  rsaSha512 : (modulus exponent data signature : Bytes) → Bool
  sha1 : Bytes → Bytes
  sha256 : Bytes → Bytes

def algRsasha1 : UInt8 := 5
def algRsasha1Nsec3 : UInt8 := 7
def algRsasha256 : UInt8 := 8
def algRsasha512 : UInt8 := 10
def algEcdsap256 : UInt8 := 13
def algEcdsap384 : UInt8 := 14
def algEd25519 : UInt8 := 15

/-! ## Rdata -/

structure RrsigFields where
  typeCovered : UInt16
  algorithm : UInt8
  labels : UInt8
  originalTtl : UInt32
  expiration : UInt32
  inception : UInt32
  keyTag : UInt16
  signer : DnsName
  /-- The rdata up to the signature: the head of what is signed. -/
  prefix_ : Bytes
  signature : Bytes

def be16At (rdata : Bytes) (index : Nat) : UInt16 :=
  ofBe16 (rdata.getD index 0) (rdata.getD (index + 1) 0)

def be32At (rdata : Bytes) (index : Nat) : UInt32 :=
  ofBe32 (rdata.getD index 0) (rdata.getD (index + 1) 0) (rdata.getD (index + 2) 0)
    (rdata.getD (index + 3) 0)

def parseRrsig (rdata : Bytes) : Option RrsigFields :=
  if rdata.length < 18 then none
  else
    match DnsName.fromWire rdata 18 with
    | .error _ => none
    | .ok (signer, pos) => some {
        typeCovered := be16At rdata 0
        algorithm := rdata.getD 2 0
        labels := rdata.getD 3 0
        originalTtl := be32At rdata 4
        expiration := be32At rdata 8
        inception := be32At rdata 12
        keyTag := be16At rdata 16
        signer
        prefix_ := rdata.take pos
        signature := rdata.drop pos }

structure DnskeyFields where
  flags : UInt16
  algorithm : UInt8
  public_ : Bytes

def parseDnskey (rdata : Bytes) : Option DnskeyFields :=
  if rdata.length < 4 then none
  else some { flags := be16At rdata 0, algorithm := rdata.getD 3 0, public_ := rdata.drop 4 }

def keyTag (dnskeyRdata : Bytes) : UInt16 :=
  let word : UInt8 × Nat → UInt32 := fun entry =>
    if entry.2 % 2 = 0 then entry.1.toUInt32 <<< 8 else entry.1.toUInt32
  let sum := dnskeyRdata.zipIdx.foldl (fun ac entry => ac + word entry) 0
  let folded := sum + ((sum >>> 16) &&& 0xFFFF)
  (folded &&& 0xFFFF).toUInt16

/-! ## Signatures over an RRset -/

/-- `*.<suffix>` when the label count of the RRSIG says the owner was expanded. -/
def wildcardOwner (owner : DnsName) (rrsigLabels : UInt8) : DnsName :=
  let count := owner.labelCount
  if rrsigLabels.toNat ≥ count then owner
  else (owner.wildcardAt (count - rrsigLabels.toNat)).getD owner

def signedData (fields : RrsigFields) (rrset : List Record) : Bytes :=
  let canon := rrset.map fun record =>
    let record := { record with name := wildcardOwner record.name fields.labels }
    (record.encodeCanonical fields.originalTtl ([], Compressor.default)).1
  fields.prefix_ ++ (canon.insertionSort (· ≤ ·)).flatten

def rsaParts (public_ : Bytes) : Option (Bytes × Bytes) :=
  match public_ with
  | [] => none
  | first :: _ =>
    let lengthAndOffset : Option (Nat × Nat) :=
      if first = 0 then
        match public_[1]?, public_[2]? with
        | some high, some low => some ((ofBe16 high low).toNat, 3)
        | _, _ => none
      else some (first.toNat, 1)
    match lengthAndOffset with
    | none => none
    | some (expLen, offset) =>
      match slice public_ offset expLen with
      | none => none
      | some exponent => some (public_.drop (offset + expLen), exponent)

variable (crypto : Crypto)

/-- An unsupported algorithm verifies nothing. -/
def verifySignature (algorithm : UInt8) (public_ data sig : Bytes) : Bool :=
  if algorithm = algEd25519 then crypto.ed25519 public_ data sig
  else if algorithm = algEcdsap256 then crypto.ecdsaP256Sha256 (0x04 :: public_) data sig
  else if algorithm = algEcdsap384 then crypto.ecdsaP384Sha384 (0x04 :: public_) data sig
  else if algorithm = algRsasha1 ∨ algorithm = algRsasha1Nsec3 ∨ algorithm = algRsasha256 ∨
      algorithm = algRsasha512 then
    match rsaParts public_ with
    | none => false
    | some (modulus, exponent) =>
      if algorithm = algRsasha1 ∨ algorithm = algRsasha1Nsec3 then
        crypto.rsaSha1 modulus exponent data sig
      else if algorithm = algRsasha512 then crypto.rsaSha512 modulus exponent data sig
      else crypto.rsaSha256 modulus exponent data sig
  else false

/-- The validity period of the signature is not looked at, nor is the owner of
the RRset compared with the signer. -/
def verifyRrsig (rrset : List Record) (rrsigRdata dnskeyRdata : Bytes) : Bool :=
  match parseRrsig rrsigRdata, parseDnskey dnskeyRdata with
  | some fields, some key =>
    if fields.algorithm ≠ key.algorithm then false
    else if fields.keyTag ≠ keyTag dnskeyRdata then false
    else verifySignature crypto key.algorithm key.public_ (signedData fields rrset)
      fields.signature
  | _, _ => false

def verifyDs (owner : DnsName) (dnskeyRdata dsRdata : Bytes) : Bool :=
  if dsRdata.length < 4 then false
  else
    match parseDnskey dnskeyRdata with
    | none => false
    | some key =>
      if be16At dsRdata 0 ≠ keyTag dnskeyRdata ∨ dsRdata.getD 2 0 ≠ key.algorithm then false
      else
        let input := (owner.toWire [] none).1 ++ dnskeyRdata
        let digestType := dsRdata.getD 3 0
        if digestType = 1 then decide (crypto.sha1 input = dsRdata.drop 4)
        else if digestType = 2 then decide (crypto.sha256 input = dsRdata.drop 4)
        else false

/-! ## NSEC3 hashes -/

structure Nsec3Params where
  iterations : UInt16
  salt : Bytes
deriving DecidableEq

/-- Iterated digest of a name (RFC 5155 §5). -/
def hashName (name : DnsName) (params : Nsec3Params) : Bytes :=
  (fun digest => crypto.sha1 (digest ++ params.salt))^[params.iterations.toNat]
    (crypto.sha1 ((name.toWire [] none).1 ++ params.salt))

end Rdns.Dnssec
