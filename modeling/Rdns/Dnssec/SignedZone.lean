import Rdns.Lib.Loops
import Rdns.Lib.Ring
import Rdns.Proto.NameInvariant
import Rdns.Zones.Store
import Rdns.Dnssec.Sign

/-!
# Signed zones

`SignedZone::sign` of dns-dnssec with both kinds of denial chain, and the records
it offers for a negative answer.  An index or unwrap that would stop the program
makes the functions return none.
-/

set_option autoImplicit false

namespace Rdns.Dnssec

open Rdns.Lib Rdns.Proto Rdns.Zones

/-! ## Rdata of the chains -/

/-- Window 0 of a type bitmap, as long as the highest type needs. -/
def typeBitmap (types : List UInt16) : Bytes :=
  let maxType := types.foldl max 0
  types.foldl
    (fun bitmap rtype => bitmap.modify (rtype.toNat / 8)
      fun octet => octet ||| (0x80 >>> UInt8.ofNat (rtype.toNat % 8)))
    (List.replicate (maxType.toNat / 8 + 1) 0)

def bitmapField (types : List UInt16) : Bytes :=
  0 :: UInt8.ofNat (typeBitmap types).length :: typeBitmap types

def nsecRdata (next : DnsName) (types : List UInt16) : Bytes :=
  (next.toWire [] none).1 ++ bitmapField types

def hashSha1 : UInt8 := 1

def nsec3Rdata (params : Nsec3Params) (nextHash : Bytes) (types : List UInt16) : Bytes :=
  [hashSha1, 0] ++ toBe16 params.iterations ++ UInt8.ofNat params.salt.length :: params.salt ++
    UInt8.ofNat nextHash.length :: nextHash ++ bitmapField types

def nsec3paramRdata (params : Nsec3Params) : Bytes :=
  [hashSha1, 0] ++ toBe16 params.iterations ++ UInt8.ofNat params.salt.length :: params.salt

def nextHashOf (nsec3Rdata : Bytes) : Option Bytes := do
  let saltLen ← nsec3Rdata[4]?
  let hashLenPos := 5 + saltLen.toNat
  let hashLen ← nsec3Rdata[hashLenPos]?
  slice nsec3Rdata (hashLenPos + 1) hashLen.toNat

/-! ## Owners of NSEC3 records -/

def base32hexAlphabet : List Char := "0123456789abcdefghijklmnopqrstuv".toList

def base32hexDigit (value : UInt32) : Char :=
  base32hexAlphabet.getD (value &&& 0x1F).toNat '0'

def base32hexDrain (buf : UInt32) : Nat → List Char × Nat
  | bits + 5 =>
    let (digits, left) := base32hexDrain buf bits
    (base32hexDigit (buf >>> UInt32.ofNat bits) :: digits, left)
  | bits => ([], bits)

def base32hexEncode : Bytes → UInt32 → Nat → List Char
  | [], buf, bits =>
    if bits > 0 then [base32hexDigit (buf <<< UInt32.ofNat (5 - bits))] else []
  | octet :: rest, buf, bits =>
    let buf := (buf <<< 8) ||| octet.toUInt32
    let (digits, left) := base32hexDrain buf (bits + 8)
    digits ++ base32hexEncode rest buf left

def base32hex (data : Bytes) : String := String.ofList (base32hexEncode data 0 0)

/-! ## The NSEC3 chain -/

structure Nsec3Node where
  hash : Bytes
  owner : DnsName
  record : Record

variable (crypto : Crypto)

/-- The record of one hash; an owner name that does not parse is a panic. -/
def nsec3Node (apex : DnsName) (params : Nsec3Params) (ttl : UInt32) (hash : Bytes)
    (types : List UInt16) (next : Bytes) : Option Nsec3Node :=
  match DnsName.parseStr (base32hex hash ++ "." ++ apex.display) with
  | .error _ => none
  | .ok owner =>
    some { hash, owner
           record := { name := owner, class_ := classIn, ttl
                       rdata := .unknown typeNsec3 (nsec3Rdata params next types) } }

def hashedOwners (ownerTypes : List (DnsName × List UInt16)) (params : Nsec3Params) :
    List (Bytes × List UInt16) :=
  let hashed := ownerTypes.map fun entry => (hashName crypto entry.1 params, entry.2)
  dedupByKey Prod.fst (hashed.insertionSort fun left right => left.1 ≤ right.1)

def buildChain (apex : DnsName) (ownerTypes : List (DnsName × List UInt16))
    (params : Nsec3Params) (ttl : UInt32) : Option (List Nsec3Node) :=
  (links (hashedOwners crypto ownerTypes params)).mapM fun link =>
    nsec3Node apex params ttl link.1.1 link.1.2 link.2.1

/-! ## Signing -/

structure NsecEntry where
  owner : DnsName
  record : Record
  sigs : List Record

structure Nsec3Entry where
  hash : Bytes
  record : Record
  sigs : List Record

inductive Denial
  | nsec (chain : List NsecEntry)
  | nsec3 (params : Nsec3Params) (nodes : List Nsec3Entry) (names : List DnsName)

structure SignedZone where
  origin : DnsName
  rrsigs : HashMap (DnsName × UInt16) (List Record)
  denial : Denial
  dnskeyRrset : List Record
  dnskeyRrsigs : List Record
  nsec3param : Option Record

/-- Labels compared from the right (RFC 4034 §6.1). -/
def canonicalKey (name : DnsName) : List Label := name.labels.reverse

abbrev Groups := HashMap (DnsName × UInt16) (List Record)

namespace SignedZone

def groupInto (groups : Groups) (record : Record) : Groups :=
  groups.upsert (record.name, record.rtype) (· ++ [record])

def nsec3paramRecord (zone : Zone) (params : Nsec3Params) : Record where
  name := zone.origin
  class_ := classIn
  ttl := zone.soa.ttl
  rdata := .unknown typeNsec3param (nsec3paramRdata params)

def groupsOf (zone : Zone) (nsec3 : Option Nsec3Params) : Groups :=
  let groups := zone.allRecords.foldl groupInto HashMap.empty
  match nsec3 with
  | none => groups
  | some params =>
    groups.upsert (zone.origin, typeNsec3param) (· ++ [nsec3paramRecord zone params])

def ownersOf (groups : Groups) : List DnsName :=
  dedup ((groups.keys.map Prod.fst).insertionSort fun left right =>
    canonicalKey left ≤ canonicalKey right)

def typesAt (groups : Groups) (origin owner : DnsName) : List UInt16 :=
  (groups.keys.filter fun key => key.1 = owner).map Prod.snd ++ [typeRrsig] ++
    if owner = origin then [typeDnskey] else []

def sortedTypes (types : List UInt16) : List UInt16 := dedup (types.insertionSort (· ≤ ·))

def signWith (keys : List DnssecKey) (owner : DnsName) (rtype : UInt16) (rrset : List Record)
    (inception expiration : UInt32) : Option (List Record) :=
  keys.mapM fun key => signRrset key owner rtype rrset inception expiration

def nsecRecord (zone : Zone) (groups : Groups) (owner next : DnsName) : Record where
  name := owner
  class_ := classIn
  ttl := zone.soa.ttl
  rdata := .unknown typeNsec
    (nsecRdata next (sortedTypes (typesAt groups zone.origin owner ++ [typeNsec])))

/-- `sign_denial`: the signatures over a record of the chain. -/
abbrev SignDenial := DnsName → UInt16 → Record → Option (List Record)

def nsecChain (zone : Zone) (groups : Groups) (signDenial : SignDenial) :
    Option (List NsecEntry) :=
  (links (ownersOf groups)).mapM fun link => do
    let record := nsecRecord zone groups link.1 link.2
    pure { owner := link.1, record, sigs := ← signDenial link.1 typeNsec record }

def nsec3Chain (zone : Zone) (groups : Groups) (params : Nsec3Params)
    (signDenial : SignDenial) : Option (List Nsec3Entry) := do
  let ownerTypes := (ownersOf groups).map fun owner =>
    (owner, sortedTypes (typesAt groups zone.origin owner))
  let chain ← buildChain crypto zone.origin ownerTypes params zone.soa.ttl
  chain.mapM fun node => do
    pure { hash := node.hash, record := node.record
           sigs := ← signDenial node.owner typeNsec3 node.record }

def sign (zone : Zone) (keys : List DnssecKey) (now validitySecs : UInt64)
    (nsec3 : Option Nsec3Params) : Option SignedZone := do
  let inception := UInt32.ofNat (now.toNat - 3600)
  let expiration := (now + validitySecs).toUInt32
  let anyKsk := keys.any DnssecKey.isKsk
  let anyZsk := keys.any fun key => !key.isKsk
  let ksks := keys.filter fun key => key.isKsk || !anyKsk
  let zsks := keys.filter fun key => !key.isKsk || !anyZsk
  let groups := groupsOf zone nsec3
  let signed ← groups.entries.mapM fun entry => do
    let sigs ← signWith zsks entry.1.1 entry.1.2 entry.2 inception expiration
    pure (entry.1, sigs)
  let signDenial : SignDenial := fun owner rtype record =>
    signWith zsks owner rtype [record] inception expiration
  let denial ← match nsec3 with
    | none => (nsecChain zone groups signDenial).map Denial.nsec
    | some params =>
      (nsec3Chain crypto zone groups params signDenial).map fun nodes =>
        Denial.nsec3 params nodes (ownersOf groups)
  let dnskeyRrset := keys.map fun key => key.dnskeyRecord zone.soa.ttl
  let dnskeyRrsigs ← signWith ksks zone.origin typeDnskey dnskeyRrset inception expiration
  pure
    { origin := zone.origin
      rrsigs := signed.foldl (fun map entry => map.insert entry.1 entry.2) HashMap.empty
      denial, dnskeyRrset, dnskeyRrsigs
      nsec3param := nsec3.map (nsec3paramRecord zone) }

end SignedZone

/-! ## Denial records -/

def NsecEntry.pick (entry : NsecEntry) : List Record := entry.record :: entry.sigs

/-- The exact NSEC for NODATA, else the last one not after the name, else the last
one of the chain. -/
def nsecDenial (chain : List NsecEntry) (qname : DnsName) (nxdomain : Bool) : List Record :=
  match if nxdomain then none else chain.find? fun entry => entry.owner = qname with
  | some entry => entry.pick
  | none =>
    let target := canonicalKey qname
    let best := (chain.takeWhile fun entry => canonicalKey entry.owner ≤ target).getLast?
    ((best <|> chain.getLast?).map NsecEntry.pick).getD []

def closestEncloser (qname : DnsName) (names : List DnsName) (apex : DnsName) : DnsName :=
  ((List.range (qname.labels.length - apex.labelCount)).findSome? fun skip =>
    match DnsName.fromLabels (qname.labels.drop skip) with
    | .ok candidate => if names.contains candidate then some candidate else none
    | .error _ => none).getD apex

def nextCloser (qname encloser : DnsName) : DnsName :=
  let take := encloser.labelCount + 1
  if qname.labels.length ≤ take then qname
  else
    match DnsName.fromLabels (qname.labels.drop (qname.labels.length - take)) with
    | .ok name => name
    | .error _ => qname

def prependStar (name : DnsName) : Option DnsName :=
  (DnsName.fromLabels (DnsName.star :: name.labels)).toOption

def dedupRecords (records : List Record) : List Record :=
  records.foldl (fun out record => if out.contains record then out else out ++ [record]) []

def coversHash (cur next hash : Bytes) : Bool :=
  if cur < next then decide (cur < hash ∧ hash ≤ next) else decide (cur < hash ∨ hash ≤ next)

def covering (hash : Bytes) : List Nsec3Entry → Option (Option Nsec3Entry)
  | [] => some none
  | node :: rest =>
    match node.record.rdata with
    | .unknown _ data => do
      if coversHash node.hash (← nextHashOf data) hash then pure (some node)
      else covering hash rest
    | _ => covering hash rest

def matching (nodes : List Nsec3Entry) (hash : Bytes) : Option Nsec3Entry :=
  nodes.find? fun node => node.hash = hash

def Nsec3Entry.emit (node : Option Nsec3Entry) : List Record :=
  match node with
  | none => []
  | some node => node.record :: node.sigs

def nsec3Denial (origin : DnsName) (params : Nsec3Params) (nodes : List Nsec3Entry)
    (names : List DnsName) (qname : DnsName) (nxdomain : Bool) : Option (List Record) :=
  if !nxdomain then some (Nsec3Entry.emit (matching nodes (hashName crypto qname params)))
  else do
    let encloser := closestEncloser qname names origin
    let closer := nextCloser qname encloser
    let first := matching nodes (hashName crypto encloser params)
    let second ← covering (hashName crypto closer params) nodes
    let third ← match prependStar encloser with
      | none => pure none
      | some wildcard => covering (hashName crypto wildcard params) nodes
    pure (dedupRecords
      (Nsec3Entry.emit first ++ Nsec3Entry.emit second ++ Nsec3Entry.emit third))

def SignedZone.denialRecords (signed : SignedZone) (qname : DnsName) (nxdomain : Bool) :
    Option (List Record) :=
  match signed.denial with
  | .nsec chain => some (nsecDenial chain qname nxdomain)
  | .nsec3 params nodes names =>
    nsec3Denial crypto signed.origin params nodes names qname nxdomain

/-! ## The names of a denial -/

section Obtained

variable {qname apex encloser : DnsName} (asked : Obtainable qname.raw)

include asked

theorem closestEncloser_obtainable (above : Obtainable apex.raw) (names : List DnsName) :
    Obtainable (closestEncloser qname names apex).raw := by
  unfold closestEncloser
  generalize found : List.findSome? _ _ = result
  cases result with
  | none => exact above
  | some candidate =>
    obtain ⟨skip, _, tested⟩ := List.exists_of_findSome?_eq_some found
    split at tested
    · rename_i made built
      split at tested
      · cases tested
        exact asked.ofLabels (fun label member => .inr (List.mem_of_mem_drop member)) built
      · cases tested
    · cases tested

theorem nextCloser_obtainable : Obtainable (nextCloser qname encloser).raw := by
  unfold nextCloser
  dsimp only
  split
  · exact asked
  · split
    · rename_i made built
      exact asked.ofLabels (fun label member => .inr (List.mem_of_mem_drop member)) built
    · exact asked

theorem prependStar_obtainable {wildcard : DnsName} (made : prependStar qname = some wildcard) :
    Obtainable wildcard.raw := by
  refine asked.ofLabels (fun label member => ?_) (toOption_eq_some_iff.mp made)
  rcases List.mem_cons.mp member with star | kept
  · exact .inl star
  · exact .inr kept

end Obtained

end Rdns.Dnssec
