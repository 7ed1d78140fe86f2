import Rdns.Dnssec.Validate
import Rdns.Lib.Ring

/-!
# Proofs of absence

The parts of the validator that read NSEC and NSEC3 records: type bitmaps,
canonical name order, hashed ranges, and the three questions asked of them (is
the queried name or type absent, is there no DS at a zone cut, are the records
signed by a given set of keys).  None of them fetches anything.
-/

set_option autoImplicit false

namespace Rdns.Resolver

open Rdns.Lib Rdns.Proto Rdns.Dnssec

def unknownData (record : Record) : Option Bytes :=
  match record.rdata with
  | .unknown _ data => some data
  | _ => none

def ofType (rtype : UInt16) (records : List Record) : List Record :=
  records.filter fun record => record.rtype = rtype

def signatures (records : List Record) : List Bytes :=
  (ofType typeRrsig records).filterMap unknownData

/-! ## RRsets of a section -/

abbrev SetKey := DnsName × UInt16

/-- Order of `(owner.to_string(), rtype)`; the text of a name is ASCII, so that
characters compare as octets do. -/
def SetKey.before (left right : SetKey) : Prop :=
  left.1.displayChars < right.1.displayChars ∨
    left.1.displayChars = right.1.displayChars ∧ left.2 ≤ right.2

instance : DecidableRel SetKey.before := fun _ _ => inferInstanceAs (Decidable (_ ∨ _))

def setsOf (records : List Record) : List SetKey :=
  dedup ((records.map fun record => (record.name, record.rtype)).insertionSort SetKey.before)

def rrsetOf (records : List Record) (set : SetKey) : List Record :=
  records.filter fun record => record.name = set.1 ∧ record.rtype = set.2

/-- The RRSIG rdata at the owner that cover the type. -/
def sigsFor (records : List Record) (set : SetKey) : List Bytes :=
  ((records.filter fun record => record.rtype = typeRrsig ∧ record.name = set.1).filterMap
    unknownData).filter fun data => (parseRrsig data).map (·.typeCovered) = some set.2

theorem mem_signatures_of_mem_sigsFor {records : List Record} {set : SetKey} {sig : Bytes}
    (member : sig ∈ sigsFor records set) : sig ∈ signatures records := by
  obtain ⟨record, inside, data⟩ := List.mem_filterMap.mp (List.mem_filter.mp member).1
  obtain ⟨listed, chosen⟩ := List.mem_filter.mp inside
  refine List.mem_filterMap.mpr ⟨record, List.mem_filter.mpr ⟨listed, ?_⟩, data⟩
  simpa using (of_decide_eq_true chosen).1

theorem mem_setsOf (records : List Record) (set : SetKey) :
    set ∈ setsOf records ↔ ∃ record ∈ records, (record.name, record.rtype) = set := by
  rw [setsOf, mem_dedup, List.mem_insertionSort, List.mem_map]

/-! ## NSEC -/

def canonKey (name : DnsName) : List Label := name.labels.reverse

def octetTypes (window : UInt16) (index : Nat) (octet : UInt8) : List UInt16 :=
  ((List.range 8).filter fun bit => octet &&& (0x80 >>> UInt8.ofNat bit) ≠ 0).map
    fun bit => window * 256 + UInt16.ofNat index * 8 + UInt16.ofNat bit

/-- The loop over the windows; each takes at least two octets. -/
def bitmapLoop : Nat → Bytes → List UInt16
  | 0, _ => []
  | fuel + 1, window :: len :: rest =>
    if rest.length < len.toNat then []
    else
      ((rest.take len.toNat).zipIdx.flatMap fun entry =>
        octetTypes window.toUInt16 entry.2 entry.1) ++ bitmapLoop fuel (rest.drop len.toNat)
  | _ + 1, _ => []

def parseTypeBitmap (data : Bytes) : List UInt16 := bitmapLoop data.length data

def parseNsec (rdata : Bytes) : Option (DnsName × List UInt16) :=
  match DnsName.fromWire rdata 0 with
  | .error _ => none
  | .ok (next, pos) => some (next, parseTypeBitmap (rdata.drop pos))

/-- The owner exists without the type, or the name falls between the owner and
the next name; the last NSEC of a zone wraps to the apex. -/
def nsecProves (qname : DnsName) (qtype : UInt16) (nsec : List Record) : Bool :=
  let target := canonKey qname
  nsec.any fun record =>
    match (unknownData record).bind parseNsec with
    | none => false
    | some (next, types) =>
      let owner := canonKey record.name
      let nextKey := canonKey next
      if record.name = qname then !types.contains qtype
      else if owner < nextKey then decide (owner < target ∧ target < nextKey)
      else decide (owner < target ∨ target < nextKey)

/-! ## NSEC3 -/

def parseNsec3 (rdata : Bytes) : Option (Nsec3Params × Bytes × List UInt16) :=
  if rdata.length < 5 then none
  else
    let saltLen := (rdata.getD 4 0).toNat
    let hashPos := 5 + saltLen
    match slice rdata 5 saltLen, rdata[hashPos]? with
    | some salt, some hashLen =>
      match slice rdata (hashPos + 1) hashLen.toNat with
      | none => none
      | some next => some ({ iterations := be16At rdata 2, salt }, next,
          parseTypeBitmap (rdata.drop (hashPos + 1 + hashLen.toNat)))
    | _, _ => none

def base32hexValue (char : UInt8) : Option UInt32 :=
  let lower := toAsciiLowercase char
  if 48 ≤ lower ∧ lower ≤ 57 then some (char.toUInt32 - 48)
  else if 97 ≤ lower ∧ lower ≤ 118 then some (lower.toUInt32 - 97 + 10)
  else none

def base32hexLoop : Bytes → UInt32 → Nat → Bytes → Option Bytes
  | [], _, _, out => some out
  | char :: rest, buf, bits, out =>
    match base32hexValue char with
    | none => none
    | some value =>
      let buf := (buf <<< 5) ||| value
      let bits := bits + 5
      if bits ≥ 8 then
        base32hexLoop rest buf (bits - 8)
          (out ++ [(buf >>> UInt32.ofNat (bits - 8)).toUInt8])
      else base32hexLoop rest buf bits out

/-- On octets: text outside ASCII holds no digit, and octets that are no text are
refused as well. -/
def base32hexDecode (text : Bytes) : Option Bytes := base32hexLoop text 0 0 []

def nsec3OwnerHash (name : DnsName) : Option Bytes := name.labels.head?.bind base32hexDecode

/-- The half-open range from an owner hash to the next one, with the wrap at the
end of the chain. -/
def hashCovers (owner next hash : Bytes) : Bool :=
  if owner < next then decide (owner < hash ∧ hash ≤ next) else decide (owner < hash ∨ hash ≤ next)

def nsec3ParamsOf (nsec3 : List Record) : Option Nsec3Params :=
  nsec3.findSome? fun record => ((unknownData record).bind parseNsec3).map Prod.fst

/-- Records that all carry the same parameters. -/
theorem nsec3ParamsOf_eq {params : Nsec3Params} {nsec3 : List Record} (some : nsec3 ≠ [])
    (parameters : ∀ record ∈ nsec3,
      ((unknownData record).bind parseNsec3).map Prod.fst = .some params) :
    nsec3ParamsOf nsec3 = .some params := by
  obtain ⟨first, rest, rfl⟩ := List.exists_cons_of_ne_nil some
  rw [nsec3ParamsOf, List.findSome?_cons, parameters first List.mem_cons_self]

def nsec3Entries (nsec3 : List Record) : List (Bytes × Bytes) :=
  nsec3.filterMap fun record => do
    let owner ← nsec3OwnerHash record.name
    let (_, next, _) ← (unknownData record).bind parseNsec3
    pure (owner, next)

variable (crypto : Crypto)

/-- The name itself is matched, or its closest encloser is matched and the next
closer name covered. -/
def nsec3Proves (qname : DnsName) (nsec3 : List Record) : Bool :=
  match nsec3ParamsOf nsec3 with
  | none => false
  | some params =>
    let entries := nsec3Entries nsec3
    let matched := fun hash : Bytes => entries.any fun entry => entry.1 = hash
    let covered := fun hash : Bytes => entries.any fun entry => hashCovers entry.1 entry.2 hash
    matched (hashName crypto qname params) ||
      (List.range' 1 (qname.labels.length - 1)).any fun skip =>
        match DnsName.fromLabels (qname.labels.drop skip),
            DnsName.fromLabels (qname.labels.drop (skip - 1)) with
        | .ok encloser, .ok nextCloser =>
          matched (hashName crypto encloser params) &&
            covered (hashName crypto nextCloser params)
        | _, _ => false

/-! ## What the validator asks -/

def maxNsec3Iterations : UInt16 := 100

def nsec3IterationsExceed (records : List Record) (max : UInt16) : Bool :=
  (ofType typeNsec3 records).any fun record =>
    match unknownData record with
    | some data => decide (data.length ≥ 4 ∧ be16At data 2 > max)
    | none => false

def hasNsec (records : List Record) : Bool :=
  records.any fun record => record.rtype = typeNsec ∨ record.rtype = typeNsec3

def denialProven (msg : Message) : Bool :=
  match msg.questions.head? with
  | none => false
  | some question =>
    let nsec3 := ofType typeNsec3 msg.authorities
    let nsec := ofType typeNsec msg.authorities
    if !nsec3.isEmpty then nsec3Proves crypto question.qname nsec3
    else if !nsec.isEmpty then nsecProves question.qname question.qtype nsec
    else false

/-- Every NSEC and NSEC3 RRset of the section has a signature one of the keys
accepts, and there is at least one. -/
def authoritySignedBy (authority : List Record) (keys : List Bytes) : Bool :=
  let sets := setsOf (authority.filter fun record =>
    record.rtype = typeNsec ∨ record.rtype = typeNsec3)
  !sets.isEmpty && sets.all fun set =>
    (sigsFor authority set).any fun sig =>
      keys.any fun key => verifyRrsig crypto (rrsetOf authority set) sig key

/-- A delegation point without DS: matched by an NSEC or NSEC3 with the NS bit
and without the DS bit, or covered by an opt-out NSEC3. -/
def authenticatedNoDs (zone : DnsName) (authority : List Record) : Bool :=
  let insecureCut := fun types : List UInt16 => types.contains typeNs && !types.contains typeDs
  let byNsec := (ofType typeNsec authority).any fun record =>
    match (unknownData record).bind parseNsec with
    | none => false
    | some (_, types) => record.name = zone && insecureCut types
  let nsec3 := ofType typeNsec3 authority
  byNsec ||
    match nsec3ParamsOf nsec3 with
    | none => false
    | some params =>
      let want := hashName crypto zone params
      nsec3.any fun record =>
        match nsec3OwnerHash record.name, unknownData record with
        | some owner, some data =>
          match parseNsec3 data with
          | none => false
          | some (_, next, types) =>
            let optOut := data.getD 1 0 &&& 0x01 ≠ 0
            (owner = want && insecureCut types) ||
              (decide optOut && hashCovers owner next want)
        | _, _ => false

theorem denialProven_hasNsec {msg : Message} (proven : denialProven crypto msg = true) :
    hasNsec msg.authorities = true := by
  have present : ∀ rtype, (rtype = typeNsec ∨ rtype = typeNsec3) →
      (!(ofType rtype msg.authorities).isEmpty) = true → hasNsec msg.authorities = true := by
    intro rtype kind occurs
    obtain ⟨record, member⟩ := List.exists_mem_of_ne_nil (ofType rtype msg.authorities)
      (by simpa using occurs)
    obtain ⟨inside, typed⟩ := List.mem_filter.mp member
    have same : record.rtype = rtype := by simpa using typed
    exact List.any_eq_true.mpr ⟨record, inside, by simpa [same] using kind⟩
  unfold denialProven at proven
  split at proven
  · cases proven
  simp only at proven
  split at proven
  · rename_i occurs
    exact present typeNsec3 (Or.inr rfl) occurs
  · split at proven
    · rename_i occurs
      exact present typeNsec (Or.inl rfl) occurs
    · cases proven

end Rdns.Resolver
