import Rdns.Lib.Loops
import Rdns.Zones.Structure
import Rdns.Zones.Lookup
import Rdns.Dnssec.SignedZone
import Rdns.Resolver.Denial

/-!
# Denial with NSEC is complete

Whatever the zone does not have, the NSEC record the signer picks convinces the
validator of it.  The owners of the chain are exactly the stored names, so a name
that is no owner falls into the range of the entry found by the search, and a name
that is one has a bitmap that lists exactly its types and those the signer adds.
-/

set_option autoImplicit false

namespace Rdns.Dnssec

open Rdns.Lib Rdns.Proto Rdns.Zones Rdns.Resolver

/-! ## Type bitmaps -/

theorem bit_or (octet : UInt8) (set test : Nat) (setSmall : set < 8) (testSmall : test < 8) :
    (octet ||| (0x80 >>> UInt8.ofNat set)) &&& (0x80 >>> UInt8.ofNat test) ≠ 0 ↔
      octet &&& (0x80 >>> UInt8.ofNat test) ≠ 0 ∨ set = test := by
  have masks : ∀ first < 8, ∀ second < 8,
      ((0x80 : UInt8) >>> UInt8.ofNat first) &&& (0x80 >>> UInt8.ofNat second) ≠ 0 ↔
        first = second := by decide
  have distrib : ∀ left right mask : UInt8,
      (left ||| right) &&& mask = (left &&& mask) ||| (right &&& mask) := by
    intro left right mask
    apply UInt8.toBitVec_inj.mp
    rw [UInt8.toBitVec_and, UInt8.toBitVec_or, BitVec.and_or_distrib_right, UInt8.toBitVec_or,
      UInt8.toBitVec_and, UInt8.toBitVec_and]
  rw [distrib, ← masks set setSmall test testSmall, ne_eq, UInt8.or_eq_zero_iff, not_and_or]

def BitSet (bitmap : Bytes) (index bit : Nat) : Prop :=
  bitmap.getD index 0 &&& (0x80 >>> UInt8.ofNat bit) ≠ 0

theorem le_foldl_max (types : List UInt16) :
    ∀ acc : UInt16, acc ≤ types.foldl max acc ∧ ∀ rtype ∈ types, rtype ≤ types.foldl max acc := by
  have upper : ∀ left right : UInt16, left ≤ max left right ∧ right ≤ max left right := by
    intro left right
    change left ≤ (if left ≤ right then right else left) ∧
      right ≤ (if left ≤ right then right else left)
    split
    · exact ⟨‹_›, UInt16.le_refl _⟩
    · exact ⟨UInt16.le_refl _, (UInt16.le_total left right).resolve_left ‹_›⟩
  induction types with
  | nil =>
    intro acc
    exact ⟨UInt16.le_refl _, fun rtype member => by cases member⟩
  | cons first rest ih =>
    intro acc
    obtain ⟨lower, all⟩ := ih (max acc first)
    obtain ⟨left, right⟩ := upper acc first
    refine ⟨UInt16.le_trans left lower, fun rtype member => ?_⟩
    rcases List.mem_cons.mp member with rfl | inside
    · exact UInt16.le_trans right lower
    · exact all rtype inside

theorem setBits_spec (types : List UInt16) :
    ∀ bitmap : Bytes, (∀ rtype ∈ types, rtype.toNat / 8 < bitmap.length) →
      let result := types.foldl (fun bitmap rtype => bitmap.modify (rtype.toNat / 8)
        fun octet => octet ||| (0x80 >>> UInt8.ofNat (rtype.toNat % 8))) bitmap
      result.length = bitmap.length ∧ ∀ index bit, bit < 8 →
        (BitSet result index bit ↔ BitSet bitmap index bit ∨
          ∃ rtype ∈ types, rtype.toNat / 8 = index ∧ rtype.toNat % 8 = bit) := by
  induction types with
  | nil =>
    intro bitmap _
    exact ⟨rfl, fun index bit _ => by simp⟩
  | cons first rest ih =>
    intro bitmap inside
    obtain ⟨here, later⟩ := List.forall_mem_cons.mp inside
    obtain ⟨length, bits⟩ := ih
      (bitmap.modify (first.toNat / 8)
        fun octet => octet ||| (0x80 >>> UInt8.ofNat (first.toNat % 8)))
      (by simpa using later)
    refine ⟨by simpa using length, fun index bit small => ?_⟩
    have step : BitSet (bitmap.modify (first.toNat / 8)
          fun octet => octet ||| (0x80 >>> UInt8.ofNat (first.toNat % 8))) index bit ↔
        BitSet bitmap index bit ∨ first.toNat / 8 = index ∧ first.toNat % 8 = bit := by
      unfold BitSet
      rw [List.getD_eq_getElem?_getD, List.getElem?_modify, List.getD_eq_getElem?_getD]
      by_cases same : first.toNat / 8 = index
      · subst same
        rw [List.getElem?_eq_getElem here]
        simp only [Option.map_eq_map, Option.map_some, Option.getD_some, if_true, true_and]
        exact bit_or _ _ _ (Nat.mod_lt _ (by omega)) small
      · simp [same]
    refine (bits index bit small).trans ?_
    rw [step, List.exists_mem_cons_iff, or_assoc]

theorem blank_reaches (types : List UInt16) :
    ∀ rtype ∈ types, rtype.toNat / 8 <
      (List.replicate ((types.foldl max 0).toNat / 8 + 1) (0 : UInt8)).length := by
  intro rtype member
  have bound := UInt16.le_iff_toNat_le.mp ((le_foldl_max types 0).2 rtype member)
  have quotient := Nat.div_le_div_right (c := 8) bound
  rw [List.length_replicate]
  omega

theorem typeBitmap_length (types : List UInt16) :
    (typeBitmap types).length = (types.foldl max 0).toNat / 8 + 1 :=
  (setBits_spec types _ (blank_reaches types)).1.trans List.length_replicate

theorem typeBitmap_bits (types : List UInt16) (index bit : Nat) (small : bit < 8) :
    BitSet (typeBitmap types) index bit ↔
      ∃ rtype ∈ types, rtype.toNat / 8 = index ∧ rtype.toNat % 8 = bit := by
  have blank : ¬ BitSet (List.replicate ((types.foldl max 0).toNat / 8 + 1) 0) index bit := by
    have zero : (List.replicate ((types.foldl max 0).toNat / 8 + 1) (0 : UInt8)).getD index 0 =
        0 := by
      rw [List.getD_eq_getElem?_getD, List.getElem?_replicate]
      split <;> rfl
    rw [BitSet, zero, UInt8.zero_and]
    exact not_not.mpr rfl
  have spec := (setBits_spec types _ (blank_reaches types)).2 index bit small
  exact spec.trans (or_iff_right blank)

theorem mem_octetTypes (index : Nat) (octet : UInt8) (rtype : UInt16) :
    rtype ∈ octetTypes 0 index octet ↔
      ∃ bit < 8, octet &&& (0x80 >>> UInt8.ofNat bit) ≠ 0 ∧
        rtype = UInt16.ofNat (index * 8 + bit) := by
  have value : ∀ bit, (0 : UInt16) * 256 + UInt16.ofNat index * 8 + UInt16.ofNat bit =
      UInt16.ofNat (index * 8 + bit) := by
    intro bit
    rw [UInt16.zero_mul, UInt16.zero_add, UInt16.ofNat_add, UInt16.ofNat_mul]
    rfl
  simp only [octetTypes, List.mem_map, List.mem_filter, List.mem_range, decide_eq_true_eq, value]
  constructor
  · rintro ⟨bit, ⟨small, set⟩, rfl⟩
    exact ⟨bit, small, set, rfl⟩
  · rintro ⟨bit, small, set, rfl⟩
    exact ⟨bit, ⟨small, set⟩, rfl⟩

theorem foldl_max_lt {types : List UInt16} {limit : Nat} (positive : 0 < limit)
    (small : ∀ rtype ∈ types, rtype.toNat < limit) : (types.foldl max 0).toNat < limit := by
  have each : ∀ (rest : List UInt16) (acc : UInt16), acc.toNat < limit →
      (∀ rtype ∈ rest, rtype.toNat < limit) → (rest.foldl max acc).toNat < limit := by
    intro rest
    induction rest with
    | nil =>
      intro acc bound _
      exact bound
    | cons first rest ih =>
      intro acc bound all
      obtain ⟨here, later⟩ := List.forall_mem_cons.mp all
      refine ih _ ?_ later
      change UInt16.toNat (if acc ≤ first then first else acc) < limit
      split
      · exact here
      · exact bound
  exact each types 0 positive small

/-- One window of at most 255 octets is read back as the types written into it. -/
theorem mem_parseTypeBitmap {types : List UInt16} (small : ∀ rtype ∈ types, rtype.toNat < 2040)
    (rtype : UInt16) : rtype ∈ parseTypeBitmap (bitmapField types) ↔ rtype ∈ types := by
  have length := typeBitmap_length types
  have top := foldl_max_lt (by omega) small
  have exact : (UInt8.ofNat (typeBitmap types).length).toNat = (typeBitmap types).length := by
    rw [UInt8.toNat_ofNat']
    omega
  have read : parseTypeBitmap (bitmapField types) =
      (typeBitmap types).zipIdx.flatMap fun entry => octetTypes 0 entry.2 entry.1 := by
    rw [parseTypeBitmap, bitmapField, List.length_cons, bitmapLoop, exact, if_neg (by omega),
      List.take_length, List.drop_length]
    cases (UInt8.ofNat (typeBitmap types).length :: typeBitmap types).length with
    | zero => exact List.append_nil _
    | succ fuel => exact List.append_nil _
  have at_ : ∀ (octet : UInt8) (index : Nat), (octet, index) ∈ (typeBitmap types).zipIdx →
      index < (typeBitmap types).length ∧ octet = (typeBitmap types).getD index 0 := by
    intro octet index member
    have found := List.mem_zipIdx' member
    refine ⟨found.1, ?_⟩
    rw [List.getD_eq_getElem?_getD, List.getElem?_eq_getElem found.1]
    exact found.2
  rw [read, List.mem_flatMap]
  constructor
  · rintro ⟨⟨octet, index⟩, member, listed⟩
    obtain ⟨inside, value⟩ := at_ octet index member
    obtain ⟨bit, bitSmall, set, rfl⟩ := (mem_octetTypes index octet rtype).mp listed
    rw [value] at set
    obtain ⟨written, member, high, low⟩ := (typeBitmap_bits types index bit bitSmall).mp set
    have same : UInt16.ofNat (index * 8 + bit) = written := by
      apply UInt16.toNat_inj.mp
      have range := written.toNat_lt
      rw [UInt16.toNat_ofNat']
      omega
    rw [same]
    exact member
  · intro member
    have range := rtype.toNat_lt
    have bitSmall : rtype.toNat % 8 < 8 := Nat.mod_lt _ (by omega)
    have set := (typeBitmap_bits types (rtype.toNat / 8) _ bitSmall).mpr ⟨rtype, member, rfl, rfl⟩
    have inside : rtype.toNat / 8 < (typeBitmap types).length := by
      have reach := blank_reaches types rtype member
      rw [List.length_replicate] at reach
      omega
    refine ⟨((typeBitmap types)[rtype.toNat / 8], rtype.toNat / 8), ?_, ?_⟩
    · exact List.mem_zipIdx_iff_getElem?.mpr (List.getElem?_eq_getElem inside)
    · refine (mem_octetTypes _ _ _).mpr ⟨rtype.toNat % 8, bitSmall, ?_, ?_⟩
      · rw [BitSet, List.getD_eq_getElem?_getD, List.getElem?_eq_getElem inside] at set
        exact set
      · apply UInt16.toNat_inj.mp
        rw [UInt16.toNat_ofNat']
        omega

/-! ## NSEC records -/

theorem parseNsec_nsecRdata (next : DnsName) (types : List UInt16) :
    parseNsec (nsecRdata next types) = some (next.lower, parseTypeBitmap (bitmapField types)) := by
  have rdata : nsecRdata next types = [] ++ plainOctets next.labels ++ bitmapField types := by
    rw [nsecRdata, DnsName.toWire, toWireLoop_none]
  have decoded := fromWire_plain next [] (bitmapField types)
  rw [parseNsec, rdata]
  rw [List.length_nil, Nat.zero_add] at decoded
  rw [decoded]
  dsimp only
  rw [List.nil_append, List.drop_left]

/-! ## RRsets and owners -/

namespace SignedZone

theorem foldl_groupInto (key : DnsName × UInt16) (records : List Record) :
    ∀ groups : Groups, (records.foldl groupInto groups).get? key =
      match records.filter fun record => (record.name, record.rtype) = key with
      | [] => groups.get? key
      | matched => some ((groups.get? key).getD [] ++ matched) := by
  induction records with
  | nil =>
    intro groups
    rfl
  | cons first rest ih =>
    intro groups
    rw [List.foldl_cons, ih, groupInto, HashMap.get?_upsert, List.filter_cons]
    by_cases here : (first.name, first.rtype) = key
    · rw [if_pos here.symm, if_pos (decide_eq_true here), here]
      cases rest.filter fun record => (record.name, record.rtype) = key with
      | nil => rfl
      | cons second others =>
        simp only [Option.getD_some, List.append_assoc, List.singleton_append]
        rfl
    · rw [if_neg (fun same => here same.symm), if_neg (by simpa using here)]

theorem get?_groupsOf (zone : Zone) (key : DnsName × UInt16) :
    (groupsOf zone none).get? key =
      match zone.allRecords.filter fun record => (record.name, record.rtype) = key with
      | [] => none
      | matched => some matched := by
  rw [groupsOf]
  exact foldl_groupInto key zone.allRecords HashMap.empty

theorem groupsOf_occupied {zone : Zone} {key : DnsName × UInt16} {rrset : List Record}
    (found : (groupsOf zone none).get? key = some rrset) : rrset ≠ [] := by
  rw [get?_groupsOf] at found
  split at found
  · cases found
  · rename_i some
    cases found
    exact some

theorem mem_keys_groupsOf (zone : Zone) (key : DnsName × UInt16) :
    key ∈ (groupsOf zone none).keys ↔
      ∃ record ∈ zone.allRecords, (record.name, record.rtype) = key := by
  have present : key ∈ (groupsOf zone none).keys ↔ ((groupsOf zone none).get? key).isSome :=
    AList.mem_keys.trans AList.lookup_isSome.symm
  rw [present, get?_groupsOf]
  split
  · rename_i none
    have missing := List.filter_eq_nil_iff.mp none
    simp only [Option.isSome_none, Bool.false_eq_true, false_iff]
    rintro ⟨record, member, same⟩
    exact missing record member (decide_eq_true same)
  · rename_i some
    obtain ⟨record, member⟩ := List.exists_mem_of_ne_nil _ some
    obtain ⟨inside, same⟩ := List.mem_filter.mp member
    simp only [Option.isSome_some, true_iff]
    exact ⟨record, inside, of_decide_eq_true same⟩

theorem mem_ownersOf (groups : Groups) (name : DnsName) :
    name ∈ ownersOf groups ↔ ∃ rtype, (name, rtype) ∈ groups.keys := by
  rw [ownersOf, mem_dedup, List.mem_insertionSort, List.mem_map]
  constructor
  · rintro ⟨key, member, rfl⟩
    exact ⟨key.2, member⟩
  · rintro ⟨rtype, member⟩
    exact ⟨(name, rtype), member, rfl⟩

theorem canonicalKey_injective : canonicalKey.Injective := by
  intro left right same
  exact DnsName.ext (List.reverse_injective same)

theorem ownersOf_strict (groups : Groups) :
    (ownersOf groups).Pairwise fun left right => canonicalKey left < canonicalKey right := by
  have total : Std.Total fun left right : DnsName => canonicalKey left ≤ canonicalKey right :=
    ⟨fun left right => Std.le_total⟩
  have trans : IsTrans DnsName fun left right => canonicalKey left ≤ canonicalKey right :=
    ⟨fun left middle right => Std.le_trans⟩
  exact dedup_strict canonicalKey_injective (List.pairwise_insertionSort _ _)

end SignedZone

theorem mem_allRecords_iff {zone : Zone} (structured : Structured zone)
    (coherent : SoaCoherent zone) (record : Record) :
    record ∈ zone.allRecords ↔ record ∈ zone.node record.name := by
  have soaOwner : zone.soa ∈ zone.node zone.origin := soa_stored coherent
  have soaName : zone.soa.name = zone.origin := node_owned structured.placed _ _ soaOwner
  unfold Zone.allRecords
  rw [List.mem_cons, List.mem_flatMap]
  constructor
  · intro member
    rcases member with same | ⟨node, listed, member⟩
    · rw [same, soaName]
      exact soaOwner
    · obtain ⟨inside, _⟩ := List.mem_filter.mp member
      obtain ⟨entry, stored, rfl⟩ := List.mem_map.mp listed
      have found := (HashMap.mem_entries_iff zone.records entry.1 entry.2).mp stored
      have owner := (structured.placed _ _ found).1 record inside
      rw [Zone.node, owner, found]
      exact inside
  · intro member
    by_cases soa : record.rtype = typeSoa
    · -- the map holds no other SOA than the field
      have stored := coherent record.name
      have listed : record ∈ soasAt zone.records record.name :=
        List.mem_filter.mpr ⟨member, decide_eq_true soa⟩
      rw [stored] at listed
      split at listed
      · exact Or.inl (List.mem_singleton.mp listed)
      · cases listed
    · cases found : zone.records.get? record.name with
      | none =>
        rw [Zone.node, found] at member
        cases member
      | some node =>
        rw [Zone.node, found] at member
        refine Or.inr ⟨node, ?_, List.mem_filter.mpr ⟨member, by simpa using soa⟩⟩
        exact List.mem_map.mpr
          ⟨⟨record.name, node⟩, (HashMap.mem_entries_iff _ _ _).mpr found, rfl⟩

theorem mem_owners_iff {zone : Zone} (structured : Structured zone) (coherent : SoaCoherent zone)
    (name : DnsName) :
    name ∈ SignedZone.ownersOf (SignedZone.groupsOf zone none) ↔
      ∃ node, zone.records.get? name = some node := by
  rw [SignedZone.mem_ownersOf]
  constructor
  · rintro ⟨rtype, listed⟩
    obtain ⟨record, member, same⟩ := (SignedZone.mem_keys_groupsOf zone _).mp listed
    have inside := (mem_allRecords_iff structured coherent record).mp member
    cases same
    cases found : zone.records.get? record.name with
    | none =>
      rw [Zone.node, found] at inside
      cases inside
    | some node => exact ⟨node, rfl⟩
  · rintro ⟨node, found⟩
    obtain ⟨record, member⟩ := List.exists_mem_of_ne_nil _ (structured.occupied name node found)
    have owner := (structured.placed name node found).1 record member
    refine ⟨record.rtype, (SignedZone.mem_keys_groupsOf zone _).mpr ⟨record, ?_, by rw [owner]⟩⟩
    rw [mem_allRecords_iff structured coherent, Zone.node, owner, found]
    exact member

/-! ## Signing does not fail -/

theorem signWith_some (keys : List DnssecKey) (owner : DnsName) (rtype : UInt16)
    {rrset : List Record} (occupied : rrset ≠ []) (inception expiration : UInt32) :
    ∃ sigs, SignedZone.signWith keys owner rtype rrset inception expiration = some sigs := by
  obtain ⟨first, rest, rfl⟩ := List.exists_cons_of_ne_nil occupied
  obtain ⟨sigs, signed, _⟩ := mapM_some
    (fun key => signRrset key owner rtype (first :: rest) inception expiration)
    (fun _ => ()) (fun _ => ()) keys fun key _ => ⟨_, rfl, rfl⟩
  exact ⟨sigs, signed⟩

theorem signSets_some (zone : Zone) (keys : List DnssecKey) (inception expiration : UInt32) :
    ∃ signed, ((SignedZone.groupsOf zone none).entries.mapM fun entry => do
      let sigs ← SignedZone.signWith keys entry.1.1 entry.1.2 entry.2 inception expiration
      pure (entry.1, sigs)) = some signed := by
  obtain ⟨signed, done, _⟩ := mapM_some
    (fun entry : Σ _ : DnsName × UInt16, List Record => do
      let sigs ← SignedZone.signWith keys entry.1.1 entry.1.2 entry.2 inception expiration
      pure (entry.1, sigs))
    (fun _ => ()) (fun _ => ()) (SignedZone.groupsOf zone none).entries (by
      intro entry member
      have found := (HashMap.mem_entries_iff _ entry.1 entry.2).mp member
      obtain ⟨sigs, signed⟩ := signWith_some keys entry.1.1 entry.1.2
        (SignedZone.groupsOf_occupied found) inception expiration
      exact ⟨(entry.1, sigs), by rw [signed]; rfl, rfl⟩)
  exact ⟨signed, done⟩

def chainView (entry : NsecEntry) : DnsName × Record := (entry.owner, entry.record)

def chainEntry (zone : Zone) (link : DnsName × DnsName) : DnsName × Record :=
  (link.1, SignedZone.nsecRecord zone (SignedZone.groupsOf zone none) link.1 link.2)

theorem nsecChain_some (zone : Zone) (signDenial : SignedZone.SignDenial)
    (signs : ∀ owner rtype record, ∃ sigs, signDenial owner rtype record = some sigs) :
    ∃ chain, SignedZone.nsecChain zone (SignedZone.groupsOf zone none) signDenial = some chain ∧
      chain.map chainView =
        (links (SignedZone.ownersOf (SignedZone.groupsOf zone none))).map (chainEntry zone) := by
  refine mapM_some _ chainView (chainEntry zone) _ fun link _ => ?_
  obtain ⟨sigs, signed⟩ := signs link.1 typeNsec (chainEntry zone link).2
  have round : (do
      let sigs ← signDenial link.1 typeNsec (chainEntry zone link).2
      pure ({ owner := link.1, record := (chainEntry zone link).2, sigs } : NsecEntry)) =
        some ⟨link.1, (chainEntry zone link).2, sigs⟩ := by
    rw [signed]
    rfl
  exact ⟨_, round, rfl⟩

theorem sign_nsec (crypto : Crypto) (zone : Zone) (keys : List DnssecKey)
    (now validitySecs : UInt64) :
    ∃ signed chain, SignedZone.sign crypto zone keys now validitySecs none = some signed ∧
      signed.denial = .nsec chain ∧
      chain.map chainView =
        (links (SignedZone.ownersOf (SignedZone.groupsOf zone none))).map (chainEntry zone) := by
  generalize inceptionEq : UInt32.ofNat (now.toNat - 3600) = inception
  generalize expirationEq : (now + validitySecs).toUInt32 = expiration
  generalize zsksEq : (keys.filter fun key => !key.isKsk || !keys.any fun key => !key.isKsk) = zsks
  generalize ksksEq : (keys.filter fun key => key.isKsk || !keys.any DnssecKey.isKsk) = ksks
  obtain ⟨rrsigs, setsSigned⟩ := signSets_some zone zsks inception expiration
  obtain ⟨chain, chained, view⟩ := nsecChain_some zone
    (fun owner rtype record => SignedZone.signWith zsks owner rtype [record] inception expiration)
    fun owner rtype record => signWith_some zsks owner rtype (List.cons_ne_nil record []) _ _
  have keysSigned : ∃ sigs, SignedZone.signWith ksks zone.origin typeDnskey
      (keys.map fun key => key.dnskeyRecord zone.soa.ttl) inception expiration = some sigs := by
    cases keys with
    | nil =>
      rw [← ksksEq]
      exact ⟨[], rfl⟩
    | cons key rest => exact signWith_some ksks _ _ (List.cons_ne_nil _ _) _ _
  obtain ⟨dnskeyRrsigs, dnskeySigned⟩ := keysSigned
  have done : ∃ signed, SignedZone.sign crypto zone keys now validitySecs none = some signed ∧
      signed.denial = .nsec chain := by
    unfold SignedZone.sign
    dsimp only
    rw [inceptionEq, expirationEq, zsksEq, ksksEq, setsSigned, dnskeySigned, chained]
    exact ⟨_, rfl, rfl⟩
  obtain ⟨signed, done, denial⟩ := done
  exact ⟨signed, chain, done, denial, view⟩

/-! ## The validator is convinced -/

theorem search_chain {owners : List DnsName} {chain : List NsecEntry}
    {expected : DnsName × DnsName → DnsName × Record} (some : owners ≠ [])
    (strict : owners.Pairwise fun left right => canonicalKey left < canonicalKey right)
    (keyed : ∀ link, (expected link).1 = link.1)
    (view : chain.map chainView = (links owners).map expected) (qname : DnsName) :
    ∃ entry link, search (fun entry : NsecEntry =>
        canonicalKey entry.owner ≤ canonicalKey qname) chain = .some entry ∧
      chainView entry = expected link ∧ link ∈ links owners ∧
      Encloses (canonicalKey link.1) (canonicalKey link.2) (canonicalKey qname) := by
  have keys : (owners.map canonicalKey).Pairwise (· < ·) := List.pairwise_map.mpr strict
  obtain ⟨keyLink, mapped, encloses⟩ := search_encloses
    (fun empty => some (List.map_eq_nil_iff.mp empty)) keys (canonicalKey qname)
  rw [links_map, search_map] at mapped
  obtain ⟨link, found, rfl⟩ := Option.map_eq_some_iff.mp mapped
  -- both searches look at the owners only
  have through : search (fun entry : DnsName × Record =>
      canonicalKey entry.1 ≤ canonicalKey qname) (chain.map chainView) =
        .some (expected link) := by
    rw [view, search_map]
    have tests : (fun entry : DnsName × Record =>
          decide (canonicalKey entry.1 ≤ canonicalKey qname)) ∘ expected =
        (fun link : List Label × List Label => decide (link.1 ≤ canonicalKey qname)) ∘
          Prod.map canonicalKey canonicalKey := by
      funext other
      simp only [Function.comp_apply, keyed, Prod.map_fst]
    rw [tests, found]
    rfl
  rw [search_map] at through
  obtain ⟨entry, chosen, same⟩ := Option.map_eq_some_iff.mp through
  exact ⟨entry, link, chosen, same, mem_of_search found, encloses⟩

section Proof

variable {zone : Zone} {qname : DnsName} {qtype : UInt16}

/-- The types a bitmap lists at a stored name: those of its records and those the
signer adds. -/
theorem mem_bitmap_types (structured : Structured zone) (coherent : SoaCoherent zone)
    (owner : DnsName) (ordinary : qtype ≠ typeRrsig ∧ qtype ≠ typeNsec ∧ qtype ≠ typeDnskey)
    (listed : qtype ∈ SignedZone.sortedTypes (SignedZone.typesAt (SignedZone.groupsOf zone none)
      zone.origin owner ++ [typeNsec])) :
    ∃ record ∈ zone.node owner, record.rtype = qtype := by
  rw [SignedZone.sortedTypes, mem_dedup, List.mem_insertionSort] at listed
  unfold SignedZone.typesAt at listed
  have own : qtype ∈ ((SignedZone.groupsOf zone none).keys.filter fun key =>
      key.1 = owner).map Prod.snd := by
    rcases List.mem_append.mp listed with listed | listed
    · rcases List.mem_append.mp listed with listed | listed
      · rcases List.mem_append.mp listed with listed | listed
        · exact listed
        · exact absurd (List.mem_singleton.mp listed) ordinary.1
      · split at listed
        · exact absurd (List.mem_singleton.mp listed) ordinary.2.2
        · cases listed
    · exact absurd (List.mem_singleton.mp listed) ordinary.2.1
  obtain ⟨key, member, rfl⟩ := List.mem_map.mp own
  obtain ⟨inside, same⟩ := List.mem_filter.mp member
  obtain ⟨record, stored, rfl⟩ := (SignedZone.mem_keys_groupsOf zone key).mp inside
  have owned : record.name = owner := of_decide_eq_true same
  rw [mem_allRecords_iff structured coherent, owned] at stored
  exact ⟨record, stored, rfl⟩

theorem bitmap_types_small (structured : Structured zone) (coherent : SoaCoherent zone)
    (small : ∀ name, ∀ record ∈ zone.node name, record.rtype.toNat < 2040) (owner : DnsName) :
    ∀ rtype ∈ SignedZone.sortedTypes (SignedZone.typesAt (SignedZone.groupsOf zone none)
      zone.origin owner ++ [typeNsec]), rtype.toNat < 2040 := by
  intro rtype listed
  by_cases rrsig : rtype = typeRrsig
  · rw [rrsig]
    decide
  by_cases nsec : rtype = typeNsec
  · rw [nsec]
    decide
  by_cases dnskey : rtype = typeDnskey
  · rw [dnskey]
    decide
  obtain ⟨record, stored, rfl⟩ :=
    mem_bitmap_types structured coherent owner ⟨rrsig, nsec, dnskey⟩ listed
  exact small owner record stored

theorem nsecRecord_read (owner next : DnsName) (lowercase : next.Lowercase) :
    (unknownData (SignedZone.nsecRecord zone (SignedZone.groupsOf zone none) owner next)).bind
        parseNsec =
      some (next, parseTypeBitmap (bitmapField (SignedZone.sortedTypes
        (SignedZone.typesAt (SignedZone.groupsOf zone none) zone.origin owner ++
          [typeNsec])))) := by
  have read := parseNsec_nsecRdata next (SignedZone.sortedTypes
    (SignedZone.typesAt (SignedZone.groupsOf zone none) zone.origin owner ++ [typeNsec]))
  rw [DnsName.lower_of_lowercase lowercase] at read
  exact read

theorem nsecProves_of_encloses {link : DnsName × DnsName} {records : List Record}
    (member : SignedZone.nsecRecord zone (SignedZone.groupsOf zone none) link.1 link.2 ∈ records)
    (other : link.1 ≠ qname) (lowercase : link.2.Lowercase)
    (encloses : Encloses (canonicalKey link.1) (canonicalKey link.2) (canonicalKey qname)) :
    nsecProves qname qtype records = true := by
  refine List.any_eq_true.mpr ⟨_, member, ?_⟩
  rw [nsecRecord_read link.1 link.2 lowercase]
  dsimp only
  have owner : ¬ (SignedZone.nsecRecord zone (SignedZone.groupsOf zone none) link.1 link.2).name =
    qname := other
  have apart : canonicalKey link.1 ≠ canonicalKey qname :=
    fun same => other (SignedZone.canonicalKey_injective same)
  rw [if_neg owner]
  change (if canonicalKey link.1 < canonicalKey link.2 then
      decide (canonicalKey link.1 < canonicalKey qname ∧ canonicalKey qname < canonicalKey link.2)
    else decide (canonicalKey link.1 < canonicalKey qname ∨
      canonicalKey qname < canonicalKey link.2)) = true
  split
  · rename_i ordered
    obtain ⟨lower, upper⟩ := encloses.1 ordered
    exact decide_eq_true ⟨Std.lt_of_le_of_ne lower apart, upper⟩
  · rename_i wraps
    refine decide_eq_true ((encloses.2 wraps).imp_left fun lower => ?_)
    exact Std.lt_of_le_of_ne lower apart

/-- A stored name without the type has a record whose bitmap says so. -/
theorem nsecProves_of_bitmap {next : DnsName} {records : List Record}
    (structured : Structured zone) (coherent : SoaCoherent zone)
    (small : ∀ name, ∀ record ∈ zone.node name, record.rtype.toNat < 2040)
    (member : SignedZone.nsecRecord zone (SignedZone.groupsOf zone none) qname next ∈ records)
    (lowercase : next.Lowercase)
    (ordinary : qtype ≠ typeRrsig ∧ qtype ≠ typeNsec ∧ qtype ≠ typeDnskey)
    (missing : ∀ record ∈ zone.node qname, record.rtype ≠ qtype) :
    nsecProves qname qtype records = true := by
  refine List.any_eq_true.mpr ⟨_, member, ?_⟩
  rw [nsecRecord_read qname next lowercase]
  dsimp only
  have owner : (SignedZone.nsecRecord zone (SignedZone.groupsOf zone none) qname next).name =
    qname := rfl
  rw [if_pos owner, Bool.not_eq_true', ← Bool.not_eq_true, List.contains_iff_mem,
    mem_parseTypeBitmap (bitmap_types_small structured coherent small qname)]
  intro listed
  obtain ⟨record, stored, typed⟩ := mem_bitmap_types structured coherent qname ordinary listed
  exact missing record stored typed

end Proof

theorem nsecDenial_cases (chain : List NsecEntry) (qname : DnsName) (nxdomain : Bool) :
    (∃ entry ∈ chain, entry.owner = qname ∧ nsecDenial chain qname nxdomain = entry.pick) ∨
      ((nxdomain = true ∨ ∀ entry ∈ chain, entry.owner ≠ qname) ∧
        nsecDenial chain qname nxdomain = ((search (fun entry : NsecEntry =>
          canonicalKey entry.owner ≤ canonicalKey qname) chain).map NsecEntry.pick).getD []) := by
  unfold nsecDenial
  cases nxdomain with
  | true => exact Or.inr ⟨Or.inl rfl, rfl⟩
  | false =>
    simp only [Bool.false_eq_true, if_false, false_or]
    cases found : chain.find? fun entry => entry.owner = qname with
    | some entry =>
      refine Or.inl ⟨entry, List.mem_of_find?_eq_some found, ?_, rfl⟩
      simpa using List.find?_some found
    | none =>
      refine Or.inr ⟨fun entry member owner => ?_, rfl⟩
      exact List.find?_eq_none.mp found entry member (decide_eq_true owner)

theorem owners_ne_nil (zone : Zone) :
    SignedZone.ownersOf (SignedZone.groupsOf zone none) ≠ [] := by
  have listed : (zone.soa.name, zone.soa.rtype) ∈ (SignedZone.groupsOf zone none).keys :=
    (SignedZone.mem_keys_groupsOf zone _).mpr ⟨zone.soa, List.mem_cons_self, rfl⟩
  exact List.ne_nil_of_mem ((SignedZone.mem_ownersOf _ zone.soa.name).mpr ⟨_, listed⟩)

theorem mem_ofType_pick {zone : Zone} {entry : NsecEntry} {link : DnsName × DnsName}
    (same : chainView entry = chainEntry zone link) :
    SignedZone.nsecRecord zone (SignedZone.groupsOf zone none) link.1 link.2 ∈
      ofType typeNsec entry.pick := by
  have record : entry.record =
      SignedZone.nsecRecord zone (SignedZone.groupsOf zone none) link.1 link.2 :=
    congrArg Prod.snd same
  rw [NsecEntry.pick, record]
  exact List.mem_filter.mpr ⟨List.mem_cons_self, rfl⟩

/-- Whatever a lookup denies, the records offered for it prove. -/
theorem nsecDenial_complete (crypto : Crypto) {zone : Zone} (structured : Structured zone)
    (coherent : SoaCoherent zone) (lowercase : ∀ name ∈ zone.records.keys, name.Lowercase)
    (small : ∀ name, ∀ record ∈ zone.node name, record.rtype.toNat < 2040)
    (keys : List DnssecKey) (now validitySecs : UInt64) (qname : DnsName) (qtype : UInt16)
    (ordinary : qtype ≠ typeRrsig ∧ qtype ≠ typeNsec ∧ qtype ≠ typeDnskey)
    (result : LookupResult) (found : zone.lookup qname qtype = some result)
    (negative : result.negative = true) (empty : result.answers = []) :
    ∃ signed records, SignedZone.sign crypto zone keys now validitySecs none = some signed ∧
      signed.denialRecords crypto qname (result.rcode = rcodeNxdomain) = some records ∧
      nsecProves qname qtype (ofType typeNsec records) = true := by
  obtain ⟨signed, chain, done, denial, view⟩ := sign_nsec crypto zone keys now validitySecs
  refine ⟨signed, nsecDenial chain qname (result.rcode = rcodeNxdomain), done, ?_, ?_⟩
  · rw [SignedZone.denialRecords, denial]
  have owners := mem_owners_iff structured coherent
  have lowerOwners : ∀ name ∈ SignedZone.ownersOf (SignedZone.groupsOf zone none),
      name.Lowercase := by
    intro name member
    obtain ⟨node, stored⟩ := (owners name).mp member
    refine lowercase name (AList.mem_keys.mpr (AList.lookup_isSome.mp ?_))
    rw [show AList.lookup name zone.records = some node from stored]
    rfl
  rcases nsecDenial_cases chain qname (result.rcode = rcodeNxdomain) with
    ⟨entry, located, owner, picked⟩ | ⟨missed, picked⟩
  · -- the bitmap of the queried name
    rw [picked]
    have listed : chainView entry ∈ chain.map chainView := List.mem_map_of_mem located
    rw [view] at listed
    obtain ⟨link, member, same⟩ := List.mem_map.mp listed
    have first : link.1 = qname := (congrArg Prod.fst same).trans owner
    obtain ⟨source, target⟩ := List.of_mem_zip member
    have record := mem_ofType_pick same.symm
    rw [first] at record source
    obtain ⟨node, stored⟩ := (owners qname).mp source
    have missing := (Zone.lookup_negative_stored stored found negative empty).2
    refine nsecProves_of_bitmap structured coherent small record
      (lowerOwners _ (List.mem_rotate.mp target)) ordinary fun other held => ?_
    rw [Zone.node, stored] at held
    exact missing other held
  · -- the range around it
    obtain ⟨entry, link, chosen, same, member, encloses⟩ := search_chain
      (owners_ne_nil zone) (SignedZone.ownersOf_strict _) (fun _ => rfl) view qname
    obtain ⟨source, target⟩ := List.of_mem_zip member
    rw [picked, chosen]
    refine nsecProves_of_encloses (mem_ofType_pick same) (fun owner => ?_)
      (lowerOwners _ (List.mem_rotate.mp target)) encloses
    -- a stored name is not denied as a whole, so its own entry would have been picked
    rw [owner] at source
    obtain ⟨node, stored⟩ := (owners qname).mp source
    have rcode := (Zone.lookup_negative_stored stored found negative empty).1
    rcases missed with whole | others
    · rw [rcode] at whole
      exact absurd whole (by decide)
    · have listed : chainEntry zone link ∈ chain.map chainView := by
        rw [view]
        exact List.mem_map_of_mem member
      obtain ⟨other, held, equal⟩ := List.mem_map.mp listed
      exact others other held ((congrArg Prod.fst equal).trans owner)

theorem shell_stored {name : DnsName} {node : List Record}
    (found : shell.records.get? name = some node) : name = apexName ∧ node = [apexSoa] := by
  change (HashMap.empty.insert apexName [apexSoa]).get? name = some node at found
  rw [HashMap.get?_insert] at found
  split at found
  · cases found
    exact ⟨‹_›, rfl⟩
  · cases found

theorem nsecDenial_complete_shell :
    ∃ signed records,
      SignedZone.sign sampleCrypto shell [sampleKey apexName] 1700000000 1209600 none =
        some signed ∧
      signed.denialRecords sampleCrypto ⟨[119] :: apexName.labels, by decide⟩ true = some records ∧
      nsecProves ⟨[119] :: apexName.labels, by decide⟩ typeA (ofType typeNsec records) = true := by
  refine nsecDenial_complete sampleCrypto shell_structured
    (fromRecords_coherent shell_built) (fun name member => ?_)
    (fun name record member => ?_) _ _ _ _ typeA
    ⟨by decide, by decide, by decide⟩ ⟨rcodeNxdomain, [], true, none⟩ ?_ rfl rfl
  · have only : name = apexName := List.mem_singleton.mp member
    rw [only]
    decide
  · cases found : shell.records.get? name with
    | none =>
      rw [Zone.node, found] at member
      cases member
    | some node =>
      rw [Zone.node, found, (shell_stored found).2] at member
      rw [List.mem_singleton.mp member]
      decide
  · rfl

end Rdns.Dnssec
