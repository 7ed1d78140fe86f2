import Rdns.Dnssec.NsecReplay
import Rdns.Dnssec.Nsec3Chain

/-!
# Denial with NSEC3

What the NSEC3 records of a zone prove about its names.  A record whose hash is
that of the queried name is taken as proof whatever its bitmap says; a name that is
no owner is proven absent by its closest encloser and the range around the next
closer name, and a signer that sees no owner for a name that is there (an empty
non-terminal, a name drawn from a wildcard) has nothing to offer.
-/

set_option autoImplicit false

namespace Rdns.Dnssec

open Rdns.Lib Rdns.Proto Rdns.Zones Rdns.Resolver

/-! ## The nodes of a chain -/

section Chain

variable {crypto : Crypto} {apex : DnsName} {ownerTypes : List (DnsName × List UInt16)}
  {params : Nsec3Params} {ttl : UInt32} {nodes : List Nsec3Node}

variable (built : buildChain crypto apex ownerTypes params ttl = some nodes)
  (short : params.salt.length ≤ 255) (digest : ∀ data, (crypto.sha1 data).length ≤ 255)

include built

theorem buildChain_owner {owner : DnsName × List UInt16} (member : owner ∈ ownerTypes) :
    ∃ node ∈ nodes, node.hash = hashName crypto owner.1 params := by
  have kept : ∃ entry ∈ hashedOwners crypto ownerTypes params,
      entry.1 = hashName crypto owner.1 params :=
    exists_mem_dedupByKey Prod.fst ((List.mem_insertionSort _).mpr (List.mem_map_of_mem member))
  obtain ⟨entry, listed, value⟩ := kept
  have firsts : (links (hashedOwners crypto ownerTypes params)).map Prod.fst =
      hashedOwners crypto ownerTypes params :=
    List.map_fst_zip (by rw [List.length_rotate])
  rw [← firsts] at listed
  obtain ⟨link, linked, rfl⟩ := List.mem_map.mp listed
  have views := mapM_view _ Nsec3Node.hash
    (fun link : (Bytes × List UInt16) × Bytes × List UInt16 =>
    link.1.1) (links (hashedOwners crypto ownerTypes params))
    (fun link _ node made => (nsec3Node_owner made).1) built
  have hashed : link.1.1 ∈ nodes.map Nsec3Node.hash := by
    rw [views]
    exact List.mem_map_of_mem linked
  obtain ⟨node, held, same⟩ := List.mem_map.mp hashed
  exact ⟨node, held, same.trans value⟩

include short digest

/-- What the record of a node says, as a validator reads it: its own hash, the next
one, and the types of an owner with that hash. -/
theorem buildChain_read {node : Nsec3Node} (member : node ∈ nodes) :
    node.record.rtype = typeNsec3 ∧ nsec3OwnerHash node.record.name = some node.hash ∧
      ∃ owner ∈ ownerTypes, ∃ next, node.hash = hashName crypto owner.1 params ∧
        (unknownData node.record).bind parseNsec3 =
          some (params, next, parseTypeBitmap (bitmapField owner.2)) ∧
        ∀ sigs, Nsec3Entry.link ⟨node.hash, node.record, sigs⟩ = some (node.hash, next) := by
  obtain ⟨link, linked, made⟩ := (mem_mapM built).mp member
  obtain ⟨hash, named, rdata⟩ := nsec3Node_owner made
  have source := (dedupByKey_sublist Prod.fst _).subset (List.of_mem_zip linked).1
  obtain ⟨owner, listed, same⟩ := List.mem_map.mp ((List.mem_insertionSort _).mp source)
  have fits : link.2.1.length ≤ 255 := by
    obtain ⟨name, value⟩ := mem_hashedOwners (List.mem_rotate.mp (List.of_mem_zip linked).2)
    rw [value]
    exact hashName_digest (·.length ≤ 255) digest name params
  refine ⟨?_, by rw [named, hash], owner, listed, link.2.1, ?_, ?_, fun sigs => ?_⟩
  · rw [Record.rtype, rdata]
    rfl
  · rw [hash, ← same]
  · have types : link.1.2 = owner.2 := by rw [← same]
    rw [unknownData, rdata, Option.bind_some, types]
    exact parseNsec3_nsec3Rdata params link.2.1 owner.2 short fits
  · rw [Nsec3Entry.link, rdata]
    dsimp only
    rw [nextHashOf_nsec3Rdata params link.2.1 link.1.2 short fits]
    rfl

section Replayed

variable {records : List Record}
  (replayed : ∀ record ∈ records, record ∈ nodes.map Nsec3Node.record)

variable {node : Nsec3Node}

include replayed in
theorem nsec3ParamsOf_replayed {record : Record} (member : record ∈ records) :
    nsec3ParamsOf records = some params := by
  refine nsec3ParamsOf_eq (List.ne_nil_of_mem member) fun other inside => ?_
  obtain ⟨node, held, rfl⟩ := List.mem_map.mp (replayed other inside)
  obtain ⟨_, _, _, _, _, _, parsed, _⟩ := buildChain_read built short digest held
  rw [parsed]
  rfl

theorem mem_nsec3Entries (held : node ∈ nodes) (member : node.record ∈ records) :
    ∃ next, (node.hash, next) ∈ nsec3Entries records ∧
      ∀ sigs, Nsec3Entry.link ⟨node.hash, node.record, sigs⟩ = some (node.hash, next) := by
  obtain ⟨_, label, _, _, next, _, parsed, linked⟩ := buildChain_read built short digest held
  refine ⟨next, List.mem_filterMap.mpr ⟨node.record, member, ?_⟩, linked⟩
  rw [label, parsed]
  rfl

include replayed

theorem nsec3Proves_of_matching {qname : DnsName} (held : node ∈ nodes)
    (member : node.record ∈ records) (matched : node.hash = hashName crypto qname params) :
    nsec3Proves crypto qname records = true := by
  obtain ⟨next, entry, _⟩ := mem_nsec3Entries built short digest held member
  rw [nsec3Proves, nsec3ParamsOf_replayed built short digest replayed member]
  refine Bool.or_eq_true_iff.mpr (Or.inl ?_)
  exact List.any_eq_true.mpr ⟨_, entry, decide_eq_true matched⟩

theorem nsec3Proves_of_enclosed {qname encloser closer : DnsName} {skip : Nat} (positive : 0 < skip)
    (inside : skip < qname.labels.length) (above : encloser.labels = qname.labels.drop skip)
    (below : closer.labels = qname.labels.drop (skip - 1)) {other : Nsec3Node} (held : node ∈ nodes)
    (member : node.record ∈ records) (matched : node.hash = hashName crypto encloser params)
    (held' : other ∈ nodes) (member' : other.record ∈ records)
    (covers : ∀ next, Nsec3Entry.link ⟨other.hash, other.record, []⟩ = some (other.hash, next) →
      hashCovers other.hash next (hashName crypto closer params) = true) :
    nsec3Proves crypto qname records = true := by
  obtain ⟨_, first, _⟩ := mem_nsec3Entries built short digest held member
  obtain ⟨next, second, linked⟩ := mem_nsec3Entries built short digest held' member'
  rw [nsec3Proves, nsec3ParamsOf_replayed built short digest replayed member]
  refine Bool.or_eq_true_iff.mpr (Or.inr (List.any_eq_true.mpr ⟨skip, ?_, ?_⟩))
  · exact List.mem_range'_1.mpr ⟨positive, by omega⟩
  · rw [(DnsName.fromLabels_eq_ok_iff _ encloser).mpr above,
      (DnsName.fromLabels_eq_ok_iff _ closer).mpr below]
    refine Bool.and_eq_true_iff.mpr ⟨?_, ?_⟩
    · exact List.any_eq_true.mpr ⟨_, first, decide_eq_true matched⟩
    · exact List.any_eq_true.mpr ⟨_, second, covers next (linked [])⟩

end Replayed

end Chain

/-! ## Absent types -/

/-- Of the records of a chain, any that are accepted along with the record of the
name's own hash have the type missing from its bitmap. -/
def NodataSound (crypto : Crypto) (params : Nsec3Params) (nodes : List Nsec3Node)
    (qname : DnsName) (qtype : UInt16) : Prop :=
  ∀ msg : Message, msg.questions.head?.map (fun asked => (asked.qname, asked.qtype)) =
      some (qname, qtype) →
    (ofType typeNsec3 msg.authorities).Sublist (nodes.map Nsec3Node.record) →
    ∀ record ∈ ofType typeNsec3 msg.authorities,
      nsec3OwnerHash record.name = some (hashName crypto qname params) →
      denialProven crypto msg = true →
      ∀ fields, (unknownData record).bind parseNsec3 = some fields → qtype ∉ fields.2.2

section Nodata

variable {crypto : Crypto} {apex : DnsName} {ownerTypes : List (DnsName × List UInt16)}
  {params : Nsec3Params} {ttl : UInt32} {nodes : List Nsec3Node}
  (built : buildChain crypto apex ownerTypes params ttl = some nodes)
  (short : params.salt.length ≤ 255) (digest : ∀ data, (crypto.sha1 data).length ≤ 255)

include built short digest

theorem denialProven_of_matching {qname : DnsName} (qtype : UInt16)
    {owner : DnsName × List UInt16} (owned : owner ∈ ownerTypes) (named : owner.1 = qname) :
    ∃ msg : Message, ∃ node ∈ nodes, msg.questions = [⟨qname, qtype, classIn⟩] ∧
      ofType typeNsec3 msg.authorities = [node.record] ∧
      nsec3OwnerHash node.record.name = some (hashName crypto qname params) ∧
      denialProven crypto msg = true := by
  obtain ⟨node, held, hash⟩ := buildChain_owner built owned
  obtain ⟨typed, label, _⟩ := buildChain_read built short digest held
  rw [named] at hash
  rw [hash] at label
  have chosen : ofType typeNsec3 [node.record] = [node.record] := by
    simp [ofType, typed]
  have proven : nsec3Proves crypto qname [node.record] = true := by
    refine nsec3Proves_of_matching built short digest (fun record member => ?_) held
      List.mem_cons_self hash
    rw [List.mem_singleton.mp member]
    exact List.mem_map_of_mem held
  refine ⟨{ Message.new 0 Flags.default with
      questions := [⟨qname, qtype, classIn⟩], authorities := [node.record] },
    node, held, rfl, chosen, label, ?_⟩
  simp [denialProven, chosen, proven]

section Bitmaps

variable (correct : ∀ owner ∈ ownerTypes, ∀ rtype,
    rtype ∈ parseTypeBitmap (bitmapField owner.2) ↔ rtype ∈ owner.2)
  (distinct : ∀ first ∈ ownerTypes, ∀ second ∈ ownerTypes,
    hashName crypto first.1 params = hashName crypto second.1 params → first = second)
  {qname : DnsName} {types : List UInt16} (owned : (qname, types) ∈ ownerTypes)

include distinct owned in
theorem buildChain_bitmap {node : Nsec3Node} (held : node ∈ nodes)
    (matched : nsec3OwnerHash node.record.name = some (hashName crypto qname params)) :
    ∃ next, (unknownData node.record).bind parseNsec3 =
      some (params, next, parseTypeBitmap (bitmapField types)) := by
  obtain ⟨_, label, owner, listed, next, hash, parsed, _⟩ := buildChain_read built short digest held
  have same : hashName crypto owner.1 params = hashName crypto qname params := by
    rw [← hash]
    exact Option.some.inj (label.symm.trans matched)
  rw [distinct owner listed _ owned same] at parsed
  exact ⟨next, parsed⟩

include correct distinct owned

theorem not_nodataSound_of_mem {qtype : UInt16} (present : qtype ∈ types) :
    ¬ NodataSound crypto params nodes qname qtype := by
  intro sound
  obtain ⟨msg, node, held, asked, chosen, matched, proven⟩ :=
    denialProven_of_matching built short digest qtype owned rfl
  obtain ⟨next, parsed⟩ := buildChain_bitmap built short digest distinct owned held matched
  refine sound msg (by rw [asked]; rfl) ?_ node.record ?_ matched proven _ parsed
    ((correct _ owned qtype).mpr present)
  · rw [chosen]
    exact List.singleton_sublist.mpr (List.mem_map_of_mem held)
  · rw [chosen]
    exact List.mem_cons_self

/-- A type is safe from being denied where it is not there: the bitmap is never
asked. -/
theorem nodataSound_iff (qtype : UInt16) :
    NodataSound crypto params nodes qname qtype ↔ qtype ∉ types := by
  constructor
  · exact fun sound present =>
      not_nodataSound_of_mem built short digest correct distinct owned present sound
  · intro missing msg _ replayed record member matched _ fields read
    obtain ⟨node, held, rfl⟩ := List.mem_map.mp (replayed.subset member)
    obtain ⟨next, parsed⟩ := buildChain_bitmap built short digest distinct owned held matched
    obtain rfl := Option.some.inj (parsed.symm.trans read)
    exact fun listed => missing ((correct _ owned qtype).mp listed)

end Bitmaps

end Nodata

/-! Two owners, none with the hash of the other. -/

def sampleOwners : List (DnsName × List UInt16) :=
  [(sampleApex, [typeSoa]), (sampleHost, [typeA])]

theorem sampleChain_built : ∃ nodes, sampleChain = some nodes := by
  have checked : sampleChain.isSome = true := by decide +kernel
  exact Option.isSome_iff_exists.mp checked

theorem sampleOwners_correct : ∀ owner ∈ sampleOwners, ∀ rtype,
    rtype ∈ parseTypeBitmap (bitmapField owner.2) ↔ rtype ∈ owner.2 := by
  have small : ∀ owner ∈ sampleOwners, ∀ rtype ∈ owner.2, rtype.toNat < 2040 := by
    simp [sampleOwners, typeSoa, typeA]
  exact fun owner listed => mem_parseTypeBitmap (small owner listed)

theorem sampleOwners_distinct : ∀ first ∈ sampleOwners, ∀ second ∈ sampleOwners,
    hashName sampleCrypto first.1 ⟨0, []⟩ = hashName sampleCrypto second.1 ⟨0, []⟩ →
      first = second := by decide

theorem nodataSound_sample :
    ∃ nodes, sampleChain = some nodes ∧
      NodataSound sampleCrypto ⟨0, []⟩ nodes sampleApex typeA := by
  obtain ⟨nodes, built⟩ := sampleChain_built
  refine ⟨nodes, built, ?_⟩
  exact (nodataSound_iff built (by decide) sampleDigest sampleOwners_correct sampleOwners_distinct
    (List.mem_cons_self (a := (sampleApex, [typeSoa]))) typeA).mpr (by decide)

/-- The record of the apex is taken as proof that there is no SOA. -/
theorem sampleSoa_denied :
    ∃ nodes, sampleChain = some nodes ∧
      ¬ NodataSound sampleCrypto ⟨0, []⟩ nodes sampleApex typeSoa := by
  obtain ⟨nodes, built⟩ := sampleChain_built
  refine ⟨nodes, built, ?_⟩
  exact not_nodataSound_of_mem built (by decide) sampleDigest sampleOwners_correct
    sampleOwners_distinct (List.mem_cons_self (a := (sampleApex, [typeSoa]))) List.mem_cons_self

/-! ## Signed zones -/

section Signed

variable {crypto : Crypto} {zone : Zone} {params : Nsec3Params}

variable {keys : List DnssecKey}

def hashedNames (zone : Zone) (params : Nsec3Params) : List DnsName :=
  SignedZone.ownersOf (SignedZone.groupsOf zone (some params))

def hashedTypes (zone : Zone) (params : Nsec3Params) : List (DnsName × List UInt16) :=
  (hashedNames zone params).map fun owner => (owner, SignedZone.sortedTypes
    (SignedZone.typesAt (SignedZone.groupsOf zone (some params)) zone.origin owner))

theorem signWith_rtype {owner : DnsName} {rtype : UInt16} {rrset sigs : List Record}
    {inception expiration : UInt32}
    (signed : SignedZone.signWith keys owner rtype rrset inception expiration = some sigs) :
    ∀ sig ∈ sigs, sig.rtype = typeRrsig := by
  intro sig member
  obtain ⟨key, _, made⟩ := (mem_mapM signed).mp member
  obtain ⟨first, _, rfl⟩ := Option.map_eq_some_iff.mp made
  rfl

theorem sign_nsec3 {now validitySecs : UInt64} {signed : SignedZone}
    (done : SignedZone.sign crypto zone keys now validitySecs (some params) = some signed) :
    ∃ chain entries,
      buildChain crypto zone.origin (hashedTypes zone params) params zone.soa.ttl = some chain ∧
      signed.origin = zone.origin ∧
      signed.denial = .nsec3 params entries (hashedNames zone params) ∧
      entries.map (fun entry => (entry.hash, entry.record)) =
        chain.map (fun node => (node.hash, node.record)) ∧
      ∀ entry ∈ entries, ∀ sig ∈ entry.sigs, sig.rtype = typeRrsig := by
  unfold SignedZone.sign at done
  obtain ⟨_, _, done⟩ := Option.bind_eq_some_iff.mp done
  obtain ⟨denial, denied, done⟩ := Option.bind_eq_some_iff.mp done
  obtain ⟨_, _, done⟩ := Option.bind_eq_some_iff.mp done
  cases done
  obtain ⟨entries, chained, rfl⟩ := Option.map_eq_some_iff.mp denied
  unfold SignedZone.nsec3Chain at chained
  obtain ⟨chain, built, collected⟩ := Option.bind_eq_some_iff.mp chained
  refine ⟨chain, entries, built, rfl, rfl, ?_, fun entry member => ?_⟩
  · refine mapM_view _ _ _ chain (fun node _ entry made => ?_) collected
    obtain ⟨sigs, _, made⟩ := Option.bind_eq_some_iff.mp made
    cases made
    rfl
  · obtain ⟨node, _, made⟩ := (mem_mapM collected).mp member
    obtain ⟨sigs, signed, made⟩ := Option.bind_eq_some_iff.mp made
    cases made
    exact signWith_rtype signed

/-- The root cannot be signed this way: its text leaves an empty label behind the hash. -/
theorem sign_nsec3_origin {now validitySecs : UInt64} {signed : SignedZone}
    (done : SignedZone.sign crypto zone keys now validitySecs (some params) = some signed) :
    zone.origin.labels ≠ [] := by
  intro root
  obtain ⟨chain, _, built, _⟩ := sign_nsec3 done
  have owned : ∃ owner, owner ∈ hashedTypes zone params := by
    have keyed : (zone.origin, typeNsec3param) ∈ (SignedZone.groupsOf zone (some params)).keys := by
      refine AList.mem_keys.mpr (AList.lookup_isSome.mp ?_)
      change ((SignedZone.groupsOf zone (some params)).get? _).isSome = true
      rw [SignedZone.groupsOf, HashMap.get?_upsert, if_pos rfl]
      rfl
    exact ⟨_, List.mem_map_of_mem ((SignedZone.mem_ownersOf _ _).mpr ⟨_, keyed⟩)⟩
  obtain ⟨owner, member⟩ := owned
  obtain ⟨node, held, _⟩ := buildChain_owner built member
  obtain ⟨link, _, made⟩ := (mem_mapM built).mp held
  unfold nsec3Node at made
  split at made
  · cases made
  rename_i name parsed
  have text : (base32hex link.1.1 ++ "." ++ zone.origin.display).toList =
      (base32hex link.1.1).toList ++ ['.', '.'] := by
    simp [DnsName.display, DnsName.displayChars, root]
  have stripped : (if ((base32hex link.1.1).toList ++ ['.', '.']).getLast? = some '.' then
      ((base32hex link.1.1).toList ++ ['.', '.']).dropLast
      else (base32hex link.1.1).toList ++ ['.', '.']) =
        (base32hex link.1.1).toList ++ '.' :: [] := by
    rw [if_pos (by simp), List.dropLast_append_of_ne_nil (List.cons_ne_nil _ _)]
    rfl
  have filled : ((base32hex link.1.1).toList ++ ['.']).isEmpty = false := by simp
  unfold DnsName.parseStr at parsed
  rw [text] at parsed
  dsimp only at parsed
  rw [stripped, filled, splitOn_label (digit_not_dot link.1.1)] at parsed
  have labels := (DnsName.fromLabels_eq_ok_iff _ _).mp parsed
  have empty : ([] : Label) ∈ name.labels := by
    rw [labels]
    simp [utf8, lowerLabel]
  have short := (name.valid.1 [] empty).1
  simp at short

theorem mem_hashedNames_iff (structured : Structured zone) (coherent : SoaCoherent zone)
    (name : DnsName) :
    name ∈ hashedNames zone params ↔ ∃ node, zone.records.get? name = some node := by
  have keyed : ∀ key, key ∈ (SignedZone.groupsOf zone (some params)).keys ↔
      key = (zone.origin, typeNsec3param) ∨ key ∈ (SignedZone.groupsOf zone none).keys := by
    intro key
    have present : ∀ groups : Groups, key ∈ groups.keys ↔ (groups.get? key).isSome :=
      fun groups => AList.mem_keys.trans AList.lookup_isSome.symm
    rw [present, present]
    change ((HashMap.upsert (SignedZone.groupsOf zone none) _ _).get? key).isSome ↔ _
    rw [HashMap.get?_upsert]
    split
    · rename_i here
      simp [here]
    · rename_i other
      simp [other]
  have apex : zone.origin ∈ SignedZone.ownersOf (SignedZone.groupsOf zone none) :=
    (mem_owners_iff structured coherent zone.origin).mpr coherent.apex_stored
  rw [← mem_owners_iff structured coherent name, hashedNames, SignedZone.mem_ownersOf,
    SignedZone.mem_ownersOf]
  constructor
  · rintro ⟨rtype, listed⟩
    rcases (keyed _).mp listed with same | listed
    · cases same
      exact (SignedZone.mem_ownersOf _ _).mp apex
    · exact ⟨rtype, listed⟩
  · rintro ⟨rtype, listed⟩
    exact ⟨rtype, (keyed _).mpr (Or.inr listed)⟩

end Signed

/-! ## What the signer offers -/

theorem mem_dedupRecords (record : Record) (records : List Record) :
    record ∈ dedupRecords records ↔ record ∈ records :=
  mem_firstOccurrences record records

theorem covering_found {hash : Bytes} {node : Nsec3Entry} :
    ∀ {nodes : List Nsec3Entry}, covering hash nodes = some (some node) →
      node ∈ nodes ∧ ∃ next, node.link = some (node.hash, next) ∧
        hashCovers node.hash next hash = true := by
  intro nodes
  induction nodes with
  | nil =>
    intro found
    cases found
  | cons first rest ih =>
    intro found
    unfold covering at found
    split at found
    · rename_i code data shape
      obtain ⟨next, read, found⟩ := Option.bind_eq_some_iff.mp found
      split at found
      · rename_i covers
        cases found
        refine ⟨List.mem_cons_self, next, ?_, covers⟩
        rw [Nsec3Entry.link, shape]
        simp [read]
      · obtain ⟨member, rest⟩ := ih found
        exact ⟨List.mem_cons_of_mem _ member, rest⟩
    · obtain ⟨member, rest⟩ := ih found
      exact ⟨List.mem_cons_of_mem _ member, rest⟩

section Enclosers

variable {qname apex : DnsName} {names : List DnsName}

theorem closestEncloser_spec (below : qname.endsWith apex = true) (apexed : apex ∈ names) :
    qname.endsWith (closestEncloser qname names apex) = true ∧
      closestEncloser qname names apex ∈ names ∧
      apex.labels.length ≤ (closestEncloser qname names apex).labels.length := by
  unfold closestEncloser
  generalize found : List.findSome? _ (List.range (qname.labels.length - apex.labelCount)) = first
  cases first with
  | none => exact ⟨below, apexed, Nat.le_refl _⟩
  | some encloser =>
    obtain ⟨skip, range, chosen⟩ := List.exists_of_findSome?_eq_some found
    split at chosen
    · rename_i candidate made
      split at chosen
      · rename_i listed
        cases chosen
        have labels := (DnsName.fromLabels_eq_ok_iff _ _).mp made
        refine ⟨(DnsName.endsWith_iff _ _).mpr ?_, List.contains_iff_mem.mp listed, ?_⟩
        · rw [Option.getD_some, labels]
          exact List.drop_suffix _ _
        · have bound : skip < qname.labels.length - apex.labels.length := List.mem_range.mp range
          rw [Option.getD_some, labels, List.length_drop]
          omega
      · cases chosen
    · cases chosen

theorem nextCloser_labels {encloser : DnsName} (below : qname.endsWith encloser = true)
    (apart : encloser ≠ qname) :
    encloser.labels.length < qname.labels.length ∧
      (nextCloser qname encloser).labels =
        qname.labels.drop (qname.labels.length - encloser.labels.length - 1) := by
  have suffix := (DnsName.endsWith_iff _ _).mp below
  have shorter : encloser.labels.length < qname.labels.length := by
    refine Nat.lt_of_le_of_ne suffix.length_le fun same => apart ?_
    exact DnsName.ext (suffix.eq_of_length same)
  refine ⟨shorter, ?_⟩
  unfold nextCloser DnsName.labelCount
  dsimp only
  split
  · rename_i whole
    have start : qname.labels.length - encloser.labels.length - 1 = 0 := by omega
    rw [start]
    rfl
  · have start : qname.labels.length - (encloser.labels.length + 1) =
        qname.labels.length - encloser.labels.length - 1 := by omega
    rw [start]
    split
    · rename_i name made
      exact (DnsName.fromLabels_eq_ok_iff _ _).mp made
    rename_i error made
    have valid := (DnsName.fromLabels_eq_ok_iff
      (qname.labels.drop (qname.labels.length - encloser.labels.length - 1))
      ⟨_, qname.valid.drop _⟩).mpr rfl
    rw [valid] at made
    cases made

end Enclosers

section Offered

variable {crypto : Crypto} {apex : DnsName} {ownerTypes : List (DnsName × List UInt16)}
  {params : Nsec3Params} {ttl : UInt32} {chain : List Nsec3Node} {entries : List Nsec3Entry}
  (built : buildChain crypto apex ownerTypes params ttl = some chain)
  (short : params.salt.length ≤ 255) (digest : ∀ data, (crypto.sha1 data).length ≤ 255)
  (views : entries.map (fun entry => (entry.hash, entry.record)) =
    chain.map (fun node => (node.hash, node.record)))
  (signatures : ∀ entry ∈ entries, ∀ sig ∈ entry.sigs, sig.rtype = typeRrsig)

include views in
theorem entry_node {entry : Nsec3Entry} (member : entry ∈ entries) :
    ∃ node ∈ chain, node.hash = entry.hash ∧ node.record = entry.record := by
  have viewed : (entry.hash, entry.record) ∈ chain.map fun node => (node.hash, node.record) := by
    rw [← views]
    exact List.mem_map_of_mem member
  obtain ⟨node, held, same⟩ := List.mem_map.mp viewed
  exact ⟨node, held, congrArg Prod.fst same, congrArg Prod.snd same⟩

include views signatures in
theorem mem_ofType_emit {found : Option Nsec3Entry} (kept : ∀ entry ∈ found, entry ∈ entries)
    {record : Record} (member : record ∈ ofType typeNsec3 (Nsec3Entry.emit found)) :
    record ∈ chain.map Nsec3Node.record := by
  obtain ⟨emitted, typed⟩ := List.mem_filter.mp member
  cases found with
  | none => cases emitted
  | some entry =>
    have listed := kept entry rfl
    rcases List.mem_cons.mp emitted with rfl | sig
    · obtain ⟨node, held, _, same⟩ := entry_node views listed
      rw [← same]
      exact List.mem_map_of_mem held
    · rw [signatures entry listed record sig] at typed
      cases typed

omit built short digest views signatures in
theorem matching_found {hash : Bytes} {entry : Nsec3Entry}
    (found : matching entries hash = some entry) : entry ∈ entries ∧ entry.hash = hash := by
  unfold matching at found
  exact ⟨List.mem_of_find?_eq_some found, by simpa using List.find?_some found⟩

include built views in
theorem matching_owner {owner : DnsName × List UInt16} (owned : owner ∈ ownerTypes) :
    ∃ entry ∈ entries, matching entries (hashName crypto owner.1 params) = some entry ∧
      entry.hash = hashName crypto owner.1 params := by
  obtain ⟨node, held, hash⟩ := buildChain_owner built owned
  have viewed : (node.hash, node.record) ∈ entries.map fun entry => (entry.hash, entry.record) := by
    rw [views]
    exact List.mem_map_of_mem held
  obtain ⟨entry, member, same⟩ := List.mem_map.mp viewed
  have some : (matching entries (hashName crypto owner.1 params)).isSome = true :=
    List.find?_isSome.mpr ⟨entry, member, decide_eq_true ((congrArg Prod.fst same).trans hash)⟩
  obtain ⟨found, search⟩ := Option.isSome_iff_exists.mp some
  obtain ⟨listed, matched⟩ := matching_found search
  exact ⟨found, listed, search, matched⟩

include built short digest views in
theorem covering_entry {owner : DnsName × List UInt16} (owned : owner ∈ ownerTypes)
    (hash : Bytes) :
    ∃ entry ∈ entries, covering hash entries = some (some entry) ∧
      ∃ next, entry.link = some (entry.hash, next) ∧ hashCovers entry.hash next hash = true := by
  obtain ⟨sorted, chained, _⟩ := buildChain_chained built short digest fun _ => []
  have linked : Chained (chain.map Nsec3Node.hash) entries := by
    have through := congrArg (List.map fun view : Bytes × Record =>
      Nsec3Entry.link ⟨view.1, view.2, []⟩) views
    rw [List.map_map, List.map_map] at through
    rw [Chained, List.map_map] at chained
    exact through.trans chained
  obtain ⟨node, held, _⟩ := buildChain_owner built owned
  have filled : chain.map Nsec3Node.hash ≠ [] := List.ne_nil_of_mem (List.mem_map_of_mem held)
  obtain ⟨link, known, _⟩ := covered_unique filled sorted hash
  obtain ⟨entry, found⟩ := (covering_spec hash entries _ linked).mpr ⟨link, known⟩
  obtain ⟨member, covers⟩ := covering_found found
  exact ⟨entry, member, found, covers⟩

include built short digest views signatures

/-- An absent type is proven exactly at the owners, as far as the hashes tell. -/
theorem nsec3Denial_nodata (origin qname : DnsName) (names : List DnsName) :
    (∃ records, nsec3Denial crypto origin params entries names qname false = some records ∧
      nsec3Proves crypto qname (ofType typeNsec3 records) = true) ↔
        ∃ owner ∈ ownerTypes, hashName crypto owner.1 params = hashName crypto qname params := by
  have offered : nsec3Denial crypto origin params entries names qname false =
      some (Nsec3Entry.emit (matching entries (hashName crypto qname params))) := rfl
  constructor
  · rintro ⟨records, made, proven⟩
    rw [offered] at made
    cases made
    cases search : matching entries (hashName crypto qname params) with
    | none =>
      rw [search] at proven
      cases proven
    | some entry =>
      obtain ⟨member, matched⟩ := matching_found search
      obtain ⟨node, held, same, _⟩ := entry_node views member
      obtain ⟨_, _, owner, listed, _, hash, _⟩ := buildChain_read built short digest held
      exact ⟨owner, listed, by rw [← hash, same, matched]⟩
  · rintro ⟨owner, owned, same⟩
    obtain ⟨entry, member, search, hash⟩ := matching_owner built views owned
    rw [same] at search hash
    obtain ⟨node, held, hashed, record⟩ := entry_node views member
    refine ⟨_, offered, ?_⟩
    rw [search]
    refine nsec3Proves_of_matching built short digest
      (fun record listed => mem_ofType_emit views signatures (by
        rintro _ ⟨⟩
        exact member) listed) held ?_ (hashed.trans hash)
    rw [record]
    have typed := (buildChain_read built short digest held).1
    rw [record] at typed
    exact List.mem_filter.mpr ⟨List.mem_cons_self, decide_eq_true typed⟩

/-- An absent name below an apex other than the root is proven. -/
theorem nsec3Denial_nxdomain {origin qname : DnsName} {names : List DnsName}
    (listed : ∀ name ∈ names, ∃ owner ∈ ownerTypes, owner.1 = name) (apexed : origin ∈ names)
    (absent : qname ∉ names) (below : qname.endsWith origin = true)
    (labelled : origin.labels ≠ []) :
    ∃ records, nsec3Denial crypto origin params entries names qname true = some records ∧
      nsec3Proves crypto qname (ofType typeNsec3 records) = true := by
  obtain ⟨suffix, source, reaches⟩ := closestEncloser_spec below apexed
  have apart : closestEncloser qname names origin ≠ qname := fun same => absent (same ▸ source)
  obtain ⟨shorter, closer⟩ := nextCloser_labels suffix apart
  have above := (List.suffix_iff_eq_drop.mp ((DnsName.endsWith_iff _ _).mp suffix))
  have positive := List.length_pos_iff.mpr labelled
  obtain ⟨owner, owned, named⟩ := listed _ source
  obtain ⟨first, firstIn, matched, firstHash⟩ := matching_owner built views owned
  rw [named] at matched firstHash
  obtain ⟨second, secondIn, covered, next, linked, covers⟩ :=
    covering_entry built short digest views
    owned (hashName crypto (nextCloser qname (closestEncloser qname names origin)) params)
  have offered : ∃ third : Option Nsec3Entry, (∀ entry ∈ third, entry ∈ entries) ∧
      nsec3Denial crypto origin params entries names qname true =
        some (dedupRecords (Nsec3Entry.emit (some first) ++ Nsec3Entry.emit (some second) ++
          Nsec3Entry.emit third)) := by
    cases wild : prependStar (closestEncloser qname names origin) with
    | none =>
      refine ⟨none, by simp, ?_⟩
      simp only [nsec3Denial, Bool.not_true, Bool.false_eq_true, if_false, matched, covered, wild,
        Option.bind_eq_bind, Option.bind_some, Option.pure_def]
    | some wildcard =>
      obtain ⟨third, thirdIn, found, _⟩ := covering_entry built short digest views owned
        (hashName crypto wildcard params)
      refine ⟨some third, by simpa using thirdIn, ?_⟩
      simp only [nsec3Denial, Bool.not_true, Bool.false_eq_true, if_false, matched, covered, wild,
        found, Option.bind_eq_bind, Option.bind_some, Option.pure_def]
  obtain ⟨third, thirdIn, offered⟩ := offered
  obtain ⟨node, held, hashed, record⟩ := entry_node views firstIn
  obtain ⟨other, held', hashed', record'⟩ := entry_node views secondIn
  have chosen : ∀ wanted, wanted ∈ ofType typeNsec3 (dedupRecords
      (Nsec3Entry.emit (some first) ++ Nsec3Entry.emit (some second) ++ Nsec3Entry.emit third)) ↔
      wanted ∈ ofType typeNsec3 (Nsec3Entry.emit (some first)) ∨
        wanted ∈ ofType typeNsec3 (Nsec3Entry.emit (some second)) ∨
        wanted ∈ ofType typeNsec3 (Nsec3Entry.emit third) := by
    intro wanted
    simp only [ofType, List.mem_filter, mem_dedupRecords, List.mem_append, or_and_right, or_assoc]
  have own : ∀ {node : Nsec3Node} {entry : Nsec3Entry}, node ∈ chain → node.record = entry.record →
      node.record ∈ ofType typeNsec3 (Nsec3Entry.emit (some entry)) := by
    intro node entry held same
    have typed := (buildChain_read built short digest held).1
    rw [same] at typed ⊢
    exact List.mem_filter.mpr ⟨List.mem_cons_self, decide_eq_true typed⟩
  have replayed : ∀ wanted ∈ ofType typeNsec3 (dedupRecords
      (Nsec3Entry.emit (some first) ++ Nsec3Entry.emit (some second) ++ Nsec3Entry.emit third)),
      wanted ∈ chain.map Nsec3Node.record := by
    intro wanted member
    rcases (chosen wanted).mp member with emitted | emitted | emitted
    · exact mem_ofType_emit views signatures (by simpa using firstIn) emitted
    · exact mem_ofType_emit views signatures (by simpa using secondIn) emitted
    · exact mem_ofType_emit views signatures thirdIn emitted
  refine ⟨_, offered, nsec3Proves_of_enclosed built short digest replayed
    (by omega) (by omega) above closer held ((chosen _).mpr (Or.inl (own held record)))
    (hashed.trans firstHash) held' ((chosen _).mpr (Or.inr (Or.inl (own held' record'))))
    fun next' link => ?_⟩
  have same : next' = next := by
    rw [hashed', record'] at link
    exact (Prod.mk.inj (Option.some.inj (link.symm.trans linked))).2
  rw [same, hashed']
  exact covers

end Offered

/-- The name owns records, or nothing stands for it: no wildcard and no name below. -/
def Deniable (zone : Zone) (qname : DnsName) : Prop :=
  (∃ node, zone.records.get? qname = some node) ∨
    zone.findNode qname = none ∧ zone.hasNamesBelow qname = false

def Convinces (crypto : Crypto) (signed : SignedZone) (qname : DnsName) (nxdomain : Bool) : Prop :=
  ∃ records, signed.denialRecords crypto qname nxdomain = some records ∧
    nsec3Proves crypto qname (ofType typeNsec3 records) = true

/-- Of the negative answers, those at empty non-terminals and at names drawn from a
wildcard come without a proof. -/
theorem nsec3Denial_complete_iff (crypto : Crypto)
    (digest : ∀ data, (crypto.sha1 data).length ≤ 255)
    {zone : Zone} (structured : Structured zone) (coherent : SoaCoherent zone)
    {params : Nsec3Params} (short : params.salt.length ≤ 255) {keys : List DnssecKey}
    {now validitySecs : UInt64} {signed : SignedZone}
    (done : SignedZone.sign crypto zone keys now validitySecs (some params) = some signed)
    {qname : DnsName} (below : qname.endsWith zone.origin = true) {qtype : UInt16}
    (distinct : ∀ name node, zone.records.get? name = some node →
      hashName crypto name params = hashName crypto qname params → name = qname)
    {result : LookupResult} (found : zone.lookup qname qtype = some result)
    (negative : result.negative = true) (empty : result.answers = []) :
    Convinces crypto signed qname (result.rcode = rcodeNxdomain) ↔ Deniable zone qname := by
  obtain ⟨chain, entries, built, origin, denial, views, signatures⟩ := sign_nsec3 done
  have offered : ∀ nxdomain, signed.denialRecords crypto qname nxdomain =
      nsec3Denial crypto zone.origin params entries (hashedNames zone params) qname nxdomain := by
    intro nxdomain
    rw [SignedZone.denialRecords, denial, origin]
  have stored : ∀ name, name ∈ hashedNames zone params ↔
      ∃ node, zone.records.get? name = some node := mem_hashedNames_iff structured coherent
  have owned : ∀ name ∈ hashedNames zone params, ∃ owner ∈ hashedTypes zone params,
      owner.1 = name := fun name member => ⟨_, List.mem_map_of_mem member, rfl⟩
  -- without NXDOMAIN, the name must have a node of its own
  have nodata : Convinces crypto signed qname false ↔
      ∃ node, zone.records.get? qname = some node := by
    rw [Convinces, offered, nsec3Denial_nodata built short digest views signatures, ← stored]
    constructor
    · rintro ⟨owner, listed, same⟩
      obtain ⟨name, member, rfl⟩ := List.mem_map.mp listed
      obtain ⟨node, held⟩ := (stored name).mp member
      rwa [← distinct name node held same]
    · intro member
      obtain ⟨owner, listed, named⟩ := owned qname member
      exact ⟨owner, listed, by rw [named]⟩
  have exact : ∀ node, zone.records.get? qname = some node → zone.findNode qname = some node := by
    intro node held
    rw [Zone.findNode, held]
  rcases Zone.lookup_negative found negative empty with absent | ⟨node, present, rcode, _⟩
  · have missing : ¬ ∃ node, zone.records.get? qname = some node := by
      rintro ⟨node, held⟩
      rw [exact node held] at absent
      cases absent
    have answer := Option.some.inj ((Zone.lookup_absent qtype absent).symm.trans found)
    rw [← answer]
    dsimp only
    cases names : zone.hasNamesBelow qname with
    | true =>
      have code : decide ((if true = true then rcodeNoerror else rcodeNxdomain) =
          rcodeNxdomain) = false := by decide
      rw [code, nodata, Deniable, names]
      simp [missing]
    | false =>
      have code : decide ((if false = true then rcodeNoerror else rcodeNxdomain) =
          rcodeNxdomain) = true := by decide
      have apexed := (stored zone.origin).mpr coherent.apex_stored
      rw [code, Convinces, offered]
      refine iff_of_true (nsec3Denial_nxdomain built short digest views signatures owned apexed
        (fun member => missing ((stored qname).mp member)) below (sign_nsec3_origin done)) ?_
      exact Or.inr ⟨absent, names⟩
  · have code : decide (result.rcode = rcodeNxdomain) = false := by
      rw [rcode]
      decide
    rw [code, nodata, Deniable, present]
    simp

theorem nsec3Denial_complete_shell :
    ∃ signed, SignedZone.sign sampleCrypto shell [sampleKey apexName] 1700000000 1209600
        (some ⟨0, []⟩) = some signed ∧
      Convinces sampleCrypto signed drawnName true := by
  have found : shell.lookup drawnName typeA = some ⟨rcodeNxdomain, [], true, none⟩ := rfl
  have apart : hashName sampleCrypto apexName ⟨0, []⟩ ≠ hashName sampleCrypto drawnName
    ⟨0, []⟩ := by
    decide +kernel
  have checked : (SignedZone.sign sampleCrypto shell [sampleKey apexName] 1700000000 1209600
      (some ⟨0, []⟩)).isSome = true := by decide +kernel
  obtain ⟨signed, done⟩ := Option.isSome_iff_exists.mp checked
  refine ⟨signed, done, ?_⟩
  refine (nsec3Denial_complete_iff sampleCrypto sampleDigest shell_structured
    (fromRecords_coherent shell_built) (by decide) done rfl (fun name node stored same => ?_)
    found rfl rfl).mpr (Or.inr ⟨rfl, rfl⟩)
  rw [(shell_stored stored).1] at same
  exact absurd same apart

/-- For a name the wildcard stands for, the absence of a text comes without a proof. -/
theorem starred_unproven :
    ∃ signed result, SignedZone.sign sampleCrypto starred [sampleKey apexName] 1700000000 1209600
        (some ⟨0, []⟩) = some signed ∧
      starred.lookup drawnName typeTxt = some result ∧ result.negative = true ∧
      result.answers = [] ∧
      ¬ Convinces sampleCrypto signed drawnName (result.rcode = rcodeNxdomain) := by
  have checked : ((SignedZone.sign sampleCrypto starred [sampleKey apexName] 1700000000 1209600
      (some ⟨0, []⟩)).any fun signed =>
        !(signed.denialRecords sampleCrypto drawnName false).any fun records =>
          nsec3Proves sampleCrypto drawnName (ofType typeNsec3 records)) = true := by decide +kernel
  obtain ⟨signed, done, unproven⟩ := (Option.any_eq_true _ _).mp checked
  refine ⟨signed, ⟨rcodeNoerror, [], true, none⟩, done, rfl, rfl, rfl, ?_⟩
  rintro ⟨records, offered, proven⟩
  have code : decide (rcodeNoerror = rcodeNxdomain) = false := rfl
  rw [code] at offered
  rw [offered, Option.any_some, proven] at unproven
  cases unproven

/-! ## The signer's own reader -/

/-- `next_hash_of` stays inside the data `nsec3_rdata` writes, even where a length does
not fit its octet. -/
theorem nextHashOf_returns (params : Nsec3Params) (next : Bytes) (types : List UInt16) :
    ∃ hash, nextHashOf (nsec3Rdata params next types) = some hash := by
  have size : (nsec3Rdata params next types).length =
      6 + params.salt.length + next.length + (bitmapField types).length := by
    simp [nsec3Rdata, toBe16_length]
    omega
  have salt : (nsec3Rdata params next types)[4]? = some (UInt8.ofNat params.salt.length) := rfl
  have saltLen : (UInt8.ofNat params.salt.length).toNat = params.salt.length % 256 :=
    UInt8.toNat_ofNat'
  have within : 5 + (UInt8.ofNat params.salt.length).toNat <
      (nsec3Rdata params next types).length := by
    rw [size, saltLen]
    omega
  obtain ⟨hashLen, found⟩ : ∃ hashLen, (nsec3Rdata params next types)[5 +
      (UInt8.ofNat params.salt.length).toNat]? = some hashLen :=
    ⟨_, List.getElem?_eq_getElem within⟩
  have octet : hashLen.toNat < 256 := hashLen.toNat_lt
  have room : 5 + (UInt8.ofNat params.salt.length).toNat + 1 + hashLen.toNat ≤
      (nsec3Rdata params next types).length := by
    rw [size]
    by_cases short : params.salt.length ≤ 255
    · -- the octet read is the length of the hash
      have exactLen : (UInt8.ofNat params.salt.length).toNat = params.salt.length := by omega
      have before : (nsec3Head params ++ params.salt).length = 5 + params.salt.length :=
        List.length_append
      have value : hashLen = UInt8.ofNat next.length := by
        rw [exactLen, nsec3Rdata_eq, ← before, List.getElem?_append_right (Nat.le_refl _),
          Nat.sub_self] at found
        exact (Option.some.inj found).symm
      have bound : hashLen.toNat ≤ next.length := by
        rw [value, UInt8.toNat_ofNat']
        exact Nat.mod_le _ _
      omega
    · omega
  rw [nextHashOf, salt]
  simp only [Option.bind_eq_bind, Option.bind_some, found]
  exact ⟨_, if_pos room⟩

theorem covering_returns (hash : Bytes) {entries : List Nsec3Entry}
    (read : ∀ entry ∈ entries, ∃ code data next, entry.record.rdata = .unknown code data ∧
      nextHashOf data = some next) :
    ∃ found, covering hash entries = some found := by
  induction entries with
  | nil => exact ⟨none, rfl⟩
  | cons entry rest ih =>
    obtain ⟨code, data, next, rdata, here⟩ := read entry List.mem_cons_self
    have link : entry.link = some (entry.hash, next) := by
      rw [Nsec3Entry.link, rdata]
      simp only [here, Option.map_some]
    rw [covering_cons link]
    split
    · exact ⟨_, rfl⟩
    · exact ih fun other member => read other (List.mem_cons_of_mem _ member)

/-- The denial records of a zone that was signed are always found. -/
theorem denialRecords_returns {crypto : Crypto} {zone : Zone} {keys : List DnssecKey}
    {now validitySecs : UInt64} {nsec3 : Option Nsec3Params} {signed : SignedZone}
    (done : SignedZone.sign crypto zone keys now validitySecs nsec3 = some signed)
    (qname : DnsName) (nxdomain : Bool) :
    ∃ records, signed.denialRecords crypto qname nxdomain = some records := by
  cases nsec3 with
  | none =>
    obtain ⟨made, chain, signs, denial, _⟩ := sign_nsec crypto zone keys now validitySecs
    rw [done] at signs
    cases signs
    exact ⟨_, by rw [SignedZone.denialRecords, denial]⟩
  | some params =>
    obtain ⟨chain, entries, built, _, denial, views, _⟩ := sign_nsec3 done
    have read : ∀ entry ∈ entries, ∃ code data next, entry.record.rdata = .unknown code data ∧
        nextHashOf data = some next := by
      intro entry member
      have viewed : (entry.hash, entry.record) ∈
          chain.map fun node => (node.hash, node.record) := by
        rw [← views]
        exact List.mem_map_of_mem member
      obtain ⟨node, held, same⟩ := List.mem_map.mp viewed
      obtain ⟨link, _, made⟩ := (mem_mapM built).mp held
      obtain ⟨hash, found⟩ := nextHashOf_returns params link.2.1 link.1.2
      have record : node.record = entry.record := congrArg Prod.snd same
      refine ⟨typeNsec3, _, hash, ?_, found⟩
      rw [← record]
      exact (nsec3Node_owner made).2.2
    rw [SignedZone.denialRecords, denial]
    simp only [nsec3Denial]
    cases nxdomain with
    | false => exact ⟨_, rfl⟩
    | true =>
      obtain ⟨second, covered⟩ := covering_returns (hashName crypto
        (nextCloser qname (closestEncloser qname (hashedNames zone params) signed.origin))
        params) read
      simp only [covered, Bool.not_true, Bool.false_eq_true, if_false, Option.bind_eq_bind,
        Option.bind_some]
      split
      · exact ⟨_, rfl⟩
      · rename_i wildcard _
        obtain ⟨third, covered'⟩ := covering_returns (hashName crypto wildcard params) read
        rw [covered']
        exact ⟨_, rfl⟩

end Rdns.Dnssec
