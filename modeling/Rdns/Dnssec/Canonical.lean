import Rdns.Lib.Sorted
import Rdns.Dnssec.Sign

/-!
# Canonical form and order of an RRset

The octets a signature covers are the records of the RRset in canonical form, sorted
and joined.  `sign_rrset` and `signed_data` sort whole records, in which RDLENGTH
stands in front of the RDATA; RFC 4034 §6.3 sorts by the RDATA alone.  The two agree
on exactly the RRsets in which greater RDATA is never shorter.  Whatever the order,
the joined string has one reading only.
-/

set_option autoImplicit false

namespace Rdns.Dnssec

open Rdns.Lib Rdns.Proto

/-! ## Records in canonical form -/

def canonicalData (rdata : RData) : Bytes := (rdata.encodeCanonical ([], Compressor.default)).1

/-- No name is compressed, so the octets do not depend on those before them. -/
theorem encodeCanonical_eq_put (rdata : RData) :
    rdata.encodeCanonical = put (canonicalData rdata) := by
  funext state
  cases rdata <;>
    simp [canonicalData, RData.encodeCanonical, RData.encode, writePlain_eq_put,
      writeStrings_eq_put, Soa.writeNumbers, put]

def fixedOctets (rtype class_ : UInt16) (originalTtl : UInt32) : Bytes :=
  toBe16 rtype ++ toBe16 class_ ++ toBe32 originalTtl

def rdlength (data : Bytes) : UInt16 := UInt16.ofNat data.length

theorem canonicalOctets_eq (originalTtl : UInt32) (record : Record) :
    canonicalOctets originalTtl record =
      plainOctets record.name.labels ++ (fixedOctets record.rtype record.class_ originalTtl ++
        (toBe16 (rdlength (canonicalData record.rdata)) ++ canonicalData record.rdata)) := by
  generalize frontEq : plainOctets record.name.labels ++
    fixedOctets record.rtype record.class_ originalTtl = front
  have head : canonicalOctets originalTtl record =
      (writeSized record.rdata.encodeCanonical (front, Compressor.default)).1 := by
    rw [← frontEq]
    simp only [canonicalOctets, Record.encodeCanonical, writePlain_eq_put, put, fixedOctets,
      List.nil_append, List.append_assoc]
  have body : record.rdata.encodeCanonical (front ++ [0, 0], Compressor.default) =
      (front ++ [0, 0] ++ canonicalData record.rdata, Compressor.default) := by
    rw [encodeCanonical_eq_put]
    rfl
  rw [head, writeSized_eq body, ← frontEq, List.append_assoc]
  rfl

/-! ## The two orders -/

structure Uniform (owner : DnsName) (class_ rtype : UInt16) (record : Record) : Prop where
  name : record.name = owner
  class_ : record.class_ = class_
  rtype : record.rtype = rtype

/-- What is compared first: the length of the RDATA as its field can hold it. -/
def announced (record : Record) : Nat := (rdlength (canonicalData record.rdata)).toNat

section Order

variable {owner : DnsName} {class_ rtype : UInt16} {originalTtl : UInt32}

theorem canonicalOctets_le_iff {left right : Record} (uniform : Uniform owner class_ rtype left)
    (uniform' : Uniform owner class_ rtype right) :
    canonicalOctets originalTtl left ≤ canonicalOctets originalTtl right ↔
      announced left < announced right ∨ announced left = announced right ∧
        canonicalData left.rdata ≤ canonicalData right.rdata := by
  have words : toBe16 (rdlength (canonicalData left.rdata)) =
      toBe16 (rdlength (canonicalData right.rdata)) ↔ announced left = announced right := by
    rw [announced, announced, UInt16.toNat_inj]
    exact ⟨fun same => toBe16_injective same, congrArg toBe16⟩
  rw [canonicalOctets_eq, canonicalOctets_eq, uniform.name, uniform'.name, uniform.class_,
    uniform'.class_, uniform.rtype, uniform'.rtype, append_le_append_left_iff,
    append_le_append_left_iff, append_le_append_iff (by simp), toBe16_lt_iff, words]
  rfl

/-- RFC 4034 §6.3: the RDATA in canonical form, compared octet by octet, a proper prefix
first. -/
def RdataOrder (left right : Record) : Prop :=
  canonicalData left.rdata ≤ canonicalData right.rdata

instance : DecidableRel RdataOrder := fun left right =>
  inferInstanceAs (Decidable (canonicalData left.rdata ≤ canonicalData right.rdata))

instance : Std.Total RdataOrder := ⟨fun left right =>
  List.le_total (canonicalData left.rdata) (canonicalData right.rdata)⟩

instance : IsTrans Record RdataOrder := ⟨fun _ _ _ => List.le_trans⟩

def rfcForm (originalTtl : UInt32) (rrset : List Record) : Bytes :=
  ((rrset.insertionSort RdataOrder).map (canonicalOctets originalTtl)).flatten

/-- Greater RDATA does not announce a smaller length. -/
def LengthsFollow (rrset : List Record) : Prop :=
  ∀ left ∈ rrset, ∀ right ∈ rrset, canonicalData left.rdata < canonicalData right.rdata →
    announced left ≤ announced right

theorem data_lt_or_eq {left right : Bytes} (less : left ≤ right) : left < right ∨ left = right := by
  by_cases below : left < right
  · exact Or.inl below
  · exact Or.inr (List.le_antisymm less below)

theorem canonicalOctets_congr {left right : Record} (uniform : Uniform owner class_ rtype left)
    (uniform' : Uniform owner class_ rtype right)
    (same : canonicalData left.rdata = canonicalData right.rdata) :
    canonicalOctets originalTtl left = canonicalOctets originalTtl right := by
  rw [canonicalOctets_eq, canonicalOctets_eq, uniform.name, uniform'.name, uniform.class_,
    uniform'.class_, uniform.rtype, uniform'.rtype, same]

/-- Of two records one of which starts the other, the lengths are the same, and only the
RDATA is left to compare. -/
theorem announced_of_comparable {left right : Record}
    (uniform : Uniform owner class_ rtype left) (uniform' : Uniform owner class_ rtype right)
    (comparable : Comparable (canonicalOctets originalTtl left)
      (canonicalOctets originalTtl right)) : announced left = announced right := by
  rw [canonicalOctets_eq, canonicalOctets_eq, uniform.name, uniform'.name, uniform.class_,
    uniform'.class_, uniform.rtype, uniform'.rtype, Comparable, List.prefix_append_right_inj,
    List.prefix_append_right_inj, List.prefix_append_right_inj,
    List.prefix_append_right_inj] at comparable
  have words : toBe16 (rdlength (canonicalData left.rdata)) =
      toBe16 (rdlength (canonicalData right.rdata)) := by
    rcases comparable with ⟨more, joined⟩ | ⟨more, joined⟩
    · rw [List.append_assoc] at joined
      exact (List.append_inj joined (by simp)).1
    · rw [List.append_assoc] at joined
      exact (List.append_inj joined (by simp)).1.symm
  rw [announced, announced, toBe16_injective words]

variable {rrset : List Record}

theorem sorted_of_lengthsFollow (uniform : ∀ record ∈ rrset, Uniform owner class_ rtype record)
    (follow : LengthsFollow rrset) :
    ((rrset.insertionSort RdataOrder).map (canonicalOctets originalTtl)).Pairwise (· ≤ ·) := by
  rw [List.pairwise_map]
  refine (List.pairwise_insertionSort RdataOrder rrset).imp_of_mem ?_
  intro left right member member' ordered
  have inside := (List.mem_insertionSort RdataOrder).mp member
  have inside' := (List.mem_insertionSort RdataOrder).mp member'
  rw [canonicalOctets_le_iff (uniform left inside) (uniform right inside')]
  rcases data_lt_or_eq ordered with less | same
  · rcases Nat.lt_or_eq_of_le (follow left inside right inside' less) with shorter | equal
    · exact Or.inl shorter
    · exact Or.inr ⟨equal, ordered⟩
  · refine Or.inr ⟨?_, ordered⟩
    rw [announced, announced, same]

def OctetsFollow (originalTtl : UInt32) (first second : Record) : Prop :=
  (canonicalData first.rdata < canonicalData second.rdata →
    canonicalOctets originalTtl first ≤ canonicalOctets originalTtl second) ∧
  (canonicalData second.rdata < canonicalData first.rdata →
    canonicalOctets originalTtl second ≤ canonicalOctets originalTtl first)

instance : Std.Symm (OctetsFollow originalTtl) := ⟨fun _ _ follows => ⟨follows.2, follows.1⟩⟩

theorem lengthsFollow_of_sorted (uniform : ∀ record ∈ rrset, Uniform owner class_ rtype record)
    (sorted : ((rrset.insertionSort RdataOrder).map (canonicalOctets originalTtl)).Pairwise
      (· ≤ ·)) : LengthsFollow rrset := by
  rw [List.pairwise_map] at sorted
  have both := (List.pairwise_insertionSort RdataOrder rrset).and sorted
  intro left inside right inside' less
  have member := (List.mem_insertionSort RdataOrder).mpr inside
  have member' := (List.mem_insertionSort RdataOrder).mpr inside'
  -- the smaller of the two cannot stand behind the greater
  have pairs : (rrset.insertionSort RdataOrder).Pairwise (OctetsFollow originalTtl) :=
    both.imp fun ordered => ⟨fun _ => ordered.2, fun greater => absurd greater ordered.1⟩
  have diagonal : ∀ record ∈ rrset.insertionSort RdataOrder,
      OctetsFollow originalTtl record record :=
    fun record _ => ⟨fun less => absurd less (List.lt_irrefl _),
      fun less => absurd less (List.lt_irrefl _)⟩
  have ordered := (pairs.forall_of_forall diagonal member member').1 less
  rw [canonicalOctets_le_iff (uniform left inside) (uniform right inside')] at ordered
  rcases ordered with shorter | ⟨equal, _⟩
  · exact shorter.le
  · exact equal.le

def ByData (originalTtl : UInt32) (rrset : List Record) (text other : Bytes) : Prop :=
  ∃ left ∈ rrset, ∃ right ∈ rrset, canonicalOctets originalTtl left = text ∧
    canonicalOctets originalTtl right = other ∧ RdataOrder left right

theorem rfcForm_sorted (originalTtl : UInt32) (rrset : List Record) :
    ((rrset.insertionSort RdataOrder).map (canonicalOctets originalTtl)).Pairwise
      (ByData originalTtl rrset) := by
  rw [List.pairwise_map]
  refine (List.pairwise_insertionSort RdataOrder rrset).imp_of_mem ?_
  intro left right member member' ordered
  exact ⟨left, (List.mem_insertionSort RdataOrder).mp member, right,
    (List.mem_insertionSort RdataOrder).mp member', rfl, rfl, ordered⟩

theorem canonicalForm_eq_rfcForm_iff
    (uniform : ∀ record ∈ rrset, Uniform owner class_ rtype record) :
    canonicalForm originalTtl rrset = rfcForm originalTtl rrset ↔ LengthsFollow rrset := by
  have sortedCode := List.pairwise_insertionSort (· ≤ ·)
    (rrset.map (canonicalOctets originalTtl))
  have perm : ((rrset.map (canonicalOctets originalTtl)).insertionSort (· ≤ ·)).Perm
      ((rrset.insertionSort RdataOrder).map (canonicalOctets originalTtl)) :=
    (List.perm_insertionSort _ _).trans ((List.perm_insertionSort RdataOrder rrset).symm.map _)
  constructor
  · intro same
    have listed : ∀ text ∈ (rrset.map (canonicalOctets originalTtl)).insertionSort (· ≤ ·),
        ∃ record ∈ rrset, canonicalOctets originalTtl record = text := by
      intro text member
      exact List.mem_map.mp ((List.mem_insertionSort _).mp member)
    have lists := sorted_eq_of_flatten_eq perm ?_ ?_ sortedCode (rfcForm_sorted originalTtl rrset)
      same
    · rw [lists] at sortedCode
      exact lengthsFollow_of_sorted uniform sortedCode
    · intro text member
      obtain ⟨record, inside, rfl⟩ := listed text member
      exact ⟨List.le_refl _, record, inside, record, inside, rfl, rfl, List.le_refl _⟩
    · rintro _ _ _ _ comparable ordered ⟨right, inside', left, inside, rfl, rfl, byData⟩
      have equal := announced_of_comparable (uniform left inside) (uniform right inside') comparable
      rw [canonicalOctets_le_iff (uniform left inside) (uniform right inside')] at ordered
      rcases ordered with shorter | ⟨_, data⟩
      · exact absurd equal (Nat.ne_of_lt shorter)
      · exact canonicalOctets_congr (uniform left inside) (uniform right inside')
          (List.le_antisymm data byData)
  · intro follow
    have lists := List.Perm.eq_of_pairwise
      (fun left right _ _ => Std.Antisymm.antisymm left right) sortedCode
      (sorted_of_lengthsFollow uniform follow) perm
    rw [canonicalForm, rfcForm, lists]

end Order

def collapsed (labels : UInt8) (record : Record) : Record :=
  { record with name := wildcardOwner record.name labels }

theorem signedData_collapsed (fields : RrsigFields) (rrset : List Record) :
    signedData fields rrset =
      fields.prefix_ ++ canonicalForm fields.originalTtl (rrset.map (collapsed fields.labels)) := by
  rw [canonicalForm, List.map_map]
  rfl

def toSign (key : DnssecKey) (owner : DnsName) (rtype : UInt16) (originalTtl : UInt32)
    (rrset : List Record) (inception expiration : UInt32) : Bytes :=
  rrsigPrefix key owner rtype originalTtl inception expiration ++ canonicalForm originalTtl rrset

theorem signRrset_toSign (key : DnssecKey) (owner : DnsName) (rtype : UInt16) (rrset : List Record)
    (inception expiration : UInt32) :
    signRrset key owner rtype rrset inception expiration = rrset.head?.map fun first =>
      { name := owner, class_ := classIn, ttl := first.ttl
        rdata := .unknown typeRrsig (rrsigPrefix key owner rtype first.ttl inception expiration ++
          key.sign (toSign key owner rtype first.ttl rrset inception expiration)) } := rfl

/-- Signer and verifier cover the RRset in the order of the RFC exactly where greater RDATA
does not announce a smaller length. -/
theorem canonical_order_iff {owner : DnsName} {class_ rtype : UInt16} {rrset : List Record}
    (uniform : ∀ record ∈ rrset, Uniform owner class_ rtype record) (fields : RrsigFields)
    (key : DnssecKey) (originalTtl inception expiration : UInt32) :
    (signedData fields rrset = fields.prefix_ ++
        rfcForm fields.originalTtl (rrset.map (collapsed fields.labels)) ∧
      toSign key owner rtype originalTtl rrset inception expiration =
        rrsigPrefix key owner rtype originalTtl inception expiration ++
          rfcForm originalTtl rrset) ↔
      LengthsFollow rrset := by
  have collapsedUniform : ∀ record ∈ rrset.map (collapsed fields.labels),
      Uniform (wildcardOwner owner fields.labels) class_ rtype record := by
    intro record member
    obtain ⟨original, inside, rfl⟩ := List.mem_map.mp member
    have same := uniform original inside
    exact ⟨congrArg (wildcardOwner · fields.labels) same.name, same.class_, same.rtype⟩
  have collapsedFollow : LengthsFollow (rrset.map (collapsed fields.labels)) ↔
      LengthsFollow rrset := by
    unfold LengthsFollow
    rw [List.forall_mem_map]
    simp only [List.forall_mem_map]
    rfl
  rw [signedData_collapsed, toSign, List.append_cancel_left_eq, List.append_cancel_left_eq,
    canonicalForm_eq_rfcForm_iff collapsedUniform, canonicalForm_eq_rfcForm_iff uniform,
    collapsedFollow, and_self]

def rootFields : RrsigFields where
  typeCovered := typeMx
  algorithm := algEd25519
  labels := 0
  originalTtl := 60
  expiration := 0
  inception := 0
  keyTag := 0
  signer := .root
  prefix_ := []
  signature := []

theorem canonical_order_addresses :
    signedData rootFields [sampleAddress 2 60, sampleAddress 1 60] = rootFields.prefix_ ++
        rfcForm 60 ([sampleAddress 2 60, sampleAddress 1 60].map (collapsed 0)) ∧
      toSign (sampleKey .root) (sampleAddress 1 60).name typeA 60
          [sampleAddress 2 60, sampleAddress 1 60] 0 0 =
        rrsigPrefix (sampleKey .root) (sampleAddress 1 60).name typeA 60 0 0 ++
          rfcForm 60 [sampleAddress 2 60, sampleAddress 1 60] := by
  have uniform : ∀ record ∈ [sampleAddress 2 60, sampleAddress 1 60],
      Uniform (sampleAddress 1 60).name classIn typeA record := by
    intro record member
    rcases List.mem_pair.mp member with rfl | rfl <;> exact ⟨rfl, rfl, rfl⟩
  refine (canonical_order_iff uniform rootFields (sampleKey .root) 60 0 0).mpr ?_
  unfold LengthsFollow
  decide +kernel

/-- Two mail exchanges: the preferred one has the longer name. -/
def mailSet : List Record :=
  let host : DnsName := ⟨[[109, 120], [101, 120]], by decide⟩
  [{ name := .root, class_ := classIn, ttl := 60, rdata := .mx 10 host },
    { name := .root, class_ := classIn, ttl := 60, rdata := .mx 20 .root }]

theorem mailSet_misordered :
    (∀ record ∈ mailSet, record.name = .root ∧ record.class_ = classIn ∧ record.rtype = typeMx) ∧
      signedData rootFields mailSet ≠ rootFields.prefix_ ++
        rfcForm rootFields.originalTtl (mailSet.map (collapsed rootFields.labels)) ∧
      toSign (sampleKey .root) .root typeMx 60 mailSet 0 0 ≠
        rrsigPrefix (sampleKey .root) .root typeMx 60 0 0 ++ rfcForm 60 mailSet := by
  decide +kernel

/-! ## One reading -/

theorem plainOctets_append_inj {labels labels' : List Label}
    (valid : ∀ label ∈ labels, ValidLabel label) (valid' : ∀ label ∈ labels', ValidLabel label)
    {back back' : Bytes} (same : plainOctets labels ++ back = plainOctets labels' ++ back') :
    labels = labels' ∧ back = back' := by
  -- a length octet is never the octet of the root
  have positive : ∀ {label : Label}, ValidLabel label → UInt8.ofNat label.length ≠ 0 := by
    intro label fits zero
    have size := octet_length label fits
    rw [zero] at size
    exact absurd size (Nat.ne_of_lt fits.1)
  induction labels generalizing labels' with
  | nil =>
    cases labels' with
    | nil => exact ⟨rfl, List.append_cancel_left same⟩
    | cons label' rest' =>
      rw [plainOctets_cons] at same
      exact absurd (List.cons.inj same).1.symm (positive (valid' label' (by simp)))
  | cons label rest ih =>
    cases labels' with
    | nil =>
      rw [plainOctets_cons] at same
      exact absurd (List.cons.inj same).1 (positive (valid label (by simp)))
    | cons label' rest' =>
      rw [plainOctets_cons, plainOctets_cons, List.append_assoc, List.append_assoc] at same
      obtain ⟨head, tail⟩ := List.cons.inj same
      have fits := valid label (by simp)
      have fits' := valid' label' (by simp)
      have lengths : label.length = label'.length := by
        rw [← octet_length label fits, ← octet_length label' fits', head]
      obtain ⟨rfl, later⟩ := List.append_inj tail lengths
      obtain ⟨rfl, rest_⟩ := ih (fun other member => valid other (by simp [member]))
        (fun other member => valid' other (by simp [member])) later
      exact ⟨rfl, rest_⟩

/-- Owner, type, class and canonical RDATA: what a signature vouches for in a record. -/
structure Content where
  owner : DnsName
  rtype : UInt16
  class_ : UInt16
  data : Bytes

def content (labels : UInt8) (record : Record) : Content where
  owner := wildcardOwner record.name labels
  rtype := record.rtype
  class_ := record.class_
  data := canonicalData record.rdata

def Content.octets (originalTtl : UInt32) (content : Content) : Bytes :=
  plainOctets content.owner.labels ++ (fixedOctets content.rtype content.class_ originalTtl ++
    (toBe16 (rdlength content.data) ++ content.data))

theorem canonicalOctets_collapsed (originalTtl : UInt32) (labels : UInt8) (record : Record) :
    canonicalOctets originalTtl (collapsed labels record) =
      (content labels record).octets originalTtl :=
  canonicalOctets_eq originalTtl (collapsed labels record)

section Reading

variable {originalTtl : UInt32} {first second : Content}

theorem octets_append_inj {back back' : Bytes}
    (same : first.octets originalTtl ++ back = second.octets originalTtl ++ back') :
    first.owner = second.owner ∧ first.rtype = second.rtype ∧ first.class_ = second.class_ ∧
      rdlength first.data = rdlength second.data ∧ first.data ++ back = second.data ++ back' := by
  unfold Content.octets fixedOctets at same
  simp only [List.append_assoc] at same
  obtain ⟨labels, same⟩ := plainOctets_append_inj first.owner.valid.1 second.owner.valid.1 same
  obtain ⟨rtype, same⟩ := List.append_inj same (by simp)
  obtain ⟨class_, same⟩ := List.append_inj same (by simp)
  obtain ⟨_, same⟩ := List.append_inj same (by simp)
  obtain ⟨length, same⟩ := List.append_inj same (by simp)
  exact ⟨DnsName.ext labels, toBe16_injective rtype, toBe16_injective class_,
    toBe16_injective length, same⟩

theorem octets_injective : Function.Injective (Content.octets originalTtl) := by
  intro first second same
  have padded : first.octets originalTtl ++ [] = second.octets originalTtl ++ [] := by rw [same]
  obtain ⟨owner, rtype, class_, _, data⟩ := octets_append_inj padded
  rw [List.append_nil, List.append_nil] at data
  cases first
  cases second
  cases owner
  cases rtype
  cases class_
  cases data
  rfl

theorem octets_delimited (short : first.data.length ≤ 65535) (short' : second.data.length ≤ 65535)
    (comparable : Comparable (first.octets originalTtl) (second.octets originalTtl)) :
    first.octets originalTtl = second.octets originalTtl := by
  have whole : ∀ {left right : Content} {more : Bytes}, left.data.length ≤ 65535 →
      right.data.length ≤ 65535 →
      left.octets originalTtl ++ more = right.octets originalTtl → more = [] := by
    intro left right more fits fits' joined
    have padded : left.octets originalTtl ++ more = right.octets originalTtl ++ [] := by
      rw [joined, List.append_nil]
    obtain ⟨_, _, _, lengths, data⟩ := octets_append_inj padded
    have same := congrArg UInt16.toNat lengths
    rw [rdlength, rdlength, ofNat16_toNat _ fits, ofNat16_toNat _ fits'] at same
    exact (List.append_inj data same).2
  rcases comparable with ⟨more, joined⟩ | ⟨more, joined⟩
  · rw [whole short short' joined, List.append_nil] at joined
    exact joined
  · rw [whole short' short joined, List.append_nil] at joined
    exact joined.symm

end Reading

theorem signedData_contents (fields : RrsigFields) (rrset : List Record) :
    signedData fields rrset = fields.prefix_ ++ (((rrset.map (content fields.labels)).map
      (Content.octets fields.originalTtl)).insertionSort (· ≤ ·)).flatten := by
  rw [signedData_collapsed, canonicalForm, List.map_map, List.map_map]
  refine congrArg (fun texts => fields.prefix_ ++ (List.insertionSort _ texts).flatten) ?_
  exact List.map_congr_left fun record _ =>
    canonicalOctets_collapsed fields.originalTtl fields.labels record

/-- What one signature covers, up to order and TTLs. -/
theorem signedData_unambiguous (fields : RrsigFields) (rrset rrset' : List Record)
    (short : ∀ record ∈ rrset, (canonicalData record.rdata).length ≤ 65535)
    (short' : ∀ record ∈ rrset', (canonicalData record.rdata).length ≤ 65535)
    (same : signedData fields rrset = signedData fields rrset') :
    (rrset.map (content fields.labels)).Perm (rrset'.map (content fields.labels)) := by
  rw [signedData_contents, signedData_contents] at same
  have joined := List.append_cancel_left same
  have listed : ∀ {records : List Record} {text : Bytes},
      text ∈ ((records.map (content fields.labels)).map
        (Content.octets fields.originalTtl)).insertionSort (· ≤ ·) →
      ∃ record ∈ records, (content fields.labels record).octets fields.originalTtl = text := by
    intro records text member
    obtain ⟨inner, among, rfl⟩ := List.mem_map.mp ((List.mem_insertionSort _).mp member)
    obtain ⟨record, inside, rfl⟩ := List.mem_map.mp among
    exact ⟨record, inside, rfl⟩
  have lists := eq_of_flatten_eq ?_ ?_ joined
  · have octets := (List.perm_insertionSort (· ≤ ·)
      ((rrset.map (content fields.labels)).map (Content.octets fields.originalTtl))).symm
    rw [lists] at octets
    exact (List.map_perm_map_iff octets_injective).mp
      (octets.trans (List.perm_insertionSort _ _))
  · intro text member other among comparable
    obtain ⟨record, inside, rfl⟩ := listed member
    obtain ⟨record', inside', rfl⟩ := listed among
    exact octets_delimited (short record inside) (short' record' inside') comparable
  · rintro text (member | member) empty
    all_goals
      obtain ⟨record, _, rfl⟩ := listed member
      have length := congrArg List.length empty
      rw [Content.octets, List.length_append, plainOctets_length] at length
      exact absurd length (by simp)

theorem signedData_unambiguous_addresses :
    signedData rootFields [sampleAddress 1 300, sampleAddress 2 300] =
        signedData rootFields [sampleAddress 2 17, sampleAddress 1 18] ∧
      ([sampleAddress 1 300, sampleAddress 2 300].map (content 0)).Perm
        ([sampleAddress 2 17, sampleAddress 1 18].map (content 0)) := by
  have same : signedData rootFields [sampleAddress 1 300, sampleAddress 2 300] =
      signedData rootFields [sampleAddress 2 17, sampleAddress 1 18] := by decide +kernel
  exact ⟨same, signedData_unambiguous rootFields _ _ (by decide +kernel) (by decide +kernel) same⟩

end Rdns.Dnssec
