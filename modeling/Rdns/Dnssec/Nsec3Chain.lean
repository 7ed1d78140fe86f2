import Rdns.Lib.Loops
import Rdns.Proto.NameText
import Rdns.Dnssec.Base32

/-!
# The NSEC3 chain and its ranges

The hashes of the owners form a sorted ring; signer and validator test the same
range, from one hash up to and including the next.  So every hash is covered by
exactly one record, whether it is the hash of an owner or not: an owner by the
record before its own.
-/

set_option autoImplicit false

namespace Rdns.Dnssec

open Rdns.Lib Rdns.Proto Rdns.Zones Rdns.Resolver

/-! ## The range test -/

theorem hashCovers_iff (owner next hash : Bytes) :
    hashCovers owner next hash = true ↔ Follows owner next hash := by
  unfold hashCovers Follows
  by_cases ordered : owner < next
  · simp [ordered]
  · simp [ordered]

def Nsec3Entry.link (node : Nsec3Entry) : Option (Bytes × Bytes) :=
  match node.record.rdata with
  | .unknown _ data => (nextHashOf data).map fun next => (node.hash, next)
  | _ => none

def Chained (owners : List Bytes) (nodes : List Nsec3Entry) : Prop :=
  nodes.map Nsec3Entry.link = (links owners).map some

theorem covering_cons {node : Nsec3Entry} {link : Bytes × Bytes} (read : node.link = some link)
    (hash : Bytes) (rest : List Nsec3Entry) :
    covering hash (node :: rest) =
      if hashCovers link.1 link.2 hash then some (some node) else covering hash rest := by
  unfold Nsec3Entry.link at read
  split at read
  · rename_i code data shape
    obtain ⟨next, found, rfl⟩ := Option.map_eq_some_iff.mp read
    rw [covering, shape]
    dsimp only
    rw [found]
    rfl
  · cases read

theorem covering_spec (hash : Bytes) :
    ∀ (nodes : List Nsec3Entry) (ring : List (Bytes × Bytes)),
      nodes.map Nsec3Entry.link = ring.map some →
      ((∃ node, covering hash nodes = some (some node)) ↔
        ∃ link ∈ ring, hashCovers link.1 link.2 hash = true) := by
  intro nodes
  induction nodes with
  | nil =>
    intro ring view
    rw [List.map_eq_nil_iff.mp view.symm]
    simp [covering]
  | cons node rest ih =>
    intro ring view
    cases ring with
    | nil => cases view
    | cons link ring =>
      obtain ⟨read, later⟩ := List.cons.inj view
      rw [covering_cons read, List.exists_mem_cons_iff]
      by_cases covers : hashCovers link.1 link.2 hash = true
      · simp [covers]
      · rw [if_neg covers, ih ring later]
        simp [covers]

/-! ## The chain of the signer -/

section Rdata

variable (params : Nsec3Params) (next : Bytes) (types : List UInt16)

def nsec3Head : Bytes :=
  [hashSha1, 0] ++ toBe16 params.iterations ++ [UInt8.ofNat params.salt.length]

theorem nsec3Rdata_eq :
    nsec3Rdata params next types = nsec3Head params ++ params.salt ++
      (UInt8.ofNat next.length :: next ++ bitmapField types) := by
  simp [nsec3Rdata, nsec3Head]

variable (short : params.salt.length ≤ 255) (fits : next.length ≤ 255)

include short in
theorem nsec3Rdata_salt :
    (nsec3Rdata params next types)[4]? = some (UInt8.ofNat params.salt.length) ∧
      (UInt8.ofNat params.salt.length).toNat = params.salt.length ∧
      slice (nsec3Rdata params next types) 5 params.salt.length = some params.salt := by
  refine ⟨rfl, ?_, ?_⟩
  · rw [UInt8.toNat_ofNat']
    omega
  · rw [nsec3Rdata_eq]
    exact slice_exact (nsec3Head params) params.salt _

include fits in
theorem nsec3Rdata_next :
    (nsec3Rdata params next types)[5 + params.salt.length]? = some (UInt8.ofNat next.length) ∧
      (UInt8.ofNat next.length).toNat = next.length ∧
      slice (nsec3Rdata params next types) (5 + params.salt.length + 1) next.length =
        some next := by
  have before : (nsec3Head params ++ params.salt).length = 5 + params.salt.length :=
    List.length_append
  refine ⟨?_, ?_, ?_⟩
  · rw [nsec3Rdata_eq, ← before, List.getElem?_append_right (Nat.le_refl _), Nat.sub_self]
    rfl
  · rw [UInt8.toNat_ofNat']
    omega
  · have found := slice_exact (nsec3Head params ++ params.salt ++ [UInt8.ofNat next.length]) next
      (bitmapField types)
    rw [List.length_append, before, List.length_singleton] at found
    rw [nsec3Rdata_eq]
    simpa only [List.append_assoc, List.cons_append, List.nil_append] using found

include short fits

theorem nextHashOf_nsec3Rdata : nextHashOf (nsec3Rdata params next types) = some next := by
  obtain ⟨saltAt, saltLen, _⟩ := nsec3Rdata_salt params next types short
  obtain ⟨nextAt, nextLen, nextOctets⟩ := nsec3Rdata_next params next types fits
  rw [nextHashOf, saltAt]
  simp only [Option.bind_eq_bind, Option.bind_some, saltLen, nextAt, nextLen]
  exact nextOctets

theorem parseNsec3_nsec3Rdata :
    parseNsec3 (nsec3Rdata params next types) =
      some (params, next, parseTypeBitmap (bitmapField types)) := by
  obtain ⟨saltAt, saltLen, saltOctets⟩ := nsec3Rdata_salt params next types short
  obtain ⟨nextAt, nextLen, nextOctets⟩ := nsec3Rdata_next params next types fits
  have long : ¬ (nsec3Rdata params next types).length < 5 := by
    have inside := (List.getElem?_eq_some_iff.mp saltAt).1
    omega
  have saltByte : (nsec3Rdata params next types).getD 4 0 = UInt8.ofNat params.salt.length := by
    rw [List.getD_eq_getElem?_getD, saltAt]
    rfl
  have iterations : be16At (nsec3Rdata params next types) 2 = params.iterations :=
    ofBe16_toBe16 params.iterations
  have bitmap : (nsec3Rdata params next types).drop (5 + params.salt.length + 1 + next.length) =
      bitmapField types := by
    rw [nsec3Rdata_eq, ← List.append_assoc]
    refine List.drop_left' ?_
    simp [nsec3Head, toBe16]
    omega
  rw [parseNsec3, if_neg long]
  dsimp only
  rw [saltByte, saltLen, saltOctets, nextAt]
  dsimp only
  rw [nextLen, nextOctets, iterations, bitmap]

end Rdata

theorem digit_not_dot (data : Bytes) : '.' ∉ (base32hex data).toList := by
  have digit : ∀ value : UInt32, base32hexDigit value ≠ '.' := by
    intro value
    have alphabet : ∀ low < 32, base32hexAlphabet.getD low '0' ≠ '.' := by decide
    have mask : UInt32.toNat 0x1F = 2 ^ 5 - 1 := rfl
    refine alphabet _ ?_
    rw [UInt32.toNat_and, mask, Nat.and_two_pow_sub_one_eq_mod]
    exact Nat.mod_lt _ (by omega)
  have drain : ∀ (buf : UInt32) (bits : Nat), '.' ∉ (base32hexDrain buf bits).1 := by
    intro buf bits
    fun_induction base32hexDrain buf bits with
    | case1 bits digits left shape ih =>
      rw [shape] at ih
      exact List.not_mem_cons_of_ne_of_not_mem (digit _).symm ih
    | case2 bits => exact List.not_mem_nil
  have encode : ∀ (octets : Bytes) (buf : UInt32) (bits : Nat),
      '.' ∉ base32hexEncode octets buf bits := by
    intro octets
    induction octets with
    | nil =>
      intro buf bits
      rw [base32hexEncode]
      split
      · exact List.not_mem_cons_of_ne_of_not_mem (digit _).symm List.not_mem_nil
      · exact List.not_mem_nil
    | cons octet rest ih =>
      intro buf bits member
      rcases List.mem_append.mp member with member | member
      · exact drain ((buf <<< 8) ||| octet.toUInt32) (bits + 8) member
      · exact ih _ _ member
  rw [base32hex, String.toList_ofList]
  exact encode data 0 0

theorem nsec3Node_owner {apex : DnsName} {params : Nsec3Params} {ttl : UInt32} {hash next : Bytes}
    {types : List UInt16} {node : Nsec3Node}
    (made : nsec3Node apex params ttl hash types next = some node) :
    node.hash = hash ∧ nsec3OwnerHash node.record.name = some hash ∧
      node.record.rdata = .unknown typeNsec3 (nsec3Rdata params next types) := by
  unfold nsec3Node at made
  split at made
  · cases made
  rename_i owner parsed
  cases made
  refine ⟨rfl, ?_, rfl⟩
  have text : base32hex hash ++ "." ++ apex.display =
      String.ofList ((base32hex hash).toList ++ '.' :: apex.displayChars) := by
    apply String.toList_inj.mp
    simp [DnsName.display]
  have more : apex.displayChars ≠ [] := by
    unfold DnsName.displayChars
    split
    · exact List.cons_ne_nil _ _
    · rename_i labelled
      cases shape : apex.labels with
      | nil => simp [shape] at labelled
      | cons label rest => simp
  rw [text] at parsed
  rw [nsec3OwnerHash, DnsName.parseStr_first (digit_not_dot hash) more parsed]
  exact base32hexDecode_base32hex hash

theorem hashName_digest {crypto : Crypto} (fits : Bytes → Prop)
    (digest : ∀ data, fits (crypto.sha1 data)) (name : DnsName) (params : Nsec3Params) :
    fits (hashName crypto name params) := by
  unfold hashName
  cases params.iterations.toNat with
  | zero => exact digest _
  | succ rounds =>
    rw [Function.iterate_succ_apply']
    exact digest _

theorem hashedOwners_strict (crypto : Crypto) (ownerTypes : List (DnsName × List UInt16))
    (params : Nsec3Params) :
    (hashedOwners crypto ownerTypes params).Pairwise fun left right => left.1 < right.1 := by
  have total : Std.Total fun left right : Bytes × List UInt16 => left.1 ≤ right.1 :=
    ⟨fun left right => Std.le_total⟩
  have trans : IsTrans (Bytes × List UInt16) fun left right => left.1 ≤ right.1 :=
    ⟨fun left middle right => Std.le_trans⟩
  exact dedupByKey_strict (List.pairwise_insertionSort _ _)

theorem mem_hashedOwners {crypto : Crypto} {ownerTypes : List (DnsName × List UInt16)}
    {params : Nsec3Params} {entry : Bytes × List UInt16}
    (member : entry ∈ hashedOwners crypto ownerTypes params) :
    ∃ name, entry.1 = hashName crypto name params := by
  have kept := (dedupByKey_sublist Prod.fst _).subset member
  obtain ⟨owner, _, rfl⟩ := List.mem_map.mp ((List.mem_insertionSort _).mp kept)
  exact ⟨owner.1, rfl⟩

def readEntry (record : Record) : Option (Bytes × Bytes) := do
  let owner ← nsec3OwnerHash record.name
  let (_, next, _) ← (unknownData record).bind parseNsec3
  pure (owner, next)

/-- What `build_chain` returns is a ring, for the signer and for the validator. -/
theorem buildChain_chained {crypto : Crypto} {apex : DnsName}
    {ownerTypes : List (DnsName × List UInt16)} {params : Nsec3Params} {ttl : UInt32}
    {nodes : List Nsec3Node} (built : buildChain crypto apex ownerTypes params ttl = some nodes)
    (short : params.salt.length ≤ 255) (digest : ∀ data, (crypto.sha1 data).length ≤ 255)
    (sigs : Nsec3Node → List Record) :
    (nodes.map Nsec3Node.hash).Pairwise (· < ·) ∧
      Chained (nodes.map Nsec3Node.hash)
        (nodes.map fun node => ⟨node.hash, node.record, sigs node⟩) ∧
      nsec3Entries (nodes.map Nsec3Node.record) = links (nodes.map Nsec3Node.hash) := by
  have views := mapM_view _
    (fun node : Nsec3Node => (node.hash, Nsec3Entry.link ⟨node.hash, node.record, sigs node⟩,
      readEntry node.record))
    (fun link : (Bytes × List UInt16) × Bytes × List UInt16 =>
      (link.1.1, some (link.1.1, link.2.1), some (link.1.1, link.2.1)))
    (links (hashedOwners crypto ownerTypes params)) (by
      intro link member node made
      obtain ⟨hash, owner, rdata⟩ := nsec3Node_owner made
      have next := List.mem_rotate.mp (List.of_mem_zip member).2
      obtain ⟨name, value⟩ := mem_hashedOwners next
      have fits : link.2.1.length ≤ 255 := by
        rw [value]
        exact hashName_digest (·.length ≤ 255) digest name params
      have parsed := parseNsec3_nsec3Rdata params link.2.1 link.1.2 short fits
      have signer : Nsec3Entry.link ⟨node.hash, node.record, sigs node⟩ =
          some (link.1.1, link.2.1) := by
        simp only [Nsec3Entry.link, rdata, nextHashOf_nsec3Rdata params link.2.1 link.1.2
          short fits,
          hash, Option.map_some]
      have validator : readEntry node.record = some (link.1.1, link.2.1) := by
        simp only [readEntry, owner, unknownData, rdata, Option.bind_some, parsed]
        rfl
      rw [signer, validator, hash]) built
  have ring : ∀ {γ : Type} (field : Bytes × Bytes → γ),
      (links (hashedOwners crypto ownerTypes params)).map (fun link =>
        field (link.1.1, link.2.1)) =
      (links ((hashedOwners crypto ownerTypes params).map Prod.fst)).map field := by
    intro γ field
    rw [links_map, List.map_map]
    rfl
  have hashes : nodes.map Nsec3Node.hash =
      (hashedOwners crypto ownerTypes params).map Prod.fst := by
    have firsts := congrArg (List.map Prod.fst) views
    rw [List.map_map, List.map_map] at firsts
    refine firsts.trans ((ring Prod.fst).trans ?_)
    exact List.map_fst_zip (by rw [List.length_rotate])
  rw [hashes]
  refine ⟨List.pairwise_map.mpr (hashedOwners_strict crypto ownerTypes params), ?_, ?_⟩
  · have seconds := congrArg (List.map fun view => view.2.1) views
    rw [List.map_map, List.map_map] at seconds
    rw [Chained, List.map_map]
    exact seconds.trans (ring some)
  · have thirds := congrArg (List.map fun view => view.2.2) views
    rw [List.map_map, List.map_map] at thirds
    refine filterMap_of_map_some ?_
    rw [List.map_map]
    exact thirds.trans (ring some)

/-! ## Coverage -/

/-- What a covering record is meant to say: signer and validator find one exactly
for the hashes that no owner has, and then only one. -/
def CoverageMeansAbsence (owners : List Bytes) (nodes : List Nsec3Entry) (records : List Record)
    (hash : Bytes) : Prop :=
  ((∃ node, covering hash nodes = some (some node)) ↔ hash ∉ owners) ∧
    ((nsec3Entries records).any (fun entry => hashCovers entry.1 entry.2 hash) = true ↔
      hash ∉ owners) ∧
    (hash ∉ owners → ∃! entry, entry ∈ nsec3Entries records ∧
      hashCovers entry.1 entry.2 hash = true)

theorem covered_unique {owners : List Bytes} (some : owners ≠ [])
    (sorted : owners.Pairwise (· < ·)) (hash : Bytes) :
    ∃! link, link ∈ links owners ∧ hashCovers link.1 link.2 hash = true := by
  obtain ⟨link, known, only⟩ := follows_unique some sorted hash
  refine ⟨link, ⟨known.1, (hashCovers_iff _ _ _).mpr known.2⟩, fun other claim => ?_⟩
  exact only other ⟨claim.1, (hashCovers_iff _ _ _).mp claim.2⟩

/-- Coverage means absence for the hashes no owner has, and for no other. -/
theorem coverageMeansAbsence_iff {owners : List Bytes} (some : owners ≠ [])
    (sorted : owners.Pairwise (· < ·)) {nodes : List Nsec3Entry} (chained : Chained owners nodes)
    {records : List Record} (read : nsec3Entries records = links owners) (hash : Bytes) :
    CoverageMeansAbsence owners nodes records hash ↔ hash ∉ owners := by
  have unique := covered_unique some sorted hash
  obtain ⟨link, known, _⟩ := unique
  have signer : ∃ node, covering hash nodes = .some (.some node) :=
    (covering_spec hash nodes (links owners) chained).mpr ⟨link, known⟩
  have validator : (nsec3Entries records).any
      (fun entry => hashCovers entry.1 entry.2 hash) = true := by
    rw [read]
    exact List.any_eq_true.mpr ⟨link, known⟩
  constructor
  · intro meaning
    exact meaning.1.mp signer
  · intro absent
    refine ⟨iff_of_true signer absent, iff_of_true validator absent, fun _ => ?_⟩
    rw [read]
    exact covered_unique some sorted hash

def sampleApex : DnsName := ⟨[[116]], by decide⟩

def sampleHost : DnsName := ⟨[[119], [116]], by decide⟩

def sampleChain : Option (List Nsec3Node) :=
  buildChain sampleCrypto sampleApex
    [(sampleApex, [typeSoa]), (sampleHost, [typeA])] ⟨0, []⟩ 300

def unsigned (node : Nsec3Node) : Nsec3Entry := ⟨node.hash, node.record, []⟩

theorem sampleDigest : ∀ data, (sampleCrypto.sha1 data).length ≤ 255 := by
  intro data
  change (data.take 20).length ≤ 255
  rw [List.length_take]
  omega

theorem coverageMeansAbsence_sample :
    ∃ nodes, sampleChain = some nodes ∧
      CoverageMeansAbsence (nodes.map Nsec3Node.hash) (nodes.map unsigned)
        (nodes.map Nsec3Node.record) [0] := by
  have checked : (sampleChain.any fun nodes => !(nodes.map Nsec3Node.hash).contains [0] &&
      !nodes.isEmpty) = true := by decide +kernel
  cases built : sampleChain with
  | none =>
    rw [built] at checked
    cases checked
  | some nodes =>
    rw [built] at checked
    obtain ⟨absent, filled⟩ := Bool.and_eq_true_iff.mp checked
    obtain ⟨sorted, chained, read⟩ := buildChain_chained built (by decide) sampleDigest fun _ => []
    refine ⟨nodes, rfl, (coverageMeansAbsence_iff ?_ sorted chained read [0]).mpr ?_⟩
    · simpa using filled
    · simpa using absent

/-- The hash of an existing name is covered. -/
theorem sampleApex_covered :
    ∃ nodes, sampleChain = some nodes ∧
      hashName sampleCrypto sampleApex ⟨0, []⟩ ∈ nodes.map Nsec3Node.hash ∧
      ¬ CoverageMeansAbsence (nodes.map Nsec3Node.hash) (nodes.map unsigned)
        (nodes.map Nsec3Node.record) (hashName sampleCrypto sampleApex ⟨0, []⟩) := by
  have checked : (sampleChain.any fun nodes =>
      (nodes.map Nsec3Node.hash).contains (hashName sampleCrypto sampleApex ⟨0, []⟩) &&
        (nsec3Entries (nodes.map Nsec3Node.record)).any fun entry =>
          hashCovers entry.1 entry.2 (hashName sampleCrypto sampleApex ⟨0, []⟩)) = true := by
    decide +kernel
  cases built : sampleChain with
  | none =>
    rw [built] at checked
    cases checked
  | some nodes =>
    rw [built] at checked
    obtain ⟨present, covered⟩ := Bool.and_eq_true_iff.mp checked
    have member := List.contains_iff_mem.mp present
    exact ⟨nodes, rfl, member, fun meaning => meaning.2.1.mp covered member⟩

end Rdns.Dnssec
