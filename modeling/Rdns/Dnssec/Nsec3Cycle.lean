import Rdns.Dnssec.Nsec3Denial

/-!
# The NSEC3 chain as a cycle

`build_chain` of dns-dnssec read back by the validator of dns-resolver: for an apex
that leaves room for the label of a hash no owner name fails to parse, and node after
node the records spell the hashes of the owners, each with the next one, around to the
first.
-/

set_option autoImplicit false

namespace Rdns.Dnssec

open Rdns.Lib Rdns.Proto Rdns.Resolver

/-! ## The label of a hash -/

theorem digitsLabel_nil : digitsLabel [] = [] := rfl

theorem base32hexDrain_spec (buf : UInt32) (bits : Nat) (rest : List Char) :
    (digitsLabel ((base32hexDrain buf bits).1 ++ rest)).length =
        bits / 5 + (digitsLabel rest).length ∧
      (base32hexDrain buf bits).2 = bits % 5 := by
  fun_induction base32hexDrain buf bits with
  | case1 bits digits left shape ih =>
    rw [shape] at ih
    obtain ⟨length, remainder⟩ := ih
    refine ⟨?_, ?_⟩
    · rw [List.cons_append, digitsLabel_cons, List.length_cons, length]
      omega
    · dsimp only at remainder ⊢
      rw [remainder]
      omega
  | case2 bits small =>
    have few : bits < 5 := by
      by_contra many
      exact small (bits - 5) (by omega)
    rw [Nat.div_eq_of_lt few, Nat.mod_eq_of_lt few, Nat.zero_add]
    exact ⟨rfl, rfl⟩

theorem base32hexEncode_length : ∀ (data : Bytes) (buf : UInt32) (bits : Nat), bits < 5 →
    (digitsLabel (base32hexEncode data buf bits)).length = (8 * data.length + bits + 4) / 5 := by
  intro data
  induction data with
  | nil =>
    intro buf bits few
    rw [base32hexEncode]
    split
    · rw [digitsLabel_cons, List.length_cons, digitsLabel_nil, List.length_nil]
      omega
    · rw [digitsLabel_nil, List.length_nil]
      omega
  | cons octet rest ih =>
    intro buf bits few
    obtain ⟨length, remainder⟩ := base32hexDrain_spec ((buf <<< 8) ||| octet.toUInt32) (bits + 8)
      (base32hexEncode rest ((buf <<< 8) ||| octet.toUInt32)
        (base32hexDrain ((buf <<< 8) ||| octet.toUInt32) (bits + 8)).2)
    rw [base32hexEncode]
    dsimp only
    rw [length, remainder, ih _ _ (Nat.mod_lt _ (by omega)), List.length_cons]
    omega

theorem base32hex_length {hash : Bytes} (whole : hash.length = 20) :
    (lowerLabel (utf8 (base32hex hash).toList)).length = 32 := by
  have length := base32hexEncode_length hash 0 0 (by omega)
  rw [whole] at length
  rw [base32hex, String.toList_ofList]
  exact length

/-! ## The owner names -/

section Owner

variable {apex : DnsName} (named : apex ≠ DnsName.root) (room : apex.wireLen ≤ 222)
  (printable : ∀ label ∈ apex.labels, DnsName.PrintableLabel label)

include room in
theorem ownerLabels_valid {hash : Bytes} (whole : hash.length = 20) :
    ValidLabels (lowerLabel (utf8 (base32hex hash).toList) :: apex.labels.map lowerLabel) := by
  have first := base32hex_length whole
  have lowered := (validLabels_lower apex.labels).mpr apex.valid
  refine ⟨?_, ?_⟩
  · refine List.forall_mem_cons.mpr ⟨?_, lowered.1⟩
    unfold ValidLabel
    rw [first]
    decide
  · have size : labelsLen apex.labels + 1 ≤ 222 := room
    rw [labelsLen_cons, first, labelsLen_lower]
    unfold maxNameWireLen
    omega

include named room printable

theorem nsec3Node_made {hash : Bytes} (whole : hash.length = 20) (params : Nsec3Params)
    (ttl : UInt32) (types : List UInt16) (next : Bytes) :
    ∃ node, nsec3Node apex params ttl hash types next = some node ∧
      node.owner.labels = lowerLabel (utf8 (base32hex hash).toList) :: apex.labels.map lowerLabel ∧
      node.record.name = node.owner := by
  have filled : apex.labels ≠ [] := fun empty => named (DnsName.ext empty)
  have plain : ∀ label ∈ apex.labels, 46 ∉ label := by
    intro label member dot
    exact (printable label member 46 dot).2.2 rfl
  have spelling : apex.labels.map DnsName.spelled = apex.labels.map lowerLabel :=
    List.map_congr_left fun label member => DnsName.spelled_of_printable (printable label member)
  have text : base32hex hash ++ "." ++ apex.display =
      String.ofList ((base32hex hash).toList ++ '.' :: apex.displayChars) := by
    apply String.toList_inj.mp
    simp [DnsName.display]
  have parsed : DnsName.parseStr (base32hex hash ++ "." ++ apex.display) =
      .ok ⟨_, ownerLabels_valid room whole⟩ := by
    rw [text]
    exact DnsName.parseStr_below (digit_not_dot hash) filled plain (by rw [spelling])
  have made : nsec3Node apex params ttl hash types next =
      some ⟨hash, ⟨_, ownerLabels_valid room whole⟩,
        ⟨⟨_, ownerLabels_valid room whole⟩, classIn, ttl,
          .unknown typeNsec3 (nsec3Rdata params next types)⟩⟩ := by
    rw [nsec3Node, parsed]
  exact ⟨_, made, rfl, rfl⟩

end Owner

/-! ## The cycle -/

structure LinksTo (apex : DnsName) (params : Nsec3Params) (node next : Nsec3Node) : Prop where
  owned : node.record.name = node.owner
  /-- One label in front of the apex, which is stored in lower case. -/
  below : node.owner.labels.tail = apex.labels.map lowerLabel
  parent : apex.labels.map lowerLabel = apex.labels → node.owner.parent = some apex
  hash : nsec3OwnerHash node.owner = some node.hash
  read : ∃ types, (unknownData node.record).bind parseNsec3 = some (params, next.hash, types)

section Cycle

variable {crypto : Crypto} (digest : ∀ data, (crypto.sha1 data).length = 20)
  {apex : DnsName} (named : apex ≠ DnsName.root) (room : apex.wireLen ≤ 222)
  (printable : ∀ label ∈ apex.labels, DnsName.PrintableLabel label)
  {ownerTypes : List (DnsName × List UInt16)} {params : Nsec3Params} {ttl : UInt32}

include digest in
theorem hashedOwners_whole {entry : Bytes × List UInt16}
    (member : entry ∈ hashedOwners crypto ownerTypes params) : entry.1.length = 20 := by
  obtain ⟨name, value⟩ := mem_hashedOwners member
  rw [value]
  exact hashName_digest (·.length = 20) digest name params

include digest named room printable

theorem link_made {link : (Bytes × List UInt16) × Bytes × List UInt16}
    (member : link ∈ links (hashedOwners crypto ownerTypes params)) :
    ∃ node, nsec3Node apex params ttl link.1.1 link.1.2 link.2.1 = some node ∧
      node.owner.labels =
        lowerLabel (utf8 (base32hex link.1.1).toList) :: apex.labels.map lowerLabel ∧
      node.record.name = node.owner :=
  nsec3Node_made named room printable
    (hashedOwners_whole digest (List.of_mem_zip member).1) params ttl link.1.2 link.2.1

theorem buildChain_returns :
    ∃ nodes, buildChain crypto apex ownerTypes params ttl = some nodes ∧
      nodes.length = (hashedOwners crypto ownerTypes params).length := by
  have each : ∀ link ∈ links (hashedOwners crypto ownerTypes params),
      ∃ node, nsec3Node apex params ttl link.1.1 link.1.2 link.2.1 = some node ∧ () = () := by
    intro link member
    obtain ⟨node, made, _⟩ := link_made digest named room printable member
    exact ⟨node, made, rfl⟩
  obtain ⟨nodes, built, views⟩ := mapM_some _ (fun _ : Nsec3Node => ()) (fun _ => ()) _ each
  have count := congrArg List.length views
  rw [List.length_map, List.length_map, links, List.length_zip, List.length_rotate,
    Nat.min_self] at count
  exact ⟨nodes, built, count⟩

theorem LinksTo.of_made (short : params.salt.length ≤ 255)
    {link : (Bytes × List UInt16) × Bytes × List UInt16} {node next : Nsec3Node}
    (member : link ∈ links (hashedOwners crypto ownerTypes params))
    (made : nsec3Node apex params ttl link.1.1 link.1.2 link.2.1 = some node)
    (follows : next.hash = link.2.1) : LinksTo apex params node next := by
  obtain ⟨_, same, labels, owned⟩ := link_made digest named room printable member
  rw [made] at same
  cases same
  obtain ⟨hash, decoded, rdata⟩ := nsec3Node_owner made
  have whole := hashedOwners_whole digest (List.mem_rotate.mp (List.of_mem_zip member).2)
  refine ⟨owned, ?_, fun lowercase => ?_, ?_, ?_⟩
  · rw [labels]
    rfl
  · rw [lowercase] at labels
    rw [DnsName.parent, if_neg (by rw [labels]; exact Bool.false_ne_true)]
    refine congrArg some (DnsName.ext ?_)
    change node.owner.labels.drop 1 = apex.labels
    rw [labels]
    rfl
  · rw [← owned, decoded, hash]
  · refine ⟨parseTypeBitmap (bitmapField link.1.2), ?_⟩
    rw [unknownData, rdata, Option.bind_some, follows]
    exact parseNsec3_nsec3Rdata params link.2.1 link.1.2 short (by omega)

end Cycle

/-- The chain is one cycle of owners that decode to their hashes. -/
theorem buildChain_cycle {crypto : Crypto} (digest : ∀ data, (crypto.sha1 data).length = 20)
    {apex : DnsName} (named : apex ≠ DnsName.root) (room : apex.wireLen ≤ 222)
    (printable : ∀ label ∈ apex.labels, DnsName.PrintableLabel label)
    (ownerTypes : List (DnsName × List UInt16)) {params : Nsec3Params}
    (short : params.salt.length ≤ 255) (ttl : UInt32) :
    ∃ nodes, buildChain crypto apex ownerTypes params ttl = some nodes ∧
      (nodes.map Nsec3Node.hash).Pairwise (· < ·) ∧
      (∀ hash, hash ∈ nodes.map Nsec3Node.hash ↔
        ∃ owner ∈ ownerTypes, hashName crypto owner.1 params = hash) ∧
      ∀ i node, nodes[i]? = some node →
        ∃ next, nodes[(i + 1) % nodes.length]? = some next ∧ LinksTo apex params node next := by
  obtain ⟨nodes, built, count⟩ := buildChain_returns digest named room printable
  have fits : ∀ data, (crypto.sha1 data).length ≤ 255 := by
    intro data
    rw [digest data]
    omega
  refine ⟨nodes, built, (buildChain_chained built short fits fun _ => []).1, ?_, ?_⟩
  · intro hash
    constructor
    · intro member
      obtain ⟨node, held, rfl⟩ := List.mem_map.mp member
      obtain ⟨_, _, owner, listed, _, value, _⟩ := buildChain_read built short fits held
      exact ⟨owner, listed, value.symm⟩
    · rintro ⟨owner, listed, rfl⟩
      obtain ⟨node, held, value⟩ := buildChain_owner built listed
      exact List.mem_map.mpr ⟨node, held, value⟩
  · intro i node found
    have place := getElem?_of_mapM built
    rw [place i] at found
    obtain ⟨link, linked, made⟩ := Option.bind_eq_some_iff.mp found
    obtain ⟨own, follows⟩ := getElem?_links linked
    -- the place after it, around the end, has the link of the next hash
    obtain ⟨second, linked'⟩ := exists_link follows
    obtain ⟨next, made', _⟩ := link_made digest named room printable (List.mem_of_getElem? linked')
    refine ⟨next, ?_, ?_⟩
    · rw [count, place, linked']
      exact made'
    · exact LinksTo.of_made digest named room printable short (List.mem_of_getElem? linked) made
        (nsec3Node_owner made').1

def paddedCrypto : Crypto :=
  { sampleCrypto with sha1 := fun data => (data ++ List.replicate 20 0).take 20 }

theorem paddedCrypto_digest (data : Bytes) : (paddedCrypto.sha1 data).length = 20 := by
  change ((data ++ List.replicate 20 0).take 20).length = 20
  simp

theorem buildChain_cycle_sample :
    ∃ nodes, buildChain paddedCrypto sampleApex [(sampleApex, [typeSoa]), (sampleHost, [typeA])]
        ⟨1, [7]⟩ 300 = some nodes ∧
      ∀ i node, nodes[i]? = some node →
        ∃ next, nodes[(i + 1) % nodes.length]? = some next ∧
          LinksTo sampleApex ⟨1, [7]⟩ node next := by
  have printable : ∀ label ∈ sampleApex.labels, DnsName.PrintableLabel label := by
    unfold DnsName.PrintableLabel
    decide +kernel
  obtain ⟨nodes, built, _, _, cycle⟩ := buildChain_cycle paddedCrypto_digest (by decide)
    (by decide) printable [(sampleApex, [typeSoa]), (sampleHost, [typeA])]
    (by decide : (⟨1, [7]⟩ : Nsec3Params).salt.length ≤ 255) 300
  exact ⟨nodes, built, cycle⟩

end Rdns.Dnssec
