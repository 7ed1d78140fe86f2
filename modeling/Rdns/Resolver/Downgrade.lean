import Rdns.Dnssec.Nsec3Chain

/-!
# Replayed denial records at a signed delegation

A child zone with a DS has an NSEC3 record of its own in the chain of its parent,
or an NSEC record, with the DS bit set.  `authenticated_no_ds` is asked about it
over any selection of the parent's own records.  The opt-out branch uses the range
test that includes the next hash, so the record before the child's, replayed with
the opt-out flag, passes for a proof that there is no DS.
-/

set_option autoImplicit false

namespace Rdns.Resolver

open Rdns.Lib Rdns.Proto Rdns.Dnssec

/-- The NSEC3 records of a zone: one set of parameters, and owner hashes linked
into a sorted ring. -/
structure HashRing (params : Nsec3Params) (owners : List Bytes) (chain : List Record) : Prop where
  sorted : owners.Pairwise (· < ·)
  linked : chain.map readEntry = (links owners).map some
  parameters : ∀ record ∈ chain,
    ((unknownData record).bind parseNsec3).map Prod.fst = some params

def nsec3Types (record : Record) : Option (List UInt16) :=
  ((unknownData record).bind parseNsec3).map fun fields => fields.2.2

def nsecTypes (record : Record) : Option (List UInt16) :=
  ((unknownData record).bind parseNsec).map Prod.snd

def optOut (record : Record) : Bool :=
  match unknownData record with
  | some data => decide (data.getD 1 0 &&& 0x01 ≠ 0)
  | none => false

variable (crypto : Crypto)

/-- A child with a DS, in the bitmaps of its parent's NSEC3 and NSEC records. -/
structure SignedDelegation (params : Nsec3Params) (owners : List Bytes)
    (chain nsecs : List Record) (child : DnsName) : Prop where
  present : hashName crypto child params ∈ owners
  hashed : ∀ record ∈ chain, nsec3OwnerHash record.name = some (hashName crypto child params) →
    ∀ types, nsec3Types record = some types → typeDs ∈ types
  plain : ∀ record ∈ nsecs, record.name = child →
    ∀ types, nsecTypes record = some types → typeDs ∈ types

theorem hashCovers_member {owners : List Bytes} (sorted : owners.Pairwise (· < ·)) {hash : Bytes}
    (present : hash ∈ owners) {link : Bytes × Bytes} (member : link ∈ links owners) :
    hashCovers link.1 link.2 hash = true ↔ link.2 = hash := by
  have ends : ∀ owner, hashCovers owner hash hash = true := by
    intro owner
    refine (hashCovers_iff owner hash hash).mpr ⟨fun below => ⟨below, Std.le_refl _⟩, fun _ => ?_⟩
    exact Or.inr (Std.le_refl _)
  constructor
  · intro covers
    obtain ⟨owner, before⟩ := mem_links_of_next present
    obtain ⟨only, _, unique⟩ := covered_unique (List.ne_nil_of_mem present) sorted hash
    have same : link = (owner, hash) :=
      (unique link ⟨member, covers⟩).trans (unique (owner, hash) ⟨before, ends owner⟩).symm
    rw [same]
  · intro last
    rw [last]
    exact ends link.1

theorem nsec3ParamsOf_ring {params : Nsec3Params} {owners : List Bytes} {chain : List Record}
    (ring : HashRing params owners chain) {nsec3 : List Record} (some : nsec3 ≠ [])
    (replayed : ∀ record ∈ nsec3, record ∈ chain) : nsec3ParamsOf nsec3 = .some params :=
  nsec3ParamsOf_eq some fun record member => ring.parameters record (replayed record member)

/-- What the closure over the NSEC3 records asks of one record of the ring. -/
theorem noDs_record {params : Nsec3Params} {owners : List Bytes} {chain nsecs : List Record}
    (ring : HashRing params owners chain) {child : DnsName}
    (signed : SignedDelegation crypto params owners chain nsecs child) {record : Record}
    (member : record ∈ chain) :
    (match nsec3OwnerHash record.name, unknownData record with
      | some owner, some data =>
        match parseNsec3 data with
        | none => false
        | some (_, next, types) =>
          (owner = hashName crypto child params &&
            (types.contains typeNs && !types.contains typeDs)) ||
            (decide (data.getD 1 0 &&& 0x01 ≠ 0) &&
              hashCovers owner next (hashName crypto child params))
      | _, _ => false) = true ↔
      optOut record = true ∧ (readEntry record).map Prod.snd =
        some (hashName crypto child params) := by
  have listed : readEntry record ∈ chain.map readEntry := List.mem_map_of_mem member
  rw [ring.linked] at listed
  obtain ⟨link, linked, read⟩ := List.mem_map.mp listed
  have entry := read.symm
  unfold readEntry at entry
  obtain ⟨owner, named, entry⟩ := Option.bind_eq_some_iff.mp entry
  obtain ⟨fields, parsed, entry⟩ := Option.bind_eq_some_iff.mp entry
  obtain ⟨data, held, parsed⟩ := Option.bind_eq_some_iff.mp parsed
  cases entry
  have covers := hashCovers_member ring.sorted signed.present linked
  have bitmap : owner = hashName crypto child params → typeDs ∈ fields.2.2 := by
    intro own
    refine signed.hashed record member (by rw [named, own]) fields.2.2 ?_
    rw [nsec3Types, held, Option.bind_some, parsed]
    rfl
  rw [named, held]
  dsimp only
  rw [parsed]
  dsimp only at covers ⊢
  have matchedNot : (decide (owner = hashName crypto child params) &&
      (fields.2.2.contains typeNs && !fields.2.2.contains typeDs)) = false := by
    by_cases own : owner = hashName crypto child params
    · have contained := List.contains_iff_mem.mpr (bitmap own)
      rw [contained, Bool.not_true, Bool.and_false, Bool.and_false]
    · rw [decide_eq_false own, Bool.false_and]
  rw [matchedNot, Bool.false_or, Bool.and_eq_true, covers, optOut, held, ← read]
  simp

/-- Replayed records of the parent prove no absence of DS, except for the record
before the child's with the opt-out flag. -/
theorem authenticatedNoDs_eq_false_iff {params : Nsec3Params} {owners : List Bytes}
    {chain nsecs : List Record} (ring : HashRing params owners chain) {child : DnsName}
    (signed : SignedDelegation crypto params owners chain nsecs child) {authority : List Record}
    (replayedNsec3 : ∀ record ∈ ofType typeNsec3 authority, record ∈ chain)
    (replayedNsec : ∀ record ∈ ofType typeNsec authority, record ∈ nsecs) :
    authenticatedNoDs crypto child authority = false ↔
      ∀ record ∈ ofType typeNsec3 authority, optOut record = true →
        (readEntry record).map Prod.snd ≠ some (hashName crypto child params) := by
  have contains : ∀ record ∈ ofType typeNsec authority, record.name = child →
      ∀ types, nsecTypes record = some types → types.contains typeDs = true := by
    intro record member own types listed
    exact List.contains_iff_mem.mpr
      (signed.plain record (replayedNsec record member) own types listed)
  unfold authenticatedNoDs
  dsimp only
  rw [Bool.or_eq_false_iff, and_iff_right]
  swap
  · refine List.any_eq_false.mpr fun record member => ?_
    split
    · exact Bool.false_ne_true
    rename_i next types parsed
    by_cases own : record.name = child
    · rw [contains record member own types (by rw [nsecTypes, parsed]; rfl), Bool.not_true,
        Bool.and_false, Bool.and_false]
      exact Bool.false_ne_true
    · rw [decide_eq_false own, Bool.false_and]
      exact Bool.false_ne_true
  by_cases some : ofType typeNsec3 authority = []
  · rw [some]
    simp [nsec3ParamsOf]
  · rw [nsec3ParamsOf_ring ring some replayedNsec3]
    dsimp only
    rw [List.any_eq_false]
    constructor
    · intro none record member flagged last
      exact none record member
        ((noDs_record crypto ring signed (replayedNsec3 record member)).mpr ⟨flagged, last⟩)
    · intro fine record member accepted
      obtain ⟨flagged, last⟩ :=
        (noDs_record crypto ring signed (replayedNsec3 record member)).mp accepted
      exact fine record member flagged last

def sampleChild : DnsName := sampleHost

def withOptOut (record : Record) : Record :=
  match record.rdata with
  | .unknown rtype data => { record with rdata := .unknown rtype (data.set 1 1) }
  | _ => record

def optOutChain : List Record :=
  ((buildChain sampleCrypto sampleApex
    [(sampleApex, [typeSoa]), (sampleChild, [typeNs, typeDs])] ⟨0, []⟩ 300).getD []).map
      fun node => withOptOut node.record

def optOutOwners : List Bytes :=
  [hashName sampleCrypto sampleApex ⟨0, []⟩, hashName sampleCrypto sampleChild ⟨0, []⟩]

theorem optOutChain_ring : HashRing ⟨0, []⟩ optOutOwners optOutChain :=
  ⟨by decide +kernel, by decide +kernel, by decide +kernel⟩

theorem optOutChain_signed :
    SignedDelegation sampleCrypto ⟨0, []⟩ optOutOwners optOutChain [] sampleChild := by
  refine ⟨List.mem_cons_of_mem _ List.mem_cons_self, ?_, fun record member => nomatch member⟩
  intro record member named types listed
  have bitmaps : ∀ record ∈ optOutChain,
      nsec3OwnerHash record.name = some (hashName sampleCrypto sampleChild ⟨0, []⟩) →
        (nsec3Types record).all (fun types => types.contains typeDs) = true := by decide +kernel
  have contained := bitmaps record member named
  rw [listed] at contained
  exact List.contains_iff_mem.mp contained

theorem authenticatedNoDs_eq_false_own :
    authenticatedNoDs sampleCrypto sampleChild (optOutChain.drop 1) = false := by
  refine (authenticatedNoDs_eq_false_iff sampleCrypto optOutChain_ring optOutChain_signed
    ?_ ?_).mpr (by decide +kernel)
  · intro record member
    exact List.mem_of_mem_drop (List.mem_filter.mp member).1
  · have none : ofType typeNsec (optOutChain.drop 1) = [] := by decide +kernel
    rw [none]
    intro record member
    cases member

/-- The apex record alone, replayed, strips the DS of the child. -/
theorem sampleChild_downgraded :
    HashRing ⟨0, []⟩ optOutOwners optOutChain ∧
      SignedDelegation sampleCrypto ⟨0, []⟩ optOutOwners optOutChain [] sampleChild ∧
      (∀ record ∈ optOutChain.take 1, record ∈ optOutChain) ∧
      authenticatedNoDs sampleCrypto sampleChild (optOutChain.take 1) = true :=
  ⟨optOutChain_ring, optOutChain_signed, fun _ member => List.mem_of_mem_take member,
    by decide +kernel⟩

end Rdns.Resolver
