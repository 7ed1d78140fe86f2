import Rdns.Dnssec.NsecDenial

/-!
# Replayed NSEC records

Which absences the genuine NSEC records of a zone can be made to prove.  A gap of
the chain holds no owner, so that an owner is only denied types by its own record;
every other name lies in some gap, whether a wildcard answers for it or not, and a
bitmap denies every type it does not list, whether a CNAME answers for it or not.
-/

set_option autoImplicit false

namespace Rdns.Dnssec

open Rdns.Lib Rdns.Proto Rdns.Zones Rdns.Resolver

/-! ## What one record proves -/

/-- A record that proves an absence is the name's own and does not list the type, or
it has the name strictly in its gap. -/
theorem nsecProves_iff (qname : DnsName) (qtype : UInt16) (records : List Record) :
    nsecProves qname qtype records = true ↔
      ∃ record ∈ records, ∃ next types,
        (unknownData record).bind parseNsec = some (next, types) ∧
          (record.name = qname ∧ qtype ∉ types ∨
            record.name ≠ qname ∧
              Within (canonKey record.name) (canonKey next) (canonKey qname)) := by
  unfold nsecProves
  rw [List.any_eq_true]
  refine exists_congr fun record => and_congr_right fun _ => ?_
  cases read : (unknownData record).bind parseNsec with
  | none => simp
  | some pair =>
    obtain ⟨next, types⟩ := pair
    dsimp only
    by_cases owner : record.name = qname
    · simp [owner]
    · rw [if_neg owner]
      have gap : (if canonKey record.name < canonKey next then
            decide (canonKey record.name < canonKey qname ∧ canonKey qname < canonKey next)
          else decide (canonKey record.name < canonKey qname ∨ canonKey qname < canonKey next)) =
            true ↔ Within (canonKey record.name) (canonKey next) (canonKey qname) := by
        by_cases ordered : canonKey record.name < canonKey next
        · rw [if_pos ordered, decide_eq_true_iff]
          exact ⟨fun inside => ⟨fun _ => inside, fun wraps => absurd ordered wraps⟩,
            fun within => within.1 ordered⟩
        · rw [if_neg ordered, decide_eq_true_iff]
          exact ⟨fun outside => ⟨fun up => absurd up ordered, fun _ => outside⟩,
            fun within => within.2 ordered⟩
      rw [gap]
      simp [owner]

/-! ## The records of a zone -/

section Zone

variable (zone : Zone)

def publishedTypes (owner : DnsName) : List UInt16 :=
  parseTypeBitmap (bitmapField (SignedZone.sortedTypes
    (SignedZone.typesAt (SignedZone.groupsOf zone none) zone.origin owner ++ [typeNsec])))

def Listed (qname : DnsName) (qtype : UInt16) : Prop :=
  (∃ record ∈ zone.allRecords, record.name = qname) ∧ qtype ∈ publishedTypes zone qname

theorem mem_ownersOf_allRecords (name : DnsName) :
    name ∈ SignedZone.ownersOf (SignedZone.groupsOf zone none) ↔
      ∃ record ∈ zone.allRecords, record.name = name := by
  rw [SignedZone.mem_ownersOf]
  constructor
  · rintro ⟨rtype, listed⟩
    obtain ⟨record, member, same⟩ := (SignedZone.mem_keys_groupsOf zone _).mp listed
    exact ⟨record, member, congrArg Prod.fst same⟩
  · rintro ⟨record, member, rfl⟩
    exact ⟨record.rtype, (SignedZone.mem_keys_groupsOf zone _).mpr ⟨record, member, rfl⟩⟩

/-- As long as one window holds the types, those listed are the types of the owner's
records and those the signer adds. -/
theorem mem_publishedTypes (small : ∀ record ∈ zone.allRecords, record.rtype.toNat < 2040)
    (owner : DnsName) (qtype : UInt16) :
    qtype ∈ publishedTypes zone owner ↔
      (∃ record ∈ zone.allRecords, record.name = owner ∧ record.rtype = qtype) ∨
        qtype = typeRrsig ∨ (owner = zone.origin ∧ qtype = typeDnskey) ∨ qtype = typeNsec := by
  have written : ∀ rtype, rtype ∈ SignedZone.sortedTypes
      (SignedZone.typesAt (SignedZone.groupsOf zone none) zone.origin owner ++ [typeNsec]) ↔
      (∃ record ∈ zone.allRecords, record.name = owner ∧ record.rtype = rtype) ∨
        rtype = typeRrsig ∨ (owner = zone.origin ∧ rtype = typeDnskey) ∨ rtype = typeNsec := by
    intro rtype
    have own : rtype ∈ ((SignedZone.groupsOf zone none).keys.filter fun key =>
        key.1 = owner).map Prod.snd ↔
          ∃ record ∈ zone.allRecords, record.name = owner ∧ record.rtype = rtype := by
      simp only [List.mem_map, List.mem_filter, SignedZone.mem_keys_groupsOf, decide_eq_true_eq]
      constructor
      · rintro ⟨key, ⟨⟨record, member, rfl⟩, named⟩, typed⟩
        exact ⟨record, member, named, typed⟩
      · rintro ⟨record, member, named, typed⟩
        exact ⟨(record.name, record.rtype), ⟨⟨record, member, rfl⟩, named⟩, typed⟩
    have apex : rtype ∈ (if owner = zone.origin then [typeDnskey] else []) ↔
        owner = zone.origin ∧ rtype = typeDnskey := by
      split <;> simp_all
    rw [SignedZone.sortedTypes, mem_dedup, List.mem_insertionSort, SignedZone.typesAt,
      List.mem_append, List.mem_append, List.mem_append, own, apex, List.mem_singleton,
      List.mem_singleton, or_assoc, or_assoc]
  rw [publishedTypes, mem_parseTypeBitmap, written]
  intro rtype listed
  rcases (written rtype).mp listed with ⟨record, member, _, rfl⟩ | rfl | ⟨_, rfl⟩ | rfl
  · exact small record member
  · decide
  · decide
  · decide

end Zone

/-! ## Replay -/

section Replay

variable {zone : Zone} {chain : List NsecEntry}
  (view : chain.map chainView =
    (links (SignedZone.ownersOf (SignedZone.groupsOf zone none))).map (chainEntry zone))
  (lowercase : ∀ record ∈ zone.allRecords, record.name.Lowercase)

include view in
theorem mem_chain_records (record : Record) :
    record ∈ chain.map NsecEntry.record ↔
      ∃ link ∈ links (SignedZone.ownersOf (SignedZone.groupsOf zone none)),
        SignedZone.nsecRecord zone (SignedZone.groupsOf zone none) link.1 link.2 = record := by
  have records : chain.map NsecEntry.record =
      (links (SignedZone.ownersOf (SignedZone.groupsOf zone none))).map fun link =>
        SignedZone.nsecRecord zone (SignedZone.groupsOf zone none) link.1 link.2 := by
    have seconds := congrArg (List.map Prod.snd) view
    rw [List.map_map, List.map_map] at seconds
    exact seconds
  rw [records, List.mem_map]

include view lowercase

/-- No sub-list of the chain proves the absence of what is listed, and some sub-list
proves every other absence. -/
theorem replay_fails_iff (qname : DnsName) (qtype : UInt16) :
    (∀ records : List Record, records.Sublist (chain.map NsecEntry.record) →
      nsecProves qname qtype records = false) ↔ Listed zone qname qtype := by
  have strict := SignedZone.ownersOf_strict (SignedZone.groupsOf zone none)
  have keys : ((SignedZone.ownersOf (SignedZone.groupsOf zone none)).map canonicalKey).Pairwise
      (· < ·) := List.pairwise_map.mpr strict
  have lowerNext : ∀ link ∈ links (SignedZone.ownersOf (SignedZone.groupsOf zone none)),
      link.2.Lowercase := by
    intro link linked
    have target := List.mem_rotate.mp (List.of_mem_zip linked).2
    obtain ⟨record, member, named⟩ := (mem_ownersOf_allRecords zone link.2).mp target
    rw [← named]
    exact lowercase record member
  constructor
  · intro fails
    have single : ∀ link ∈ links (SignedZone.ownersOf (SignedZone.groupsOf zone none)),
        nsecProves qname qtype
          [SignedZone.nsecRecord zone (SignedZone.groupsOf zone none) link.1 link.2] = false :=
      fun link linked => fails _ (List.singleton_sublist.mpr
        ((mem_chain_records view _).mpr ⟨link, linked, rfl⟩))
    have owned : qname ∈ SignedZone.ownersOf (SignedZone.groupsOf zone none) := by
      by_contra absent
      -- the gap around a name that is no owner
      obtain ⟨_, link, _, _, linked, encloses⟩ :=
        search_chain (owners_ne_nil zone) strict (fun _ => rfl) view qname
      have source := (List.of_mem_zip linked).1
      have proves : nsecProves qname qtype
          [SignedZone.nsecRecord zone (SignedZone.groupsOf zone none) link.1 link.2] = true :=
        nsecProves_of_encloses List.mem_cons_self (fun same => absent (same ▸ source))
          (lowerNext link linked) encloses
      rw [single link linked] at proves
      cases proves
    refine ⟨(mem_ownersOf_allRecords zone qname).mp owned, ?_⟩
    by_contra missing
    have linked : ∃ next, (qname, next) ∈
        links (SignedZone.ownersOf (SignedZone.groupsOf zone none)) := by
      have firsts : (links (SignedZone.ownersOf (SignedZone.groupsOf zone none))).map Prod.fst =
          SignedZone.ownersOf (SignedZone.groupsOf zone none) :=
        List.map_fst_zip (by rw [List.length_rotate])
      rw [← firsts] at owned
      obtain ⟨link, member, rfl⟩ := List.mem_map.mp owned
      exact ⟨link.2, member⟩
    obtain ⟨next, linked⟩ := linked
    have proves := (nsecProves_iff qname qtype
      [SignedZone.nsecRecord zone (SignedZone.groupsOf zone none) qname next]).mpr
      ⟨_, List.mem_cons_self, _, _, nsecRecord_read qname next (lowerNext _ linked),
        Or.inl ⟨rfl, missing⟩⟩
    rw [single _ linked] at proves
    cases proves
  · rintro ⟨owned, listed⟩ records sublist
    rw [← Bool.not_eq_true, nsecProves_iff]
    rintro ⟨record, member, next, types, read, proof⟩
    obtain ⟨link, linked, rfl⟩ := (mem_chain_records view record).mp (sublist.subset member)
    rw [nsecRecord_read link.1 link.2 (lowerNext link linked)] at read
    cases read
    rcases proof with ⟨owner, missing⟩ | ⟨_, within⟩
    · have same : link.1 = qname := owner
      rw [same] at missing
      exact missing listed
    · have inside : Prod.map canonicalKey canonicalKey link ∈
          links ((SignedZone.ownersOf (SignedZone.groupsOf zone none)).map canonicalKey) := by
        rw [links_map]
        exact List.mem_map_of_mem linked
      exact not_within_of_mem keys
        (List.mem_map_of_mem ((mem_ownersOf_allRecords zone qname).mpr owned)) inside within

end Replay

def Answered (zone : Zone) (qname : DnsName) (qtype : UInt16) : Prop :=
  qname.endsWith zone.origin = true ∧
    ∃ result, zone.lookup qname qtype = some result ∧ result.answers ≠ []

def ReplaySound (zone : Zone) (chain : List NsecEntry) (qname : DnsName) (qtype : UInt16) : Prop :=
  Answered zone qname qtype →
    ∀ records : List Record, records.Sublist (chain.map NsecEntry.record) →
      nsecProves qname qtype records = false

/-- Safe from replay is what is answered from the bitmap of its own name. -/
theorem replaySound_iff (crypto : Crypto) {zone : Zone}
    (lowercase : ∀ record ∈ zone.allRecords, record.name.Lowercase) (keys : List DnssecKey)
    (now validitySecs : UInt64) {signed : SignedZone} {chain : List NsecEntry}
    (done : SignedZone.sign crypto zone keys now validitySecs none = some signed)
    (denial : signed.denial = .nsec chain) (qname : DnsName) (qtype : UInt16) :
    ReplaySound zone chain qname qtype ↔ (Answered zone qname qtype → Listed zone qname qtype) := by
  obtain ⟨signed', chain', done', denial', view⟩ := sign_nsec crypto zone keys now validitySecs
  obtain rfl : signed' = signed := Option.some.inj (done'.symm.trans done)
  obtain rfl : chain' = chain := Denial.nsec.inj (denial'.symm.trans denial)
  exact imp_congr_right fun _ => replay_fails_iff view lowercase qname qtype

theorem replaySound_shell :
    ∃ signed chain,
      SignedZone.sign sampleCrypto shell [sampleKey apexName] 1700000000 1209600 none =
        some signed ∧
        signed.denial = .nsec chain ∧ Answered shell apexName typeSoa ∧
        ReplaySound shell chain apexName typeSoa := by
  obtain ⟨signed, chain, done, denial, _⟩ :=
    sign_nsec sampleCrypto shell [sampleKey apexName] 1700000000 1209600
  have only : shell.allRecords = [apexSoa] := rfl
  have lowercase : ∀ record ∈ shell.allRecords, record.name.Lowercase := by
    rw [only]
    exact List.forall_mem_singleton.mpr (by decide)
  have small : ∀ record ∈ shell.allRecords, record.rtype.toNat < 2040 := by
    rw [only]
    exact List.forall_mem_singleton.mpr (by decide)
  have held : apexSoa ∈ shell.allRecords := by
    rw [only]
    exact List.mem_singleton_self _
  refine ⟨signed, chain, done, denial, ⟨rfl, _, rfl, List.cons_ne_nil _ _⟩, ?_⟩
  refine (replaySound_iff sampleCrypto lowercase _ _ _ done denial apexName typeSoa).mpr fun _ => ?_
  exact ⟨⟨apexSoa, held, rfl⟩,
    (mem_publishedTypes shell small apexName typeSoa).mpr (Or.inl ⟨apexSoa, held, rfl, rfl⟩)⟩

def starAddress : Record :=
  { name := ⟨[42] :: apexName.labels, by decide⟩, class_ := classIn, ttl := 60
    rdata := .a (.new 10 0 0 1) }

def starred : Zone :=
  ⟨apexName, apexSoa, 2,
    (HashMap.empty.insert apexName [apexSoa]).insert starAddress.name [starAddress]⟩

def drawnName : DnsName := ⟨[119] :: apexName.labels, by decide⟩

/-- The address of a name drawn from a wildcard is denied by the record of the gap
the name lies in. -/
theorem starred_replayed :
    ∃ signed chain,
      SignedZone.sign sampleCrypto starred [sampleKey apexName] 1700000000 1209600 none =
          some signed ∧
        signed.denial = .nsec chain ∧ Answered starred drawnName typeA ∧
        ¬ ReplaySound starred chain drawnName typeA := by
  obtain ⟨signed, chain, done, denial, view⟩ :=
    sign_nsec sampleCrypto starred [sampleKey apexName] 1700000000 1209600
  have all : starred.allRecords = [apexSoa, starAddress] := rfl
  have answered : Answered starred drawnName typeA :=
    ⟨rfl, _, rfl, List.cons_ne_nil _ _⟩
  have lowercase : ∀ record ∈ starred.allRecords, record.name.Lowercase := by
    rw [all]
    exact List.forall_mem_cons.mpr ⟨by decide, List.forall_mem_singleton.mpr (by decide)⟩
  refine ⟨signed, chain, done, denial, answered, fun sound => ?_⟩
  obtain ⟨⟨record, member, named⟩, _⟩ :=
    (replay_fails_iff view lowercase drawnName typeA).mp (sound answered)
  rw [all] at member
  have apart : ∀ record ∈ [apexSoa, starAddress], record.name ≠ drawnName :=
    List.forall_mem_cons.mpr ⟨by decide, List.forall_mem_singleton.mpr (by decide)⟩
  exact apart record member named

end Rdns.Dnssec
