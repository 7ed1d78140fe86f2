import Rdns.Resolver.Secure
import Rdns.Resolver.Downgrade

/-!
# What an insecure verdict stands for

`Insecure` should mean that a zone at or above the queried name was shown, with
its parent's keys, to have no DS.  What such a proof is says `DeniesDs`, apart from
the code's own test: one signed record that speaks of the zone, read by its own
parameters.  The verdict has other sources: RRsets without signatures, DNSKEY
replies that fail or hold no key, the depth limit, and the slips of the test.  With
these ruled out by what the message and the replies hold, an insecure verdict rests
on a proof; where nothing but unsigned RRsets and keyless signers is left, it never
does.
-/

set_option autoImplicit false

namespace Rdns.Resolver

open Rdns.Lib Rdns.Proto Rdns.Dnssec

variable (crypto : Crypto) (fetcher : Fetcher) (self : Validator)

variable {msg : Message} {ctx : Ctx} {set : SetKey} {zone top : DnsName} {pending : List DnsName}

/-! ## Proofs that there is no DS -/

/-- What one record says against a DS at the zone: it is the NSEC or the NSEC3 of a
delegation without DS, or an opt-out NSEC3 with the zone's hash strictly inside its
range. -/
inductive DeniesDs (zone : DnsName) (record : Record) : Prop
  | nsec {types : List UInt16} (typed : record.rtype = typeNsec) (own : record.name = zone)
      (listed : nsecTypes record = some types) (cut : typeNs ∈ types) (absent : typeDs ∉ types)
  | nsec3 {params : Nsec3Params} {next : Bytes} {types : List UInt16}
      (typed : record.rtype = typeNsec3)
      (parsed : (unknownData record).bind parseNsec3 = some (params, next, types))
      (own : nsec3OwnerHash record.name = some (hashName crypto zone params))
      (cut : typeNs ∈ types) (absent : typeDs ∉ types)
  | optOut {params : Nsec3Params} {owner next : Bytes} {types : List UInt16}
      (typed : record.rtype = typeNsec3)
      (parsed : (unknownData record).bind parseNsec3 = some (params, next, types))
      (named : nsec3OwnerHash record.name = some owner) (flagged : optOut record = true)
      (inside : Within owner next (hashName crypto zone params))

def SignedBy (keys : List Bytes) (records : List Record) (record : Record) : Prop :=
  ∃ sig ∈ sigsFor records (record.name, record.rtype), ∃ key ∈ keys,
    verifyRrsig crypto (rrsetOf records (record.name, record.rtype)) sig key = true

/-- In the walk that led to `ctx`, the zone was judged insecure on a reply to its DS
question that has no DS, and in which a record signed by the validated keys of the
parent denies it. -/
def NoDsProof (ctx : Ctx) (zone : DnsName) : Prop :=
  ctx.keys.get? zone = some none ∧ ∃ parent keys earlier reply,
    zone.parent = some parent ∧ ctx.keys.get? parent = some (some keys) ∧
    ((zone, typeDs) :: earlier) <:+ ctx.asked ∧ fetcher earlier zone typeDs = .ok reply ∧
    ofType typeDs reply.answers = [] ∧ ∃ record ∈ reply.authorities,
      SignedBy crypto keys reply.authorities record ∧ DeniesDs crypto zone record

/-- The NSEC3 records share their parameters, and no opt-out range ends at the zone. -/
structure Proper (zone : DnsName) (authority : List Record) : Prop where
  shared : ∀ record ∈ ofType typeNsec3 authority, ∀ other ∈ ofType typeNsec3 authority,
    ∀ fields fields', (unknownData record).bind parseNsec3 = some fields →
      (unknownData other).bind parseNsec3 = some fields' → fields.1 = fields'.1
  apart : ∀ record ∈ ofType typeNsec3 authority, optOut record = true →
    ∀ fields, (unknownData record).bind parseNsec3 = some fields →
      hashName crypto zone fields.1 ≠ fields.2.1

variable {crypto} in
theorem signedBy_of_authority {authority : List Record} {keys : List Bytes}
    (signed : authoritySignedBy crypto authority keys = true) {record : Record}
    (member : record ∈ authority) (kind : record.rtype = typeNsec ∨ record.rtype = typeNsec3) :
    SignedBy crypto keys authority record := by
  simp only [authoritySignedBy, Bool.and_eq_true, List.all_eq_true, List.any_eq_true] at signed
  refine signed.2 _ ((mem_setsOf _ _).mpr ⟨record, List.mem_filter.mpr ⟨member, ?_⟩, rfl⟩)
  exact decide_eq_true kind

theorem cut_iff (types : List UInt16) :
    (types.contains typeNs && !types.contains typeDs) = true ↔ typeNs ∈ types ∧ typeDs ∉ types := by
  simp

variable {crypto} in
theorem deniesDs_of_test {authority : List Record} (proper : Proper crypto zone authority)
    (test : authenticatedNoDs crypto zone authority = true) :
    ∃ record ∈ authority, (record.rtype = typeNsec ∨ record.rtype = typeNsec3) ∧
      DeniesDs crypto zone record := by
  have typed : ∀ {rtype record}, record ∈ ofType rtype authority →
      record ∈ authority ∧ record.rtype = rtype := by
    intro rtype record member
    simpa [ofType] using member
  simp only [authenticatedNoDs, Bool.or_eq_true] at test
  rcases test with byNsec | byNsec3
  · obtain ⟨record, member, said⟩ := List.any_eq_true.mp byNsec
    obtain ⟨inside, kind⟩ := typed member
    cases parsed : (unknownData record).bind parseNsec with
    | none => simp [parsed] at said
    | some fields =>
      rw [parsed] at said
      obtain ⟨own, cut⟩ := Bool.and_eq_true_iff.mp said
      obtain ⟨cut, absent⟩ := (cut_iff _).mp cut
      have own := of_decide_eq_true own
      exact ⟨record, inside, .inl kind, .nsec kind own (by rw [nsecTypes, parsed]; rfl) cut absent⟩
  · cases found : nsec3ParamsOf (ofType typeNsec3 authority) with
    | none => simp [found] at byNsec3
    | some params =>
      rw [found] at byNsec3
      obtain ⟨record, member, said⟩ := List.any_eq_true.mp byNsec3
      obtain ⟨inside, kind⟩ := typed member
      refine ⟨record, inside, .inr kind, ?_⟩
      obtain ⟨first, listed, read⟩ := List.exists_of_findSome?_eq_some found
      obtain ⟨firstFields, firstParsed, rfl⟩ := Option.map_eq_some_iff.mp read
      cases named : nsec3OwnerHash record.name with
      | none => simp [named] at said
      | some owner =>
        cases held : unknownData record with
        | none => simp [named, held] at said
        | some data =>
          cases parsed : parseNsec3 data with
          | none => simp [named, held, parsed] at said
          | some fields =>
            have whole : (unknownData record).bind parseNsec3 = some fields := by
              rw [held, Option.bind_some, parsed]
            rw [proper.shared first listed record member _ _ firstParsed whole, named, held] at said
            simp only [parsed] at said
            rcases Bool.or_eq_true_iff.mp said with matched | covered
            · obtain ⟨own, cut⟩ := Bool.and_eq_true_iff.mp matched
              obtain ⟨cut, absent⟩ := (cut_iff _).mp cut
              exact .nsec3 kind whole (by rw [named, of_decide_eq_true own]) cut absent
            · obtain ⟨flag, covers⟩ := Bool.and_eq_true_iff.mp covered
              have flagged : optOut record = true := by
                rw [optOut, held]
                exact flag
              exact .optOut kind whole named flagged (((hashCovers_iff _ _ _).mp covers).within
                (proper.apart record member flagged _ whole))

/-! ## The walk as a cause -/

def AtOrAbove (msg : Message) (zone : DnsName) : Prop :=
  ∃ question, msg.questions.head? = some question ∧ question.qname.endsWith zone = true

def ProperReplies : Prop :=
  ∀ asked zone reply, fetcher asked zone typeDs = .ok reply → Proper crypto zone reply.authorities

def Explained (pending : List DnsName) (ctx : Ctx) : Prop :=
  ∀ zone, ctx.keys.get? zone = some none → zone ∈ pending ∨
    ∃ top, zone.endsWith top = true ∧ top ∉ pending ∧ NoDsProof crypto fetcher ctx top

variable {crypto fetcher}

theorem dsOf_insecure {reply : Message} {keys : List Bytes}
    (read : dsOf crypto zone reply keys = .insecure) :
    ofType typeDs reply.answers = [] ∧ authoritySignedBy crypto reply.authorities keys = true ∧
      authenticatedNoDs crypto zone reply.authorities = true := by
  simp only [dsOf] at read
  by_cases empty : (ofType typeDs reply.answers).isEmpty = true
  · rw [if_pos empty] at read
    split at read
    · rename_i proven
      exact ⟨List.isEmpty_iff.mp empty, Bool.and_eq_true_iff.mp proven⟩
    · cases read
  · rw [if_neg empty] at read
    split at read <;> cases read

theorem settle_none {ds : DsResult} (settled : settle crypto zone msg ds = none) :
    ds = .insecure := by
  cases ds with
  | insecure => rfl
  | bogus => cases settled
  | secure set => cases settled

theorem NoDsProof.remember (result : Option (List Bytes)) (differs : top ≠ zone)
    (placed : ctx.keys.get? zone = some none) (proof : NoDsProof crypto fetcher ctx top) :
    NoDsProof crypto fetcher (ctx.remember zone result) top := by
  obtain ⟨judged, parent, keys, earlier, reply, above, known, rest⟩ := proof
  exact ⟨by simpa [differs] using judged, parent, keys, earlier, reply, above,
    get?_remember_of_placed placed known, rest⟩

theorem NoDsProof.ask (name : DnsName) (qtype : UInt16) (proof : NoDsProof crypto fetcher ctx top) :
    NoDsProof crypto fetcher (ctx.ask name qtype) top := by
  obtain ⟨judged, parent, keys, earlier, reply, above, known, asked, rest⟩ := proof
  exact ⟨judged, parent, keys, earlier, reply, above, known,
    asked.trans (List.suffix_cons _ _), rest⟩

theorem NoDsProof.enter (missed : ctx.keys.get? zone = none)
    (proof : NoDsProof crypto fetcher ctx top) : NoDsProof crypto fetcher (ctx.enter zone) top := by
  obtain ⟨judged, parent, keys, earlier, reply, above, known, asked, rest⟩ := proof
  exact ⟨by simpa [ne_of_missed missed judged] using judged, parent, keys, earlier, reply, above,
    by simpa [ne_of_missed missed known] using known, asked.trans (List.suffix_cons _ _), rest⟩

theorem Explained.enter (missed : ctx.keys.get? zone = none)
    (explained : Explained crypto fetcher pending ctx) :
    Explained crypto fetcher (zone :: pending) (ctx.enter zone) := by
  intro other known
  by_cases same : other = zone
  · exact .inl (by simp [same])
  · rcases explained other (by simpa [same] using known) with listed | ⟨top, below, free, proof⟩
    · exact .inl (List.mem_cons_of_mem _ listed)
    · exact .inr ⟨top, below, by simp [free, ne_of_missed missed proof.1], proof.enter missed⟩

theorem Explained.close {result : Option (List Bytes)} (placed : ctx.keys.get? zone = some none)
    (explained : Explained crypto fetcher (zone :: pending) ctx)
    (own : result = none → ∃ top, zone.endsWith top = true ∧ top ∉ pending ∧
      NoDsProof crypto fetcher (ctx.remember zone result) top) :
    Explained crypto fetcher pending (ctx.remember zone result) := by
  intro other known
  by_cases same : other = zone
  · subst same
    exact .inr (own (by simpa using known))
  · rcases explained other (by simpa [same] using known) with listed | ⟨top, below, free, proof⟩
    · exact .inl (List.mem_of_ne_of_mem same listed)
    · rw [List.mem_cons, not_or] at free
      exact .inr ⟨top, below, free.2, proof.remember result free.1 placed⟩

theorem Explained.ask (name : DnsName) (type : UInt16)
    (explained : Explained crypto fetcher pending ctx) :
    Explained crypto fetcher pending (ctx.ask name type) := by
  intro other known
  rcases explained other known with listed | ⟨top, below, free, proof⟩
  · exact .inl listed
  · exact .inr ⟨top, below, free, proof.ask name type⟩

variable {self} in
/-- With the DNSKEY questions on the way answered, proper DS replies and the depth limit
out of reach, a walk leaves only insecure zones that lie below a proven one. -/
theorem Walk.explained {budget : Nat} {ctx' : Ctx} {result : Option (List Bytes)}
    (proper : ProperReplies crypto fetcher)
    (walk : Walk crypto fetcher self budget zone ctx result ctx') :
    (∀ other, zone.endsWith other = true → Keyed fetcher other) →
    zone.labels.length < budget → ∀ pending : List DnsName,
      (∀ other ∈ pending, zone.labels.length < other.labels.length) →
      Explained crypto fetcher pending ctx → Explained crypto fetcher pending ctx' := by
  induction walk with
  | tooDeep => exact fun _ impossible => absurd impossible (Nat.not_lt_zero _)
  | cached => exact fun _ _ _ _ explained => explained
  | @alone budget zone ctx result missed own =>
    intro keyed _ pending _ explained
    refine (explained.enter missed).close (by simp) ?_
    intro insecure
    obtain ⟨msg, reply, keys⟩ := keyed zone (DnsName.endsWith_refl zone) ctx.asked
    cases own with
    | unanswered refused =>
      rw [reply] at refused
      cases refused
    | keyless answered empty =>
      rw [reply] at answered
      cases answered
      exact absurd empty keys
    | anchored _ _ _ => cases insecure
    | orphan _ => cases insecure
  | @inherited budget zone parent ctx ctx' result missed above walk keyless ih =>
    intro keyed short pending longer explained
    have length := parent_length above
    have keyed' : ∀ other, parent.endsWith other = true → Keyed fetcher other :=
      fun other higher =>
        keyed other (DnsName.endsWith_trans (DnsName.endsWith_parent above) higher)
    have longer' := shorter_parent above longer
    have inner := ih keyed' (by omega) (zone :: pending) longer' (explained.enter missed)
    have placed := walk.grows zone none (by simp)
    refine inner.close placed ?_
    rintro rfl
    obtain ⟨budget, rfl⟩ : ∃ less, budget = less + 1 := ⟨budget - 1, by omega⟩
    rcases inner parent walk.records with listed | ⟨top, below, free, proof⟩
    · exact absurd (longer' parent listed) (Nat.lt_irrefl _)
    · rw [List.mem_cons, not_or] at free
      exact ⟨top, DnsName.endsWith_trans (DnsName.endsWith_parent above) below, free.2,
        proof.remember none free.1 placed⟩
  | @judged budget zone parent ctx ctx' keys result missed above walk nonempty verdict ih =>
    intro keyed short pending longer explained
    have length := parent_length above
    have keyed' : ∀ other, parent.endsWith other = true → Keyed fetcher other :=
      fun other higher =>
        keyed other (DnsName.endsWith_trans (DnsName.endsWith_parent above) higher)
    have longer' := shorter_parent above longer
    have inner := ih keyed' (by omega) (zone :: pending) longer' (explained.enter missed)
    refine (inner.ask zone typeDs).close (walk.grows zone none (by simp)) ?_
    rintro rfl
    obtain ⟨budget, rfl⟩ : ∃ less, budget = less + 1 := ⟨budget - 1, by omega⟩
    rcases verdict with ⟨_, _, impossible⟩ | ⟨msg, reply, _, answered, settled⟩
    · cases impossible
    · obtain ⟨noDs, signed, test⟩ := dsOf_insecure (settle_none settled.symm)
      obtain ⟨record, member, kind, denies⟩ := deniesDs_of_test (proper _ zone reply answered) test
      have apart : parent ≠ zone := by
        rintro rfl
        omega
      refine ⟨zone, DnsName.endsWith_refl zone, fun listed => ?_, by simp, parent, keys,
        ctx'.asked, reply, above, by simpa [apart] using walk.records, by simp, answered, noDs,
        record, member, signedBy_of_authority signed member kind, denies⟩
      exact absurd (longer zone listed) (Nat.lt_irrefl _)

/-- The signatures over the sections looked at name signers at or above the queried
name, within the depth limit. -/
def WellSigned (msg : Message) : Prop :=
  ∀ sig, Signs msg sig → ∀ fields, parseRrsig sig = some fields →
    fields.signer.labels.length ≤ maxDepth ∧ AtOrAbove msg fields.signer

theorem AtOrAbove.trans (above : AtOrAbove msg zone) (higher : zone.endsWith top = true) :
    AtOrAbove msg top := by
  obtain ⟨question, first, below⟩ := above
  exact ⟨question, first, DnsName.endsWith_trans below higher⟩

/-- A signature covers an RRset of the answer, or one of a section that denies with
NSEC or NSEC3. -/
def Covered (msg : Message) : Prop :=
  (∃ set ∈ sectionSets msg.answers, sigsFor msg.answers set ≠ []) ∨
    Consulted msg ∧ hasNsec msg.authorities = true ∧
      ∃ set ∈ sectionSets msg.authorities, sigsFor msg.authorities set ≠ []

variable (crypto fetcher) in
/-- The message is signed by zones at or above the queried name, and the servers answer
what the walk to them asks. -/
structure Accountable (msg : Message) : Prop where
  covered : Covered msg
  signed : WellSigned msg
  keyed : ∀ zone, AtOrAbove msg zone → Keyed fetcher zone
  proper : ProperReplies crypto fetcher

variable {self} in
theorem Accountable.explained (accountable : Accountable crypto fetcher msg) :
    Explained crypto fetcher [] (self.run crypto fetcher msg).2 := by
  refine run_invariant ?_ ?_
  · intro sig signs fields parsed ctx explained
    obtain ⟨short, above⟩ := accountable.signed sig signs fields parsed
    exact (walk_dnskeys crypto fetcher self (maxDepth + 1) fields.signer ctx).explained
      accountable.proper (fun other higher => accountable.keyed other (above.trans higher))
      (by omega) [] (by simp) explained
  · intro zone impossible
    cases impossible

theorem proof_of_undecided {records : List Record} (explained : Explained crypto fetcher [] ctx)
    (signed : WellSigned msg) (looked : ∀ sig ∈ sigsFor records set, Signs msg sig)
    (covered : sigsFor records set ≠ []) (unbroken : judge crypto ctx.table records set ≠ .bogus)
    (unverified : ∀ sig, judge crypto ctx.table records set ≠ .secure sig) :
    ∃ zone, AtOrAbove msg zone ∧ NoDsProof crypto fetcher ctx zone := by
  cases outcome : judge crypto ctx.table records set with
  | unsigned => exact absurd ((judge_unsigned_iff _ _ _).mp outcome) covered
  | secure sig => exact absurd outcome (unverified sig)
  | bogus => exact absurd outcome unbroken
  | insecure sig =>
    obtain ⟨member, fields, parsed, keyless⟩ := judge_insecure outcome
    have above := (signed sig (looked sig member) fields parsed).2
    rcases explained fields.signer ((ctx.table_none_iff _).mp keyless) with
      impossible | ⟨top, higher, _, proof⟩
    · cases impossible
    · exact ⟨top, above.trans higher, proof⟩

variable {self} in
theorem Accountable.proof_of_insecure (accountable : Accountable crypto fetcher msg)
    (insecure : self.validate crypto fetcher msg = .insecure) :
    ∃ zone, AtOrAbove msg zone ∧
      NoDsProof crypto fetcher (self.run crypto fetcher msg).2 zone := by
  have explained : Explained crypto fetcher [] (self.run crypto fetcher msg).2 :=
    accountable.explained
  obtain ⟨sound, unverified, authorities⟩ :=
    (run_reads crypto fetcher self msg).insecure.mp insecure
  rcases accountable.covered with ⟨set, member, sigs⟩ | ⟨consulted, present, set, member, sigs⟩
  · exact proof_of_undecided explained accountable.signed
      (fun sig listed => .inl ⟨set, member, listed⟩) sigs (sound set member)
      fun sig verified => unverified ⟨set, member, sig, verified⟩
  · obtain ⟨sound', unverified'⟩ := authorities consulted
    exact proof_of_undecided explained accountable.signed
      (fun sig listed => .inr ⟨consulted, set, member, listed⟩) sigs (sound' set member)
      fun sig verified => unverified' ⟨⟨set, member, sig, verified⟩, present⟩

/-! ## Signers without keys -/

variable (crypto)

def Ctx.Empty (ctx : Ctx) : Prop := ∀ zone value, ctx.keys.get? zone = some value → value = none

theorem Ctx.new_empty : Ctx.new.Empty := fun _ _ known => by cases known

theorem dnskeys_of_unkeyed (budget : Nat) (unkeyed : Unkeyed fetcher zone) (empty : ctx.Empty) :
    ∃ ctx', self.dnskeys crypto fetcher (budget + 1) zone ctx = (none, ctx') ∧ ctx'.Empty := by
  rw [Validator.dnskeys]
  cases found : ctx.keys.get? zone with
  | some cached => exact ⟨ctx, by rw [empty zone cached found], empty⟩
  | none =>
    have kept : ((ctx.enter zone).remember zone none).Empty := by
      intro other value known
      by_cases same : other = zone
      · simpa [same] using known.symm
      · exact empty other value (by simpa [same] using known)
    cases reply : fetcher ctx.asked zone typeDnskey with
    | error error => exact ⟨_, rfl, kept⟩
    | ok msg => exact ⟨_, by simp [unkeyed _ msg reply], kept⟩

/-- An RRset whose signers have no keys is passed over. -/
theorem verifyRrset_of_unkeyed {records : List Record}
    (unkeyed : ∀ sig ∈ sigsFor records set, ∀ fields, parseRrsig sig = some fields →
      Unkeyed fetcher fields.signer) (empty : ctx.Empty) :
    ∃ outcome ctx', self.verifyRrset crypto fetcher records set ctx = (outcome, ctx') ∧
      (outcome = .unsigned ∨ ∃ sig, outcome = .insecure sig) ∧ ctx'.Empty := by
  unfold Validator.verifyRrset
  cases sigs : sigsFor records set with
  | nil => exact ⟨_, _, rfl, .inl rfl, empty⟩
  | cons sig rest =>
    have listed : sig ∈ sigsFor records set := sigs ▸ List.mem_cons_self
    obtain ⟨fields, parsed, _⟩ := Option.map_eq_some_iff.mp
      (of_decide_eq_true (List.mem_filter.mp listed).2)
    obtain ⟨ctx', called, kept⟩ := dnskeys_of_unkeyed crypto self maxDepth
      (unkeyed sig listed fields parsed) empty
    refine ⟨.insecure sig, ctx', ?_, .inr ⟨sig, rfl⟩, kept⟩
    simp only [Validator.trySigs, parsed, called]

theorem verifySets_of_unkeyed {records : List Record} (sets : List SetKey)
    (unkeyed : ∀ set ∈ sets, ∀ sig ∈ sigsFor records set, ∀ fields,
      parseRrsig sig = some fields → Unkeyed fetcher fields.signer) (empty : ctx.Empty) :
    ∃ ctx', self.verifySets crypto fetcher records sets false ctx = (⟨false, false⟩, ctx') ∧
      ctx'.Empty := by
  induction sets generalizing ctx with
  | nil => exact ⟨ctx, rfl, empty⟩
  | cons set rest ih =>
    obtain ⟨here, later⟩ := List.forall_mem_cons.mp unkeyed
    obtain ⟨outcome, ctx', called, passed, kept⟩ := verifyRrset_of_unkeyed crypto self here
      empty
    rw [Validator.verifySets, called]
    rcases passed with rfl | ⟨sig, rfl⟩
    · exact ih later kept
    · exact ih later kept

/-- Nothing that was looked at is signed by a zone that ever shows a key. -/
def Stripped (fetcher : Fetcher) (msg : Message) : Prop :=
  ∀ sig, Signs msg sig → ∀ fields, parseRrsig sig = some fields → Unkeyed fetcher fields.signer

theorem Stripped.run (stripped : Stripped fetcher msg) :
    ∃ ctx, self.run crypto fetcher msg = (.insecure, ctx) ∧ ctx.Empty := by
  obtain ⟨ctx, called, empty⟩ := verifySets_of_unkeyed crypto self (sectionSets msg.answers)
    (fun set member sig listed => stripped sig (.inl ⟨set, member, listed⟩)) Ctx.new_empty
  by_cases consulted : Consulted msg
  · obtain ⟨ctx', called', empty'⟩ := verifySets_of_unkeyed crypto self
      (sectionSets msg.authorities)
      (fun set member sig listed => stripped sig (.inr ⟨consulted, set, member, listed⟩)) empty
    refine ⟨ctx', ?_, empty'⟩
    simp [run_consulted crypto fetcher self consulted, Validator.verifySection, called, called',
      conclude]
  · refine ⟨ctx, ?_, empty⟩
    simp [run_unconsulted crypto fetcher self consulted, Validator.verifySection, called]

variable {crypto} in
theorem Ctx.Empty.no_proof (empty : ctx.Empty) : ¬ NoDsProof crypto fetcher ctx zone := by
  rintro ⟨_, parent, keys, _, _, _, known, _⟩
  cases empty parent _ known

namespace Toy

def cutSig : Bytes :=
  toBe16 typeA ++ [algEd25519, 2] ++ toBe32 300 ++ toBe32 0 ++ toBe32 0 ++
    toBe16 (keyTag dnskey) ++ (host.toWire [] none).1

def cutHost : List Record := [address host, rawRecord host typeRrsig cutSig]

def noDs : Record := rawRecord host typeNsec [0, 0, 1, 0x20]

def cutServers : Fetcher := fun _ _ qtype =>
  if qtype = typeDnskey then
    .ok { Message.new 0 Flags.default with
      answers := [keyRecord, rawRecord Toy.zone typeRrsig (sign 1 [keyRecord] typeDnskey)] }
  else
    .ok { Message.new 0 Flags.default with
      authorities := [noDs, rawRecord host typeRrsig (sign 2 [noDs] typeNsec)] }

theorem cutHost_accountable : Accountable scheme cutServers (reply cutHost) := by
  have sets : sectionSets cutHost = [(host, typeA)] := by decide +kernel
  have sigs : sigsFor cutHost (host, typeA) = [cutSig] := by decide +kernel
  have signer : (parseRrsig cutSig).map (·.signer) = some host := by decide +kernel
  refine ⟨.inl ⟨(host, typeA), by simp [reply, sets], by simp [reply, sigs]⟩, ?_,
    fun zone _ asked => ⟨_, rfl, by decide +kernel⟩, ?_⟩
  · rintro sig (⟨set, member, listed⟩ | ⟨⟨_, _, impossible⟩, _⟩) fields parsed
    · simp only [reply, sets, List.mem_singleton] at member
      subst member
      simp only [reply, sigs, List.mem_singleton] at listed
      subst listed
      have same : fields.signer = host := by simpa [parsed] using signer
      rw [same]
      exact ⟨by decide, _, rfl, DnsName.endsWith_refl host⟩
    · exact absurd rfl impossible
  · intro asked zone reply answered
    cases answered
    have plain : ofType typeNsec3 [noDs, rawRecord host typeRrsig (sign 2 [noDs] typeNsec)] =
        [] := by decide +kernel
    exact ⟨by simp [plain], by simp [plain]⟩

end Toy

end Rdns.Resolver
