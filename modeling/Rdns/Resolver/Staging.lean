import Rdns.Proto.Bounded
import Rdns.Resolver.Secure

/-!
# Signatures brought to bear

Whether a signature verifies its RRset depends on keys, servers and the scheme.  What
can be said of the signature alone is whether it ever does: any one of a supported
algorithm can be brought to bear, by a zone that holds a key of its algorithm and tag.
The staged servers hand out that key, and a trust anchor vouches for it.  So a check that
is left out is harmless for an RRset exactly if all such signatures over it would pass.
The first such check compares the owner of an RRset with the signer.
-/

set_option autoImplicit false

namespace Rdns.Resolver

open Rdns.Lib Rdns.Proto Rdns.Dnssec

variable {records rrset : List Record} {set : SetKey} {sig : Bytes} {fields : RrsigFields}

/-! ## Signatures of a supported algorithm -/

def supported : List UInt8 :=
  [algRsasha1, algRsasha1Nsec3, algRsasha256, algRsasha512, algEcdsap256, algEcdsap384, algEd25519]

theorem supported_of_verifySignature {crypto : Crypto} {algorithm : UInt8} {public_ data : Bytes}
    (verified : verifySignature crypto algorithm public_ data sig = true) :
    algorithm ∈ supported := by
  by_contra other
  simp only [supported, List.mem_cons, List.not_mem_nil, or_false, not_or] at other
  simp [verifySignature, other] at verified

theorem verifyRrsig_iff {crypto : Crypto} {key : Bytes} (parsed : parseRrsig sig = some fields) :
    verifyRrsig crypto rrset sig key = true ↔
      ∃ keyFields, parseDnskey key = some keyFields ∧ fields.algorithm = keyFields.algorithm ∧
        fields.keyTag = keyTag key ∧
        verifySignature crypto keyFields.algorithm keyFields.public_ (signedData fields rrset)
          fields.signature = true := by
  rw [verifyRrsig, parsed]
  cases parseDnskey key with
  | none => simp
  | some keyFields => simp

theorem parseRrsig_eq_some (parsed : parseRrsig sig = some fields) :
    ∃ signer pos, 18 < pos ∧ pos ≤ sig.length ∧ fields = {
      typeCovered := be16At sig 0
      algorithm := sig.getD 2 0
      labels := sig.getD 3 0
      originalTtl := be32At sig 4
      expiration := be32At sig 8
      inception := be32At sig 12
      keyTag := be16At sig 16
      signer
      prefix_ := sig.take pos
      signature := sig.drop pos } := by
  unfold parseRrsig at parsed
  split at parsed
  · cases parsed
  rename_i long
  cases read : DnsName.fromWire sig 18 with
  | error e =>
    rw [read] at parsed
    cases parsed
  | ok found =>
    obtain ⟨signer, pos⟩ := found
    rw [read] at parsed
    cases parsed
    have advanced := fromWire_advances sig (by omega) read
    exact ⟨signer, pos, by omega, by omega, rfl⟩

/-! ## Keys of every algorithm and tag -/

/-- The sum of a key's words that is folded to the tag, with one carry. -/
def tagSum (tag : UInt16) : Nat := 65535 + if tag = 0 then 65536 else tag.toNat

theorem tagSum_range (tag : UInt16) : 65536 ≤ tagSum tag ∧ tagSum tag < 131072 ∧
    (tagSum tag + 1) % 65536 = tag.toNat := by
  have bound := tag.toNat_lt
  unfold tagSum
  by_cases zero : tag = 0
  · subst zero
    decide
  · have positive : tag.toNat ≠ 0 := fun none => zero (UInt16.toNat_inj.mp none)
    rw [if_neg zero]
    omega

theorem fold_toNat (sum : UInt32) (high : 65536 ≤ sum.toNat) (low : sum.toNat < 131072) :
    ((sum + ((sum >>> 16) &&& 0xFFFF) &&& 0xFFFF).toUInt16).toNat = (sum.toNat + 1) % 65536 := by
  have carry : (sum >>> 16) &&& 0xFFFF = 1 := by
    have quotient : sum.toNat / 65536 = 1 := by omega
    apply UInt32.toNat_inj.mp
    simp [Nat.shiftRight_eq_div_pow, quotient]
  have mask (n : Nat) : n &&& 65535 = n % 65536 := Nat.and_two_pow_sub_one_eq_mod n 16
  rw [carry]
  simp [mask]

/-- As an RSA key it has an exponent of one octet. -/
def wordsKey (algorithm : UInt8) (first second : UInt16) : Bytes :=
  [0, 0, 3, algorithm, 1, 0] ++ toBe16 first ++ toBe16 second

theorem keyTag_wordsKey {algorithm : UInt8} {first second tag : UInt16}
    (sum : 1024 + algorithm.toNat + first.toNat + second.toNat = tagSum tag) :
    keyTag (wordsKey algorithm first second) = tag := by
  obtain ⟨high, low, tagged⟩ := tagSum_range tag
  have summed : ((wordsKey algorithm first second).zipIdx.foldl
      (fun (ac : UInt32) (entry : UInt8 × Nat) => ac +
        if entry.2 % 2 = 0 then entry.1.toUInt32 <<< 8 else entry.1.toUInt32) 0).toNat =
      tagSum tag := by
    have small := first.toNat_lt
    have small' := second.toNat_lt
    have tiny := algorithm.toNat_lt
    simp [wordsKey, toBe16, List.zipIdx_cons, Nat.shiftRight_eq_div_pow, Nat.shiftLeft_eq]
    omega
  have folded := fold_toNat _ (summed ▸ high) (summed ▸ low)
  rw [summed, tagged] at folded
  exact UInt16.toNat_inj.mp folded

/-- A key that a signature with the algorithm and the tag may have been made with. -/
structure KeyFor (algorithm : UInt8) (tag : UInt16) (key : Bytes) : Prop where
  tagged : keyTag key = tag
  parsed : ∃ fields, parseDnskey key = some fields ∧ fields.algorithm = algorithm ∧
    rsaParts fields.public_ ≠ none

theorem exists_keyFor (algorithm : UInt8) (tag : UInt16) : ∃ key, KeyFor algorithm tag key := by
  obtain ⟨high, low, _⟩ := tagSum_range tag
  have tiny := algorithm.toNat_lt
  obtain ⟨first, second, sum⟩ : ∃ first second : UInt16,
      1024 + algorithm.toNat + first.toNat + second.toNat = tagSum tag := by
    refine ⟨UInt16.ofNat ((tagSum tag - 1024 - algorithm.toNat) / 2),
      UInt16.ofNat (tagSum tag - 1024 - algorithm.toNat -
        (tagSum tag - 1024 - algorithm.toNat) / 2), ?_⟩
    rw [UInt16.toNat_ofNat', UInt16.toNat_ofNat', Nat.mod_eq_of_lt, Nat.mod_eq_of_lt] <;> omega
  refine ⟨wordsKey algorithm first second, keyTag_wordsKey sum, _, rfl, rfl, ?_⟩
  simp [wordsKey, toBe16, rsaParts, slice]

/-! ## The stage -/

/-- Of the data signed: label count, TTL and validity period of the signature. -/
def mark (data : Bytes) : Bytes := (List.range 13).map fun index => data.getD (3 + index) 0

/-- What is signed starts with the fields of the signature. -/
theorem getD_signedData (parsed : parseRrsig sig = some fields) (rrset : List Record) {index : Nat}
    (inside : index < 16) :
    (signedData fields rrset).getD index 0 = sig.getD index 0 := by
  obtain ⟨_, pos, long, short, rfl⟩ := parseRrsig_eq_some parsed
  have early : index < (sig.take pos).length := by
    rw [List.length_take]
    omega
  simp only [signedData, List.getD_eq_getElem?_getD]
  rw [List.getElem?_append_left early, List.getElem?_take_of_lt (by omega)]

theorem mark_signedData (parsed : parseRrsig sig = some fields) (rrset : List Record) :
    mark (signedData fields rrset) = mark sig := by
  refine List.map_congr_left fun index inside => ?_
  have inside := List.mem_range.mp inside
  exact getD_signedData parsed rrset (by omega)

theorem covered_signedData (parsed : parseRrsig sig = some fields) (rrset : List Record) :
    be16At (signedData fields rrset) 0 = fields.typeCovered := by
  rw [be16At, getD_signedData parsed rrset (by omega), getD_signedData parsed rrset (by omega)]
  obtain ⟨_, _, _, _, rfl⟩ := parseRrsig_eq_some parsed
  rfl

theorem fields_of_mark {sig' : Bytes} {fields' : RrsigFields}
    (parsed : parseRrsig sig = some fields) (parsed' : parseRrsig sig' = some fields')
    (same : mark sig = mark sig') : fields.labels = fields'.labels ∧
      fields.inception = fields'.inception ∧ fields.expiration = fields'.expiration := by
  have octet : ∀ index, index < 13 → sig.getD (3 + index) 0 = sig'.getD (3 + index) 0 :=
    fun index inside => List.map_inj_left.mp same index (List.mem_range.mpr inside)
  obtain ⟨_, _, _, _, rfl⟩ := parseRrsig_eq_some parsed
  obtain ⟨_, _, _, _, rfl⟩ := parseRrsig_eq_some parsed'
  refine ⟨octet 0 (by omega), ?_, ?_⟩
  · simp only [be32At]
    rw [octet 9 (by omega), octet 10 (by omega), octet 11 (by omega), octet 12 (by omega)]
  · simp only [be32At]
    rw [octet 5 (by omega), octet 6 (by omega), octet 7 (by omega), octet 8 (by omega)]

/-- What is chosen for one signature: its mark and the type it covers, and a key of its signer
that it may have been made with.  The other signers get trust anchors that match no key. -/
structure Staging where
  good : Bytes
  covered : UInt16
  algorithm : UInt8
  tag : UInt16
  key : Bytes
  signer : DnsName
  others : List DnsName
  length : good.length = 13
  known : algorithm ∈ supported
  fits : KeyFor algorithm tag key

namespace Staging

variable (stage : Staging)

def signed (data : Bytes) : Bool :=
  mark data = stage.good ∧ (be16At data 0 = stage.covered ∨ be16At data 0 = typeDnskey)

/-- All data with the mark are as good as signed, and digests say nothing. -/
def crypto : Crypto where
  ed25519 _ data _ := stage.signed data
  ecdsaP256Sha256 _ data _ := stage.signed data
  ecdsaP384Sha384 _ data _ := stage.signed data
  rsaSha1 _ _ data _ := stage.signed data
  rsaSha256 _ _ data _ := stage.signed data
  rsaSha512 _ _ data _ := stage.signed data
  sha1 _ := []
  sha256 _ := []

theorem verifySignature_eq {public_ data sig : Bytes} (rsa : rsaParts public_ ≠ none) :
    verifySignature stage.crypto stage.algorithm public_ data sig = stage.signed data := by
  obtain ⟨⟨modulus, exponent⟩, parts⟩ := Option.ne_none_iff_exists'.mp rsa
  have known := stage.known
  generalize stage.algorithm = algorithm at known ⊢
  simp only [supported, List.mem_cons, List.not_mem_nil, or_false] at known
  rcases known with rfl | rfl | rfl | rfl | rfl | rfl | rfl <;>
    simp [verifySignature, parts, crypto, algEd25519, algEcdsap256, algEcdsap384, algRsasha1,
      algRsasha1Nsec3, algRsasha256, algRsasha512]

theorem verifyRrsig_key_iff (parsed : parseRrsig sig = some fields) (rrset : List Record) :
    verifyRrsig stage.crypto rrset sig stage.key = true ↔
      fields.algorithm = stage.algorithm ∧ fields.keyTag = stage.tag ∧ mark sig = stage.good ∧
        (fields.typeCovered = stage.covered ∨ fields.typeCovered = typeDnskey) := by
  obtain ⟨keyFields, parsedKey, same, rsa⟩ := stage.fits.parsed
  rw [verifyRrsig_iff parsed, stage.fits.tagged]
  simp only [parsedKey, Option.some.injEq, exists_eq_left', same, stage.verifySignature_eq rsa,
    signed, mark_signedData parsed, covered_signedData parsed, decide_eq_true_eq]

def keySig : Bytes :=
  toBe16 typeDnskey ++ stage.algorithm :: stage.good ++ toBe16 stage.tag ++ [0]

def reply : Message :=
  { Message.new 0 Flags.default with
    answers := [⟨.root, classIn, 0, .unknown typeDnskey stage.key⟩,
      ⟨.root, classIn, 0, .unknown typeRrsig stage.keySig⟩] }

def fetcher : Fetcher := fun _ _ _ => .ok stage.reply

def digest : Bytes := toBe16 stage.tag ++ [stage.algorithm, 2]

def validator : Validator :=
  ⟨⟨stage.signer, stage.digest⟩ :: stage.others.map fun other => ⟨other, []⟩⟩

def table : KeyTable := fun zone => if zone = stage.signer then some [stage.key] else some []

theorem parse_keySig : mark stage.keySig = stage.good ∧ ∃ fields,
    parseRrsig stage.keySig = some fields ∧ fields.algorithm = stage.algorithm ∧
      fields.keyTag = stage.tag ∧ fields.typeCovered = typeDnskey := by
  obtain ⟨good, _, _, tag, _, _, _, length, _, _⟩ := stage
  match good, length with
  | [_, _, _, _, _, _, _, _, _, _, _, _, _], _ =>
    exact ⟨rfl, _, rfl, rfl, ofBe16_toBe16 tag, ofBe16_toBe16 typeDnskey⟩

theorem verifyDs_digest (zone : DnsName) :
    verifyDs stage.crypto zone stage.key stage.digest = true := by
  obtain ⟨keyFields, parsed, same, _⟩ := stage.fits.parsed
  have own : be16At stage.digest 0 = keyTag stage.key :=
    (ofBe16_toBe16 stage.tag).trans stage.fits.tagged.symm
  rw [verifyDs, if_neg (by simp [digest]), parsed]
  simp only [own, ne_eq, not_true, false_or]
  simp [digest, toBe16, crypto, same]

theorem vouchedKeys_digest (zone : DnsName) :
    vouchedKeys stage.crypto zone stage.reply [stage.digest] = [stage.key] := by
  obtain ⟨good, fields, parsed, algorithm, tag, covered⟩ := stage.parse_keySig
  have data : dnskeyData stage.reply = [stage.key] := rfl
  have sigs : signatures stage.reply.answers = [stage.keySig] := rfl
  have signed : verifyRrsig stage.crypto (ofType typeDnskey stage.reply.answers) stage.keySig
      stage.key = true :=
    (stage.verifyRrsig_key_iff parsed _).mpr ⟨algorithm, tag, good, .inr covered⟩
  simp [vouchedKeys, data, sigs, stage.verifyDs_digest, signed]

theorem vouchedKeys_nothing (zone : DnsName) :
    vouchedKeys stage.crypto zone stage.reply [[]] = [] := by
  simp [vouchedKeys, verifyDs]

/-- Every signer has an anchor, which settles its keys as the table has them. -/
theorem settle_anchor {zone : DnsName} (listed : zone = stage.signer ∨ zone ∈ stage.others) :
    ∃ anchor, stage.validator.anchors.find? (fun anchor => anchor.zone = zone) = some anchor ∧
      settle stage.crypto zone stage.reply (.secure [anchor.dsRdata]) =
        stage.table zone := by
  by_cases own : zone = stage.signer
  · refine ⟨⟨stage.signer, stage.digest⟩, by simp [validator, own], ?_⟩
    simp [settle, table, own, stage.vouchedKeys_digest]
  · refine ⟨⟨zone, []⟩, ?_, by simp [settle, table, own, stage.vouchedKeys_nothing]⟩
    have other : stage.others.find? (fun other => other = zone) = some zone := by
      cases found : stage.others.find? (fun other => other = zone) with
      | none => simpa using List.find?_eq_none.mp found zone (listed.resolve_left own)
      | some first => rw [show first = zone by simpa using List.find?_some found]
    simp [validator, Ne.symm own, List.find?_map, Function.comp_def, other]

theorem dnskeys_within {zone : DnsName} (listed : zone = stage.signer ∨ zone ∈ stage.others)
    (budget : Nat) {ctx : Ctx} (within : ctx.Within stage.table) :
    (stage.validator.dnskeys stage.crypto stage.fetcher (budget + 1) zone ctx).2.Within
      stage.table := by
  rw [Validator.dnskeys]
  cases found : ctx.keys.get? zone with
  | some cached => exact within
  | none =>
    obtain ⟨anchor, first, settled⟩ := stage.settle_anchor listed
    have data : (dnskeyData stage.reply).isEmpty = false := rfl
    simp only [fetcher, data, Bool.false_eq_true, if_false, first, settled]
    intro other value known
    by_cases same : other = zone
    · subst same
      simpa using known
    · exact within other value (by simpa [same] using known)

theorem table_ne_none (zone : DnsName) : stage.table zone ≠ none := by
  unfold table
  split <;> simp

variable {stage}

theorem accepts_iff (parsed : parseRrsig sig = some fields) :
    Accepts stage.crypto stage.table rrset sig fields ↔ fields.signer = stage.signer ∧
      fields.algorithm = stage.algorithm ∧ fields.keyTag = stage.tag ∧ mark sig = stage.good ∧
        (fields.typeCovered = stage.covered ∨ fields.typeCovered = typeDnskey) := by
  rw [← stage.verifyRrsig_key_iff parsed rrset]
  unfold Accepts table
  by_cases own : fields.signer = stage.signer
  · simp [own]
  · simp [own]

end Staging

/-! ## One RRset of a section -/

variable {crypto : Crypto} {table : KeyTable}

/-- The section holds the RRset with the same records and signatures. -/
def SameRrset (set : SetKey) (records records' : List Record) : Prop :=
  rrsetOf records' set = rrsetOf records set ∧ sigsFor records' set = sigsFor records set

def alone (records : List Record) (set : SetKey) : List Record :=
  records.filter fun record =>
    record.name = set.1 ∧ (record.rtype = set.2 ∨ record.rtype = typeRrsig)

theorem sameRrset_alone (records : List Record) (set : SetKey) :
    SameRrset set records (alone records set) := by
  have whole : ∀ keep : Record → Bool, (∀ record, keep record = true → record.name = set.1 ∧
      (record.rtype = set.2 ∨ record.rtype = typeRrsig)) →
      (alone records set).filter keep = records.filter keep := by
    intro keep inside
    rw [alone, List.filter_filter]
    refine List.filter_congr fun record _ => ?_
    by_cases kept : keep record = true
    · simp [kept, inside record kept]
    · simp [kept]
  constructor
  · refine whole _ fun record kept => ?_
    obtain ⟨own, typed⟩ := of_decide_eq_true kept
    exact ⟨own, .inl typed⟩
  · unfold sigsFor
    rw [whole]
    intro record kept
    obtain ⟨typed, own⟩ := of_decide_eq_true kept
    exact ⟨own, .inr typed⟩

theorem sectionSets_alone (member : set ∈ sectionSets records) :
    set ∈ sectionSets (alone records set) ∧
      ∀ other ∈ sectionSets (alone records set), other = set := by
  obtain ⟨record, listed, data, rfl⟩ := (mem_sectionSets _ _).mp member
  constructor
  · refine (mem_sectionSets _ _).mpr ⟨record, ?_, data, rfl⟩
    simp [alone, listed]
  · intro other found
    obtain ⟨record', listed', data', rfl⟩ := (mem_sectionSets _ _).mp found
    simp only [alone, List.mem_filter, decide_eq_true_eq, data', or_false] at listed'
    exact Prod.ext listed'.2.1 listed'.2.2

theorem judgeSigs_of_accepts (keyed : ∀ zone, table zone ≠ none) {sigs : List Bytes}
    (member : sig ∈ sigs) (parsed : parseRrsig sig = some fields)
    (accepts : Accepts crypto table rrset sig fields) :
    ∃ first, judgeSigs crypto table rrset sigs = .secure first := by
  induction sigs with
  | nil => cases member
  | cons first rest ih =>
    rcases judgeSigs_cases crypto table rrset first rest with
      ⟨idle, same⟩ | ⟨_, _, ⟨keyless, _⟩ | ⟨_, decided⟩⟩
    · rw [same]
      rcases List.mem_cons.mp member with rfl | later
      · exact absurd accepts (idle fields parsed)
      · exact ih later
    · exact absurd keyless (keyed _)
    · exact ⟨first, decided⟩

/-- The answer section is judged alike by every table that agrees with what was asked. -/
theorem judge_keysSeen {fetcher : Fetcher} {self : Validator} {msg : Message}
    (within : (self.run crypto fetcher msg).2.Within table)
    (sound : Sound crypto table msg.answers) (member : set ∈ sectionSets msg.answers) :
    judge crypto (self.keysSeen crypto fetcher msg) msg.answers set =
      judge crypto table msg.answers set := by
  have grows := answers_grow crypto fetcher self msg
  have reads := verifySets_reads crypto fetcher self msg.answers (sectionSets msg.answers) false
    Ctx.new
  refine reads.stable _ _ (grows.within (Ctx.within_table _)) (grows.within within) ?_ set member
  rw [← Bool.not_eq_true, reads.bogus_iff crypto (grows.within within), not_not]
  exact sound

/-- The message is secure, and its RRset is verified by a signature with the signer, the
label count and the period of the fields; the keys accept signatures over records of its
type and over keys only. -/
structure Carries (crypto : Crypto) (fetcher : Fetcher) (validator : Validator) (msg : Message)
    (set : SetKey) (fields : RrsigFields) : Prop where
  verdict : validator.validate crypto fetcher msg = .secure
  first : ∃ rest, sectionSets msg.answers = set :: rest
  verified : ∃ sig fields',
    judge crypto (validator.keysSeen crypto fetcher msg) msg.answers set = .secure sig ∧
    parseRrsig sig = some fields' ∧ fields'.signer = fields.signer ∧
    fields'.labels = fields.labels ∧ fields'.inception = fields.inception ∧
    fields'.expiration = fields.expiration
  narrow : ∀ rrset sig fields', parseRrsig sig = some fields' →
    Accepts crypto (validator.keysSeen crypto fetcher msg) rrset sig fields' →
      fields'.typeCovered = set.2 ∨ fields'.typeCovered = typeDnskey

def answering (answers authorities : List Record) : Message :=
  { Message.new 0 Flags.default with answers, authorities }

theorem not_consulted_answering {answers : List Record}
    (member : set ∈ sectionSets answers) (authorities : List Record) :
    ¬ Consulted (answering answers authorities) := by
  rintro ⟨_, denial, _⟩
  obtain ⟨record, listed, data, _⟩ := (mem_sectionSets _ _).mp member
  rcases Bool.or_eq_true_iff.mp denial with bare | absent
  · exact data (by simpa using List.all_eq_true.mp bare record listed)
  · have found : Flags.default.rcode ≠ rcodeNxdomain := by decide
    exact found (of_decide_eq_true absent)

/-- The stage for a signature over an RRset. -/
theorem exists_stage (records : List Record) (set : SetKey) (sig : Bytes)
    (known : fields.algorithm ∈ supported) :
    ∃ stage : Staging, stage.good = mark sig ∧ stage.covered = fields.typeCovered ∧
      stage.signer = fields.signer ∧ stage.algorithm = fields.algorithm ∧
      stage.tag = fields.keyTag ∧ ∀ sig ∈ sigsFor records set, ∀ fields,
        parseRrsig sig = some fields → fields.signer ∈ stage.others := by
  obtain ⟨key, fits⟩ := exists_keyFor fields.algorithm fields.keyTag
  refine ⟨⟨mark sig, fields.typeCovered, _, _, key, fields.signer,
    (sigsFor records set).filterMap fun sig => (parseRrsig sig).map (·.signer),
    by simp [mark], known, fits⟩, rfl, rfl, rfl, rfl, rfl, ?_⟩
  intro sig' listed fields' parsed'
  exact List.mem_filterMap.mpr ⟨sig', listed, by rw [parsed']; rfl⟩

section Staged

variable {stage : Staging} {answers : List Record}

/-- Only the staged signers are asked for. -/
theorem Staging.run_within (only : ∀ other ∈ sectionSets answers, other = set)
    (here : set ∈ sectionSets answers)
    (named : ∀ sig ∈ sigsFor answers set, ∀ fields, parseRrsig sig = some fields →
      fields.signer ∈ stage.others) (authorities : List Record) :
    (stage.validator.run stage.crypto stage.fetcher (answering answers authorities)).2.Within
      stage.table := by
  refine @run_invariant _ _ _ _ (fun ctx => ctx.Within stage.table) ?_ ?_
  · rintro sig (⟨other, member, listed⟩ | ⟨consulted, _⟩) fields parsed ctx before
    · have listed : sig ∈ sigsFor answers set := only other member ▸ listed
      exact stage.dnskeys_within (.inr (named sig listed fields parsed)) maxDepth before
    · exact absurd consulted (not_consulted_answering here authorities)
  · intro zone value known
    cases known

theorem Staging.judged (listed : sig ∈ sigsFor answers set)
    (parsed : parseRrsig sig = some fields)
    (accepts : Accepts stage.crypto stage.table (rrsetOf answers set) sig fields) :
    ∃ first, judge stage.crypto stage.table answers set = .secure first := by
  obtain ⟨first, decided⟩ := judgeSigs_of_accepts stage.table_ne_none listed parsed accepts
  refine ⟨first, ?_⟩
  unfold judge
  split
  · rename_i none
    rw [none] at listed
    cases listed
  · exact decided

/-- Keys that were found are the staged one. -/
theorem accepts_of_seen {ctx : Ctx} (within : ctx.Within table)
    (accepts : Accepts crypto ctx.table rrset sig fields) :
    Accepts crypto table rrset sig fields := by
  obtain ⟨keys, known, key, member, accepted⟩ := accepts
  have entry := Ctx.get?_of_table known (List.ne_nil_of_mem member)
  exact ⟨keys, within _ _ entry, key, member, accepted⟩

/-- On its stage an RRset that stands alone is verified by a signature like the one staged. -/
theorem Staging.carries (only : ∀ other ∈ sectionSets answers, other = set)
    (here : set ∈ sectionSets answers)
    (named : ∀ sig ∈ sigsFor answers set, ∀ fields, parseRrsig sig = some fields →
      fields.signer ∈ stage.others) (authorities : List Record)
    (listed : sig ∈ sigsFor answers set) (parsed : parseRrsig sig = some fields)
    (accepts : Accepts stage.crypto stage.table (rrsetOf answers set) sig fields)
    (type : stage.covered = set.2) :
    Carries stage.crypto stage.fetcher stage.validator (answering answers authorities) set
      fields := by
  have within := Staging.run_within only here named authorities
  obtain ⟨signer, _, _, good, _⟩ := (Staging.accepts_iff parsed).mp accepts
  obtain ⟨first, verified⟩ := Staging.judged listed parsed accepts
  have sound : Sound stage.crypto stage.table answers := by
    intro other found
    rw [only other found, verified]
    simp
  have seen := (judge_keysSeen within sound here).trans verified
  refine ⟨?_, ?_, ?_, ?_⟩
  · refine (run_reads _ _ _ _).secure.mpr
      ⟨?_, .inl ⟨not_consulted_answering here authorities, set, here, first, seen⟩⟩
    intro other found
    rw [only other found]
    exact ne_of_eq_of_ne seen (by simp)
  · obtain ⟨head, rest, sets⟩ := List.exists_cons_of_ne_nil (List.ne_nil_of_mem here)
    exact ⟨rest, only head (sets ▸ List.mem_cons_self) ▸ sets⟩
  · obtain ⟨_, fields', parsed', accepts'⟩ := judge_secure verified
    obtain ⟨signer', _, _, good', _⟩ := (Staging.accepts_iff parsed').mp accepts'
    exact ⟨first, fields', seen, parsed', signer'.trans signer.symm,
      fields_of_mark parsed' parsed (good'.trans good.symm)⟩
  · intro rrset sig' fields' parsed' accepted
    obtain ⟨_, _, _, _, covered⟩ :=
      (Staging.accepts_iff parsed').mp (accepts_of_seen within accepted)
    exact type ▸ covered

end Staged

/-- Any signature of a supported algorithm can be brought to bear on its RRset, whatever stands
in the authority section. -/
theorem exists_carries (member : set ∈ sectionSets records) (authorities : List Record)
    (listed : sig ∈ sigsFor records set) (parsed : parseRrsig sig = some fields)
    (known : fields.algorithm ∈ supported) :
    ∃ crypto fetcher validator msg, SameRrset set records msg.answers ∧
      msg.authorities = authorities ∧ Carries crypto fetcher validator msg set fields := by
  have same := sameRrset_alone records set
  obtain ⟨here, only⟩ := sectionSets_alone member
  obtain ⟨stage, good, covered, signer, algorithm, tag, named⟩ :=
    exists_stage records set sig known
  have type : fields.typeCovered = set.2 := by
    have chosen := of_decide_eq_true (List.mem_filter.mp listed).2
    simpa [parsed] using chosen
  have accepts : Accepts stage.crypto stage.table (rrsetOf (alone records set) set) sig fields :=
    (Staging.accepts_iff parsed).mpr
      ⟨signer.symm, algorithm.symm, tag.symm, good.symm, .inl covered.symm⟩
  exact ⟨stage.crypto, stage.fetcher, stage.validator, answering (alone records set) authorities,
    same, rfl, Staging.carries only here (same.2.symm ▸ named) authorities (same.2.symm ▸ listed)
      parsed accepts (covered.trans type)⟩

/-! ## Owners and signers -/

section Counts

variable (crypto : Crypto) (fetcher : Fetcher) (self : Validator)

/-- In the loop over the RRsets, the RRset is counted as verified by the signature. -/
inductive Counts (records : List Record) : List SetKey → Ctx → SetKey → Bytes → Prop
  | here {set : SetKey} {rest : List SetKey} {ctx ctx' : Ctx} {sig : Bytes}
      (found : self.verifyRrset crypto fetcher records set ctx = (.secure sig, ctx')) :
      Counts records (set :: rest) ctx set sig
  | later {first set : SetKey} {rest : List SetKey} {ctx ctx' : Ctx} {outcome : Outcome}
      {sig : Bytes} (passed : self.verifyRrset crypto fetcher records first ctx = (outcome, ctx'))
      (unbroken : outcome ≠ .bogus) (tail : Counts records rest ctx' set sig) :
      Counts records (first :: rest) ctx set sig

variable {crypto fetcher self}

theorem Counts.verified {sets : List SetKey} {ctx : Ctx}
    (counts : Counts crypto fetcher self records sets ctx set sig) :
    ∃ table, judge crypto table records set = .secure sig := by
  induction counts with
  | @here set rest ctx ctx' sig found =>
    have reads := verifyRrset_reads crypto fetcher self records set ctx
    rw [found] at reads
    exact ⟨_, reads.judged ctx'.table ctx'.within_table⟩
  | later _ _ _ ih => exact ih

/-- The first RRset counts if a reader of the final table finds it verified. -/
theorem counts_first {rest : List SetKey} {ctx : Ctx}
    (within : (self.verifySets crypto fetcher records (set :: rest) false ctx).2.Within table)
    (verified : judge crypto table records set = .secure sig) :
    Counts crypto fetcher self records (set :: rest) ctx set sig := by
  have reads := verifyRrset_reads crypto fetcher self records set ctx
  obtain ⟨⟨outcome, ctx'⟩, called⟩ : ∃ pair,
    self.verifyRrset crypto fetcher records set ctx = pair := ⟨_, rfl⟩
  rw [called] at reads
  have grows : ctx'.Grows (self.verifySets crypto fetcher records (set :: rest) false ctx).2 := by
    rw [Validator.verifySets, called]
    cases outcome with
    | bogus => exact .refl _
    | unsigned => exact (verifySets_reads crypto fetcher self records rest _ ctx').grows
    | insecure _ => exact (verifySets_reads crypto fetcher self records rest _ ctx').grows
    | secure _ => exact (verifySets_reads crypto fetcher self records rest _ ctx').grows
  obtain rfl : outcome = .secure sig :=
    (reads.judged table (grows.within within)).symm.trans verified
  exact .here called

end Counts

theorem supported_of_verifyRrsig {key : Bytes} (accepted : verifyRrsig crypto rrset sig key = true)
    (parsed : parseRrsig sig = some fields) : fields.algorithm ∈ supported := by
  obtain ⟨keyFields, _, same, _, signed⟩ := (verifyRrsig_iff parsed).mp accepted
  exact same ▸ supported_of_verifySignature signed

/-- A verified RRset is verified by one of its signatures, of a supported algorithm. -/
theorem supported_of_judge (verified : judge crypto table records set = .secure sig)
    (parsed : parseRrsig sig = some fields) :
    sig ∈ sigsFor records set ∧ fields.algorithm ∈ supported := by
  obtain ⟨listed, fields', parsed', _, _, key, _, accepted⟩ := judge_secure verified
  exact ⟨listed, supported_of_verifyRrsig accepted parsed⟩

end Rdns.Resolver
