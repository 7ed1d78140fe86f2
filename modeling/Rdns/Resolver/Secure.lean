import Rdns.Resolver.Sections

/-!
# What a secure verdict stands for

`Secure` is decided by one flag for the whole section: it says that some RRset
was verified and none was broken.  RRsets without signatures, or left to a signer
without keys, are passed over.  The verdict stands for every RRset of the answer
where each is signed and the walk to each signer ends in keys, broken or not;
both are conditions on the message and on what the servers reply.
-/

set_option autoImplicit false

namespace Rdns.Resolver

open Rdns.Lib Rdns.Proto Rdns.Dnssec

variable (crypto : Crypto) (fetcher : Fetcher) (self : Validator)

/-! ## Every RRset of the answer -/

def Validator.keysSeen (msg : Message) : KeyTable := (self.run crypto fetcher msg).2.table

def Authenticated (table : KeyTable) (records : List Record) (set : SetKey) : Prop :=
  ∃ sig ∈ sigsFor records set, ∃ fields, parseRrsig sig = some fields ∧
    Accepts crypto table (rrsetOf records set) sig fields

/-! ## Signers that have keys -/

/-- The DNSKEY question for the zone is answered with a key, whatever was asked before. -/
def Keyed (zone : DnsName) : Prop :=
  ∀ asked, ∃ msg, fetcher asked zone typeDnskey = .ok msg ∧ dnskeyData msg ≠ []

def Unkeyed (zone : DnsName) : Prop :=
  ∀ asked msg, fetcher asked zone typeDnskey = .ok msg → dnskeyData msg = []

/-- No reply to the DS question for the zone passes for a proof that there is no DS. -/
def DsStands (zone : DnsName) : Prop :=
  ∀ asked reply, fetcher asked zone typeDs = .ok reply → ofType typeDs reply.answers = [] →
    authenticatedNoDs crypto zone reply.authorities = false

/-- Within so many levels up to a trust anchor, or to the root, every zone has a DNSKEY reply
and none is shown to have no DS. -/
def Vouched : Nat → DnsName → Prop
  | 0, _ => False
  | levels + 1, zone => Keyed fetcher zone ∧
      ((∃ anchor ∈ self.anchors, anchor.zone = zone) ∨
        ∀ parent, zone.parent = some parent → Vouched levels parent ∧ DsStands crypto fetcher zone)

/-- No zone of the table is insecure but those in progress. -/
def Ctx.Clear (ctx : Ctx) (pending : List DnsName) : Prop :=
  ∀ zone, ctx.keys.get? zone = some none → zone ∈ pending

section Walks

variable {crypto fetcher self} {zone : DnsName} {pending : List DnsName} {ctx : Ctx}

theorem Ctx.Clear.enter (clear : ctx.Clear pending) (zone : DnsName) :
    (ctx.enter zone).Clear (zone :: pending) := by
  intro other insecure
  by_cases same : other = zone
  · exact same ▸ List.mem_cons_self
  · exact List.mem_cons_of_mem _ (clear other (by simpa [same] using insecure))

theorem Ctx.Clear.remember {result : Option (List Bytes)} (clear : ctx.Clear (zone :: pending))
    (known : result ≠ none) : (ctx.remember zone result).Clear pending := by
  intro other insecure
  have differs : other ≠ zone := by
    rintro rfl
    exact known (by simpa using insecure)
  exact List.mem_of_ne_of_mem differs (clear other (by simpa [differs] using insecure))

theorem dsOf_ne_insecure {asked : List SetKey} {reply : Message}
    (stands : DsStands crypto fetcher zone) (answered : fetcher asked zone typeDs = .ok reply)
    (keys : List Bytes) : dsOf crypto zone reply keys ≠ .insecure := by
  intro read
  simp only [dsOf] at read
  split at read
  · rename_i empty
    rw [stands asked reply answered (List.isEmpty_iff.mp empty), Bool.and_false] at read
    cases read
  · split at read <;> cases read

theorem settle_ne_none (msg : Message) {ds : DsResult} (known : ds ≠ .insecure) :
    settle crypto zone msg ds ≠ none := by
  cases ds with
  | insecure => exact absurd rfl known
  | bogus => exact Option.some_ne_none _
  | secure set => exact Option.some_ne_none _

variable (crypto fetcher self) in
def Finds (levels : Nat) (zone : DnsName) : Prop :=
  ∀ pending ctx, (∀ other ∈ pending, zone.labels.length < other.labels.length) →
    ctx.Clear pending → (self.dnskeys crypto fetcher levels zone ctx).1 ≠ none ∧
      (self.dnskeys crypto fetcher levels zone ctx).2.Clear pending

theorem delegatedDs_of_finds {levels : Nat}
    (above : ∀ parent, zone.parent = some parent →
      Finds crypto fetcher self levels parent ∧ DsStands crypto fetcher zone)
    (longer : ∀ other ∈ pending, zone.labels.length < other.labels.length)
    (clear : ctx.Clear (zone :: pending)) :
    let ds := delegatedDs crypto fetcher (self.dnskeys crypto fetcher levels) zone ctx
    ds.1 ≠ .insecure ∧ ds.2.Clear (zone :: pending) := by
  simp only [delegatedDs]
  cases up : zone.parent with
  | none => exact ⟨by simp, clear⟩
  | some parent =>
    obtain ⟨finds, stands⟩ := above parent up
    obtain ⟨known, kept⟩ := finds _ ctx (shorter_parent up longer) clear
    simp only
    cases called : self.dnskeys crypto fetcher levels parent ctx with
    | mk result ctx' =>
      rw [called] at known kept
      rcases result with _ | _ | ⟨key, keys⟩
      · exact absurd rfl known
      · exact ⟨by simp, kept⟩
      · simp only
        cases reply : fetcher ctx'.asked zone typeDs with
        | error error => exact ⟨by simp, kept⟩
        | ok ds => exact ⟨dsOf_ne_insecure stands reply _, kept⟩

theorem finds_of_vouched (levels : Nat) (vouched : Vouched crypto fetcher self levels zone) :
    Finds crypto fetcher self levels zone := by
  induction levels generalizing zone with
  | zero => exact absurd vouched id
  | succ levels ih =>
    obtain ⟨keyed, above⟩ := vouched
    intro pending ctx longer clear
    obtain ⟨msg, reply, nonempty⟩ := keyed ctx.asked
    rw [Validator.dnskeys]
    cases found : ctx.keys.get? zone with
    | some cached =>
      refine ⟨?_, clear⟩
      rintro rfl
      exact absurd (longer zone (clear zone found)) (Nat.lt_irrefl _)
    | none =>
      simp only [reply, List.isEmpty_iff, nonempty, if_false]
      cases listed : self.anchors.find? fun anchor => anchor.zone = zone with
      | some anchor =>
        have known : settle crypto zone msg (.secure [anchor.dsRdata]) ≠ none :=
          settle_ne_none msg (by simp)
        exact ⟨known, (clear.enter zone).remember known⟩
      | none =>
        have unanchored : ¬ ∃ anchor ∈ self.anchors, anchor.zone = zone := by
          simpa using listed
        obtain ⟨known, kept⟩ := delegatedDs_of_finds
          (fun parent up => (above.resolve_left unanchored parent up).imp_left ih) longer
          (clear.enter zone)
        exact ⟨settle_ne_none msg known, kept.remember (settle_ne_none msg known)⟩

/-- The entries of zones that never show a key hold none. -/
def Ctx.Bare (fetcher : Fetcher) (ctx : Ctx) : Prop :=
  ∀ zone, Unkeyed fetcher zone → ∀ keys, ctx.keys.get? zone = some (some keys) → keys = []

theorem Ctx.Bare.remember {result : Option (List Bytes)} (bare : ctx.Bare fetcher)
    (own : Unkeyed fetcher zone → ∀ keys, result = some keys → keys = []) :
    (ctx.remember zone result).Bare fetcher := by
  intro other unkeyed keys known
  by_cases same : other = zone
  · subst same
    exact own unkeyed keys (by simpa using known)
  · exact bare other unkeyed keys (by simpa [same] using known)

theorem Ctx.Bare.enter (bare : ctx.Bare fetcher) (zone : DnsName) : (ctx.enter zone).Bare fetcher :=
  bare.remember (by simp)

theorem vouchedKeys_of_bare {msg : Message} (bare : dnskeyData msg = []) (dsSet : List Bytes) :
    vouchedKeys crypto zone msg dsSet = [] := by
  simp [vouchedKeys, bare]

theorem settle_of_bare {msg : Message} (bare : dnskeyData msg = []) (ds : DsResult)
    {keys : List Bytes} (settled : settle crypto zone msg ds = some keys) : keys = [] := by
  cases ds with
  | insecure => cases settled
  | bogus => exact (Option.some.inj settled).symm
  | secure set => exact (Option.some.inj settled) ▸ vouchedKeys_of_bare bare set

theorem Walk.bare {budget : Nat} {ctx' : Ctx} {result : Option (List Bytes)}
    (walk : Walk crypto fetcher self budget zone ctx result ctx') :
    ctx.Bare fetcher → ctx'.Bare fetcher := by
  induction walk with
  | tooDeep => exact id
  | cached => exact id
  | alone _ own =>
    intro bare
    refine (bare.enter _).remember ?_
    intro unkeyed keys known
    cases own with
    | unanswered => cases known
    | keyless => cases known
    | anchored reply =>
      exact (Option.some.inj known) ▸ vouchedKeys_of_bare (unkeyed _ _ reply) _
    | orphan => exact (Option.some.inj known).symm
  | inherited _ _ _ keyless ih =>
    intro bare
    refine (ih (bare.enter _)).remember ?_
    rintro - keys rfl
    exact Option.some.inj (keyless.resolve_left (Option.some_ne_none _))
  | judged _ _ _ _ verdict ih =>
    intro bare
    refine Ctx.Bare.remember (ih (bare.enter _)) ?_
    intro unkeyed keys known
    rcases verdict with ⟨_, _, rfl⟩ | ⟨msg, _, reply, _, rfl⟩
    · exact (Option.some.inj known).symm
    · exact settle_of_bare (unkeyed _ msg reply) _ known

end Walks

/-- The answer section is read first, and its entries stay. -/
theorem answers_grow (msg : Message) :
    (self.verifySection crypto fetcher msg.answers Ctx.new).2.Grows
      (self.run crypto fetcher msg).2 := by
  by_cases consulted : Consulted msg
  · rw [run_consulted crypto fetcher self consulted]
    obtain ⟨⟨answer, ctx⟩, called⟩ : ∃ pair,
      self.verifySection crypto fetcher msg.answers Ctx.new = pair := ⟨_, rfl⟩
    have grows : ctx.Grows (self.verifySection crypto fetcher msg.authorities ctx).2 :=
      (verifySets_reads crypto fetcher self msg.authorities _ false ctx).grows
    simp only [called]
    split
    · exact .refl ctx
    · split <;> exact grows
  · rw [run_unconsulted crypto fetcher self consulted]
    simp only
    split <;> exact .refl _

variable {crypto fetcher self} {msg : Message}

/-- The signatures over the answer, and over the authorities looked at, name one signer. -/
def OneSigner (msg : Message) : Prop :=
  ∃ signer, ∀ sig, Signs msg sig → ∀ fields, parseRrsig sig = some fields → fields.signer = signer

/-- Every RRset of the answer is signed, and its signers have keys: either they are the
same for all that was signed, or each is vouched for. -/
structure Backed (crypto : Crypto) (fetcher : Fetcher) (validator : Validator) (msg : Message) :
    Prop where
  signed : ∀ set ∈ sectionSets msg.answers, sigsFor msg.answers set ≠ []
  signers : OneSigner msg ∨ ∀ set ∈ sectionSets msg.answers, ∀ sig ∈ sigsFor msg.answers set,
    ∀ fields, parseRrsig sig = some fields →
      Vouched crypto fetcher validator (maxDepth + 1) fields.signer

theorem sound_of_secure (verdict : self.validate crypto fetcher msg = .secure) :
    Sound crypto (self.keysSeen crypto fetcher msg) msg.answers :=
  ((run_reads crypto fetcher self msg).secure.mp verdict).1

/-- A secure verdict rests on a signature of the sections looked at. -/
theorem signs_of_secure (verdict : self.validate crypto fetcher msg = .secure) :
    ∃ sig, Signs msg sig ∧ ∃ fields, parseRrsig sig = some fields ∧
      self.keysSeen crypto fetcher msg fields.signer ≠ none := by
  have accepted : ∀ records set sig,
      judge crypto (self.keysSeen crypto fetcher msg) records set = .secure sig →
      sig ∈ sigsFor records set ∧ ∃ fields, parseRrsig sig = some fields ∧
        self.keysSeen crypto fetcher msg fields.signer ≠ none := by
    intro records set sig outcome
    obtain ⟨listed, fields, parsed, keys, known, _⟩ := judge_secure outcome
    exact ⟨listed, fields, parsed, by simp [known]⟩
  have answers : Vouches crypto (self.keysSeen crypto fetcher msg) msg.answers →
      ∃ sig, Signs msg sig ∧ ∃ fields, parseRrsig sig = some fields ∧
        self.keysSeen crypto fetcher msg fields.signer ≠ none := by
    rintro ⟨set, member, sig, outcome⟩
    obtain ⟨listed, named⟩ := accepted _ _ _ outcome
    exact ⟨sig, .inl ⟨set, member, listed⟩, named⟩
  obtain ⟨_, ⟨_, vouches⟩ | ⟨consulted, _, ⟨⟨set, member, sig, outcome⟩, _⟩ | ⟨vouches, _⟩⟩⟩ :=
    (run_reads crypto fetcher self msg).secure.mp verdict
  · exact answers vouches
  · obtain ⟨listed, named⟩ := accepted _ _ _ outcome
    exact ⟨sig, .inr ⟨consulted, set, member, listed⟩, named⟩
  · exact answers vouches

/-- No RRset of a backed answer is left to a signer without keys. -/
theorem Backed.not_insecure (backed : Backed crypto fetcher self msg)
    (verdict : self.validate crypto fetcher msg = .secure) {set : SetKey}
    (member : set ∈ sectionSets msg.answers) (sig : Bytes) :
    judge crypto (self.keysSeen crypto fetcher msg) msg.answers set ≠ .insecure sig := by
  intro outcome
  rcases backed.signers with ⟨signer, one⟩ | vouched
  · obtain ⟨listed, fields, parsed, keyless⟩ := judge_insecure outcome
    obtain ⟨sig', signs, fields', parsed', known⟩ := signs_of_secure verdict
    rw [one sig' signs fields' parsed'] at known
    rw [one sig (.inl ⟨set, member, listed⟩) fields parsed] at keyless
    exact known keyless
  · -- The table of the answer section alone has no insecure zone, and judges alike.
    have reads := verifySets_reads crypto fetcher self msg.answers (sectionSets msg.answers) false
      Ctx.new
    obtain ⟨⟨answer, ctx⟩, called⟩ : ∃ pair, self.verifySets crypto fetcher msg.answers
      (sectionSets msg.answers) false Ctx.new = pair := ⟨_, rfl⟩
    have clear : ctx.Clear [] := by
      have kept := verifySets_invariant (fun set member sig listed fields parsed ctx clear =>
        (finds_of_vouched _ (vouched set member sig listed fields parsed) [] ctx (by simp)
          clear).2) false Ctx.new (fun _ => by simp [Ctx.new])
      rwa [called] at kept
    have within : ctx.Within (self.keysSeen crypto fetcher msg) := by
      have grows := answers_grow crypto fetcher self msg
      rw [Validator.verifySection, called] at grows
      exact grows.within (Ctx.within_table _)
    rw [called] at reads
    have quiet : answer.bogus = false := by
      rw [← Bool.not_eq_true, reads.bogus_iff crypto within, not_not]
      exact sound_of_secure verdict
    rw [reads.stable _ ctx.table within ctx.within_table quiet set member] at outcome
    obtain ⟨_, fields, _, keyless⟩ := judge_insecure outcome
    exact absurd (clear _ ((ctx.table_none_iff _).mp keyless)) (List.not_mem_nil)

theorem Backed.authenticated (backed : Backed crypto fetcher self msg)
    (verdict : self.validate crypto fetcher msg = .secure) {set : SetKey}
    (member : set ∈ sectionSets msg.answers) :
    Authenticated crypto (self.keysSeen crypto fetcher msg) msg.answers set := by
  cases outcome : judge crypto (self.keysSeen crypto fetcher msg) msg.answers set with
  | unsigned =>
    exact absurd ((judge_unsigned_iff _ _ _).mp outcome) (backed.signed set member)
  | insecure sig => exact absurd outcome (backed.not_insecure verdict member sig)
  | secure sig => exact ⟨sig, judge_secure outcome⟩
  | bogus => exact absurd outcome (sound_of_secure verdict set member)

variable (crypto fetcher self msg) in
theorem run_bare : (self.run crypto fetcher msg).2.Bare fetcher :=
  run_invariant (fun _ _ fields _ ctx bare =>
    (walk_dnskeys crypto fetcher self (maxDepth + 1) fields.signer ctx).bare bare)
    (fun _ _ _ known => by cases known)

theorem not_authenticated_of_unkeyed {records : List Record} {set : SetKey}
    (unkeyed : ∀ sig ∈ sigsFor records set, ∀ fields, parseRrsig sig = some fields →
      Unkeyed fetcher fields.signer) :
    ¬ Authenticated crypto (self.keysSeen crypto fetcher msg) records set := by
  rintro ⟨sig, member, fields, parsed, keys, known, key, listed, _⟩
  have bare := run_bare crypto fetcher self msg fields.signer (unkeyed sig member fields parsed)
  rw [bare keys (Ctx.get?_of_table known (List.ne_nil_of_mem listed))] at listed
  cases listed

/-! ## A signed zone -/

namespace Toy

/-- A scheme in which the key holder signs by appending the data to the key. -/
def scheme : Crypto where
  ed25519 key data signature := decide (signature = key ++ data)
  ecdsaP256Sha256 _ _ _ := false
  ecdsaP384Sha384 _ _ _ := false
  rsaSha1 _ _ _ _ := false
  rsaSha256 _ _ _ _ := false
  rsaSha512 _ _ _ _ := false
  sha1 data := data
  sha256 data := data

def zone : DnsName := ⟨[[101, 120, 97, 109, 112, 108, 101]], by decide⟩

def host : DnsName := ⟨[[119, 119, 119], [101, 120, 97, 109, 112, 108, 101]], by decide⟩

def outside : DnsName := ⟨[[98, 97, 110, 107], [116, 101, 115, 116]], by decide⟩

def publicKey : Bytes := [7, 7, 7]

def dnskey : Bytes := [1, 1, 3, algEd25519] ++ publicKey

def anchored : Validator :=
  ⟨[⟨zone, toBe16 (keyTag dnskey) ++ [algEd25519, 2] ++ (zone.toWire [] none).1 ++ dnskey⟩]⟩

def sign (labels : UInt8) (rrset : List Record) (covered : UInt16) : Bytes :=
  let head := toBe16 covered ++ [algEd25519, labels] ++ toBe32 300 ++ toBe32 0 ++ toBe32 0 ++
    toBe16 (keyTag dnskey) ++ (zone.toWire [] none).1
  head ++ publicKey ++ head ++ (rrset.map fun record =>
    (record.encodeCanonical 300 ([], Compressor.default)).1).flatten

def rawRecord (owner : DnsName) (rtype : UInt16) (data : Bytes) : Record :=
  ⟨owner, classIn, 300, .unknown rtype data⟩

def address (owner : DnsName) : Record := ⟨owner, classIn, 300, .a (.new 10 0 0 1)⟩

def keyRecord : Record := rawRecord zone typeDnskey dnskey

def servers : Fetcher := fun _ name qtype =>
  if name = zone ∧ qtype = typeDnskey then
    .ok { Message.new 0 Flags.default with
      answers := [keyRecord, rawRecord zone typeRrsig (sign 1 [keyRecord] typeDnskey)] }
  else .error .timeout

def reply (answers : List Record) : Message :=
  { Message.new 0 Flags.default with questions := [⟨host, typeA, classIn⟩], answers }

def signedHost : List Record :=
  [address host, rawRecord host typeRrsig (sign 2 [address host] typeA)]

def forgedHost : List Record :=
  [⟨host, classIn, 300, .a (.new 6 6 6 6)⟩,
    rawRecord host typeRrsig (sign 2 [address host] typeA)]

def signedOutside : List Record :=
  [address outside, rawRecord outside typeRrsig (sign 2 [address outside] typeA)]

end Toy

theorem Toy.signedHost_backed :
    Backed Toy.scheme Toy.servers Toy.anchored (Toy.reply Toy.signedHost) := by
  have sets : sectionSets Toy.signedHost = [(Toy.host, typeA)] := by decide +kernel
  have sigs : sigsFor Toy.signedHost (Toy.host, typeA) =
      [Toy.sign 2 [Toy.address Toy.host] typeA] := by decide +kernel
  have signer : (parseRrsig (Toy.sign 2 [Toy.address Toy.host] typeA)).map (·.signer) =
      some Toy.zone := by decide +kernel
  refine ⟨by simp [Toy.reply, sets, sigs], .inr ?_⟩
  simp only [Toy.reply, sets, List.forall_mem_singleton, sigs]
  intro fields parsed
  have same : fields.signer = Toy.zone := by simpa [parsed] using signer
  rw [same]
  refine ⟨fun asked => ⟨_, rfl, by decide +kernel⟩, .inl ⟨_, List.mem_cons_self, rfl⟩⟩

end Rdns.Resolver
