import Rdns.Resolver.Secure

/-!
# What the keys of a zone rest on

The keys of a zone that has no trust anchor are in the table only where two replies
vouch for them: DS records that a validated key of the parent has signed, and DNSKEY
records that a key with such a DS has signed.  Both are picked out of the replies by
their type alone, and only a digest is tied to the name of the zone.  So the keys rest
on records of the zone itself where the replies hold no others, and on those of somebody
else where a reply holds none of the zone.
-/

set_option autoImplicit false

namespace Rdns.Resolver

open Rdns.Lib Rdns.Proto Rdns.Dnssec

variable (crypto : Crypto) (fetcher : Fetcher) (self : Validator)

/-! ## Evidence -/

/-- Of the records picked from a DNSKEY and a DS reply: a key of the parent has signed the
DS records, and a key that one of them matches has signed the DNSKEY records. -/
def Evidence (pick : UInt16 → List Record → List Record) (zone : DnsName)
    (parentKeys : List Bytes) (msg reply : Message) : Prop :=
  (∃ sig ∈ signatures reply.answers, ∃ key ∈ parentKeys,
    verifyRrsig crypto (pick typeDs reply.answers) sig key = true) ∧
  ∃ key ∈ (pick typeDnskey msg.answers).filterMap unknownData,
    (∃ ds ∈ (pick typeDs reply.answers).filterMap unknownData,
      verifyDs crypto zone key ds = true) ∧
    ∃ sig ∈ signatures msg.answers,
      verifyRrsig crypto (pick typeDnskey msg.answers) sig key = true

def ownedBy (zone : DnsName) (rtype : UInt16) (records : List Record) : List Record :=
  rrsetOf records (zone, rtype)

variable {crypto} {zone : DnsName} {msg : Message} in
theorem vouched_of_ne_nil {dsSet : List Bytes} (kept : vouchedKeys crypto zone msg dsSet ≠ []) :
    ∃ key ∈ dnskeyData msg, (∃ ds ∈ dsSet, verifyDs crypto zone key ds = true) ∧
      ∃ sig ∈ signatures msg.answers,
        verifyRrsig crypto (ofType typeDnskey msg.answers) sig key = true := by
  simp only [vouchedKeys] at kept
  split at kept
  · exact absurd rfl kept
  split at kept
  · rename_i signed
    obtain ⟨sig, member, accepted⟩ := List.any_eq_true.mp signed
    obtain ⟨key, trusted, verified⟩ := List.any_eq_true.mp accepted
    obtain ⟨listed, vouched⟩ := List.mem_filter.mp trusted
    obtain ⟨ds, held, matched⟩ := List.any_eq_true.mp vouched
    exact ⟨key, listed, ⟨ds, held, matched⟩, sig, member, verified⟩
  · exact absurd rfl kept

variable {crypto} {zone : DnsName} {msg : Message} in
theorem evidence_of_settle {parentKeys keys : List Bytes} {reply : Message}
    (settled : settle crypto zone msg (dsOf crypto zone reply parentKeys) = some keys)
    (some : keys ≠ []) : Evidence crypto ofType zone parentKeys msg reply := by
  simp only [dsOf] at settled
  split at settled
  · split at settled
    · cases settled
    · cases settled
      exact absurd rfl some
  split at settled
  · rename_i signed
    cases settled
    exact ⟨by simpa only [List.any_eq_true] using signed, vouched_of_ne_nil some⟩
  · cases settled
    exact absurd rfl some

/-! ## Replies of a walk -/

/-- The contexts of a validation: after any calls of `dnskeys` from a new one. -/
inductive Reached : Ctx → Prop
  | new : Reached Ctx.new
  | call {ctx : Ctx} (zone : DnsName) (before : Reached ctx) :
      Reached (self.dnskeys crypto fetcher (maxDepth + 1) zone ctx).2

theorem run_reached (msg : Message) : Reached crypto fetcher self (self.run crypto fetcher msg).2 :=
  run_invariant (fun _ _ fields _ _ before => .call fields.signer before) .new

/-- The reply to a question that was asked; it may depend on all that was asked before. -/
def Replied (ctx : Ctx) (question : SetKey) (msg : Message) : Prop :=
  ∃ earlier, (question :: earlier) <:+ ctx.asked ∧
    fetcher earlier question.1 question.2 = .ok msg

structure Rests (ctx : Ctx) (zone : DnsName) (parentKeys : List Bytes) (msg reply : Message) :
    Prop where
  parent : ∃ parent, zone.parent = some parent ∧ ctx.keys.get? parent = some (some parentKeys)
  keys : Replied fetcher ctx (zone, typeDnskey) msg
  ds : Replied fetcher ctx (zone, typeDs) reply

def Judged (ctx : Ctx) (zone : DnsName) : Prop :=
  ∃ parent keys result before, zone.parent = some parent ∧
    ctx.keys.get? parent = some (some keys) ∧ ctx.keys.get? zone = some result ∧
    ((zone, typeDs) :: before) <:+ ctx.asked ∧
    ((∃ error, fetcher before zone typeDs = .error error ∧ result = some []) ∨
      ∃ msg reply, Replied fetcher ctx (zone, typeDnskey) msg ∧
        fetcher before zone typeDs = .ok reply ∧
        result = settle crypto zone msg (dsOf crypto zone reply keys))

def Validator.Unanchored (zone : DnsName) : Prop := ∀ anchor ∈ self.anchors, anchor.zone ≠ zone

/-- Every question was asked once at most, DS questions only where the reply decided; the
zones in progress have not come to theirs. -/
structure Tracked (validator : Validator) (pending : List DnsName) (ctx : Ctx) : Prop where
  once : ctx.asked.Nodup
  missed : ∀ zone, ctx.keys.get? zone = none →
    (zone, typeDnskey) ∉ ctx.asked ∧ (zone, typeDs) ∉ ctx.asked
  pending : ∀ zone ∈ pending, ctx.keys.get? zone = some none ∧ (zone, typeDs) ∉ ctx.asked
  judged : ∀ zone, (zone, typeDs) ∈ ctx.asked → Judged crypto fetcher ctx zone
  grounded : ∀ zone keys, ctx.keys.get? zone = some (some keys) → keys ≠ [] →
    validator.Unanchored zone → (zone, typeDs) ∈ ctx.asked

section Tracked

variable {crypto fetcher self} {pending : List DnsName} {ctx ctx' : Ctx} {zone : DnsName}
  {result : Option (List Bytes)}

theorem Replied.mono {question : SetKey} {msg : Message}
    (replied : Replied fetcher ctx question msg) (asked : ctx.asked <:+ ctx'.asked) :
    Replied fetcher ctx' question msg := by
  obtain ⟨earlier, before, reply⟩ := replied
  exact ⟨earlier, before.trans asked, reply⟩

theorem Judged.mono (judged : Judged crypto fetcher ctx zone) (asked : ctx.asked <:+ ctx'.asked)
    (own : ctx'.keys.get? zone = ctx.keys.get? zone)
    (keeps : ∀ other keys, ctx.keys.get? other = some (some keys) →
      ctx'.keys.get? other = some (some keys)) : Judged crypto fetcher ctx' zone := by
  obtain ⟨parent, keys, result, before, above, known, entry, questioned, verdict⟩ := judged
  refine ⟨parent, keys, result, before, above, keeps parent keys known, own.trans entry,
    questioned.trans asked, verdict.imp_right ?_⟩
  rintro ⟨msg, reply, replied, rest⟩
  exact ⟨msg, reply, replied.mono asked, rest⟩

theorem ds_ne_dnskey (zone other : DnsName) : (zone, typeDs) ≠ (other, typeDnskey) := by
  intro same
  exact absurd (congrArg Prod.snd same) (by decide : typeDs ≠ typeDnskey)

theorem get?_remember_eq_none {other : DnsName} :
    (ctx.remember zone result).keys.get? other = none ↔
      other ≠ zone ∧ ctx.keys.get? other = none := by
  by_cases same : other = zone
  · simp [same]
  · simp [same]

theorem Tracked.not_pending (tracked : Tracked crypto fetcher self pending ctx)
    (missed : ctx.keys.get? zone = none) : zone ∉ pending :=
  fun member => ne_of_missed missed (tracked.pending zone member).1 rfl

theorem Tracked.enter (tracked : Tracked crypto fetcher self pending ctx)
    (missed : ctx.keys.get? zone = none) :
    Tracked crypto fetcher self (zone :: pending) (ctx.enter zone) := by
  obtain ⟨keysNew, dsNew⟩ := tracked.missed zone missed
  have dsOld : ∀ other, (other, typeDs) ∈ (ctx.enter zone).asked → (other, typeDs) ∈ ctx.asked :=
    fun other member => (List.mem_cons.mp member).resolve_left (ds_ne_dnskey other zone)
  refine ⟨List.nodup_cons.mpr ⟨keysNew, tracked.once⟩, ?_, ?_, ?_, ?_⟩
  · intro other absent
    obtain ⟨differs, missed'⟩ := get?_remember_eq_none.mp absent
    obtain ⟨noKeys, noDs⟩ := tracked.missed other missed'
    refine ⟨fun member => ?_, fun member => noDs (dsOld other member)⟩
    rcases List.mem_cons.mp member with same | old
    · exact differs (congrArg Prod.fst same)
    · exact noKeys old
  · refine List.forall_mem_cons.mpr ⟨⟨by simp, fun member => dsNew (dsOld zone member)⟩, ?_⟩
    intro other member
    obtain ⟨placed, noDs⟩ := tracked.pending other member
    have differs := ne_of_missed missed placed
    exact ⟨by simpa [differs] using placed, fun member => noDs (dsOld other member)⟩
  · intro other member
    have differs : other ≠ zone := by
      rintro rfl
      exact dsNew (dsOld other member)
    refine (tracked.judged other (dsOld other member)).mono (List.suffix_cons _ _)
      (by simp [differs]) fun known keys entry => ?_
    have apart := ne_of_missed missed entry
    simpa [apart] using entry
  · intro other keys entry some unanchored
    have differs : other ≠ zone := by
      rintro rfl
      simp at entry
    exact List.mem_cons_of_mem _
      (tracked.grounded other keys (by simpa [differs] using entry) some unanchored)

theorem Tracked.close (tracked : Tracked crypto fetcher self (zone :: pending) ctx)
    (free : zone ∉ pending)
    (keyless : ∀ keys, result = some keys → keys ≠ [] → ¬ self.Unanchored zone) :
    Tracked crypto fetcher self pending (ctx.remember zone result) := by
  obtain ⟨⟨placed, noDs⟩, rest⟩ := List.forall_mem_cons.mp tracked.pending
  refine ⟨tracked.once, ?_, ?_, ?_, ?_⟩
  · intro other absent
    exact tracked.missed other (get?_remember_eq_none.mp absent).2
  · intro other member
    have differs : other ≠ zone := fun same => free (same ▸ member)
    exact ⟨by simpa [differs] using (rest other member).1, (rest other member).2⟩
  · intro other member
    have differs : other ≠ zone := by
      rintro rfl
      exact noDs member
    exact (tracked.judged other member).mono (List.suffix_refl _) (by simp [differs])
      fun known keys entry => get?_remember_of_placed placed entry
  · intro other keys entry some unanchored
    by_cases same : other = zone
    · subst same
      exact absurd unanchored (keyless keys (by simpa using entry) some)
    · exact tracked.grounded other keys (by simpa [same] using entry) some unanchored

theorem Tracked.conclude (tracked : Tracked crypto fetcher self (zone :: pending) ctx)
    (free : zone ∉ pending)
    (judged : Judged crypto fetcher ((ctx.ask zone typeDs).remember zone result) zone) :
    Tracked crypto fetcher self pending ((ctx.ask zone typeDs).remember zone result) := by
  obtain ⟨⟨placed, noDs⟩, rest⟩ := List.forall_mem_cons.mp tracked.pending
  have older : ∀ other, other ≠ zone →
      (other, typeDs) ∈ (zone, typeDs) :: ctx.asked → (other, typeDs) ∈ ctx.asked :=
    fun other differs member =>
      (List.mem_cons.mp member).resolve_left fun same => differs (congrArg Prod.fst same)
  refine ⟨List.nodup_cons.mpr ⟨noDs, tracked.once⟩, ?_, ?_, ?_, ?_⟩
  · intro other absent
    obtain ⟨differs, missed⟩ := get?_remember_eq_none.mp absent
    obtain ⟨noKeys, noDs'⟩ := tracked.missed other missed
    refine ⟨fun member => ?_, fun member => noDs' (older other differs member)⟩
    rcases List.mem_cons.mp member with same | old
    · exact ds_ne_dnskey zone other same.symm
    · exact noKeys old
  · intro other member
    have differs : other ≠ zone := fun same => free (same ▸ member)
    exact ⟨by simpa [differs] using (rest other member).1,
      fun asked => (rest other member).2 (older other differs asked)⟩
  · intro other member
    by_cases same : other = zone
    · rw [same]
      exact judged
    · exact (tracked.judged other (older other same member)).mono (List.suffix_cons _ _)
        (by simp [same]) fun known keys entry => get?_remember_of_placed placed entry
  · intro other keys entry some unanchored
    by_cases same : other = zone
    · rw [same]
      exact List.mem_cons_self
    · exact List.mem_cons_of_mem _
        (tracked.grounded other keys (by simpa [same] using entry) some unanchored)

namespace Walk

variable {budget : Nat}

theorem asked_suffix (walk : Walk crypto fetcher self budget zone ctx result ctx') :
    ctx.asked <:+ ctx'.asked := by
  induction walk with
  | tooDeep => exact List.suffix_refl _
  | cached => exact List.suffix_refl _
  | alone _ _ => exact List.suffix_cons _ _
  | inherited _ _ _ _ ih => exact (List.suffix_cons _ _).trans ih
  | judged _ _ _ _ _ ih => exact ((List.suffix_cons _ _).trans ih).trans (List.suffix_cons _ _)

theorem records_keys {keys : List Bytes}
    (walk : Walk crypto fetcher self budget zone ctx (some keys) ctx') :
    ctx'.keys.get? zone = some (some keys) := by
  cases budget with
  | zero => cases walk
  | succ budget => exact walk.records

theorem tracked (walk : Walk crypto fetcher self budget zone ctx result ctx') :
    ∀ pending, Tracked crypto fetcher self pending ctx →
      Tracked crypto fetcher self pending ctx' := by
  induction walk with
  | tooDeep => exact fun _ tracked => tracked
  | cached => exact fun _ tracked => tracked
  | @alone budget zone ctx result missed own =>
    intro pending tracked
    refine (tracked.enter missed).close (tracked.not_pending missed)
      fun keys same some unanchored => ?_
    cases own with
    | unanswered => cases same
    | keyless => cases same
    | anchored _ listed isZone => exact unanchored _ listed isZone
    | orphan =>
      cases same
      exact some rfl
  | @inherited budget zone parent ctx ctx' result missed above walk keyless ih =>
    intro pending tracked
    refine (ih (zone :: pending) (tracked.enter missed)).close (tracked.not_pending missed)
      fun keys same some unanchored => ?_
    rcases keyless with none | empty
    · rw [none] at same
      cases same
    · rw [empty] at same
      cases same
      exact some rfl
  | @judged budget zone parent ctx ctx' keys result missed above walk nonempty verdict ih =>
    intro pending tracked
    refine (ih (zone :: pending) (tracked.enter missed)).conclude (tracked.not_pending missed) ?_
    have apart : parent ≠ zone := by
      rintro rfl
      have length := parent_length above
      omega
    refine ⟨parent, keys, result, ctx'.asked, above, by simpa [apart] using walk.records_keys,
      by simp, List.suffix_refl _, verdict.imp_right ?_⟩
    rintro ⟨msg, reply, keysReply, dsReply, settled⟩
    exact ⟨msg, reply, ⟨ctx.asked, walk.asked_suffix.trans (List.suffix_cons _ _), keysReply⟩,
      dsReply, settled⟩

end Walk

theorem Reached.tracked (reached : Reached crypto fetcher self ctx) :
    Tracked crypto fetcher self [] ctx := by
  induction reached with
  | new =>
    refine ⟨List.nodup_nil, fun _ _ => ⟨List.not_mem_nil, List.not_mem_nil⟩,
      List.forall_mem_nil _, fun _ impossible => absurd impossible List.not_mem_nil, ?_⟩
    intro zone keys impossible
    cases impossible
  | @call ctx zone before ih =>
    exact (walk_dnskeys crypto fetcher self (maxDepth + 1) zone ctx).tracked [] ih

variable (crypto fetcher self) in
/-- Whatever the servers answer, no question is put to them twice for one message. -/
theorem run_asks_once (msg : Message) : (self.run crypto fetcher msg).2.asked.Nodup :=
  (run_reached crypto fetcher self msg).tracked.once

/-- The keys of a zone without an anchor are vouched for by the replies to its two
questions, all records of the type taken together. -/
theorem Reached.evidence (reached : Reached crypto fetcher self ctx)
    (unanchored : self.Unanchored zone) {keys : List Bytes}
    (entry : ctx.keys.get? zone = some (some keys)) (some : keys ≠ []) :
    ∃ parentKeys msg reply, Rests fetcher ctx zone parentKeys msg reply ∧
      Evidence crypto ofType zone parentKeys msg reply := by
  have asked := reached.tracked.grounded zone keys entry some unanchored
  obtain ⟨parent, parentKeys, result, before, above, known, entry', questioned, verdict⟩ :=
    reached.tracked.judged zone asked
  rw [entry] at entry'
  cases entry'
  rcases verdict with ⟨_, _, empty⟩ | ⟨msg, reply, replied, dsReply, settled⟩
  · cases empty
    exact absurd rfl some
  · exact ⟨parentKeys, msg, reply, ⟨⟨parent, above, known⟩, replied, before, questioned, dsReply⟩,
      evidence_of_settle settled.symm some⟩

end Tracked

/-- The validated keys of a zone rest on records of the zone itself: one of its DNSKEY
records matches one of its DS records, which the parent has signed, and has signed its
DNSKEY records. -/
def OwnEvidence (ctx : Ctx) (zone : DnsName) : Prop :=
  ∃ parentKeys msg reply, Rests fetcher ctx zone parentKeys msg reply ∧
    Evidence crypto (ownedBy zone) zone parentKeys msg reply

/-- The replies to the two questions about the zone hold records of the type asked for at
the zone only. -/
def InPlace (zone : DnsName) : Prop :=
  ∀ asked qtype msg, qtype = typeDnskey ∨ qtype = typeDs → fetcher asked zone qtype = .ok msg →
    ∀ record ∈ msg.answers, record.rtype = qtype → record.name = zone

/-- To one of the two questions no reply holds a record of the zone. -/
def Foreign (zone : DnsName) : Prop :=
  ∃ qtype, (qtype = typeDnskey ∨ qtype = typeDs) ∧ ∀ asked msg,
    fetcher asked zone qtype = .ok msg → ownedBy zone qtype msg.answers = []

variable {fetcher} in
theorem InPlace.owned {zone : DnsName} (inPlace : InPlace fetcher zone) {ctx : Ctx}
    {qtype : UInt16} (kind : qtype = typeDnskey ∨ qtype = typeDs) {msg : Message}
    (replied : Replied fetcher ctx (zone, qtype) msg) :
    ofType qtype msg.answers = ownedBy zone qtype msg.answers := by
  obtain ⟨earlier, _, reply⟩ := replied
  refine List.filter_congr fun record member => ?_
  have name := inPlace earlier qtype msg kind reply record member
  by_cases typed : record.rtype = qtype
  · simp [typed, name typed]
  · simp [typed]

namespace Toy

def sibling : DnsName :=
  ⟨[[101, 118, 105, 108], [101, 120, 97, 109, 112, 108, 101]], by decide⟩

def childPublic : Bytes := [6, 6, 6]

def childKey : Bytes := [1, 1, 3, algEd25519] ++ childPublic

def childKeyRecord : Record := rawRecord host typeDnskey childKey

def childSign (rrset : List Record) (covered : UInt16) : Bytes :=
  let head := toBe16 covered ++ [algEd25519, 2] ++ toBe32 300 ++ toBe32 0 ++ toBe32 0 ++
    toBe16 (keyTag childKey) ++ (host.toWire [] none).1
  head ++ childPublic ++ head ++ (rrset.map fun record =>
    (record.encodeCanonical 300 ([], Compressor.default)).1).flatten

/-- A DS record with the digest of the key under the name `www.example.`, wherever it is
published. -/
def dsRecord (owner : DnsName) : Record :=
  rawRecord owner typeDs
    (toBe16 (keyTag childKey) ++ [algEd25519, 2] ++ (host.toWire [] none).1 ++ childKey)

def dsReply (owner : DnsName) : Message :=
  { Message.new 0 Flags.default with
    answers := [dsRecord owner, rawRecord owner typeRrsig (sign 2 [dsRecord owner] typeDs)] }

def childKeyReply : Message :=
  { Message.new 0 Flags.default with
    answers := [childKeyRecord,
      rawRecord host typeRrsig (childSign [childKeyRecord] typeDnskey)] }

def childServers (owner : DnsName) : Fetcher := fun asked name qtype =>
  if name = host ∧ qtype = typeDs then .ok (dsReply owner)
  else if name = host ∧ qtype = typeDnskey then .ok childKeyReply
  else servers asked name qtype

theorem childServers_inPlace : InPlace (childServers host) host := by
  intro asked qtype msg kind reply record member _
  have dsNames : ∀ record ∈ (dsReply host).answers, record.name = host := by decide
  have keyNames : ∀ record ∈ childKeyReply.answers, record.name = host := by decide
  rcases kind with rfl | rfl
  · cases reply
    exact keyNames record member
  · cases reply
    exact dsNames record member

theorem host_unanchored : anchored.Unanchored host := by
  intro anchor listed
  rw [List.mem_singleton.mp listed]
  decide

end Toy

end Rdns.Resolver
