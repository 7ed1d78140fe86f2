import Rdns.Xfr.Pull

/-!
# Full transfers

What `axfr_messages` sends against what `axfr_pull` makes of it.  The records are
chunked by count but a frame is limited in octets: a message that outgrows its
length prefix is announced with its length modulo 2^16, and the stream behind it
is read at the wrong places.
-/

set_option autoImplicit false

namespace Rdns.Xfr

open Rdns.Lib Rdns.Proto Rdns.Zones Rdns.Tsig

/-- A query that the server answers with a transfer of the zone. -/
structure AxfrQuery (zone : Zone) (query : Message) : Prop where
  opcode : query.flags.opcode = 0
  asked : ∃ qclass, query.questions = [⟨zone.origin, typeAxfr, qclass⟩]

def WellFramed (framed : Bytes) : Prop :=
  ∃ high low body msg, framed = high :: low :: body ∧
    (ofBe16 high low).toNat = body.length ∧ Message.parse body = .ok msg

/-- Out and in again: well framed, and the loop collects exactly the records of the
zone, which make a zone with the same SOA. -/
def AxfrInverse (hmac : Hmac) (key : Option TsigKey) (requestMac : Bytes) (clock : Nat → UInt64)
    (zone : Zone) (query : Message) : Prop :=
  (∀ framed ∈ axfrMessages zone query, WellFramed framed) ∧
    ∃ pull pulled, accumulate hmac key query.id requestMac clock
        (axfrMessages zone query).flatten = .ok pull ∧
      pull.records.Perm (stored zone.records) ∧
      Zone.fromRecords zone.origin pull.records = .ok pulled ∧ pulled.soa = zone.soa

def replyLayout (query : Message) (chunk : List Record) : List Item :=
  List.replicate 6 (gap 2) ++ (query.questions.flatMap Question.layout ++
    (chunk.flatMap Record.layout ++ ednsLayout (query.edns.map fun _ => Edns.ours)))

/-- A message of these parts stays within a frame, and no name in it hangs on more
pointers than a decoder follows. -/
def Fits (items : List Item) : Prop :=
  (∀ before name after, items = before ++ .name name :: after →
    (Ledger.of before).chain name ≤ maxPointerJumps) ∧ (Ledger.of items).length ≤ 65535

/-! ## The messages of a transfer -/

def carrying (query : Message) (chunk : List Record) : Message :=
  let reply := Message.responseTo query
  { reply with flags := { reply.flags with aa := true }, answers := chunk }

theorem carrying_layout (query : Message) (chunk : List Record) :
    (carrying query chunk).layout = replyLayout query chunk := by
  simp [Message.layout, Message.layoutBefore, replyLayout, carrying, Message.responseTo,
    Message.new, List.replicate]

theorem carrying_regular {query : Message} {q : Question} (opcode : query.flags.opcode = 0)
    (questions : query.questions = [q]) (lowercase : q.qname.Lowercase) {chunk : List Record}
    (short : chunk.length ≤ axfrChunk) (regular : ∀ record ∈ chunk, record.Regular) :
    (carrying query chunk).Regular := by
  have additional : ([] : List Record).length +
      (if (query.edns.map fun _ => Edns.ours).isSome then 1 else 0) ≤ 65535 := by
    split <;> simp
  refine ⟨?_, Nat.zero_lt_succ _, ?_, short.trans (by decide), Nat.zero_le _, additional, ?_,
    regular, List.forall_mem_nil _, List.forall_mem_nil _, ?_⟩
  · change query.flags.opcode.toNat < 16
    rw [opcode]
    decide
  · change query.questions.length ≤ 65535
    rw [questions, List.length_singleton]
    decide
  · change ∀ question ∈ query.questions, question.qname.Lowercase
    rw [questions]
    exact List.forall_mem_singleton.mpr lowercase
  · intro edns member
    obtain ⟨_, _, rfl⟩ := Option.mem_map.mp member
    exact Nat.zero_le _

theorem wellFramed_iff {query : Message} {chunk : List Record}
    (regular : (carrying query chunk).Regular) :
    WellFramed (frame (carrying query chunk)) ↔ Fits (replyLayout query chunk) := by
  have settled := parse_encode_settles _ regular
  have legible := legible_iff (carrying query chunk).layout []
  have length := encode_length _ regular
  rw [carrying_layout] at settled legible length
  constructor
  · rintro ⟨high, low, body, msg, split, prefixed, parsed⟩
    rw [frame, toBe16] at split
    obtain ⟨rfl, rfl, rfl⟩ : _ = high ∧ _ = low ∧ _ = body := by
      simpa only [List.cons_append, List.nil_append, List.cons.injEq] using split
    have short : (carrying query chunk).encode.length ≤ 65535 := by
      rw [← prefixed]
      exact Nat.le_of_lt_succ (UInt16.toNat_lt _)
    refine ⟨legible.mp (Classical.not_not.mp fun broken => ?_), length ▸ short⟩
    obtain ⟨error, failed⟩ := settled.2 broken
    rw [parsed] at failed
    cases failed
  · rintro ⟨chains, short⟩
    have small : (carrying query chunk).encode.length ≤ 65535 := length ▸ short
    refine ⟨_, _, _, _, rfl, ?_, settled.1 (legible.mpr chains)⟩
    have word : ofBe16 (UInt16.ofNat (carrying query chunk).encode.length >>> 8).toUInt8
        (UInt16.ofNat (carrying query chunk).encode.length).toUInt8 =
          UInt16.ofNat (carrying query chunk).encode.length := ofBe16_toBe16 _
    rw [word, ofNat16_toNat _ small]
    rfl

/-! ## The receiving loop -/

/-- An unsigned reply that arrives as it was sent. -/
structure Readable (id : UInt16) (reply : Message) : Prop extends Replies id reply where
  parsed : Message.parse reply.encode = .ok reply
  short : reply.encode.length ≤ 65535
  unsigned : reply.tsig = none

/-- One SOA before the last record, which is another one: everything before it is
collected, however the records are spread over the replies. -/
theorem pullLoop_replies {hmac : Hmac} {key : Option TsigKey} {id : UInt16} {clock : Nat → UInt64}
    {closing : Record} (closes : isSoa closing = true) (replies : List Message) :
    ∀ (fuel round : Nat) (pull : Pull) (records : List Record),
      (∀ reply ∈ replies, Readable id reply) →
      replies.flatMap Message.answers = records ++ [closing] →
      pull.soaSeen + (records.filter isSoa).length = 1 → replies.length ≤ fuel →
      pullLoop hmac key id clock fuel round pull (replies.map frame).flatten =
        .ok ⟨pull.priorMac, pull.records ++ records, 2⟩ := by
  induction replies with
  | nil =>
    intro fuel round pull records _ shape
    have impossible := congrArg List.length shape
    simp at impossible
  | cons reply rest ih =>
    intro fuel round pull records readable shape once enough
    obtain ⟨here, later⟩ := List.forall_mem_cons.mp readable
    obtain ⟨fuel, rfl⟩ : ∃ more, fuel = more + 1 :=
      ⟨fuel - 1, by rw [List.length_cons] at enough; omega⟩
    have taken := takeMessage_chained here.parsed here.toReplies
      (chainMac_unsigned hmac key (clock round) pull here.unsigned _)
    have framed : frame reply = frameOne reply.encode := rfl
    rw [List.flatMap_cons] at shape
    rw [List.map_cons, List.flatten_cons, framed,
      pullLoop_next (by omega) (readFrame_frameOne here.short _) taken]
    rcases List.eq_nil_or_concat (rest.flatMap Message.answers) with empty | ⟨others, final, tail⟩
    · -- the closing SOA is in this reply
      rw [empty, List.append_nil] at shape
      obtain ⟨collected, seen⟩ := kept_open records [closing] pull.soaSeen once.le
      have last : kept 1 [closing] = [] ∧ seenAfter 1 [closing] = 2 := by
        simp [kept, seenAfter, closes]
      rw [shape, collected, seen, once, last.1, last.2, List.append_nil]
      exact pullLoop_done (by simp)
    · rw [List.concat_eq_append] at tail
      rw [tail, ← List.append_assoc] at shape
      obtain ⟨rfl, same⟩ := List.append_inj' shape rfl
      obtain rfl := List.singleton_inj.mp same
      rw [List.filter_append, List.length_append] at once
      obtain ⟨collected, seen⟩ := kept_open reply.answers [] pull.soaSeen (by omega)
      rw [List.append_nil] at collected seen
      rw [collected, seen]
      have done := ih fuel (round + 1) ⟨pull.priorMac, pull.records ++ reply.answers,
        pull.soaSeen + (reply.answers.filter isSoa).length⟩ others later tail (by dsimp only; omega)
        (by rw [List.length_cons] at enough; omega)
      rw [List.append_assoc] at done
      simpa [kept, seenAfter] using done

theorem frames_length (replies : List Message) :
    replies.length ≤ (replies.map frame).flatten.length := by
  induction replies with
  | nil => exact Nat.zero_le _
  | cons reply rest ih =>
    rw [List.map_cons, List.flatten_cons, List.length_append, List.length_cons]
    have prefixed : 2 ≤ (frame reply).length := by simp [frame, toBe16]
    omega

/-! ## Out and in again -/

theorem allRecords_soas {zone : Zone} (coherent : SoaCoherent zone) :
    zone.allRecords.filter isSoa = [zone.soa] := by
  have same := (allRecords_perm coherent).filter isSoa
  rw [stored_soas coherent] at same
  exact List.perm_singleton.mp same

theorem apexSoa_regular : apexSoa.Regular := by
  have lowercase : apexName.Lowercase := by decide
  exact ⟨lowercase, by decide +kernel, lowercase, lowercase⟩

section Transfer

variable {zone : Zone} {query : Message}

theorem chunk_regular (coherent : SoaCoherent zone)
    (regular : ∀ record ∈ stored zone.records, record.Regular) {chunk : List Record}
    (member : chunk ∈ chunks axfrChunk (axfrRecords zone)) :
    chunk ≠ [] ∧ chunk.length ≤ axfrChunk ∧ ∀ record ∈ chunk, record.Regular := by
  obtain ⟨filled, short, among⟩ := mem_chunks (by decide) member
  have perm := allRecords_perm coherent
  refine ⟨filled, short, fun record inside => regular record ?_⟩
  rcases List.mem_append.mp (among record inside) with listed | closing
  · exact perm.subset listed
  · rw [List.mem_singleton.mp closing]
    exact perm.subset (List.mem_cons_self ..)

theorem chunk_reply_regular (structured : Structured zone) (coherent : SoaCoherent zone)
    (asked : AxfrQuery zone query) (regular : ∀ record ∈ stored zone.records, record.Regular)
    {chunk : List Record} (member : chunk ∈ chunks axfrChunk (axfrRecords zone)) :
    (carrying query chunk).Regular := by
  obtain ⟨_, short, each⟩ := chunk_regular coherent regular member
  have lowercase : zone.origin.Lowercase := by
    rw [← soa_name structured coherent]
    exact (regular zone.soa ((allRecords_perm coherent).subset (List.mem_cons_self ..))).1
  obtain ⟨opcode, qclass, questions⟩ := asked
  exact carrying_regular opcode questions lowercase short each

theorem accumulate_axfr (hmac : Hmac) (key : Option TsigKey) (requestMac : Bytes)
    (clock : Nat → UInt64) (coherent : SoaCoherent zone)
    (readable : ∀ reply ∈ transferReplies (axfrRecords zone) query, Readable query.id reply) :
    accumulate hmac key query.id requestMac clock (axfrMessages zone query).flatten =
      .ok ⟨requestMac, zone.allRecords, 2⟩ := by
  have once : 0 + (zone.allRecords.filter isSoa).length = 1 := by
    rw [allRecords_soas coherent]
    rfl
  exact pullLoop_replies (soa_isSoa coherent) _ _ _ _ _ readable
    (transferReplies_answers (axfrRecords zone) query) once (frames_length _)

/-- A transfer brings the zone across exactly when its records are ones the decoder
gives out and every hundred of them fit into a message. -/
theorem axfr_inverse_iff (hmac : Hmac) (key : Option TsigKey) (requestMac : Bytes)
    (clock : Nat → UInt64) (structured : Structured zone) (coherent : SoaCoherent zone)
    (asked : AxfrQuery zone query) :
    AxfrInverse hmac key requestMac clock zone query ↔
      (∀ record ∈ stored zone.records, record.Regular) ∧
        ∀ chunk ∈ chunks axfrChunk (axfrRecords zone), Fits (replyLayout query chunk) := by
  have perm := allRecords_perm coherent
  constructor
  · rintro ⟨framed, pull, pulled, done, same, _, _⟩
    have regular : ∀ record ∈ stored zone.records, record.Regular :=
      fun record member => accumulate_regular done record (same.symm.subset member)
    refine ⟨regular, fun chunk member => ?_⟩
    have sent : frame (carrying query chunk) ∈ axfrMessages zone query :=
      List.mem_map_of_mem (List.mem_map_of_mem member)
    exact (wellFramed_iff (chunk_reply_regular structured coherent asked regular member)).mp
      (framed _ sent)
  · rintro ⟨regular, fits⟩
    have replyRegular : ∀ chunk ∈ chunks axfrChunk (axfrRecords zone),
        (carrying query chunk).Regular :=
      fun chunk member => chunk_reply_regular structured coherent asked regular member
    have readable : ∀ reply ∈ transferReplies (axfrRecords zone) query,
        Readable query.id reply := by
      intro reply member
      obtain ⟨chunk, listed, rfl⟩ := List.mem_map.mp member
      obtain ⟨chains, short⟩ := fits chunk listed
      have length := encode_length _ (replyRegular chunk listed)
      have legible := (legible_iff (replyLayout query chunk) []).mpr chains
      rw [← carrying_layout] at legible short
      exact ⟨⟨rfl, rfl, rfl, (chunk_regular coherent regular listed).1⟩,
        (parse_encode_settles _ (replyRegular chunk listed)).1 legible, length.trans_le short, rfl⟩
    have below : ∀ record ∈ zone.allRecords, record.name.endsWith zone.origin = true :=
      fun record member => mem_stored_below structured (perm.subset member)
    obtain ⟨pulled, built, _, soa, _⟩ :=
      fromRecords_total below (allRecords_soas coherent) (soa_name structured coherent)
    refine ⟨?_, _, pulled, accumulate_axfr hmac key requestMac clock coherent readable, perm, built,
      soa⟩
    intro framed member
    obtain ⟨reply, sent, rfl⟩ := List.mem_map.mp member
    obtain ⟨chunk, listed, rfl⟩ := List.mem_map.mp sent
    exact (wellFramed_iff (replyRegular chunk listed)).mpr (fits chunk listed)

end Transfer

theorem axfr_inverse_shell :
    AxfrInverse plainHmac (some sharedKey) [] (fun _ => 0) shell (axfrQuery 1 apexName) := by
  have asked : AxfrQuery shell (axfrQuery 1 apexName) := ⟨rfl, classIn, rfl⟩
  have apex : apexName.Decodable := ⟨by decide, by decide⟩
  have regular : ∀ record ∈ stored shell.records, record.Regular :=
    List.forall_mem_singleton.mpr apexSoa_regular
  refine (axfr_inverse_iff plainHmac (some sharedKey) [] (fun _ => 0)
    shell_structured (fromRecords_coherent shell_built) asked).mpr ⟨regular, ?_⟩
  intro chunk member
  obtain rfl : chunk = [apexSoa, apexSoa] := List.mem_singleton.mp member
  have short : ShortChains (replyLayout (axfrQuery 1 apexName) [apexSoa, apexSoa]) := by
    refine shortChains_of_decodable fun name inside => ?_
    have same : name = apexName := by
      simpa [replyLayout, axfrQuery, Message.new, Question.layout, Record.layout, RData.layout,
        ednsLayout, gap, apexSoa] using inside
    exact same ▸ apex
  exact ⟨fun before name after split => (short before name after split).2, by decide +kernel⟩

def bulk (data : Bytes) : Record where
  name := apexName
  class_ := classIn
  ttl := 60
  rdata := .unknown 10 data

theorem bulk_regular {data : Bytes} (short : data.length ≤ 65535) : (bulk data).Regular := by
  have lowercase : apexName.Lowercase := by decide
  have size : (bulk data).rdata.size ≤ 65535 := by
    simpa [bulk, RData.size, RData.encodeCanonical, RData.encode, put] using short
  exact ⟨lowercase, size, by decide, by decide, fun listed => absurd listed (by decide)⟩

theorem bulk_alone {data : Bytes} (short : data.length ≤ 65000) :
    (Ledger.of (replyLayout (axfrQuery 1 apexName) [bulk data])).length ≤ 65535 := by
  let front := replyLayout (axfrQuery 1 apexName) [] ++ [.name apexName, gap 2, gap 2, gap 4, gap 2]
  have parts : replyLayout (axfrQuery 1 apexName) [bulk data] = front ++ [gap data.length] := rfl
  have length : (Ledger.of (front ++ [gap data.length])).length =
      (Ledger.of front).length + data.length := by
    rw [Ledger.of, List.foldl_append]
    simp [Ledger.item, gap, Ledger.of]
  have small : (Ledger.of front).length ≤ 100 := by decide +kernel
  rw [parts, length]
  omega

theorem bulk_together {data data' : Bytes} (long : 65535 < data.length + data'.length) :
    ¬ Fits (replyLayout (axfrQuery 1 apexName) [apexSoa, bulk data, bulk data', apexSoa]) := by
  rintro ⟨_, short⟩
  have least := Ledger.least_le (replyLayout (axfrQuery 1 apexName)
    [apexSoa, bulk data, bulk data', apexSoa]) ⟨0, HashMap.empty⟩
  have sum : data.length + data'.length ≤ ((replyLayout (axfrQuery 1 apexName)
      [apexSoa, bulk data, bulk data', apexSoa]).map Item.least).sum := by
    simp only [replyLayout, List.flatMap_cons, List.flatMap_nil, Record.layout, bulk, RData.layout,
      List.map_append, List.map_cons, List.map_nil, List.sum_append, List.sum_cons, List.sum_nil,
      Item.least, gap, List.length_replicate]
    omega
  rw [Ledger.of] at short
  omega

def bulky : Zone :=
  ⟨apexName, apexSoa, 3, HashMap.empty.insert apexName
    [apexSoa, bulk (List.replicate 40000 0), bulk (List.replicate 40000 1)]⟩

theorem bulky_alone : ∀ record ∈ stored bulky.records, record.Regular ∧
    (Ledger.of (replyLayout (axfrQuery 1 apexName) [record])).length ≤ 65535 := by
  have large (octet : UInt8) : (List.replicate 40000 octet).length = 40000 := List.length_replicate
  have each (octet : UInt8) : (bulk (List.replicate 40000 octet)).Regular ∧
      (Ledger.of (replyLayout (axfrQuery 1 apexName)
        [bulk (List.replicate 40000 octet)])).length ≤ 65535 :=
    ⟨bulk_regular (by rw [large]; decide), bulk_alone (by rw [large]; decide)⟩
  exact List.forall_mem_cons.mpr ⟨⟨apexSoa_regular, by decide +kernel⟩,
    List.forall_mem_cons.mpr ⟨each 0, List.forall_mem_singleton.mpr (each 1)⟩⟩

/-- Both go into one message, and its length does not go into the prefix. -/
theorem axfr_overflows :
    Structured bulky ∧ SoaCoherent bulky ∧ AxfrQuery bulky (axfrQuery 1 apexName) ∧
      (∀ record ∈ stored bulky.records,
        (carrying (axfrQuery 1 apexName) [record]).encode.length ≤ 65535) ∧
      ∀ hmac key requestMac clock,
        ¬ AxfrInverse hmac key requestMac clock bulky (axfrQuery 1 apexName) := by
  have built : Zone.fromRecords apexName [apexSoa, bulk (List.replicate 40000 0),
      bulk (List.replicate 40000 1)] = .ok bulky := rfl
  have structured := (fromRecords_structured built).1
  have coherent := fromRecords_coherent built
  have asked : AxfrQuery bulky (axfrQuery 1 apexName) := ⟨rfl, classIn, rfl⟩
  refine ⟨structured, coherent, asked, fun record member => ?_, ?_⟩
  · obtain ⟨regular, fits⟩ := bulky_alone record member
    have single : [record].length ≤ axfrChunk := Nat.le_of_ble_eq_true rfl
    have reply : (carrying (axfrQuery 1 apexName) [record]).Regular :=
      carrying_regular rfl rfl apexSoa_regular.1 single (List.forall_mem_singleton.mpr regular)
    rw [encode_length _ reply, carrying_layout]
    exact fits
  · rintro hmac key requestMac clock ⟨framed, _⟩
    have listed : [apexSoa, bulk (List.replicate 40000 0), bulk (List.replicate 40000 1), apexSoa] ∈
        chunks axfrChunk (axfrRecords bulky) := List.mem_singleton.mpr rfl
    have reply := chunk_reply_regular structured coherent asked
      (fun record member => (bulky_alone record member).1) listed
    have fits := (wellFramed_iff reply).mp
      (framed _ (List.mem_map_of_mem (List.mem_map_of_mem listed)))
    refine bulk_together ?_ fits
    rw [List.length_replicate, List.length_replicate]
    decide

end Rdns.Xfr
