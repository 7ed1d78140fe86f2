import Rdns.Proto.Accepted
import Rdns.Proto.Options
import Rdns.Proto.Tsig
import Rdns.Resolver.Serve

/-!
# Responses within a datagram

`encode_limited` sends a response that is too long as its header, its questions and its
OPT record under TC.  These are what the response took over from the query, so nothing
bounds them but the query: the truncated form fits exactly where the question section
of the query leaves it room.  With one question it always does; a query with more is
answered with an error, and with all of its questions.
-/

set_option autoImplicit false

namespace Rdns.Proto

open Rdns.Lib

/-- The header, the questions and the OPT record, under TC. -/
def Message.truncated (msg : Message) : Message :=
  { msg with
    flags := { msg.flags with tc := true }
    answers := []
    authorities := []
    additionals := [] }

def Message.encodeLimited (msg : Message) (limit : Nat) : Bytes :=
  let full := msg.encode
  if full.length ≤ limit then full else msg.truncated.encode

/-! ## Sizes -/

structure Message.Bare (msg : Message) : Prop where
  answers : msg.answers = []
  authorities : msg.authorities = []
  additionals : msg.additionals = []

theorem truncated_bare (msg : Message) : msg.truncated.Bare := ⟨rfl, rfl, rfl⟩

def questionsOnly (questions : List Question) : Message :=
  { Message.new 0 Flags.default with questions }

/-- The octets of a message are those of its questions, of its records and of its OPT
record; the questions come first and take what they take in any message. -/
theorem encode_parts (questions : List Question) :
    ∃ asked : Nat, ∀ msg : Message, msg.questions = questions →
      ∃ records, msg.encode.length = asked + records + optLength msg.edns ∧
        (msg.Bare → records = 0) := by
  obtain ⟨segment, compressor, runQuestions⟩ :=
    Blind.each questions (fun question _ => question_blind question) 12 Compressor.default
  refine ⟨12 + segment.length, fun msg same => ?_⟩
  obtain ⟨records, compressor', runRecords⟩ := ((records_blind msg.answers).comp
    ((records_blind msg.authorities).comp (records_blind msg.additionals)))
    (12 + segment.length) compressor
  obtain ⟨opt, _, least, most, runOpt⟩ := writeEdns_emits msg.edns
    (12 + segment.length + records.length) compressor'
  generalize headEq : toBe16 msg.id ++ toBe16 msg.flags.toU16 ++
    toBe16 (UInt16.ofNat msg.questions.length) ++ toBe16 (UInt16.ofNat msg.answers.length) ++
    toBe16 (UInt16.ofNat msg.authorities.length) ++ toBe16 (UInt16.ofNat msg.arcount) = head
  have length : head.length = 12 := by
    rw [← headEq]
    rfl
  have afterQuestions : (head ++ segment).length = 12 + segment.length := by
    rw [List.length_append, length]
  have afterRecords : (head ++ segment ++ records).length =
      12 + segment.length + records.length := by
    rw [List.length_append, afterQuestions]
  have whole : msg.encode = head ++ segment ++ records ++ opt := by
    have written : msg.encode = (writeEdns msg.edns ((andThen (writeRecords msg.answers)
        (andThen (writeRecords msg.authorities) (writeRecords msg.additionals)))
        (msg.questions.foldl (fun state question => question.encode state)
          (head, Compressor.default)))).1 := by
      rw [encode_eq, ← headEq]
      rfl
    have asked : questions.foldl (fun state question => question.encode state)
        (head, Compressor.default) = (head ++ segment, compressor) := runQuestions head length
    rw [written, same, asked, runRecords _ afterQuestions, runOpt _ afterRecords]
  refine ⟨records.length, ?_, fun bare => ?_⟩
  · rw [whole, List.length_append, afterRecords]
    omega
  · have nothing := runRecords (head ++ segment) afterQuestions
    rw [bare.answers, bare.authorities, bare.additionals] at nothing
    have same : head ++ segment = head ++ segment ++ records := congrArg Prod.fst nothing
    rw [List.self_eq_append_right.mp same]
    rfl

def askedLength (questions : List Question) : Nat := (questionsOnly questions).encode.length

theorem encode_length_eq (msg : Message) :
    ∃ records, msg.encode.length = askedLength msg.questions + records + optLength msg.edns ∧
      (msg.Bare → records = 0) := by
  obtain ⟨asked, parts⟩ := encode_parts msg.questions
  obtain ⟨none, alone, bare⟩ := parts (questionsOnly msg.questions) rfl
  obtain ⟨records, length, empty⟩ := parts msg rfl
  have exact : askedLength msg.questions = asked := by
    rw [askedLength, alone, bare ⟨rfl, rfl, rfl⟩]
    rfl
  exact ⟨records, by rw [exact, length], empty⟩

theorem truncated_length (msg : Message) :
    msg.truncated.encode.length = askedLength msg.questions + optLength msg.edns := by
  obtain ⟨records, length, bare⟩ := encode_length_eq msg.truncated
  rw [length, bare (truncated_bare msg)]
  rfl

/-! ## Reading a truncated message -/

/-- Only four bits of the two codes reach the wire. -/
def Flags.onWire (flags : Flags) : Flags :=
  { flags with opcode := flags.opcode &&& 0xF, rcode := flags.rcode &&& 0xF }

theorem lowNibble_lt (octet : UInt8) : (octet &&& 0xF).toNat < 16 := by
  have mask : UInt8.toNat 0xF = 2 ^ 4 - 1 := rfl
  rw [UInt8.toNat_and, mask, Nat.and_two_pow_sub_one_eq_mod]
  omega

theorem onWire_toU16 (flags : Flags) : flags.onWire.toU16 = flags.toU16 := by
  have twice : ∀ octet : UInt8, (octet &&& 0xF) &&& 0xF = octet &&& 0xF := by
    intro octet
    rw [UInt8.and_assoc, UInt8.and_self]
  unfold Flags.toU16 Flags.onWire
  rw [twice, twice]

theorem borrow_empty (labels : List Label) : (borrow HashMap.empty labels).depth = 0 := by
  induction labels with
  | nil => rfl
  | cons label rest ih => exact ih

theorem legible_of_one_question {msg : Message} (bare : msg.Bare) {question : Question}
    (single : msg.questions = [question]) : wire.Legible (Ledger.of []) msg.layout := by
  have opt : ∀ ledger : Ledger, wire.Legible ledger (ednsLayout msg.edns) := by
    intro ledger
    cases msg.edns with
    | none => exact trivial
    | some edns => exact ⟨trivial, trivial, trivial, trivial, trivial, trivial, trivial⟩
  have chain : (borrow HashMap.empty question.qname.labels).depth ≤ maxPointerJumps := by
    rw [borrow_empty]
    exact Nat.zero_le _
  unfold Message.layout Message.layoutBefore
  rw [single, bare.answers, bare.authorities, bare.additionals]
  exact ⟨trivial, trivial, trivial, trivial, trivial, trivial, chain, trivial, trivial, opt _⟩

/-- A message of one question and an OPT record is read back, up to the bits of its codes
that the header has no room for. -/
theorem parse_one_question {msg : Message} (bare : msg.Bare) {question : Question}
    (single : msg.questions = [question]) (lowercase : question.qname.Lowercase)
    (small : ∀ edns ∈ msg.edns, edns.options.length ≤ 65535) :
    Message.parse msg.encode =
      .ok { msg with flags := msg.flags.onWire, tsig := none, tsigStart := none } := by
  have same : ({ msg with flags := msg.flags.onWire } : Message).encode = msg.encode := by
    rw [encode_eq, encode_eq, Message.writeCounted, Message.writeCounted, Message.writeBefore,
      Message.writeBefore, onWire_toU16]
    rfl
  have regular : ({ msg with flags := msg.flags.onWire } : Message).Regular := by
    refine ⟨lowNibble_lt _, lowNibble_lt _, ?_, ?_, ?_, ?_, ?_, ?_, ?_, ?_, small⟩
    · change msg.questions.length ≤ 65535
      rw [single]
      exact (by decide : 1 ≤ 65535)
    · change msg.answers.length ≤ 65535
      rw [bare.answers]
      exact Nat.zero_le _
    · change msg.authorities.length ≤ 65535
      rw [bare.authorities]
      exact Nat.zero_le _
    · change (msg.additionals.length + if msg.edns.isSome then 1 else 0) ≤ 65535
      rw [bare.additionals]
      split <;> decide
    · change ∀ question ∈ msg.questions, question.qname.Lowercase
      rw [single]
      intro other member
      rw [List.mem_singleton.mp member]
      exact lowercase
    · change ∀ record ∈ msg.answers, record.Regular
      rw [bare.answers]
      exact List.forall_mem_nil _
    · change ∀ record ∈ msg.authorities, record.Regular
      rw [bare.authorities]
      exact List.forall_mem_nil _
    · change ∀ record ∈ msg.additionals, record.Regular
      rw [bare.additionals]
      exact List.forall_mem_nil _
  have legible : wire.Legible (Ledger.of [])
      ({ msg with flags := msg.flags.onWire } : Message).layout :=
    legible_of_one_question ⟨bare.answers, bare.authorities, bare.additionals⟩ single
  rw [← same]
  exact (parse_encode_settles _ regular).1 legible

end Rdns.Proto

namespace Rdns.Server

open Rdns.Lib Rdns.Proto Rdns.Zones Rdns.Resolver Rdns.Resolver.Serve

/-! ## What is sent -/

def ednsCookie : UInt16 := 10

def toBe64 (word : UInt64) : Bytes := toBe32 (word >>> 32).toUInt32 ++ toBe32 word.toUInt32

/-- The secret is used through a keyed hash only. -/
structure CookieKey where
  hash : (clientCookie : Bytes) → IpAddr → (timestamp : UInt32) → UInt64

namespace CookieKey

def version : UInt8 := 1

def build (key : CookieKey) (clientCookie : List.Vector UInt8 8) (ip : IpAddr) (now : UInt32) :
    Bytes :=
  clientCookie.toList ++ [version] ++ [0, 0, 0] ++ toBe32 now ++
    toBe64 (key.hash clientCookie.toList ip now)

def clientCookie (cookie : Bytes) : Option (List.Vector UInt8 8) :=
  match found : slice cookie 0 8 with
  | none => none
  | some octets => some ⟨octets, slice_length found⟩

theorem build_length (key : CookieKey) (clientCookie : List.Vector UInt8 8) (ip : IpAddr)
    (now : UInt32) : (key.build clientCookie ip now).length = 24 := by
  simp [build, toBe64]

end CookieKey

/-- The COOKIE option of a response: none without a key, or without a cookie in the query. -/
def cookieOption (cookieKey : Option CookieKey) (query : Message) (ip : IpAddr) (now : UInt32) :
    Option Bytes := do
  let key ← cookieKey
  let asked ← query.edns
  let cookie ← asked.getOption ednsCookie
  let client ← CookieKey.clientCookie cookie
  pure (key.build client ip now)

def attachCookie (cookieKey : Option CookieKey) (resp query : Message) (ip : IpAddr)
    (now : UInt32) : Message :=
  match cookieOption cookieKey query ip now with
  | none => resp
  | some opt => { resp with edns := some ((resp.edns.getD Edns.ours).setOption ednsCookie opt) }

def isDnssec (rtype : UInt16) : Bool :=
  [typeRrsig, typeNsec, typeNsec3, typeNsec3param, typeDnskey, typeDs].contains rtype

/-- DNSSEC records go to clients that set the DO bit; an answer keeps the type asked for. -/
def stripDnssecUnlessDo (resp query : Message) : Message :=
  if query.edns.any fun edns => edns.doBit then resp
  else
    let qtype := query.questions.head?.map fun q => q.qtype
    { resp with
      answers := resp.answers.filter fun record =>
        !isDnssec record.rtype || decide (some record.rtype = qtype)
      authorities := resp.authorities.filter fun record => !isDnssec record.rtype
      additionals := resp.additionals.filter fun record => !isDnssec record.rtype }

/-- The size the client advertises, kept between 512 and 4096. -/
def udpLimit (query : Message) : Nat :=
  match query.edns with
  | none => 512
  | some edns => max 512 (min edns.udpPayload.toNat 4096)

def finished (cookieKey : Option CookieKey) (resp query : Message) (ip : IpAddr) (now : UInt32) :
    Message :=
  attachCookie cookieKey (stripDnssecUnlessDo resp query) query ip now

def finishUdp (cookieKey : Option CookieKey) (resp query : Message) (ip : IpAddr)
    (now : UInt32) : Bytes :=
  (finished cookieKey resp query ip now).encodeLimited (udpLimit query)

/-! ## What a response takes over from the query -/

/-- Id and questions are those of the query, and there is an OPT record, without options,
where the query has one. -/
structure Echo (query resp : Message) : Prop where
  id : resp.id = query.id
  questions : resp.questions = query.questions
  opt : optLength resp.edns = optLength (query.edns.map fun _ => Edns.ours)

theorem responseTo_echo (query : Message) : Echo query (Message.responseTo query) :=
  ⟨rfl, rfl, rfl⟩

section Resolver

variable {crypto : Dnssec.Crypto} {query resp : Message}

variable {q : Question} {zone : Zones.Zone} {cache cache' : Cache} {allowed : Bool}
  {outcome : Serve.Outcome}

theorem Echo.merge (echo : Echo query resp) (hit : Hit) (append : Bool) :
    Echo query (Serve.merge resp hit append) := by
  unfold Serve.merge
  split <;> exact ⟨echo.id, echo.questions, echo.opt⟩

def outcomeResp : Serve.Outcome → Message
  | .done resp => resp
  | .pending rest => rest.resp

/-- What the checks of header and question send back: an echo, and records only for one
question. -/
theorem screenQuery_echo (refused : screenQuery query = .error resp) :
    Echo query resp ∧ (resp.Bare ∨ resp.questions.length = 1) := by
  rcases screenQuery_error refused with rfl | ⟨rcode, rfl⟩ | ⟨q, single, rfl⟩
  · refine ⟨⟨rfl, rfl, ?_⟩, .inl ⟨rfl, rfl, rfl⟩⟩
    cases edns : query.edns <;> simp [Message.responseTo, edns, optLength]
  · exact ⟨⟨rfl, rfl, rfl⟩, .inl ⟨rfl, rfl, rfl⟩⟩
  · have echo : Echo query (chaosAnswer (Message.responseTo query) q) := by
      unfold chaosAnswer
      dsimp only
      split <;> exact ⟨rfl, rfl, rfl⟩
    refine ⟨echo, .inr ?_⟩
    rw [echo.questions, single]
    rfl

theorem resolveLocal_echo {config : Config crypto} {now : Instant} {client : IpAddr}
    (resolved : resolveLocal config cache now query allowed client = some (outcome, cache')) :
    Echo query (outcomeResp outcome) ∧
      ((outcomeResp outcome).questions.length = 1 ∨
        ∃ resp : Message, outcome = .done resp ∧ resp.Bare) := by
  rw [resolveLocal_eq_plan] at resolved
  obtain ⟨planned, made, ran⟩ := Option.map_eq_some_iff.mp resolved
  rcases plan_cases config query allowed made with ⟨answer, refused, rfl⟩ | ⟨q, admitted, ways⟩
  · cases ran
    obtain ⟨echo, bare | one⟩ := screenQuery_echo refused
    · exact ⟨echo, .inr ⟨answer, rfl, bare⟩⟩
    · exact ⟨echo, .inl one⟩
  · have echo : Echo query (outcomeResp outcome) := by
      rcases Plan.run_cases ran with ⟨resp, rfl, rfl, _⟩ | ⟨rest, _, rfl, _, ends⟩
      · rcases ways with ⟨_, same | ⟨_, same⟩⟩ | ⟨_, same | ⟨_, _, same⟩⟩ <;>
          cases same <;> exact ⟨rfl, rfl, rfl⟩
      · have opened : Echo query rest.resp := by
          rcases ways with ⟨_, same | ⟨_, same⟩⟩ | ⟨_, same | ⟨_, _, same⟩⟩ <;>
            cases same <;> exact ⟨rfl, rfl, rfl⟩
        rcases ends with ⟨_, rfl⟩ | ⟨hit, _, rfl⟩
        · exact opened
        · exact opened.merge hit rest.append
    refine ⟨echo, .inl ?_⟩
    rw [echo.questions, ((screenQuery_eq_ok_iff _ _).mp admitted).2.2.1]
    rfl

/-- A response of the resolver: answered at once, or completed with what an upstream said
and what the cache kept. -/
inductive Built (config : Config crypto) (query : Message) : Message → Prop
  | done {cache cache' : Cache} {now : Instant} {allowed : Bool} {client : IpAddr}
      {resp : Message}
      (resolved : resolveLocal config cache now query allowed client =
        some (.done resp, cache')) : Built config query resp
  | completed {cache cache' : Cache} {now : Instant} {allowed : Bool} {client : IpAddr}
      {rest : Serve.Pending} (result : Except ForwardError Hit) (stale : Option Hit)
      (resolved : resolveLocal config cache now query allowed client =
        some (.pending rest, cache')) : Built config query (resolvePending rest result stale)

end Resolver

/-! ## Options -/

theorem removeOptionLoop_length (code : UInt16) (fuel : Nat) (options : Bytes) :
    (removeOptionLoop code fuel options).length ≤ options.length := by
  fun_induction removeOptionLoop code fuel options with
  | case1 fuel codeHigh codeLow lenHigh lenLow rest len ih =>
    have split : (rest.take len).length + (rest.drop len).length = rest.length := by
      rw [← List.length_append, List.take_append_drop]
    split
    · simp only [List.length_append, List.length_cons, List.length_nil] at ih ⊢
      omega
    · simp only [List.nil_append, List.length_cons]
      omega
  | case2 => exact Nat.zero_le _

theorem setOption_length (edns : Edns) (code : UInt16) (data : Bytes) :
    (edns.setOption code data).options.length ≤ edns.options.length + 4 + data.length := by
  have kept : (edns.removeOption code).options.length ≤ edns.options.length :=
    removeOptionLoop_length code _ _
  simp only [Edns.setOption, List.length_append, toBe16_length]
  omega

theorem setOption_length_of_nil {edns : Edns} (plain : edns.options = []) (code : UInt16)
    (data : Bytes) : (edns.setOption code data).options.length = 4 + data.length := by
  have kept : (edns.removeOption code).options = [] := by
    rw [Edns.removeOption, plain]
    rfl
  simp only [Edns.setOption, kept, List.length_append, toBe16_length, List.length_nil]

def cookieLength (cookieKey : Option CookieKey) (query : Message) (ip : IpAddr) (now : UInt32) :
    Nat :=
  if (cookieOption cookieKey query ip now).isSome then 28 else 0

theorem Echo.opt_le {query resp : Message} (echo : Echo query resp) :
    optLength resp.edns ≤ 11 := by
  rw [echo.opt]
  cases query.edns with
  | none => exact Nat.zero_le _
  | some edns => exact Nat.le_refl 11

theorem Echo.options_eq_nil {query resp : Message} (echo : Echo query resp) :
    (resp.edns.getD Edns.ours).options = [] := by
  cases had : resp.edns with
  | none => rfl
  | some edns =>
    have bounded := echo.opt_le
    rw [had] at bounded
    have empty : edns.options.length ≤ 0 := Nat.le_of_add_le_add_left bounded
    exact List.length_eq_zero_iff.mp (Nat.le_zero.mp empty)

section Cookie

variable (cookieKey : Option CookieKey) {resp query : Message} (ip : IpAddr) (now : UInt32)

theorem cookieOption_length {opt : Bytes}
    (made : cookieOption cookieKey query ip now = some opt) :
    query.edns.isSome ∧ opt.length = 24 := by
  obtain ⟨key, _, made⟩ := Option.bind_eq_some_iff.mp made
  obtain ⟨asked, carried, made⟩ := Option.bind_eq_some_iff.mp made
  obtain ⟨cookie, _, made⟩ := Option.bind_eq_some_iff.mp made
  obtain ⟨client, _, made⟩ := Option.bind_eq_some_iff.mp made
  cases made
  exact ⟨by rw [carried]; rfl, key.build_length client ip now⟩

theorem attachCookie_opt_le {bound : Nat} (least : 11 ≤ bound)
    (small : optLength resp.edns ≤ bound) :
    optLength (attachCookie cookieKey resp query ip now).edns ≤ bound + 28 := by
  unfold attachCookie
  cases made : cookieOption cookieKey query ip now with
  | none => exact small.trans (Nat.le_add_right _ _)
  | some opt =>
    have length := (cookieOption_length cookieKey ip now made).2
    have grown := setOption_length (resp.edns.getD Edns.ours) ednsCookie opt
    have before : (resp.edns.getD Edns.ours).options.length + 11 ≤ bound := by
      cases present : resp.edns with
      | none => exact least
      | some edns =>
        rw [present] at small
        change edns.options.length + 11 ≤ bound
        simp only [optLength] at small
        omega
    simp only [optLength]
    omega

theorem Echo.attachCookie_opt (echo : Echo query resp) :
    optLength (attachCookie cookieKey resp query ip now).edns =
      optLength (query.edns.map fun _ => Edns.ours) + cookieLength cookieKey query ip now := by
  unfold attachCookie cookieLength
  cases made : cookieOption cookieKey query ip now with
  | none => exact echo.opt
  | some opt =>
    obtain ⟨carried, length⟩ := cookieOption_length cookieKey ip now made
    obtain ⟨asked, present⟩ := Option.isSome_iff_exists.mp carried
    rw [present]
    have set := setOption_length_of_nil echo.options_eq_nil ednsCookie opt
    have ours : optLength (Option.map (fun _ => Edns.ours) (some asked)) = 11 := rfl
    simp only [optLength, Option.isSome_some, if_true] at ours ⊢
    omega

end Cookie

/-! ## Truncation -/

/-- What the responses of the resolver have in common: more than the questions and an
OPT record is there for one question only, and an extended error is the longest option. -/
structure Shaped (query resp : Message) : Prop where
  id : resp.id = query.id
  questions : resp.questions = query.questions
  opt : optLength resp.edns ≤ 29
  single : query.questions.length = 1 ∨ resp.Bare ∧ Echo query resp

theorem Built.shaped {crypto : Dnssec.Crypto} {config : Config crypto} {query resp : Message}
    (built : Built config query resp) : Shaped query resp := by
  cases built with
  | done resolved =>
    obtain ⟨echo, one | ⟨_, same, bare⟩⟩ := resolveLocal_echo resolved
    · rw [echo.questions] at one
      exact ⟨echo.id, echo.questions, echo.opt_le.trans (by decide), .inl one⟩
    · cases same
      exact ⟨echo.id, echo.questions, echo.opt_le.trans (by decide), .inr ⟨bare, echo⟩⟩
  | @completed _ _ _ _ _ rest result stale resolved =>
    obtain ⟨echo, one | ⟨_, same, _⟩⟩ := resolveLocal_echo resolved
    · rw [echo.questions] at one
      have merged : ∀ hit, Shaped query (Serve.merge rest.resp hit rest.append) := by
        intro hit
        have after := Echo.merge echo hit rest.append
        exact ⟨after.id, after.questions, after.opt_le.trans (by decide), .inl one⟩
      have failed : Shaped query (withRcode rest.resp rcodeServfail) :=
        ⟨echo.id, echo.questions, echo.opt_le.trans (by decide), .inl one⟩
      unfold resolvePending
      split
      · exact merged _
      · refine ⟨echo.id, echo.questions, ?_, .inl one⟩
        have plain : (rest.resp.edns.getD Edns.ours).options = [] := Echo.options_eq_nil echo
        have grown := setOption_length_of_nil plain ednsEde (edeOption 6 "DNSSEC bogus")
        have text : (edeOption 6 "DNSSEC bogus").length = 14 := by decide +kernel
        simp only [optLength]
        omega
      · split
        · exact merged _
        · exact failed
    · cases same

theorem Shaped.strip {query resp : Message} (shaped : Shaped query resp) :
    Shaped query (stripDnssecUnlessDo resp query) := by
  unfold stripDnssecUnlessDo
  split
  · exact shaped
  refine ⟨shaped.id, shaped.questions, shaped.opt, shaped.single.imp_right ?_⟩
  rintro ⟨bare, echo⟩
  refine ⟨⟨?_, ?_, ?_⟩, ⟨echo.id, echo.questions, echo.opt⟩⟩
  · simp only [bare.answers, List.filter_nil]
  · simp only [bare.authorities, List.filter_nil]
  · simp only [bare.additionals, List.filter_nil]

/-- Within the limit; and what is not the whole message says so. -/
structure Fits (sent : Message) (limit : Nat) : Prop where
  within : (sent.encodeLimited limit).length ≤ limit
  announced : sent.encodeLimited limit ≠ sent.encode →
    ∃ read, Message.parse (sent.encodeLimited limit) = .ok read ∧ read.flags.tc = true ∧
      read.id = sent.id ∧ read.Bare

theorem bare_fits_iff {sent : Message} (bare : sent.Bare) (limit : Nat) :
    Fits sent limit ↔ askedLength sent.questions + optLength sent.edns ≤ limit := by
  obtain ⟨records, length, none⟩ := encode_length_eq sent
  have whole : sent.encode.length = askedLength sent.questions + optLength sent.edns := by
    rw [length, none bare]
    rfl
  constructor
  · rintro ⟨within, _⟩
    unfold Message.encodeLimited at within
    dsimp only at within
    split at within
    · rw [← whole]
      exact within
    · rw [← truncated_length]
      exact within
  · intro room
    have sentWhole : sent.encodeLimited limit = sent.encode := if_pos (by rw [whole]; exact room)
    refine ⟨?_, fun differs => absurd sentWhole differs⟩
    rw [sentWhole, whole]
    exact room

theorem askedLength_single (question : Question) : askedLength [question] ≤ 271 := by
  obtain ⟨segment, compressor, _, short, run⟩ := ((name_emits question.qname).comp
    ((Emits.put (toBe16 question.qtype)).comp (Emits.put (toBe16 question.qclass)))) 12
    Compressor.default
  have written : (questionsOnly [question]).encode =
      (question.encode (toBe16 0 ++ toBe16 Flags.default.toU16 ++ toBe16 1 ++ toBe16 0 ++
        toBe16 0 ++ toBe16 0, Compressor.default)).1 := by
    rw [encode_eq]
    rfl
  have runQuestion := run (toBe16 0 ++ toBe16 Flags.default.toU16 ++ toBe16 1 ++ toBe16 0 ++
    toBe16 0 ++ toBe16 0) rfl
  have encoded : (questionsOnly [question]).encode = toBe16 0 ++ toBe16 Flags.default.toU16 ++
      toBe16 1 ++ toBe16 0 ++ toBe16 0 ++ toBe16 0 ++ segment := by
    rw [written]
    exact congrArg Prod.fst runQuestion
  rw [toBe16_length, toBe16_length] at short
  rw [askedLength, encoded]
  simp only [List.length_append, toBe16_length]
  omega

theorem fits_of_single {sent : Message} {question : Question}
    (single : sent.questions = [question]) (lowercase : question.qname.Lowercase)
    (opt : optLength sent.edns ≤ 57) {limit : Nat} (least : 512 ≤ limit) : Fits sent limit := by
  have asked := askedLength_single question
  have cut := truncated_length sent
  rw [single] at cut
  by_cases whole : sent.encode.length ≤ limit
  · have sentWhole : sent.encodeLimited limit = sent.encode := if_pos whole
    refine ⟨?_, fun differs => absurd sentWhole differs⟩
    rw [sentWhole]
    exact whole
  · have sentCut : sent.encodeLimited limit = sent.truncated.encode := if_neg whole
    have small : ∀ edns ∈ sent.truncated.edns, edns.options.length ≤ 65535 := by
      intro edns carried
      have present : sent.edns = some edns := carried
      rw [present] at opt
      simp only [optLength] at opt
      omega
    have read := parse_one_question (truncated_bare sent) single lowercase small
    rw [← sentCut] at read
    refine ⟨?_, fun _ => ⟨_, read, rfl, rfl, ⟨rfl, rfl, rfl⟩⟩⟩
    rw [sentCut, cut]
    omega

theorem Shaped.fits_iff {query resp : Message} (shaped : Shaped query resp)
    (lowercase : ∀ question ∈ query.questions, question.qname.Lowercase)
    (cookieKey : Option CookieKey) (ip : IpAddr) (now : UInt32) {limit : Nat}
    (least : 512 ≤ limit) :
    Fits (attachCookie cookieKey resp query ip now) limit ↔
      askedLength query.questions + (optLength (query.edns.map fun _ => Edns.ours) +
        cookieLength cookieKey query ip now) ≤ limit := by
  have questions : (attachCookie cookieKey resp query ip now).questions = query.questions := by
    rw [← shaped.questions]
    unfold attachCookie
    split <;> rfl
  obtain one | ⟨bare, echo⟩ := shaped.single
  · obtain ⟨question, single⟩ := List.length_eq_one_iff.mp one
    have opt : optLength (attachCookie cookieKey resp query ip now).edns ≤ 57 :=
      attachCookie_opt_le cookieKey ip now (by decide) shaped.opt
    have ours : optLength (query.edns.map fun _ => Edns.ours) ≤ 11 := (responseTo_echo query).opt_le
    have cookie : cookieLength cookieKey query ip now ≤ 28 := by
      unfold cookieLength
      split <;> decide
    have asked := askedLength_single question
    rw [single] at questions lowercase ⊢
    refine iff_of_true (fits_of_single questions (lowercase question (List.mem_singleton_self _))
      opt least) ?_
    omega
  · have still : (attachCookie cookieKey resp query ip now).Bare := by
      unfold attachCookie
      split
      · exact bare
      · exact ⟨bare.answers, bare.authorities, bare.additionals⟩
    rw [bare_fits_iff still, questions, echo.attachCookie_opt]

/-- The truncated form fits exactly where the questions of the query leave room for an OPT
record and the cookie. -/
theorem truncation_fits_iff {crypto : Dnssec.Crypto} (config : Config crypto) {datagram : Bytes}
    {query resp : Message} (parsed : Message.parse datagram = .ok query)
    (built : Built config query resp) (cookieKey : Option CookieKey) (ip : IpAddr)
    (now : UInt32) {limit : Nat} (least : 512 ≤ limit) :
    (Fits (attachCookie cookieKey resp query ip now) limit ↔
      askedLength query.questions + (optLength (query.edns.map fun _ => Edns.ours) +
        cookieLength cookieKey query ip now) ≤ limit) ∧
      (Fits (finished cookieKey resp query ip now) limit ↔
        askedLength query.questions + (optLength (query.edns.map fun _ => Edns.ours) +
          cookieLength cookieKey query ip now) ≤ limit) := by
  have lowercase := (parse_regular parsed).questions
  exact ⟨built.shaped.fits_iff lowercase cookieKey ip now least,
    built.shaped.strip.fits_iff lowercase cookieKey ip now least⟩

def rootQueries (count : Nat) : Message :=
  { Message.new 7 Flags.default with
    questions := List.replicate count ⟨DnsName.root, typeA, classIn⟩ }

def formErr (query : Message) : Message := withRcode (Message.responseTo query) rcodeFormerr

theorem formErr_built {query : Message} (refused : screenQuery query = .error (formErr query)) :
    Built (serving shell) query (formErr query) := by
  have resolved : resolveLocal (serving shell) (Cache.new 10) 0 query true loopback =
      some (.done (formErr query), Cache.new 10) := by
    rw [resolveLocal, refused]
  exact .done resolved

/-- The name of the root is never written as a pointer. -/
theorem rootQuestions_legible (count : Nat) :
    ∀ ledger : Ledger, wire.Legible ledger ((List.replicate count
      (⟨DnsName.root, typeA, classIn⟩ : Question)).flatMap Question.layout) := by
  induction count with
  | zero => exact fun _ => trivial
  | succ count ih => exact fun _ => ⟨Nat.zero_le _, trivial, trivial, ih _⟩

theorem parse_rootQueries (count : Nat) (few : count ≤ 65535) :
    Message.parse (rootQueries count).encode = .ok (rootQueries count) := by
  have regular : (rootQueries count).Regular := by
    refine ⟨Nat.zero_lt_succ _, Nat.zero_lt_succ _, ?_, Nat.zero_le _, Nat.zero_le _,
      Nat.zero_le _, ?_, List.forall_mem_nil _, List.forall_mem_nil _, List.forall_mem_nil _,
      fun _ present => by cases present⟩
    · change (List.replicate count _).length ≤ 65535
      rw [List.length_replicate]
      exact few
    · intro question member
      rw [List.eq_of_mem_replicate member]
      rfl
  have layout : (rootQueries count).layout = gap 2 :: gap 2 :: gap 2 :: gap 2 :: gap 2 :: gap 2 ::
      (List.replicate count (⟨DnsName.root, typeA, classIn⟩ : Question)).flatMap
        Question.layout := by
    change _ :: _ :: _ :: _ :: _ :: _ :: (_ ++ []) = _
    rw [List.append_nil]
    rfl
  refine (parse_encode_settles _ regular).1 ?_
  rw [layout]
  exact ⟨trivial, trivial, trivial, trivial, trivial, trivial, rootQuestions_legible count _⟩

theorem truncation_fits_two :
    Built (serving shell) (rootQueries 2) (formErr (rootQueries 2)) ∧
      Fits (finished none (formErr (rootQueries 2)) (rootQueries 2) loopback 0) 512 := by
  have built : Built (serving shell) (rootQueries 2) (formErr (rootQueries 2)) :=
    formErr_built rfl
  exact ⟨built, ((truncation_fits_iff (serving shell) (parse_rootQueries 2 (by decide)) built none
    loopback 0 (Nat.le_refl 512)).2).mpr (by decide +kernel)⟩

/-- A datagram of 517 octets asks for the root 101 times; the error that answers it has as
many questions, and nothing is left to cut off. -/
theorem rootQueries_overflow :
    (rootQueries 101).encode.length ≤ 4096 ∧
      Message.parse (rootQueries 101).encode = .ok (rootQueries 101) ∧
      Built (serving shell) (rootQueries 101) (formErr (rootQueries 101)) ∧
      512 < ((formErr (rootQueries 101)).encodeLimited 512).length ∧
      512 < (finishUdp none (formErr (rootQueries 101)) (rootQueries 101) loopback 0).length := by
  exact ⟨by decide +kernel, parse_rootQueries 101 (by decide), formErr_built rfl,
    by decide +kernel, by decide +kernel⟩

end Rdns.Server
