import Rdns.Proto.RoundTrip

/-!
# What the decoder accepts

Every message `Message::parse` returns is regular: its names are in lower case, its
record data has the shape its type code asks for, and its sections fit their
counters.  With the round trip this decides which messages survive encoding and
decoding: the regular ones whose names hang on short chains.
-/

set_option autoImplicit false

namespace Rdns.Proto

open Rdns.Lib

variable {buf : Bytes} {pos pos' : Nat} {msg : Message}

/-! ## Fields -/

theorem fromWire_lowercase {name : DnsName} (read : DnsName.fromWire buf pos = .ok (name, pos')) :
    name.Lowercase := by
  obtain ⟨labels, _, _, _, _, lowered⟩ := (fromWire_eq_ok_iff buf pos pos' name).mp read
  rw [DnsName.Lowercase, lowered, List.map_map]
  exact List.map_congr_left fun label _ => lowerLabel_lowerLabel label

theorem readBytes_eq_ok {count pos pos' : Nat} {octets : Bytes}
    (read : readBytes buf count pos = .ok (octets, pos')) :
    octets.length = count ∧ pos' = pos + count := by
  unfold readBytes at read
  split at read
  · cases read
  · rename_i found
    cases read
    exact ⟨slice_length found, rfl⟩

theorem parseStrings_eq_ok {finish : Nat} :
    ∀ (fuel : Nat) (acc : List Bytes) (pos : Nat) (strings : List Bytes) (pos' : Nat),
      parseStrings buf finish fuel acc pos = .ok (strings, pos') →
      ∃ more, strings = acc ++ more ∧ (∀ text ∈ more, text.length ≤ 255) ∧
        pos' = pos + (stringsOctets more).length := by
  intro fuel
  induction fuel with
  | zero =>
    intro acc pos strings pos' read
    cases read
    exact ⟨[], (List.append_nil acc).symm, List.forall_mem_nil _, rfl⟩
  | succ fuel ih =>
    intro acc pos strings pos' read
    simp only [parseStrings] at read
    rw [get_bind] at read
    split at read
    · obtain ⟨len, middle, head, read⟩ := bind_eq_ok read
      rw [get_bind] at read
      split at read
      · cases read
      obtain ⟨text, after, body, read⟩ := bind_eq_ok read
      obtain ⟨size, rfl⟩ := readBytes_eq_ok body
      obtain ⟨more, rfl, short, rfl⟩ := ih (acc ++ [text]) _ strings pos' read
      have advanced : middle = pos + 1 := by
        unfold readU8 at head
        split at head
        · cases head
        · cases head
          rfl
      refine ⟨text :: more, by rw [List.append_assoc]; rfl, ?_, ?_⟩
      · refine List.forall_mem_cons.mpr ⟨?_, short⟩
        have bound := len.toNat_lt
        omega
      · rw [stringsOctets_cons, List.length_append, List.length_cons, advanced, size]
        omega
    · cases read
      exact ⟨[], (List.append_nil acc).symm, List.forall_mem_nil _, rfl⟩

/-! ## Record data -/

theorem plainOctets_le (name : DnsName) : (plainOctets name.labels).length ≤ 255 := by
  rw [plainOctets_length]
  exact name.valid.2

/-- Record data of names and fields of a fixed width. -/
def RData.named : RData → Bool
  | .txt _ => false
  | .unknown _ _ => false
  | _ => true

theorem named_size (rdata : RData) (named : rdata.named = true) : rdata.size ≤ 65535 := by
  unfold RData.size
  cases rdata with
  | a address => simp [RData.encodeCanonical, RData.encode, put]
  | aaaa address => simp [RData.encodeCanonical, RData.encode, put]
  | txt strings => cases named
  | unknown rtype data => cases named
  | ns target | cname target =>
    have short := plainOctets_le target
    simp only [RData.encodeCanonical, writePlain_eq_put, put, List.nil_append]
    omega
  | ptr target =>
    have short := plainOctets_le target
    simp only [RData.encodeCanonical, writePlain_eq_put, put, List.nil_append]
    omega
  | soa fields =>
    have mname := plainOctets_le fields.mname
    have rname := plainOctets_le fields.rname
    simp only [RData.encodeCanonical, writePlain_eq_put, Soa.writeNumbers, put, List.nil_append,
      List.length_append, toBe32_length]
    omega
  | mx preference exchange =>
    have short := plainOctets_le exchange
    simp only [RData.encodeCanonical, writePlain_eq_put, put, List.nil_append, List.length_append,
      toBe16_length]
    omega
  | srv priority weight port target =>
    have short := plainOctets_le target
    simp only [RData.encodeCanonical, writePlain_eq_put, put, List.nil_append, List.length_append,
      toBe16_length]
    omega

theorem parseTyped_regular {rtype : UInt16} {rdlen finish pos pos' : Nat} {rdata : RData}
    (read : RData.parseTyped rtype buf rdlen finish pos = .ok (rdata, pos'))
    (whole : pos' = pos + rdlen) (positive : 0 < rdlen) (small : rdlen ≤ 65535)
    (notTsig : rtype ≠ typeTsig) (notOpt : rtype ≠ typeOpt) : rdata.Regular := by
  unfold RData.parseTyped at read
  by_cases isA : rtype = typeA
  · rw [if_pos isA] at read
    obtain ⟨address, _, _, done⟩ := bind_eq_ok read
    cases done
    exact ⟨named_size _ rfl, trivial⟩
  rw [if_neg isA] at read
  by_cases isAaaa : rtype = typeAaaa
  · rw [if_pos isAaaa] at read
    obtain ⟨address, _, _, done⟩ := bind_eq_ok read
    cases done
    exact ⟨named_size _ rfl, trivial⟩
  rw [if_neg isAaaa] at read
  by_cases isNs : rtype = typeNs
  · rw [if_pos isNs] at read
    obtain ⟨target, _, name, done⟩ := bind_eq_ok read
    cases done
    exact ⟨named_size _ rfl, fromWire_lowercase name⟩
  rw [if_neg isNs] at read
  by_cases isCname : rtype = typeCname
  · rw [if_pos isCname] at read
    obtain ⟨target, _, name, done⟩ := bind_eq_ok read
    cases done
    exact ⟨named_size _ rfl, fromWire_lowercase name⟩
  rw [if_neg isCname] at read
  by_cases isPtr : rtype = typePtr
  · rw [if_pos isPtr] at read
    obtain ⟨target, _, name, done⟩ := bind_eq_ok read
    cases done
    exact ⟨named_size _ rfl, fromWire_lowercase name⟩
  rw [if_neg isPtr] at read
  by_cases isSoa : rtype = typeSoa
  · rw [if_pos isSoa] at read
    obtain ⟨fields, _, read, done⟩ := bind_eq_ok read
    obtain ⟨mname, _, first, read⟩ := bind_eq_ok read
    obtain ⟨rname, _, second, read⟩ := bind_eq_ok read
    obtain ⟨serial, _, _, read⟩ := bind_eq_ok read
    obtain ⟨refresh, _, _, read⟩ := bind_eq_ok read
    obtain ⟨retry, _, _, read⟩ := bind_eq_ok read
    obtain ⟨expire, _, _, read⟩ := bind_eq_ok read
    obtain ⟨minimum, _, _, read⟩ := bind_eq_ok read
    cases read
    cases done
    exact ⟨named_size _ rfl, fromWire_lowercase first, fromWire_lowercase second⟩
  rw [if_neg isSoa] at read
  by_cases isMx : rtype = typeMx
  · rw [if_pos isMx] at read
    obtain ⟨preference, _, _, read⟩ := bind_eq_ok read
    obtain ⟨exchange, _, name, done⟩ := bind_eq_ok read
    cases done
    exact ⟨named_size _ rfl, fromWire_lowercase name⟩
  rw [if_neg isMx] at read
  by_cases isTxt : rtype = typeTxt
  · rw [if_pos isTxt] at read
    obtain ⟨strings, _, loop, done⟩ := bind_eq_ok read
    cases done
    obtain ⟨more, same, short, passed⟩ := parseStrings_eq_ok _ _ _ _ _ loop
    rw [List.nil_append] at same
    subst same
    have size : (RData.txt strings).size = (stringsOctets strings).length := by
      simp [RData.size, RData.encodeCanonical, RData.encode, writeStrings_eq_put, put]
    refine ⟨by omega, ?_, short⟩
    rintro rfl
    simp only [stringsOctets, List.flatMap_nil, List.length_nil] at passed
    omega
  rw [if_neg isTxt] at read
  by_cases isSrv : rtype = typeSrv
  · rw [if_pos isSrv] at read
    obtain ⟨priority, _, _, read⟩ := bind_eq_ok read
    obtain ⟨weight, _, _, read⟩ := bind_eq_ok read
    obtain ⟨port, _, _, read⟩ := bind_eq_ok read
    obtain ⟨target, _, name, done⟩ := bind_eq_ok read
    cases done
    exact ⟨named_size _ rfl, fromWire_lowercase name⟩
  · rw [if_neg isSrv] at read
    obtain ⟨data, _, octets, done⟩ := bind_eq_ok read
    cases done
    have size : (RData.unknown rtype data).size = data.length := by
      simp [RData.size, RData.encodeCanonical, RData.encode, put]
    refine ⟨by rw [size, (readBytes_eq_ok octets).1]; exact small, notOpt, notTsig, ?_⟩
    intro typed
    simp [typedCodes, isA, isAaaa, isNs, isCname, isPtr, isSoa, isMx, isTxt, isSrv] at typed

theorem rdata_regular {rtype : UInt16} {rdlen pos pos' : Nat} {rdata : RData}
    (read : RData.parse rtype buf rdlen pos = .ok (rdata, pos')) (small : rdlen ≤ 65535)
    (notTsig : rtype ≠ typeTsig) (notOpt : rtype ≠ typeOpt) : rdata.Regular := by
  unfold RData.parse at read
  rw [get_bind] at read
  by_cases beyond : pos + rdlen > buf.length
  · rw [if_pos beyond] at read
    cases read
  rw [if_neg beyond] at read
  by_cases empty : rdlen = 0
  · rw [if_pos empty] at read
    cases read
    exact ⟨Nat.zero_le _, notOpt, notTsig, fun _ => rfl⟩
  rw [if_neg empty] at read
  obtain ⟨value, middle, typed, read⟩ := bind_eq_ok read
  rw [get_bind] at read
  by_cases whole : middle = pos + rdlen
  · rw [if_neg (not_not_intro whole)] at read
    cases read
    exact parseTyped_regular typed whole (Nat.pos_of_ne_zero empty) small notTsig notOpt
  · rw [if_pos whole] at read
    cases read

/-! ## Entries -/

def Entry.Regular : Entry → Prop
  | .rr record => record.Regular
  | .opt edns => edns.options.length ≤ 65535
  | .tsig _ => True

theorem entry_regular {entry : Entry} (read : parseEntry buf pos = .ok (entry, pos')) :
    entry.Regular := by
  obtain ⟨name, _, owner, read⟩ := bind_eq_ok read
  obtain ⟨rtype, _, _, read⟩ := bind_eq_ok read
  obtain ⟨class_, _, _, read⟩ := bind_eq_ok read
  obtain ⟨ttl, _, _, read⟩ := bind_eq_ok read
  obtain ⟨rdlen, start, _, read⟩ := bind_eq_ok read
  have small : rdlen.toNat ≤ 65535 := Nat.le_of_lt_succ rdlen.toNat_lt
  unfold parseEntryBody at read
  by_cases isTsig : rtype = typeTsig
  · rw [if_pos isTsig, get_bind] at read
    obtain ⟨tsig, _, _, read⟩ := bind_eq_ok read
    rw [get_bind] at read
    split at read
    · cases read
    · cases read
      exact trivial
  rw [if_neg isTsig] at read
  by_cases isOpt : rtype = typeOpt
  · rw [if_pos isOpt] at read
    obtain ⟨data, _, octets, read⟩ := bind_eq_ok read
    cases read
    exact (readBytes_eq_ok octets).1.le.trans small
  · rw [if_neg isOpt] at read
    obtain ⟨rdata, _, body, read⟩ := bind_eq_ok read
    cases read
    exact ⟨fromWire_lowercase owner, rdata_regular body small isTsig isOpt⟩

/-! ## Messages -/

structure Message.Within (questions answers authorities additionals : Nat) (msg : Message) :
    Prop where
  opcode : msg.flags.opcode.toNat < 16
  rcode : msg.flags.rcode.toNat < 16
  questionCount : msg.questions.length ≤ questions
  answerCount : msg.answers.length ≤ answers
  authorityCount : msg.authorities.length ≤ authorities
  additionalCount : (msg.additionals.length + if msg.edns.isSome then 1 else 0) ≤ additionals
  lowercase : ∀ question ∈ msg.questions, question.qname.Lowercase
  answered : ∀ record ∈ msg.answers, record.Regular
  vouched : ∀ record ∈ msg.authorities, record.Regular
  extra : ∀ record ∈ msg.additionals, record.Regular
  options : ∀ edns ∈ msg.edns, edns.options.length ≤ 65535

section Rounds

variable {questions answers authorities additionals : Nat} {msg' : Message}

theorem forall_mem_concat {α : Type} {holds : α → Prop} {items : List α} {item : α}
    (all : ∀ other ∈ items, holds other) (last : holds item) :
    ∀ other ∈ items ++ [item], holds other := by
  intro other member
  rcases List.mem_append.mp member with inside | here
  · exact all other inside
  · rw [List.mem_singleton.mp here]
    exact last

theorem question_within (within : msg.Within questions answers authorities additionals)
    (read : parseQuestion buf msg pos = .ok (msg', pos')) :
    msg'.Within (questions + 1) answers authorities additionals := by
  obtain ⟨qname, _, name, read⟩ := bind_eq_ok read
  obtain ⟨qtype, _, _, read⟩ := bind_eq_ok read
  obtain ⟨qclass, _, _, read⟩ := bind_eq_ok read
  cases read
  have count := within.questionCount
  exact { within with
    questionCount := by simpa using count
    lowercase := forall_mem_concat within.lowercase (fromWire_lowercase name) }

theorem section_within {push : Message → Record → Message} {holds : Message → Prop}
    (dropped : holds msg) (pushed : ∀ record, record.Regular → holds (push msg record))
    (read : parseSection push buf msg pos = .ok (msg', pos')) : holds msg' := by
  obtain ⟨entry, _, parsed, read⟩ := bind_eq_ok read
  have regular := entry_regular parsed
  cases entry with
  | rr record =>
    cases read
    exact pushed record regular
  | opt edns | tsig tsig =>
    cases read
    exact dropped

theorem answer_within (within : msg.Within questions answers authorities additionals)
    (read : parseAnswer buf msg pos = .ok (msg', pos')) :
    msg'.Within questions (answers + 1) authorities additionals :=
  section_within { within with answerCount := Nat.le_succ_of_le within.answerCount }
    (fun _ regular => { within with
      answerCount := by simpa using within.answerCount
      answered := forall_mem_concat within.answered regular }) read

theorem authority_within (within : msg.Within questions answers authorities additionals)
    (read : parseAuthority buf msg pos = .ok (msg', pos')) :
    msg'.Within questions answers (authorities + 1) additionals :=
  section_within { within with authorityCount := Nat.le_succ_of_le within.authorityCount }
    (fun _ regular => { within with
      authorityCount := by simpa using within.authorityCount
      vouched := forall_mem_concat within.vouched regular }) read

theorem additional_within (within : msg.Within questions answers authorities additionals)
    (read : parseAdditional buf msg pos = .ok (msg', pos')) :
    msg'.Within questions answers authorities (additionals + 1) := by
  simp only [parseAdditional] at read
  rw [get_bind] at read
  obtain ⟨entry, _, parsed, read⟩ := bind_eq_ok read
  have count := within.additionalCount
  have regular := entry_regular parsed
  cases entry with
  | rr record =>
    cases read
    have longer : (msg.additionals ++ [record]).length = msg.additionals.length + 1 :=
      List.length_append
    have room : (msg.additionals ++ [record]).length + (if msg.edns.isSome then 1 else 0) ≤
        additionals + 1 := by omega
    exact { within with
      additionalCount := room
      extra := forall_mem_concat within.extra regular }
  | tsig tsig =>
    cases read
    exact { within with additionalCount := Nat.le_succ_of_le count }
  | opt edns =>
    cases read
    by_cases fresh : msg.edns.isNone = true
    · rw [if_pos fresh]
      refine { within with
        additionalCount := ?_
        options := fun edns' member => ?_ }
      · rw [Option.isNone_iff_eq_none.mp fresh] at count
        exact Nat.succ_le_succ count
      · rw [← Option.some.inj member]
        exact regular
    · rw [if_neg fresh]
      exact { within with additionalCount := Nat.le_succ_of_le count }

end Rounds

theorem flags_small (word : UInt16) :
    (Flags.fromU16 word).opcode.toNat < 16 ∧ (Flags.fromU16 word).rcode.toNat < 16 := by
  have masked : ∀ value : UInt16, (value &&& 0xF).toUInt8.toNat < 16 := by
    intro value
    have mask : UInt16.toNat 0xF = 2 ^ 4 - 1 := rfl
    rw [UInt16.toNat_toUInt8, UInt16.toNat_and, mask, Nat.and_two_pow_sub_one_eq_mod]
    omega
  exact ⟨masked _, masked _⟩

structure HeaderCounts where
  qd : Nat
  an : Nat
  ns : Nat
  ar : Nat

def headerCounts (buf : Bytes) : HeaderCounts where
  qd := (ofBe16 (buf.getD 4 0) (buf.getD 5 0)).toNat
  an := (ofBe16 (buf.getD 6 0) (buf.getD 7 0)).toNat
  ns := (ofBe16 (buf.getD 8 0) (buf.getD 9 0)).toNat
  ar := (ofBe16 (buf.getD 10 0) (buf.getD 11 0)).toNat

theorem readU16_eq_ok {word : UInt16} (read : readU16 buf pos = .ok (word, pos')) :
    pos' = pos + 2 ∧ pos + 2 ≤ buf.length ∧
      word = ofBe16 (buf.getD pos 0) (buf.getD (pos + 1) 0) := by
  obtain ⟨octets, middle, taken, read⟩ := bind_eq_ok read
  cases read
  unfold readBytes slice at taken
  by_cases inside : pos + 2 ≤ buf.length
  · rw [if_pos inside] at taken
    cases taken
    refine ⟨rfl, inside, ?_⟩
    simp [List.getD_eq_getElem?_getD, List.getElem?_drop]
  · rw [if_neg inside] at taken
    cases taken

theorem parse_eq_ok (parsed : Message.parse buf = .ok msg) :
    12 ≤ buf.length ∧ ∃ id flags asked answered vouched pos₁ pos₂ pos₃ finish,
      forCount (headerCounts buf).qd (parseQuestion buf)
        (Message.new id (Flags.fromU16 flags)) 12 = .ok (asked, pos₁) ∧
      forCount (headerCounts buf).an (parseAnswer buf) asked pos₁ = .ok (answered, pos₂) ∧
      forCount (headerCounts buf).ns (parseAuthority buf) answered pos₂ = .ok (vouched, pos₃) ∧
      forCount (headerCounts buf).ar (parseAdditional buf) vouched pos₃ = .ok (msg, finish) := by
  obtain ⟨⟨result, finish⟩, read, rfl⟩ : ∃ result, Message.parseBody buf 0 = .ok result ∧
      result.1 = msg := by
    rw [Message.parse] at parsed
    cases read : Message.parseBody buf 0 with
    | error error =>
      rw [read] at parsed
      cases parsed
    | ok result =>
      rw [read] at parsed
      exact ⟨result, rfl, Except.ok.inj parsed⟩
  obtain ⟨id, _, word, read⟩ := bind_eq_ok read
  obtain ⟨rfl, -⟩ := readU16_eq_ok word
  obtain ⟨flags, _, word, read⟩ := bind_eq_ok read
  obtain ⟨rfl, -⟩ := readU16_eq_ok word
  obtain ⟨qd, _, word, read⟩ := bind_eq_ok read
  obtain ⟨rfl, -, rfl⟩ := readU16_eq_ok word
  obtain ⟨an, _, word, read⟩ := bind_eq_ok read
  obtain ⟨rfl, -, rfl⟩ := readU16_eq_ok word
  obtain ⟨ns, _, word, read⟩ := bind_eq_ok read
  obtain ⟨rfl, -, rfl⟩ := readU16_eq_ok word
  obtain ⟨ar, _, word, read⟩ := bind_eq_ok read
  obtain ⟨rfl, long, rfl⟩ := readU16_eq_ok word
  obtain ⟨asked, pos₁, first, read⟩ := bind_eq_ok read
  obtain ⟨answered, pos₂, second, read⟩ := bind_eq_ok read
  obtain ⟨vouched, pos₃, third, read⟩ := bind_eq_ok read
  exact ⟨long, id, flags, asked, answered, vouched, pos₁, pos₂, pos₃, finish, first, second, third,
    read⟩

theorem parse_within (parsed : Message.parse buf = .ok msg) :
    msg.Within (headerCounts buf).qd (headerCounts buf).an (headerCounts buf).ns
      (headerCounts buf).ar := by
  obtain ⟨-, id, flags, asked, answered, vouched, _, _, _, _, first, second, third, last⟩ :=
    parse_eq_ok parsed
  have start : (Message.new id (Flags.fromU16 flags)).Within 0 0 0 0 :=
    ⟨(flags_small flags).1, (flags_small flags).2, le_rfl, le_rfl, le_rfl, le_rfl,
      List.forall_mem_nil _, List.forall_mem_nil _, List.forall_mem_nil _, List.forall_mem_nil _,
      fun _ present => by cases present⟩
  have within₁ := forCount_invariant (fun rounds msg => msg.Within rounds 0 0 0)
    (fun _ _ _ _ _ within read => question_within within read) start first
  rw [Nat.zero_add] at within₁
  have within₂ := forCount_invariant (fun rounds msg => msg.Within (headerCounts buf).qd rounds 0 0)
    (fun _ _ _ _ _ within read => answer_within within read) within₁ second
  rw [Nat.zero_add] at within₂
  have within₃ := forCount_invariant
    (fun rounds msg => msg.Within (headerCounts buf).qd (headerCounts buf).an rounds 0)
    (fun _ _ _ _ _ within read => authority_within within read) within₂ third
  rw [Nat.zero_add] at within₃
  have within := forCount_invariant
    (fun rounds msg => msg.Within (headerCounts buf).qd (headerCounts buf).an (headerCounts buf).ns
      rounds)
    (fun _ _ _ _ _ within read => additional_within within read) within₃ last
  rwa [Nat.zero_add] at within

theorem parse_regular (parsed : Message.parse buf = .ok msg) : msg.Regular := by
  have within := parse_within parsed
  have counter : ∀ word : UInt16, word.toNat ≤ 65535 := fun word =>
    Nat.le_of_lt_succ word.toNat_lt
  exact {
    opcode := within.opcode
    rcode := within.rcode
    questionCount := within.questionCount.trans (counter _)
    answerCount := within.answerCount.trans (counter _)
    authorityCount := within.authorityCount.trans (counter _)
    additionalCount := within.additionalCount.trans (counter _)
    questions := within.lowercase
    answers := within.answered
    authorities := within.vouched
    additionals := within.extra
    options := within.options }

/-! ## Which messages survive -/

def Message.RoundTrips (msg : Message) : Prop :=
  Message.parse msg.encode = .ok { msg with tsig := none, tsigStart := none }

def Message.Legible (msg : Message) : Prop :=
  ∀ before name after, msg.layout = before ++ .name name :: after →
    (Ledger.of before).chain name ≤ maxPointerJumps

theorem roundTrips_iff (msg : Message) : msg.RoundTrips ↔ msg.Regular ∧ msg.Legible := by
  have legible : wire.Legible (Ledger.of []) msg.layout ↔ msg.Legible := legible_iff msg.layout []
  constructor
  · intro same
    have cleared : ({ msg with tsig := none, tsigStart := none } : Message).Regular :=
      parse_regular same
    have regular : msg.Regular := { cleared with }
    refine ⟨regular, legible.mp (Classical.not_not.mp fun broken => ?_)⟩
    obtain ⟨error, refused⟩ := (parse_encode_settles msg regular).2 broken
    rw [Message.RoundTrips, refused] at same
    cases same
  · rintro ⟨regular, short⟩
    exact (parse_encode_settles msg regular).1 (legible.mpr short)

end Rdns.Proto
