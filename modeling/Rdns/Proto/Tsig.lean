import Rdns.Proto.Accepted

/-!
# TSIG records on the wire

`Tsig::variables`, `Tsig::encode_rr` and `Message::encode_with_tsig`.  The record is
appended to a finished message whose counter is raised afterwards, so the decoder
has to find the message unchanged in front of it.
-/

set_option autoImplicit false

namespace Rdns.Proto

open Rdns.Lib

/-- The fields digested along with a message: not the MAC itself. -/
def Tsig.variables (tsig : Tsig) : Bytes :=
  (([], Compressor.default) |> tsig.keyName.writePlain |> put (toBe16 classAny)
    |> put (toBe32 0) |> tsig.algorithm.writePlain |> put (toBe48 tsig.timeSigned)
    |> put (toBe16 tsig.fudge) |> put (toBe16 tsig.error)
    |> put (toBe16 (UInt16.ofNat tsig.other.length)) |> put tsig.other).1

def Tsig.writeRdata (tsig : Tsig) : Writer Compressor := fun state =>
  state |> tsig.algorithm.writePlain |> put (toBe48 tsig.timeSigned) |> put (toBe16 tsig.fudge)
    |> put (toBe16 (UInt16.ofNat tsig.mac.length)) |> put tsig.mac
    |> put (toBe16 tsig.originalId) |> put (toBe16 tsig.error)
    |> put (toBe16 (UInt16.ofNat tsig.other.length)) |> put tsig.other

def Tsig.encodeRr (tsig : Tsig) : Writer Compressor := fun state =>
  state |> tsig.keyName.writePlain |> put (toBe16 typeTsig) |> put (toBe16 classAny)
    |> put (toBe32 0) |> writeSized tsig.writeRdata

/-- The TSIG goes behind the encoded message; ARCOUNT is raised by one, and wraps. -/
def Message.encodeWithTsig (msg : Message) (tsig : Tsig) : Bytes :=
  let out := (tsig.encodeRr (msg.encode, Compressor.default)).1
  let arcount := ofBe16 (out.getD 10 0) (out.getD 11 0) + 1
  patch out 10 (toBe16 arcount)

/-! ## The record -/

/-- The records the decoder gives back as they were. -/
structure Tsig.Regular (tsig : Tsig) : Prop where
  keyName : tsig.keyName.Lowercase
  algorithm : tsig.algorithm.Lowercase
  timeSigned : tsig.timeSigned.toNat < 2 ^ 48
  size : tsig.mac.length + tsig.other.length ≤ 65000

def Tsig.rdataLayout (tsig : Tsig) : List Item :=
  [gap (plainOctets tsig.algorithm.labels).length, gap 2, gap 4, gap 2, gap 2, gap tsig.mac.length,
    gap 2, gap 2, gap 2, gap tsig.other.length]

def Tsig.layout (tsig : Tsig) : List Item :=
  gap (plainOctets tsig.keyName.labels).length :: gap 2 :: gap 2 :: gap 4 :: gap 2 ::
    tsig.rdataLayout

theorem tsigRdata_emits (tsig : Tsig) (regular : tsig.Regular) :
    Emits tsig.writeRdata 1 65535 := by
  have size := regular.size
  have emits := (((((((plainName_emits tsig.algorithm).comp
    (Emits.put (toBe48 tsig.timeSigned))).comp (Emits.put (toBe16 tsig.fudge))).comp
    (Emits.put (toBe16 (UInt16.ofNat tsig.mac.length)))).comp (Emits.put tsig.mac)).comp
    (Emits.put (toBe16 tsig.originalId))).comp (Emits.put (toBe16 tsig.error))).comp
    ((Emits.put (toBe16 (UInt16.ofNat tsig.other.length))).comp (Emits.put tsig.other))
  refine Emits.mono emits (by omega) ?_
  simp only [toBe16_length, toBe48, List.length_cons, List.length_nil]
  omega

theorem tsigRdata_framed (tsig : Tsig) (regular : tsig.Regular) :
    Framed wire .truncated tsig.rdataLayout tsig.writeRdata
      (Tsig.parseRdata tsig.keyName) tsig := by
  have size := regular.size
  have macSize := ofNat16_toNat tsig.mac.length (by omega)
  have otherSize := ofNat16_toNat tsig.other.length (by omega)
  -- The reader takes the 48 bits in two parts.
  have written : tsig.writeRdata = (andThen tsig.algorithm.writePlain <|
      andThen (put (toBe16 (tsig.timeSigned >>> 32).toUInt16)) <|
      andThen (put (toBe32 tsig.timeSigned.toUInt32)) <| andThen (put (toBe16 tsig.fudge)) <|
      andThen (put (toBe16 (UInt16.ofNat tsig.mac.length))) <| andThen (put tsig.mac) <|
      andThen (put (toBe16 tsig.originalId)) <| andThen (put (toBe16 tsig.error)) <|
      andThen (put (toBe16 (UInt16.ofNat tsig.other.length))) <| put tsig.other) := by
    funext state
    simp only [Tsig.writeRdata, andThen, put, toBe48_eq, List.append_assoc]
  rw [written]
  apply Framed.first _ (plainName_framed tsig.algorithm regular.algorithm)
  apply Framed.first _ (u16_framed (tsig.timeSigned >>> 32).toUInt16)
  apply Framed.first _ (u32_framed tsig.timeSigned.toUInt32)
  apply Framed.first _ (u16_framed tsig.fudge)
  apply Framed.first _ (u16_framed (UInt16.ofNat tsig.mac.length))
  simp only [macSize, join48 _ regular.timeSigned]
  apply Framed.first _ (bytes_framed tsig.mac)
  apply Framed.first _ (u16_framed tsig.originalId)
  apply Framed.first _ (u16_framed tsig.error)
  apply Framed.first _ (u16_framed (UInt16.ofNat tsig.other.length))
  simp only [otherSize]
  exact (bytes_framed tsig.other).map fun other => { tsig with other }

theorem tsig_framed (tsig : Tsig) (regular : tsig.Regular) :
    Framed wire .truncated tsig.layout tsig.encodeRr parseEntry (.tsig tsig) := by
  have body : FramedSized wire .truncated tsig.rdataLayout tsig.writeRdata (fun buf rdlen =>
      parseEntryBody buf tsig.keyName typeTsig classAny 0 rdlen) (.tsig tsig) := by
    refine FramedSized.through (tsigRdata_framed tsig regular) (fun {buf size pos} read => ?_)
      fun {buf size pos error} failed => ?_
    · simp only [parseEntryBody]
      rw [if_pos trivial, get_bind, bind_ok read, get_bind, if_neg (by simp)]
      rfl
    · simp only [parseEntryBody]
      rw [if_pos trivial, get_bind]
      exact bind_error failed
  change Framed wire .truncated tsig.layout (andThen tsig.keyName.writePlain <|
    andThen (put (toBe16 typeTsig)) <| andThen (put (toBe16 classAny)) <|
    andThen (put (toBe32 0)) <| writeSized tsig.writeRdata) parseEntry (.tsig tsig)
  apply Framed.first _ (plainName_framed tsig.keyName regular.keyName)
  apply Framed.first _ (u16_framed typeTsig)
  apply Framed.first _ (u16_framed classAny)
  apply Framed.first _ (u32_framed 0)
  exact sized_framed (tsigRdata_emits tsig regular) body

def Tsig.rdataOctets (tsig : Tsig) : Bytes :=
  plainOctets tsig.algorithm.labels ++ toBe48 tsig.timeSigned ++ toBe16 tsig.fudge ++
    toBe16 (UInt16.ofNat tsig.mac.length) ++ tsig.mac ++ toBe16 tsig.originalId ++
    toBe16 tsig.error ++ toBe16 (UInt16.ofNat tsig.other.length) ++ tsig.other

def Tsig.octets (tsig : Tsig) : Bytes :=
  plainOctets tsig.keyName.labels ++ toBe16 typeTsig ++ toBe16 classAny ++ toBe32 0 ++
    (toBe16 (UInt16.ofNat tsig.rdataOctets.length) ++ tsig.rdataOctets)

theorem encodeRr_eq_put (tsig : Tsig) : tsig.encodeRr = put tsig.octets := by
  have rdata : tsig.writeRdata = put tsig.rdataOctets := by
    funext state
    simp only [Tsig.writeRdata, Tsig.rdataOctets, writePlain_eq_put, put, List.append_assoc]
  have sized : ∀ out compressor, writeSized tsig.writeRdata (out, compressor) =
      (out ++ (toBe16 (UInt16.ofNat tsig.rdataOctets.length) ++ tsig.rdataOctets), compressor) :=
    fun out compressor => writeSized_eq (by rw [rdata, put])
  funext state
  simp only [Tsig.encodeRr, Tsig.octets, writePlain_eq_put, put, sized, List.append_assoc]

theorem tsig_legible (tsig : Tsig) (ledger : Ledger) : wire.Legible ledger tsig.layout := by
  have gaps : ∀ (counts : List Nat) (ledger : Ledger), wire.Legible ledger (counts.map gap) := by
    intro counts
    induction counts with
    | nil => exact fun _ => trivial
    | cons count rest ih => exact fun ledger => ⟨trivial, ih _⟩
  exact gaps [(plainOctets tsig.keyName.labels).length, 2, 2, 4, 2,
    (plainOctets tsig.algorithm.labels).length, 2, 4, 2, 2, tsig.mac.length, 2, 2, 2,
    tsig.other.length] ledger

/-! ## The message in front of it -/

theorem writeSized_blind {body : Writer Compressor} (blind : Blind body) :
    Blind (writeSized body) := by
  intro length compressor
  obtain ⟨segment, compressor', run⟩ := blind (length + 2) compressor
  exact ⟨toBe16 (UInt16.ofNat segment.length) ++ segment, compressor', fun out exact =>
    writeSized_eq (run (out ++ [0, 0]) (by simp [exact]))⟩

theorem rdata_blind (rdata : RData) : Blind rdata.encode := by
  cases rdata with
  | a address => exact (Emits.put address.toList).blind
  | aaaa address => exact (Emits.put address.toList).blind
  | ns target => exact (name_emits target).blind
  | cname target => exact (name_emits target).blind
  | ptr target => exact (name_emits target).blind
  | soa fields =>
    exact (((name_emits fields.mname).comp (name_emits fields.rname)).comp
      (soaNumbers_emits fields)).blind
  | mx preference exchange =>
    exact ((Emits.put (toBe16 preference)).comp (name_emits exchange)).blind
  | txt strings =>
    simp only [RData.encode, writeStrings_eq_put]
    exact (Emits.put _).blind
  | srv priority weight port target =>
    exact ((((Emits.put (toBe16 priority)).comp (Emits.put (toBe16 weight))).comp
      (Emits.put (toBe16 port))).comp (plainName_emits target)).blind
  | unknown rtype data => exact (Emits.put data).blind

theorem record_blind (record : Record) : Blind record.encode := by
  have rdata := writeSized_blind (rdata_blind record.rdata)
  exact (name_emits record.name).blind.comp <| (Emits.put (toBe16 record.rtype)).blind.comp <|
    (Emits.put (toBe16 record.class_)).blind.comp <|
    (Emits.put (toBe32 record.ttl)).blind.comp rdata

theorem question_blind (question : Question) : Blind question.encode :=
  (name_emits question.qname).blind.comp <| (Emits.put (toBe16 question.qtype)).blind.comp
    (Emits.put (toBe16 question.qclass)).blind

theorem records_blind (records : List Record) : Blind (writeRecords records) :=
  Blind.each records fun record _ => record_blind record

def optLength : Option Edns → Nat
  | none => 0
  | some edns => 11 + edns.options.length

theorem writeEdns_emits (edns : Option Edns) :
    Emits (writeEdns edns) (optLength edns) (optLength edns) := by
  cases edns with
  | none => exact fun _ compressor =>
    ⟨[], compressor, le_rfl, le_rfl, fun out _ => by simp [writeEdns]⟩
  | some opt =>
    have fields := (Emits.put (σ := Compressor) [0]).comp <| (Emits.put (toBe16 typeOpt)).comp <|
      (Emits.put (toBe16 opt.udpPayload)).comp <| (Emits.put (toBe32 opt.ttl)).comp <|
      (Emits.put (toBe16 (UInt16.ofNat opt.options.length))).comp (Emits.put opt.options)
    refine fields.mono (Nat.le_of_eq ?_) (Nat.le_of_eq ?_)
    all_goals
      simp only [optLength, List.length_singleton, toBe16_length, toBe32_length]
      omega

def Message.writeSections (msg : Message) : Writer Compressor :=
  andThen (fun state => msg.questions.foldl (fun state question => question.encode state) state) <|
    andThen (writeRecords msg.answers) <| andThen (writeRecords msg.authorities) <|
    andThen (writeRecords msg.additionals) (writeEdns msg.edns)

theorem sections_blind (msg : Message) : Blind msg.writeSections :=
  (Blind.each msg.questions fun question _ => question_blind question).comp <|
    (records_blind msg.answers).comp <| (records_blind msg.authorities).comp <|
    (records_blind msg.additionals).comp (writeEdns_emits msg.edns).blind

def Message.arcount (msg : Message) : Nat :=
  msg.additionals.length + if msg.edns.isSome then 1 else 0

def Message.writeCounted (msg : Message) (count : UInt16) : Writer Compressor :=
  msg.writeBefore count (andThen (writeRecords msg.additionals) (writeEdns msg.edns))

theorem writeCounted_split (msg : Message) :
    ∃ opening segment compressor, opening.length = 10 ∧ ∀ count : UInt16,
      msg.writeCounted count ([], Compressor.default) =
        (opening ++ toBe16 count ++ segment, compressor) := by
  obtain ⟨segment, compressor, run⟩ := sections_blind msg 12 Compressor.default
  refine ⟨toBe16 msg.id ++ toBe16 msg.flags.toU16 ++ toBe16 (UInt16.ofNat msg.questions.length) ++
    toBe16 (UInt16.ofNat msg.answers.length) ++ toBe16 (UInt16.ofNat msg.authorities.length),
    segment, compressor, rfl, fun count => ?_⟩
  exact run _ rfl

theorem encode_eq (msg : Message) :
    msg.encode = (msg.writeCounted (UInt16.ofNat msg.arcount) ([], Compressor.default)).1 := by
  rw [Message.encode, encodeBody_eq]
  rfl

/-- The message is read up to where the TSIG starts, whatever its counter says. -/
theorem counted_framed (msg : Message) (regular : msg.Regular) (count : UInt16) :
    Framed wire .truncated msg.layout (msg.writeCounted count)
      (fun buf => Message.parseBefore buf >>= fun opened =>
        forCount msg.arcount (parseAdditional buf) opened.2 >>= fun read => pure (opened.1, read))
      (count, { msg with tsig := none, tsigStart := none }) := by
  apply messageBefore_framed msg regular
  have extra := additionalSection_framed msg.additionals msg.edns regular.additionals
    regular.options
      { msg with additionals := [], edns := none, tsig := none, tsigStart := none } rfl
  exact extra.map fun read => (count, read)

theorem ofBe16_getD (front back : Bytes) (word : UInt16) :
    ofBe16 ((front ++ toBe16 word ++ back).getD front.length 0)
      ((front ++ toBe16 word ++ back).getD (front.length + 1) 0) = word := by
  have high : (front ++ toBe16 word ++ back).getD front.length 0 = (word >>> 8).toUInt8 := by
    simp [toBe16]
  have low : (front ++ toBe16 word ++ back).getD (front.length + 1) 0 = word.toUInt8 := by
    simp [toBe16]
  rw [high, low]
  exact ofBe16_toBe16 word

theorem patch_word (front back : Bytes) (old new : UInt16) :
    patch (front ++ toBe16 old ++ back) front.length (toBe16 new) = front ++ toBe16 new ++ back :=
  patch_exact front (toBe16 old) back (toBe16 new) rfl

/-- A message written with one more additional record than it has, and the TSIG
behind it. -/
theorem parse_counted {msg : Message} (regular : msg.Regular) (legible : msg.Legible)
    {count : UInt16} (raised : count.toNat = msg.arcount + 1) {front : Bytes}
    {compressor : Compressor}
    (written : msg.writeCounted count ([], Compressor.default) = (front, compressor))
    {tsig : Tsig} (sound : tsig.Regular) :
    Message.parse (front ++ tsig.octets) =
      .ok { msg with tsig := some tsig, tsigStart := some front.length } := by
  obtain ⟨_, _, run, tied, read, _⟩ := counted_framed msg regular count [] _ _ wire_start
  rw [written, List.nil_append] at run
  obtain ⟨rfl, rfl⟩ := Prod.mk.inj run
  obtain ⟨_, _, appended, _, readTsig, _⟩ := tsig_framed tsig sound _ _ _ tied
  rw [encodeRr_eq_put] at appended
  obtain rfl := List.append_cancel_left (Prod.mk.inj appended).1
  have before := (read tsig.octets).1 ((legible_iff msg.layout []).mpr legible)
  have entry := additional_ok { msg with tsig := none, tsigStart := none }
    ((readTsig []).1 (tsig_legible tsig _))
  simp only [List.nil_append, List.append_nil, List.length_nil, Nat.zero_add] at before entry
  -- Up to the TSIG the loops run as for the message alone.
  obtain ⟨opened, middle, first, rest⟩ := bind_eq_ok before
  obtain ⟨prior, start, loop, done⟩ := bind_eq_ok rest
  obtain ⟨both, rfl⟩ := Prod.mk.inj (Except.ok.inj done)
  obtain ⟨counted, rfl⟩ := Prod.mk.inj both
  have last : forCount 1 (parseAdditional (front ++ tsig.octets))
      { msg with tsig := none, tsigStart := none } front.length = .ok (_, _) := bind_ok entry
  rw [Message.parse, parseBody_eq, bind_ok first, counted, raised, forCount_add, bind_ok loop, last]
  rfl

/-- The signed octets differ from the encoded message in the counter and the record
behind it, and are read as the message with its TSIG. -/
theorem parse_signed {msg : Message} (regular : msg.Regular) (legible : msg.Legible)
    (room : msg.arcount < 65535) {tsig : Tsig} (sound : tsig.Regular) :
    ∃ opening segment, opening.length = 10 ∧
      msg.encode = opening ++ toBe16 (UInt16.ofNat msg.arcount) ++ segment ∧
      msg.encodeWithTsig tsig =
        opening ++ toBe16 (UInt16.ofNat msg.arcount + 1) ++ segment ++ tsig.octets ∧
      Message.parse (msg.encodeWithTsig tsig) =
        .ok { msg with tsig := some tsig, tsigStart := some msg.encode.length } := by
  obtain ⟨opening, segment, compressor, ten, written⟩ := writeCounted_split msg
  have encoded : msg.encode = opening ++ toBe16 (UInt16.ofNat msg.arcount) ++ segment := by
    rw [encode_eq, written]
  have appended : (tsig.encodeRr (msg.encode, Compressor.default)).1 =
      opening ++ toBe16 (UInt16.ofNat msg.arcount) ++ (segment ++ tsig.octets) := by
    rw [encodeRr_eq_put, put, encoded, List.append_assoc _ segment]
  have counter := ofBe16_getD opening (segment ++ tsig.octets) (UInt16.ofNat msg.arcount)
  have signed : msg.encodeWithTsig tsig =
      opening ++ toBe16 (UInt16.ofNat msg.arcount + 1) ++ segment ++ tsig.octets := by
    rw [ten] at counter
    rw [Message.encodeWithTsig, appended, counter, ← ten, patch_word, List.append_assoc _ segment]
  have raised : (UInt16.ofNat msg.arcount + 1).toNat = msg.arcount + 1 := by
    rw [UInt16.toNat_add, ofNat16_toNat _ room.le]
    exact Nat.mod_eq_of_lt (Nat.succ_lt_succ room)
  have length : (opening ++ toBe16 (UInt16.ofNat msg.arcount + 1) ++ segment).length =
      msg.encode.length := by
    simp [encoded]
  refine ⟨opening, segment, ten, encoded, signed, ?_⟩
  rw [signed, parse_counted regular legible raised (written _) sound, length]

end Rdns.Proto
