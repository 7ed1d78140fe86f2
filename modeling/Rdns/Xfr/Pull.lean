import Rdns.Lib.Run
import Rdns.Tsig.Exchange
import Rdns.Xfr.Ixfr
import Rdns.Zones.Assemble

/-!
# Pulling a zone

`axfr_pull` of dns-xfr: the request, and the loop over the length-prefixed messages
of the answer until the closing SOA.  The peer's side of the connection is the stream
of octets it sends; timeouts and failures of the connection itself are left out.
-/

set_option autoImplicit false

namespace Rdns.Xfr

open Rdns.Lib Rdns.Proto Rdns.Zones Rdns.Tsig

variable {hmac : Hmac} {key : Option TsigKey} {id : UInt16} {data stream : Bytes}
  {clock : Nat → UInt64}

/-- `{e:?}`. -/
def debugTsigError : TsigError → String
  | .badKey => "BadKey"
  | .badSig => "BadSig"
  | .badTime => "BadTime"
  | .missing => "Missing"

def axfrQuery (id : UInt16) (origin : DnsName) : Message :=
  { Message.new id Flags.default with
    questions := [{ qname := origin, qtype := typeAxfr, qclass := classIn }] }

def encodeSigned (hmac : Hmac) (query : Message) (key : Option TsigKey) (now : UInt64) :
    Bytes × Bytes :=
  match key with
  | some key => signRequest hmac query key now
  | none => (query.encode, [])

def keyringOf (key : Option TsigKey) : KeyRing :=
  match key with
  | some key => KeyRing.default.insert key
  | none => KeyRing.default

structure Pull where
  priorMac : Bytes
  records : List Record
  soaSeen : Nat

/-- The loop over the answers of one message: the second SOA closes the transfer and
is not part of the zone. -/
def Pull.takeAnswers (pull : Pull) : List Record → Pull
  | [] => pull
  | record :: rest =>
    if record.rtype = typeSoa then
      if pull.soaSeen + 1 = 2 then { pull with soaSeen := 2 }
      else takeAnswers
        { pull with records := pull.records ++ [record], soaSeen := pull.soaSeen + 1 } rest
    else takeAnswers { pull with records := pull.records ++ [record] } rest

/-- The MAC to chain the next message on.  Only a message that carries a TSIG is
verified. -/
def Pull.chainMac (hmac : Hmac) (key : Option TsigKey) (now : UInt64) (pull : Pull) (msg : Message)
    (data : Bytes) : Except String Bytes :=
  if key.isSome && msg.tsig.isSome then
    match verify hmac msg data (keyringOf key) now (some pull.priorMac) with
    | .ok mac => .ok mac
    | .error error => .error ("axfr tsig verify failed: " ++ debugTsigError error)
  else .ok pull.priorMac

def Pull.takeMessage (hmac : Hmac) (key : Option TsigKey) (id : UInt16) (now : UInt64) (pull : Pull)
    (data : Bytes) : Except String Pull :=
  match Message.parse data with
  | .error error => .error ("bad axfr message: " ++ error.display)
  | .ok msg =>
    if msg.id ≠ id ∨ msg.flags.qr = false then .error "axfr reply does not match query"
    else if msg.flags.rcode ≠ 0 then
      .error ("axfr refused (rcode " ++ toString msg.flags.rcode.toNat ++ ")")
    else
      match pull.chainMac hmac key now msg data with
      | .error error => .error error
      | .ok priorMac =>
        if msg.answers.isEmpty && pull.records.isEmpty && pull.soaSeen == 0 then
          .error "axfr stream carried no records"
        else .ok ({ pull with priorMac }.takeAnswers msg.answers)

/-- Two `read_exact`: the length and as many octets. -/
def readFrame : Bytes → Option (Bytes × Bytes)
  | high :: low :: rest =>
    let len := (ofBe16 high low).toNat
    if len ≤ rest.length then some (rest.take len, rest.drop len) else none
  | _ => none

/-- `while soa_seen < 2`.  The clock is read once for each message; a round takes at
least two octets, so the length of the stream is fuel enough. -/
def pullLoop (hmac : Hmac) (key : Option TsigKey) (id : UInt16) (clock : Nat → UInt64) :
    Nat → Nat → Pull → Bytes → Except String Pull
  | fuel, round, pull, stream =>
    if pull.soaSeen < 2 then
      match fuel, readFrame stream with
      | _, none => .error "early eof"
      | 0, _ => .error "early eof"
      | fuel + 1, some (data, rest) =>
        match pull.takeMessage hmac key id (clock round) data with
        | .error error => .error error
        | .ok pull => pullLoop hmac key id clock fuel (round + 1) pull rest
    else .ok pull

def accumulate (hmac : Hmac) (key : Option TsigKey) (id : UInt16) (requestMac : Bytes)
    (clock : Nat → UInt64) (stream : Bytes) : Except String Pull :=
  pullLoop hmac key id clock stream.length 0 ⟨requestMac, [], 0⟩ stream

/-- `stream` is what the primary sends in reply. -/
def axfrPull (hmac : Hmac) (origin : DnsName) (key : Option TsigKey) (id : UInt16)
    (sentAt : UInt64) (clock : Nat → UInt64) (stream : Bytes) : Except String Zone :=
  let requestMac := (encodeSigned hmac (axfrQuery id origin) key sentAt).2
  match accumulate hmac key id requestMac clock stream with
  | .error error => .error error
  | .ok pull => Zone.fromRecords origin pull.records

/-! ## Rounds -/

theorem readFrame_frameOne {wire : Bytes} (short : wire.length ≤ 65535) (rest : Bytes) :
    readFrame (frameOne wire ++ rest) = some (wire, rest) := by
  have back : ofBe16 (UInt16.ofNat wire.length >>> 8).toUInt8 (UInt16.ofNat wire.length).toUInt8 =
      UInt16.ofNat wire.length := ofBe16_toBe16 _
  have length := ofNat16_toNat wire.length short
  rw [frameOne, toBe16, List.append_assoc]
  simp only [List.cons_append, List.nil_append, readFrame, back, length]
  rw [if_pos (by simp), List.take_left, List.drop_left]

/-! ## What a message adds -/

def kept (seen : Nat) : List Record → List Record
  | [] => []
  | record :: rest =>
    if isSoa record then if seen = 1 then [] else record :: kept (seen + 1) rest
    else record :: kept seen rest

def seenAfter (seen : Nat) : List Record → Nat
  | [] => seen
  | record :: rest =>
    if isSoa record then if seen = 1 then 2 else seenAfter (seen + 1) rest
    else seenAfter seen rest

theorem takeAnswers_eq (answers : List Record) :
    ∀ pull : Pull, pull.takeAnswers answers =
      { pull with
        records := pull.records ++ kept pull.soaSeen answers
        soaSeen := seenAfter pull.soaSeen answers } := by
  induction answers with
  | nil => exact fun pull => by simp [Pull.takeAnswers, kept, seenAfter]
  | cons record rest ih =>
    intro pull
    by_cases marked : isSoa record = true
    · have typed : record.rtype = typeSoa := of_decide_eq_true marked
      by_cases second : pull.soaSeen = 1
      · rw [Pull.takeAnswers, if_pos typed, if_pos (by omega), kept, seenAfter, if_pos marked,
          if_pos second, if_pos marked, if_pos second, List.append_nil]
      · rw [Pull.takeAnswers, if_pos typed, if_neg (by omega), ih, kept, seenAfter,
          if_pos marked, if_neg second, if_pos marked, if_neg second]
        simp only [List.append_assoc, List.singleton_append]
    · have untyped : ¬ record.rtype = typeSoa := fun typed => marked (decide_eq_true typed)
      rw [Pull.takeAnswers, if_neg untyped, ih, kept, seenAfter, if_neg marked, if_neg marked]
      simp only [List.append_assoc, List.singleton_append]

theorem kept_sublist (answers : List Record) : ∀ seen : Nat,
    (kept seen answers).Sublist answers := by
  induction answers with
  | nil => exact fun _ => List.Sublist.refl _
  | cons record rest ih =>
    intro seen
    unfold kept
    split
    · split
      · exact List.nil_sublist _
      · exact (ih (seen + 1)).cons_cons record
    · exact (ih seen).cons_cons record

theorem kept_open (front back : List Record) :
    ∀ seen : Nat, seen + (front.filter isSoa).length ≤ 1 →
      kept seen (front ++ back) = front ++ kept (seen + (front.filter isSoa).length) back ∧
      seenAfter seen (front ++ back) = seenAfter (seen + (front.filter isSoa).length) back := by
  induction front with
  | nil => exact fun _ _ => ⟨rfl, rfl⟩
  | cons record rest ih =>
    intro seen room
    by_cases marked : isSoa record = true
    · rw [List.filter_cons_of_pos marked, List.length_cons] at room ⊢
      obtain ⟨same, counted⟩ := ih (seen + 1) (by omega)
      have order : seen + 1 + (rest.filter isSoa).length =
        seen + ((rest.filter isSoa).length + 1) := by
        omega
      rw [order] at same counted
      rw [List.cons_append, kept, seenAfter, if_pos marked, if_neg (by omega), if_pos marked,
        if_neg (by omega), same, counted]
      exact ⟨rfl, rfl⟩
    · rw [List.filter_cons_of_neg marked] at room ⊢
      obtain ⟨same, counted⟩ := ih seen room
      rw [List.cons_append, kept, seenAfter, if_neg marked, if_neg marked, same, counted]
      exact ⟨rfl, rfl⟩

/-! ## Rounds -/

variable {pull : Pull}

theorem takeMessage_eq_ok {now : UInt64} {pull' : Pull}
    (taken : pull.takeMessage hmac key id now data = .ok pull') :
    ∃ msg mac, Message.parse data = .ok msg ∧ pull.chainMac hmac key now msg data = .ok mac ∧
      pull' = ⟨mac, pull.records ++ kept pull.soaSeen msg.answers,
        seenAfter pull.soaSeen msg.answers⟩ := by
  unfold Pull.takeMessage at taken
  cases parsed : Message.parse data with
  | error error =>
    rw [parsed] at taken
    cases taken
  | ok msg =>
    rw [parsed] at taken
    dsimp only at taken
    split at taken
    · cases taken
    split at taken
    · cases taken
    cases chained : pull.chainMac hmac key now msg data with
    | error error =>
      rw [chained] at taken
      cases taken
    | ok mac =>
      rw [chained] at taken
      dsimp only at taken
      split at taken
      · cases taken
      · cases taken
        exact ⟨msg, mac, rfl, chained, takeAnswers_eq msg.answers _⟩

structure Replies (id : UInt16) (msg : Message) : Prop where
  answering : msg.id = id
  response : msg.flags.qr = true
  fine : msg.flags.rcode = 0
  filled : msg.answers ≠ []

theorem takeMessage_chained {now : UInt64} {mac : Bytes} {msg : Message}
    (parsed : Message.parse data = .ok msg) (replies : Replies id msg)
    (chained : pull.chainMac hmac key now msg data = .ok mac) :
    pull.takeMessage hmac key id now data =
      .ok ⟨mac, pull.records ++ kept pull.soaSeen msg.answers,
        seenAfter pull.soaSeen msg.answers⟩ := by
  have matching : ¬ (msg.id ≠ id ∨ msg.flags.qr = false) := by
    simp [replies.answering, replies.response]
  have nonempty : msg.answers.isEmpty = false := by simpa using replies.filled
  simp only [Pull.takeMessage, parsed]
  rw [if_neg matching, if_neg (not_not_intro replies.fine), chained]
  simp only [nonempty, Bool.false_and, Bool.false_eq_true, if_false]
  rw [takeAnswers_eq]

/-- An unsigned message is not verified, whether a key is configured or not. -/
theorem chainMac_unsigned (hmac : Hmac) (key : Option TsigKey) (now : UInt64) (pull : Pull)
    {msg : Message} (unsigned : msg.tsig = none) (data : Bytes) :
    pull.chainMac hmac key now msg data = .ok pull.priorMac := by
  rw [Pull.chainMac, unsigned]
  exact if_neg (by simp)

theorem pullLoop_next {fuel round : Nat} {pull' : Pull} {rest : Bytes} (more : pull.soaSeen < 2)
    (read : readFrame stream = some (data, rest))
    (taken : pull.takeMessage hmac key id (clock round) data = .ok pull') :
    pullLoop hmac key id clock (fuel + 1) round pull stream =
      pullLoop hmac key id clock fuel (round + 1) pull' rest := by
  conv_lhs => unfold pullLoop
  rw [if_pos more, read]
  simp only [taken]

theorem pullLoop_done {fuel round : Nat} (closed : ¬ pull.soaSeen < 2) :
    pullLoop hmac key id clock fuel round pull stream = .ok pull := by
  unfold pullLoop
  rw [if_neg closed]

/-- The label of a round: the octets of a message and when they were looked at. -/
abbrev Arrival := Bytes × UInt64

def Takes (hmac : Hmac) (key : Option TsigKey) (id : UInt16) (pull : Pull) (arrival : Arrival)
    (pull' : Pull) : Prop :=
  pull.takeMessage hmac key id arrival.2 arrival.1 = .ok pull'

def Arrival.answers (arrival : Arrival) : List Record :=
  match Message.parse arrival.1 with
  | .ok msg => msg.answers
  | .error _ => []

/-- The messages of a stream up to the one with the second SOA. -/
def arrivals (clock : Nat → UInt64) : Nat → Nat → Nat → Bytes → List Arrival
  | fuel, round, seen, stream =>
    if seen < 2 then
      match fuel, readFrame stream with
      | fuel + 1, some (data, rest) =>
        (data, clock round) :: arrivals clock fuel (round + 1)
          (seenAfter seen (Arrival.answers (data, clock round))) rest
      | _, _ => []
    else []

def delivered (clock : Nat → UInt64) (stream : Bytes) : List Arrival :=
  arrivals clock stream.length 0 0 stream

theorem pullLoop_run :
    ∀ (fuel round : Nat) (pull : Pull) (stream : Bytes) (last : Pull),
      pullLoop hmac key id clock fuel round pull stream = .ok last →
      Run (Takes hmac key id) pull (arrivals clock fuel round pull.soaSeen stream) last := by
  intro fuel
  induction fuel with
  | zero =>
    intro round pull stream last done
    unfold pullLoop at done
    unfold arrivals
    by_cases more : pull.soaSeen < 2
    · rw [if_pos more] at done
      cases read : readFrame stream <;> rw [read] at done <;> cases done
    · rw [if_neg more] at done ⊢
      cases done
      exact .done _
  | succ fuel ih =>
    intro round pull stream last done
    unfold pullLoop at done
    unfold arrivals
    by_cases more : pull.soaSeen < 2
    · rw [if_pos more] at done ⊢
      cases read : readFrame stream with
      | none =>
        rw [read] at done
        cases done
      | some found =>
        rw [read] at done
        dsimp only at done
        cases taken : pull.takeMessage hmac key id (clock round) found.1 with
        | error error =>
          rw [taken] at done
          cases done
        | ok next =>
          rw [taken] at done
          obtain ⟨msg, mac, parsed, _, rfl⟩ := takeMessage_eq_ok taken
          have answers : Arrival.answers (found.1, clock round) = msg.answers := by
            simp only [Arrival.answers, parsed]
          have run := ih (round + 1) _ found.2 last done
          refine .next taken ?_
          rw [answers]
          exact run
    · rw [if_neg more] at done ⊢
      cases done
      exact .done _

theorem accumulate_run {requestMac : Bytes} {last : Pull}
    (done : accumulate hmac key id requestMac clock stream = .ok last) :
    Run (Takes hmac key id) ⟨requestMac, [], 0⟩ (delivered clock stream) last :=
  pullLoop_run _ _ _ _ _ done

/-- Whatever is collected has come out of the decoder. -/
theorem accumulate_regular {requestMac : Bytes} {last : Pull}
    (done : accumulate hmac key id requestMac clock stream = .ok last) :
    ∀ record ∈ last.records, record.Regular := by
  have step : ∀ pull arrival pull', (∀ record ∈ pull.records, record.Regular) →
      Takes hmac key id pull arrival pull' → ∀ record ∈ pull'.records, record.Regular := by
    intro pull arrival pull' all taken record member
    obtain ⟨msg, mac, parsed, _, rfl⟩ := takeMessage_eq_ok taken
    rcases List.mem_append.mp member with before | added
    · exact all record before
    · exact (parse_regular parsed).answers record ((kept_sublist msg.answers _).subset added)
  exact (accumulate_run done).invariant step (List.forall_mem_nil _)

end Rdns.Xfr
