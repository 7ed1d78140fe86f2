import Rdns.Tsig.Sign

/-!
# Signed exchanges

A signed request and the stream of signed responses to it, each chained on the MAC
before it as `sign_transfer_frames` of the server does.  Whoever holds the key
accepts all of them.
-/

set_option autoImplicit false

namespace Rdns.Tsig

open Rdns.Lib Rdns.Proto

/-! ## The server's loop -/

def nextMac (prior signed : Bytes) : Bytes :=
  match Message.parse signed with
  | .error _ => prior
  | .ok parsed =>
    match parsed.tsig with
    | some tsig => tsig.mac
    | none => prior

def frameOne (wire : Bytes) : Bytes := toBe16 (UInt16.ofNat wire.length) ++ wire

def signFramesLoop (hmac : Hmac) (key : TsigKey) (now : UInt64) : Bytes → List Bytes → List Bytes
  | _, [] => []
  | prior, frame :: rest =>
    match Message.parse (frame.drop 2) with
    | .error _ => frame :: signFramesLoop hmac key now prior rest
    | .ok msg =>
      let signed := signResponse hmac msg key prior now
      frameOne signed :: signFramesLoop hmac key now (nextMac prior signed) rest

def signTransferFrames (hmac : Hmac) (keys : KeyRing) (query : Message) (frames : List Bytes)
    (requestMac : Bytes) (now : UInt64) : List Bytes :=
  match query.tsig with
  | none => frames
  | some tsig =>
    match keys.get tsig.keyName with
    | none => frames
    | some key => signFramesLoop hmac key now requestMac frames

/-! ## Chains of responses -/

/-- A response with the clock of the signer and that of the verifier. -/
structure Reply where
  message : Message
  signedAt : UInt64
  readAt : UInt64

def signReplies (hmac : Hmac) (key : TsigKey) : Bytes → List Reply → List (Bytes × UInt64)
  | _, [] => []
  | prior, reply :: rest =>
    let signed := signResponse hmac reply.message key prior reply.signedAt
    (signed, reply.readAt) :: signReplies hmac key (nextMac prior signed) rest

def Accepted (hmac : Hmac) (keyring : KeyRing) : Bytes → List (Bytes × UInt64) → Prop
  | _, [] => True
  | prior, (wire, now) :: rest => ∃ parsed mac, Message.parse wire = .ok parsed ∧
      verify hmac parsed wire keyring now (some prior) = .ok mac ∧ Accepted hmac keyring mac rest

/-- The server signs a transfer the way the responses above are signed. -/
theorem signFramesLoop_eq (hmac : Hmac) (key : TsigKey) (now : UInt64) (messages : List Message) :
    ∀ (prior : Bytes) (frames : List Bytes),
      frames.map (fun frame => Message.parse (frame.drop 2)) = messages.map Except.ok →
      signFramesLoop hmac key now prior frames =
        (signReplies hmac key prior (messages.map fun message => ⟨message, now, now⟩)).map
          fun signed => frameOne signed.1 := by
  induction messages with
  | nil =>
    intro prior frames parsed
    rw [List.map_eq_nil_iff.mp parsed]
    rfl
  | cons message rest ih =>
    intro prior frames parsed
    cases frames with
    | nil => cases parsed
    | cons frame others =>
      obtain ⟨here, later⟩ := List.cons.inj parsed
      simp only [signFramesLoop, here, signReplies, List.map_cons, ih _ others later]

/-! ## What the holder of the key accepts -/

theorem near_absDiff {now now' : UInt64} (early : now.toNat ≤ now'.toNat + 300)
    (late : now'.toNat ≤ now.toNat + 300) :
    ¬ absDiff now' now > maxClockSkew.toUInt16.toUInt64 := by
  have fudge : maxClockSkew.toUInt16.toUInt64.toNat = 300 := rfl
  rw [gt_iff_lt, UInt64.lt_iff_toNat_lt, fudge]
  unfold absDiff
  split
  · rename_i before
    rw [UInt64.lt_iff_toNat_lt] at before
    rw [UInt64.toNat_sub_of_le _ _ (UInt64.le_iff_toNat_le.mpr before.le)]
    omega
  · rename_i after
    have order : now ≤ now' := UInt64.not_lt.mp after
    rw [UInt64.toNat_sub_of_le _ _ order]
    omega

theorem signedBody_eq {opening segment record : Bytes} {count : UInt16}
    (ten : opening.length = 10) :
    signedBody (opening ++ toBe16 (count + 1) ++ segment ++ record)
        (opening ++ toBe16 count ++ segment).length =
      opening ++ toBe16 count ++ segment := by
  have front : (opening ++ toBe16 (count + 1) ++ segment ++ record).take
      (opening ++ toBe16 count ++ segment).length = opening ++ toBe16 (count + 1) ++ segment :=
    List.take_left' (by simp)
  have counter := ofBe16_getD opening segment (count + 1)
  have lowered : count + 1 - 1 = count := UInt16.add_sub_cancel count 1
  rw [ten] at counter
  rw [signedBody, front, counter, lowered, ← ten, patch_word]

theorem verify_signedTsig (hmac : Hmac) {keyring : KeyRing} {key : TsigKey}
    (held : keyring.get key.name = some key) {msg : Message} (whole : msg.RoundTrips)
    (room : msg.arcount < 65535) (priorMac : Option Bytes) {now now' : UInt64}
    (small : now.toNat < 2 ^ 48) (early : now.toNat ≤ now'.toNat + 300)
    (late : now'.toNat ≤ now.toNat + 300) {tsig : Proto.Tsig}
    (signed : signedTsig hmac msg key priorMac now = tsig) :
    Message.parse (msg.encodeWithTsig tsig) =
        .ok { msg with tsig := some tsig, tsigStart := some msg.encode.length } ∧
      verify hmac { msg with tsig := some tsig, tsigStart := some msg.encode.length }
        (msg.encodeWithTsig tsig) keyring now' priorMac = .ok tsig.mac := by
  obtain ⟨regular, legible⟩ := (roundTrips_iff msg).mp whole
  have sound := signedTsig_regular hmac msg key priorMac small
  rw [signed] at sound
  obtain ⟨opening, segment, ten, encoded, octets, parsed⟩ := parse_signed regular legible room sound
  refine ⟨parsed, ?_⟩
  have body : signedBody (msg.encodeWithTsig tsig) msg.encode.length = msg.encode := by
    rw [octets, encoded]
    exact signedBody_eq ten
  have named : keyring.get tsig.keyName = some key := by rw [← signed]; exact held
  have algorithm : Algorithm.fromWireName tsig.algorithm = some key.algorithm := by
    rw [← signed]
    exact fromWireName_name key.algorithm
  have tag : hmac.verify key.algorithm key.secret (digestInput msg.encode tsig priorMac) tsig.mac =
      true := by
    rw [← signed]
    exact hmac.accepts key.algorithm key.secret _
  have time : ¬ absDiff now' tsig.timeSigned > tsig.fudge.toUInt64 := by
    rw [← signed]
    exact near_absDiff early late
  simp only [verify, named, body, algorithm, tag]
  rw [if_neg (by simp), if_neg (by simp), if_neg time]

structure Reply.Timely (reply : Reply) : Prop where
  whole : reply.message.RoundTrips
  room : reply.message.arcount < 65535
  small : reply.signedAt.toNat < 2 ^ 48
  early : reply.signedAt.toNat ≤ reply.readAt.toNat + 300
  late : reply.readAt.toNat ≤ reply.signedAt.toNat + 300

theorem accepted_replies (hmac : Hmac) {keyring : KeyRing} {key : TsigKey}
    (held : keyring.get key.name = some key) (replies : List Reply) :
    ∀ prior : Bytes, (∀ reply ∈ replies, reply.Timely) →
      Accepted hmac keyring prior (signReplies hmac key prior replies) := by
  induction replies with
  | nil => exact fun _ _ => trivial
  | cons reply rest ih =>
    intro prior timely
    obtain ⟨here, later⟩ := List.forall_mem_cons.mp timely
    obtain ⟨parsed, verified⟩ := verify_signedTsig hmac held here.whole here.room (some prior)
      here.small here.early here.late rfl
    -- The signer chains on the MAC it finds in what it has sent.
    have chained : nextMac prior (signResponse hmac reply.message key prior reply.signedAt) =
        (signedTsig hmac reply.message key (some prior) reply.signedAt).mac := by
      simp only [nextMac, signResponse, parsed]
    refine ⟨_, _, parsed, verified, ?_⟩
    rw [chained]
    exact ih _ later

/-- The holder of the key accepts a signed request, with the MAC the signer has, and
every response of a stream chained on it. -/
theorem verify_exchange (hmac : Hmac) {keyring : KeyRing} {key : TsigKey}
    (held : keyring.get key.name = some key) {request : Message} (whole : request.RoundTrips)
    (room : request.arcount < 65535) {now now' : UInt64} (small : now.toNat < 2 ^ 48)
    (early : now.toNat ≤ now'.toNat + 300) (late : now'.toNat ≤ now.toNat + 300)
    (replies : List Reply) (timely : ∀ reply ∈ replies, reply.Timely) :
    (∃ parsed, Message.parse (signRequest hmac request key now).1 = .ok parsed ∧
      verify hmac parsed (signRequest hmac request key now).1 keyring now' none =
        .ok (signRequest hmac request key now).2) ∧
    Accepted hmac keyring (signRequest hmac request key now).2
      (signReplies hmac key (signRequest hmac request key now).2 replies) := by
  obtain ⟨parsed, verified⟩ := verify_signedTsig hmac held whole room none small early late rfl
  exact ⟨⟨_, parsed, verified⟩, accepted_replies hmac held replies _ timely⟩

def plainHmac : Hmac where
  sign algorithm secret data :=
    (secret ++ data ++ List.replicate algorithm.digestLen 0).take algorithm.digestLen
  verify algorithm secret data tag :=
    tag == (secret ++ data ++ List.replicate algorithm.digestLen 0).take algorithm.digestLen
  tagLen := by
    intro algorithm secret data
    rw [List.length_take, List.length_append, List.length_replicate]
    omega
  accepts := fun _ _ _ => beq_self_eq_true _

def sharedKey : TsigKey := ⟨⟨[[107]], by decide⟩, .hmacSha256, [1, 2, 3], rfl⟩

def transferQuery : Message :=
  { Message.new 7 Flags.default with
    questions := [
      { qname := ⟨[[101, 120], [116]], by decide⟩, qtype := typeAxfr, qclass := classIn }] }

theorem verify_exchange_transfer :
    transferQuery.RoundTrips ∧
      (let signed := signRequest plainHmac transferQuery sharedKey 1000
      Accepted plainHmac (KeyRing.default.insert sharedKey) signed.2
        (signReplies plainHmac sharedKey signed.2
          [⟨transferQuery.responseTo, 1001, 1301⟩, ⟨transferQuery.responseTo, 1001, 900⟩])) := by
  have timely : ∀ reply ∈ [(⟨transferQuery.responseTo, 1001, 1301⟩ : Reply),
      ⟨transferQuery.responseTo, 1001, 900⟩], reply.Timely := by
    refine List.forall_mem_cons.mpr ⟨?_, List.forall_mem_singleton.mpr ?_⟩
    · exact ⟨rfl, by decide, by decide, by decide, by decide⟩
    · exact ⟨rfl, by decide, by decide, by decide, by decide⟩
  have whole : transferQuery.RoundTrips := rfl
  have small : (1000 : UInt64).toNat < 2 ^ 48 := by decide
  have early : (1000 : UInt64).toNat ≤ (1100 : UInt64).toNat + 300 := by decide
  have late : (1100 : UInt64).toNat ≤ (1000 : UInt64).toNat + 300 := by decide
  have accepted := verify_exchange plainHmac (KeyRing.get_insert .default sharedKey) whole
    (by decide) small early late _ timely
  exact ⟨whole, accepted.2⟩

end Rdns.Tsig
