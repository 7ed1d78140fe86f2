import Rdns.Resolver.Recursor
import Rdns.Server.Writers
import Rdns.Xfr.Authentic

/-!
# Secondary zones

`run_secondary` of dns-xfr as a machine of three phases: it sleeps, asks a primary
for its serial, and pulls the zone.  Whether to pull is decided on the serial of one
reply; the zone that is installed comes in another.  It is a newer one as long as the
primary does not fall behind what it has announced.
-/

set_option autoImplicit false

namespace Rdns.Xfr

open Rdns.Lib Rdns.Proto Rdns.Zones Rdns.Tsig Rdns.Server Rdns.Resolver.Recursor

/-! ## The serial of a primary -/

/-- RFC 1982 serial arithmetic: whether the first is newer. -/
def serialGt (a b : UInt32) : Bool := a ≠ b && a - b < 0x80000000

def soaQuery (id : UInt16) (origin : DnsName) : Message :=
  { Message.new id Flags.default with
    questions := [{ qname := origin, qtype := typeSoa, qclass := classIn }] }

def soaSerial (origin : DnsName) (record : Record) : Option UInt32 :=
  match record.rdata with
  | .soa soa => if record.name = origin then some soa.serial else none
  | _ => none

/-- `reply` is the datagram that comes back, cut off by the buffer. -/
def querySoaSerial (origin : DnsName) (id : UInt16) (reply : Bytes) : Except String UInt32 :=
  match Message.parse (reply.take 2048) with
  | .error error => .error error.display
  | .ok msg =>
    if msg.id ≠ (soaQuery id origin).id ∨ msg.flags.qr = false then
      .error "soa reply does not match query"
    else
      match msg.answers.findSome? (soaSerial origin) with
      | some serial => .ok serial
      | none => .error "no SOA in reply"

/-! ## The refresh loop -/

structure Secondary where
  origin : DnsName
  primaries : List SocketAddr
  tsigKey : Option TsigKey

def refreshMin : Nat := 15

def refreshMax : Nat := 86400

def retry : Nat := 60

def zoneRefresh (zone : Zone) : Nat :=
  match zone.soa.rdata with
  | .soa soa => min (max soa.refresh.toNat refreshMin) refreshMax
  | _ => retry

/-- Where the loop awaits: the timer or a NOTIFY, a SOA reply, or a transfer.  `current` is
the serial held when the round began. -/
inductive Phase
  | sleeping
  | asking (current : Option UInt32) (primary : SocketAddr) (rest : List SocketAddr)
  | pulling (current : Option UInt32) (serial : UInt32) (primary : SocketAddr)
      (rest : List SocketAddr)

def Phase.next (current : Option UInt32) : List SocketAddr → Phase
  | [] => .sleeping
  | primary :: rest => .asking current primary rest

structure State where
  /-- The zone set of the resolver. -/
  zones : List Zone
  refresh : Nat
  phase : Phase

/-- What comes from outside: a wake-up, the octets a primary sends or the error of the
connection, and a zone set that other tasks have written. -/
inductive Event
  | wake
  | soaReply (id : UInt16) (reply : Except String Bytes)
  | transfer (id : UInt16) (sentAt : UInt64) (clock : Nat → UInt64) (stream : Except String Bytes)
  | elsewhere (zones : List Zone)

namespace Secondary

variable (hmac : Hmac) (sec : Secondary)

def held (zones : List Zone) : Option Zone := zones.find? (atOrigin sec.origin)

def wake (state : State) : State :=
  { state with
    refresh := retry
    phase := .next ((sec.held state.zones).map zoneSerial) sec.primaries }

def answered (state : State) (current : Option UInt32) (primary : SocketAddr)
    (rest : List SocketAddr) (id : UInt16) (reply : Except String Bytes) : State :=
  match reply >>= querySoaSerial sec.origin id with
  | .ok serial =>
    if current.all (serialGt serial) then
      { state with phase := .pulling current serial primary rest }
    else
      { state with
        refresh := ((sec.held state.zones).map zoneRefresh).getD state.refresh
        phase := .sleeping }
  | .error _ => { state with phase := .next current rest }

def pulled (id : UInt16) (sentAt : UInt64) (clock : Nat → UInt64) (stream : Except String Bytes) :
    Except String Zone :=
  stream >>= axfrPull hmac sec.origin sec.tsigKey id sentAt clock

def transferred (state : State) (current : Option UInt32) (rest : List SocketAddr) :
    Except String Zone → State
  | .ok zone =>
    { zones := upsertZone state.zones zone, refresh := zoneRefresh zone, phase := .sleeping }
  | .error _ => { state with phase := .next current rest }

/-- The steps of the loop.  Others write what they like, but not this zone. -/
inductive Steps : State → Event → State → Prop
  | wake {state : State} (asleep : state.phase = .sleeping) : Steps state .wake (sec.wake state)
  | soaReply {state : State} {current : Option UInt32} {primary : SocketAddr}
      {rest : List SocketAddr} (asking : state.phase = .asking current primary rest) (id : UInt16)
      (reply : Except String Bytes) :
      Steps state (.soaReply id reply) (sec.answered state current primary rest id reply)
  | transfer {state : State} {current : Option UInt32} {serial : UInt32} {primary : SocketAddr}
      {rest : List SocketAddr} (pulling : state.phase = .pulling current serial primary rest)
      (id : UInt16) (sentAt : UInt64) (clock : Nat → UInt64) (stream : Except String Bytes) :
      Steps state (.transfer id sentAt clock stream)
        (transferred state current rest (sec.pulled hmac id sentAt clock stream))
  | elsewhere {state : State} {zones : List Zone} (kept : sec.held zones = sec.held state.zones) :
      Steps state (.elsewhere zones) { state with zones }

def installed (state : State) (event : Event) : Option Zone :=
  match state.phase, event with
  | .pulling _ _ _ _, .transfer id sentAt clock stream =>
    (sec.pulled hmac id sentAt clock stream).toOption
  | _, _ => none

/-- What is installed over a zone is newer than it. -/
def Forward (state : State) (event : Event) (state' : State) : Prop :=
  ∀ new old, sec.installed hmac state event = some new → sec.held state.zones = some old →
    sec.held state'.zones = some new ∧ serialGt (zoneSerial new) (zoneSerial old) = true

/-- Counted from the serial held, the one transferred is not before the one announced, and
still within half of the circle. -/
def Consistent (state : State) (event : Event) : Prop :=
  ∀ current announced primary rest new,
    state.phase = .pulling (some current) announced primary rest →
    sec.installed hmac state event = some new →
    (announced - current).toNat + (zoneSerial new - announced).toNat < 2 ^ 31

end Secondary

/-! ## Serials -/

theorem serialGt_iff (a b : UInt32) :
    serialGt a b = true ↔ 0 < (a - b).toNat ∧ (a - b).toNat < 2 ^ 31 := by
  have small := a.toNat_lt
  have small' := b.toNat_lt
  have difference := UInt32.toNat_sub a b
  have half : (0x80000000 : UInt32).toNat = 2 ^ 31 := rfl
  rw [serialGt, Bool.and_eq_true, decide_eq_true_iff, decide_eq_true_iff, ne_eq,
    ← UInt32.toNat_inj, UInt32.lt_iff_toNat_lt, half]
  omega

/-- Two advances that stay within half of the circle are one. -/
theorem serialGt_of_advances {held announced new : UInt32} (newer : serialGt announced held = true)
    (window : (announced - held).toNat + (new - announced).toNat < 2 ^ 31) :
    serialGt new held = true := by
  rw [serialGt_iff] at newer ⊢
  have first := UInt32.toNat_sub announced held
  have second := UInt32.toNat_sub new announced
  have both := UInt32.toNat_sub new held
  have small := held.toNat_lt
  have small' := announced.toNat_lt
  have small'' := new.toNat_lt
  omega

/-! ## Runs -/

namespace Secondary

variable {hmac : Hmac} {sec : Secondary}

/-- During a round the serial it goes by is that of the zone held, and a pull has been
decided on a newer one. -/
def Current (sec : Secondary) (state : State) : Prop :=
  match state.phase with
  | .sleeping => True
  | .asking current _ _ => current = (sec.held state.zones).map zoneSerial
  | .pulling current serial _ _ =>
    current = (sec.held state.zones).map zoneSerial ∧ current.all (serialGt serial) = true

theorem current_next {zones : List Zone} {refresh : Nat} {current : Option UInt32}
    (same : current = (sec.held zones).map zoneSerial) (rest : List SocketAddr) :
    Current sec ⟨zones, refresh, .next current rest⟩ := by
  cases rest with
  | nil => trivial
  | cons primary rest => exact same

theorem steps_current {state state' : State} {event : Event} (current : Current sec state)
    (step : Steps hmac sec state event state') : Current sec state' := by
  unfold Current at current
  cases step with
  | wake asleep => exact current_next rfl sec.primaries
  | @soaReply known primary rest asking id reply =>
    rw [asking] at current
    unfold answered
    split
    · split
      · rename_i newer
        exact ⟨current, newer⟩
      · trivial
    · exact current_next current rest
  | @transfer known serial primary rest pulling id sentAt clock stream =>
    rw [pulling] at current
    unfold transferred
    split
    · trivial
    · exact current_next current.1 rest
  | elsewhere kept =>
    unfold Current
    rw [kept]
    exact current

theorem pulled_ok (id : UInt16) (sentAt : UInt64) (clock : Nat → UInt64) (octets : Bytes) :
    sec.pulled hmac id sentAt clock (.ok octets) =
      axfrPull hmac sec.origin sec.tsigKey id sentAt clock octets := rfl

theorem pulled_origin {id : UInt16} {sentAt : UInt64} {clock : Nat → UInt64}
    {stream : Except String Bytes} {zone : Zone}
    (done : sec.pulled hmac id sentAt clock stream = .ok zone) : zone.origin = sec.origin := by
  cases stream with
  | error error => cases done
  | ok octets =>
    rw [pulled_ok] at done
    unfold axfrPull at done
    dsimp only at done
    split at done
    · cases done
    · exact (fromRecords_ok done).1

theorem installed_eq_some {state : State} {event : Event} {new : Zone}
    (done : sec.installed hmac state event = some new) :
    ∃ current serial primary rest id sentAt clock stream,
      state.phase = .pulling current serial primary rest ∧
      event = .transfer id sentAt clock stream ∧
      sec.pulled hmac id sentAt clock stream = .ok new := by
  unfold installed at done
  split at done
  · rename_i current serial primary rest id sentAt clock stream pulling
    refine ⟨current, serial, primary, rest, id, sentAt, clock, stream, pulling, rfl, ?_⟩
    cases result : sec.pulled hmac id sentAt clock stream with
    | error error =>
      rw [result] at done
      cases done
    | ok zone =>
      rw [result] at done
      cases done
      rfl
  · cases done

/-- From primaries that do not fall behind, a secondary only goes forward. -/
theorem run_forward {start state state' : State} {events : List Event} {event : Event}
    (asleep : start.phase = .sleeping)
    (run : Run (When (Consistent hmac sec) (Steps hmac sec)) start events state)
    (step : When (Consistent hmac sec) (Steps hmac sec) state event state') :
    Forward hmac sec state event state' := by
  have initial : Current sec start := by
    rw [Current, asleep]
    trivial
  have current : Current sec state := by
    refine run.invariant (fun before label after current step => ?_) initial
    exact steps_current current step.2
  obtain ⟨consistent, step⟩ := step
  intro new old done before
  obtain ⟨known, announced, primary, rest, id, sentAt, clock, stream, pulling, rfl, result⟩ :=
    installed_eq_some done
  rw [Current, pulling] at current
  obtain ⟨same, newer⟩ := current
  rw [before] at same
  subst same
  constructor
  · -- the transfer is an `upsert_zone` at the origin
    cases step with
    | transfer _ _ _ _ _ =>
      rw [result, transferred, held, find?_upsertZone, if_pos (pulled_origin result)]
  · exact serialGt_of_advances newer (consistent _ announced primary rest new pulling done)

end Secondary

/-! ## Samples -/

def versionedSoa (serial : UInt32) : Record :=
  { apexSoa with rdata := .soa ⟨apexName, apexName, serial, 7200, 3600, 1209600, 300⟩ }

def versioned (serial : UInt32) : Zone :=
  ⟨apexName, versionedSoa serial, 1, HashMap.empty.insert apexName [versionedSoa serial]⟩

def samplePrimary : SocketAddr := ⟨.v4 (.new 10 0 0 1), dnsPort⟩

def mirrored : Secondary := ⟨apexName, [samplePrimary], none⟩

def announce (serial : UInt32) : Bytes :=
  (carrying (soaQuery 1 apexName) [versionedSoa serial]).encode

def shellTransfer : Event := .transfer 1 0 (fun _ => 0) (.ok (frameOne shellReply.encode))

theorem shell_pulled (clock : Nat → UInt64) :
    mirrored.pulled plainHmac 1 0 clock (.ok (frameOne shellReply.encode)) = .ok shell := by
  have taken : (Pull.mk (encodeSigned plainHmac (axfrQuery 1 apexName) none 0).2 [] 0).takeMessage
      plainHmac none 1 (clock 0) shellReply.encode = .ok ⟨_, [apexSoa], 2⟩ :=
    takeMessage_chained shellReply_whole shellReply_replies
      (chainMac_unsigned plainHmac none (clock 0) _ rfl _)
  have short : shellReply.encode.length ≤ 65535 := by decide +kernel
  rw [Secondary.pulled_ok]
  exact (axfrPull_single short taken shell_built).1

theorem pulls_after_reply {serial announced : UInt32} {reply : Bytes}
    (read : querySoaSerial apexName 1 reply = .ok announced)
    (newer : serialGt announced serial = true) :
    Run (When (Secondary.Consistent plainHmac mirrored) (Secondary.Steps plainHmac mirrored))
      ⟨[versioned serial], retry, .sleeping⟩ [.wake, .soaReply 1 (.ok reply)]
      ⟨[versioned serial], retry, .pulling (some serial) announced samplePrimary []⟩ := by
  have woken : mirrored.wake ⟨[versioned serial], retry, .sleeping⟩ =
      ⟨[versioned serial], retry, .asking (some serial) samplePrimary []⟩ := by
    have held : mirrored.held [versioned serial] = some (versioned serial) := by
      simp [Secondary.held, mirrored, versioned, atOrigin]
    rw [Secondary.wake, held]
    rfl
  have answered : mirrored.answered ⟨[versioned serial], retry,
      .asking (some serial) samplePrimary []⟩ (some serial) samplePrimary [] 1 (.ok reply) =
      ⟨[versioned serial], retry, .pulling (some serial) announced samplePrimary []⟩ := by
    have decoded : (Except.ok reply >>= querySoaSerial mirrored.origin 1) = .ok announced := read
    simp [Secondary.answered, decoded, newer]
  have first : When (Secondary.Consistent plainHmac mirrored) (Secondary.Steps plainHmac mirrored)
      ⟨[versioned serial], retry, .sleeping⟩ .wake
      ⟨[versioned serial], retry, .asking (some serial) samplePrimary []⟩ := by
    refine ⟨fun _ _ _ _ _ impossible => (by cases impossible), ?_⟩
    rw [← woken]
    exact .wake rfl
  have second : When (Secondary.Consistent plainHmac mirrored) (Secondary.Steps plainHmac mirrored)
      ⟨[versioned serial], retry, .asking (some serial) samplePrimary []⟩
      (.soaReply 1 (.ok reply))
      ⟨[versioned serial], retry, .pulling (some serial) announced samplePrimary []⟩ := by
    refine ⟨fun _ _ _ _ _ impossible => (by cases impossible), ?_⟩
    rw [← answered]
    exact .soaReply rfl 1 (.ok reply)
  exact .next first (.next second (.done _))

theorem shellTransfer_installed (zones : List Zone) (refresh : Nat) (current : Option UInt32)
    (serial : UInt32) :
    let state : State := ⟨zones, refresh, .pulling current serial samplePrimary []⟩
    mirrored.installed plainHmac state shellTransfer = some shell ∧
      Secondary.Steps plainHmac mirrored state shellTransfer
        (Secondary.transferred state current [] (.ok shell)) := by
  intro state
  constructor
  · have done : mirrored.installed plainHmac state shellTransfer =
        (mirrored.pulled plainHmac 1 0 (fun _ => 0)
          (.ok (frameOne shellReply.encode))).toOption := rfl
    rw [done, shell_pulled]
    rfl
  · rw [← shell_pulled fun _ => 0]
    exact .transfer rfl _ _ _ _

namespace Secondary

theorem run_forward_versioned :
    ∃ state state', Run (When (Consistent plainHmac mirrored) (Steps plainHmac mirrored))
        ⟨[versioned 0], retry, .sleeping⟩ [.wake, .soaReply 1 (.ok (announce 1))] state ∧
      mirrored.installed plainHmac state shellTransfer = some shell ∧
      Forward plainHmac mirrored state shellTransfer state' := by
  have read : querySoaSerial apexName 1 (announce 1) = .ok 1 := by rfl
  have run := pulls_after_reply read (by decide : serialGt 1 0 = true)
  obtain ⟨done, step⟩ := shellTransfer_installed [versioned 0] retry (some 0) 1
  have consistent : Consistent plainHmac mirrored
      ⟨[versioned 0], retry, .pulling (some 0) 1 samplePrimary []⟩ shellTransfer := by
    intro current announced primary rest new pulling installed
    cases pulling
    rw [done] at installed
    cases installed
    decide
  exact ⟨_, _, run, done, run_forward rfl run ⟨consistent, step⟩⟩

end Secondary

/-- The primary announces serial 3 and transfers serial 1, which replaces serial 2. -/
theorem lagging_primary_installed :
    ∃ state state', Run (Secondary.Steps plainHmac mirrored) ⟨[versioned 2], retry, .sleeping⟩
        [.wake, .soaReply 1 (.ok (announce 3))] state ∧
      Secondary.Steps plainHmac mirrored state shellTransfer state' ∧
      ¬ Secondary.Forward plainHmac mirrored state shellTransfer state' := by
  have read : querySoaSerial apexName 1 (announce 3) = .ok 3 := by rfl
  have run := pulls_after_reply read (by decide : serialGt 3 2 = true)
  obtain ⟨done, step⟩ := shellTransfer_installed [versioned 2] retry (some 2) 3
  refine ⟨_, _, run.mono fun _ _ _ step => step.2, step, fun forward => ?_⟩
  obtain ⟨_, newer⟩ := forward shell (versioned 2) done rfl
  cases newer

end Rdns.Xfr
