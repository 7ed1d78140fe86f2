import Rdns.Lib.HashMap
import Rdns.Lib.Run
import Rdns.Lib.Stateful
import Rdns.Resolver.Cache
import Rdns.Resolver.Validator

/-!
# Iterative resolution

`Recursor` of dns-resolver: a walk down from the deepest cached delegation, or the
root, along referrals, with minimised queries and nested resolutions of name servers
without glue and of CNAME targets.  The replies and the clock are the world's: nothing
is known about either.
-/

set_option autoImplicit false

namespace Rdns.Resolver.Recursor

open Rdns.Lib Rdns.Proto

structure SocketAddr where
  ip : IpAddr
  port : UInt16
deriving DecidableEq

def dnsPort : UInt16 := 53

def rootHints : List Ipv4Addr :=
  [.new 198 41 0 4, .new 199 9 14 201, .new 192 33 4 12, .new 199 7 91 13, .new 192 203 230 10,
    .new 192 5 5 241, .new 192 112 36 4, .new 198 97 190 53, .new 192 36 148 17, .new 192 58 128 30,
    .new 193 0 14 129, .new 199 7 83 42, .new 202 12 27 33]

def roots : List SocketAddr := rootHints.map fun ip => ⟨.v4 ip, dnsPort⟩

def maxReferrals : Nat := 30

/-- How deep resolutions nest; there is one level more than its value. -/
def maxNesting : Nat := 24

def delegationTtl : Nat := fromSecs 600

def mapLimit : Nat := 100000

/-! ## State -/

/-- What happened, for the record only: a reply with the zone that was asked, the
outcome of a nested resolution of a name server, and an entry written while a reply
from the servers of the current zone was worked on. -/
inductive Event
  | reply (current : DnsName) (msg : Message)
  | resolved (name : DnsName) (msg : Message)
  | write (zone : DnsName) (servers : List SocketAddr) (current : DnsName) (reply : Message)

/-- The two caches, how often the clock was read and a server asked, and the events,
the newest first. -/
structure Session where
  delegations : HashMap DnsName (List SocketAddr × Instant)
  answers : HashMap (DnsName × UInt16) (Message × Instant)
  reads : Nat
  asked : Nat
  log : List Event

def Session.new : Session := ⟨HashMap.empty, HashMap.empty, 0, 0, []⟩

/-- The times read, and what the servers say to each question. -/
structure World where
  now : Nat → Instant
  reply : Nat → SocketAddr → DnsName → UInt16 → Except ForwardError Message

abbrev Walk := StateM Session

variable (world : World)

def readClock : Walk Instant :=
  modifyGet fun session => (world.now session.reads, { session with reads := session.reads + 1 })

def queryOne (server : SocketAddr) (qname : DnsName) (qtype : UInt16) :
    Walk (Except ForwardError Message) :=
  modifyGet fun session =>
    (world.reply session.asked server qname qtype, { session with asked := session.asked + 1 })

def note (event : Event) : Walk Unit :=
  modify fun session => { session with log := event :: session.log }

/-! ## Delegations -/

/-- The deepest fresh delegation at an ancestor of the name, less the labels skipped. -/
def cachedStart (qname : DnsName) (minSkip : Nat) : Walk (Option (DnsName × List SocketAddr)) := do
  let now ← readClock world
  let session ← get
  pure ((List.range' minSkip (qname.labelCount - minSkip)).findSome? fun skip =>
    match DnsName.fromLabels (qname.labels.drop skip) with
    | .error _ => none
    | .ok candidate =>
      match session.delegations.get? candidate with
      | none => none
      | some (servers, expires) => if expires > now then some (candidate, servers) else none)

def pruneDelegations : Walk Unit := do
  if (← get).delegations.len > mapLimit then
    let now ← readClock world
    modify fun session =>
      { session with delegations := session.delegations.retain fun _ entry => entry.2 > now }
  else pure ()

/-- The current zone and the reply are for the log. -/
def cacheDelegation (zone : DnsName) (servers : List SocketAddr) (current : DnsName)
    (reply : Message) : Walk Unit := do
  if servers.isEmpty || zone.isRoot then pure ()
  else
    pruneDelegations world
    let now ← readClock world
    modify fun session =>
      { session with
        delegations := session.delegations.insert zone (servers, now + delegationTtl)
        log := .write zone servers current reply :: session.log }

/-! ## Replies -/

def suffix (name : DnsName) (keep : Nat) : DnsName :=
  if keep ≥ name.labelCount then name
  else
    match DnsName.fromLabels (name.labels.drop (name.labelCount - keep)) with
    | .ok short => short
    | .error _ => name

def finalize (resp : Message) (qname : DnsName) (qtype : UInt16) : Message :=
  { resp with
    questions := [⟨qname, qtype, classIn⟩]
    flags := { resp.flags with aa := false, ra := true } }

def nsOwner (resp : Message) : Option DnsName :=
  (resp.authorities.find? fun record => record.rtype = typeNs).map fun record => record.name

def nsNames (resp : Message) : List DnsName :=
  (resp.authorities.filter fun record => record.rtype = typeNs).filterMap fun record =>
    match record.rdata with
    | .ns target => some target
    | _ => none

def hasAnswer (resp : Message) (qname : DnsName) (qtype : UInt16) : Bool :=
  resp.answers.any fun record =>
    record.name = qname ∧ (record.rtype = qtype ∨ record.rtype = typeCname)

/-- The target of a CNAME that the reply does not follow to the type itself. -/
def unresolvedTarget (resp : Message) (qname : DnsName) (qtype : UInt16) : Option DnsName :=
  if qtype = typeCname then none
  else
    match resp.answers.find? fun record => record.name = qname ∧ record.rtype = typeCname with
    | none => none
    | some record =>
      match record.rdata with
      | .cname target =>
        if resp.answers.any fun record => record.rtype = qtype then none else some target
      | _ => none

/-- Addresses of the name servers that the reply itself gives, for names inside the zone
that was asked. -/
def glue (resp : Message) (names : List DnsName) (zone : DnsName) : List SocketAddr :=
  (resp.additionals.filter fun record =>
    names.contains record.name && record.name.endsWith zone).filterMap fun record =>
    match record.rdata with
    | .a ip => some ⟨.v4 ip, dnsPort⟩
    | .aaaa ip => some ⟨.v6 ip, dnsPort⟩
    | _ => none

def addressesOf (msg : Message) : List SocketAddr :=
  msg.answers.filterMap fun record =>
    match record.rdata with
    | .a ip => some ⟨.v4 ip, dnsPort⟩
    | _ => none

/-! ## The walk -/

def queryServers (servers : List SocketAddr) (qname : DnsName) (qtype : UInt16) :
    Walk (Option Message) :=
  ask (servers.take 4)
where
  ask : List SocketAddr → Walk (Option Message)
    | [] => pure none
    | server :: rest => do
      match ← queryOne world server qname qtype with
      | .ok msg => pure (some msg)
      | .error _ => ask rest

section Nested

-- The resolution one level deeper, and whether there is one: at the last level a name
-- server without glue is not looked up.
variable (nested : DnsName → UInt16 → Walk (Except ForwardError Message)) (deeper : Bool)

def lookUpServers : List DnsName → Walk (List SocketAddr)
  | [] => pure []
  | name :: rest => do
    match ← nested name typeA with
    | .error _ => lookUpServers rest
    | .ok msg =>
      note (.resolved name msg)
      if (addressesOf msg).isEmpty then lookUpServers rest else pure (addressesOf msg)

def referralAddrs (resp : Message) (names : List DnsName) (zone : DnsName) :
    Walk (Option (List SocketAddr)) := do
  if !(glue resp names zone).isEmpty then pure (some (glue resp names zone))
  else if !deeper then pure none
  else
    let next ← lookUpServers nested names
    pure (if next.isEmpty then none else some next)

variable (qname : DnsName) (qtype : UInt16)

/-- Servers, the zone they are for, the labels revealed, and whether to minimise. -/
structure Position where
  servers : List SocketAddr
  currentZone : DnsName
  zoneDepth : Nat
  minimize : Bool

inductive Next
  | stop (result : Except ForwardError Message)
  | go (position : Position)

def answerFrom (resp : Message) : Walk (Except ForwardError Message) := do
  match unresolvedTarget resp qname qtype with
  | none => pure (.ok (finalize resp qname qtype))
  | some target =>
    match ← nested target qtype with
    | .error error => pure (.error error)
    | .ok chased =>
      pure (.ok { chased with
        answers := resp.answers ++ chased.answers
        questions := [⟨qname, qtype, classIn⟩] })

/-- A referral: it has to lead down from the zone that was asked. -/
def descend (position : Position) (isFull : Bool) (minName : DnsName) (resp : Message) :
    Walk Next := do
  let newZone := (nsOwner resp).getD minName
  -- a DS record is the parent's, so its reply is the answer
  if qtype = typeDs ∧ newZone = qname then pure (.stop (.ok (finalize resp qname qtype)))
  else if !newZone.endsWith position.currentZone ||
      newZone.labelCount ≤ position.currentZone.labelCount then
    if position.minimize && !isFull then pure (.go { position with minimize := false })
    else pure (.stop (.ok (finalize resp qname qtype)))
  else
    match ← referralAddrs nested deeper resp (nsNames resp) position.currentZone with
    | none => pure (.stop (.error .timeout))
    | some servers =>
      cacheDelegation world newZone servers position.currentZone resp
      pure (.go { position with
        servers, currentZone := newZone
        zoneDepth := max newZone.labelCount (position.zoneDepth + 1) })

/-- Neither answer nor referral to a minimised query: the full name after NXDOMAIN, else
one label more. -/
def reveal (position : Position) (resp : Message) : Next :=
  if resp.flags.rcode = rcodeNxdomain then .go { position with minimize := false }
  else
    let zoneDepth := position.zoneDepth + 1
    .go { position with
      zoneDepth
      minimize := if zoneDepth ≥ qname.labelCount then false else position.minimize }

def consider (position : Position) (isFull : Bool) (minName : DnsName) (resp : Message) :
    Walk Next := do
  if isFull && hasAnswer resp qname qtype then
    return .stop (← answerFrom nested qname qtype resp)
  else if isFull && (nsNames resp).isEmpty then pure (.stop (.ok (finalize resp qname qtype)))
  else if !(nsNames resp).isEmpty then
    descend world nested deeper qname qtype position isFull minName resp
  else pure (reveal qname position resp)

def round (position : Position) : Walk Next := do
  let fullLabels := qname.labelCount
  let keep := if position.minimize then min (position.zoneDepth + 1) fullLabels else fullLabels
  let isFull := keep = fullLabels
  let minName := suffix qname keep
  let stepType := if isFull then qtype else typeNs
  match ← queryServers world position.servers minName stepType with
  | none => pure (.stop (.error .timeout))
  | some resp =>
    note (.reply position.currentZone resp)
    consider world nested deeper qname qtype position isFull minName resp

def rounds : Nat → Position → Walk (Except ForwardError Message)
  | 0, _ => pure (.error .timeout)
  | left + 1, position => do
    match ← round world nested deeper qname qtype position with
    | .stop result => pure result
    | .go position => rounds left position

end Nested

/-- A DS query starts above its own name: the child does not hold it. -/
def start (qname : DnsName) (qtype : UInt16) : Walk Position := do
  match ← cachedStart world qname (if qtype = typeDs then 1 else 0) with
  | some (zone, servers) => pure ⟨servers, zone, zone.labelCount, true⟩
  | none => pure ⟨roots, .root, 0, true⟩

/-- `resolve_depth`, by the levels that are left: none beyond the nesting bound. -/
def resolveDepth : Nat → DnsName → UInt16 → Walk (Except ForwardError Message)
  | 0, _, _ => pure (.error .timeout)
  | left + 1, qname, qtype => do
    let position ← start world qname qtype
    rounds world (resolveDepth left) (left ≠ 0) qname qtype maxReferrals position

def answerTtl (msg : Message) : UInt32 :=
  min (max ((msg.answers.map fun record => record.ttl).min?.getD 300) 5) 3600

def pruneAnswers : Walk Unit := do
  if (← get).answers.len > mapLimit then
    let now ← readClock world
    modify fun session =>
      { session with answers := session.answers.retain fun _ entry => entry.2 > now }
  else pure ()

def resolveFresh (qname : DnsName) (qtype : UInt16) : Walk (Except ForwardError Message) := do
  match ← resolveDepth world (maxNesting + 1) qname qtype with
  | .error error => pure (.error error)
  | .ok msg =>
    pruneAnswers world
    let now ← readClock world
    modify fun session =>
      { session with
        answers := session.answers.insert (qname, qtype)
          (msg, now + fromSecs (answerTtl msg).toNat) }
    pure (.ok msg)

def resolve (qname : DnsName) (qtype : UInt16) : Walk (Except ForwardError Message) := do
  match (← get).answers.get? (qname, qtype) with
  | none => resolveFresh world qname qtype
  | some (msg, expires) =>
    if expires > (← readClock world) then pure (.ok msg) else resolveFresh world qname qtype

/-! ## Where delegations come from -/

def StrictlyBelow (name zone : DnsName) : Prop :=
  name.endsWith zone = true ∧ zone.labelCount < name.labelCount

def AddressIn (record : Record) (address : SocketAddr) : Prop :=
  (∃ ip, record.rdata = .a ip ∧ address = ⟨.v4 ip, dnsPort⟩) ∨
    ∃ ip, record.rdata = .aaaa ip ∧ address = ⟨.v6 ip, dnsPort⟩

def Written (log : List Event) (zone : DnsName) : Prop :=
  ∃ servers current reply, .write zone servers current reply ∈ log

def Anchored (log : List Event) (zone : DnsName) : Prop := zone = .root ∨ Written log zone

/-- The address is glue of the reply from inside the zone, or a nested resolution of one
of its name servers brought it. -/
def Sourced (reply : Message) (current : DnsName) (between : List Event)
    (address : SocketAddr) : Prop :=
  (∃ record ∈ reply.additionals, record.name ∈ nsNames reply ∧
    record.name.endsWith current = true ∧ AddressIn record address) ∨
  ∃ name ∈ nsNames reply, ∃ msg, .resolved name msg ∈ between ∧ address ∈ addressesOf msg

structure Permitted (older : List Event) (zone : DnsName) (servers : List SocketAddr)
    (current : DnsName) (reply : Message) : Prop where
  below : StrictlyBelow zone current
  notRoot : zone.isRoot = false
  anchored : Anchored older current
  sourced : ∃ between before, older = between ++ .reply current reply :: before ∧
    ∀ address ∈ servers, Sourced reply current between address

def Lawful : List Event → Prop
  | [] => True
  | .write zone servers current reply :: older =>
    Permitted older zone servers current reply ∧ Lawful older
  | .reply _ _ :: older => Lawful older
  | .resolved _ _ :: older => Lawful older

def Closed (events : List Event) : Prop :=
  ∀ zone servers current reply, .write zone servers current reply ∈ events →
    .reply current reply ∈ events

structure Sound (session : Session) : Prop where
  lawful : Lawful session.log
  known : ∀ zone entry, session.delegations.get? zone = some entry →
    ∃ current reply, .write zone entry.1 current reply ∈ session.log

def Event.isWrite : Event → Bool
  | .write _ _ _ _ => true
  | _ => false

def Leads (session session' : Session) : Prop :=
  Sound session → Sound session' ∧ ∃ since, session'.log = since ++ session.log ∧ Closed since

theorem Closed.nil : Closed [] := fun _ _ _ _ member => absurd member List.not_mem_nil

theorem Closed.append {newer older : List Event} (first : Closed newer) (second : Closed older) :
    Closed (newer ++ older) := by
  intro zone servers current reply member
  rcases List.mem_append.mp member with inNewer | inOlder
  · exact List.mem_append_left _ (first zone servers current reply inNewer)
  · exact List.mem_append_right _ (second zone servers current reply inOlder)

theorem Written.mono {log since : List Event} {zone : DnsName} (written : Written log zone) :
    Written (since ++ log) zone := by
  obtain ⟨servers, current, reply, member⟩ := written
  exact ⟨servers, current, reply, List.mem_append_right _ member⟩

theorem Anchored.mono {log since : List Event} {zone : DnsName} (anchored : Anchored log zone) :
    Anchored (since ++ log) zone :=
  anchored.imp_right Written.mono

instance : IsPreorder Session Leads where
  refl session sound := ⟨sound, [], rfl, Closed.nil⟩
  trans first second third head tail sound := by
    obtain ⟨sound', since, log, closed⟩ := head sound
    obtain ⟨sound'', since', log', closed'⟩ := tail sound'
    exact ⟨sound'', since' ++ since, by rw [log', log, List.append_assoc], closed'.append closed⟩

theorem leads_of_fewer {session session' : Session} (log : session'.log = session.log)
    (fewer : ∀ zone entry, session'.delegations.get? zone = some entry →
      session.delegations.get? zone = some entry) : Leads session session' := by
  intro sound
  refine ⟨⟨log ▸ sound.lawful, fun zone entry found => ?_⟩, [], log, Closed.nil⟩
  rw [log]
  exact sound.known zone entry (fewer zone entry found)

theorem readClock_keeps : Keeps Leads (readClock world) :=
  fun _ => leads_of_fewer rfl fun _ _ found => found

theorem queryOne_keeps (server : SocketAddr) (qname : DnsName) (qtype : UInt16) :
    Keeps Leads (queryOne world server qname qtype) :=
  fun _ => leads_of_fewer rfl fun _ _ found => found

theorem queryServers_keeps (servers : List SocketAddr) (qname : DnsName) (qtype : UInt16) :
    Keeps Leads (queryServers world servers qname qtype) := by
  unfold queryServers
  induction servers.take 4 with
  | nil => exact Keeps.pure none
  | cons server rest ih =>
    refine (queryOne_keeps world server qname qtype).bind fun answer => ?_
    cases answer with
    | ok msg => exact Keeps.pure (some msg)
    | error error => exact ih

theorem pruneDelegations_fewer :
    Meets (pruneDelegations world) fun session _ session' => session'.log = session.log ∧
      ∀ zone entry, session'.delegations.get? zone = some entry →
        session.delegations.get? zone = some entry := by
  have got : Meets (get : Walk Session) fun session value session' =>
      value = session ∧ session' = session := fun _ => ⟨rfl, rfl⟩
  refine got.bind fun session value => ?_
  split
  · rintro middle ⟨_, rfl⟩
    refine ⟨rfl, fun zone entry found => ?_⟩
    have kept : (middle.delegations.retain fun _ entry =>
        entry.2 > world.now middle.reads).get? zone = some entry := found
    rw [HashMap.get?_retain] at kept
    exact (Option.filter_eq_some_iff.mp kept).1
  · rintro middle ⟨_, rfl⟩
    exact ⟨rfl, fun _ _ found => found⟩

theorem cachedStart_written (qname : DnsName) (minSkip : Nat) :
    Meets (cachedStart world qname minSkip) fun session found session' =>
      Leads session session' ∧ (Sound session → ∀ zone servers, found = some (zone, servers) →
        Written session'.log zone) := by
  intro session
  refine ⟨leads_of_fewer rfl fun _ _ found => found, fun sound zone servers found => ?_⟩
  obtain ⟨skip, _, here⟩ := List.exists_of_findSome?_eq_some found
  split at here
  · cases here
  split at here
  · cases here
  rename_i stored
  split at here
  · cases here
    obtain ⟨current, reply, member⟩ := sound.known zone _ stored
    exact ⟨_, current, reply, member⟩
  · cases here

/-- A walk starts at the root or at an entry that was written. -/
theorem start_anchored (qname : DnsName) (qtype : UInt16) :
    Meets (start world qname qtype) fun session position session' =>
      Leads session session' ∧ (Sound session → Anchored session'.log position.currentZone) := by
  refine (cachedStart_written world qname _).bind fun session found => ?_
  cases found with
  | none => exact fun _ cached => ⟨cached.1, fun _ => .inl rfl⟩
  | some entry => exact fun _ cached => ⟨cached.1, fun sound => .inr (cached.2 sound _ _ rfl)⟩

theorem note_log (event : Event) :
    Meets (note event) fun session _ session' =>
      session' = { session with log := event :: session.log } :=
  fun _ => rfl

theorem Closed.cons {event : Event} {events : List Event} (plain : event.isWrite = false)
    (closed : Closed events) : Closed (event :: events) := by
  intro zone servers current reply member
  rcases List.mem_cons.mp member with same | later
  · rw [← same] at plain
    cases plain
  · exact List.mem_cons_of_mem _ (closed zone servers current reply later)

theorem sound_note {event : Event} (plain : event.isWrite = false) {session : Session}
    (sound : Sound session) : Sound { session with log := event :: session.log } := by
  refine ⟨?_, fun zone entry found => ?_⟩
  · cases event with
    | write => cases plain
    | reply => exact sound.lawful
    | resolved => exact sound.lawful
  · obtain ⟨current, reply, member⟩ := sound.known zone entry found
    exact ⟨current, reply, List.mem_cons_of_mem _ member⟩

theorem cacheDelegation_writes {zone current : DnsName} {servers : List SocketAddr}
    {reply : Message} :
    Meets (cacheDelegation world zone servers current reply) fun session _ session' =>
      servers ≠ [] → Sound session → Permitted session.log zone servers current reply →
        Sound session' ∧ session'.log = .write zone servers current reply :: session.log := by
  intro session filled sound permitted
  have wanted : ¬ (servers.isEmpty || zone.isRoot) = true := by
    rw [permitted.notRoot, Bool.or_false]
    simpa using filled
  obtain ⟨log, fewer⟩ := pruneDelegations_fewer world session
  generalize middleEq : (pruneDelegations world session).2 = middle at log fewer
  have pruned := (leads_of_fewer log fewer sound).1
  have written : (cacheDelegation world zone servers current reply session).2 =
      { middle with
        delegations := middle.delegations.insert zone
          (servers, world.now middle.reads + delegationTtl)
        reads := middle.reads + 1
        log := .write zone servers current reply :: middle.log } := by
    unfold cacheDelegation
    rw [if_neg wanted, ← middleEq]
    rfl
  rw [written]
  refine ⟨⟨⟨log ▸ permitted, pruned.lawful⟩, fun other entry found => ?_⟩, by rw [log]⟩
  dsimp only at found
  rw [HashMap.get?_insert] at found
  split at found
  · rename_i same
    cases found
    rw [same]
    exact ⟨current, reply, List.mem_cons_self⟩
  · obtain ⟨current', reply', member⟩ := pruned.known other entry found
    exact ⟨current', reply', List.mem_cons_of_mem _ member⟩

section Nested

variable {nested : DnsName → UInt16 → Walk (Except ForwardError Message)}
  (leads : ∀ name qtype, Keeps Leads (nested name qtype))

include leads

theorem lookUpServers_sourced (names : List DnsName) :
    Meets (lookUpServers nested names) fun session servers session' => Sound session →
      Sound session' ∧ ∃ since, session'.log = since ++ session.log ∧ Closed since ∧
        ∀ address ∈ servers, ∃ name ∈ names, ∃ msg, .resolved name msg ∈ since ∧
          address ∈ addressesOf msg := by
  induction names with
  | nil =>
    intro session sound
    exact ⟨sound, [], rfl, Closed.nil, fun _ member => absurd member List.not_mem_nil⟩
  | cons name rest ih =>
    -- the names after this one, from a state the session leads to
    have later : ∀ {session middle : Session}, Leads session middle → Sound session →
        Sound (lookUpServers nested rest middle).2 ∧ ∃ since,
          (lookUpServers nested rest middle).2.log = since ++ session.log ∧ Closed since ∧
          ∀ address ∈ (lookUpServers nested rest middle).1, ∃ name' ∈ name :: rest, ∃ msg,
            .resolved name' msg ∈ since ∧ address ∈ addressesOf msg := by
      intro session middle led sound
      obtain ⟨sound', since, log, closed⟩ := led sound
      obtain ⟨sound'', since', log', closed', sourced⟩ := ih middle sound'
      refine ⟨sound'', since' ++ since, by rw [log', log, List.append_assoc],
        closed'.append closed, fun address member => ?_⟩
      obtain ⟨name', inRest, msg, noted, held⟩ := sourced address member
      exact ⟨name', List.mem_cons_of_mem _ inRest, msg, List.mem_append_left _ noted, held⟩
    refine Meets.bind (leads name typeA) fun session answer => ?_
    cases answer with
    | error error => exact fun middle led => later led
    | ok msg =>
      refine (note_log (.resolved name msg)).bind fun middle _ => ?_
      split
      · rintro last rfl led
        refine later fun sound => ?_
        obtain ⟨sound', since, log, closed⟩ := led sound
        exact ⟨sound_note rfl sound', .resolved name msg :: since, congrArg _ log,
          closed.cons rfl⟩
      · rintro last rfl led sound
        obtain ⟨sound', since, log, closed⟩ := led sound
        refine ⟨sound_note rfl sound', .resolved name msg :: since, congrArg _ log,
          closed.cons rfl, fun address held => ?_⟩
        exact ⟨name, List.mem_cons_self, msg, List.mem_cons_self, held⟩

omit leads in
theorem mem_glue {resp : Message} {names : List DnsName} {zone : DnsName} {address : SocketAddr}
    (member : address ∈ glue resp names zone) :
    ∃ record ∈ resp.additionals, record.name ∈ names ∧ record.name.endsWith zone = true ∧
      AddressIn record address := by
  obtain ⟨record, kept, given⟩ := List.mem_filterMap.mp member
  obtain ⟨held, inside⟩ := List.mem_filter.mp kept
  obtain ⟨named, below⟩ := Bool.and_eq_true_iff.mp inside
  refine ⟨record, held, List.contains_iff_mem.mp named, below, ?_⟩
  split at given
  · rename_i ip data
    cases given
    exact .inl ⟨ip, data, rfl⟩
  · rename_i ip data
    cases given
    exact .inr ⟨ip, data, rfl⟩
  · cases given

theorem referralAddrs_sourced (deeper : Bool) (resp : Message) (current : DnsName) :
    Meets (referralAddrs nested deeper resp (nsNames resp) current) fun session found session' =>
      Sound session → Sound session' ∧ ∃ since, session'.log = since ++ session.log ∧
        Closed since ∧ ∀ servers, found = some servers →
          servers ≠ [] ∧ ∀ address ∈ servers, Sourced resp current since address := by
  unfold referralAddrs
  split
  · rename_i given
    intro session sound
    refine ⟨sound, [], rfl, Closed.nil, fun servers found => ?_⟩
    cases found
    exact ⟨by simpa using given, fun address member => .inl (mem_glue member)⟩
  · split
    · intro session sound
      refine ⟨sound, [], rfl, Closed.nil, fun servers found => ?_⟩
      cases found
    · refine (lookUpServers_sourced leads (nsNames resp)).bind
        fun session next middle sourced sound => ?_
      obtain ⟨sound', since, log, closed, held⟩ := sourced sound
      refine ⟨sound', since, log, closed, fun servers found => ?_⟩
      have filled : next ≠ [] ∧ next = servers := by
        change (if next.isEmpty then none else some next) = some servers at found
        split at found
        · cases found
        · rename_i some
          cases found
          exact ⟨by simpa using some, rfl⟩
      obtain ⟨some, rfl⟩ := filled
      exact ⟨some, fun address member => .inr (held address member)⟩

omit leads in
def Next.Anchors (log : List Event) : Next → Prop
  | .stop _ => True
  | .go position => Anchored log position.currentZone

def Handles (zone : DnsName) (resp : Message) (session : Session) (next : Next)
    (session' : Session) : Prop :=
  Sound session → Anchored session.log zone → ∀ before, session.log = .reply zone resp :: before →
    Sound session' ∧ next.Anchors session'.log ∧ ∃ since,
      session'.log = since ++ before ∧ Closed since

omit leads in
theorem closed_reply (zone : DnsName) (resp : Message) : Closed [.reply zone resp] :=
  Closed.nil.cons rfl

omit leads in
theorem handles_same {zone : DnsName} {resp : Message} {session : Session} {next : Next}
    (anchors : Anchored session.log zone → next.Anchors session.log) :
    Handles zone resp session next session :=
  fun sound anchored _ log =>
    ⟨sound, anchors anchored, [.reply zone resp], log, closed_reply zone resp⟩

theorem descend_anchors (deeper : Bool) (qname : DnsName) (qtype : UInt16) (position : Position)
    (isFull : Bool) (minName : DnsName) (resp : Message) :
    Meets (descend world nested deeper qname qtype position isFull minName resp)
      (Handles position.currentZone resp) := by
  have alone := closed_reply position.currentZone resp
  unfold descend
  dsimp only
  split
  · exact fun session => handles_same fun _ => trivial
  split
  · split
    · exact fun session => handles_same id
    · exact fun session => handles_same fun _ => trivial
  rename_i down
  have newZone : StrictlyBelow ((nsOwner resp).getD minName) position.currentZone := by
    simpa [StrictlyBelow] using down
  have notRoot : ((nsOwner resp).getD minName).isRoot = false := by
    have labels : ((nsOwner resp).getD minName).labels ≠ [] :=
      List.ne_nil_of_length_pos (Nat.zero_lt_of_lt newZone.2)
    simpa [DnsName.isRoot] using labels
  refine (referralAddrs_sourced leads deeper resp position.currentZone).bind
    fun session found => ?_
  have referred : ∀ {middle : Session} {since before : List Event},
      middle.log = since ++ session.log →
      session.log = .reply position.currentZone resp :: before →
      middle.log = since ++ [.reply position.currentZone resp] ++ before := by
    intro middle since before log' log
    rw [log', log, List.append_assoc]
    rfl
  cases found with
  | none =>
    intro middle sourced sound _ before log
    obtain ⟨sound', since, log', closed, _⟩ := sourced sound
    exact ⟨sound', trivial, _, referred log' log, closed.append alone⟩
  | some servers =>
    refine (cacheDelegation_writes world).bind fun middle _ => ?_
    intro last writes sourced sound anchored before log
    obtain ⟨sound', since, log', closed, found⟩ := sourced sound
    obtain ⟨filled, addresses⟩ := found servers rfl
    have permitted : Permitted middle.log ((nsOwner resp).getD minName) servers
        position.currentZone resp :=
      { below := newZone
        notRoot := notRoot
        anchored := log' ▸ anchored.mono
        sourced := ⟨since, before, by rw [log', log], addresses⟩ }
    obtain ⟨sound'', written⟩ := writes filled sound' permitted
    refine ⟨sound'', .inr ⟨servers, position.currentZone, resp, ?_⟩,
      .write ((nsOwner resp).getD minName) servers position.currentZone resp ::
        (since ++ [.reply position.currentZone resp]), ?_, ?_⟩
    · change _ ∈ last.log
      rw [written]
      exact List.mem_cons_self
    · change last.log = _
      rw [written, referred log' log]
      rfl
    · intro zone servers' current reply member
      rcases List.mem_cons.mp member with same | later
      · cases same
        exact List.mem_cons_of_mem _ (List.mem_append_right _ List.mem_cons_self)
      · exact List.mem_cons_of_mem _ (closed.append alone zone servers' current reply later)

theorem answerFrom_keeps (qname : DnsName) (qtype : UInt16) (resp : Message) :
    Keeps Leads (answerFrom nested qname qtype resp) := by
  unfold answerFrom
  split
  · exact Keeps.pure _
  rename_i target _
  refine (leads target qtype).bind fun answer => ?_
  cases answer with
  | error error => exact Keeps.pure _
  | ok chased => exact Keeps.pure _

omit leads in
theorem reveal_anchors {log : List Event} (qname : DnsName) {position : Position}
    (anchored : Anchored log position.currentZone) (resp : Message) :
    (reveal qname position resp).Anchors log := by
  unfold reveal
  split <;> exact anchored

theorem consider_anchors (deeper : Bool) (qname : DnsName) (qtype : UInt16) (position : Position)
    (isFull : Bool) (minName : DnsName) (resp : Message) :
    Meets (consider world nested deeper qname qtype position isFull minName resp)
      (Handles position.currentZone resp) := by
  unfold consider
  split
  · intro session sound _ before log
    obtain ⟨sound', since, log', closed⟩ := answerFrom_keeps leads qname qtype resp session sound
    refine ⟨sound', trivial, since ++ [.reply position.currentZone resp], ?_,
      closed.append (closed_reply _ _)⟩
    rw [List.append_assoc, List.singleton_append, ← log]
    exact log'
  split
  · exact fun session => handles_same fun _ => trivial
  split
  · exact descend_anchors world leads deeper qname qtype position isFull minName resp
  · exact fun session => handles_same fun anchored => reveal_anchors qname anchored resp

theorem round_anchors (deeper : Bool) (qname : DnsName) (qtype : UInt16) (position : Position) :
    Meets (round world nested deeper qname qtype position) fun session next session' =>
      Sound session → Anchored session.log position.currentZone →
        Sound session' ∧ next.Anchors session'.log ∧ ∃ since,
          session'.log = since ++ session.log ∧ Closed since := by
  unfold round
  refine Meets.bind (queryServers_keeps world _ _ _) fun session answer => ?_
  cases answer with
  | none =>
    intro asked led sound _
    obtain ⟨sound', since, log, closed⟩ := led sound
    exact ⟨sound', trivial, since, log, closed⟩
  | some resp =>
    refine (note_log _).bind fun asked _ => ?_
    rintro noted rfl led sound anchored
    obtain ⟨sound', since, log, closed⟩ := led sound
    have anchored' : Anchored (([.reply position.currentZone resp] ++ since) ++ session.log)
        position.currentZone := anchored.mono
    rw [List.append_assoc, ← log] at anchored'
    obtain ⟨sound'', anchors, since', log', closed'⟩ := consider_anchors world leads deeper qname
      qtype position _ _ resp _ (sound_note rfl sound') anchored' asked.log rfl
    exact ⟨sound'', anchors, since' ++ since, by rw [log', log, List.append_assoc],
      closed'.append closed⟩

theorem rounds_lead (deeper : Bool) (qname : DnsName) (qtype : UInt16) (left : Nat) :
    ∀ position, Meets (rounds world nested deeper qname qtype left position)
      fun session _ session' => Anchored session.log position.currentZone →
        Leads session session' := by
  induction left with
  | zero => exact fun position session _ => refl_of Leads session
  | succ left ih =>
    intro position
    refine (round_anchors world leads deeper qname qtype position).bind fun session next => ?_
    cases next with
    | stop result =>
      intro middle moved anchored sound
      obtain ⟨sound', _, since, log, closed⟩ := moved sound anchored
      exact ⟨sound', since, log, closed⟩
    | go position' =>
      intro middle moved anchored sound
      obtain ⟨sound', anchored', since, log, closed⟩ := moved sound anchored
      obtain ⟨sound'', since', log', closed'⟩ := ih position' middle anchored' sound'
      exact ⟨sound'', since' ++ since, by rw [log', log, List.append_assoc],
        closed'.append closed⟩

end Nested

/-- A resolution at any depth adds permitted entries only: the levels below keep that,
and the walk above them keeps it in every round. -/
theorem resolveDepth_keeps (left : Nat) :
    ∀ qname qtype, Keeps Leads (resolveDepth world left qname qtype) := by
  induction left with
  | zero => exact fun qname qtype => Keeps.pure _
  | succ left ih =>
    intro qname qtype
    refine Meets.bind (start_anchored world qname qtype) fun session position => ?_
    intro middle started sound
    obtain ⟨sound', since, log, closed⟩ := started.1 sound
    obtain ⟨sound'', since', log', closed'⟩ := rounds_lead world ih _ qname qtype maxReferrals
      position middle (started.2 sound) sound'
    exact ⟨sound'', since' ++ since, by rw [log', log, List.append_assoc],
      closed'.append closed⟩

theorem pruneAnswers_keeps : Keeps Leads (pruneAnswers world) := by
  refine Keeps.bind (fun session => refl_of Leads session) fun session => ?_
  split
  · refine (readClock_keeps world).bind fun now before => ?_
    exact leads_of_fewer rfl fun _ _ found => found
  · exact Keeps.pure ()

theorem resolveFresh_keeps (qname : DnsName) (qtype : UInt16) :
    Keeps Leads (resolveFresh world qname qtype) := by
  refine (resolveDepth_keeps world _ qname qtype).bind fun answer => ?_
  cases answer with
  | error error => exact Keeps.pure _
  | ok msg =>
    refine (pruneAnswers_keeps world).bind fun _ => (readClock_keeps world).bind fun now => ?_
    refine Keeps.bind (fun session => ?_) fun _ => Keeps.pure _
    exact leads_of_fewer rfl fun _ _ found => found

theorem resolve_keeps (qname : DnsName) (qtype : UInt16) :
    Keeps Leads (resolve world qname qtype) := by
  refine Keeps.bind (fun session => refl_of Leads session) fun session => ?_
  split
  · exact resolveFresh_keeps world qname qtype
  · refine (readClock_keeps world).bind fun now => ?_
    split
    · exact Keeps.pure _
    · exact resolveFresh_keeps world qname qtype

/-! ## Runs -/

def call (session : Session) (question : DnsName × UInt16) : Option Session :=
  some (resolve world question.1 question.2 session).2

theorem run_leads {first last : Session} {questions : List (DnsName × UInt16)}
    (run : Run (Steps (call world)) first questions last) : Leads first last := by
  refine run.invariant (fun session question session' led stepped => ?_) (refl_of Leads first)
  cases stepped
  exact trans_of Leads led (resolve_keeps world question.1 question.2 session)

theorem Lawful.permitted {newer older : List Event} {zone current : DnsName}
    {servers : List SocketAddr} {reply : Message}
    (lawful : Lawful (newer ++ .write zone servers current reply :: older)) :
    Permitted older zone servers current reply := by
  induction newer with
  | nil => exact lawful.1
  | cons event newer ih =>
    cases event with
    | write => exact ih lawful.2
    | reply => exact ih lawful
    | resolved => exact ih lawful

theorem StrictlyBelow.of_endsWith {name zone enclosing : DnsName} (below : StrictlyBelow name zone)
    (inside : zone.endsWith enclosing = true) : StrictlyBelow name enclosing := by
  have shorter := ((DnsName.endsWith_iff _ _).mp inside).length_le
  exact ⟨DnsName.endsWith_trans below.1 inside, Nat.lt_of_le_of_lt shorter below.2⟩

/-- Whatever the servers reply, every delegation in the cache was written, and every one
written is permitted: for a name strictly below the zone whose servers sent the referral,
with addresses from glue inside that zone or from looking its name servers up, and in a
walk that came to that zone from the root or by such an entry.  So calls in which all
replies come while the walk is at or below some name write nothing but what is strictly
below it. -/
theorem delegations_safe {earlier later : List (DnsName × UInt16)} {middle last : Session}
    (run : Run (Steps (call world)) Session.new earlier middle)
    (run' : Run (Steps (call world)) middle later last) :
    (∀ zone entry, last.delegations.get? zone = some entry →
      ∃ current reply, .write zone entry.1 current reply ∈ last.log) ∧
    (∀ newer older zone servers current reply,
      last.log = newer ++ .write zone servers current reply :: older →
        Permitted older zone servers current reply) ∧
    ∃ since, last.log = since ++ middle.log ∧
      ∀ enclosing : DnsName,
        (∀ current msg, .reply current msg ∈ since → current.endsWith enclosing = true) →
        ∀ zone servers current reply, .write zone servers current reply ∈ since →
          StrictlyBelow zone enclosing := by
  have new : Sound Session.new := ⟨trivial, nofun⟩
  obtain ⟨sound, _⟩ := run_leads world run new
  obtain ⟨sound', since, log, closed⟩ := run_leads world run' sound
  refine ⟨sound'.known, fun newer older zone servers current reply split => ?_, since, log, ?_⟩
  · have lawful := sound'.lawful
    rw [split] at lawful
    exact lawful.permitted
  · intro enclosing replies zone servers current reply member
    obtain ⟨newer, older, split⟩ := List.append_of_mem member
    have lawful := sound'.lawful
    rw [log, split, List.append_assoc, List.cons_append] at lawful
    have inside := replies current reply (closed zone servers current reply member)
    exact lawful.permitted.below.of_endsWith inside

def testName : DnsName := ⟨[[116, 101, 115, 116]], by decide⟩

def serverName : DnsName := ⟨[[110, 115], [116, 101, 115, 116]], by decide⟩

theorem askedName_valid : ValidLabels [[101, 120], [116, 101, 115, 116]] := by decide

def askedName : DnsName := ⟨[[101, 120], [116, 101, 115, 116]], askedName_valid⟩

def delegatingWorld : World where
  now := fun reads => reads
  reply := fun asked _ _ _ =>
    let base := Message.new 7 Flags.default
    if asked = 0 then
      .ok { base with
        authorities := [{ name := testName, class_ := classIn, ttl := 60, rdata := .ns serverName }]
        additionals := [{ name := serverName, class_ := classIn, ttl := 60
                          rdata := .a (.new 10 0 0 53) }] }
    else
      .ok { base with
        answers := [{ name := askedName, class_ := classIn, ttl := 60
                      rdata := .a (.new 10 0 0 1) }] }

theorem delegations_safe_delegating :
    ∃ last, Run (Steps (call delegatingWorld)) Session.new [(askedName, typeA)] last ∧
      ∃ newer older servers current reply,
        last.log = newer ++ .write testName servers current reply :: older ∧
        Permitted older testName servers current reply := by
  have computed : (exec (call delegatingWorld) [(askedName, typeA)] Session.new).any
      (fun session => session.log.any fun event =>
        match event with
        | .write zone _ _ _ => decide (zone = testName)
        | _ => false) = true := by decide +kernel
  obtain ⟨last, reached, found⟩ := (Option.any_eq_true _ _).mp computed
  have run := run_of_exec reached
  obtain ⟨event, member, written⟩ := List.any_eq_true.mp found
  obtain ⟨newer, older, split⟩ := List.append_of_mem member
  refine ⟨last, run, newer, older, ?_⟩
  cases event with
  | reply => cases written
  | resolved => cases written
  | write zone servers current reply =>
    cases of_decide_eq_true written
    exact ⟨servers, current, reply, split,
      (delegations_safe delegatingWorld run (.done last)).2.1 newer older testName servers current
        reply split⟩

end Rdns.Resolver.Recursor
