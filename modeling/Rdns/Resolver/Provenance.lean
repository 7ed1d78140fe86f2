import Rdns.Resolver.External
import Rdns.Resolver.Serve

/-!
# Where the AD bit comes from

A resolver at work: queries come in at any time under any configuration and are
answered at once or wait for a call of `resolve_external`, whose steps go on between
them.  The bit travels with the records from the validator through the cache, fresh
or stale, and through followers into a response; no response of an own zone has it.
-/

set_option autoImplicit false

namespace Rdns.Resolver.Serve

open Rdns.Lib Rdns.Proto Rdns.Dnssec Rdns.Zones

variable {key : Key} {answers : List Record} {phase : Phase} {sys : System} {cache cache' : Cache}
  {now : Instant} {id : Nat} {resp : Message} {q : Question} {zone : Zone} {outcome : Outcome}

structure Request (crypto : Crypto) where
  config : Config crypto
  query : Message
  recursionAllowed : Bool
  client : IpAddr

/-- A resolver with its calls, and the queries that wait for one.  The logs are no part
of it: the messages fetched, each with the question it was fetched for, and the
responses given. -/
structure Server (crypto : Crypto) where
  sys : System
  waiting : Nat → Option (Request crypto × Pending)
  fetched : List (Key × Fetched)
  answered : List (Request crypto × Message)

inductive Move (crypto : Crypto)
  | tick (elapsed : Nat)
  | act (id : Nat) (event : Event)
  | query (id : Nat) (request : Request crypto)
  | finish (id : Nat)

def broughtBy : Event → Option Fetched
  | .fetch (.ok reply) | .goDirect (.ok reply) => some reply
  | _ => none

variable {crypto : Crypto} (validator : Option Validator) {request : Request crypto}

namespace Server

def initial (cacheSize : Nat) : Server crypto :=
  ⟨System.initial cacheSize, fun _ => none, [], []⟩

def answer (server : Server crypto) (request : Request crypto) (resp : Message) : Server crypto :=
  { server with answered := server.answered ++ [(request, resp)] }

def step (server : Server crypto) : Move crypto → Option (Server crypto)
  | .tick elapsed => do
    let sys ← Resolver.step crypto validator server.sys (.tick elapsed)
    pure { server with sys }
  | .act id event => do
    let call ← server.sys.calls id
    let sys ← Resolver.step crypto validator server.sys (.act id event)
    let brought := (broughtBy event).toList.map fun reply => (call.key, reply)
    pure { server with sys, fetched := server.fetched ++ brought }
  | .query id request =>
    match resolveLocal request.config server.sys.cache server.sys.now request.query
        request.recursionAllowed request.client with
    -- the task of the query stops with a panic, and nothing else does
    | none => some server
    | some (.done resp, cache) =>
      some ({ server with sys := { server.sys with cache } }.answer request resp)
    | some (.pending rest, cache) => do
      let sys ← Resolver.step crypto validator { server.sys with cache }
        (.start id ⟨rest.target, rest.qtype⟩)
      pure { server with sys, waiting := Function.update server.waiting id (request, rest) }
  | .finish id =>
    match server.waiting id, server.sys.calls id with
    | some (request, rest), some ⟨_, .done result⟩ =>
      let stale := server.sys.cache.getStale ⟨rest.target, rest.qtype⟩ server.sys.now
      let resp := resolvePending rest (result.map Returned.hit) stale
      some ({ server with waiting := Function.update server.waiting id none }.answer
        request resp)
    | _, _ => none

end Server

/-! ## Records the validator vouched for -/

variable (crypto) in
/-- TTLs aside, the answers are those of a message that was fetched for the question and
that the validator found secure. -/
def Vouched (fetched : List (Key × Fetched)) (key : Key) (answers : List Record) : Prop :=
  ∃ self reply, validator = some self ∧ (key, reply) ∈ fetched ∧
    self.validate crypto reply.chain reply.msg = .secure ∧
    answers.map timeless = reply.msg.answers.map timeless

variable (crypto) in
def ResultVouched (fetched : List (Key × Fetched)) (key : Key) :
    Except ForwardError Returned → Prop
  | .ok returned =>
    returned.hit.secure = true → Vouched crypto validator fetched key returned.hit.answers
  | .error _ => True

variable (crypto) in
def PhaseVouched (fetched : List (Key × Fetched)) (key : Key) : Phase → Prop
  | .judging reply => (key, reply) ∈ fetched
  | .storing reply secure => secure = true → Vouched crypto validator fetched key reply.msg.answers
  | .releasing result | .signalling result | .done result =>
    ResultVouched crypto validator fetched key result
  | _ => True

variable (crypto) in
/-- What is marked secure in the cache or on its way was vouched for. -/
structure Backed (fetched : List (Key × Fetched)) (sys : System) : Prop where
  cached : ∀ key entry, sys.cache.inner.get? key = some entry → entry.secure = true →
    Vouched crypto validator fetched key entry.answers
  calls : ∀ id call, sys.calls id = some call →
    PhaseVouched crypto validator fetched call.key call.phase

variable {validator} {fetched fetched' : List (Key × Fetched)}

theorem Vouched.mono (vouched : Vouched crypto validator fetched key answers)
    (more : fetched ⊆ fetched') : Vouched crypto validator fetched' key answers := by
  obtain ⟨self, reply, configured, member, secure, same⟩ := vouched
  exact ⟨self, reply, configured, more member, secure, same⟩

theorem Vouched.of_timeless {answers' : List Record}
    (vouched : Vouched crypto validator fetched key answers)
    (same : answers'.map timeless = answers.map timeless) :
    Vouched crypto validator fetched key answers' := by
  obtain ⟨self, reply, configured, member, secure, made⟩ := vouched
  exact ⟨self, reply, configured, member, secure, same.trans made⟩

theorem PhaseVouched.mono (vouched : PhaseVouched crypto validator fetched key phase)
    (more : fetched ⊆ fetched') : PhaseVouched crypto validator fetched' key phase := by
  have result : ∀ {result}, ResultVouched crypto validator fetched key result →
      ResultVouched crypto validator fetched' key result := by
    intro result before
    cases result with
    | error => exact trivial
    | ok returned => exact fun secure => (before secure).mono more
  cases phase with
  | judging reply => exact more vouched
  | storing reply marked => exact fun secure => (vouched secure).mono more
  | releasing => exact result vouched
  | signalling => exact result vouched
  | done => exact result vouched
  | _ => exact trivial

theorem Backed.mono (backed : Backed crypto validator fetched sys) (more : fetched ⊆ fetched') :
    Backed crypto validator fetched' sys :=
  ⟨fun key entry found secure => (backed.cached key entry found secure).mono more,
    fun id call found => (backed.calls id call found).mono more⟩

theorem Backed.of_cache (backed : Backed crypto validator fetched sys)
    (kept : ∀ key entry, cache.inner.get? key = some entry →
      sys.cache.inner.get? key = some entry) :
    Backed crypto validator fetched { sys with cache } :=
  ⟨fun key entry found => backed.cached key entry (kept key entry found), backed.calls⟩

theorem Backed.of_flight (backed : Backed crypto validator fetched sys) (inflight : HashMap Key Nat)
    (sent : List Nat) : Backed crypto validator fetched { sys with inflight, sent } :=
  ⟨backed.cached, backed.calls⟩

theorem Backed.put (backed : Backed crypto validator fetched sys) (id : Nat) (key : Key)
    (vouched : PhaseVouched crypto validator fetched key phase) :
    Backed crypto validator fetched (sys.put id key phase) := by
  refine ⟨backed.cached, fun other call found => ?_⟩
  by_cases same : other = id
  · subst same
    rw [System.calls_put_self] at found
    cases found
    exact vouched
  · exact backed.calls other call ((Function.update_of_ne same _ _).symm.trans found)

/-- Storing what was vouched for keeps the cache backed. -/
theorem Backed.store (backed : Backed crypto validator fetched sys) (key : Key) (rcode : UInt8)
    (authorities : List Record) {marked : Bool}
    (vouched : marked = true → Vouched crypto validator fetched key answers)
    (stored : Key → Option Fetched) :
    Backed crypto validator fetched { sys with
      cache := sys.cache.insert key rcode answers authorities marked sys.now, stored } := by
  refine ⟨fun other entry found secure => ?_, backed.calls⟩
  rcases Cache.get?_of_insert _ _ _ _ _ _ _ _ found with
    ⟨rfl, _, _, same, _, copied⟩ | ⟨old, _⟩
  · rw [same]
    exact vouched (copied ▸ secure)
  · exact backed.cached other entry old secure

theorem Backed.hit (backed : Backed crypto validator fetched sys) {hit : Hit}
    (found : (sys.cache.get key now).1 = some hit) (secure : hit.secure = true) :
    Vouched crypto validator fetched key hit.answers := by
  obtain ⟨entry, elapsed, stored, rfl⟩ := Cache.get_hit found
  exact (backed.cached key entry stored secure).of_timeless (timeless_adjust _ _)

theorem Backed.stale (backed : Backed crypto validator fetched sys) {hit : Hit}
    (found : sys.cache.getStale key now = some hit) (secure : hit.secure = true) :
    Vouched crypto validator fetched key hit.answers := by
  obtain ⟨entry, stored, marked, answers⟩ := Cache.getStale_hit found
  rw [marked] at secure
  refine (backed.cached key entry stored secure).of_timeless ?_
  rw [answers, List.map_map]
  rfl

theorem secure_of_validate {reply : Fetched}
    (stepped : react crypto validator sys id key (.judging reply) .validate =
      some (sys.put id key (.storing reply true))) :
    ∃ self, validator = some self ∧ self.validate crypto reply.chain reply.msg = .secure := by
  have phaseOf : ∀ {phase phase' : Phase},
      some (sys.put id key phase) = some (sys.put id key phase') → phase = phase' := by
    intro phase phase' same
    have calls := congrArg (fun sys => System.calls sys id) (Option.some.inj same)
    simpa only [System.calls_put_self, Option.some.injEq, Call.mk.injEq, true_and] using calls
  unfold react at stepped
  cases validator with
  | none => cases stepped
  | some self =>
    dsimp only at stepped
    cases verdict : self.validate crypto reply.chain reply.msg with
    | secure => exact ⟨self, rfl, verdict⟩
    | bogus | insecure =>
      rw [verdict] at stepped
      cases phaseOf stepped

theorem Backed.react {sys' : System} {event : Event} (backed : Backed crypto validator fetched sys)
    (here : PhaseVouched crypto validator fetched key phase)
    (brought : ∀ reply, broughtBy event = some reply → (key, reply) ∈ fetched)
    (stepped : Resolver.react crypto validator sys id key phase event = some sys') :
    Backed crypto validator fetched sys' := by
  have reacts := reacts_of_react stepped
  cases reacts with
  | hit probed =>
    refine (backed.of_cache fun _ _ => Cache.get?_of_get probed).put id key ?_
    exact fun secure => backed.hit (congrArg Prod.fst probed) secure
  | miss probed => exact (backed.of_cache fun _ _ => Cache.get?_of_get probed).put id key trivial
  | follow _ => exact backed.put id key trivial
  | lead _ => exact (backed.of_flight _ _).put id key trivial
  | failed => exact backed.put id key trivial
  | @fetched reply _ _ => exact backed.put id key (brought reply rfl)
  | unjudged _ => exact backed.put id key nofun
  | refused => exact backed.put id key trivial
  | admitted _ _ =>
    refine backed.put id key fun secure => ?_
    subst secure
    obtain ⟨self, configured, verdict⟩ := secure_of_validate stepped
    exact ⟨self, _, configured, here, verdict, rfl⟩
  | stored => exact (backed.store key _ _ here _).put id key here
  | released => exact (backed.of_flight _ _).put id key here
  | signalled => exact (backed.of_flight _ _).put id key here
  | retried _ => exact backed.put id key trivial
  | exhausted _ => exact backed.put id key trivial
  | directFailed => exact backed.put id key trivial
  | directOk => exact backed.put id key nofun

/-! ## Responses -/

/-- A pending response has no AD bit; unless it goes on a CNAME chain of a zone, it is
for the question of the query. -/
def Expects (request : Request crypto) (rest : Pending) : Prop :=
  rest.resp.flags.ad = false ∧
    (rest.append = true ∨ ∃ q, request.query.questions = [q] ∧
      findZone (request.config.zonesFor request.client) q.qname = none ∧
      rest.target = q.qname ∧ rest.qtype = q.qtype ∧ rest.resp.flags.aa = false)

/-- A response with the AD bit: one question, for a name of no zone, and records of
some kind. -/
def Attested (records : Key → List Record → Prop) (request : Request crypto) (resp : Message) :
    Prop :=
  ∃ q, request.query.questions = [q] ∧
    findZone (request.config.zonesFor request.client) q.qname = none ∧
    resp.flags.aa = false ∧ records ⟨q.qname, q.qtype⟩ resp.answers

@[simp]
theorem merge_append_ad (resp : Message) (hit : Hit) :
    (merge resp hit true).flags.ad = (resp.flags.ad && hit.secure) := rfl

@[simp]
theorem merge_ad (resp : Message) (hit : Hit) : (merge resp hit false).flags.ad = hit.secure := rfl

@[simp]
theorem merge_aa (resp : Message) (hit : Hit) (append : Bool) :
    (merge resp hit append).flags.aa = resp.flags.aa := by
  cases append <;> rfl

@[simp]
theorem merge_answers (resp : Message) (hit : Hit) :
    (merge resp hit false).answers = hit.answers := rfl

theorem chaosAnswer_ad (resp : Message) (q : Question) :
    (chaosAnswer resp q).flags.ad = resp.flags.ad := by
  unfold chaosAnswer
  dsimp only
  split <;> rfl

theorem screenQuery_error_ad {query : Message} (refused : screenQuery query = .error resp) :
    resp.flags.ad = false := by
  rcases screenQuery_error refused with rfl | ⟨rcode, rfl⟩ | ⟨q, _, rfl⟩
  · rfl
  · rfl
  · exact chaosAnswer_ad _ _

/-- What the synchronous part gives: a response without the bit, a fresh secure hit for
the question, or a pending response. -/
inductive Gives (request : Request crypto) (cache : Cache) (now : Instant) : Outcome → Prop
  | plain {resp : Message} (clear : resp.flags.ad = false) : Gives request cache now (.done resp)
  | hit {resp : Message} (attested : Attested (fun key answers => ∃ hit,
      (cache.get key now).1 = some hit ∧ hit.secure = resp.flags.ad ∧ answers = hit.answers)
        request resp) : Gives request cache now (.done resp)
  | pending {rest : Pending} (expects : Expects request rest) :
      Gives request cache now (.pending rest)

theorem resolveLocal_gives
    (resolved : resolveLocal request.config cache now request.query request.recursionAllowed
      request.client = some (outcome, cache')) :
    Gives request cache now outcome ∧ (cache' = cache ∨ ∃ key hit,
      cache.get key now = (hit, cache')) := by
  rw [resolveLocal_eq_plan] at resolved
  obtain ⟨planned, made, ran⟩ := Option.map_eq_some_iff.mp resolved
  have ways := plan_cases request.config request.query request.recursionAllowed made
  rcases Plan.run_cases ran with ⟨resp, rfl, rfl, rfl⟩ | ⟨rest, found, rfl, probed, ends⟩
  · refine ⟨.plain ?_, .inl rfl⟩
    rcases ways with ⟨_, refused, same⟩ |
      ⟨q, _, ⟨_, same | ⟨_, same⟩⟩ | ⟨_, same | ⟨_, _, same⟩⟩⟩ <;> cases same
    · exact screenQuery_error_ad refused
    · rfl
    · rfl
  · refine ⟨?_, .inr ⟨_, _, probed⟩⟩
    have expects : Expects request rest := by
      rcases ways with ⟨_, _, same⟩ |
        ⟨q, admitted, ⟨_, same | ⟨_, same⟩⟩ | ⟨outside, same | ⟨_, _, same⟩⟩⟩ <;> cases same
      · exact ⟨rfl, .inl rfl⟩
      · have question := ((screenQuery_eq_ok_iff _ _).mp admitted).2.2.1
        exact ⟨rfl, .inr ⟨q, question, outside, rfl, rfl, rfl⟩⟩
    rcases ends with ⟨_, rfl⟩ | ⟨hit, rfl, rfl⟩
    · exact .pending expects
    · obtain ⟨clear, appended | ⟨q, question, outside, target, qtype, plain⟩⟩ := expects
      · exact .plain (by rw [appended, merge_append_ad, clear, Bool.false_and])
      · cases append : rest.append with
        | true => exact .plain (by rw [merge_append_ad, clear, Bool.false_and])
        | false =>
          refine .hit ⟨q, question, outside, by rw [merge_aa, plain], hit, ?_, rfl, rfl⟩
          rw [← target, ← qtype, probed]

/-- Completion sets the bit only for a value of a call, or a stale one, that is secure
and the whole answer. -/
theorem resolvePending_attested {rest : Pending} (expects : Expects request rest)
    {result : Except ForwardError Hit} {stale : Option Hit} {records : Key → List Record → Prop}
    (returned : ∀ hit, result = .ok hit → hit.secure = true →
      records ⟨rest.target, rest.qtype⟩ hit.answers)
    (kept : ∀ hit, stale = some hit → hit.secure = true →
      records ⟨rest.target, rest.qtype⟩ hit.answers)
    (set : (resolvePending rest result stale).flags.ad = true) :
    Attested records request (resolvePending rest result stale) := by
  obtain ⟨clear, whole⟩ := expects
  have merged : ∀ hit : Hit, (hit.secure = true → records ⟨rest.target, rest.qtype⟩ hit.answers) →
      (merge rest.resp hit rest.append).flags.ad = true →
      Attested records request (merge rest.resp hit rest.append) := by
    intro hit vouched marked
    rcases whole with appended | ⟨q, question, outside, target, qtype, plain⟩
    · rw [appended, merge_append_ad, clear] at marked
      cases marked
    · cases append : rest.append with
      | true =>
        rw [append, merge_append_ad, clear] at marked
        cases marked
      | false =>
        rw [append, merge_ad] at marked
        refine ⟨q, question, outside, by rw [merge_aa, plain], ?_⟩
        rw [merge_answers, ← target, ← qtype]
        exact vouched marked
  unfold resolvePending at set ⊢
  split at set
  · rename_i hit
    exact merged hit (returned hit rfl) set
  · cases clear.symm.trans set
  · split at set
    · rename_i hit
      exact merged hit (kept hit rfl) set
    · cases clear.symm.trans set

/-! ## Runs -/

/-- The whole invariant: the resolver is backed, waiting queries expect what their calls
look up, and what was answered with the bit is attested. -/
structure Sound (validator : Option Validator) (server : Server crypto) : Prop where
  backed : Backed crypto validator server.fetched server.sys
  waiting : ∀ id request rest, server.waiting id = some (request, rest) →
    Expects request rest ∧ ∃ phase, server.sys.calls id = some ⟨⟨rest.target, rest.qtype⟩, phase⟩
  answered : ∀ request resp, (request, resp) ∈ server.answered → resp.flags.ad = true →
    Attested (Vouched crypto validator server.fetched) request resp

theorem Attested.mono {records records' : Key → List Record → Prop}
    (attested : Attested records request resp)
    (wider : ∀ key answers, records key answers → records' key answers) :
    Attested records' request resp := by
  obtain ⟨q, question, outside, plain, held⟩ := attested
  exact ⟨q, question, outside, plain, wider _ _ held⟩

theorem step_key {sys' : System} {action : Action}
    (stepped : Resolver.step crypto validator sys action = some sys')
    (started : ∃ phase, sys.calls id = some ⟨key, phase⟩) :
    ∃ phase, sys'.calls id = some ⟨key, phase⟩ := by
  obtain ⟨phase, found⟩ := started
  rcases step_cases stepped with ⟨elapsed, _, rfl⟩ | ⟨other, key', _, free, rfl⟩ |
    ⟨other, call, event, _, found', reacts⟩
  · exact ⟨phase, found⟩
  · have differs : id ≠ other := by
      rintro rfl
      rw [free] at found
      cases found
    exact ⟨phase, (Function.update_of_ne differs _ _).trans found⟩
  · by_cases same : id = other
    · subst same
      rw [found] at found'
      cases found'
      obtain ⟨phase', moved, _⟩ := reacts.flight
      exact ⟨phase', moved⟩
    · exact ⟨phase, (reacts.calls_other same).trans found⟩

theorem Sound.answer {server : Server crypto} (sound : Sound validator server)
    (attested : resp.flags.ad = true →
      Attested (Vouched crypto validator server.fetched) request resp) :
    Sound validator (server.answer request resp) := by
  refine ⟨sound.backed, sound.waiting, fun request' resp' member set => ?_⟩
  rcases List.mem_append.mp member with before | now
  · exact sound.answered request' resp' before set
  · cases List.mem_singleton.mp now
    exact attested set

theorem Sound.tick {server : Server crypto} (sound : Sound validator server) {elapsed : Nat}
    (stepped : Resolver.step crypto validator server.sys (.tick elapsed) = some sys) :
    Sound validator { server with sys } := by
  refine ⟨?_, fun id request rest found => ?_, sound.answered⟩
  · cases stepped
    exact ⟨sound.backed.cached, sound.backed.calls⟩
  · obtain ⟨expects, started⟩ := sound.waiting id request rest found
    exact ⟨expects, step_key stepped started⟩

theorem Sound.act {server : Server crypto} (sound : Sound validator server) {event : Event}
    {call : Call} (found : server.sys.calls id = some call)
    (stepped : Resolver.step crypto validator server.sys (.act id event) = some sys) :
    Sound validator { server with
      sys, fetched := server.fetched ++
        (broughtBy event).toList.map fun reply => (call.key, reply) } := by
  have more : server.fetched ⊆ server.fetched ++
      (broughtBy event).toList.map fun reply => (call.key, reply) :=
    List.subset_append_left _ _
  refine ⟨?_, fun id' request rest waits => ?_, fun request resp member set => ?_⟩
  · have reacted : react crypto validator server.sys id call.key call.phase event = some sys := by
      rw [Resolver.step, found] at stepped
      exact stepped
    refine (sound.backed.mono more).react ((sound.backed.calls id call found).mono more)
      (fun reply brought => ?_) reacted
    rw [brought]
    exact List.mem_append_right _ List.mem_cons_self
  · obtain ⟨expects, started⟩ := sound.waiting id' request rest waits
    exact ⟨expects, step_key stepped started⟩
  · exact (sound.answered request resp member set).mono fun _ _ vouched => vouched.mono more

/-- The synchronous part leaves a backed resolver: a probe may only drop an entry. -/
theorem Sound.of_cache {server : Server crypto} (sound : Sound validator server)
    (probed : cache = server.sys.cache ∨ ∃ key hit,
      server.sys.cache.get key server.sys.now = (hit, cache)) :
    Sound validator { server with sys := { server.sys with cache } } := by
  refine ⟨sound.backed.of_cache fun key entry found => ?_, sound.waiting, sound.answered⟩
  rcases probed with rfl | ⟨_, _, probed⟩
  · exact found
  · exact Cache.get?_of_get probed found

theorem Sound.query {server server' : Server crypto} (sound : Sound validator server)
    (stepped : Server.step validator server (.query id request) = some server') :
    Sound validator server' := by
  simp only [Server.step] at stepped
  split at stepped
  · cases stepped
    exact sound
  · rename_i resp cache resolved
    cases stepped
    obtain ⟨gives, probed⟩ := resolveLocal_gives resolved
    refine (sound.of_cache probed).answer fun set => ?_
    cases gives with
    | plain clear => cases clear.symm.trans set
    | hit attested =>
      refine attested.mono fun key answers => ?_
      rintro ⟨hit, found, secure, rfl⟩
      exact sound.backed.hit found (secure.trans set)
  · rename_i rest cache resolved
    obtain ⟨gives, probed⟩ := resolveLocal_gives resolved
    obtain ⟨sys, started, stepped⟩ := Option.bind_eq_some_iff.mp stepped
    cases stepped
    have after := sound.of_cache probed
    cases gives with
    | pending expects =>
      have begun := started
      rcases step_cases begun with ⟨_, impossible, _⟩ | ⟨_, _, same, free, rfl⟩ |
        ⟨_, _, _, impossible, _⟩
      · cases impossible
      · cases same
        refine ⟨after.backed.put id _ trivial, fun other request' rest' waits => ?_,
          after.answered⟩
        dsimp only at waits
        by_cases here : other = id
        · subst here
          rw [Function.update_self] at waits
          cases waits
          exact ⟨expects, _, System.calls_put_self _ _ _ _⟩
        · rw [Function.update_of_ne here] at waits
          obtain ⟨expects', known⟩ := after.waiting other request' rest' waits
          exact ⟨expects', step_key started known⟩
      · cases impossible

theorem Sound.finish {server server' : Server crypto} (sound : Sound validator server)
    (stepped : Server.step validator server (.finish id) = some server') :
    Sound validator server' := by
  simp only [Server.step] at stepped
  split at stepped
  · rename_i request rest key result waits finished
    cases stepped
    obtain ⟨expects, phase, known⟩ := sound.waiting id request rest waits
    have vouched := sound.backed.calls id _ finished
    have same : key = ⟨rest.target, rest.qtype⟩ := by
      rw [finished] at known
      exact congrArg Call.key (Option.some.inj known)
    have dropped : Sound validator
        { server with waiting := Function.update server.waiting id none } := by
      refine ⟨sound.backed, fun other request' rest' found => ?_, sound.answered⟩
      dsimp only at found
      by_cases here : other = id
      · subst here
        rw [Function.update_self] at found
        cases found
      · rw [Function.update_of_ne here] at found
        exact sound.waiting other request' rest' found
    refine dropped.answer fun set => resolvePending_attested expects ?_ ?_ set
    · intro hit returned secure
      cases result with
      | error error => cases returned
      | ok value =>
        cases returned
        rw [← same]
        exact vouched secure
    · intro hit found secure
      exact sound.backed.stale found secure
  · cases stepped

theorem Server.step_sound {server server' : Server crypto} {move : Move crypto}
    (sound : Sound validator server) (stepped : server.step validator move = some server') :
    Sound validator server' := by
  cases move with
  | tick elapsed =>
    cases stepped
    exact sound.tick rfl
  | act id event =>
    simp only [Server.step] at stepped
    obtain ⟨call, found, stepped⟩ := Option.bind_eq_some_iff.mp stepped
    obtain ⟨sys, acted, stepped⟩ := Option.bind_eq_some_iff.mp stepped
    cases stepped
    exact sound.act found acted
  | query id request => exact sound.query stepped
  | finish id => exact sound.finish stepped

theorem initial_sound (cacheSize : Nat) :
    Sound validator (Server.initial cacheSize : Server crypto) := by
  refine ⟨⟨?_, ?_⟩, ?_, ?_⟩
  · intro key entry impossible
    cases impossible
  · intro id call impossible
    cases impossible
  · intro id request rest impossible
    cases impossible
  · intro request resp impossible
    cases impossible

/-- In every run, a response with the AD bit is not authoritative and not for a name of
a zone, and its answers are, TTLs aside, those of a message that was fetched for its
question and that the configured validator found secure. -/
theorem ad_provenance {cacheSize : Nat} {moves : List (Move crypto)} {server : Server crypto}
    (run : Run (Steps (Server.step validator)) (Server.initial cacheSize) moves server)
    {request : Request crypto} {resp : Message} (given : (request, resp) ∈ server.answered)
    (set : resp.flags.ad = true) :
    ∃ q self reply, request.query.questions = [q] ∧
      findZone (request.config.zonesFor request.client) q.qname = none ∧
      resp.flags.aa = false ∧ validator = some self ∧
      (⟨q.qname, q.qtype⟩, reply) ∈ server.fetched ∧
      self.validate crypto reply.chain reply.msg = .secure ∧
      resp.answers.map timeless = reply.msg.answers.map timeless := by
  have sound : Sound validator server :=
    run.invariant (fun _ _ _ => Server.step_sound) (initial_sound _)
  obtain ⟨q, question, outside, plain, self, reply, configured, member, secure, same⟩ :=
    sound.answered request resp given set
  exact ⟨q, self, reply, question, outside, plain, configured, member, secure, same⟩

def signedRequest : Request Toy.scheme where
  config :=
    { zones := [], views := [], signed := HashMap.empty, rpz := ⟨HashMap.empty⟩, pool := true
      recursor := false, forwards := [], signs := nofun }
  query :=
    { Message.new 7 { Flags.default with rd := true } with
      questions := [⟨Toy.host, typeA, classIn⟩] }
  recursionAllowed := true
  client := loopback

/-- The first query waits for its call, which fetches and validates; the second one is
answered from the cache. -/
def signedMoves : List (Move Toy.scheme) :=
  [.query 0 signedRequest, .act 0 .probe, .act 0 .begin_,
    .act 0 (.fetch (.ok ⟨Toy.reply Toy.signedHost, Toy.servers⟩)), .act 0 .validate, .act 0 .store,
    .act 0 .release, .act 0 .signal, .finish 0, .tick (fromSecs 5), .query 1 signedRequest]

theorem ad_provenance_signed :
    ∃ server : Server Toy.scheme,
      Run (Steps (Server.step (some Toy.anchored))) (Server.initial 10) signedMoves server ∧
      server.answered.length = 2 ∧
      ∀ given ∈ server.answered, given.2.flags.ad = true ∧
        ∃ q self reply, given.1.query.questions = [q] ∧
          findZone (given.1.config.zonesFor given.1.client) q.qname = none ∧
          given.2.flags.aa = false ∧ some Toy.anchored = some self ∧
          (⟨q.qname, q.qtype⟩, reply) ∈ server.fetched ∧
          self.validate Toy.scheme reply.chain reply.msg = .secure ∧
          given.2.answers.map timeless = reply.msg.answers.map timeless := by
  have computed : (exec (Server.step (some Toy.anchored)) signedMoves (Server.initial 10)).any
      (fun server => decide (server.answered.length = 2) &&
        server.answered.all fun given => given.2.flags.ad) = true := by decide +kernel
  obtain ⟨server, reached, checked⟩ := (Option.any_eq_true _ _).mp computed
  obtain ⟨two, set⟩ := Bool.and_eq_true_iff.mp checked
  have run := run_of_exec reached
  refine ⟨server, run, of_decide_eq_true two, fun given member => ?_⟩
  have marked := List.all_eq_true.mp set given member
  exact ⟨marked, ad_provenance run member marked⟩

end Rdns.Resolver.Serve
