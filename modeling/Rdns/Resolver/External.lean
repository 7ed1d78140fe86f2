import Rdns.Lib.Run
import Rdns.Resolver.Cache
import Rdns.Resolver.Secure
import Mathlib.Logic.Function.Basic

/-!
# Concurrent lookups

`Resolver::resolve_external` with its cache and `Singleflight`: any number of
calls, each in its own phase, and steps of one call at a time in any order.  The
upstream's replies are part of the steps, so that every reply pattern is a run.
A call leads, fetching for all, or follows and looks again when the leader is
done; after three rounds it goes to the upstream directly.
-/

set_option autoImplicit false

namespace Rdns.Resolver

open Rdns.Lib Rdns.Proto Rdns.Dnssec

variable {id : Nat}

structure Fetched where
  msg : Message
  chain : Fetcher

/-- The value of a call that returned `Ok`.  The source is not part of the value: it
is the message the records were taken from. -/
structure Returned where
  hit : Hit
  source : Option Fetched

inductive Phase
  | probing (round : Nat)
  | contending (round : Nat)
  | leading
  | judging (reply : Fetched)
  | storing (reply : Fetched) (secure : Bool)
  | releasing (result : Except ForwardError Returned)
  | signalling (result : Except ForwardError Returned)
  | following (round leader : Nat)
  | direct
  | done (result : Except ForwardError Returned)

structure Call where
  key : Key
  phase : Phase

/-- The shared state and the calls.  A leader's channel bears the leader's number, and
`sent` are the channels that were signalled; `stored` says for each key what its
cache entry was made from. -/
structure System where
  now : Instant
  cache : Cache
  stored : Key → Option Fetched
  inflight : HashMap Key Nat
  sent : List Nat
  calls : Nat → Option Call

inductive Event
  | probe
  | begin_
  | fetch (reply : Except ForwardError Fetched)
  | validate
  | store
  | release
  | signal
  | wake
  | goDirect (reply : Except ForwardError Fetched)

inductive Action
  | tick (elapsed : Nat)
  | start (id : Nat) (key : Key)
  | act (id : Nat) (event : Event)

def maxRounds : Nat := 3

namespace System

def initial (cacheSize : Nat) : System :=
  ⟨0, Cache.new (max cacheSize 1), fun _ => none, HashMap.empty, [], fun _ => none⟩

def put (sys : System) (id : Nat) (key : Key) (phase : Phase) : System :=
  { sys with calls := Function.update sys.calls id (some ⟨key, phase⟩) }

theorem calls_put_self (sys : System) (id : Nat) (key : Key) (phase : Phase) :
    (sys.put id key phase).calls id = some ⟨key, phase⟩ :=
  Function.update_self _ _ _

end System

def soaOnly (records : List Record) : List Record :=
  records.filter fun record => record.rtype = typeSoa

variable (crypto : Crypto) (validator : Option Validator)

/-- One step of a call: `none` where the call does something else in that phase, or
waits. -/
def react (sys : System) (id : Nat) (key : Key) : Phase → Event → Option System
  | .probing round, .probe =>
    match sys.cache.get key sys.now with
    | (some hit, cache) =>
      some ({ sys with cache }.put id key (.done (.ok ⟨hit, sys.stored key⟩)))
    | (none, cache) => some ({ sys with cache }.put id key (.contending round))
  | .contending round, .begin_ =>
    match sys.inflight.get? key with
    | some leader => some (sys.put id key (.following round leader))
    | none =>
      some ({ sys with inflight := sys.inflight.insert key id }.put id key .leading)
  | .leading, .fetch (.error error) => some (sys.put id key (.releasing (.error error)))
  | .leading, .fetch (.ok reply) =>
    match validator with
    | some _ => some (sys.put id key (.judging reply))
    | none => some (sys.put id key (.storing reply false))
  | .judging reply, .validate =>
    match validator with
    | none => none
    | some self =>
      match self.validate crypto reply.chain reply.msg with
      | .bogus => some (sys.put id key (.releasing (.error .bogus)))
      | .secure => some (sys.put id key (.storing reply true))
      | .insecure => some (sys.put id key (.storing reply false))
  | .storing reply secure, .store =>
    let rcode := reply.msg.flags.rcode
    let authorities := soaOnly reply.msg.authorities
    let cache := sys.cache.insert key rcode reply.msg.answers authorities secure sys.now
    let stored :=
      if (Cache.ttlOf rcode reply.msg.answers authorities).isSome then
        Function.update sys.stored key (some reply)
      else sys.stored
    some ({ sys with cache, stored }.put id key
      (.releasing (.ok ⟨⟨rcode, reply.msg.answers, authorities, secure⟩, some reply⟩)))
  | .releasing result, .release =>
    some ({ sys with inflight := sys.inflight.remove key }.put id key (.signalling result))
  | .signalling result, .signal =>
    some ({ sys with sent := id :: sys.sent }.put id key (.done result))
  | .following round leader, .wake =>
    if leader ∈ sys.sent then
      if round + 1 < maxRounds then some (sys.put id key (.probing (round + 1)))
      else some (sys.put id key .direct)
    else none
  | .direct, .goDirect (.error error) => some (sys.put id key (.done (.error error)))
  | .direct, .goDirect (.ok reply) =>
    some (sys.put id key
      (.done (.ok ⟨⟨reply.msg.flags.rcode, reply.msg.answers, [], false⟩, some reply⟩)))
  | _, _ => none

def step (sys : System) : Action → Option System
  | .tick elapsed => some { sys with now := sys.now + elapsed }
  | .start id key =>
    match sys.calls id with
    | none => some (sys.put id key (.probing 0))
    | some _ => none
  | .act id event =>
    match sys.calls id with
    | none => none
    | some call => react crypto validator sys id call.key call.phase event

/-! ## What a step can do -/

inductive Reacts (sys : System) (id : Nat) (key : Key) : Phase → Event → System → Prop
  | hit {round : Nat} {hit : Hit} {cache : Cache}
      (probed : sys.cache.get key sys.now = (some hit, cache)) :
      Reacts sys id key (.probing round) .probe
        ({ sys with cache }.put id key (.done (.ok ⟨hit, sys.stored key⟩)))
  | miss {round : Nat} {cache : Cache} (probed : sys.cache.get key sys.now = (none, cache)) :
      Reacts sys id key (.probing round) .probe ({ sys with cache }.put id key (.contending round))
  | follow {round leader : Nat} (busy : sys.inflight.get? key = some leader) :
      Reacts sys id key (.contending round) .begin_ (sys.put id key (.following round leader))
  | lead {round : Nat} (free : sys.inflight.get? key = none) :
      Reacts sys id key (.contending round) .begin_
        ({ sys with inflight := sys.inflight.insert key id }.put id key .leading)
  | failed {error : ForwardError} :
      Reacts sys id key .leading (.fetch (.error error))
        (sys.put id key (.releasing (.error error)))
  | fetched {reply : Fetched} {self : Validator} (configured : validator = some self) :
      Reacts sys id key .leading (.fetch (.ok reply)) (sys.put id key (.judging reply))
  | unjudged {reply : Fetched} (plain : validator = none) :
      Reacts sys id key .leading (.fetch (.ok reply)) (sys.put id key (.storing reply false))
  | refused {reply : Fetched} :
      Reacts sys id key (.judging reply) .validate
        (sys.put id key (.releasing (.error .bogus)))
  | admitted {reply : Fetched} {self : Validator} {secure : Bool}
      (configured : validator = some self)
      (verdict : self.validate crypto reply.chain reply.msg ≠ .bogus) :
      Reacts sys id key (.judging reply) .validate (sys.put id key (.storing reply secure))
  | stored {reply : Fetched} {secure : Bool} :
      Reacts sys id key (.storing reply secure) .store
        ({ sys with
            cache := sys.cache.insert key reply.msg.flags.rcode reply.msg.answers
              (soaOnly reply.msg.authorities) secure sys.now
            stored := if (Cache.ttlOf reply.msg.flags.rcode reply.msg.answers
                (soaOnly reply.msg.authorities)).isSome then
              Function.update sys.stored key (some reply) else sys.stored }.put id key
          (.releasing (.ok ⟨⟨reply.msg.flags.rcode, reply.msg.answers,
            soaOnly reply.msg.authorities, secure⟩, some reply⟩)))
  | released {result : Except ForwardError Returned} :
      Reacts sys id key (.releasing result) .release
        ({ sys with inflight := sys.inflight.remove key }.put id key (.signalling result))
  | signalled {result : Except ForwardError Returned} :
      Reacts sys id key (.signalling result) .signal
        ({ sys with sent := id :: sys.sent }.put id key (.done result))
  | retried {round leader : Nat} (woken : leader ∈ sys.sent) :
      Reacts sys id key (.following round leader) .wake (sys.put id key (.probing (round + 1)))
  | exhausted {round leader : Nat} (woken : leader ∈ sys.sent) :
      Reacts sys id key (.following round leader) .wake (sys.put id key .direct)
  | directFailed {error : ForwardError} :
      Reacts sys id key .direct (.goDirect (.error error)) (sys.put id key (.done (.error error)))
  | directOk {reply : Fetched} :
      Reacts sys id key .direct (.goDirect (.ok reply)) (sys.put id key
        (.done (.ok ⟨⟨reply.msg.flags.rcode, reply.msg.answers, [], false⟩, some reply⟩)))

variable {sys sys' : System} {phase : Phase} {event : Event}

variable {crypto validator} in
theorem reacts_of_react {key : Key}
    (stepped : react crypto validator sys id key phase event = some sys') :
    Reacts crypto validator sys id key phase event sys' := by
  unfold react at stepped
  split at stepped
  · split at stepped <;> rename_i probed <;> cases stepped
    · exact .hit probed
    · exact .miss probed
  · split at stepped <;> rename_i found <;> cases stepped
    · exact .follow found
    · exact .lead found
  · cases stepped
    exact .failed
  · split at stepped <;> cases stepped
    · exact .fetched rfl
    · exact .unjudged rfl
  · split at stepped
    · cases stepped
    · split at stepped <;> rename_i verdict <;> cases stepped
      · exact .refused
      · exact .admitted rfl (by simp [verdict])
      · exact .admitted rfl (by simp [verdict])
  · cases stepped
    exact .stored
  · cases stepped
    exact .released
  · cases stepped
    exact .signalled
  · split at stepped
    · rename_i woken
      split at stepped <;> cases stepped
      · exact .retried woken
      · exact .exhausted woken
    · cases stepped
  · cases stepped
    exact .directFailed
  · cases stepped
    exact .directOk
  · cases stepped

variable {action : Action}

variable {crypto validator} in
theorem step_cases (stepped : step crypto validator sys action = some sys') :
    (∃ elapsed, action = .tick elapsed ∧ sys' = { sys with now := sys.now + elapsed }) ∨
    (∃ id key, action = .start id key ∧ sys.calls id = none ∧ sys' = sys.put id key (.probing 0)) ∨
    ∃ id call event, action = .act id event ∧ sys.calls id = some call ∧
      Reacts crypto validator sys id call.key call.phase event sys' := by
  cases action with
  | tick elapsed =>
    cases stepped
    exact .inl ⟨elapsed, rfl, rfl⟩
  | start id key =>
    simp only [step] at stepped
    split at stepped <;> rename_i found <;> cases stepped
    exact .inr (.inl ⟨id, key, rfl, found, rfl⟩)
  | act id event =>
    simp only [step] at stepped
    split at stepped
    · cases stepped
    · rename_i call found
      exact .inr (.inr ⟨id, call, event, rfl, found, reacts_of_react stepped⟩)

/-! ## Where returned records come from -/

def timeless (record : Record) : Record := { record with ttl := 0 }

/-- The value was taken from the message, TTLs aside: all its answers, and of its
authority records none or the SOAs. -/
def Made (source : Fetched) (hit : Hit) : Prop :=
  hit.rcode = source.msg.flags.rcode ∧
    hit.answers.map timeless = source.msg.answers.map timeless ∧
    hit.authorities.map timeless ⊆ source.msg.authorities.map timeless

def Admits (reply : Fetched) : Prop :=
  ∀ self ∈ validator, self.validate crypto reply.chain reply.msg ≠ .bogus

def Taken (good : Fetched → Prop) (returned : Returned) : Prop :=
  ∃ source, returned.source = some source ∧ Made source returned.hit ∧ good source

def ResultOk (good : Fetched → Prop) : Except ForwardError Returned → Prop
  | .ok returned => Taken good returned
  | .error _ => True

def PhaseOk (good : Fetched → Prop) : Phase → Prop
  | .storing reply _ => good reply
  | .releasing result => ResultOk good result
  | .signalling result => ResultOk good result
  | .done result => ResultOk good result
  | _ => True

/-- Every cached entry and every value returned or on its way was taken from a message
of the kind. -/
structure Sourced (good : Fetched → Prop) (sys : System) : Prop where
  cached : ∀ key entry, sys.cache.inner.get? key = some entry → ∃ source,
    sys.stored key = some source ∧
      Made source ⟨entry.rcode, entry.answers, entry.authorities, entry.secure⟩ ∧ good source
  calls : ∀ id call, sys.calls id = some call → PhaseOk good call.phase

variable {crypto validator} {good : Fetched → Prop}

theorem timeless_adjust (elapsed : UInt32) (records : List Record) :
    (records.map (Cache.adjust elapsed)).map timeless = records.map timeless := by
  rw [List.map_map]
  rfl

theorem made_adjust {source : Fetched} {hit : Hit} (elapsed : UInt32) (made : Made source hit) :
    Made source ⟨hit.rcode, hit.answers.map (Cache.adjust elapsed),
      hit.authorities.map (Cache.adjust elapsed), hit.secure⟩ := by
  obtain ⟨rcode, answers, authorities⟩ := made
  refine ⟨rcode, ?_, ?_⟩
  · rw [timeless_adjust, answers]
  · rw [timeless_adjust]
    exact authorities

theorem made_fetched (reply : Fetched) (secure : Bool) {authorities : List Record}
    (among : authorities ⊆ reply.msg.authorities) :
    Made reply ⟨reply.msg.flags.rcode, reply.msg.answers, authorities, secure⟩ :=
  ⟨rfl, rfl, List.map_subset timeless among⟩

theorem soaOnly_subset (records : List Record) : soaOnly records ⊆ records :=
  List.filter_subset_self records

theorem Sourced.put (sourced : Sourced good sys) (id : Nat) (key : Key) (ok : PhaseOk good phase) :
    Sourced good (sys.put id key phase) := by
  refine ⟨sourced.cached, ?_⟩
  intro other call found
  by_cases same : other = id
  · subst same
    simp only [System.put, Function.update_self, Option.some.injEq] at found
    rw [← found]
    exact ok
  · simp only [System.put, Function.update_of_ne same] at found
    exact sourced.calls other call found

theorem Sourced.of_cache {cache : Cache} (sourced : Sourced good sys)
    (kept : ∀ key entry, cache.inner.get? key = some entry →
      sys.cache.inner.get? key = some entry) :
    Sourced good { sys with cache } :=
  ⟨fun key entry found => sourced.cached key entry (kept key entry found), sourced.calls⟩

theorem Sourced.of_flight (sourced : Sourced good sys) (inflight : HashMap Key Nat)
    (sent : List Nat) : Sourced good { sys with inflight, sent } :=
  ⟨sourced.cached, sourced.calls⟩

theorem Sourced.store (sourced : Sourced good sys) (key : Key) {reply : Fetched} (fine : good reply)
    (secure : Bool) : let rcode := reply.msg.flags.rcode
    let authorities := soaOnly reply.msg.authorities
    Sourced good { sys with
      cache := sys.cache.insert key rcode reply.msg.answers authorities secure sys.now
      stored := if (Cache.ttlOf rcode reply.msg.answers authorities).isSome then
          Function.update sys.stored key (some reply)
        else sys.stored } := by
  refine ⟨?_, sourced.calls⟩
  intro other entry found
  rcases Cache.get?_of_insert _ _ _ _ _ _ _ _ found with
    ⟨rfl, cacheable, rcode, answers, authorities, _⟩ | ⟨old, uncacheable⟩
  · refine ⟨reply, by simp [cacheable], ?_, fine⟩
    rw [rcode, answers, authorities]
    exact made_fetched reply _ (soaOnly_subset _)
  · obtain ⟨source, known, made, fine'⟩ := sourced.cached other entry old
    refine ⟨source, ?_, made, fine'⟩
    simp only
    split
    · rename_i cacheable
      by_cases same : other = key
      · rw [uncacheable same] at cacheable
        cases cacheable
      · rw [Function.update_of_ne same]
        exact known
    · exact known

/-- Every step keeps that, if leaders go on only with messages of the kind and direct
replies are of the kind. -/
theorem Reacts.sourced (admits : ∀ reply, Admits crypto validator reply → good reply) {key : Key}
    (reacts : Reacts crypto validator sys id key phase event sys') (here : PhaseOk good phase)
    (direct : ∀ reply, event = .goDirect (.ok reply) → good reply) (sourced : Sourced good sys) :
    Sourced good sys' := by
  cases reacts with
  | hit probed =>
    refine (sourced.of_cache fun _ _ => Cache.get?_of_get probed).put id key ?_
    obtain ⟨entry, elapsed, found, rfl⟩ := Cache.get_hit (congrArg Prod.fst probed)
    obtain ⟨source, known, made, fine⟩ := sourced.cached key entry found
    exact ⟨source, known, made_adjust elapsed made, fine⟩
  | miss probed => exact (sourced.of_cache fun _ _ => Cache.get?_of_get probed).put id key trivial
  | follow _ => exact sourced.put id key trivial
  | lead _ => exact (sourced.of_flight _ _).put id key trivial
  | failed => exact sourced.put id key trivial
  | fetched _ => exact sourced.put id key trivial
  | unjudged plain =>
    refine sourced.put id key (admits _ ?_)
    intro self configured
    rw [plain] at configured
    cases configured
  | refused => exact sourced.put id key trivial
  | admitted configured verdict =>
    refine sourced.put id key (admits _ ?_)
    intro self configured'
    rw [configured] at configured'
    cases configured'
    exact verdict
  | stored =>
    exact (sourced.store key here _).put id key
      ⟨_, rfl, made_fetched _ _ (soaOnly_subset _), here⟩
  | released => exact (sourced.of_flight _ _).put id key here
  | signalled => exact (sourced.of_flight _ _).put id key here
  | retried _ => exact sourced.put id key trivial
  | exhausted _ => exact sourced.put id key trivial
  | directFailed => exact sourced.put id key trivial
  | directOk =>
    exact sourced.put id key
      ⟨_, rfl, made_fetched _ _ (List.nil_subset _), direct _ rfl⟩

theorem step_sourced (admits : ∀ reply, Admits crypto validator reply → good reply)
    (direct : ∀ id reply, action = .act id (.goDirect (.ok reply)) → good reply)
    (sourced : Sourced good sys) (stepped : step crypto validator sys action = some sys') :
    Sourced good sys' := by
  rcases step_cases stepped with ⟨elapsed, _, rfl⟩ | ⟨id, key, _, _, rfl⟩ |
    ⟨id, call, event, rfl, found, reacts⟩
  · exact ⟨sourced.cached, sourced.calls⟩
  · exact sourced.put id key trivial
  · exact reacts.sourced admits (sourced.calls id call found)
      (fun reply same => direct id reply (by rw [same])) sourced

theorem Reacts.calls_other {other : Nat} {key : Key}
    (reacts : Reacts crypto validator sys id key phase event sys') (differs : other ≠ id) :
    sys'.calls other = sys.calls other := by
  cases reacts <;> exact Function.update_of_ne differs _ _

theorem step_done {key : Key} {result : Except ForwardError Returned}
    (finished : sys.calls id = some ⟨key, .done result⟩)
    (stepped : step crypto validator sys action = some sys') :
    sys'.calls id = some ⟨key, .done result⟩ := by
  rcases step_cases stepped with ⟨elapsed, _, rfl⟩ | ⟨other, _, _, free, rfl⟩ |
    ⟨other, call, event, _, found, reacts⟩
  · exact finished
  · have differs : id ≠ other := by
      rintro rfl
      rw [free] at finished
      cases finished
    exact (Function.update_of_ne differs _ _).trans finished
  · by_cases same : id = other
    · subst same
      rw [finished] at found
      cases found
      cases reacts
    · exact (reacts.calls_other same).trans finished

theorem initial_sourced (cacheSize : Nat) : Sourced good (System.initial cacheSize) := by
  constructor
  · intro key entry impossible
    cases impossible
  · intro id call impossible
    cases impossible

theorem returned_made {cacheSize : Nat} {labels : List Action} {state : System}
    (run : Run (Steps (step crypto validator)) (System.initial cacheSize) labels state) {key : Key}
    {returned : Returned} (finished : state.calls id = some ⟨key, .done (.ok returned)⟩) :
    ∃ source, returned.source = some source ∧ Made source returned.hit := by
  have sourced : Sourced (fun _ => True) state :=
    run.invariant (fun _ _ _ inv stepped =>
      step_sourced (fun _ _ => trivial) (fun _ _ _ => trivial) inv stepped) (initial_sourced _)
  obtain ⟨source, known, made, _⟩ := sourced.calls id _ finished
  exact ⟨source, known, made⟩

/-! ## Bogus messages -/

variable (crypto)

/-- Every value returned is taken from a message that is not bogus, exactly when no
direct fetch brings a bogus one: the leaders' messages are validated, those of calls
that have followed three times are not. -/
theorem bogus_never_returned_iff (self : Validator) {cacheSize : Nat} {labels : List Action}
    {state : System}
    (run : Run (Steps (step crypto (some self))) (System.initial cacheSize) labels state) :
    (∀ id key returned, state.calls id = some ⟨key, .done (.ok returned)⟩ →
      Taken (fun source => self.validate crypto source.chain source.msg ≠ .bogus) returned) ↔
    ∀ id reply, .act id (.goDirect (.ok reply)) ∈ labels →
      self.validate crypto reply.chain reply.msg ≠ .bogus := by
  constructor
  · intro clean
    generalize System.initial cacheSize = first at run
    induction run with
    | done => exact fun _ _ impossible => absurd impossible List.not_mem_nil
    | @next first middle last label labels head tail ih =>
      intro id reply member
      rcases List.mem_cons.mp member with rfl | later
      · obtain ⟨_, action, _⟩ | ⟨_, _, action, _⟩ | ⟨other, call, event, action, found, reacts⟩ :=
          step_cases head
        · cases action
        · cases action
        · cases action
          obtain ⟨key, phase⟩ := call
          cases reacts with
          | directOk =>
            have kept := tail.invariant (fun _ _ _ => step_done)
              (System.calls_put_self first id key _)
            obtain ⟨source, traced, _, fine⟩ := clean id key _ kept
            cases traced
            exact fine
      · exact ih clean id reply later
  · intro validated id key returned finished
    have sourced := run.invariant_of_labels
      (Sourced fun reply => self.validate crypto reply.chain reply.msg ≠ .bogus)
      (fun label => ∀ id reply, label = .act id (.goDirect (.ok reply)) →
        self.validate crypto reply.chain reply.msg ≠ .bogus)
      (fun _ _ _ fine inv stepped =>
        step_sourced (fun reply admitted => admitted self rfl) fine inv stepped)
      (fun label member id reply same => validated id reply (same ▸ member)) (initial_sourced _)
    exact sourced.calls id _ finished

namespace Toy

def key : Key := ⟨host, typeA⟩

def arrive (id : Nat) : List Action := [.start id key, .act id .probe, .act id .begin_]

def finish (id : Nat) (reply : Fetched) : List Action :=
  [.act id (.fetch (.ok reply)), .act id .validate, .act id .release, .act id .signal]

def forged : Fetched := ⟨reply forgedHost, servers⟩

def again (id : Nat) : List Action := [.act id .wake, .act id .probe, .act id .begin_]

/-- Four calls: three lead one after the other and refuse a forged reply, the other
follows each of them and then takes the forged reply itself. -/
def outlasted : List Action :=
  arrive 0 ++ arrive 1 ++ finish 0 forged ++ arrive 2 ++ again 1 ++ finish 2 forged ++ arrive 3 ++
    again 1 ++ finish 3 forged ++ [.act 1 .wake, .act 1 (.goDirect (.ok forged))]

def alone : List Action :=
  arrive 0 ++ [.act 0 (.fetch (.ok ⟨reply signedHost, servers⟩)), .act 0 .validate, .act 0 .store,
    .act 0 .release, .act 0 .signal]

def verdictOn (self : Validator) (sys : System) (id : Nat) : Option Security :=
  match sys.calls id with
  | some ⟨_, .done (.ok ⟨_, some source⟩)⟩ => some (self.validate scheme source.chain source.msg)
  | _ => none

theorem verdictOn_eq_some {self : Validator} {verdict : Security}
    (found : verdictOn self sys id = some verdict) :
    ∃ key hit source, sys.calls id = some ⟨key, .done (.ok ⟨hit, some source⟩)⟩ ∧
      self.validate scheme source.chain source.msg = verdict := by
  unfold verdictOn at found
  split at found
  · rename_i key hit source finished
    cases found
    exact ⟨key, hit, source, finished, rfl⟩
  · cases found

end Toy

theorem bogus_never_returned_alone :
    ∃ state, Run (Steps (step Toy.scheme (some Toy.anchored))) (System.initial 10) Toy.alone state ∧
      Toy.verdictOn Toy.anchored state 0 = some .secure ∧
      ∀ id key returned, state.calls id = some ⟨key, .done (.ok returned)⟩ →
        Taken (fun source => Toy.anchored.validate Toy.scheme source.chain source.msg ≠ .bogus)
          returned := by
  have computed : (exec (step Toy.scheme (some Toy.anchored)) Toy.alone (System.initial 10)).bind
      (fun state => Toy.verdictOn Toy.anchored state 0) = some .secure := by decide +kernel
  obtain ⟨state, reached, verdict⟩ := Option.bind_eq_some_iff.mp computed
  refine ⟨state, run_of_exec reached, verdict, ?_⟩
  refine (bogus_never_returned_iff Toy.scheme Toy.anchored (run_of_exec reached)).mpr ?_
  intro id reply member
  simp [Toy.alone, Toy.arrive] at member

/-- A forged reply is returned by a call that has followed three leaders. -/
theorem forged_reply_returned :
    ∃ labels state, Run (Steps (step Toy.scheme (some Toy.anchored))) (System.initial 10) labels
        state ∧
      ∃ id key returned, state.calls id = some ⟨key, .done (.ok returned)⟩ ∧
        Taken (fun source => Toy.anchored.validate Toy.scheme source.chain source.msg = .bogus)
          returned := by
  have computed : (exec (step Toy.scheme (some Toy.anchored)) Toy.outlasted
      (System.initial 10)).bind (fun state => Toy.verdictOn Toy.anchored state 1) =
        some .bogus := by decide +kernel
  obtain ⟨state, reached, verdict⟩ := Option.bind_eq_some_iff.mp computed
  have run := run_of_exec reached
  obtain ⟨key, hit, source, finished, bogus⟩ := Toy.verdictOn_eq_some verdict
  obtain ⟨source', traced, made⟩ := returned_made run finished
  cases traced
  exact ⟨Toy.outlasted, state, run, 1, key, _, finished, source, rfl, made, bogus⟩

/-! ## One leader -/

def Phase.Leads : Phase → Prop
  | .leading | .judging _ | .storing _ _ | .releasing _ => True
  | _ => False

def Registered (sys : System) : Prop :=
  ∀ id call, sys.calls id = some call → call.phase.Leads → sys.inflight.get? call.key = some id

variable {crypto}

/-- What a step does to the flight map: nothing, an entry for a new leader, or the entry
of a leader removed. -/
theorem Reacts.flight {key : Key} (reacts : Reacts crypto validator sys id key phase event sys') :
    ∃ phase', sys'.calls id = some ⟨key, phase'⟩ ∧
      ((phase'.Leads → phase.Leads) ∧ sys'.inflight = sys.inflight ∨
        sys.inflight.get? key = none ∧ sys'.inflight = sys.inflight.insert key id ∨
        phase.Leads ∧ ¬ phase'.Leads ∧ sys'.inflight = sys.inflight.remove key) := by
  cases reacts with
  | lead free => exact ⟨_, System.calls_put_self _ _ _ _, .inr (.inl ⟨free, rfl⟩)⟩
  | released => exact ⟨_, System.calls_put_self _ _ _ _, .inr (.inr ⟨trivial, nofun, rfl⟩)⟩
  | _ => exact ⟨_, System.calls_put_self _ _ _ _, .inl ⟨by simp [Phase.Leads], rfl⟩⟩

theorem Reacts.registered {call : Call}
    (reacts : Reacts crypto validator sys id call.key call.phase event sys')
    (found : sys.calls id = some call) (registered : Registered sys) : Registered sys' := by
  obtain ⟨phase', moved, flight⟩ := reacts.flight
  intro other call' found' leads
  by_cases same : other = id
  · subst same
    rw [moved] at found'
    cases found'
    rcases flight with ⟨before, unchanged⟩ | ⟨_, entered⟩ | ⟨_, stopped, _⟩
    · rw [unchanged]
      exact registered other call found (before leads)
    · rw [entered, HashMap.get?_insert, if_pos rfl]
    · exact absurd leads stopped
  · rw [reacts.calls_other same] at found'
    have known := registered other call' found' leads
    rcases flight with ⟨_, unchanged⟩ | ⟨free, entered⟩ | ⟨led, _, removed⟩
    · rwa [unchanged]
    · have apart : call'.key ≠ call.key := by
        intro shared
        rw [shared, free] at known
        cases known
      rwa [entered, HashMap.get?_insert, if_neg apart]
    · have apart : call'.key ≠ call.key := by
        intro shared
        rw [shared, registered id call found led] at known
        cases known
        exact same rfl
      rwa [removed, HashMap.get?_remove, if_neg apart]

theorem step_registered (registered : Registered sys)
    (stepped : step crypto validator sys action = some sys') : Registered sys' := by
  rcases step_cases stepped with ⟨elapsed, _, rfl⟩ | ⟨id, key, _, _, rfl⟩ |
    ⟨id, call, event, _, found, reacts⟩
  · exact registered
  · intro other call found leads
    by_cases same : other = id
    · subst same
      rw [System.calls_put_self] at found
      cases found
      cases leads
    · exact registered other call ((Function.update_of_ne same _ _).symm.trans found) leads
  · exact reacts.registered found registered

/-- In every run at most one call at a time leads for a key. -/
theorem leader_unique {cacheSize : Nat} {labels : List Action} {state : System}
    (run : Run (Steps (step crypto validator)) (System.initial cacheSize) labels state)
    {first second : Nat} {left right : Call} (found : state.calls first = some left)
    (found' : state.calls second = some right) (leads : left.phase.Leads)
    (leads' : right.phase.Leads) (shared : left.key = right.key) : first = second := by
  have registered : Registered state :=
    run.invariant (fun _ _ _ => step_registered) fun _ _ impossible => nomatch impossible
  have here := registered first left found leads
  rw [shared, registered second right found' leads'] at here
  exact (Option.some.inj here).symm

theorem leader_unique_arrivals :
    ∃ state, Run (Steps (step Toy.scheme (some Toy.anchored))) (System.initial 10)
        (Toy.arrive 0 ++ Toy.arrive 1) state ∧
      ∃ call, state.calls 0 = some call ∧ call.phase.Leads ∧
        ∀ id other, state.calls id = some other → other.phase.Leads → call.key = other.key →
          0 = id := by
  have computed : ((exec (step Toy.scheme (some Toy.anchored)) (Toy.arrive 0 ++ Toy.arrive 1)
      (System.initial 10)).bind fun state => state.calls 0) = some ⟨Toy.key, .leading⟩ := rfl
  obtain ⟨state, reached, found⟩ := Option.bind_eq_some_iff.mp computed
  exact ⟨state, run_of_exec reached, _, found, trivial, fun id other found' leads shared =>
    leader_unique (run_of_exec reached) found found' trivial leads shared⟩

end Rdns.Resolver
