import Rdns.Resolver.SignedAnswers

/-!
# Split-horizon views

A client of a view is answered from the zones of the view; the default zones are
hidden from it.  The signed material, however, is made of the default zones alone and
found by the origin.  Two resolvers with the same views answer alike where the same
default zone, or none, stands behind the zone that answers a query with the DO bit.
-/

set_option autoImplicit false

namespace Rdns.Resolver.Serve

open Rdns.Lib Rdns.Proto Rdns.Dnssec Rdns.Zones

variable {crypto : Crypto}

/-! ## The outcome -/

def Outcome.resp : Outcome → Message
  | .done resp => resp
  | .pending rest => rest.resp

section Complete

variable (config : Config crypto) (cache : Cache) (now : Instant) (query : Message)
  (recursionAllowed : Bool) (q : Question)

/-- The end of `resolve_local` for a zone: a chain that left it is followed or not. -/
def complete (offsite : Option DnsName) (resp : Message) : Outcome × Cache :=
  match offsite with
  | some target =>
    if query.flags.rd && config.canRecurse target && recursionAllowed then
      match cache.get ⟨target, q.qtype⟩ now with
      | (some hit, cache) => (.done (merge resp hit true), cache)
      | (none, cache) => (.pending ⟨resp, target, q.qtype, true⟩, cache)
    else (.done resp, cache)
  | none => (.done resp, cache)

theorem resolveZone_eq {resp : Message} (fresh : Fresh resp) (zone : Zone) :
    resolveZone config cache now query recursionAllowed resp q zone =
      (sections crypto (dnssecFor config query zone) zone q).map fun sections =>
        complete config cache now query recursionAllowed q sections.offsite
          (sections.into resp) := by
  unfold resolveZone
  rw [zoneResponse_eq config query fresh]
  cases sections crypto (dnssecFor config query zone) zone q with
  | none => rfl
  | some sections =>
    simp only [Option.map_some, Option.bind_eq_bind, Option.bind_some]
    unfold complete
    cases sections.offsite with
    | none => rfl
    | some target =>
      dsimp only
      split
      · cases cache.get ⟨target, q.qtype⟩ now with
        | mk found cache' => cases found <;> rfl
      · rfl

theorem complete_appends (offsite : Option DnsName) :
    ∃ more more', ∀ resp,
      (complete config cache now query recursionAllowed q offsite resp).1.resp.answers =
        resp.answers ++ more ∧
      (complete config cache now query recursionAllowed q offsite resp).1.resp.authorities =
        resp.authorities ++ more' := by
  have kept : ∃ more more' : List Record, ∀ resp : Message,
      resp.answers = resp.answers ++ more ∧ resp.authorities = resp.authorities ++ more' :=
    ⟨[], [], fun _ => ⟨(List.append_nil _).symm, (List.append_nil _).symm⟩⟩
  unfold complete
  cases offsite with
  | none => exact kept
  | some target =>
    dsimp only
    split
    · split
      · rename_i hit _ _
        refine ⟨hit.answers, if hit.answers.isEmpty then hit.authorities else [],
          fun resp => ⟨rfl, ?_⟩⟩
        simp only [Outcome.resp, merge, if_true]
        split
        · rfl
        · exact (List.append_nil _).symm
      · exact kept
    · exact kept

end Complete

/-- Sections that leave the zone at the same target, if they do, show in the outcome. -/
theorem complete_inj {config : Config crypto} {cache : Cache} {now : Instant} {query : Message}
    {recursionAllowed : Bool} {q : Question} {resp : Message} {left right : Sections}
    (same : complete config cache now query recursionAllowed q left.offsite (left.into resp) =
      complete config cache now query recursionAllowed q right.offsite (right.into resp))
    (offsite : left.offsite = right.offsite) :
    left.answers = right.answers ∧ left.authorities = right.authorities := by
  obtain ⟨more, more', appends⟩ :=
    complete_appends config cache now query recursionAllowed q right.offsite
  have ours := appends (left.into resp)
  rw [offsite] at same
  rw [same, (appends (right.into resp)).1, (appends (right.into resp)).2] at ours
  exact ⟨(List.append_cancel_right ours.1).symm, (List.append_cancel_right ours.2).symm⟩

/-! ## Two resolvers -/

/-- The resolvers differ at most in their default zones and what was signed of them. -/
structure SameHorizon (left right : Config crypto) : Prop where
  views : left.views = right.views
  rpz : left.rpz = right.rpz
  pool : left.pool = right.pool
  recursor : left.recursor = right.recursor
  forwards : left.forwards = right.forwards

namespace SameHorizon

theorem symm {left right : Config crypto} (same : SameHorizon left right) :
    SameHorizon right left :=
  ⟨same.views.symm, same.rpz.symm, same.pool.symm, same.recursor.symm, same.forwards.symm⟩

theorem trans {left middle right : Config crypto} (first : SameHorizon left middle)
    (second : SameHorizon middle right) : SameHorizon left right :=
  ⟨first.views.trans second.views, first.rpz.trans second.rpz, first.pool.trans second.pool,
    first.recursor.trans second.recursor, first.forwards.trans second.forwards⟩

variable {left right : Config crypto} (same : SameHorizon left right)

include same

theorem zonesFor {client : IpAddr} (viewed : ∃ view ∈ left.views, view.1.isAllowed client = true) :
    left.zonesFor client = right.zonesFor client := by
  unfold Config.zonesFor
  rw [← same.views]
  cases found : left.views.find? fun view => view.1.isAllowed client with
  | some view => rfl
  | none =>
    obtain ⟨view, member, allowed⟩ := viewed
    exact absurd allowed (List.find?_eq_none.mp found view member)

theorem canRecurse (name : DnsName) : left.canRecurse name = right.canRecurse name := by
  unfold Config.canRecurse
  rw [same.forwards, same.recursor, same.pool]

theorem openResponse (query : Message) (recursionAllowed : Bool) :
    Serve.openResponse left query recursionAllowed =
      Serve.openResponse right query recursionAllowed := by
  unfold Serve.openResponse
  rw [same.pool, same.recursor, same.forwards]

theorem complete (cache : Cache) (now : Instant) (query : Message) (recursionAllowed : Bool)
    (q : Question) (offsite : Option DnsName) (resp : Message) :
    Serve.complete left cache now query recursionAllowed q offsite resp =
      Serve.complete right cache now query recursionAllowed q offsite resp := by
  unfold Serve.complete
  simp only [same.canRecurse]

theorem resolveOther (cache : Cache) (now : Instant) (query : Message) (recursionAllowed : Bool)
    (resp : Message) (q : Question) :
    Serve.resolveOther left cache now query recursionAllowed resp q =
      Serve.resolveOther right cache now query recursionAllowed resp q := by
  unfold Serve.resolveOther
  rw [same.rpz]
  simp only [same.canRecurse]

end SameHorizon

structure Signing where
  now : UInt64
  validitySecs : UInt64
  nsec3 : Option Nsec3Params

namespace Config

def resignAt (config : Config crypto) (keys : List DnssecKey) (origins : List DnsName)
    (signing : Signing) : Option (Config crypto) :=
  config.resign keys origins signing.now signing.validitySecs signing.nsec3

/-- The material for a query: that of the default zone with the origin of the zone which
answers. -/
def materialFor (config : Config crypto) (keys : List DnssecKey) (origins : List DnsName)
    (signing : Signing) (query : Message) (zone : Zone) : Option SignedZone :=
  if query.edns.any (·.doBit) then
    (config.signedZone origins zone.origin).bind fun source =>
      SignedZone.sign crypto source keys signing.now signing.validitySecs signing.nsec3
  else none

variable {config config' : Config crypto} {keys : List DnssecKey} {origins : List DnsName}
  {signing : Signing}

theorem resignAt_horizon (done : config.resignAt keys origins signing = some config') :
    SameHorizon config config' := by
  obtain ⟨_, _, rfl⟩ := resign_ok done
  exact ⟨rfl, rfl, rfl, rfl, rfl⟩

theorem dnssecFor_resignAt (done : config.resignAt keys origins signing = some config')
    (query : Message) (zone : Zone) :
    dnssecFor config' query zone = config.materialFor keys origins signing query zone := by
  have signed : config'.signed.get? zone.origin =
      (config.signedZone origins zone.origin).bind fun source =>
        SignedZone.sign crypto source keys signing.now signing.validitySecs signing.nsec3 := by
    obtain ⟨listed, unlisted⟩ := resign_get? done zone.origin
    cases found : config.signedZone origins zone.origin with
    | none => exact unlisted found
    | some source =>
      obtain ⟨material, made, stored⟩ := listed source found
      rw [stored]
      exact made.symm
  unfold dnssecFor materialFor
  cases query.edns with
  | none => rfl
  | some edns =>
    dsimp only
    rw [signed]
    rfl

end Config

section Horizons

variable {left right left' right' : Config crypto} {keys : List DnssecKey}
  {origins : List DnsName} {signing : Signing} (same : SameHorizon left right)
  (signedLeft : left.resignAt keys origins signing = some left')
  (signedRight : right.resignAt keys origins signing = some right') {client : IpAddr}
  (viewed : ∃ view ∈ left.views, view.1.isAllowed client = true) (cache : Cache) (now : Instant)
  (query : Message) (recursionAllowed : Bool)

include same signedLeft signedRight viewed

/-- Where a zone of the view answers, the two outcomes are completed alike from its sections,
in a way that keeps these apart. -/
theorem resolveLocal_cases :
    (resolveLocal left' cache now query recursionAllowed client =
        resolveLocal right' cache now query recursionAllowed client ∧
      ∀ q zone, screenQuery query = .ok q →
        findZone (left.zonesFor client) q.qname ≠ some zone) ∨
    ∃ q zone, screenQuery query = .ok q ∧ findZone (left.zonesFor client) q.qname = some zone ∧
      ∃ finish : Sections → Outcome × Cache,
        (∀ ours theirs : Sections, finish ours = finish theirs → ours.offsite = theirs.offsite →
          ours.answers = theirs.answers ∧ ours.authorities = theirs.authorities) ∧
        resolveLocal left' cache now query recursionAllowed client =
          (sections crypto (left.materialFor keys origins signing query zone) zone q).map finish ∧
        resolveLocal right' cache now query recursionAllowed client =
          (sections crypto (right.materialFor keys origins signing query zone) zone q).map
            finish := by
  have horizon : SameHorizon left' right' :=
    ((Config.resignAt_horizon signedLeft).symm.trans same).trans
      (Config.resignAt_horizon signedRight)
  have zones : left'.zonesFor client = left.zonesFor client :=
    Config.resign_zonesFor signedLeft client
  have zones' : right'.zonesFor client = left.zonesFor client := by
    rw [Config.resign_zonesFor signedRight, same.zonesFor viewed]
  unfold resolveLocal
  rw [zones, zones']
  cases admitted : screenQuery query with
  | error resp => exact .inl ⟨rfl, fun _ _ asked => by cases asked⟩
  | ok q =>
    dsimp only
    cases found : findZone (left.zonesFor client) q.qname with
    | none =>
      dsimp only
      rw [horizon.openResponse, horizon.resolveOther]
      refine .inl ⟨rfl, fun q' zone asked => ?_⟩
      cases asked
      rw [found]
      exact (Option.some_ne_none zone).symm
    | some zone =>
      dsimp only
      have fresh := openResponse_fresh right' query recursionAllowed
      rw [horizon.openResponse, resolveZone_eq left' cache now query recursionAllowed q fresh,
        resolveZone_eq right' cache now query recursionAllowed q fresh,
        Config.dnssecFor_resignAt signedLeft, Config.dnssecFor_resignAt signedRight]
      simp only [horizon.complete]
      exact .inr ⟨q, zone, rfl, found, _, fun _ _ => complete_inj, rfl, rfl⟩

end Horizons

/-- The zone that answers has the same default zone behind it in both resolvers, or none, if
the query has the DO bit and the origin is configured. -/
def SameBehind (left right : Config crypto) (origins : List DnsName) (client : IpAddr)
    (query : Message) : Prop :=
  ∀ q zone, screenQuery query = .ok q → findZone (left.zonesFor client) q.qname = some zone →
    query.edns.any (·.doBit) = true → zone.origin ∈ origins →
      left.zoneAt zone.origin = right.zoneAt zone.origin

/-- In the left resolver alone a default zone stands behind the zone that answers, and it
holds an RRset of the name and type of one in the answer, or its SOA if the answer is
negative. -/
structure OneBehind (left right : Config crypto) (origins : List DnsName) (client : IpAddr)
    (query : Message) (q : Question) (zone source : Zone) (result : LookupResult) : Prop where
  asked : screenQuery query = .ok q
  found : findZone (left.zonesFor client) q.qname = some zone
  secured : query.edns.any (·.doBit) = true
  configured : zone.origin ∈ origins
  behind : left.zoneAt zone.origin = some source
  missing : right.zoneAt zone.origin = none
  looked : zone.lookup q.qname q.qtype = some result
  inside : q.qname = zone.origin → q.qtype ≠ typeDnskey ∧ q.qtype ≠ typeNsec3param
  held : (∃ record ∈ result.answers,
      rrsetIn source.allRecords record.name record.rtype ≠ []) ∨
    result.negative = true ∧ rrsetIn source.allRecords zone.origin typeSoa ≠ []

section Behind

variable {source zone : Zone} {keys : List DnssecKey} {signing : Signing} {material : SignedZone}
  {q : Question} {result : LookupResult}

theorem rrsigsFor_ne_nil (keyed : keys ≠ [])
    (made : SignedZone.sign crypto source keys signing.now signing.validitySecs signing.nsec3 =
      some material) {owner : DnsName} {rtype : UInt16}
    (held : rrsetIn source.allRecords owner rtype ≠ []) : rrsigsFor material owner rtype ≠ [] := by
  obtain ⟨inception, expiration, _, zsks, signedBy⟩ := sign_signedBy made
  obtain ⟨key, chosen⟩ := List.exists_mem_of_ne_nil _ (signedBy.zoneSigners.2 keyed)
  have own : ownRrset source signing.nsec3 owner rtype ≠ [] := by simp [ownRrset, held]
  obtain ⟨first, rest, set⟩ := List.exists_cons_of_ne_nil own
  obtain ⟨rrsig, signature⟩ : ∃ rrsig, signRrset key owner rtype
      (ownRrset source signing.nsec3 owner rtype) inception expiration = some rrsig := by
    rw [set]
    exact ⟨_, rfl⟩
  exact List.ne_nil_of_mem ((signedBy.setSigned owner rtype rrsig).mpr ⟨key, chosen, signature⟩)

/-- Signatures found under the origin of a zone show in its answers. -/
theorem sections_apart (looked : zone.lookup q.qname q.qtype = some result)
    (inside : q.qname = zone.origin → q.qtype ≠ typeDnskey ∧ q.qtype ≠ typeNsec3param)
    (held : (∃ record ∈ result.answers, rrsigsFor material record.name record.rtype ≠ []) ∨
      result.negative = true ∧ rrsigsFor material zone.origin typeSoa ≠ [])
    {finish : Sections → Outcome × Cache}
    (inj : ∀ ours theirs : Sections, finish ours = finish theirs → ours.offsite = theirs.offsite →
      ours.answers = theirs.answers ∧ ours.authorities = theirs.authorities) :
    (sections crypto (some material) zone q).map finish ≠
      (sections crypto none zone q).map finish := by
  have plain : apexRecords (some material) zone q = none := by
    unfold apexRecords
    dsimp only
    rw [if_neg fun apex => (inside apex.2).1 apex.1, if_neg fun apex => (inside apex.2).2 apex.1]
  have bare : apexRecords none zone q = none := rfl
  intro alike
  unfold sections at alike
  simp only [plain, bare, looked, Option.bind_eq_bind, Option.bind_some] at alike
  obtain ⟨authorities, theirs⟩ : ∃ authorities,
      denialFor crypto none zone q result = some authorities := by
    unfold denialFor
    split <;> exact ⟨_, rfl⟩
  cases ours : denialFor crypto (some material) zone q result with
  | none => simp [ours, theirs] at alike
  | some authorities' =>
    rw [ours, theirs] at alike
    obtain ⟨answers, rfl⟩ := inj _ _ (Option.some.inj alike) rfl
    rcases held with ⟨record, member, signed⟩ | ⟨negative, signed⟩
    · have unsigned := List.append_cancel_left answers
      refine signed (List.flatMap_eq_nil_iff.mp unsigned (record.name, record.rtype) ?_)
      exact (mem_firstOccurrences _ _).mpr (List.mem_map.mpr ⟨record, member, rfl⟩)
    · unfold denialFor at ours theirs
      rw [if_pos negative] at ours theirs
      cases theirs
      obtain ⟨denial, _, joined⟩ := Option.map_eq_some_iff.mp ours
      simp [signed] at joined

end Behind

/-- A client of a view is isolated from the default zones where the same one, or none, stands
behind the zone that answers.  It is not where one stands there in one resolver only and holds
what is answered. -/
theorem resolveLocal_isolated {left right left' right' : Config crypto}
    {keys : List DnssecKey} {origins : List DnsName} {signing : Signing}
    (same : SameHorizon left right) (signedLeft : left.resignAt keys origins signing = some left')
    (signedRight : right.resignAt keys origins signing = some right') {client : IpAddr}
    (viewed : ∃ view ∈ left.views, view.1.isAllowed client = true) (cache : Cache) (now : Instant)
    (query : Message) (recursionAllowed : Bool) :
    (SameBehind left right origins client query →
      resolveLocal left' cache now query recursionAllowed client =
        resolveLocal right' cache now query recursionAllowed client) ∧
    (keys ≠ [] → (∃ q zone source result,
        OneBehind left right origins client query q zone source result) →
      resolveLocal left' cache now query recursionAllowed client ≠
        resolveLocal right' cache now query recursionAllowed client) := by
  constructor
  · intro behind
    obtain ⟨alike, _⟩ | ⟨q, zone, asked, found, finish, _, ours, theirs⟩ :=
      resolveLocal_cases same signedLeft signedRight viewed cache now query recursionAllowed
    · exact alike
    rw [ours, theirs, Config.materialFor, Config.materialFor]
    by_cases secured : query.edns.any (·.doBit) = true
    · rw [if_pos secured, if_pos secured]
      by_cases configured : zone.origin ∈ origins
      · simp only [Config.signedZone, if_pos configured,
          behind q zone asked found secured configured]
      · simp only [Config.signedZone, if_neg configured, Option.bind_none]
    · rw [if_neg secured, if_neg secured]
  · rintro keyed ⟨q, zone, source, result, one⟩ alike
    obtain ⟨_, none⟩ | ⟨q', zone', asked, found, finish, inj, ours, theirs⟩ :=
      resolveLocal_cases same signedLeft signedRight viewed cache now query recursionAllowed
    · exact none q zone one.asked one.found
    cases one.asked.symm.trans asked
    cases one.found.symm.trans found
    rw [ours, theirs] at alike
    have behind : left.signedZone origins zone.origin = some source := by
      rw [Config.signedZone, if_pos one.configured, one.behind]
    have missing : right.signedZone origins zone.origin = none := by
      rw [Config.signedZone, if_pos one.configured, one.missing]
    obtain ⟨material, made, _⟩ := (Config.resign_get? signedLeft zone.origin).1 source behind
    rw [Config.materialFor, Config.materialFor, if_pos one.secured, if_pos one.secured, behind,
      missing, Option.bind_some, made, Option.bind_none] at alike
    refine sections_apart one.looked one.inside ?_ inj alike
    refine one.held.imp ?_ ?_
    · rintro ⟨record, member, held⟩
      exact ⟨record, member, rrsigsFor_ne_nil keyed made held⟩
    · rintro ⟨negative, held⟩
      exact ⟨negative, rrsigsFor_ne_nil keyed made held⟩

def everyone : Acl := ⟨[⟨.v4 (.new 0 0 0 0), 0, Nat.zero_le _⟩]⟩

def splitHorizon (zones : List Zone) : Config echoCrypto :=
  { hosting shell with zones, views := [(everyone, [shell])] }

def sampleSigning : Signing := ⟨1700000000, 1209600, none⟩

theorem splitHorizon_viewed (zones : List Zone) :
    ∃ view ∈ (splitHorizon zones).views, view.1.isAllowed loopback = true :=
  ⟨(everyone, [shell]), List.mem_singleton_self _, by decide⟩

theorem splitHorizon_signed :
    ∃ left right, (splitHorizon [shell]).resignAt [echoKey] [apexName] sampleSigning = some left ∧
      (splitHorizon []).resignAt [echoKey] [apexName] sampleSigning = some right := by
  have ours :
      ((splitHorizon [shell]).resignAt [echoKey] [apexName] sampleSigning).isSome = true := by
    decide +kernel
  have theirs : ((splitHorizon []).resignAt [echoKey] [apexName] sampleSigning).isSome = true := by
    decide +kernel
  obtain ⟨left, signedLeft⟩ := Option.isSome_iff_exists.mp ours
  obtain ⟨right, signedRight⟩ := Option.isSome_iff_exists.mp theirs
  exact ⟨left, right, signedLeft, signedRight⟩

theorem resolveLocal_isolated_plain :
    ∃ left right, (splitHorizon [shell]).resignAt [echoKey] [apexName] sampleSigning = some left ∧
      (splitHorizon []).resignAt [echoKey] [apexName] sampleSigning = some right ∧
      resolveLocal left (Cache.new 10) 0 (asking apexName typeSoa) false loopback =
        resolveLocal right (Cache.new 10) 0 (asking apexName typeSoa) false loopback := by
  obtain ⟨left, right, signedLeft, signedRight⟩ := splitHorizon_signed
  have same : SameHorizon (splitHorizon [shell]) (splitHorizon []) := ⟨rfl, rfl, rfl, rfl, rfl⟩
  have plain : (asking apexName typeSoa).edns.any (·.doBit) = false := rfl
  refine ⟨left, right, signedLeft, signedRight, ?_⟩
  refine (resolveLocal_isolated same signedLeft signedRight (splitHorizon_viewed _)
    (Cache.new 10) 0 (asking apexName typeSoa) false).1 fun q zone _ _ secured => ?_
  rw [plain] at secured
  cases secured

def answerCount (config : Config echoCrypto) : Option Nat :=
  (resolveLocal config (Cache.new 10) 0 (askingSigned apexName typeSoa) false loopback).map
    fun outcome => outcome.1.resp.answers.length

/-- With it, the answer from the zone of the view carries a signature if and only if there is
a default zone of the same origin. -/
theorem splitHorizon_leaks :
    ∃ left right, (splitHorizon [shell]).resignAt [echoKey] [apexName] sampleSigning = some left ∧
      (splitHorizon []).resignAt [echoKey] [apexName] sampleSigning = some right ∧
      SameHorizon (splitHorizon [shell]) (splitHorizon []) ∧
      (∃ view ∈ (splitHorizon [shell]).views, view.1.isAllowed loopback = true) ∧
      resolveLocal left (Cache.new 10) 0 (askingSigned apexName typeSoa) false loopback ≠
        resolveLocal right (Cache.new 10) 0 (askingSigned apexName typeSoa) false loopback := by
  obtain ⟨left, right, signedLeft, signedRight⟩ := splitHorizon_signed
  refine ⟨left, right, signedLeft, signedRight, ⟨rfl, rfl, rfl, rfl, rfl⟩, splitHorizon_viewed _,
    fun alike => ?_⟩
  have two : ((splitHorizon [shell]).resignAt [echoKey] [apexName] sampleSigning).bind answerCount =
      some 2 := by decide +kernel
  have one : ((splitHorizon []).resignAt [echoKey] [apexName] sampleSigning).bind answerCount =
      some 1 := by decide +kernel
  rw [signedLeft, Option.bind_some, answerCount, alike] at two
  rw [signedRight, Option.bind_some, answerCount, two] at one
  cases one

end Rdns.Resolver.Serve
