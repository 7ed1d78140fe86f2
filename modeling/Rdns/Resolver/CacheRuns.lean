import Rdns.Lib.Run
import Rdns.Resolver.Cache

/-!
# Runs of the cache

Any sequence of insertions and probes on one cache, at times that do not go back.
The iteration order of the hash table is chosen anew before every call, so that the
victims of an eviction are arbitrary.  What the cache holds is compared with the map
of the last accepted insertions, which loses nothing and forgets no key.
-/

set_option autoImplicit false

namespace Rdns.Resolver

open Rdns.Lib Rdns.Proto

namespace Cache

variable {cache cache' : Cache}

/-! ## Calls -/

inductive Call
  | insert (key : Key) (rcode : UInt8) (answers authorities : List Record) (secure : Bool)
  | get (key : Key)
  | getStale (key : Key)

structure Event where
  now : Instant
  call : Call
  hit : Option Hit

def perform (cache : Cache) (now : Instant) : Call → Option Hit × Cache
  | .insert key rcode answers authorities secure =>
    (none, cache.insert key rcode answers authorities secure now)
  | .get key => cache.get key now
  | .getStale key => (cache.getStale key now, cache)

def Reordered (cache shuffled : Cache) : Prop :=
  shuffled.inner.entries.Perm cache.inner.entries ∧ shuffled.maxEntries = cache.maxEntries

def Performs (cache : Cache) (event : Event) (cache' : Cache) : Prop :=
  ∃ shuffled, cache.Reordered shuffled ∧
    shuffled.perform event.now event.call = (event.hit, cache')

/-! ## What was inserted last -/

def acceptedEntry (key : Key) (event : Event) : Option Entry :=
  match event.call with
  | .insert inserted rcode answers authorities secure =>
    if inserted = key then
      (ttlOf rcode answers authorities).map fun ttl =>
        ⟨rcode, answers, authorities, secure, event.now, event.now + fromSecs ttl.toNat⟩
    else none
  | _ => none

def lastAccepted (events : List Event) (key : Key) : Option Entry :=
  events.reverse.findSome? (acceptedEntry key)

theorem lastAccepted_snoc (events : List Event) (event : Event) (key : Key) :
    lastAccepted (events ++ [event]) key =
      (acceptedEntry key event).or (lastAccepted events key) := by
  unfold lastAccepted
  rw [List.reverse_append, List.reverse_singleton, List.singleton_append, List.findSome?_cons]
  cases acceptedEntry key event <;> rfl

theorem lastAccepted_made {events : List Event} {key : Key} {entry : Entry}
    (last : lastAccepted events key = some entry) :
    ∃ event ∈ events, entry.stored = event.now ∧
      ∃ ttl, ttlOf entry.rcode entry.answers entry.authorities = some ttl ∧
        entry.expires = entry.stored + fromSecs ttl.toNat := by
  obtain ⟨event, member, made⟩ := List.exists_of_findSome?_eq_some last
  refine ⟨event, List.mem_reverse.mp member, ?_⟩
  unfold acceptedEntry at made
  split at made
  · split at made
    · obtain ⟨ttl, lifetime, rfl⟩ := Option.map_eq_some_iff.mp made
      exact ⟨rfl, ttl, lifetime, rfl⟩
    · cases made
  · cases made

/-! ## One call -/

def room (cache : Cache) (key : Key) (now : Instant) : HashMap Key Entry :=
  if cache.inner.len ≥ cache.maxEntries ∧ ¬ cache.inner.containsKey key then cache.shed now
  else cache.inner

variable {event : Event}

/-- A call drops at most the entry it looked at, or it puts one in. -/
theorem perform_cases (performed : cache.perform event.now event.call = (event.hit, cache')) :
    ((∀ key, acceptedEntry key event = none) ∧
      (cache' = cache ∨ ∃ key, cache' = { cache with inner := cache.inner.remove key })) ∨
    ∃ key entry, acceptedEntry key event = some entry ∧
      (∀ other, other ≠ key → acceptedEntry other event = none) ∧
      cache' = { cache with inner := (cache.room key event.now).insert key entry } := by
  obtain ⟨now, call, hit⟩ := event
  have after : cache' = (cache.perform now call).2 := (congrArg Prod.snd performed).symm
  cases call with
  | insert key rcode answers authorities secure =>
    change cache' = cache.insert key rcode answers authorities secure now at after
    unfold insert at after
    cases lifetime : ttlOf rcode answers authorities with
    | none =>
      rw [lifetime] at after
      refine Or.inl ⟨fun other => ?_, Or.inl after⟩
      simp [acceptedEntry, lifetime]
    | some ttl =>
      rw [lifetime] at after
      refine Or.inr ⟨key, _, ?_, fun other apart => ?_, after⟩
      · simp [acceptedEntry, lifetime]
      · simp [acceptedEntry, Ne.symm apart]
  | get key =>
    refine Or.inl ⟨fun _ => rfl, ?_⟩
    change cache' = (cache.get key now).2 at after
    unfold get at after
    split at after
    · exact Or.inl after
    dsimp only at after
    split at after
    · exact Or.inl after
    · split at after
      · exact Or.inr ⟨key, after⟩
      · exact Or.inl after
  | getStale key => exact Or.inl ⟨fun _ => rfl, Or.inl after⟩

theorem perform_maxEntries (performed : cache.perform event.now event.call = (event.hit, cache')) :
    cache'.maxEntries = cache.maxEntries := by
  rcases perform_cases performed with ⟨_, rfl | ⟨key, rfl⟩⟩ | ⟨key, entry, _, _, rfl⟩ <;> rfl

theorem room_below {full : Key → Option Entry} (key : Key) (now : Instant)
    (below : cache.inner.Below full) : (cache.room key now).Below full := by
  unfold room shed
  split
  · dsimp only
    split
    · exact (below.retain _).removeAll _
    · exact below.retain _
  · exact below

/-- Whatever is kept is what was inserted last. -/
theorem perform_below {past : List Event} (below : cache.inner.Below (lastAccepted past))
    (performed : cache.perform event.now event.call = (event.hit, cache')) :
    cache'.inner.Below (lastAccepted (past ++ [event])) := by
  rcases perform_cases performed with ⟨nothing, after⟩ | ⟨key, entry, made, others, rfl⟩
  · have same : lastAccepted (past ++ [event]) = lastAccepted past := by
      funext key
      rw [lastAccepted_snoc, nothing key, Option.none_or]
    rw [same]
    rcases after with rfl | ⟨key, rfl⟩
    · exact below
    · exact below.remove key
  · refine (room_below key event.now below).insert ?_ fun other apart => ?_
    · rw [lastAccepted_snoc, made, Option.some_or]
    · rw [lastAccepted_snoc, others other apart, Option.none_or]

theorem len_room (positive : 0 < cache.maxEntries) (bounded : cache.inner.len ≤ cache.maxEntries)
    (key : Key) (now : Instant) :
    (cache.room key now).len ≤ cache.maxEntries ∧
      ((cache.room key now).containsKey key = false →
        (cache.room key now).len < cache.maxEntries) := by
  have shed : (cache.shed now).len < cache.maxEntries := by
    have live := HashMap.len_retain_le cache.inner
      fun _ entry => decide (now ≤ entry.expires + staleWindow)
    unfold Cache.shed
    dsimp only
    generalize cache.inner.retain _ = kept at live ⊢
    split
    · rename_i full
      -- still full, so there is a first victim
      have some : 0 < kept.keys.length := by
        rw [HashMap.length_keys]
        omega
      obtain ⟨first, rest, keys⟩ := List.exists_cons_of_length_pos some
      have present : kept.containsKey first = true := by
        rw [HashMap.containsKey_iff, keys]
        exact List.mem_cons_self
      rw [keys, List.take_succ_cons, List.foldl_cons]
      have fewer := HashMap.len_removeAll_le (rest.take (cache.maxEntries / 10)) (kept.remove first)
      rw [HashMap.len_remove, if_pos present] at fewer
      omega
    · omega
  unfold room
  split
  · exact ⟨Nat.le_of_lt shed, fun _ => shed⟩
  rename_i space
  refine ⟨bounded, fun absent => ?_⟩
  have notFull : ¬ cache.inner.len ≥ cache.maxEntries := fun full =>
    space ⟨full, by simp [absent]⟩
  omega

theorem perform_bounded (positive : 0 < cache.maxEntries)
    (bounded : cache.inner.len ≤ cache.maxEntries)
    (performed : cache.perform event.now event.call = (event.hit, cache')) :
    cache'.inner.len ≤ cache'.maxEntries := by
  rcases perform_cases performed with ⟨_, rfl | ⟨key, rfl⟩⟩ | ⟨key, entry, _, _, rfl⟩
  · exact bounded
  · dsimp only
    rw [HashMap.len_remove]
    split <;> omega
  · obtain ⟨fits, free⟩ := len_room positive bounded key event.now
    dsimp only
    rw [HashMap.len_insert]
    split
    · exact fits
    · rename_i absent
      exact free (by simpa using absent)

/-! ## Fresh hits -/

def aged (secs : Nat) (record : Record) : Record :=
  { record with ttl := UInt32.ofNat (record.ttl.toNat - secs) }

structure FreshHit (entry : Entry) (now : Instant) (hit : Hit) : Prop where
  rcode : hit.rcode = entry.rcode
  secure : hit.secure = entry.secure
  /-- Every TTL is the inserted one less the whole seconds spent in the cache. -/
  answers : hit.answers = entry.answers.map (aged ((now - entry.stored) / nanosPerSec))
  /-- None of them has run out. -/
  alive : ∀ record ∈ entry.answers, (now - entry.stored) / nanosPerSec + 1 ≤ record.ttl.toNat
  authorities : hit.authorities.map (fun record => { record with ttl := 0 }) =
    entry.authorities.map fun record => { record with ttl := 0 }

theorem ttlOf_le {rcode : UInt8} {answers authorities : List Record} {ttl : UInt32}
    (lifetime : ttlOf rcode answers authorities = some ttl) :
    ∀ record ∈ answers, ttl.toNat ≤ record.ttl.toNat := by
  have smaller : ∀ left right : UInt32, (min left right).toNat = min left.toNat right.toNat := by
    intro left right
    change UInt32.toNat (if left ≤ right then left else right) = _
    split
    · rename_i ordered
      exact (Nat.min_eq_left (UInt32.le_iff_toNat_le.mp ordered)).symm
    · rename_i ordered
      have above := UInt32.lt_iff_toNat_lt.mp (UInt32.not_le.mp ordered)
      exact (Nat.min_eq_right (Nat.le_of_lt above)).symm
  unfold ttlOf at lifetime
  split at lifetime
  · cases lifetime
  dsimp only at lifetime
  split at lifetime
  · rename_i none
    split at lifetime
    · cases lifetime
    · cases lifetime
      intro record member
      rw [List.isEmpty_iff.mp none] at member
      cases member
  · split at lifetime
    · cases lifetime
    · cases lifetime
      intro record member
      rw [smaller]
      cases least : (answers.map fun record => record.ttl).min? with
      | none =>
        rw [List.min?_eq_none_iff, List.map_eq_nil_iff] at least
        rw [least] at member
        cases member
      | some low =>
        have lower : low ≤ record.ttl :=
          (List.min?_eq_some_iff.mp least).2 _ (List.mem_map_of_mem member)
        have lower := UInt32.le_iff_toNat_le.mp lower
        rw [Option.getD_some]
        omega

/-- Within the TTL the clamp to one second is never reached. -/
theorem adjust_eq_aged {secs : Nat} {record : Record} (alive : secs + 1 ≤ record.ttl.toNat) :
    adjust (UInt32.ofNat secs) record = aged secs record := by
  have range := record.ttl.toNat_lt
  have exact : (UInt32.ofNat secs).toNat = secs := by
    rw [UInt32.toNat_ofNat']
    omega
  have notLess : ¬ record.ttl < UInt32.ofNat secs := by
    rw [UInt32.lt_iff_toNat_lt, exact]
    omega
  have rest : (record.ttl - UInt32.ofNat secs).toNat = record.ttl.toNat - secs := by
    rw [UInt32.toNat_sub_of_le _ _ (UInt32.not_lt.mp notLess), exact]
  have positive : ¬ record.ttl - UInt32.ofNat secs ≤ 1 ∨ record.ttl - UInt32.ofNat secs = 1 := by
    by_cases one : record.ttl - UInt32.ofNat secs = 1
    · exact Or.inr one
    refine Or.inl fun small => one (UInt32.toNat_inj.mp ?_)
    have bound := UInt32.le_iff_toNat_le.mp small
    rw [rest] at bound ⊢
    change record.ttl.toNat - secs ≤ 1 at bound
    change record.ttl.toNat - secs = 1
    omega
  have clamp : max (record.ttl - UInt32.ofNat secs) 1 = record.ttl - UInt32.ofNat secs := by
    change (if record.ttl - UInt32.ofNat secs ≤ 1 then 1 else record.ttl - UInt32.ofNat secs) = _
    rcases positive with more | one
    · rw [if_neg more]
    · rw [one]
      rfl
  rw [adjust, aged, if_neg notLess, clamp]
  congr 1
  apply UInt32.toNat_inj.mp
  rw [rest, UInt32.toNat_ofNat']
  omega

theorem freshHit_of_get {key : Key} {now : Instant} {hit : Hit} {entry : Entry}
    (found : (cache.get key now).1 = some hit) (held : cache.inner.get? key = some entry)
    (after : entry.stored ≤ now) {ttl : UInt32}
    (lifetime : ttlOf entry.rcode entry.answers entry.authorities = some ttl)
    (expires : entry.expires = entry.stored + fromSecs ttl.toNat) :
    now < entry.stored + fromSecs ttl.toNat ∧ FreshHit entry now hit := by
  obtain ⟨stored, present, fresh, rfl⟩ := get_fresh found
  obtain rfl : stored = entry := Option.some.inj (present.symm.trans held)
  rw [expires] at fresh
  have alive : ∀ record ∈ stored.answers,
      (now - stored.stored) / nanosPerSec + 1 ≤ record.ttl.toNat := by
    intro record member
    have bound := ttlOf_le lifetime record member
    have inside : (now - stored.stored) / nanosPerSec < ttl.toNat := by
      refine (Nat.div_lt_iff_lt_mul (by decide)).mpr ?_
      exact Nat.sub_lt_left_of_lt_add after fresh
    exact Nat.le_trans inside bound
  refine ⟨fresh, rfl, rfl, ?_, alive, ?_⟩
  · exact List.map_congr_left fun record member => adjust_eq_aged (alive record member)
  · rw [List.map_map]
    rfl

/-! ## Whole runs -/

theorem run_below {past events : List Event} {first last : Cache}
    (run : Run Performs first events last) (positive : 0 < first.maxEntries)
    (bounded : first.inner.len ≤ first.maxEntries)
    (below : first.inner.Below (lastAccepted past)) :
    last.maxEntries = first.maxEntries ∧ last.inner.len ≤ last.maxEntries ∧
      last.inner.Below (lastAccepted (past ++ events)) := by
  induction run generalizing past with
  | done cache =>
    rw [List.append_nil]
    exact ⟨rfl, bounded, below⟩
  | @next first middle last event events head _ ih =>
    obtain ⟨shuffled, ⟨order, limit⟩, performed⟩ := head
    have size : shuffled.inner.len ≤ shuffled.maxEntries := by
      rw [limit]
      exact Nat.le_trans (Nat.le_of_eq order.length_eq) bounded
    rw [← limit] at positive
    have kept := perform_maxEntries performed
    obtain ⟨same, fits, exact⟩ := ih (by rw [kept]; exact positive)
      (perform_bounded positive size performed) (perform_below (below.of_perm order) performed)
    rw [List.append_assoc] at exact
    exact ⟨same.trans (kept.trans limit), fits, exact⟩

/-- The cache is a bounded map of what was inserted last, and a hit is a fresh part of
it. -/
theorem run_fresh (maxEntries : Nat) {events : List Event} {last : Cache}
    (run : Run Performs (Cache.new maxEntries) events last)
    (clock : events.Pairwise fun earlier later => earlier.now ≤ later.now) :
    last.inner.len ≤ max 1 maxEntries ∧
      ∀ before event after key hit, events = before ++ event :: after →
        event.call = .get key → event.hit = some hit →
        ∃ entry ttl, lastAccepted before key = some entry ∧
          ttlOf entry.rcode entry.answers entry.authorities = some ttl ∧
          entry.stored ≤ event.now ∧ event.now < entry.stored + fromSecs ttl.toNat ∧
          FreshHit entry event.now hit := by
  have positive : 0 < (Cache.new maxEntries).maxEntries := Nat.lt_of_lt_of_le Nat.one_pos
    (Nat.le_max_right maxEntries 1)
  have start : (Cache.new maxEntries).inner.Below (lastAccepted []) := .empty _
  refine ⟨?_, ?_⟩
  · obtain ⟨limit, fits, _⟩ := run_below run positive (Nat.zero_le _) start
    rw [limit] at fits
    rw [Nat.max_comm]
    exact fits
  · rintro before event after key hit rfl called returned
    obtain ⟨middle, early, late⟩ := Run.split run
    obtain ⟨_, _, below⟩ := run_below early positive (Nat.zero_le _) start
    rw [List.nil_append] at below
    cases late with
    | next head tail =>
      obtain ⟨shuffled, ⟨order, _⟩, performed⟩ := head
      have probed : (shuffled.get key event.now).1 = some hit := by
        rw [called] at performed
        exact (congrArg Prod.fst performed).trans returned
      obtain ⟨entry, held, _⟩ := get_fresh probed
      have accepted := (below.of_perm order) key entry held
      obtain ⟨inserted, member, time, ttl, lifetime, expires⟩ := lastAccepted_made accepted
      have later : entry.stored ≤ event.now := by
        rw [time]
        exact (List.pairwise_append.mp clock).2.2 inserted member event List.mem_cons_self
      obtain ⟨fresh, same⟩ := freshHit_of_get probed held later lifetime expires
      exact ⟨entry, ttl, accepted, lifetime, later, fresh, same⟩

def answered (cache : Cache) (now : Instant) (call : Call) : Event :=
  ⟨now, call, (cache.perform now call).1⟩

theorem performs_answered (cache : Cache) (now : Instant) (call : Call) :
    Performs cache (cache.answered now call) (cache.perform now call).2 :=
  ⟨cache, ⟨.refl _, rfl⟩, rfl⟩

def sampleInsert : Call :=
  .insert ⟨.root, typeA⟩ rcodeNoerror [⟨.root, classIn, 60, .a (.new 10 0 0 1)⟩] [] true

theorem run_fresh_sample :
    ∃ inserted probed last hit entry, Run Performs (Cache.new 2) [inserted, probed] last ∧
      last.inner.len ≤ 2 ∧ inserted.call = sampleInsert ∧ probed.hit = some hit ∧
      lastAccepted [inserted] ⟨.root, typeA⟩ = some entry ∧ FreshHit entry (fromSecs 30) hit := by
  generalize filledEq : ((Cache.new 2).perform 0 sampleInsert).2 = filled
  have returned : (filled.perform (fromSecs 30) (.get ⟨.root, typeA⟩)).1.isSome = true := by
    rw [← filledEq]
    decide +kernel
  obtain ⟨hit, returned⟩ := Option.isSome_iff_exists.mp returned
  have run : Run Performs (Cache.new 2)
      [(Cache.new 2).answered 0 sampleInsert, filled.answered (fromSecs 30) (.get ⟨.root, typeA⟩)]
      (filled.perform (fromSecs 30) (.get ⟨.root, typeA⟩)).2 := by
    refine .next (performs_answered _ 0 sampleInsert) ?_
    rw [filledEq]
    exact .next (performs_answered filled _ _) (.done _)
  obtain ⟨bound, fresh⟩ := run_fresh 2 run
    (List.pairwise_pair.mpr (Nat.zero_le _))
  obtain ⟨entry, _, accepted, _, _, _, same⟩ :=
    fresh [(Cache.new 2).answered 0 sampleInsert] _ [] _ hit rfl rfl returned
  exact ⟨_, _, _, hit, entry, run, bound, rfl, returned, accepted, same⟩

end Cache

end Rdns.Resolver
