import Rdns.Lib.HashMap
import Rdns.Proto.Message

/-!
# The response cache

`Cache` of dns-cache: entries live for the smallest TTL of their records, denials
for what their SOA allows, and stay for a day after that to be served stale.  Time
is counted in nanoseconds from some fixed instant.
-/

set_option autoImplicit false

namespace Rdns.Resolver

open Rdns.Lib Rdns.Proto

abbrev Instant := Nat

def nanosPerSec : Nat := 1000000000

def fromSecs (secs : Nat) : Nat := secs * nanosPerSec

def maxPositiveTtl : UInt32 := 86400

def maxNegativeTtl : UInt32 := 3600

def defaultNegativeTtl : UInt32 := 60

def staleWindow : Nat := fromSecs (24 * 3600)

def staleTtl : UInt32 := 30

structure Key where
  qname : DnsName
  qtype : UInt16
deriving DecidableEq

structure Entry where
  rcode : UInt8
  answers : List Record
  authorities : List Record
  secure : Bool
  stored : Instant
  expires : Instant

structure Hit where
  rcode : UInt8
  answers : List Record
  authorities : List Record
  secure : Bool

structure Cache where
  inner : HashMap Key Entry
  maxEntries : Nat

namespace Cache

def new (maxEntries : Nat) : Cache := ⟨HashMap.empty, max maxEntries 1⟩

def adjust (elapsed : UInt32) (record : Record) : Record :=
  { record with ttl := max (if record.ttl < elapsed then 0 else record.ttl - elapsed) 1 }

/-- An expired entry stays for the stale window; past it the probe removes it. -/
def get (cache : Cache) (key : Key) (now : Instant) : Option Hit × Cache :=
  match cache.inner.get? key with
  | none => (none, cache)
  | some entry =>
    if entry.expires > now then
      let elapsed := UInt32.ofNat ((now - entry.stored) / nanosPerSec)
      (some ⟨entry.rcode, entry.answers.map (adjust elapsed),
        entry.authorities.map (adjust elapsed), entry.secure⟩, cache)
    else if now > entry.expires + staleWindow then
      (none, { cache with inner := cache.inner.remove key })
    else (none, cache)

/-- An expired entry within the stale window, for upstream outages. -/
def getStale (cache : Cache) (key : Key) (now : Instant) : Option Hit :=
  match cache.inner.get? key with
  | none => none
  | some entry =>
    if now ≤ entry.expires ∨ now > entry.expires + staleWindow then none
    else
      let adjust := fun record : Record => { record with ttl := staleTtl }
      some ⟨entry.rcode, entry.answers.map adjust, entry.authorities.map adjust, entry.secure⟩

/-- How long a response may be kept: none for other rcodes and for a TTL of zero. -/
def ttlOf (rcode : UInt8) (answers authorities : List Record) : Option UInt32 :=
  if rcode ≠ rcodeNoerror ∧ rcode ≠ rcodeNxdomain then none
  else
    let ttl : UInt32 :=
      if answers.isEmpty then
        let soaTtl := authorities.findSome? fun record =>
          match record.rdata with
          | .soa soa => some (min soa.minimum record.ttl)
          | _ => none
        min (soaTtl.getD defaultNegativeTtl) maxNegativeTtl
      else min ((answers.map fun record => record.ttl).min?.getD 0) maxPositiveTtl
    if ttl = 0 then none else some ttl

/-- Room for a new key in a full cache: entries past the stale window go, and if it is
still full, the first tenth in iteration order. -/
def shed (cache : Cache) (now : Instant) : HashMap Key Entry :=
  let live := cache.inner.retain fun _ entry => now ≤ entry.expires + staleWindow
  if live.len ≥ cache.maxEntries then
    (live.keys.take (cache.maxEntries / 10 + 1)).foldl HashMap.remove live
  else live

def insert (cache : Cache) (key : Key) (rcode : UInt8) (answers authorities : List Record)
    (secure : Bool) (now : Instant) : Cache :=
  match ttlOf rcode answers authorities with
  | none => cache
  | some ttl =>
    let entry := ⟨rcode, answers, authorities, secure, now, now + fromSecs ttl.toNat⟩
    let inner :=
      if cache.inner.len ≥ cache.maxEntries ∧ ¬ cache.inner.containsKey key then cache.shed now
      else cache.inner
    { cache with inner := inner.insert key entry }

variable {cache : Cache} {key : Key} {now : Instant} {entry : Entry}

theorem get?_of_get {cache' : Cache} {other : Key} {hit : Option Hit}
    (probed : cache.get key now = (hit, cache')) (found : cache'.inner.get? other = some entry) :
    cache.inner.get? other = some entry := by
  unfold get at probed
  split at probed
  · cases probed
    exact found
  split at probed
  · cases probed
    exact found
  split at probed
  · cases probed
    rw [HashMap.get?_remove] at found
    split at found
    · cases found
    · exact found
  · cases probed
    exact found

variable {hit : Hit}

theorem get_fresh (found : (cache.get key now).1 = some hit) :
    ∃ entry, cache.inner.get? key = some entry ∧ now < entry.expires ∧
      hit = ⟨entry.rcode,
        entry.answers.map (adjust (UInt32.ofNat ((now - entry.stored) / nanosPerSec))),
        entry.authorities.map (adjust (UInt32.ofNat ((now - entry.stored) / nanosPerSec))),
        entry.secure⟩ := by
  unfold get at found
  split at found
  · cases found
  rename_i entry stored
  split at found
  · rename_i fresh
    cases found
    exact ⟨entry, stored, fresh, rfl⟩
  · split at found <;> cases found

theorem get_hit (found : (cache.get key now).1 = some hit) :
    ∃ entry elapsed, cache.inner.get? key = some entry ∧
      hit = ⟨entry.rcode, entry.answers.map (adjust elapsed),
        entry.authorities.map (adjust elapsed), entry.secure⟩ := by
  obtain ⟨entry, stored, _, same⟩ := get_fresh found
  exact ⟨entry, _, stored, same⟩

theorem getStale_hit (found : cache.getStale key now = some hit) :
    ∃ entry, cache.inner.get? key = some entry ∧ hit.secure = entry.secure ∧
      hit.answers = entry.answers.map fun record => { record with ttl := staleTtl } := by
  unfold getStale at found
  split at found
  · cases found
  rename_i entry stored
  split at found
  · cases found
  · cases found
    exact ⟨entry, stored, rfl, rfl⟩

theorem get?_of_shed (cache : Cache) (now : Instant) (key : Key)
    (found : (cache.shed now).get? key = some entry) : cache.inner.get? key = some entry := by
  have live : ∀ {map : HashMap Key Entry} {keep : Key → Entry → Bool},
      (map.retain keep).get? key = some entry → map.get? key = some entry := by
    intro map keep kept
    rw [HashMap.get?_retain] at kept
    exact (Option.filter_eq_some_iff.mp kept).1
  simp only [shed] at found
  split at found
  · exact live (HashMap.get?_of_removeAll found)
  · exact live found

theorem get?_of_insert (cache : Cache) (key other : Key) (rcode : UInt8)
    (answers authorities : List Record) (secure : Bool) (now : Instant)
    (found : (cache.insert key rcode answers authorities secure now).inner.get? other =
      some entry) :
    (other = key ∧ (ttlOf rcode answers authorities).isSome = true ∧ entry.rcode = rcode ∧
      entry.answers = answers ∧ entry.authorities = authorities ∧ entry.secure = secure) ∨
    (cache.inner.get? other = some entry ∧
      (other = key → ttlOf rcode answers authorities = none)) := by
  unfold insert at found
  cases lifetime : ttlOf rcode answers authorities with
  | none =>
    rw [lifetime] at found
    exact .inr ⟨found, fun _ => rfl⟩
  | some ttl =>
    rw [lifetime] at found
    simp only [HashMap.get?_insert] at found
    by_cases same : other = key
    · rw [if_pos same] at found
      cases found
      exact .inl ⟨same, rfl, rfl, rfl, rfl, rfl⟩
    rw [if_neg same] at found
    refine .inr ⟨?_, fun equal => absurd equal same⟩
    split at found
    · exact get?_of_shed cache now other found
    · exact found

end Cache

end Rdns.Resolver
