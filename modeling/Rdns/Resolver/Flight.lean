import Rdns.Lib.Run
import Rdns.Resolver.Cache

/-!
# Singleflight

`Singleflight` of dns-resolver: the first caller for a key gets a guard and leads,
the others get a receiver of its channel and follow.  `begin` runs under the lock of
the map; dropping a guard takes the lock once, to remove the key, and sends on the
channel afterwards, so that other calls may come in between.  A channel keeps its
value when it is sent on without a receiver left.
-/

set_option autoImplicit false

namespace Rdns.Resolver

open Rdns.Lib

/-- How far a guard is: held by its leader, in its drop after the key was removed, or
dropped. -/
inductive Stage
  | held
  | removed
  | dropped
deriving DecidableEq

structure Flight where
  key : Key
  stage : Stage
  value : Bool

structure Receiver where
  channel : Nat
  alive : Bool

/-- Guards and channels are numbered in the order they are made; the map keeps a
receiver of its own under each key. -/
structure Singleflight where
  inflight : HashMap Key Nat
  flights : List Flight
  receivers : List Receiver

inductive Role
  | leader (guard : Nat)
  | follower (receiver : Nat)

namespace Singleflight

def initial : Singleflight := ⟨HashMap.empty, [], []⟩

def begin_ (self : Singleflight) (key : Key) : Role × Singleflight :=
  match self.inflight.get? key with
  | some channel =>
    (.follower self.receivers.length,
      { self with receivers := self.receivers ++ [⟨channel, true⟩] })
  | none =>
    (.leader self.flights.length,
      { self with
        inflight := self.inflight.insert key self.flights.length
        flights := self.flights ++ [⟨key, .held, false⟩] })

/-- First half of the drop: the key is removed, whatever it maps to. -/
def removeKey (self : Singleflight) (guard : Nat) : Option Singleflight :=
  match self.flights[guard]? with
  | some flight =>
    if flight.stage = .held then
      some { self with
        inflight := self.inflight.remove flight.key
        flights := self.flights.set guard { flight with stage := .removed } }
    else none
  | none => none

def hasReceiver (self : Singleflight) (channel : Nat) : Bool :=
  self.inflight.values.contains channel ||
    self.receivers.any fun receiver => receiver.channel = channel ∧ receiver.alive

/-- Second half of the drop: `tx.send(true)`, with its result ignored. -/
def send (self : Singleflight) (guard : Nat) : Option Singleflight :=
  match self.flights[guard]? with
  | some flight =>
    if flight.stage = .removed then
      some { self with
        flights := self.flights.set guard
          { flight with
            stage := .dropped
            value := if self.hasReceiver guard then true else flight.value } }
    else none
  | none => none

def cloneReceiver (self : Singleflight) (index : Nat) : Option Singleflight :=
  match self.receivers[index]? with
  | some receiver =>
    if receiver.alive then some { self with receivers := self.receivers ++ [receiver] } else none
  | none => none

def dropReceiver (self : Singleflight) (index : Nat) : Option Singleflight :=
  match self.receivers[index]? with
  | some receiver =>
    some { self with receivers := self.receivers.set index { receiver with alive := false } }
  | none => none

inductive Action
  | begin_ (key : Key)
  | removeKey (guard : Nat)
  | send (guard : Nat)
  | cloneReceiver (index : Nat)
  | dropReceiver (index : Nat)

def step (self : Singleflight) : Action → Option Singleflight
  | .begin_ key => some (self.begin_ key).2
  | .removeKey guard => self.removeKey guard
  | .send guard => self.send guard
  | .cloneReceiver index => self.cloneReceiver index
  | .dropReceiver index => self.dropReceiver index

/-! ## The invariant -/

def Live (state : Singleflight) (guard : Nat) (key : Key) : Prop :=
  ∃ flight, state.flights[guard]? = some flight ∧ flight.key = key ∧ flight.stage = .held

def Dropped (state : Singleflight) (guard : Nat) : Prop :=
  ∃ flight, state.flights[guard]? = some flight ∧ flight.stage = .dropped

def reads (state : Singleflight) (receiver : Receiver) : Option Bool :=
  state.flights[receiver.channel]?.map Flight.value

structure Sound (state : Singleflight) : Prop where
  /-- The map leads from each key to the guard that holds it. -/
  mapped : ∀ key guard, state.inflight.get? key = some guard ↔ state.Live guard key
  known : ∀ receiver ∈ state.receivers, receiver.channel < state.flights.length
  woken : ∀ receiver ∈ state.receivers, receiver.alive = true → state.Dropped receiver.channel →
    state.reads receiver = some true

theorem initial_sound : initial.Sound where
  mapped := by
    intro key guard
    constructor
    · intro found
      cases found
    · rintro ⟨flight, found, _⟩
      cases found
  known := fun receiver member => by cases member
  woken := fun receiver member => by cases member

/-! ## Changes of one flight -/

theorem getElem?_launch (flights : List Flight) (fresh : Flight) (guard : Nat) :
    (flights ++ [fresh])[guard]? =
      if guard = flights.length then some fresh else flights[guard]? := by
  split
  · rename_i last
    rw [last, List.getElem?_concat_length]
  · rename_i other
    rcases Nat.lt_or_gt_of_ne other with inside | outside
    · exact List.getElem?_append_left inside
    · rw [List.getElem?_append_right (Nat.le_of_lt outside),
        List.getElem?_eq_none (Nat.le_of_lt outside), List.getElem?_singleton, if_neg]
      omega

theorem getElem?_advance {flights : List Flight} {guard : Nat} {flight : Flight}
    (listed : flights[guard]? = some flight) (next : Flight) (other : Nat) :
    (flights.set guard next)[other]? = if other = guard then some next else flights[other]? := by
  rw [List.getElem?_set]
  split
  · rename_i same
    rw [if_pos (List.getElem?_eq_some_iff.mp listed).1, if_pos same.symm]
  · rename_i apart
    rw [if_neg (Ne.symm apart)]

section Steps

variable {state state' : Singleflight} (sound : state.Sound)

include sound

theorem live_unique {key : Key} {first second : Nat} (live : state.Live first key)
    (live' : state.Live second key) : first = second :=
  Option.some.inj
    (((sound.mapped key first).mpr live).symm.trans ((sound.mapped key second).mpr live'))

/-- A new receiver is one of a flight that is not over, or reads what an old one reads. -/
theorem receive_sound {fresh : Receiver} (inside : fresh.channel < state.flights.length)
    (reading : fresh.alive = true → state.Dropped fresh.channel → state.reads fresh = some true) :
    { state with receivers := state.receivers ++ [fresh] : Singleflight }.Sound := by
  refine ⟨sound.mapped, fun receiver member => ?_, fun receiver member => ?_⟩
  · rcases List.mem_append.mp member with old | new
    · exact sound.known receiver old
    · rw [List.mem_singleton.mp new]
      exact inside
  · rcases List.mem_append.mp member with old | new
    · exact sound.woken receiver old
    · rw [List.mem_singleton.mp new]
      exact reading

theorem begin_sound (key : Key) : (state.begin_ key).2.Sound := by
  unfold begin_
  split
  · rename_i channel found
    obtain ⟨flight, listed, _, held⟩ := (sound.mapped key channel).mp found
    refine receive_sound sound (List.getElem?_eq_some_iff.mp listed).1 fun _ dropped => ?_
    obtain ⟨past, same, ended⟩ := dropped
    obtain rfl : flight = past := Option.some.inj (listed.symm.trans same)
    rw [held] at ended
    cases ended
  · rename_i free
    refine ⟨fun other guard => ?_, fun receiver member => ?_, fun receiver member alive => ?_⟩
    · unfold Live
      rw [HashMap.get?_insert, getElem?_launch]
      by_cases fresh : guard = state.flights.length
      · have none : state.inflight.get? other ≠ some guard := by
          intro found
          obtain ⟨flight, listed, _⟩ := (sound.mapped other guard).mp found
          rw [fresh, List.getElem?_eq_none (Nat.le_refl _)] at listed
          cases listed
        rw [if_pos fresh, fresh]
        rw [fresh] at none
        by_cases here : other = key
        · simp [here]
        · simp [here, none, Ne.symm here]
      · rw [if_neg fresh]
        by_cases here : other = key
        · have idle : ¬ state.Live guard key := by
            rw [← sound.mapped, free]
            intro found
            cases found
          rw [if_pos here, here]
          exact iff_of_false (fun same => fresh (Option.some.inj same).symm) idle
        · rw [if_neg here]
          exact sound.mapped other guard
    · dsimp only
      rw [List.length_append]
      exact Nat.lt_add_right _ (sound.known receiver member)
    · have older := Nat.ne_of_lt (sound.known receiver member)
      have same : (state.flights ++ [⟨key, .held, false⟩])[receiver.channel]? =
          state.flights[receiver.channel]? := by
        rw [getElem?_launch, if_neg older]
      unfold Dropped reads
      rw [same]
      exact sound.woken receiver member alive

theorem removeKey_sound {guard : Nat} (removed : state.removeKey guard = some state') :
    state'.Sound := by
  unfold removeKey at removed
  split at removed
  · rename_i flight listed
    split at removed
    · rename_i held
      cases removed
      have moved := getElem?_advance listed { flight with stage := .removed }
      refine ⟨fun key other => ?_, fun receiver member => ?_, fun receiver member alive => ?_⟩
      · unfold Live
        rw [HashMap.get?_remove, moved]
        by_cases own : other = guard
        · rw [if_pos own, own]
          refine iff_of_false (fun found => ?_) (by simp)
          split at found
          · cases found
          rename_i apart
          -- the map has the guard under its own key only
          obtain ⟨same, again, named, _⟩ := (sound.mapped key guard).mp found
          obtain rfl : flight = same := Option.some.inj (listed.symm.trans again)
          exact apart named.symm
        · rw [if_neg own]
          split
          · rename_i same
            refine iff_of_false (fun found => by cases found) fun live => own ?_
            rw [same] at live
            exact live_unique sound live ⟨flight, listed, rfl, held⟩
          · exact sound.mapped key other
      · dsimp only
        rw [List.length_set]
        exact sound.known receiver member
      · unfold Dropped reads
        rw [moved]
        split
        · rintro ⟨_, ⟨⟩, past⟩
          cases past
        · exact sound.woken receiver member alive
    · cases removed
  · cases removed

theorem send_sound {guard : Nat} (sent : state.send guard = some state') : state'.Sound := by
  unfold send at sent
  split at sent
  · rename_i flight listed
    split at sent
    · rename_i removed
      cases sent
      have moved := getElem?_advance listed { flight with
        stage := .dropped, value := if state.hasReceiver guard then true else flight.value }
      refine ⟨fun key other => ?_, fun receiver member => ?_, fun receiver member alive => ?_⟩
      · unfold Live
        rw [sound.mapped, moved]
        by_cases own : other = guard
        · rw [if_pos own, own]
          refine iff_of_false ?_ (by simp)
          rintro ⟨same, again, _, held⟩
          obtain rfl : flight = same := Option.some.inj (listed.symm.trans again)
          rw [removed] at held
          cases held
        · rw [if_neg own]
          rfl
      · dsimp only
        rw [List.length_set]
        exact sound.known receiver member
      · unfold Dropped reads
        rw [moved]
        split
        · rename_i own
          -- the receiver itself keeps the channel open
          have open_ : state.hasReceiver guard = true := by
            refine Bool.or_eq_true_iff.mpr (Or.inr ?_)
            exact List.any_eq_true.mpr ⟨receiver, member, by simp [own, alive]⟩
          intro _
          simp [open_]
        · exact sound.woken receiver member alive
    · cases sent
  · cases sent

theorem cloneReceiver_sound {index : Nat} (cloned : state.cloneReceiver index = some state') :
    state'.Sound := by
  unfold cloneReceiver at cloned
  split at cloned
  · rename_i receiver listed
    have member := List.mem_of_getElem? listed
    split at cloned
    · cases cloned
      exact receive_sound sound (sound.known receiver member) (sound.woken receiver member)
    · cases cloned
  · cases cloned

theorem dropReceiver_sound {index : Nat} (closed : state.dropReceiver index = some state') :
    state'.Sound := by
  unfold dropReceiver at closed
  split at closed
  · rename_i receiver listed
    cases closed
    refine ⟨sound.mapped, fun other member => ?_, fun other member alive => ?_⟩
    · rcases List.mem_or_eq_of_mem_set member with old | new
      · exact sound.known other old
      · rw [new]
        exact sound.known receiver (List.mem_of_getElem? listed)
    · rcases List.mem_or_eq_of_mem_set member with old | new
      · exact sound.woken other old alive
      · rw [new] at alive
        cases alive
  · cases closed

theorem step_sound {action : Action} (stepped : state.step action = some state') :
    state'.Sound := by
  cases action with
  | begin_ key =>
    cases stepped
    exact begin_sound sound key
  | removeKey guard => exact removeKey_sound sound stepped
  | send guard => exact send_sound sound stepped
  | cloneReceiver index => exact cloneReceiver_sound sound stepped
  | dropReceiver index => exact dropReceiver_sound sound stepped

end Steps

/-! ## Every schedule -/

theorem run_sound {actions : List Action} {last : Singleflight}
    (run : Run (Steps step) initial actions last) : last.Sound :=
  run.invariant (fun _ _ _ sound stepped => step_sound sound stepped) initial_sound

/-- Exclusion and wake-up: in every schedule a key has at most one live guard, the map
has exactly the keys of the live guards, and whoever holds a receiver of a dropped
guard reads true.  So a free key is led by the next caller, and a caller follows only
a flight that is not over. -/
theorem run_exclusive {actions : List Action} {last : Singleflight}
    (run : Run (Steps step) initial actions last) :
    (∀ key first second, last.Live first key → last.Live second key → first = second) ∧
    (∀ key, last.inflight.containsKey key = true ↔ ∃ guard, last.Live guard key) ∧
    (∀ receiver ∈ last.receivers, receiver.alive = true → last.Dropped receiver.channel →
      last.reads receiver = some true) ∧
    (∀ key, (∀ guard, ¬ last.Live guard key) → ∃ guard, (last.begin_ key).1 = .leader guard) ∧
    ∀ key index, (last.begin_ key).1 = .follower index →
      ∃ receiver, (last.begin_ key).2.receivers[index]? = some receiver ∧
        last.Live receiver.channel key := by
  have sound := run_sound run
  refine ⟨fun key first second => live_unique sound, fun key => ?_, sound.woken,
    fun key free => ?_, fun key index follows => ?_⟩
  · rw [HashMap.containsKey, Option.isSome_iff_exists]
    exact exists_congr fun guard => sound.mapped key guard
  · unfold begin_
    split
    · rename_i channel found
      exact absurd ((sound.mapped key channel).mp found) (free channel)
    · exact ⟨_, rfl⟩
  · unfold begin_ at follows ⊢
    split at follows
    · rename_i channel found
      cases follows
      exact ⟨_, List.getElem?_concat_length, (sound.mapped key channel).mp found⟩
    · cases follows

def sampleSchedule : List Action :=
  [.begin_ ⟨.root, 1⟩, .begin_ ⟨.root, 1⟩, .removeKey 0, .begin_ ⟨.root, 1⟩, .send 0]

/-- The follower of the first reads true although its key is taken again. -/
theorem run_exclusive_sample :
    ∃ last, Run (Steps step) initial sampleSchedule last ∧ last.Live 1 ⟨.root, 1⟩ ∧
      ∃ receiver ∈ last.receivers, last.reads receiver = some true := by
  have reached : exec step sampleSchedule initial =
      some ⟨HashMap.empty.insert ⟨.root, 1⟩ 1,
        [⟨⟨.root, 1⟩, .dropped, true⟩, ⟨⟨.root, 1⟩, .held, false⟩],
        [⟨0, true⟩]⟩ := rfl
  have run := run_of_exec reached
  obtain ⟨_, _, woken, _⟩ := run_exclusive run
  exact ⟨_, run, ⟨_, rfl, rfl, rfl⟩, ⟨0, true⟩, List.mem_cons_self,
    woken ⟨0, true⟩ List.mem_cons_self rfl ⟨_, rfl, rfl⟩⟩

end Singleflight

end Rdns.Resolver
