import Rdns.Xfr.Axfr

/-!
# What a keyed secondary accepts

`axfr_pull` with a key against a peer that may send anything.  A message is verified
only if it carries a TSIG, and a message without one is not part of what the next MAC
covers.  So whether what was accepted is authentic is up to the peer: it is exactly when
every message that something was collected from carries a TSIG.
-/

set_option autoImplicit false

namespace Rdns.Xfr

open Rdns.Lib Rdns.Proto Rdns.Zones Rdns.Tsig

variable {msg : Message} {now : UInt64} {mac : Bytes}

/-! ## Provenance -/

def progress (state : Nat × List Record) (arrival : Arrival) : Nat × List Record :=
  (seenAfter state.1 arrival.answers, state.2 ++ kept state.1 arrival.answers)

def progressAfter (arrivals : List Arrival) : Nat × List Record :=
  arrivals.foldl progress (0, [])

def contribution (before : List Arrival) (arrival : Arrival) : List Record :=
  kept (progressAfter before).1 arrival.answers

def Arrival.Signed (arrival : Arrival) : Prop :=
  ∃ msg, Message.parse arrival.1 = .ok msg ∧ msg.tsig.isSome = true

section Chain

variable (hmac : Hmac) (key : TsigKey)

def Verifies (priorMac : Bytes) (arrival : Arrival) : Prop :=
  ∃ msg mac, Message.parse arrival.1 = .ok msg ∧
    verify hmac msg arrival.1 (keyringOf (some key)) arrival.2 (some priorMac) = .ok mac

/-- The MAC of a message that verifies is the next link. -/
def linkMac (priorMac : Bytes) (arrival : Arrival) : Bytes :=
  match Message.parse arrival.1 with
  | .error _ => priorMac
  | .ok msg =>
    match verify hmac msg arrival.1 (keyringOf (some key)) arrival.2 (some priorMac) with
    | .ok mac => mac
    | .error _ => priorMac

def macAfter (requestMac : Bytes) (arrivals : List Arrival) : Bytes :=
  arrivals.foldl (linkMac hmac key) requestMac

/-- The zone is what the messages contributed, every message that contributed is a link of
the chain from the request's MAC, and there is such a link, which a peer without the key
cannot make.  Messages between two links are covered by neither MAC. -/
structure Authenticated (requestMac : Bytes) (arrivals : List Arrival) (zone : Zone) : Prop where
  collected : (stored zone.records).Perm (progressAfter arrivals).2
  linked : ∀ before arrival after, arrivals = before ++ arrival :: after →
    contribution before arrival ≠ [] →
    Verifies hmac key (macAfter hmac key requestMac before) arrival
  proven : ∃ before signed after, arrivals = before ++ signed :: after ∧
    Verifies hmac key (macAfter hmac key requestMac before) signed

end Chain

def Sealed (arrivals : List Arrival) : Prop :=
  ∀ before arrival after, arrivals = before ++ arrival :: after → contribution before arrival ≠ [] →
    arrival.Signed

/-! ## Rounds -/

variable {hmac : Hmac} {key : TsigKey} {id : UInt16}

theorem verify_tsig {raw : Bytes} {keyring : KeyRing} {priorMac : Option Bytes}
    (verified : verify hmac msg raw keyring now priorMac = .ok mac) : msg.tsig.isSome = true := by
  cases carried : msg.tsig with
  | some tsig => rfl
  | none =>
    rw [verify, carried] at verified
    cases verified

/-- With a key the round verifies what carries a TSIG, and chains on it. -/
theorem takes_chain {pull pull' : Pull} {arrival : Arrival}
    (taken : Takes hmac (some key) id pull arrival pull') :
    (arrival.Signed ↔ Verifies hmac key pull.priorMac arrival) ∧
      pull'.priorMac = linkMac hmac key pull.priorMac arrival := by
  obtain ⟨msg, mac, parsed, chained, rfl⟩ := takeMessage_eq_ok taken
  rw [linkMac, parsed]
  dsimp only
  unfold Pull.chainMac at chained
  cases verified : verify hmac msg arrival.1 (keyringOf (some key)) arrival.2
      (some pull.priorMac) with
  | ok found =>
    have carried := verify_tsig verified
    rw [if_pos (by simp [carried]), verified] at chained
    cases chained
    exact ⟨⟨fun _ => ⟨msg, _, parsed, verified⟩, fun _ => ⟨msg, parsed, carried⟩⟩, rfl⟩
  | error error =>
    have failing : ¬ Verifies hmac key pull.priorMac arrival := by
      rintro ⟨other, found, parsed', verified'⟩
      rw [parsed] at parsed'
      cases parsed'
      rw [verified] at verified'
      cases verified'
    by_cases carried : msg.tsig.isSome = true
    · rw [if_pos (by simp [carried]), verified] at chained
      cases chained
    rw [if_neg (by simp [carried])] at chained
    cases chained
    refine ⟨⟨?_, fun verifies => absurd verifies failing⟩, rfl⟩
    rintro ⟨other, parsed', carried'⟩
    rw [parsed] at parsed'
    cases parsed'
    exact absurd carried' carried

theorem takes_progress {key : Option TsigKey} {pull pull' : Pull} {arrival : Arrival}
    (taken : Takes hmac key id pull arrival pull') :
    (pull'.soaSeen, pull'.records) = progress (pull.soaSeen, pull.records) arrival := by
  obtain ⟨msg, mac, parsed, _, rfl⟩ := takeMessage_eq_ok taken
  have answers : arrival.answers = msg.answers := by simp only [Arrival.answers, parsed]
  rw [progress, answers]

/-! ## Whole transfers -/

section Transfer

variable {requestMac : Bytes} {arrivals : List Arrival} {last : Pull}

theorem run_collected {key : Option TsigKey}
    (run : Run (Takes hmac key id) ⟨requestMac, [], 0⟩ arrivals last) :
    last.records = (progressAfter arrivals).2 := by
  have all := run.view (fun pull => (pull.soaSeen, pull.records)) progress
    fun _ _ _ taken => takes_progress taken
  exact congrArg Prod.snd all

/-- In a run to the end every message with a TSIG verifies at its place in the chain. -/
theorem run_signed (run : Run (Takes hmac (some key) id) ⟨requestMac, [], 0⟩ arrivals last)
    {before after : List Arrival} {arrival : Arrival}
    (place : arrivals = before ++ arrival :: after) :
    arrival.Signed ↔ Verifies hmac key (macAfter hmac key requestMac before) arrival := by
  rw [place] at run
  obtain ⟨middle, first, _ | ⟨taken, _⟩⟩ := run.split
  have mac := first.view Pull.priorMac (linkMac hmac key) fun _ _ _ taken => (takes_chain taken).2
  have here := (takes_chain taken).1
  rw [mac] at here
  exact here

theorem contributed (arrivals : List Arrival) (some : (progressAfter arrivals).2 ≠ []) :
    ∃ before arrival after, arrivals = before ++ arrival :: after ∧
      contribution before arrival ≠ [] := by
  induction arrivals using List.reverseRecOn with
  | nil => exact absurd rfl some
  | append_singleton before arrival ih =>
    rw [progressAfter, List.foldl_append] at some
    change (progressAfter before).2 ++ contribution before arrival ≠ [] at some
    by_cases empty : contribution before arrival = []
    · rw [empty, List.append_nil] at some
      obtain ⟨front, other, after, place, filled⟩ := ih some
      exact ⟨front, other, after ++ [arrival], by rw [place]; simp, filled⟩
    · exact ⟨before, arrival, [], rfl, empty⟩

theorem authenticated_iff (run : Run (Takes hmac (some key) id) ⟨requestMac, [], 0⟩ arrivals last)
    {origin : DnsName} {zone : Zone} (built : Zone.fromRecords origin last.records = .ok zone) :
    Authenticated hmac key requestMac arrivals zone ↔ Sealed arrivals := by
  have collected := run_collected run
  have nonempty : (progressAfter arrivals).2 ≠ [] := by
    intro empty
    rw [collected, empty] at built
    cases built
  constructor
  · intro authenticated before arrival after place filled
    exact (run_signed run place).mpr (authenticated.linked before arrival after place filled)
  · intro closed
    have linked : ∀ before arrival after, arrivals = before ++ arrival :: after →
        contribution before arrival ≠ [] →
        Verifies hmac key (macAfter hmac key requestMac before) arrival :=
      fun before arrival after place filled =>
        (run_signed run place).mp (closed before arrival after place filled)
    obtain ⟨before, arrival, after, place, filled⟩ := contributed arrivals nonempty
    exact ⟨collected ▸ fromRecords_perm built, linked, before, arrival, after, place,
      linked before arrival after place filled⟩

end Transfer

/-! ## One message -/

theorem chainMac_signed (pull : Pull) {data : Bytes} (carried : msg.tsig.isSome = true)
    (verified : verify hmac msg data (keyringOf (some key)) now (some pull.priorMac) = .ok mac) :
    pull.chainMac hmac (some key) now msg data = .ok mac := by
  rw [Pull.chainMac, carried, verified]
  rfl

theorem takeMessage_signed (hmac : Hmac) (key : TsigKey) (pull : Pull) {now' : UInt64}
    (timely : Reply.Timely ⟨msg, now, now'⟩) (replies : Replies id msg) :
    pull.takeMessage hmac (some key) id now' (signResponse hmac msg key pull.priorMac now) =
      .ok ⟨(signedTsig hmac msg key (some pull.priorMac) now).mac,
        pull.records ++ kept pull.soaSeen msg.answers, seenAfter pull.soaSeen msg.answers⟩ := by
  obtain ⟨parsed, verified⟩ := verify_signedTsig hmac (KeyRing.get_insert .default key)
    timely.whole timely.room (some pull.priorMac) timely.small timely.early timely.late rfl
  have chained := chainMac_signed pull rfl verified
  have taken := takeMessage_chained parsed { replies with } chained
  exact taken

theorem axfrPull_single {key : Option TsigKey} {origin : DnsName} {sentAt : UInt64}
    {clock : Nat → UInt64} {wire : Bytes} {records : List Record} {zone : Zone}
    (short : wire.length ≤ 65535)
    (taken : (Pull.mk (encodeSigned hmac (axfrQuery id origin) key sentAt).2 [] 0).takeMessage
      hmac key id (clock 0) wire = .ok ⟨mac, records, 2⟩)
    (built : Zone.fromRecords origin records = .ok zone) :
    axfrPull hmac origin key id sentAt clock (frameOne wire) = .ok zone ∧
      delivered clock (frameOne wire) = [(wire, clock 0)] := by
  have read := readFrame_frameOne short []
  rw [List.append_nil] at read
  obtain ⟨fuel, length⟩ : ∃ fuel, (frameOne wire).length = fuel + 1 :=
    ⟨wire.length + 1, by simp [frameOne, toBe16]⟩
  constructor
  · have done : accumulate hmac key id (encodeSigned hmac (axfrQuery id origin) key sentAt).2 clock
        (frameOne wire) = .ok ⟨mac, records, 2⟩ := by
      rw [accumulate, length, pullLoop_next Nat.zero_lt_two read taken]
      exact pullLoop_done (by simp)
    simp only [axfrPull, done, built]
  · have ended : ∀ seen, arrivals clock fuel 1 seen [] = [] := by
      intro seen
      unfold arrivals
      cases fuel <;> simp [readFrame]
    rw [delivered, length]
    unfold arrivals
    rw [if_pos Nat.zero_lt_two, read]
    exact congrArg _ (ended _)

theorem axfrPull_signed (clock : Nat → UInt64) {origin : DnsName} {sentAt : UInt64} {wire : Bytes}
    {zone : Zone} (timely : Reply.Timely ⟨msg, now, clock 0⟩) (replies : Replies id msg)
    (closes : seenAfter 0 msg.answers = 2)
    (built : Zone.fromRecords origin (kept 0 msg.answers) = .ok zone)
    (signed : signResponse hmac msg key
      (encodeSigned hmac (axfrQuery id origin) (some key) sentAt).2 now = wire)
    (short : wire.length ≤ 65535) :
    axfrPull hmac origin (some key) id sentAt clock (frameOne wire) = .ok zone ∧
      Sealed (delivered clock (frameOne wire)) := by
  have taken := takeMessage_signed hmac key
    ⟨(encodeSigned hmac (axfrQuery id origin) (some key) sentAt).2, [], 0⟩ timely replies
  dsimp only at taken
  rw [signed, closes, List.nil_append] at taken
  obtain ⟨accepted, read⟩ := axfrPull_single short taken built
  refine ⟨accepted, fun before arrival after place _ => ?_⟩
  have only : arrival ∈ [(wire, clock 0)] := by
    rw [← read, place]
    exact List.mem_append_right _ (List.mem_cons_self ..)
  have parsed := (verify_signedTsig hmac (KeyRing.get_insert .default key) timely.whole timely.room
    (some (encodeSigned hmac (axfrQuery id origin) (some key) sentAt).2) timely.small timely.early
    timely.late rfl).1
  rw [List.mem_singleton.mp only, ← signed]
  exact ⟨_, parsed, rfl⟩

def shellReply : Message := carrying (axfrQuery 1 apexName) [apexSoa, apexSoa]

theorem shellReply_whole : shellReply.RoundTrips := rfl

theorem shellReply_replies : Replies 1 shellReply := ⟨rfl, rfl, rfl, List.cons_ne_nil _ _⟩

/-- Unsigned it is accepted under every key, and nothing has been verified. -/
theorem axfrPull_unsigned (hmac : Hmac) (key : TsigKey) (sentAt : UInt64) (clock : Nat → UInt64) :
    axfrPull hmac apexName (some key) 1 sentAt clock (frameOne shellReply.encode) = .ok shell ∧
      ¬ Authenticated hmac key (encodeSigned hmac (axfrQuery 1 apexName) (some key) sentAt).2
        (delivered clock (frameOne shellReply.encode)) shell := by
  have taken :
      (Pull.mk (encodeSigned hmac (axfrQuery 1 apexName) (some key) sentAt).2 [] 0).takeMessage
      hmac (some key) 1 (clock 0) shellReply.encode = .ok ⟨_, [apexSoa], 2⟩ :=
    takeMessage_chained shellReply_whole shellReply_replies
      (chainMac_unsigned hmac (some key) (clock 0) _ rfl _)
  obtain ⟨accepted, read⟩ := axfrPull_single (by decide +kernel) taken rfl
  refine ⟨accepted, fun authenticated => ?_⟩
  obtain ⟨before, signed, after, place, msg, mac, parsed, verified⟩ := authenticated.proven
  have only : signed ∈ [(shellReply.encode, clock 0)] := by
    rw [← read, place]
    exact List.mem_append_right _ (List.mem_cons_self ..)
  rw [List.mem_singleton.mp only, shellReply_whole] at parsed
  cases parsed
  cases verify_tsig verified

/-- What `axfr_pull` accepted with a key is authentic exactly when the peer has sealed
it. -/
theorem axfrPull_authenticated_iff {origin : DnsName} {sentAt : UInt64} {clock : Nat → UInt64}
    {stream : Bytes} {zone : Zone}
    (accepted : axfrPull hmac origin (some key) id sentAt clock stream = .ok zone) :
    Authenticated hmac key (encodeSigned hmac (axfrQuery id origin) (some key) sentAt).2
        (delivered clock stream) zone ↔
      Sealed (delivered clock stream) := by
  unfold axfrPull at accepted
  dsimp only at accepted
  split at accepted
  · cases accepted
  · rename_i pull done
    exact authenticated_iff (accumulate_run done) accepted

theorem axfrPull_authenticated_shell :
    let requestMac := (encodeSigned plainHmac (axfrQuery 1 apexName) (some sharedKey) 1000).2
    let stream := frameOne (signResponse plainHmac shellReply sharedKey requestMac 1000)
    axfrPull plainHmac apexName (some sharedKey) 1 1000 (fun _ => 1100) stream = .ok shell ∧
      Authenticated plainHmac sharedKey requestMac (delivered (fun _ => 1100) stream) shell := by
  have timely : Reply.Timely ⟨shellReply, 1000, 1100⟩ :=
    ⟨shellReply_whole, by decide, by decide, by decide, by decide⟩
  have short : (signResponse plainHmac shellReply sharedKey (encodeSigned plainHmac
      (axfrQuery 1 apexName) (some sharedKey) 1000).2 1000).length ≤ 65535 := by decide +kernel
  have built : Zone.fromRecords apexName (kept 0 shellReply.answers) = .ok shell := rfl
  obtain ⟨accepted, closed⟩ := axfrPull_signed (fun _ => 1100) timely shellReply_replies rfl built
    rfl short
  exact ⟨accepted, (axfrPull_authenticated_iff accepted).mpr closed⟩

theorem unsigned_accepted :
    axfrPull plainHmac apexName (some sharedKey) 1 1000 (fun _ => 1100)
        (frameOne shellReply.encode) = .ok shell ∧
      ¬ Authenticated plainHmac sharedKey
        (encodeSigned plainHmac (axfrQuery 1 apexName) (some sharedKey) 1000).2
        (delivered (fun _ => 1100) (frameOne shellReply.encode)) shell :=
  axfrPull_unsigned plainHmac sharedKey 1000 fun _ => 1100

end Rdns.Xfr
