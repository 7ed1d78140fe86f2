import Rdns.Lib.Run
import Rdns.Zones.Store
import Mathlib.Logic.Function.Basic

/-!
# Writers of the zone set

The zone set is one cell, read as a snapshot and replaced as a whole.  The
management API reads, edits and replaces under `write_lock`.  Dynamic updates and
secondary transfers do not take the lock: they go through `upsert_zone`, which
reads the set again and replaces it, and an update has edited a zone of an earlier
snapshot by then.
-/

set_option autoImplicit false

namespace Rdns.Server

open Rdns.Lib Rdns.Proto Rdns.Zones

/-! ## Edits of the zone set -/

structure RrsetIn where
  name : String
  rtype : String
  ttl : Option UInt32
  changetype : Option String
  records : List String

/-- Why an edit is not acknowledged: the rcode of an update, the reply of the API, or a
panic of the task. -/
inductive Refusal
  | rcode (code : UInt8)
  | http (status message : String)
  | panicked
deriving DecidableEq

def Refusal.ofAbort : Abort String → Refusal
  | .panicked => .panicked
  | .failed message => .http "400 Bad Request" message

def applyRrset (zone : Zone) (rrset : RrsetIn) : Fallible String Unit × Zone :=
  match DnsName.parseStr rrset.name with
  | .error e => (.error (.failed ("bad name: " ++ e.display)), zone)
  | .ok owner =>
    let changetype := toAsciiUppercase (rrset.changetype.getD "REPLACE")
    if changetype = "REPLACE" then
      zone.replaceRrset owner rrset.rtype (rrset.ttl.getD 3600) rrset.records
    else if changetype = "DELETE" then
      match zone.deleteRrset owner rrset.rtype with
      | (.ok (), zone) => (.ok (), zone)
      | (.error e, zone) => (.error (.failed e), zone)
    else (.error (.failed ("unsupported changetype '" ++ changetype ++ "'")), zone)

theorem applyRrset_ok {zone zone' : Zone} {rrset : RrsetIn}
    (done : applyRrset zone rrset = (.ok (), zone')) :
    ∃ owner, DnsName.parseStr rrset.name = .ok owner ∧
      (zone.replaceRrset owner rrset.rtype (rrset.ttl.getD 3600) rrset.records = (.ok (), zone') ∨
        zone.deleteRrset owner rrset.rtype = (.ok (), zone')) := by
  unfold applyRrset at done
  split at done
  · cases done
  rename_i owner parsed
  dsimp only at done
  split at done
  · exact ⟨owner, parsed, Or.inl done⟩
  split at done
  · split at done
    · rename_i deleted
      cases done
      exact ⟨owner, parsed, Or.inr deleted⟩
    · cases done
  · cases done

def applyRrsets : Zone → List RrsetIn → Except Refusal Zone
  | zone, [] => .ok zone
  | zone, rrset :: rest =>
    match applyRrset zone rrset with
    | (.ok (), zone) => applyRrsets zone rest
    | (.error e, _) => .error (.ofAbort e)

theorem applyRrsets_invariant {holds : Zone → Prop}
    (keeps : ∀ zone rrset zone', holds zone → applyRrset zone rrset = (.ok (), zone') →
      holds zone') (rrsets : List RrsetIn) :
    ∀ {zone zone' : Zone}, holds zone → applyRrsets zone rrsets = .ok zone' → holds zone' := by
  induction rrsets with
  | nil =>
    intro zone zone' held done
    cases done
    exact held
  | cons rrset rest ih =>
    intro zone zone' held done
    unfold applyRrsets at done
    split at done
    · rename_i middle stepped
      exact ih (keeps zone rrset middle held stepped) done
    · cases done

def atOrigin (origin : DnsName) (zone : Zone) : Bool := decide (zone.origin = origin)

def upsertZone (zones : List Zone) (zone : Zone) : List Zone :=
  match zones.findIdx? (atOrigin zone.origin) with
  | some index => zones.set index zone
  | none => zones ++ [zone]

theorem upsertZone_cons (first : Zone) (rest : List Zone) (zone : Zone) :
    upsertZone (first :: rest) zone =
      if first.origin = zone.origin then zone :: rest else first :: upsertZone rest zone := by
  unfold upsertZone
  rw [List.findIdx?_cons]
  by_cases same : first.origin = zone.origin
  · simp [atOrigin, same]
  · cases found : rest.findIdx? (atOrigin zone.origin) <;> simp [atOrigin, same]

theorem find?_upsertZone (zones : List Zone) (zone : Zone) (origin : DnsName) :
    (upsertZone zones zone).find? (atOrigin origin) =
      if zone.origin = origin then some zone else zones.find? (atOrigin origin) := by
  induction zones with
  | nil =>
    by_cases here : zone.origin = origin <;> simp [upsertZone, atOrigin, here]
  | cons first rest ih =>
    rw [upsertZone_cons]
    by_cases same : first.origin = zone.origin
    · by_cases here : zone.origin = origin <;> simp [same, atOrigin, here]
    rw [if_neg same]
    by_cases at_ : first.origin = origin
    · have other : zone.origin ≠ origin := fun here => same (at_.trans here.symm)
      simp [atOrigin, at_, other]
    · have apart : ¬ atOrigin origin first = true := by simpa [atOrigin] using at_
      rw [List.find?_cons_of_neg apart, ih, List.find?_cons_of_neg apart]

theorem origins_upsertZone (zones : List Zone) (zone : Zone) :
    (upsertZone zones zone).map Zone.origin =
      if zone.origin ∈ zones.map Zone.origin then zones.map Zone.origin
      else zones.map Zone.origin ++ [zone.origin] := by
  induction zones with
  | nil => rfl
  | cons first rest ih =>
    rw [upsertZone_cons]
    by_cases same : first.origin = zone.origin
    · simp [same]
    · rw [if_neg same, List.map_cons, ih, List.map_cons]
      by_cases later : zone.origin ∈ rest.map Zone.origin
      · rw [if_pos later, if_pos (List.mem_cons_of_mem _ later)]
      · have absent : zone.origin ∉ first.origin :: rest.map Zone.origin :=
          fun member => (List.mem_cons.mp member).elim (fun here => same here.symm) later
        rw [if_neg later, if_neg absent, List.cons_append]

def updatedZone (prereqs updates : List Record) (old : Zone) : Except Refusal Zone :=
  let (rcode, zone) := old.applyUpdate prereqs updates
  if rcode ≠ rcodeNoerror then .error (.rcode rcode) else .ok zone.bumpSerial

def patchZone (origin : DnsName) (rrsets : List RrsetIn) (current : List Zone) :
    Except Refusal (List Zone) :=
  match current.findIdx? (atOrigin origin), current.find? (atOrigin origin) with
  | some index, some old => do
    let zone ← applyRrsets old rrsets
    pure (current.set index zone.bumpSerial)
  | _, _ => .error (.http "404 Not Found" "no such zone")

def isSoaRrset (rrset : RrsetIn) : Bool := decide (toAsciiUppercase rrset.rtype = "SOA")

def newZone (origin : DnsName) (rrsets : List RrsetIn) : Except Refusal Zone := do
  let badRequest := Refusal.http "400 Bad Request"
  let soaIn ← match rrsets.find? isSoaRrset with
    | some rrset => pure rrset
    | none => .error (badRequest "zone must include an SOA rrset")
  let content ← match soaIn.records with
    | [one] => pure one
    | _ => .error (badRequest "SOA rrset must have exactly one record")
  let rdata ← match rdataFromText "SOA" content origin with
    | .ok rdata => pure rdata
    | .error .panicked => .error .panicked
    | .error (.failed e) => .error (badRequest ("bad SOA: " ++ e))
  let soa : Record := { name := origin, class_ := classIn, ttl := soaIn.ttl.getD 3600, rdata }
  let shell ← match Zone.fromRecords origin [soa] with
    | .ok zone => pure zone
    | .error e => .error (badRequest e)
  applyRrsets shell (rrsets.filter fun rrset => !isSoaRrset rrset)

theorem newZone_ok {origin : DnsName} {rrsets : List RrsetIn} {zone : Zone}
    (done : newZone origin rrsets = .ok zone) :
    ∃ soa shell, Zone.fromRecords origin [soa] = .ok shell ∧
      applyRrsets shell (rrsets.filter fun rrset => !isSoaRrset rrset) = .ok zone := by
  unfold newZone at done
  dsimp only at done
  split at done
  · obtain ⟨soaIn, _, done⟩ := fallible_bind done
    split at done
    · obtain ⟨content, _, done⟩ := fallible_bind done
      split at done
      · obtain ⟨rdata, _, done⟩ := fallible_bind done
        split at done
        · rename_i built fromSoa
          obtain ⟨shell, same, done⟩ := fallible_bind done
          cases same
          exact ⟨_, built, fromSoa, done⟩
        · cases done
      · cases done
      · cases done
    · cases done
  · cases done

def createZone (origin : DnsName) (rrsets : List RrsetIn) (current : List Zone) :
    Except Refusal (List Zone) :=
  if current.any (atOrigin origin) then .error (.http "409 Conflict" "zone already exists")
  else do
    let zone ← newZone origin rrsets
    pure (current ++ [zone])

def deleteZone (origin : DnsName) (current : List Zone) : Except Refusal (List Zone) :=
  match current.findIdx? (atOrigin origin) with
  | some index => .ok (current.eraseIdx index)
  | none => .error (.http "404 Not Found" "no such zone")

theorem deleteZone_cons (origin : DnsName) (first : Zone) (rest : List Zone) :
    deleteZone origin (first :: rest) =
      if first.origin = origin then .ok rest
      else (deleteZone origin rest).map fun zones => first :: zones := by
  unfold deleteZone
  rw [List.findIdx?_cons]
  by_cases same : first.origin = origin
  · simp [atOrigin, same]
  · cases found : rest.findIdx? (atOrigin origin) with
    | none => simp [atOrigin, same, Except.map]
    | some index => simp [atOrigin, same, Except.map]

/-- What a writer is asked to do.  An update has passed the ACL and the TSIG check. -/
inductive Edit
  | update (origin : DnsName) (prereqs updates : List Record)
  | patch (origin : DnsName) (rrsets : List RrsetIn)
  | create (origin : DnsName) (rrsets : List RrsetIn)
  | delete (origin : DnsName)
  | transfer (zone : Zone)

def Edit.apply : Edit → List Zone → Except Refusal (List Zone)
  | .update origin prereqs updates, zones =>
    match zones.find? (atOrigin origin) with
    | none => .error (.rcode rcodeNotauth)
    | some old => do
      let zone ← updatedZone prereqs updates old
      pure (upsertZone zones zone)
  | .patch origin rrsets, zones => patchZone origin rrsets zones
  | .create origin rrsets, zones => createZone origin rrsets zones
  | .delete origin, zones => deleteZone origin zones
  | .transfer zone, zones => .ok (upsertZone zones zone)

def Edit.locked : Edit → Bool
  | .patch _ _ | .create _ _ | .delete _ => true
  | .update _ _ _ | .transfer _ => false

/-! ## Interleavings -/

inductive Phase
  | waiting
  /-- Holds the lock and has read nothing yet. -/
  | holding
  /-- An update that has edited the zone of its snapshot. -/
  | prepared (old new : Zone)
  /-- Has read the zone set and knows what to replace it with. -/
  | loaded (read next : List Zone)
  /-- Holds the lock and is about to reply. -/
  | leaving (result : Except Refusal Unit)
  | finished (result : Except Refusal Unit)

structure Writer where
  edit : Edit
  phase : Phase

structure System where
  zones : List Zone
  lock : Option Nat
  writers : Nat → Option Writer

inductive Event
  | acquire
  | snapshot
  | read
  | replace
  | release

inductive Action
  | start (id : Nat) (edit : Edit)
  | act (id : Nat) (event : Event)

namespace System

def initial (zones : List Zone) : System := ⟨zones, none, fun _ => none⟩

def put (sys : System) (id : Nat) (edit : Edit) (phase : Phase) : System :=
  { sys with writers := Function.update sys.writers id (some ⟨edit, phase⟩) }

theorem writers_put_self (sys : System) (id : Nat) (edit : Edit) (phase : Phase) :
    (sys.put id edit phase).writers id = some ⟨edit, phase⟩ :=
  Function.update_self _ _ _

theorem writers_put_other (sys : System) {id other : Nat} (edit : Edit) (phase : Phase)
    (differs : other ≠ id) : (sys.put id edit phase).writers other = sys.writers other :=
  Function.update_of_ne differs _ _

theorem writers_put_cases (sys : System) {id other : Nat} {edit : Edit} {phase : Phase}
    {writer : Writer} (known : (sys.put id edit phase).writers other = some writer) :
    other = id ∧ writer = ⟨edit, phase⟩ ∨ other ≠ id ∧ sys.writers other = some writer := by
  by_cases own : other = id
  · subst own
    rw [writers_put_self] at known
    cases known
    exact .inl ⟨rfl, rfl⟩
  · rw [writers_put_other sys edit phase own] at known
    exact .inr ⟨own, known⟩

end System

def react (sys : System) (id : Nat) (edit : Edit) : Phase → Event → Option System
  | .waiting, .acquire =>
    if edit.locked ∧ sys.lock = none then
      some ({ sys with lock := some id }.put id edit .holding)
    else none
  | .holding, .read =>
    match edit.apply sys.zones with
    | .error refusal => some (sys.put id edit (.leaving (.error refusal)))
    | .ok next => some (sys.put id edit (.loaded sys.zones next))
  | .waiting, .snapshot =>
    match edit with
    | .update origin prereqs updates =>
      match sys.zones.find? (atOrigin origin) with
      | none => some (sys.put id edit (.finished (.error (.rcode rcodeNotauth))))
      | some old =>
        match updatedZone prereqs updates old with
        | .error refusal => some (sys.put id edit (.finished (.error refusal)))
        | .ok new => some (sys.put id edit (.prepared old new))
    | _ => none
  | .prepared _ new, .read =>
    some (sys.put id edit (.loaded sys.zones (upsertZone sys.zones new)))
  | .waiting, .read =>
    match edit with
    | .transfer zone =>
      some (sys.put id edit (.loaded sys.zones (upsertZone sys.zones zone)))
    | _ => none
  | .loaded _ next, .replace =>
    some ({ sys with zones := next }.put id edit
      (if edit.locked then .leaving (.ok ()) else .finished (.ok ())))
  | .leaving result, .release =>
    some ({ sys with lock := none }.put id edit (.finished result))
  | _, _ => none

def step (sys : System) : Action → Option System
  | .start id edit =>
    match sys.writers id with
    | none => some (sys.put id edit .waiting)
    | some _ => none
  | .act id event =>
    match sys.writers id with
    | none => none
    | some writer => react sys id writer.edit writer.phase event

/-- What one event does: the writer's next phase, and the cell and the lock after it. -/
inductive Reacts (sys : System) (id : Nat) (edit : Edit) : Phase → Event → Phase → System → Prop
  | acquire (locked : edit.locked = true) (free : sys.lock = none) :
      Reacts sys id edit .waiting .acquire .holding { sys with lock := some id }
  | refuse (refusal : Refusal) :
      Reacts sys id edit .holding .read (.leaving (.error refusal)) sys
  | load (next : List Zone) (made : edit.apply sys.zones = .ok next) :
      Reacts sys id edit .holding .read (.loaded sys.zones next) sys
  | reject (refusal : Refusal) (unlocked : edit.locked = false) :
      Reacts sys id edit .waiting .snapshot (.finished (.error refusal)) sys
  | prepare (origin : DnsName) (prereqs updates : List Record) (old new : Zone)
      (asked : edit = .update origin prereqs updates)
      (made : updatedZone prereqs updates old = .ok new) :
      Reacts sys id edit .waiting .snapshot (.prepared old new) sys
  | reread (old new : Zone) :
      Reacts sys id edit (.prepared old new) .read
        (.loaded sys.zones (upsertZone sys.zones new)) sys
  | fetch (zone : Zone) (asked : edit = .transfer zone) :
      Reacts sys id edit .waiting .read (.loaded sys.zones (upsertZone sys.zones zone)) sys
  | replace (read next : List Zone) :
      Reacts sys id edit (.loaded read next) .replace
        (if edit.locked then .leaving (.ok ()) else .finished (.ok ())) { sys with zones := next }
  | release (result : Except Refusal Unit) :
      Reacts sys id edit (.leaving result) .release (.finished result) { sys with lock := none }

theorem Reacts.writers {sys shared : System} {id : Nat} {edit : Edit} {phase phase' : Phase}
    {event : Event} (reacts : Reacts sys id edit phase event phase' shared) :
    shared.writers = sys.writers := by
  cases reacts <;> rfl

theorem reacts_of_react {sys sys' : System} {id : Nat} {edit : Edit} {phase : Phase}
    {event : Event} (reacted : react sys id edit phase event = some sys') :
    ∃ phase' shared, Reacts sys id edit phase event phase' shared ∧
      sys' = shared.put id edit phase' := by
  cases phase <;> cases event <;> simp only [react] at reacted <;> try cases reacted
  case waiting.acquire =>
    split at reacted
    · next may =>
        cases reacted
        exact ⟨_, _, .acquire may.1 may.2, rfl⟩
    · cases reacted
  case waiting.snapshot =>
    cases edit with
    | update origin prereqs updates =>
      simp only at reacted
      split at reacted
      · cases reacted
        exact ⟨_, _, .reject _ rfl, rfl⟩
      next old _ =>
        split at reacted
        · cases reacted
          exact ⟨_, _, .reject _ rfl, rfl⟩
        · next new made =>
            cases reacted
            exact ⟨_, _, .prepare origin prereqs updates old new rfl made, rfl⟩
    | _ => cases reacted
  case waiting.read =>
    cases edit with
    | transfer zone =>
      cases reacted
      exact ⟨_, _, .fetch zone rfl, rfl⟩
    | _ => cases reacted
  case holding.read =>
    split at reacted
    · next refusal _ =>
        cases reacted
        exact ⟨_, _, .refuse refusal, rfl⟩
    · next next made =>
        cases reacted
        exact ⟨_, _, .load next made, rfl⟩
  case prepared.read old new => exact ⟨_, _, .reread old new, rfl⟩
  case loaded.replace read next => exact ⟨_, _, .replace read next, rfl⟩
  case leaving.release result => exact ⟨_, _, .release result, rfl⟩

theorem step_cases {sys sys' : System} {action : Action} (stepped : step sys action = some sys') :
    (∃ id edit, action = .start id edit ∧ sys.writers id = none ∧
      sys' = sys.put id edit .waiting) ∨
    ∃ id event edit phase phase' shared, action = .act id event ∧
      sys.writers id = some ⟨edit, phase⟩ ∧ Reacts sys id edit phase event phase' shared ∧
      sys' = shared.put id edit phase' := by
  cases action with
  | start id edit =>
    left
    simp only [step] at stepped
    split at stepped
    · next fresh =>
        cases stepped
        exact ⟨id, edit, rfl, fresh, rfl⟩
    · cases stepped
  | act id event =>
    right
    simp only [step] at stepped
    split at stepped
    · cases stepped
    · next writer known =>
        obtain ⟨phase', shared, reacts, same⟩ := reacts_of_react stepped
        exact ⟨id, event, writer.edit, writer.phase, phase', shared, rfl, known, reacts, same⟩

end Rdns.Server
