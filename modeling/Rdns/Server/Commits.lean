import Rdns.Lib.Serial
import Rdns.Server.Writers
import Rdns.Zones.Soa

/-!
# Acknowledged edits

When every edit that was acknowledged is in the zone set at the end.  A run is
careful if no writer replaces what it has not read: then the zone set is always
what the landed edits leave when made one after the other.  Writers under the
lock are careful by themselves, and so are writers that run alone; two updates
at once need not be.
-/

set_option autoImplicit false

namespace Rdns.Server

open Rdns.Lib Rdns.Proto Rdns.Zones

variable {shared sys' : System} {edit : Edit} {phase phase' : Phase} {event : Event}
  {first : List Zone} {action : Action} {labels : List Action} {writer : Writer}
  {sys : System} {id : Nat}

/-! ## Careful runs -/

def Phase.landed : Phase → Bool
  | .leaving (.ok _) | .finished (.ok _) => true
  | _ => false

def System.landed (sys : System) (id : Nat) : Option Edit :=
  (sys.writers id).bind fun writer => if writer.phase.landed then some writer.edit else none

def Phase.succeeded : Phase → Bool
  | .finished (.ok _) => true
  | _ => false

def System.acknowledged (sys : System) (id : Nat) : Option Edit :=
  (sys.writers id).bind fun writer => if writer.phase.succeeded then some writer.edit else none

def System.Settled (sys : System) : Prop :=
  ∀ id writer, sys.writers id = some writer → ∃ result, writer.phase = .finished result

def Edit.made (edit : Edit) (zones : List Zone) : Option (List Zone) := (edit.apply zones).toOption

/-- When an update reads the zone set again, the zone is still the one it edited; when
a writer replaces the zone set, it is still the one the writer read. -/
def Careful (sys : System) : Action → Prop
  | .act id .read => ∀ origin prereqs updates old new,
      sys.writers id = some ⟨.update origin prereqs updates, .prepared old new⟩ →
        sys.zones.find? (atOrigin origin) = some old
  | .act id .replace => ∀ edit read next,
      sys.writers id = some ⟨edit, .loaded read next⟩ → sys.zones = read
  | _ => True

def Ready (edit : Edit) : Phase → Prop
  | .prepared old new => ∃ origin prereqs updates, edit = .update origin prereqs updates ∧
      updatedZone prereqs updates old = .ok new
  | .loaded read next => edit.apply read = .ok next
  | _ => True

theorem Reacts.ready (reacts : Reacts sys id edit phase event phase' shared)
    (known : sys.writers id = some ⟨edit, phase⟩) (careful : Careful sys (.act id event))
    (ready : Ready edit phase) : Ready edit phase' := by
  cases reacts with
  | load next made => exact made
  | prepare origin prereqs updates old new asked made =>
    exact ⟨origin, prereqs, updates, asked, made⟩
  | reread old new =>
    obtain ⟨origin, prereqs, updates, rfl, made⟩ := ready
    have found := careful origin prereqs updates old new known
    simp only [Ready, Edit.apply, found, made]
    rfl
  | fetch zone asked =>
    subst asked
    rfl
  | replace read next => split <;> trivial
  | _ => trivial

/-- Only a replacement lands an edit, and only a replacement changes the cell. -/
theorem Reacts.lands (reacts : Reacts sys id edit phase event phase' shared) :
    phase'.landed = phase.landed ∧ shared.zones = sys.zones ∨
      ∃ read, event = .replace ∧ phase = .loaded read shared.zones ∧ phase'.landed = true := by
  cases reacts with
  | replace read next =>
    refine .inr ⟨read, rfl, rfl, ?_⟩
    split <;> rfl
  | release result => exact .inl ⟨by cases result <;> rfl, rfl⟩
  | _ => exact .inl ⟨rfl, rfl⟩

theorem landed_put_self (sys : System) (id : Nat) (edit : Edit) (phase : Phase) :
    (sys.put id edit phase).landed id = if phase.landed then some edit else none := by
  rw [System.landed, System.writers_put_self]
  rfl

theorem landed_put_other (sys : System) {id other : Nat} (edit : Edit) (phase : Phase)
    (differs : other ≠ id) : (sys.put id edit phase).landed other = sys.landed other := by
  rw [System.landed, System.writers_put_other sys edit phase differs, System.landed]

/-- The cell holds the landed edits one after the other, and every writer is ready. -/
def Tracks (first : List Zone) (sys : System) : Prop :=
  Serial Edit.made first sys.landed sys.zones ∧
    ∀ id edit phase, sys.writers id = some ⟨edit, phase⟩ → Ready edit phase

theorem tracks_initial (zones : List Zone) : Tracks zones (.initial zones) :=
  ⟨Serial.initial _ _, fun _ _ _ known => nomatch known⟩

theorem serial_put (serial : Serial Edit.made first sys.landed sys.zones)
    (same : (if phase.landed then some edit else none) = sys.landed id) :
    Serial Edit.made first (sys.put id edit phase).landed sys.zones := by
  have landed : (sys.put id edit phase).landed = sys.landed := by
    funext other
    by_cases own : other = id
    · subst own
      rw [landed_put_self, same]
    · exact landed_put_other sys edit phase own
  rw [landed]
  exact serial

theorem tracks_start (edit : Edit) (tracks : Tracks first sys) (fresh : sys.writers id = none) :
    Tracks first (sys.put id edit .waiting) := by
  obtain ⟨serial, ready⟩ := tracks
  refine ⟨serial_put serial ?_, fun other edit' phase known => ?_⟩
  · rw [System.landed, fresh]
    rfl
  · rcases sys.writers_put_cases known with ⟨-, same⟩ | ⟨-, known⟩
    · cases same
      trivial
    · exact ready other edit' phase known

theorem tracks_reacts (tracks : Tracks first sys)
    (reacts : Reacts sys id edit phase event phase' shared)
    (known : sys.writers id = some ⟨edit, phase⟩) (careful : Careful sys (.act id event)) :
    Tracks first (shared.put id edit phase') := by
  obtain ⟨serial, ready⟩ := tracks
  have before : sys.landed id = if phase.landed then some edit else none := by
    rw [System.landed, known]
    rfl
  have unmoved : shared.landed = sys.landed := by
    unfold System.landed
    rw [reacts.writers]
  refine ⟨?_, fun other edit' after known' => ?_⟩
  · rcases reacts.lands with ⟨same, zones⟩ | ⟨read, rfl, rfl, lands⟩
    · refine serial_put ?_ ?_
      · rw [unmoved, zones]
        exact serial
      · rw [same, unmoved, before]
    · -- What the writer puts was computed from `read`, and that is still the cell.
      have present : sys.zones = read := careful edit read shared.zones known
      have computed : edit.apply read = .ok shared.zones := ready id edit _ known
      refine Serial.commit id edit serial before ?_ ?_ ?_
      · rw [Edit.made, present, computed]
        rfl
      · rw [landed_put_self, lands]
        rfl
      · intro other differs
        rw [landed_put_other shared edit phase' differs, unmoved]
  · rcases shared.writers_put_cases known' with ⟨-, same⟩ | ⟨-, known'⟩
    · cases same
      exact reacts.ready known careful (ready id edit phase known)
    · rw [reacts.writers] at known'
      exact ready other edit' after known'

theorem tracks_step (tracks : Tracks first sys)
    (stepped : When Careful (Steps step) sys action sys') : Tracks first sys' := by
  obtain ⟨careful, stepped⟩ := stepped
  rcases step_cases stepped with
    ⟨id, edit, rfl, fresh, rfl⟩ | ⟨id, event, edit, phase, phase', shared, rfl, known, reacts, rfl⟩
  · exact tracks_start edit tracks fresh
  · exact tracks_reacts tracks reacts known careful

theorem landed_of_settled (settled : sys.Settled) : sys.landed = sys.acknowledged := by
  funext id
  unfold System.landed System.acknowledged
  rcases known : sys.writers id with _ | ⟨edit, phase⟩
  · rfl
  · obtain ⟨result, rfl⟩ := settled id _ known
    cases result <;> rfl

theorem tracks_run {zones : List Zone}
    (run : Run (When Careful (Steps step)) (.initial zones) labels sys) : Tracks zones sys :=
  run.invariant (fun _ _ _ tracks stepped => tracks_step tracks stepped) (tracks_initial zones)

/-! ## Writers one after the other -/

theorem System.put_put (sys : System) (id : Nat) (edit : Edit) (phase phase' : Phase) :
    (sys.put id edit phase).put id edit phase' = sys.put id edit phase' := by
  simp only [System.put, Function.update_idem]

theorem step_start (edit : Edit) (fresh : sys.writers id = none) :
    step sys (.start id edit) = some (sys.put id edit .waiting) := by
  simp only [step, fresh]

theorem step_act (id : Nat) (edit : Edit) (phase : Phase) (event : Event) :
    step (sys.put id edit phase) (.act id event) =
      react (sys.put id edit phase) id edit phase event := by
  simp only [step, System.writers_put_self]

def Edit.script (id : Nat) : Edit → List Action
  | .update origin prereqs updates =>
    [.start id (.update origin prereqs updates), .act id .snapshot, .act id .read,
      .act id .replace]
  | .transfer zone => [.start id (.transfer zone), .act id .read, .act id .replace]
  | edit => [.start id edit, .act id .acquire, .act id .read, .act id .replace, .act id .release]

def scripts : Nat → List Edit → List Action
  | _, [] => []
  | id, edit :: rest => edit.script id ++ scripts (id + 1) rest

theorem careful_read
    (found : ∀ origin prereqs updates old new, edit = .update origin prereqs updates →
      phase = .prepared old new → sys.zones.find? (atOrigin origin) = some old) :
    Careful (sys.put id edit phase) (.act id .read) := by
  intro origin prereqs updates old new known
  rw [System.writers_put_self] at known
  cases known
  exact found origin prereqs updates old new rfl rfl

theorem careful_replace (sys : System) (id : Nat) (edit : Edit) (next : List Zone) :
    Careful (sys.put id edit (.loaded sys.zones next)) (.act id .replace) := by
  intro edit' read next' known
  rw [System.writers_put_self] at known
  cases known
  rfl

def System.committed (sys : System) (id : Nat) (edit : Edit) (next : List Zone) : System :=
  { sys with zones := next }.put id edit (.finished (.ok ()))

section Lone

variable {next : List Zone}

theorem lone_locked (fresh : sys.writers id = none) (free : sys.lock = none)
    (locked : edit.locked = true) (made : edit.apply sys.zones = .ok next) :
    Run (When Careful (Steps step)) sys
      [.start id edit, .act id .acquire, .act id .read, .act id .replace, .act id .release]
      (sys.committed id edit next) := by
  obtain ⟨zones, lock, writers⟩ := sys
  obtain rfl : lock = none := free
  have acquired : step (System.put ⟨zones, none, writers⟩ id edit .waiting) (.act id .acquire) =
      some (System.put ⟨zones, some id, writers⟩ id edit .holding) := by
    rw [step_act]
    simp only [react, System.put, locked, and_self, if_true, Function.update_idem]
  have loaded : step (System.put ⟨zones, some id, writers⟩ id edit .holding) (.act id .read) =
      some (System.put ⟨zones, some id, writers⟩ id edit (.loaded zones next)) := by
    rw [step_act]
    have present : edit.apply (System.put ⟨zones, some id, writers⟩ id edit .holding).zones =
      .ok next := made
    simp only [react, present, System.put_put]
    rfl
  have replaced : step (System.put ⟨zones, some id, writers⟩ id edit (.loaded zones next))
      (.act id .replace) =
        some (System.put ⟨next, some id, writers⟩ id edit (.leaving (.ok ()))) := by
    rw [step_act]
    simp only [react, System.put, locked, if_true, Function.update_idem]
  have released : step (System.put ⟨next, some id, writers⟩ id edit (.leaving (.ok ())))
      (.act id .release) = some (System.committed ⟨zones, none, writers⟩ id edit next) := by
    rw [step_act]
    simp only [react, System.put, System.committed, Function.update_idem]
  exact .next ⟨trivial, step_start edit fresh⟩ (.next ⟨trivial, acquired⟩
    (.next ⟨careful_read fun _ _ _ _ _ _ other => (by cases other), loaded⟩
      (.next ⟨careful_replace ⟨zones, some id, writers⟩ id edit next, replaced⟩
        (.next ⟨trivial, released⟩ (.done _)))))

theorem lone_replace (unlocked : edit.locked = false) :
    Run (When Careful (Steps step)) (sys.put id edit (.loaded sys.zones next)) [.act id .replace]
      (sys.committed id edit next) := by
  have replaced : step (sys.put id edit (.loaded sys.zones next)) (.act id .replace) =
      some (sys.committed id edit next) := by
    rw [step_act]
    simp only [react, System.put, System.committed, unlocked, Function.update_idem,
      Bool.false_eq_true, if_false]
  exact .next ⟨careful_replace sys id edit next, replaced⟩ (.done _)

theorem lone_transfer (zone : Zone) (fresh : sys.writers id = none) :
    Run (When Careful (Steps step)) sys ((Edit.transfer zone).script id)
      (sys.committed id (.transfer zone) (upsertZone sys.zones zone)) := by
  have loaded : step (sys.put id (.transfer zone) .waiting) (.act id .read) =
      some (sys.put id (.transfer zone) (.loaded sys.zones (upsertZone sys.zones zone))) := by
    rw [step_act]
    simp only [react, System.put_put]
    rfl
  exact .next ⟨trivial, step_start _ fresh⟩
    (.next ⟨careful_read fun _ _ _ _ _ _ other => (by cases other), loaded⟩ (lone_replace rfl))

theorem lone_update {origin : DnsName} {prereqs updates : List Record} {old new : Zone}
    (fresh : sys.writers id = none) (found : sys.zones.find? (atOrigin origin) = some old)
    (made : updatedZone prereqs updates old = .ok new) :
    Run (When Careful (Steps step)) sys ((Edit.update origin prereqs updates).script id)
      (sys.committed id (.update origin prereqs updates) (upsertZone sys.zones new)) := by
  have prepared : step (sys.put id (.update origin prereqs updates) .waiting) (.act id .snapshot) =
      some (sys.put id (.update origin prereqs updates) (.prepared old new)) := by
    have present : (sys.put id (.update origin prereqs updates) .waiting).zones.find?
      (atOrigin origin) = some old := found
    rw [step_act]
    simp only [react, present, made, System.put_put]
  have loaded : step (sys.put id (.update origin prereqs updates) (.prepared old new))
      (.act id .read) = some (sys.put id (.update origin prereqs updates)
        (.loaded sys.zones (upsertZone sys.zones new))) := by
    rw [step_act]
    simp only [react, System.put_put]
    rfl
  refine .next ⟨trivial, step_start _ fresh⟩ (.next ⟨trivial, prepared⟩
    (.next ⟨careful_read ?_, loaded⟩ (lone_replace rfl)))
  intro _ _ _ _ _ asked edited
  cases asked
  cases edited
  exact found

/-- A writer that nobody disturbs makes its edit, whichever writer it is. -/
theorem lone (fresh : sys.writers id = none) (free : sys.lock = none)
    (made : edit.apply sys.zones = .ok next) :
    Run (When Careful (Steps step)) sys (edit.script id) (sys.committed id edit next) := by
  cases edit with
  | update origin prereqs updates =>
    simp only [Edit.apply] at made
    split at made
    · cases made
    next old found =>
      rcases edited : updatedZone prereqs updates old with refusal | new
      · rw [edited] at made
        cases made
      · rw [edited] at made
        cases made
        exact lone_update fresh found edited
  | transfer zone =>
    cases made
    exact lone_transfer zone fresh
  | _ => exact lone_locked fresh free rfl made

end Lone

theorem settled_committed {next : List Zone} (settled : sys.Settled) :
    (sys.committed id edit next).Settled := by
  intro other writer known
  rcases System.writers_put_cases _ known with ⟨-, rfl⟩ | ⟨-, known⟩
  · exact ⟨_, rfl⟩
  · exact settled other writer known

/-- Every sequence of edits that can be made one after the other is a careful run. -/
theorem sequential_run {edits : List Edit} {last : List Zone}
    (fresh : ∀ later, id ≤ later → sys.writers later = none) (free : sys.lock = none)
    (settled : sys.Settled) (replayed : replay Edit.made edits sys.zones = some last) :
    ∃ sys', Run (When Careful (Steps step)) sys (scripts id edits) sys' ∧ sys'.Settled ∧
      sys'.zones = last := by
  induction edits generalizing sys id with
  | nil =>
    cases replayed
    exact ⟨sys, .done _, settled, rfl⟩
  | cons edit rest ih =>
    rw [replay_cons] at replayed
    obtain ⟨next, first, later⟩ := Option.bind_eq_some_iff.mp replayed
    have made : edit.apply sys.zones = .ok next := by
      rcases applied : edit.apply sys.zones with refusal | zones
      · rw [Edit.made, applied] at first
        cases first
      · rw [Edit.made, applied] at first
        cases first
        rfl
    have fresh' : ∀ later, id + 1 ≤ later →
        (sys.committed id edit next).writers later = none := by
      intro later above
      rw [System.committed, System.writers_put_other _ _ _ (by omega)]
      exact fresh later (by omega)
    obtain ⟨sys', run, settled', zones⟩ :=
      ih fresh' free (settled_committed settled) later
    exact ⟨sys', (lone (fresh id le_rfl) free made).append run, settled', zones⟩

/-- In a run whose steps are all careful, the final zone set is what the acknowledged
edits leave behind when they are made one after the other. -/
theorem acknowledged_serial_of_careful {zones : List Zone} {labels : List Action} {sys : System}
    (run : Run (When Careful (Steps step)) (.initial zones) labels sys) (settled : sys.Settled) :
    Serial Edit.made zones sys.acknowledged sys.zones := by
  rw [← landed_of_settled settled]
  exact (tracks_run run).1

def addApex : Edit := .update apexName [] [apexAddress]

theorem acknowledged_serial_scripts :
    ∃ sys, Run (When Careful (Steps step)) (.initial [shell])
      (scripts 0 [addApex, .delete apexName]) sys ∧ sys.Settled ∧
        Serial Edit.made [shell] sys.acknowledged sys.zones := by
  have made : (replay Edit.made [addApex, .delete apexName] [shell]).isSome = true := by
    decide +kernel
  obtain ⟨last, replayed⟩ := Option.isSome_iff_exists.mp made
  have fresh : ∀ later, 0 ≤ later → (System.initial [shell]).writers later = none :=
    fun _ _ => rfl
  obtain ⟨sys, run, settled, -⟩ :=
    sequential_run fresh rfl (fun _ _ known => nomatch known) replayed
  exact ⟨sys, run, settled, acknowledged_serial_of_careful run settled⟩

/-! ## Writers under the lock -/

/-- What the lock gives a writer: nobody else is between its read and its reply. -/
def Guards (sys : System) (id : Nat) : Phase → Prop
  | .waiting | .finished _ => True
  | .holding | .leaving _ => sys.lock = some id
  | .loaded read _ => sys.lock = some id ∧ sys.zones = read
  | .prepared _ _ => False

/-- All writers take the lock, and it guards each of them. -/
def Guarded (sys : System) : Prop :=
  ∀ id edit phase, sys.writers id = some ⟨edit, phase⟩ →
    edit.locked = true ∧ Guards sys id phase

theorem guards_outside (sys' : System) (guards : Guards sys id phase)
    (outside : sys.lock ≠ some id) : Guards sys' id phase := by
  cases phase with
  | waiting | finished _ => trivial
  | holding | leaving _ => exact absurd guards outside
  | loaded _ _ => exact absurd guards.1 outside
  | prepared _ _ => exact guards

theorem guards_same (guards : Guards sys id phase) (lock : sys'.lock = sys.lock)
    (zones : sys'.zones = sys.zones) : Guards sys' id phase := by
  unfold Guards at *
  rw [lock, zones]
  exact guards

/-- An event of one writer leaves the others alone: it changes neither the lock nor the
cell, or the others are outside. -/
theorem Reacts.spares {id other : Nat} (reacts : Reacts sys id edit phase event phase' shared)
    (guards : Guards sys id phase) (differs : other ≠ id) :
    shared.lock = sys.lock ∧ shared.zones = sys.zones ∨ sys.lock ≠ some other := by
  have held : sys.lock = some id → sys.lock ≠ some other := by
    intro own taken
    rw [own] at taken
    cases taken
    exact differs rfl
  cases reacts with
  | acquire locked free => exact .inr (by rw [free]; exact nofun)
  | replace read next => exact .inr (held guards.1)
  | release result => exact .inr (held guards)
  | _ => exact .inl ⟨rfl, rfl⟩

theorem Reacts.guards (reacts : Reacts sys id edit phase event phase' shared)
    (locked : edit.locked = true) (guards : Guards sys id phase) : Guards shared id phase' := by
  cases reacts with
  | acquire _ _ => rfl
  | refuse refusal => exact guards
  | load next made => exact ⟨guards, rfl⟩
  | replace read next =>
    rw [locked]
    exact guards.1
  | release result => trivial
  | reject refusal unlocked =>
    rw [locked] at unlocked
    cases unlocked
  | prepare origin prereqs updates old new asked made =>
    rw [asked] at locked
    cases locked
  | reread old new => exact guards.elim
  | fetch zone asked =>
    rw [asked] at locked
    cases locked

def StartsLocked (action : Action) : Prop :=
  ∀ id edit, action = .start id edit → edit.locked = true

theorem guarded_step (locked : StartsLocked action) (guarded : Guarded sys)
    (stepped : step sys action = some sys') : Guarded sys' := by
  intro other edit' after known'
  rcases step_cases stepped with
    ⟨id, edit, rfl, fresh, rfl⟩ | ⟨id, event, edit, phase, phase', shared, rfl, known, reacts, rfl⟩
  · rcases sys.writers_put_cases known' with ⟨-, same⟩ | ⟨-, known'⟩
    · cases same
      exact ⟨locked _ _ rfl, trivial⟩
    · obtain ⟨takes, guards⟩ := guarded other edit' after known'
      exact ⟨takes, guards_same guards rfl rfl⟩
  · obtain ⟨takes, guards⟩ := guarded id edit phase known
    rcases shared.writers_put_cases known' with ⟨rfl, same⟩ | ⟨differs, known'⟩
    · cases same
      exact ⟨takes, guards_same (reacts.guards takes guards) rfl rfl⟩
    · rw [reacts.writers] at known'
      obtain ⟨takes', guards'⟩ := guarded other edit' after known'
      refine ⟨takes', ?_⟩
      rcases reacts.spares guards differs with ⟨lock, zones⟩ | outside
      · exact guards_same guards' lock zones
      · exact guards_outside _ guards' outside

theorem careful_of_guarded (guarded : Guarded sys) (action : Action) : Careful sys action := by
  rcases action with ⟨id, edit⟩ | ⟨id, _ | _ | _ | _ | _⟩
  case act.read =>
    intro origin prereqs updates old new known
    exact (guarded id _ _ known).2.elim
  case act.replace =>
    intro edit read next known
    exact (guarded id _ _ known).2.2
  all_goals trivial

/-- The management API alone loses nothing: under the lock every run is careful. -/
theorem locked_serial {zones : List Zone} {sys : System}
    (run : Run (Steps step) (.initial zones) labels sys)
    (locked : ∀ action ∈ labels, StartsLocked action) (settled : sys.Settled) :
    Serial Edit.made zones sys.acknowledged sys.zones := by
  have careful : Run (When Careful (Steps step)) (.initial zones) labels sys :=
    run.when_of_labels Guarded StartsLocked (fun _ _ _ => guarded_step)
      (fun _ action guarded => careful_of_guarded guarded action) locked
      (fun _ _ _ known => nomatch known)
  rw [← landed_of_settled settled]
  exact (tracks_run careful).1

theorem locked_serial_scripts :
    ∃ sys, Run (Steps step) (.initial [shell])
      (scripts 0 [.patch apexName [], .delete apexName]) sys ∧ sys.Settled ∧
        Serial Edit.made [shell] sys.acknowledged sys.zones := by
  have made : (replay Edit.made [.patch apexName [], .delete apexName] [shell]).isSome = true := by
    decide +kernel
  obtain ⟨last, replayed⟩ := Option.isSome_iff_exists.mp made
  have fresh : ∀ later, 0 ≤ later → (System.initial [shell]).writers later = none :=
    fun _ _ => rfl
  obtain ⟨sys, careful, settled, -⟩ :=
    sequential_run fresh rfl (fun _ _ known => nomatch known) replayed
  have run := careful.mono fun _ _ _ taken => taken.2
  refine ⟨sys, run, settled, locked_serial run ?_ settled⟩
  intro action member id edit started
  subst started
  simp only [scripts, Edit.script, zero_add, List.append_nil, List.cons_append, List.nil_append,
    List.mem_cons, Action.start.injEq, reduceCtorEq, List.not_mem_nil, or_self, or_false, false_or]
    at member
  rcases member with ⟨-, rfl⟩ | ⟨-, rfl⟩ <;> rfl

/-! ## Two updates at once -/

theorem edit_of_step (stepped : step sys action = some sys')
    (known : sys'.writers id = some writer) :
    (∃ before, sys.writers id = some before ∧ before.edit = writer.edit) ∨
      action = .start id writer.edit := by
  rcases step_cases stepped with
    ⟨own, edit, rfl, fresh, rfl⟩ |
    ⟨own, event, edit, phase, phase', shared, rfl, before, reacts, rfl⟩
  · rcases sys.writers_put_cases known with ⟨rfl, rfl⟩ | ⟨-, known⟩
    · exact .inr rfl
    · exact .inl ⟨writer, known, rfl⟩
  · rcases shared.writers_put_cases known with ⟨rfl, rfl⟩ | ⟨-, known⟩
    · exact .inl ⟨_, before, rfl⟩
    · rw [reacts.writers] at known
      exact .inl ⟨writer, known, rfl⟩

theorem edit_of_run {first last : System} (run : Run (Steps step) first labels last)
    (known : last.writers id = some writer) :
    (∃ before, first.writers id = some before ∧ before.edit = writer.edit) ∨
      Action.start id writer.edit ∈ labels := by
  induction run with
  | done state => exact .inl ⟨writer, known, rfl⟩
  | next head _ ih =>
    rcases ih known with ⟨before, there, same⟩ | later
    · rcases edit_of_step head there with ⟨first, there', same'⟩ | rfl
      · exact .inl ⟨first, there', same'.trans same⟩
      · exact .inr (same ▸ List.mem_cons_self)
    · exact .inr (List.mem_cons_of_mem _ later)

def sideName : DnsName := ⟨[[115, 105, 100, 101]], by decide⟩

def sideSoa : Record :=
  { name := sideName, class_ := classIn, ttl := 3600
    rdata := .soa ⟨sideName, sideName, 1, 7200, 3600, 1209600, 300⟩ }

def side : Zone := ⟨sideName, sideSoa, 1, HashMap.empty.insert sideName [sideSoa]⟩

def addSide : Edit := .update sideName [] [{ apexAddress with name := sideName }]

def raced : List Action :=
  [.start 0 addApex, .start 1 addSide, .act 0 .snapshot, .act 1 .snapshot, .act 0 .read,
    .act 1 .read, .act 0 .replace, .act 1 .replace]

theorem finished_of_succeeded (done : phase.succeeded = true) :
    ∃ result, phase = .finished result := by
  unfold Phase.succeeded at done
  split at done
  · exact ⟨_, rfl⟩
  · cases done

theorem writer_of_raced (run : Run (Steps step) (.initial [shell, side]) raced sys)
    (known : sys.writers id = some writer) :
    id = 0 ∧ writer.edit = addApex ∨ id = 1 ∧ writer.edit = addSide := by
  rcases edit_of_run run known with ⟨_, before, _⟩ | started
  · cases before
  · simpa [raced] using started

/-- The addition to the first zone is acknowledged and gone. -/
theorem raced_update_lost :
    ∃ sys, Run (Steps step) (.initial [shell, side]) raced sys ∧ sys.Settled ∧
      ¬ Serial Edit.made [shell, side] sys.acknowledged sys.zones := by
  have computed : (exec step raced (.initial [shell, side])).map (fun sys =>
      ([0, 1].map fun id => (sys.writers id).map (·.phase.succeeded),
        sys.zones.map Zone.recordCount)) = some ([some true, some true], [1, 2]) := by
    decide +kernel
  obtain ⟨sys, reached, seen⟩ := Option.map_eq_some_iff.mp computed
  have run := run_of_exec reached
  simp only [List.map_cons, List.map_nil, Prod.mk.injEq, List.cons.injEq, and_true,
    Option.map_eq_some_iff] at seen
  obtain ⟨⟨⟨left, leftKnown, leftDone⟩, ⟨right, rightKnown, rightDone⟩⟩, counts⟩ := seen
  have leftEdit : left.edit = addApex := by
    rcases writer_of_raced run leftKnown with ⟨-, same⟩ | ⟨other, -⟩
    · exact same
    · cases other
  have rightEdit : right.edit = addSide := by
    rcases writer_of_raced run rightKnown with ⟨other, -⟩ | ⟨-, same⟩
    · cases other
    · exact same
  refine ⟨sys, run, ?_, fun serial => ?_⟩
  · intro id writer known
    rcases writer_of_raced run known with ⟨rfl, -⟩ | ⟨rfl, -⟩
    · cases leftKnown.symm.trans known
      exact finished_of_succeeded leftDone
    · cases rightKnown.symm.trans known
      exact finished_of_succeeded rightDone
  · have others : ∀ id, id ≠ 0 → id ≠ 1 → sys.acknowledged id = none := by
      intro id zero one
      rcases known : sys.writers id with _ | writer
      · simp [System.acknowledged, known]
      · rcases writer_of_raced run known with ⟨rfl, -⟩ | ⟨rfl, -⟩
        · exact absurd rfl zero
        · exact absurd rfl one
    have first : sys.acknowledged 0 = some addApex := by
      simp [System.acknowledged, leftKnown, leftDone, leftEdit]
    have second : sys.acknowledged 1 = some addSide := by
      simp [System.acknowledged, rightKnown, rightDone, rightEdit]
    rcases serial.of_two (by decide) first second others with replayed | replayed
    · have both : (replay Edit.made [addApex, addSide] [shell, side]).map
        (·.map Zone.recordCount) = some [2, 2] := by decide +kernel
      rw [replayed, Option.map_some, counts] at both
      cases both
    · have both : (replay Edit.made [addSide, addApex] [shell, side]).map
        (·.map Zone.recordCount) = some [2, 2] := by decide +kernel
      rw [replayed, Option.map_some, counts] at both
      cases both

end Rdns.Server
