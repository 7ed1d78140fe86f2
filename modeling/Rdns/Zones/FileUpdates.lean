import Rdns.Lib.Loops
import Rdns.Zones.FileRoundTrip

/-!
# Files written after dynamic updates

The server persists a zone after every accepted update.  An update may bring any
octets into names and strings and any type, which the text form cannot always carry;
as long as every added record is legible and the SOA stays single, the file loads.
-/

set_option autoImplicit false

namespace Rdns.Zones

open Rdns.Lib Rdns.Proto

variable {zone zone' : Zone}

/-- An accepted update followed by `bump_serial`: prerequisites and update records
of the message. -/
def Committed (zone : Zone) (message : List Record × List Record) (zone' : Zone) : Prop :=
  ∃ middle, zone.applyUpdate message.1 message.2 = (rcodeNoerror, middle) ∧
    zone' = middle.bumpSerial

/-- No second SOA is added and the stored one is not deleted.  Its TTL may change. -/
def KeepsSoa (zone : Zone) (update : Record) : Prop :=
  update.rtype = typeSoa →
    (update.class_ = classIn → update.name = zone.origin ∧ update.rdata = zone.soa.rdata) ∧
    (update.class_ = classNone → ¬ (update.name = zone.origin ∧ update.rdata = zone.soa.rdata))

instance (zone : Zone) (update : Record) : Decidable (KeepsSoa zone update) :=
  inferInstanceAs (Decidable (_ → _ ∧ _))

def LegibleUpdate (zone : Zone) (message : List Record × List Record) : Prop :=
  ∀ update ∈ message.2, (update.class_ = classIn → LegibleRecord update) ∧ KeepsSoa zone update

/-! ## One SOA -/

/-- The map holds one SOA, with the data of the field. -/
def OneSoa (zone : Zone) : Prop :=
  ∃ soa : Record, soa.rdata = zone.soa.rdata ∧ SoaCoherent { zone with soa }

theorem SoaCoherent.oneSoa (coherent : SoaCoherent zone) : OneSoa zone :=
  ⟨zone.soa, rfl, coherent⟩

theorem updateOne_oneSoa {update : Record} (one : OneSoa zone) (keeps : KeepsSoa zone update)
    (done : zone.updateOne update = some zone') : OneSoa zone' := by
  obtain ⟨soa, same, coherent⟩ := one
  obtain ⟨origin, field, effect⟩ := updateOne_soas done
  by_cases refreshed : update.rtype = typeSoa ∧ update.class_ = classIn
  · -- the same SOA again: its TTL is refreshed in place
    obtain ⟨apex, data⟩ := (keeps refreshed.1).1 refreshed.2
    have marked : isSoa update = true := decide_eq_true refreshed.1
    have typed : soa.rtype = typeSoa := by
      have stored : isSoa soa = true := soa_isSoa coherent
      exact of_decide_eq_true stored
    have found : Zone.sameRr update soa = true := by
      simp [Zone.sameRr, typed, refreshed.1, same, data]
    refine ⟨{ soa with ttl := update.ttl }, by rw [field]; exact same, fun name => ?_⟩
    have before : soasAt zone.records name = if name = zone.origin then [soa] else [] :=
      coherent name
    dsimp only
    rw [effect name, origin, apex, before]
    by_cases here : name = zone.origin
    · rw [if_pos here, if_pos here, if_pos here, soaEffect, if_pos refreshed.2, marked,
        if_neg (by simp)]
      simp [found, Zone.refreshTtl]
    · rw [if_neg here, if_neg here, if_neg here]
  · -- any other update record leaves the stored SOA as it is
    have harmless : Harmless { zone with soa } update := by
      intro typed
      refine ⟨fun inClass => absurd ⟨typed, inClass⟩ refreshed, fun noneClass => ?_⟩
      rw [same]
      exact (keeps typed).2 noneClass
    have step : ({ zone with soa } : Zone).updateOne update = some { zone' with soa } := by
      unfold Zone.updateOne at done ⊢
      obtain ⟨records, changed, rfl⟩ := Option.map_eq_some_iff.mp done
      exact Option.map_eq_some_iff.mpr ⟨records, changed, rfl⟩
    exact ⟨soa, by rw [field]; exact same, (updateOne_coherent_iff coherent step).mpr harmless⟩

theorem bumpSerial_oneSoa (one : OneSoa zone) : OneSoa zone.bumpSerial := by
  obtain ⟨soa, same, coherent⟩ := one
  cases typed : zone.soa.rdata with
  | soa fields =>
    refine SoaCoherent.oneSoa fun name => ?_
    have before : soasAt zone.records name = if name = zone.origin then [soa] else [] :=
      coherent name
    rw [bumpSerial_soas typed, bumpSerial_origin, before]
    split <;> rfl
  | _ =>
    have unchanged : zone.bumpSerial = zone := by rw [Zone.bumpSerial, typed]
    rw [unchanged]
    exact ⟨soa, same, coherent⟩

/-! ## Legible records -/

def AllLegible (records : Records) : Prop :=
  ∀ name node, records.get? name = some node → ∀ record ∈ node, LegibleRecord record

theorem allLegible_iff (records : Records) :
    AllLegible records ↔ ∀ record ∈ stored records, LegibleRecord record := by
  constructor
  · intro legible record member
    obtain ⟨name, node, found, inside⟩ := (mem_stored_iff records record).mp member
    exact legible name node found record inside
  · intro legible name node found record inside
    exact legible record ((mem_stored_iff records record).mpr ⟨name, node, found, inside⟩)

theorem allLegible_insert {records : Records} {name : DnsName} {node : List Record}
    (legible : AllLegible records) (fresh : ∀ record ∈ node, LegibleRecord record) :
    AllLegible (records.insert name node) := by
  intro other held found
  rw [HashMap.get?_insert] at found
  split at found
  · cases found
    exact fresh
  · exact legible other held found

theorem allLegible_modify {records : Records} {name : DnsName}
    {change : List Record → List Record} (legible : AllLegible records)
    (kept : ∀ node, (∀ record ∈ node, LegibleRecord record) →
      ∀ record ∈ change node, LegibleRecord record) :
    AllLegible (records.modify name change) := by
  unfold HashMap.modify
  split
  · exact legible
  · rename_i node found
    exact allLegible_insert legible (kept node (legible name node found))

theorem updateOne_legible {update : Record} (legible : AllLegible zone.records)
    (added : update.class_ = classIn → LegibleRecord update)
    (done : zone.updateOne update = some zone') : AllLegible zone'.records := by
  rw [allLegible_iff] at legible ⊢
  refine updateOne_forall_stored (fun record _ here => ?_) legible added done
  exact ⟨here.name, here.data⟩

/-! ## Whole updates -/

structure Writable (zone : Zone) : Prop where
  kept : Kept zone
  origin : LegibleName zone.origin
  one : OneSoa zone
  legible : AllLegible zone.records

theorem updateAll_writable (updates : List Record) :
    ∀ {zone zone' : Zone}, OneSoa zone → AllLegible zone.records →
      (∀ update ∈ updates, (update.class_ = classIn → LegibleRecord update) ∧
        KeepsSoa zone update) →
      zone.updateAll updates = (rcodeNoerror, zone') →
      zone'.origin = zone.origin ∧ OneSoa zone' ∧ AllLegible zone'.records := by
  induction updates with
  | nil =>
    intro zone zone' one legible _ done
    cases done
    exact ⟨rfl, one, legible⟩
  | cons update rest ih =>
    intro zone zone' one legible good done
    obtain ⟨⟨added, keeps⟩, later⟩ := List.forall_mem_cons.mp good
    obtain ⟨middle, stepped, done⟩ := updateAll_cons_ok done
    obtain ⟨origin, soa, _⟩ := updateOne_soas stepped
    have rest : ∀ update ∈ rest, (update.class_ = classIn → LegibleRecord update) ∧
        KeepsSoa middle update := by
      intro other member
      refine ⟨(later other member).1, ?_⟩
      rw [KeepsSoa, origin, soa]
      exact (later other member).2
    obtain ⟨sameOrigin, oneLast, legibleLast⟩ := ih (updateOne_oneSoa one keeps stepped)
      (updateOne_legible legible added stepped) rest done
    exact ⟨sameOrigin.trans origin, oneLast, legibleLast⟩

theorem applyUpdate_writable {prereqs updates : List Record} (writable : Writable zone)
    (good : LegibleUpdate zone (prereqs, updates))
    (done : zone.applyUpdate prereqs updates = (rcodeNoerror, zone')) : Writable zone' := by
  have kept := applyUpdate_structured writable.kept done
  obtain ⟨_, _, applied⟩ := applyUpdate_ok done
  obtain ⟨origin, one, legible⟩ :=
    updateAll_writable updates writable.one writable.legible good applied
  exact ⟨kept, origin ▸ writable.origin, one, legible⟩

theorem OneSoa.stored (one : OneSoa zone) (kept : Kept zone) :
    ∃ soa, soa.rdata = zone.soa.rdata ∧ soa.name = zone.origin ∧
      (Zones.stored zone.records).filter isSoa = [soa] := by
  obtain ⟨soa, same, coherent⟩ := one
  have apex : soa.name = zone.origin := node_owned kept.1.placed _ _ (soa_stored coherent)
  have single : (Zones.stored zone.records).filter isSoa = [soa] := stored_soas coherent
  exact ⟨soa, same, apex, single⟩

theorem bumpSerial_writable (writable : Writable zone) : Writable zone.bumpSerial := by
  refine ⟨bumpSerial_structured writable.kept, ?_, bumpSerial_oneSoa writable.one, ?_⟩
  · rw [bumpSerial_origin]
    exact writable.origin
  · obtain ⟨soa, same, _, single⟩ := writable.one.stored writable.kept
    have member : soa ∈ stored zone.records :=
      (List.mem_filter.mp (single ▸ List.mem_singleton_self soa)).1
    have data := ((allLegible_iff _).mp writable.legible soa member).data
    rw [same] at data
    unfold Zone.bumpSerial
    split
    · rename_i fields typed
      rw [typed] at data
      have name : LegibleName zone.soa.name := by
        have owner : zone.soa.name = zone.origin := writable.kept.2
        rw [owner]
        exact writable.origin
      have fresh : LegibleRecord
          { zone.soa with rdata := .soa { fields with serial := fields.serial + 1 } } := by
        refine ⟨name, ⟨data.names, ?_, ?_, data.named⟩⟩
        · intro strings impossible
          cases impossible
        · intro rtype octets impossible
          cases impossible
      refine allLegible_modify writable.legible fun node before record inside => ?_
      obtain ⟨old, among, rfl⟩ := List.mem_map.mp inside
      split
      · exact fresh
      · exact before old among
    · exact writable.legible

theorem parseZoneFile_built {text : String} (loaded : parseZoneFile text = .ok zone) :
    ∃ origin all, Zone.fromRecords origin all = .ok zone := by
  unfold parseZoneFile at loaded
  obtain ⟨logical, _, loaded⟩ := fallible_bind loaded
  obtain ⟨state, _, loaded⟩ := fallible_bind loaded
  split at loaded
  · cases loaded
  split at loaded
  · rename_i built
    cases loaded
    exact ⟨_, _, built⟩
  · cases loaded

/-- After any run of legible updates the written file loads. -/
theorem run_loads {text : String} {zone last : Zone} {messages : List (List Record × List Record)}
    (loaded : parseZoneFile text = .ok zone) (legibleOrigin : LegibleName zone.origin)
    (legible : ∀ record ∈ stored zone.records, LegibleRecord record)
    (run : Run (When LegibleUpdate Committed) zone messages last) :
    ∃ read, parseZoneFile last.toZonefile = .ok read := by
  obtain ⟨origin, all, built⟩ := parseZoneFile_built loaded
  have start : Writable zone :=
    ⟨fromRecords_structured built, legibleOrigin, (fromRecords_coherent built).oneSoa,
      (allLegible_iff _).mpr legible⟩
  have writable : Writable last := by
    refine run.invariant (fun state message state' writable step => ?_) start
    obtain ⟨good, middle, done, rfl⟩ := step
    exact bumpSerial_writable (applyUpdate_writable writable good done)
  obtain ⟨soa, _, apex, single⟩ := writable.one.stored writable.kept
  obtain ⟨read, success, _⟩ := parseZoneFile_loads writable.kept.1 single apex writable.origin
    ((allLegible_iff _).mp writable.legible)
  exact ⟨read, success⟩

/-! ## Samples -/

def smallFile : String := "$ORIGIN t.\n@ SOA @ @ 1 2 3 4 5\n"

theorem smallOrigin_valid : ValidLabels [[116]] := by decide

def smallOrigin : DnsName := ⟨[[116]], smallOrigin_valid⟩

def smallSoa : Record where
  name := smallOrigin
  class_ := classIn
  ttl := 3600
  rdata := .soa ⟨smallOrigin, smallOrigin, 1, 2, 3, 4, 5⟩

def smallAddress : Record where
  name := smallOrigin
  class_ := classIn
  ttl := 60
  rdata := .a (.new 10 0 0 1)

theorem smallOrigin_legible : LegibleName smallOrigin :=
  ⟨by simp [smallOrigin, structural], by decide⟩

theorem smallSoa_legible : LegibleRecord smallSoa := by
  refine ⟨smallOrigin_legible, ⟨?_, ?_, ?_, by decide⟩⟩
  · intro name member
    have both : ∀ name ∈ dataNames smallSoa.rdata, name = smallOrigin := by decide
    rw [both name member]
    exact smallOrigin_legible
  · intro strings impossible
    cases impossible
  · intro rtype data impossible
    cases impossible

theorem smallAddress_legible : LegibleRecord smallAddress := by
  refine ⟨smallOrigin_legible, ⟨List.forall_mem_nil _, ?_, ?_, by decide⟩⟩
  · intro strings impossible
    cases impossible
  · intro rtype data impossible
    cases impossible

theorem run_loads_small :
    ∃ zone last read, parseZoneFile smallFile = .ok zone ∧
      Run (When LegibleUpdate Committed) zone [([], [smallAddress])] last ∧
      parseZoneFile last.toZonefile = .ok read := by
  have checked : (parseZoneFile smallFile).toOption.any (fun zone =>
      decide (zone.origin = smallOrigin ∧ stored zone.records = [smallSoa] ∧
        (zone.applyUpdate [] [smallAddress]).1 = rcodeNoerror)) = true := by decide +kernel
  obtain ⟨zone, loaded, checked⟩ := exists_of_toOption_any checked
  obtain ⟨origin, records, accepted⟩ := of_decide_eq_true checked
  have legible : ∀ record ∈ stored zone.records, LegibleRecord record := by
    rw [records]
    exact List.forall_mem_singleton.mpr smallSoa_legible
  have update : LegibleUpdate zone ([], [smallAddress]) := by
    refine List.forall_mem_singleton.mpr ⟨fun _ => smallAddress_legible, ?_⟩
    exact fun typed => absurd typed (by decide)
  have run : Run (When LegibleUpdate Committed) zone [([], [smallAddress])]
      (zone.applyUpdate [] [smallAddress]).2.bumpSerial :=
    .next ⟨update, _, Prod.ext accepted rfl, rfl⟩ (.done _)
  obtain ⟨read, success⟩ := run_loads loaded (origin ▸ smallOrigin_legible) legible run
  exact ⟨zone, _, read, loaded, run, success⟩

def quoteWire : Bytes :=
  [0, 1, 0x28, 0, 0, 1, 0, 0, 0, 1, 0, 0, 1, 116, 0, 0, 6, 0, 1,
    0xC0, 12, 0, 16, 0, 1, 0, 0, 0, 60, 0, 2, 1, 34]

/-- The update is accepted, and the file written afterwards does not load. -/
theorem quoteWire_unloadable :
    ∃ zone message last, parseZoneFile smallFile = .ok zone ∧
      Message.parse quoteWire = .ok message ∧
      Run Committed zone [(message.answers, message.authorities)] last ∧
      ∀ read, parseZoneFile last.toZonefile ≠ .ok read := by
  have checked : (parseZoneFile smallFile).toOption.any (fun zone =>
      (Message.parse quoteWire).toOption.any fun message =>
        let result := zone.applyUpdate message.answers message.authorities
        decide (result.1 = rcodeNoerror) &&
          (parseZoneFile result.2.bumpSerial.toZonefile).toOption.isNone) = true := by
    decide +kernel
  obtain ⟨zone, loaded, checked⟩ := exists_of_toOption_any checked
  obtain ⟨message, parsed, checked⟩ := exists_of_toOption_any checked
  obtain ⟨accepted, refused⟩ := Bool.and_eq_true_iff.mp checked
  refine ⟨zone, message, _, loaded, parsed,
    .next ⟨_, Prod.ext (of_decide_eq_true accepted) rfl, rfl⟩ (.done _), ?_⟩
  intro read success
  rw [success] at refused
  cases refused

end Rdns.Zones
