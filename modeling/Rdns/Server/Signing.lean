import Rdns.Resolver.SignedAnswers
import Rdns.Server.Writers
import Rdns.Zones.Assemble
import Rdns.Zones.File
import Rdns.Zones.Structure

/-!
# Signed material and zone data

The signed material is a second copy of the zones, made by `resign` from the zone set
as it is.  The management API, dynamic updates, SIGHUP and a timer call it after they
have changed the zones; a deletion has nothing to sign.  A secondary transfer does not
call it, and what it installs is served with the signatures of the zone before.
-/

set_option autoImplicit false

namespace Rdns.Server

open Rdns.Lib Rdns.Proto Rdns.Zones Rdns.Dnssec Rdns.Resolver.Serve

variable {zones zones' : List Zone} {zone : Zone} {edit : Edit}

/-! ## Operations -/

structure Signer where
  keys : List DnssecKey
  origins : List DnsName
  validitySecs : UInt64
  nsec3 : Option Nsec3Params

/-- Zone files, with what reading each one gave after its includes were expanded. -/
abbrev ZoneFiles := List (String × Except String String)

def loadZones : ZoneFiles → List Zone → Fallible String (List Zone)
  | [], zones => .ok zones
  | (path, read) :: rest, zones =>
    match read with
    | .error e => .error (.failed e)
    | .ok text =>
      match mapErr (fun e => path ++ ": " ++ ZoneError.display e) (parseZoneFile text) with
      | .error e => .error e
      | .ok zone =>
        if zones.any (atOrigin zone.origin) then
          .error (.failed (path ++ ": duplicate zone " ++ zone.origin.display))
        else loadZones rest (zones ++ [zone])

inductive Operation
  | edit (edit : Edit)
  | reload (files : ZoneFiles) (rpz : Option Rpz)
  | tick

variable {crypto : Crypto}

namespace Signer

variable (signer : Signer)

/-- None where signing panics. -/
def resign (config : Config crypto) (now : UInt64) : Option (Config crypto) :=
  config.resign signer.keys signer.origins now signer.validitySecs signer.nsec3

/-- `after_change`, and the same lines of `handle_update`. -/
def afterChange (config : Config crypto) (origin : DnsName) (now : UInt64) :
    Option (Config crypto) :=
  if signer.origins.contains origin then signer.resign config now else some config

def perform (config : Config crypto) (now : UInt64) : Operation → Option (Config crypto)
  | .edit edit =>
    match edit.apply config.zones with
    | .error .panicked => none
    | .error _ => some config
    | .ok zones =>
      let config := { config with zones }
      match edit with
      | .update origin _ _ | .patch origin _ | .create origin _ =>
        signer.afterChange config origin now
      | .delete _ | .transfer _ => some config
  | .reload files rpz =>
    let config := { config with rpz := rpz.getD config.rpz }
    match loadZones files [] with
    | .error .panicked => none
    | .error (.failed _) => signer.resign config now
    | .ok zones => signer.resign { config with zones } now
  | .tick => signer.resign config now

def Performs (config : Config crypto) (call : UInt64 × Operation) (config' : Config crypto) :
    Prop :=
  signer.perform config call.1 call.2 = some config'

/-- What is signed under an origin is the zone served there, signed at some time. -/
def Follows (config : Config crypto) : Prop :=
  ∀ origin ∈ signer.origins, ∀ zone, config.zoneAt origin = some zone →
    ∃ now material,
      SignedZone.sign crypto zone signer.keys now signer.validitySecs signer.nsec3 =
        some material ∧
      config.signed.get? origin = some material

def Primary (_ : Config crypto) (call : UInt64 × Operation) : Prop :=
  ∀ zone, call.2 = .edit (.transfer zone) → zone.origin ∉ signer.origins

end Signer

/-! ## The zone set -/

def Distinct (zones : List Zone) : Prop := (zones.map Zone.origin).Nodup

theorem distinct_nil : Distinct [] := List.nodup_nil

theorem nodup_push {names : List DnsName} {name : DnsName} (distinct : names.Nodup)
    (fresh : name ∉ names) : (names ++ [name]).Nodup := by
  rw [← List.concat_eq_append]
  exact distinct.concat fresh

theorem upsertZone_distinct (distinct : Distinct zones) (zone : Zone) :
    Distinct (upsertZone zones zone) := by
  unfold Distinct
  rw [origins_upsertZone]
  split
  · exact distinct
  · rename_i fresh
    exact nodup_push distinct fresh

theorem find?_eq_none_of_fresh {origin : DnsName} (fresh : origin ∉ zones.map Zone.origin) :
    zones.find? (atOrigin origin) = none := by
  refine List.find?_eq_none.mpr fun zone member here => fresh ?_
  exact List.mem_map.mpr ⟨zone, member, of_decide_eq_true here⟩

theorem origin_of_find? {origin : DnsName} (found : zones.find? (atOrigin origin) = some zone) :
    zone.origin = origin := by
  have here := List.find?_some found
  exact of_decide_eq_true here

theorem deleteZone_spec {origin : DnsName} :
    ∀ {zones zones' : List Zone}, Distinct zones → deleteZone origin zones = .ok zones' →
      zones'.Sublist zones ∧ zones'.find? (atOrigin origin) = none ∧
      ∀ other, other ≠ origin →
        zones'.find? (atOrigin other) = zones.find? (atOrigin other) := by
  intro zones
  induction zones with
  | nil =>
    intro zones' _ done
    cases done
  | cons first rest ih =>
    intro zones' distinct done
    obtain ⟨alone, later⟩ := List.nodup_cons.mp distinct
    rw [deleteZone_cons] at done
    split at done
    · rename_i here
      cases done
      refine ⟨List.sublist_cons_self _ _, find?_eq_none_of_fresh (here ▸ alone), ?_⟩
      intro other apart
      have passed : ¬ atOrigin other first = true := by
        simpa [atOrigin, here] using fun same => apart same.symm
      rw [List.find?_cons_of_neg passed]
    · rename_i elsewhere
      cases removed : deleteZone origin rest with
      | error e =>
        rw [removed] at done
        cases done
      | ok left =>
        rw [removed] at done
        cases done
        obtain ⟨sublist, gone, kept⟩ := ih later removed
        refine ⟨sublist.cons_cons first, ?_, fun other apart => ?_⟩
        · rw [List.find?_cons_of_neg (by simpa [atOrigin] using elsewhere)]
          exact gone
        · rw [List.find?_cons, List.find?_cons, kept other apart]

theorem loadZones_distinct :
    ∀ (files : ZoneFiles) {zones zones' : List Zone}, Distinct zones →
      loadZones files zones = .ok zones' → Distinct zones' := by
  intro files
  induction files with
  | nil =>
    intro zones zones' distinct loaded
    cases loaded
    exact distinct
  | cons file rest ih =>
    intro zones zones' distinct loaded
    unfold loadZones at loaded
    split at loaded
    · cases loaded
    split at loaded
    · cases loaded
    rename_i zone _
    split at loaded
    · cases loaded
    rename_i fresh
    refine ih ?_ loaded
    unfold Distinct
    rw [List.map_append]
    refine nodup_push distinct fun listed => fresh ?_
    obtain ⟨other, member, same⟩ := List.mem_map.mp listed
    exact List.any_eq_true.mpr ⟨other, member, decide_eq_true same⟩

/-! ## Edits of the zone set -/

theorem applyRrset_origin {zone' : Zone} {rrset : RrsetIn}
    (done : applyRrset zone rrset = (.ok (), zone')) : zone'.origin = zone.origin := by
  obtain ⟨owner, _, replaced | deleted⟩ := applyRrset_ok done
  · exact edits_origin (.replace replaced)
  · exact edits_origin (.delete deleted)

theorem applyRrsets_origin (rrsets : List RrsetIn) {zone' : Zone}
    (done : applyRrsets zone rrsets = .ok zone') : zone'.origin = zone.origin :=
  applyRrsets_invariant
    (fun _ _ _ same stepped => (applyRrset_origin stepped).trans same) rrsets rfl done

theorem updatedZone_origin {prereqs updates : List Record} {old : Zone}
    (done : updatedZone prereqs updates old = .ok zone) : zone.origin = old.origin := by
  unfold updatedZone at done
  dsimp only at done
  split at done
  · cases done
  · cases done
    rw [bumpSerial_origin, applyUpdate_origin]

theorem newZone_origin {origin : DnsName} {rrsets : List RrsetIn}
    (done : newZone origin rrsets = .ok zone) : zone.origin = origin := by
  obtain ⟨soa, shell, built, edited⟩ := newZone_ok done
  exact (applyRrsets_origin _ edited).trans (fromRecords_ok built).1

def Edit.origin : Edit → DnsName
  | .update origin _ _ | .patch origin _ | .create origin _ | .delete origin => origin
  | .transfer zone => zone.origin

/-- An accepted edit puts a zone at its origin or takes it away. -/
theorem apply_cases (done : edit.apply zones = .ok zones') :
    (∃ zone, zone.origin = edit.origin ∧ zones' = upsertZone zones zone) ∨
      edit = .delete edit.origin ∧ deleteZone edit.origin zones = .ok zones' := by
  cases edit with
  | update origin prereqs updates =>
    rw [Edit.apply] at done
    split at done
    · cases done
    rename_i old found
    have here : old.origin = origin := origin_of_find? found
    obtain ⟨zone, updated, done⟩ := fallible_bind done
    cases done
    exact Or.inl ⟨zone, (updatedZone_origin updated).trans here, rfl⟩
  | patch origin rrsets =>
    rw [Edit.apply, patchZone] at done
    split at done
    · rename_i index old position found
      have here : old.origin = origin := origin_of_find? found
      obtain ⟨zone, patched, done⟩ := fallible_bind done
      cases done
      have own : zone.bumpSerial.origin = origin := by
        rw [bumpSerial_origin, applyRrsets_origin _ patched, here]
      refine Or.inl ⟨zone.bumpSerial, own, ?_⟩
      rw [upsertZone, own, position]
    · cases done
  | create origin rrsets =>
    rw [Edit.apply, createZone] at done
    split at done
    · cases done
    rename_i fresh
    obtain ⟨zone, made, done⟩ := fallible_bind done
    cases done
    have own := newZone_origin made
    have unplaced : zones.findIdx? (atOrigin origin) = none := by
      simpa using fresh
    refine Or.inl ⟨zone, own, ?_⟩
    rw [upsertZone, own, unplaced]
  | delete origin => exact Or.inr ⟨rfl, done⟩
  | transfer zone =>
    cases done
    exact Or.inl ⟨zone, rfl, rfl⟩

theorem apply_distinct (distinct : Distinct zones) (done : edit.apply zones = .ok zones') :
    Distinct zones' := by
  rcases apply_cases done with ⟨zone, _, rfl⟩ | ⟨_, removed⟩
  · exact upsertZone_distinct distinct zone
  · exact distinct.sublist ((deleteZone_spec distinct removed).1.map Zone.origin)

theorem apply_frame (distinct : Distinct zones) (done : edit.apply zones = .ok zones')
    {other : DnsName} (apart : other ≠ edit.origin) :
    zones'.find? (atOrigin other) = zones.find? (atOrigin other) := by
  rcases apply_cases done with ⟨zone, own, rfl⟩ | ⟨_, removed⟩
  · rw [find?_upsertZone, own, if_neg fun same => apart same.symm]
  · exact (deleteZone_spec distinct removed).2.2 other apart

/-! ## Runs -/

namespace Signer

variable {signer : Signer} {config config' : Config crypto} {now : UInt64}

theorem resign_zones (done : signer.resign config now = some config') :
    config'.zones = config.zones := by
  obtain ⟨_, _, rfl⟩ := Config.resign_ok done
  rfl

theorem resign_follows (done : signer.resign config now = some config') :
    signer.Follows config' := by
  intro origin listed zone served
  have same : config'.zoneAt origin = config.zoneAt origin := by
    unfold Config.zoneAt
    rw [resign_zones done]
  have chosen : config.signedZone signer.origins origin = some zone := by
    rw [Config.signedZone, if_pos listed, ← same, served]
  obtain ⟨material, made, stored⟩ := (Config.resign_get? done origin).1 zone chosen
  exact ⟨now, material, made, stored⟩

theorem Follows.frame (follows : signer.Follows config)
    (kept : ∀ origin ∈ signer.origins, zones.find? (atOrigin origin) = none ∨
      zones.find? (atOrigin origin) = config.zones.find? (atOrigin origin)) :
    signer.Follows { config with zones } := by
  intro origin listed zone served
  have here : zones.find? (atOrigin origin) = some zone := served
  rcases kept origin listed with gone | same
  · rw [gone] at here
    cases here
  · rw [same] at here
    exact follows origin listed zone here

structure Kept (signer : Signer) (config : Config crypto) : Prop where
  distinct : Distinct config.zones
  follows : signer.Follows config

theorem resign_kept (distinct : Distinct config.zones)
    (done : signer.resign config now = some config') : signer.Kept config' := by
  refine ⟨?_, resign_follows done⟩
  rw [resign_zones done]
  exact distinct

theorem afterChange_kept {origin : DnsName} (distinct : Distinct config.zones)
    (unsigned : origin ∉ signer.origins → signer.Follows config)
    (done : signer.afterChange config origin now = some config') : signer.Kept config' := by
  unfold afterChange at done
  split at done
  · exact resign_kept distinct done
  · rename_i other
    cases done
    exact ⟨distinct, unsigned (by simpa using other)⟩

theorem perform_kept {call : UInt64 × Operation} (kept : signer.Kept config)
    (primary : signer.Primary config call)
    (done : signer.perform config call.1 call.2 = some config') : signer.Kept config' := by
  obtain ⟨distinct, follows⟩ := kept
  obtain ⟨now, operation⟩ := call
  cases operation with
  | tick => exact resign_kept distinct done
  | reload files rpz =>
    unfold perform at done
    dsimp only at done
    split at done
    · cases done
    · refine resign_kept ?_ done
      exact distinct
    · rename_i zones loaded
      exact resign_kept (loadZones_distinct files distinct_nil loaded) done
  | edit edit =>
    unfold perform at done
    dsimp only at done
    split at done
    · cases done
    · cases done
      exact ⟨distinct, follows⟩
    · rename_i zones applied
      have distinct' := apply_distinct distinct applied
      -- the other origins keep their zones, and with them what was signed
      have frame : edit.origin ∉ signer.origins → signer.Follows { config with zones } := by
        refine fun unlisted => follows.frame fun origin listed => Or.inr ?_
        exact apply_frame distinct applied fun same => unlisted (same ▸ listed)
      cases edit with
      | update origin prereqs updates => exact afterChange_kept distinct' frame done
      | patch origin rrsets => exact afterChange_kept distinct' frame done
      | create origin rrsets => exact afterChange_kept distinct' frame done
      | delete origin =>
        cases done
        refine ⟨distinct', follows.frame fun other listed => ?_⟩
        by_cases here : other = origin
        · exact Or.inl (here ▸ (deleteZone_spec distinct applied).2.1)
        · exact Or.inr (apply_frame distinct applied here)
      | transfer zone =>
        cases done
        exact ⟨distinct', frame (primary zone rfl)⟩

/-- As long as no zone that is signed here is transferred in, the signed material describes
what is served. -/
theorem run_follows {files : ZoneFiles} {base start last : Config crypto}
    {calls : List (UInt64 × Operation)} (loaded : loadZones files [] = .ok base.zones)
    (started : signer.resign base now = some start)
    (run : Run (When signer.Primary signer.Performs) start calls last) :
    signer.Follows last := by
  have initial : signer.Kept start :=
    resign_kept (loadZones_distinct files distinct_nil loaded) started
  have kept : signer.Kept last := by
    refine run.invariant (fun state call state' kept step => ?_) initial
    exact perform_kept kept step.1 step.2
  exact kept.follows

end Signer

def sampleSigner : Signer := ⟨[echoKey], [apexName], 1209600, none⟩

def unloaded : Config echoCrypto := { hosting shell with zones := [] }

def createApex : Operation :=
  .edit (.create apexName
    [{ name := "ex.test", rtype := "SOA", ttl := none, changetype := none
       records := ["@ @ 1 2 3 4 5"] }])

/-- A zone that is created through the API is served signed. -/
theorem run_follows_created :
    ∃ start last, sampleSigner.resign unloaded 1700000000 = some start ∧
      Run (When sampleSigner.Primary sampleSigner.Performs) start [(1700000100, createApex)] last ∧
      (last.zoneAt apexName).isSome = true ∧ sampleSigner.Follows last := by
  have computed : ((sampleSigner.resign unloaded 1700000000).bind fun start =>
      sampleSigner.perform start 1700000100 createApex).any
        (fun last => (last.zoneAt apexName).isSome) = true := by decide +kernel
  obtain ⟨last, performed, served⟩ := (Option.any_eq_true _ _).mp computed
  obtain ⟨start, started, done⟩ := Option.bind_eq_some_iff.mp performed
  have primary : sampleSigner.Primary start (1700000100, createApex) := by
    intro zone impossible
    cases impossible
  have run : Run (When sampleSigner.Primary sampleSigner.Performs) start
      [(1700000100, createApex)] last := .next ⟨primary, done⟩ (.done last)
  have loaded : loadZones [] [] = .ok unloaded.zones := rfl
  exact ⟨start, last, started, run, served, Signer.run_follows loaded started run⟩

/-- A zone that is transferred in is served without the signatures it is configured for. -/
theorem transferred_unsigned :
    ∃ start last, loadZones [] [] = .ok unloaded.zones ∧
      sampleSigner.resign unloaded 1700000000 = some start ∧
      Run sampleSigner.Performs start [(1700000100, .edit (.transfer shell))] last ∧
      ¬ sampleSigner.Follows last := by
  have returns : (sampleSigner.resign unloaded 1700000000).isSome = true := by decide +kernel
  obtain ⟨start, started⟩ := Option.isSome_iff_exists.mp returns
  have empty : start.zones = [] := Signer.resign_zones started
  have step : sampleSigner.Performs start (1700000100, .edit (.transfer shell))
      { start with zones := upsertZone start.zones shell } := rfl
  refine ⟨start, _, rfl, started, .next step (.done _), fun follows => ?_⟩
  have served : Config.zoneAt { start with zones := upsertZone start.zones shell } apexName =
      some shell := by
    rw [Config.zoneAt, empty]
    rfl
  obtain ⟨now, material, _, stored⟩ := follows apexName (List.mem_singleton_self _) shell served
  have unsigned := (Config.resign_get? started apexName).2 rfl
  have found : start.signed.get? apexName = some material := stored
  rw [unsigned] at found
  cases found

end Rdns.Server
