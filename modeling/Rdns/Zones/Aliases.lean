import Rdns.Zones.Rrsets
import Rdns.Zones.Assemble
import Rdns.Zones.Wildcards

/-!
# Records of type CNAME

A lookup takes the data of a record of type CNAME for a name and panics otherwise.
The generic text form and an empty RDATA on the wire both make such records without
a name.  Where none comes in that way, every zone that edits can reach answers every
lookup.
-/

set_option autoImplicit false

namespace Rdns.Zones

open Rdns.Lib Rdns.Proto

variable {zone zone' : Zone} {name origin : DnsName} {rtype : String}

def CnameTyped (record : Record) : Prop :=
  record.rtype = typeCname → ∃ target, record.rdata = .cname target

def CnamesTyped (zone : Zone) : Prop := ∀ record ∈ stored zone.records, CnameTyped record

theorem cnamesTyped_iff (zone : Zone) :
    CnamesTyped zone ↔
      ∀ name, ∀ record ∈ zone.rrset name typeCname, ∃ target, record.rdata = .cname target := by
  rw [CnamesTyped, forall_stored_iff]
  constructor
  · intro typed name record member
    obtain ⟨held, rtype⟩ := Zone.mem_rrset.mp member
    exact typed name record held rtype
  · intro typed name record held rtype
    exact typed name record (Zone.mem_rrset.mpr ⟨held, rtype⟩)

theorem CnamesTyped.found (typed : CnamesTyped zone) {node : List Record}
    (found : zone.findNode name = some node) {record : Record} (member : record ∈ node) :
    CnameTyped record := by
  rcases Zone.findNode_cases found with stored | ⟨skip, wildcard, source, taken, rfl⟩
  · exact typed record ((mem_stored_iff _ _).mpr ⟨name, node, stored, member⟩)
  · obtain ⟨original, among, rfl⟩ := List.mem_map.mp member
    exact typed original ((mem_stored_iff _ _).mpr ⟨wildcard, source, taken.stored, among⟩)

theorem CnamesTyped.alias (typed : CnamesTyped zone) {qtype : UInt16} {cname : Record}
    (taken : zone.Alias qtype name cname) : ∃ target, cname.rdata = .cname target := by
  obtain ⟨node, looked, _, found⟩ := taken
  have rtype := List.find?_some found
  rw [decide_eq_true_iff] at rtype
  exact typed.found looked (List.mem_of_find?_eq_some found) rtype

/-! ## Edits -/

/-- The text starts with the mark of the generic form of RFC 3597. -/
def Generic (content : String) : Prop :=
  ∃ toks depth, tokenizeLine content 0 0 = .ok (toks, depth) ∧
    toks.head?.map Tok.text = some "\\#"

/-- Contents for a CNAME are not in generic form, and records to add of type CNAME hold a
target. -/
def CnameEdit (_ : Zone) : Edit → Prop
  | .replace _ rtype _ contents =>
    typeCode rtype = some typeCname → ∀ content ∈ contents, ¬ Generic content
  | .update _ updates => ∀ update ∈ updates, update.class_ = classIn → CnameTyped update
  | _ => True

theorem parsePresentation_cname {toks : List Tok} {line : Nat} {rdata : RData}
    (parsed : parsePresentation rtype toks origin line = .ok rdata)
    (typed : rdata.rtype = typeCname) : ∃ target, rdata = .cname target := by
  have code := parsePresentation_rtype parsed
  rw [typed] at code
  unfold parsePresentation at parsed
  split at parsed
  case h_4 =>
    split at parsed
    · obtain ⟨target, _, parsed⟩ := fallible_bind parsed
      cases parsed
      exact ⟨target, rfl⟩
    · cases parsed
  case h_11 => split at parsed <;> cases parsed
  -- the other names have other codes
  all_goals exact absurd code (by decide)

theorem rdataFromText_cname {content : String} {rdata : RData} (plain : ¬ Generic content)
    (parsed : rdataFromText rtype content origin = .ok rdata) (typed : rdata.rtype = typeCname) :
    ∃ target, rdata = .cname target := by
  unfold rdataFromText at parsed
  obtain ⟨⟨toks, depth⟩, tokens, parsed⟩ := fallible_bind parsed
  have lexed := mapErr_eq_ok tokens
  dsimp only at parsed
  split at parsed
  · cases parsed
  · have read := mapErr_eq_ok parsed
    rw [parseRdata, if_neg fun generic => plain ⟨toks, depth, lexed, generic⟩] at read
    exact parsePresentation_cname read typed

theorem replaceRrset_cnamesTyped {ttl : UInt32} {contents : List String} (typed : CnamesTyped zone)
    (plain : typeCode rtype = some typeCname → ∀ content ∈ contents, ¬ Generic content)
    (success : zone.replaceRrset name rtype ttl contents = (.ok (), zone')) :
    CnamesTyped zone' := by
  rw [cnamesTyped_iff] at typed ⊢
  obtain ⟨code, data, named, parsed, coded, fresh, others⟩ := replaceRrset_exact success
  intro owner record member
  by_cases replaced : (owner, typeCname) = (name, code)
  · cases replaced
    rw [fresh] at member
    obtain ⟨rdata, among, rfl⟩ := List.mem_map.mp member
    obtain ⟨content, given, read⟩ := exists_of_mem_forall₂ parsed among
    exact rdataFromText_cname (plain named content given) read (coded rdata among)
  · rw [others owner typeCname replaced] at member
    exact typed owner record member

theorem deleteRrset_cnamesTyped (typed : CnamesTyped zone)
    (success : zone.deleteRrset name rtype = (.ok (), zone')) : CnamesTyped zone' := by
  rw [cnamesTyped_iff] at typed ⊢
  obtain ⟨code, _, gone, others, _⟩ := deleteRrset_exact success
  intro owner record member
  by_cases deleted : (owner, typeCname) = (name, code)
  · cases deleted
    rw [gone] at member
    cases member
  · rw [others owner typeCname deleted] at member
    exact typed owner record member

theorem applyUpdate_cnamesTyped (prereqs : List Record) {updates : List Record}
    (typed : CnamesTyped zone)
    (added : ∀ update ∈ updates, update.class_ = classIn → CnameTyped update) :
    CnamesTyped (zone.applyUpdate prereqs updates).2 := by
  refine applyUpdate_invariant (fun _ kept => kept) prereqs ?_ typed
  intro update member zone zone' kept done
  exact updateOne_forall_stored (fun record _ here => here) kept (added update member) done

theorem bumpSerial_cnamesTyped (typed : CnamesTyped zone) : CnamesTyped zone.bumpSerial := by
  unfold Zone.bumpSerial
  split
  · rename_i fields _
    rw [CnamesTyped, forall_stored_iff] at typed ⊢
    intro name record member
    rw [getD_modify _ _ _ _ rfl] at member
    split at member
    · obtain ⟨old, among, rfl⟩ := List.mem_map.mp member
      split
      · intro impossible
        cases impossible
      · exact typed zone.origin old among
    · exact typed name record member
  · exact typed

theorem edits_cnamesTyped {edit : Edit} (typed : CnamesTyped zone) (allowed : CnameEdit zone edit)
    (step : Edits zone edit zone') : CnamesTyped zone' := by
  cases step with
  | replace success => exact replaceRrset_cnamesTyped typed allowed success
  | delete success => exact deleteRrset_cnamesTyped typed success
  | @update _ prereqs updates success =>
    have updated := applyUpdate_cnamesTyped prereqs typed allowed
    rw [success] at updated
    exact updated
  | bump => exact bumpSerial_cnamesTyped typed

theorem fromRecords_cnamesTyped_iff {all : List Record}
    (built : Zone.fromRecords origin all = .ok zone) :
    CnamesTyped zone ↔ ∀ record ∈ all, CnameTyped record := by
  have same := fromRecords_perm built
  constructor
  · exact fun typed record member => typed record (same.mem_iff.mpr member)
  · exact fun typed record member => typed record (same.mem_iff.mp member)

theorem shell_cnamesTyped : CnamesTyped shell := by
  refine (fromRecords_cnamesTyped_iff shell_built).mpr fun record member => ?_
  obtain rfl := List.mem_singleton.mp member
  exact fun impossible => absurd impossible (by decide)

/-- As long as no CNAME without a target comes in, every lookup returns. -/
theorem run_lookup_returns {zone last : Zone} {edits : List Edit} (typed : CnamesTyped zone)
    (run : Run (When CnameEdit Edits) zone edits last) (qname : DnsName) (qtype : UInt16) :
    ∃ result, last.lookup qname qtype = some result := by
  have kept : CnamesTyped last := by
    refine run.invariant (fun state edit state' typed step => ?_) typed
    exact edits_cnamesTyped typed step.1 step.2
  refine (Zone.lookup_returns_iff last qname qtype).mpr fun steps _ name cname _ taken => ?_
  exact kept.alias taken

theorem run_lookup_returns_shell :
    CnamesTyped shell ∧ ∃ last, Run (When CnameEdit Edits) shell [.update [] [apexAddress]] last ∧
      ∃ result, last.lookup apexName typeA = some result := by
  have accepted : (shell.applyUpdate [] [apexAddress]).1 = rcodeNoerror := by decide +kernel
  generalize updatedEq : (shell.applyUpdate [] [apexAddress]).2 = updated
  have step : When CnameEdit Edits shell (.update [] [apexAddress]) updated := by
    refine ⟨fun update member _ => ?_, .update (Prod.ext accepted updatedEq)⟩
    obtain rfl := List.mem_singleton.mp member
    exact fun impossible => absurd impossible (by decide)
  have run := Run.next step (.done updated)
  exact ⟨shell_cnamesTyped, updated, run, run_lookup_returns shell_cnamesTyped run apexName typeA⟩

def emptyCname : Bytes :=
  [0, 7, 40, 0, 0, 1, 0, 0, 0, 1, 0, 0,
   2, 101, 120, 4, 116, 101, 115, 116, 0, 0, 6, 0, 1,
   1, 97, 192, 12, 0, 5, 0, 1, 0, 0, 0, 60, 0, 0]

/-- The update is accepted, and a query for the address of the name then panics. -/
theorem emptyCname_panics :
    ∃ msg last, Message.parse emptyCname = .ok msg ∧
      Run Edits shell [.update msg.answers msg.authorities] last ∧
      last.lookup (hostName 97) typeA = none := by
  have served : (Message.parse emptyCname).toOption.any (fun msg =>
      (shell.applyUpdate msg.answers msg.authorities).1 = rcodeNoerror &&
      ((shell.applyUpdate msg.answers msg.authorities).2.lookup (hostName 97) typeA).isNone) =
      true := by decide +kernel
  obtain ⟨msg, parsed, passed⟩ := exists_of_toOption_any served
  obtain ⟨accepted, stopped⟩ := Bool.and_eq_true_iff.mp passed
  have step : Edits shell (.update msg.answers msg.authorities)
      (shell.applyUpdate msg.answers msg.authorities).2 :=
    .update (Prod.ext (of_decide_eq_true accepted) rfl)
  exact ⟨msg, _, parsed, .next step (.done _), Option.isNone_iff_eq_none.mp stopped⟩

end Rdns.Zones
