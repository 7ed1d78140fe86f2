import Rdns.Zones.Assemble
import Rdns.Zones.Rrsets

/-!
# Dynamic updates

What `apply_update` promises a client: a refused update changes nothing, the
prerequisites are those of RFC 2136, and a repeated update does no more than the first.
The checks are made entry by entry and the update loop stops at the first record of an
unknown class, which is where the first two promises are broken.  For the third, an
update list is reduced to its effect on the copies of a single RR.
-/

set_option autoImplicit false

namespace Rdns.Zones

open Rdns.Lib Rdns.Proto

variable {update : Record} {zone : Zone} {prereqs : List Record}

/-! ## Updates that are refused -/

/-- The classes an update record may have. -/
def Known (update : Record) : Prop :=
  update.class_ = classIn ∨ update.class_ = classAny ∨ update.class_ = classNone

instance (update : Record) : Decidable (Known update) :=
  inferInstanceAs (Decidable (_ ∨ _ ∨ _))

theorem updateOne_of_known (zone : Zone) (known : Known update) :
    ∃ zone', zone.updateOne update = some zone' ∧ zone'.recordCount = zone.recordCount := by
  unfold Zone.updateOne
  dsimp only
  by_cases inClass : update.class_ = classIn
  · rw [if_pos inClass]
    exact ⟨_, rfl, rfl⟩
  rw [if_neg inClass]
  by_cases anyClass : update.class_ = classAny
  · rw [if_pos anyClass]
    exact ⟨_, rfl, rfl⟩
  · rw [if_neg anyClass, if_pos ((known.resolve_left inClass).resolve_left anyClass)]
    exact ⟨_, rfl, rfl⟩

theorem updateOne_of_unknown (zone : Zone) (unknown : ¬ Known update) :
    zone.updateOne update = none := by
  cases done : zone.updateOne update with
  | none => rfl
  | some zone' => exact absurd (updateOne_class done) unknown

theorem updateAll_append {front : List Record} (known : ∀ update ∈ front, Known update) :
    ∀ zone : Zone, ∃ middle : Zone, zone.updateAll front = (rcodeNoerror, middle.recount) ∧
      middle.origin = zone.origin ∧ middle.soa = zone.soa ∧
      middle.recordCount = zone.recordCount ∧
      ∀ rest, zone.updateAll (front ++ rest) = middle.updateAll rest := by
  induction front with
  | nil => exact fun zone => ⟨zone, rfl, rfl, rfl, rfl, fun _ => rfl⟩
  | cons update front ih =>
    intro zone
    obtain ⟨here, later⟩ := List.forall_mem_cons.mp known
    obtain ⟨next, done, count⟩ := updateOne_of_known zone here
    obtain ⟨origin, soa, _⟩ := updateOne_soas done
    obtain ⟨middle, all, sameOrigin, sameSoa, sameCount, onwards⟩ := ih later next
    refine ⟨middle, ?_, sameOrigin.trans origin, sameSoa.trans soa, sameCount.trans count,
      fun rest => ?_⟩
    · rw [Zone.updateAll, done]
      exact all
    · rw [List.cons_append, Zone.updateAll, done]
      exact onwards rest

/-- The update gets to its loop, and a record of unknown class stands behind records that
have changed some node. -/
def StopsMidway (zone : Zone) (prereqs updates : List Record) : Prop :=
  (∀ prereq ∈ prereqs, zone.checkPrereq prereq = none) ∧
  (∀ update ∈ updates, update.name.endsWith zone.origin = true) ∧
  ∃ front bad rest, updates = front ++ bad :: rest ∧ (∀ update ∈ front, Known update) ∧
    ¬ Known bad ∧
    ∃ name, (zone.updateAll front).2.records.get? name ≠ zone.records.get? name

theorem applyUpdate_loop {updates : List Record} (met : prereqs.findSome? zone.checkPrereq = none)
    (inside : ∀ update ∈ updates, update.name.endsWith zone.origin = true) :
    zone.applyUpdate prereqs updates = zone.updateAll updates := by
  have none : ¬ (updates.any fun update => !update.name.endsWith zone.origin) = true := by
    intro some
    obtain ⟨update, member, outside⟩ := List.any_eq_true.mp some
    rw [inside update member] at outside
    cases outside
  unfold Zone.applyUpdate
  rw [met]
  exact if_neg none

/-- A refused update leaves the zone as it was, unless it stops midway. -/
theorem applyUpdate_atomic_iff (zone : Zone) (prereqs updates : List Record) :
    ((zone.applyUpdate prereqs updates).1 ≠ rcodeNoerror →
      Zone.Unchanged zone (zone.applyUpdate prereqs updates).2) ↔
    ¬ StopsMidway zone prereqs updates := by
  constructor
  · rintro atomic ⟨met, inside, front, bad, rest, rfl, known, unknown, name, changed⟩
    rw [applyUpdate_loop (List.findSome?_eq_none_iff.mpr met) inside] at atomic
    obtain ⟨middle, all, _, _, _, onwards⟩ := updateAll_append known zone
    have stopped : zone.updateAll (front ++ bad :: rest) = (rcodeFormerr, middle) := by
      rw [onwards, Zone.updateAll, updateOne_of_unknown middle unknown]
    have refused : rcodeFormerr ≠ rcodeNoerror := by decide
    rw [stopped] at atomic
    rw [all] at changed
    exact changed ((atomic refused).nodes name)
  · intro whole refused
    cases met : prereqs.findSome? zone.checkPrereq with
    | some rcode =>
      rw [Zone.applyUpdate, met]
      exact Zone.Unchanged.refl zone
    | none =>
      by_cases inside : ∀ update ∈ updates, update.name.endsWith zone.origin = true
      · rw [applyUpdate_loop met inside] at refused ⊢
        cases found : updates.find? fun update => !decide (Known update) with
        | none =>
          -- every class is known: the loop ends with NOERROR
          have known : ∀ update ∈ updates, Known update := by
            simpa using List.find?_eq_none.mp found
          obtain ⟨middle, all, _⟩ := updateAll_append known zone
          rw [all] at refused
          exact absurd rfl refused
        | some bad =>
          obtain ⟨unknown, front, rest, rfl, before⟩ :=
            List.find?_eq_some_iff_append.mp found
          have unknown : ¬ Known bad := by simpa using unknown
          have known : ∀ update ∈ front, Known update := by simpa using before
          obtain ⟨middle, all, origin, soa, count, onwards⟩ := updateAll_append known zone
          have stopped : zone.updateAll (front ++ bad :: rest) = (rcodeFormerr, middle) := by
            rw [onwards, Zone.updateAll, updateOne_of_unknown middle unknown]
          rw [stopped]
          refine ⟨origin, soa, count, fun name => ?_⟩
          by_contra changed
          refine whole ⟨List.findSome?_eq_none_iff.mp met, inside, front, bad, rest, rfl, known,
            unknown, name, ?_⟩
          rwa [all]
      · have outside : (updates.any fun update => !update.name.endsWith zone.origin) = true := by
          simpa using inside
        rw [Zone.applyUpdate, met]
        simp only [outside, if_true]
        exact Zone.Unchanged.refl zone

def chaosAddress : Record := { apexAddress with class_ := classCh }

/-- The address before it stays although the update is refused. -/
theorem chaosAddress_midway :
    (shell.applyUpdate [] [apexAddress, chaosAddress]).1 = rcodeFormerr ∧
      ¬ Zone.Unchanged shell (shell.applyUpdate [] [apexAddress, chaosAddress]).2 := by
  refine ⟨by decide +kernel, fun same => ?_⟩
  have changed : ((shell.applyUpdate [] [apexAddress, chaosAddress]).2.records.get? apexName).map
      List.length ≠ (shell.records.get? apexName).map List.length := by decide +kernel
  exact changed (by rw [same.nodes])

/-! ## Prerequisites -/

/-- What a class ANY or NONE entry is about: the name, or one of its RRsets. -/
def Present (zone : Zone) (prereq : Record) : Prop :=
  if prereq.rtype = typeAny then zone.records.containsKey prereq.name = true
  else zone.rrset prereq.name prereq.rtype ≠ []

def Listed (prereqs : List Record) (name : DnsName) (rtype : UInt16) (rdata : RData) : Prop :=
  ∃ prereq ∈ prereqs, prereq.class_ = classIn ∧ prereq.name = name ∧ prereq.rtype = rtype ∧
    prereq.rdata = rdata

def Held (zone : Zone) (name : DnsName) (rtype : UInt16) (rdata : RData) : Prop :=
  ∃ record ∈ zone.rrset name rtype, record.rdata = rdata

/-- RFC 2136 §3.2: entries of class ANY and NONE one by one, those of class IN by RRsets,
each listed as a whole. -/
structure Prerequisites (zone : Zone) (prereqs : List Record) : Prop where
  present : ∀ prereq ∈ prereqs, prereq.class_ = classAny → Present zone prereq
  absent : ∀ prereq ∈ prereqs, prereq.class_ = classNone → ¬ Present zone prereq
  equal : ∀ prereq ∈ prereqs, prereq.class_ = classIn → ∀ rdata,
    Listed prereqs prereq.name prereq.rtype rdata ↔ Held zone prereq.name prereq.rtype rdata

def EntryMet (zone : Zone) (prereq : Record) : Prop :=
  (prereq.class_ = classAny → Present zone prereq) ∧
  (prereq.class_ = classNone → ¬ Present zone prereq) ∧
  (prereq.class_ = classIn → Held zone prereq.name prereq.rtype prereq.rdata)

theorem rrset_ne_nil_iff (zone : Zone) (name : DnsName) (rtype : UInt16) :
    zone.rrset name rtype ≠ [] ↔
      ((zone.node name).any fun record => record.rtype = rtype) = true := by
  rw [Zone.rrset, Ne, List.filter_eq_nil_iff, List.any_eq_true]
  simp

theorem held_iff (zone : Zone) (prereq : Record) :
    Held zone prereq.name prereq.rtype prereq.rdata ↔
      ((zone.node prereq.name).any fun record =>
        record.rtype = prereq.rtype ∧ record.rdata = prereq.rdata) = true := by
  rw [Held, List.any_eq_true]
  simp only [Zone.mem_rrset, decide_eq_true_eq, and_assoc]

theorem checkPrereq_eq_none_iff {prereq : Record} (inside : prereq.name.endsWith zone.origin = true)
    (known : Known prereq) : zone.checkPrereq prereq = none ↔ EntryMet zone prereq := by
  have anyIn : classAny ≠ classIn := by decide
  have anyNone : classAny ≠ classNone := by decide
  have noneIn : classNone ≠ classIn := by decide
  unfold Zone.checkPrereq EntryMet Present
  rw [rrset_ne_nil_iff, held_iff]
  simp only [inside, Bool.not_true, Bool.false_eq_true, if_false]
  rcases known with inClass | anyClass | noneClass
  · simp [inClass, anyIn.symm, noneIn.symm]
  · by_cases all : prereq.rtype = typeAny
    · simp [anyClass, anyIn, anyNone, all]
    · simp [anyClass, anyIn, anyNone, all]
  · by_cases all : prereq.rtype = typeAny
    · simp [noneClass, anyNone.symm, noneIn, all]
    · simp [noneClass, anyNone.symm, noneIn, all]

/-- Where the loop passes, every RRset that is listed is listed as a whole. -/
def WhollyListed (zone : Zone) (prereqs : List Record) : Prop :=
  (∀ prereq ∈ prereqs, EntryMet zone prereq) →
    ∀ prereq ∈ prereqs, prereq.class_ = classIn → ∀ rdata,
      Held zone prereq.name prereq.rtype rdata → Listed prereqs prereq.name prereq.rtype rdata

theorem Prerequisites.entries (met : Prerequisites zone prereqs) :
    ∀ prereq ∈ prereqs, EntryMet zone prereq := by
  intro prereq member
  refine ⟨met.present prereq member, met.absent prereq member, fun inClass => ?_⟩
  exact (met.equal prereq member inClass prereq.rdata).mp
    ⟨prereq, member, inClass, rfl, rfl, rfl⟩

theorem prerequisites_of_entries (each : ∀ prereq ∈ prereqs, EntryMet zone prereq)
    (whole : WhollyListed zone prereqs) : Prerequisites zone prereqs := by
  refine ⟨fun prereq member => (each prereq member).1,
    fun prereq member => (each prereq member).2.1,
    fun prereq member inClass rdata => ⟨?_, whole each prereq member inClass rdata⟩⟩
  rintro ⟨other, among, otherClass, sameName, sameType, rfl⟩
  have held := (each other among).2.2 otherClass
  rwa [sameName, sameType] at held

/-- The prerequisite phase is the one of the RFC exactly where it does not pass on a part
of an RRset. -/
theorem prerequisites_rfc_iff (zone : Zone) (prereqs : List Record)
    (inside : ∀ prereq ∈ prereqs, prereq.name.endsWith zone.origin = true)
    (known : ∀ prereq ∈ prereqs, Known prereq) :
    (prereqs.findSome? zone.checkPrereq = none ↔ Prerequisites zone prereqs) ↔
      WhollyListed zone prereqs := by
  have passes : prereqs.findSome? zone.checkPrereq = none ↔
      ∀ prereq ∈ prereqs, EntryMet zone prereq := by
    rw [List.findSome?_eq_none_iff]
    refine forall₂_congr fun prereq member => ?_
    exact checkPrereq_eq_none_iff (inside prereq member) (known prereq member)
  rw [passes]
  constructor
  · intro same each prereq member inClass rdata held
    exact ((same.mp each).equal prereq member inClass rdata).mpr held
  · intro whole
    exact ⟨fun each => prerequisites_of_entries each whole, Prerequisites.entries⟩

theorem prerequisites_rfc_shell :
    shell.rrset apexName typeSoa = [apexSoa] ∧
      ([apexSoa].findSome? shell.checkPrereq = none ↔ Prerequisites shell [apexSoa]) := by
  have stored : shell.rrset apexName typeSoa = [apexSoa] := rfl
  have inside : ∀ prereq ∈ [apexSoa], prereq.name.endsWith shell.origin = true :=
    List.forall_mem_singleton.mpr (by decide)
  have known : ∀ prereq ∈ [apexSoa], Known prereq := List.forall_mem_singleton.mpr (by decide)
  refine ⟨stored, (prerequisites_rfc_iff shell [apexSoa] inside known).mpr ?_⟩
  rintro _ prereq member _ rdata ⟨record, held, rfl⟩
  obtain rfl := List.mem_singleton.mp member
  have own : record = apexSoa := List.mem_singleton.mp held
  exact ⟨apexSoa, List.mem_singleton_self _, rfl, rfl, rfl, by rw [own]⟩

def twoAddresses : Zone :=
  ⟨apexName, apexSoa, 3, HashMap.empty.insert apexName
    [apexSoa, apexAddress, { apexAddress with rdata := .a (.new 10 0 0 2) }]⟩

/-- One of them listed is taken for the RRset. -/
theorem twoAddresses_partly_listed :
    apexAddress.name.endsWith twoAddresses.origin = true ∧ apexAddress.class_ = classIn ∧
      [apexAddress].findSome? twoAddresses.checkPrereq = none ∧
      ¬ Prerequisites twoAddresses [apexAddress] := by
  refine ⟨by decide, rfl, by decide, fun met => ?_⟩
  have listed := (met.equal apexAddress (List.mem_singleton_self _) rfl (.a (.new 10 0 0 2))).mpr
    ⟨{ apexAddress with rdata := .a (.new 10 0 0 2) }, by decide, rfl⟩
  obtain ⟨prereq, member, _, _, _, data⟩ := listed
  rw [List.mem_singleton.mp member] at data
  revert data
  decide

/-! ## Updates that are repeated -/

/-- What an update list does to the copies of one RR: nothing, or it leaves these behind
whatever there was, or it adds the RR or sets the TTL of the first copy. -/
inductive Effect
  | keep
  | leave (copies : List Record)
  | put (ttl : UInt32)

namespace Effect

section

variable (name : DnsName) (rdata : RData)

def run : Effect → List Record → List Record
  | keep, copies => copies
  | leave left, _ => left
  | put ttl, [] => [⟨name, classIn, ttl, rdata⟩]
  | put ttl, first :: rest => { first with ttl } :: rest

def after : Effect → Effect → Effect
  | first, keep => first
  | _, leave left => leave left
  | keep, put ttl => put ttl
  | leave left, put ttl => leave ((put ttl).run name rdata left)
  | put _, put ttl => put ttl

theorem run_after (first second : Effect) (copies : List Record) :
    (first.after name rdata second).run name rdata copies =
      second.run name rdata (first.run name rdata copies) := by
  cases second with
  | keep => cases first <;> rfl
  | leave left => cases first <;> rfl
  | put ttl =>
    cases first with
    | keep => rfl
    | leave left => rfl
    | put _ => cases copies <;> rfl

theorem run_run (effect : Effect) (copies : List Record) :
    effect.run name rdata (effect.run name rdata copies) = effect.run name rdata copies := by
  cases effect with
  | keep => rfl
  | leave left => rfl
  | put ttl => cases copies <;> rfl

end

def of (origin name : DnsName) (rdata : RData) (update : Record) : Effect :=
  if update.name ≠ name then keep
  else if update.class_ = classIn then if update.rdata = rdata then put update.ttl else keep
  else if update.class_ = classAny then
    if update.rtype = typeAny then
      if name = origin ∧ (rdata.rtype = typeSoa ∨ rdata.rtype = typeNs) then keep else leave []
    else if name = origin ∧ update.rtype = typeSoa then keep
    else if rdata.rtype = update.rtype then leave [] else keep
  else if update.rdata = rdata then leave [] else keep

def ofAll (origin name : DnsName) (rdata : RData) : List Record → Effect
  | [] => keep
  | update :: rest => (of origin name rdata update).after name rdata (ofAll origin name rdata rest)

end Effect

def copies (rdata : RData) (node : List Record) : List Record :=
  node.filter fun record => record.rdata = rdata

theorem copies_filter (rdata : RData) (keep : RData → Bool) (node : List Record) :
    copies rdata (node.filter fun record => keep record.rdata) =
      if keep rdata then copies rdata node else [] := by
  rw [copies, List.filter_filter]
  split
  · rename_i kept
    refine List.filter_congr fun record _ => ?_
    by_cases same : record.rdata = rdata
    · simp [same, kept]
    · simp [same]
  · rename_i dropped
    refine List.filter_eq_nil_iff.mpr fun record _ => ?_
    by_cases same : record.rdata = rdata
    · simp [same, dropped]
    · simp [same]

theorem copies_add (inClass : update.class_ = classIn) (node : List Record) :
    copies update.rdata
        (if node.any (Zone.sameRr update) then Zone.refreshTtl update node else node ++ [update]) =
      (Effect.put update.ttl).run update.name update.rdata (copies update.rdata node) := by
  have fresh : (⟨update.name, classIn, update.ttl, update.rdata⟩ : Record) = update := by
    rw [← inClass]
  cases held : copies update.rdata node with
  | nil =>
    have none : ¬ node.any (Zone.sameRr update) = true := by
      intro some
      obtain ⟨record, member, same⟩ := List.any_eq_true.mp some
      exact List.filter_eq_nil_iff.mp held record member
        (decide_eq_true ((sameRr_iff update record).mp same))
    rw [if_neg none, copies, List.filter_append]
    change copies update.rdata node ++ _ = _
    rw [held, Effect.run, fresh]
    simp
  | cons first rest =>
    have listed : first ∈ copies update.rdata node := by
      rw [held]
      exact List.mem_cons_self
    obtain ⟨member, same⟩ := List.mem_filter.mp listed
    have same := (sameRr_iff update first).mpr (of_decide_eq_true same)
    rw [if_pos (List.any_eq_true.mpr ⟨first, member, same⟩), copies,
      refreshTtl_filter (fun rdata => rdata = update.rdata)]
    change Zone.refreshTtl update (copies update.rdata node) = _
    rw [held, Zone.refreshTtl, if_pos same]
    rfl

theorem copies_add_other {rdata : RData} (other : update.rdata ≠ rdata) (node : List Record) :
    copies rdata
        (if node.any (Zone.sameRr update) then Zone.refreshTtl update node else node ++ [update]) =
      copies rdata node := by
  split
  · rw [copies, refreshTtl_filter (fun data => data = rdata)]
    refine refreshTtl_of_none fun record member same => other ?_
    exact same.symm.trans (of_decide_eq_true (List.mem_filter.mp member).2)
  · rw [copies, List.filter_append, List.filter_singleton, decide_eq_false other]
    simp [copies]

theorem copies_nodeAfter (origin : DnsName) (update : Record) (rdata : RData)
    (node : List Record) :
    copies rdata (nodeAfter origin update node) =
      (Effect.of origin update.name rdata update).run update.name rdata (copies rdata node) := by
  unfold nodeAfter Effect.of
  rw [if_neg (not_not.mpr rfl)]
  by_cases inClass : update.class_ = classIn
  · rw [if_pos inClass, if_pos inClass]
    by_cases same : update.rdata = rdata
    · subst same
      rw [if_pos rfl]
      exact copies_add inClass node
    · rw [if_neg same]
      exact copies_add_other same node
  rw [if_neg inClass, if_neg inClass]
  by_cases anyClass : update.class_ = classAny
  · rw [if_pos anyClass, if_pos anyClass]
    by_cases all : update.rtype = typeAny
    · rw [if_pos all, if_pos all]
      by_cases apex : update.name = origin
      · have kept := copies_filter rdata
          (fun data => decide (data.rtype = typeSoa ∨ data.rtype = typeNs)) node
        rw [if_pos apex]
        refine kept.trans ?_
        simp only [apex, true_and, decide_eq_true_eq]
        split <;> rfl
      · rw [if_neg apex, if_neg fun both => apex both.1]
        rfl
    · rw [if_neg all, if_neg all]
      by_cases kept : update.name = origin ∧ update.rtype = typeSoa
      · rw [if_pos kept, if_pos kept]
        rfl
      rw [if_neg kept, if_neg kept]
      refine (copies_filter rdata (fun data => decide (data.rtype ≠ update.rtype)) node).trans ?_
      by_cases typed : rdata.rtype = update.rtype
      · simp [typed, Effect.run]
      · simp [typed, Effect.run]
  · rw [if_neg anyClass, if_neg anyClass]
    have others : (fun record => !Zone.sameRr update record) =
        fun record : Record => decide (record.rdata ≠ update.rdata) := by
      funext record
      rw [decide_not, Bool.not_inj_iff, Bool.eq_iff_iff, sameRr_iff, decide_eq_true_iff]
    rw [others]
    refine (copies_filter rdata (fun data => decide (data ≠ update.rdata)) node).trans ?_
    by_cases same : update.rdata = rdata
    · simp [same, Effect.run]
    · simp [same, Ne.symm same, Effect.run]

theorem updateOne_copies {zone' : Zone} (done : zone.updateOne update = some zone') (name : DnsName)
    (rdata : RData) :
    copies rdata (zone'.node name) =
      (Effect.of zone.origin name rdata update).run name rdata (copies rdata (zone.node name)) := by
  rw [updateOne_node done]
  by_cases here : name = update.name
  · subst here
    rw [if_pos rfl]
    exact copies_nodeAfter zone.origin update rdata (zone.node update.name)
  · rw [if_neg here, Effect.of, if_pos fun same => here same.symm]
    rfl

/-- The effects of the records, composed. -/
theorem updateAll_copies (updates : List Record) :
    ∀ {zone zone' : Zone}, zone.updateAll updates = (rcodeNoerror, zone') →
      ∀ name rdata, copies rdata (zone'.node name) =
        (Effect.ofAll zone.origin name rdata updates).run name rdata
          (copies rdata (zone.node name)) := by
  induction updates with
  | nil =>
    intro zone zone' done name rdata
    cases done
    rfl
  | cons update rest ih =>
    intro zone zone' done name rdata
    obtain ⟨middle, stepped, done⟩ := updateAll_cons_ok done
    rw [ih done, (updateOne_spec stepped).1, updateOne_copies stepped, Effect.ofAll,
      Effect.run_after]

theorem updateAll_node (updates : List Record) {name : DnsName} :
    ∀ {zone zone' : Zone}, zone.updateAll updates = (rcodeNoerror, zone') →
      (∀ update ∈ updates, update.name ≠ name) → zone'.node name = zone.node name := by
  induction updates with
  | nil =>
    intro zone zone' done _
    cases done
    rfl
  | cons update rest ih =>
    intro zone zone' done others
    obtain ⟨here, later⟩ := List.forall_mem_cons.mp others
    obtain ⟨middle, stepped, done⟩ := updateAll_cons_ok done
    rw [ih done later, updateOne_node stepped, if_neg fun same => here same.symm]

theorem get?_eq_entryOf (occupied : Occupied zone.records) (name : DnsName) :
    zone.records.get? name = entryOf (zone.node name) := by
  unfold Zone.node
  cases found : zone.records.get? name with
  | none => rfl
  | some node => exact ((entryOf_eq_some_iff node node).mpr ⟨rfl, occupied name node found⟩).symm

theorem updateAll_accepted {zone' : Zone} {updates : List Record}
    (done : zone.updateAll updates = (rcodeNoerror, zone')) : ∀ update ∈ updates, Known update := by
  induction updates generalizing zone with
  | nil => exact List.forall_mem_nil _
  | cons update rest ih =>
    obtain ⟨middle, stepped, done⟩ := updateAll_cons_ok done
    exact List.forall_mem_cons.mpr ⟨updateOne_class stepped, ih done⟩

/-- An accepted update is accepted again, and then changes nothing but the order in which
records are stored.  Names it does not mention keep their nodes. -/
theorem applyUpdate_replay {zone first : Zone} {updates : List Record}
    (structured : Structured zone)
    (accepted : zone.applyUpdate [] updates = (rcodeNoerror, first)) :
    ∃ second, first.applyUpdate [] updates = (rcodeNoerror, second) ∧
      (stored second.records).Perm (stored first.records) ∧
      ∀ name, (∀ update ∈ updates, update.name ≠ name) →
        first.records.get? name = zone.records.get? name ∧
        second.records.get? name = zone.records.get? name := by
  obtain ⟨_, inside, done⟩ := applyUpdate_ok accepted
  obtain ⟨structured', origin, _⟩ :=
    updateAll_structured updates structured.placed structured.occupied inside done
  rw [← origin] at inside
  obtain ⟨middle, again, _⟩ := updateAll_append (updateAll_accepted done) first
  obtain ⟨structured'', origin', _⟩ :=
    updateAll_structured updates structured'.placed structured'.occupied inside again
  generalize middle.recount = second at again structured'' origin'
  refine ⟨second, ?_, ?_, fun name others => ?_⟩
  · rw [applyUpdate_loop rfl inside, again]
  · have placed := structured''.placed
    rw [origin'] at placed
    refine stored_perm placed structured'.placed fun name => ?_
    refine perm_of_filter_key Record.rdata fun rdata => ?_
    change copies rdata (second.node name) = copies rdata (first.node name)
    rw [updateAll_copies updates again, origin, updateAll_copies updates done, Effect.run_run]
  · have once := updateAll_node updates done others
    have twice := updateAll_node updates again others
    rw [get?_eq_entryOf structured'.occupied, get?_eq_entryOf structured''.occupied, twice, once,
      get?_eq_entryOf structured.occupied]
    exact ⟨rfl, rfl⟩

theorem applyUpdate_replay_shell :
    ∃ first second,
      shell.applyUpdate [] [{ apexAddress with class_ := classNone }, apexAddress] =
        (rcodeNoerror, first) ∧
      first.applyUpdate [] [{ apexAddress with class_ := classNone }, apexAddress] =
        (rcodeNoerror, second) ∧
      (stored second.records).Perm (stored first.records) := by
  have accepted : shell.applyUpdate [] [{ apexAddress with class_ := classNone }, apexAddress] =
      (rcodeNoerror,
        (shell.applyUpdate [] [{ apexAddress with class_ := classNone }, apexAddress]).2) :=
    Prod.ext (by decide +kernel) rfl
  obtain ⟨second, again, same, _⟩ := applyUpdate_replay shell_structured accepted
  exact ⟨_, second, accepted, again, same⟩

end Rdns.Zones
