import Rdns.Zones.Store
import Rdns.Lib.Loops
import Rdns.Lib.Run

/-!
# The two copies of the SOA

`zone.soa` feeds negative answers, transfers and the serial; the record map
feeds everything else.  `SoaCoherent` says that they agree.  Each kind of edit is
described by what it does to the SOA records under each name; the only one that
can part the copies is a dynamic update that names an SOA.
-/

set_option autoImplicit false

namespace Rdns.Zones

open Rdns.Lib Rdns.Proto

variable {zone zone' : Zone} {origin name : DnsName} {rtype : String} {update record : Record}
  {node : List Record} {all : List Record} {contents : List String} {code : UInt16}

def isSoa (record : Record) : Bool := decide (record.rtype = typeSoa)

def soasAt (records : Records) (name : DnsName) : List Record :=
  ((records.get? name).getD []).filter isSoa

/-- The map holds exactly one record of type SOA, under the origin, and it is
the field. -/
def SoaCoherent (zone : Zone) : Prop :=
  ∀ name, soasAt zone.records name = if name = zone.origin then [zone.soa] else []

theorem SoaCoherent.apex_stored (coherent : SoaCoherent zone) :
    ∃ node, zone.records.get? zone.origin = some node := by
  have stored := coherent zone.origin
  rw [if_pos rfl] at stored
  cases found : zone.records.get? zone.origin with
  | some node => exact ⟨node, rfl⟩
  | none =>
    rw [soasAt, found] at stored
    cases stored

/-! ## What each operation does to the stored SOAs -/

theorem soasAt_upsert (records : Records) (key name : DnsName)
    (change : List Record → List Record) :
    soasAt (records.upsert key change) name =
      if name = key then (change ((records.get? key).getD [])).filter isSoa
      else soasAt records name := by
  unfold soasAt
  rw [HashMap.get?_upsert]
  split <;> rfl

theorem soasAt_insert (records : Records) (key name : DnsName) (node : List Record) :
    soasAt (records.insert key node) name =
      if name = key then node.filter isSoa else soasAt records name := by
  unfold soasAt
  rw [HashMap.get?_insert]
  split <;> rfl

theorem soasAt_remove (records : Records) (key name : DnsName) :
    soasAt (records.remove key) name = if name = key then [] else soasAt records name := by
  unfold soasAt
  rw [HashMap.get?_remove]
  split <;> rfl

/-- A change in place, which is none where there is no node. -/
theorem getD_modify (records : Records) (key name : DnsName)
    (change : List Record → List Record) (nil : change [] = []) :
    ((records.modify key change).get? name).getD [] =
      if name = key then change ((records.get? key).getD []) else (records.get? name).getD [] := by
  rw [HashMap.get?_modify]
  split
  · cases records.get? key with
    | none => exact nil.symm
    | some node => rfl
  · rfl

theorem filter_soa_of_kept (node : List Record) (keep : Record → Bool)
    (kept : ∀ record ∈ node, isSoa record = true → keep record = true) :
    (node.filter keep).filter isSoa = node.filter isSoa := by
  rw [List.filter_filter]
  apply List.filter_congr
  intro record member
  cases soa : isSoa record with
  | false => simp
  | true => simp [kept record member soa]

/-! ## Construction -/

theorem collect_soas (origin : DnsName) :
    ∀ (all : List Record) (soa : Option Record) (records : Records) (count : Nat)
      (soa' : Option Record) (records' : Records) (count' : Nat),
      Zone.collect origin all soa records count = .ok (soa', records', count') →
      (∀ name, soasAt records name = if name = origin then soa.toList else []) →
      ∀ name, soasAt records' name = if name = origin then soa'.toList else [] := by
  intro all
  induction all with
  | nil =>
    intro soa records count soa' records' count' collected coherent
    cases collected
    exact coherent
  | cons record rest ih =>
    intro soa records count soa' records' count' collected coherent
    unfold Zone.collect at collected
    split_ifs at collected with away misplaced duplicate
    · -- a first SOA, owned by the origin
      rename_i isSoaType
      have owner : record.name = origin := by
        by_contra other
        exact misplaced ⟨isSoaType, other⟩
      have first : soa = none := by
        cases soa with
        | none => rfl
        | some _ => exact absurd ⟨isSoaType, rfl⟩ duplicate
      refine ih _ _ _ _ _ _ collected fun name => ?_
      rw [soasAt_upsert]
      have stored := coherent origin
      rw [if_pos rfl, first] at stored
      unfold soasAt at stored
      by_cases here : name = origin
      · rw [here, owner, if_pos rfl, if_pos rfl, List.filter_append, stored]
        simp [isSoa, isSoaType]
      · rw [owner, if_neg here, if_neg here, coherent name, if_neg here]
    · rename_i other
      refine ih _ _ _ _ _ _ collected fun name => ?_
      rw [soasAt_upsert]
      split
      · rename_i here
        have stored := coherent record.name
        unfold soasAt at stored
        rw [List.filter_append, stored, here]
        simp [isSoa, other]
      · exact coherent name

theorem fromRecords_ok (built : Zone.fromRecords origin all = .ok zone) :
    zone.origin = origin ∧ Zone.collect origin all none HashMap.empty 0 =
      .ok (some zone.soa, zone.records, zone.recordCount) := by
  unfold Zone.fromRecords at built
  split at built
  · cases built
  · cases built
  · rename_i soa records count collected
    cases built
    exact ⟨rfl, collected⟩

theorem fromRecords_coherent (built : Zone.fromRecords origin all = .ok zone) :
    SoaCoherent zone := by
  obtain ⟨rfl, collected⟩ := fromRecords_ok built
  intro name
  have stored := collect_soas zone.origin all none HashMap.empty 0 _ _ _ collected
    (fun name => by simp [soasAt]) name
  exact stored

/-! ## The management API and the serial -/

theorem replaceRrset_cases (zone : Zone) (name : DnsName) (rtype : String) (ttl : UInt32)
    (contents : List String) :
    (∃ e, zone.replaceRrset name rtype ttl contents = (.error e, zone)) ∨
      ∃ code data middle, typeCode rtype = some code ∧ name.endsWith zone.origin = true ∧
        contents ≠ [] ∧
        contents.mapM (fun content => rdataFromText rtype content zone.origin) = .ok data ∧
        zone.replaceSoa name code (data.map fun rdata => ⟨name, classIn, ttl, rdata⟩) = .ok middle ∧
        zone.replaceRrset name rtype ttl contents =
          middle.replaceNode name code (data.map fun rdata => ⟨name, classIn, ttl, rdata⟩) := by
  unfold Zone.replaceRrset
  split
  · exact Or.inl ⟨_, rfl⟩
  rename_i code named
  split
  · exact Or.inl ⟨_, rfl⟩
  rename_i inside
  split
  · exact Or.inl ⟨_, rfl⟩
  rename_i filled
  split
  · exact Or.inl ⟨_, rfl⟩
  rename_i data parsed
  dsimp only
  split
  · exact Or.inl ⟨_, rfl⟩
  · rename_i middle replaced
    exact Or.inr ⟨code, data, middle, named, by simpa using inside, by simpa using filled,
      parsed, replaced, rfl⟩

theorem replaceRrset_ok {ttl : UInt32}
    (success : zone.replaceRrset name rtype ttl contents = (.ok (), zone')) :
    ∃ code data middle, typeCode rtype = some code ∧ name.endsWith zone.origin = true ∧
      contents ≠ [] ∧
      contents.mapM (fun content => rdataFromText rtype content zone.origin) = .ok data ∧
      zone.replaceSoa name code (data.map fun rdata => ⟨name, classIn, ttl, rdata⟩) = .ok middle ∧
      middle.replaceNode name code (data.map fun rdata => ⟨name, classIn, ttl, rdata⟩) =
        (.ok (), zone') := by
  have cases := replaceRrset_cases zone name rtype ttl contents
  rw [success] at cases
  rcases cases with ⟨e, refused⟩ |
    ⟨code, data, middle, named, inside, filled, parsed, replaced, run⟩
  · cases refused
  · exact ⟨code, data, middle, named, inside, filled, parsed, replaced, run.symm⟩

theorem replaced_rtype {data : List RData} (named : typeCode rtype = some code)
    (parsed : contents.mapM (fun content => rdataFromText rtype content origin) = .ok data)
    {rdata : RData} (member : rdata ∈ data) : rdata.rtype = code := by
  obtain ⟨content, _, read⟩ := mem_of_mapM_ok parsed member
  have own := rdataFromText_rtype read
  rw [named] at own
  exact (Option.some.inj own).symm

theorem replaced_fresh {data : List RData} (named : typeCode rtype = some code)
    (parsed : contents.mapM (fun content => rdataFromText rtype content origin) = .ok data)
    (name : DnsName) (ttl : UInt32) :
    ∀ record ∈ data.map fun rdata => (⟨name, classIn, ttl, rdata⟩ : Record),
      record.name = name ∧ record.rtype = code := by
  intro record member
  obtain ⟨rdata, inside, rfl⟩ := List.mem_map.mp member
  exact ⟨rfl, replaced_rtype named parsed inside⟩

/-- Either the type is another one, or the one new record is the SOA of the origin. -/
theorem replaceSoa_cases {middle : Zone} {fresh : List Record}
    (replaced : zone.replaceSoa name code fresh = .ok middle) :
    (code ≠ typeSoa ∧ middle = zone) ∨
      (code = typeSoa ∧ name = zone.origin ∧
        ∃ record, fresh = [record] ∧ middle = { zone with soa := record }) := by
  unfold Zone.replaceSoa at replaced
  split_ifs at replaced with ordinary misplaced
  · cases replaced
    exact Or.inl ⟨ordinary, rfl⟩
  · split at replaced
    · rename_i record
      cases replaced
      exact Or.inr ⟨not_not.mp ordinary, not_not.mp misplaced, record, rfl, rfl⟩
    · cases replaced

theorem node_touched (zone : Zone) (name : DnsName) :
    { zone with records := zone.records.upsert name id }.node name = zone.node name := by
  rw [Zone.node, HashMap.get?_upsert, if_pos rfl]
  rfl

theorem replaceNode_ok {fresh : List Record}
    (success : zone.replaceNode name code fresh = (.ok (), zone')) :
    zone' = { zone with
        records := (zone.records.upsert name id).insert name
          ((zone.node name).filter (fun record : Record => record.rtype ≠ code) ++
            fresh) }.recount ∧
      ¬(code = typeCname ∧ (zone.node name).any (fun record => record.rtype ≠ code) = true) ∧
      ¬(code ≠ typeCname ∧ (zone.node name).any (fun record => record.rtype = typeCname) = true) ∧
      ¬(1 < fresh.length ∧ code = typeCname) := by
  unfold Zone.replaceNode at success
  dsimp only at success
  rw [node_touched] at success
  split at success
  · cases success
  rename_i pure
  split at success
  · cases success
  rename_i free
  split at success
  · cases success
  · rename_i single
    cases success
    exact ⟨rfl, pure, free, single⟩

theorem replaceRrset_coherent {ttl : UInt32} (coherent : SoaCoherent zone)
    (success : zone.replaceRrset name rtype ttl contents = (.ok (), zone')) :
    SoaCoherent zone' := by
  obtain ⟨code, data, middle, named, _, _, parsed, replaced, success⟩ := replaceRrset_ok success
  obtain ⟨rfl, _⟩ := replaceNode_ok success
  have typed := replaced_fresh named parsed name ttl
  generalize data.map (fun rdata => (⟨name, classIn, ttl, rdata⟩ : Record)) = fresh at *
  intro key
  change soasAt ((middle.records.upsert name id).insert name _) key =
    if key = middle.origin then [middle.soa] else []
  rw [soasAt_insert, soasAt_upsert]
  rcases replaceSoa_cases replaced with
    ⟨ordinary, same⟩ | ⟨soaCode, apex, record, rfl, rfl⟩
  · -- another type: the stored SOAs stay as they are
    subst middle
    have none : fresh.filter isSoa = [] := by
      apply List.filter_eq_nil_iff.mpr
      intro record member
      rw [isSoa, (typed record member).2]
      simpa using ordinary
    have kept := filter_soa_of_kept (zone.node name) (fun record => record.rtype ≠ code) (by
      intro record _ soaType
      have rtype : record.rtype = typeSoa := by simpa [isSoa] using soaType
      simpa [rtype] using fun same => ordinary same.symm)
    have stored := coherent key
    by_cases here : key = name
    · rw [if_pos here, List.filter_append, none, List.append_nil, kept, ← stored, here]
      rfl
    · rw [if_neg here, if_neg here]
      exact stored
  · -- the SOA: the one new record replaces both copies
    have soaRecord : isSoa record = true := by
      rw [isSoa, (typed record (by simp)).2, soaCode]
      rfl
    have gone : ((zone.node name).filter fun record => record.rtype ≠ code).filter isSoa = [] := by
      rw [List.filter_filter]
      apply List.filter_eq_nil_iff.mpr
      intro other _
      simp [isSoa, soaCode]
    have stored := coherent key
    by_cases here : key = name
    · rw [if_pos here, List.filter_append, if_pos (here.trans apex)]
      simp only [Zone.node] at gone ⊢
      rw [gone]
      simp [soaRecord]
    · rw [if_neg here, if_neg here]
      have away : key ≠ zone.origin := fun same => here (same.trans apex.symm)
      rw [if_neg away] at stored ⊢
      exact stored

theorem deleteRrset_cases (success : zone.deleteRrset name rtype = (.ok (), zone')) :
    ∃ code records, typeCode rtype = some code ∧ code ≠ typeSoa ∧
      zone' = { zone with records }.recount ∧
      ((zone.records.get? name = none ∧ records = zone.records) ∨
        ∃ node kept, zone.records.get? name = some node ∧
        kept = node.filter (fun record => record.rtype ≠ code) ∧
        ((kept = [] ∧ records = zone.records.remove name) ∨
          (kept ≠ [] ∧ records = zone.records.insert name kept))) := by
  unfold Zone.deleteRrset at success
  split at success
  · cases success
  rename_i code named
  split at success
  · cases success
  rename_i ordinary
  cases success
  refine ⟨code, _, named, ordinary, rfl, ?_⟩
  cases found : zone.records.get? name with
  | none => exact Or.inl ⟨rfl, rfl⟩
  | some node =>
    refine Or.inr ⟨node, _, rfl, rfl, ?_⟩
    dsimp only
    split
    · rename_i empty
      exact Or.inl ⟨List.isEmpty_iff.mp empty, rfl⟩
    · rename_i filled
      exact Or.inr ⟨fun empty => filled (List.isEmpty_iff.mpr empty), rfl⟩

theorem deleteRrset_coherent (coherent : SoaCoherent zone)
    (success : zone.deleteRrset name rtype = (.ok (), zone')) : SoaCoherent zone' := by
  obtain ⟨code, records, _, ordinary, rfl, changed⟩ := deleteRrset_cases success
  intro key
  have stored := coherent key
  change soasAt records key = _
  rcases changed with ⟨_, rfl⟩ | ⟨node, kept, found, remaining, changed⟩
  · exact stored
  · have same : kept.filter isSoa = node.filter isSoa := by
      rw [remaining]
      refine filter_soa_of_kept node _ fun record _ soaType => ?_
      have rtype : record.rtype = typeSoa := by simpa [isSoa] using soaType
      simpa [rtype] using fun same => ordinary same.symm
    have before : soasAt zone.records name = node.filter isSoa := by
      rw [soasAt, found]
      rfl
    rcases changed with ⟨empty, rfl⟩ | ⟨_, rfl⟩
    · rw [soasAt_remove]
      split
      · rename_i here
        rw [here, before, ← same, empty] at stored
        rw [here]
        exact stored
      · exact stored
    · rw [soasAt_insert, same]
      split
      · rename_i here
        rw [here, before] at stored
        rw [here]
        exact stored
      · exact stored

/-- `bump_serial` puts the field in the place of every SOA at the origin. -/
theorem bumpSerial_soas {fields : Soa} (typed : zone.soa.rdata = .soa fields) (name : DnsName) :
    soasAt zone.bumpSerial.records name =
      if name = zone.origin then (soasAt zone.records name).map fun _ => zone.bumpSerial.soa
      else soasAt zone.records name := by
  generalize freshEq :
    ({ zone.soa with rdata := .soa { fields with serial := fields.serial + 1 } } : Record) = fresh
  have freshSoa : isSoa fresh = true := by
    rw [← freshEq]
    rfl
  have replaced : ∀ node : List Record,
      (node.map fun record => if record.rtype = typeSoa then fresh else record).filter isSoa =
        (node.filter isSoa).map fun _ => fresh := by
    intro node
    induction node with
    | nil => rfl
    | cons record rest ih =>
      by_cases soaType : record.rtype = typeSoa
      · have head : isSoa record = true := by simpa [isSoa] using soaType
        simp only [List.map_cons, if_pos soaType, List.filter_cons, freshSoa, head, if_true, ih]
      · have head : isSoa record = false := by simpa [isSoa] using soaType
        simp only [List.map_cons, if_neg soaType, List.filter_cons, head, ih]
        rfl
  have bumped : zone.bumpSerial = { zone with
      soa := fresh
      records := zone.records.modify zone.origin fun node =>
        node.map fun record => if record.rtype = typeSoa then fresh else record } := by
    rw [Zone.bumpSerial, typed, ← freshEq]
  rw [bumped]
  dsimp only
  rw [soasAt, getD_modify _ _ _ _ rfl]
  split
  · rename_i here
    rw [here, replaced]
    rfl
  · rfl

theorem bumpSerial_origin (zone : Zone) : zone.bumpSerial.origin = zone.origin := by
  unfold Zone.bumpSerial
  split <;> rfl

theorem bumpSerial_coherent (coherent : SoaCoherent zone) : SoaCoherent zone.bumpSerial := by
  cases typed : zone.soa.rdata with
  | soa fields =>
    intro name
    rw [bumpSerial_soas typed, bumpSerial_origin, coherent name]
    split <;> rfl
  | _ =>
    have same : zone.bumpSerial = zone := by rw [Zone.bumpSerial, typed]
    rw [same]
    exact coherent

/-! ## Dynamic updates -/

def nodeAfter (origin : DnsName) (update : Record) (node : List Record) : List Record :=
  if update.class_ = classIn then
    if node.any (Zone.sameRr update) then Zone.refreshTtl update node else node ++ [update]
  else if update.class_ = classAny then
    if update.rtype = typeAny then
      if update.name = origin then
        node.filter fun record => record.rtype = typeSoa ∨ record.rtype = typeNs
      else []
    else if update.name = origin ∧ update.rtype = typeSoa then node
    else node.filter fun record => record.rtype ≠ update.rtype
  else node.filter fun record => !Zone.sameRr update record

/-- The entry of a node; there is none without records. -/
def entryOf (node : List Record) : Option (List Record) := if node = [] then none else some node

theorem getD_entryOf (node : List Record) : (entryOf node).getD [] = node := by
  unfold entryOf
  split
  · rename_i empty
    exact empty.symm
  · rfl

theorem entryOf_eq_some_iff (node stored : List Record) :
    entryOf node = some stored ↔ node = stored ∧ stored ≠ [] := by
  unfold entryOf
  split
  · rename_i empty
    rw [empty]
    exact iff_of_false (by simp) fun both => both.2 both.1.symm
  · rename_i filled
    rw [Option.some_inj]
    exact ⟨fun same => ⟨same, same ▸ filled⟩, And.left⟩

theorem filter_filled (entry : Option (List Record)) :
    entry.filter (fun node => !node.isEmpty) = entryOf (entry.getD []) := by
  cases entry with
  | none => rfl
  | some node => cases node <;> rfl

/-- Everything an update record does: its own node changes, and empty nodes are dropped. -/
theorem updateOne_spec (done : zone.updateOne update = some zone') :
    zone'.origin = zone.origin ∧ zone'.soa = zone.soa ∧ zone'.recordCount = zone.recordCount ∧
      ∀ name, zone'.records.get? name =
        entryOf (if name = update.name then nodeAfter zone.origin update (zone.node name)
          else zone.node name) := by
  unfold Zone.updateOne at done
  obtain ⟨records, changed, rfl⟩ := Option.map_eq_some_iff.mp done
  refine ⟨rfl, rfl, rfl, fun name => ?_⟩
  have node : (records.get? name).getD [] =
      if name = update.name then nodeAfter zone.origin update (zone.node name)
      else zone.node name := by
    unfold nodeAfter
    split_ifs at changed with inClass anyClass noneClass
    · cases changed
      rw [Zone.addRr, HashMap.get?_upsert, if_pos inClass]
      split
      · rename_i here
        rw [here]
        rfl
      · rfl
    · cases changed
      rw [if_neg inClass, if_pos anyClass]
      unfold Zone.deleteSet
      by_cases all : update.rtype = typeAny
      · rw [if_pos all, if_pos all]
        by_cases apex : update.name = zone.origin
        · rw [if_pos apex, if_pos apex, getD_modify _ _ _ _ rfl]
          split
          · rename_i here
            rw [here]
            rfl
          · rfl
        · rw [if_neg apex, if_neg apex, HashMap.get?_remove]
          split <;> rfl
      · rw [if_neg all, if_neg all, getD_modify _ _ _ _ (by split <;> rfl)]
        split
        · rename_i here
          rw [here]
          rfl
        · rfl
    · cases changed
      rw [if_neg inClass, if_neg anyClass, Zone.deleteRr, getD_modify _ _ _ _ rfl]
      split
      · rename_i here
        rw [here]
        rfl
      · rfl
  rw [HashMap.get?_retain, filter_filled, node]

theorem updateOne_node (done : zone.updateOne update = some zone') (name : DnsName) :
    zone'.node name =
      if name = update.name then nodeAfter zone.origin update (zone.node name)
      else zone.node name := by
  rw [Zone.node, (updateOne_spec done).2.2.2 name, getD_entryOf]

theorem sameRr_iff (update record : Record) :
    Zone.sameRr update record = true ↔ record.rdata = update.rdata := by
  rw [Zone.sameRr, decide_eq_true_iff, Record.rtype, Record.rtype]
  exact ⟨And.right, fun same => ⟨by rw [same], same⟩⟩

theorem mem_refreshTtl (member : record ∈ Zone.refreshTtl update node) :
    ∃ old ∈ node, record = old ∨ record = { old with ttl := update.ttl } := by
  induction node with
  | nil => cases member
  | cons first rest ih =>
    unfold Zone.refreshTtl at member
    split at member
    · rcases List.mem_cons.mp member with rfl | inside
      · exact ⟨first, List.mem_cons_self, .inr rfl⟩
      · exact ⟨record, List.mem_cons_of_mem _ inside, .inl rfl⟩
    · rcases List.mem_cons.mp member with rfl | inside
      · exact ⟨record, List.mem_cons_self, .inl rfl⟩
      · obtain ⟨old, among, same⟩ := ih inside
        exact ⟨old, List.mem_cons_of_mem _ among, same⟩

theorem mem_nodeAfter (member : record ∈ nodeAfter origin update node) :
    (∃ old ∈ node, record = old ∨ record = { old with ttl := update.ttl }) ∨
      update.class_ = classIn ∧ record = update := by
  have stays : record ∈ node → ∃ old ∈ node, record = old ∨
      record = { old with ttl := update.ttl } :=
    fun inside => ⟨record, inside, .inl rfl⟩
  unfold nodeAfter at member
  split_ifs at member with inClass
  · exact .inl (mem_refreshTtl member)
  · rcases List.mem_append.mp member with inside | new
    · exact .inl (stays inside)
    · exact .inr ⟨inClass, List.mem_singleton.mp new⟩
  · exact .inl (stays (List.mem_filter.mp member).1)
  · cases member
  · exact .inl (stays member)
  · exact .inl (stays (List.mem_filter.mp member).1)
  · exact .inl (stays (List.mem_filter.mp member).1)

theorem refreshTtl_of_none (none : ∀ record ∈ node, record.rdata ≠ update.rdata) :
    Zone.refreshTtl update node = node := by
  induction node with
  | nil => rfl
  | cons record rest ih =>
    obtain ⟨here, later⟩ := List.forall_mem_cons.mp none
    rw [Zone.refreshTtl, if_neg (mt (sameRr_iff update record).mp here), ih later]

theorem refreshTtl_filter (keep : RData → Bool) (update : Record) (node : List Record) :
    (Zone.refreshTtl update node).filter (fun record => keep record.rdata) =
      Zone.refreshTtl update (node.filter fun record => keep record.rdata) := by
  induction node with
  | nil => rfl
  | cons record rest ih =>
    by_cases same : Zone.sameRr update record = true
    · have data := (sameRr_iff update record).mp same
      rw [Zone.refreshTtl, if_pos same, List.filter_cons, List.filter_cons]
      cases kept : keep record.rdata with
      | true => rw [if_pos rfl, if_pos rfl, Zone.refreshTtl, if_pos same]
      | false =>
        -- the other copies go with this one
        rw [if_neg Bool.false_ne_true, if_neg Bool.false_ne_true]
        refine (refreshTtl_of_none fun other member copy => ?_).symm
        have also := (List.mem_filter.mp member).2
        rw [copy, ← data, kept] at also
        cases also
    · rw [Zone.refreshTtl, if_neg same, List.filter_cons, List.filter_cons]
      cases kept : keep record.rdata with
      | true => rw [if_pos rfl, if_pos rfl, ih, Zone.refreshTtl, if_neg same]
      | false => exact ih

def soaEffect (origin : DnsName) (update : Record) (soas : List Record) : List Record :=
  if update.class_ = classIn then
    if isSoa update = false then soas
    else if soas.any (Zone.sameRr update) then Zone.refreshTtl update soas
    else soas ++ [update]
  else if update.class_ = classAny then
    if update.rtype = typeAny then if update.name = origin then soas else []
    else if update.name = origin ∧ update.rtype = typeSoa then soas
    else soas.filter fun record => record.rtype ≠ update.rtype
  else soas.filter fun record => !Zone.sameRr update record

theorem isSoa_of_sameRr (same : Zone.sameRr update record = true) :
    isSoa record = isSoa update := by
  rw [isSoa, isSoa, Record.rtype, Record.rtype, (sameRr_iff update record).mp same]

theorem refreshTtl_soas (update : Record) (node : List Record) :
    (Zone.refreshTtl update node).filter isSoa = Zone.refreshTtl update (node.filter isSoa) :=
  refreshTtl_filter (fun rdata => rdata.rtype = typeSoa) update node

theorem refreshTtl_other (ordinary : isSoa update = false) (soas : List Record)
    (all : ∀ record ∈ soas, isSoa record = true) : Zone.refreshTtl update soas = soas := by
  refine refreshTtl_of_none fun record member same => ?_
  have soa := isSoa_of_sameRr ((sameRr_iff update record).mpr same)
  rw [all record member, ordinary] at soa
  cases soa

theorem any_sameRr_soas (soa : isSoa update = true) (node : List Record) :
    node.any (Zone.sameRr update) = (node.filter isSoa).any (Zone.sameRr update) := by
  rw [List.any_filter]
  congr 1
  funext record
  cases same : Zone.sameRr update record with
  | false => simp
  | true => simp [isSoa_of_sameRr same, soa]

theorem addNode_soas (update : Record) (node : List Record) :
    (if node.any (Zone.sameRr update) then Zone.refreshTtl update node
      else node ++ [update]).filter isSoa =
      if isSoa update = false then node.filter isSoa
      else if (node.filter isSoa).any (Zone.sameRr update) then
        Zone.refreshTtl update (node.filter isSoa)
      else node.filter isSoa ++ [update] := by
  cases soa : isSoa update with
  | true =>
    rw [any_sameRr_soas soa]
    simp only [Bool.true_eq_false, if_false]
    split
    · exact refreshTtl_soas update node
    · simp [soa]
  | false =>
    rw [if_pos rfl]
    split
    · rw [refreshTtl_soas]
      exact refreshTtl_other soa _ fun _ member => (List.mem_filter.mp member).2
    · simp [soa]

theorem filter_soas_comm (node : List Record) (keep : Record → Bool) :
    (node.filter keep).filter isSoa = (node.filter isSoa).filter keep := by
  rw [List.filter_filter, List.filter_filter]
  apply List.filter_congr
  intro record _
  exact Bool.and_comm _ _

theorem nodeAfter_soas (origin : DnsName) (update : Record) (node : List Record) :
    (nodeAfter origin update node).filter isSoa =
      soaEffect origin update (node.filter isSoa) := by
  unfold nodeAfter soaEffect
  by_cases inClass : update.class_ = classIn
  · rw [if_pos inClass, if_pos inClass]
    exact addNode_soas update node
  rw [if_neg inClass, if_neg inClass]
  by_cases anyClass : update.class_ = classAny
  · rw [if_pos anyClass, if_pos anyClass]
    by_cases all : update.rtype = typeAny
    · rw [if_pos all, if_pos all]
      split
      · refine filter_soa_of_kept _ _ fun record _ soa => ?_
        have rtype : record.rtype = typeSoa := by simpa [isSoa] using soa
        simp [rtype]
      · rfl
    · rw [if_neg all, if_neg all]
      split
      · rfl
      · exact filter_soas_comm _ _
  · rw [if_neg anyClass, if_neg anyClass]
    exact filter_soas_comm _ _

theorem updateOne_soas (done : zone.updateOne update = some zone') :
    zone'.origin = zone.origin ∧ zone'.soa = zone.soa ∧
      ∀ name, soasAt zone'.records name =
        if name = update.name then soaEffect zone.origin update (soasAt zone.records name)
        else soasAt zone.records name := by
  obtain ⟨origin, soa, _⟩ := updateOne_spec done
  refine ⟨origin, soa, fun name => ?_⟩
  have node := updateOne_node done name
  change (zone'.node name).filter isSoa = _
  rw [node]
  split
  · exact nodeAfter_soas zone.origin update (zone.node name)
  · rfl

/-- The update records that keep the copies together: an SOA may only be added
where it is already there, and the stored one may not be deleted. -/
def Harmless (zone : Zone) (update : Record) : Prop :=
  update.rtype = typeSoa →
    (update.class_ = classIn → update.name = zone.origin ∧ update.rdata = zone.soa.rdata ∧
      update.ttl = zone.soa.ttl) ∧
    (update.class_ = classNone → ¬ (update.name = zone.origin ∧ update.rdata = zone.soa.rdata))

instance (zone : Zone) (update : Record) : Decidable (Harmless zone update) :=
  inferInstanceAs (Decidable (_ → _ ∧ _))

theorem soa_mem_soasAt (coherent : SoaCoherent zone) :
    zone.soa ∈ soasAt zone.records zone.origin := by
  have stored := coherent zone.origin
  rw [if_pos rfl] at stored
  rw [stored]
  exact List.mem_singleton_self _

theorem soa_stored (coherent : SoaCoherent zone) :
    zone.soa ∈ (zone.records.get? zone.origin).getD [] :=
  (List.mem_filter.mp (soa_mem_soasAt coherent)).1

theorem soa_isSoa (coherent : SoaCoherent zone) : isSoa zone.soa = true :=
  (List.mem_filter.mp (soa_mem_soasAt coherent)).2

theorem soaEffect_keeps_iff (coherent : SoaCoherent zone)
    (known : update.class_ = classIn ∨ update.class_ = classAny ∨ update.class_ = classNone) :
    soaEffect zone.origin update (if update.name = zone.origin then [zone.soa] else []) =
        (if update.name = zone.origin then [zone.soa] else []) ↔
      Harmless zone update := by
  have soaType : zone.soa.rtype = typeSoa := by simpa [isSoa] using soa_isSoa coherent
  have anyType : typeSoa ≠ typeAny := by decide
  unfold soaEffect Harmless
  rcases known with inClass | anyClass | noneClass
  · have notNone : classIn ≠ classNone := by decide
    rw [if_pos inClass]
    by_cases soa : update.rtype = typeSoa
    · have isSoaUpdate : isSoa update = true := by simpa [isSoa] using soa
      by_cases apex : update.name = zone.origin
      · by_cases same : update.rdata = zone.soa.rdata
        · have found : Zone.sameRr update zone.soa = true := by
            simp [Zone.sameRr, soaType, soa, same]
          have refreshed : ({ zone.soa with ttl := update.ttl } : Record) = zone.soa ↔
              update.ttl = zone.soa.ttl := by
            constructor
            · intro equal
              have field := congrArg Record.ttl equal
              exact field
            · intro equal
              rw [equal]
          simp [isSoaUpdate, apex, found, Zone.refreshTtl, refreshed, soa, inClass, notNone, same]
        · have missing : Zone.sameRr update zone.soa = false := by
            simp [Zone.sameRr, Ne.symm same]
          simp [isSoaUpdate, apex, missing, soa, inClass, same]
      · simp [isSoaUpdate, apex, soa, inClass]
    · have ordinary : isSoa update = false := by simpa [isSoa] using soa
      simp [ordinary, soa]
  · have notIn : update.class_ ≠ classIn := by rw [anyClass]; decide
    have notNone : update.class_ ≠ classNone := by rw [anyClass]; decide
    rw [if_neg notIn, if_pos anyClass]
    by_cases all : update.rtype = typeAny
    · have ordinary : update.rtype ≠ typeSoa := by rw [all]; exact anyType.symm
      by_cases apex : update.name = zone.origin <;> simp [all, apex, notIn, notNone]
    by_cases apex : update.name = zone.origin
    · by_cases soa : update.rtype = typeSoa
      · simp [apex, soa, anyType, notIn, notNone]
      · simp [apex, soa, all, soaType, Ne.symm soa]
    · simp [apex, all, notIn, notNone]
  · have notIn : update.class_ ≠ classIn := by rw [noneClass]; decide
    have notAny : update.class_ ≠ classAny := by rw [noneClass]; decide
    rw [if_neg notIn, if_neg notAny]
    by_cases apex : update.name = zone.origin
    · by_cases soa : update.rtype = typeSoa
      · by_cases same : update.rdata = zone.soa.rdata
        · simp [apex, Zone.sameRr, soaType, soa, same, noneClass]
        · simp [apex, Zone.sameRr, soaType, soa, same, Ne.symm same, notIn]
      · simp [apex, Zone.sameRr, soaType, soa, Ne.symm soa]
    · simp [apex, notIn]

theorem updateOne_class (done : zone.updateOne update = some zone') :
    update.class_ = classIn ∨ update.class_ = classAny ∨ update.class_ = classNone := by
  unfold Zone.updateOne at done
  by_contra unknown
  simp only [not_or] at unknown
  simp [unknown.1, unknown.2.1, unknown.2.2] at done

/-- One update record keeps a coherent zone coherent exactly when it is harmless. -/
theorem updateOne_coherent_iff (coherent : SoaCoherent zone)
    (done : zone.updateOne update = some zone') : SoaCoherent zone' ↔ Harmless zone update := by
  obtain ⟨origin, soa, stored⟩ := updateOne_soas done
  rw [← soaEffect_keeps_iff coherent (updateOne_class done)]
  constructor
  · intro after
    have here := after update.name
    rw [stored, if_pos rfl, coherent update.name, origin, soa] at here
    exact here
  · intro kept name
    rw [stored, origin, soa]
    split
    · rename_i here
      rw [coherent name, here]
      exact kept
    · exact coherent name

theorem updateAll_cons_ok {rest : List Record}
    (done : zone.updateAll (update :: rest) = (rcodeNoerror, zone')) :
    ∃ middle, zone.updateOne update = some middle ∧
      middle.updateAll rest = (rcodeNoerror, zone') := by
  unfold Zone.updateAll at done
  split at done
  · cases done
  · rename_i middle stepped
    exact ⟨middle, stepped, done⟩

theorem checkPrereq_ne_noerror {prereq : Record} {rcode : UInt8}
    (refused : zone.checkPrereq prereq = some rcode) : rcode ≠ rcodeNoerror := by
  unfold Zone.checkPrereq at refused
  dsimp only at refused
  split_ifs at refused <;> cases refused <;> decide

theorem applyUpdate_ok {prereqs updates : List Record}
    (done : zone.applyUpdate prereqs updates = (rcodeNoerror, zone')) :
    prereqs.findSome? zone.checkPrereq = none ∧
      (∀ update ∈ updates, update.name.endsWith zone.origin = true) ∧
      zone.updateAll updates = (rcodeNoerror, zone') := by
  unfold Zone.applyUpdate at done
  split at done
  · rename_i rcode failed
    cases done
    obtain ⟨prereq, _, refused⟩ := List.exists_of_findSome?_eq_some failed
    exact absurd rfl (checkPrereq_ne_noerror refused)
  · rename_i met
    split at done
    · cases done
    · rename_i inside
      exact ⟨met, by simpa using inside, done⟩

theorem updateAll_coherent (updates : List Record) :
    ∀ {zone zone' : Zone}, SoaCoherent zone → (∀ update ∈ updates, Harmless zone update) →
      zone.updateAll updates = (rcodeNoerror, zone') → SoaCoherent zone' := by
  induction updates with
  | nil =>
    intro zone zone' coherent _ done
    cases done
    exact coherent
  | cons update rest ih =>
    intro zone zone' coherent harmless done
    obtain ⟨middle, stepped, done⟩ := updateAll_cons_ok done
    obtain ⟨origin, soa, _⟩ := updateOne_soas stepped
    have kept := (updateOne_coherent_iff coherent stepped).mpr (harmless update (by simp))
    refine ih kept (fun other member => ?_) done
    have before := harmless other (by simp [member])
    rw [Harmless, origin, soa]
    exact before

theorem applyUpdate_coherent {prereqs updates : List Record} (coherent : SoaCoherent zone)
    (harmless : ∀ update ∈ updates, Harmless zone update)
    (done : zone.applyUpdate prereqs updates = (rcodeNoerror, zone')) : SoaCoherent zone' := by
  obtain ⟨_, _, applied⟩ := applyUpdate_ok done
  exact updateAll_coherent updates coherent harmless applied

/-! ## Runs -/

inductive Edit
  | replace (name : DnsName) (rtype : String) (ttl : UInt32) (contents : List String)
  | delete (name : DnsName) (rtype : String)
  | update (prereqs updates : List Record)
  | bump

inductive Edits : Zone → Edit → Zone → Prop
  | replace {zone zone' : Zone} {name : DnsName} {rtype : String} {ttl : UInt32}
      {contents : List String}
      (success : zone.replaceRrset name rtype ttl contents = (.ok (), zone')) :
      Edits zone (.replace name rtype ttl contents) zone'
  | delete {zone zone' : Zone} {name : DnsName} {rtype : String}
      (success : zone.deleteRrset name rtype = (.ok (), zone')) :
      Edits zone (.delete name rtype) zone'
  | update {zone zone' : Zone} {prereqs updates : List Record}
      (success : zone.applyUpdate prereqs updates = (rcodeNoerror, zone')) :
      Edits zone (.update prereqs updates) zone'
  | bump {zone : Zone} : Edits zone .bump zone.bumpSerial

/-- Only dynamic updates are restricted. -/
def HarmlessEdit (zone : Zone) : Edit → Prop
  | .update _ updates => ∀ update ∈ updates, Harmless zone update
  | _ => True

theorem edits_coherent {edit : Edit} (coherent : SoaCoherent zone)
    (harmless : HarmlessEdit zone edit) (step : Edits zone edit zone') : SoaCoherent zone' := by
  cases step with
  | replace success => exact replaceRrset_coherent coherent success
  | delete success => exact deleteRrset_coherent coherent success
  | update success => exact applyUpdate_coherent coherent harmless success
  | bump => exact bumpSerial_coherent coherent

theorem run_soaCoherent {origin : DnsName} {all : List Record} {zone last : Zone}
    {edits : List Edit} (built : Zone.fromRecords origin all = .ok zone)
    (run : Run (When HarmlessEdit Edits) zone edits last) : SoaCoherent last := by
  refine run.invariant (fun state edit state' coherent step => ?_) (fromRecords_coherent built)
  exact edits_coherent coherent step.1 step.2

theorem apexName_valid : ValidLabels [[101, 120], [116, 101, 115, 116]] := by decide

def apexName : DnsName := ⟨[[101, 120], [116, 101, 115, 116]], apexName_valid⟩

def apexSoa : Record where
  name := apexName
  class_ := classIn
  ttl := 3600
  rdata := .soa ⟨apexName, apexName, 1, 7200, 3600, 1209600, 300⟩

def shell : Zone := ⟨apexName, apexSoa, 1, HashMap.empty.insert apexName [apexSoa]⟩

theorem shell_built : Zone.fromRecords apexName [apexSoa] = .ok shell := rfl

def dropSoa : Record := { apexSoa with class_ := classNone, ttl := 0 }

def apexAddress : Record :=
  { name := apexName, class_ := classIn, ttl := 60, rdata := .a (.new 10 0 0 1) }

theorem shell_run :
    ∃ last, Run (When HarmlessEdit Edits) shell
      [.update [] [apexAddress], .bump, .delete apexName "A"] last := by
  generalize updatedEq : (shell.applyUpdate [] [apexAddress]).2 = updated
  generalize deletedEq : (updated.bumpSerial.deleteRrset apexName "A").2 = deleted
  have first : When HarmlessEdit Edits shell (.update [] [apexAddress]) updated := by
    refine ⟨fun update member => ?_, .update ?_⟩
    · obtain rfl := List.mem_singleton.mp member
      decide
    · rw [← updatedEq]
      exact Prod.ext (by decide +kernel) rfl
  have second : When HarmlessEdit Edits updated .bump updated.bumpSerial := ⟨trivial, .bump⟩
  have third : When HarmlessEdit Edits updated.bumpSerial (.delete apexName "A") deleted := by
    refine ⟨trivial, .delete ?_⟩
    rw [← deletedEq, ← updatedEq]
    exact Prod.ext (by decide +kernel) rfl
  exact ⟨deleted, .next first (.next second (.next third (.done _)))⟩

theorem run_soaCoherent_shell :
    ∃ last, Run (When HarmlessEdit Edits) shell
      [.update [] [apexAddress], .bump, .delete apexName "A"] last ∧ SoaCoherent last := by
  obtain ⟨last, run⟩ := shell_run
  exact ⟨last, run, run_soaCoherent shell_built run⟩

/-- The update is accepted, and the map is left without an SOA. -/
theorem dropSoa_parts_copies :
    Zone.fromRecords apexName [apexSoa] = .ok shell ∧
      (∃ last, Run Edits shell [.update [] [dropSoa]] last ∧ ¬ SoaCoherent last) := by
  refine ⟨shell_built, (shell.applyUpdate [] [dropSoa]).2, ?_, ?_⟩
  · exact .next (.update (Prod.ext (by decide +kernel) rfl)) (.done _)
  · intro coherent
    have stored := coherent apexName
    revert stored
    decide +kernel

end Rdns.Zones
