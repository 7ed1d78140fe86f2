import Rdns.Zones.Structure

/-!
# Assembling a zone from its records

When `from_records` succeeds, and what it then builds: every record once, in a map
that may hold them in any order.
-/

set_option autoImplicit false

namespace Rdns.Zones

open Rdns.Lib Rdns.Proto

variable {origin : DnsName} {zone : Zone}

def stored (records : Records) : List Record := records.values.flatten

theorem mem_stored_iff (records : Records) (record : Record) :
    record ∈ stored records ↔ ∃ name node, records.get? name = some node ∧ record ∈ node := by
  constructor
  · intro member
    obtain ⟨node, listed, inside⟩ := List.mem_flatten.mp member
    obtain ⟨entry, among, rfl⟩ := List.mem_map.mp listed
    exact ⟨entry.1, entry.2, (HashMap.mem_entries_iff records entry.1 entry.2).mp among, inside⟩
  · intro held
    obtain ⟨name, node, found, inside⟩ := held
    have among := (HashMap.mem_entries_iff records name node).mpr found
    exact List.mem_flatten.mpr ⟨node, List.mem_map.mpr ⟨_, among, rfl⟩, inside⟩

theorem stored_length (records : Records) : (stored records).length = storedCount records :=
  List.length_flatten

theorem forall_stored_iff (records : Records) (property : Record → Prop) :
    (∀ record ∈ stored records, property record) ↔
      ∀ name, ∀ record ∈ (records.get? name).getD [], property record := by
  constructor
  · intro all name record member
    cases found : records.get? name with
    | none =>
      rw [found] at member
      cases member
    | some node =>
      rw [found] at member
      exact all record ((mem_stored_iff records record).mpr ⟨name, node, found, member⟩)
  · intro all record member
    obtain ⟨name, node, found, inside⟩ := (mem_stored_iff records record).mp member
    exact all name record (by rw [found]; exact inside)

theorem stored_split (records : Records) (name : DnsName) :
    (stored records).Perm ((records.get? name).getD [] ++ stored (records.remove name)) := by
  cases found : records.get? name with
  | none =>
    rw [HashMap.remove_of_get?_eq_none found]
    exact List.Perm.refl _
  | some node => exact (HashMap.values_perm_of_get? found).flatten

theorem count_stored {records : Records} (placed : Placed origin records) (record : Record) :
    (stored records).count record = ((records.get? record.name).getD []).count record := by
  rw [(stored_split records record.name).count_eq, List.count_append]
  refine Nat.add_eq_left.mpr (List.count_eq_zero.mpr fun member => ?_)
  obtain ⟨name, node, found, inside⟩ := (mem_stored_iff _ record).mp member
  rw [HashMap.get?_remove] at found
  split at found
  · cases found
  · rename_i other
    exact other ((placed name node found).1 record inside).symm

theorem stored_perm {left right : Records} (placedLeft : Placed origin left)
    (placedRight : Placed origin right)
    (nodes : ∀ name, ((left.get? name).getD []).Perm ((right.get? name).getD [])) :
    (stored left).Perm (stored right) := by
  refine List.perm_iff_count.mpr fun record => ?_
  rw [count_stored placedLeft, count_stored placedRight]
  exact (nodes record.name).count_eq record

theorem stored_upsert (records : Records) (name : DnsName) (record : Record) :
    (stored (records.upsert name (· ++ [record]))).Perm (stored records ++ [record]) := by
  have added : stored (records.upsert name (· ++ [record])) =
      (records.get? name).getD [] ++ [record] ++ stored (records.remove name) := by
    rw [stored, HashMap.upsert, HashMap.values_insert]
    rfl
  rw [added, List.append_assoc]
  refine (List.Perm.append_left _ List.perm_append_comm).trans ?_
  rw [← List.append_assoc]
  exact (stored_split records name).symm.append_right [record]

theorem collect_total (origin : DnsName) (all : List Record) :
    ∀ (soa : Option Record) (records : Records) (count : Nat),
      (∀ record ∈ all, record.name.endsWith origin = true) →
      (∀ record ∈ all, isSoa record = true → record.name = origin) →
      (soa.toList ++ all.filter isSoa).length ≤ 1 →
      ∃ records', Zone.collect origin all soa records count =
        .ok ((soa.toList ++ all.filter isSoa).head?, records', count + all.length) := by
  induction all with
  | nil =>
    intro soa records count _ _ _
    refine ⟨records, ?_⟩
    cases soa <;> rfl
  | cons record rest ih =>
    intro soa records count below owned single
    obtain ⟨here, later⟩ := List.forall_mem_cons.mp below
    obtain ⟨apex, others⟩ := List.forall_mem_cons.mp owned
    have chosen : (if record.rtype = typeSoa then some record else soa).toList ++
        rest.filter isSoa = soa.toList ++ (record :: rest).filter isSoa := by
      by_cases typed : record.rtype = typeSoa
      · have marked : isSoa record = true := decide_eq_true typed
        rw [List.filter_cons_of_pos marked] at single ⊢
        cases soa with
        | none =>
          rw [if_pos typed]
          rfl
        | some first =>
          simp only [Option.toList_some, List.length_append, List.length_cons] at single
          omega
      · have unmarked : ¬ isSoa record = true := by simpa [isSoa] using typed
        rw [if_neg typed, List.filter_cons_of_neg unmarked]
    obtain ⟨records', collected⟩ := ih (if record.rtype = typeSoa then some record else soa)
      (records.upsert record.name (· ++ [record])) (count + 1) later others (by rwa [chosen])
    have misplaced : ¬ (record.rtype = typeSoa ∧ record.name ≠ origin) :=
      fun both => both.2 (apex (decide_eq_true both.1))
    have duplicate : ¬ (record.rtype = typeSoa ∧ soa.isSome = true) := by
      intro both
      have marked : isSoa record = true := decide_eq_true both.1
      obtain ⟨first, rfl⟩ := Option.isSome_iff_exists.mp both.2
      rw [List.filter_cons_of_pos marked] at single
      simp only [Option.toList_some, List.length_append, List.length_cons] at single
      omega
    have counted : count + 1 + rest.length = count + (record :: rest).length := by
      rw [List.length_cons]
      omega
    refine ⟨records', ?_⟩
    rw [Zone.collect, here, if_neg (by simp), if_neg misplaced, if_neg duplicate, collected,
      chosen, counted]

theorem collect_stored (origin : DnsName) (all : List Record) :
    ∀ (soa : Option Record) (records : Records) (count : Nat) (soa' : Option Record)
      (records' : Records) (count' : Nat),
      Zone.collect origin all soa records count = .ok (soa', records', count') →
      (stored records').Perm (stored records ++ all) := by
  induction all with
  | nil =>
    intro soa records count soa' records' count' collected
    cases collected
    rw [List.append_nil]
  | cons record rest ih =>
    intro soa records count soa' records' count' collected
    unfold Zone.collect at collected
    split_ifs at collected
    all_goals
      have perm := ih _ _ _ _ _ _ collected
      have added := (stored_upsert records record.name record).append_right rest
      rw [List.append_assoc] at added
      exact perm.trans added

theorem fromRecords_perm {all : List Record} (built : Zone.fromRecords origin all = .ok zone) :
    (stored zone.records).Perm all := by
  obtain ⟨_, collected⟩ := fromRecords_ok built
  exact collect_stored origin all none HashMap.empty 0 _ _ _ collected

theorem fromRecords_total {all : List Record} {soa : Record}
    (below : ∀ record ∈ all, record.name.endsWith origin = true) (soas : all.filter isSoa = [soa])
    (owned : soa.name = origin) :
    ∃ zone, Zone.fromRecords origin all = .ok zone ∧ zone.origin = origin ∧ zone.soa = soa ∧
      (stored zone.records).Perm all ∧ zone.recordCount = all.length := by
  have apex : ∀ record ∈ all, isSoa record = true → record.name = origin := by
    intro record member marked
    have listed := List.mem_filter.mpr ⟨member, marked⟩
    rw [soas] at listed
    rw [List.mem_singleton.mp listed, owned]
  obtain ⟨records, collected⟩ :=
    collect_total origin all none HashMap.empty 0 below apex (by rw [soas]; rfl)
  rw [soas] at collected
  have built : Zone.fromRecords origin all =
      .ok { origin, soa, recordCount := 0 + all.length, records } := by
    rw [Zone.fromRecords, collected]
    rfl
  exact ⟨_, built, rfl, rfl, fromRecords_perm built, Nat.zero_add _⟩

/-- A property of all stored records that does not depend on the TTL is kept by an update
record that adds no other. -/
theorem updateOne_forall_stored {property : Record → Prop}
    (refreshed : ∀ (record : Record) (ttl : UInt32), property record →
      property { record with ttl := ttl }) {zone' : Zone} {update : Record}
    (all : ∀ record ∈ stored zone.records, property record)
    (added : update.class_ = classIn → property update)
    (done : zone.updateOne update = some zone') :
    ∀ record ∈ stored zone'.records, property record := by
  rw [forall_stored_iff] at all ⊢
  intro name record member
  have node := updateOne_node done name
  unfold Zone.node at node
  rw [node] at member
  split at member
  · rcases mem_nodeAfter member with ⟨old, among, rfl | rfl⟩ | ⟨inClass, rfl⟩
    · exact all name record among
    · exact refreshed old _ (all name old among)
    · exact added inClass
  · exact all name record member

/-! ## The records of a coherent zone -/

theorem soa_name (structured : Structured zone) (coherent : SoaCoherent zone) :
    zone.soa.name = zone.origin :=
  node_owned structured.placed _ _ (soa_stored coherent)

theorem stored_soas (coherent : SoaCoherent zone) :
    (stored zone.records).filter isSoa = [zone.soa] := by
  have here := coherent zone.origin
  rw [if_pos rfl] at here
  have elsewhere : (stored (zone.records.remove zone.origin)).filter isSoa = [] := by
    refine List.filter_eq_nil_iff.mpr fun record member marked => ?_
    obtain ⟨name, node, found, inside⟩ := (mem_stored_iff _ record).mp member
    rw [HashMap.get?_remove] at found
    split at found
    · cases found
    · rename_i other
      have none := coherent name
      rw [if_neg other, soasAt, found] at none
      exact List.filter_eq_nil_iff.mp none record inside marked
  have split := (stored_split zone.records zone.origin).filter isSoa
  rw [List.filter_append, elsewhere, List.append_nil] at split
  exact List.perm_singleton.mp (split.trans (List.Perm.of_eq here))

theorem allRecords_perm (coherent : SoaCoherent zone) :
    zone.allRecords.Perm (stored zone.records) := by
  have others : (zone.records.values.flatMap fun node =>
      node.filter fun record => record.rtype ≠ typeSoa) =
        (stored zone.records).filter fun record => !isSoa record := by
    rw [stored, List.filter_flatten, List.flatMap_def]
    congr 2
    funext node
    congr 1
    funext record
    simp [isSoa]
  rw [Zone.allRecords, others, ← List.singleton_append, ← stored_soas coherent]
  exact List.filter_append_perm isSoa (stored zone.records)

theorem mem_stored_below (structured : Structured zone) {record : Record}
    (member : record ∈ stored zone.records) : record.name.endsWith zone.origin = true := by
  obtain ⟨name, node, found, inside⟩ := (mem_stored_iff _ record).mp member
  obtain ⟨owned, below⟩ := structured.placed name node found
  rw [owned record inside]
  exact below

end Rdns.Zones
