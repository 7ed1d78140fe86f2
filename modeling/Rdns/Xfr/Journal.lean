import Rdns.Zones.Soa
import Mathlib.Data.List.Chain
import Mathlib.Data.Set.Basic

/-!
# The change journal

`Journal::record` and `Journal::chain` of dns-xfr.  A delta is the difference of
two versions as lists of records; the journal keeps the last `JOURNAL_DEPTH` of
them per zone and answers a serial with the deltas that lead from it to the
current version.
-/

set_option autoImplicit false

namespace Rdns.Xfr

open Rdns.Lib Rdns.Proto Rdns.Zones

def journalDepth : Nat := 64

def zoneSerial (zone : Zone) : UInt32 :=
  match zone.soa.rdata with
  | .soa soa => soa.serial
  | _ => 0

structure Diff where
  from_ : UInt32
  to_ : UInt32
  deleted : List Record
  added : List Record

def diffOf (old new : Zone) : Diff where
  from_ := zoneSerial old
  to_ := zoneSerial new
  deleted := old.allRecords.filter fun record => !new.allRecords.contains record
  added := new.allRecords.filter fun record => !old.allRecords.contains record

structure Journal where
  zones : HashMap DnsName (List Diff)

/-- `pop_front` while the log is too long. -/
def keepLast {α : Type} (count : Nat) (log : List α) : List α := log.drop (log.length - count)

def Journal.record (journal : Journal) (old new : Zone) : Journal :=
  if zoneSerial old = zoneSerial new then journal
  else ⟨journal.zones.upsert new.origin fun log => keepLast journalDepth (log ++ [diffOf old new])⟩

/-- The walk of `chain`; its guard ends it before the fuel does. -/
def chainLoop (log : List Diff) (current : UInt32) :
    Nat → UInt32 → List Diff → Option (List Diff)
  | 0, _, _ => none
  | fuel + 1, serial, out =>
    if serial = current then some out
    else match log.find? fun diff => diff.from_ = serial with
      | none => none
      | some diff =>
        let out := out ++ [diff]
        if out.length > journalDepth then none else chainLoop log current fuel diff.to_ out

/-- The deltas from a serial up to the current one, or none if the history does
not reach back that far. -/
def Journal.chain (journal : Journal) (origin : DnsName) (fromSerial current : UInt32) :
    Option (List Diff) :=
  if fromSerial = current then some []
  else match journal.zones.get? origin with
    | none => none
    | some log => chainLoop log current (journalDepth + 2) fromSerial []

/-! ## Histories -/

/-- Versions of one zone with serials that never come back. -/
structure History where
  origin : DnsName
  versions : List Zone
  sameOrigin : ∀ zone ∈ versions, zone.origin = origin
  distinct : (versions.map zoneSerial).Nodup

def Journal.recordAll : Journal → List Zone → Journal
  | journal, old :: new :: rest => (journal.record old new).recordAll (new :: rest)
  | journal, _ => journal

def deltas : List Zone → List Diff
  | old :: new :: rest => diffOf old new :: deltas (new :: rest)
  | _ => []

theorem deltas_length (zone : Zone) (later : List Zone) :
    (deltas (zone :: later)).length = later.length := by
  induction later generalizing zone with
  | nil => rfl
  | cons next rest ih => simp only [deltas, List.length_cons, ih]

theorem deltas_append (before : List Zone) (zone : Zone) (later : List Zone) :
    deltas (before ++ zone :: later) = deltas (before ++ [zone]) ++ deltas (zone :: later) := by
  induction before with
  | nil => rfl
  | cons first rest ih =>
    cases rest with
    | nil => rfl
    | cons second others =>
      simp only [List.cons_append, deltas] at ih ⊢
      rw [ih]

theorem deltas_linked (zone : Zone) (later : List Zone) :
    List.IsChain (fun first second : Diff => first.to_ = second.from_)
      (deltas (zone :: later)) := by
  induction later generalizing zone with
  | nil => exact List.isChain_nil
  | cons next rest ih =>
    cases rest with
    | nil => exact List.isChain_singleton _
    | cons other others => exact List.isChain_cons_cons.mpr ⟨rfl, ih next⟩

theorem deltas_from (zone : Zone) (later : List Zone) :
    (deltas (zone :: later)).map Diff.from_ = ((zone :: later).dropLast).map zoneSerial := by
  induction later generalizing zone with
  | nil => rfl
  | cons next rest ih =>
    rw [deltas, List.map_cons, ih, List.dropLast_cons_cons, List.map_cons]
    rfl

/-! ## The log -/

def Journal.log (journal : Journal) (origin : DnsName) : List Diff :=
  (journal.zones.get? origin).getD []

theorem keepLast_append {α : Type} (count : Nat) (log more : List α) :
    keepLast count (keepLast count log ++ more) = keepLast count (log ++ more) := by
  unfold keepLast
  rw [List.drop_append, List.drop_append, List.length_append, List.length_append,
    List.length_drop, List.drop_drop]
  congr 2 <;> omega

theorem keepLast_of_le {α : Type} {count : Nat} (left : List α) {right : List α}
    (enough : count ≤ right.length) : keepLast count (left ++ right) = keepLast count right := by
  unfold keepLast
  rw [List.drop_append, List.length_append, List.drop_eq_nil_of_le (by omega), List.nil_append]
  congr 1
  omega

theorem keepLast_of_ge {α : Type} {count : Nat} (left : List α) {right : List α}
    (fits : right.length ≤ count) :
    keepLast count (left ++ right) = keepLast (count - right.length) left ++ right := by
  unfold keepLast
  have rest : left.length + right.length - count - left.length = 0 := by omega
  rw [List.drop_append, List.length_append, rest, List.drop_zero]
  congr 2
  omega

theorem record_log (journal : Journal) {old new : Zone}
    (changed : zoneSerial old ≠ zoneSerial new) :
    (journal.record old new).log new.origin =
      keepLast journalDepth (journal.log new.origin ++ [diffOf old new]) := by
  unfold Journal.record Journal.log
  rw [if_neg changed, HashMap.get?_upsert, if_pos rfl]
  rfl

theorem recordAll_log (origin : DnsName) :
    ∀ (versions : List Zone) (journal : Journal), (∀ zone ∈ versions, zone.origin = origin) →
      (versions.map zoneSerial).Nodup →
      keepLast journalDepth (journal.log origin) = journal.log origin →
      (journal.recordAll versions).log origin =
        keepLast journalDepth (journal.log origin ++ deltas versions) := by
  intro versions
  induction versions with
  | nil =>
    intro journal _ _ short
    simpa [Journal.recordAll, deltas] using short.symm
  | cons old rest ih =>
    intro journal sameOrigin distinct short
    cases rest with
    | nil => simpa [Journal.recordAll, deltas] using short.symm
    | cons new later =>
      have changed : zoneSerial old ≠ zoneSerial new := by
        intro same
        rw [List.map_cons, List.nodup_cons, same] at distinct
        exact distinct.1 (by simp)
      have newOrigin := sameOrigin new (by simp)
      have logged := record_log journal changed
      rw [newOrigin] at logged
      have again : keepLast journalDepth ((journal.record old new).log origin) =
          (journal.record old new).log origin := by
        rw [logged]
        have twice := keepLast_append journalDepth (journal.log origin ++ [diffOf old new]) []
        simpa using twice
      rw [Journal.recordAll, ih _ (fun zone member => sameOrigin zone (by simp [member]))
        (List.nodup_cons.mp distinct).2 again, logged, keepLast_append, deltas,
        List.append_assoc, List.singleton_append]

/-! ## The walk -/

theorem find?_from {log : List Diff} {diff : Diff} (distinct : (log.map Diff.from_).Nodup)
    (member : diff ∈ log) : log.find? (fun other => other.from_ = diff.from_) = some diff := by
  induction log with
  | nil => cases member
  | cons first rest ih =>
    rw [List.map_cons, List.nodup_cons] at distinct
    rcases List.mem_cons.mp member with rfl | inside
    · exact List.find?_cons_of_pos (by simp)
    · have other : ¬ first.from_ = diff.from_ := by
        intro same
        exact distinct.1 (same ▸ List.mem_map_of_mem inside)
      rw [List.find?_cons_of_neg (by simpa using other)]
      exact ih distinct.2 inside

theorem chainLoop_step {log : List Diff} {current serial : UInt32} {fuel : Nat} {out : List Diff}
    {diff : Diff} (notYet : serial ≠ current)
    (found : log.find? (fun other => other.from_ = serial) = some diff)
    (small : ¬ (out ++ [diff]).length > journalDepth) :
    chainLoop log current (fuel + 1) serial out =
      chainLoop log current fuel diff.to_ (out ++ [diff]) := by
  rw [chainLoop, if_neg notYet, found]
  exact if_neg small

theorem serial_ne_last {zone last : Zone} {later : List Zone}
    (final : (zone :: later).getLast? = some last)
    (distinct : ((zone :: later).map zoneSerial).Nodup) (more : later ≠ []) :
    zoneSerial zone ≠ zoneSerial last := by
  intro same
  have lastLater : last ∈ later := by
    obtain ⟨next, rest, rfl⟩ := List.exists_cons_of_ne_nil more
    rw [List.getLast?_cons_cons] at final
    exact List.mem_of_getLast? final
  rw [List.map_cons, List.nodup_cons, same] at distinct
  exact distinct.1 (List.mem_map_of_mem lastLater)

theorem chainLoop_deltas {log : List Diff} (logDistinct : (log.map Diff.from_).Nodup)
    (last : Zone) :
    ∀ (later : List Zone) (zone : Zone) (fuel : Nat) (out : List Diff),
      (zone :: later).getLast? = some last → ((zone :: later).map zoneSerial).Nodup →
      (∀ diff ∈ deltas (zone :: later), diff ∈ log) →
      out.length + later.length ≤ journalDepth → later.length < fuel →
      chainLoop log (zoneSerial last) fuel (zoneSerial zone) out =
        some (out ++ deltas (zone :: later)) := by
  intro later
  induction later with
  | nil =>
    intro zone fuel out final _ _ _ enough
    cases fuel with
    | zero => omega
    | succ fuel =>
      have same : zone = last := by simpa using final
      subst same
      simp [chainLoop, deltas]
  | cons next rest ih =>
    intro zone fuel out final distinct inside short enough
    cases fuel with
    | zero => omega
    | succ fuel =>
      have notYet := serial_ne_last final distinct (by simp)
      have found : log.find? (fun other => other.from_ = zoneSerial zone) =
          some (diffOf zone next) :=
        find?_from logDistinct (inside (diffOf zone next) (by simp [deltas]))
      have small : ¬ (out ++ [diffOf zone next]).length > journalDepth := by
        simp only [List.length_append, List.length_cons, List.length_nil] at short ⊢
        omega
      have rest := ih next fuel (out ++ [diffOf zone next])
        (by rwa [List.getLast?_cons_cons] at final) (List.nodup_cons.mp distinct).2
        (fun diff member => inside diff (by rw [deltas]; exact List.mem_cons_of_mem _ member))
        (by simp only [List.length_append, List.length_cons, List.length_nil] at short ⊢; omega)
        (by simp only [List.length_cons] at enough; omega)
      rw [chainLoop_step notYet found small]
      change chainLoop log (zoneSerial last) fuel (zoneSerial next) _ = _
      rw [rest]
      simp [deltas]

theorem chainLoop_unknown {log : List Diff} {current serial : UInt32} {out : List Diff} (fuel : Nat)
    (notYet : serial ≠ current) (unknown : serial ∉ log.map Diff.from_) :
    chainLoop log current fuel serial out = none := by
  cases fuel with
  | zero => rfl
  | succ fuel =>
    have missing : log.find? (fun diff => diff.from_ = serial) = none := by
      rw [List.find?_eq_none]
      intro diff member same
      exact unknown (List.mem_map.mpr ⟨diff, member, of_decide_eq_true same⟩)
    rw [chainLoop, if_neg notYet, missing]

/-! ## Composition -/

def recordSet (zone : Zone) : Set Record := { record | record ∈ zone.allRecords }

def Diff.apply (records : Set Record) (diff : Diff) : Set Record :=
  (records \ { record | record ∈ diff.deleted }) ∪ { record | record ∈ diff.added }

theorem apply_diffOf (old new : Zone) : (diffOf old new).apply (recordSet old) = recordSet new := by
  ext record
  simp only [Diff.apply, diffOf, recordSet, Set.mem_union, Set.mem_sdiff, Set.mem_ofPred_eq,
    List.mem_filter, Bool.not_eq_true', List.contains_eq_mem, decide_eq_false_iff_not]
  by_cases before : record ∈ old.allRecords <;> by_cases after : record ∈ new.allRecords <;>
    simp [before, after]

theorem foldl_deltas (later : List Zone) :
    ∀ (zone last : Zone), (zone :: later).getLast? = some last →
      (deltas (zone :: later)).foldl Diff.apply (recordSet zone) = recordSet last := by
  induction later with
  | nil =>
    intro zone last final
    have same : zone = last := by simpa using final
    rw [same]
    rfl
  | cons next rest ih =>
    intro zone last final
    rw [deltas, List.foldl_cons, apply_diffOf]
    exact ih next last (by rwa [List.getLast?_cons_cons] at final)

/-! ## Chains over a history -/

section

variable (history : History)

theorem log_of_history (journal : Journal) (fresh : journal.zones.get? history.origin = none) :
    (journal.recordAll history.versions).log history.origin =
      keepLast journalDepth (deltas history.versions) := by
  have empty : journal.log history.origin = [] := by
    rw [Journal.log, fresh]
    rfl
  rw [recordAll_log history.origin history.versions journal history.sameOrigin history.distinct
    (by rw [empty]; rfl), empty, List.nil_append]

theorem deltas_from_sublist (versions : List Zone) :
    List.Sublist ((deltas versions).map Diff.from_) (versions.map zoneSerial) := by
  cases versions with
  | nil => exact List.Sublist.refl _
  | cons first rest =>
    rw [deltas_from]
    exact (List.dropLast_sublist _).map _

theorem kept_from_nodup :
    ((keepLast journalDepth (deltas history.versions)).map Diff.from_).Nodup :=
  (history.distinct.sublist (deltas_from_sublist history.versions)).sublist
    ((List.drop_sublist _ _).map _)

theorem chain_eq_chainLoop (journal : Journal) (origin : DnsName) {fromSerial current : UInt32}
    (different : fromSerial ≠ current) :
    journal.chain origin fromSerial current =
      chainLoop (journal.log origin) current (journalDepth + 2) fromSerial [] := by
  unfold Journal.chain Journal.log
  rw [if_neg different]
  cases journal.zones.get? origin with
  | none => exact (chainLoop_unknown _ different (by simp)).symm
  | some log => rfl

theorem kept_of_short {before : List Zone} {zone : Zone} {later : List Zone}
    (shape : history.versions = before ++ zone :: later) (short : later.length ≤ journalDepth) :
    ∀ diff ∈ deltas (zone :: later), diff ∈ keepLast journalDepth (deltas history.versions) := by
  intro diff member
  rw [shape, deltas_append, keepLast_of_ge _ (by rw [deltas_length]; exact short)]
  exact List.mem_append_right _ member

theorem evicted_of_long {before : List Zone} {zone : Zone} {later : List Zone}
    (shape : history.versions = before ++ zone :: later) (long : journalDepth < later.length) :
    zoneSerial zone ∉ (keepLast journalDepth (deltas history.versions)).map Diff.from_ := by
  intro member
  cases later with
  | nil => simp at long
  | cons next rest =>
    have distinct := history.distinct
    rw [shape, List.map_append, List.map_cons] at distinct
    have fresh : zoneSerial zone ∉ (next :: rest).map zoneSerial :=
      (List.nodup_cons.mp distinct.of_append_right).1
    have whole : deltas history.versions =
        (deltas (before ++ [zone]) ++ [diffOf zone next]) ++ deltas (next :: rest) := by
      rw [shape, deltas_append, deltas, List.append_assoc, List.singleton_append]
    rw [whole, keepLast_of_le _
      (by rw [deltas_length]; simp only [List.length_cons] at long; omega)]
      at member
    have inside := ((List.drop_sublist _ _).map _).subset member
    exact fresh ((deltas_from_sublist (next :: rest)).subset inside)

section

variable (journal : Journal) (fresh : journal.zones.get? history.origin = none)
variable {before : List Zone} {zone last : Zone} {later : List Zone}

theorem final_of_split (final : history.versions.getLast? = some last)
    (shape : history.versions = before ++ zone :: later) :
    (zone :: later).getLast? = some last := by
  rw [shape, List.getLast?_append_of_ne_nil _ (by simp)] at final
  exact final

theorem distinct_of_split (shape : history.versions = before ++ zone :: later) :
    ((zone :: later).map zoneSerial).Nodup := by
  have all := history.distinct
  rw [shape, List.map_append] at all
  exact all.of_append_right

include fresh

theorem chain_kept (final : history.versions.getLast? = some last)
    (shape : history.versions = before ++ zone :: later) (short : later.length ≤ journalDepth) :
    (journal.recordAll history.versions).chain history.origin (zoneSerial zone) (zoneSerial last) =
      some (deltas (zone :: later)) := by
  have tailFinal := final_of_split history final shape
  have distinct := distinct_of_split history shape
  cases later with
  | nil =>
    have same : zone = last := by simpa using tailFinal
    rw [same, Journal.chain, if_pos rfl]
    rfl
  | cons next rest =>
    have different := serial_ne_last tailFinal distinct (by simp)
    rw [chain_eq_chainLoop _ _ different, log_of_history history journal fresh]
    exact chainLoop_deltas (kept_from_nodup history) last (next :: rest) zone _ [] tailFinal
      distinct (kept_of_short history shape short) (by simpa using short) (by omega)

theorem chain_evicted (final : history.versions.getLast? = some last)
    (shape : history.versions = before ++ zone :: later) (long : journalDepth < later.length) :
    (journal.recordAll history.versions).chain history.origin (zoneSerial zone) (zoneSerial last) =
      none := by
  have different := serial_ne_last (final_of_split history final shape)
    (distinct_of_split history shape) (by rintro rfl; simp at long)
  rw [chain_eq_chainLoop _ _ different, log_of_history history journal fresh]
  exact chainLoop_unknown _ different (evicted_of_long history shape long)

theorem chain_foreign (final : history.versions.getLast? = some last) {serial : UInt32}
    (unknown : serial ∉ history.versions.map zoneSerial) :
    (journal.recordAll history.versions).chain history.origin serial (zoneSerial last) = none := by
  have different : serial ≠ zoneSerial last := by
    rintro rfl
    exact unknown (List.mem_map_of_mem (List.mem_of_getLast? final))
  rw [chain_eq_chainLoop _ _ different, log_of_history history journal fresh]
  apply chainLoop_unknown _ different
  intro member
  exact unknown ((deltas_from_sublist history.versions).subset
    (((List.drop_sublist _ _).map _).subset member))

end

/-- Over every history, `chain` finds exactly the kept deltas, they compose, and
anything older or foreign has no chain. -/
theorem chain_recordAll (journal : Journal) (fresh : journal.zones.get? history.origin = none)
    {last : Zone} (final : history.versions.getLast? = some last) :
    (∀ before zone later, history.versions = before ++ zone :: later →
      (later.length ≤ journalDepth →
        (journal.recordAll history.versions).chain history.origin (zoneSerial zone)
            (zoneSerial last) = some (deltas (zone :: later)) ∧
          (deltas (zone :: later)).length = later.length ∧
          List.IsChain (fun first second : Diff => first.to_ = second.from_)
            (deltas (zone :: later)) ∧
          (deltas (zone :: later)).foldl Diff.apply (recordSet zone) = recordSet last) ∧
      (journalDepth < later.length →
        (journal.recordAll history.versions).chain history.origin (zoneSerial zone)
          (zoneSerial last) = none)) ∧
    ∀ serial, serial ∉ history.versions.map zoneSerial →
      (journal.recordAll history.versions).chain history.origin serial
        (zoneSerial last) = none := by
  refine ⟨fun before zone later shape => ⟨fun short => ?_, fun long => ?_⟩,
    fun serial unknown => ?_⟩
  · exact ⟨chain_kept history journal fresh final shape short, deltas_length zone later,
      deltas_linked zone later, foldl_deltas later zone last (final_of_split history final shape)⟩
  · exact chain_evicted history journal fresh final shape long
  · exact chain_foreign history journal fresh final unknown

end

def bumpedOnce : History where
  origin := apexName
  versions := [shell, shell.bumpSerial]
  sameOrigin := by
    intro zone member
    rcases List.mem_cons.mp member with rfl | member
    · rfl
    · obtain rfl := List.mem_singleton.mp member
      rfl
  distinct := by decide

theorem chain_recordAll_bumpedOnce :
    ((⟨HashMap.empty⟩ : Journal).recordAll bumpedOnce.versions).chain apexName 1 2 =
      some (deltas [shell, shell.bumpSerial]) :=
  ((chain_recordAll bumpedOnce ⟨HashMap.empty⟩ rfl rfl).1 [] shell [shell.bumpSerial] rfl).1
    (by decide) |>.1

end Rdns.Xfr
