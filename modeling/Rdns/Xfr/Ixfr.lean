import Rdns.Lib.Loops
import Rdns.Xfr.Journal

/-!
# Incremental transfers

`axfr_messages` and `ixfr_messages` of dns-xfr, and an RFC 1995 client.  SOA
records are the only delimiters of the stream.  The recorded deltas carry the
SOAs of their versions as well, so each of them is read as two difference
sequences, both without deletions: what was deleted is added again.  A client that
reads in order does not get through: the second half of the last delta opens with
the new SOA, which closes the transfer.
-/

set_option autoImplicit false

namespace Rdns.Xfr

open Rdns.Lib Rdns.Proto Rdns.Zones

variable {zone old new last : Zone}

def axfrChunk : Nat := 100

def transferReplies (records : List Record) (query : Message) : List Message :=
  (chunks axfrChunk records).map fun chunk =>
    let reply := Message.responseTo query
    { reply with flags := { reply.flags with aa := true }, answers := chunk }

def frame (reply : Message) : Bytes :=
  toBe16 (UInt16.ofNat reply.encode.length) ++ reply.encode

def frameTransfer (records : List Record) (query : Message) : List Bytes :=
  (transferReplies records query).map frame

def axfrRecords (zone : Zone) : List Record := zone.allRecords ++ [zone.soa]

def axfrMessages (zone : Zone) (query : Message) : List Bytes :=
  frameTransfer (axfrRecords zone) query

def soaWithSerial (zone : Zone) (serial : UInt32) : Record :=
  match zone.soa.rdata with
  | .soa soa => { zone.soa with rdata := .soa { soa with serial } }
  | _ => zone.soa

def diffRecords (zone : Zone) (diff : Diff) : List Record :=
  soaWithSerial zone diff.from_ :: diff.deleted ++ soaWithSerial zone diff.to_ :: diff.added

/-- The record stream of an IXFR answer, a full transfer where the journal does
not reach back to the client's serial. -/
def ixfrRecords (zone : Zone) (clientSerial : UInt32) (journal : Journal) : List Record :=
  match journal.chain zone.origin clientSerial (zoneSerial zone) with
  | none => axfrRecords zone
  | some [] => [zone.soa]
  | some (diff :: rest) =>
    zone.soa :: (diff :: rest).flatMap (diffRecords zone) ++ [zone.soa]

def ixfrReplies (zone : Zone) (query : Message) (clientSerial : UInt32) (journal : Journal) :
    List Message :=
  transferReplies (ixfrRecords zone clientSerial journal) query

def ixfrMessages (zone : Zone) (query : Message) (clientSerial : UInt32) (journal : Journal) :
    List Bytes :=
  (ixfrReplies zone query clientSerial journal).map frame

theorem transferReplies_answers (records : List Record) (query : Message) :
    (transferReplies records query).flatMap Message.answers = records := by
  rw [transferReplies, List.flatMap_map]
  have joined := chunks_flatten axfrChunk (by decide) records
  rw [← List.flatMap_id'] at joined
  exact joined

/-! ## The client -/

structure Sequence where
  deletions : List Record
  additions : List Record
deriving DecidableEq

def plain (record : Record) : Bool := !isSoa record

/-- An SOA opens the deletions, the next one the additions.  Nothing may stand behind
the SOA that closes the transfer. -/
def readSequences (closes : List Record → Bool) : Nat → List Record → Option (List Sequence)
  | _, [] => none
  | 0, _ => none
  | fuel + 1, opening :: rest =>
    if closes (opening :: rest) then if rest = [] then some [] else none
    else if plain opening then none
    else match rest.dropWhile plain with
      | [] => none
      | _ :: after =>
        (readSequences closes fuel (after.dropWhile plain)).map fun sequences =>
          ⟨rest.takeWhile plain, after.takeWhile plain⟩ :: sequences

/-- With the whole answer at hand, the new SOA closes the transfer at its end. -/
def atEnd (closing : Record) (stream : List Record) : Bool := stream = [closing]

/-- In stream order, it closes the transfer wherever a sequence might begin. -/
def inOrder (closing : Record) (stream : List Record) : Bool := stream.head? = some closing

def Sequence.apply (records : Set Record) (sequence : Sequence) : Set Record :=
  (records \ { record | record ∈ sequence.deletions }) ∪ { record | record ∈ sequence.additions }

def plainSet (zone : Zone) : Set Record :=
  { record | record ∈ zone.allRecords ∧ plain record = true }

/-- New SOA, difference sequences, closing new SOA; a single SOA says that the
client is up to date. -/
def receive (closes : Record → List Record → Bool) (stream : List Record) (zone : Zone) :
    Option (Set Record) :=
  match stream with
  | [] => none
  | first :: rest =>
    if plain first then none
    else if rest = [] then some (insert first (plainSet zone))
    else (readSequences (closes first) rest.length rest).map fun sequences =>
      insert first (sequences.foldl Sequence.apply (plainSet zone))

/-! ## How the stream is read -/

theorem takeWhile_plain {records : List Record} (rest : List Record)
    (all : ∀ record ∈ records, plain record = true)
    (next : ∀ record ∈ rest.head?, plain record = false) :
    (records ++ rest).takeWhile plain = records ∧ (records ++ rest).dropWhile plain = rest := by
  induction records with
  | nil =>
    cases rest with
    | nil => exact ⟨rfl, rfl⟩
    | cons record others =>
      have stop := next record rfl
      simp [stop]
  | cons record others ih =>
    obtain ⟨taken, dropped⟩ := ih fun other member => all other (by simp [member])
    have head := all record (by simp)
    simp [head, taken, dropped]

def Typed (zone : Zone) : Prop := zone.soa.rtype = typeSoa

theorem plain_soa (typed : Typed zone) : plain zone.soa = false := by
  have rtype : zone.soa.rtype = typeSoa := typed
  simp [plain, isSoa, rtype]

theorem plain_soaWithSerial (typed : Typed zone) (serial : UInt32) :
    plain (soaWithSerial zone serial) = false := by
  unfold soaWithSerial
  split
  · rfl
  · exact plain_soa typed

theorem soaWithSerial_own (zone : Zone) : soaWithSerial zone (zoneSerial zone) = zone.soa := by
  unfold soaWithSerial zoneSerial
  split
  · rename_i soa data
    simp only [data]
    rw [← data]
  · rfl

def others (zone : Zone) : List Record :=
  zone.records.values.flatMap fun node => node.filter fun record => record.rtype ≠ typeSoa

theorem allRecords_eq (zone : Zone) : zone.allRecords = zone.soa :: others zone := rfl

theorem others_plain {record : Record} (member : record ∈ others zone) : plain record = true := by
  obtain ⟨node, _, kept⟩ := List.mem_flatMap.mp member
  simpa [plain, isSoa] using (List.mem_filter.mp kept).2

/-- A delta starts with the SOA that went; the rest of it is no SOA. -/
theorem deleted_eq (typed : Typed old) (changed : zoneSerial old ≠ zoneSerial new) :
    (diffOf old new).deleted = old.soa :: (diffOf old new).deleted.filter plain := by
  have gone : old.soa ∉ new.allRecords := by
    intro member
    rcases List.mem_cons.mp member with same | inside
    · exact changed (by rw [zoneSerial, same]; rfl)
    · have isPlain := others_plain inside
      rw [plain_soa typed] at isPlain
      cases isPlain
  have shape : (diffOf old new).deleted =
      old.soa :: (others old).filter fun record => !new.allRecords.contains record := by
    change (old.soa :: others old).filter (fun record => !new.allRecords.contains record) = _
    rw [List.filter_cons, if_pos (by simpa using gone)]
  rw [shape, List.filter_cons, if_neg (by simp [plain_soa typed])]
  congr 1
  symm
  apply List.filter_eq_self.mpr
  intro record member
  exact others_plain (List.mem_filter.mp member).1

theorem added_eq (typed : Typed new) (changed : zoneSerial old ≠ zoneSerial new) :
    (diffOf old new).added = new.soa :: (diffOf old new).added.filter plain :=
  deleted_eq typed changed.symm

/-- The records of a version as half a delta has them: behind two SOAs. -/
def half (last version : Zone) (records : List Record) : List Record :=
  soaWithSerial last (zoneSerial version) :: version.soa :: records.filter plain

theorem diffRecords_eq (oldTyped : Typed old) (newTyped : Typed new)
    (changed : zoneSerial old ≠ zoneSerial new) :
    diffRecords last (diffOf old new) =
      half last old (diffOf old new).deleted ++ half last new (diffOf old new).added := by
  unfold diffRecords
  conv_lhs => rw [deleted_eq oldTyped changed, added_eq newTyped changed]
  rfl

/-- Half a delta is read as a sequence that only adds. -/
theorem readSequences_half {closes : List Record → Bool} (lastTyped : Typed last)
    (typed : Typed zone) (records : List Record) {rest : List Record}
    (next : ∀ record ∈ rest.head?, plain record = false) (fuel : Nat) :
    readSequences closes (fuel + 1) (half last zone records ++ rest) =
      if closes (half last zone records ++ rest) then none
      else (readSequences closes fuel rest).map fun sequences =>
        ⟨[], records.filter plain⟩ :: sequences := by
  have read := takeWhile_plain rest
    (fun record member => (List.mem_filter.mp member).2 : ∀ record ∈ records.filter plain, _) next
  unfold half
  simp only [List.cons_append]
  rw [readSequences]
  simp [plain_soaWithSerial lastTyped, plain_soa typed, read.1, read.2]

theorem head?_deltas (lastTyped : Typed last) (diffs : List Diff) :
    ∀ record ∈ (diffs.flatMap (diffRecords last) ++ [last.soa]).head?, plain record = false := by
  intro record member
  cases diffs with
  | nil =>
    obtain rfl : last.soa = record := by simpa using member
    exact plain_soa lastTyped
  | cons diff rest =>
    obtain rfl : soaWithSerial last diff.from_ = record := by simpa [diffRecords] using member
    exact plain_soaWithSerial lastTyped _

/-- How the client reads one delta: two sequences that only add. -/
def asRead (diff : Diff) : List Sequence :=
  [⟨[], diff.deleted.filter plain⟩, ⟨[], diff.added.filter plain⟩]

section Histories

variable {later : List Zone} (typed : ∀ version ∈ zone :: later, Typed version)
  (distinct : ((zone :: later).map zoneSerial).Nodup)

theorem serial_ne_next {next : Zone} {rest : List Zone}
    (distinct : ((zone :: next :: rest).map zoneSerial).Nodup) :
    zoneSerial zone ≠ zoneSerial next := by
  intro same
  rw [List.map_cons, List.nodup_cons, same] at distinct
  exact distinct.1 (by simp)

include typed distinct

theorem readSequences_atEnd (lastTyped : Typed last) {fuel : Nat}
    (enough : 2 * later.length < fuel) :
    readSequences (atEnd last.soa) fuel
        ((deltas (zone :: later)).flatMap (diffRecords last) ++ [last.soa]) =
      some ((deltas (zone :: later)).flatMap asRead) := by
  induction later generalizing zone fuel with
  | nil =>
    obtain ⟨less, rfl⟩ := Nat.exists_eq_succ_of_ne_zero (by omega : fuel ≠ 0)
    simp [deltas, readSequences, atEnd]
  | cons next rest ih =>
    obtain ⟨less, rfl⟩ : ∃ less, fuel = less + 2 :=
      ⟨fuel - 2, by simp only [List.length_cons] at enough; omega⟩
    have nextTyped := typed next (by simp)
    have behind : readSequences (atEnd last.soa) less
        ((deltas (next :: rest)).flatMap (diffRecords last) ++ [last.soa]) =
          some ((deltas (next :: rest)).flatMap asRead) :=
      ih (fun version member => typed version (by simp [member])) (List.nodup_cons.mp distinct).2
        (by simp only [List.length_cons] at enough; omega)
    rw [deltas, List.flatMap_cons, List.append_assoc, diffRecords_eq (typed zone (by simp))
      nextTyped (serial_ne_next distinct), List.append_assoc,
      readSequences_half lastTyped (typed zone (by simp)) _
        (by simpa [half] using plain_soaWithSerial lastTyped _), if_neg (by simp [atEnd, half]),
      readSequences_half lastTyped nextTyped _ (head?_deltas lastTyped _),
      if_neg (by simp [atEnd, half]), behind]
    rfl

/-- The second half of the last delta opens with the new SOA. -/
theorem readSequences_inOrder (final : (zone :: later).getLast? = some last) (more : later ≠ [])
    (fuel : Nat) : readSequences (inOrder last.soa) fuel
      ((deltas (zone :: later)).flatMap (diffRecords last) ++ [last.soa]) = none := by
  have lastTyped : Typed last := typed last (List.mem_of_getLast? final)
  have stuck : ∀ {version : Zone} (records : List Record) {rest : List Record},
      Typed version → (∀ record ∈ rest.head?, plain record = false) →
      (version = last ∨ ∀ fuel, readSequences (inOrder last.soa) fuel rest = none) → ∀ fuel,
        readSequences (inOrder last.soa) fuel (half last version records ++ rest) = none := by
    intro version records rest versionTyped next ends fuel
    cases fuel with
    | zero => rfl
    | succ fuel =>
      rw [readSequences_half lastTyped versionTyped _ next]
      rcases ends with rfl | behind
      · rw [if_pos (by simp [inOrder, half, soaWithSerial_own])]
      · rw [behind, Option.map_none, ite_self]
  induction later generalizing zone fuel with
  | nil => exact absurd rfl more
  | cons next rest ih =>
    have nextTyped := typed next (by simp)
    rw [deltas, List.flatMap_cons, List.append_assoc, diffRecords_eq (typed zone (by simp))
      nextTyped (serial_ne_next distinct), List.append_assoc]
    refine stuck _ (typed zone (by simp)) (by simpa [half] using plain_soaWithSerial lastTyped _)
      (.inr (stuck _ nextTyped (head?_deltas lastTyped _) ?_)) fuel
    cases rest with
    | nil => exact .inl (by simpa using final)
    | cons _ _ =>
      exact .inr fun fuel => ih (fun version member => typed version (by simp [member]))
        (List.nodup_cons.mp distinct).2 (by simpa using final) (by simp) fuel

end Histories

/-! ## What the client ends up with -/

def everHeld (versions : List Zone) : Set Record :=
  { record | ∃ version ∈ versions, record ∈ plainSet version }

theorem foldl_asRead (later : List Zone) :
    ∀ (zone : Zone) (held : Set Record), plainSet zone ⊆ held →
      ((deltas (zone :: later)).flatMap asRead).foldl Sequence.apply held =
        held ∪ everHeld later := by
  induction later with
  | nil =>
    intro zone held _
    simp [deltas, everHeld]
  | cons next rest ih =>
    intro zone held contains
    have step : (asRead (diffOf zone next)).foldl Sequence.apply held = held ∪ plainSet next := by
      ext record
      have before : record ∈ zone.allRecords → plain record = true → record ∈ held :=
        fun member isPlain => contains ⟨member, isPlain⟩
      simp only [asRead, List.foldl_cons, List.foldl_nil, Sequence.apply, diffOf, Set.mem_union,
        Set.mem_sdiff, Set.mem_ofPred_eq, List.mem_filter, plainSet, List.not_mem_nil,
          not_false_eq_true,
        and_true, Bool.not_eq_true', List.contains_eq_mem, decide_eq_false_iff_not]
      tauto
    rw [deltas, List.flatMap_cons, List.foldl_append, step, ih next _ Set.subset_union_right]
    ext record
    simp [everHeld, or_assoc]

theorem recordSet_eq (zone : Zone) :
    recordSet zone = insert zone.soa (plainSet zone) := by
  ext record
  simp only [recordSet, plainSet, Set.mem_ofPred_eq, Set.mem_insert_iff, allRecords_eq,
    List.mem_cons]
  constructor
  · rintro (same | inside)
    · exact .inl same
    · exact .inr ⟨.inr inside, others_plain inside⟩
  · rintro (same | ⟨member, _⟩)
    · exact .inl same
    · exact member

/-- What a client of the first version is sent. -/
def versionStream (last : Zone) (versions : List Zone) : List Record :=
  match deltas versions with
  | [] => [last.soa]
  | diff :: rest => last.soa :: (diff :: rest).flatMap (diffRecords last) ++ [last.soa]

theorem ixfrRecords_eq {journal : Journal} {clientSerial : UInt32} {versions : List Zone}
    (chained : journal.chain last.origin clientSerial (zoneSerial last) = some (deltas versions)) :
    ixfrRecords last clientSerial journal = versionStream last versions := by
  rw [ixfrRecords, chained, versionStream]
  cases deltas versions <;> rfl

section Received

variable {later : List Zone} (typed : ∀ version ∈ zone :: later, Typed version)
  (distinct : ((zone :: later).map zoneSerial).Nodup)
  (final : (zone :: later).getLast? = some last)

include typed distinct final

/-- The whole stream is well delimited, and read as additions only. -/
theorem receive_atEnd : receive atEnd (versionStream last (zone :: later)) zone =
    some (insert last.soa (everHeld (zone :: later))) := by
  have lastTyped : Typed last := typed last (List.mem_of_getLast? final)
  have held : plainSet zone ∪ everHeld later = everHeld (zone :: later) := by
    ext record
    simp [everHeld]
  cases later with
  | nil => simp [versionStream, deltas, receive, plain_soa lastTyped, everHeld]
  | cons next rest =>
    have long : ∀ diffs : List Diff, 2 * diffs.length ≤
        (diffs.flatMap (diffRecords last)).length := by
      intro diffs
      induction diffs with
      | nil => simp
      | cons diff others ih =>
        simp only [List.length_cons, List.flatMap_cons, List.length_append, diffRecords]
        omega
    have enough : 2 * (next :: rest).length <
        ((deltas (zone :: next :: rest)).flatMap (diffRecords last) ++ [last.soa]).length := by
      rw [List.length_append, ← deltas_length zone (next :: rest)]
      exact Nat.lt_succ_of_le (long _)
    have read := readSequences_atEnd typed distinct lastTyped enough
    change receive atEnd (last.soa ::
      ((deltas (zone :: next :: rest)).flatMap (diffRecords last) ++ [last.soa])) zone = _
    rw [receive, if_neg (by simp [plain_soa lastTyped]), if_neg (by simp), read, Option.map_some,
      foldl_asRead _ zone _ (Set.Subset.refl _), held]

theorem receive_atEnd_iff :
    receive atEnd (versionStream last (zone :: later)) zone = some (recordSet last) ↔
      ∀ version ∈ zone :: later, plainSet version ⊆ plainSet last := by
  have lastIn : last ∈ zone :: later := List.mem_of_getLast? final
  have soaPlain := plain_soa (typed last lastIn)
  rw [receive_atEnd typed distinct final, recordSet_eq last]
  constructor
  · intro same version member record held
    have equal := Option.some.inj same
    have now : record ∈ insert last.soa (plainSet last) := by
      rw [← equal]
      exact .inr ⟨version, member, held⟩
    rcases now with isSoaRecord | plainNow
    · have isPlain : plain last.soa = true := by
        rw [← isSoaRecord]
        exact held.2
      rw [soaPlain] at isPlain
      cases isPlain
    · exact plainNow
  · intro kept
    congr 2
    ext record
    constructor
    · rintro ⟨version, member, held⟩
      exact kept version member held
    · intro held
      exact ⟨last, lastIn, held⟩

theorem receive_inOrder_iff :
    receive inOrder (versionStream last (zone :: later)) zone = some (recordSet last) ↔
      later = [] := by
  have lastTyped : Typed last := typed last (List.mem_of_getLast? final)
  constructor
  · intro received
    by_contra more
    obtain ⟨next, rest, rfl⟩ := List.exists_cons_of_ne_nil more
    have stuck := readSequences_inOrder typed distinct final more
    change receive inOrder (last.soa :: ((deltas (zone :: next :: rest)).flatMap
      (diffRecords last) ++ [last.soa])) zone = _ at received
    rw [receive, if_neg (by simp [plain_soa lastTyped]), if_neg (by simp), stuck] at received
    cases received
  · rintro rfl
    obtain rfl : zone = last := by simpa using final
    change receive inOrder [zone.soa] zone = _
    rw [receive, if_neg (by simp [plain_soa lastTyped]), if_pos rfl, recordSet_eq]

end Received

end Rdns.Xfr
