import Rdns.Xfr.Axfr

/-!
# Incremental transfers on the wire

What `ixfr_messages` sends, decoded frame by frame, against an RFC 1995 client.
Two clients are considered.  One has the whole answer and takes the closing SOA
from its end; the other reads in order and stops at the first SOA that may close
the transfer.  The delta to the last version repeats the new SOA in front of its
additions, where the second client stops.
-/

set_option autoImplicit false

namespace Rdns.Xfr

open Rdns.Lib Rdns.Proto Rdns.Zones

variable {zone last : Zone} {query : Message} {later : List Zone}

/-! ## Frames -/

def decodeFrame : Bytes → Option Message
  | high :: low :: body =>
    if (ofBe16 high low).toNat = body.length then
      match Message.parse body with
      | .ok msg => some msg
      | .error _ => none
    else none
  | _ => none

/-- The answer records of the messages, if all of them can be decoded. -/
def decodeAnswers (frames : List Bytes) : Option (List Record) :=
  (frames.mapM decodeFrame).map (·.flatMap Message.answers)

theorem wellFramed_of_decodeFrame {framed : Bytes} {msg : Message}
    (decoded : decodeFrame framed = some msg) : WellFramed framed := by
  unfold decodeFrame at decoded
  split at decoded
  · rename_i high low body
    split at decoded
    · rename_i length
      cases parsed : Message.parse body with
      | ok read => exact ⟨high, low, body, read, rfl, length, parsed⟩
      | error e =>
        rw [parsed] at decoded
        cases decoded
    · cases decoded
  · cases decoded

theorem decodeFrame_of_fits {chunk : List Record} (regular : (carrying query chunk).Regular)
    (fits : Fits (replyLayout query chunk)) :
    decodeFrame (frame (carrying query chunk)) = some (carrying query chunk) := by
  have parsed := (parse_encode_settles _ regular).1
    ((legible_iff (carrying query chunk).layout []).mpr (carrying_layout query chunk ▸ fits.1))
  have short : (carrying query chunk).encode.length ≤ 65535 := by
    rw [encode_length _ regular, carrying_layout]
    exact fits.2
  have prefixed : (ofBe16 (UInt16.ofNat (carrying query chunk).encode.length >>> 8).toUInt8
      (UInt16.ofNat (carrying query chunk).encode.length).toUInt8).toNat =
        (carrying query chunk).encode.length := by
    rw [ofBe16_toBe16, ofNat16_toNat _ short]
  simp only [frame, toBe16, List.cons_append, List.nil_append, decodeFrame, prefixed, if_true,
    parsed]
  rfl

theorem decodeFrame_carrying {chunk : List Record} (regular : (carrying query chunk).Regular)
    (msg : Message) : decodeFrame (frame (carrying query chunk)) = some msg ↔
      Fits (replyLayout query chunk) ∧ msg = carrying query chunk := by
  constructor
  · intro decoded
    have fits := (wellFramed_iff regular).mp (wellFramed_of_decodeFrame decoded)
    rw [decodeFrame_of_fits regular fits] at decoded
    exact ⟨fits, (Option.some.inj decoded).symm⟩
  · rintro ⟨fits, rfl⟩
    exact decodeFrame_of_fits regular fits

structure TransferQuery (query : Message) : Prop where
  opcode : query.flags.opcode = 0
  asked : ∃ q, query.questions = [q] ∧ q.qname.Lowercase

theorem decodeAnswers_frames (asked : TransferQuery query) {records : List Record}
    (regular : ∀ record ∈ records, record.Regular) (answers : List Record) :
    decodeAnswers (frameTransfer records query) = some answers ↔
      (∀ chunk ∈ chunks axfrChunk records, Fits (replyLayout query chunk)) ∧
        answers = records := by
  obtain ⟨opcode, q, questions, lowercase⟩ := asked
  have each : ∀ chunk ∈ chunks axfrChunk records, ∀ msg,
      (decodeFrame ∘ fun chunk => frame (carrying query chunk)) chunk = some msg ↔
        Fits (replyLayout query chunk) ∧ msg = carrying query chunk := by
    intro chunk member msg
    obtain ⟨_, short, among⟩ := mem_chunks (by decide) member
    exact decodeFrame_carrying (carrying_regular opcode questions lowercase short
      fun record inside => regular record (among record inside)) msg
  have frames : frameTransfer records query =
      (chunks axfrChunk records).map fun chunk => frame (carrying query chunk) :=
    List.map_map
  have joined : ((chunks axfrChunk records).map (carrying query)).flatMap Message.answers =
      records := transferReplies_answers records query
  rw [decodeAnswers, Option.map_eq_some_iff, frames, List.mapM_map]
  constructor
  · rintro ⟨replies, read, rfl⟩
    obtain ⟨fits, rfl⟩ := (mapM_eq_some_iff each replies).mp read
    exact ⟨fits, joined⟩
  · rintro ⟨fits, rfl⟩
    exact ⟨_, (mapM_eq_some_iff each _).mpr ⟨fits, rfl⟩, joined⟩

/-! ## The stream of a history -/

theorem soaWithSerial_regular (regular : last.soa.Regular) (serial : UInt32) :
    (soaWithSerial last serial).Regular := by
  unfold soaWithSerial
  split
  · rename_i soa data
    obtain ⟨lowercase, size, names⟩ := regular
    rw [data] at size names
    refine ⟨lowercase, ?_, names⟩
    have same : (RData.soa { soa with serial }).size = (RData.soa soa).size := by
      simp [RData.size, RData.encodeCanonical, Soa.writeNumbers, put, writePlain_eq_put]
    exact same ▸ size
  · exact regular

theorem mem_deltas_records {versions : List Zone} {diff : Diff} (member : diff ∈ deltas versions) :
    ∀ record ∈ diff.deleted ++ diff.added, ∃ version ∈ versions, record ∈ version.allRecords := by
  induction versions with
  | nil => cases member
  | cons old rest ih =>
    cases rest with
    | nil => cases member
    | cons new rest =>
      rcases List.mem_cons.mp member with rfl | later
      · intro record listed
        rcases List.mem_append.mp listed with gone | come
        · exact ⟨old, by simp, (List.mem_filter.mp gone).1⟩
        · exact ⟨new, by simp, (List.mem_filter.mp come).1⟩
      · intro record listed
        obtain ⟨version, among, held⟩ := ih later record listed
        exact ⟨version, List.mem_cons_of_mem _ among, held⟩

theorem versionStream_regular {versions : List Zone}
    (regular : ∀ version ∈ versions, ∀ record ∈ version.allRecords, record.Regular)
    (soa : last.soa.Regular) : ∀ record ∈ versionStream last versions, record.Regular := by
  have each : ∀ diff ∈ deltas versions, ∀ record ∈ diffRecords last diff, record.Regular := by
    intro diff member record listed
    have inside : record = soaWithSerial last diff.from_ ∨ record = soaWithSerial last diff.to_ ∨
        record ∈ diff.deleted ++ diff.added := by
      simp only [diffRecords, List.cons_append, List.mem_cons, List.mem_append] at listed ⊢
      tauto
    rcases inside with rfl | rfl | held
    · exact soaWithSerial_regular soa _
    · exact soaWithSerial_regular soa _
    · obtain ⟨version, among, stored⟩ := mem_deltas_records member record held
      exact regular version among record stored
  intro record listed
  have inside : record = last.soa ∨ ∃ diff ∈ deltas versions, record ∈ diffRecords last diff := by
    unfold versionStream at listed
    split at listed
    · exact .inl (List.mem_singleton.mp listed)
    · rename_i shape
      rw [← shape] at listed
      simp only [List.cons_append, List.mem_cons, List.mem_append, List.mem_flatMap,
        List.not_mem_nil, or_false] at listed
      tauto
  rcases inside with rfl | ⟨diff, member, held⟩
  · exact soa
  · exact each diff member record held

def withAddress : Zone := (shell.applyUpdate [] [apexAddress]).2

def withoutAddress : Zone :=
  (withAddress.applyUpdate [] [{ apexAddress with class_ := classNone }]).2.bumpSerial

def addressDeleted : History where
  origin := apexName
  versions := [withAddress, withoutAddress]
  sameOrigin := by
    intro zone member
    rcases List.mem_cons.mp member with rfl | member
    · rfl
    · obtain rfl := List.mem_singleton.mp member
      rfl
  distinct := by decide +kernel

def ixfrQuery : Message :=
  { Message.new 1 Flags.default with questions := [⟨apexName, typeIxfr, classIn⟩] }

end Rdns.Xfr
