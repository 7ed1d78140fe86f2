import Rdns.Lib.Run
import Rdns.Xfr.Journal
import Rdns.Zones.FileUpdates
import Mathlib.Data.List.DropRight

/-!
# The journal on disk

`append_diff` and `load_journal_file` of dns-xfr.  Every delta is appended to the
file of its zone as a block of text lines, and a file is read back line by line into
the deltas it was written from.  A record line that does not parse is skipped, so a
record whose text says less than the record is missing after a restart.
-/

set_option autoImplicit false

namespace Rdns.Xfr

open Rdns.Lib Rdns.Proto Rdns.Zones

variable {name origin : DnsName}

/-! ## Writing -/

def journalStem (origin : DnsName) : List Char := origin.displayChars.rdropWhile (· == '.')

def journalPath (origin : DnsName) : List Char := journalStem origin ++ ".journal".toList

def recordFields (record : Record) : List (List Char) :=
  [record.name.displayChars, displayNat record.ttl.toNat, (typeName record.rtype).toList,
    record.rdata.text]

def recordLine (tag : String) (record : Record) : List Char :=
  spaced (tag.toList :: recordFields record)

def diffLines (diff : Diff) : List (List Char) :=
  spaced ["DELTA".toList, displayNat diff.from_.toNat, displayNat diff.to_.toNat] ::
    (diff.deleted.map (recordLine "DEL") ++ diff.added.map (recordLine "ADD") ++ ["END".toList])

def diffText (diff : Diff) : List Char := (diffLines diff).flatMap fun line => line ++ ['\n']

/-- A journal with its directory: the text of each file by its path. -/
structure Persisted where
  journal : Journal
  files : HashMap (List Char) (List Char)

def Persisted.fresh : Persisted := ⟨⟨HashMap.empty⟩, HashMap.empty⟩

/-- `Journal::record` with a directory, where a file holds all that was appended. -/
def Persisted.record (state : Persisted) (old new : Zone) : Persisted :=
  if zoneSerial old = zoneSerial new then state
  else
    { journal := state.journal.record old new
      files := state.files.upsert (journalPath new.origin) (· ++ diffText (diffOf old new)) }

/-! ## Reading -/

def fileStem (path : List Char) : List Char :=
  let name := path.rtakeWhile (· != '/')
  let before := (name.rdropWhile (· != '.')).dropLast
  if before.isEmpty then name else before

def splitN (separator : Char) : Nat → List Char → List (List Char)
  | 0, _ => []
  | 1, text => [text]
  | count + 2, text =>
    match splitOnce separator text with
    | none => [text]
    | some (piece, rest) => piece :: splitN separator (count + 1) rest

def parseRecordLine (rest : List Char) (origin : DnsName) : Fallible Unit Record :=
  match splitN ' ' 4 rest with
  | [name, ttl, rtype, content] =>
    match DnsName.parseStr (String.ofList name), parseUnsigned (2 ^ 32) ttl with
    | .ok name, some ttl => do
      let rdata ← mapErr (fun _ => ())
        (rdataFromText (String.ofList rtype) (String.ofList content) origin)
      pure { name := name, class_ := classIn, ttl := UInt32.ofNat ttl, rdata := rdata }
    | _, _ => .error (.failed ())
  | _ => .error (.failed ())

/-- The delta being read and those read to their end. -/
structure Loading where
  cur : Option Diff
  diffs : List Diff

def Diff.pushDeleted (diff : Diff) (record : Record) : Diff :=
  { diff with deleted := diff.deleted ++ [record] }

def Diff.pushAdded (diff : Diff) (record : Record) : Diff :=
  { diff with added := diff.added ++ [record] }

def beginDelta (rest : List Char) (loading : Loading) : Fallible Unit Loading :=
  match splitWhitespace rest with
  | from_ :: to_ :: _ =>
    match parseUnsigned (2 ^ 32) from_, parseUnsigned (2 ^ 32) to_ with
    | some from_, some to_ =>
      .ok { loading with cur := some ⟨UInt32.ofNat from_, UInt32.ofNat to_, [], []⟩ }
    | _, _ => .error (.failed ())
  | _ => .error (.failed ())

/-- A line that does not parse is skipped, as is one outside of a delta. -/
def pushRecord (push : Diff → Record → Diff) (origin : DnsName) (rest : List Char)
    (loading : Loading) : Fallible Unit Loading :=
  match parseRecordLine rest origin with
  | .ok record => .ok { loading with cur := loading.cur.map (push · record) }
  | .error (.failed _) => .ok loading
  | .error .panicked => .error .panicked

def endDelta (loading : Loading) : Loading :=
  match loading.cur with
  | some diff => ⟨none, loading.diffs ++ [diff]⟩
  | none => loading

def loadLine (origin : DnsName) (loading : Loading) (line : List Char) : Fallible Unit Loading :=
  match "DELTA ".toList.isPrefixOf? line with
  | some rest => beginDelta rest loading
  | none => match "DEL ".toList.isPrefixOf? line with
    | some rest => pushRecord Diff.pushDeleted origin rest loading
    | none => match "ADD ".toList.isPrefixOf? line with
      | some rest => pushRecord Diff.pushAdded origin rest loading
      | none => .ok (if line = "END".toList then endDelta loading else loading)

def loadJournalFile (path text : List Char) : Fallible Unit (DnsName × List Diff) :=
  match DnsName.parseStr (String.ofList (fileStem path)) with
  | .error _ => .error (.failed ())
  | .ok origin => do
    let loading ← (lines text).foldlM (loadLine origin) ⟨none, []⟩
    pure (origin, keepLast journalDepth loading.diffs)

/-! ## Displayed names -/

theorem displayChars_visible (name : DnsName) :
    ∀ c ∈ name.displayChars, 33 ≤ c.toNat ∧ c.toNat ≤ 126 :=
  DnsName.displayChars_forall _ (by decide) fun _ _ octet _ => DnsName.displayOctet_visible octet

theorem notMem_displayChars (name : DnsName) {c : Char} (hidden : c.toNat < 33) :
    c ∉ name.displayChars := by
  intro member
  have low := (displayChars_visible name c member).1
  omega

def Spoken (name : DnsName) : Prop := ∀ label ∈ name.labels, DnsName.PlainLabel label

theorem Spoken.spelled (spoken : Spoken name) : name.labels = name.labels.map DnsName.spelled :=
  ((List.map_congr_left fun label member =>
    DnsName.spelled_of_plain (spoken label member)).trans (List.map_id _)).symm

theorem Spoken.noDot (spoken : Spoken name) : ∀ label ∈ name.labels, 46 ∉ label :=
  fun label member dot => ((spoken label member).1 46 dot).2.2 rfl

theorem Spoken.parse (spoken : Spoken name) :
    DnsName.parseStr (String.ofList name.displayChars) = .ok name :=
  DnsName.parseStr_displayChars spoken.noDot spoken.spelled

/-! ## Record lines -/

/-- Records whose line says all there is.  The length of a vector fits `usize`. -/
structure PlainRecord (record : Record) : Prop where
  class_ : record.class_ = classIn
  owner : Spoken record.name
  names : ∀ name ∈ dataNames record.rdata, PlainName name
  strings : ∀ strings, record.rdata = .txt strings → PlainStrings strings
  type : record.rtype ∉ unnamedTypes
  sized : ∀ rtype data, record.rdata = .unknown rtype data → data.length < 2 ^ 64

theorem PlainRecord.legible {record : Record} (plain : PlainRecord record) :
    LegibleData record.rdata where
  names := fun name member => (plain.names name member).legible
  strings := fun strings text => (plain.strings strings text).legible
  sized := plain.sized
  named := plain.type

theorem rdataFromText_text {rdata : RData} (legible : LegibleData rdata) (origin : DnsName) :
    rdataFromText (typeName rdata.rtype) (String.ofList rdata.text) origin =
      .ok (rereadData rdata) := by
  have toks := tokenizeLine_spaced (dataToks_readable legible) (dataTail_blank rdata) 0 0
  have upper := (namesType_typeName rdata.rtype).upper
  rw [rdataFromText, text_eq_toks legible, toks, upper]
  change mapErr ZoneError.msg (parseRdata (typeName rdata.rtype) (dataToks rdata) origin 0) = _
  rw [parseRdata_dataToks legible origin 0]
  rfl

theorem splitOnce_spaced {field : List Char} (unbroken : ' ' ∉ field) {rest : List (List Char)}
    (more : rest ≠ []) : splitOnce ' ' (spaced (field :: rest)) = some (field, spaced rest) := by
  have before : ∀ c ∈ field, (c != ' ') = true := by
    intro c member
    rw [bne_iff_ne]
    exact fun blank => unbroken (blank ▸ member)
  have taken : (field ++ ' ' :: spaced rest).takeWhile (· != ' ') = field := by
    rw [List.takeWhile_append_of_pos before]
    simp
  have dropped : (field ++ ' ' :: spaced rest).dropWhile (· != ' ') = ' ' :: spaced rest := by
    rw [List.dropWhile_append_of_pos before]
    simp
  rw [spaced_cons field more, splitOnce, if_pos (by simp), taken, dropped]
  rfl

theorem splitN_recordFields (record : Record) :
    splitN ' ' 4 (spaced (recordFields record)) = recordFields record := by
  have name : ' ' ∉ record.name.displayChars := notMem_displayChars record.name (by decide)
  have ttl : ' ' ∉ displayNat record.ttl.toNat :=
    fun blank => absurd (isWordChar_displayNat _ _ blank) (by decide)
  have rtype : ' ' ∉ (typeName record.rtype).toList :=
    fun blank => absurd ((namesType_typeName record.rtype).readable.2 _ blank) (by decide)
  rw [recordFields, splitN, splitOnce_spaced name (by simp)]
  dsimp only
  rw [splitN, splitOnce_spaced ttl (by simp)]
  dsimp only
  rw [splitN, splitOnce_spaced rtype (by simp)]
  simp [splitN, spaced]

theorem parseRecordLine_recordFields {record : Record} (plain : PlainRecord record)
    (origin : DnsName) : parseRecordLine (spaced (recordFields record)) origin = .ok record := by
  have data := rdataFromText_text plain.legible origin
  have same := rereadData_plain plain.names plain.strings
  have ttl : parseUnsigned (2 ^ 32) (displayNat record.ttl.toNat) = some record.ttl.toNat :=
    parseUnsigned_displayNat record.ttl.toNat_lt
  rw [parseRecordLine, splitN_recordFields, recordFields]
  dsimp only
  rw [plain.owner.parse, ttl, String.ofList_toList]
  change (mapErr _ (rdataFromText (typeName record.rdata.rtype) _ origin) >>= _) = _
  rw [data, same, UInt32.ofNat_toNat, ← plain.class_]
  rfl

theorem wholeLine_recordLine {tag : String} (tagged : ∀ c ∈ tag.toList, isWordChar c = true)
    {record : Record} (plain : PlainRecord record) : WholeLine (recordLine tag record) := by
  have name : WholeLine record.name.displayChars := by
    refine ⟨notMem_displayChars record.name (by decide), fun last => ?_⟩
    exact notMem_displayChars record.name (by decide) (List.mem_of_getLast? last)
  have ttl := wholeLine_word (isWordChar_displayNat record.ttl.toNat)
  have rtype := wholeLine_word (namesType_typeName record.rtype).readable.2
  refine wholeLine_spaced ?_
  simp [recordFields, wholeLine_word tagged, name, ttl, rtype, wholeLine_text plain.legible]

/-! ## Deltas -/

def PlainDiff (diff : Diff) : Prop := ∀ record ∈ diff.deleted ++ diff.added, PlainRecord record

theorem splitWhitespace_two {left right : List Char} (first : ∀ c ∈ left, isWordChar c = true)
    (second : ∀ c ∈ right, isWordChar c = true) (some : left ≠ []) (other : right ≠ []) :
    splitWhitespace (spaced [left, right]) = [left, right] := by
  have dark : ∀ text : List Char, (∀ c ∈ text, isWordChar c = true) →
      text.splitOnP isWhitespace = [text] := by
    intro text word
    refine List.splitOnP_eq_singleton fun c member => ?_
    exact (isWordChar_cases (word c member)).1
  have split : (left ++ ' ' :: right).splitOnP isWhitespace =
      left.splitOnP isWhitespace ++ right.splitOnP isWhitespace :=
    List.splitOnP_append_cons left right (by decide)
  rw [spaced_cons left (by simp)]
  simp [splitWhitespace, spaced, split, dark left first, dark right second, some, other]

theorem loadLine_delta (origin : DnsName) (loading : Loading) (diff : Diff) :
    loadLine origin loading
        (spaced ["DELTA".toList, displayNat diff.from_.toNat, displayNat diff.to_.toNat]) =
      .ok { loading with cur := some ⟨diff.from_, diff.to_, [], []⟩ } := by
  have rest : "DELTA ".toList.isPrefixOf?
      (spaced ["DELTA".toList, displayNat diff.from_.toNat, displayNat diff.to_.toNat]) =
        some (spaced [displayNat diff.from_.toNat, displayNat diff.to_.toNat]) := by
    rw [spaced_cons _ (by simp)]
    rfl
  have fields := splitWhitespace_two (isWordChar_displayNat diff.from_.toNat)
    (isWordChar_displayNat diff.to_.toNat) Nat.toDigits_ne_nil Nat.toDigits_ne_nil
  have first : parseUnsigned (2 ^ 32) (displayNat diff.from_.toNat) = some diff.from_.toNat :=
    parseUnsigned_displayNat diff.from_.toNat_lt
  have second : parseUnsigned (2 ^ 32) (displayNat diff.to_.toNat) = some diff.to_.toNat :=
    parseUnsigned_displayNat diff.to_.toNat_lt
  rw [loadLine, rest]
  dsimp only
  rw [beginDelta, fields]
  dsimp only
  rw [first, second]
  simp

theorem loadLine_deleted {record : Record} (plain : PlainRecord record) (origin : DnsName)
    (loading : Loading) :
    loadLine origin loading (recordLine "DEL" record) =
      .ok { loading with cur := loading.cur.map (·.pushDeleted record) } := by
  rw [recordLine, spaced_cons _ (by simp [recordFields])]
  change pushRecord Diff.pushDeleted origin (spaced (recordFields record)) loading = _
  rw [pushRecord, parseRecordLine_recordFields plain]

theorem loadLine_added {record : Record} (plain : PlainRecord record) (origin : DnsName)
    (loading : Loading) :
    loadLine origin loading (recordLine "ADD" record) =
      .ok { loading with cur := loading.cur.map (·.pushAdded record) } := by
  rw [recordLine, spaced_cons _ (by simp [recordFields])]
  change pushRecord Diff.pushAdded origin (spaced (recordFields record)) loading = _
  rw [pushRecord, parseRecordLine_recordFields plain]

theorem foldlM_records {tag : String} {push : Diff → Record → Diff}
    (pushes : ∀ record, PlainRecord record → ∀ loading,
      loadLine origin loading (recordLine tag record) =
        .ok { loading with cur := loading.cur.map (push · record) }) (records : List Record)
    (plain : ∀ record ∈ records, PlainRecord record) (diff : Diff) (diffs : List Diff) :
    (records.map (recordLine tag)).foldlM (loadLine origin) ⟨some diff, diffs⟩ =
      .ok ⟨some (records.foldl push diff), diffs⟩ := by
  induction records generalizing diff with
  | nil => rfl
  | cons record rest ih =>
    obtain ⟨here, later⟩ := List.forall_mem_cons.mp plain
    rw [List.map_cons, List.foldlM_cons, pushes record here]
    exact ih later (push diff record)

theorem foldl_pushDeleted (records : List Record) (diff : Diff) :
    records.foldl Diff.pushDeleted diff = { diff with deleted := diff.deleted ++ records } := by
  induction records generalizing diff with
  | nil => simp
  | cons record rest ih => simp [ih, Diff.pushDeleted]

theorem foldl_pushAdded (records : List Record) (diff : Diff) :
    records.foldl Diff.pushAdded diff = { diff with added := diff.added ++ records } := by
  induction records generalizing diff with
  | nil => simp
  | cons record rest ih => simp [ih, Diff.pushAdded]

theorem foldlM_diffLines {diff : Diff} (plain : PlainDiff diff) (origin : DnsName)
    (loading : Loading) :
    (diffLines diff).foldlM (loadLine origin) loading = .ok ⟨none, loading.diffs ++ [diff]⟩ := by
  obtain ⟨plainDeleted, plainAdded⟩ := List.forall_mem_append.mp plain
  have deleted := foldlM_records (fun record here => loadLine_deleted here origin) diff.deleted
    plainDeleted ⟨diff.from_, diff.to_, [], []⟩ loading.diffs
  have added := foldlM_records (fun record here => loadLine_added here origin) diff.added
    plainAdded ⟨diff.from_, diff.to_, diff.deleted, []⟩ loading.diffs
  rw [foldl_pushDeleted, List.nil_append] at deleted
  rw [foldl_pushAdded, List.nil_append] at added
  rw [diffLines, List.foldlM_cons, loadLine_delta]
  change List.foldlM _ _ _ = _
  rw [List.foldlM_append, List.foldlM_append, deleted]
  change (List.foldlM _ _ _ >>= _) = _
  rw [added]
  rfl

theorem foldlM_allLines (origin : DnsName) (diffs : List Diff)
    (plain : ∀ diff ∈ diffs, PlainDiff diff) (done : List Diff) :
    (diffs.flatMap diffLines).foldlM (loadLine origin) ⟨none, done⟩ =
      .ok ⟨none, done ++ diffs⟩ := by
  induction diffs generalizing done with
  | nil => simp [pure, Except.pure]
  | cons diff rest ih =>
    obtain ⟨here, later⟩ := List.forall_mem_cons.mp plain
    rw [List.flatMap_cons, List.foldlM_append, foldlM_diffLines here]
    change List.foldlM _ _ _ = _
    rw [ih later, List.append_assoc, List.singleton_append]

theorem wholeLine_diffLines {diff : Diff} (plain : PlainDiff diff) :
    ∀ line ∈ diffLines diff, WholeLine line := by
  have number : ∀ value, WholeLine (displayNat value) :=
    fun value => wholeLine_word (isWordChar_displayNat value)
  have delta : WholeLine "DELTA".toList := wholeLine_word (List.all_eq_true.mp rfl)
  have ended : WholeLine "END".toList := wholeLine_word (List.all_eq_true.mp rfl)
  intro line member
  rcases List.mem_cons.mp member with rfl | member
  · refine wholeLine_spaced ?_
    simp only [List.forall_mem_cons, List.not_mem_nil, false_implies, implies_true, and_true]
    exact ⟨delta, number _, number _⟩
  · rcases List.mem_append.mp member with records | last
    · rcases List.mem_append.mp records with deleted | added
      · obtain ⟨record, inside, rfl⟩ := List.mem_map.mp deleted
        exact wholeLine_recordLine (List.all_eq_true.mp rfl)
          (plain record (List.mem_append_left _ inside))
      · obtain ⟨record, inside, rfl⟩ := List.mem_map.mp added
        exact wholeLine_recordLine (List.all_eq_true.mp rfl)
          (plain record (List.mem_append_right _ inside))
    · rw [List.mem_singleton.mp last]
      exact ended

theorem lines_diffText {diffs : List Diff} (plain : ∀ diff ∈ diffs, PlainDiff diff) :
    lines (diffs.flatMap diffText) = diffs.flatMap diffLines := by
  have joined : diffs.flatMap diffText =
      (diffs.flatMap diffLines).flatMap fun line => line ++ ['\n'] := by
    rw [List.flatMap_assoc]
    rfl
  have whole : ∀ line ∈ diffs.flatMap diffLines, WholeLine line := by
    intro line member
    obtain ⟨diff, inside, written⟩ := List.mem_flatMap.mp member
    exact wholeLine_diffLines (plain diff inside) line written
  rw [joined]
  exact lines_ended _ (fun line member => (whole line member).1)
    fun line member => (whole line member).2

/-! ## File names -/

/-- Origins whose file is named after them: not the root, and without a slash. -/
structure FileOrigin (origin : DnsName) : Prop where
  proper : origin.labels ≠ []
  spoken : Spoken origin
  flat : ∀ label ∈ origin.labels, 47 ∉ label

theorem displayOctet_spoken {label : Label} (plain : DnsName.PlainLabel label) {octet : UInt8}
    (member : octet ∈ label) : DnsName.displayOctet octet = [Char.ofNat octet.toNat] := by
  obtain ⟨low, high, other⟩ := plain.1 octet member
  rcases DnsName.displayOctet_cases other with ⟨_, _, shown⟩ | ⟨hidden, _⟩
  · exact shown
  · exact absurd ⟨low, high⟩ hidden

theorem FileOrigin.noSlash (filed : FileOrigin origin) : '/' ∉ origin.displayChars := by
  have filled : origin.labels.isEmpty = false := by simpa using filed.proper
  rw [DnsName.displayChars, filled]
  intro slash
  obtain ⟨label, inside, shown⟩ := List.mem_flatMap.mp slash
  rcases List.mem_append.mp shown with octets | dot
  · obtain ⟨octet, among, written⟩ := List.mem_flatMap.mp octets
    have printable := (filed.spoken label inside).1 octet among
    rw [displayOctet_spoken (filed.spoken label inside) among] at written
    have value := congrArg Char.toNat (List.mem_singleton.mp written)
    rw [ofNat_toNat_ascii octet.toNat (by omega)] at value
    have same : octet = 47 := UInt8.toNat_inj.mp value.symm
    exact filed.flat label inside (same ▸ among)
  · exact absurd (List.mem_singleton.mp dot) (by decide)

theorem FileOrigin.stem (filed : FileOrigin origin) :
    origin.displayChars = journalStem origin ++ ['.'] ∧ journalStem origin ≠ [] ∧
      (journalStem origin).getLast? ≠ some '.' := by
  obtain ⟨front, label, shape⟩ : ∃ front label, origin.labels = front ++ [label] :=
    ⟨_, _, (List.dropLast_append_getLast filed.proper).symm⟩
  have inside : label ∈ origin.labels := by simp [shape]
  have noDot := DnsName.displayLabel_noDot (filed.spoken.noDot label inside)
  obtain ⟨octet, octets, rfl⟩ := List.exists_cons_of_length_pos (origin.valid.1 label inside).1
  generalize written : (octet :: octets).flatMap DnsName.displayOctet = text at noDot
  have filled : text ≠ [] := by
    rw [← written, List.flatMap_cons]
    simp [DnsName.displayOctet_ne_nil octet]
  obtain ⟨before, last, rfl⟩ : ∃ before last, text = before ++ [last] :=
    ⟨_, _, (List.dropLast_append_getLast filled).symm⟩
  have ends : last ≠ '.' := fun dot => noDot (by simp [dot])
  have labelled : origin.labels.isEmpty = false := by simpa using filed.proper
  have shown : ∃ start, origin.displayChars = (start ++ [last]) ++ ['.'] := by
    refine ⟨(front.flatMap fun label => label.flatMap DnsName.displayOctet ++ ['.']) ++ before, ?_⟩
    rw [DnsName.displayChars, labelled, shape, List.flatMap_append, List.flatMap_singleton, written]
    simp
  obtain ⟨start, shown⟩ := shown
  have stem : journalStem origin = start ++ [last] := by
    rw [journalStem, shown, List.rdropWhile_concat_pos _ _ _ (by simp),
      List.rdropWhile_concat_neg _ _ _ (by simpa using ends)]
  rw [stem]
  exact ⟨shown, by simp, by simpa using ends⟩

theorem FileOrigin.fileStem_path (filed : FileOrigin origin) :
    fileStem (journalPath origin) = journalStem origin := by
  obtain ⟨shown, filled, _⟩ := filed.stem
  have flat : ∀ c ∈ journalPath origin, (c != '/') = true := by
    intro c member
    rw [bne_iff_ne]
    rintro rfl
    rcases List.mem_append.mp member with stem | extension
    · exact filed.noSlash (by rw [shown]; exact List.mem_append_left _ stem)
    · exact absurd extension (by decide)
  have name : (journalPath origin).rtakeWhile (· != '/') = journalPath origin :=
    List.rtakeWhile_eq_self_iff.mpr flat
  have before : (journalPath origin).rdropWhile (· != '.') = journalStem origin ++ ['.'] := by
    simp [journalPath, List.rdropWhile]
  unfold fileStem
  dsimp only
  rw [name, before, List.dropLast_concat, if_neg (by simpa using filled)]

theorem FileOrigin.parse (filed : FileOrigin origin) :
    DnsName.parseStr (String.ofList (fileStem (journalPath origin))) = .ok origin := by
  obtain ⟨shown, _, ends⟩ := filed.stem
  have whole := filed.spoken.parse
  unfold DnsName.parseStr at whole ⊢
  rw [String.toList_ofList] at whole ⊢
  rw [shown] at whole
  rw [filed.fileStem_path]
  dsimp only at whole ⊢
  rw [List.getLast?_concat, if_pos rfl, List.dropLast_concat] at whole
  rw [if_neg ends]
  exact whole

theorem loadJournalFile_diffText (filed : FileOrigin origin) {diffs : List Diff}
    (plain : ∀ diff ∈ diffs, PlainDiff diff) :
    loadJournalFile (journalPath origin) (diffs.flatMap diffText) =
      .ok (origin, keepLast journalDepth diffs) := by
  rw [loadJournalFile, filed.parse]
  dsimp only
  rw [lines_diffText plain, foldlM_allLines origin diffs plain []]
  rfl

/-! ## Runs -/

def Recorded (state : Persisted) (call : Zone × Zone) (state' : Persisted) : Prop :=
  state' = state.record call.1 call.2

/-- If the serial changes, the call writes to the file of the origin only for that
origin, and then every record that the two versions do not share can be read back. -/
structure PlainCall (origin : DnsName) (call : Zone × Zone) : Prop where
  alone : zoneSerial call.1 ≠ zoneSerial call.2 →
    journalPath call.2.origin = journalPath origin → call.2.origin = origin
  changes : zoneSerial call.1 ≠ zoneSerial call.2 → call.2.origin = origin → ∀ record,
    (record ∈ call.1.allRecords ∧ record ∉ call.2.allRecords) ∨
      (record ∈ call.2.allRecords ∧ record ∉ call.1.allRecords) → PlainRecord record

theorem PlainCall.diff {call : Zone × Zone} (plain : PlainCall origin call)
    (changed : zoneSerial call.1 ≠ zoneSerial call.2) (same : call.2.origin = origin) :
    PlainDiff (diffOf call.1 call.2) := by
  intro record member
  refine plain.changes changed same record ?_
  rcases List.mem_append.mp member with deleted | added
  · obtain ⟨held, missing⟩ := List.mem_filter.mp deleted
    exact .inl ⟨held, by simpa using missing⟩
  · obtain ⟨held, missing⟩ := List.mem_filter.mp added
    exact .inr ⟨held, by simpa using missing⟩

/-- The log holds the last deltas that were recorded and the file the text of all. -/
def Mirrored (origin : DnsName) (state : Persisted) : Prop :=
  ∃ recorded : Option (List Diff), (∀ diffs ∈ recorded, ∀ diff ∈ diffs, PlainDiff diff) ∧
    state.journal.zones.get? origin = recorded.map (keepLast journalDepth) ∧
    state.files.get? (journalPath origin) = recorded.map fun diffs => diffs.flatMap diffText

theorem mirrored_fresh (origin : DnsName) : Mirrored origin Persisted.fresh :=
  ⟨none, by simp, rfl, rfl⟩

theorem Recorded.mirrored {state state' : Persisted} {call : Zone × Zone}
    (plain : PlainCall origin call) (mirrored : Mirrored origin state)
    (step : Recorded state call state') : Mirrored origin state' := by
  obtain ⟨old, new⟩ := call
  cases step
  unfold Persisted.record
  by_cases quiet : zoneSerial old = zoneSerial new
  · rwa [if_pos quiet]
  obtain ⟨recorded, readable, logged, filed⟩ := mirrored
  rw [if_neg quiet]
  unfold Mirrored Journal.record
  dsimp only
  rw [if_neg quiet]
  simp only [HashMap.get?_upsert]
  by_cases same : new.origin = origin
  · -- the delta goes to the end of both
    subst same
    refine ⟨some (recorded.getD [] ++ [diffOf old new]), ?_, ?_, ?_⟩
    · intro diffs member diff inside
      obtain rfl := Option.mem_some_iff.mp member
      rcases List.mem_append.mp inside with before | last
      · cases recorded with
        | none => cases before
        | some earlier => exact readable earlier rfl diff before
      · rw [List.mem_singleton.mp last]
        exact plain.diff quiet rfl
    · rw [if_pos rfl, logged]
      cases recorded with
      | none => rfl
      | some earlier => exact congrArg some (keepLast_append journalDepth earlier _)
    · rw [if_pos rfl, filed]
      cases recorded with
      | none => simp [default]
      | some earlier => simp
  · -- another zone's delta goes to another file
    refine ⟨recorded, readable, ?_, ?_⟩
    · rw [if_neg (Ne.symm same), logged]
    · rw [if_neg fun path => same (plain.alone quiet path.symm), filed]

/-- After calls that can all be read back, a file loads to the log of its zone. -/
theorem loadJournalFile_run {origin : DnsName} (filed : FileOrigin origin)
    {calls : List (Zone × Zone)} {last : Persisted}
    (run : Run (When (fun _ => PlainCall origin) Recorded) Persisted.fresh calls last)
    {log : List Diff} (held : last.journal.zones.get? origin = some log) :
    ∃ text, last.files.get? (journalPath origin) = some text ∧
      loadJournalFile (journalPath origin) text = .ok (origin, log) := by
  have mirrored : Mirrored origin last :=
    run.invariant (fun _ _ _ mirrored step => step.2.mirrored step.1 mirrored)
      (mirrored_fresh origin)
  obtain ⟨recorded, readable, logged, written⟩ := mirrored
  obtain ⟨diffs, rfl, rfl⟩ := Option.map_eq_some_iff.mp (logged.symm.trans held)
  exact ⟨_, written, loadJournalFile_diffText filed (readable diffs rfl)⟩

theorem plainRecord_soa (owner : Spoken name) (ttl : UInt32) {fields : Soa}
    (mname : PlainName fields.mname) (rname : PlainName fields.rname) :
    PlainRecord { name := name, class_ := classIn, ttl := ttl, rdata := .soa fields } := by
  have named : typeSoa ∉ unnamedTypes := by decide
  refine ⟨rfl, owner, by simp [dataNames, mname, rname], ?_, named, ?_⟩
  · intro strings impossible
    cases impossible
  · intro rtype data impossible
    cases impossible

def textAdded : Zone × Zone := (shell, texted.bumpSerial)

theorem textAdded_plain : PlainCall apexName textAdded := by
  have apex : PlainName apexName := texted_plain.origin
  have text : PlainRecord apexText := by
    refine ⟨rfl, apex.labels, List.forall_mem_nil _,
      texted_plain.strings apexText (by decide), by decide, ?_⟩
    intro rtype data impossible
    cases impossible
  refine ⟨fun _ _ => rfl, fun _ _ record differs => ?_⟩
  have listed : record ∈ [apexSoa, texted.bumpSerial.soa, apexText] := by
    have all : ∀ record ∈ shell.allRecords ++ texted.bumpSerial.allRecords,
        record ∈ [apexSoa, texted.bumpSerial.soa, apexText] := by decide
    refine all record (List.mem_append.mpr ?_)
    rcases differs with ⟨held, _⟩ | ⟨held, _⟩
    · exact .inl held
    · exact .inr held
  simp only [List.mem_cons, List.not_mem_nil, or_false] at listed
  rcases listed with rfl | rfl | rfl
  · exact plainRecord_soa apex.labels _ apex apex
  · exact plainRecord_soa apex.labels _ apex apex
  · exact text

theorem loadJournalFile_run_textAdded :
    ∃ last text, Run (When (fun _ => PlainCall apexName) Recorded) Persisted.fresh
      [textAdded] last ∧
      last.files.get? (journalPath apexName) = some text ∧
      loadJournalFile (journalPath apexName) text =
        .ok (apexName, [diffOf shell texted.bumpSerial]) := by
  have filed : FileOrigin apexName :=
    ⟨by decide, texted_plain.origin.labels, by decide⟩
  have run : Run (When (fun _ => PlainCall apexName) Recorded) Persisted.fresh [textAdded]
      (Persisted.fresh.record shell texted.bumpSerial) :=
    .next ⟨textAdded_plain, rfl⟩ (.done _)
  obtain ⟨text, held, loaded⟩ := loadJournalFile_run filed run rfl
  exact ⟨_, text, run, held, loaded⟩

/-- The quote is written with an escape the reader does not know: of the two records
the update adds, the SOA and the text, only the SOA comes back. -/
theorem quoteWire_unjournaled :
    ∃ zone message edited log text read, parseZoneFile smallFile = .ok zone ∧
      Message.parse quoteWire = .ok message ∧
      zone.applyUpdate message.answers message.authorities = (rcodeNoerror, edited) ∧
      zone.origin ≠ DnsName.root ∧
      (Persisted.fresh.record zone edited.bumpSerial).journal.zones.get? zone.origin = some log ∧
      (Persisted.fresh.record zone edited.bumpSerial).files.get? (journalPath zone.origin) =
        some text ∧
      loadJournalFile (journalPath zone.origin) text = .ok (zone.origin, read) ∧
      log.map (·.added.length) = [2] ∧ read.map (·.added.length) = [1] := by
  have checked : (parseZoneFile smallFile).toOption.any (fun zone =>
      (Message.parse quoteWire).toOption.any fun message =>
        let result := zone.applyUpdate message.answers message.authorities
        let state := Persisted.fresh.record zone result.2.bumpSerial
        decide (result.1 = rcodeNoerror ∧ zone.origin ≠ DnsName.root) &&
          (state.journal.zones.get? zone.origin).any fun log =>
            (state.files.get? (journalPath zone.origin)).any fun text =>
              (loadJournalFile (journalPath zone.origin) text).toOption.any fun loaded =>
                decide (loaded.1 = zone.origin ∧ log.map (·.added.length) = [2] ∧
                  loaded.2.map (·.added.length) = [1])) = true := by decide +kernel
  obtain ⟨zone, loaded, checked⟩ := exists_of_toOption_any checked
  obtain ⟨message, parsed, checked⟩ := exists_of_toOption_any checked
  obtain ⟨accepted, reloaded⟩ := Bool.and_eq_true_iff.mp checked
  obtain ⟨accepted, proper⟩ := of_decide_eq_true accepted
  obtain ⟨log, logged, reloaded⟩ := (Option.any_eq_true _ _).mp reloaded
  obtain ⟨text, written, reloaded⟩ := (Option.any_eq_true _ _).mp reloaded
  obtain ⟨⟨origin, read⟩, success, reloaded⟩ := exists_of_toOption_any reloaded
  obtain ⟨rfl, both, one⟩ := of_decide_eq_true reloaded
  exact ⟨zone, message, _, log, text, read, loaded, parsed, Prod.ext accepted rfl, proper,
    logged, written, success, both, one⟩

end Rdns.Xfr
