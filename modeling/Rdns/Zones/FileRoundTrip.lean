import Rdns.Zones.Legible
import Rdns.Zones.Assemble

/-!
# Zone files read back

A written file is read line by line into the records it was written from, each as
its text is understood, and these are assembled into a zone again.  Over plain names
and strings nothing changes on the way, so the zone comes back.
-/

set_option autoImplicit false

namespace Rdns.Zones

open Rdns.Lib Rdns.Proto

variable {name origin : DnsName} {strings : List Bytes} {record : Record} {zone : Zone}

/-! ## Record lines -/

structure LegibleRecord (record : Record) : Prop where
  name : LegibleName record.name
  data : LegibleData record.rdata

def fileLine (record : Record) : List Char :=
  spaced [record.name.displayChars, displayNat record.ttl.toNat, ['I', 'N'],
    (typeName record.rtype).toList, record.rdata.text]

def recordToks (record : Record) : List Tok :=
  wordOf record.name.displayChars :: wordOf (displayNat record.ttl.toNat) :: wordOf ['I', 'N'] ::
    .word (typeName record.rtype) :: dataToks record.rdata

def rereadRecord (record : Record) : Record where
  name := rereadName record.name
  class_ := classIn
  ttl := record.ttl
  rdata := rereadData record.rdata

theorem rereadRecord_rtype (record : Record) : (rereadRecord record).rtype = record.rtype :=
  rereadData_rtype record.rdata

theorem spaced_cons (field : List Char) {rest : List (List Char)} (more : rest ≠ []) :
    spaced (field :: rest) = field ++ ' ' :: spaced rest := by
  obtain ⟨next, rest, rfl⟩ := List.exists_cons_of_ne_nil more
  simp [spaced]

theorem spaced_nested (front : List (List Char)) {inner : List (List Char)} (some : inner ≠ [])
    (tail : List Char) :
    spaced (front ++ [spaced inner ++ tail]) = spaced (front ++ inner) ++ tail := by
  induction front with
  | nil => simp [spaced]
  | cons field rest ih =>
    rw [List.cons_append, List.cons_append, spaced_cons field (by simp), ih,
      spaced_cons field (by simp [some])]
    simp

theorem fileLine_eq (legible : LegibleRecord record) :
    fileLine record = spaced ((recordToks record).map Tok.written) ++ dataTail record.rdata := by
  have some : (dataToks record.rdata).map Tok.written ≠ [] := by
    simpa using dataToks_ne_nil legible.data
  have nested := spaced_nested [record.name.displayChars, displayNat record.ttl.toNat, ['I', 'N'],
    (typeName record.rtype).toList] some (dataTail record.rdata)
  have heads : (recordToks record).map Tok.written =
      [record.name.displayChars, displayNat record.ttl.toNat, ['I', 'N'],
        (typeName record.rtype).toList] ++ (dataToks record.rdata).map Tok.written := by
    simp only [recordToks, List.map_cons, wordOf_written]
    rfl
  rw [fileLine, text_eq_toks legible.data, heads]
  exact nested

theorem recordToks_readable (legible : LegibleRecord record) :
    ∀ tok ∈ recordToks record, tok.Readable := by
  have class_ : (wordOf ['I', 'N']).Readable :=
    wordOf_readable (by simp) (List.all_eq_true.mp rfl)
  intro tok member
  simp only [recordToks, List.mem_cons] at member
  rcases member with rfl | rfl | rfl | rfl | member
  · exact displayName_readable legible.name
  · exact wordOf_displayNat_readable _
  · exact class_
  · exact (namesType_typeName record.rtype).readable
  · exact dataToks_readable legible.data tok member

theorem dataTail_blank (rdata : RData) : ∀ c ∈ dataTail rdata, isWhitespace c = true := by
  intro c member
  unfold dataTail at member
  split at member
  · rw [List.mem_singleton.mp member]
    decide
  · cases member

theorem startsBlank_display (legible : LegibleName name) (rest : List Char) :
    startsBlank (name.displayChars ++ rest) = false := by
  obtain ⟨c, tail, shown⟩ := List.exists_cons_of_ne_nil (displayChars_ne_nil name)
  have word := displayChars_word legible c (by rw [shown]; exact List.mem_cons_self)
  have dark := (isWordChar_cases word).1
  have apart : ∀ blank : Char, isWhitespace blank = true → (some c == some blank) = false := by
    intro blank white
    rw [beq_eq_false_iff_ne]
    intro same
    rw [Option.some.inj same, white] at dark
    cases dark
  rw [shown, startsBlank, List.cons_append, List.head?_cons, apart ' ' (by decide),
    apart '\t' (by decide)]
  rfl

theorem readsAs_fileLine (legible : LegibleRecord record) :
    ReadsAs (fileLine record) (recordToks record) := by
  refine ⟨List.cons_ne_nil _ _, ?_, fun lineNo => ?_⟩
  · rw [fileLine, spaced_cons _ (by simp)]
    exact startsBlank_display legible.name _
  · rw [fileLine_eq legible]
    exact tokenizeLine_spaced (recordToks_readable legible) (dataTail_blank record.rdata) 0 lineNo

/-! ## Characters of a line -/

/-- No line feed within and no carriage return at the end. -/
def WholeLine (line : List Char) : Prop := '\n' ∉ line ∧ line.getLast? ≠ some '\r'

theorem wholeLine_word {text : List Char} (word : ∀ c ∈ text, isWordChar c = true) :
    WholeLine text := by
  refine ⟨fun feed => ?_, fun last => ?_⟩
  · exact absurd (word _ feed) (by decide)
  · exact absurd (word _ (List.mem_of_getLast? last)) (by decide)

theorem wholeLine_spaced {fields : List (List Char)} (whole : ∀ field ∈ fields, WholeLine field) :
    WholeLine (spaced fields) := by
  induction fields with
  | nil => exact ⟨List.not_mem_nil, by simp [spaced]⟩
  | cons field rest ih =>
    obtain ⟨here, later⟩ := List.forall_mem_cons.mp whole
    cases rest with
    | nil => simpa [spaced] using here
    | cons next rest =>
      obtain ⟨single, ended⟩ := ih later
      rw [spaced_cons _ (List.cons_ne_nil _ _)]
      refine ⟨?_, ?_⟩
      · simp [here.1, single]
      · intro last
        rw [List.getLast?_append, List.getLast?_cons] at last
        cases tail : (spaced (next :: rest)).getLast? with
        | none =>
          rw [tail] at last
          exact absurd (Option.some.inj last) (by decide)
        | some c =>
          rw [tail] at last ended
          exact ended last

theorem wholeLine_text {rdata : RData} (legible : LegibleData rdata) : WholeLine rdata.text := by
  have number : ∀ value, WholeLine (displayNat value) :=
    fun value => wholeLine_word (isWordChar_displayNat value)
  have named : ∀ name ∈ dataNames rdata, WholeLine name.displayChars :=
    fun name member => wholeLine_word (displayChars_word (legible.names name member))
  cases rdata with
  | a address =>
    have word := (displayIpv4_readable address).2
    rw [String.toList_ofList] at word
    exact wholeLine_word word
  | aaaa address =>
    have word := (displayIpv6_readable address).2
    rw [String.toList_ofList] at word
    exact wholeLine_word word
  | ns target => exact named target (by simp [dataNames])
  | cname target => exact named target (by simp [dataNames])
  | ptr target => exact named target (by simp [dataNames])
  | soa fields =>
    have mname := named fields.mname (by simp [dataNames])
    have rname := named fields.rname (by simp [dataNames])
    refine wholeLine_spaced ?_
    simp [mname, rname, number]
  | mx preference exchange =>
    have exchanged := named exchange (by simp [dataNames])
    refine wholeLine_spaced ?_
    simp [exchanged, number]
  | txt strings =>
    refine wholeLine_spaced fun field member => ?_
    obtain ⟨octets, inside, rfl⟩ := List.mem_map.mp member
    obtain ⟨plain, single⟩ := (legible.strings strings rfl).inside octets inside
    rw [escapeQuotes_plain plain]
    refine ⟨by simp [single], ?_⟩
    rw [List.getLast?_concat]
    decide
  | srv priority weight port target =>
    have targeted := named target (by simp [dataNames])
    refine wholeLine_spaced ?_
    simp [targeted, number]
  | unknown rtype data =>
    have mark : WholeLine ['\\', '#'] := wholeLine_word (List.all_eq_true.mp rfl)
    have hex := wholeLine_word (isWordChar_hex data)
    refine wholeLine_spaced ?_
    simp [mark, number, hex]

theorem wholeLine_fileLine (legible : LegibleRecord record) : WholeLine (fileLine record) := by
  have name := wholeLine_word (displayChars_word legible.name)
  have ttl := wholeLine_word (isWordChar_displayNat record.ttl.toNat)
  have class_ : WholeLine ['I', 'N'] := wholeLine_word (List.all_eq_true.mp rfl)
  have rtype := wholeLine_word (namesType_typeName record.rtype).readable.2
  refine wholeLine_spaced ?_
  simp [name, ttl, class_, rtype, wholeLine_text legible.data]

/-! ## The parser on written lines -/

theorem isNumber_displayNat (value : Nat) : isNumber (String.ofList (displayNat value)) = true := by
  have digits : (displayNat value).all Char.isDigit = true :=
    List.all_eq_true.mpr fun c member => Nat.isDigit_of_mem_toDigits (by omega) (by omega) member
  have filled : (displayNat value).isEmpty = false := by simp [displayNat, Nat.toDigits_ne_nil]
  rw [isNumber, String.toList_ofList, digits, filled]
  rfl

theorem ttlAndClass_written (line : Nat) (before ttl : UInt32) {name : String}
    (typed : NamesType name) (rest : List Tok) :
    ttlAndClass line before (wordOf (displayNat ttl.toNat) :: wordOf ['I', 'N'] ::
      .word name :: rest) =
      .ok (ttl, .word name :: rest) := by
  have class_ : isNumber (wordOf ['I', 'N']).text = false ∧
      eqIgnoreAsciiCase (wordOf ['I', 'N']).text "IN" = true := by decide
  rw [ttlAndClass, wordOf_text, isNumber_displayNat, if_pos rfl, parseU32_displayNat]
  change ttlAndClass line ttl _ = _
  rw [ttlAndClass, class_.1, if_neg Bool.false_ne_true, class_.2, if_pos rfl, ttlAndClass]
  change (if isNumber name = true then _
    else if eqIgnoreAsciiCase name "IN" = true then _ else _) = _
  rw [typed.notNumber, if_neg Bool.false_ne_true, typed.notClass, if_neg Bool.false_ne_true]

theorem eqIgnoreAsciiCase_display (name : DnsName) {text : String}
    (ends : (toAsciiUppercase text).toList.getLast? ≠ some '.') :
    eqIgnoreAsciiCase (String.ofList name.displayChars) text = false := by
  rw [eqIgnoreAsciiCase, beq_eq_false_iff_ne]
  intro same
  refine ends ?_
  rw [← same, toAsciiUppercase, String.toList_ofList, String.toList_ofList, List.getLast?_map,
    name.displayChars_last]
  rfl

theorem parseLine_record (legible : LegibleRecord record) {state : FileState}
    (known : state.origin = some origin) (line : Nat) :
    parseLine state ⟨line, false, recordToks record⟩ =
      .ok { state with
        lastName := some (rereadName record.name)
        all := state.all ++ [rereadRecord record] } := by
  have directive : ∀ text ∈ ["$ORIGIN", "$TTL", "$GENERATE"],
      eqIgnoreAsciiCase (String.ofList record.name.displayChars) text = false := by
    intro text member
    refine eqIgnoreAsciiCase_display record.name ?_
    have plain : ∀ text ∈ ["$ORIGIN", "$TTL", "$GENERATE"],
        (toAsciiUppercase text).toList.getLast? ≠ some '.' := by decide
    exact plain text member
  have first : ((recordToks record).head?.map Tok.text).getD "" =
      String.ofList record.name.displayChars := rfl
  have typed := namesType_typeName record.rtype
  have fields := ttlAndClass_written line state.defaultTtl record.ttl typed (dataToks record.rdata)
  have parsed := parseRdata_dataToks legible.data origin line
  unfold parseLine
  dsimp only
  rw [first, directive _ (by simp), directive _ (by simp), directive _ (by simp),
    if_neg Bool.false_ne_true, if_neg Bool.false_ne_true, if_neg Bool.false_ne_true,
      parseRecordLine,
    known]
  dsimp only
  rw [if_neg Bool.false_ne_true, first, resolveName_display legible.name]
  have dropped : (recordToks record).drop 1 = wordOf (displayNat record.ttl.toNat) ::
      wordOf ['I', 'N'] :: .word (typeName record.rtype) :: dataToks record.rdata := rfl
  have text : (Tok.word (typeName record.rtype)).text = typeName record.rtype := rfl
  simp only [bind, Except.bind, pure, Except.pure, dropped, fields, text, typed.upper]
  rw [show record.rtype = record.rdata.rtype from rfl, parsed]
  rfl

theorem foldlM_records (records : List Record) :
    ∀ (lineNo : Nat) (state : FileState) (origin : DnsName), state.origin = some origin →
      (∀ record ∈ records, LegibleRecord record) →
      ∃ last : FileState,
        (numbered lineNo (records.map recordToks)).foldlM parseLine state = .ok last ∧
          last.origin = some origin ∧ last.all = state.all ++ records.map rereadRecord := by
  induction records with
  | nil =>
    intro lineNo state origin known _
    exact ⟨state, rfl, known, (List.append_nil _).symm⟩
  | cons record rest ih =>
    intro lineNo state origin known legible
    obtain ⟨here, later⟩ := List.forall_mem_cons.mp legible
    obtain ⟨last, run, kept, collected⟩ := ih (lineNo + 1)
      { state with
        lastName := some (rereadName record.name)
        all := state.all ++ [rereadRecord record] } origin known later
    refine ⟨last, ?_, kept, ?_⟩
    · rw [List.map_cons, numbered, List.foldlM_cons, parseLine_record here known]
      exact run
    · rw [collected, List.append_assoc]
      rfl

def originLine (origin : DnsName) : List Char := spaced ["$ORIGIN".toList, origin.displayChars]

def originToks (origin : DnsName) : List Tok := [.word "$ORIGIN", wordOf origin.displayChars]

theorem readsAs_originLine (legible : LegibleName origin) :
    ReadsAs (originLine origin) (originToks origin) := by
  refine ⟨List.cons_ne_nil _ _, ?_, fun lineNo => ?_⟩
  · rw [originLine, spaced_cons _ (by simp)]
    rfl
  · have word : (Tok.word "$ORIGIN").Readable := ⟨by simp, List.all_eq_true.mp rfl⟩
    have readable : ∀ tok ∈ originToks origin, tok.Readable := by
      intro tok member
      simp only [originToks, List.mem_cons, List.not_mem_nil, or_false] at member
      rcases member with rfl | rfl
      · exact word
      · exact displayName_readable legible
    have read := tokenizeLine_spaced readable (List.forall_mem_nil _) 0 lineNo
    have shape : spaced ((originToks origin).map Tok.written) = originLine origin := by
      simp only [originToks, List.map_cons, List.map_nil, wordOf_written]
      rfl
    rw [List.append_nil, shape] at read
    exact read

theorem parseLine_origin (legible : LegibleName origin) (state : FileState) (line : Nat) :
    parseLine state ⟨line, false, originToks origin⟩ =
      .ok { state with origin := some (rereadName origin) } := by
  have directive : eqIgnoreAsciiCase (Tok.word "$ORIGIN").text "$ORIGIN" = true := by decide
  have named : DnsName.parseStr (wordOf origin.displayChars).text = .ok (rereadName origin) :=
    parseStr_display legible
  unfold parseLine originToks
  dsimp only [List.head?_cons, Option.map_some, Option.getD_some, List.getElem?_cons_succ,
    List.getElem?_cons_zero]
  rw [if_pos directive, named]

theorem parseZoneFile_written (legibleOrigin : LegibleName origin) {records : List Record}
    (legible : ∀ record ∈ records, LegibleRecord record) :
    parseZoneFile (String.ofList (("; generated by rdns".toList :: originLine origin ::
        records.map fileLine).flatMap fun line => line ++ ['\n'])) =
      match Zone.fromRecords (rereadName origin) (records.map rereadRecord) with
      | .ok zone => .ok zone
      | .error msg => err 0 msg := by
  have whole : ∀ line ∈ "; generated by rdns".toList :: originLine origin :: records.map fileLine,
      WholeLine line := by
    have comment : WholeLine "; generated by rdns".toList := by
      unfold WholeLine
      decide
    have directive : WholeLine (originLine origin) := by
      have word : WholeLine "$ORIGIN".toList := wholeLine_word (List.all_eq_true.mp rfl)
      have name := wholeLine_word (displayChars_word legibleOrigin)
      refine wholeLine_spaced fun field member => ?_
      simp only [List.mem_cons, List.not_mem_nil, or_false] at member
      rcases member with rfl | rfl
      · exact word
      · exact name
    refine List.forall_mem_cons.mpr ⟨comment, List.forall_mem_cons.mpr ⟨directive, ?_⟩⟩
    intro line member
    obtain ⟨record, inside, rfl⟩ := List.mem_map.mp member
    exact wholeLine_fileLine (legible record inside)
  have physical := lines_ended _ (fun line member => (whole line member).1)
    fun line member => (whole line member).2
  have skipped : tokenizeLine (String.ofList "; generated by rdns".toList) 0 1 = .ok ([], 0) := by
    decide +kernel
  have numberedLines := logicalLoop_numbered fileLine recordToks records 3 2 false
    fun record member => readsAs_fileLine (legible record member)
  have logical : logicalLoop 1 ("; generated by rdns".toList :: originLine origin ::
      records.map fileLine) 0 [] 0 false =
        .ok (⟨2, false, originToks origin⟩ :: numbered 3 (records.map recordToks)) := by
    rw [logicalLoop_skip skipped, logicalLoop_line (readsAs_originLine legibleOrigin),
      numberedLines]
    rfl
  obtain ⟨last, run, known, collected⟩ := foldlM_records records 3
    { FileState.start with origin := some (rereadName origin) } _ rfl legible
  have folded : List.foldlM parseLine FileState.start
      (⟨2, false, originToks origin⟩ :: numbered 3 (records.map recordToks)) = .ok last := by
    rw [List.foldlM_cons, parseLine_origin legibleOrigin]
    exact run
  unfold parseZoneFile logicalLines lines
  rw [lines] at physical
  rw [String.toList_ofList, physical, logical]
  simp only [bind, Except.bind, folded, known, collected]
  rfl

/-! ## The sets of a zone in file order -/

abbrev NodeSet := DnsName × List Record × UInt16

namespace NodeSet

def rrset (set : NodeSet) : Rrset := rrsetOf set.1 set.2.1 set.2.2

def members (set : NodeSet) : List Record := set.2.1.filter fun record => record.rtype = set.2.2

def filed (set : NodeSet) (record : Record) : Record :=
  { record with name := set.1, ttl := set.rrset.ttl }

end NodeSet

def nodeSets (zone : Zone) : List NodeSet :=
  zone.records.entries.flatMap fun entry =>
    (nodeTypes entry.2).map fun rtype => (entry.1, entry.2, rtype)

def fileSets (zone : Zone) : List NodeSet :=
  (nodeSets zone).insertionSort fun left right => left.rrset.before right.rrset = true

def filedRecords (zone : Zone) : List Record :=
  (fileSets zone).flatMap fun set => set.members.map set.filed

theorem rrsets_eq (zone : Zone) : zone.rrsets = (fileSets zone).map NodeSet.rrset := by
  have sets : (zone.records.entries.flatMap fun entry =>
      (nodeTypes entry.2).map (rrsetOf entry.1 entry.2)) = (nodeSets zone).map NodeSet.rrset := by
    rw [nodeSets, List.map_flatMap]
    refine List.flatMap_congr fun entry _ => ?_
    rw [List.map_map]
    rfl
  rw [Zone.rrsets, sets, fileSets]
  exact (List.map_insertionSort (fun left right : NodeSet => left.rrset.before right.rrset = true)
    (fun left right : Rrset => left.before right = true) NodeSet.rrset (nodeSets zone)
    fun _ _ _ _ => Iff.rfl).symm

theorem fileLines_eq (zone : Zone) :
    zone.fileLines = "; generated by rdns".toList :: originLine zone.origin ::
      (filedRecords zone).map fileLine := by
  have setLines : ∀ set : NodeSet, set.rrset.contents.map (recordLine set.rrset) =
      (set.members.map set.filed).map fileLine := by
    intro set
    have contents : set.rrset.contents = set.members.map fun record => record.rdata.text := rfl
    rw [contents, List.map_map, List.map_map]
    refine List.map_congr_left fun record member => ?_
    have typed : (set.filed record).rtype = set.rrset.rtype :=
      of_decide_eq_true (List.mem_filter.mp member).2
    rw [Function.comp, Function.comp, recordLine, fileLine, typed]
    rfl
  have records : (zone.rrsets.flatMap fun rrset => rrset.contents.map (recordLine rrset)) =
      (filedRecords zone).map fileLine := by
    rw [rrsets_eq, List.flatMap_map, filedRecords, List.map_flatMap]
    exact List.flatMap_congr fun set _ => setLines set
  rw [Zone.fileLines, records]
  rfl

theorem nodeTypes_nodup (node : List Record) : (nodeTypes node).Nodup := by
  have strict : (nodeTypes node).Pairwise fun left right => id left < id right :=
    dedup_strict Function.injective_id
      (List.pairwise_insertionSort (· ≤ ·) (node.map Record.rtype))
  exact strict.imp fun less same => absurd (same ▸ less) (Std.lt_irrefl)

theorem mem_nodeTypes {node : List Record} (member : record ∈ node) :
    record.rtype ∈ nodeTypes node := by
  rw [nodeTypes, mem_dedup, List.mem_insertionSort]
  exact List.mem_map_of_mem member

theorem members_perm (zone : Zone) :
    ((fileSets zone).flatMap NodeSet.members).Perm (stored zone.records) := by
  have sorted : (fileSets zone).Perm (nodeSets zone) := List.perm_insertionSort _ _
  refine (sorted.flatMap_right _).trans ?_
  have nodes : stored zone.records = zone.records.entries.flatMap fun entry => entry.2 := rfl
  rw [nodeSets, List.flatMap_assoc, nodes]
  refine List.Perm.flatMap_left _ fun entry _ => ?_
  rw [List.flatMap_map]
  exact flatMap_filter_perm Record.rtype (nodeTypes entry.2) (nodeTypes_nodup entry.2) entry.2
    fun record member => mem_nodeTypes member

theorem mem_fileSets {set : NodeSet} (listed : set ∈ fileSets zone) :
    zone.records.get? set.1 = some set.2.1 := by
  rw [fileSets, List.mem_insertionSort] at listed
  obtain ⟨entry, among, inside⟩ := List.mem_flatMap.mp listed
  obtain ⟨rtype, _, rfl⟩ := List.mem_map.mp inside
  exact (HashMap.mem_entries_iff zone.records entry.1 entry.2).mp among

theorem mem_filedRecords (structured : Structured zone) {line : Record}
    (member : line ∈ filedRecords zone) :
    ∃ record ∈ stored zone.records, line.name = record.name ∧ line.rdata = record.rdata := by
  obtain ⟨set, listed, inside⟩ := List.mem_flatMap.mp member
  obtain ⟨record, among, rfl⟩ := List.mem_map.mp inside
  have found := mem_fileSets listed
  have held := (List.mem_filter.mp among).1
  have owner := (structured.placed set.1 set.2.1 found).1 record held
  exact ⟨record, (mem_stored_iff _ record).mpr ⟨set.1, set.2.1, found, held⟩, owner.symm, rfl⟩

theorem filedRecords_soas {soa : Record} (soas : (stored zone.records).filter isSoa = [soa]) :
    ∃ set ∈ fileSets zone, soa ∈ set.members ∧
      (filedRecords zone).filter isSoa = [set.filed soa] := by
  let pairs : List (NodeSet × Record) :=
    (fileSets zone).flatMap fun set => set.members.map fun record => (set, record)
  have lines : filedRecords zone = pairs.map fun pair => pair.1.filed pair.2 := by
    rw [filedRecords, List.map_flatMap]
    refine List.flatMap_congr fun set _ => ?_
    rw [List.map_map]
    rfl
  have records : (fileSets zone).flatMap NodeSet.members = pairs.map Prod.snd := by
    rw [List.map_flatMap]
    refine List.flatMap_congr fun set _ => ?_
    rw [List.map_map]
    exact (List.map_id _).symm
  have single : (pairs.filter fun pair => isSoa pair.2).map Prod.snd = [soa] := by
    have perm := (members_perm zone).filter isSoa
    rw [records, List.filter_map, soas] at perm
    exact List.perm_singleton.mp perm
  obtain ⟨pair, alone, same⟩ : ∃ pair, (pairs.filter fun pair => isSoa pair.2) = [pair] ∧
      pair.2 = soa := by
    obtain ⟨pair, alone⟩ := List.length_eq_one_iff.mp
      ((List.length_map _).symm.trans (congrArg List.length single))
    rw [alone] at single
    exact ⟨pair, alone, (List.cons.inj single).1⟩
  have listed : pair ∈ pairs := (List.mem_filter.mp (alone ▸ List.mem_singleton_self pair)).1
  obtain ⟨set, among, inside⟩ := List.mem_flatMap.mp listed
  obtain ⟨record, member, rfl⟩ := List.mem_map.mp inside
  dsimp only at same
  rw [same] at member alone
  refine ⟨set, among, member, ?_⟩
  rw [lines, List.filter_map]
  change ((pairs.filter fun pair => isSoa pair.2).map fun pair => pair.1.filed pair.2) = _
  rw [alone]
  rfl

theorem endsWith_reread (legible : LegibleName name) (legibleOrigin : LegibleName origin)
    (below : name.endsWith origin = true) :
    (rereadName name).endsWith (rereadName origin) = true := by
  rw [DnsName.endsWith_iff] at below ⊢
  rw [rereadName_labels legible, rereadName_labels legibleOrigin]
  exact below.map DnsName.spelled

theorem parseZoneFile_loads (structured : Structured zone) {soa : Record}
    (soas : (stored zone.records).filter isSoa = [soa]) (apex : soa.name = zone.origin)
    (legibleOrigin : LegibleName zone.origin)
    (legible : ∀ record ∈ stored zone.records, LegibleRecord record) :
    ∃ read, parseZoneFile zone.toZonefile = .ok read ∧ read.origin = rereadName zone.origin ∧
      (∃ set ∈ fileSets zone, soa ∈ set.members ∧ read.soa = rereadRecord (set.filed soa)) ∧
      (stored read.records).Perm ((filedRecords zone).map rereadRecord) ∧
      read.recordCount = (filedRecords zone).length := by
  have legibleLines : ∀ line ∈ filedRecords zone, LegibleRecord line := by
    intro line member
    obtain ⟨record, held, name, rdata⟩ := mem_filedRecords structured member
    obtain ⟨legibleName, legibleData⟩ := legible record held
    exact ⟨name ▸ legibleName, rdata ▸ legibleData⟩
  have below : ∀ record ∈ (filedRecords zone).map rereadRecord,
      record.name.endsWith (rereadName zone.origin) = true := by
    intro record member
    obtain ⟨line, inside, rfl⟩ := List.mem_map.mp member
    obtain ⟨original, held, name, _⟩ := mem_filedRecords structured inside
    refine endsWith_reread (legibleLines line inside).name legibleOrigin ?_
    rw [name]
    exact mem_stored_below structured held
  obtain ⟨set, listed, member, soaLines⟩ := filedRecords_soas soas
  have rereadSoas : ((filedRecords zone).map rereadRecord).filter isSoa =
      [rereadRecord (set.filed soa)] := by
    have marked : isSoa ∘ rereadRecord = isSoa := by
      funext record
      rw [Function.comp, isSoa, rereadRecord_rtype]
      rfl
    rw [List.filter_map, marked, soaLines]
    rfl
  have owned : (rereadRecord (set.filed soa)).name = rereadName zone.origin := by
    have owner := (structured.placed set.1 set.2.1 (mem_fileSets listed)).1 soa
      (List.mem_filter.mp member).1
    change rereadName set.1 = _
    rw [← owner, apex]
  obtain ⟨read, built, origin, chosen, perm, count⟩ := fromRecords_total below rereadSoas owned
  refine ⟨read, ?_, origin, ⟨set, listed, member, chosen⟩, perm, by rw [count, List.length_map]⟩
  rw [Zone.toZonefile, fileLines_eq, parseZoneFile_written legibleOrigin legibleLines, built]

/-! ## Nothing changes for plain names and strings -/

/-- Printable ASCII without dot, semicolon, parentheses and quote.  Names are in
lower case. -/
structure PlainName (name : DnsName) : Prop where
  printable : ∀ label ∈ name.labels, ∀ octet ∈ label,
    0x21 ≤ octet.toNat ∧ octet.toNat ≤ 0x7E ∧ octet ∉ structural
  lowercase : name.Lowercase

/-- Non-empty, valid UTF-8 without quotes and line feeds, at most 255 octets each,
the first string not `\#`. -/
structure PlainStrings (strings : List Bytes) : Prop where
  filled : strings ≠ []
  text : ∀ octets ∈ strings, ∃ chars, octets = utf8 chars ∧ '"' ∉ chars ∧ '\n' ∉ chars
  short : ∀ octets ∈ strings, octets.length ≤ 255
  typed : strings.head? ≠ some (utf8 ['\\', '#'])

/-- Zones whose file says all there is.  The length of a vector fits `usize`. -/
structure PlainZone (zone : Zone) : Prop where
  classes : ∀ record ∈ stored zone.records, record.class_ = classIn
  ttls : ∀ first ∈ stored zone.records, ∀ second ∈ stored zone.records,
    first.name = second.name → first.rtype = second.rtype → first.ttl = second.ttl
  origin : PlainName zone.origin
  owners : ∀ record ∈ stored zone.records, PlainName record.name
  names : ∀ record ∈ stored zone.records, ∀ name ∈ dataNames record.rdata, PlainName name
  strings : ∀ record ∈ stored zone.records, ∀ strings, record.rdata = .txt strings →
    PlainStrings strings
  types : ∀ record ∈ stored zone.records, record.rtype ∉ unnamedTypes
  sized : ∀ record ∈ stored zone.records, ∀ rtype data, record.rdata = .unknown rtype data →
    data.length < 2 ^ 64

theorem PlainName.labels (plain : PlainName name) :
    ∀ label ∈ name.labels, DnsName.PlainLabel label := by
  have fixed : ∀ label ∈ name.labels, lowerLabel label = label := by
    have lowered : name.labels.map lowerLabel = name.labels.map id := by
      rw [List.map_id]
      exact plain.lowercase
    exact List.map_inj_left.mp lowered
  refine fun label member => ⟨fun octet inside => ?_, fixed label member⟩
  obtain ⟨low, high, unmarked⟩ := plain.printable label member octet inside
  refine ⟨low, high, fun dot => unmarked ?_⟩
  rw [dot]
  decide

theorem spelled_plain (plain : PlainName name) : name.labels.map DnsName.spelled = name.labels :=
  (List.map_congr_left fun label member =>
    DnsName.spelled_of_plain (plain.labels label member)).trans (List.map_id _)

theorem PlainName.legible (plain : PlainName name) : LegibleName name := by
  refine ⟨fun label member octet inside => (plain.printable label member octet inside).2.2, ?_⟩
  rw [spelled_plain plain]
  exact name.valid

theorem PlainName.reread (plain : PlainName name) : rereadName name = name :=
  DnsName.ext ((rereadName_labels plain.legible).trans (spelled_plain plain))

theorem PlainStrings.lossy (plain : PlainStrings strings) :
    ∀ octets ∈ strings, utf8 (Utf8.fromLossy octets) = octets ∧
      '"' ∉ Utf8.fromLossy octets ∧ '\n' ∉ Utf8.fromLossy octets := by
  intro octets member
  obtain ⟨chars, rfl, quote, feed⟩ := plain.text octets member
  have read : Utf8.fromLossy (utf8 chars) = chars := Utf8.fromLossy_encode chars
  rw [read]
  exact ⟨rfl, quote, feed⟩

theorem PlainStrings.legible (plain : PlainStrings strings) : LegibleStrings strings := by
  refine ⟨plain.filled, ?_, fun octets member => (plain.lossy octets member).2, ?_⟩
  · obtain ⟨first, rest, rfl⟩ := List.exists_cons_of_ne_nil plain.filled
    intro marked
    refine plain.typed ?_
    have read : Utf8.fromLossy first = ['\\', '#'] := Option.some.inj marked
    rw [List.head?_cons, ← read, (plain.lossy first List.mem_cons_self).1]
  · intro octets member
    rw [(plain.lossy octets member).1]
    exact plain.short octets member

theorem PlainStrings.reread (plain : PlainStrings strings) :
    strings.map (fun octets => utf8 (Utf8.fromLossy octets)) = strings :=
  (List.map_congr_left fun octets member => (plain.lossy octets member).1).trans (List.map_id _)

theorem rereadData_plain {rdata : RData} (names : ∀ name ∈ dataNames rdata, PlainName name)
    (strings : ∀ strings, rdata = .txt strings → PlainStrings strings) :
    rereadData rdata = rdata := by
  cases rdata with
  | a address => rfl
  | aaaa address => rfl
  | unknown rtype data => rfl
  | txt text =>
    have same := (strings text rfl).reread
    rw [Zones.rereadData, same]
  | soa fields =>
    have mname := (names fields.mname (by simp [dataNames])).reread
    have rname := (names fields.rname (by simp [dataNames])).reread
    rw [Zones.rereadData, mname, rname]
  | ns target => rw [Zones.rereadData, (names target (by simp [dataNames])).reread]
  | cname target => rw [Zones.rereadData, (names target (by simp [dataNames])).reread]
  | ptr target => rw [Zones.rereadData, (names target (by simp [dataNames])).reread]
  | mx preference exchange =>
    rw [Zones.rereadData, (names exchange (by simp [dataNames])).reread]
  | srv priority weight port target =>
    rw [Zones.rereadData, (names target (by simp [dataNames])).reread]

section Plain

variable {zone : Zone} (plain : PlainZone zone) {record : Record}
  (held : record ∈ stored zone.records)

include plain held

theorem PlainZone.legible : LegibleRecord record :=
  ⟨(plain.owners record held).legible, {
    names := fun name member => (plain.names record held name member).legible
    strings := fun strings text => (plain.strings record held strings text).legible
    sized := plain.sized record held
    named := plain.types record held }⟩

theorem PlainZone.rereadData : rereadData record.rdata = record.rdata :=
  rereadData_plain (plain.names record held) (plain.strings record held)

end Plain

theorem PlainZone.rereadFiled (plain : PlainZone zone) (structured : Structured zone)
    {set : NodeSet} (listed : set ∈ fileSets zone) (member : record ∈ set.members) :
    rereadRecord (set.filed record) = record := by
  have found := mem_fileSets listed
  have placed := (structured.placed set.1 set.2.1 found).1
  have inNode : ∀ other ∈ set.members, other ∈ stored zone.records ∧ other.name = set.1 ∧
      other.rtype = set.2.2 := by
    intro other among
    obtain ⟨inside, typed⟩ := List.mem_filter.mp among
    exact ⟨(mem_stored_iff _ other).mpr ⟨set.1, set.2.1, found, inside⟩, placed other inside,
      of_decide_eq_true typed⟩
  obtain ⟨held, owner, typed⟩ := inNode record member
  have ttl : set.rrset.ttl = record.ttl := by
    have head : set.rrset.ttl = (set.members.map Record.ttl).headD 0 := rfl
    obtain ⟨first, rest, shape⟩ := List.exists_cons_of_ne_nil (List.ne_nil_of_mem member)
    obtain ⟨heldFirst, ownerFirst, typedFirst⟩ :=
      inNode first (by rw [shape]; exact List.mem_cons_self)
    rw [head, shape]
    exact plain.ttls first heldFirst record held (ownerFirst.trans owner.symm)
      (typedFirst.trans typed.symm)
  have name : rereadName set.1 = record.name := by
    rw [← owner]
    exact (plain.owners record held).reread
  have rdata := plain.rereadData held
  have class_ := plain.classes record held
  change Record.mk (rereadName set.1) classIn set.rrset.ttl (Zones.rereadData record.rdata) = record
  rw [name, ttl, rdata, ← class_]

/-- Writing a zone and loading the file gives the zone back. -/
theorem parseZoneFile_toZonefile {zone : Zone} (structured : Structured zone)
    (coherent : SoaCoherent zone) (plain : PlainZone zone) :
    ∃ read, parseZoneFile zone.toZonefile = .ok read ∧ read.origin = zone.origin ∧
      read.soa = zone.soa ∧ (stored read.records).Perm (stored zone.records) ∧
      read.recordCount = zone.recordCount := by
  obtain ⟨read, loaded, origin, ⟨set, listed, member, soa⟩, perm, count⟩ :=
    parseZoneFile_loads structured (stored_soas coherent) (soa_name structured coherent)
      plain.origin.legible fun record held => plain.legible held
  have lines : (filedRecords zone).map rereadRecord = (fileSets zone).flatMap NodeSet.members := by
    rw [filedRecords, List.map_flatMap]
    refine List.flatMap_congr fun set listed => ?_
    rw [List.map_map]
    exact (List.map_congr_left fun record member =>
      plain.rereadFiled structured listed member).trans (List.map_id _)
  have all : ((filedRecords zone).map rereadRecord).Perm (stored zone.records) :=
    lines ▸ members_perm zone
  refine ⟨read, loaded, origin.trans plain.origin.reread,
    soa.trans (plain.rereadFiled structured listed member), perm.trans all, ?_⟩
  have length := all.length_eq
  rw [List.length_map, stored_length] at length
  rw [count, length, structured.counted]

def apexText : Record :=
  { name := apexName, class_ := classIn, ttl := 60, rdata := .txt [utf8 "a; b".toList, []] }

def texted : Zone := ⟨apexName, apexSoa, 2, HashMap.empty.insert apexName [apexSoa, apexText]⟩

theorem texted_plain : PlainZone texted := by
  have records : stored texted.records = [apexSoa, apexText] := rfl
  have apex : PlainName apexName := ⟨by simp [apexName, structural], rfl⟩
  have printable : ∀ name ∈ apexName :: dataNames apexSoa.rdata, PlainName name := by
    intro name member
    have same : ∀ name ∈ apexName :: dataNames apexSoa.rdata, name = apexName := by decide
    rw [same name member]
    exact apex
  have strings : PlainStrings [utf8 "a; b".toList, []] := by
    refine ⟨by simp, ?_, by decide, by decide⟩
    intro octets member
    rcases List.mem_cons.mp member with rfl | member
    · exact ⟨"a; b".toList, rfl, by decide, by decide⟩
    · rw [List.mem_singleton.mp member]
      exact ⟨[], rfl, List.not_mem_nil, List.not_mem_nil⟩
  refine ⟨?_, ?_, printable _ List.mem_cons_self, ?_, ?_, ?_, ?_, ?_⟩ <;> rw [records]
  · decide
  · decide
  · intro record member
    have owner : ∀ record ∈ [apexSoa, apexText], record.name = apexName := by decide
    rw [owner record member]
    exact printable _ List.mem_cons_self
  · intro record member name inside
    rcases List.mem_cons.mp member with rfl | member
    · exact printable name (List.mem_cons_of_mem _ inside)
    · rw [List.mem_singleton.mp member] at inside
      cases inside
  · intro record member text same
    rcases List.mem_cons.mp member with rfl | member
    · cases same
    · rw [List.mem_singleton.mp member] at same
      cases same
      exact strings
  · decide
  · intro record member rtype data same
    rcases List.mem_cons.mp member with rfl | member
    · cases same
    · rw [List.mem_singleton.mp member] at same
      cases same

theorem parseZoneFile_toZonefile_texted :
    ∃ read, parseZoneFile texted.toZonefile = .ok read ∧ read.soa = apexSoa ∧
      (stored read.records).Perm [apexSoa, apexText] := by
  have built : Zone.fromRecords apexName [apexSoa, apexText] = .ok texted := rfl
  obtain ⟨read, loaded, _, soa, perm, _⟩ := parseZoneFile_toZonefile
    (fromRecords_structured built).1 (fromRecords_coherent built) texted_plain
  exact ⟨read, loaded, soa, perm⟩

end Rdns.Zones
