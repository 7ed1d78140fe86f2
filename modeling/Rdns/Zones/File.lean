import Rdns.Zones.Numbers
import Rdns.Zones.Store
import Rdns.Lib.Ring
import Rdns.Lib.Utf8

/-!
# Zone files

`to_zonefile` writes the records as master-file text, one RRset after the other,
and `parse_zone_file` reads such text with its directives, comments and
continuation lines.
-/

set_option autoImplicit false

namespace Rdns.Proto

open Rdns.Lib Rdns.Zones

def typeNames : List (UInt16 × String) :=
  [(typeA, "A"), (typeNs, "NS"), (typeCname, "CNAME"), (typeSoa, "SOA"), (typePtr, "PTR"),
    (typeMx, "MX"), (typeTxt, "TXT"), (typeAaaa, "AAAA"), (typeSrv, "SRV"), (typeOpt, "OPT"),
    (typeDs, "DS"), (typeRrsig, "RRSIG"), (typeNsec, "NSEC"), (typeDnskey, "DNSKEY"),
    (typeNsec3, "NSEC3"), (typeNsec3param, "NSEC3PARAM"), (typeNaptr, "NAPTR"),
    (typeTlsa, "TLSA"), (typeSvcb, "SVCB"), (typeHttps, "HTTPS"), (typeCaa, "CAA"),
    (typeIxfr, "IXFR"), (typeAxfr, "AXFR"), (typeTsig, "TSIG"), (typeAny, "ANY")]

def typeName (code : UInt16) : String :=
  match typeNames.lookup code with
  | some name => name
  | none => String.ofList (['T', 'Y', 'P', 'E'] ++ displayNat code.toNat)

def spaced (fields : List (List Char)) : List Char := [' '].intercalate fields

/-- `replace('"', "\\\"")`. -/
def escapeQuotes (text : List Char) : List Char :=
  text.flatMap fun c => if c = '"' then ['\\', '"'] else [c]

def hexOctet (octet : UInt8) : List Char :=
  [Nat.digitChar (octet.toNat / 16), Nat.digitChar (octet.toNat % 16)]

def RData.text : RData → List Char
  | .a address => displayIpv4 address
  | .aaaa address => displayIpv6 address
  | .ns target => target.displayChars
  | .cname target => target.displayChars
  | .ptr target => target.displayChars
  | .soa fields =>
    spaced [fields.mname.displayChars, fields.rname.displayChars,
      displayNat fields.serial.toNat, displayNat fields.refresh.toNat,
      displayNat fields.retry.toNat, displayNat fields.expire.toNat,
      displayNat fields.minimum.toNat]
  | .mx preference exchange => spaced [displayNat preference.toNat, exchange.displayChars]
  | .txt strings =>
    spaced (strings.map fun octets => '"' :: escapeQuotes (Utf8.fromLossy octets) ++ ['"'])
  | .srv priority weight port target =>
    spaced [displayNat priority.toNat, displayNat weight.toNat, displayNat port.toNat,
      target.displayChars]
  | .unknown _ data => spaced [['\\', '#'], displayNat data.length, data.flatMap hexOctet]

end Rdns.Proto

namespace Rdns.Zones

open Rdns.Lib Rdns.Proto

/-! ## Writing -/

structure Rrset where
  name : DnsName
  rtype : UInt16
  ttl : UInt32
  contents : List (List Char)

/-- The set of one type at a node; `rtype` occurs there, so there is a first member. -/
def rrsetOf (name : DnsName) (node : List Record) (rtype : UInt16) : Rrset :=
  let members := node.filter fun record => record.rtype = rtype
  { name, rtype, ttl := (members.map Record.ttl).headD 0
    contents := members.map fun record => record.rdata.text }

def nodeTypes (node : List Record) : List UInt16 :=
  dedup ((node.map Record.rtype).insertionSort (· ≤ ·))

/-- Order of the sort keys: the SOA first, then owner text, then type. -/
def Rrset.before (left right : Rrset) : Bool :=
  ((compare (left.rtype != typeSoa) (right.rtype != typeSoa)).then
    ((compare left.name.display right.name.display).then
      (compare left.rtype right.rtype))).isLE

def Zone.rrsets (zone : Zone) : List Rrset :=
  (zone.records.entries.flatMap fun entry =>
    (nodeTypes entry.2).map (rrsetOf entry.1 entry.2)).insertionSort
      fun left right => left.before right = true

def recordLine (rrset : Rrset) (content : List Char) : List Char :=
  spaced [rrset.name.displayChars, displayNat rrset.ttl.toNat, ['I', 'N'],
    (typeName rrset.rtype).toList, content]

def Zone.fileLines (zone : Zone) : List (List Char) :=
  "; generated by rdns".toList :: spaced ["$ORIGIN".toList, zone.origin.displayChars] ::
    zone.rrsets.flatMap fun rrset => rrset.contents.map (recordLine rrset)

def Zone.toZonefile (zone : Zone) : String :=
  String.ofList (zone.fileLines.flatMap fun line => line ++ ['\n'])

/-! ## Logical lines -/

def stripCr (line : List Char) : List Char :=
  if line.getLast? = some '\r' then line.dropLast else line

/-- `str::lines` after `current`, the start of a line; a carriage return goes
only together with a line feed. -/
def linesFrom : List Char → List Char → List (List Char)
  | current, [] => if current.isEmpty then [] else [current]
  | current, c :: rest =>
    if c = '\n' then stripCr current :: linesFrom [] rest else linesFrom (current ++ [c]) rest

def lines (text : List Char) : List (List Char) := linesFrom [] text

def splitWhitespace (text : List Char) : List (List Char) :=
  (text.splitOnP isWhitespace).filter fun piece => !piece.isEmpty

structure LogicalLine where
  line : Nat
  startsWs : Bool
  toks : List Tok
deriving DecidableEq

def startsBlank (raw : List Char) : Bool := raw.head? == some ' ' || raw.head? == some '\t'

def logicalLoop : Nat → List (List Char) → Nat → List Tok → Nat → Bool →
    Fallible ZoneError (List LogicalLine)
  | _, [], depth, _, currentLine, _ =>
    if depth ≠ 0 then err currentLine "unclosed '(' at end of file" else .ok []
  | lineNo, raw :: rest, depth, current, currentLine, currentWs => do
    let (toks, depth) ← tokenizeLine (String.ofList raw) depth lineNo
    let opens := current.isEmpty && !toks.isEmpty
    let currentLine := if opens then lineNo else currentLine
    let currentWs := if opens then startsBlank raw else currentWs
    let current := current ++ toks
    if depth = 0 && !current.isEmpty then
      pure (⟨currentLine, currentWs, current⟩ ::
        (← logicalLoop (lineNo + 1) rest depth [] currentLine currentWs))
    else logicalLoop (lineNo + 1) rest depth current currentLine currentWs

def logicalLines (text : List Char) : Fallible ZoneError (List LogicalLine) :=
  logicalLoop 1 (lines text) 0 [] 0 false

/-! ## The `$GENERATE` directive

`i64` arithmetic wraps, as it does in the release profile. -/

def eqIgnoreAsciiCase (left right : String) : Bool :=
  toAsciiUppercase left == toAsciiUppercase right

def splitOnce (separator : Char) (text : List Char) : Option (List Char × List Char) :=
  if separator ∈ text then
    some (text.takeWhile (· != separator), (text.dropWhile (· != separator)).drop 1)
  else none

def parseSigned (text : List Char) : Option Int64 :=
  match text with
  | '-' :: digits =>
    if digits.head? = some '+' then none
    else (parseUnsigned (2 ^ 63 + 1) digits).map fun value => Int64.ofInt (-value)
  | _ => (parseUnsigned (2 ^ 63) text).map fun value => Int64.ofInt value

def parseI64 (text : List Char) (line : Nat) (what : String) : Fallible ZoneError Int64 :=
  match parseSigned text with
  | some value => .ok value
  | none => badValue (String.ofList text) line what

def displayInt (value : Int64) : List Char :=
  if value < 0 then '-' :: displayNat value.toInt.natAbs else displayNat value.toInt.natAbs

def genWidth (spec : List Char) : Nat :=
  (((spec.splitOn ',')[1]?.bind (parseUnsigned (2 ^ 64)))).getD 0

/-- The `\x7boffset,width,base\x7d` modifier; other bases print the two's complement. -/
def genPadded (spec : List Char) (value : Int64) : List Char :=
  let parts := spec.splitOn ','
  let offset := ((parts[0]?.bind parseSigned)).getD 0
  let v := value + offset
  let bits := v.toBitVec.toNat
  let shown := match parts[2]?.getD ['d'] with
    | ['o'] => Nat.toDigits 8 bits
    | ['x'] => lowerHex bits
    | ['X'] => (lowerHex bits).map asciiUpper
    | _ => displayInt v
  List.replicate (genWidth spec - shown.length) '0' ++ shown

/-- `format!` holds a width in 16 bits and panics on a greater one. -/
def genFormat {ε : Type} (spec : List Char) (value : Int64) : Fallible ε (List Char) :=
  if genWidth spec ≤ 65535 then .ok (genPadded spec value) else .error .panicked

/-- A round consumes at least one character. -/
def genSubstLoop {ε : Type} (value : Int64) : Nat → List Char → Fallible ε (List Char)
  | 0, _ => pure []
  | _ + 1, [] => pure []
  | fuel + 1, c :: rest =>
    if c ≠ '$' then do
      let later ← genSubstLoop value fuel rest
      pure (c :: later)
    else match rest.head?, splitOnce '\x7d' (rest.drop 1) with
      | some '\x7b', some (spec, after) => do
        let field ← genFormat spec value
        let later ← genSubstLoop value fuel after
        pure (field ++ later)
      | _, _ => do
        let later ← genSubstLoop value fuel rest
        pure (displayInt value ++ later)

def genSubst {ε : Type} (template : List Char) (value : Int64) : Fallible ε (List Char) :=
  genSubstLoop value template.length template

def isNumber (text : String) : Bool := text.toList.all Char.isDigit && !text.toList.isEmpty

/-- TTL and class before a type, in either order; the last TTL counts. -/
def ttlAndClass (line : Nat) : UInt32 → List Tok → Fallible ZoneError (UInt32 × List Tok)
  | ttl, [] => .ok (ttl, [])
  | ttl, tok :: rest =>
    if isNumber tok.text then do
      let ttl ← parseU32 tok.text line "TTL"
      ttlAndClass line ttl rest
    else if eqIgnoreAsciiCase tok.text "IN" then ttlAndClass line ttl rest
    else .ok (ttl, tok :: rest)

/-- The loop over the range.  The counter has 2^64 values, so a loop that is
still running after as many rounds never ends. -/
def generateLoop (lhs rhs : List Char) (rtype : String) (origin : DnsName) (ttl : UInt32)
    (stop step : Int64) (line : Nat) : Nat → Int64 → Fallible ZoneError (List Record)
  | 0, _ => .error .panicked
  | fuel + 1, n =>
    if n ≤ stop then do
      let owner ← resolveName (String.ofList (← genSubst lhs n)) origin line
      let text ← genSubst rhs n
      let rdata ← mapErr (ZoneError.mk line) (rdataFromText rtype (String.ofList text) origin)
      let later ← generateLoop lhs rhs rtype origin ttl stop step line fuel (n + step)
      pure ({ name := owner, class_ := classIn, ttl, rdata } :: later)
    else pure []

def expandGenerate (toks : List Tok) (origin : DnsName) (defaultTtl : UInt32) (line : Nat) :
    Fallible ZoneError (List Record) :=
  match toks with
  | _ :: range :: lhs :: rest => do
    let (ttl, rest) ← ttlAndClass line defaultTtl rest
    match rest with
    | [] => err line "$GENERATE needs a type"
    | rtype :: rest =>
      let rtype := toAsciiUppercase rtype.text
      let rhs := spaced (rest.map fun tok => tok.text.toList)
      let (span, step) ← match splitOnce '/' range.text.toList with
        | some (span, step) => do pure (span, ← parseI64 step line "$GENERATE step")
        | none => pure (range.text.toList, 1)
      match splitOnce '-' span with
      | none => err line "$GENERATE range must be start-stop"
      | some (start, stop) =>
        let start ← parseI64 start line "$GENERATE start"
        let stop ← parseI64 stop line "$GENERATE stop"
        if step ≤ 0 ∨ stop < start ∨ (stop - start) / step > 1000000 then
          err line "$GENERATE range is empty or too large"
        else
          generateLoop lhs.text.toList rhs rtype origin ttl stop step line (2 ^ 64) start
  | [_, _] => err line "$GENERATE needs an lhs"
  | _ => err line "$GENERATE needs a range"

/-! ## Reading -/

/-- The variables of `parse_zone_file`; the line numbers kept with the records
are never read. -/
structure FileState where
  origin : Option DnsName
  defaultTtl : UInt32
  lastName : Option DnsName
  all : List Record

def FileState.start : FileState := ⟨none, 3600, none, []⟩

def parseRecordLine (state : FileState) (logical : LogicalLine) : Fallible ZoneError FileState :=
  let line := logical.line
  match state.origin with
  | none => err line "record before $ORIGIN directive"
  | some origin => do
    let (name, rest) ←
      if logical.startsWs then
        match state.lastName with
        | some name => pure (name, logical.toks)
        | none => err line "record starts with whitespace but no previous owner"
      else do
        let name ← resolveName ((logical.toks.head?.map Tok.text).getD "") origin line
        pure (name, logical.toks.drop 1)
    let (ttl, rest) ← ttlAndClass line state.defaultTtl rest
    match rest with
    | [] => err line "missing record type"
    | rtype :: rest =>
      let rdata ← parseRdata (toAsciiUppercase rtype.text) rest origin line
      pure { state with
        lastName := some name
        all := state.all ++ [{ name, class_ := classIn, ttl, rdata }] }

def parseLine (state : FileState) (logical : LogicalLine) : Fallible ZoneError FileState :=
  let line := logical.line
  let first := (logical.toks.head?.map Tok.text).getD ""
  let argument := logical.toks[1]?
  if eqIgnoreAsciiCase first "$ORIGIN" then
    match argument with
    | none => err line "$ORIGIN needs a name"
    | some arg =>
      match DnsName.parseStr arg.text with
      | .ok origin => .ok { state with origin := some origin }
      | .error e => err line ("bad origin: " ++ e.display)
  else if eqIgnoreAsciiCase first "$TTL" then
    match argument with
    | none => err line "$TTL needs a value"
    | some arg => do pure { state with defaultTtl := ← parseU32 arg.text line "$TTL" }
  else if eqIgnoreAsciiCase first "$GENERATE" then
    match state.origin with
    | none => err line "$GENERATE before $ORIGIN"
    | some origin => do
      let records ← expandGenerate logical.toks origin state.defaultTtl line
      pure { state with all := state.all ++ records }
  else parseRecordLine state logical

def parseZoneFile (text : String) : Fallible ZoneError Zone := do
  let logical ← logicalLines text.toList
  let state ← logical.foldlM parseLine FileState.start
  match state.origin with
  | none => err 0 "zone file has no $ORIGIN directive"
  | some origin =>
    match Zone.fromRecords origin state.all with
    | .ok zone => .ok zone
    | .error msg => err 0 msg

end Rdns.Zones
