import Rdns.Proto.Message
import Rdns.Proto.NameText
import Mathlib.Data.List.Defs

/-!
# Record data in master-file text

`rdata_from_text` of dns-zone with everything below it: the tokenizer, the
number and address parsers of the standard library it calls, and the match of
`parse_rdata`.  A slice inside a character stops the program, so failing
functions distinguish a panic from an error value.
-/

set_option autoImplicit false

namespace Rdns.Zones

open Rdns.Lib Rdns.Proto

structure ZoneError where
  line : Nat
  msg : String
deriving DecidableEq

def ZoneError.display (error : ZoneError) : String :=
  "line " ++ toString error.line ++ ": " ++ error.msg

/-- Why a call does not return a value. -/
inductive Abort (ε : Type)
  | panicked
  | failed (error : ε)
deriving DecidableEq

abbrev Fallible (ε α : Type) := Except (Abort ε) α

def err {α : Type} (line : Nat) (msg : String) : Fallible ZoneError α :=
  .error (.failed ⟨line, msg⟩)

def mapErr {ε ε' α : Type} (change : ε → ε') : Fallible ε α → Fallible ε' α
  | .ok value => .ok value
  | .error .panicked => .error .panicked
  | .error (.failed e) => .error (.failed (change e))

/-! ## Tokens -/

inductive Tok
  | word (text : String)
  | quoted (text : String)
deriving DecidableEq

def Tok.text : Tok → String
  | .word text => text
  | .quoted text => text

def isWhitespace (c : Char) : Bool :=
  let n := c.toNat
  decide (n = 0x20 ∨ (9 ≤ n ∧ n ≤ 13) ∨ n = 0x85 ∨ n = 0xA0 ∨ n = 0x1680 ∨
    (0x2000 ≤ n ∧ n ≤ 0x200A) ∨ n = 0x2028 ∨ n = 0x2029 ∨ n = 0x202F ∨ n = 0x205F ∨ n = 0x3000)

def isWordChar (c : Char) : Bool :=
  !isWhitespace c && !(c == '(' || c == ')' || c == ';' || c == '"')

/-- The loop of `tokenize_line`; a round consumes at least one character. -/
def tokenizeLoop (lineNo : Nat) :
    Nat → List Char → Nat → List Tok → Fallible ZoneError (List Tok × Nat)
  | 0, _, depth, toks => .ok (toks, depth)
  | _ + 1, [], depth, toks => .ok (toks, depth)
  | fuel + 1, c :: rest, depth, toks =>
    if isWhitespace c then tokenizeLoop lineNo fuel rest depth toks
    else if c = ';' then .ok (toks, depth)
    else if c = '(' then tokenizeLoop lineNo fuel rest (depth + 1) toks
    else if c = ')' then
      if depth = 0 then err lineNo "unbalanced ')'"
      else tokenizeLoop lineNo fuel rest (depth - 1) toks
    else if c = '"' then
      match rest.dropWhile (· != '"') with
      | [] => err lineNo "unterminated quoted string"
      | _ :: after =>
        tokenizeLoop lineNo fuel after depth
          (toks ++ [.quoted (String.ofList (rest.takeWhile (· != '"')))])
    else
      tokenizeLoop lineNo fuel ((c :: rest).dropWhile isWordChar) depth
        (toks ++ [.word (String.ofList ((c :: rest).takeWhile isWordChar))])

def tokenizeLine (line : String) (depth lineNo : Nat) : Fallible ZoneError (List Tok × Nat) :=
  tokenizeLoop lineNo line.toList.length line.toList depth []

/-! ## Numbers and addresses -/

def digitValue (c : Char) : Option Nat :=
  if '0' ≤ c ∧ c ≤ '9' then some (c.toNat - 48)
  else if 'a' ≤ c ∧ c ≤ 'z' then some (c.toNat - 87)
  else if 'A' ≤ c ∧ c ≤ 'Z' then some (c.toNat - 55)
  else none

def toDigit (radix : Nat) (c : Char) : Option Nat := (digitValue c).filter (· < radix)

def digitsValue (radix : Nat) (digits : List Char) : Nat :=
  digits.foldl (fun value c => value * radix + (toDigit radix c).getD 0) 0

/-- `FromStr` of an unsigned integer type with `limit` values: a sign `+` is
accepted, an empty digit string is not. -/
def parseUnsigned (limit : Nat) (text : List Char) : Option Nat :=
  let digits := match text with
    | '+' :: rest => rest
    | other => other
  if digits.isEmpty || !digits.all (fun c => (toDigit 10 c).isSome) then none
  else if digitsValue 10 digits < limit then some (digitsValue 10 digits)
  else none

def badValue {α : Type} (text : String) (line : Nat) (what : String) : Fallible ZoneError α :=
  err line ("bad " ++ what ++ " value '" ++ text ++ "'")

def parseNum (limit : Nat) (text : String) (line : Nat) (what : String) :
    Fallible ZoneError Nat :=
  match parseUnsigned limit text.toList with
  | some value => .ok value
  | none => badValue text line what

def parseU8 (text : String) (line : Nat) (what : String) : Fallible ZoneError UInt8 := do
  pure (UInt8.ofNat (← parseNum (2 ^ 8) text line what))

def parseU16 (text : String) (line : Nat) (what : String) : Fallible ZoneError UInt16 := do
  pure (UInt16.ofNat (← parseNum (2 ^ 16) text line what))

def parseU32 (text : String) (line : Nat) (what : String) : Fallible ZoneError UInt32 := do
  pure (UInt32.ofNat (← parseNum (2 ^ 32) text line what))

/-- `Parser::read_number`: the longest run of digits, refused when too long,
too large or, where that is not allowed, padded with a zero. -/
def readNumber (radix maxDigits : Nat) (allowZeroPadding : Bool) (limit : Nat)
    (text : List Char) : Option (Nat × List Char) :=
  let digits := text.takeWhile fun c => (toDigit radix c).isSome
  if digits.isEmpty || maxDigits < digits.length then none
  else if !allowZeroPadding && digits.head? == some '0' && 1 < digits.length then none
  else if digitsValue radix digits < limit then
    some (digitsValue radix digits, text.drop digits.length)
  else none

def readGivenChar (wanted : Char) : List Char → Option (List Char)
  | c :: rest => if c = wanted then some rest else none
  | [] => none

def readOctet (text : List Char) : Option (UInt8 × List Char) :=
  (readNumber 10 3 false 256 text).map fun (value, rest) => (UInt8.ofNat value, rest)

def readIpv4 (text : List Char) : Option (Ipv4Addr × List Char) := do
  let (first, text) ← readOctet text
  let (second, text) ← readOctet (← readGivenChar '.' text)
  let (third, text) ← readOctet (← readGivenChar '.' text)
  let (fourth, text) ← readOctet (← readGivenChar '.' text)
  pure (.new first second third fourth, text)

def parseIpv4 (text : List Char) : Option Ipv4Addr :=
  if 15 < (utf8 text).length then none
  else match readIpv4 text with
    | some (address, []) => some address
    | _ => none

/-- `read_groups`: up to `slots` groups, the last two possibly as an embedded
IPv4 address, which is reported. -/
def readGroups : Nat → Bool → List Char → List UInt16 × Bool × List Char
  | 0, _, text => ([], false, text)
  | slots + 1, first, text =>
    let start := if first then some text else readGivenChar ':' text
    match if 0 < slots then start.bind readIpv4 else none with
    | some (address, rest) =>
      let octets := address.toList
      ([ofBe16 (octets.getD 0 0) (octets.getD 1 0), ofBe16 (octets.getD 2 0) (octets.getD 3 0)],
        true, rest)
    | none =>
      match start.bind (readNumber 16 4 true (2 ^ 16)) with
      | some (group, rest) =>
        let (groups, embedded, rest) := readGroups slots false rest
        (UInt16.ofNat group :: groups, embedded, rest)
      | none => ([], false, text)

def ipv6OfGroups (groups : List UInt16) : Ipv6Addr :=
  let octets := groups.flatMap toBe16
  ⟨(octets ++ List.replicate 16 0).take 16, by simp⟩

def readIpv6 (text : List Char) : Option (Ipv6Addr × List Char) :=
  let (head, embedded, text) := readGroups 8 true text
  if head.length = 8 then some (ipv6OfGroups head, text)
  else if embedded then none
  else do
    let text ← readGivenChar ':' text
    let text ← readGivenChar ':' text
    let (tail, _, text) := readGroups (7 - head.length) true text
    let zeros := List.replicate (8 - head.length - tail.length) 0
    pure (ipv6OfGroups (head ++ zeros ++ tail), text)

def parseIpv6 (text : List Char) : Option Ipv6Addr :=
  match readIpv6 text with
  | some (address, []) => some address
  | _ => none

/-! ## Hexadecimal -/

def isContinuation (octet : UInt8) : Bool := decide (0x80 ≤ octet ∧ octet < 0xC0)

def hexDigit (octet : UInt8) : Option Nat :=
  if octet < 0x80 then toDigit 16 (Char.ofNat octet.toNat) else none

/-- `u8::from_str_radix(.., 16)` of two octets, the first possibly a sign. -/
def hexPair (high low : UInt8) : Option UInt8 :=
  match hexDigit low with
  | none => none
  | some second =>
    if high = 43 then some (UInt8.ofNat second)
    else (hexDigit high).map fun first => UInt8.ofNat (first * 16 + second)

/-- The pairs of `decode_hex`, stopping at the first that is no number; a pair
that ends inside a character is a slice panic. -/
def decodeHexPairs {ε : Type} : Bytes → Fallible ε (Option Bytes)
  | high :: low :: rest =>
    if (rest.head?.map isContinuation).getD false then .error .panicked
    else match hexPair high low with
      | none => .ok none
      | some octet => do pure ((← decodeHexPairs rest).map (octet :: ·))
  | _ => .ok (some [])

def decodeHex {ε : Type} (text : String) : Fallible ε (Option Bytes) :=
  let octets := utf8 text.toList
  if octets.length % 2 ≠ 0 then .ok none else decodeHexPairs octets

/-! ## Type names -/

def asciiUpper (c : Char) : Char :=
  if 97 ≤ c.toNat ∧ c.toNat ≤ 122 then Char.ofNat (c.toNat - 32) else c

def toAsciiUppercase (text : String) : String := String.ofList (text.toList.map asciiUpper)

def typeCodeOfUpper : String → Option UInt16
  | "A" => some typeA
  | "NS" => some typeNs
  | "CNAME" => some typeCname
  | "SOA" => some typeSoa
  | "PTR" => some typePtr
  | "MX" => some typeMx
  | "TXT" => some typeTxt
  | "AAAA" => some typeAaaa
  | "SRV" => some typeSrv
  | "NAPTR" => some typeNaptr
  | "TLSA" => some typeTlsa
  | "SVCB" => some typeSvcb
  | "HTTPS" => some typeHttps
  | "CAA" => some typeCaa
  | "DS" => some typeDs
  | "DNSKEY" => some typeDnskey
  | "NSEC" => some typeNsec
  | "NSEC3" => some typeNsec3
  | "NSEC3PARAM" => some typeNsec3param
  | "RRSIG" => some typeRrsig
  | other =>
    match other.toList with
    | 'T' :: 'Y' :: 'P' :: 'E' :: number => (parseUnsigned (2 ^ 16) number).map UInt16.ofNat
    | _ => none

def typeCode (text : String) : Option UInt16 := typeCodeOfUpper (toAsciiUppercase text)

/-! ## Record data -/

def resolveName (token : String) (origin : DnsName) (line : Nat) : Fallible ZoneError DnsName :=
  if token = "@" then .ok origin
  else
    let bad := fun (e : NameError) =>
      Abort.failed (⟨line, "bad name '" ++ token ++ "': " ++ e.display⟩ : ZoneError)
    match DnsName.parseStr token with
    | .error e => .error (bad e)
    | .ok name =>
      if token.toList.getLast? = some '.' then .ok name
      else match name.concat origin with
        | .ok full => .ok full
        | .error e => .error (bad e)

/-- RFC 3597 generic form, after the `\#` token. -/
def parseGeneric (rtype : String) (toks : List Tok) (line : Nat) : Fallible ZoneError RData :=
  match typeCode rtype, toks with
  | none, _ => err line ("unknown record type '" ++ rtype ++ "'")
  | some code, _ :: length :: rest => do
    let len ← parseNum (2 ^ 64) length.text line "generic rdata length"
    match ← decodeHex (String.join (rest.map Tok.text)) with
    | none => err line "generic rdata: bad hex"
    | some data =>
      if data.length ≠ len then
        err line ("generic rdata: length " ++ toString len ++ " != " ++
          toString data.length ++ " bytes")
      else pure (.unknown code data)
  | some _, _ => err line "generic rdata: missing length"

def parseTxt (line : Nat) : List Tok → Fallible ZoneError (List Bytes)
  | [] => .ok []
  | tok :: rest => do
    let octets := utf8 tok.text.toList
    if octets.length > 255 then err line "TXT string exceeds 255 bytes"
    else pure (octets :: (← parseTxt line rest))

def wrongCount {α : Type} (rtype : String) (count : Nat) (toks : List Tok) (line : Nat) :
    Fallible ZoneError α :=
  err line (rtype ++ " expects " ++ toString count ++ " field(s), got " ++ toString toks.length)

/-- The match of `parse_rdata` on the type name. -/
def parsePresentation (rtype : String) (toks : List Tok) (origin : DnsName) (line : Nat) :
    Fallible ZoneError RData :=
  match rtype with
  | "A" =>
    match toks with
    | [address] =>
      match parseIpv4 address.text.toList with
      | some ip => .ok (.a ip)
      | none => badValue address.text line "IPv4 address"
    | _ => wrongCount rtype 1 toks line
  | "AAAA" =>
    match toks with
    | [address] =>
      match parseIpv6 address.text.toList with
      | some ip => .ok (.aaaa ip)
      | none => badValue address.text line "IPv6 address"
    | _ => wrongCount rtype 1 toks line
  | "NS" =>
    match toks with
    | [target] => do pure (.ns (← resolveName target.text origin line))
    | _ => wrongCount rtype 1 toks line
  | "CNAME" =>
    match toks with
    | [target] => do pure (.cname (← resolveName target.text origin line))
    | _ => wrongCount rtype 1 toks line
  | "PTR" =>
    match toks with
    | [target] => do pure (.ptr (← resolveName target.text origin line))
    | _ => wrongCount rtype 1 toks line
  | "MX" =>
    match toks with
    | [preference, exchange] => do
      let preference ← parseU16 preference.text line "MX preference"
      pure (.mx preference (← resolveName exchange.text origin line))
    | _ => wrongCount rtype 2 toks line
  | "TXT" =>
    if toks.isEmpty then err line "TXT needs at least one string"
    else do pure (.txt (← parseTxt line toks))
  | "SOA" =>
    match toks with
    | [mname, rname, serial, refresh, retry, expire, minimum] => do
      let mname ← resolveName mname.text origin line
      let rname ← resolveName rname.text origin line
      let serial ← parseU32 serial.text line "SOA serial"
      let refresh ← parseU32 refresh.text line "SOA refresh"
      let retry ← parseU32 retry.text line "SOA retry"
      let expire ← parseU32 expire.text line "SOA expire"
      let minimum ← parseU32 minimum.text line "SOA minimum"
      pure (.soa { mname, rname, serial, refresh, retry, expire, minimum })
    | _ => wrongCount rtype 7 toks line
  | "SRV" =>
    match toks with
    | [priority, weight, port, target] => do
      let priority ← parseU16 priority.text line "SRV priority"
      let weight ← parseU16 weight.text line "SRV weight"
      let port ← parseU16 port.text line "SRV port"
      pure (.srv priority weight port (← resolveName target.text origin line))
    | _ => wrongCount rtype 4 toks line
  | "CAA" =>
    match toks with
    | [flags, tag, value] => do
      let flags ← parseU8 flags.text line "CAA flags"
      let tag := utf8 tag.text.toList
      if tag.isEmpty || 255 < tag.length then err line "CAA tag length"
      else
        pure (.unknown typeCaa
          (flags :: UInt8.ofNat tag.length :: tag ++ utf8 value.text.toList))
    | _ => wrongCount rtype 3 toks line
  | other =>
    if (typeCode other).isSome then
      err line (other ++ ": provide rdata in RFC 3597 generic form `\\# <len> <hex>`")
    else err line ("unsupported record type '" ++ other ++ "'")

def parseRdata (rtype : String) (toks : List Tok) (origin : DnsName) (line : Nat) :
    Fallible ZoneError RData :=
  if toks.head?.map Tok.text = some "\\#" then parseGeneric rtype toks line
  else parsePresentation rtype toks origin line

def rdataFromText (rtype text : String) (origin : DnsName) : Fallible String RData := do
  let (toks, depth) ← mapErr ZoneError.msg (tokenizeLine text 0 0)
  if depth ≠ 0 then .error (.failed "unbalanced parentheses")
  else mapErr ZoneError.msg (parseRdata (toAsciiUppercase rtype) toks origin 0)

/-! ## The type of parsed data -/

theorem asciiUpper_idem (c : Char) : asciiUpper (asciiUpper c) = asciiUpper c := by
  by_cases lower : 97 ≤ c.toNat ∧ c.toNat ≤ 122
  · have upper : asciiUpper c = Char.ofNat (c.toNat - 32) := if_pos lower
    have value := ofNat_toNat_ascii (c.toNat - 32) (by omega)
    rw [upper]
    exact if_neg (by omega)
  · have same : asciiUpper c = c := if_neg lower
    rw [same, same]

theorem toAsciiUppercase_idem (text : String) :
    toAsciiUppercase (toAsciiUppercase text) = toAsciiUppercase text := by
  simp [toAsciiUppercase, Function.comp_def, asciiUpper_idem]

theorem fallible_bind {ε α β : Type} {first : Except ε α} {next : α → Except ε β} {result : β}
    (run : (first >>= next) = .ok result) :
    ∃ value, first = .ok value ∧ next value = .ok result := by
  cases first with
  | error e => cases run
  | ok value => exact ⟨value, rfl, run⟩

theorem mapErr_eq_ok {ε ε' α : Type} {change : ε → ε'} {call : Fallible ε α} {value : α}
    (run : mapErr change call = .ok value) : call = .ok value := by
  cases call with
  | ok other =>
    cases run
    rfl
  | error e => cases e <;> cases run

theorem parseGeneric_rtype {rtype : String} {toks : List Tok} {line : Nat} {rdata : RData}
    (parsed : parseGeneric rtype toks line = .ok rdata) : typeCode rtype = some rdata.rtype := by
  unfold parseGeneric at parsed
  split at parsed
  · cases parsed
  · rename_i code _ length rest named
    obtain ⟨len, _, parsed⟩ := fallible_bind parsed
    obtain ⟨hex, _, parsed⟩ := fallible_bind parsed
    split at parsed
    · cases parsed
    · split at parsed
      · cases parsed
      · cases parsed
        exact named
  · cases parsed

theorem parsePresentation_rtype {rtype : String} {toks : List Tok} {origin : DnsName} {line : Nat}
    {rdata : RData} (parsed : parsePresentation rtype toks origin line = .ok rdata) :
    typeCodeOfUpper rtype = some rdata.rtype := by
  unfold parsePresentation at parsed
  split at parsed
  · -- A
    split at parsed
    · split at parsed <;> cases parsed
      rfl
    · cases parsed
  · -- AAAA
    split at parsed
    · split at parsed <;> cases parsed
      rfl
    · cases parsed
  · -- NS
    split at parsed
    · obtain ⟨target, _, parsed⟩ := fallible_bind parsed
      cases parsed
      rfl
    · cases parsed
  · -- CNAME
    split at parsed
    · obtain ⟨target, _, parsed⟩ := fallible_bind parsed
      cases parsed
      rfl
    · cases parsed
  · -- PTR
    split at parsed
    · obtain ⟨target, _, parsed⟩ := fallible_bind parsed
      cases parsed
      rfl
    · cases parsed
  · -- MX
    split at parsed
    · obtain ⟨preference, _, parsed⟩ := fallible_bind parsed
      obtain ⟨exchange, _, parsed⟩ := fallible_bind parsed
      cases parsed
      rfl
    · cases parsed
  · -- TXT
    split at parsed
    · cases parsed
    · obtain ⟨strings, _, parsed⟩ := fallible_bind parsed
      cases parsed
      rfl
  · -- SOA
    split at parsed
    · obtain ⟨mname, _, parsed⟩ := fallible_bind parsed
      obtain ⟨rname, _, parsed⟩ := fallible_bind parsed
      obtain ⟨serial, _, parsed⟩ := fallible_bind parsed
      obtain ⟨refresh, _, parsed⟩ := fallible_bind parsed
      obtain ⟨retry, _, parsed⟩ := fallible_bind parsed
      obtain ⟨expire, _, parsed⟩ := fallible_bind parsed
      obtain ⟨minimum, _, parsed⟩ := fallible_bind parsed
      cases parsed
      rfl
    · cases parsed
  · -- SRV
    split at parsed
    · obtain ⟨priority, _, parsed⟩ := fallible_bind parsed
      obtain ⟨weight, _, parsed⟩ := fallible_bind parsed
      obtain ⟨port, _, parsed⟩ := fallible_bind parsed
      obtain ⟨target, _, parsed⟩ := fallible_bind parsed
      cases parsed
      rfl
    · cases parsed
  · -- CAA
    split at parsed
    · obtain ⟨flags, _, parsed⟩ := fallible_bind parsed
      dsimp only at parsed
      split at parsed
      · cases parsed
      · cases parsed
        rfl
    · cases parsed
  · split at parsed <;> cases parsed

theorem rdataFromText_rtype {rtype text : String} {origin : DnsName} {rdata : RData}
    (parsed : rdataFromText rtype text origin = .ok rdata) :
    typeCode rtype = some rdata.rtype := by
  obtain ⟨⟨toks, depth⟩, _, parsed⟩ := fallible_bind parsed
  dsimp only at parsed
  split at parsed
  · cases parsed
  have success := mapErr_eq_ok parsed
  unfold parseRdata at success
  split at success
  · have named := parseGeneric_rtype success
    rwa [typeCode, toAsciiUppercase_idem] at named
  · exact parsePresentation_rtype success

end Rdns.Zones
