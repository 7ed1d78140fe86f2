import Rdns.Proto.Compression
import Mathlib.Data.Vector.Basic

/-!
# DNS messages

The data model of dns-proto and its wire codec: `Message::parse`,
`Message::encode`, the EDNS and TSIG pseudo-records, and the canonical forms
DNSSEC signs.  Readers move a cursor and fail with a `WireError`; writers append
through the shared `Compressor`.
-/

set_option autoImplicit false

namespace Rdns.Proto

open Rdns.Lib

def classIn : UInt16 := 1
def classCh : UInt16 := 3
def classNone : UInt16 := 254
def classAny : UInt16 := 255

def typeA : UInt16 := 1
def typeNs : UInt16 := 2
def typeCname : UInt16 := 5
def typeSoa : UInt16 := 6
def typePtr : UInt16 := 12
def typeMx : UInt16 := 15
def typeTxt : UInt16 := 16
def typeAaaa : UInt16 := 28
def typeSrv : UInt16 := 33
def typeNaptr : UInt16 := 35
def typeOpt : UInt16 := 41
def typeDs : UInt16 := 43
def typeRrsig : UInt16 := 46
def typeNsec : UInt16 := 47
def typeDnskey : UInt16 := 48
def typeNsec3 : UInt16 := 50
def typeNsec3param : UInt16 := 51
def typeTlsa : UInt16 := 52
def typeSvcb : UInt16 := 64
def typeHttps : UInt16 := 65
def typeTsig : UInt16 := 250
def typeIxfr : UInt16 := 251
def typeAxfr : UInt16 := 252
def typeAny : UInt16 := 255
def typeCaa : UInt16 := 257

def rcodeNoerror : UInt8 := 0
def rcodeFormerr : UInt8 := 1
def rcodeServfail : UInt8 := 2
def rcodeNxdomain : UInt8 := 3
def rcodeNotimp : UInt8 := 4
def rcodeRefused : UInt8 := 5
def rcodeYxdomain : UInt8 := 6
def rcodeYxrrset : UInt8 := 7
def rcodeNxrrset : UInt8 := 8
def rcodeNotauth : UInt8 := 9

/-! ## Header flags -/

structure Flags where
  qr : Bool
  opcode : UInt8
  aa : Bool
  tc : Bool
  rd : Bool
  ra : Bool
  ad : Bool
  cd : Bool
  rcode : UInt8
deriving DecidableEq

def Flags.default : Flags :=
  { qr := false, opcode := 0, aa := false, tc := false, rd := false, ra := false, ad := false,
    cd := false, rcode := 0 }

def Flags.fromU16 (word : UInt16) : Flags where
  qr := word &&& 0x8000 ≠ 0
  opcode := ((word >>> 11) &&& 0xF).toUInt8
  aa := word &&& 0x0400 ≠ 0
  tc := word &&& 0x0200 ≠ 0
  rd := word &&& 0x0100 ≠ 0
  ra := word &&& 0x0080 ≠ 0
  ad := word &&& 0x0020 ≠ 0
  cd := word &&& 0x0010 ≠ 0
  rcode := (word &&& 0xF).toUInt8

def Flags.toU16 (flags : Flags) : UInt16 :=
  flags.qr.toUInt16 <<< 15
    ||| (flags.opcode &&& 0xF).toUInt16 <<< 11
    ||| flags.aa.toUInt16 <<< 10
    ||| flags.tc.toUInt16 <<< 9
    ||| flags.rd.toUInt16 <<< 8
    ||| flags.ra.toUInt16 <<< 7
    ||| flags.ad.toUInt16 <<< 5
    ||| flags.cd.toUInt16 <<< 4
    ||| (flags.rcode &&& 0xF).toUInt16

/-! ## Records -/

structure Question where
  qname : DnsName
  qtype : UInt16
  qclass : UInt16
deriving DecidableEq

structure Soa where
  mname : DnsName
  rname : DnsName
  serial : UInt32
  refresh : UInt32
  retry : UInt32
  expire : UInt32
  minimum : UInt32
deriving DecidableEq

abbrev Ipv4Addr := List.Vector UInt8 4

def Ipv4Addr.new (a b c d : UInt8) : Ipv4Addr := ⟨[a, b, c, d], rfl⟩

abbrev Ipv6Addr := List.Vector UInt8 16

inductive IpAddr
  | v4 (address : Ipv4Addr)
  | v6 (address : Ipv6Addr)
deriving DecidableEq

inductive RData
  | a (address : Ipv4Addr)
  | aaaa (address : Ipv6Addr)
  | ns (target : DnsName)
  | cname (target : DnsName)
  | ptr (target : DnsName)
  | soa (fields : Soa)
  | mx (preference : UInt16) (exchange : DnsName)
  | txt (strings : List Bytes)
  | srv (priority weight port : UInt16) (target : DnsName)
  | unknown (rtype : UInt16) (data : Bytes)
deriving DecidableEq

def RData.rtype : RData → UInt16
  | .a _ => typeA
  | .aaaa _ => typeAaaa
  | .ns _ => typeNs
  | .cname _ => typeCname
  | .ptr _ => typePtr
  | .soa _ => typeSoa
  | .mx _ _ => typeMx
  | .txt _ => typeTxt
  | .srv _ _ _ _ => typeSrv
  | .unknown rtype _ => rtype

structure Record where
  name : DnsName
  class_ : UInt16
  ttl : UInt32
  rdata : RData
deriving DecidableEq

def Record.rtype (record : Record) : UInt16 := record.rdata.rtype

structure Edns where
  udpPayload : UInt16
  extRcode : UInt8
  version : UInt8
  doBit : Bool
  options : Bytes
deriving DecidableEq

def Edns.ours : Edns :=
  { udpPayload := 1232, extRcode := 0, version := 0, doBit := false, options := [] }

/-- The options, code, length and data each, without those of a code; a round takes
at least four octets. -/
def removeOptionLoop (code : UInt16) : Nat → Bytes → Bytes
  | fuel + 1, codeHigh :: codeLow :: lenHigh :: lenLow :: rest =>
    let len := (ofBe16 lenHigh lenLow).toNat
    (if ofBe16 codeHigh codeLow ≠ code then
      [codeHigh, codeLow, lenHigh, lenLow] ++ rest.take len
    else []) ++ removeOptionLoop code fuel (rest.drop len)
  | _, _ => []

def Edns.removeOption (edns : Edns) (code : UInt16) : Edns :=
  { edns with options := removeOptionLoop code edns.options.length edns.options }

def Edns.setOption (edns : Edns) (code : UInt16) (data : Bytes) : Edns :=
  let kept := (edns.removeOption code).options
  { edns with options := kept ++ toBe16 code ++ toBe16 (UInt16.ofNat data.length) ++ data }

def ednsEde : UInt16 := 15

def edeOption (infoCode : UInt16) (text : String) : Bytes :=
  toBe16 infoCode ++ utf8 text.toList

structure Tsig where
  keyName : DnsName
  algorithm : DnsName
  timeSigned : UInt64
  fudge : UInt16
  mac : Bytes
  originalId : UInt16
  error : UInt16
  other : Bytes
deriving DecidableEq

structure Message where
  id : UInt16
  flags : Flags
  questions : List Question
  answers : List Record
  authorities : List Record
  additionals : List Record
  edns : Option Edns
  tsig : Option Tsig
  tsigStart : Option Nat
deriving DecidableEq

def Message.new (id : UInt16) (flags : Flags) : Message :=
  { id, flags, questions := [], answers := [], authorities := [], additionals := [],
    edns := none, tsig := none, tsigStart := none }

/-- Response skeleton: id, opcode and RD echoed, the question copied, an OPT
record iff the query had one. -/
def Message.responseTo (query : Message) : Message :=
  { Message.new query.id
      { Flags.default with qr := true, opcode := query.flags.opcode, rd := query.flags.rd } with
    questions := query.questions
    edns := query.edns.map fun _ => Edns.ours }

/-! ## Readers -/

def readU8 (buf : Bytes) : Parse UInt8 := fun pos =>
  match buf[pos]? with
  | none => .error .truncated
  | some octet => .ok (octet, pos + 1)

def readBytes (buf : Bytes) (count : Nat) : Parse Bytes := fun pos =>
  match slice buf pos count with
  | none => .error .truncated
  | some octets => .ok (octets, pos + count)

/-- `read_bytes(..)?.try_into().unwrap()` for an array of known length. -/
def readArray (buf : Bytes) (count : Nat) : Parse (List.Vector UInt8 count) := fun pos =>
  match found : slice buf pos count with
  | none => .error .truncated
  | some octets => .ok (⟨octets, slice_length found⟩, pos + count)

def readU16 (buf : Bytes) : Parse UInt16 := do
  let octets ← readBytes buf 2
  pure (ofBe16 (octets.getD 0 0) (octets.getD 1 0))

def readU32 (buf : Bytes) : Parse UInt32 := do
  let octets ← readBytes buf 4
  pure (ofBe32 (octets.getD 0 0) (octets.getD 1 0) (octets.getD 2 0) (octets.getD 3 0))

/-- The loop over the character-strings of a TXT record.  Each round advances,
so the distance to the end is fuel enough. -/
def parseStrings (buf : Bytes) (finish : Nat) : Nat → List Bytes → Parse (List Bytes)
  | 0, strings => pure strings
  | fuel + 1, strings => do
    if (← get) < finish then
      let len ← readU8 buf
      if (← get) + len.toNat > finish then throw .badRdata
      let text ← readBytes buf len.toNat
      parseStrings buf finish fuel (strings ++ [text])
    else pure strings

def parseSoa (buf : Bytes) : Parse Soa := do
  let mname ← DnsName.fromWire buf
  let rname ← DnsName.fromWire buf
  let serial ← readU32 buf
  let refresh ← readU32 buf
  let retry ← readU32 buf
  let expire ← readU32 buf
  let minimum ← readU32 buf
  pure { mname, rname, serial, refresh, retry, expire, minimum }

def RData.parseTyped (rtype : UInt16) (buf : Bytes) (rdlen finish : Nat) : Parse RData :=
  if rtype = typeA then do pure (.a (← readArray buf 4))
  else if rtype = typeAaaa then do pure (.aaaa (← readArray buf 16))
  else if rtype = typeNs then do pure (.ns (← DnsName.fromWire buf))
  else if rtype = typeCname then do pure (.cname (← DnsName.fromWire buf))
  else if rtype = typePtr then do pure (.ptr (← DnsName.fromWire buf))
  else if rtype = typeSoa then do pure (.soa (← parseSoa buf))
  else if rtype = typeMx then do
    let preference ← readU16 buf
    let exchange ← DnsName.fromWire buf
    pure (.mx preference exchange)
  else if rtype = typeTxt then do pure (.txt (← parseStrings buf finish rdlen []))
  else if rtype = typeSrv then do
    let priority ← readU16 buf
    let weight ← readU16 buf
    let port ← readU16 buf
    let target ← DnsName.fromWire buf
    pure (.srv priority weight port target)
  else do pure (.unknown rtype (← readBytes buf rdlen))

/-- Empty rdata keeps its type, as delete records of RFC 2136 updates need. -/
def RData.parse (rtype : UInt16) (buf : Bytes) (rdlen : Nat) : Parse RData := do
  let finish := (← get) + rdlen
  if finish > buf.length then throw .truncated
  if rdlen = 0 then return .unknown rtype []
  let rdata ← RData.parseTyped rtype buf rdlen finish
  if (← get) ≠ finish then throw .badRdata
  pure rdata

def Tsig.parseRdata (keyName : DnsName) (buf : Bytes) : Parse Tsig := do
  let algorithm ← DnsName.fromWire buf
  let high ← readU16 buf
  let low ← readU32 buf
  let timeSigned := (high.toUInt64 <<< 32) ||| low.toUInt64
  let fudge ← readU16 buf
  let macSize ← readU16 buf
  let mac ← readBytes buf macSize.toNat
  let originalId ← readU16 buf
  let error ← readU16 buf
  let otherLen ← readU16 buf
  let other ← readBytes buf otherLen.toNat
  pure { keyName, algorithm, timeSigned, fudge, mac, originalId, error, other }

inductive Entry
  | rr (record : Record)
  | opt (edns : Edns)
  | tsig (tsig : Tsig)

/-- The OPT record abuses class and TTL. -/
def Edns.ofOpt (class_ : UInt16) (ttl : UInt32) (options : Bytes) : Edns where
  udpPayload := class_
  extRcode := (ttl >>> 24).toUInt8
  version := (ttl >>> 16).toUInt8
  doBit := ttl &&& 0x8000 ≠ 0
  options := options

def parseEntryBody (buf : Bytes) (name : DnsName) (rtype class_ : UInt16) (ttl : UInt32)
    (rdlen : Nat) : Parse Entry :=
  if rtype = typeTsig then do
    let finish := (← get) + rdlen
    let tsig ← Tsig.parseRdata name buf
    if (← get) ≠ finish then throw .badRdata
    pure (.tsig tsig)
  else if rtype = typeOpt then do
    let data ← readBytes buf rdlen
    pure (.opt (Edns.ofOpt class_ ttl data))
  else do
    let rdata ← RData.parse rtype buf rdlen
    pure (.rr { name, class_, ttl, rdata })

def parseEntry (buf : Bytes) : Parse Entry := do
  let name ← DnsName.fromWire buf
  let rtype ← readU16 buf
  let class_ ← readU16 buf
  let ttl ← readU32 buf
  let rdlen ← readU16 buf
  parseEntryBody buf name rtype class_ ttl rdlen.toNat

def parseQuestion (buf : Bytes) (msg : Message) : Parse Message := do
  let qname ← DnsName.fromWire buf
  let qtype ← readU16 buf
  let qclass ← readU16 buf
  pure { msg with questions := msg.questions ++ [{ qname, qtype, qclass }] }

/-- An entry of the answer or the authority section: an OPT or a TSIG there is dropped. -/
def parseSection (push : Message → Record → Message) (buf : Bytes) (msg : Message) :
    Parse Message := do
  match ← parseEntry buf with
  | .rr record => pure (push msg record)
  | _ => pure msg

def parseAnswer : Bytes → Message → Parse Message :=
  parseSection fun msg record => { msg with answers := msg.answers ++ [record] }

def parseAuthority : Bytes → Message → Parse Message :=
  parseSection fun msg record => { msg with authorities := msg.authorities ++ [record] }

/-- At most one OPT counts, the first; the last TSIG counts, with its start. -/
def parseAdditional (buf : Bytes) (msg : Message) : Parse Message := do
  let start ← get
  match ← parseEntry buf with
  | .rr record => pure { msg with additionals := msg.additionals ++ [record] }
  | .opt edns => pure (if msg.edns.isNone then { msg with edns := some edns } else msg)
  | .tsig tsig => pure { msg with tsig := some tsig, tsigStart := some start }

def Message.parseBody (buf : Bytes) : Parse Message := do
  let id ← readU16 buf
  let flags ← readU16 buf
  let qd ← readU16 buf
  let an ← readU16 buf
  let ns ← readU16 buf
  let ar ← readU16 buf
  let msg ← forCount qd.toNat (parseQuestion buf) (Message.new id (Flags.fromU16 flags))
  let msg ← forCount an.toNat (parseAnswer buf) msg
  let msg ← forCount ns.toNat (parseAuthority buf) msg
  forCount ar.toNat (parseAdditional buf) msg

def Message.parse (buf : Bytes) : Except WireError Message :=
  (Message.parseBody buf 0).map Prod.fst

/-! ## Writers -/

def DnsName.writePlain (name : DnsName) : Writer Compressor := fun state =>
  ((name.toWire state.1 none).1, state.2)

def Soa.writeNumbers (soa : Soa) : Writer Compressor := fun state =>
  state |> put (toBe32 soa.serial) |> put (toBe32 soa.refresh) |> put (toBe32 soa.retry)
    |> put (toBe32 soa.expire) |> put (toBe32 soa.minimum)

def writeStrings (strings : List Bytes) : Writer Compressor := fun state =>
  strings.foldl (fun state text => put (UInt8.ofNat text.length :: text) state) state

/-- Names are compressed, except the target of SRV (RFC 2782). -/
def RData.encode : RData → Writer Compressor
  | .a address => put address.toList
  | .aaaa address => put address.toList
  | .ns target => target.write
  | .cname target => target.write
  | .ptr target => target.write
  | .soa fields => fun state =>
    state |> fields.mname.write |> fields.rname.write |> fields.writeNumbers
  | .mx preference exchange => fun state => state |> put (toBe16 preference) |> exchange.write
  | .txt strings => writeStrings strings
  | .srv priority weight port target => fun state =>
    state |> put (toBe16 priority) |> put (toBe16 weight) |> put (toBe16 port)
      |> target.writePlain
  | .unknown _ data => put data

/-- Canonical rdata (RFC 4034 §6.2): names uncompressed. -/
def RData.encodeCanonical : RData → Writer Compressor
  | .ns target => target.writePlain
  | .cname target => target.writePlain
  | .ptr target => target.writePlain
  | .soa fields => fun state =>
    state |> fields.mname.writePlain |> fields.rname.writePlain |> fields.writeNumbers
  | .mx preference exchange => fun state =>
    state |> put (toBe16 preference) |> exchange.writePlain
  | .srv priority weight port target => fun state =>
    state |> put (toBe16 priority) |> put (toBe16 weight) |> put (toBe16 port)
      |> target.writePlain
  | other => fun state => ((other.encode (state.1, Compressor.default)).1, state.2)

/-- `out[at..at + n].copy_from_slice(octets)`. -/
def patch (out : Bytes) (position : Nat) (octets : Bytes) : Bytes :=
  out.take position ++ octets ++ out.drop (position + octets.length)

/-- A length placeholder, a body, and the length written back over the placeholder. -/
def writeSized (body : Writer Compressor) : Writer Compressor := fun state =>
  let lenAt := state.1.length
  let state := state |> put [0, 0] |> body
  let rdlen := UInt16.ofNat (state.1.length - lenAt - 2)
  (patch state.1 lenAt (toBe16 rdlen), state.2)

def Record.encode (record : Record) : Writer Compressor := fun state =>
  state |> record.name.write |> put (toBe16 record.rtype) |> put (toBe16 record.class_)
    |> put (toBe32 record.ttl) |> writeSized record.rdata.encode

/-- Canonical RR form (RFC 4034 §6.2) with `original_ttl` in place of the live TTL. -/
def Record.encodeCanonical (record : Record) (originalTtl : UInt32) : Writer Compressor :=
  fun state =>
    state |> record.name.writePlain |> put (toBe16 record.rtype) |> put (toBe16 record.class_)
      |> put (toBe32 originalTtl) |> writeSized record.rdata.encodeCanonical

def Question.encode (question : Question) : Writer Compressor := fun state =>
  state |> question.qname.write |> put (toBe16 question.qtype) |> put (toBe16 question.qclass)

def Edns.ttl (edns : Edns) : UInt32 :=
  edns.extRcode.toUInt32 <<< 24 ||| edns.version.toUInt32 <<< 16
    ||| (if edns.doBit then 0x8000 else 0)

def Edns.encode (edns : Edns) : Writer Compressor := fun state =>
  state |> put [0] |> put (toBe16 typeOpt) |> put (toBe16 edns.udpPayload)
    |> put (toBe32 edns.ttl) |> put (toBe16 (UInt16.ofNat edns.options.length))
    |> put edns.options

def Message.writeHeader (msg : Message) : Writer Compressor := fun state =>
  state |> put (toBe16 msg.id) |> put (toBe16 msg.flags.toU16)
    |> put (toBe16 (UInt16.ofNat msg.questions.length))
    |> put (toBe16 (UInt16.ofNat msg.answers.length))
    |> put (toBe16 (UInt16.ofNat msg.authorities.length))
    |> put (toBe16 (UInt16.ofNat (msg.additionals.length + if msg.edns.isSome then 1 else 0)))

def writeRecords (records : List Record) : Writer Compressor := fun state =>
  records.foldl (fun state record => record.encode state) state

def Message.encodeBody (msg : Message) : Writer Compressor := fun state =>
  let state := msg.writeHeader state
  let state := msg.questions.foldl (fun state question => question.encode state) state
  let state := writeRecords (msg.answers ++ msg.authorities ++ msg.additionals) state
  match msg.edns with
  | some edns => edns.encode state
  | none => state

def Message.encode (msg : Message) : Bytes := (msg.encodeBody ([], Compressor.default)).1

end Rdns.Proto
