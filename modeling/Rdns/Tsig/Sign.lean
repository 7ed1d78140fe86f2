import Rdns.Lib.Loops
import Rdns.Proto.NameText
import Rdns.Proto.Tsig

/-!
# Transaction signatures

Signing and verification of dns-tsig over an HMAC that is given.  The verifier
rebuilds the signed octets from the received ones: everything before the TSIG, with
the counter lowered again.
-/

set_option autoImplicit false

namespace Rdns.Tsig

open Rdns.Lib Rdns.Proto

/-- Seconds; also the default fudge. -/
def maxClockSkew : UInt64 := 300

inductive Algorithm
  | hmacSha256
  | hmacSha512
deriving DecidableEq

def Algorithm.wireName : Algorithm → String
  | .hmacSha256 => "hmac-sha256."
  | .hmacSha512 => "hmac-sha512."

def Algorithm.fromWireName (name : DnsName) : Option Algorithm :=
  let text := name.displayChars.map Char.toLower
  if text = Algorithm.hmacSha256.wireName.toList then some .hmacSha256
  else if text = Algorithm.hmacSha512.wireName.toList then some .hmacSha512
  else none

/-- `DnsName::parse_str(self.wire_name()).unwrap()`. -/
def Algorithm.name : Algorithm → DnsName
  | .hmacSha256 => ⟨[utf8 "hmac-sha256".toList], by decide⟩
  | .hmacSha512 => ⟨[utf8 "hmac-sha512".toList], by decide⟩

def Algorithm.digestLen : Algorithm → Nat
  | .hmacSha256 => 32
  | .hmacSha512 => 64

/-- The two HMACs of ring: tags of the length of the digest, and each tag verifies
under the secret and the data it was made with. -/
structure Hmac where
  sign : (algorithm : Algorithm) → (secret data : Bytes) → Bytes
  verify : (algorithm : Algorithm) → (secret data tag : Bytes) → Bool
  tagLen : ∀ algorithm secret data, (sign algorithm secret data).length = algorithm.digestLen
  accepts : ∀ algorithm secret data,
    verify algorithm secret data (sign algorithm secret data) = true

inductive TsigError
  | badKey
  | badSig
  | badTime
  | missing
deriving DecidableEq

/-! ## Keys -/

def isAsciiWhitespace (octet : UInt8) : Bool :=
  octet == 32 || octet == 9 || octet == 10 || octet == 12 || octet == 13

def base64Value (octet : UInt8) : Option UInt8 :=
  if 65 ≤ octet ∧ octet ≤ 90 then some (octet - 65)
  else if 97 ≤ octet ∧ octet ≤ 122 then some (octet - 97 + 26)
  else if 48 ≤ octet ∧ octet ≤ 57 then some (octet - 48 + 52)
  else if octet = 43 then some 62
  else if octet = 47 then some 63
  else none

/-- Up to four digits; a partial octet at the end is dropped. -/
def base64Chunk (chunk : Bytes) : Option Bytes := do
  let digits ← chunk.mapM base64Value
  let acc : UInt32 := digits.foldl (fun acc digit => (acc <<< 6) ||| digit.toUInt32) 0
  let bits := 6 * chunk.length
  let acc := acc >>> UInt32.ofNat (bits % 8)
  pure ((List.range (bits / 8)).reverse.map fun index => (acc >>> UInt32.ofNat (8 * index)).toUInt8)

def base64Decode (text : String) : Option Bytes :=
  let cleaned := (utf8 text.toList).filter fun octet => octet != 61 && !isAsciiWhitespace octet
  ((chunks 4 cleaned).mapM base64Chunk).map List.flatten

/-- The secret is private to dns-tsig, so a key comes from `TsigKey::new` and its name
from `parse_str`, which folds case. -/
structure TsigKey where
  name : DnsName
  algorithm : Algorithm
  secret : Bytes
  lowercase : name.Lowercase

def TsigKey.new (name : String) (algorithm : Algorithm) (secretB64 : String) :
    Except String TsigKey :=
  match parsed : DnsName.parseStr name with
  | .error error => .error ("bad key name: " ++ error.display)
  | .ok name =>
    match base64Decode secretB64 with
    | none => .error "secret is not valid base64"
    | some secret => .ok ⟨name, algorithm, secret, parseStr_lowercase parsed⟩

structure KeyRing where
  keys : HashMap DnsName TsigKey

def KeyRing.default : KeyRing := ⟨HashMap.empty⟩

def KeyRing.insert (ring : KeyRing) (key : TsigKey) : KeyRing := ⟨ring.keys.insert key.name key⟩

def KeyRing.get (ring : KeyRing) (name : DnsName) : Option TsigKey := ring.keys.get? name

def KeyRing.isEmpty (ring : KeyRing) : Bool := ring.keys.len == 0

theorem KeyRing.get_insert (ring : KeyRing) (key : TsigKey) :
    (ring.insert key).get key.name = some key := by
  rw [KeyRing.get, KeyRing.insert, HashMap.get?_insert, if_pos rfl]

/-! ## Signing -/

def digestInput (messageBytes : Bytes) (tsig : Proto.Tsig) (priorMac : Option Bytes) : Bytes :=
  (match priorMac with
    | some mac => toBe16 (UInt16.ofNat mac.length) ++ mac
    | none => []) ++ messageBytes ++ tsig.variables

def computeMac (hmac : Hmac) (key : TsigKey) (messageBytes : Bytes) (tsig : Proto.Tsig)
    (priorMac : Option Bytes) : Bytes :=
  hmac.sign key.algorithm key.secret (digestInput messageBytes tsig priorMac)

def makeTsig (key : TsigKey) (now : UInt64) (originalId error : UInt16) : Proto.Tsig where
  keyName := key.name
  algorithm := key.algorithm.name
  timeSigned := now
  fudge := maxClockSkew.toUInt16
  mac := []
  originalId := originalId
  error := error
  other := []

def signedTsig (hmac : Hmac) (msg : Message) (key : TsigKey) (priorMac : Option Bytes)
    (now : UInt64) : Proto.Tsig :=
  let tsig := makeTsig key now msg.id 0
  { tsig with mac := computeMac hmac key msg.encode tsig priorMac }

def signRequest (hmac : Hmac) (msg : Message) (key : TsigKey) (now : UInt64) : Bytes × Bytes :=
  let tsig := signedTsig hmac msg key none now
  (msg.encodeWithTsig tsig, tsig.mac)

def signResponse (hmac : Hmac) (msg : Message) (key : TsigKey) (requestMac : Bytes)
    (now : UInt64) : Bytes :=
  msg.encodeWithTsig (signedTsig hmac msg key (some requestMac) now)

/-! ## Verification -/

def absDiff (left right : UInt64) : UInt64 := if left < right then right - left else left - right

/-- The octets before the TSIG, with ARCOUNT lowered again. -/
def signedBody (raw : Bytes) (start : Nat) : Bytes :=
  let body := raw.take start
  let arcount := ofBe16 (body.getD 10 0) (body.getD 11 0) - 1
  patch body 10 (toBe16 arcount)

def verify (hmac : Hmac) (msg : Message) (raw : Bytes) (keyring : KeyRing) (now : UInt64)
    (priorMac : Option Bytes) : Except TsigError Bytes :=
  match msg.tsig, msg.tsigStart with
  | some tsig, some start =>
    match keyring.get tsig.keyName with
    | none => .error .badKey
    | some key =>
      if Algorithm.fromWireName tsig.algorithm ≠ some key.algorithm then .error .badKey
      else
        let data := digestInput (signedBody raw start) tsig priorMac
        if hmac.verify key.algorithm key.secret data tsig.mac = false then .error .badSig
        else if absDiff now tsig.timeSigned > tsig.fudge.toUInt64 then .error .badTime
        else .ok tsig.mac
  | _, _ => .error .missing

/-! ## What is signed verifies -/

theorem parseStr_wireName (algorithm : Algorithm) :
    DnsName.parseStr algorithm.wireName = .ok algorithm.name := by
  cases algorithm <;> rfl

theorem fromWireName_name (algorithm : Algorithm) :
    Algorithm.fromWireName algorithm.name = some algorithm := by
  cases algorithm <;> rfl

theorem signedTsig_regular (hmac : Hmac) (msg : Message) (key : TsigKey) (priorMac : Option Bytes)
    {now : UInt64} (small : now.toNat < 2 ^ 48) :
    (signedTsig hmac msg key priorMac now).Regular where
  keyName := key.lowercase
  algorithm := parseStr_lowercase (parseStr_wireName key.algorithm)
  timeSigned := small
  size := by
    have tag := hmac.tagLen key.algorithm key.secret
      (digestInput msg.encode (makeTsig key now msg.id 0) priorMac)
    have short : key.algorithm.digestLen ≤ 64 := by cases key.algorithm <;> decide
    simp only [signedTsig, computeMac, makeTsig, tag, List.length_nil] at tag ⊢
    omega

end Rdns.Tsig
