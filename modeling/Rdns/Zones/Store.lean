import Rdns.Zones.Text
import Rdns.Lib.HashMap

/-!
# The zone store

`Zone` of dns-zone and the operations that change it.  The SOA lives twice, in
the field `soa` and among the records of the origin.  Methods on `&mut self`
return the zone as they leave it, also where they fail.
-/

set_option autoImplicit false

namespace Rdns.Zones

open Rdns.Lib Rdns.Proto

abbrev Records := HashMap DnsName (List Record)

structure Zone where
  origin : DnsName
  soa : Record
  recordCount : Nat
  records : Records

namespace Zone

def node (zone : Zone) (name : DnsName) : List Record := (zone.records.get? name).getD []

def outside (name origin : DnsName) : String :=
  name.display ++ " is outside zone " ++ origin.display

def collect (origin : DnsName) :
    List Record → Option Record → Records → Nat → Except String (Option Record × Records × Nat)
  | [], soa, records, count => .ok (soa, records, count)
  | record :: rest, soa, records, count =>
    if !record.name.endsWith origin then .error (outside record.name origin)
    else if record.rtype = typeSoa ∧ record.name ≠ origin then
      .error "SOA owner must be the zone origin"
    else if record.rtype = typeSoa ∧ soa.isSome then .error "duplicate SOA record"
    else collect origin rest (if record.rtype = typeSoa then some record else soa)
      (records.upsert record.name (· ++ [record])) (count + 1)

/-- Every owner is at or below the origin, and exactly one SOA is owned by it. -/
def fromRecords (origin : DnsName) (all : List Record) : Except String Zone :=
  match collect origin all none HashMap.empty 0 with
  | .error e => .error e
  | .ok (none, _, _) => .error "zone has no SOA record"
  | .ok (some soa, records, count) => .ok { origin, soa, recordCount := count, records }

def recount (zone : Zone) : Zone :=
  { zone with recordCount := (zone.records.values.map List.length).sum }

/-! ## The management API -/

/-- The SOA rules of `replace_rrset`; the field is set before the node is looked at. -/
def replaceSoa (zone : Zone) (name : DnsName) (code : UInt16) (fresh : List Record) :
    Except String Zone :=
  if code ≠ typeSoa then .ok zone
  else if name ≠ zone.origin then .error "SOA owner must be the zone origin"
  else match fresh with
    | [record] => .ok { zone with soa := record }
    | _ => .error "SOA rrset must contain exactly one record"

/-- The rest of `replace_rrset`: CNAME exclusivity, then the change of the node. -/
def replaceNode (zone : Zone) (name : DnsName) (code : UInt16) (fresh : List Record) :
    Fallible String Unit × Zone :=
  let zone := { zone with records := zone.records.upsert name id }
  let node := zone.node name
  if code = typeCname ∧ node.any (fun record => record.rtype ≠ code) then
    (.error (.failed (name.display ++ " already has non-CNAME records")), zone)
  else if code ≠ typeCname ∧ node.any (fun record => record.rtype = typeCname) then
    (.error (.failed (name.display ++ " is a CNAME; delete it first")), zone)
  else if 1 < fresh.length ∧ code = typeCname then
    (.error (.failed "CNAME rrset must contain exactly one record"), zone)
  else
    let kept := node.filter fun record => record.rtype ≠ code
    (.ok (), { zone with records := zone.records.insert name (kept ++ fresh) }.recount)

def replaceRrset (zone : Zone) (name : DnsName) (rtype : String) (ttl : UInt32)
    (contents : List String) : Fallible String Unit × Zone :=
  match typeCode rtype with
  | none => (.error (.failed ("unsupported type '" ++ rtype ++ "'")), zone)
  | some code =>
    if !name.endsWith zone.origin then (.error (.failed (outside name zone.origin)), zone)
    else if contents.isEmpty then
      (.error (.failed "empty contents; use changetype DELETE to remove an rrset"), zone)
    else match contents.mapM (fun content => rdataFromText rtype content zone.origin) with
      | .error e => (.error e, zone)
      | .ok data =>
        let fresh := data.map fun rdata => { name, class_ := classIn, ttl, rdata : Record }
        match zone.replaceSoa name code fresh with
        | .error e => (.error (.failed e), zone)
        | .ok zone => zone.replaceNode name code fresh

def deleteRrset (zone : Zone) (name : DnsName) (rtype : String) : Except String Unit × Zone :=
  match typeCode rtype with
  | none => (.error ("unsupported type '" ++ rtype ++ "'"), zone)
  | some code =>
    if code = typeSoa then (.error "cannot delete the SOA; delete the zone instead", zone)
    else
      let records := match zone.records.get? name with
        | none => zone.records
        | some node =>
          let kept := node.filter fun record => record.rtype ≠ code
          if kept.isEmpty then zone.records.remove name else zone.records.insert name kept
      (.ok (), { zone with records }.recount)

def bumpSerial (zone : Zone) : Zone :=
  match zone.soa.rdata with
  | .soa soa =>
    let fresh := { zone.soa with rdata := .soa { soa with serial := soa.serial + 1 } }
    { zone with
      soa := fresh
      records := zone.records.modify zone.origin fun node =>
        node.map fun record => if record.rtype = typeSoa then fresh else record }
  | _ => zone

/-- Every record with the SOA first, the AXFR payload order. -/
def allRecords (zone : Zone) : List Record :=
  zone.soa :: zone.records.values.flatMap fun node =>
    node.filter fun record => record.rtype ≠ typeSoa

/-! ## Dynamic updates -/

/-- One prerequisite of RFC 2136 §3.2: none when it holds, else the rcode. -/
def checkPrereq (zone : Zone) (prereq : Record) : Option UInt8 :=
  if !prereq.name.endsWith zone.origin then some rcodeNotauth
  else
    let existsName := zone.records.containsKey prereq.name
    let existsType := (zone.node prereq.name).any fun record => record.rtype = prereq.rtype
    if prereq.class_ = classAny then
      if prereq.rtype ≠ typeAny then if existsType then none else some rcodeNxrrset
      else if existsName then none else some rcodeNxdomain
    else if prereq.class_ = classNone then
      if prereq.rtype ≠ typeAny then if existsType then some rcodeYxrrset else none
      else if existsName then some rcodeYxdomain else none
    else if prereq.class_ = classIn then
      if (zone.node prereq.name).any
          (fun record => record.rtype = prereq.rtype ∧ record.rdata = prereq.rdata) then none
      else some rcodeNxrrset
    else some rcodeFormerr

def sameRr (update record : Record) : Bool :=
  decide (record.rtype = update.rtype ∧ record.rdata = update.rdata)

def refreshTtl (update : Record) : List Record → List Record
  | [] => []
  | record :: rest =>
    if sameRr update record then { record with ttl := update.ttl } :: rest
    else record :: refreshTtl update rest

def addRr (records : Records) (update : Record) : Records :=
  records.upsert update.name fun node =>
    if node.any (sameRr update) then refreshTtl update node else node ++ [update]

def deleteSet (origin : DnsName) (records : Records) (update : Record) : Records :=
  if update.rtype = typeAny then
    if update.name = origin then
      records.modify update.name fun node =>
        node.filter fun record => record.rtype = typeSoa ∨ record.rtype = typeNs
    else records.remove update.name
  else
    records.modify update.name fun node =>
      if update.name = origin ∧ update.rtype = typeSoa then node
      else node.filter fun record => record.rtype ≠ update.rtype

def deleteRr (records : Records) (update : Record) : Records :=
  records.modify update.name fun node => node.filter fun record => !sameRr update record

/-- One update record of RFC 2136 §3.4; none is a class that has no meaning. -/
def updateOne (zone : Zone) (update : Record) : Option Zone :=
  let change :=
    if update.class_ = classIn then some (addRr zone.records update)
    else if update.class_ = classAny then some (deleteSet zone.origin zone.records update)
    else if update.class_ = classNone then some (deleteRr zone.records update)
    else none
  change.map fun records => { zone with records := records.retain fun _ node => !node.isEmpty }

/-- The update loop; a bad class stops it with the earlier records applied. -/
def updateAll : Zone → List Record → UInt8 × Zone
  | zone, [] => (rcodeNoerror, zone.recount)
  | zone, update :: rest =>
    match zone.updateOne update with
    | none => (rcodeFormerr, zone)
    | some zone => updateAll zone rest

def applyUpdate (zone : Zone) (prereqs updates : List Record) : UInt8 × Zone :=
  match prereqs.findSome? zone.checkPrereq with
  | some rcode => (rcode, zone)
  | none =>
    if updates.any fun update => !update.name.endsWith zone.origin then (rcodeNotauth, zone)
    else zone.updateAll updates

end Zone

end Rdns.Zones
