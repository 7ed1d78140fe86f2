import Rdns.Server.Truncation

/-!
# Which cookies are accepted

`CookieKey::verify` recomputes the hash over the client cookie, the address and the
timestamp, and looks at the age.  Two parts of a cookie stay unread: the three reserved
octets, which the hash leaves out, and the sign of the age, since the limit is applied to
timestamps in the past only.  The accepted cookies are those the server issued recently
exactly where neither matters.
-/

set_option autoImplicit false

namespace Rdns.Server

open Rdns.Lib Rdns.Proto Rdns.Resolver.Serve

inductive CookieStatus
  | absent
  | clientOnly
  | valid
  | stale
  | invalid
deriving DecidableEq

def cookieLifetime : UInt32 := 3600

namespace CookieKey

def stamp (cookie : Bytes) : UInt32 :=
  ofBe32 (cookie.getD 12 0) (cookie.getD 13 0) (cookie.getD 14 0) (cookie.getD 15 0)

/-- Client cookie, version, three reserved octets, timestamp and hash, 24 octets in all. -/
def verify (key : CookieKey) (cookie : Bytes) (ip : IpAddr) (now : UInt32) : CookieStatus :=
  if cookie.length = 0 then .absent
  else if cookie.length = 8 then .clientOnly
  else if cookie.length = 24 then
    if cookie.getD 8 0 ≠ version then .invalid
    else
      let ts := stamp cookie
      if cookie.drop 16 ≠ toBe64 (key.hash (cookie.take 8) ip ts) then .invalid
      else
        let age := now - ts
        if age > 2 * cookieLifetime ∧ ts ≤ now then .invalid
        else if age > cookieLifetime then .stale
        else .valid
  else .invalid

end CookieKey

/-- The challenge: extended rcode BADCOOKIE, which is 23, and a fresh cookie. -/
def badCookie (key : CookieKey) (cookie : Bytes) (query : Message) (ip : IpAddr) (now : UInt32) :
    Message :=
  let resp := Message.responseTo query
  let edns := { resp.edns.getD Edns.ours with extRcode := 1 }
  let edns := match CookieKey.clientCookie cookie with
    | some client => edns.setOption ednsCookie (key.build client ip now)
    | none => edns
  { resp with flags := { resp.flags with rcode := 7 }, edns := some edns }

def cookieChallenge (requireCookie : Bool) (cookieKey : Option CookieKey) (query : Message)
    (ip : IpAddr) (now : UInt32) : Option Message :=
  if !requireCookie then none
  else match cookieKey with
    | none => none
    | some key =>
      let cookie := (query.edns.bind fun edns => edns.getOption ednsCookie).getD []
      match key.verify cookie ip now with
      | .valid => none
      | .stale => none
      | _ => some (badCookie key cookie query ip now)

section Verify

variable (key : CookieKey) (cookie : Bytes) (ip : IpAddr) (now : UInt32)

def Issued (timestamp : UInt32) : Prop :=
  ∃ client, CookieKey.clientCookie cookie = some client ∧ cookie = key.build client ip timestamp

def IssuedWithin (seconds : Nat) : Prop :=
  ∃ timestamp, Issued key cookie ip timestamp ∧ (now - timestamp).toNat ≤ seconds

/-- What is accepted, and as what, is what was issued, and when. -/
structure AcceptsIssued : Prop where
  accepted : key.verify cookie ip now = .valid ∨ key.verify cookie ip now = .stale ↔
    IssuedWithin key cookie ip now 7200
  current : key.verify cookie ip now = .valid ↔ IssuedWithin key cookie ip now 3600
  refused : ¬ IssuedWithin key cookie ip now 7200 → key.verify cookie ip now = .invalid

structure Authentic : Prop where
  version : cookie.getD 8 0 = CookieKey.version
  hash : cookie.drop 16 = toBe64 (key.hash (cookie.take 8) ip (CookieKey.stamp cookie))

def reserved : Bytes := (cookie.drop 9).take 3

def cookieAge : Nat := (now - CookieKey.stamp cookie).toNat

variable {key cookie ip now}

theorem cookie_parts (whole : cookie.length = 24) :
    cookie = cookie.take 8 ++ ([cookie.getD 8 0] ++ (reserved cookie ++
      (toBe32 (CookieKey.stamp cookie) ++ cookie.drop 16))) := by
  have at_ : ∀ index, index < 24 →
      cookie.drop index = cookie.getD index 0 :: cookie.drop (index + 1) := by
    intro index inside
    rw [List.drop_eq_getElem_cons (by omega), List.getD_eq_getElem _ _ (by omega)]
  have unread : cookie.drop 9 = reserved cookie ++ cookie.drop 12 := by
    have split := List.take_append_drop 3 (cookie.drop 9)
    rw [List.drop_drop] at split
    exact split.symm
  have stamped : cookie.drop 12 = toBe32 (CookieKey.stamp cookie) ++ cookie.drop 16 := by
    rw [CookieKey.stamp, toBe32_ofBe32, at_ 12 (by omega), at_ 13 (by omega), at_ 14 (by omega),
      at_ 15 (by omega)]
    rfl
  have rest : cookie.drop 8 = [cookie.getD 8 0] ++ (reserved cookie ++
      (toBe32 (CookieKey.stamp cookie) ++ cookie.drop 16)) := by
    rw [at_ 8 (by omega), unread, stamped]
    rfl
  rw [← rest, List.take_append_drop]

theorem clientCookie_eq (whole : cookie.length = 24) :
    ∃ client, CookieKey.clientCookie cookie = some client ∧ client.toList = cookie.take 8 := by
  have found : slice cookie 0 8 = some (cookie.take 8) := by
    unfold slice
    rw [if_pos (by omega), List.drop_zero]
  unfold CookieKey.clientCookie
  split
  · rename_i missing
    rw [found] at missing
    cases missing
  · rename_i octets present
    rw [found] at present
    cases present
    exact ⟨_, rfl, rfl⟩

theorem issued_iff (whole : cookie.length = 24) (timestamp : UInt32) :
    Issued key cookie ip timestamp ↔ Authentic key cookie ip ∧ reserved cookie = [0, 0, 0] ∧
      timestamp = CookieKey.stamp cookie := by
  obtain ⟨client, found, octets⟩ := clientCookie_eq whole
  have built : key.build client ip timestamp = cookie.take 8 ++ ([CookieKey.version] ++
      ([0, 0, 0] ++ (toBe32 timestamp ++ toBe64 (key.hash (cookie.take 8) ip timestamp)))) := by
    simp only [CookieKey.build, octets, List.append_assoc]
  constructor
  · rintro ⟨other, found', same⟩
    rw [found] at found'
    cases found'
    -- equal octets, part by part
    rw [built] at same
    have parts := (cookie_parts whole).symm.trans same
    obtain ⟨_, parts⟩ := List.append_inj parts rfl
    obtain ⟨version, parts⟩ := List.append_inj parts rfl
    have three : (reserved cookie).length = 3 := by
      rw [reserved, List.length_take, List.length_drop, whole]
      rfl
    obtain ⟨zero, parts⟩ := List.append_inj parts three
    obtain ⟨stamped, hash⟩ := List.append_inj parts rfl
    have now := toBe32_injective stamped
    rw [← now] at hash
    exact ⟨⟨List.singleton_inj.mp version, hash⟩, zero, now.symm⟩
  · rintro ⟨authentic, zero, rfl⟩
    refine ⟨client, found, ?_⟩
    have parts := cookie_parts whole
    rw [authentic.version, zero, authentic.hash] at parts
    rw [built]
    exact parts

theorem issuedWithin_iff (whole : cookie.length = 24) (seconds : Nat) :
    IssuedWithin key cookie ip now seconds ↔ Authentic key cookie ip ∧
      reserved cookie = [0, 0, 0] ∧ cookieAge cookie now ≤ seconds := by
  constructor
  · rintro ⟨timestamp, issued, recent⟩
    obtain ⟨authentic, zero, rfl⟩ := (issued_iff whole timestamp).mp issued
    exact ⟨authentic, zero, recent⟩
  · rintro ⟨authentic, zero, recent⟩
    exact ⟨CookieKey.stamp cookie, (issued_iff whole _).mpr ⟨authentic, zero, rfl⟩, recent⟩

/-! ## The decision -/

theorem verify_of_not_authentic (whole : cookie.length = 24)
    (forged : ¬ Authentic key cookie ip) : key.verify cookie ip now = .invalid := by
  unfold CookieKey.verify
  rw [if_neg (by omega), if_neg (by omega), if_pos whole]
  by_cases version : cookie.getD 8 0 = CookieKey.version
  · rw [if_neg (not_not.mpr version)]
    exact if_pos fun hash => forged ⟨version, hash⟩
  · rw [if_pos version]

/-- The age of an authentic cookie decides, where the timestamp is not after `now`. -/
theorem verify_of_authentic (whole : cookie.length = 24) (authentic : Authentic key cookie ip) :
    key.verify cookie ip now =
      if 7200 < cookieAge cookie now ∧ CookieKey.stamp cookie ≤ now then .invalid
      else if 3600 < cookieAge cookie now then .stale else .valid := by
  unfold CookieKey.verify
  rw [if_neg (by omega), if_neg (by omega), if_pos whole,
    if_neg (not_not.mpr authentic.version)]
  dsimp only
  rw [if_neg (not_not.mpr authentic.hash)]
  rfl

theorem acceptsIssued_of_invalid (refused : key.verify cookie ip now = .invalid)
    (unissued : ¬ IssuedWithin key cookie ip now 7200) : AcceptsIssued key cookie ip now := by
  have never : ¬ IssuedWithin key cookie ip now 3600 := by
    rintro ⟨timestamp, issued, recent⟩
    exact unissued ⟨timestamp, issued, by omega⟩
  refine ⟨iff_of_false ?_ unissued, iff_of_false ?_ never, fun _ => refused⟩
  · rw [refused]
    decide
  · rw [refused]
    decide

/-- The cookies accepted are those issued recently exactly where an authentic one has zeros
in its reserved octets and is recent, or is old and not from the future. -/
theorem acceptsIssued_iff (whole : cookie.length = 24) :
    AcceptsIssued key cookie ip now ↔ (Authentic key cookie ip →
      reserved cookie = [0, 0, 0] ∧ cookieAge cookie now ≤ 7200 ∨
        7200 < cookieAge cookie now ∧ CookieKey.stamp cookie ≤ now) := by
  constructor
  · intro accepts authentic
    by_cases old : 7200 < cookieAge cookie now ∧ CookieKey.stamp cookie ≤ now
    · exact Or.inr old
    have verdict : key.verify cookie ip now =
        if 3600 < cookieAge cookie now then .stale else .valid := by
      rw [verify_of_authentic whole authentic, if_neg old]
    have accepted : key.verify cookie ip now = .valid ∨ key.verify cookie ip now = .stale := by
      rw [verdict]
      split
      · exact Or.inr rfl
      · exact Or.inl rfl
    obtain ⟨_, zero, recent⟩ := (issuedWithin_iff whole 7200).mp (accepts.accepted.mp accepted)
    exact Or.inl ⟨zero, recent⟩
  · intro sound
    by_cases authentic : Authentic key cookie ip
    · rcases sound authentic with ⟨zero, recent⟩ | old
      · have verdict : key.verify cookie ip now =
            if 3600 < cookieAge cookie now then .stale else .valid := by
          rw [verify_of_authentic whole authentic, if_neg (by omega)]
        have issued := (issuedWithin_iff whole 7200).mpr ⟨authentic, zero, recent⟩
        refine ⟨iff_of_true ?_ issued, ?_, fun unissued => absurd issued unissued⟩
        · rw [verdict]
          split
          · exact Or.inr rfl
          · exact Or.inl rfl
        · rw [verdict, issuedWithin_iff whole 3600]
          split
          · rename_i late
            exact iff_of_false (fun same => by cases same) fun within => by omega
          · rename_i early
            exact iff_of_true rfl ⟨authentic, zero, by omega⟩
      · have refused : key.verify cookie ip now = .invalid := by
          rw [verify_of_authentic whole authentic, if_pos old]
        refine acceptsIssued_of_invalid refused fun issued => ?_
        have recent := ((issuedWithin_iff whole 7200).mp issued).2.2
        omega
    · exact acceptsIssued_of_invalid (verify_of_not_authentic whole authentic)
        fun issued => authentic ((issuedWithin_iff whole 7200).mp issued).1

end Verify

def zeroKey : CookieKey := ⟨fun _ _ _ => 0⟩

def sampleCookie (unread : UInt8) (timestamp : UInt32) : Bytes :=
  [1, 2, 3, 4, 5, 6, 7, 8, 1, unread, 0, 0] ++ toBe32 timestamp ++ [0, 0, 0, 0, 0, 0, 0, 0]

theorem acceptsIssued_sample :
    AcceptsIssued zeroKey (sampleCookie 0 1000) loopback 1005 ∧
      zeroKey.verify (sampleCookie 0 1000) loopback 1005 = .valid :=
  ⟨(acceptsIssued_iff rfl).mpr fun _ => Or.inl (by decide), by decide⟩

/-- A timestamp one second ahead is stale, and reserved octets may be anything. -/
theorem sampleCookie_unissued :
    zeroKey.verify (sampleCookie 0 1001) loopback 1000 = .stale ∧
      ¬ IssuedWithin zeroKey (sampleCookie 0 1001) loopback 1000 7200 ∧
      zeroKey.verify (sampleCookie 255 1000) loopback 1000 = .valid ∧
      ∀ timestamp, ¬ Issued zeroKey (sampleCookie 255 1000) loopback timestamp := by
  refine ⟨by decide, ?_, by decide, ?_⟩
  · intro issued
    exact absurd ((issuedWithin_iff rfl 7200).mp issued).2.2 (by decide)
  · intro timestamp issued
    exact absurd ((issued_iff rfl timestamp).mp issued).2.1 (by decide)

/-- A query goes on exactly where cookies are not enforced or its own is accepted. -/
theorem cookieChallenge_eq_none_iff (requireCookie : Bool) (cookieKey : Option CookieKey)
    (query : Message) (ip : IpAddr) (now : UInt32) :
    cookieChallenge requireCookie cookieKey query ip now = none ↔
      (requireCookie = true → ∀ key, cookieKey = some key → ∃ cookie,
        (query.edns.bind fun edns => edns.getOption ednsCookie) = some cookie ∧
          (key.verify cookie ip now = .valid ∨ key.verify cookie ip now = .stale)) := by
  have empty : ∀ key : CookieKey, key.verify [] ip now = .absent := fun _ => rfl
  unfold cookieChallenge
  cases requireCookie with
  | false => exact iff_of_true rfl fun enforced => by cases enforced
  | true =>
    cases cookieKey with
    | none => exact iff_of_true rfl fun _ key held => by cases held
    | some key =>
      rw [if_neg (by decide)]
      dsimp only
      cases sent : query.edns.bind fun edns => edns.getOption ednsCookie with
      | none =>
        rw [Option.getD_none, empty]
        refine iff_of_false (fun answered => by cases answered) fun accepted => ?_
        obtain ⟨cookie, found, _⟩ := accepted rfl key rfl
        cases found
      | some cookie =>
        rw [Option.getD_some]
        constructor
        · intro answered _ other held
          cases held
          refine ⟨cookie, rfl, ?_⟩
          split at answered
          · rename_i valid
            exact Or.inl valid
          · rename_i stale
            exact Or.inr stale
          · cases answered
        · intro accepted
          obtain ⟨_, found, valid | stale⟩ := accepted rfl key rfl
          · cases found
            rw [valid]
          · cases found
            rw [stale]

end Rdns.Server
