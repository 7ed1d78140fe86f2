import Rdns.Dnssec.NsecDenial
import Rdns.Dnssec.Nsec3Chain

/-!
# Windows of a type bitmap

RFC 4034 §4.1.2 cuts the type codes into windows of 256, each written with its number,
its length of at most 32 octets and its octets.  `nsec_rdata` and `nsec3_rdata` write one
window 0 for all types, its length in one octet.  The bits of the octets are weighed: a
set of types has one weight, whatever windows it is written in, and the number and the
length of a further window would add to it.  So what the writers emit is a sequence of
windows with the right types exactly where no type is beyond the first window.
-/

set_option autoImplicit false

namespace Rdns.Dnssec

open Rdns.Lib Rdns.Proto Rdns.Resolver

/-! ## Bits and their weight -/

def setBits (octet : UInt8) : List Nat :=
  (List.range 8).filter fun bit => octet &&& (0x80 >>> UInt8.ofNat bit) ≠ 0

def positions : Nat → Bytes → List Nat
  | _, [] => []
  | start, octet :: rest => (setBits octet).map (start * 8 + ·) ++ positions (start + 1) rest

def bitWeight (position : Nat) : Nat := 2 ^ (7 - position % 8)

def octetSum (octets : Bytes) : Nat := (octets.map UInt8.toNat).sum

theorem setBits_lt {octet : UInt8} {bit : Nat} (member : bit ∈ setBits octet) : bit < 8 :=
  List.mem_range.mp (List.mem_filter.mp member).1

theorem setBits_weight (octet : UInt8) : ((setBits octet).map bitWeight).sum = octet.toNat := by
  have values : ∀ value < 256, ((setBits (UInt8.ofNat value)).map bitWeight).sum = value := by
    decide +kernel
  have checked := values octet.toNat octet.toNat_lt
  rwa [UInt8.ofNat_toNat] at checked

theorem positions_bounds (octets : Bytes) :
    ∀ start, ∀ position ∈ positions start octets,
      start * 8 ≤ position ∧ position < (start + octets.length) * 8 := by
  induction octets with
  | nil => intro start position member; cases member
  | cons octet rest ih =>
    intro start position member
    rw [List.length_cons]
    rcases List.mem_append.mp member with here | later
    · obtain ⟨bit, set, rfl⟩ := List.mem_map.mp here
      have small := setBits_lt set
      omega
    · have bounds := ih (start + 1) position later
      omega

theorem positions_sorted (octets : Bytes) : ∀ start, (positions start octets).Pairwise (· < ·) := by
  induction octets with
  | nil => exact fun _ => List.Pairwise.nil
  | cons octet rest ih =>
    intro start
    refine List.pairwise_append.mpr ⟨?_, ih (start + 1), fun first here second later => ?_⟩
    · have increasing := (List.pairwise_lt_range (n := 8)).filter
        fun bit => octet &&& (0x80 >>> UInt8.ofNat bit) ≠ 0
      exact List.pairwise_map.mpr (increasing.imp fun less => by omega)
    · obtain ⟨bit, set, rfl⟩ := List.mem_map.mp here
      have small := setBits_lt set
      have bounds := positions_bounds rest (start + 1) second later
      omega

theorem positions_weight (octets : Bytes) :
    ∀ start, ((positions start octets).map bitWeight).sum = octetSum octets := by
  induction octets with
  | nil => exact fun _ => rfl
  | cons octet rest ih =>
    intro start
    have here : ((setBits octet).map (start * 8 + ·)).map bitWeight =
        (setBits octet).map bitWeight := by
      rw [List.map_map]
      refine List.map_congr_left fun bit _ => ?_
      have remainder : (start * 8 + bit) % 8 = bit % 8 := by omega
      rw [Function.comp_apply, bitWeight, bitWeight, remainder]
    rw [positions, List.map_append, List.sum_append, here, setBits_weight, ih, octetSum, octetSum,
      List.map_cons, List.sum_cons]

theorem mem_positions (octets : Bytes) :
    ∀ start index bit, bit < 8 →
      ((start + index) * 8 + bit ∈ positions start octets ↔ BitSet octets index bit) := by
  induction octets with
  | nil =>
    intro start index bit _
    simp [positions, BitSet]
  | cons octet rest ih =>
    intro start index bit small
    rw [positions, List.mem_append, List.mem_map]
    cases index with
    | zero =>
      have late : (start + 0) * 8 + bit ∉ positions (start + 1) rest := by
        intro member
        have bounds := positions_bounds rest (start + 1) _ member
        omega
      rw [or_iff_left late]
      constructor
      · rintro ⟨other, set, same⟩
        obtain rfl : other = bit := by omega
        have value := (List.mem_filter.mp set).2
        rw [decide_eq_true_iff] at value
        exact value
      · intro set
        exact ⟨bit, List.mem_filter.mpr ⟨List.mem_range.mpr small, decide_eq_true set⟩, rfl⟩
    | succ index =>
      have early : ¬ ∃ other ∈ setBits octet,
          start * 8 + other = (start + (index + 1)) * 8 + bit := by
        rintro ⟨other, set, same⟩
        have tight := setBits_lt set
        omega
      have shifted : (start + (index + 1)) * 8 + bit = (start + 1 + index) * 8 + bit := by omega
      rw [or_iff_right early, shifted, ih (start + 1) index bit small]
      rfl

theorem mem_positions_typeBitmap (types : List UInt16) (position : Nat) :
    position ∈ positions 0 (typeBitmap types) ↔ ∃ rtype ∈ types, rtype.toNat = position := by
  have small : position % 8 < 8 := Nat.mod_lt _ (by omega)
  have split : (0 + position / 8) * 8 + position % 8 = position := by omega
  have bits := (mem_positions (typeBitmap types) 0 (position / 8) (position % 8) small).trans
    (typeBitmap_bits types (position / 8) (position % 8) small)
  rw [split] at bits
  rw [bits]
  refine exists_congr fun rtype => and_congr_right fun _ => ?_
  omega

/-! ## Windows -/

structure Window where
  number : UInt8
  octets : Bytes
  filled : 1 ≤ octets.length
  small : octets.length ≤ 32

def Window.encode (window : Window) : Bytes :=
  window.number :: UInt8.ofNat window.octets.length :: window.octets

def Window.codes (window : Window) : List Nat :=
  (positions 0 window.octets).map (window.number.toNat * 256 + ·)

def WellFormed (bitmap : Bytes) : Prop :=
  ∃ windows : List Window, windows.Pairwise (fun first second => first.number < second.number) ∧
    bitmap = windows.flatMap Window.encode

theorem Window.codes_bounds {window : Window} {code : Nat} (member : code ∈ window.codes) :
    window.number.toNat * 256 ≤ code ∧ code < (window.number.toNat + 1) * 256 := by
  obtain ⟨position, inside, rfl⟩ := List.mem_map.mp member
  have bounds := positions_bounds window.octets 0 position inside
  have small := window.small
  omega

theorem codes_sorted {windows : List Window}
    (increasing : windows.Pairwise fun first second => first.number < second.number) :
    (windows.flatMap Window.codes).Pairwise (· < ·) := by
  induction windows with
  | nil => exact List.Pairwise.nil
  | cons window rest ih =>
    obtain ⟨before, later⟩ := List.pairwise_cons.mp increasing
    refine List.pairwise_append.mpr ⟨?_, ih later, fun first here second there => ?_⟩
    · exact List.pairwise_map.mpr ((positions_sorted window.octets 0).imp fun less => by omega)
    · obtain ⟨other, among, listed⟩ := List.mem_flatMap.mp there
      have bounds := Window.codes_bounds here
      have bounds' := Window.codes_bounds listed
      have less : window.number.toNat < other.number.toNat :=
        UInt8.lt_iff_toNat_lt.mp (before other among)
      omega

theorem codes_weight (windows : List Window) :
    ((windows.flatMap Window.codes).map bitWeight).sum =
      (windows.map fun window => octetSum window.octets).sum := by
  induction windows with
  | nil => rfl
  | cons window rest ih =>
    have here : window.codes.map bitWeight = (positions 0 window.octets).map bitWeight := by
      rw [Window.codes, List.map_map]
      refine List.map_congr_left fun position _ => ?_
      have remainder : (window.number.toNat * 256 + position) % 8 = position % 8 := by omega
      rw [Function.comp_apply, bitWeight, bitWeight, remainder]
    rw [List.flatMap_cons, List.map_append, List.sum_append, here, positions_weight, ih,
      List.map_cons, List.sum_cons]

theorem octetSum_encode (windows : List Window) :
    (windows.map fun window => octetSum window.octets).sum + windows.length ≤
      octetSum (windows.flatMap Window.encode) := by
  induction windows with
  | nil => exact le_rfl
  | cons window rest ih =>
    have filled := window.filled
    have small := window.small
    have length : (UInt8.ofNat window.octets.length).toNat = window.octets.length := by
      rw [UInt8.toNat_ofNat']
      omega
    rw [octetSum] at ih ⊢
    simp only [List.flatMap_cons, Window.encode, List.cons_append, List.map_cons, List.map_append,
      List.sum_cons, List.sum_append, List.length_cons, length]
    simp only [octetSum] at ih ⊢
    omega

/-! ## Reading -/

theorem zipIdx_octetTypes (window : UInt8) (octets : Bytes) :
    ∀ start, ((octets.zipIdx start).flatMap fun entry =>
        octetTypes window.toUInt16 entry.2 entry.1) =
      (positions start octets).map fun position =>
        UInt16.ofNat (window.toNat * 256 + position) := by
  induction octets with
  | nil => exact fun _ => rfl
  | cons octet rest ih =>
    intro start
    have here : octetTypes window.toUInt16 start octet =
        ((setBits octet).map (start * 8 + ·)).map fun position =>
          UInt16.ofNat (window.toNat * 256 + position) := by
      rw [List.map_map]
      refine List.map_congr_left fun bit _ => ?_
      have number : window.toUInt16 = UInt16.ofNat window.toNat := by
        apply UInt16.toNat_inj.mp
        have bound := window.toNat_lt
        rw [UInt8.toNat_toUInt16, UInt16.toNat_ofNat']
        omega
      rw [Function.comp_apply, number, ← Nat.add_assoc, UInt16.ofNat_add, UInt16.ofNat_add,
        UInt16.ofNat_mul, UInt16.ofNat_mul]
      rfl
    rw [List.zipIdx_cons, List.flatMap_cons, ih, positions, List.map_append, here]

theorem bitmapLoop_windows (windows : List Window) :
    ∀ fuel, windows.length ≤ fuel → bitmapLoop fuel (windows.flatMap Window.encode) =
      (windows.flatMap Window.codes).map UInt16.ofNat := by
  induction windows with
  | nil =>
    intro fuel _
    cases fuel <;> rfl
  | cons window rest ih =>
    intro fuel enough
    cases fuel with
    | zero => cases enough
    | succ fuel =>
      have small := window.small
      have length : (UInt8.ofNat window.octets.length).toNat = window.octets.length := by
        rw [UInt8.toNat_ofNat']
        omega
      rw [List.flatMap_cons, Window.encode, List.cons_append, List.cons_append, bitmapLoop,
        length, if_neg (by simp), List.take_left, List.drop_left, zipIdx_octetTypes,
        ih fuel (Nat.le_of_succ_le_succ enough), List.flatMap_cons, List.map_append,
        Window.codes, List.map_map]
      rfl

theorem parseTypeBitmap_windows (windows : List Window) :
    parseTypeBitmap (windows.flatMap Window.encode) =
      (windows.flatMap Window.codes).map UInt16.ofNat := by
  refine bitmapLoop_windows windows _ ?_
  induction windows with
  | nil => exact le_rfl
  | cons window rest ih =>
    rw [List.flatMap_cons, List.length_append, List.length_cons, Window.encode, List.length_cons]
    omega

/-! ## What the writers emit -/

def Inverts (types read : List UInt16) : Prop := ∀ rtype, rtype ∈ read ↔ rtype ∈ types

theorem wellFormed_of_small {types : List UInt16} (small : ∀ rtype ∈ types, rtype.toNat < 256) :
    WellFormed (bitmapField types) := by
  have top := foldl_max_lt (by omega) small
  have length := typeBitmap_length types
  exact ⟨[⟨0, typeBitmap types, by omega, by omega⟩], List.pairwise_singleton _ _,
    (List.append_nil _).symm⟩

/-- The weight of the types leaves no room for a second window. -/
theorem small_of_wellFormed {types : List UInt16} (formed : WellFormed (bitmapField types))
    (inverts : Inverts types (parseTypeBitmap (bitmapField types))) :
    ∀ rtype ∈ types, rtype.toNat < 256 := by
  obtain ⟨windows, increasing, written⟩ := formed
  rw [written, parseTypeBitmap_windows] at inverts
  have within : ∀ code ∈ windows.flatMap Window.codes, code < 65536 := by
    intro code member
    obtain ⟨window, _, listed⟩ := List.mem_flatMap.mp member
    have bounds := Window.codes_bounds listed
    have bound := window.number.toNat_lt
    omega
  have same : ∀ code, code ∈ positions 0 (typeBitmap types) ↔
      code ∈ windows.flatMap Window.codes := by
    intro code
    rw [mem_positions_typeBitmap]
    constructor
    · rintro ⟨rtype, member, rfl⟩
      obtain ⟨code, listed, back⟩ := List.mem_map.mp ((inverts rtype).mpr member)
      have exact : rtype.toNat = code := by
        rw [← back, UInt16.toNat_ofNat', Nat.mod_eq_of_lt (within code listed)]
      rwa [exact]
    · intro listed
      refine ⟨UInt16.ofNat code, (inverts _).mp (List.mem_map_of_mem listed), ?_⟩
      rw [UInt16.toNat_ofNat', Nat.mod_eq_of_lt (within code listed)]
  have perm := (List.perm_ext_iff_of_nodup ((positions_sorted _ 0).imp Nat.ne_of_lt)
    ((codes_sorted increasing).imp Nat.ne_of_lt)).mpr same
  have weights := (perm.map bitWeight).sum_nat
  rw [positions_weight, codes_weight] at weights
  cases windows with
  | nil => cases written
  | cons first rest =>
    rw [List.flatMap_cons, Window.encode, bitmapField, List.cons_append, List.cons_append,
      List.cons.injEq, List.cons.injEq] at written
    obtain ⟨_, _, octets⟩ := written
    have more := octetSum_encode rest
    have total : octetSum (typeBitmap types) =
        octetSum first.octets + octetSum (rest.flatMap Window.encode) := by
      rw [octets, octetSum, List.map_append, List.sum_append]
      rfl
    rw [List.map_cons, List.sum_cons] at weights
    have none : rest = [] := List.length_eq_zero_iff.mp (by omega)
    rw [none, List.flatMap_nil, List.append_nil] at octets
    have length := typeBitmap_length types
    have short := first.small
    rw [octets] at length
    intro rtype member
    have bound := UInt16.le_iff_toNat_le.mp ((le_foldl_max types 0).2 rtype member)
    omega

/-- What the writers emit is well formed and inverts exactly for the types of window 0. -/
theorem bitmap_iff (types : List UInt16) :
    WellFormed (bitmapField types) ∧ Inverts types (parseTypeBitmap (bitmapField types)) ↔
      ∀ rtype ∈ types, rtype.toNat < 256 := by
  constructor
  · rintro ⟨formed, inverts⟩
    exact small_of_wellFormed formed inverts
  · intro small
    exact ⟨wellFormed_of_small small, mem_parseTypeBitmap fun rtype member => by
      have bound := small rtype member
      omega⟩

def NsecInverts (next : DnsName) (types : List UInt16) : Prop :=
  WellFormed (bitmapField types) ∧
    ∃ read, parseNsec (nsecRdata next types) = some (next, read) ∧ Inverts types read

def Nsec3Inverts (params : Nsec3Params) (nextHash : Bytes) (types : List UInt16) : Prop :=
  WellFormed (bitmapField types) ∧
    ∃ read, parseNsec3 (nsec3Rdata params nextHash types) = some (params, nextHash, read) ∧
      Inverts types read

theorem lower_eq_iff (name : DnsName) : name.lower = name ↔ name.Lowercase :=
  ⟨fun same => congrArg DnsName.labels same, DnsName.lower_of_lowercase⟩

/-- Both kinds of rdata are well formed and read back exactly for types of window 0; the
next name comes back in lower case. -/
theorem rdata_inverts_iff (next : DnsName) (params : Nsec3Params) (nextHash : Bytes)
    (types : List UInt16) (short : params.salt.length ≤ 255) (fits : nextHash.length ≤ 255) :
    (NsecInverts next types ↔ next.Lowercase ∧ ∀ rtype ∈ types, rtype.toNat < 256) ∧
      (Nsec3Inverts params nextHash types ↔ ∀ rtype ∈ types, rtype.toNat < 256) := by
  rw [← bitmap_iff]
  constructor
  · rw [NsecInverts, parseNsec_nsecRdata, ← lower_eq_iff]
    constructor
    · rintro ⟨formed, read, same, inverts⟩
      simp only [Option.some.injEq, Prod.mk.injEq] at same
      obtain ⟨lower, rfl⟩ := same
      exact ⟨lower, formed, inverts⟩
    · rintro ⟨lower, formed, inverts⟩
      exact ⟨formed, _, by rw [lower], inverts⟩
  · rw [Nsec3Inverts, parseNsec3_nsec3Rdata params nextHash types short fits]
    constructor
    · rintro ⟨formed, read, same, inverts⟩
      simp only [Option.some.injEq, Prod.mk.injEq, true_and] at same
      subst same
      exact ⟨formed, inverts⟩
    · rintro ⟨formed, inverts⟩
      exact ⟨formed, _, rfl, inverts⟩

theorem rdata_inverts_apex :
    NsecInverts .root [typeNs, typeSoa, typeDnskey] ∧
      Nsec3Inverts ⟨10, [1, 2]⟩ [3, 4, 5] [typeNs, typeSoa, typeDnskey] := by
  have small : ∀ rtype ∈ [typeNs, typeSoa, typeDnskey], rtype.toNat < 256 := by
    intro rtype member
    simp only [List.mem_cons, List.not_mem_nil, or_false] at member
    rcases member with rfl | rfl | rfl <;> decide
  obtain ⟨nsec, nsec3⟩ := rdata_inverts_iff .root ⟨10, [1, 2]⟩ [3, 4, 5]
    [typeNs, typeSoa, typeDnskey] (by decide) (by decide)
  exact ⟨nsec.mpr ⟨rfl, small⟩, nsec3.mpr small⟩

/-- A bitmap of 257 octets announces one; the type in its last octet is lost. -/
theorem rdata_loses_type :
    ¬ NsecInverts .root [typeA, 2048] ∧ ¬ Nsec3Inverts ⟨0, []⟩ [] [typeA, 2048] := by
  have read : parseNsec (nsecRdata .root [typeA, 2048]) = some (.root, [typeA]) := by
    decide +kernel
  have read3 : parseNsec3 (nsec3Rdata ⟨0, []⟩ [] [typeA, 2048]) =
      some (⟨0, []⟩, [], [typeA]) := by
    decide +kernel
  have lost : ¬ Inverts [typeA, 2048] [typeA] := by
    intro inverts
    have listed := (inverts 2048).mpr (by decide)
    revert listed
    decide
  constructor
  · rintro ⟨_, found, same, inverts⟩
    rw [read] at same
    cases same
    exact lost inverts
  · rintro ⟨_, found, same, inverts⟩
    rw [read3] at same
    cases same
    exact lost inverts

end Rdns.Dnssec
