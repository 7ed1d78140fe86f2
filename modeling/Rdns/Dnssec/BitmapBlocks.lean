import Rdns.Dnssec.Bitmaps

/-!
# Reading a type bitmap from the network

`parse_type_bitmap` takes the length octet of a block at its word, so a block may have
up to 255 octets although a window has 32.  A bit beyond them counts into the windows
that follow, and in the last windows beyond the 16 bits of a type: an addition that
overflows, which a build with overflow checks answers with a panic and any other build
with the code of another type.
-/

set_option autoImplicit false

namespace Rdns.Dnssec

open Rdns.Lib Rdns.Proto Rdns.Resolver

/-! ## The reader with checked arithmetic -/

def checkedMul (left right : UInt16) : Option UInt16 :=
  if left.toNat * right.toNat < 65536 then some (left * right) else none

def checkedAdd (left right : UInt16) : Option UInt16 :=
  if left.toNat + right.toNat < 65536 then some (left + right) else none

/-- `window * 256 + (i as u16) * 8 + bit as u16`. -/
def checkedType (window : UInt16) (index bit : Nat) : Option UInt16 := do
  let base ← checkedMul window 256
  let octet ← checkedMul (UInt16.ofNat index) 8
  let sum ← checkedAdd base octet
  checkedAdd sum (UInt16.ofNat bit)

def checkedBlock (window : UInt16) : Nat → Bytes → Option (List UInt16)
  | _, [] => some []
  | index, octet :: rest => do
    let here ← (setBits octet).mapM (checkedType window index)
    let later ← checkedBlock window (index + 1) rest
    pure (here ++ later)

/-- The loop of `parse_type_bitmap`; a block that is cut off ends it. -/
def parseTypeBitmapChecked : Bytes → Option (List UInt16)
  | window :: len :: rest =>
    if rest.length < len.toNat then some []
    else do
      let here ← checkedBlock window.toUInt16 0 (rest.take len.toNat)
      let later ← parseTypeBitmapChecked (rest.drop len.toNat)
      pure (here ++ later)
  | _ => some []
termination_by data => data.length
decreasing_by
  rw [List.length_drop, List.length_cons, List.length_cons]
  omega

section Words

variable (left right : Nat) (first : left < 65536) (second : right < 65536)

include first second

theorem checkedMul_ofNat : checkedMul (UInt16.ofNat left) (UInt16.ofNat right) =
    if left * right < 65536 then some (UInt16.ofNat (left * right)) else none := by
  rw [checkedMul, UInt16.toNat_ofNat_of_lt' first, UInt16.toNat_ofNat_of_lt' second,
    UInt16.ofNat_mul]

theorem checkedAdd_ofNat : checkedAdd (UInt16.ofNat left) (UInt16.ofNat right) =
    if left + right < 65536 then some (UInt16.ofNat (left + right)) else none := by
  rw [checkedAdd, UInt16.toNat_ofNat_of_lt' first, UInt16.toNat_ofNat_of_lt' second,
    UInt16.ofNat_add]

end Words

/-- Only the sums can overflow. -/
theorem checkedType_eq_some_iff (window : UInt8) {index bit : Nat} (few : index < 256)
    (small : bit < 8) (rtype : UInt16) :
    checkedType window.toUInt16 index bit = some rtype ↔
      window.toNat * 256 + (index * 8 + bit) < 65536 ∧
        rtype = UInt16.ofNat (window.toNat * 256 + (index * 8 + bit)) := by
  have byte := window.toNat_lt
  have number : window.toUInt16 = UInt16.ofNat window.toNat := by
    apply UInt16.toNat_inj.mp
    rw [UInt8.toNat_toUInt16, UInt16.toNat_ofNat']
    omega
  have base : checkedMul window.toUInt16 256 = some (UInt16.ofNat (window.toNat * 256)) := by
    rw [number]
    exact (checkedMul_ofNat window.toNat 256 (by omega) (by omega)).trans (if_pos (by omega))
  have octet : checkedMul (UInt16.ofNat index) 8 = some (UInt16.ofNat (index * 8)) :=
    (checkedMul_ofNat index 8 (by omega) (by omega)).trans (if_pos (by omega))
  simp only [checkedType, base, octet, Option.bind_eq_bind, Option.bind_some]
  rw [checkedAdd_ofNat _ _ (by omega) (by omega)]
  by_cases fits : window.toNat * 256 + index * 8 < 65536
  · rw [if_pos fits, Option.bind_some, checkedAdd_ofNat _ _ fits (by omega), Nat.add_assoc]
    simp [eq_comm]
  · rw [if_neg fits, Option.bind_none]
    constructor
    · intro absurd
      cases absurd
    · intro other
      omega

theorem append_eq_some_iff {first second : Option (List UInt16)} {types : List UInt16} :
    (do let here ← first
        let later ← second
        pure (here ++ later)) = some types ↔
      ∃ here later, first = some here ∧ second = some later ∧ types = here ++ later := by
  cases first <;> cases second <;> simp [eq_comm]

theorem checkedBlock_eq_some_iff (window : UInt8) (octets : Bytes) :
    ∀ start, start + octets.length ≤ 256 → ∀ types,
      checkedBlock window.toUInt16 start octets = some types ↔
        (∀ position ∈ positions start octets, window.toNat * 256 + position < 65536) ∧
          types = (positions start octets).map fun position =>
            UInt16.ofNat (window.toNat * 256 + position) := by
  induction octets with
  | nil =>
    intro start _ types
    simp [checkedBlock, positions, eq_comm]
  | cons octet rest ih =>
    intro start fits types
    rw [List.length_cons] at fits
    have few : start < 256 := by omega
    have here := mapM_eq_some_iff fun bit (member : bit ∈ setBits octet) =>
      checkedType_eq_some_iff window few (setBits_lt member)
    have later := ih (start + 1) (by omega)
    rw [checkedBlock, append_eq_some_iff, positions, List.map_append, List.map_map,
      List.forall_mem_append, List.forall_mem_map]
    constructor
    · rintro ⟨front, back, head, tail, rfl⟩
      obtain ⟨inside, rfl⟩ := (here front).mp head
      obtain ⟨others, rfl⟩ := (later back).mp tail
      exact ⟨⟨inside, others⟩, rfl⟩
    · rintro ⟨⟨inside, others⟩, rfl⟩
      exact ⟨_, _, (here _).mpr ⟨inside, rfl⟩, (later _).mpr ⟨others, rfl⟩, rfl⟩

/-! ## Complete blocks -/

/-- A block of the bitmap that is there to its end, read from the front. -/
inductive CompleteBlock : Bytes → UInt8 → Bytes → Prop
  | here {number len : UInt8} {octets rest : Bytes} (complete : octets.length = len.toNat) :
      CompleteBlock (number :: len :: (octets ++ rest)) number octets
  | later {other len number : UInt8} {skipped octets rest : Bytes}
      (complete : skipped.length = len.toNat) (tail : CompleteBlock rest number octets) :
      CompleteBlock (other :: len :: (skipped ++ rest)) number octets

def HasBit (data : Bytes) (number : UInt8) (bit : Nat) : Prop :=
  ∃ octets, CompleteBlock data number octets ∧ BitSet octets (bit / 8) (bit % 8)

/-- The types a bitmap lists: bits below 256 of complete blocks. -/
def ListsType (data : Bytes) (rtype : UInt16) : Prop :=
  ∃ number bit, HasBit data number bit ∧ bit < 256 ∧ rtype.toNat = 256 * number.toNat + bit

theorem completeBlock_cons_iff {window len : UInt8} {rest : Bytes} {number : UInt8}
    {octets : Bytes} :
    CompleteBlock (window :: len :: rest) number octets ↔ len.toNat ≤ rest.length ∧
      (number = window ∧ octets = rest.take len.toNat ∨
        CompleteBlock (rest.drop len.toNat) number octets) := by
  constructor
  · intro block
    cases block with
    | here complete =>
      rw [List.take_left' complete]
      exact ⟨by rw [List.length_append]; omega, .inl ⟨rfl, rfl⟩⟩
    | later complete tail =>
      rw [List.drop_left' complete]
      exact ⟨by rw [List.length_append]; omega, .inr tail⟩
  · rintro ⟨fits, found⟩
    have taken : (rest.take len.toNat).length = len.toNat := by
      rw [List.length_take]
      omega
    rcases found with ⟨rfl, rfl⟩ | tail
    · have block : CompleteBlock (number :: len :: (rest.take len.toNat ++ rest.drop len.toNat))
          number (rest.take len.toNat) := .here taken
      rwa [List.take_append_drop] at block
    · have block : CompleteBlock (window :: len :: (rest.take len.toNat ++ rest.drop len.toNat))
          number octets := .later taken tail
      rwa [List.take_append_drop] at block

theorem hasBit_cons_iff {window len number : UInt8} {rest : Bytes} {bit : Nat}
    (fits : len.toNat ≤ rest.length) :
    HasBit (window :: len :: rest) number bit ↔
      number = window ∧ bit ∈ positions 0 (rest.take len.toNat) ∨
        HasBit (rest.drop len.toNat) number bit := by
  have place : (0 + bit / 8) * 8 + bit % 8 = bit := by omega
  have set := mem_positions (rest.take len.toNat) 0 (bit / 8) (bit % 8) (Nat.mod_lt _ (by omega))
  rw [place] at set
  simp only [HasBit, completeBlock_cons_iff, fits, true_and]
  constructor
  · rintro ⟨octets, ⟨rfl, rfl⟩ | tail, on⟩
    · exact .inl ⟨rfl, set.mpr on⟩
    · exact .inr ⟨octets, tail, on⟩
  · rintro (⟨rfl, on⟩ | ⟨octets, tail, on⟩)
    · exact ⟨_, .inl ⟨rfl, rfl⟩, set.mp on⟩
    · exact ⟨octets, .inr tail, on⟩

def bitCodes : Bytes → List Nat
  | window :: len :: rest =>
    if rest.length < len.toNat then []
    else (positions 0 (rest.take len.toNat)).map (window.toNat * 256 + ·) ++
      bitCodes (rest.drop len.toNat)
  | _ => []
termination_by data => data.length
decreasing_by
  rw [List.length_drop, List.length_cons, List.length_cons]
  omega

theorem bitCodes_short {data : Bytes}
    (short : ∀ window len rest, data = window :: len :: rest → False) : bitCodes data = [] := by
  rw [bitCodes]
  exact short

theorem bitCodes_nil : bitCodes [] = [] :=
  bitCodes_short fun _ _ _ same => List.cons_ne_nil _ _ same.symm

theorem mem_bitCodes_iff (data : Bytes) (code : Nat) :
    code ∈ bitCodes data ↔
      ∃ number bit, HasBit data number bit ∧ code = 256 * number.toNat + bit := by
  induction data using bitCodes.induct with
  | case1 window len rest short =>
    rw [bitCodes, if_pos short]
    refine iff_of_false (List.not_mem_nil) ?_
    rintro ⟨number, bit, ⟨octets, block, _⟩, _⟩
    have fits := (completeBlock_cons_iff.mp block).1
    omega
  | case2 window len rest fits ih =>
    rw [bitCodes, if_neg fits, List.mem_append, List.mem_map, ih]
    simp only [hasBit_cons_iff (Nat.le_of_not_lt fits)]
    constructor
    · rintro (⟨position, set, rfl⟩ | ⟨number, bit, set, rfl⟩)
      · exact ⟨window, position, .inl ⟨rfl, set⟩, by omega⟩
      · exact ⟨number, bit, .inr set, rfl⟩
    · rintro ⟨number, bit, ⟨rfl, set⟩ | set, rfl⟩
      · exact .inl ⟨bit, set, by omega⟩
      · exact .inr ⟨number, bit, set, rfl⟩
  | case3 data short =>
    rw [bitCodes_short short]
    refine iff_of_false List.not_mem_nil ?_
    rintro ⟨number, bit, ⟨octets, block, _⟩, _⟩
    cases block with
    | here _ => exact short _ _ _ rfl
    | later _ _ => exact short _ _ _ rfl

/-- The reader succeeds if every sum fits, and then returns the sums. -/
theorem parseTypeBitmapChecked_eq_some_iff (data : Bytes) : ∀ types,
    parseTypeBitmapChecked data = some types ↔
      (∀ code ∈ bitCodes data, code < 65536) ∧ types = (bitCodes data).map UInt16.ofNat := by
  induction data using bitCodes.induct with
  | case1 window len rest short =>
    intro types
    rw [bitCodes, parseTypeBitmapChecked, if_pos short, if_pos short]
    simp [eq_comm]
  | case2 window len rest fits ih =>
    intro types
    have byte := len.toNat_lt
    have room : 0 + (rest.take len.toNat).length ≤ 256 := by
      rw [List.length_take]
      omega
    have block := checkedBlock_eq_some_iff window (rest.take len.toNat) 0 room
    rw [bitCodes, parseTypeBitmapChecked, if_neg fits, if_neg fits, append_eq_some_iff,
      List.forall_mem_append, List.forall_mem_map, List.map_append, List.map_map]
    constructor
    · rintro ⟨here, later, head, tail, rfl⟩
      obtain ⟨inside, rfl⟩ := (block here).mp head
      obtain ⟨others, rfl⟩ := (ih later).mp tail
      exact ⟨⟨inside, others⟩, rfl⟩
    · rintro ⟨⟨inside, others⟩, rfl⟩
      exact ⟨_, _, (block _).mpr ⟨inside, rfl⟩, (ih _).mpr ⟨others, rfl⟩, rfl⟩
  | case3 data short =>
    intro types
    have empty : parseTypeBitmapChecked data = some [] := by
      rw [parseTypeBitmapChecked]
      exact short
    rw [bitCodes_short short, empty]
    simp [eq_comm]

theorem bitmapLoop_eq (data : Bytes) : ∀ fuel, data.length ≤ fuel →
    bitmapLoop fuel data = (bitCodes data).map UInt16.ofNat := by
  induction data using bitCodes.induct with
  | case1 window len rest short =>
    intro fuel enough
    cases fuel with
    | zero => cases enough
    | succ fuel =>
      rw [bitmapLoop, bitCodes, if_pos short, if_pos short]
      rfl
  | case2 window len rest fits ih =>
    intro fuel enough
    cases fuel with
    | zero => cases enough
    | succ fuel =>
      have fewer : (rest.drop len.toNat).length ≤ fuel := by
        rw [List.length_drop]
        rw [List.length_cons, List.length_cons] at enough
        omega
      rw [bitmapLoop, bitCodes, if_neg fits, if_neg fits, zipIdx_octetTypes, ih fuel fewer,
        List.map_append, List.map_map]
      rfl
  | case3 data short =>
    intro fuel _
    rw [bitCodes_short short]
    rcases data with _ | ⟨first, _ | ⟨second, rest⟩⟩
    · cases fuel <;> rfl
    · cases fuel <;> rfl
    · exact (short first second rest rfl).elim

/-! ## Which bitmaps are read exactly -/

/-- No operation overflows, and the result is the set of the types listed. -/
def ReadExactly (data : Bytes) : Prop :=
  ∃ types, parseTypeBitmapChecked data = some types ∧
    ∀ rtype, rtype ∈ types ↔ ListsType data rtype

/-- Every bit beyond the 256 of its window stands for a type, and the window that type
belongs to lists it as well. -/
def StrayBitsListed (data : Bytes) : Prop :=
  ∀ number bit, HasBit data number bit → 256 ≤ bit →
    256 * number.toNat + bit < 65536 ∧
      ∃ owner : UInt8, owner.toNat = number.toNat + bit / 256 ∧ HasBit data owner (bit % 256)

theorem strayBitsListed_of_readExactly {data : Bytes} (exactly : ReadExactly data) :
    StrayBitsListed data := by
  obtain ⟨types, read, lists⟩ := exactly
  obtain ⟨fits, rfl⟩ := (parseTypeBitmapChecked_eq_some_iff data types).mp read
  intro number bit set _
  have code := (mem_bitCodes_iff data (256 * number.toNat + bit)).mpr ⟨number, bit, set, rfl⟩
  have small := fits _ code
  obtain ⟨owner, low, found, below, value⟩ := (lists _).mp (List.mem_map_of_mem code)
  rw [UInt16.toNat_ofNat_of_lt' small] at value
  obtain rfl : low = bit % 256 := by omega
  exact ⟨small, owner, by omega, found⟩

theorem readExactly_of_strayBitsListed {data : Bytes} (stray : StrayBitsListed data) :
    ReadExactly data := by
  have fits : ∀ code ∈ bitCodes data, code < 65536 := by
    intro code member
    obtain ⟨number, bit, set, rfl⟩ := (mem_bitCodes_iff data code).mp member
    have byte := number.toNat_lt
    by_cases inside : bit < 256
    · omega
    · exact (stray number bit set (by omega)).1
  refine ⟨_, (parseTypeBitmapChecked_eq_some_iff data _).mpr ⟨fits, rfl⟩, fun rtype => ?_⟩
  rw [List.mem_map]
  constructor
  · rintro ⟨code, member, rfl⟩
    rw [ListsType, UInt16.toNat_ofNat_of_lt' (fits code member)]
    obtain ⟨number, bit, set, rfl⟩ := (mem_bitCodes_iff data code).mp member
    by_cases inside : bit < 256
    · exact ⟨number, bit, set, inside, rfl⟩
    · obtain ⟨_, owner, place, found⟩ := stray number bit set (by omega)
      exact ⟨owner, bit % 256, found, Nat.mod_lt _ (by omega), by omega⟩
  · rintro ⟨number, bit, set, _, value⟩
    refine ⟨rtype.toNat, ?_, UInt16.ofNat_toNat⟩
    exact (mem_bitCodes_iff data rtype.toNat).mpr ⟨number, bit, set, value⟩

/-- A bitmap is read exactly when its stray bits say nothing new. -/
theorem parseTypeBitmap_exact_iff (data : Bytes) : ReadExactly data ↔ StrayBitsListed data :=
  ⟨strayBitsListed_of_readExactly, readExactly_of_strayBitsListed⟩

def strayNs : Bytes := 255 :: 33 :: (List.replicate 32 0 ++ [0x20])

def strayFirst : Bytes := 0 :: 33 :: (List.replicate 32 0 ++ [0x80])

theorem bitCodes_strayNs : bitCodes strayNs = [65538] := by
  rw [strayNs, bitCodes, if_neg (by decide)]
  change _ ++ bitCodes [] = _
  rw [bitCodes_nil, List.append_nil]
  decide

theorem bitCodes_strayFirst : bitCodes strayFirst = [256] := by
  rw [strayFirst, bitCodes, if_neg (by decide)]
  change _ ++ bitCodes [] = _
  rw [bitCodes_nil, List.append_nil]
  decide

/-- An overflow where a wrapped sum reads as NS, and a type no window lists. -/
theorem strayBits_misread :
    ¬ ReadExactly strayNs ∧ parseTypeBitmap strayNs = [typeNs] ∧
      ¬ ReadExactly strayFirst ∧ parseTypeBitmap strayFirst = [256] := by
  refine ⟨?_, ?_, ?_, ?_⟩
  · rintro ⟨types, read, _⟩
    have fits := ((parseTypeBitmapChecked_eq_some_iff _ types).mp read).1
    rw [bitCodes_strayNs] at fits
    exact absurd (fits 65538 (List.mem_singleton_self _)) (by decide)
  · rw [parseTypeBitmap, bitmapLoop_eq _ _ le_rfl, bitCodes_strayNs]
    rfl
  · rintro ⟨types, read, lists⟩
    obtain ⟨_, rfl⟩ := (parseTypeBitmapChecked_eq_some_iff _ types).mp read
    rw [bitCodes_strayFirst] at lists
    obtain ⟨number, bit, set, small, value⟩ := (lists 256).mp (List.mem_singleton_self _)
    have second : number.toNat = 1 := by
      change 256 = 256 * number.toNat + bit at value
      omega
    -- the only block is the one of window 0
    rcases (hasBit_cons_iff (by decide)).mp set with ⟨rfl, _⟩ | ⟨octets, block, _⟩
    · cases second
    · cases block
  · rw [parseTypeBitmap, bitmapLoop_eq _ _ le_rfl, bitCodes_strayFirst]
    rfl

end Rdns.Dnssec
