import Rdns.Proto.Message

/-!
# The wire round trip of messages

Every field of a message is read back by the reader that stands in its place,
whatever was written before it, as long as the names hang on chains of pointers the
decoder follows to the end; the ledger of the names and gaps written so far decides
that.  The message is assembled field by field with the rules of `Rdns.Lib.Codec`.
-/

set_option autoImplicit false

namespace Rdns.Proto

open Rdns.Lib

variable {α : Type} {trace : List Item} {rdata : RData} {name : DnsName}

/-! ## Header flags -/

theorem bit16_toNat (flag : Bool) (amount : UInt16) (shift : Nat)
    (exact : amount.toNat % 16 = shift) :
    (flag.toUInt16 <<< amount).toNat = flag.toNat <<< shift := by
  have value : flag.toUInt16.toNat = flag.toNat := by cases flag <;> rfl
  have small : flag.toUInt16.toNat < 2 ^ 1 := by
    rw [value]
    exact flag.toNat_lt
  rw [shl16_toNat flag.toUInt16 amount shift 1 exact small (by omega), value]

theorem lowNibble_toNat (octet : UInt8) (small : octet.toNat < 16) :
    (octet &&& 0xF).toUInt16.toNat = octet.toNat := by
  have mask : UInt8.toNat 0xF = 2 ^ 4 - 1 := rfl
  rw [UInt8.toNat_toUInt16, UInt8.toNat_and, mask, Nat.and_two_pow_sub_one_eq_mod]
  omega

theorem toU16_toNat (flags : Flags) (opcode : flags.opcode.toNat < 16)
    (rcode : flags.rcode.toNat < 16) :
    flags.toU16.toNat = flags.qr.toNat * 2 ^ 15 + (flags.opcode.toNat * 2 ^ 11 +
      (flags.aa.toNat * 2 ^ 10 + (flags.tc.toNat * 2 ^ 9 + (flags.rd.toNat * 2 ^ 8 +
      (flags.ra.toNat * 2 ^ 7 + (flags.ad.toNat * 2 ^ 5 + (flags.cd.toNat * 2 ^ 4 +
        flags.rcode.toNat))))))) := by
  have aa := flags.aa.toNat_lt
  have tc := flags.tc.toNat_lt
  have rd := flags.rd.toNat_lt
  have ra := flags.ra.toNat_lt
  have ad := flags.ad.toNat_lt
  have cd := flags.cd.toNat_lt
  unfold Flags.toU16
  simp only [UInt16.toNat_or]
  rw [bit16_toNat flags.qr 15 15 rfl, bit16_toNat flags.aa 10 10 rfl,
    bit16_toNat flags.tc 9 9 rfl, bit16_toNat flags.rd 8 8 rfl,
    bit16_toNat flags.ra 7 7 rfl, bit16_toNat flags.ad 5 5 rfl,
    bit16_toNat flags.cd 4 4 rfl,
    shl16_toNat _ 11 11 4 rfl (by rw [lowNibble_toNat _ opcode]; omega) (by omega),
    lowNibble_toNat _ opcode, lowNibble_toNat _ rcode]
  simp only [Nat.or_assoc]
  rw [shiftLeft_or_low _ _ 4 (by omega), shiftLeft_or_low _ _ 5 (by omega),
    shiftLeft_or_low _ _ 7 (by omega), shiftLeft_or_low _ _ 8 (by omega),
    shiftLeft_or_low _ _ 9 (by omega), shiftLeft_or_low _ _ 10 (by omega),
    shiftLeft_or_low _ _ 11 (by omega), shiftLeft_or_low _ _ 15 (by omega)]

theorem fromU16_toU16 (flags : Flags) (opcode : flags.opcode.toNat < 16)
    (rcode : flags.rcode.toNat < 16) : Flags.fromU16 flags.toU16 = flags := by
  have sum := toU16_toNat flags opcode rcode
  have qr := flags.qr.toNat_lt
  have aa := flags.aa.toNat_lt
  have tc := flags.tc.toNat_lt
  have rd := flags.rd.toNat_lt
  have ra := flags.ra.toNat_lt
  have ad := flags.ad.toNat_lt
  have cd := flags.cd.toNat_lt
  have nibble : UInt16.toNat 0xF = 2 ^ 4 - 1 := rfl
  have eleven : UInt16.toNat 11 % 16 = 11 := rfl
  generalize flags.toU16 = word at sum
  have high : ((word >>> 11) &&& 0xF).toUInt8 = flags.opcode := by
    apply UInt8.toNat_inj.mp
    rw [UInt16.toNat_toUInt8, UInt16.toNat_and, UInt16.toNat_shiftRight, nibble, eleven,
      Nat.and_two_pow_sub_one_eq_mod, Nat.shiftRight_eq_div_pow]
    omega
  have low : (word &&& 0xF).toUInt8 = flags.rcode := by
    apply UInt8.toNat_inj.mp
    rw [UInt16.toNat_toUInt8, UInt16.toNat_and, nibble, Nat.and_two_pow_sub_one_eq_mod]
    omega
  unfold Flags.fromU16
  rw [high, low, mask16_eq word 0x8000 15 flags.qr rfl (by omega),
    mask16_eq word 0x400 10 flags.aa rfl (by omega),
    mask16_eq word 0x200 9 flags.tc rfl (by omega),
    mask16_eq word 0x100 8 flags.rd rfl (by omega),
    mask16_eq word 0x80 7 flags.ra rfl (by omega),
    mask16_eq word 0x20 5 flags.ad rfl (by omega),
    mask16_eq word 0x10 4 flags.cd rfl (by omega)]

/-! ## The TTL of an OPT record -/

theorem ednsTtl_toNat (edns : Edns) :
    edns.ttl.toNat = edns.extRcode.toNat * 2 ^ 24 + (edns.version.toNat * 2 ^ 16 +
      edns.doBit.toNat * 2 ^ 15) := by
  have version := edns.version.toNat_lt
  have flag : UInt32.toNat (if edns.doBit then 0x8000 else 0) = edns.doBit.toNat * 2 ^ 15 := by
    cases edns.doBit <;> rfl
  have doBit := edns.doBit.toNat_lt
  unfold Edns.ttl
  rw [UInt32.toNat_or, UInt32.toNat_or, flag,
    shl32_toNat _ 24 24 8 rfl (by simpa using edns.extRcode.toNat_lt) (by omega),
    shl32_toNat _ 16 16 8 rfl (by simpa using edns.version.toNat_lt) (by omega),
    UInt8.toNat_toUInt32, UInt8.toNat_toUInt32, Nat.or_assoc,
    shiftLeft_or_low _ _ 16 (by omega), shiftLeft_or_low _ _ 24 (by omega)]

theorem ofOpt_ttl (edns : Edns) : Edns.ofOpt edns.udpPayload edns.ttl edns.options = edns := by
  have sum := ednsTtl_toNat edns
  have extRcode := edns.extRcode.toNat_lt
  have version := edns.version.toNat_lt
  have doBit := edns.doBit.toNat_lt
  have wide : UInt32.toNat 24 % 32 = 24 := rfl
  have half : UInt32.toNat 16 % 32 = 16 := rfl
  generalize edns.ttl = word at sum
  have first : (word >>> 24).toUInt8 = edns.extRcode := by
    apply UInt8.toNat_inj.mp
    rw [UInt32.toNat_toUInt8, UInt32.toNat_shiftRight, wide, Nat.shiftRight_eq_div_pow]
    omega
  have second : (word >>> 16).toUInt8 = edns.version := by
    apply UInt8.toNat_inj.mp
    rw [UInt32.toNat_toUInt8, UInt32.toNat_shiftRight, half, Nat.shiftRight_eq_div_pow]
    omega
  unfold Edns.ofOpt
  rw [first, second, mask32_eq word 0x8000 15 edns.doBit rfl (by omega)]

/-! ## The account of what was written -/

def gap (count : Nat) : Item := .raw (List.replicate count 0)

/-- A buffer, the compressor that wrote it and their ledger.  A name is read back
if its chain of pointers is one the decoder follows to the end. -/
def wire : Medium Compressor Ledger Item where
  tied out compressor ledger :=
    Linked out compressor.offsets ledger.depths ∧ out.length = ledger.length
  step := Ledger.item
  able ledger item := match item with
    | .raw _ => True
    | .name value => ledger.chain value ≤ maxPointerJumps

theorem wire_start : wire.tied [] Compressor.default (Ledger.of []) := ⟨linked_empty, rfl⟩

theorem put_framed {segment : Bytes} {read : Bytes → Parse α} {value : α}
    (reads : ∀ out rest : Bytes, read (out ++ segment ++ rest) out.length =
      .ok (value, out.length + segment.length))
    (stops : ∀ (out : Bytes) (cut : Nat), cut < segment.length →
      read (out ++ segment.take cut) out.length = .error .truncated) :
    Framed wire .truncated [gap segment.length] (put segment) read value := by
  rintro out compressor ledger ⟨linked, length⟩
  have grown : (out ++ segment).length = (wire.after ledger [gap segment.length]).length := by
    simp [Medium.after, wire, Ledger.item, gap, length]
  refine ⟨segment, compressor, rfl, ⟨linked.append segment, grown⟩, fun rest => ?_,
    fun _ => stops out⟩
  exact ⟨fun _ => reads out rest, fun never => absurd ⟨trivial, trivial⟩ never⟩

theorem take_behind (out segment : Bytes) (cut : Nat) :
    (out ++ segment).take (out.length + cut) = out ++ segment.take cut :=
  List.take_length_add_append cut

theorem legible_iff (items : List Item) :
    ∀ done : List Item, wire.Legible (Ledger.of done) items ↔
      ∀ before name after, items = before ++ .name name :: after →
        (Ledger.of (done ++ before)).chain name ≤ maxPointerJumps := by
  induction items with
  | nil =>
    intro done
    refine ⟨fun _ before name after split => ?_, fun _ => trivial⟩
    cases before <;> cases split
  | cons item rest ih =>
    intro done
    have next : wire.step (Ledger.of done) item = Ledger.of (done ++ [item]) := by
      rw [Ledger.of, Ledger.of, List.foldl_append]
      rfl
    rw [Medium.Legible, next, ih (done ++ [item])]
    constructor
    · rintro ⟨here, later⟩ before name after split
      cases before with
      | nil =>
        cases split
        rwa [List.append_nil]
      | cons first others =>
        cases split
        have found := later others name after rfl
        rwa [List.append_assoc] at found
    · intro all
      refine ⟨?_, fun before name after split => ?_⟩
      · cases item with
        | raw segment => exact trivial
        | name value =>
          have here := all [] value rest rfl
          rwa [List.append_nil] at here
      · have found := all (item :: before) name after (by rw [split]; rfl)
        rwa [List.append_assoc]

/-! ## How deep the chains are -/

/-- Each registered suffix is reached through fewer pointers than it has labels. -/
def Shallow (depths : HashMap (List Label) Nat) : Prop :=
  ∀ suffix depth, depths.get? suffix = some depth → depth < suffix.length

theorem borrow_depth_le (depths : HashMap (List Label) Nat) (shallow : Shallow depths) :
    ∀ labels, (borrow depths labels).depth ≤ labels.length := by
  intro labels
  induction labels with
  | nil => exact le_rfl
  | cons label rest ih =>
    unfold borrow
    split
    · rename_i depth found
      exact shallow _ depth found
    · simp only [List.length_cons]
      omega

theorem shallow_lend (depth : Nat) :
    ∀ (labels : List Label) (pos : Nat) (depths : HashMap (List Label) Nat), Shallow depths →
      (borrow depths labels).depth = depth → Shallow (lend depth labels pos depths) := by
  intro labels
  induction labels with
  | nil => intro pos depths shallow _; exact shallow
  | cons label rest ih =>
    intro pos depths shallow exact
    have bound := borrow_depth_le depths shallow rest
    unfold lend
    cases found : depths.get? (label :: rest) with
    | some known => exact shallow
    | none =>
      have same : (borrow depths rest).depth = depth := by
        rw [← exact]
        simp only [borrow, found]
      dsimp only
      split
      · apply ih
        · intro suffix value present
          rw [HashMap.get?_insert] at present
          split at present
          · rename_i key
            cases present
            rw [key, List.length_cons]
            omega
          · exact shallow suffix value present
        · rw [borrow_insert depths _ _ rest (by simp)]
          exact same
      · exact ih _ depths shallow same

theorem shallow_items (items : List Item) :
    ∀ ledger : Ledger, Shallow ledger.depths → Shallow (items.foldl Ledger.item ledger).depths := by
  induction items with
  | nil => exact fun _ shallow => shallow
  | cons item rest ih =>
    intro ledger shallow
    apply ih
    cases item with
    | raw segment => exact shallow
    | name value => exact shallow_lend _ _ _ _ shallow rfl

/-! ## Names -/

/-- The names whose encodings always decode: lower case, and no more labels
than the decoder follows pointers. -/
def DnsName.Decodable (name : DnsName) : Prop :=
  name.Lowercase ∧ name.labelCount ≤ maxPointerJumps

theorem shortChains_of_decodable {items : List Item}
    (decodable : ∀ name, .name name ∈ items → name.Decodable) : ShortChains items := by
  intro before name after split
  obtain ⟨lowercase, few⟩ := decodable name (by simp [split])
  have empty : Shallow (Ledger.of []).depths := fun _ _ found => by cases found
  have shallow : Shallow (Ledger.of before).depths := shallow_items before _ empty
  exact ⟨lowercase, (borrow_depth_le _ shallow name.labels).trans few⟩

theorem name_framed (name : DnsName) (lowercase : name.Lowercase) :
    Framed wire .truncated [.name name] name.write DnsName.fromWire name := by
  rintro out compressor ledger ⟨linked, length⟩
  obtain ⟨segment, compressor', run, size, spelled, after⟩ :=
    name_write_refines name out compressor ledger.depths linked
  rw [length] at after
  have grown : (out ++ segment).length = (ledger.name name.labels).length := by
    simp [Ledger.name, length, size]
  refine ⟨segment, compressor', run, ⟨after, grown⟩, fun rest => ⟨?_, ?_⟩, fun _ cut short => ?_⟩
  · rintro ⟨budget, _⟩
    exact (fromWire_eq_ok_iff _ _ _ _).mpr
      ⟨name.labels, _, spelled.append rest, budget, name.valid.2, lowercase.symm⟩
  · intro tooLong
    cases read : DnsName.fromWire (out ++ segment ++ rest) out.length with
    | error error => exact ⟨error, read⟩
    | ok result =>
      -- A second spelling at the same place would be the same one.
      obtain ⟨labels, jumps, other, budget, _⟩ := (fromWire_eq_ok_iff _ _ _ _).mp read
      obtain ⟨_, same, _⟩ := other.unique (spelled.append rest)
      rw [same] at budget
      exact absurd ⟨budget, trivial⟩ tooLong
  · rw [← take_behind]
    exact fromWire_cut spelled (Nat.le_add_right _ _) (by omega)

def plainOctets (labels : List Label) : Bytes :=
  labels.flatMap (fun label => UInt8.ofNat label.length :: label) ++ [0]

theorem plainOctets_cons (label : Label) (rest : List Label) :
    plainOctets (label :: rest) = (UInt8.ofNat label.length :: label) ++ plainOctets rest := by
  simp [plainOctets]

theorem toWireLoop_none (labels : List Label) :
    ∀ out : Bytes, toWireLoop labels out none = (out ++ plainOctets labels, none) := by
  induction labels with
  | nil => intro out; rfl
  | cons label rest ih => intro out; simp only [toWireLoop, ih, plainOctets_cons, List.append_assoc]

theorem spells_plain (labels : List Label) (valid : ∀ label ∈ labels, ValidLabel label) :
    ∀ out rest : Bytes, Spells (out ++ plainOctets labels ++ rest) out.length labels 0
      (out.length + (plainOctets labels).length) := by
  induction labels with
  | nil => intro out rest; exact .root (by simp [plainOctets])
  | cons label tail ih =>
    intro out rest
    have spelled := ih (fun other member => valid other (by simp [member]))
      (out ++ (UInt8.ofNat label.length :: label)) rest
    simp only [List.append_assoc, List.length_append, List.length_cons] at spelled
    rw [plainOctets_cons, List.length_append, List.length_cons, ← Nat.add_assoc]
    have whole := spells_label out label (valid label (by simp)) (plainOctets tail ++ rest)
      (by rw [List.append_assoc]; exact spelled)
    simpa only [List.append_assoc] using whole

theorem writePlain_eq_put (name : DnsName) : name.writePlain = put (plainOctets name.labels) := by
  funext state
  simp only [DnsName.writePlain, DnsName.toWire, toWireLoop_none, put]

theorem fromWire_plain (name : DnsName) (out rest : Bytes) :
    DnsName.fromWire (out ++ plainOctets name.labels ++ rest) out.length =
      .ok (name.lower, out.length + (plainOctets name.labels).length) :=
  (fromWire_eq_ok_iff _ _ _ _).mpr
    ⟨name.labels, 0, spells_plain _ name.valid.1 out rest, by omega, name.valid.2, rfl⟩

theorem plainName_framed (name : DnsName) (lowercase : name.Lowercase) :
    Framed wire .truncated [gap (plainOctets name.labels).length] name.writePlain
      DnsName.fromWire name := by
  rw [writePlain_eq_put]
  refine put_framed (fun out rest => ?_) fun out cut short => ?_
  · rw [fromWire_plain, DnsName.lower_of_lowercase lowercase]
  · have spelled := spells_plain name.labels name.valid.1 out []
    rw [List.append_nil] at spelled
    rw [← take_behind]
    exact fromWire_cut spelled (Nat.le_add_right _ _) (Nat.add_lt_add_left short _)

/-! ## Numbers and octets -/

theorem readBytes_exact (out segment rest : Bytes) :
    readBytes (out ++ segment ++ rest) segment.length out.length =
      .ok (segment, out.length + segment.length) := by
  simp only [readBytes, slice_exact]

theorem slice_cut {out segment : Bytes} {cut : Nat} (short : cut < segment.length) :
    slice (out ++ segment.take cut) out.length segment.length = none := by
  rw [← take_behind]
  exact slice_take_none (by omega)

theorem bytes_framed (segment : Bytes) :
    Framed wire .truncated [gap segment.length] (put segment)
      (fun buf => readBytes buf segment.length)
      segment :=
  put_framed (fun out rest => readBytes_exact out segment rest) fun out cut short => by
    simp only [readBytes, slice_cut short]

theorem array_framed {count : Nat} (octets : List.Vector UInt8 count) :
    Framed wire .truncated [gap count] (put octets.toList)
      (fun buf => readArray buf count) octets := by
  have exact : Framed wire .truncated [gap octets.toList.length] (put octets.toList)
      (fun buf => readArray buf count) octets := by
    refine put_framed (fun out rest => ?_) fun out cut short => ?_
    · have found : slice (out ++ octets.toList ++ rest) out.length count = some octets.toList := by
        have exact := slice_exact out octets.toList rest
        rwa [octets.toList_length] at exact
      unfold readArray
      split
      · rename_i missing
        rw [found] at missing
        cases missing
      rename_i other present
      have same : octets.toList = other := Option.some.inj (found.symm.trans present)
      subst same
      rw [octets.toList_length]
      rfl
    · have missing : slice (out ++ octets.toList.take cut) out.length octets.toList.length = none :=
        slice_cut short
      rw [octets.toList_length] at missing
      unfold readArray
      split
      · rfl
      · rename_i found
        rw [missing] at found
        cases found
  rwa [octets.toList_length] at exact

theorem u16_framed (word : UInt16) :
    Framed wire .truncated [gap 2] (put (toBe16 word)) readU16 word := by
  have read := (bytes_framed (toBe16 word)).map fun octets =>
    ofBe16 (octets.getD 0 0) (octets.getD 1 0)
  have back : ofBe16 ((toBe16 word).getD 0 0) ((toBe16 word).getD 1 0) = word :=
    ofBe16_toBe16 word
  rw [back] at read
  exact read

theorem u32_framed (word : UInt32) :
    Framed wire .truncated [gap 4] (put (toBe32 word)) readU32 word := by
  have read := (bytes_framed (toBe32 word)).map fun octets =>
    ofBe32 (octets.getD 0 0) (octets.getD 1 0) (octets.getD 2 0) (octets.getD 3 0)
  have back : ofBe32 ((toBe32 word).getD 0 0) ((toBe32 word).getD 1 0) ((toBe32 word).getD 2 0)
      ((toBe32 word).getD 3 0) = word := ofBe32_toBe32 word
  rw [back] at read
  exact read

/-! ## Sizes -/

theorem ofNat16_toNat (count : Nat) (small : count ≤ 65535) :
    (UInt16.ofNat count).toNat = count := by
  simp only [UInt16.toNat_ofNat']
  omega

theorem toWireLoop_emits (labels : List Label) (valid : ∀ label ∈ labels, ValidLabel label) :
    ∀ (length : Nat) (compressor : Compressor), ∃ segment compressor',
      1 ≤ segment.length ∧ segment.length ≤ labelsLen labels + 1 ∧
      ∀ out : Bytes, out.length = length →
        toWireLoop labels out (some compressor) = (out ++ segment, some compressor') := by
  induction labels with
  | nil => exact fun _ compressor => ⟨[0], compressor, le_rfl, le_rfl, fun _ _ => rfl⟩
  | cons label rest ih =>
    intro length compressor
    have positive := (valid label (by simp)).1
    cases found : compressor.offsets.get? (label :: rest) with
    | some offset =>
      refine ⟨toBe16 (0xC000 ||| offset), compressor, ?_, ?_, fun out _ => ?_⟩
      · simp
      · simp only [toBe16_length, labelsLen_cons]
        omega
      · simp only [toWireLoop, found]
    | none =>
      obtain ⟨segment, compressor', lower, upper, run⟩ :=
        ih (fun other member => valid other (by simp [member])) (length + (label.length + 1))
          (if length ≤ maxPointerOffset then
            ⟨compressor.offsets.insert (label :: rest) (UInt16.ofNat length)⟩ else compressor)
      refine ⟨(UInt8.ofNat label.length :: label) ++ segment, compressor', ?_, ?_,
        fun out exact => ?_⟩
      · simp
      · simp only [List.length_append, List.length_cons, labelsLen_cons]
        omega
      · simp only [toWireLoop, found]
        subst exact
        rw [run _ (by simp), List.append_assoc]

theorem name_emits (name : DnsName) : Emits name.write 1 255 := by
  intro length compressor
  obtain ⟨segment, compressor', lower, upper, run⟩ :=
    toWireLoop_emits name.labels name.valid.1 length compressor
  have short : labelsLen name.labels + 1 ≤ 255 := name.valid.2
  refine ⟨segment, compressor', lower, by omega, fun out exact => ?_⟩
  simp only [DnsName.write, DnsName.toWire, run out exact, Option.getD_some]

theorem plainOctets_length (labels : List Label) :
    (plainOctets labels).length = labelsLen labels + 1 := by
  induction labels with
  | nil => rfl
  | cons label rest ih =>
    simp only [plainOctets_cons, List.length_append, List.length_cons, labelsLen_cons, ih]
    omega

theorem plainName_emits (name : DnsName) : Emits name.writePlain 1 255 := by
  have short : labelsLen name.labels + 1 ≤ 255 := name.valid.2
  rw [writePlain_eq_put]
  exact (Emits.put _).mono (by rw [plainOctets_length]; omega) (by rw [plainOctets_length]; omega)

theorem patch_exact (out placeholder segment octets : Bytes)
    (same : placeholder.length = octets.length) :
    patch (out ++ placeholder ++ segment) out.length octets = out ++ octets ++ segment := by
  have before : (out ++ placeholder ++ segment).take out.length = out := by
    rw [List.append_assoc, List.take_left]
  have after : (out ++ placeholder ++ segment).drop (out.length + octets.length) = segment := by
    rw [← same, ← List.length_append, List.drop_left]
  rw [patch, before, after]

theorem writeSized_eq {body : Writer Compressor} {out segment : Bytes}
    {compressor compressor' : Compressor}
    (run : body (out ++ [0, 0], compressor) = (out ++ [0, 0] ++ segment, compressor')) :
    writeSized body (out, compressor) =
      (out ++ (toBe16 (UInt16.ofNat segment.length) ++ segment), compressor') := by
  have size : (out ++ [0, 0] ++ segment).length - out.length - 2 = segment.length := by
    simp only [List.length_append, List.length_cons, List.length_nil]
    omega
  simp only [writeSized, put, run, size]
  rw [patch_exact out [0, 0] segment (toBe16 (UInt16.ofNat segment.length)) rfl, List.append_assoc]

/-- Back-patching the length over its placeholder writes what a reader of the
length and then of the body expects. -/
theorem sized_framed {body : Writer Compressor} {read : Bytes → Nat → Parse α} {value : α}
    {least : Nat} (emits : Emits body least 65535)
    (reads : FramedSized wire .truncated trace body read value) :
    Framed wire .truncated (gap 2 :: trace) (writeSized body)
      (fun buf => readU16 buf >>= fun rdlen => read buf rdlen.toNat) value := by
  intro out compressor ledger tied
  obtain ⟨segment, compressor', _, small, run⟩ := emits (out.length + 2) compressor
  have length := ofNat16_toNat segment.length small
  generalize word : UInt16.ofNat segment.length = rdlen at length
  have bodyRun := run (out ++ toBe16 rdlen) (by simp)
  obtain ⟨lengthOctets, _, wrote, tied', readWord, stopWord⟩ :=
    u16_framed rdlen out compressor ledger tied
  obtain ⟨sameOctets, rfl⟩ := Prod.mk.inj wrote
  obtain rfl := List.append_cancel_left sameOctets
  obtain ⟨segment', after, sameRun, tied'', readBody, stopBody⟩ := reads _ _ _ tied'
  rw [bodyRun] at sameRun
  obtain ⟨sameOut, rfl⟩ := Prod.mk.inj sameRun
  obtain rfl := List.append_cancel_left sameOut
  have legible := wire.legible_append [gap 2] trace ledger
  rw [List.singleton_append] at legible
  rw [legible]
  refine ⟨toBe16 rdlen ++ segment, compressor', ?_, ?_, fun rest => ?_, ?_⟩
  · rw [writeSized_eq (run (out ++ [0, 0]) (by simp)), word]
  · rw [← List.append_assoc]
    exact tied''
  · have first := readWord (segment ++ rest)
    have second := readBody rest
    rw [← length] at second
    rw [List.length_append, ← length, ← Nat.add_assoc]
    simp only [List.append_assoc, List.length_append] at first second ⊢
    exact first.bind _ second
  · rintro ⟨ableWord, ableBody⟩ cut short
    rw [List.length_append] at short
    by_cases early : cut < (toBe16 rdlen).length
    · rw [List.take_append_of_le_length early.le]
      exact bind_error (stopWord ableWord cut early)
    obtain ⟨later, rfl⟩ := Nat.exists_eq_add_of_le (Nat.le_of_not_lt early)
    have head := (readWord (segment.take later)).1 ableWord
    have tail := stopBody ableBody later (by omega)
    rw [List.length_append, ← length] at tail
    rw [List.take_length_add_append, ← List.append_assoc]
    exact (bind_ok head).trans tail

/-! ## Record data -/

def stringsOctets (strings : List Bytes) : Bytes :=
  strings.flatMap fun text => UInt8.ofNat text.length :: text

theorem stringsOctets_cons (text : Bytes) (rest : List Bytes) :
    stringsOctets (text :: rest) = (UInt8.ofNat text.length :: text) ++ stringsOctets rest := rfl

theorem writeStrings_eq_put (strings : List Bytes) :
    writeStrings strings = put (stringsOctets strings) := by
  funext state
  unfold writeStrings
  induction strings generalizing state with
  | nil => simp [stringsOctets, put]
  | cons text rest ih =>
    rw [List.foldl_cons, ih, stringsOctets_cons]
    simp only [put, List.append_assoc]

theorem length_le_stringsOctets (strings : List Bytes) :
    strings.length ≤ (stringsOctets strings).length := by
  induction strings with
  | nil => exact le_rfl
  | cons text rest ih =>
    simp only [stringsOctets_cons, List.length_append, List.length_cons]
    omega

theorem readU8_exact (out : Bytes) (octet : UInt8) (rest : Bytes) :
    readU8 (out ++ octet :: rest) out.length = .ok (octet, out.length + 1) := by
  simp [readU8]

theorem parseStrings_step (buf : Bytes) (finish fuel pos : Nat) (acc : List Bytes) (len : UInt8)
    (text : Bytes) (more : pos < finish) (head : readU8 buf pos = .ok (len, pos + 1))
    (inside : pos + 1 + len.toNat ≤ finish)
    (body : readBytes buf len.toNat (pos + 1) = .ok (text, pos + 1 + len.toNat)) :
    parseStrings buf finish (fuel + 1) acc pos =
      parseStrings buf finish fuel (acc ++ [text]) (pos + 1 + len.toNat) := by
  have notPast : ¬ pos + 1 + len.toNat > finish := by omega
  simp only [parseStrings]
  rw [get_bind, if_pos more, bind_ok head, get_bind, if_neg notPast]
  exact bind_ok body

theorem parseStrings_exact (strings : List Bytes) (short : ∀ text ∈ strings, text.length ≤ 255) :
    ∀ (out rest : Bytes) (fuel : Nat) (acc : List Bytes), strings.length ≤ fuel →
      parseStrings (out ++ stringsOctets strings ++ rest)
          (out.length + (stringsOctets strings).length) fuel acc out.length =
        .ok (acc ++ strings, out.length + (stringsOctets strings).length) := by
  induction strings with
  | nil =>
    intro out rest fuel acc _
    have done : ¬ out.length < out.length + (stringsOctets []).length := by simp [stringsOctets]
    cases fuel with
    | zero => simp [parseStrings, stringsOctets]; rfl
    | succ fuel =>
      simp only [parseStrings]
      rw [get_bind, if_neg done, List.append_nil]
      rfl
  | cons text tail ih =>
    intro out rest fuel acc enough
    cases fuel with
    | zero => simp at enough
    | succ fuel =>
      have textShort := short text (by simp)
      have size : (UInt8.ofNat text.length).toNat = text.length := by
        simp only [UInt8.toNat_ofNat']
        omega
      have rewritten : out ++ stringsOctets (text :: tail) ++ rest =
          out ++ (UInt8.ofNat text.length :: text) ++ stringsOctets tail ++ rest := by
        rw [stringsOctets_cons, ← List.append_assoc out]
      have total : out.length + (stringsOctets (text :: tail)).length =
          (out ++ (UInt8.ofNat text.length :: text)).length + (stringsOctets tail).length := by
        simp only [stringsOctets_cons, List.length_append, List.length_cons]
        omega
      have advanced : (out ++ (UInt8.ofNat text.length :: text)).length =
          out.length + 1 + (UInt8.ofNat text.length).toNat := by
        simp only [List.length_append, List.length_cons, size]
        omega
      rw [rewritten, total]
      have head := readU8_exact out (UInt8.ofNat text.length)
        (text ++ stringsOctets tail ++ rest)
      have body := readBytes_exact (out ++ [UInt8.ofNat text.length]) text
        (stringsOctets tail ++ rest)
      have later := ih (fun other member => short other (by simp [member]))
        (out ++ (UInt8.ofNat text.length :: text)) rest fuel (acc ++ [text])
        (by simpa using enough)
      rw [parseStrings_step _ _ fuel out.length acc (UInt8.ofNat text.length) text
        (by rw [advanced]; omega) (by simpa using head) (by rw [advanced]; omega)
        (by rw [size]; simpa using body), ← advanced, later]
      simp

def RData.size (rdata : RData) : Nat := (rdata.encodeCanonical ([], Compressor.default)).1.length

def typedCodes : List UInt16 :=
  [typeA, typeAaaa, typeNs, typeCname, typePtr, typeSoa, typeMx, typeTxt, typeSrv]

def RData.Decodable (rdata : RData) : Prop :=
  rdata.size ≤ 65535 ∧
    match rdata with
    | .a _ => True
    | .aaaa _ => True
    | .ns target => target.Decodable
    | .cname target => target.Decodable
    | .ptr target => target.Decodable
    | .soa fields => fields.mname.Decodable ∧ fields.rname.Decodable
    | .mx _ exchange => exchange.Decodable
    | .txt strings => strings ≠ [] ∧ ∀ text ∈ strings, text.length ≤ 255
    | .srv _ _ _ target => target.Decodable
    | .unknown rtype data =>
      rtype ≠ typeOpt ∧ rtype ≠ typeTsig ∧ (rtype ∈ typedCodes → data = [])

/-- The record data the decoder can return: what the wire format can express,
without a limit on the labels of a name. -/
def RData.Regular (rdata : RData) : Prop :=
  rdata.size ≤ 65535 ∧
    match rdata with
    | .a _ => True
    | .aaaa _ => True
    | .ns target => target.Lowercase
    | .cname target => target.Lowercase
    | .ptr target => target.Lowercase
    | .soa fields => fields.mname.Lowercase ∧ fields.rname.Lowercase
    | .mx _ exchange => exchange.Lowercase
    | .txt strings => strings ≠ [] ∧ ∀ text ∈ strings, text.length ≤ 255
    | .srv _ _ _ target => target.Lowercase
    | .unknown rtype data =>
      rtype ≠ typeOpt ∧ rtype ≠ typeTsig ∧ (rtype ∈ typedCodes → data = [])

theorem RData.Decodable.regular (decodable : rdata.Decodable) : rdata.Regular := by
  obtain ⟨size, shape⟩ := decodable
  refine ⟨size, ?_⟩
  cases rdata with
  | a address => exact trivial
  | aaaa address => exact trivial
  | ns target => exact shape.1
  | cname target => exact shape.1
  | ptr target => exact shape.1
  | soa fields => exact ⟨shape.1.1, shape.2.1⟩
  | mx preference exchange => exact shape.1
  | txt strings => exact shape
  | srv priority weight port target => exact shape.1
  | unknown rtype data => exact shape

/-- The names and gaps of record data; the target of SRV is not compressed. -/
def RData.layout : RData → List Item
  | .a _ => [gap 4]
  | .aaaa _ => [gap 16]
  | .ns target => [.name target]
  | .cname target => [.name target]
  | .ptr target => [.name target]
  | .soa fields => [.name fields.mname, .name fields.rname, gap 4, gap 4, gap 4, gap 4, gap 4]
  | .mx _ exchange => [gap 2, .name exchange]
  | .txt strings => [gap (stringsOctets strings).length]
  | .srv _ _ _ target => [gap 2, gap 2, gap 2, gap (plainOctets target.labels).length]
  | .unknown _ data => [gap data.length]

theorem soaNumbers_emits (soa : Soa) : Emits soa.writeNumbers 20 20 :=
  ((((Emits.put (toBe32 soa.serial)).comp (Emits.put (toBe32 soa.refresh))).comp
    (Emits.put (toBe32 soa.retry))).comp (Emits.put (toBe32 soa.expire))).comp
    (Emits.put (toBe32 soa.minimum))

/-- Only unparsed data can be empty. -/
def RData.leastSize : RData → Nat
  | .unknown _ _ => 0
  | _ => 1

theorem rdata_emits (rdata : RData) (regular : rdata.Regular) :
    Emits rdata.encode rdata.leastSize 65535 := by
  obtain ⟨size, shape⟩ := regular
  cases rdata with
  | a address | aaaa address =>
    exact (Emits.put address.toList).mono (by simp [RData.leastSize]) (by simp)
  | ns target => exact (name_emits target).mono le_rfl (by omega)
  | cname target => exact (name_emits target).mono le_rfl (by omega)
  | ptr target => exact (name_emits target).mono le_rfl (by omega)
  | soa fields =>
    exact (((name_emits fields.mname).comp (name_emits fields.rname)).comp
      (soaNumbers_emits fields)).mono (by simp [RData.leastSize]) (by omega)
  | mx preference exchange =>
    exact ((Emits.put (toBe16 preference)).comp (name_emits exchange)).mono
      (by simp [RData.leastSize]) (by simp)
  | txt strings =>
    have bound : (stringsOctets strings).length ≤ 65535 := by
      have canonical : ((RData.txt strings).encodeCanonical ([], Compressor.default)).1 =
          stringsOctets strings := by
        simp [RData.encodeCanonical, RData.encode, writeStrings_eq_put, put]
      rw [RData.size, canonical] at size
      exact size
    have positive := length_le_stringsOctets strings
    have some := List.length_pos_iff.mpr shape.1
    simp only [RData.encode, writeStrings_eq_put]
    exact (Emits.put _).mono (by simp only [RData.leastSize]; omega) bound
  | srv priority weight port target =>
    exact ((((Emits.put (toBe16 priority)).comp (Emits.put (toBe16 weight))).comp
      (Emits.put (toBe16 port))).comp (plainName_emits target)).mono
      (by simp [RData.leastSize]) (by simp)
  | unknown rtype data =>
    have bound : data.length ≤ 65535 := by
      simpa [RData.size, RData.encodeCanonical, RData.encode, put] using size
    exact (Emits.put data).mono (by simp [RData.leastSize]) bound

theorem soa_framed (soa : Soa) (mname : soa.mname.Lowercase) (rname : soa.rname.Lowercase) :
    Framed wire .truncated (RData.soa soa).layout
      (andThen soa.mname.write (andThen soa.rname.write soa.writeNumbers)) parseSoa soa := by
  change Framed wire .truncated [.name soa.mname, .name soa.rname, gap 4, gap 4, gap 4,
    gap 4, gap 4]
    (andThen soa.mname.write <| andThen soa.rname.write <|
    andThen (put (toBe32 soa.serial)) <| andThen (put (toBe32 soa.refresh)) <|
    andThen (put (toBe32 soa.retry)) <| andThen (put (toBe32 soa.expire)) <|
    put (toBe32 soa.minimum)) parseSoa soa
  apply Framed.first _ (name_framed soa.mname mname)
  apply Framed.first _ (name_framed soa.rname rname)
  apply Framed.first _ (u32_framed soa.serial)
  apply Framed.first _ (u32_framed soa.refresh)
  apply Framed.first _ (u32_framed soa.retry)
  apply Framed.first _ (u32_framed soa.expire)
  exact (u32_framed soa.minimum).map fun minimum => { soa with minimum }

theorem mx_framed (preference : UInt16) (exchange : DnsName) (lowercase : exchange.Lowercase)
    (rdlen finish : Nat) :
    Framed wire .truncated [gap 2, .name exchange] (RData.mx preference exchange).encode
      (fun buf => RData.parseTyped typeMx buf rdlen finish) (.mx preference exchange) := by
  change Framed wire .truncated _ (andThen (put (toBe16 preference)) exchange.write)
    (fun buf => readU16 buf >>= fun word => DnsName.fromWire buf >>= fun name =>
      pure (RData.mx word name)) _
  apply Framed.first _ (u16_framed preference)
  exact (name_framed exchange lowercase).map fun name => RData.mx preference name

theorem srv_framed (priority weight port : UInt16) (target : DnsName)
    (lowercase : target.Lowercase) (rdlen finish : Nat) :
    Framed wire .truncated [gap 2, gap 2, gap 2, gap (plainOctets target.labels).length]
      (RData.srv priority weight port target).encode
      (fun buf => RData.parseTyped typeSrv buf rdlen finish)
      (.srv priority weight port target) := by
  change Framed wire .truncated _
    (andThen (put (toBe16 priority)) <| andThen (put (toBe16 weight)) <|
    andThen (put (toBe16 port)) target.writePlain)
    (fun buf => readU16 buf >>= fun first => readU16 buf >>= fun second =>
      readU16 buf >>= fun third => DnsName.fromWire buf >>= fun name =>
        pure (RData.srv first second third name)) _
  apply Framed.first _ (u16_framed priority)
  apply Framed.first _ (u16_framed weight)
  apply Framed.first _ (u16_framed port)
  exact (plainName_framed target lowercase).map fun name =>
    RData.srv priority weight port name

/-- The announced length is compared with the buffer before the data is looked at. -/
theorem parse_cut (rtype : UInt16) (out segment : Bytes) (cut : Nat)
    (short : cut < segment.length) :
    RData.parse rtype (out ++ segment.take cut) segment.length out.length = .error .truncated := by
  have less : (out ++ segment.take cut).length < out.length + segment.length := by
    rw [List.length_append, List.length_take]
    omega
  unfold RData.parse
  rw [get_bind, if_pos less]
  rfl

theorem parse_settles {rtype : UInt16} {buf : Bytes} {rdlen pos : Nat} {can : Prop}
    (inside : pos + rdlen ≤ buf.length) (positive : rdlen ≠ 0)
    (typed : Settles can (RData.parseTyped rtype buf rdlen (pos + rdlen) pos)
      (rdata, pos + rdlen)) :
    Settles can (RData.parse rtype buf rdlen pos) (rdata, pos + rdlen) := by
  unfold RData.parse
  rw [get_bind, if_neg (by omega), if_neg positive]
  refine ⟨fun holds => ?_, fun never => ?_⟩
  · change (RData.parseTyped rtype buf rdlen (pos + rdlen) >>= _) pos = _
    rw [bind_ok (typed.1 holds), get_bind, if_neg (by simp)]
    rfl
  · obtain ⟨error, failed⟩ := typed.2 never
    exact ⟨error, bind_error failed⟩

/-- A reader that ignores the announced length, over a writer that never writes nothing. -/
theorem rdata_framed_of_typed (emits : Emits rdata.encode 1 65535)
    (reads : ∀ rdlen finish, Framed wire .truncated rdata.layout rdata.encode
      (fun buf => RData.parseTyped rdata.rtype buf rdlen finish) rdata) :
    FramedSized wire .truncated rdata.layout rdata.encode (RData.parse rdata.rtype) rdata := by
  intro out compressor ledger tied
  obtain ⟨segment, compressor', lower, _, run⟩ := emits out.length compressor
  obtain ⟨segment', after, run', tied', read, _⟩ :=
    reads segment.length (out.length + segment.length) out compressor ledger tied
  rw [run out rfl] at run'
  obtain ⟨sameOut, rfl⟩ := Prod.mk.inj run'
  obtain rfl := List.append_cancel_left sameOut
  refine ⟨segment, compressor', run out rfl, tied', fun rest => ?_,
    fun _ => parse_cut rdata.rtype out segment⟩
  exact parse_settles (by simp) (by omega) (read rest)

theorem rdata_framed (rdata : RData) (regular : rdata.Regular) :
    FramedSized wire .truncated rdata.layout rdata.encode (RData.parse rdata.rtype) rdata := by
  have emits := rdata_emits rdata regular
  obtain ⟨_, shape⟩ := regular
  cases rdata with
  | a address => exact rdata_framed_of_typed emits fun _ _ => (array_framed address).map RData.a
  | aaaa address =>
    exact rdata_framed_of_typed emits fun _ _ => (array_framed address).map RData.aaaa
  | ns target =>
    exact rdata_framed_of_typed emits fun _ _ => (name_framed target shape).map RData.ns
  | cname target =>
    exact rdata_framed_of_typed emits fun _ _ => (name_framed target shape).map RData.cname
  | ptr target => exact rdata_framed_of_typed emits fun _ _ =>
    (name_framed target shape).map RData.ptr
  | soa fields =>
    exact rdata_framed_of_typed emits fun _ _ => (soa_framed fields shape.1 shape.2).map RData.soa
  | mx preference exchange =>
    exact rdata_framed_of_typed emits (mx_framed preference exchange shape)
  | srv priority weight port target =>
    exact rdata_framed_of_typed emits (srv_framed priority weight port target shape)
  | txt strings =>
    intro out compressor ledger tied
    have enough := length_le_stringsOctets strings
    have some := List.length_pos_iff.mpr shape.1
    obtain ⟨_, _, wrote, tied', _⟩ :=
      bytes_framed (stringsOctets strings) out compressor ledger tied
    obtain ⟨sameOut, rfl⟩ := Prod.mk.inj wrote
    obtain rfl := List.append_cancel_left sameOut
    refine ⟨stringsOctets strings, compressor, ?_, tied', fun rest => ?_,
      fun _ => parse_cut typeTxt out _⟩
    · simp only [RData.encode, writeStrings_eq_put, put]
    · refine parse_settles (by simp) (by omega)
        ⟨fun _ => ?_, fun never => absurd ⟨trivial, trivial⟩ never⟩
      exact bind_ok (parseStrings_exact strings shape.2 out rest _ [] enough)
  | unknown rtype data =>
    intro out compressor ledger tied
    obtain ⟨_, _, plain⟩ := shape
    obtain ⟨_, _, wrote, tied', _⟩ := bytes_framed data out compressor ledger tied
    obtain ⟨sameOut, rfl⟩ := Prod.mk.inj wrote
    obtain rfl := List.append_cancel_left sameOut
    refine ⟨data, compressor, rfl, tied', fun rest => ?_, fun _ => parse_cut rtype out data⟩
    by_cases empty : data = []
    · subst empty
      -- Nothing is written for empty data of a kept type.
      refine ⟨fun _ => ?_, fun never => absurd ⟨trivial, trivial⟩ never⟩
      unfold RData.parse
      rw [get_bind, if_neg (by simp)]
      rfl
    · have positive : data.length ≠ 0 := fun zero => empty (List.length_eq_zero_iff.mp zero)
      have untyped : rtype ∉ typedCodes := fun member => empty (plain member)
      simp only [typedCodes, List.mem_cons, List.not_mem_nil, or_false, not_or] at untyped
      obtain ⟨noA, noAaaa, noNs, noCname, noPtr, noSoa, noMx, noTxt, noSrv⟩ := untyped
      refine parse_settles (by simp) positive
        ⟨fun _ => ?_, fun never => absurd ⟨trivial, trivial⟩ never⟩
      rw [RData.rtype, RData.parseTyped, if_neg noA, if_neg noAaaa, if_neg noNs,
        if_neg noCname, if_neg noPtr, if_neg noSoa, if_neg noMx, if_neg noTxt, if_neg noSrv]
      exact bind_ok (readBytes_exact out data rest)

/-! ## Records, questions and the OPT record -/

def Record.Decodable (record : Record) : Prop := record.name.Decodable ∧ record.rdata.Decodable

def Question.Decodable (question : Question) : Prop := question.qname.Decodable

def Record.Regular (record : Record) : Prop := record.name.Lowercase ∧ record.rdata.Regular

def Question.layout (question : Question) : List Item := [.name question.qname, gap 2, gap 2]

def Record.layout (record : Record) : List Item :=
  .name record.name :: gap 2 :: gap 2 :: gap 4 :: gap 2 :: record.rdata.layout

def Edns.layout (edns : Edns) : List Item :=
  [gap 1, gap 2, gap 2, gap 4, gap 2, gap edns.options.length]

theorem rtype_ordinary (rdata : RData) (regular : rdata.Regular) :
    rdata.rtype ≠ typeTsig ∧ rdata.rtype ≠ typeOpt := by
  cases rdata with
  | unknown rtype data => exact ⟨regular.2.2.1, regular.2.1⟩
  | _ => simp only [RData.rtype]; decide

theorem record_framed (record : Record) (regular : record.Regular) :
    Framed wire .truncated record.layout record.encode parseEntry (.rr record) := by
  have notTsig : record.rtype ≠ typeTsig := (rtype_ordinary record.rdata regular.2).1
  have notOpt : record.rtype ≠ typeOpt := (rtype_ordinary record.rdata regular.2).2
  have body : FramedSized wire .truncated record.rdata.layout record.rdata.encode (fun buf rdlen =>
      parseEntryBody buf record.name record.rtype record.class_ record.ttl rdlen)
      (.rr record) := by
    simp only [parseEntryBody, if_neg notTsig, if_neg notOpt]
    exact (rdata_framed record.rdata regular.2).through bind_ok bind_error
  change Framed wire .truncated (.name record.name :: gap 2 :: gap 2 :: gap 4 :: gap 2 ::
    record.rdata.layout)
    (andThen record.name.write <| andThen (put (toBe16 record.rtype)) <|
    andThen (put (toBe16 record.class_)) <| andThen (put (toBe32 record.ttl)) <|
    writeSized record.rdata.encode) parseEntry (.rr record)
  apply Framed.first _ (name_framed record.name regular.1)
  apply Framed.first _ (u16_framed record.rtype)
  apply Framed.first _ (u16_framed record.class_)
  apply Framed.first _ (u32_framed record.ttl)
  exact sized_framed (rdata_emits record.rdata regular.2) body

theorem question_framed (question : Question) (lowercase : question.qname.Lowercase)
    (msg : Message) :
    Framed wire .truncated question.layout question.encode (fun buf => parseQuestion buf msg)
      { msg with questions := msg.questions ++ [question] } := by
  change Framed wire .truncated [.name question.qname, gap 2, gap 2]
    (andThen question.qname.write <| andThen (put (toBe16 question.qtype)) <|
    put (toBe16 question.qclass)) (fun buf => parseQuestion buf msg) _
  apply Framed.first _ (name_framed question.qname lowercase)
  apply Framed.first _ (u16_framed question.qtype)
  exact (u16_framed question.qclass).map fun qclass =>
    { msg with questions := msg.questions ++ [{ question with qclass }] }

theorem rootName_framed :
    Framed wire .truncated [gap 1] (put [0]) DnsName.fromWire DnsName.root := by
  have plain := plainName_framed DnsName.root rfl
  rwa [writePlain_eq_put] at plain

theorem edns_framed (edns : Edns) (small : edns.options.length ≤ 65535) :
    Framed wire .truncated edns.layout edns.encode parseEntry (.opt edns) := by
  have size := ofNat16_toNat edns.options.length small
  have options : Framed wire .truncated [gap edns.options.length] (put edns.options)
      (fun buf => parseEntryBody buf DnsName.root typeOpt edns.udpPayload edns.ttl
        (UInt16.ofNat edns.options.length).toNat) (.opt edns) := by
    rw [size]
    have read := (bytes_framed edns.options).map fun data =>
      Entry.opt (Edns.ofOpt edns.udpPayload edns.ttl data)
    rw [ofOpt_ttl] at read
    exact read
  change Framed wire .truncated [gap 1, gap 2, gap 2, gap 4, gap 2, gap edns.options.length]
    (andThen (put [0]) <| andThen (put (toBe16 typeOpt)) <|
    andThen (put (toBe16 edns.udpPayload)) <| andThen (put (toBe32 edns.ttl)) <|
    andThen (put (toBe16 (UInt16.ofNat edns.options.length))) <| put edns.options)
    parseEntry (.opt edns)
  apply Framed.first _ rootName_framed
  apply Framed.first _ (u16_framed typeOpt)
  apply Framed.first _ (u16_framed edns.udpPayload)
  apply Framed.first _ (u32_framed edns.ttl)
  exact Framed.first _ (u16_framed _) options

/-! ## Sections -/

theorem section_framed (push : Message → Record → Message) (record : Record)
    (regular : record.Regular) (msg : Message) :
    Framed wire .truncated record.layout record.encode (fun buf => parseSection push buf msg)
      (push msg record) := by
  exact FramedSized.through (record_framed record regular) bind_ok bind_error

def Message.take (msg : Message) (start : Nat) : Entry → Message
  | .rr record => { msg with additionals := msg.additionals ++ [record] }
  | .opt edns => if msg.edns.isNone then { msg with edns := some edns } else msg
  | .tsig tsig => { msg with tsig := some tsig, tsigStart := some start }

theorem additional_ok {buf : Bytes} {entry : Entry} (msg : Message) {start finish : Nat}
    (read : parseEntry buf start = .ok (entry, finish)) :
    parseAdditional buf msg start = .ok (msg.take start entry, finish) := by
  simp only [parseAdditional]
  rw [get_bind, bind_ok read]
  cases entry <;> rfl

/-- The position remembered for a TSIG does not matter to another entry. -/
theorem additional_framed {write : Writer Compressor} {entry : Entry} (msg result : Message)
    (reads : Framed wire .truncated trace write parseEntry entry)
    (taken : ∀ start, msg.take start entry = result) :
    Framed wire .truncated trace write (fun buf => parseAdditional buf msg) result := by
  refine FramedSized.through reads (fun {buf size pos} read => ?_)
    fun {buf size pos error} failed => ?_
  · rw [← taken pos]
    exact additional_ok msg read
  · simp only [parseAdditional]
    rw [get_bind]
    exact bind_error failed

theorem questions_framed (questions : List Question)
    (lowercase : ∀ question ∈ questions, question.qname.Lowercase) (msg : Message) :
    Framed wire .truncated (questions.flatMap Question.layout)
      (fun state => questions.foldl (fun state question => question.encode state) state)
      (fun buf => forCount questions.length (parseQuestion buf) msg)
      { msg with questions := msg.questions ++ questions } := by
  exact Framed.collect (fun msg items => { msg with questions := msg.questions ++ items })
    (by simp) (by simp)
    questions (fun question member msg =>
      question_framed question (lowercase question member) msg) msg

theorem answers_framed (records : List Record) (regular : ∀ record ∈ records, record.Regular)
    (msg : Message) :
    Framed wire .truncated (records.flatMap Record.layout) (writeRecords records)
      (fun buf => forCount records.length (parseAnswer buf) msg)
      { msg with answers := msg.answers ++ records } := by
  exact Framed.collect (fun msg items => { msg with answers := msg.answers ++ items })
    (by simp) (by simp)
    records (fun record member msg => section_framed _ record (regular record member) msg) msg

theorem authorities_framed (records : List Record) (regular : ∀ record ∈ records, record.Regular)
    (msg : Message) :
    Framed wire .truncated (records.flatMap Record.layout) (writeRecords records)
      (fun buf => forCount records.length (parseAuthority buf) msg)
      { msg with authorities := msg.authorities ++ records } := by
  exact Framed.collect (fun msg items => { msg with authorities := msg.authorities ++ items })
    (by simp) (by simp)
    records (fun record member msg => section_framed _ record (regular record member) msg) msg

theorem additionals_framed (records : List Record) (regular : ∀ record ∈ records, record.Regular)
    (msg : Message) :
    Framed wire .truncated (records.flatMap Record.layout) (writeRecords records)
      (fun buf => forCount records.length (parseAdditional buf) msg)
      { msg with additionals := msg.additionals ++ records } := by
  exact Framed.collect (fun msg items => { msg with additionals := msg.additionals ++ items })
    (by simp) (by simp) records (fun record member msg =>
      additional_framed msg { msg with additionals := msg.additionals ++ [record] }
        (record_framed record (regular record member)) fun _ => rfl) msg

/-! ## Messages -/

def writeEdns : Option Edns → Writer Compressor
  | some edns => edns.encode
  | none => fun state => state

def ednsLayout : Option Edns → List Item
  | some edns => edns.layout
  | none => []

theorem additionalSection_framed (records : List Record) (edns : Option Edns)
    (regular : ∀ record ∈ records, record.Regular)
    (small : ∀ opt ∈ edns, opt.options.length ≤ 65535) (msg : Message) (fresh : msg.edns = none) :
    Framed wire .truncated (records.flatMap Record.layout ++ ednsLayout edns)
      (andThen (writeRecords records) (writeEdns edns))
      (fun buf => forCount (records.length + if edns.isSome then 1 else 0)
        (parseAdditional buf) msg)
      { msg with additionals := msg.additionals ++ records, edns := edns } := by
  have first := additionals_framed records regular msg
  simp only [forCount_add]
  apply Framed.bind _ first
  cases edns with
  | none =>
    have same : ({ msg with additionals := msg.additionals ++ records, edns := none } : Message) =
        { msg with additionals := msg.additionals ++ records } := by
      rw [← fresh]
    rw [same]
    exact Framed.pure _
  | some opt =>
    have entry := additional_framed { msg with additionals := msg.additionals ++ records }
      { msg with additionals := msg.additionals ++ records, edns := some opt }
      (edns_framed opt (small opt rfl)) (fun _ => by simp [Message.take, fresh])
    simpa only [Option.isSome_some, if_true, forCount, bind_pure, writeEdns, ednsLayout] using entry

structure Message.Decodable (msg : Message) : Prop where
  opcode : msg.flags.opcode.toNat < 16
  rcode : msg.flags.rcode.toNat < 16
  questionCount : msg.questions.length ≤ 65535
  answerCount : msg.answers.length ≤ 65535
  authorityCount : msg.authorities.length ≤ 65535
  additionalCount : (msg.additionals.length + if msg.edns.isSome then 1 else 0) ≤ 65535
  questions : ∀ question ∈ msg.questions, question.Decodable
  answers : ∀ record ∈ msg.answers, record.Decodable
  authorities : ∀ record ∈ msg.authorities, record.Decodable
  additionals : ∀ record ∈ msg.additionals, record.Decodable
  options : ∀ edns ∈ msg.edns, edns.options.length ≤ 65535

theorem encodeBody_eq (msg : Message) :
    msg.encodeBody = (andThen (put (toBe16 msg.id)) <| andThen (put (toBe16 msg.flags.toU16)) <|
      andThen (put (toBe16 (UInt16.ofNat msg.questions.length))) <|
      andThen (put (toBe16 (UInt16.ofNat msg.answers.length))) <|
      andThen (put (toBe16 (UInt16.ofNat msg.authorities.length))) <|
      andThen (put (toBe16 (UInt16.ofNat
        (msg.additionals.length + if msg.edns.isSome then 1 else 0)))) <|
      andThen (fun state => msg.questions.foldl
        (fun state question => question.encode state) state) <|
      andThen (writeRecords msg.answers) <| andThen (writeRecords msg.authorities) <|
      andThen (writeRecords msg.additionals) (writeEdns msg.edns)) := by
  funext state
  simp only [Message.encodeBody, Message.writeHeader, andThen, writeRecords, List.foldl_append]
  cases msg.edns <;> rfl

/-- The messages the decoder can return, TSIG aside. -/
structure Message.Regular (msg : Message) : Prop where
  opcode : msg.flags.opcode.toNat < 16
  rcode : msg.flags.rcode.toNat < 16
  questionCount : msg.questions.length ≤ 65535
  answerCount : msg.answers.length ≤ 65535
  authorityCount : msg.authorities.length ≤ 65535
  additionalCount : (msg.additionals.length + if msg.edns.isSome then 1 else 0) ≤ 65535
  questions : ∀ question ∈ msg.questions, question.qname.Lowercase
  answers : ∀ record ∈ msg.answers, record.Regular
  authorities : ∀ record ∈ msg.authorities, record.Regular
  additionals : ∀ record ∈ msg.additionals, record.Regular
  options : ∀ edns ∈ msg.edns, edns.options.length ≤ 65535

theorem Record.Decodable.regular {record : Record} (decodable : record.Decodable) :
    record.Regular :=
  ⟨decodable.1.1, decodable.2.regular⟩

theorem Message.Decodable.regular {msg : Message} (decodable : msg.Decodable) : msg.Regular where
  opcode := decodable.opcode
  rcode := decodable.rcode
  questionCount := decodable.questionCount
  answerCount := decodable.answerCount
  authorityCount := decodable.authorityCount
  additionalCount := decodable.additionalCount
  questions := fun question member => (decodable.questions question member).1
  answers := fun record member => (decodable.answers record member).regular
  authorities := fun record member => (decodable.authorities record member).regular
  additionals := fun record member => (decodable.additionals record member).regular
  options := decodable.options

def Message.layoutBefore (msg : Message) (rest : List Item) : List Item :=
  gap 2 :: gap 2 :: gap 2 :: gap 2 :: gap 2 :: gap 2 ::
    (msg.questions.flatMap Question.layout ++ (msg.answers.flatMap Record.layout ++
      (msg.authorities.flatMap Record.layout ++ rest)))

def Message.layout (msg : Message) : List Item :=
  msg.layoutBefore (msg.additionals.flatMap Record.layout ++ ednsLayout msg.edns)

def Message.writeBefore (msg : Message) (count : UInt16) (rest : Writer Compressor) :
    Writer Compressor :=
  andThen (put (toBe16 msg.id)) <| andThen (put (toBe16 msg.flags.toU16)) <|
    andThen (put (toBe16 (UInt16.ofNat msg.questions.length))) <|
    andThen (put (toBe16 (UInt16.ofNat msg.answers.length))) <|
    andThen (put (toBe16 (UInt16.ofNat msg.authorities.length))) <|
    andThen (put (toBe16 count)) <|
    andThen (fun state => msg.questions.foldl
      (fun state question => question.encode state) state) <|
    andThen (writeRecords msg.answers) <| andThen (writeRecords msg.authorities) rest

def Message.parseBefore (buf : Bytes) : Parse (UInt16 × Message) := do
  let id ← readU16 buf
  let flags ← readU16 buf
  let qd ← readU16 buf
  let an ← readU16 buf
  let ns ← readU16 buf
  let ar ← readU16 buf
  let msg ← forCount qd.toNat (parseQuestion buf) (Message.new id (Flags.fromU16 flags))
  let msg ← forCount an.toNat (parseAnswer buf) msg
  let msg ← forCount ns.toNat (parseAuthority buf) msg
  pure (ar, msg)

theorem parseBody_eq (buf : Bytes) :
    Message.parseBody buf = Message.parseBefore buf >>= fun opened =>
      forCount opened.1.toNat (parseAdditional buf) opened.2 := by
  simp only [Message.parseBody, Message.parseBefore, bind_assoc, pure_bind]

theorem messageBefore_framed (msg : Message) (regular : msg.Regular) {count : UInt16}
    {rest : Writer Compressor} {result : α} (final : Bytes → UInt16 × Message → Parse α)
    (section_ : Framed wire .truncated trace rest (fun buf => final buf (count,
      { msg with additionals := [], edns := none, tsig := none, tsigStart := none })) result) :
    Framed wire .truncated (msg.layoutBefore trace) (msg.writeBefore count rest)
      (fun buf => Message.parseBefore buf >>= final buf) result := by
  have flags := fromU16_toU16 msg.flags regular.opcode regular.rcode
  unfold Message.layoutBefore Message.writeBefore
  simp only [Message.parseBefore, bind_assoc, pure_bind]
  apply Framed.first _ (u16_framed msg.id)
  apply Framed.first _ (u16_framed msg.flags.toU16)
  apply Framed.first _ (u16_framed (UInt16.ofNat msg.questions.length))
  apply Framed.first _ (u16_framed (UInt16.ofNat msg.answers.length))
  apply Framed.first _ (u16_framed (UInt16.ofNat msg.authorities.length))
  apply Framed.first _ (u16_framed count)
  simp only [flags, ofNat16_toNat _ regular.questionCount, ofNat16_toNat _ regular.answerCount,
    ofNat16_toNat _ regular.authorityCount]
  apply Framed.bind _ (questions_framed msg.questions regular.questions _)
  apply Framed.bind _ (answers_framed msg.answers regular.answers _)
  exact Framed.bind _ (authorities_framed msg.authorities regular.authorities _) section_

theorem message_framed (msg : Message) (regular : msg.Regular) :
    Framed wire .truncated msg.layout msg.encodeBody Message.parseBody
      { msg with tsig := none, tsigStart := none } := by
  rw [encodeBody_eq]
  simp only [funext parseBody_eq]
  apply messageBefore_framed msg regular
  rw [ofNat16_toNat _ regular.additionalCount]
  exact additionalSection_framed msg.additionals msg.edns regular.additionals regular.options _ rfl

/-- A message is read back if its names hang on short chains, and refused if not. -/
theorem parse_encode_settles (msg : Message) (regular : msg.Regular) :
    Settles (wire.Legible (Ledger.of []) msg.layout) (Message.parse msg.encode)
      { msg with tsig := none, tsigStart := none } := by
  obtain ⟨segment, compressor, run, _, read⟩ :=
    (message_framed msg regular).exact [] Compressor.default _ wire_start
  have octets : msg.encode = segment := by
    rw [Message.encode, run, List.nil_append]
  have settled := read []
  rw [List.nil_append, List.append_nil, ← octets] at settled
  refine ⟨fun legible => ?_, fun broken => ?_⟩
  · have parsed : Message.parseBody msg.encode 0 = .ok (_, _) := settled.1 legible
    rw [Message.parse, parsed]
    rfl
  · obtain ⟨error, failed⟩ := settled.2 broken
    have refused : Message.parseBody msg.encode 0 = .error error := failed
    exact ⟨error, by rw [Message.parse, refused]; rfl⟩

/-- The ledger knows how long a message gets. -/
theorem encode_length (msg : Message) (regular : msg.Regular) :
    msg.encode.length = (Ledger.of msg.layout).length := by
  obtain ⟨segment, compressor, run, tied, _⟩ :=
    message_framed msg regular [] Compressor.default _ wire_start
  rw [Message.encode, run]
  exact tied.2

theorem rdata_names (decodable : rdata.Decodable) (member : .name name ∈ rdata.layout) :
    name.Decodable := by
  obtain ⟨_, shape⟩ := decodable
  cases rdata <;> simp [RData.layout, gap] at member
  case ns => rw [member]; exact shape
  case cname => rw [member]; exact shape
  case ptr => rw [member]; exact shape
  case mx => rw [member]; exact shape
  case soa =>
    rcases member with rfl | rfl
    · exact shape.1
    · exact shape.2

theorem record_names {records : List Record} (decodable : ∀ record ∈ records, record.Decodable)
    (member : .name name ∈ records.flatMap Record.layout) : name.Decodable := by
  obtain ⟨record, listed, inside⟩ := List.mem_flatMap.mp member
  obtain ⟨owner, rdata⟩ := decodable record listed
  simp only [Record.layout, gap, List.mem_cons, Item.name.injEq, reduceCtorEq, false_or] at inside
  rcases inside with rfl | inside
  · exact owner
  · exact rdata_names rdata inside

theorem message_names {msg : Message} (decodable : msg.Decodable)
    (member : .name name ∈ msg.layout) :
    name.Decodable := by
  simp only [Message.layout, Message.layoutBefore, gap, List.mem_cons, reduceCtorEq, false_or,
    List.mem_append] at member
  rcases member with asked | answered | vouched | extra | opt
  · obtain ⟨question, listed, inside⟩ := List.mem_flatMap.mp asked
    simp only [Question.layout, gap, List.mem_cons, Item.name.injEq, reduceCtorEq, List.not_mem_nil,
      or_false] at inside
    rw [inside]
    exact decodable.questions question listed
  · exact record_names decodable.answers answered
  · exact record_names decodable.authorities vouched
  · exact record_names decodable.additionals extra
  · cases edns : msg.edns <;> rw [edns] at opt <;> simp [ednsLayout, Edns.layout, gap] at opt

theorem ShortChains.legible {items : List Item} (short : ShortChains items) :
    wire.Legible (Ledger.of []) items :=
  (legible_iff items []).mpr fun before name after split => (short before name after split).2

/-- Encoding ignores a TSIG, which is signed over the finished message. -/
theorem parse_encode (msg : Message) (decodable : msg.Decodable) :
    Message.parse msg.encode = .ok { msg with tsig := none, tsigStart := none } := by
  have short : ShortChains msg.layout := shortChains_of_decodable fun _ => message_names decodable
  exact (parse_encode_settles msg decodable.regular).1 short.legible

def aliasReply : Message :=
  let zone : DnsName := ⟨[[101, 120], [116, 101, 115, 116]], by decide⟩
  let host : DnsName := ⟨[[119, 119, 119], [101, 120], [116, 101, 115, 116]], by decide⟩
  { Message.new 7 { Flags.default with qr := true, rd := true, rcode := 3 } with
    questions := [{ qname := host, qtype := typeA, qclass := classIn }]
    answers := [{ name := host, class_ := classIn, ttl := 60, rdata := .cname zone },
      { name := zone, class_ := classIn, ttl := 60, rdata := .mx 10 host }]
    additionals := [{ name := zone, class_ := classIn, ttl := 5, rdata := .txt [[104, 105], []] }]
    edns := some { Edns.ours with doBit := true } }

theorem aliasReply_decodable : aliasReply.Decodable := by
  refine ⟨by decide, by decide, by decide, by decide, by decide, by decide, ?_, ?_, ?_, ?_, ?_⟩
  · intro question member
    obtain rfl := List.mem_singleton.mp member
    exact ⟨by decide, by decide⟩
  · intro record member
    rcases List.mem_cons.mp member with rfl | member
    · exact ⟨⟨by decide, by decide⟩, by decide +kernel, by decide, by decide⟩
    · obtain rfl := List.mem_singleton.mp member
      exact ⟨⟨by decide, by decide⟩, by decide +kernel, by decide, by decide⟩
  · intro record member
    cases member
  · intro record member
    obtain rfl := List.mem_singleton.mp member
    exact ⟨⟨by decide, by decide⟩, by decide +kernel, by decide, by decide⟩
  · intro edns member
    cases member
    decide

theorem parse_encode_aliasReply :
    aliasReply.Decodable ∧ Message.parse aliasReply.encode = .ok aliasReply :=
  ⟨aliasReply_decodable, parse_encode aliasReply aliasReply_decodable⟩

end Rdns.Proto
