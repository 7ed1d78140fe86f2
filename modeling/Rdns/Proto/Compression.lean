import Rdns.Proto.NameWire

/-!
# Name compression across one buffer

Many names go through one `Compressor` into one buffer.  The `Ledger` is the
abstract view of that history: how long the buffer is, and for each registered
suffix how many pointers a decoder follows from the place where it was written.
The concrete writer refines it, so the number of jumps of every later decode is
known from the names alone, and a name decodes exactly when that number stays
within the decoder's limit.
-/

set_option autoImplicit false

namespace Rdns.Proto

open Rdns.Lib

variable {labels : List Label} {depth count : Nat} {label : Label} {rest : List Label} {out : Bytes}
  {offsets : HashMap (List Label) UInt16} {depths : HashMap (List Label) Nat}

/-! ## Pointer octets -/

theorem pointer_word (offset : UInt16) (small : offset.toNat ≤ maxPointerOffset) :
    (0xC000 ||| offset : UInt16).toNat = 0xC000 + offset.toNat := by
  unfold maxPointerOffset at small
  have sum := shiftLeft_or_low 3 offset.toNat 14 (by omega)
  simpa [UInt16.toNat_or] using sum

theorem pointer_high (offset : UInt16) (small : offset.toNat ≤ maxPointerOffset) :
    ((0xC000 ||| offset : UInt16) >>> 8).toUInt8.toNat = 192 + offset.toNat / 256 := by
  have word := pointer_word offset small
  unfold maxPointerOffset at small
  simp only [UInt16.toNat_toUInt8, UInt16.toNat_shiftRight, word]
  simp [Nat.shiftRight_eq_div_pow]
  omega

theorem pointer_low (offset : UInt16) (small : offset.toNat ≤ maxPointerOffset) :
    (0xC000 ||| offset : UInt16).toUInt8.toNat = offset.toNat % 256 := by
  simp only [UInt16.toNat_toUInt8, pointer_word offset small]
  omega

theorem pointer_bits (offset : UInt16) (small : offset.toNat ≤ maxPointerOffset) :
    ((0xC000 ||| offset : UInt16) >>> 8).toUInt8 &&& 0xC0 = 0xC0 := by
  apply UInt8.toNat_inj.mp
  rw [UInt8.toNat_and, pointer_high offset small]
  have bound : offset.toNat / 256 < 64 := by
    unfold maxPointerOffset at small
    omega
  generalize offset.toNat / 256 = high at bound
  revert high
  decide

theorem pointer_target (offset : UInt16) (small : offset.toNat ≤ maxPointerOffset) :
    pointerTarget ((0xC000 ||| offset : UInt16) >>> 8).toUInt8
      (0xC000 ||| offset : UInt16).toUInt8 = offset.toNat := by
  unfold pointerTarget
  rw [pointer_high offset small, pointer_low offset small]
  have masked : (192 + offset.toNat / 256) &&& 0x3F = offset.toNat / 256 := by
    have mod := Nat.and_two_pow_sub_one_eq_mod (192 + offset.toNat / 256) 6
    unfold maxPointerOffset at small
    simp only [Nat.reducePow, Nat.reduceSub] at mod
    omega
  rw [masked, shiftLeft_or_low _ _ 8 (by omega)]
  omega

/-! ## The ledger -/

/-- What writing a name now costs: the octets it takes, and the pointers a
decoder follows through it. -/
structure Loan where
  length : Nat
  depth : Nat

/-- The longest registered suffix is borrowed: two octets, and one more pointer
than from the place it was written. -/
def borrow (depths : HashMap (List Label) Nat) : List Label → Loan
  | [] => ⟨1, 0⟩
  | label :: rest =>
    match depths.get? (label :: rest) with
    | some depth => ⟨2, depth + 1⟩
    | none => ⟨label.length + 1 + (borrow depths rest).length, (borrow depths rest).depth⟩

/-- The suffixes written out literally become available, with the depth of the
name that wrote them, as long as a pointer can reach them. -/
def lend (depth : Nat) : List Label → Nat → HashMap (List Label) Nat → HashMap (List Label) Nat
  | [], _, depths => depths
  | label :: rest, pos, depths =>
    match depths.get? (label :: rest) with
    | some _ => depths
    | none => lend depth rest (pos + (label.length + 1))
        (if pos ≤ maxPointerOffset then depths.insert (label :: rest) depth else depths)

structure Ledger where
  length : Nat
  depths : HashMap (List Label) Nat

def Ledger.name (ledger : Ledger) (labels : List Label) : Ledger where
  length := ledger.length + (borrow ledger.depths labels).length
  depths := lend (borrow ledger.depths labels).depth labels ledger.length ledger.depths

theorem borrow_insert (depths : HashMap (List Label) Nat) (key : List Label) (depth : Nat) :
    ∀ labels : List Label, labels.length < key.length →
      borrow (depths.insert key depth) labels = borrow depths labels := by
  intro labels
  induction labels with
  | nil => intro _; rfl
  | cons label rest ih =>
    intro shorter
    have other : label :: rest ≠ key := by
      rintro rfl
      omega
    simp only [List.length_cons] at shorter
    simp only [borrow, HashMap.get?_insert, if_neg other, ih (by omega)]

/-! ## The writer refines the ledger -/

/-- Both tables hold the same suffixes, and from each recorded offset the
buffer spells that suffix through exactly the recorded number of pointers. -/
structure Linked (out : Bytes) (offsets : HashMap (List Label) UInt16)
    (depths : HashMap (List Label) Nat) : Prop where
  keys : ∀ suffix, (offsets.get? suffix).isSome = (depths.get? suffix).isSome
  spelled : ∀ suffix offset depth, offsets.get? suffix = some offset →
    depths.get? suffix = some depth → offset.toNat ≤ maxPointerOffset ∧
      ∃ finish, Spells out offset.toNat suffix depth finish

theorem Linked.append (linked : Linked out offsets depths) (more : Bytes) :
    Linked (out ++ more) offsets depths := by
  refine ⟨linked.keys, fun suffix offset depth found known => ?_⟩
  obtain ⟨small, finish, spelled⟩ := linked.spelled suffix offset depth found known
  exact ⟨small, finish, spelled.append more⟩

/-- The state inside `to_wire`, before `labels` is written at the end of `out`.
Entries at most as long as `labels` are already spelled; the entries this very
name has registered are longer, and become spelled once the rest is. -/
structure Pending (out : Bytes) (offsets : HashMap (List Label) UInt16)
    (depths : HashMap (List Label) Nat) (labels : List Label) (depth : Nat) : Prop where
  keys : ∀ suffix, (offsets.get? suffix).isSome = (depths.get? suffix).isSome
  small : ∀ suffix offset, offsets.get? suffix = some offset → offset.toNat ≤ maxPointerOffset
  short : ∀ suffix offset known, offsets.get? suffix = some offset →
    depths.get? suffix = some known → suffix.length ≤ labels.length →
      ∃ finish, Spells out offset.toNat suffix known finish
  later : ∀ suffix offset known, offsets.get? suffix = some offset →
    depths.get? suffix = some known → ∀ more finish,
      Spells (out ++ more) out.length labels depth finish →
        ∃ finish', Spells (out ++ more) offset.toNat suffix known finish'

theorem Linked.pending (linked : Linked out offsets depths) (labels : List Label) (depth : Nat) :
    Pending out offsets depths labels depth where
  keys := linked.keys
  small := by
    intro suffix offset found
    have known := linked.keys suffix
    rw [found] at known
    obtain ⟨value, present⟩ := Option.isSome_iff_exists.mp known.symm
    exact (linked.spelled suffix offset value found present).1
  short := fun suffix offset known found present _ =>
    (linked.spelled suffix offset known found present).2
  later := by
    intro suffix offset known found present more _ _
    obtain ⟨_, finish, spelled⟩ := linked.spelled suffix offset known found present
    exact ⟨finish, spelled.append more⟩

theorem Pending.finish {out segment : Bytes} {finish : Nat}
    (pending : Pending out offsets depths labels depth)
    (spelled : Spells (out ++ segment) out.length labels depth finish) :
    Linked (out ++ segment) offsets depths :=
  ⟨pending.keys, fun suffix offset known found present =>
    ⟨pending.small suffix offset found,
      pending.later suffix offset known found present segment finish spelled⟩⟩

theorem octet_length (label : Label) (valid : ValidLabel label) :
    (UInt8.ofNat label.length).toNat = label.length := by
  have short := valid.2
  unfold maxLabelLen at short
  simp only [UInt8.toNat_ofNat']
  omega

theorem spells_label (out : Bytes) (label : Label) (valid : ValidLabel label) (more : Bytes)
    {finish : Nat} (tail : Spells (out ++ (UInt8.ofNat label.length :: label) ++ more)
      (out.length + (label.length + 1)) rest depth finish) :
    Spells (out ++ (UInt8.ofNat label.length :: label) ++ more) out.length (label :: rest)
      depth finish := by
  have size := octet_length label valid
  have head : (out ++ (UInt8.ofNat label.length :: label) ++ more)[out.length]? =
      some (UInt8.ofNat label.length) := by
    simp
  have octets : slice (out ++ (UInt8.ofNat label.length :: label) ++ more) (out.length + 1)
      (UInt8.ofNat label.length).toNat = some label := by
    rw [size]
    have exact := slice_exact (out ++ [UInt8.ofNat label.length]) label more
    simpa using exact
  have positive : UInt8.ofNat label.length ≠ 0 := by
    intro zero
    have nat := congrArg UInt8.toNat zero
    rw [size] at nat
    have long := valid.1
    simp only [UInt8.toNat_zero] at nat
    omega
  refine .label head positive (by rw [size]; exact valid.2) octets ?_
  rw [size, Nat.add_assoc, Nat.add_comm 1]
  exact tail

theorem spells_pointer (out : Bytes) (offset : UInt16) (small : offset.toNat ≤ maxPointerOffset)
    {finish : Nat} (target : Spells out offset.toNat labels depth finish) :
    Spells (out ++ toBe16 (0xC000 ||| offset)) out.length labels (depth + 1) (out.length + 2) := by
  have inside : offset.toNat < out.length := by
    cases target with
    | root zero => exact (List.getElem?_eq_some_iff.mp zero).1
    | label head _ _ _ _ => exact (List.getElem?_eq_some_iff.mp head).1
    | pointer head _ _ _ _ => exact (List.getElem?_eq_some_iff.mp head).1
  have aim := pointer_target offset small
  have second : (out ++ toBe16 (0xC000 ||| offset))[out.length + 1]? =
      some (0xC000 ||| offset : UInt16).toUInt8 := by
    simp [toBe16]
  have spelled : Spells (out ++ toBe16 (0xC000 ||| offset))
      (pointerTarget ((0xC000 ||| offset : UInt16) >>> 8).toUInt8
        (0xC000 ||| offset : UInt16).toUInt8) labels depth finish := by
    rw [aim]
    exact target.append _
  exact .pointer (by simp [toBe16]) (pointer_bits offset small) second
    (by rw [aim]; exact inside) spelled

theorem spells_rest {out more : Bytes} {finish : Nat} (valid : ValidLabel label)
    (tail : Spells (out ++ (UInt8.ofNat label.length :: label) ++ more)
      (out ++ (UInt8.ofNat label.length :: label)).length rest depth finish) :
    Spells (out ++ (UInt8.ofNat label.length :: label) ++ more) out.length (label :: rest)
      depth finish := by
  apply spells_label out label valid more
  simpa using tail

theorem Pending.write (pending : Pending out offsets depths (label :: rest) depth)
    (valid : ValidLabel label) :
    Pending (out ++ (UInt8.ofNat label.length :: label)) offsets depths rest depth := by
  refine ⟨pending.keys, pending.small, ?_, ?_⟩
  · intro suffix offset known found present short
    obtain ⟨finish, spelled⟩ := pending.short suffix offset known found present
      (by simp only [List.length_cons]; omega)
    exact ⟨finish, spelled.append _⟩
  · intro suffix offset known found present more finish tail
    have spelled := spells_rest valid tail
    rw [List.append_assoc] at spelled ⊢
    exact pending.later suffix offset known found present _ finish spelled

theorem Pending.register {suffix rest : List Label} {start : Nat}
    (pending : Pending out offsets depths rest depth) (longer : rest.length < suffix.length)
    (reachable : start ≤ maxPointerOffset)
    (whole : ∀ more finish, Spells (out ++ more) out.length rest depth finish →
      Spells (out ++ more) start suffix depth finish) :
    Pending out (offsets.insert suffix (UInt16.ofNat start)) (depths.insert suffix depth) rest
      depth := by
  have position : (UInt16.ofNat start).toNat = start := by
    unfold maxPointerOffset at reachable
    simp only [UInt16.toNat_ofNat']
    omega
  refine ⟨?_, ?_, ?_, ?_⟩
  · intro other
    simp only [HashMap.get?_insert]
    split
    · rfl
    · exact pending.keys other
  · intro other offset found
    simp only [HashMap.get?_insert] at found
    split at found
    · cases found
      rw [position]
      exact reachable
    · exact pending.small other offset found
  · intro other offset known found present short
    have apart : other ≠ suffix := by
      rintro rfl
      omega
    simp only [HashMap.get?_insert, if_neg apart] at found present
    exact pending.short other offset known found present short
  · intro other offset known found present more finish tail
    simp only [HashMap.get?_insert] at found present
    by_cases same : other = suffix
    · rw [if_pos same] at found present
      cases found
      cases present
      rw [position, same]
      exact ⟨finish, whole more finish tail⟩
    · rw [if_neg same] at found present
      exact pending.later other offset known found present more finish tail

theorem Pending.step (pending : Pending out offsets depths (label :: rest) depth)
    (valid : ValidLabel label) :
    Pending (out ++ (UInt8.ofNat label.length :: label))
      (if out.length ≤ maxPointerOffset then
        offsets.insert (label :: rest) (UInt16.ofNat out.length) else offsets)
      (if out.length ≤ maxPointerOffset then depths.insert (label :: rest) depth else depths)
      rest depth := by
  have written := pending.write valid
  by_cases reachable : out.length ≤ maxPointerOffset
  · simp only [if_pos reachable]
    exact written.register (by simp) reachable fun _ _ tail => spells_rest valid tail
  · simp only [if_neg reachable]
    exact written

theorem Pending.absent {suffix : List Label} (pending : Pending out offsets depths labels depth)
    (missing : offsets.get? suffix = none) : depths.get? suffix = none := by
  have same := pending.keys suffix
  rw [missing] at same
  exact Option.isNone_iff_eq_none.mp (by simpa using same.symm)

/-- The loop appends a spelling with the length and depth the ledger predicts. -/
structure Appends (labels : List Label) (out : Bytes) (offsets : HashMap (List Label) UInt16)
    (depths : HashMap (List Label) Nat) (segment : Bytes)
    (offsets' : HashMap (List Label) UInt16) : Prop where
  run : toWireLoop labels out (some ⟨offsets⟩) = (out ++ segment, some ⟨offsets'⟩)
  size : segment.length = (borrow depths labels).length
  spelled : Spells (out ++ segment) out.length labels (borrow depths labels).depth
    (out.length + segment.length)
  linked : Linked (out ++ segment) offsets'
    (lend (borrow depths labels).depth labels out.length depths)

theorem appends_pointer {offset : UInt16} (found : offsets.get? (label :: rest) = some offset)
    (pending : Pending out offsets depths (label :: rest) (borrow depths (label :: rest)).depth) :
    Appends (label :: rest) out offsets depths (toBe16 (0xC000 ||| offset)) offsets := by
  have same := pending.keys (label :: rest)
  rw [found] at same
  obtain ⟨known, present⟩ := Option.isSome_iff_exists.mp same.symm
  obtain ⟨finish, target⟩ := pending.short _ offset known found present le_rfl
  have spelled := spells_pointer out offset (pending.small _ offset found) target
  have loan : borrow depths (label :: rest) = ⟨2, known + 1⟩ := by
    simp only [borrow, present]
  rw [loan] at pending
  refine ⟨?_, ?_, ?_, ?_⟩
  · simp only [toWireLoop, found]
  · rw [loan]
    rfl
  · rw [loan]
    exact spelled
  · rw [loan]
    simp only [lend, present]
    exact pending.finish spelled

theorem appends_label {segment : Bytes} {offsets₁ offsets' : HashMap (List Label) UInt16}
    {depths₁ : HashMap (List Label) Nat} (valid : ValidLabel label)
    (found : offsets.get? (label :: rest) = none) (absent : depths.get? (label :: rest) = none)
    (registered : (if out.length ≤ maxPointerOffset then
      offsets.insert (label :: rest) (UInt16.ofNat out.length) else offsets) = offsets₁)
    (counted : (if out.length ≤ maxPointerOffset then
      depths.insert (label :: rest) (borrow depths rest).depth else depths) = depths₁)
    (unchanged : borrow depths₁ rest = borrow depths rest)
    (tail : Appends rest (out ++ (UInt8.ofNat label.length :: label)) offsets₁ depths₁ segment
      offsets') :
    Appends (label :: rest) out offsets depths (UInt8.ofNat label.length :: label ++ segment)
      offsets' := by
  have loan : borrow depths (label :: rest) =
      ⟨label.length + 1 + (borrow depths rest).length, (borrow depths rest).depth⟩ := by
    simp only [borrow, absent]
  have grown : (out ++ (UInt8.ofNat label.length :: label)).length =
      out.length + (label.length + 1) := by simp
  have total : out.length + (UInt8.ofNat label.length :: label ++ segment).length =
      out.length + (label.length + 1) + segment.length := by
    simp only [List.length_append, List.length_cons]
    omega
  obtain ⟨run, size, spelled, linked⟩ := tail
  rw [unchanged] at size
  rw [unchanged, grown] at spelled linked
  refine ⟨?_, ?_, ?_, ?_⟩
  · simp only [toWireLoop, found]
    rw [← List.append_assoc, ← run, ← registered]
    congr 2
    split <;> rfl
  · rw [loan]
    simp only [List.length_append, List.length_cons, size]
  · rw [loan, ← List.append_assoc, total]
    exact spells_label out label valid segment spelled
  · rw [loan, ← List.append_assoc]
    simp only [lend, absent, counted]
    exact linked

theorem toWireLoop_refines :
    ∀ (labels : List Label) (out : Bytes) (offsets : HashMap (List Label) UInt16)
      (depths : HashMap (List Label) Nat), (∀ label ∈ labels, ValidLabel label) →
      Pending out offsets depths labels (borrow depths labels).depth →
      ∃ segment offsets', Appends labels out offsets depths segment offsets' := by
  intro labels
  induction labels with
  | nil =>
    intro out offsets depths _ pending
    have spelled : Spells (out ++ [0]) out.length [] 0 (out.length + 1) :=
      .root (by simp)
    exact ⟨[0], offsets, rfl, rfl, spelled, pending.finish spelled⟩
  | cons label rest ih =>
    intro out offsets depths valid pending
    obtain ⟨labelValid, restValid⟩ := List.forall_mem_cons.mp valid
    cases found : offsets.get? (label :: rest) with
    | some offset => exact ⟨_, offsets, appends_pointer found pending⟩
    | none =>
      have absent := pending.absent found
      have depth : (borrow depths (label :: rest)).depth = (borrow depths rest).depth := by
        simp only [borrow, absent]
      rw [depth] at pending
      have stepped := pending.step labelValid
      generalize registered : (if out.length ≤ maxPointerOffset then
        offsets.insert (label :: rest) (UInt16.ofNat out.length) else offsets) = offsets₁
        at stepped
      generalize counted : (if out.length ≤ maxPointerOffset then
        depths.insert (label :: rest) (borrow depths rest).depth else depths) = depths₁
        at stepped
      have unchanged : borrow depths₁ rest = borrow depths rest := by
        rw [← counted]
        split
        · exact borrow_insert depths _ _ rest (by simp)
        · rfl
      rw [← unchanged] at stepped
      obtain ⟨segment, offsets', tail⟩ := ih _ offsets₁ depths₁ restValid stepped
      exact ⟨_, offsets',
        appends_label labelValid found absent registered counted unchanged tail⟩

/-! ## Sequences of names in one buffer -/

def DnsName.write (name : DnsName) : Writer Compressor := fun state =>
  let result := name.toWire state.1 (some state.2)
  (result.1, result.2.getD state.2)

inductive Item
  | raw (segment : Bytes)
  | name (value : DnsName)
deriving DecidableEq

def Item.write : Item → Writer Compressor
  | .raw segment => put segment
  | .name value => value.write

def writeItems (items : List Item) : Bytes × Compressor :=
  items.foldl (fun state item => item.write state) ([], Compressor.default)

def written (items : List Item) : Bytes := (writeItems items).1

def Ledger.item (ledger : Ledger) : Item → Ledger
  | .raw segment => { ledger with length := ledger.length + segment.length }
  | .name value => ledger.name value.labels

def Ledger.of (items : List Item) : Ledger := items.foldl Ledger.item ⟨0, HashMap.empty⟩

def Item.least : Item → Nat
  | .raw segment => segment.length
  | .name _ => 0

theorem Ledger.least_le (items : List Item) :
    ∀ ledger : Ledger,
      ledger.length + (items.map Item.least).sum ≤ (items.foldl Ledger.item ledger).length := by
  induction items with
  | nil => exact fun _ => le_rfl
  | cons item rest ih =>
    intro ledger
    have step : ledger.length + item.least ≤ (ledger.item item).length := by
      cases item with
      | raw segment => exact le_rfl
      | name value => exact Nat.le_add_right _ _
    have later := ih (ledger.item item)
    rw [List.map_cons, List.sum_cons, List.foldl_cons]
    omega

/-- The pointers a decoder will follow through `name` if it is written next. -/
def Ledger.chain (ledger : Ledger) (name : DnsName) : Nat :=
  (borrow ledger.depths name.labels).depth

theorem name_write_refines (name : DnsName) (out : Bytes) (compressor : Compressor)
    (depths : HashMap (List Label) Nat) (linked : Linked out compressor.offsets depths) :
    ∃ segment compressor', name.write (out, compressor) = (out ++ segment, compressor') ∧
      segment.length = (borrow depths name.labels).length ∧
      Spells (out ++ segment) out.length name.labels (borrow depths name.labels).depth
        (out.length + segment.length) ∧
      Linked (out ++ segment) compressor'.offsets
        (lend (borrow depths name.labels).depth name.labels out.length depths) := by
  obtain ⟨segment, offsets, run, size, spelled, after⟩ :=
    toWireLoop_refines name.labels out compressor.offsets depths name.valid.1
      (linked.pending name.labels _)
  refine ⟨segment, ⟨offsets⟩, ?_, size, spelled, after⟩
  simp only [DnsName.write, DnsName.toWire, run, Option.getD_some]

theorem item_write_refines (item : Item) (out : Bytes) (compressor : Compressor) (ledger : Ledger)
    (linked : Linked out compressor.offsets ledger.depths) (length : out.length = ledger.length) :
    ∃ segment compressor', item.write (out, compressor) = (out ++ segment, compressor') ∧
      Linked (out ++ segment) compressor'.offsets (ledger.item item).depths ∧
      (out ++ segment).length = (ledger.item item).length := by
  cases item with
  | raw segment =>
    exact ⟨segment, compressor, rfl, linked.append segment, by simp [Ledger.item, length]⟩
  | name value =>
    obtain ⟨segment, compressor', run, size, _, after⟩ :=
      name_write_refines value out compressor ledger.depths linked
    refine ⟨segment, compressor', run, ?_, ?_⟩
    · rw [length] at after
      exact after
    · simp [Ledger.item, Ledger.name, length, size]

theorem foldl_write_refines (items : List Item) :
    ∀ (out : Bytes) (compressor : Compressor) (ledger : Ledger),
      Linked out compressor.offsets ledger.depths → out.length = ledger.length →
      ∃ segment compressor', items.foldl (fun state item => item.write state) (out, compressor) =
          (out ++ segment, compressor') ∧
        Linked (out ++ segment) compressor'.offsets (items.foldl Ledger.item ledger).depths ∧
        (out ++ segment).length = (items.foldl Ledger.item ledger).length := by
  induction items with
  | nil =>
    intro out compressor ledger linked length
    exact ⟨[], compressor, by simp, by simpa using linked, by simpa using length⟩
  | cons item rest ih =>
    intro out compressor ledger linked length
    obtain ⟨first, middle, run, linked', length'⟩ :=
      item_write_refines item out compressor ledger linked length
    obtain ⟨second, last, runRest, linked'', length''⟩ := ih _ middle _ linked' length'
    refine ⟨first ++ second, last, ?_, ?_, ?_⟩
    · simp only [List.foldl_cons, run, runRest, List.append_assoc]
    · simpa only [List.foldl_cons, List.append_assoc] using linked''
    · simpa only [List.foldl_cons, List.append_assoc] using length''

theorem linked_empty : Linked [] Compressor.default.offsets HashMap.empty :=
  ⟨fun _ => rfl, fun _ _ _ found => by cases found⟩

theorem written_refines (items : List Item) :
    Linked (written items) (writeItems items).2.offsets (Ledger.of items).depths ∧
      (written items).length = (Ledger.of items).length := by
  obtain ⟨segment, compressor, run, linked, length⟩ :=
    foldl_write_refines items [] Compressor.default ⟨0, HashMap.empty⟩ linked_empty rfl
  have state : writeItems items = ([] ++ segment, compressor) := run
  rw [written, state]
  exact ⟨linked, length⟩

theorem writeItems_append (before after : List Item) :
    writeItems (before ++ after) =
      after.foldl (fun state item => item.write state) (writeItems before) := by
  simp only [writeItems, List.foldl_append]

theorem written_append (before after : List Item) :
    ∃ more, written (before ++ after) = written before ++ more := by
  obtain ⟨linked, length⟩ := written_refines before
  obtain ⟨more, last, run, _, _⟩ :=
    foldl_write_refines after (written before) (writeItems before).2 (Ledger.of before)
      linked length
  refine ⟨more, ?_⟩
  rw [written, writeItems_append]
  exact congrArg Prod.fst run

/-- Each name is spelled in the final buffer where it was written, through as
many pointers as the ledger of the items before it predicts. -/
theorem written_spells (before after : List Item) (name : DnsName) :
    Spells (written (before ++ .name name :: after)) (written before).length name.labels
      ((Ledger.of before).chain name) (written (before ++ [.name name])).length := by
  obtain ⟨linked, length⟩ := written_refines before
  obtain ⟨segment, compressor, run, _, spelled, _⟩ :=
    name_write_refines name (written before) (writeItems before).2 _ linked
  have stepped : written (before ++ [.name name]) = written before ++ segment := by
    rw [written, writeItems_append]
    exact congrArg Prod.fst run
  obtain ⟨more, extended⟩ := written_append (before ++ [.name name]) after
  rw [List.append_assoc, List.singleton_append] at extended
  rw [extended, stepped, List.length_append]
  exact spelled.append more

/-- Decoding the final buffer at the start of each name gives back exactly that
name and stops just past its own encoding. -/
def Decodes (items : List Item) : Prop :=
  ∀ before name after, items = before ++ .name name :: after →
    DnsName.fromWire (written items) (written before).length =
      .ok (name, (written (before ++ [.name name])).length)

/-- Every name is in lower case and hangs on a chain of at most as many
borrowed tails as the decoder follows pointers. -/
def ShortChains (items : List Item) : Prop :=
  ∀ before name after, items = before ++ .name name :: after →
    name.Lowercase ∧ (Ledger.of before).chain name ≤ maxPointerJumps

theorem Decodes.shortChains {items : List Item} (decodes : Decodes items) : ShortChains items := by
  intro before name after split
  have success := decodes before name after split
  obtain ⟨labels, jumps, spelled, budget, _, lowered⟩ := (fromWire_eq_ok_iff _ _ _ _).mp success
  rw [split] at spelled
  obtain ⟨sameLabels, sameJumps, _⟩ := spelled.unique (written_spells before after name)
  subst sameLabels sameJumps
  exact ⟨lowered.symm, budget⟩

theorem decodes_iff_shortChains (items : List Item) : Decodes items ↔ ShortChains items := by
  constructor
  · exact Decodes.shortChains
  · intro short before name after split
    obtain ⟨lowered, budget⟩ := short before name after split
    refine (fromWire_eq_ok_iff _ _ _ _).mpr ⟨name.labels, _, ?_, budget, name.valid.2, lowered.symm⟩
    rw [split]
    exact written_spells before after name

def rung (count : Nat) : DnsName :=
  let labels := (List.range count).reverse.map fun index => [UInt8.ofNat (128 + index)]
  if valid : ValidLabels labels then ⟨labels, valid⟩ else DnsName.root

def ladder (count : Nat) : List Item :=
  (List.range count).map fun index => .name (rung (index + 1))

theorem ladder_succ (count : Nat) :
    ladder (count + 1) = ladder count ++ [.name (rung (count + 1))] := by
  rw [ladder, List.range_succ, List.map_append]
  rfl

theorem rung_labels (few : count ≤ 127) : (rung count).labels =
    (List.range count).reverse.map fun index => [UInt8.ofNat (128 + index)] := by
  have valid : ValidLabels ((List.range count).reverse.map fun index =>
      [UInt8.ofNat (128 + index)]) := by
    constructor
    · intro label member
      obtain ⟨index, _, rfl⟩ := List.mem_map.mp member
      exact ⟨Nat.le_refl 1, Nat.succ_le_succ (Nat.zero_le 62)⟩
    · have twice : labelsLen ((List.range count).reverse.map fun index =>
          [UInt8.ofNat (128 + index)]) = count * 2 := by
        simp [labelsLen, Function.comp_def]
      rw [twice, maxNameWireLen]
      omega
  unfold rung
  exact congrArg DnsName.labels (dif_pos valid)

theorem rung_labels_succ (few : count < 127) :
    (rung (count + 1)).labels = [UInt8.ofNat (128 + count)] :: (rung count).labels := by
  rw [rung_labels (by omega), rung_labels (by omega), List.range_succ, List.reverse_append]
  rfl

theorem rung_length (few : count ≤ 127) : (rung count).labels.length = count := by
  rw [rung_labels few, List.length_map, List.length_reverse, List.length_range]

structure Climbed (count : Nat) (ledger : Ledger) : Prop where
  top : ledger.depths.get? (rung (count + 1)).labels = some count
  longer : ∀ labels : List Label, count + 1 < labels.length → ledger.depths.get? labels = none
  within : ledger.length ≤ 4 * (count + 1)

theorem Climbed.chain {ledger : Ledger} (climbed : Climbed count ledger) (few : count < 126) :
    borrow ledger.depths (rung (count + 2)).labels = ⟨4, count + 1⟩ := by
  have new : ledger.depths.get? (rung (count + 2)).labels = none :=
    climbed.longer _ (by rw [rung_length (by omega)]; omega)
  have top := climbed.top
  have below := rung_labels_succ (show count + 1 < 127 by omega)
  rw [rung_labels_succ (show count < 127 by omega)] at top below
  rw [below] at new ⊢
  simp only [borrow, new, top]
  rfl

theorem Climbed.step {ledger : Ledger} (climbed : Climbed count ledger) (few : count < 126) :
    Climbed (count + 1) (ledger.name (rung (count + 2)).labels) := by
  have new : ledger.depths.get? (rung (count + 2)).labels = none :=
    climbed.longer _ (by rw [rung_length (by omega)]; omega)
  have near : ledger.length ≤ maxPointerOffset := by
    have within := climbed.within
    unfold maxPointerOffset
    omega
  -- the name before it ends the loop, so that one suffix is registered
  have registered : (ledger.name (rung (count + 2)).labels).depths =
      ledger.depths.insert (rung (count + 2)).labels (count + 1) := by
    have top := climbed.top
    have below := rung_labels_succ (show count + 1 < 127 by omega)
    have apart : (rung (count + 1)).labels ≠ (rung (count + 2)).labels := by
      rw [below]
      exact (List.cons_ne_self _ _).symm
    have kept : (ledger.depths.insert (rung (count + 2)).labels (count + 1)).get?
        (rung (count + 1)).labels = some count := by
      rw [HashMap.get?_insert, if_neg apart, top]
    rw [Ledger.name, climbed.chain few]
    rw [rung_labels_succ (show count < 127 by omega)] at kept below
    rw [below] at new kept ⊢
    simp only [lend, new, if_pos near, kept]
  refine ⟨?_, fun labels long => ?_, ?_⟩
  · rw [registered, HashMap.get?_insert, if_pos rfl]
  · have apart : labels ≠ (rung (count + 2)).labels := by
      rintro rfl
      rw [rung_length (by omega)] at long
      omega
    rw [registered, HashMap.get?_insert, if_neg apart, climbed.longer labels (by omega)]
  · have within := climbed.within
    rw [Ledger.name, climbed.chain few]
    change ledger.length + 4 ≤ 4 * (count + 1 + 1)
    omega

theorem ladder_climbs (count : Nat) :
    count < 127 → Climbed count (Ledger.of (ladder (count + 1))) := by
  induction count with
  | zero =>
    intro _
    have start : (Ledger.of (ladder 1)).depths = HashMap.empty.insert (rung 1).labels 0 := rfl
    refine ⟨?_, fun labels long => ?_, by decide⟩
    · rw [start, HashMap.get?_insert, if_pos rfl]
    · have apart : labels ≠ (rung 1).labels := by
        rintro rfl
        exact absurd long (by decide)
      rw [start, HashMap.get?_insert, if_neg apart, HashMap.get?_empty]
  | succ count ih =>
    intro few
    rw [ladder_succ, Ledger.of, List.foldl_append]
    exact (ih (by omega)).step (by omega)

/-- The sixty-sixth name of the ladder needs 65 jumps. -/
theorem ladder_not_decodes : ¬ Decodes (ladder 66) := by
  intro decodes
  have short := (decodes.shortChains (ladder 65) (rung 66) [] (ladder_succ 65)).2
  have long : (Ledger.of (ladder 65)).chain (rung 66) = 65 := by
    rw [Ledger.chain, (ladder_climbs 64 (by decide)).chain (by decide)]
  rw [long] at short
  exact absurd short (by decide)

end Rdns.Proto
