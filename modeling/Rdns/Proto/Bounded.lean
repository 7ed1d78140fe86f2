import Rdns.Lib.Advance
import Rdns.Lib.Loops
import Rdns.Proto.Tsig

/-!
# Parsing is bounded by the input

The counters of a header are claims of the sender.  A message that parses has at
least five octets for each question and eleven for each record its header counts,
although a name may continue at any earlier place: the cursor only ever moves past
the first pointer of a name.
-/

set_option autoImplicit false

namespace Rdns.Proto

open Rdns.Lib

/-! ## Fields -/

theorem Spells.advances {buf : Bytes} {pos jumps finish : Nat} {labels : List Label}
    (spelled : Spells buf pos labels jumps finish) : pos + 1 ≤ finish ∧ finish ≤ buf.length := by
  induction spelled with
  | root zero => exact ⟨le_rfl, (List.getElem?_eq_some_iff.mp zero).1⟩
  | label _ _ _ _ _ ih => exact ⟨by omega, ih.2⟩
  | pointer _ _ second _ _ _ =>
    have inside := (List.getElem?_eq_some_iff.mp second).1
    exact ⟨by omega, inside⟩

section Fields

variable (buf : Bytes)

theorem fromWire_advances : Advances buf.length 1 (DnsName.fromWire buf) := by
  intro pos name pos' _ read
  obtain ⟨_, _, spelled, _⟩ := (fromWire_eq_ok_iff buf pos pos' name).mp read
  exact spelled.advances

theorem readBytes_advances (count : Nat) : Advances buf.length count (readBytes buf count) := by
  intro pos octets pos' _ read
  unfold readBytes slice at read
  by_cases inside : pos + count ≤ buf.length
  · rw [if_pos inside] at read
    cases read
    exact ⟨le_rfl, inside⟩
  · rw [if_neg inside] at read
    cases read

theorem readBytes_of_slice {pos count : Nat} {octets : Bytes}
    (found : slice buf pos count = some octets) :
    readBytes buf count pos = .ok (octets, pos + count) := by
  rw [readBytes, found]

theorem readArray_advances (count : Nat) : Advances buf.length count (readArray buf count) := by
  intro pos octets pos' inside read
  unfold readArray at read
  split at read
  · cases read
  · rename_i found
    cases read
    exact readBytes_advances buf count inside (readBytes_of_slice buf found)

theorem readU8_advances : Advances buf.length 1 (readU8 buf) := by
  intro pos octet pos' _ read
  unfold readU8 at read
  split at read
  · cases read
  · rename_i found
    cases read
    exact ⟨le_rfl, (List.getElem?_eq_some_iff.mp found).1⟩

theorem readU16_advances : Advances buf.length 2 (readU16 buf) :=
  (readBytes_advances buf 2).bind fun _ => Advances.pure _

theorem readU32_advances : Advances buf.length 4 (readU32 buf) :=
  (readBytes_advances buf 4).bind fun _ => Advances.pure _

/-! ## Record data -/

theorem parseStrings_advances (finish : Nat) : ∀ (fuel : Nat) (strings : List Bytes),
    Advances buf.length 0 (parseStrings buf finish fuel strings) := by
  intro fuel
  induction fuel with
  | zero => exact Advances.pure
  | succ fuel ih =>
    intro strings
    refine Advances.get fun pos => Advances.ite ?_ (Advances.pure _)
    refine (readU8_advances buf).andThen fun len => Advances.get fun pos => ?_
    refine Advances.ite (Advances.throw _ _) ?_
    exact (readBytes_advances buf len.toNat).andThen fun text => ih (strings ++ [text])

theorem parseSoa_advances : Advances buf.length 0 (parseSoa buf) :=
  (fromWire_advances buf).andThen fun _ => (fromWire_advances buf).andThen fun _ =>
    (readU32_advances buf).andThen fun _ => (readU32_advances buf).andThen fun _ =>
      (readU32_advances buf).andThen fun _ => (readU32_advances buf).andThen fun _ =>
        (readU32_advances buf).andThen fun _ => Advances.pure _

theorem parseTyped_advances (rtype : UInt16) (rdlen finish : Nat) :
    Advances buf.length 0 (RData.parseTyped rtype buf rdlen finish) := by
  have named : ∀ wrap : DnsName → RData,
      Advances buf.length 0 (do pure (wrap (← DnsName.fromWire buf))) :=
    fun _ => (fromWire_advances buf).andThen fun _ => Advances.pure _
  unfold RData.parseTyped
  refine Advances.ite ((readArray_advances buf 4).andThen fun _ => Advances.pure _) ?_
  refine Advances.ite ((readArray_advances buf 16).andThen fun _ => Advances.pure _) ?_
  refine Advances.ite (named .ns) (Advances.ite (named .cname) (Advances.ite (named .ptr) ?_))
  refine Advances.ite ((parseSoa_advances buf).andThen fun _ => Advances.pure _) ?_
  refine Advances.ite ((readU16_advances buf).andThen fun _ => named _) ?_
  refine Advances.ite
    ((parseStrings_advances buf finish rdlen []).andThen fun _ => Advances.pure _) ?_
  refine Advances.ite ((readU16_advances buf).andThen fun _ =>
    (readU16_advances buf).andThen fun _ => (readU16_advances buf).andThen fun _ => named _) ?_
  exact (readBytes_advances buf rdlen).andThen fun _ => Advances.pure _

theorem rdata_advances (rtype : UInt16) (rdlen : Nat) :
    Advances buf.length 0 (RData.parse rtype buf rdlen) := by
  refine Advances.get fun start => Advances.ite (Advances.throw _ _) ?_
  refine Advances.ite (Advances.pure _) ?_
  refine (parseTyped_advances buf rtype rdlen (start + rdlen)).andThen fun rdata => ?_
  exact Advances.get fun pos => Advances.ite (Advances.throw _ _) (Advances.pure _)

theorem tsigRdata_advances (keyName : DnsName) :
    Advances buf.length 0 (Tsig.parseRdata keyName buf) :=
  (fromWire_advances buf).andThen fun _ => (readU16_advances buf).andThen fun _ =>
    (readU32_advances buf).andThen fun _ => (readU16_advances buf).andThen fun _ =>
      (readU16_advances buf).andThen fun macSize =>
        (readBytes_advances buf macSize.toNat).andThen fun _ =>
          (readU16_advances buf).andThen fun _ => (readU16_advances buf).andThen fun _ =>
            (readU16_advances buf).andThen fun otherLen =>
              (readBytes_advances buf otherLen.toNat).andThen fun _ => Advances.pure _

/-! ## Entries -/

theorem entryBody_advances (name : DnsName) (rtype class_ : UInt16) (ttl : UInt32) (rdlen : Nat) :
    Advances buf.length 0 (parseEntryBody buf name rtype class_ ttl rdlen) := by
  unfold parseEntryBody
  refine Advances.ite (Advances.get fun start => ?_) (Advances.ite ?_ ?_)
  · refine (tsigRdata_advances buf name).andThen fun tsig => Advances.get fun pos => ?_
    exact Advances.ite (Advances.throw _ _) (Advances.pure _)
  · exact (readBytes_advances buf rdlen).andThen fun _ => Advances.pure _
  · exact (rdata_advances buf rtype rdlen).andThen fun _ => Advances.pure _

theorem entry_advances : Advances buf.length 11 (parseEntry buf) :=
  (fromWire_advances buf).bind fun _ => (readU16_advances buf).bind fun _ =>
    (readU16_advances buf).bind fun _ => (readU32_advances buf).bind fun _ =>
      (readU16_advances buf).bind fun rdlen => entryBody_advances buf _ _ _ _ rdlen.toNat

theorem question_advances (msg : Message) : Advances buf.length 5 (parseQuestion buf msg) :=
  (fromWire_advances buf).bind fun _ => (readU16_advances buf).bind fun _ =>
    (readU16_advances buf).bind fun _ => Advances.pure _

theorem section_advances (push : Message → Record → Message) (msg : Message) :
    Advances buf.length 11 (parseSection push buf msg) := by
  refine (entry_advances buf).lastly fun entry => ?_
  cases entry with
  | rr _ | opt _ | tsig _ => exact Advances.pure _

theorem additional_advances (msg : Message) :
    Advances buf.length 11 (parseAdditional buf msg) := by
  refine Advances.get fun start => (entry_advances buf).lastly fun entry => ?_
  cases entry with
  | rr _ | opt _ | tsig _ => exact Advances.pure _

end Fields

/-! ## Messages -/

theorem parse_length {buf : Bytes} {msg : Message} (parsed : Message.parse buf = .ok msg) :
    12 + 5 * (headerCounts buf).qd +
      11 * ((headerCounts buf).an + (headerCounts buf).ns + (headerCounts buf).ar) ≤
        buf.length := by
  obtain ⟨long, id, flags, asked, answered, vouched, pos₁, pos₂, pos₃, finish, first, second, third,
    last⟩ := parse_eq_ok parsed
  obtain ⟨forward₁, inside₁⟩ := Advances.forCount (question_advances buf) _ _ long first
  obtain ⟨forward₂, inside₂⟩ := Advances.forCount (section_advances buf _) _ _ inside₁ second
  obtain ⟨forward₃, inside₃⟩ := Advances.forCount (section_advances buf _) _ _ inside₂ third
  obtain ⟨forward₄, inside₄⟩ := Advances.forCount (additional_advances buf) _ _ inside₃ last
  omega

/-- The octets received pay for every round the header asks for, and so for every
entry the sections hold. -/
theorem parse_bounded_by_input {buf : Bytes} {msg : Message}
    (parsed : Message.parse buf = .ok msg) :
    12 + 5 * (headerCounts buf).qd +
        11 * ((headerCounts buf).an + (headerCounts buf).ns + (headerCounts buf).ar) ≤
      buf.length ∧
    12 + 5 * msg.questions.length +
        11 * (msg.answers.length + msg.authorities.length + msg.arcount) ≤ buf.length := by
  have enough := parse_length parsed
  have within := parse_within parsed
  have questions := within.questionCount
  have answers := within.answerCount
  have authorities := within.authorityCount
  have additionals : msg.arcount ≤ (headerCounts buf).ar := within.additionalCount
  exact ⟨enough, by omega⟩

def shortestReply : Bytes :=
  [0, 1, 0x80, 0, 0, 1, 0, 1, 0, 0, 0, 0] ++ [0, 0, 1, 0, 1] ++ [0, 0, 99, 0, 1, 0, 0, 0, 0, 0, 0]

theorem shortestReply_exhausted :
    ∃ msg, Message.parse shortestReply = .ok msg ∧ msg.answers.length = 1 ∧
      shortestReply.length = 12 + 5 * msg.questions.length + 11 * msg.answers.length ∧
      12 + 5 * msg.questions.length +
        11 * (msg.answers.length + msg.authorities.length + msg.arcount) ≤ 28 := by
  have computed : (Message.parse shortestReply).toOption.any (fun msg =>
      decide (msg.questions.length = 1 ∧ msg.answers.length = 1)) = true := by decide +kernel
  obtain ⟨msg, parsed, passed⟩ := exists_of_toOption_any computed
  obtain ⟨questions, answers⟩ := of_decide_eq_true passed
  refine ⟨msg, parsed, answers, ?_, (parse_bounded_by_input parsed).2⟩
  rw [questions, answers]
  rfl

end Rdns.Proto
