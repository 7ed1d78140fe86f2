import Rdns.Proto.RoundTrip

/-!
# Encoded messages end where they end

What `Message::encode` writes needs no outer length.  Every pointer leads to octets
in front of the name that uses it, so nothing behind the message is looked at; and
a buffer that holds only a part of the message runs out in the field the cut falls
into, before any other check can fail.
-/

set_option autoImplicit false

namespace Rdns.Proto

open Rdns.Lib

theorem Message.Decodable.legible {msg : Message} (decodable : msg.Decodable) :
    wire.Legible (Ledger.of []) msg.layout :=
  (shortChains_of_decodable fun _ => message_names decodable).legible

/-- A part of the message is too short for the decoder, and more than the message is
the message. -/
theorem encode_delimited (msg : Message) (decodable : msg.Decodable) :
    (∀ front : Bytes, front <+: msg.encode → front ≠ msg.encode →
      Message.parse front = .error .truncated) ∧
    ∀ more : Bytes, ∃ result, Message.parse (msg.encode ++ more) = .ok result ∧
      Message.parse msg.encode = .ok result := by
  have legible := decodable.legible
  refine ⟨fun front before shorter => ?_, fun more => ?_⟩
  · obtain ⟨segment, _, run, stopped⟩ :=
      (message_framed msg decodable.regular).stops [] Compressor.default _ wire_start legible
    have octets : msg.encode = segment := by
      rw [Message.encode, run, List.nil_append]
    have length : front.length < segment.length := by
      rw [← octets]
      exact lt_of_le_of_ne before.length_le fun same => shorter (before.eq_of_length same)
    have refused : Message.parseBody (segment.take front.length) 0 = .error .truncated :=
      stopped front.length length
    rw [octets] at before
    rw [← List.prefix_iff_eq_take.mp before] at refused
    rw [Message.parse, refused]
    rfl
  · obtain ⟨segment, _, run, _, read⟩ :=
      (message_framed msg decodable.regular).exact [] Compressor.default _ wire_start
    have octets : msg.encode = segment := by
      rw [Message.encode, run, List.nil_append]
    have whole : ∀ rest, Message.parse (msg.encode ++ rest) =
        .ok { msg with tsig := none, tsigStart := none } := by
      intro rest
      have parsed : Message.parseBody (segment ++ rest) 0 = .ok (_, _) := (read rest).1 legible
      rw [octets, Message.parse, parsed]
      rfl
    have alone := whole []
    rw [List.append_nil] at alone
    exact ⟨_, whole more, alone⟩

/-- Cut inside a name, and followed by what would be a pointer. -/
theorem encode_delimited_aliasReply :
    aliasReply.Decodable ∧ Message.parse (aliasReply.encode.take 14) = .error .truncated ∧
      ∃ result, Message.parse (aliasReply.encode ++ [192, 12]) = .ok result ∧
        Message.parse aliasReply.encode = .ok result := by
  have shorter : aliasReply.encode.take 14 ≠ aliasReply.encode := by decide +kernel
  obtain ⟨parts, longer⟩ := encode_delimited aliasReply aliasReply_decodable
  exact ⟨aliasReply_decodable, parts _ (List.take_prefix _ _) shorter, longer [192, 12]⟩

end Rdns.Proto
