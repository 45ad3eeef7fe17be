import SsmIaas.Lib.Run
import SsmIaas.Lib.Tokens
import SsmIaas.VMManager.Wire

/-!
# Connections to VMManager

The accept loop of `start_server ()` reads what a connection sends into the buffer that all
connections share, and parses it without a look at how much it was, or whether it was
anything.  What the parse finds behind the message are the remains of earlier ones, cut up
by the NULs of `strtok`.

`connections_iff` says what every connection has to send: as many fields as its command
takes, each of them ended by a space or a NUL, or the last one by the byte that happens to
stand behind the message.  Any other connection lets the parse run into a missing field or
into old bytes.  A message that ends all its fields itself is good whatever the history is
(`complete_of_own`).
-/

namespace SsmIaas.VMManager

open Lib

/-- How often the parse calls `strtok`. -/
def calls (command : UInt8) : ℕ := if command = 0 ∨ command = 3 then 9 else 4

/-- The buffer as some calls of `strtok` leave it. -/
def Buffer.cut (buffer : Buffer) (k : ℕ) : Buffer where
  bytes := ((strtoks k ⟨buffer.bytes, 0⟩).map fun result => result.2.buffer).getD buffer.bytes
  length_eq := by
    cases hcalls : strtoks k ⟨buffer.bytes, 0⟩ with
    | none => exact buffer.length_eq
    | some result => exact (strtoks_length hcalls).trans buffer.length_eq

/-- One round of the accept loop; a parse that goes wrong ends the process. -/
def serve (buffer : Buffer) (sent : Bytes) : Buffer :=
  match parse (buffer.read sent) with
  | .error _ => buffer.read sent
  | .ok client => (buffer.read sent).cut (calls client.command)

/-- Nothing is missing that the command needs. -/
structure ClientInfo.Whole (client : ClientInfo) : Prop where
  id : client.id ≠ none
  connection : client.command = 0 ∨ client.command = 3 →
    ∃ connection, client.connection = some connection ∧ connection.ip ≠ none

/-- The parse is defined and yields a complete `client_info`, and all strings that it was
made of stand within the bytes that were received. -/
def Sound (buffer : Buffer) (sent : Bytes) : Prop :=
  ∃ client, parse (buffer.read sent) = .ok client ∧ client.Whole ∧
    TokensWithin (calls client.command) ⟨(buffer.read sent).bytes, 0⟩ (min sent.length 500)

/-- The fields of the message that are ended in it, or by the byte behind. -/
def endedFields (buffer : Buffer) (sent : Bytes) : List Bytes :=
  closedTokens ((buffer.read sent).bytes.take (min sent.length 500 + 1))

/-- There are as many fields as the command takes. -/
def Complete (buffer : Buffer) (sent : Bytes) : Prop :=
  calls (.ofInt (atoi ((endedFields buffer sent).headD []))) ≤ (endedFields buffer sent).length

instance (buffer : Buffer) (sent : Bytes) : Decidable (Complete buffer sent) :=
  inferInstanceAs (Decidable (_ ≤ _))

/-! ## The parse, call by call -/

variable {buffer : Buffer} {sent : Bytes}

theorem parseRest_command {command osType index : UInt8} {t : Tokenizer} {client : ClientInfo}
    (h : parseRest command osType index t = .ok client) : client.command = command := by
  simp only [parseRest, bind, Except.bind, pure, Except.pure] at h
  repeat' split at h
  all_goals cases h
  all_goals rfl

/-- The command of a parse is the number in the first field. -/
theorem parse_command {client : ClientInfo} {i : ℕ} {t : Tokenizer}
    (hparse : parse buffer = .ok client) (hfirst : strtok ⟨buffer.bytes, 0⟩ = some (some i, t)) :
    client.command = .ofInt (atoi (cstr t.buffer i)) := by
  simp only [parse, number_of_strtok hfirst, bind, Except.bind] at hparse
  split at hparse
  · cases hparse
  · split at hparse
    · cases hparse
    · exact parseRest_command hparse

/-- The parse goes well if `strtok` always returns a token. -/
theorem parse_of_tokens {i n : ℕ} {t : Tokenizer}
    (hfirst : strtok ⟨buffer.bytes, 0⟩ = some (some i, t))
    (h : TokensWithin (calls (.ofInt (atoi (cstr t.buffer i)))) ⟨buffer.bytes, 0⟩ n) :
    ∃ client, parse buffer = .ok client ∧ client.Whole := by
  unfold calls at h
  split at h
  · next hcommand =>
      obtain ⟨i₁, t₁, h₁, h⟩ := h.head
      obtain ⟨i₂, t₂, h₂, h⟩ := h.head
      obtain ⟨i₃, t₃, h₃, h⟩ := h.head
      obtain ⟨i₄, t₄, h₄, h⟩ := h.head
      obtain ⟨i₅, t₅, h₅, h⟩ := h.head
      obtain ⟨i₆, t₆, h₆, h⟩ := h.head
      obtain ⟨i₇, t₇, h₇, h⟩ := h.head
      obtain ⟨i₈, t₈, h₈, h⟩ := h.head
      obtain ⟨i₉, t₉, h₉, -⟩ := h.head
      rw [hfirst] at h₁
      cases h₁
      simp only [parse, parseRest, number_of_strtok hfirst, number_of_strtok h₂,
        number_of_strtok h₃, token_of_strtok h₄, token_of_strtok h₅, number_of_strtok h₆,
        number_of_strtok h₇, number_of_strtok h₈, number_of_strtok h₉, bind, Except.bind,
        if_pos hcommand]
      exact ⟨_, rfl, by simp, fun _ => ⟨_, rfl, by simp⟩⟩
  · next hcommand =>
      obtain ⟨i₁, t₁, h₁, h⟩ := h.head
      obtain ⟨i₂, t₂, h₂, h⟩ := h.head
      obtain ⟨i₃, t₃, h₃, h⟩ := h.head
      obtain ⟨i₄, t₄, h₄, -⟩ := h.head
      rw [hfirst] at h₁
      cases h₁
      simp only [parse, parseRest, number_of_strtok hfirst, number_of_strtok h₂,
        number_of_strtok h₃, token_of_strtok h₄, bind, Except.bind, if_neg hcommand]
      exact ⟨_, rfl, by simp, fun hlong => absurd hlong hcommand⟩

/-! ## One connection -/

theorem four_le_calls (command : UInt8) : 4 ≤ calls command := by
  unfold calls
  split <;> omega

/-- The first field of the message is what the parse finds first. -/
theorem strtok_of_endedFields {first : Bytes} {others : List Bytes}
    (h : endedFields buffer sent = first :: others) :
    ∃ i t, strtok ⟨(buffer.read sent).bytes, 0⟩ = some (some i, t) ∧ cstr t.buffer i = first := by
  have hprefix := closedTokens_append ((buffer.read sent).bytes.take (min sent.length 500 + 1))
    ((buffer.read sent).bytes.drop (min sent.length 500 + 1))
  rw [List.take_append_drop, ← endedFields, h] at hprefix
  obtain ⟨more, hmore⟩ := hprefix
  obtain ⟨i, front, rest, hstrtok, hread, -⟩ := strtok_of_closedTokens hmore.symm []
  exact ⟨i, _, hstrtok, hread⟩

/-- The fields that are ended are those that the parse can use. -/
theorem tokensWithin_read_iff (k : ℕ) :
    TokensWithin k ⟨(buffer.read sent).bytes, 0⟩ (min sent.length 500) ↔
      k ≤ (endedFields buffer sent).length :=
  tokensWithin_iff k [] (buffer.read sent).bytes (min sent.length 500)

theorem sound_iff (buffer : Buffer) (sent : Bytes) : Sound buffer sent ↔ Complete buffer sent := by
  refine ⟨?_, ?_⟩
  · rintro ⟨client, hparse, -, hwithin⟩
    have hle := (tokensWithin_read_iff _).mp hwithin
    have hfour := four_le_calls client.command
    obtain ⟨first, others, hfields⟩ := List.exists_cons_of_length_pos
      (by omega : 0 < (endedFields buffer sent).length)
    obtain ⟨i, t, hfirst, hread⟩ := strtok_of_endedFields hfields
    have hcommand := parse_command hparse hfirst
    rw [hread] at hcommand
    rw [Complete, hfields, List.headD_cons, ← hcommand, ← hfields]
    exact hle
  · intro hcomplete
    have hfour := four_le_calls (.ofInt (atoi ((endedFields buffer sent).headD [])))
    obtain ⟨first, others, hfields⟩ := List.exists_cons_of_length_pos
      (by unfold Complete at hcomplete; omega : 0 < (endedFields buffer sent).length)
    obtain ⟨i, t, hfirst, hread⟩ := strtok_of_endedFields hfields
    have hwithin := (tokensWithin_read_iff _).mpr hcomplete
    rw [hfields, List.headD_cons, ← hread] at hwithin
    obtain ⟨client, hparse, hwhole⟩ := parse_of_tokens hfirst hwithin
    refine ⟨client, hparse, hwhole, ?_⟩
    rwa [parse_command hparse hfirst]

/-- A message whose own bytes end all of its fields is complete, whatever was sent before. -/
theorem complete_of_own (buffer : Buffer) (hlength : sent.length ≤ 500)
    (hfields : calls (.ofInt (atoi ((closedTokens sent).headD []))) ≤ (closedTokens sent).length) :
    Complete buffer sent := by
  obtain ⟨remains, hbytes⟩ := buffer.read_bytes hlength
  have hprefix : closedTokens sent <+: endedFields buffer sent := by
    rw [endedFields, Nat.min_eq_left hlength, hbytes, List.take_length_add_append]
    exact closedTokens_append sent _
  have hfour := four_le_calls (.ofInt (atoi ((closedTokens sent).headD [])))
  obtain ⟨first, others, hown⟩ := List.exists_cons_of_length_pos
    (by omega : 0 < (closedTokens sent).length)
  obtain ⟨more, hmore⟩ := hprefix
  rw [hown] at hfields hmore
  rw [Complete, ← hmore]
  simp only [List.cons_append, List.headD_cons, List.length_cons, List.length_append] at hfields ⊢
  omega

/-! ## All connections -/

/-- **Connections.**  Every connection of a run yields a complete `client_info` of its own
bytes exactly if every one sends as many ended fields as its command takes. -/
theorem connections_iff (connections : List Bytes) :
    Along serve Sound freshBuffer connections ↔ Along serve Complete freshBuffer connections :=
  ⟨fun h => h.mono fun buffer sent => (sound_iff buffer sent).mp,
    fun h => h.mono fun buffer sent => (sound_iff buffer sent).mpr⟩

/-- A peer that sends nothing ends VMManager by `atoi (NULL)`, and one that sends too little
deletes an image of the client before. -/
theorem short_messages_break_parse :
    parse (freshBuffer.read []) = .error .nullToken ∧
      ¬ Along serve Sound freshBuffer [[]] ∧
      parse ((serve freshBuffer (ascii "1 0 5 alice ")).read (ascii "2 0 5 ")) =
        .ok ⟨2, 0, 5, some (ascii "alice"), none⟩ ∧
      ¬ Along serve Sound freshBuffer [ascii "1 0 5 alice ", ascii "2 0 5 "] := by
  refine ⟨by decide +kernel, ?_, by decide +kernel, ?_⟩
  · rintro ⟨hsound, -⟩
    exact absurd ((sound_iff _ _).mp hsound) (by decide +kernel)
  · rintro ⟨-, hsound, -⟩
    exact absurd ((sound_iff _ _).mp hsound) (by decide +kernel)

end SsmIaas.VMManager
