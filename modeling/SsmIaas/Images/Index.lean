import SsmIaas.Images.System
import Mathlib.Data.Set.Function

/-!
# The image index in eight bits

`ImageIndexers` counts without end and its number goes over the wire in decimal,
but `client_info` has a `uint8_t` for it.  The address that `command.sh` is given
is therefore the same for two images of a member whose numbers agree in their low
eight bits.

`addresses_distinct_iff` states both sides of this for all histories: the map from
the numbers issued to the numbers VMManager uses is injective exactly for the
first 256 of them, and the images of one member and OS have addresses of their
own exactly when their numbers differ modulo 256.
-/

namespace SsmIaas.Images

open Lib LoadBalancer VMManager

variable {Value : Type*} (ops : ValueOps Value)

/-- The address in the command line that `process` builds from the create message
of a document. -/
def commandAddress (process : Process) (record : ImageRecord Value) : Option Address :=
  match createMessage ops record.image record.index record.email with
  | none => none
  | some sent =>
      match parse (process.buffer.read sent) with
      | .error _ => none
      | .ok client => some (client.address (osName client.osType process.os))

/-- A document whose create message VMManager can read: the OS is known, the
e-mail is one word, and the message fits in the buffer. -/
structure Readable (record : ImageRecord Value) : Prop where
  email : ∃ email, record.email = some email ∧ Token email
  osType : (ops.osType record.image).isSome
  length : ∀ sent, createMessage ops record.image record.index record.email = some sent →
    sent.length ≤ 500

theorem Readable.of_message {ops : ValueOps Value} {record : ImageRecord Value} {email sent : Bytes}
    (hemail : record.email = some email) (htoken : Token email)
    (hos : (ops.osType record.image).isSome)
    (hsent : createMessage ops record.image record.index record.email = some sent)
    (hlength : sent.length ≤ 500) : Readable ops record := by
  refine ⟨⟨email, hemail, htoken⟩, hos, fun other hother => ?_⟩
  obtain rfl : sent = other := Option.some_inj.mp (hsent.symm.trans hother)
  exact hlength

/-- Two different images of one member and one OS. -/
structure Siblings (a b : ImageRecord Value) : Prop where
  index : a.index ≠ b.index
  email : a.email = b.email
  osType : ops.osType a.image = ops.osType b.image
  left : Readable ops a
  right : Readable ops b

theorem commandAddress_eq (process : Process) {record : ImageRecord Value} {email : Bytes}
    {osType : ℕ} (h : Readable ops record) (hemail : record.email = some email)
    (hos : ops.osType record.image = some osType) :
    commandAddress ops process record =
      some (imageAddress email osType (clientIndex record.index)) := by
  obtain ⟨word, hword, htoken⟩ := h.email
  obtain rfl : word = email := Option.some_inj.mp (hword.symm.trans hemail)
  obtain ⟨sent, hsent⟩ := createMessage_isSome hos record.index word
  have hlt : osType < 4 := ops.osType_lt hos
  have hlength := h.length sent (by rw [hemail, hsent])
  have hparse := parse_fields process.buffer ⟨decimal record.index, (numeral_decimal _).token⟩
    ⟨word, htoken⟩ (Or.inl rfl) hlt hlength
    (by simpa [createMessage, getSocketCreate, hos] using hsent)
  simp only [commandAddress, hemail, hsent, hparse, osName_of_lt hlt]
  rfl

theorem clientIndex_eq_iff (i j : ℕ) :
    clientIndex i = clientIndex j ↔
      min i (2 ^ 63 - 1) % 256 = min j (2 ^ 63 - 1) % 256 := by
  rw [clientIndex_eq, clientIndex_eq, ← UInt8.toNat_inj, UInt8.toNat_ofNat', UInt8.toNat_ofNat']

/-- Two images of one member and OS share their address exactly when VMManager has
the same number for both, whichever processes read the messages. -/
theorem Siblings.address_eq_iff {a b : ImageRecord Value} (h : Siblings ops a b)
    (p q : Process) :
    commandAddress ops p a = commandAddress ops q b ↔
      clientIndex a.index = clientIndex b.index := by
  obtain ⟨email, hemail, -⟩ := h.left.email
  obtain ⟨osType, hos⟩ := Option.isSome_iff_exists.mp h.left.osType
  have ha := commandAddress_eq ops p h.left hemail hos
  have hb := commandAddress_eq ops q h.right (h.email ▸ hemail) (h.osType ▸ hos)
  have hlt := ops.osType_lt hos
  rw [ha, hb, Option.some_inj, imageAddress_inj hlt hlt]
  simp

theorem clientIndex_injOn_iff (n : ℕ) :
    Set.InjOn clientIndex {i | i ∈ List.range' 1 n} ↔ n ≤ 256 := by
  simp only [Set.InjOn, Set.mem_ofPred_eq, List.mem_range'_1, clientIndex_eq_iff]
  refine ⟨?_, ?_⟩
  · intro hinj
    by_contra hmany
    -- 1 and 257 are issued and have the same low eight bits
    have hsame := @hinj 1 (by omega) 257 (by omega) (by decide)
    omega
  · intro hfew i hi j hj hsame
    omega

/-- **Eight bits for the index.**  In every history, the map from the numbers
issued to those VMManager uses is injective exactly if at most 256 were issued,
and different images of one member and OS have different addresses exactly if
their numbers differ modulo 256 (up to the largest `long`). -/
theorem addresses_distinct_iff (requests : List (OsRequest Value)) :
    (Set.InjOn clientIndex
        {i | i ∈ (run (step ops) start requests).created.map ImageRecord.index} ↔
      (run (step ops) start requests).created.length ≤ 256) ∧
    ((∀ a ∈ (run (step ops) start requests).created,
        ∀ b ∈ (run (step ops) start requests).created, Siblings ops a b →
          ∀ p q, commandAddress ops p a ≠ commandAddress ops q b) ↔
      ∀ a ∈ (run (step ops) start requests).created,
        ∀ b ∈ (run (step ops) start requests).created, Siblings ops a b →
          min a.index (2 ^ 63 - 1) % 256 ≠ min b.index (2 ^ 63 - 1) % 256) := by
  refine ⟨?_, ?_⟩
  · rw [(numbered_run ops requests).indices]
    exact clientIndex_injOn_iff _
  · refine ⟨?_, ?_⟩
    · intro h a ha b hb hsiblings hsame
      exact h a ha b hb hsiblings ⟨freshBuffer, []⟩ ⟨freshBuffer, []⟩
        ((hsiblings.address_eq_iff ops _ _).mpr ((clientIndex_eq_iff _ _).mpr hsame))
    · intro h a ha b hb hsiblings p q heq
      exact h a ha b hb hsiblings
        ((clientIndex_eq_iff _ _).mp ((hsiblings.address_eq_iff ops p q).mp heq))

/-- The documents of a member who only creates images of one OS. -/
theorem created_replicate (s : State Value) (email : JsText) (imageVersion : Value)
    (connection : Option Process) (n : ℕ) :
    (run (step ops) s (List.replicate n (.requestCreateOS email imageVersion connection))).created =
      s.created ++ (List.range' s.nextIndex n).map fun i => ⟨i, email, imageVersion⟩ := by
  induction n generalizing s with
  | zero => simp
  | succ n ih =>
      rw [List.replicate_succ, run_cons, ih, step_create, List.range'_succ]
      simp [State.nextIndex]

/-- One member creates 257 images: the last one has the address of the first. -/
theorem image_257_shares_address :
    ¬ Set.InjOn clientIndex
        {i | i ∈ (run (step strings) start (List.replicate 257
          (.requestCreateOS (some [97]) "linux" (some ⟨freshBuffer, []⟩)))).created.map
            ImageRecord.index} ∧
    ¬ ∀ a ∈ (run (step strings) start (List.replicate 257
          (.requestCreateOS (some [97]) "linux" (some ⟨freshBuffer, []⟩)))).created,
        ∀ b ∈ (run (step strings) start (List.replicate 257
          (.requestCreateOS (some [97]) "linux" (some ⟨freshBuffer, []⟩)))).created,
          Siblings strings a b →
            ∀ p q, commandAddress strings p a ≠ commandAddress strings q b := by
  rw [created_replicate]
  have hcollide : clientIndex 1 = clientIndex 257 := (clientIndex_eq_iff 1 257).mpr (by decide)
  have hfirst : createMessage strings "linux" 1 (some [97]) =
      some [49, 32, 50, 32, 49, 32, 97, 32] := by decide
  have hlast : createMessage strings "linux" 257 (some [97]) =
      some [49, 32, 50, 32, 50, 53, 55, 32, 97, 32] := by decide
  refine ⟨?_, ?_⟩
  · intro hinj
    have hsame : 1 = 257 := hinj (by simp [start, State.nextIndex])
      (by simp [start, State.nextIndex]) hcollide
    omega
  · intro hdistinct
    have htoken : Token [97] := .singleton (by decide) (by decide)
    have hsiblings : Siblings strings (⟨1, some [97], "linux"⟩ : ImageRecord String)
        ⟨257, some [97], "linux"⟩ :=
      ⟨by decide, rfl, rfl, .of_message rfl htoken rfl hfirst (by decide),
        .of_message rfl htoken rfl hlast (by decide)⟩
    exact hdistinct _ (by simp [start, State.nextIndex]) _ (by simp [start, State.nextIndex])
      hsiblings ⟨freshBuffer, []⟩ ⟨freshBuffer, []⟩
      ((hsiblings.address_eq_iff strings _ _).mpr hcollide)

end SsmIaas.Images
