import SsmIaas.Images.Index
import Mathlib.Data.List.Nodup

/-!
# Requests that change both sides

A request should change both sides of an image or neither.  `requestCreateOS` and
`requestDeleteOS` do not see to it: the callback of `deleteImage` is given the
number of documents removed and ignores it, the `error` handler of the socket only
writes to the log, and a document is inserted before `getImageIndex` is known to
have an answer.

`Matched` says when they do.  Under it the documents and the addresses asked for
on the host correspond one to one (`StoresInv`), a delete command is sent only for
a document that was removed, and a request whose socket fails changes no document
(`careful_of_matched`).
-/

namespace SsmIaas.Images

open Lib LoadBalancer VMManager

variable {Value : Type*} (ops : ValueOps Value)

/-- The address an image should have on the host, if its document determines one. -/
def recordAddress (record : ImageRecord Value) : Option Address :=
  record.email.bind fun email =>
    (ops.osType record.image).map fun osType =>
      imageAddress email osType (clientIndex record.index)

/-- The documents and the addresses on the host correspond one to one. -/
structure StoresAgree (s : State Value) : Prop where
  addressed : ∀ record ∈ s.images, (recordAddress ops record).isSome
  distinct : (s.images.map (recordAddress ops)).Nodup
  host : ∀ address, address ∈ s.host ↔
    ∃ record ∈ s.images, recordAddress ops record = some address

/-- A delete command is sent only if a document was removed, and a request whose
socket fails leaves the collection as it was. -/
def Careful (s : State Value) : OsRequest Value → Prop
  | .requestCreateOS email imageVersion connection =>
      connection = none →
        (step ops s (.requestCreateOS email imageVersion connection)).images = s.images
  | .requestDeleteOS email index imageVersion connection =>
      (connection.isSome → (deleteMessage ops imageVersion index email).isSome →
        (deleteImage ops s.images index email imageVersion).1 ≠ 0) ∧
      (connection = none →
        (step ops s (.requestDeleteOS email index imageVersion connection)).images = s.images)

/-- The condition for a create: VMManager can be reached and can read the message,
and it does not have the number already for an image of this member and OS. -/
structure CreateMatched (s : State Value) (email : JsText) (imageVersion : Value)
    (connection : Option Process) : Prop where
  connected : connection.isSome
  readable : Readable ops ⟨s.nextIndex, email, imageVersion⟩
  fresh : ∀ record ∈ s.images, record.email = email →
    ops.osType record.image = ops.osType imageVersion →
      clientIndex record.index ≠ clientIndex s.nextIndex

/-- The condition for a delete that removes a document: VMManager can be reached,
and reads the text of `Index` as the number of that document, for the same OS. -/
structure DeleteMatched (s : State Value) (email index : JsText) (imageVersion : Value)
    (connection : Option Process) (record : ImageRecord Value) : Prop where
  mem : record ∈ s.images
  deleted : ops.deletes index email imageVersion record = true
  connected : connection.isSome
  osType : ops.osType imageVersion = ops.osType record.image
  number : ∃ text, index = some text ∧ Token text ∧
    UInt8.ofInt (atoi text) = clientIndex record.index
  length : ∀ sent, deleteMessage ops imageVersion index email = some sent → sent.length ≤ 500

/-- A request that changes both sides, or neither: a delete without a document goes
well only if its connection fails. -/
def Matched (s : State Value) : OsRequest Value → Prop
  | .requestCreateOS email imageVersion connection =>
      CreateMatched ops s email imageVersion connection
  | .requestDeleteOS email index imageVersion connection =>
      (∃ record, DeleteMatched ops s email index imageVersion connection record) ∨
      (connection = none ∧ ∀ record ∈ s.images, ops.deletes index email imageVersion record = false)

/-! ## The invariant -/

structure StoresInv (s : State Value) : Prop where
  agree : StoresAgree ops s
  numbered : Numbered s
  words : ∀ record ∈ s.images, ∃ email, record.email = some email ∧ Token email

theorem storesInv_start : StoresInv ops start where
  agree := ⟨by simp [start], by simp [start], by simp [start]⟩
  numbered := numbered_start
  words := by simp [start]

theorem recordAddress_eq {record : ImageRecord Value} {email : Bytes} {osType : ℕ}
    (hemail : record.email = some email) (hos : ops.osType record.image = some osType) :
    recordAddress ops record = some (imageAddress email osType (clientIndex record.index)) := by
  simp [recordAddress, hemail, hos]

/-- Documents are told apart by their `Index`. -/
theorem Numbered.eq_of_index {s : State Value} (h : Numbered s) {a b : ImageRecord Value}
    (ha : a ∈ s.images) (hb : b ∈ s.images) (hindex : a.index = b.index) : a = b := by
  have hnodup : (s.created.map ImageRecord.index).Nodup := by
    rw [h.indices]
    exact List.nodup_range'
  exact List.inj_on_of_nodup_map hnodup (h.sublist.subset ha) (h.sublist.subset hb) hindex

/-! ## Creates -/

variable {ops}

/-- No document has the address of an image that is still to be created. -/
theorem CreateMatched.address_ne {s : State Value} {email : Bytes} {imageVersion : Value}
    {connection : Option Process} {osType : ℕ}
    (hm : CreateMatched ops s (some email) imageVersion connection)
    (hos : ops.osType imageVersion = some osType) {record : ImageRecord Value}
    (hrecord : record ∈ s.images) :
    recordAddress ops record ≠ some (imageAddress email osType (clientIndex s.nextIndex)) := by
  intro heq
  obtain ⟨email', hemail', hmap⟩ := Option.bind_eq_some_iff.mp heq
  obtain ⟨osType', hos', hsame⟩ := Option.map_eq_some_iff.mp hmap
  obtain ⟨rfl, rfl, hindex⟩ :=
    (imageAddress_inj (ops.osType_lt hos') (ops.osType_lt hos)).mp hsame
  exact hm.fresh record hrecord hemail' (hos'.trans hos.symm) hindex

theorem StoresAgree.create {s : State Value} (h : StoresAgree ops s) {record : ImageRecord Value}
    {address : Address} (haddress : recordAddress ops record = some address)
    (hnew : ∀ old ∈ s.images, recordAddress ops old ≠ some address) (indexers : Indexers)
    (created : List (ImageRecord Value)) :
    StoresAgree ops ⟨indexers, s.images ++ [record], insert address s.host, created⟩ := by
  refine ⟨?_, ?_, ?_⟩
  · intro old hold
    rcases List.mem_append.mp hold with hold | hold
    · exact h.addressed old hold
    · rw [List.mem_singleton.mp hold, haddress]
      rfl
  · rw [List.map_append, List.map_singleton, List.nodup_append]
    refine ⟨h.distinct, List.nodup_singleton _, ?_⟩
    intro other hother last hlast
    obtain ⟨old, hold, rfl⟩ := List.mem_map.mp hother
    rw [List.mem_singleton.mp hlast, haddress]
    exact hnew old hold
  · intro other
    simp only [Finset.mem_insert, h.host other, List.mem_append, List.mem_singleton, or_and_right,
      exists_or, exists_eq_left, haddress, Option.some.injEq]
    rw [or_comm, eq_comm]

theorem StoresInv.create {s : State Value} (h : StoresInv ops s) {email : JsText}
    {imageVersion : Value} {connection : Option Process}
    (hm : CreateMatched ops s email imageVersion connection) :
    StoresInv ops (step ops s (.requestCreateOS email imageVersion connection)) := by
  obtain ⟨process, rfl⟩ := Option.isSome_iff_exists.mp hm.connected
  obtain ⟨word, hword, htoken⟩ := hm.readable.email
  obtain ⟨osType, hos⟩ := Option.isSome_iff_exists.mp hm.readable.osType
  obtain rfl : email = some word := hword
  obtain ⟨sent, hsent⟩ := createMessage_isSome hos s.nextIndex word
  have hhost := deliver_create ops s.host process ⟨word, htoken⟩ hos hsent
    (hm.readable.length sent hsent)
  refine ⟨?_, numbered_step ops h.numbered _, ?_⟩
  · rw [step_create, hsent, hhost]
    exact h.agree.create (recordAddress_eq ops rfl hos) (fun old hold => hm.address_ne hos hold) _ _
  · intro record hrecord
    rw [step_create] at hrecord
    rcases List.mem_append.mp hrecord with hold | hlast
    · exact h.words record hold
    · rw [List.mem_singleton.mp hlast]
      exact ⟨word, rfl, htoken⟩

/-! ## Deletes -/

theorem StoresInv.osType_isSome {s : State Value} (h : StoresInv ops s)
    {record : ImageRecord Value} (hrecord : record ∈ s.images) :
    (ops.osType record.image).isSome := by
  obtain ⟨email, hemail, -⟩ := h.words record hrecord
  simpa [recordAddress, hemail] using h.agree.addressed record hrecord

theorem DeleteMatched.email_eq {s : State Value} {email index : JsText} {imageVersion : Value}
    {connection : Option Process} {record : ImageRecord Value}
    (hm : DeleteMatched ops s email index imageVersion connection record) :
    record.email = email := by
  have hdeleted := hm.deleted
  simp only [ValueOps.deletes, Bool.and_eq_true, beq_iff_eq] at hdeleted
  exact hdeleted.1.2

/-- A query selects at most one document, since it asks for the `Index`. -/
theorem StoresInv.deletes_iff {s : State Value} (h : StoresInv ops s) {email index : JsText}
    {imageVersion : Value} {record : ImageRecord Value} (hrecord : record ∈ s.images)
    (hdeleted : ops.deletes index email imageVersion record = true) {other : ImageRecord Value}
    (hother : other ∈ s.images) :
    ops.deletes index email imageVersion other = true ↔ other = record := by
  refine ⟨?_, ?_⟩
  · intro hboth
    simp only [ValueOps.deletes, Bool.and_eq_true, beq_iff_eq] at hdeleted hboth
    have hindex : some (other.index : ℤ) = some (record.index : ℤ) :=
      hboth.1.1.symm.trans hdeleted.1.1
    exact h.numbered.eq_of_index hother hrecord (by simpa using hindex)
  · rintro rfl
    exact hdeleted

theorem StoresAgree.delete {s : State Value} (h : StoresAgree ops s) {record : ImageRecord Value}
    {address : Address} (hrecord : record ∈ s.images)
    (haddress : recordAddress ops record = some address) {left : List (ImageRecord Value)}
    (hleft : left.Sublist s.images)
    (hmem : ∀ other, other ∈ left ↔ other ∈ s.images ∧ other ≠ record) :
    StoresAgree ops { s with images := left, host := s.host.erase address } := by
  refine ⟨?_, h.distinct.sublist (hleft.map _), ?_⟩
  · intro other hother
    exact h.addressed other ((hmem other).mp hother).1
  · intro other
    -- an address in use is the deleted one exactly if it is the deleted document's
    have hsame : ∀ old ∈ s.images, recordAddress ops old = some address → old = record := by
      intro old hold heq
      exact List.inj_on_of_nodup_map h.distinct hold hrecord (heq.trans haddress.symm)
    simp only [Finset.mem_erase, h.host other]
    refine ⟨?_, ?_⟩
    · intro hcase
      obtain ⟨hne, old, hold, heq⟩ := hcase
      refine ⟨old, (hmem old).mpr ⟨hold, ?_⟩, heq⟩
      rintro rfl
      exact hne (Option.some_inj.mp (heq.symm.trans haddress))
    · intro hcase
      obtain ⟨old, hold, heq⟩ := hcase
      obtain ⟨hmem', hne⟩ := (hmem old).mp hold
      refine ⟨?_, old, hmem', heq⟩
      rintro rfl
      exact hne (hsame old hmem' heq)

theorem StoresInv.delete {s : State Value} (h : StoresInv ops s) {email index : JsText}
    {imageVersion : Value} {connection : Option Process} {record : ImageRecord Value}
    (hm : DeleteMatched ops s email index imageVersion connection record) :
    StoresInv ops (step ops s (.requestDeleteOS email index imageVersion connection)) := by
  obtain ⟨process, rfl⟩ := Option.isSome_iff_exists.mp hm.connected
  obtain ⟨text, rfl, htext, hnumber⟩ := hm.number
  obtain ⟨word, hword, htoken⟩ := h.words record hm.mem
  obtain ⟨osType, hos⟩ := Option.isSome_iff_exists.mp (h.osType_isSome hm.mem)
  obtain rfl : email = some word := hm.email_eq.symm.trans hword
  obtain ⟨sent, hsent⟩ := deleteMessage_isSome (hm.osType.trans hos) text word
  have hhost := deliver_delete ops s.host process ⟨text, htext⟩ ⟨word, htoken⟩
    (hm.osType.trans hos) hsent (hm.length sent hsent)
  have hstep : step ops s (.requestDeleteOS (some word) (some text) imageVersion (some process)) =
      { s with
        images := (deleteImage ops s.images (some text) (some word) imageVersion).2
        host := s.host.erase (imageAddress word osType (clientIndex record.index)) } := by
    simp only [step, hsent, hhost, hnumber]
  have hleft : ∀ other, other ∈ (deleteImage ops s.images (some text) (some word) imageVersion).2 ↔
      other ∈ s.images ∧ other ≠ record := by
    intro other
    simp only [deleteImage, List.mem_filter, Bool.not_eq_true']
    refine and_congr_right fun hother => ?_
    rw [← Bool.not_eq_true, h.deletes_iff hm.mem hm.deleted hother]
  refine ⟨?_, numbered_step ops h.numbered _, ?_⟩
  · rw [hstep]
    exact h.agree.delete hm.mem (recordAddress_eq ops hword hos) List.filter_sublist hleft
  · intro other hother
    rw [hstep] at hother
    exact h.words other ((hleft other).mp hother).1

/-- A delete that selects no document leaves the collection as it is. -/
theorem deleteImage_of_none {images : List (ImageRecord Value)} {email index : JsText}
    {imageVersion : Value}
    (h : ∀ record ∈ images, ops.deletes index email imageVersion record = false) :
    deleteImage ops images index email imageVersion = (0, images) := by
  have hnone : images.filter (ops.deletes index email imageVersion) = [] := by
    simpa [List.filter_eq_nil_iff] using h
  have hall :
      (images.filter fun record => !ops.deletes index email imageVersion record) = images := by
    simpa [List.filter_eq_self] using h
  rw [deleteImage, hnone, hall, List.length_nil]

theorem DeleteMatched.removed {s : State Value} {email index : JsText} {imageVersion : Value}
    {connection : Option Process} {record : ImageRecord Value}
    (hm : DeleteMatched ops s email index imageVersion connection record) :
    (deleteImage ops s.images index email imageVersion).1 ≠ 0 := by
  have hmem : record ∈ s.images.filter (ops.deletes index email imageVersion) :=
    List.mem_filter.mpr ⟨hm.mem, hm.deleted⟩
  exact Nat.ne_of_gt (List.length_pos_of_mem hmem)

/-! ## Histories -/

theorem storesInv_step {s : State Value} (h : StoresInv ops s) {request : OsRequest Value}
    (hm : Matched ops s request) : StoresInv ops (step ops s request) := by
  cases request with
  | requestCreateOS email imageVersion connection => exact h.create hm
  | requestDeleteOS email index imageVersion connection =>
      rcases hm with ⟨record, hm⟩ | ⟨rfl, hnone⟩
      · exact h.delete hm
      · have hsame : step ops s (.requestDeleteOS email index imageVersion none) = s := by
          simp only [step, deleteImage_of_none hnone, deliver]
        rw [hsame]
        exact h

theorem careful_of_matched {s : State Value} {request : OsRequest Value}
    (hm : Matched ops s request) : Careful ops s request := by
  cases request with
  | requestCreateOS email imageVersion connection =>
      intro hfailed
      have hconnected := hm.connected
      rw [hfailed] at hconnected
      exact absurd hconnected (by simp)
  | requestDeleteOS email index imageVersion connection =>
      rcases hm with ⟨record, hm⟩ | ⟨rfl, hnone⟩
      · refine ⟨fun _ _ => hm.removed, fun hfailed => ?_⟩
        have hconnected := hm.connected
        rw [hfailed] at hconnected
        exact absurd hconnected (by simp)
      · refine ⟨fun hconnected => absurd hconnected (by simp), fun _ => ?_⟩
        simp only [step, deleteImage_of_none hnone]

end SsmIaas.Images
