import SsmIaas.Lib.Run
import SsmIaas.VMManager.Command
import Mathlib.Data.List.Nodup

/-!
# The android slots of one VMManager process

Every android image is created from a base image of its own, whose number is the
slot that the create found in `android[100]`.  The table should say which slots
belong to images that still exist; a delete should give back the slot of the
image it deletes.

`android[]` alone cannot tell whose slot is whose, and `command ()` has nothing
else: a delete gives back the lowest slot in use.  `slots_agree_iff` is the exact
condition on a history of creates and deletes for the table to stay right: no
create on a full table, and every delete is of the image with the lowest slot.
-/

namespace SsmIaas.VMManager

open Lib

/-- An existing android image, with the slot its create passed to `command.sh`. -/
structure Image where
  id : Bytes
  index : UInt8
  slot : ℕ
  deriving DecidableEq, Repr

structure Host where
  android : Table
  images : List Image

inductive ImageRequest
  | create (id : Bytes) (index : UInt8)
  /-- delete the image at this place of the list of existing images -/
  | delete (place : ℕ)
  deriving DecidableEq, Repr

def hostStep (s : Host) : ImageRequest → Host
  | .create id index =>
      let result := slotFor (androidCreate id index) s.android
      ⟨result.2, s.images ++ [⟨id, index, result.1⟩]⟩
  | .delete place =>
      match s.images[place]? with
      | none => s
      | some image =>
          ⟨(slotFor (androidDelete image.id image.index) s.android).2, s.images.eraseIdx place⟩

def freshHost : Host := ⟨freshTable, []⟩

/-- The slots in use are those of the existing images, each of one image. -/
structure SlotsAgree (s : Host) : Prop where
  used : ∀ i, (i < 100 ∧ s.android i = 0) ↔ ∃ image ∈ s.images, image.slot = i
  distinct : (s.images.map Image.slot).Nodup

/-- A create is given a slot that no image has; a delete passes on the slot its
image was created with. -/
def SlotRight (s : Host) : ImageRequest → Prop
  | .create id index =>
      ∀ image ∈ s.images, image.slot ≠ (slotFor (androidCreate id index) s.android).1
  | .delete place => ∀ image, s.images[place]? = some image →
      (slotFor (androidDelete image.id image.index) s.android).1 = image.slot

/-- The condition on a request: a create finds a free slot, a delete is of the
image with the lowest slot in use. -/
def LowestFirst (s : Host) : ImageRequest → Prop
  | .create _ _ => ∃ i < 100, s.android i = 1
  | .delete place => ∀ image, s.images[place]? = some image → ∀ j < image.slot, s.android j ≠ 0

/-- The table has no entries but 0 and 1. -/
def TwoValued (s : Host) : Prop := ∀ i < 100, s.android i = 0 ∨ s.android i = 1

structure HostInv (s : Host) : Prop where
  agree : SlotsAgree s
  two : TwoValued s

theorem hostInv_fresh : HostInv freshHost := by
  refine ⟨⟨fun i => ?_, by simp [freshHost]⟩, fun i hi => by simp [freshHost, freshTable, hi]⟩
  simp only [freshHost, freshTable, List.not_mem_nil, false_and, exists_false, iff_false, not_and]
  intro hi
  rw [if_pos hi]
  omega

theorem SlotsAgree.slot_used {s : Host} (h : SlotsAgree s) {image : Image}
    (himage : image ∈ s.images) : image.slot < 100 ∧ s.android image.slot = 0 :=
  (h.used image.slot).mpr ⟨image, himage, rfl⟩

/-- No image has a free slot. -/
theorem SlotsAgree.slot_ne {s : Host} (h : SlotsAgree s) {i : ℕ} (hfree : s.android i = 1) :
    ∀ image ∈ s.images, image.slot ≠ i := by
  intro image himage heq
  have hused := (h.slot_used himage).2
  rw [heq, hfree] at hused
  omega

/-! ## Creates -/

theorem SlotsAgree.create {s : Host} (h : SlotsAgree s) {i : ℕ} (hi : i < 100)
    (hfree : s.android i = 1) (id : Bytes) (index : UInt8) :
    SlotsAgree ⟨Function.update s.android i 0, s.images ++ [⟨id, index, i⟩]⟩ := by
  refine ⟨?_, ?_⟩
  · intro j
    by_cases hj : j = i
    · subst hj
      simp [hi]
    · simp [Function.update_of_ne hj, h.used j, Ne.symm hj, or_and_right, exists_or]
  · rw [List.map_append, List.map_singleton, List.nodup_append]
    refine ⟨h.distinct, List.nodup_singleton i, ?_⟩
    intro slot hslot other hother
    obtain ⟨image, himage, rfl⟩ := List.mem_map.mp hslot
    rw [List.mem_singleton] at hother
    exact hother ▸ h.slot_ne hfree image himage

/-- A create on a full table is given slot 0, which some image has. -/
theorem HostInv.not_slotRight_of_full {s : Host} (h : HostInv s)
    (hfull : ¬ ∃ i < 100, s.android i = 1) (id : Bytes) (index : UInt8) :
    ¬ SlotRight s (.create id index) := by
  intro hright
  have hzero : s.android 0 = 0 := by
    rcases h.two 0 (by omega) with hused | hfree
    · exact hused
    · exact absurd ⟨0, by omega, hfree⟩ hfull
  obtain ⟨image, himage, hslot⟩ := (h.agree.used 0).mp ⟨by omega, hzero⟩
  apply hright image himage
  rw [slotFor_androidCreate, takeSlot_of_full hfull, hslot]

/-! ## Deletes -/

theorem exists_split_of_getElem? {α : Type*} {l : List α} {n : ℕ} {a : α} (h : l[n]? = some a) :
    ∃ l₁ l₂, l = l₁ ++ a :: l₂ ∧ l.eraseIdx n = l₁ ++ l₂ := by
  obtain ⟨hn, rfl⟩ := List.getElem?_eq_some_iff.mp h
  refine ⟨l.take n, l.drop (n + 1), ?_, List.eraseIdx_eq_take_drop_succ l n⟩
  rw [List.getElem_cons_drop, List.take_append_drop]

/-- Giving back the slot of the deleted image keeps the table right. -/
theorem SlotsAgree.delete {s : Host} (h : SlotsAgree s) {place : ℕ} {image : Image}
    (himage : s.images[place]? = some image) :
    SlotsAgree ⟨Function.update s.android image.slot 1, s.images.eraseIdx place⟩ := by
  obtain ⟨before, after, hsplit, herase⟩ := exists_split_of_getElem? himage
  obtain ⟨hused, hdistinct⟩ := h
  rw [hsplit] at hused hdistinct
  rw [List.map_append, List.map_cons, List.nodup_middle, List.nodup_cons, ← List.map_append]
    at hdistinct
  rw [herase]
  refine ⟨fun i => ?_, hdistinct.2⟩
  by_cases hi : i = image.slot
  · -- no other image has the slot that was given back
    subst hi
    simp only [Function.update_self, Nat.one_ne_zero, and_false, false_iff]
    exact fun hmem => hdistinct.1 (List.mem_map.mpr hmem)
  · have hne : image.slot ≠ i := Ne.symm hi
    simp only [Function.update_of_ne hi, hused i]
    simp [or_and_right, exists_or, hne]

/-- Some image has the slot a delete would give back, and the deleted image's
slot is in use, so the two agree exactly when no lower slot is in use. -/
theorem SlotsAgree.delete_iff {s : Host} (h : SlotsAgree s) {place : ℕ} {image : Image}
    (himage : s.images[place]? = some image) :
    (returnSlot s.android).1 = image.slot ↔ ∀ j < image.slot, s.android j ≠ 0 := by
  obtain ⟨hlt, hused⟩ := h.slot_used (List.mem_of_getElem? himage)
  refine ⟨?_, ?_⟩
  · intro heq j hj hzero
    have := returnSlot_le hzero
    omega
  · intro hlow
    rw [returnSlot_of_used hlt hused hlow]

/-! ## Histories -/

theorem twoValued_step {s : Host} (h : TwoValued s) (request : ImageRequest) :
    TwoValued (hostStep s request) := by
  have hset : ∀ i value, value = 0 ∨ value = 1 →
      ∀ j < 100, Function.update s.android i value j = 0 ∨
        Function.update s.android i value j = 1 := by
    intro i value hvalue j hj
    by_cases hij : j = i
    · simpa [hij] using hvalue
    · simpa [hij] using h j hj
  cases request with
  | create id index =>
      simp only [hostStep, slotFor_androidCreate, takeSlot]
      split
      · exact hset _ 0 (Or.inl rfl)
      · exact h
  | delete place =>
      simp only [hostStep]
      split
      · exact h
      · simp only [slotFor_androidDelete, returnSlot]
        split
        · exact hset _ 1 (Or.inr rfl)
        · exact h

theorem hostInv_step {s : Host} (h : HostInv s) (request : ImageRequest)
    (hlow : LowestFirst s request) : HostInv (hostStep s request) := by
  refine ⟨?_, twoValued_step h.two request⟩
  cases request with
  | create id index =>
      obtain ⟨i, hi, hfree, hbefore⟩ := exists_first_free hlow
      simp only [hostStep, slotFor_androidCreate, takeSlot_of_free hi hfree hbefore]
      exact h.agree.create hi hfree id index
  | delete place =>
      simp only [hostStep]
      split
      · exact h.agree
      · rename_i image himage
        obtain ⟨hlt, hused⟩ := h.agree.slot_used (List.mem_of_getElem? himage)
        simp only [slotFor_androidDelete, returnSlot_of_used hlt hused (hlow image himage)]
        exact h.agree.delete himage

theorem slotRight_iff {s : Host} (h : HostInv s) (request : ImageRequest) :
    SlotRight s request ↔ LowestFirst s request := by
  cases request with
  | create id index =>
      refine ⟨?_, ?_⟩
      · intro hright
        by_contra hfull
        exact h.not_slotRight_of_full hfull id index hright
      · intro hfree image himage heq
        obtain ⟨i, hi, hone, hbefore⟩ := exists_first_free hfree
        rw [slotFor_androidCreate, takeSlot_of_free hi hone hbefore] at heq
        exact h.agree.slot_ne hone image himage heq
  | delete place =>
      exact forall_congr' fun image => imp_congr_right fun himage => h.agree.delete_iff himage

/-- **The slot table.**  Along a history of creates and deletes, the slots in use
are those of the existing images, all different, and every request passes the
right slot to `command.sh`, exactly when no create meets a full table and every
delete is of the image with the lowest slot. -/
theorem slots_agree_iff (requests : List ImageRequest) :
    (Everywhere hostStep SlotsAgree freshHost requests ∧
        Along hostStep SlotRight freshHost requests) ↔
      Along hostStep LowestFirst freshHost requests := by
  have hexact : Along hostStep SlotRight freshHost requests ↔
      Along hostStep LowestFirst freshHost requests :=
    along_iff_of_invariant hostInv_fresh (fun _ request h => hostInv_step h request)
      fun _ request h => slotRight_iff h request
  refine ⟨?_, ?_⟩
  · intro h
    exact hexact.mp h.2
  · intro hlow
    -- the table is right because the invariant of such a history says so
    have hinv := hlow.everywhere hostInv_fresh fun _ request h => hostInv_step h request
    exact ⟨hinv.mono fun _ h => h.agree, hexact.mpr hlow⟩

/-- Two images are created and the second is deleted: the table frees slot 0,
which the first one still has. -/
theorem delete_returns_wrong_slot :
    ¬ (Everywhere hostStep SlotsAgree freshHost [.create [97] 1, .create [98] 2, .delete 1] ∧
      Along hostStep SlotRight freshHost [.create [97] 1, .create [98] 2, .delete 1]) := by
  intro hcase
  obtain ⟨-, -, -, hdelete, -⟩ := hcase
  have hslot := hdelete ⟨[98], 2, 1⟩ (by decide)
  revert hslot
  decide

end SsmIaas.VMManager
