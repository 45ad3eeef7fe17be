import SsmIaas.Lib.CString
import SsmIaas.Lib.Scan
import Mathlib.Logic.Function.Basic

/-!
# `command ()` of VMManager

What VMManager does with one parsed request: pick or give back an android slot,
then hand a line to the shell.  The table `android[100]` has a `1` for every slot
that is free and a `0` for every slot in use.  A create takes the first free slot
and a delete gives back the *first used* one; neither looks at the image the
request is about, and both go on with slot 0 when their loop finds nothing.
-/

namespace SsmIaas.VMManager

open Lib

/-- The fields of `client_info` that only requests 0 and 3 carry. -/
structure Connection where
  ip : Option Bytes
  connectType : UInt8
  portI : UInt16
  portA : UInt16
  portE : UInt16
  deriving DecidableEq, Repr

/-- `client_info`.  The strings are pointers in the source; `none` is `NULL`.  The
last five fields stay uninitialised for a create or delete. -/
structure ClientInfo where
  command : UInt8
  osType : UInt8
  index : UInt8
  id : Option Bytes
  connection : Option Connection
  deriving DecidableEq, Repr

/-- The global `android[100]`. -/
abbrev Table := ℕ → ℕ

/-- The table `main` starts with: all slots free. -/
def freshTable : Table := fun i => if i < 100 then 1 else 0

/-- The loop of a create: the slot it takes and the table after it. -/
def takeSlot (android : Table) : ℕ × Table :=
  let i := scan (fun i => android i == 1) 0 100
  if i < 100 then (i, Function.update android i 0) else (0, android)

/-- The loop of a delete: the slot it gives back and the table after it. -/
def returnSlot (android : Table) : ℕ × Table :=
  let i := scan (fun i => android i == 0) 0 100
  if i < 100 then (i, Function.update android i 1) else (0, android)

/-- The first half of `command ()`: the local variable `index` and the table. -/
def slotFor (client : ClientInfo) (android : Table) : ℕ × Table :=
  if client.command = 1 then
    if client.osType = 0 then takeSlot android else (0, android)
  else if client.command = 2 then
    if client.osType = 0 then returnSlot android else (0, android)
  else (0, android)

/-- The `switch` over the OS type; the buffer `os` is left as it was for a type
above 3. -/
def osName (osType : UInt8) (uninitialised : Bytes) : Bytes :=
  if osType = 0 then utf8 "android"
  else if osType = 1 then utf8 "tizen"
  else if osType = 2 then utf8 "ubuntu"
  else if osType = 3 then utf8 "windows7"
  else uninitialised

theorem osName_of_lt {n : ℕ} (hn : n < 4) (uninitialised : Bytes) :
    osName (UInt8.ofNat n) uninitialised = osName (UInt8.ofNat n) [] := by
  interval_cases n <;> rfl

/-- The arguments by which `command.sh` finds an image, `./<id>/<os>_<index>.img`. -/
structure Address where
  id : Bytes
  os : Bytes
  index : Bytes
  deriving DecidableEq, Repr

/-- What `%s`, `%s` and `%d` print for the image; a `NULL` string is printed as
`(null)`. -/
def ClientInfo.address (client : ClientInfo) (os : Bytes) : Address :=
  ⟨client.id.getD (utf8 "(null)"), os, decimal client.index.toNat⟩

/-- `sprintf (command, "./command.sh %d %s %s %d %d", ..)`. -/
def commandLine (client : ClientInfo) (os : Bytes) (slot : ℕ) : Bytes :=
  let image := client.address os
  utf8 "./command.sh " ++ decimal client.command.toNat ++ [space] ++ image.id ++ [space] ++
    image.os ++ [space] ++ image.index ++ [space] ++ decimal slot

/-- An android create or delete request for an image. -/
def androidCreate (id : Bytes) (index : UInt8) : ClientInfo := ⟨1, 0, index, some id, none⟩

def androidDelete (id : Bytes) (index : UInt8) : ClientInfo := ⟨2, 0, index, some id, none⟩

@[simp] theorem slotFor_androidCreate (id : Bytes) (index : UInt8) (android : Table) :
    slotFor (androidCreate id index) android = takeSlot android := rfl

@[simp] theorem slotFor_androidDelete (id : Bytes) (index : UInt8) (android : Table) :
    slotFor (androidDelete id index) android = returnSlot android := rfl

/-! ## The two loops -/

theorem takeSlot_of_free {android : Table} {i : ℕ} (hi : i < 100) (hfree : android i = 1)
    (hbefore : ∀ j, j < i → android j ≠ 1) :
    takeSlot android = (i, Function.update android i 0) := by
  have hscan : scan (fun i => android i == 1) 0 100 = i :=
    scan_eq (Nat.zero_le _) (by omega) (by simpa using hfree)
      fun j _ hj => by simpa using hbefore j hj
  simp only [takeSlot, hscan, if_pos hi]

theorem exists_first_free {android : Table} (h : ∃ i < 100, android i = 1) :
    ∃ i < 100, android i = 1 ∧ ∀ j, j < i → android j ≠ 1 := by
  classical
  have hne : ∃ i, i < 100 ∧ android i = 1 := h
  refine ⟨Nat.find hne, (Nat.find_spec hne).1, (Nat.find_spec hne).2, fun j hj hfree => ?_⟩
  exact Nat.find_min hne hj ⟨hj.trans (Nat.find_spec hne).1, hfree⟩

theorem takeSlot_of_full {android : Table} (h : ¬ ∃ i < 100, android i = 1) :
    takeSlot android = (0, android) := by
  have hscan : ¬ scan (fun i => android i == 1) 0 100 < 100 := by
    intro hlt
    have hhit : scan (fun i => android i == 1) 0 100 < 0 + 100 := by simpa using hlt
    obtain ⟨i, -, hi, hfree⟩ := scan_lt_iff.mp hhit
    exact h ⟨i, by simpa using hi, by simpa using hfree⟩
  simp only [takeSlot, if_neg hscan]

theorem returnSlot_of_used {android : Table} {i : ℕ} (hi : i < 100) (hused : android i = 0)
    (hbefore : ∀ j, j < i → android j ≠ 0) :
    returnSlot android = (i, Function.update android i 1) := by
  have hscan : scan (fun i => android i == 0) 0 100 = i :=
    scan_eq (Nat.zero_le _) (by omega) (by simpa using hused)
      fun j _ hj => by simpa using hbefore j hj
  simp only [returnSlot, hscan, if_pos hi]

/-- A delete gives back a slot no higher than any slot in use. -/
theorem returnSlot_le {android : Table} {i : ℕ} (hused : android i = 0) :
    (returnSlot android).1 ≤ i := by
  have hscan : scan (fun i => android i == 0) 0 100 ≤ i :=
    scan_le_of_hit (Nat.zero_le _) (by simpa using hused)
  unfold returnSlot
  dsimp only
  split
  · exact hscan
  · exact Nat.zero_le _

end SsmIaas.VMManager
