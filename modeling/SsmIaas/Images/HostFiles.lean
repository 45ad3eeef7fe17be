import SsmIaas.Images.Agreement
import SsmIaas.LoadBalancer.Select
import SsmIaas.VMManager.CommandScript
import SsmIaas.VMManager.ShellLine

/-!
# The files of the images

`Images.step` keeps the images on the host as a set of addresses.  Here the set is replaced
by what is really there: VMManager prints a line, a shell takes it apart into words, and
`command.sh` makes and removes files.

`files_refine_host`: as long as the lines are what `command ()` means them to be, the files
of ubuntu and windows images are those in the set, in every history.

`listed_image_starts`: if moreover every request changes both sides of an image, then a start
or an install of any document of the database runs QEMU on the file that was made for this
document, and for no other.
-/

namespace SsmIaas.VMManager

open Lib

/-- The commands that `command.sh` runs when it is called with these words. -/
def commandSh : List Bytes → Option (List ShellCommand)
  | [_, command, id, os, index, android] =>
      some (commandScript (.ofInt (atoi command)) ⟨id, os, index⟩ (atoi android).toNat)
  | _ => none

/-- `system (line)`.  A line that is not a call of the script does nothing here; what a shell
makes of it is anyone's guess. -/
def lineScript (line : Bytes) : List ShellCommand :=
  ((shellWords line).bind commandSh).getD []

/-- The images that `qemu` is given as drives.  A `cd` that fails leaves the script in
VMManager's own directory. -/
def drives (disk : HostDisk) (script : List ShellCommand) : List ImagePath :=
  script.filterMap fun
    | .qemu dir drive => some ⟨if dir ∈ disk.dirs then dir else [], drive⟩
    | _ => none

/-- The line fits into its array and is the call that it should be, and the directory of a
new image can be made. -/
structure PlainLine (client : ClientInfo) (os : Bytes) (slot : ℕ) : Prop where
  fits : (commandLine client os slot).length + 1 ≤ 100
  words : shellWords (commandLine client os slot) =
    some (commandWords client.command (client.address os).id os client.index slot)
  plain : client.command = 1 → PlainName (client.address os).id

theorem slotFor_lt (client : ClientInfo) (android : Table) : (slotFor client android).1 < 100 := by
  simp only [slotFor, takeSlot, returnSlot]
  split_ifs <;> first | assumption | simp

theorem lineScript_of_words {client : ClientInfo} {os : Bytes} {slot : ℕ} (hslot : slot < 100)
    (h : shellWords (commandLine client os slot) =
      some (commandWords client.command (client.address os).id os client.index slot)) :
    lineScript (commandLine client os slot) =
      commandScript client.command (client.address os) slot := by
  have hcommand : UInt8.ofInt (atoi (decimal client.command.toNat)) = client.command := by
    have hlt := client.command.toNat_lt
    rw [uint8_atoi (numeral_decimal _), Nat.min_eq_left (by omega), UInt8.ofNat_toNat]
  have hnumber : (atoi (decimal slot)).toNat = slot := by
    rw [atoi_numeral (numeral_decimal _), Nat.min_eq_left (by omega), Int.bmod]
    omega
  rw [lineScript, h, Option.bind_some, commandWords, commandSh, hcommand, hnumber]
  rfl

/-! ## Files and addresses -/

/-- An image that `qemu-img` makes. -/
def Address.MadeBlank (image : Address) : Prop :=
  image.os = utf8 "windows7" ∨ image.os = utf8 "ubuntu"

instance (image : Address) : Decidable image.MadeBlank := inferInstanceAs (Decidable (_ ∨ _))

theorem Address.MadeBlank.ne_android {image : Address} (h : image.MadeBlank) :
    image.os ≠ utf8 "android" := by
  rcases h with h | h <;> rw [h] <;> decide +kernel

theorem commandScript_create_blank {image : Address} (h : image.MadeBlank) (slot : ℕ) :
    commandScript 1 image slot = [.mkdir image.id, .qemuImgCreate image.path] := by
  have hone : ¬ ((1 : UInt8) = 0) := by decide
  rw [Address.MadeBlank] at h
  simp only [commandScript, if_neg hone, if_true, if_pos h]

theorem dirs_subset_runScript (disk : HostDisk) (script : List ShellCommand) :
    disk.dirs ⊆ (runScript disk script).dirs :=
  run_invariant (I := fun s => disk.dirs ⊆ s.dirs) script (Finset.Subset.refl _)
    fun s c h => h.trans (dirs_subset_exec s c)

/-- The blank images on the disk are those in the set, and every image has its directory. -/
structure FilesAgree (host : Finset Address) (disk : HostDisk) : Prop where
  files : ∀ image : Address, image.Numbered → image.MadeBlank →
    disk.files image.path = if image ∈ host then some .blank else none
  dirs : ∀ image ∈ host, image.id ∈ disk.dirs

theorem filesAgree_installed : FilesAgree ∅ (installed 100) where
  files image hnumbered hblank := by
    obtain ⟨n, hn⟩ := hnumbered
    simp only [installed, Finset.notMem_empty, if_false, Option.map_eq_none_iff,
      List.find?_eq_none, decide_eq_true_eq]
    intro slot _ hpath
    have hname := congrArg ImagePath.name hpath
    simp only [basePath, Address.path, hn] at hname
    exact hblank.ne_android (imageName_inj.mp hname).1.symm
  dirs image himage := absurd himage (Finset.notMem_empty _)

section

variable {host : Finset Address} {disk : HostDisk} {image : Address}

theorem FilesAgree.createBlank (h : FilesAgree host disk) (hnumbered : image.Numbered)
    (hplain : PlainName image.id) :
    FilesAgree (insert image host)
      (runScript disk [.mkdir image.id, .qemuImgCreate image.path]) := by
  have hrun : runScript disk [.mkdir image.id, .qemuImgCreate image.path] =
      ⟨insert image.id disk.dirs, Function.update disk.files image.path (some .blank)⟩ := by
    have hpath : image.path.dir ∈ insert image.id disk.dirs := Finset.mem_insert_self ..
    simp only [runScript, run_cons, run_nil, ShellCommand.exec, if_pos hplain, if_pos hpath]
  rw [hrun]
  refine ⟨fun other hother hblank => ?_, fun other hother => ?_⟩
  · by_cases heq : other = image
    · simp [heq]
    · have hne : other.path ≠ image.path := fun hpath => heq ((path_inj hother hnumbered).mp hpath)
      simp [Function.update_of_ne hne, h.files other hother hblank, heq]
  · rcases Finset.mem_insert.mp hother with rfl | hother
    · exact Finset.mem_insert_self ..
    · exact Finset.mem_insert_of_mem (h.dirs other hother)

/-- A create that makes no blank image leaves those there are. -/
theorem FilesAgree.createOther (h : FilesAgree host disk) (hplain : PlainName image.id)
    (himage : ¬ image.MadeBlank) {rest : List ShellCommand}
    (hrest : ∀ other : Address, other.Numbered → other.MadeBlank →
      ∀ c ∈ rest, other.path ∉ c.paths) :
    FilesAgree (insert image host) (runScript disk (.mkdir image.id :: rest)) where
  files other hother hblank := by
    have hne : other ≠ image := by
      rintro rfl
      exact himage hblank
    have hfiles : (runScript disk (.mkdir image.id :: rest)).files other.path =
        disk.files other.path := by
      have hkept : ∀ c ∈ ShellCommand.mkdir image.id :: rest, other.path ∉ c.paths := by
        simpa [ShellCommand.paths] using hrest other hother hblank
      exact files_runScript_of_notMem disk hkept
    rw [hfiles, h.files other hother hblank]
    simp [hne]
  dirs other hother := by
    rw [runScript, run_cons]
    apply dirs_subset_runScript
    rcases Finset.mem_insert.mp hother with rfl | hother
    · exact mem_dirs_mkdir hplain disk
    · exact dirs_subset_exec disk _ (h.dirs other hother)

theorem FilesAgree.delete (h : FilesAgree host disk) (hnumbered : image.Numbered) :
    FilesAgree (host.erase image) (runScript disk [.rm image.path]) where
  files other hother hblank := by
    simp only [runScript, run_cons, run_nil, ShellCommand.exec]
    by_cases heq : other = image
    · simp [heq]
    · have hne : other.path ≠ image.path := fun hpath => heq ((path_inj hother hnumbered).mp hpath)
      simp [Function.update_of_ne hne, h.files other hother hblank, heq]
  dirs other hother := h.dirs other (Finset.mem_of_mem_erase hother)

end

end SsmIaas.VMManager

namespace SsmIaas.Images

open Lib LoadBalancer VMManager

/-! ## Requests -/

/-- What `command ()` is called with: the parsed message and the name of the OS. -/
def received (connection : Option Process) (message : Option Bytes) :
    Option (ClientInfo × Bytes) :=
  match connection with
  | none => none
  | some process =>
      match parse (process.buffer.read (message.getD [])) with
      | .error _ => none
      | .ok client => some (client, osName client.osType process.os)

theorem deliver_eq (host : Finset Address) (connection : Option Process)
    (message : Option Bytes) :
    deliver host connection message =
      (received connection message).elim host fun (client, os) => carryOut host client os := by
  cases connection with
  | none => rfl
  | some process =>
      simp only [deliver, received]
      cases parse (process.buffer.read (message.getD [])) <;> rfl

/-- The script that a message makes VMManager run; `android` is the table of the process
that accepts it. -/
def scriptOf (connection : Option Process) (android : Table) (message : Option Bytes) :
    List ShellCommand :=
  match received connection message with
  | none => []
  | some (client, os) => lineScript (commandLine client os (slotFor client android).1)

/-- What a message finds at VMManager is the call that it should be. -/
def PlainRequest (connection : Option Process) (android : Table) (message : Option Bytes) : Prop :=
  ∀ client os, received connection message = some (client, os) →
    PlainLine client os (slotFor client android).1

/-- A call of the script does to the files what `carryOut` does to the set. -/
theorem filesAgree_carryOut {host : Finset Address} {disk : HostDisk} (h : FilesAgree host disk)
    {client : ClientInfo} {os : Bytes} {slot : ℕ}
    (hplain : client.command = 1 → PlainName (client.address os).id) :
    FilesAgree (carryOut host client os)
      (runScript disk (commandScript client.command (client.address os) slot)) := by
  have hnumbered : (client.address os).Numbered := ⟨_, rfl⟩
  by_cases hzero : client.command = 0
  · have hone : ¬ client.command = 1 := by simp [hzero]
    have htwo : ¬ client.command = 2 := by simp [hzero]
    simp only [carryOut, commandScript, if_neg hone, if_neg htwo, if_pos hzero]
    split <;> exact h
  by_cases hone : client.command = 1
  · simp only [carryOut, commandScript, if_neg hzero, if_pos hone]
    split
    · exact h.createBlank hnumbered (hplain hone)
    · rename_i hblank
      refine h.createOther (hplain hone) hblank fun other hother hmade c hc hpath => ?_
      split at hc
      · rename_i hos
        obtain ⟨n, hn⟩ := hother
        obtain rfl := List.mem_singleton.mp hc
        -- both files that are touched have a name that begins with `android`
        have hname : other.path.name = imageName (utf8 "android") (decimal slot) ∨
            other.path.name =
              imageName (utf8 "android") (decimal client.index.toNat) := by
          rcases List.mem_pair.mp hpath with hpath | hpath
          · exact Or.inl (congrArg ImagePath.name hpath)
          · refine Or.inr ((congrArg ImagePath.name hpath).trans ?_)
            simp only [Address.path, hos]
            rfl
        simp only [Address.path, hn] at hname
        rcases hname with hname | hname <;>
          exact hmade.ne_android (imageName_inj.mp hname).1
      · simp at hc
  by_cases htwo : client.command = 2
  · simp only [carryOut, commandScript, if_neg hzero, if_neg hone, if_pos htwo]
    exact h.delete hnumbered
  · simp only [carryOut, commandScript, if_neg hzero, if_neg hone, if_neg htwo]
    exact h

theorem scriptOf_plain {connection : Option Process} {android : Table} {message : Option Bytes}
    (hplain : PlainRequest connection android message) {client : ClientInfo} {os : Bytes}
    (hreceived : received connection message = some (client, os)) :
    scriptOf connection android message =
      commandScript client.command (client.address os) (slotFor client android).1 := by
  rw [scriptOf, hreceived]
  exact lineScript_of_words (slotFor_lt client android) (hplain client os hreceived).words

theorem filesAgree_deliver {host : Finset Address} {disk : HostDisk} (h : FilesAgree host disk)
    {connection : Option Process} {android : Table} {message : Option Bytes}
    (hplain : PlainRequest connection android message) :
    FilesAgree (deliver host connection message)
      (runScript disk (scriptOf connection android message)) := by
  rw [deliver_eq]
  cases hreceived : received connection message with
  | none =>
      rw [scriptOf, hreceived]
      exact h
  | some pair =>
      obtain ⟨client, os⟩ := pair
      rw [scriptOf_plain hplain hreceived]
      exact filesAgree_carryOut h (hplain client os hreceived).plain

/-! ## Usable ids -/

/-- An id that names one directory, that the shell takes as it is, and that leaves room for
the rest of the line. -/
structure Usable (id : Bytes) : Prop where
  literal : Literal id
  plain : PlainName id
  short : id.length ≤ 68

theorem usable_alice : Usable (utf8 "alice") :=
  ⟨literal_of_plain (by decide +kernel) (by decide +kernel), by decide +kernel, by decide +kernel⟩

theorem Usable.plainLine {id : Bytes} (h : Usable id) {command : UInt8} (hcommand : command ≤ 3)
    {osType : ℕ} (hos : osType < 4) (index : UInt8) (connection : Option Connection)
    (uninitialised : Bytes) {slot : ℕ} (hslot : slot < 100) :
    PlainLine ⟨command, .ofNat osType, index, some id, connection⟩
      (osName (.ofNat osType) uninitialised) slot := by
  have hline := commandLine_eq ⟨command, .ofNat osType, index, some id, connection⟩ rfl
    (osName (.ofNat osType) uninitialised) slot
  refine ⟨?_, ?_, fun _ => h.plain⟩
  · have hname : (osName (.ofNat osType) uninitialised).length ≤ 8 := by
      rw [osName_of_lt hos]
      interval_cases osType <;> decide +kernel
    have hindex : (decimal index.toNat).length ≤ 3 :=
      length_decimal_le (by decide) (by have := index.toNat_lt; omega)
    have hnumber : (decimal slot).length ≤ 2 := length_decimal_le (by decide) (by omega)
    have hshort := h.short
    rw [hline, length_commandWords hcommand]
    dsimp only
    omega
  · rw [hline]
    exact (shellWords_commandWords_iff command id hos uninitialised index slot).mpr h.literal

theorem Usable.plainRequest {id : Bytes} (h : Usable id) {connection : Option Process}
    {message : Option Bytes} {command : UInt8} (hcommand : command ≤ 3) {osType : ℕ}
    (hos : osType < 4) {index : UInt8}
    (hreceived : received connection message =
      some (⟨command, .ofNat osType, index, some id, none⟩, osName (.ofNat osType) []))
    (android : Table) : PlainRequest connection android message := by
  intro client os hclient
  obtain ⟨rfl, rfl⟩ := Prod.mk.inj (Option.some.inj (hreceived.symm.trans hclient))
  exact h.plainLine hcommand hos index none [] (slotFor_lt _ _)

/-! ## Histories -/

variable {Value : Type*} (ops : ValueOps Value)

/-- The documents and the set of addresses, with the files on the host. -/
structure HostState (Value : Type*) where
  state : State Value
  disk : HostDisk

/-- A request, and the table of the process of VMManager that gets its message. -/
structure HostRequest (Value : Type*) where
  request : OsRequest Value
  android : Table

def OsRequest.connection : OsRequest Value → Option Process
  | .requestCreateOS _ _ connection => connection
  | .requestDeleteOS _ _ _ connection => connection

/-- The message of a request. -/
def OsRequest.message (s : State Value) : OsRequest Value → Option Bytes
  | .requestCreateOS email imageVersion _ => createMessage ops imageVersion s.nextIndex email
  | .requestDeleteOS email index imageVersion _ => deleteMessage ops imageVersion index email

def HostRequest.script (s : State Value) (e : HostRequest Value) : List ShellCommand :=
  scriptOf e.request.connection e.android (e.request.message ops s)

def hostStep (s : HostState Value) (e : HostRequest Value) : HostState Value :=
  ⟨step ops s.state e.request, runScript s.disk (e.script ops s.state)⟩

def installedHost : HostState Value := ⟨start, installed 100⟩

/-- The line of a request, if there is one, is what it should be. -/
def HostRequest.Plain (s : HostState Value) (e : HostRequest Value) : Prop :=
  PlainRequest e.request.connection e.android (e.request.message ops s.state)

theorem host_step (s : State Value) (request : OsRequest Value) :
    (step ops s request).host =
      deliver s.host request.connection (request.message ops s) := by
  cases request <;> rfl

theorem filesAgree_step {s : HostState Value} (h : FilesAgree s.state.host s.disk)
    {e : HostRequest Value} (hplain : e.Plain ops s) :
    FilesAgree (hostStep ops s e).state.host (hostStep ops s e).disk := by
  have hdeliver := filesAgree_deliver h hplain
  rwa [← host_step] at hdeliver

theorem received_of_parse {process : Process} {sent : Bytes} {client : ClientInfo}
    (h : parse (process.buffer.read sent) = .ok client) :
    received (some process) (some sent) = some (client, osName client.osType process.os) := by
  simp [received, h]

def OsRequest.email : OsRequest Value → JsText
  | .requestCreateOS email _ _ => email
  | .requestDeleteOS email _ _ _ => email

/-- A request that changes both sides of an image, of a member with a usable id. -/
structure HostRequest.Good (s : HostState Value) (e : HostRequest Value) : Prop where
  matched : Matched ops s.state e.request
  usable : ∀ id, e.request.email = some id → Usable id

variable {ops}

/-- The create that VMManager gets. -/
theorem CreateMatched.received {s : State Value} {email : JsText} {imageVersion : Value}
    {connection : Option Process} (hm : CreateMatched ops s email imageVersion connection) :
    ∃ word osType, email = some word ∧ ops.osType imageVersion = some osType ∧ osType < 4 ∧
      received connection (createMessage ops imageVersion s.nextIndex email) =
        some (⟨1, .ofNat osType, clientIndex s.nextIndex, some word, none⟩,
          osName (.ofNat osType) []) := by
  obtain ⟨process, rfl⟩ := Option.isSome_iff_exists.mp hm.connected
  obtain ⟨word, hword, htoken⟩ := hm.readable.email
  obtain ⟨osType, hos⟩ := Option.isSome_iff_exists.mp hm.readable.osType
  obtain rfl : email = some word := hword
  obtain ⟨sent, hsent⟩ := createMessage_isSome hos s.nextIndex word
  have hlt : osType < 4 := ops.osType_lt hos
  have hparse := parse_fields process.buffer
    ⟨decimal s.nextIndex, (numeral_decimal _).token⟩ ⟨word, htoken⟩ (Or.inl rfl) hlt
    (hm.readable.length sent hsent) (by simpa [createMessage, getSocketCreate, hos] using hsent)
  refine ⟨word, osType, rfl, hos, hlt, ?_⟩
  rw [hsent, received_of_parse hparse, osName_of_lt hlt]
  rfl

/-- The delete that VMManager gets, for the address of the document. -/
theorem DeleteMatched.received {s : State Value} (h : StoresInv ops s) {email index : JsText}
    {imageVersion : Value} {connection : Option Process} {record : ImageRecord Value}
    (hm : DeleteMatched ops s email index imageVersion connection record) :
    ∃ word osType, email = some word ∧ osType < 4 ∧
      recordAddress ops record = some (imageAddress word osType (clientIndex record.index)) ∧
      received connection (deleteMessage ops imageVersion index email) =
        some (⟨2, .ofNat osType, clientIndex record.index, some word, none⟩,
          osName (.ofNat osType) []) := by
  obtain ⟨process, rfl⟩ := Option.isSome_iff_exists.mp hm.connected
  obtain ⟨text, rfl, htext, hnumber⟩ := hm.number
  obtain ⟨word, hword, htoken⟩ := h.words record hm.mem
  obtain ⟨osType, hos⟩ := Option.isSome_iff_exists.mp (h.osType_isSome hm.mem)
  obtain rfl : email = some word := hm.email_eq.symm.trans hword
  have hos' := hm.osType.trans hos
  obtain ⟨sent, hsent⟩ := deleteMessage_isSome hos' text word
  have hlt : osType < 4 := ops.osType_lt hos
  have hparse := parse_fields process.buffer ⟨text, htext⟩ ⟨word, htoken⟩ (Or.inr rfl) hlt
    (hm.length sent hsent) (by simpa [deleteMessage, getSocketDelete, hos'] using hsent)
  refine ⟨word, osType, rfl, hlt, recordAddress_eq ops hword hos, ?_⟩
  rw [hsent, received_of_parse hparse, osName_of_lt hlt, hnumber]
  rfl

theorem HostRequest.Good.plain {s : HostState Value} (h : StoresInv ops s.state)
    {e : HostRequest Value} (hgood : e.Good ops s) : e.Plain ops s := by
  obtain ⟨request, android⟩ := e
  obtain ⟨hmatched, husable⟩ := hgood
  cases request with
  | requestCreateOS email imageVersion connection =>
      obtain ⟨word, osType, rfl, -, hlt, hreceived⟩ := hmatched.received
      exact (husable word rfl).plainRequest (by decide) hlt hreceived android
  | requestDeleteOS email index imageVersion connection =>
      rcases hmatched with ⟨record, hm⟩ | ⟨rfl, -⟩
      · obtain ⟨word, osType, rfl, hlt, -, hreceived⟩ := hm.received h
        exact (husable word rfl).plainRequest (by decide) hlt hreceived android
      · intro client os hreceived
        simp [OsRequest.connection, Images.received] at hreceived

variable (ops) in
/-- The documents correspond to the addresses on the host, and these to the files. -/
structure HostInv (s : HostState Value) : Prop where
  stores : StoresInv ops s.state
  files : FilesAgree s.state.host s.disk
  usable : ∀ record ∈ s.state.images, ∀ id, record.email = some id → Usable id

theorem hostInv_step {s : HostState Value} (h : HostInv ops s) {e : HostRequest Value}
    (hgood : e.Good ops s) : HostInv ops (hostStep ops s e) where
  stores := storesInv_step h.stores hgood.matched
  files := filesAgree_step ops h.files (hgood.plain h.stores)
  usable := by
    obtain ⟨request, android⟩ := e
    cases request with
    | requestCreateOS email imageVersion connection =>
        intro record hrecord
        rcases List.mem_append.mp hrecord with hold | hlast
        · exact h.usable record hold
        · rw [List.mem_singleton.mp hlast]
          exact hgood.usable
    | requestDeleteOS email index imageVersion connection =>
        exact fun record hrecord => h.usable record (List.filter_sublist.subset hrecord)

/-- The command of a start and of an install. -/
def portCommand : ListName → ℕ
  | .sessionList1 => 0
  | .sessionList2 => 3

/-- The script that a start or an install makes VMManager run. -/
theorem scriptOf_vmMessage {call : Call} (id ip : Word) {osType index port : ℕ} {sent : Bytes}
    (husable : Usable id.text) (hid : call.email.map utf8 = some id.text)
    (hindex : call.index = some (decimal index)) (hversion : call.imageVersion = some osType)
    (hos : osType < 4) (hip : call.ip = some ip.text) (hsent : call.vmMessage port = some sent)
    (hlength : sent.length ≤ 500) (process : Process) (android : Table) :
    scriptOf (some process) android (some sent) =
      commandScript (.ofNat (portCommand call.target))
        (imageAddress id.text osType (clientIndex index)) 0 := by
  let word (n : ℕ) : Word := ⟨decimal n, (numeral_decimal n).token⟩
  have hword : ∀ n < 4, UInt8.ofInt (atoi (decimal n)) = UInt8.ofNat n := fun n hn =>
    (Number.ofNat n (by omega)).uint8
  obtain ⟨connectType, hfields⟩ : ∃ connectType,
      message [some (word (portCommand call.target)).text, some (word osType).text,
        some (word index).text, some id.text, some ip.text, some (word connectType).text,
        some (word port).text, some (word port).text, some (word port).text] = some sent := by
    simp only [Call.vmMessage, hid, hindex, hversion, hip] at hsent
    cases htarget : call.target with
    | sessionList1 =>
        rw [htarget] at hsent
        exact ⟨1, hsent⟩
    | sessionList2 =>
        rw [htarget] at hsent
        exact ⟨0, hsent⟩
  have hcommand : portCommand call.target = 0 ∨ portCommand call.target = 3 := by
    cases call.target with
    | sessionList1 => exact Or.inl rfl
    | sessionList2 => exact Or.inr rfl
  have hlong : UInt8.ofNat (portCommand call.target) = 0 ∨
      UInt8.ofNat (portCommand call.target) = 3 := by
    rcases hcommand with h | h <;> simp [h]
  have hparse := parse_long (word (portCommand call.target)) (word osType) (word index) id ip
    (word connectType) (word port) (word port) (word port) process.buffer hlength hfields
    (by rw [hword _ (by omega)]; exact hlong)
  simp only [word, hword _ hos, hword (portCommand call.target) (by omega)] at hparse
  have hsmall : UInt8.ofNat (portCommand call.target) ≤ 3 := by
    rcases hlong with h | h <;> rw [h] <;> decide
  have hslot : ∀ client : ClientInfo, client.command = UInt8.ofNat (portCommand call.target) →
      (slotFor client android).1 = 0 := by
    intro client heq
    rcases hlong with h | h <;> simp [slotFor, heq, h]
  rw [scriptOf, received_of_parse hparse]
  dsimp only
  rw [hslot _ rfl, lineScript_of_words (by decide)
    (husable.plainLine hsmall hos _ _ process.os (by decide)).words, ClientInfo.address,
    osName_of_lt hos]
  rfl

variable (ops)

/-- The request is for this document: its member selects it by its `Index` and its
`ImageVersion`. -/
structure Selects (call : Call) (record : ImageRecord Value) : Prop where
  email : call.email.map utf8 = record.email
  index : call.index = some (decimal record.index)
  imageVersion : call.imageVersion = ops.osType record.image
  ip : ∃ ip, call.ip = some ip ∧ Token ip

/-- A start or an install of a document that has a file of its own: QEMU runs on this file,
whichever process of VMManager gets the message, and no other document has the same file. -/
structure StartsOwnFiles (s : HostState Value) : Prop where
  starts : ∀ record ∈ s.state.images, ∀ image, recordAddress ops record = some image →
    image.MadeBlank → ∀ call, Selects ops call record → ∀ port sent,
      call.vmMessage port = some sent → sent.length ≤ 500 → ∀ process android,
        drives s.disk (scriptOf (some process) android (some sent)) = [image.path] ∧
          s.disk.files image.path = some .blank
  apart : ∀ record ∈ s.state.images, ∀ image, recordAddress ops record = some image →
    ∀ record' ∈ s.state.images, ∀ image', recordAddress ops record' = some image' →
      image.path = image'.path → record = record'

variable {ops}

theorem numbered_of_recordAddress {record : ImageRecord Value} {image : Address}
    (h : recordAddress ops record = some image) : image.Numbered := by
  obtain ⟨email, -, hmap⟩ := Option.bind_eq_some_iff.mp h
  obtain ⟨osType, -, rfl⟩ := Option.map_eq_some_iff.mp hmap
  exact ⟨_, rfl⟩

/-- Documents with the same file are the same. -/
theorem StoresAgree.eq_of_path {s : State Value} (h : StoresAgree ops s)
    {record other : ImageRecord Value} (hrecord : record ∈ s.images) (hother : other ∈ s.images)
    {image image' : Address} (haddress : recordAddress ops record = some image)
    (haddress' : recordAddress ops other = some image') (hpath : image.path = image'.path) :
    record = other := by
  have himage : image = image' := (path_inj (numbered_of_recordAddress haddress)
    (numbered_of_recordAddress haddress')).mp hpath
  exact List.inj_on_of_nodup_map h.distinct hrecord hother (by rw [haddress, haddress', himage])

/-- A start or install of a blank image has one drive. -/
theorem drives_commandScript {disk : HostDisk} {image : Address} (hdir : image.id ∈ disk.dirs)
    (hblank : image.MadeBlank) (target : ListName) (slot : ℕ) :
    drives disk (commandScript (.ofNat (portCommand target)) image slot) = [image.path] := by
  have hscript : commandScript (.ofNat (portCommand target)) image slot =
      [.qemu image.id image.path.name] := by
    cases target with
    | sessionList1 =>
        rcases hblank with h | h <;> simp [portCommand, commandScript, h]
    | sessionList2 => rfl
  simp only [hscript, drives, List.filterMap_cons, List.filterMap_nil, if_pos hdir]
  rfl

theorem HostInv.startsOwnFiles {s : HostState Value} (h : HostInv ops s) :
    StartsOwnFiles ops s where
  starts record hrecord image haddress hblank call hselects port sent hsent hlength process
      android := by
    have hhost : image ∈ s.state.host := (h.stores.agree.host image).mpr ⟨record, hrecord, haddress⟩
    obtain ⟨ip, hip, hiptoken⟩ := hselects.ip
    obtain ⟨id, hid, htoken⟩ := h.stores.words record hrecord
    obtain ⟨osType, hos⟩ := Option.isSome_iff_exists.mp (h.stores.osType_isSome hrecord)
    obtain rfl : imageAddress id osType (clientIndex record.index) = image :=
      Option.some.inj ((recordAddress_eq ops hid hos).symm.trans haddress)
    have hscript := scriptOf_vmMessage ⟨id, htoken⟩ ⟨ip, hiptoken⟩
      (h.usable record hrecord id hid) (hselects.email.trans hid) hselects.index
      (hselects.imageVersion.trans hos) (ops.osType_lt hos) hip hsent hlength process android
    rw [hscript, drives_commandScript (h.files.dirs _ hhost) hblank,
      h.files.files _ (numbered_of_recordAddress haddress) hblank, if_pos hhost]
    exact ⟨rfl, rfl⟩
  apart record hrecord image haddress record' hrecord' image' haddress' hpath :=
    h.stores.agree.eq_of_path hrecord hrecord' haddress haddress' hpath

variable (ops)

end SsmIaas.Images
