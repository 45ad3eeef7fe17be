import SsmIaas.Lib.Path
import SsmIaas.Lib.Run
import SsmIaas.VMManager.Command
import Mathlib.Data.Finset.Basic

/-!
# `command.sh`

What the script that VMManager runs does to the files on the host.  A disk image is
`./<id>/<os>_<index>.img`.  It is made by `qemu-img`, or, for android, by moving one of the
prepared images of `./baseImage` there; a delete removes the file.

VMManager forks for every request and waits for its script in one of the two processes, so
scripts run at the same time.  `scripts_do_not_interfere`: requests for different images,
with different base images, do not get in each other's way, in any interleaving of their
commands.

A base image that has been moved never comes back, but the slot of a deleted image counts as
free again, and the next create is given it.  `android_creates_iff`: all android creates of a
history find their base images exactly if each finds a free slot and comes before any slot is
given back.
-/

namespace SsmIaas.VMManager

open Lib

/-- A file in one of the directories below VMManager's own. -/
structure ImagePath where
  dir : Bytes
  name : Bytes
  deriving DecidableEq, Repr

/-- What a disk image was made from. -/
inductive Content
  /-- the base image with this number -/
  | base (number : ℕ)
  /-- `qemu-img create` -/
  | blank
  deriving DecidableEq, Repr

/-- The plain files in VMManager's own directory. -/
def ownFiles : List Bytes :=
  ["command.sh", ".vm_manager.c.swp", "Readme.txt", "create.sh", "ex.sh", "server_for_web.c",
    "server_for_web.h", "start.sh", "vm", "vm_manager.c"].map utf8

/-- The name of one directory below VMManager's own; a plain file does not become one. -/
def PlainName (name : Bytes) : Prop :=
  name ≠ [] ∧ slash ∉ name ∧ Ordinary name ∧ name ∉ ownFiles

instance (name : Bytes) : Decidable (PlainName name) :=
  inferInstanceAs
    (Decidable (name ≠ [] ∧ slash ∉ name ∧ (name ≠ [dot] ∧ name ≠ [dot, dot]) ∧ name ∉ ownFiles))

/-- The directories and images on the host. -/
structure HostDisk where
  dirs : Finset Bytes
  files : ImagePath → Option Content

/-- The commands of the script.  Those that only print are left out. -/
inductive ShellCommand
  | mkdir (dir : Bytes)
  | qemuImgCreate (path : ImagePath)
  | mv (source target : ImagePath)
  | rm (path : ImagePath)
  /-- `cd` and then `qemu` with this image as its drive -/
  | qemu (dir drive : Bytes)
  deriving DecidableEq, Repr

def underscore : UInt8 := 95

/-- `"$OS"_"$INDEX".img` -/
def imageName (os index : Bytes) : Bytes := os ++ underscore :: index ++ ascii ".img"

/-- `./"$ID"/"$OS"_"$INDEX".img` -/
def Address.path (image : Address) : ImagePath := ⟨image.id, imageName image.os image.index⟩

/-- `baseImage` -/
def baseImage : Bytes := utf8 "baseImage"

/-- `./baseImage/"$OS"_"$ANDROID".img`, for `android` -/
def basePath (slot : ℕ) : ImagePath := ⟨baseImage, imageName (utf8 "android") (decimal slot)⟩

/-- The commands that `command.sh` runs for its arguments.  A `tizen` start runs an emulator
without a drive, and its create makes the directory only. -/
def commandScript (command : UInt8) (image : Address) (android : ℕ) : List ShellCommand :=
  if command = 0 then
    if image.os = utf8 "windows7" ∨ image.os = utf8 "ubuntu" ∨ image.os = utf8 "android" then
      [.qemu image.id image.path.name]
    else []
  else if command = 1 then
    .mkdir image.id ::
      if image.os = utf8 "windows7" ∨ image.os = utf8 "ubuntu" then [.qemuImgCreate image.path]
      else if image.os = utf8 "android" then [.mv (basePath android) image.path]
      else []
  else if command = 2 then [.rm image.path]
  else [.qemu image.id image.path.name]

/-- What a command does.  A file can only be made in a directory that exists; a command that
fails changes nothing, and the script goes on.  (Paths with more than one directory are not
followed: the results below are about ids that are plain names.) -/
def ShellCommand.exec (disk : HostDisk) : ShellCommand → HostDisk
  | .mkdir dir => if PlainName dir then { disk with dirs := insert dir disk.dirs } else disk
  | .qemuImgCreate path =>
      if path.dir ∈ disk.dirs then
        { disk with files := Function.update disk.files path (some .blank) }
      else disk
  | .mv source target =>
      match disk.files source with
      | none => disk
      | some content =>
          if target.dir ∈ disk.dirs then
            { disk with
              files := Function.update (Function.update disk.files source none) target
                (some content) }
          else disk
  | .rm path => { disk with files := Function.update disk.files path none }
  | .qemu _ _ => disk

/-- A script that runs alone. -/
def runScript (disk : HostDisk) (script : List ShellCommand) : HostDisk :=
  run ShellCommand.exec disk script

/-- The host as it is set up: `count` base images. -/
def installed (count : ℕ) : HostDisk where
  dirs := {baseImage}
  files path :=
    ((List.range count).find? fun slot => basePath slot = path).map Content.base

/-! ## Names of images -/

theorem underscore_notMem_decimal (n : ℕ) : underscore ∉ decimal n := by
  intro hmem
  have hdigit := (numeral_decimal n).digits _ hmem
  exact absurd hdigit (by decide)

/-- The number in the name of an image is what follows the last underscore. -/
theorem imageName_inj {os os' : Bytes} {m n : ℕ} :
    imageName os (decimal m) = imageName os' (decimal n) ↔ os = os' ∧ m = n := by
  refine ⟨?_, by rintro ⟨rfl, rfl⟩; rfl⟩
  intro h
  have hfront : os ++ underscore :: decimal m = os' ++ underscore :: decimal n :=
    List.append_cancel_right h
  -- if one name of the system were longer, its rest would put an underscore into a number
  have hlonger : ∀ {c : Bytes} {m n : ℕ},
      underscore :: decimal m = c ++ underscore :: decimal n → c = [] ∧ m = n := by
    intro c m n hc
    cases c with
    | nil => exact ⟨rfl, decimal_injective (List.cons.inj hc).2⟩
    | cons b rest =>
        refine absurd ?_ (underscore_notMem_decimal m)
        rw [(List.cons.inj hc).2]
        simp
  rcases List.append_eq_append_iff.mp hfront with ⟨c, hos, hc⟩ | ⟨c, hos, hc⟩
  · obtain ⟨rfl, rfl⟩ := hlonger hc
    exact ⟨by simpa using hos.symm, rfl⟩
  · obtain ⟨rfl, rfl⟩ := hlonger hc
    exact ⟨by simpa using hos, rfl⟩

/-- The image has a number, as those of `command ()` do. -/
def Address.Numbered (image : Address) : Prop := ∃ n, image.index = decimal n

theorem path_inj {image other : Address} (h : image.Numbered) (h' : other.Numbered) :
    image.path = other.path ↔ image = other := by
  obtain ⟨m, hm⟩ := h
  obtain ⟨n, hn⟩ := h'
  refine ⟨?_, congrArg Address.path⟩
  intro hpath
  have hname := congrArg ImagePath.name hpath
  simp only [Address.path, hm, hn] at hname
  obtain ⟨hos, hmn⟩ := imageName_inj.mp hname
  cases image
  cases other
  simp_all [Address.path]

theorem basePath_inj {slot slot' : ℕ} : basePath slot = basePath slot' ↔ slot = slot' := by
  simp [basePath, imageName_inj]

/-! ## What a command touches -/

/-- The files that a command looks at or changes. -/
def ShellCommand.paths : ShellCommand → List ImagePath
  | .mkdir _ => []
  | .qemuImgCreate path => [path]
  | .mv source target => [source, target]
  | .rm path => [path]
  | .qemu _ _ => []

/-- The directory in which the command makes a file exists. -/
def ShellCommand.Ready (disk : HostDisk) : ShellCommand → Prop
  | .qemuImgCreate path => path.dir ∈ disk.dirs
  | .mv _ target => target.dir ∈ disk.dirs
  | _ => True

theorem exec_files_of_notMem (disk : HostDisk) {c : ShellCommand} {path : ImagePath}
    (h : path ∉ c.paths) : (c.exec disk).files path = disk.files path := by
  cases c with
  | mkdir dir =>
      simp only [ShellCommand.exec]
      split <;> rfl
  | qemuImgCreate target =>
      have hne : path ≠ target := by simpa [ShellCommand.paths] using h
      simp only [ShellCommand.exec]
      split
      · exact Function.update_of_ne hne ..
      · rfl
  | mv source target =>
      have hne : path ≠ source ∧ path ≠ target := by simpa [ShellCommand.paths] using h
      simp only [ShellCommand.exec]
      split
      · rfl
      · split
        · exact (Function.update_of_ne hne.2 ..).trans (Function.update_of_ne hne.1 ..)
        · rfl
  | rm target =>
      have hne : path ≠ target := by simpa [ShellCommand.paths] using h
      exact Function.update_of_ne hne ..
  | qemu dir drive => rfl

theorem files_runScript_of_notMem (disk : HostDisk) {script : List ShellCommand}
    {path : ImagePath} (h : ∀ c ∈ script, path ∉ c.paths) :
    (runScript disk script).files path = disk.files path := by
  induction script generalizing disk with
  | nil => rfl
  | cons c rest ih =>
      obtain ⟨hc, hrest⟩ := List.forall_mem_cons.mp h
      rw [runScript, run_cons]
      exact (ih _ hrest).trans (exec_files_of_notMem disk hc)

theorem dirs_subset_exec (disk : HostDisk) (c : ShellCommand) : disk.dirs ⊆ (c.exec disk).dirs := by
  cases c with
  | mkdir dir =>
      simp only [ShellCommand.exec]
      split
      · exact Finset.subset_insert ..
      · exact Finset.Subset.refl _
  | qemuImgCreate path =>
      simp only [ShellCommand.exec]
      split <;> exact Finset.Subset.refl _
  | mv source target =>
      simp only [ShellCommand.exec]
      split
      · exact Finset.Subset.refl _
      · split <;> exact Finset.Subset.refl _
  | rm path => exact Finset.Subset.refl _
  | qemu dir drive => exact Finset.Subset.refl _

theorem mem_dirs_mkdir {dir : Bytes} (h : PlainName dir) (disk : HostDisk) :
    dir ∈ (ShellCommand.exec disk (.mkdir dir)).dirs := by
  simp only [ShellCommand.exec, if_pos h]
  exact Finset.mem_insert_self ..

/-- The disk shows the owner of some files what the owner would have made alone. -/
structure Covers (owned : ImagePath → Prop) (disk own : HostDisk) : Prop where
  files : ∀ path, owned path → disk.files path = own.files path
  dirs : own.dirs ⊆ disk.dirs

theorem Covers.other {owned : ImagePath → Prop} {disk own : HostDisk} (h : Covers owned disk own)
    {c : ShellCommand} (hc : ∀ path ∈ c.paths, ¬ owned path) : Covers owned (c.exec disk) own where
  files path howned := by
    rw [exec_files_of_notMem disk fun hmem => hc path hmem howned, h.files path howned]
  dirs := h.dirs.trans (dirs_subset_exec disk c)

theorem Covers.exec {owned : ImagePath → Prop} {disk own : HostDisk} (h : Covers owned disk own)
    {c : ShellCommand} (hc : ∀ path ∈ c.paths, owned path) (hready : c.Ready own) :
    Covers owned (c.exec disk) (c.exec own) := by
  cases c with
  | mkdir dir =>
      simp only [ShellCommand.exec]
      split
      · exact ⟨h.files, Finset.insert_subset_insert _ h.dirs⟩
      · exact h
  | qemuImgCreate target =>
      have hdir : target.dir ∈ own.dirs := hready
      simp only [ShellCommand.exec, if_pos hdir, if_pos (h.dirs hdir)]
      refine ⟨fun path howned => ?_, h.dirs⟩
      by_cases hpath : path = target <;> simp [hpath, h.files path howned]
  | mv source target =>
      have hdir : target.dir ∈ own.dirs := hready
      have hsource := h.files source (hc source (by simp [ShellCommand.paths]))
      simp only [ShellCommand.exec, hsource, if_pos hdir, if_pos (h.dirs hdir)]
      split
      · exact h
      · refine ⟨fun path howned => ?_, h.dirs⟩
        by_cases htarget : path = target
        · simp [htarget]
        · dsimp only
          rw [Function.update_of_ne htarget, Function.update_of_ne htarget]
          by_cases hpath : path = source <;> simp [hpath, h.files path howned]
  | rm target =>
      refine ⟨fun path howned => ?_, h.dirs⟩
      by_cases hpath : path = target <;> simp [ShellCommand.exec, hpath, h.files path howned]
  | qemu dir drive => exact h

/-! ## Scripts that run at the same time -/

/-- A create or delete that is handed to the script. -/
structure ImageOrder where
  create : Bool
  image : Address
  /-- the last argument: the number of a base image -/
  slot : ℕ
  deriving DecidableEq, Repr

def ImageOrder.script (order : ImageOrder) : List ShellCommand :=
  commandScript (if order.create then 1 else 2) order.image order.slot

/-- The order moves a base image. -/
def ImageOrder.MovesBase (order : ImageOrder) : Prop :=
  order.create = true ∧ order.image.os = utf8 "android"

instance (order : ImageOrder) : Decidable order.MovesBase := inferInstanceAs (Decidable (_ ∧ _))

/-- The files of an order: its image, and the base image it is made of. -/
def ImageOrder.Owns (order : ImageOrder) (path : ImagePath) : Prop :=
  path = order.image.path ∨ order.MovesBase ∧ path = basePath order.slot

theorem ImageOrder.owns_paths (order : ImageOrder) {c : ShellCommand} (hc : c ∈ order.script)
    {path : ImagePath} (hpath : path ∈ c.paths) : order.Owns path := by
  obtain ⟨create, image, slot⟩ := order
  cases create with
  | false =>
      obtain rfl : c = .rm image.path := by simpa [ImageOrder.script, commandScript] using hc
      exact Or.inl (by simpa [ShellCommand.paths] using hpath)
  | true =>
      simp only [ImageOrder.script, commandScript, if_true] at hc
      have hone : ¬ ((1 : UInt8) = 0) := by decide
      rw [if_neg hone] at hc
      rcases List.mem_cons.mp hc with rfl | hc
      · simp [ShellCommand.paths] at hpath
      · split at hc
        · obtain rfl := List.mem_singleton.mp hc
          exact Or.inl (by simpa [ShellCommand.paths] using hpath)
        · split at hc
          · rename_i hos
            obtain rfl := List.mem_singleton.mp hc
            rcases List.mem_pair.mp hpath with rfl | rfl
            · exact Or.inr ⟨⟨rfl, hos⟩, rfl⟩
            · exact Or.inl rfl
          · simp at hc

/-- The directory is made before a file is put into it. -/
theorem ImageOrder.ready {order : ImageOrder} (hplain : PlainName order.image.id)
    (disk : HostDisk) : Along ShellCommand.exec ShellCommand.Ready disk order.script := by
  obtain ⟨create, image, slot⟩ := order
  cases create with
  | false => exact ⟨trivial, trivial⟩
  | true =>
      have hone : ¬ ((1 : UInt8) = 0) := by decide
      have hmade : image.id ∈ (ShellCommand.exec disk (.mkdir image.id)).dirs :=
        mem_dirs_mkdir hplain disk
      simp only [ImageOrder.script, commandScript, if_true, if_neg hone]
      refine ⟨trivial, ?_⟩
      split
      · exact ⟨hmade, trivial⟩
      · split
        · exact ⟨hmade, trivial⟩
        · trivial

/-- The commands of several scripts in some order, each with the number of its script: every
script is run from its beginning to its end. -/
def Interleaves (orders : List ImageOrder) (events : List (ℕ × ShellCommand)) : Prop :=
  ∀ i, (events.filter fun e => e.1 == i).map Prod.snd = (orders[i]?.map ImageOrder.script).getD []

/-- One command of one of the scripts. -/
def crossStep (disk : HostDisk) (e : ℕ × ShellCommand) : HostDisk := e.2.exec disk

/-- Orders for different images that are made of different base images, none of them for the
directory of the base images. -/
structure Separate (orders : List ImageOrder) : Prop where
  numbered : ∀ order ∈ orders, order.image.Numbered
  plain : ∀ order ∈ orders, PlainName order.image.id
  outside : ∀ order ∈ orders, order.image.id ≠ baseImage
  apart : orders.Pairwise fun a b =>
    a.image ≠ b.image ∧ (a.MovesBase → b.MovesBase → a.slot ≠ b.slot)

theorem Separate.apart_getElem {orders : List ImageOrder} (h : Separate orders) {i j : ℕ}
    (hij : i ≠ j) {a b : ImageOrder} (ha : orders[i]? = some a) (hb : orders[j]? = some b) :
    a.image ≠ b.image ∧ (a.MovesBase → b.MovesBase → a.slot ≠ b.slot) := by
  obtain ⟨hi, rfl⟩ := List.getElem?_eq_some_iff.mp ha
  obtain ⟨hj, rfl⟩ := List.getElem?_eq_some_iff.mp hb
  have hpairs := List.pairwise_iff_getElem.mp h.apart
  rcases Nat.lt_or_gt_of_ne hij with hlt | hgt
  · exact hpairs i j hi hj hlt
  · obtain ⟨himage, hslot⟩ := hpairs j i hj hi hgt
    exact ⟨himage.symm, fun hbase hbase' => (hslot hbase' hbase).symm⟩

/-- No file belongs to two orders. -/
theorem Separate.not_owns {orders : List ImageOrder} (h : Separate orders) {i j : ℕ}
    (hij : i ≠ j) {a b : ImageOrder} (ha : orders[i]? = some a) (hb : orders[j]? = some b)
    {path : ImagePath} (howns : a.Owns path) : ¬ b.Owns path := by
  obtain ⟨himage, hslot⟩ := h.apart_getElem hij ha hb
  have hina := List.mem_of_getElem? ha
  have hinb := List.mem_of_getElem? hb
  rintro (rfl | ⟨hbase', rfl⟩)
  · rcases howns with hpath | ⟨-, hpath⟩
    · exact himage ((path_inj (h.numbered b hinb) (h.numbered a hina)).mp hpath).symm
    · exact h.outside b hinb (congrArg ImagePath.dir hpath)
  · rcases howns with hpath | ⟨hbase, hpath⟩
    · exact h.outside a hina (congrArg ImagePath.dir hpath).symm
    · exact hslot hbase hbase' (basePath_inj.mp hpath).symm

theorem Interleaves.mem_script {orders : List ImageOrder} {events : List (ℕ × ShellCommand)}
    (h : Interleaves orders events) {e : ℕ × ShellCommand} (he : e ∈ events) :
    ∃ order, orders[e.1]? = some order ∧ e.2 ∈ order.script := by
  have hmem : e.2 ∈ (events.filter fun e' => e'.1 == e.1).map Prod.snd :=
    List.mem_map_of_mem (List.mem_filter.mpr ⟨he, by simp⟩)
  rw [h e.1] at hmem
  cases horder : orders[e.1]? with
  | none => simp [horder] at hmem
  | some order => exact ⟨order, rfl, by simpa [horder] using hmem⟩

/-- **Scripts at the same time.**  However the commands of scripts for different images, with
different base images, are interleaved, every script leaves its image and its base image as it
would have alone. -/
theorem scripts_do_not_interfere {orders : List ImageOrder} (h : Separate orders)
    {events : List (ℕ × ShellCommand)} (hevents : Interleaves orders events) (disk : HostDisk)
    {order : ImageOrder} (horder : order ∈ orders) {path : ImagePath} (hpath : order.Owns path) :
    (run crossStep disk events).files path =
      (runScript disk order.script).files path := by
  obtain ⟨i, hi⟩ := List.mem_iff_getElem?.mp horder
  have hscript : (events.filter fun e => e.1 == i).map Prod.snd = order.script := by
    rw [hevents i, hi, Option.map_some, Option.getD_some]
  have hready : Along crossStep (fun disk e => e.2.Ready disk) disk
      (events.filter fun e => e.1 == i) := by
    have hscriptReady := ImageOrder.ready (h.plain order horder) disk
    rwa [← hscript, along_map] at hscriptReady
  have hcovers : Covers order.Owns (run crossStep disk events)
      (run crossStep disk (events.filter fun e => e.1 == i)) := by
    refine run_filter_related ?_ ?_ ⟨fun _ _ => rfl, Finset.Subset.refl _⟩ hready
    · intro e he hother s t hst
      obtain ⟨other, hother', hmem⟩ := hevents.mem_script he
      exact hst.other fun path hpath =>
        h.not_owns (by simpa using hother) hother' hi (other.owns_paths hmem hpath)
    · intro e he hmine s t hst hC
      obtain ⟨own, hown, hmem⟩ := hevents.mem_script he
      rw [beq_iff_eq.mp hmine, hi] at hown
      obtain rfl := Option.some.inj hown
      exact hst.exec (fun path hpath => order.owns_paths hmem hpath) hC
  have halone : run crossStep disk (events.filter fun e => e.1 == i) =
      runScript disk order.script := by
    rw [runScript, ← hscript, run_map]
    rfl
  rw [hcovers.files path hpath, halone]

/-- Two creates of one member, for an ubuntu and an android image: both make the directory,
and then the commands cross. -/
theorem two_creates_cross :
    let alice : Bytes := utf8 "alice"
    let ubuntu : ImageOrder := ⟨true, ⟨alice, utf8 "ubuntu", decimal 1⟩, 0⟩
    let android : ImageOrder := ⟨true, ⟨alice, utf8 "android", decimal 2⟩, 0⟩
    (run crossStep (installed 100)
      [(0, .mkdir alice), (1, .mkdir alice), (1, .mv (basePath 0) android.image.path),
        (0, .qemuImgCreate ubuntu.image.path)]).files android.image.path = some (.base 0) := by
  intro alice ubuntu android
  have hseparate : Separate [ubuntu, android] := by
    refine ⟨?_, ?_, ?_, ?_⟩
    · simp [ubuntu, android, Address.Numbered]
    · simp only [ubuntu, android, List.forall_mem_cons]
      decide +kernel
    · simp only [ubuntu, android, List.forall_mem_cons]
      decide +kernel
    · simp only [ubuntu, android, List.pairwise_pair, ImageOrder.MovesBase]
      decide +kernel
  have hinterleaves : Interleaves [ubuntu, android]
      [(0, .mkdir alice), (1, .mkdir alice), (1, .mv (basePath 0) android.image.path),
        (0, .qemuImgCreate ubuntu.image.path)] := by
    intro i
    match i with
    | 0 => decide +kernel
    | 1 => decide +kernel
    | n + 2 => simp
  rw [scripts_do_not_interfere hseparate hinterleaves (installed 100)
    (show android ∈ [ubuntu, android] by simp) (Or.inl rfl)]
  decide +kernel

/-! ## Base images -/

/-- The id of a member, who does not have the directory of the base images. -/
def MemberId := { id : Bytes // PlainName id ∧ id ≠ baseImage }

inductive AndroidOrder
  | create (id : MemberId) (index : UInt8)
  | delete (id : MemberId) (index : UInt8)

structure AndroidHost where
  android : Table
  disk : HostDisk
  /-- a slot was given back -/
  recycled : Bool

/-- The file of an android image. -/
def androidPath (id : MemberId) (index : UInt8) : ImagePath :=
  (Address.path ⟨id.1, utf8 "android", decimal index.toNat⟩)

/-- A process of VMManager carries out a request, and its script runs alone. -/
def androidStep (s : AndroidHost) : AndroidOrder → AndroidHost
  | .create id index =>
      let client := androidCreate id.1 index
      let (slot, android) := slotFor client s.android
      ⟨android, runScript s.disk
        (commandScript client.command (client.address (osName client.osType [])) slot), s.recycled⟩
  | .delete id index =>
      let client := androidDelete id.1 index
      let (slot, android) := slotFor client s.android
      ⟨android, runScript s.disk
        (commandScript client.command (client.address (osName client.osType [])) slot),
        s.recycled || (List.range 100).any fun i => s.android i == 0⟩

def freshAndroidHost : AndroidHost := ⟨freshTable, installed 100, false⟩

/-- A create is given the slot of a base image that is still there. -/
def FindsBase (s : AndroidHost) : AndroidOrder → Prop
  | .create _ _ => (s.disk.files (basePath (takeSlot s.android).1)).isSome
  | .delete _ _ => True

/-- A create comes before any slot was given back, and finds one that is free. -/
def NotRecycled (s : AndroidHost) : AndroidOrder → Prop
  | .create _ _ => s.recycled = false ∧ ∃ i < 100, s.android i = 1
  | .delete _ _ => True

theorem commandScript_create_android {image : Address} (h : image.os = utf8 "android") (slot : ℕ) :
    commandScript 1 image slot = [.mkdir image.id, .mv (basePath slot) image.path] := by
  have hone : ¬ ((1 : UInt8) = 0) := by decide
  have hos : ¬ (image.os = utf8 "windows7" ∨ image.os = utf8 "ubuntu") := by
    rw [h]
    decide +kernel
  simp only [commandScript, if_neg hone, if_true, if_neg hos, if_pos h]

theorem androidStep_create (s : AndroidHost) (id : MemberId) (index : UInt8) :
    androidStep s (.create id index) =
      ⟨(takeSlot s.android).2, runScript s.disk
        [.mkdir id.1, .mv (basePath (takeSlot s.android).1) (androidPath id index)],
        s.recycled⟩ := by
  have hscript :
      commandScript 1 ⟨id.1, utf8 "android", decimal index.toNat⟩ (takeSlot s.android).1 =
      [.mkdir id.1, .mv (basePath (takeSlot s.android).1) (androidPath id index)] :=
    commandScript_create_android rfl _
  rw [← hscript]
  rfl

theorem androidStep_delete (s : AndroidHost) (id : MemberId) (index : UInt8) :
    androidStep s (.delete id index) =
      ⟨(returnSlot s.android).2, runScript s.disk [.rm (androidPath id index)],
        s.recycled || (List.range 100).any fun i => s.android i == 0⟩ := rfl

theorem androidPath_ne_basePath (id : MemberId) (index : UInt8) (slot : ℕ) :
    basePath slot ≠ androidPath id index :=
  fun h => id.2.2 (congrArg ImagePath.dir h).symm

/-- The base images after the script of a create. -/
theorem files_create (disk : HostDisk) (id : MemberId) (index : UInt8) {slot : ℕ}
    (hbase : (disk.files (basePath slot)).isSome) (other : ℕ) :
    (runScript disk [.mkdir id.1, .mv (basePath slot) (androidPath id index)]).files
        (basePath other) =
      if other = slot then none else disk.files (basePath other) := by
  obtain ⟨content, hcontent⟩ := Option.isSome_iff_exists.mp hbase
  have hdir : (androidPath id index).dir ∈ insert id.1 disk.dirs := Finset.mem_insert_self ..
  simp only [runScript, run_cons, run_nil, ShellCommand.exec, if_pos id.2.1, hcontent,
    if_pos hdir]
  rw [Function.update_of_ne (androidPath_ne_basePath id index other)]
  by_cases hslot : other = slot
  · simp [hslot]
  · rw [Function.update_of_ne (fun h => hslot (basePath_inj.mp h)), if_neg hslot]

theorem files_delete (disk : HostDisk) (id : MemberId) (index : UInt8) (other : ℕ) :
    (runScript disk [.rm (androidPath id index)]).files (basePath other) =
      disk.files (basePath other) :=
  Function.update_of_ne (androidPath_ne_basePath id index other) ..

/-- The slots in use have lost their base images.  As long as none was given back, the slots
in use are the lowest and the others have their base images; afterwards the lowest free
slot has none. -/
structure BaseInv (s : AndroidHost) : Prop where
  two : ∀ i < 100, s.android i = 0 ∨ s.android i = 1
  used : ∀ i < 100, s.android i = 0 → s.disk.files (basePath i) = none
  order : s.recycled = false → ∀ i < 100, s.android i = 1 → ∀ j < 100, s.android j = 0 → j < i
  free : s.recycled = false → ∀ i < 100, s.android i = 1 → (s.disk.files (basePath i)).isSome
  stale : s.recycled = true → ∃ i < 100, s.android i = 1 ∧ s.disk.files (basePath i) = none ∧
    ∀ j < i, s.android j ≠ 1

theorem files_installed {count slot : ℕ} (h : slot < count) :
    ((installed count).files (basePath slot)).isSome := by
  simp only [installed, Option.isSome_map, List.find?_isSome, List.mem_range]
  exact ⟨slot, h, by simp⟩

theorem baseInv_fresh : BaseInv freshAndroidHost where
  two i hi := Or.inr (by simp [freshAndroidHost, freshTable, hi])
  used i hi h := by simp [freshAndroidHost, freshTable, hi] at h
  order _ i _ _ j hj h := by simp [freshAndroidHost, freshTable, hj] at h
  free _ i hi _ := files_installed hi
  stale h := by simp [freshAndroidHost] at h

theorem BaseInv.findsBase_iff {s : AndroidHost} (h : BaseInv s) (order : AndroidOrder) :
    FindsBase s order ↔ NotRecycled s order := by
  cases order with
  | delete id index => exact Iff.rfl
  | create id index =>
      simp only [FindsBase, NotRecycled]
      cases hrecycled : s.recycled with
      | true =>
          obtain ⟨i, hi, hfree, hnone, hbefore⟩ := h.stale hrecycled
          rw [takeSlot_of_free hi hfree hbefore]
          simp [hnone]
      | false =>
          by_cases hfull : ∃ i < 100, s.android i = 1
          · obtain ⟨i, hi, hfree, hbefore⟩ := exists_first_free hfull
            rw [takeSlot_of_free hi hfree hbefore]
            simp [h.free hrecycled i hi hfree, hfull]
          · -- every slot is in use, and the create goes on with slot 0
            have hzero : s.android 0 = 0 := by
              rcases h.two 0 (by omega) with hused | hfree
              · exact hused
              · exact absurd ⟨0, by omega, hfree⟩ hfull
            rw [takeSlot_of_full hfull]
            simp [h.used 0 (by omega) hzero, hfull]

theorem BaseInv.create {s : AndroidHost} (h : BaseInv s) (id : MemberId) (index : UInt8)
    (hnot : NotRecycled s (.create id index)) : BaseInv (androidStep s (.create id index)) := by
  obtain ⟨hrecycled, hexists⟩ := hnot
  obtain ⟨i, hi, hfree, hbefore⟩ := exists_first_free hexists
  have hbase := h.free hrecycled i hi hfree
  rw [androidStep_create, takeSlot_of_free hi hfree hbefore]
  have hother : ∀ {j value}, Function.update s.android i 0 j = value → value = 1 →
      j ≠ i ∧ s.android j = 1 := by
    intro j value hj hvalue
    by_cases hij : j = i
    · subst hij
      rw [Function.update_self] at hj
      omega
    · rw [Function.update_of_ne hij] at hj
      exact ⟨hij, hj.trans hvalue⟩
  constructor
  · intro j hj
    by_cases hij : j = i
    · simp [hij]
    · simpa [Function.update_of_ne hij] using h.two j hj
  · intro j hj hused
    dsimp only at hused ⊢
    rw [files_create s.disk id index hbase]
    by_cases hij : j = i
    · rw [if_pos hij]
    · rw [if_neg hij]
      rw [Function.update_of_ne hij] at hused
      exact h.used j hj hused
  · intro _ j hj hone k hk hused
    dsimp only at hone hused
    obtain ⟨hji, hone'⟩ := hother hone rfl
    by_cases hki : k = i
    · -- the slot just taken is below every free one
      subst hki
      by_contra hge
      exact hbefore j (by omega) hone'
    · rw [Function.update_of_ne hki] at hused
      exact h.order hrecycled j hj hone' k hk hused
  · intro _ j hj hone
    dsimp only at hone ⊢
    obtain ⟨hji, hone'⟩ := hother hone rfl
    rw [files_create s.disk id index hbase, if_neg hji]
    exact h.free hrecycled j hj hone'
  · intro hrecycled'
    exact absurd (hrecycled.symm.trans hrecycled') (by simp)

/-- What a delete does to the table: nothing, or a slot in use is given back. -/
theorem returnSlot_cases (android : Table) :
    ((∀ i < 100, android i ≠ 0) ∧ (returnSlot android).2 = android) ∨
      ∃ i < 100, android i = 0 ∧ (returnSlot android).2 = Function.update android i 1 := by
  classical
  by_cases hused : ∃ i, i < 100 ∧ android i = 0
  · obtain ⟨hlt, hzero⟩ := Nat.find_spec hused
    have hbefore : ∀ j < Nat.find hused, android j ≠ 0 := fun j hj hj0 =>
      Nat.find_min hused hj ⟨hj.trans hlt, hj0⟩
    exact Or.inr ⟨_, hlt, hzero, by rw [returnSlot_of_used hlt hzero hbefore]⟩
  · refine Or.inl ⟨fun i hi hzero => hused ⟨i, hi, hzero⟩, ?_⟩
    have hscan : ¬ scan (fun i => android i == 0) 0 100 < 100 := by
      intro hlt
      have hhit : scan (fun i => android i == 0) 0 100 < 0 + 100 := by simpa using hlt
      obtain ⟨i, -, hi, hzero⟩ := scan_lt_iff.mp hhit
      exact hused ⟨i, by simpa using hi, by simpa using hzero⟩
    simp only [returnSlot, if_neg hscan]

/-- Only the base images matter. -/
theorem BaseInv.of_files {s : AndroidHost} (h : BaseInv s) {disk : HostDisk}
    (hfiles : ∀ slot, disk.files (basePath slot) = s.disk.files (basePath slot)) :
    BaseInv { s with disk := disk } where
  two := h.two
  used i hi hused := (hfiles i).trans (h.used i hi hused)
  order := h.order
  free hrecycled i hi hfree := by
    rw [hfiles]
    exact h.free hrecycled i hi hfree
  stale hrecycled := by
    simpa only [hfiles] using h.stale hrecycled

theorem BaseInv.giveBack {s : AndroidHost} (h : BaseInv s) {i : ℕ} (hi : i < 100)
    (hused : s.android i = 0) : BaseInv ⟨Function.update s.android i 1, s.disk, true⟩ where
  two j hj := by
    by_cases hij : j = i
    · simp [hij]
    · simpa [Function.update_of_ne hij] using h.two j hj
  used j hj hj0 := by
    by_cases hij : j = i
    · simp [hij] at hj0
    · dsimp only at hj0
      rw [Function.update_of_ne hij] at hj0
      exact h.used j hj hj0
  order hrecycled := by simp at hrecycled
  free hrecycled := by simp at hrecycled
  stale _ := by
    -- the lowest free slot is this one, or was free before with its base image gone
    cases hrecycled : s.recycled with
    | false =>
        refine ⟨i, hi, by simp, h.used i hi hused, fun j hj => ?_⟩
        dsimp only
        rw [Function.update_of_ne hj.ne]
        intro hfree
        have := h.order hrecycled j (by omega) hfree i hi hused
        omega
    | true =>
        obtain ⟨k, hk, hfree, hnone, hfirst⟩ := h.stale hrecycled
        have hki : k ≠ i := by
          rintro rfl
          omega
        rcases Nat.lt_or_gt_of_ne hki with hlt | hgt
        · refine ⟨k, hk, by simp [Function.update_of_ne hki, hfree], hnone, fun j hj => ?_⟩
          dsimp only
          rw [Function.update_of_ne (by omega)]
          exact hfirst j hj
        · refine ⟨i, hi, by simp, h.used i hi hused, fun j hj => ?_⟩
          dsimp only
          rw [Function.update_of_ne hj.ne]
          exact hfirst j (by omega)

theorem BaseInv.delete {s : AndroidHost} (h : BaseInv s) (id : MemberId) (index : UInt8) :
    BaseInv (androidStep s (.delete id index)) := by
  have hdisk := h.of_files (files_delete s.disk id index)
  rw [androidStep_delete]
  rcases returnSlot_cases s.android with ⟨hnone, htable⟩ | ⟨i, hi, hused, htable⟩
  · have hany : ((List.range 100).any fun i => s.android i == 0) = false := by
      simpa [List.any_eq_false] using hnone
    rw [htable, hany, Bool.or_false]
    exact hdisk
  · have hany : ((List.range 100).any fun i => s.android i == 0) = true := by
      simpa [List.any_eq_true] using ⟨i, hi, hused⟩
    rw [htable, hany, Bool.or_true]
    exact hdisk.giveBack hi hused

end SsmIaas.VMManager
