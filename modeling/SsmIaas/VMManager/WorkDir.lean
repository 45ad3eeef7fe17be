import SsmIaas.Lib.Path
import SsmIaas.Lib.Run
import SsmIaas.VMManager.Command

/-!
# The working directory of VMManager

For a start or an install, `command ()` goes to the directory of the client, writes
`client_data.dat` there, and goes back by `..`.  Three things are not looked at: whether
the first `chdir ()` got anywhere, where the function returns after an error, and whether
`..` is where it came from.

The requests of a run each come with a file system of their own, as images are created
and deleted between them.  `working_directory_iff` says which requests do no harm; every
other one either writes into a directory it should not, or leaves VMManager in another
directory for all requests to come.  In a tree of directories an id of ordinary names
does no harm only if it is one name and both the file and the way back work
(`harmless_iff_of_tree`).
-/

namespace SsmIaas.VMManager

open Lib

/-- A file system, and what becomes of `client_data.dat`. -/
structure Disk (Dir : Type*) extends FileSystem Dir where
  /-- `fopen ("client_data.dat", "w")` works in the directory -/
  opens : Dir → Bool
  /-- `fclose ()` reports no error -/
  closes : Bool

structure ClientRequest (Dir : Type*) where
  client : ClientInfo
  disk : Disk Dir

/-- What `command ()` leaves behind. -/
structure CommandOutcome (Dir : Type*) where
  cwd : Dir
  /-- the directory in which `client_data.dat` was opened for writing -/
  written : Option Dir
  /-- `command.sh` is run; otherwise `return -1` -/
  goesOn : Bool

section

variable {Dir : Type*}

/-- The directory that the id names; `chdir (NULL)` fails. -/
def ClientRequest.named (r : ClientRequest Dir) (cwd : Dir) : Option Dir :=
  r.client.id.bind (r.disk.chdir cwd)

/-- Where `chdir ("..")` leads, if anywhere. -/
def Disk.back (disk : Disk Dir) (d : Dir) : Dir := (disk.chdir d [dot, dot]).getD d

/-- `command ()`, as far as files and directories go. -/
def command (cwd : Dir) (r : ClientRequest Dir) : CommandOutcome Dir :=
  if r.client.command = 0 ∨ r.client.command = 3 then
    let cwd := (r.named cwd).getD cwd
    if r.disk.opens cwd then
      if r.disk.closes then ⟨r.disk.back cwd, some cwd, true⟩
      else ⟨cwd, some cwd, false⟩
    else ⟨cwd, none, false⟩
  else ⟨cwd, none, true⟩

/-- The loop of `start_server ()`. -/
def workDir (cwd : Dir) (r : ClientRequest Dir) : Dir := (command cwd r).cwd

/-- The working directory is kept, and the file is in the directory of the client, which is
named from where VMManager was started. -/
def Proper (start cwd : Dir) (r : ClientRequest Dir) : Prop :=
  (command cwd r).cwd = cwd ∧ ∀ d, (command cwd r).written = some d → r.named start = some d

/-- If there is no such directory, the file cannot be written in the working directory
either; if there is, `..` leads back from it, or it was never left. -/
def Harmless (cwd : Dir) (r : ClientRequest Dir) : Prop :=
  r.client.command = 0 ∨ r.client.command = 3 →
    match r.named cwd with
    | none => r.disk.opens cwd = false
    | some d => if r.disk.opens d ∧ r.disk.closes then r.disk.back d = cwd else d = cwd

theorem proper_iff (start : Dir) (r : ClientRequest Dir) :
    Proper start start r ↔ Harmless start r := by
  unfold Proper Harmless command
  by_cases hcommand : r.client.command = 0 ∨ r.client.command = 3
  · simp only [if_pos hcommand, forall_prop_of_true hcommand]
    cases hnamed : r.named start with
    | none =>
        -- the file would be written in `start`
        cases hopens : r.disk.opens start <;> cases r.disk.closes <;> simp [hopens]
    | some d => cases hopens : r.disk.opens d <;> cases r.disk.closes <;> simp [hopens]
  · simp [hcommand]

/-- **Working directory.**  Every command of a run keeps the working directory, and writes
its file into the directory of the client or not at all, exactly if every request is
harmless in the directory where VMManager was started. -/
theorem working_directory_iff (start : Dir) (requests : List (ClientRequest Dir)) :
    Along workDir (Proper start) start requests ↔ ∀ r ∈ requests, Harmless start r := by
  induction requests with
  | nil => simp [Along]
  | cons r rest ih =>
      rw [Along, proper_iff, List.forall_mem_cons]
      refine and_congr_right fun hharmless => ?_
      have hkept : workDir start r = start := ((proper_iff start r).mpr hharmless).1
      rw [hkept, ih]

/-! ## Ids of ordinary names -/

theorem Disk.back_eq {disk : Disk Dir} {d e : Dir} (hd : disk.searchable d = true)
    (hparent : disk.parent d = e) (he : disk.searchable e = true) : disk.back d = e := by
  have hup := FileSystem.chdir_up.mpr ⟨hd, hparent, he⟩
  rw [Disk.back, hup, Option.getD_some]

/-- Without symbolic links, a directory that is named by ordinary names must be an entry of
the working directory itself, and the file must be written without an error. -/
theorem harmless_iff_of_tree {r : ClientRequest Dir} {depth : Dir → ℕ} {start d : Dir} {id : Bytes}
    (htree : r.disk.Tree depth) (hid : r.client.id = some id) (hne : components id ≠ [])
    (hrelative : id.head? ≠ some slash) (hnames : ∀ name ∈ components id, Ordinary name)
    (hnamed : r.named start = some d) :
    Harmless start r ↔ (r.client.command = 0 ∨ r.client.command = 3 →
      (components id).length = 1 ∧ r.disk.opens d = true ∧ r.disk.closes = true) := by
  have hchdir : r.disk.chdir start id = some d := by
    simpa [ClientRequest.named, hid] using hnamed
  have hempty : id ≠ [] := by
    rintro rfl
    exact hne rfl
  obtain ⟨hwalk, hd⟩ := (FileSystem.chdir_relative hempty hrelative).mp hchdir
  have hdepth := htree.depth_walk hnames hwalk
  -- the last name leads from the parent of `d` to `d`
  obtain ⟨front, last, hsplit⟩ : ∃ front last, components id = front ++ [last] :=
    ⟨_, _, (List.dropLast_append_getLast hne).symm⟩
  rw [hsplit] at hwalk hnames hdepth
  obtain ⟨e, hfront, hlast⟩ := FileSystem.walk_concat.mp hwalk
  obtain ⟨he, hchild⟩ := (FileSystem.enter_ordinary (hnames last (by simp))).mp hlast
  have hback : r.disk.back d = e := Disk.back_eq hd (htree.parent_child hchild) he
  have hfrontDepth := htree.depth_walk (fun name hname => hnames name (by simp [hname])) hfront
  have hleft : d ≠ start := by
    rintro rfl
    simp at hdepth
  have hone : e = start ↔ front = [] := by
    refine ⟨fun heq => ?_, fun heq => ?_⟩
    · rw [heq] at hfrontDepth
      exact List.length_eq_zero_iff.mp (by omega)
    · subst heq
      simpa [FileSystem.walk] using hfront.symm
  unfold Harmless
  refine forall_congr' fun _ => ?_
  simp only [hnamed, hsplit, hback]
  split
  · next hworks => simp [hone, hworks]
  · next hworks => simp [hleft, hworks]

end

/-! ## A directory that is missing -/

/-- VMManager's directory, the one above it, and that of a client. -/
inductive Location
  | above
  | start
  | image
  deriving DecidableEq, Repr

/-- The client has a directory, and `client_data.dat` can be written everywhere. -/
def oneImage : Disk Location where
  root := .above
  parent := fun
    | .image => .start
    | _ => .above
  child := fun d name => if d = .start ∧ name = ascii "alice" then some .image else none
  searchable := fun _ => true
  opens := fun _ => true
  closes := true

def startRequest (id : Bytes) : ClientRequest Location := ⟨⟨0, 2, 0, some id, none⟩, oneImage⟩

/-- After a request for a client without a directory, the file of the next client is written
two levels above where it should be. -/
theorem missing_directory_moves_up :
    Proper .start .start (startRequest (ascii "alice")) ∧
      (command .start (startRequest (ascii "nobody"))).written = some .start ∧
      workDir .start (startRequest (ascii "nobody")) = .above ∧
      (command .above (startRequest (ascii "alice"))).written = some .above ∧
      ¬ Along workDir (Proper .start) .start
        [startRequest (ascii "nobody"), startRequest (ascii "alice")] := by
  refine ⟨⟨rfl, fun d hwritten => hwritten⟩, rfl, rfl, rfl, ?_⟩
  rintro ⟨⟨hkept, -⟩, -⟩
  exact absurd hkept (by decide)

end SsmIaas.VMManager
