import SsmIaas.Lib.Ring
import SsmIaas.Lib.Run
import Mathlib.Logic.Function.Basic

/-!
# The ring of audio files

QEMU's sound output reaches the browser through files.  `alsa_write_pending ()`
appends every dump of the sound buffer to `test<file_pos>.raw` and moves on to the
next file after two dumps; the loop of `thread_fb ()` takes a snapshot of
`file_pos`, sends and removes the files from `work_pos` up to it, and goes back to
encoding the picture.  The positions run round a ring of a hundred names.

Both threads are modelled step by step, in any interleaving.  The ghost counters
`completed` and `removed` number the files without wrapping round: under them the
ring is a window on an unbounded sequence of files (`AudioInv.files`).  Every step
keeps it that way, except a step of a producer that is a whole lap ahead and of a
consumer that looks at the ring just then (`audioInv_step`).
-/

namespace SsmIaas.Qemu

open Lib

/-- `FINALPOS`. -/
def finalPos : ℕ := 100

/-- `FINALCNT`. -/
def finalCnt : ℕ := 2

/-- `Next_pos`. -/
def nextPos (n : ℕ) : ℕ := if n = finalPos then 1 else n + 1

/-- What one call of `alsa_write_pending ()` writes; the serial number is ghost. -/
structure Dump (Data : Type*) where
  number : ℕ
  data : Data
  deriving DecidableEq, Repr

/-- The lap of the ring a dump belongs to. -/
def Dump.lap {Data : Type*} (d : Dump Data) : ℕ := d.number / (finalCnt * finalPos)

/-- Where `thread_fb ()` is; the argument is its local `temp_pos`. -/
inductive Consumer
  /-- before the snapshot `temp_pos = file_pos` -/
  | encode
  /-- before the test `work_pos != temp_pos` -/
  | test (tempPos : ℕ)
  | send (tempPos : ℕ)
  | remove (tempPos : ℕ)
  /-- before `work_pos = Next_pos (work_pos)` -/
  | next (tempPos : ℕ)
  deriving DecidableEq, Repr

structure AudioState (Data : Type*) where
  files : ℕ → Option (List (Dump Data))
  filePos : ℕ
  pendingCnt : ℕ
  /-- a dump is written and not counted yet -/
  appended : Bool
  workPos : ℕ
  consumer : Consumer
  /-- the files sent, each with what it held -/
  sent : List (List (Dump Data))
  /-- ghost: everything appended so far -/
  produced : List (Dump Data)
  /-- ghost: how often `file_pos` was advanced -/
  completed : ℕ
  /-- ghost: how many files were removed -/
  removed : ℕ

inductive AudioEvent (Data : Type*)
  /-- `alsa_write_pending ()` appends a dump -/
  | append (data : Data)
  /-- and counts it -/
  | count
  /-- `thread_fb ()` makes its next step -/
  | consumer
  deriving DecidableEq, Repr

variable {Data : Type*}

namespace AudioState

/-- `open (.., O_APPEND | O_CREAT ..)` and `fwrite`. -/
def append (s : AudioState Data) (data : Data) : AudioState Data :=
  let dump : Dump Data := ⟨s.produced.length, data⟩
  { s with
    files := Function.update s.files s.filePos (some ((s.files s.filePos).getD [] ++ [dump]))
    appended := true
    produced := s.produced ++ [dump] }

def count (s : AudioState Data) : AudioState Data :=
  if s.pendingCnt + 1 = finalCnt then
    { s with
      pendingCnt := 0, appended := false, filePos := nextPos s.filePos
      completed := s.completed + 1 }
  else { s with pendingCnt := s.pendingCnt + 1, appended := false }

/-- One step of the loop of `thread_fb ()`.  For a file that does not exist `ffmpeg`
sends nothing. -/
def consume (s : AudioState Data) : AudioState Data :=
  match s.consumer with
  | .encode => { s with consumer := .test s.filePos }
  | .test tempPos =>
      { s with consumer := if s.workPos = tempPos then .encode else .send tempPos }
  | .send tempPos =>
      { s with
        consumer := .remove tempPos
        sent := s.sent ++ (s.files s.workPos).toList }
  | .remove tempPos =>
      { s with
        consumer := .next tempPos
        files := Function.update s.files s.workPos none
        removed := s.removed + 1 }
  | .next tempPos => { s with consumer := .test tempPos, workPos := nextPos s.workPos }

end AudioState

def audioStep (s : AudioState Data) : AudioEvent Data → AudioState Data
  | .append data => if s.appended then s else s.append data
  | .count => if s.appended then s.count else s
  | .consumer => s.consume

def audioStart : AudioState Data :=
  ⟨fun _ => none, 1, 0, false, 1, .encode, [], [], 0, 0⟩

/-! ## Files without a ring -/

/-- What file number `n` of an unbounded sequence holds. -/
def fileOf (produced : List (Dump Data)) (n : ℕ) : Option (List (Dump Data)) :=
  if piece finalCnt produced n = [] then none else some (piece finalCnt produced n)

theorem fileOf_of_full {produced : List (Dump Data)} {n : ℕ}
    (h : finalCnt * (n + 1) ≤ produced.length) :
    fileOf produced n = some (piece finalCnt produced n) := by
  have hlength := length_piece h
  rw [fileOf, if_neg]
  intro hnil
  rw [hnil] at hlength
  simp [finalCnt] at hlength

theorem fileOf_of_empty {produced : List (Dump Data)} {n : ℕ}
    (h : produced.length ≤ finalCnt * n) : fileOf produced n = none := by
  rw [fileOf, if_pos (piece_eq_nil h)]

/-- A dump goes to the file that is not full yet. -/
theorem fileOf_append_last {produced : List (Dump Data)} {n : ℕ} (dump : Dump Data)
    (hstart : finalCnt * n ≤ produced.length) (hroom : produced.length < finalCnt * (n + 1)) :
    fileOf (produced ++ [dump]) n = some ((fileOf produced n).getD [] ++ [dump]) := by
  have hpiece := piece_append_last dump hstart hroom
  unfold fileOf
  rw [hpiece, if_neg (by simp)]
  split
  · rename_i hnil
    simp [hnil]
  · rfl

theorem fileOf_append_other {produced : List (Dump Data)} {n m : ℕ} (dump : Dump Data)
    (hstart : finalCnt * n ≤ produced.length) (hroom : produced.length < finalCnt * (n + 1))
    (hne : m ≠ n) : fileOf (produced ++ [dump]) m = fileOf produced m := by
  simp only [finalCnt] at hstart hroom
  rcases Nat.lt_or_gt_of_ne hne with hlt | hgt
  · have hfull : finalCnt * (m + 1) ≤ produced.length := by
      simp only [finalCnt]
      omega
    unfold fileOf
    rw [piece_append_of_full _ hfull]
  · have hempty : (produced ++ [dump]).length ≤ finalCnt * m := by
      simp only [finalCnt, List.length_append, List.length_singleton]
      omega
    rw [fileOf_of_empty hempty, fileOf_of_empty]
    simp only [List.length_append] at hempty
    omega

theorem nextPos_ringName (n : ℕ) :
    nextPos (ringName finalPos n) = ringName finalPos (n + 1) :=
  ringName_succ (by decide) n

/-! ## The invariant -/

/-- How many files `work_pos` has gone past. -/
def AudioState.taken (s : AudioState Data) : ℕ :=
  match s.consumer with
  | .next _ => s.removed - 1
  | _ => s.removed

/-- How many files were sent. -/
def AudioState.sentCount (s : AudioState Data) : ℕ :=
  match s.consumer with
  | .remove _ => s.removed + 1
  | _ => s.removed

/-- How many files the consumer has begun with. -/
def AudioState.begun (s : AudioState Data) : ℕ :=
  match s.consumer with
  | .send _ => s.removed + 1
  | .remove _ => s.removed + 1
  | _ => s.removed

def Consumer.tempPos : Consumer → Option ℕ
  | .encode => none
  | .test tempPos => some tempPos
  | .send tempPos => some tempPos
  | .remove tempPos => some tempPos
  | .next tempPos => some tempPos

/-- The ring is a window, a lap long, on an unbounded sequence of files. -/
structure AudioInv (s : AudioState Data) : Prop where
  filePos : s.filePos = ringName finalPos s.completed
  workPos : s.workPos = ringName finalPos s.taken
  pending : s.pendingCnt < finalCnt
  length : s.produced.length = finalCnt * s.completed + s.pendingCnt + s.appended.toNat
  numbered : ∀ (i : ℕ) (d : Dump Data), s.produced[i]? = some d → d.number = i
  behind : s.removed ≤ s.completed
  /-- nothing was written a whole lap ahead -/
  room : s.produced.length ≤ finalCnt * (s.removed + finalPos)
  files : ∀ n, s.removed ≤ n → n < s.removed + finalPos →
    s.files (ringName finalPos n) = fileOf s.produced n
  only : ∀ position, s.files position ≠ none →
    ∃ n, s.removed ≤ n ∧ n < s.removed + finalPos ∧ position = ringName finalPos n
  sent : s.sent = (List.range s.sentCount).map (piece finalCnt s.produced)
  /-- a snapshot names a file of the window that is still to be reached -/
  snapshot : ∀ tempPos, s.consumer.tempPos = some tempPos →
    ∃ file, tempPos = ringName finalPos file ∧ s.begun ≤ file ∧ file ≤ s.completed ∧
      file < s.removed + finalPos
  next : ∀ tempPos, s.consumer = .next tempPos → 0 < s.removed

theorem audioInv_start : AudioInv (audioStart : AudioState Data) where
  filePos := rfl
  workPos := rfl
  pending := by simp [audioStart, finalCnt]
  length := rfl
  numbered := by simp [audioStart]
  behind := le_rfl
  room := by simp [audioStart]
  files := by simp [audioStart, fileOf, piece]
  only := by simp [audioStart]
  sent := rfl
  snapshot := by simp [audioStart, Consumer.tempPos]
  next := by simp [audioStart]

namespace AudioInv

variable {s : AudioState Data}

theorem completed_le (h : AudioInv s) : s.completed ≤ s.removed + finalPos := by
  have hlength := h.length
  have hroom := h.room
  simp only [finalCnt, finalPos] at hlength hroom ⊢
  omega

theorem sentCount_le (h : AudioInv s) : s.sentCount ≤ s.completed := by
  have hle := h.behind
  unfold AudioState.sentCount
  split
  · rename_i tempPos hphase
    obtain ⟨file, -, hbegun, hcompleted, -⟩ := h.snapshot tempPos (by rw [hphase]; rfl)
    simp only [AudioState.begun, hphase] at hbegun
    omega
  · exact hle

/-- A dump is appended to a file of the window. -/
theorem append (h : AudioInv s) (happended : s.appended = false)
    (hlag : s.completed < s.removed + finalPos) (data : Data) : AudioInv (s.append data) := by
  have hlength := h.length
  have hpending := h.pending
  have hstart : finalCnt * s.completed ≤ s.produced.length := by omega
  have hend : s.produced.length < finalCnt * (s.completed + 1) := by
    simp only [happended, Bool.toNat_false, finalCnt] at hlength hpending ⊢
    omega
  refine ⟨h.filePos, h.workPos, h.pending, ?_, ?_, h.behind, ?_, ?_, ?_, ?_, h.snapshot,
    h.next⟩
  · simp [AudioState.append, hlength, happended]
  · intro i d hd
    simp only [AudioState.append, List.getElem?_append] at hd
    split at hd
    · exact h.numbered i d hd
    · rw [List.getElem?_singleton] at hd
      split at hd
      · obtain rfl := Option.some_inj.mp hd
        show s.produced.length = i
        omega
      · simp at hd
  · simp only [AudioState.append, List.length_append, List.length_singleton, finalCnt,
      finalPos] at hend hlag ⊢
    omega
  · -- the file written to is the one that grows, the others keep what they hold
    intro n hlo hhi
    simp only [AudioState.append, h.filePos]
    by_cases hn : n = s.completed
    · rw [hn, Function.update_self, h.files s.completed h.behind hlag,
        fileOf_append_last _ hstart hend]
    · have hname := ringName_ne ⟨hlo, hhi⟩ ⟨h.behind, hlag⟩ hn
      rw [Function.update_of_ne hname, h.files n hlo hhi,
        fileOf_append_other _ hstart hend hn]
  · intro position hposition
    by_cases hself : position = s.filePos
    · exact ⟨s.completed, h.behind, hlag, hself.trans h.filePos⟩
    · simp only [AudioState.append, Function.update_of_ne hself] at hposition
      exact h.only position hposition
  · -- what was sent is full, and stays as it is
    have hcount := h.sentCount_le
    show s.sent = (List.range s.sentCount).map (piece finalCnt (s.produced ++ [_]))
    rw [h.sent]
    apply List.map_congr_left
    intro n hn
    have hlt := List.mem_range.mp hn
    rw [piece_append_of_full]
    simp only [finalCnt] at hstart ⊢
    omega

theorem count (h : AudioInv s) (happended : s.appended = true) : AudioInv s.count := by
  have hlength := h.length
  have hpending := h.pending
  simp only [happended, Bool.toNat_true] at hlength
  unfold AudioState.count
  split
  · rename_i hlast
    refine ⟨?_, h.workPos, ?_, ?_, h.numbered, ?_, h.room, h.files, h.only, h.sent, ?_,
      h.next⟩
    · show nextPos s.filePos = ringName finalPos (s.completed + 1)
      rw [h.filePos, nextPos_ringName]
    · simp [finalCnt]
    · simp only [Bool.toNat_false, finalCnt] at hlength hlast ⊢
      omega
    · have hle := h.behind
      show s.removed ≤ s.completed + 1
      omega
    · intro tempPos htemp
      obtain ⟨file, hname, hbegun, hcompleted, hwindow⟩ := h.snapshot tempPos htemp
      exact ⟨file, hname, hbegun, Nat.le_succ_of_le hcompleted, hwindow⟩
  · rename_i hmore
    refine ⟨h.filePos, h.workPos, ?_, ?_, h.numbered, h.behind, h.room, h.files, h.only, h.sent,
      h.snapshot, h.next⟩
    · simp only [finalCnt] at hpending hmore ⊢
      omega
    · simp only [Bool.toNat_false]
      omega

/-- The snapshot is taken less than a lap behind the producer. -/
theorem encode (h : AudioInv s) (hphase : s.consumer = .encode)
    (hlag : s.completed < s.removed + finalPos) :
    AudioInv { s with consumer := .test s.filePos } := by
  refine ⟨h.filePos, ?_, h.pending, h.length, h.numbered, h.behind, h.room, h.files, h.only,
    ?_, ?_, by simp⟩
  · simpa [AudioState.taken, hphase] using h.workPos
  · simpa [AudioState.sentCount, hphase] using h.sent
  · intro tempPos htemp
    obtain rfl : s.filePos = tempPos := by simpa [Consumer.tempPos] using htemp
    exact ⟨s.completed, h.filePos, h.behind, le_rfl, hlag⟩

theorem test {tempPos : ℕ} (h : AudioInv s) (hphase : s.consumer = .test tempPos) :
    AudioInv { s with consumer := if s.workPos = tempPos then .encode else .send tempPos } := by
  have htaken : s.taken = s.removed := by simp [AudioState.taken, hphase]
  have hsent : s.sentCount = s.removed := by simp [AudioState.sentCount, hphase]
  have hwork := h.workPos
  have hfiles := h.sent
  rw [htaken] at hwork
  rw [hsent] at hfiles
  split
  · exact ⟨h.filePos, hwork, h.pending, h.length, h.numbered, h.behind, h.room, h.files, h.only,
      hfiles, by simp [Consumer.tempPos], by simp⟩
  · rename_i hne
    refine ⟨h.filePos, hwork, h.pending, h.length, h.numbered, h.behind, h.room, h.files, h.only,
      hfiles, ?_, by simp⟩
    intro temp htemp
    obtain rfl : tempPos = temp := by simpa [Consumer.tempPos] using htemp
    obtain ⟨file, hname, hbegun, hcompleted, hwindow⟩ :=
      h.snapshot tempPos (by rw [hphase]; rfl)
    simp only [AudioState.begun, hphase] at hbegun
    -- the positions differ, so the snapshot names a later file
    have hlater : s.removed ≠ file := by
      rintro rfl
      exact hne (hwork.trans hname.symm)
    exact ⟨file, hname, by simp only [AudioState.begun]; omega, hcompleted, hwindow⟩

/-- The file at `work_pos` is complete while the consumer deals with it. -/
theorem workFile {tempPos : ℕ} (h : AudioInv s)
    (hphase : s.consumer = .send tempPos ∨ s.consumer = .remove tempPos) :
    s.workPos = ringName finalPos s.removed ∧ s.removed < s.completed := by
  have htemp : s.consumer.tempPos = some tempPos := by
    rcases hphase with hphase | hphase <;> simp [hphase, Consumer.tempPos]
  have htaken : s.taken = s.removed := by
    rcases hphase with hphase | hphase <;> simp [AudioState.taken, hphase]
  have hbegun : s.begun = s.removed + 1 := by
    rcases hphase with hphase | hphase <;> simp [AudioState.begun, hphase]
  obtain ⟨file, -, hfile, hcompleted, -⟩ := h.snapshot tempPos htemp
  refine ⟨?_, by omega⟩
  rw [h.workPos, htaken]

theorem files_workPos {tempPos : ℕ} (h : AudioInv s)
    (hphase : s.consumer = .send tempPos ∨ s.consumer = .remove tempPos) :
    s.files s.workPos = some (piece finalCnt s.produced s.removed) := by
  obtain ⟨hwork, hcomplete⟩ := h.workFile hphase
  have hlength := h.length
  rw [hwork, h.files s.removed le_rfl (by simp [finalPos]), fileOf_of_full]
  simp only [finalCnt] at hlength ⊢
  omega

theorem send {tempPos : ℕ} (h : AudioInv s) (hphase : s.consumer = .send tempPos) :
    AudioInv { s with
      consumer := .remove tempPos
      sent := s.sent ++ (s.files s.workPos).toList } := by
  refine ⟨h.filePos, ?_, h.pending, h.length, h.numbered, h.behind, h.room, h.files, h.only,
    ?_, ?_, by simp⟩
  · simpa [AudioState.taken, hphase] using h.workPos
  · have hsent := h.sent
    simp only [AudioState.sentCount, hphase] at hsent
    simp only [AudioState.sentCount, h.files_workPos (Or.inl hphase), hsent, List.range_succ,
      List.map_append, List.map_singleton, Option.toList_some]
  · intro temp htemp
    have hold : s.consumer.tempPos = some temp := by simpa [hphase, Consumer.tempPos] using htemp
    simpa [AudioState.begun, hphase] using h.snapshot temp hold

/-- Removing a file moves the window on by one. -/
theorem remove {tempPos : ℕ} (h : AudioInv s) (hphase : s.consumer = .remove tempPos) :
    AudioInv { s with
      consumer := .next tempPos
      files := Function.update s.files s.workPos none
      removed := s.removed + 1 } := by
  obtain ⟨hwork, hcomplete⟩ := h.workFile (Or.inr hphase)
  have hroom := h.room
  refine ⟨h.filePos, ?_, h.pending, h.length, h.numbered, hcomplete, ?_, ?_, ?_, ?_, ?_, by simp⟩
  · simpa [AudioState.taken] using hwork
  · simp only [finalCnt] at hroom ⊢
    omega
  · intro n hlo hhi
    simp only [hwork] at hlo hhi ⊢
    rcases Nat.lt_or_ge n (s.removed + finalPos) with hold | hnew
    · have hname := ringName_ne ⟨by omega, hold⟩ ⟨le_rfl, by simp [finalPos]⟩
        (by omega : n ≠ s.removed)
      rw [Function.update_of_ne hname, h.files n (by omega) hold]
    · -- the name of the removed file is free for the file a lap later
      obtain rfl : n = s.removed + finalPos := by omega
      rw [ringName_add_size, Function.update_self, fileOf_of_empty hroom]
  · intro position hposition
    by_cases hself : position = s.workPos
    · simp [hself] at hposition
    · simp only [Function.update_of_ne hself] at hposition
      obtain ⟨n, hlo, hhi, hname⟩ := h.only position hposition
      have hne : n ≠ s.removed := by
        rintro rfl
        exact hself (hname.trans hwork.symm)
      exact ⟨n, by simp only; omega, by simp only; omega, hname⟩
  · have hsent := h.sent
    simp only [AudioState.sentCount, hphase] at hsent
    simpa [AudioState.sentCount] using hsent
  · intro temp htemp
    have hold : s.consumer.tempPos = some temp := by simpa [hphase, Consumer.tempPos] using htemp
    obtain ⟨file, hname, hbegun, hcompleted, hwindow⟩ := h.snapshot temp hold
    simp only [AudioState.begun, hphase] at hbegun
    exact ⟨file, hname, hbegun, hcompleted, by simp only; omega⟩

theorem advance {tempPos : ℕ} (h : AudioInv s) (hphase : s.consumer = .next tempPos) :
    AudioInv { s with consumer := .test tempPos, workPos := nextPos s.workPos } := by
  have hpos := h.next tempPos hphase
  refine ⟨h.filePos, ?_, h.pending, h.length, h.numbered, h.behind, h.room, h.files, h.only,
    ?_, ?_, by simp⟩
  · have hwork := h.workPos
    simp only [AudioState.taken, hphase] at hwork
    simp only [AudioState.taken, hwork, nextPos_ringName, Nat.sub_add_cancel hpos]
  · simpa [AudioState.sentCount, hphase] using h.sent
  · intro temp htemp
    have hold : s.consumer.tempPos = some temp := by simpa [hphase, Consumer.tempPos] using htemp
    simpa [AudioState.begun, hphase] using h.snapshot temp hold

end AudioInv

/-! ## Steps within a lap -/

/-- The condition on a step: a new file is begun, and a snapshot is taken, less than
a lap ahead of the removed files. -/
def LessThanLap (s : AudioState Data) : AudioEvent Data → Prop
  | .append _ => s.appended = false → s.pendingCnt = 0 → s.completed < s.removed + finalPos
  | .count => True
  | .consumer => s.consumer = .encode → s.completed < s.removed + finalPos

theorem audioInv_step {s : AudioState Data} {event : AudioEvent Data} (h : AudioInv s)
    (hlap : LessThanLap s event) : AudioInv (audioStep s event) := by
  cases event with
  | append data =>
      simp only [audioStep]
      split
      · exact h
      · rename_i happended
        rw [Bool.not_eq_true] at happended
        apply h.append happended
        by_cases hfirst : s.pendingCnt = 0
        · exact hlap happended hfirst
        · -- the file is begun already, within the window
          have hlength := h.length
          have hroom := h.room
          simp only [finalCnt] at hlength hroom
          omega
  | count =>
      simp only [audioStep]
      split
      · rename_i happended
        exact h.count happended
      · exact h
  | consumer =>
      simp only [audioStep, AudioState.consume]
      split
      · rename_i hphase
        exact h.encode hphase (hlap hphase)
      · rename_i hphase
        exact h.test hphase
      · rename_i hphase
        exact h.send hphase
      · rename_i hphase
        exact h.remove hphase
      · rename_i hphase
        exact h.advance hphase

end SsmIaas.Qemu
