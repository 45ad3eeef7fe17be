import SsmIaas.Qemu.AudioRing

/-!
# What the audio ring delivers

* `sent_in_order`: as long as the producer is at most 99 completed files ahead, what
  is sent is what was produced, in order and whole, and the two threads keep out of
  each other's files.
* `no_overrun_iff`: nothing in the code keeps the producer from getting a whole lap
  ahead.  Files are then written over, or hidden from the consumer by equal
  positions, exactly when a new file is begun or a snapshot is taken at that moment.
-/

namespace SsmIaas.Qemu

open Lib

variable {Data : Type*}

/-! ## Nothing is lost within the ring -/

/-- The producer is at most `FINALPOS - 1` completed files ahead of the removed ones. -/
def WithinRing (s : AudioState Data) : Prop := s.completed ≤ s.removed + (finalPos - 1)

instance : DecidablePred (WithinRing : AudioState Data → Prop) :=
  fun s => inferInstanceAs (Decidable (s.completed ≤ s.removed + (finalPos - 1)))

/-- The consumer does not send or remove the file that is appended to. -/
def KeepsAway (s : AudioState Data) : AudioEvent Data → Prop
  | .consumer => ∀ tempPos, s.consumer = .send tempPos ∨ s.consumer = .remove tempPos →
      s.workPos ≠ s.filePos
  | _ => True

/-- The dumps sent are the first ones produced, a whole file at a time. -/
def SentInOrder (s : AudioState Data) : Prop :=
  ∃ k, finalCnt * k ≤ s.produced.length ∧ s.sent.flatten = s.produced.take (finalCnt * k) ∧
    s.sent.length = k ∧ ∀ file ∈ s.sent, file.length = finalCnt

theorem WithinRing.lessThanLap {s : AudioState Data} (h : WithinRing s)
    (event : AudioEvent Data) : LessThanLap s event := by
  have hlt : s.completed < s.removed + finalPos := by
    simp only [WithinRing, finalPos] at h ⊢
    omega
  cases event with
  | append data => exact fun _ _ => hlt
  | count => trivial
  | consumer => exact fun _ => hlt

theorem AudioInv.sentInOrder {s : AudioState Data} (h : AudioInv s) : SentInOrder s := by
  have hlength := h.length
  have hcount := h.sentCount_le
  have hfull : ∀ n < s.sentCount, finalCnt * (n + 1) ≤ s.produced.length := by
    intro n hn
    simp only [finalCnt] at hlength ⊢
    omega
  refine ⟨s.sentCount, ?_, ?_, ?_, ?_⟩
  · simp only [finalCnt] at hlength ⊢
    omega
  · rw [h.sent, flatten_pieces]
  · rw [h.sent, List.length_map, List.length_range]
  · intro file hfile
    rw [h.sent] at hfile
    obtain ⟨n, hn, rfl⟩ := List.mem_map.mp hfile
    exact length_piece (hfull n (List.mem_range.mp hn))

theorem AudioInv.keepsAway {s : AudioState Data} (h : AudioInv s) (hring : WithinRing s)
    (event : AudioEvent Data) : KeepsAway s event := by
  cases event with
  | append data => trivial
  | count => trivial
  | consumer =>
      intro tempPos hphase heq
      obtain ⟨hwork, hcomplete⟩ := h.workFile hphase
      rw [hwork, h.filePos] at heq
      simp only [WithinRing, finalPos] at hring
      have hsame := ringName_inj hcomplete.le (by simp only [finalPos]; omega) heq
      omega

/-- **No loss within the ring.**  In every interleaving in which the producer is never
more than 99 completed files ahead of the removed ones, the dumps sent are exactly
the first ones produced, and the two threads never use the same file. -/
theorem sent_in_order (events : List (AudioEvent Data))
    (hring : Everywhere audioStep WithinRing audioStart events) :
    SentInOrder (run audioStep audioStart events) ∧
      Along audioStep KeepsAway audioStart events := by
  have hcond : Along audioStep (fun s _ => WithinRing s) audioStart events := hring.along
  refine ⟨?_, ?_⟩
  · have hinv : AudioInv (run audioStep audioStart events) :=
      hcond.invariant audioInv_start fun s event h hs => audioInv_step h (hs.lessThanLap event)
    exact hinv.sentInOrder
  · exact hcond.of_invariant audioInv_start
      (fun s event h hs => audioInv_step h (hs.lessThanLap event))
      fun s event h hs => h.keepsAway hs event

/-- One file is filled, sent and removed, and the next one begun. -/
theorem sent_in_order_one_file :
    SentInOrder (run audioStep audioStart
      [.append 7, .count, .append 8, .count, .consumer, .consumer, .append 9, .consumer,
        .consumer, .consumer]) ∧
    Along audioStep KeepsAway audioStart
      [.append 7, .count, .append 8, .count, .consumer, .consumer, .append 9, .consumer,
        .consumer, .consumer] :=
  sent_in_order _ (by decide)

/-! ## Overruns -/

/-- The first dump of a file finds no file of that name, and a snapshot that equals
`work_pos` means that every completed file was sent. -/
def NoOverrun (s : AudioState Data) : AudioEvent Data → Prop
  | .append _ => s.appended = false → s.pendingCnt = 0 → s.files s.filePos = none
  | .count => True
  | .consumer => s.consumer = .encode → s.workPos = s.filePos → s.sent.length = s.completed

/-- No file holds dumps of two laps. -/
def OneLap (s : AudioState Data) : Prop :=
  ∀ position file, s.files position = some file → ∀ a ∈ file, ∀ b ∈ file, a.lap = b.lap

theorem AudioInv.oneLap {s : AudioState Data} (h : AudioInv s) : OneLap s := by
  intro position file hfile
  obtain ⟨n, hlo, hhi, rfl⟩ := h.only position (by simp [hfile])
  rw [h.files n hlo hhi, fileOf] at hfile
  split at hfile
  · simp at hfile
  obtain rfl := Option.some_inj.mp hfile
  have hlap : ∀ d ∈ piece finalCnt s.produced n, d.lap = n / finalPos := by
    intro d hd
    obtain ⟨i, hstart, hend, hget⟩ := getElem?_of_mem_piece hd
    have hnumber := h.numbered i d hget
    simp only [Dump.lap, finalCnt, finalPos] at hstart hend ⊢
    omega
  intro a ha b hb
  rw [hlap a ha, hlap b hb]

theorem AudioInv.first_append_iff {s : AudioState Data} (h : AudioInv s)
    (happended : s.appended = false) (hfirst : s.pendingCnt = 0) :
    s.files s.filePos = none ↔ s.completed < s.removed + finalPos := by
  have hlength := h.length
  rw [happended, hfirst] at hlength
  rw [h.filePos]
  refine ⟨?_, ?_⟩
  · -- a lap ahead, the position is that of a file not removed yet
    intro hnone
    by_contra hge
    have heq : s.completed = s.removed + finalPos := le_antisymm h.completed_le (not_lt.mp hge)
    have hfull : finalCnt * (s.removed + 1) ≤ s.produced.length := by
      simp only [finalCnt, finalPos, Bool.toNat_false] at hlength heq ⊢
      omega
    rw [heq, ringName_add_size, h.files _ le_rfl (by simp [finalPos]),
      fileOf_of_full hfull] at hnone
    simp at hnone
  · intro hlag
    rw [h.files _ h.behind hlag, fileOf_of_empty]
    rw [hlength]
    simp

theorem AudioInv.snapshot_iff {s : AudioState Data} (h : AudioInv s)
    (hphase : s.consumer = .encode) :
    (s.workPos = s.filePos → s.sent.length = s.completed) ↔ s.completed < s.removed + finalPos := by
  have hwork := h.workPos
  have hsent := h.sent
  simp only [AudioState.taken, hphase] at hwork
  simp only [AudioState.sentCount, hphase] at hsent
  rw [hwork, h.filePos, hsent, List.length_map, List.length_range]
  refine ⟨?_, ?_⟩
  · intro hhidden
    by_contra hge
    have heq : s.completed = s.removed + finalPos := le_antisymm h.completed_le (not_lt.mp hge)
    have hsame := hhidden (by rw [heq, ringName_add_size])
    simp only [finalPos] at heq
    omega
  · intro hlag hname
    exact ringName_inj h.behind hlag hname

theorem AudioInv.noOverrun_iff {s : AudioState Data} (h : AudioInv s)
    (event : AudioEvent Data) : NoOverrun s event ↔ LessThanLap s event := by
  cases event with
  | append data =>
      exact forall_congr' fun happended => forall_congr' fun hfirst =>
        h.first_append_iff happended hfirst
  | count => rfl
  | consumer => exact forall_congr' fun hphase => h.snapshot_iff hphase

/-- **Overruns.**  No file is begun over an older one, none holds dumps of two laps,
and no file is hidden from the consumer, exactly when every new file is begun and
every snapshot taken less than a lap ahead of the removed files. -/
theorem no_overrun_iff (events : List (AudioEvent Data)) :
    (Along audioStep NoOverrun audioStart events ∧ Everywhere audioStep OneLap audioStart events) ↔
      Along audioStep LessThanLap audioStart events := by
  have hiff : Along audioStep NoOverrun audioStart events ↔
      Along audioStep LessThanLap audioStart events :=
    along_iff_of_invariant audioInv_start (fun s event => audioInv_step)
      fun s event h => h.noOverrun_iff event
  refine ⟨fun h => hiff.mp h.1, fun hlap => ⟨hiff.mpr hlap, ?_⟩⟩
  have hinv := hlap.everywhere audioInv_start fun s event => audioInv_step
  exact hinv.mono fun s h => h.oneLap

/-- A producer that runs alone. -/
def dumps (data : Data) (n : ℕ) : List (AudioEvent Data) :=
  (List.replicate n [.append data, .count]).flatten

/-- It goes round the ring and leaves file 1 where it is. -/
theorem run_dumps (data : Data) (n : ℕ) :
    let s := run audioStep audioStart (dumps data n)
    s.filePos = ringName finalPos (n / finalCnt) ∧ s.pendingCnt = n % finalCnt ∧
      s.appended = false ∧ (0 < n → s.files 1 ≠ none) := by
  induction n with
  | zero => simp [dumps, audioStart, ringName]
  | succ n ih =>
      obtain ⟨hpos, hcnt, happended, hfile⟩ := ih
      have hsplit : dumps data (n + 1) = dumps data n ++ [.append data, .count] := by
        simp [dumps, List.replicate_succ']
      rw [hsplit, run_append]
      generalize run audioStep audioStart (dumps data n) = s at hpos hcnt happended hfile
      have hkept : (s.append data).files 1 ≠ none := by
        by_cases hself : 1 = s.filePos
        · simp [AudioState.append, ← hself]
        · simp only [AudioState.append, Function.update_of_ne hself]
          rcases Nat.eq_zero_or_pos n with rfl | hn
          · exact absurd hpos.symm (by simpa [ringName] using hself)
          · exact hfile hn
      simp only [run_cons, run_nil, audioStep, happended, Bool.false_eq_true, if_false]
      have hdone : (s.append data).appended = true := rfl
      simp only [hdone, if_true, AudioState.count]
      have hcnt' : (s.append data).pendingCnt = n % finalCnt := hcnt
      have hpos' : (s.append data).filePos = ringName finalPos (n / finalCnt) := hpos
      split
      · rename_i hlast
        rw [hcnt'] at hlast
        refine ⟨?_, ?_, rfl, fun _ => hkept⟩
        · simp only [hpos', nextPos_ringName]
          congr 1
          simp only [finalCnt] at hlast ⊢
          omega
        · simp only [finalCnt] at hlast ⊢
          omega
      · rename_i hmore
        rw [hcnt'] at hmore
        refine ⟨?_, ?_, rfl, fun _ => hkept⟩
        · simp only [hpos']
          congr 1
          simp only [finalCnt] at hmore ⊢
          omega
        · simp only [hcnt']
          simp only [finalCnt] at hmore ⊢
          omega

/-- A hundred files are filled while the consumer encodes one picture; the next dump
is appended to the first of them. -/
theorem lap_ahead_appends_to_old_file :
    ¬ (Along audioStep NoOverrun audioStart (dumps () 200 ++ [.append ()]) ∧
      Everywhere audioStep OneLap audioStart (dumps () 200 ++ [.append ()])) := by
  intro h
  have hstate := run_dumps () 200
  obtain ⟨-, hlast⟩ := along_append.mp h.1
  generalize run audioStep audioStart (dumps () 200) = s at hstate hlast
  obtain ⟨hpos, hcnt, happended, hfile⟩ := hstate
  have hfirst : s.files s.filePos = none := hlast.1 happended hcnt
  rw [hpos] at hfirst
  exact hfile (by decide) hfirst

end SsmIaas.Qemu
