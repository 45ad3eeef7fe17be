import SsmIaas.Lib.Run

/-!
# What is dumped of the sound

`alsa_run_out ()` clips frames of the mixed sound into the ring `pcm_buf`, behind those
that the sound card has not taken yet, and `alsa_write_pending ()` dumps the ring to a file
before it goes on writing to the card.  The dump is made whenever `wpos` is 0 or the pending
frames reach the end of the ring, and always of the whole ring; but it goes through stdio,
and the descriptor is closed under it without a flush.  Whole blocks of stdio are written at
once, and what is left in its buffer never reaches the file.

So a dump is right only if the ring is made of whole blocks, and has just been filled from
its beginning to its end.  Counting shows that nothing else is: after a call that places
fewer frames than the ring has, the dumps are longer than the sound.  Therefore every call
has to find the card done with the frames of the call before, and to place a whole ring
(`capture_iff`).  A ring with a part of a block loses it each time (`part_block_is_lost`).
-/

namespace SsmIaas.Qemu

open Lib

/-- What `snd_pcm_writei ()` returns, and what the loop makes of it. -/
inductive WriteResult
  /-- `more + 1` frames, or as many as were asked for -/
  | written (more : ℕ)
  /-- an underrun or a suspended stream, and it could be recovered -/
  | recovered
  /-- 0 or an error: the function returns -/
  | gaveUp
  deriving DecidableEq, Repr

/-- A call of `alsa_run_out ()`. -/
structure RunOut (Frame : Type*) where
  live : ℕ
  /-- `none` if the number of available frames cannot be obtained -/
  avail : Option ℕ
  /-- `hw->mix_buf`, clipped -/
  mixBuf : ℕ → Frame
  /-- the results of `snd_pcm_writei ()`; 0 when there are no more -/
  results : List WriteResult

/-- The frames of the ring that the sound card has not taken yet. -/
structure Voice where
  wpos : ℕ
  pending : ℕ
  deriving DecidableEq, Repr

structure Capture (Frame : Type*) extends Voice where
  rpos : ℕ
  pcmBuf : ℕ → Frame
  /-- the dumps, in their order -/
  dumps : List (List Frame)
  /-- ghost: the frames placed into `pcm_buf`, in their order -/
  placed : List Frame

/-- `pcm_buf` comes from `calloc ()`. -/
def captureStart {Frame : Type*} (silence : Frame) : Capture Frame :=
  ⟨⟨0, 0⟩, 0, fun _ => silence, [], []⟩

section

variable {Frame : Type*} (block samples : ℕ)

/-- A round of `audio_pcm_hw_clip_out ()`: frames from `rpos` on are placed. -/
def clipRound (mixBuf : ℕ → Frame) (samplesToClip : ℕ) (s : Capture Frame) : Capture Frame :=
  { s with
    pcmBuf := fun j => if s.rpos ≤ j ∧ j < s.rpos + samplesToClip then mixBuf j else s.pcmBuf j
    placed := s.placed ++ (List.range' s.rpos samplesToClip).map mixBuf
    rpos := (s.rpos + samplesToClip) % samples }

/-- Its loop; as `rpos` is in the ring, every round places at least one frame. -/
def clipLoop (mixBuf : ℕ → Frame) : ℕ → ℕ → Capture Frame → Capture Frame
  | 0, _, s => s
  | fuel + 1, len, s =>
      if len = 0 then s
      else
        let samplesToClip := min len (samples - s.rpos)
        clipLoop mixBuf fuel (len - samplesToClip) (clipRound samples mixBuf samplesToClip s)

/-- How many frames a call places: `audio_MIN (live, avail)`, and then what is left of the
ring. -/
def clipLength (s : Capture Frame) (live avail : ℕ) : ℕ :=
  min (samples - s.pending) (min live avail)

/-- `fwrite ()` to a new stream and `close ()` of its descriptor: what is left over from whole
blocks stays in the buffer of the stream.  A block, as `fdopen ()` gets it from the file, is a
whole number of frames. -/
def fwriteClose (frames : List Frame) : List Frame :=
  frames.take (frames.length / block * block)

/-- The dump at the beginning of `alsa_write_pending ()`. -/
def dumpRing (s : Capture Frame) : Capture Frame :=
  if s.wpos = 0 ∨ samples ≤ s.wpos + s.pending then
    { s with dumps := s.dumps ++ [fwriteClose block ((List.range samples).map s.pcmBuf)] }
  else s

/-- The two loops of `alsa_write_pending ()` around `snd_pcm_writei ()`. -/
def writeLoop : List WriteResult → ℕ → Voice → Voice
  | [], _, v => v
  | .gaveUp :: _, _, v => v
  | .recovered :: rest, len, v => writeLoop rest len v
  | .written more :: rest, len, v =>
      let written := min (more + 1) len
      let v : Voice := ⟨(v.wpos + written) % samples, v.pending - written⟩
      if len - written ≠ 0 then writeLoop rest (len - written) v
      else if v.pending ≠ 0 then writeLoop rest (min v.pending (samples - v.wpos)) v
      else v

/-- `alsa_write_pending ()`. -/
def alsaWritePending (s : Capture Frame) (results : List WriteResult) : Capture Frame :=
  let s := dumpRing block samples s
  if s.pending ≠ 0 then
    { s with
      toVoice := writeLoop samples results (min s.pending (samples - s.wpos)) s.toVoice }
  else s

/-- `alsa_run_out ()`. -/
def alsaRunOut (s : Capture Frame) (call : RunOut Frame) : Capture Frame :=
  match call.avail with
  | none => s
  | some avail =>
      let decr := clipLength samples s call.live avail
      let s := clipLoop samples call.mixBuf decr decr s
      alsaWritePending block samples { s with pending := s.pending + decr } call.results

/-! ## What should hold, and when it does -/

/-- The dumps together are the beginning of the sound, and at most a ring of it is
missing. -/
def ExactlyOnce (s : Capture Frame) : Prop :=
  s.dumps.flatten <+: s.placed ∧ s.placed.length ≤ s.dumps.flatten.length + samples

instance [DecidableEq Frame] (s : Capture Frame) : Decidable (ExactlyOnce samples s) :=
  inferInstanceAs (Decidable (_ ∧ _))

/-- The card has taken all frames, and the call places a whole ring. -/
def WholeRing (s : Capture Frame) (call : RunOut Frame) : Prop :=
  ∀ avail, call.avail = some avail → s.pending = 0 ∧ samples ≤ call.live ∧ samples ≤ avail

/-- Between two such calls: the sound is a number of whole rings, of each of which the blocks
are dumped, and what the card has not taken yet reaches up to the end of the ring. -/
structure CaptureInv (s : Capture Frame) (rings : List (List Frame)) : Prop where
  rpos : s.rpos = 0
  pending : s.pending ≤ samples
  wpos : s.wpos = (samples - s.pending) % samples
  whole : ∀ ring ∈ rings, ring.length = samples
  placed : s.placed = rings.flatten
  dumps : s.dumps = rings.map (fwriteClose block)

variable {block samples} {s : Capture Frame} {rings : List (List Frame)}

theorem captureInv_start (block samples : ℕ) (silence : Frame) :
    CaptureInv block samples (captureStart silence) [] where
  rpos := rfl
  pending := Nat.zero_le _
  wpos := (Nat.mod_self samples).symm
  whole := by simp
  placed := rfl
  dumps := rfl

theorem fwriteClose_of_dvd {frames : List Frame} (h : block ∣ frames.length) :
    fwriteClose block frames = frames := by
  rw [fwriteClose, Nat.div_mul_cancel h, List.take_length]

/-- Nothing is lost of rings of whole blocks. -/
theorem CaptureInv.dumped (h : CaptureInv block samples s rings) (hblock : block ∣ samples) :
    s.dumps.flatten = s.placed := by
  have hwhole : rings.map (fwriteClose block) = rings.map id :=
    List.map_congr_left fun ring hring => fwriteClose_of_dvd (by rwa [h.whole ring hring])
  rw [h.dumps, h.placed, hwhole, List.map_id]

theorem CaptureInv.exactlyOnce (h : CaptureInv block samples s rings) (hblock : block ∣ samples) :
    ExactlyOnce samples s := by
  rw [ExactlyOnce, h.dumped hblock]
  exact ⟨List.prefix_refl _, Nat.le_add_right _ _⟩

/-! ## The loops -/

theorem clipLoop_zero (mixBuf : ℕ → Frame) (fuel : ℕ) : clipLoop samples mixBuf fuel 0 s = s := by
  cases fuel with
  | zero => rfl
  | succ fuel => simp [clipLoop]

/-- Clipping leaves the counters of the card and the dumps alone, and places no more than
it was asked to. -/
theorem clipLoop_frame (samples : ℕ) (mixBuf : ℕ → Frame) (fuel len : ℕ) (s : Capture Frame) :
    (clipLoop samples mixBuf fuel len s).toVoice = s.toVoice ∧
      (clipLoop samples mixBuf fuel len s).dumps = s.dumps ∧
      (clipLoop samples mixBuf fuel len s).placed.length ≤ s.placed.length + len := by
  induction fuel generalizing len s with
  | zero => exact ⟨rfl, rfl, Nat.le_add_right _ _⟩
  | succ fuel ih =>
      rw [clipLoop]
      split
      · exact ⟨rfl, rfl, Nat.le_add_right _ _⟩
      · obtain ⟨hvoice, hdumps, hplaced⟩ := ih (len - min len (samples - s.rpos))
          (clipRound samples mixBuf (min len (samples - s.rpos)) s)
        refine ⟨hvoice, hdumps, Nat.le_trans hplaced ?_⟩
        simp only [clipRound, List.length_append, List.length_map, List.length_range']
        omega

/-- A whole ring, clipped from the beginning. -/
theorem clipLoop_whole (mixBuf : ℕ → Frame) (hrpos : s.rpos = 0) :
    (clipLoop samples mixBuf samples samples s).rpos = 0 ∧
      (clipLoop samples mixBuf samples samples s).placed =
        s.placed ++ (List.range samples).map mixBuf ∧
      ∀ j < samples, (clipLoop samples mixBuf samples samples s).pcmBuf j = mixBuf j := by
  cases samples with
  | zero => simp [clipLoop, hrpos]
  | succ n =>
      have hall : min (n + 1) (n + 1 - s.rpos) = n + 1 := by omega
      simp only [clipLoop, if_neg (Nat.succ_ne_zero n), hall, Nat.sub_self, clipLoop_zero,
        clipRound]
      refine ⟨by simp [hrpos], by simp [hrpos, List.range_eq_range'], fun j hj => ?_⟩
      rw [if_pos ⟨by omega, by omega⟩]

/-- The card takes frames from the front of what is pending. -/
theorem writeLoop_aligned (results : List WriteResult) {len : ℕ} {v : Voice}
    (hlen : len ≤ v.pending) (hpending : v.pending ≤ samples)
    (hwpos : v.wpos = (samples - v.pending) % samples) :
    (writeLoop samples results len v).pending ≤ samples ∧
      (writeLoop samples results len v).wpos =
        (samples - (writeLoop samples results len v).pending) % samples := by
  induction results generalizing len v with
  | nil => exact ⟨hpending, hwpos⟩
  | cons result rest ih =>
      cases result with
      | gaveUp => exact ⟨hpending, hwpos⟩
      | recovered => exact ih hlen hpending hwpos
      | written more =>
          simp only [writeLoop]
          have hle : min (more + 1) len ≤ len := Nat.min_le_right _ _
          generalize min (more + 1) len = written at hle
          have hnext : (v.wpos + written) % samples =
              (samples - (v.pending - written)) % samples := by
            rw [hwpos, Nat.mod_add_mod]
            congr 1
            omega
          split
          · exact ih (by simp only; omega) (by simp only; omega) hnext
          · split
            · exact ih (Nat.min_le_left _ _) (by simp only; omega) hnext
            · exact ⟨by simp only; omega, hnext⟩

/-- What `alsa_write_pending ()` does not touch. -/
theorem alsaWritePending_frame (block samples : ℕ) (s : Capture Frame)
    (results : List WriteResult) :
    (alsaWritePending block samples s results).rpos = s.rpos ∧
      (alsaWritePending block samples s results).placed = s.placed ∧
      (alsaWritePending block samples s results).dumps = (dumpRing block samples s).dumps := by
  unfold alsaWritePending dumpRing
  split <;> simp only <;> split <;> exact ⟨rfl, rfl, rfl⟩

theorem alsaWritePending_aligned (block : ℕ) (results : List WriteResult)
    (hpending : s.pending ≤ samples) (hwpos : s.wpos = (samples - s.pending) % samples) :
    (alsaWritePending block samples s results).pending ≤ samples ∧
      (alsaWritePending block samples s results).wpos =
        (samples - (alsaWritePending block samples s results).pending) % samples := by
  have hvoice : (dumpRing block samples s).toVoice = s.toVoice := by
    unfold dumpRing
    split <;> rfl
  unfold alsaWritePending
  simp only [hvoice]
  split
  · exact writeLoop_aligned results (Nat.min_le_left _ _) hpending hwpos
  · rw [hvoice]
    exact ⟨hpending, hwpos⟩

/-! ## One call -/

theorem CaptureInv.run (h : CaptureInv block samples s rings) {call : RunOut Frame} {avail : ℕ}
    (havail : call.avail = some avail)
    (hwhole : s.pending = 0 ∧ samples ≤ call.live ∧ samples ≤ avail) :
    CaptureInv block samples (alsaRunOut block samples s call)
      (rings ++ [(List.range samples).map call.mixBuf]) := by
  obtain ⟨hpending, hlive, hroom⟩ := hwhole
  have hlength : clipLength samples s call.live avail = samples := by
    unfold clipLength
    omega
  have hwpos : s.wpos = 0 := by
    rw [h.wpos, hpending, Nat.sub_zero, Nat.mod_self]
  obtain ⟨hvoice, hdumps, -⟩ := clipLoop_frame samples call.mixBuf samples samples s
  obtain ⟨hrpos, hplaced, hring⟩ := clipLoop_whole call.mixBuf h.rpos
  simp only [alsaRunOut, havail, hlength]
  generalize clipLoop samples call.mixBuf samples samples s = clipped at *
  -- the card has `samples` frames to take, and the whole ring is dumped
  have hclipped : clipped.wpos = 0 := (congrArg Voice.wpos hvoice).trans hwpos
  have hfull : clipped.pending + samples = samples := by
    rw [hvoice, hpending, Nat.zero_add]
  obtain ⟨hrpos', hplaced', hdumps'⟩ := alsaWritePending_frame block samples
    { clipped with pending := clipped.pending + samples } call.results
  have haligned := alsaWritePending_aligned
    (s := { clipped with pending := clipped.pending + samples }) block call.results
    (Nat.le_of_eq hfull) (by simp [hclipped, hfull])
  have hframes : (List.range samples).map clipped.pcmBuf =
      (List.range samples).map call.mixBuf :=
    List.map_congr_left fun j hj => hring j (List.mem_range.mp hj)
  refine ⟨hrpos'.trans hrpos, haligned.1, haligned.2, ?_, ?_, ?_⟩
  · intro ring hmem
    rcases List.mem_append.mp hmem with hold | hnew
    · exact h.whole ring hold
    · rw [List.mem_singleton.mp hnew]
      simp
  · rw [hplaced']
    simp only [hplaced, h.placed, List.flatten_append, List.flatten_singleton]
  · rw [hdumps', dumpRing, if_pos (Or.inl hclipped)]
    simp only [hdumps, h.dumps, hframes, List.map_append, List.map_singleton]

/-- A call that does not place a whole ring dumps it nevertheless. -/
theorem CaptureInv.not_exactlyOnce (h : CaptureInv block samples s rings)
    (hblock : block ∣ samples) {call : RunOut Frame} {avail : ℕ}
    (havail : call.avail = some avail)
    (hpart : ¬ (s.pending = 0 ∧ samples ≤ call.live ∧ samples ≤ avail)) :
    ¬ ExactlyOnce samples (alsaRunOut block samples s call) := by
  have hpending := h.pending
  have hshort : clipLength samples s call.live avail < samples := by
    unfold clipLength
    omega
  obtain ⟨hvoice, hdumps, hplaced⟩ :=
    clipLoop_frame samples call.mixBuf (clipLength samples s call.live avail)
      (clipLength samples s call.live avail) s
  unfold alsaRunOut
  simp only [havail]
  generalize clipLength samples s call.live avail = decr at *
  generalize clipLoop samples call.mixBuf decr decr s = clipped at *
  have hwpos : clipped.wpos = (samples - s.pending) % samples :=
    (congrArg Voice.wpos hvoice).trans h.wpos
  have hdump : clipped.wpos = 0 ∨ samples ≤ clipped.wpos + (clipped.pending + decr) := by
    rcases Nat.eq_zero_or_pos s.pending with hzero | hpos
    · exact Or.inl (by rw [hwpos, hzero, Nat.sub_zero, Nat.mod_self])
    · have hclipped : clipped.pending = s.pending := congrArg Voice.pending hvoice
      rw [hwpos, hclipped, Nat.mod_eq_of_lt (by omega)]
      omega
  obtain ⟨-, hplaced', hdumps'⟩ := alsaWritePending_frame block samples
    { clipped with pending := clipped.pending + decr } call.results
  have hring : block ∣ ((List.range samples).map clipped.pcmBuf).length := by simpa using hblock
  rintro ⟨hbeginning, -⟩
  -- the dumps are longer than the sound
  have hle := hbeginning.length_le
  rw [hplaced', hdumps', dumpRing, if_pos hdump] at hle
  simp only [fwriteClose_of_dvd hring, List.flatten_append, List.flatten_singleton,
    List.length_append, List.length_map, List.length_range, hdumps, h.dumped hblock] at hle
  omega

/-- **Capture.**  With a ring of whole blocks the dumps are the sound, once and in order, with
at most a ring missing, in every state of a run exactly if every call that gets as far as the
sound card finds it done and places a whole ring. -/
theorem capture_iff (block samples : ℕ) (hblock : block ∣ samples) (silence : Frame)
    (calls : List (RunOut Frame)) :
    Everywhere (alsaRunOut block samples) (ExactlyOnce samples) (captureStart silence) calls ↔
      Along (alsaRunOut block samples) (WholeRing samples) (captureStart silence) calls := by
  refine everywhere_iff_of_invariant (I := fun s => ∃ rings, CaptureInv block samples s rings)
    ⟨[], captureInv_start block samples silence⟩ ?_ ?_ ?_
  · rintro s ⟨rings, h⟩
    exact h.exactlyOnce hblock
  · rintro s call ⟨rings, h⟩ hwhole
    cases havail : call.avail with
    | none => exact ⟨rings, by simpa only [alsaRunOut, havail] using h⟩
    | some avail => exact ⟨_, h.run havail (hwhole avail havail)⟩
  · rintro s call ⟨rings, h⟩ honce avail havail
    by_contra hpart
    exact h.not_exactlyOnce hblock havail hpart honce

/-! ## Parts of blocks -/

/-- The calls that get as far as the sound card. -/
def reached (calls : List (RunOut Frame)) : ℕ := calls.countP fun call => call.avail.isSome

theorem CaptureInv.run_whole (h : CaptureInv block samples s rings) {calls : List (RunOut Frame)}
    (hwhole : Along (alsaRunOut block samples) (WholeRing samples) s calls) :
    ∃ rings', CaptureInv block samples (Lib.run (alsaRunOut block samples) s calls) rings' ∧
      rings'.length = rings.length + reached calls := by
  induction calls generalizing s rings with
  | nil => exact ⟨rings, h, rfl⟩
  | cons call calls ih =>
      obtain ⟨hcall, hrest⟩ := hwhole
      rw [run_cons]
      cases havail : call.avail with
      | none =>
          have hsame : alsaRunOut block samples s call = s := by simp only [alsaRunOut, havail]
          rw [hsame] at hrest ⊢
          obtain ⟨rings', hinv, hlength⟩ := ih h hrest
          exact ⟨rings', hinv, by simpa [reached, havail] using hlength⟩
      | some avail =>
          obtain ⟨rings', hinv, hlength⟩ := ih (h.run havail (hcall avail havail)) hrest
          refine ⟨rings', hinv, hlength.trans ?_⟩
          simp only [reached, List.length_append, List.length_singleton, List.countP_cons, havail,
            Option.isSome_some, if_true]
          omega

theorem length_flatten_of_forall {rows : List (List Frame)} {n : ℕ}
    (h : ∀ row ∈ rows, row.length = n) : rows.flatten.length = rows.length * n := by
  rw [List.length_flatten, List.map_congr_left h, List.map_const', List.sum_replicate_nat]

/-- Of every ring that is placed, the part of a block at its end is missing in the file, so
that the sound falls behind for good as soon as these parts are more than a ring. -/
theorem part_block_is_lost (block samples : ℕ) (silence : Frame) (calls : List (RunOut Frame))
    (hwhole : Along (alsaRunOut block samples) (WholeRing samples) (captureStart silence) calls)
    (hmany : samples < reached calls * (samples % block)) :
    ¬ ExactlyOnce samples (run (alsaRunOut block samples) (captureStart silence) calls) := by
  obtain ⟨rings, hinv, hcount⟩ := (captureInv_start block samples silence).run_whole hwhole
  have hdumped : ∀ dump ∈ rings.map (fwriteClose block), dump.length = samples / block * block := by
    intro dump hdump
    obtain ⟨ring, hring, rfl⟩ := List.mem_map.mp hdump
    rw [fwriteClose, List.length_take, hinv.whole ring hring]
    exact Nat.min_eq_left (Nat.div_mul_le_self samples block)
  rintro ⟨-, hle⟩
  rw [hinv.placed, hinv.dumps, length_flatten_of_forall hinv.whole,
    length_flatten_of_forall hdumped, List.length_map, hcount] at hle
  have hsplit : samples = samples / block * block + samples % block := (Nat.div_add_mod' ..).symm
  rw [List.length_nil, Nat.zero_add] at hle
  generalize reached calls = count at *
  have hcounted : count * samples =
      count * (samples / block * block) + count * (samples % block) := by
    rw [← Nat.mul_add, ← hsplit]
  omega

end

/-- A call that fills a ring of two frames, and the card takes them. -/
def fullRing (mixBuf : ℕ → Bool) : RunOut Bool := ⟨2, some 2, mixBuf, [.written 1]⟩

/-- Two rings of one block each. -/
theorem capture_two_rings :
    Everywhere (alsaRunOut 2 2) (ExactlyOnce 2) (captureStart false)
      [fullRing fun _ => true, fullRing fun j => j == 0] :=
  (capture_iff 2 2 (by decide) false _).mpr
    ⟨by simp [WholeRing, fullRing, captureStart], by
      intro avail havail
      obtain rfl := Option.some.inj havail
      decide, trivial⟩

/-- One frame to play, and the card takes it. -/
def oneFrame : RunOut Bool := ⟨1, some 1, fun _ => true, [.written 0]⟩

/-- With a ring of two frames, which is one block, its dump ends with a frame that nobody
played. -/
theorem silence_is_dumped :
    (alsaRunOut 2 2 (captureStart false) oneFrame).placed = [true] ∧
      (alsaRunOut 2 2 (captureStart false) oneFrame).dumps = [[true, false]] ∧
      ¬ ExactlyOnce 2 (alsaRunOut 2 2 (captureStart false) oneFrame) := by
  decide

end SsmIaas.Qemu
