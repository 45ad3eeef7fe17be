import Mathlib.Data.List.Nodup
import Mathlib.Data.List.TakeDrop
import SsmIaas.Lib.CString
import SsmIaas.Lib.Run

/-!
# Playing the sound

`audio_stream.js` collects the bytes it gets until there are enough to decode.  The batch is
decoded in the background; when that is done a callback appends the samples to the global
`AudioBuffer` and plays the result.  The buffer is made silent again when a batch fills up,
not when one has been played.  So two callbacks without a batch that fills up in between play
the first batch twice, the second time in front of the other one.

`exactly_once_iff` says that nothing else goes wrong with sound of one or two channels.
-/

namespace SsmIaas.WebServer

open Lib

variable {Sample : Type*}

/-! ## Buffers -/

/-- An `AudioBuffer` of the Web Audio API: it has at least one channel and one frame. -/
structure AudioBuffer (Sample : Type*) where
  length : ℕ
  channels : List (List Sample)
  length_pos : 0 < length
  channels_ne : channels ≠ []
  length_eq : ∀ channel ∈ channels, channel.length = length

namespace AudioBuffer

/-- `context.createBuffer ()`: silence. -/
def createBuffer [Zero Sample] (numberOfChannels length : ℕ) (hchannels : numberOfChannels ≠ 0)
    (hlength : 0 < length) : AudioBuffer Sample where
  length := length
  channels := List.replicate numberOfChannels (List.replicate length 0)
  length_pos := hlength
  channels_ne := by simpa using hchannels
  length_eq := by
    intro channel hmem
    rw [(List.mem_replicate.mp hmem).2, List.length_replicate]

/-- `appendBuffer ()`.  The result has as many channels as the buffer that has fewer. -/
def appendBuffer (buffer1 buffer2 : AudioBuffer Sample) : AudioBuffer Sample where
  length := buffer1.length + buffer2.length
  channels := List.zipWith (· ++ ·) buffer1.channels buffer2.channels
  length_pos := Nat.add_pos_left buffer1.length_pos _
  channels_ne := by simp [buffer1.channels_ne, buffer2.channels_ne]
  length_eq := by
    intro channel hmem
    rw [← List.map_uncurry_zip_eq_zipWith] at hmem
    obtain ⟨⟨channel1, channel2⟩, hzip, rfl⟩ := List.mem_map.mp hmem
    obtain ⟨hmem1, hmem2⟩ := List.of_mem_zip hzip
    simp [buffer1.length_eq _ hmem1, buffer2.length_eq _ hmem2]

/-- The buffer that the page starts with. -/
def silence [Zero Sample] : AudioBuffer Sample := createBuffer 2 4096 (by decide) (by decide)

/-- 4096 silent frames of one channel. -/
def pause [Zero Sample] : List Sample := List.replicate 4096 0

/-- What should be played for some samples: silence, and then the samples. -/
def pauseThen [Zero Sample] (decoded : AudioBuffer Sample) : List (List Sample) :=
  decoded.channels.map (pause ++ ·)

theorem length_pause [Zero Sample] : (pause : List Sample).length = 4096 := List.length_replicate

theorem channels_silence [Zero Sample] :
    (silence : AudioBuffer Sample).channels = [pause, pause] := rfl

theorem channels_append_silence [Zero Sample] (decoded : AudioBuffer Sample) :
    (silence.appendBuffer decoded).channels = decoded.pauseThen.take 2 := by
  -- the channels of silence run out after two
  rcases decoded with ⟨length, _ | ⟨left, _ | ⟨right, others⟩⟩, -, -, -⟩ <;>
    simp [appendBuffer, channels_silence, pauseThen]

/-- Only a buffer as long as the silence can stand in its place. -/
theorem length_of_channels_append [Zero Sample] {buffer decoded : AudioBuffer Sample}
    (h : (buffer.appendBuffer decoded).channels = decoded.pauseThen) : buffer.length = 4096 := by
  obtain ⟨first, rest, hbuffer⟩ := List.exists_cons_of_ne_nil buffer.channels_ne
  obtain ⟨first', rest', hdecoded⟩ := List.exists_cons_of_ne_nil decoded.channels_ne
  have hhead : first ++ first' = pause ++ first' := by
    simp only [appendBuffer, pauseThen, hbuffer, hdecoded, List.zipWith_cons_cons,
      List.map_cons, List.cons.injEq] at h
    exact h.1
  rw [← buffer.length_eq first (by simp [hbuffer]), List.append_cancel_right hhead,
    length_pause]

end AudioBuffer

open AudioBuffer

/-! ## The page -/

/-- An `AudioSource` that was started. -/
structure StartedSource (Sample : Type*) where
  /-- the batch whose callback started it -/
  batch : ℕ
  /-- the samples of that batch -/
  decoded : AudioBuffer Sample
  /-- what is played -/
  buffer : AudioBuffer Sample

structure AudioPage (Sample : Type*) where
  /-- `data_buffer` -/
  dataBuffer : Bytes
  /-- `AudioBuffer` -/
  audioBuffer : AudioBuffer Sample
  /-- what `decodeAudioData ()` was called with -/
  batches : List Bytes
  started : List (StartedSource Sample)
  /-- ghost: a callback was called since the last batch filled up -/
  appended : Bool

inductive AudioPageEvent (Sample : Type*)
  /-- The stream has the event `data`. -/
  | data (chunk : Bytes)
  /-- The callback is called for a batch. -/
  | decoded (batch : ℕ) (res : AudioBuffer Sample)

namespace AudioPage

variable [Zero Sample]

def init : AudioPage Sample := ⟨[], silence, [], [], false⟩

/-- The batch is being decoded. -/
def Pending (page : AudioPage Sample) (batch : ℕ) : Prop :=
  batch < page.batches.length ∧ batch ∉ page.started.map StartedSource.batch

instance (page : AudioPage Sample) (batch : ℕ) : Decidable (page.Pending batch) :=
  inferInstanceAs (Decidable (_ ∧ _))

/-- The handler of `data`. -/
def receive (page : AudioPage Sample) (chunk : Bytes) : AudioPage Sample :=
  let dataBuffer := page.dataBuffer ++ chunk
  if 418 * 20 < dataBuffer.length then
    { page with
      dataBuffer := []
      audioBuffer := silence
      batches := page.batches ++ [dataBuffer]
      appended := false }
  else { page with dataBuffer }

/-- The callback of `decodeAudioData ()`. -/
def play (page : AudioPage Sample) (batch : ℕ) (res : AudioBuffer Sample) : AudioPage Sample :=
  let audioBuffer := page.audioBuffer.appendBuffer res
  { page with
    audioBuffer
    started := page.started ++ [⟨batch, res, audioBuffer⟩]
    appended := true }

/-- One event.  The callback of a batch is called once at most, after the batch has filled
up. -/
def step (page : AudioPage Sample) : AudioPageEvent Sample → AudioPage Sample
  | .data chunk => page.receive chunk
  | .decoded batch res => if page.Pending batch then page.play batch res else page

/-! ## What should hold, and when it does -/

/-- No batch starts two sources, and each source plays its own samples and no others. -/
structure ExactlyOnce (page : AudioPage Sample) : Prop where
  once : (page.started.map StartedSource.batch).Nodup
  own : ∀ source ∈ page.started, source.buffer.channels = source.decoded.pauseThen

/-- A batch has filled up since the last callback, and the samples are mono or stereo. -/
def Apart (page : AudioPage Sample) : AudioPageEvent Sample → Prop
  | .data _ => True
  | .decoded batch res =>
      page.Pending batch → page.appended = false ∧ res.channels.length ≤ 2

/-- What is in `AudioBuffer`: silence, or something longer. -/
structure PageBufferInv (page : AudioPage Sample) : Prop where
  exactlyOnce : page.ExactlyOnce
  silent : page.appended = false → page.audioBuffer = silence
  longer : page.appended = true → 4096 < page.audioBuffer.length

variable {page : AudioPage Sample}

theorem pageBufferInv_init : PageBufferInv (init : AudioPage Sample) :=
  ⟨⟨by simp [init], by simp [init]⟩, fun _ => rfl, by simp [init]⟩

theorem PageBufferInv.receive (h : PageBufferInv page) (chunk : Bytes) :
    PageBufferInv (page.receive chunk) := by
  unfold AudioPage.receive
  dsimp only
  split
  · exact ⟨⟨h.exactlyOnce.once, h.exactlyOnce.own⟩, fun _ => rfl, by simp⟩
  · exact ⟨⟨h.exactlyOnce.once, h.exactlyOnce.own⟩, h.silent, h.longer⟩

/-- The buffer is never shorter than silence, and a callback makes it longer. -/
theorem PageBufferInv.le_length (h : PageBufferInv page) : 4096 ≤ page.audioBuffer.length := by
  cases happended : page.appended with
  | false =>
      rw [h.silent happended]
      exact le_rfl
  | true => exact (h.longer happended).le

/-- A callback plays what it should exactly if the buffer is silent and has enough channels. -/
theorem channels_play_iff (h : PageBufferInv page) (res : AudioBuffer Sample) :
    (page.audioBuffer.appendBuffer res).channels = res.pauseThen ↔
      page.appended = false ∧ res.channels.length ≤ 2 := by
  cases happended : page.appended with
  | true =>
      have hlonger := h.longer happended
      simp only [Bool.true_eq_false, false_and, iff_false]
      intro hchannels
      exact absurd (length_of_channels_append hchannels) hlonger.ne'
  | false =>
      rw [h.silent happended, channels_append_silence, List.take_eq_self_iff]
      simp [pauseThen]

theorem PageBufferInv.play_iff (h : PageBufferInv page) {batch : ℕ} (hbatch : page.Pending batch)
    (res : AudioBuffer Sample) :
    (page.play batch res).ExactlyOnce ↔ page.appended = false ∧ res.channels.length ≤ 2 := by
  rw [← channels_play_iff h]
  refine ⟨fun honce => ?_, fun hchannels => ⟨?_, ?_⟩⟩
  · exact honce.own ⟨batch, res, page.audioBuffer.appendBuffer res⟩ (by simp [play])
  · simp only [play, List.map_append, List.map_cons, List.map_nil]
    rw [← List.concat_eq_append, List.nodup_concat]
    exact ⟨hbatch.2, h.exactlyOnce.once⟩
  · intro source hsource
    rcases List.mem_append.mp hsource with hold | hnew
    · exact h.exactlyOnce.own source hold
    · rw [List.mem_singleton.mp hnew]
      exact hchannels

theorem pageBufferInv_step (page : AudioPage Sample) (event : AudioPageEvent Sample)
    (h : PageBufferInv page) (hapart : page.Apart event) : PageBufferInv (page.step event) := by
  cases event with
  | data chunk => exact h.receive chunk
  | decoded batch res =>
      by_cases hbatch : page.Pending batch
      · have honce := (h.play_iff hbatch res).mpr (hapart hbatch)
        rw [step, if_pos hbatch]
        refine ⟨honce, by simp [play], fun _ => ?_⟩
        exact lt_add_of_le_of_pos h.le_length res.length_pos
      · rwa [step, if_neg hbatch]

theorem apart_of_exactlyOnce (page : AudioPage Sample) (event : AudioPageEvent Sample)
    (h : PageBufferInv page) (honce : (page.step event).ExactlyOnce) : page.Apart event := by
  cases event with
  | data chunk => trivial
  | decoded batch res =>
      intro hbatch
      rw [step, if_pos hbatch] at honce
      exact (h.play_iff hbatch res).mp honce

/-- **Exactly once.**  Every source plays silence and the samples of its own batch, exactly
if between two callbacks there is always a batch that fills up, and all samples are mono or
stereo. -/
theorem exactly_once_iff (events : List (AudioPageEvent Sample)) :
    Everywhere step ExactlyOnce init events ↔ Along step Apart init events :=
  everywhere_iff_of_invariant pageBufferInv_init (fun _ h => h.exactlyOnce) pageBufferInv_step
    apart_of_exactlyOnce

end AudioPage

/-- One frame of mono sound. -/
def oneFrame (sample : ℕ) : AudioBuffer ℕ := ⟨1, [[sample]], by decide, by simp, by simp⟩

/-- Two batches fill up before the first one is decoded: the second source plays both. -/
theorem second_callback_replays :
    let batch : Bytes := List.replicate 8361 0
    let page := run AudioPage.step AudioPage.init
      [.data batch, .data batch, .decoded 0 (oneFrame 1), .decoded 1 (oneFrame 2)]
    page.started.map (fun source => source.buffer.channels) =
        [[pause ++ [1]], [pause ++ [1, 2]]] ∧
      ¬ page.ExactlyOnce := by
  intro batch page
  have hbatch : 418 * 20 < batch.length := by
    rw [List.length_replicate]
    decide
  have hstarted : page.started =
      [⟨0, oneFrame 1, silence.appendBuffer (oneFrame 1)⟩,
        ⟨1, oneFrame 2, (silence.appendBuffer (oneFrame 1)).appendBuffer (oneFrame 2)⟩] := by
    simp [page, AudioPage.step, AudioPage.receive, AudioPage.init, AudioPage.Pending,
      AudioPage.play, hbatch]
  refine ⟨?_, fun hplayed => ?_⟩
  · simp [hstarted, appendBuffer, channels_silence, oneFrame]
  · have honce := hplayed.own
    rw [hstarted] at honce
    have hown := honce _ (List.mem_cons_of_mem _ (List.mem_singleton_self _))
    exact absurd (length_of_channels_append hown) (by decide)

end SsmIaas.WebServer
