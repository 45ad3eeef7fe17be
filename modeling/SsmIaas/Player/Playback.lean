import SsmIaas.Player.Pictures

/-!
# Playing a stream

The two halves of the player together: `receiveSocketMessage` of `jsmpg.js` copies pictures into
`buffer`, and `decodePicture` is called for what lies there, at times without output.  A picture
for which one animation frame too many was asked is decoded twice; the second call finds the
start code that ended the picture, and does nothing.  A third call would read on behind the
picture.

`pictures_shown`: if at most one animation frame is still to come when a message arrives, and
the parts that are cut out of the stream are pictures of the format, the frames that are decoded
show them, each with the one before as its reference.
-/

namespace SsmIaas.Player

open Lib

/-! ## The program -/

/-- The decoder with its `buffer`. -/
structure Screen where
  buffer : BitReader
  decoder : Decoder

/-- What is left of a longer picture stays behind the next one. -/
def Screen.call (s : Screen) : Call → Option Screen
  | .load chunk =>
      some { s with buffer := ⟨overwrite s.buffer.bytes chunk 0, chunk.length, 0⟩ }
  | .decodePicture skipOutput => do
      let (decoder, buffer) ←
        (decodePicture (8 * s.buffer.bytes.length + 1) skipOutput s.decoder).run s.buffer
      return ⟨buffer, decoder⟩

def Screen.play (s : Screen) (calls : List Call) : Option Screen := calls.foldlM Screen.call s

/-- The decoder of a player: `initBuffers ()` for the size in the header, and the calls since. -/
def Receiver.screen (size : ℕ) (s : Receiver) : Option Screen :=
  Screen.play
    ⟨⟨List.replicate size 0, size, 0⟩, initBuffers (s.width.getD 0) (s.height.getD 0)⟩ s.calls

/-! ## The order of the calls -/

/-- How far the player is with what lies in `buffer`. -/
inductive Phase
  /-- the zeros at the beginning -/
  | blank
  | loaded
  | once
  | twice
  deriving DecidableEq

/-- Calls that decode every picture once or twice, and the zeros in front of them once. -/
inductive Follows : List Call → List (List UInt8) → Phase → Prop
  | nothing : Follows [] [] .blank
  | zeros : Follows [.decodePicture true] [] .twice
  | load {calls : List Call} {chunks : List (List UInt8)} {phase : Phase}
      (h : Follows calls chunks phase) (hphase : phase = .once ∨ phase = .twice)
      (chunk : List UInt8) : Follows (calls ++ [.load chunk]) (chunks ++ [chunk]) .loaded
  | decode {calls : List Call} {chunks : List (List UInt8)} (h : Follows calls chunks .loaded)
      (skipOutput : Bool) : Follows (calls ++ [.decodePicture skipOutput]) chunks .once
  | again {calls : List Call} {chunks : List (List UInt8)} (h : Follows calls chunks .once)
      (skipOutput : Bool) : Follows (calls ++ [.decodePicture skipOutput]) chunks .twice

/-- How many calls of `scheduleDecoding` can still come. -/
def Phase.pending : Phase → ℕ
  | .blank => 0
  | .loaded => 2
  | .once => 1
  | .twice => 0

namespace Receiver

/-- At most one animation frame is still to come when the next message arrives. -/
def FewCalls (s : Receiver) : Event → Prop
  | .message _ => s.scheduled ≤ 1
  | .frame => True

instance (s : Receiver) : DecidablePred s.FewCalls
  | .message _ => by unfold FewCalls; infer_instance
  | .frame => isTrue trivial

structure CallsInv (s : Receiver) (phase : Phase) : Prop where
  follows : Follows s.calls s.pictures phase
  decoded : s.currentPictureDecoded = true ↔ phase = .once ∨ phase = .twice
  scheduled : s.scheduled ≤ phase.pending

variable {s t : Receiver} {phase : Phase}

theorem CallsInv.of_same (h : CallsInv s phase) (hsame : SameOutput s t) : CallsInv t phase := by
  obtain ⟨hfollows, hdecoded, hscheduled⟩ := h
  rw [← hsame.calls, ← hsame.pictures] at hfollows
  rw [← hsame.currentPictureDecoded] at hdecoded
  rw [← hsame.scheduled] at hscheduled
  exact ⟨hfollows, hdecoded, hscheduled⟩

/-- What was in `buffer` is decoded when the next picture comes. -/
theorem CallsInv.release (h : CallsInv s phase) :
    ∃ phase, (phase = .once ∨ phase = .twice) ∧
      Follows s.release.calls s.release.pictures phase ∧ s.release.scheduled = s.scheduled := by
  obtain ⟨hfollows, hdecoded, -⟩ := h
  unfold Receiver.release
  split
  · rename_i hflag
    exact ⟨phase, hdecoded.mp hflag, hfollows, rfl⟩
  · rename_i hflag
    rw [hdecoded] at hflag
    cases phase with
    | blank =>
        refine ⟨.twice, .inr rfl, ?_, rfl⟩
        dsimp only [decodePicture]
        generalize hcalls : s.calls = calls at hfollows
        generalize hpictures : s.pictures = pictures at hfollows
        cases hfollows
        exact .zeros
    | loaded => exact ⟨.once, .inl rfl, hfollows.decode true, rfl⟩
    | once => exact absurd (.inl rfl) hflag
    | twice => exact absurd (.inr rfl) hflag

theorem CallsInv.step {e : Event} (h : CallsInv s phase) (hinv : StreamInv s)
    (hroom : s.NoOverrun e) (hfew : s.FewCalls e) : ∃ phase, CallsInv (s.step e) phase := by
  cases e with
  | message data =>
      obtain ⟨t, hsame, hcases⟩ := receiveSocketMessage_cases s data
      have ht := h.of_same hsame
      show ∃ phase, CallsInv (s.receiveSocketMessage data) phase
      rcases hcases with heq | ⟨chunk, chunkEnd, heq⟩ | ⟨-, hnot⟩
      · exact ⟨phase, heq ▸ ht⟩
      · obtain ⟨phase', hphase, hfollows, hscheduled⟩ := ht.release
        refine ⟨.loaded, ?_⟩
        rw [heq]
        refine ⟨hfollows.load hphase chunk, by simp [hand], ?_⟩
        have hone : s.scheduled ≤ 1 := hfew
        rw [← hsame.scheduled] at hone
        dsimp only [hand, Phase.pending]
        omega
      · exact absurd ⟨hinv, hroom⟩ hnot
  | frame =>
      show ∃ phase, CallsInv (if s.scheduled = 0 then s
        else { s.scheduleDecoding with scheduled := s.scheduled - 1 }) phase
      split
      · exact ⟨phase, h⟩
      · rename_i hcall
        obtain ⟨hfollows, -, hscheduled⟩ := h
        cases phase with
        | blank => exact absurd (Nat.le_zero.mp hscheduled) hcall
        | loaded =>
            refine ⟨.once, hfollows.decode false, by simp [scheduleDecoding], ?_⟩
            dsimp only [Phase.pending] at hscheduled ⊢
            omega
        | once =>
            refine ⟨.twice, hfollows.again false, by simp [scheduleDecoding], ?_⟩
            dsimp only [Phase.pending] at hscheduled ⊢
            omega
        | twice => exact absurd (Nat.le_zero.mp hscheduled) hcall

theorem exists_follows (size : ℕ) (events : List Event)
    (h : Along Receiver.step (fun s e => s.NoOverrun e ∧ s.FewCalls e) (initSocketClient size)
      events) :
    ∃ phase, Follows (run Receiver.step (initSocketClient size) events).calls
      (run Receiver.step (initSocketClient size) events).pictures phase := by
  obtain ⟨-, phase, hcalls⟩ := h.invariant (I := fun s => StreamInv s ∧ ∃ phase, CallsInv s phase)
    ⟨streamInv_init size, .blank, .nothing, by simp [initSocketClient], le_rfl⟩
    fun s e hs hC => ⟨hs.1.step hC.1, hs.2.elim fun _ hphase => hphase.step hs.1 hC.1 hC.2⟩
  exact ⟨phase, hcalls.follows⟩

/-! ## The size of the pictures -/

/-- The header has come. -/
structure Sized (width height : ℕ) (s : Receiver) : Prop where
  started : s.sequenceStarted = true
  width : s.width = some width
  height : s.height = some height

variable {width height : ℕ}

theorem Sized.lookForPicture (h : Sized width height s) : Sized width height s.lookForPicture := by
  obtain ⟨hstarted, hwidth, hheight⟩ := h
  have htake : ∀ t : Receiver, Sized width height t → Sized width height t.takePicture := by
    intro t ht
    have hrelease : Sized width height t.release := by
      unfold release
      split
      · exact ht
      · exact ⟨ht.started, ht.width, ht.height⟩
    unfold takePicture
    dsimp only
    split_ifs
    · exact ⟨hrelease.started, hrelease.width, hrelease.height⟩
    · exact hrelease
    · exact ⟨hrelease.started, hrelease.width, hrelease.height⟩
  unfold Receiver.lookForPicture
  split
  · exact ⟨hstarted, hwidth, hheight⟩
  · exact ⟨hstarted, hwidth, hheight⟩
  · split
    · unfold testIntraFrame
      split
      · exact ⟨hstarted, hwidth, hheight⟩
      · exact ⟨hstarted, hwidth, hheight⟩
    · exact htake _ ⟨hstarted, hwidth, hheight⟩

theorem Sized.stored (h : Sized width height s) (data : List UInt8) :
    Sized width height (let s := s.makeRoom data.length
      if s.next.writePos + data.length > s.next.bytes.length then s
      else (s.store data).lookForPicture) := by
  have hroom : Sized width height (s.makeRoom data.length) := by
    unfold makeRoom
    split
    · exact ⟨h.started, h.width, h.height⟩
    · exact h
  dsimp only
  split
  · exact hroom
  · exact Sized.lookForPicture ⟨hroom.started, hroom.width, hroom.height⟩

theorem Sized.step (h : Sized width height s) (e : Event) : Sized width height (s.step e) := by
  cases e with
  | message data =>
      show Sized width height (s.receiveSocketMessage data)
      unfold receiveSocketMessage
      rw [if_pos h.started]
      exact h.stored data
  | frame =>
      show Sized width height (if s.scheduled = 0 then s
        else { s.scheduleDecoding with scheduled := s.scheduled - 1 })
      split
      · exact h
      · exact ⟨h.started, h.width, h.height⟩

/-- A player whose first message is the header has the size in it. -/
theorem sized_run (size : ℕ) {header : List UInt8} (hheader : header.take 4 = socketMagicBytes)
    (hwidth : sizeField header 4 = some width) (hheight : sizeField header 6 = some height)
    (events : List Event) :
    Sized width height (run Receiver.step (initSocketClient size) (.message header :: events)) := by
  have hdecoded : Sized width height ((initSocketClient size).decodeSocketHeader header) := by
    rw [decodeSocketHeader, if_pos hheader]
    exact ⟨rfl, hwidth, hheight⟩
  rw [run_cons]
  exact run_invariant events (hdecoded.stored header) fun s e h => h.step e

end Receiver

/-! ## What the calls show -/

/-- Frames that show pictures, each with the one before as its reference, and the reference for
the next. -/
inductive Meant (q : Sequence) (start : Frame) :
    List CodedPicture → List Frame → Frame → Prop
  | nil : Meant q start [] [] start
  | snoc {pics : List CodedPicture} {frames : List Frame} {reference frame : Frame}
      {pic : CodedPicture} (h : Meant q start pics frames reference)
      (hshows : Shows q reference pic frame) :
      Meant q start (pics ++ [pic]) (frames ++ [frame]) frame

theorem Meant.length_eq {q : Sequence} {start reference : Frame} {pics : List CodedPicture}
    {frames : List Frame} (h : Meant q start pics frames reference) :
    pics.length = frames.length := by
  induction h with
  | nil => rfl
  | snoc _ _ ih => rw [List.length_append, List.length_append, ih]; rfl

structure Screen.Sound (q : Sequence) (pics : List CodedPicture) (screen : Screen) : Prop where
  sequence : screen.decoder.sequence = q
  current : screen.decoder.current.Fits q.mbWidth q.mbHeight
  forward : screen.decoder.forward.Fits q.mbWidth q.mbHeight
  meant : Meant q q.blank pics (screen.decoder.frames.map Prod.fst) screen.decoder.forward

/-- What lies in `buffer`, and which pictures were decoded. -/
inductive Screen.Reaches (q : Sequence) (pics : List CodedPicture) (screen : Screen) :
    Phase → Prop
  | blank (h : screen.Sound q pics) : screen.Reaches q pics .blank
  | loaded {earlier : List CodedPicture} {pic : CodedPicture} {chunk behind : List UInt8} {i e : ℕ}
      (hpics : pics = earlier ++ [pic]) (h : screen.Sound q earlier)
      (hpicture : PictureAt q chunk pic i e) (hcomplete : pic.Complete q)
      (hbuffer : screen.buffer = readerOf chunk behind 0) : screen.Reaches q pics .loaded
  | once {chunk behind : List UInt8} {e : ℕ} {code : UInt8} (h : screen.Sound q pics)
      (hcode : CodeAt chunk e code) (hbuffer : screen.buffer = readerOf chunk behind (8 * e)) :
      screen.Reaches q pics .once
  | twice (h : screen.Sound q pics) : screen.Reaches q pics .twice

section

variable {q : Sequence} {pics : List CodedPicture} {screen : Screen}

theorem play_snoc {start : Screen} {calls : List Call} (hplay : start.play calls = some screen)
    (call : Call) : start.play (calls ++ [call]) = screen.call call := by
  rw [Screen.play, List.foldlM_append, ← Screen.play, hplay]
  simp

theorem Screen.Reaches.load {phase : Phase} {pic : CodedPicture} {chunk : List UInt8}
    (h : screen.Reaches q pics phase) (hphase : phase = .once ∨ phase = .twice)
    (hencodes : Encodes q chunk pic) (hcomplete : pic.Complete q) :
    ∃ next, screen.call (.load chunk) = some next ∧ next.Reaches q (pics ++ [pic]) .loaded := by
  have hsound : screen.Sound q pics := by
    rcases hphase with rfl | rfl
    · cases h with
      | once h => exact h
    · cases h with
      | twice h => exact h
  obtain ⟨i, e, hpicture⟩ := hencodes
  have hbuffer : (⟨overwrite screen.buffer.bytes chunk 0, chunk.length, 0⟩ : BitReader) =
      readerOf chunk (screen.buffer.bytes.drop chunk.length) 0 := by
    simp [overwrite, readerOf]
  exact ⟨_, rfl, .loaded rfl ⟨hsound.sequence, hsound.current, hsound.forward, hsound.meant⟩
    hpicture hcomplete hbuffer⟩

theorem Screen.Reaches.decode (h : screen.Reaches q pics .loaded) (skipOutput : Bool) :
    ∃ next, screen.call (.decodePicture skipOutput) = some next ∧ next.Reaches q pics .once := by
  cases h with | @loaded earlier pic chunk behind i e hpics h hpicture hcomplete hbuffer =>
  obtain ⟨hsequence, hcurrent, hforward, hmeant⟩ := h
  subst hpics hsequence
  have hlength : chunk.length ≤ screen.buffer.bytes.length := by
    rw [hbuffer, readerOf, List.length_append]
    omega
  obtain ⟨d, hrun, hsequence, hnext, hframes, hdrawn⟩ := run_decodePicture hpicture behind hcurrent
    (show _ < 8 * screen.buffer.bytes.length + 1 by omega) skipOutput
  obtain ⟨-, code, hcode, -⟩ := hpicture.slices.le
  have hshows := hdrawn.shows hpicture hcomplete hcurrent
  rw [← hbuffer] at hrun
  refine ⟨⟨readerOf chunk behind (8 * e), d⟩, ?_,
    .once ⟨hsequence, hnext ▸ hforward, hdrawn.fits, ?_⟩ hcode rfl⟩
  · rw [Screen.call, hrun]
    rfl
  · dsimp only
    rw [hframes, List.map_append]
    exact hmeant.snoc hshows

theorem Screen.Reaches.again (h : screen.Reaches q pics .once) (skipOutput : Bool) :
    ∃ next, screen.call (.decodePicture skipOutput) = some next ∧ next.Reaches q pics .twice := by
  cases h with | @once chunk behind e code h hcode hbuffer =>
  have hrun := run_decodePicture_again hcode behind screen.decoder
    (8 * screen.buffer.bytes.length + 1) skipOutput
  rw [← hbuffer] at hrun
  refine ⟨⟨readerOf chunk behind (8 * e + 29), screen.decoder⟩, ?_,
    .twice ⟨h.sequence, h.current, h.forward, h.meant⟩⟩
  rw [Screen.call, hrun]
  rfl

end

theorem Sequence.fits_blank (q : Sequence) : q.blank.Fits q.mbWidth q.mbHeight := by
  have hquarter : 16 * q.mbWidth * (16 * q.mbHeight) / 4 = 8 * q.mbWidth * (8 * q.mbHeight) := by
    rw [show 16 * q.mbWidth * (16 * q.mbHeight) = 4 * (8 * q.mbWidth * (8 * q.mbHeight)) by ring]
    exact Nat.mul_div_cancel_left _ (by decide)
  refine ⟨List.length_replicate, ?_, ?_⟩
  · rw [← hquarter]
    exact List.length_replicate
  · rw [← hquarter]
    exact List.length_replicate

theorem forall₂_snoc_left {α β : Type*} {R : α → β → Prop} {l : List α} {a : α} {m : List β}
    (h : List.Forall₂ R (l ++ [a]) m) :
    ∃ front b, m = front ++ [b] ∧ List.Forall₂ R l front ∧ R a b := by
  induction l generalizing m with
  | nil =>
      obtain ⟨b, rest, hab, hrest, rfl⟩ := List.forall₂_cons_left_iff.mp h
      obtain rfl := List.forall₂_nil_left_iff.mp hrest
      exact ⟨[], b, rfl, .nil, hab⟩
  | cons c l ih =>
      obtain ⟨b, rest, hcb, hrest, rfl⟩ := List.forall₂_cons_left_iff.mp h
      obtain ⟨front, d, rfl, hfront, had⟩ := ih hrest
      exact ⟨b :: front, d, rfl, .cons hcb hfront, had⟩

/-- Calls in this order show the pictures. -/
theorem Follows.play {calls : List Call} {chunks : List (List UInt8)} {phase : Phase}
    (h : Follows calls chunks phase) (size width height : ℕ) {pics : List CodedPicture}
    (hpics : List.Forall₂ (Encodes (Sequence.ofSize width height)) chunks pics)
    (hcomplete : ∀ pic ∈ pics, pic.Complete (Sequence.ofSize width height)) :
    ∃ screen, Screen.play ⟨⟨List.replicate size 0, size, 0⟩, initBuffers width height⟩ calls =
        some screen ∧ screen.Reaches (Sequence.ofSize width height) pics phase := by
  have hblank := (Sequence.ofSize width height).fits_blank
  induction h generalizing pics with
  | nothing =>
      obtain rfl := List.forall₂_nil_left_iff.mp hpics
      exact ⟨_, rfl, .blank ⟨rfl, hblank, hblank, .nil⟩⟩
  | zeros =>
      obtain rfl := List.forall₂_nil_left_iff.mp hpics
      have htype : ((⟨List.replicate size 0, size, 0⟩ : BitReader).skip 10).Ahead (toBits 3 0) := by
        have hfield := bitField_byte (List.replicate size 0) 1 (show 2 + 3 ≤ 8 by decide)
        have hzero : (List.replicate size (0 : UInt8)).getD 1 0 = 0 := by
          rw [List.getD_eq_getElem?_getD, List.getElem?_replicate]
          split <;> rfl
        rw [hzero] at hfield
        exact hfield
      refine ⟨⟨BitReader.skip ⟨List.replicate size 0, size, 0⟩ 29, initBuffers width height⟩, ?_,
        .twice ⟨rfl, hblank, hblank, .nil⟩⟩
      rw [Screen.play, List.foldlM_cons, Screen.call, run_decodePicture_zero htype]
      rfl
  | load h hphase chunk ih =>
      obtain ⟨earlier, pic, rfl, hearlier, hpic⟩ := forall₂_snoc_left hpics
      obtain ⟨screen, hplay, hreaches⟩ := ih hearlier
        fun other hother => hcomplete other (List.mem_append_left _ hother)
      obtain ⟨next, hcall, hnext⟩ := hreaches.load hphase hpic (hcomplete pic (by simp))
      exact ⟨next, (play_snoc hplay _).trans hcall, hnext⟩
  | decode h skipOutput ih =>
      obtain ⟨screen, hplay, hreaches⟩ := ih hpics hcomplete
      obtain ⟨next, hcall, hnext⟩ := hreaches.decode skipOutput
      exact ⟨next, (play_snoc hplay _).trans hcall, hnext⟩
  | again h skipOutput ih =>
      obtain ⟨screen, hplay, hreaches⟩ := ih hpics hcomplete
      obtain ⟨next, hcall, hnext⟩ := hreaches.again skipOutput
      exact ⟨next, (play_snoc hplay _).trans hcall, hnext⟩

/-- **Playing a stream.**  In every run that begins with the header, in which the buffer is not
overrun and at most one animation frame is still to come when a message arrives: if each part
that was cut out of the stream encodes a complete picture, the frames that were decoded show
these pictures, all but at most the last, in order and each with the frame before as its
reference. -/
theorem pictures_shown (size : ℕ) {header : List UInt8} {width height : ℕ}
    (hheader : header.take 4 = Receiver.socketMagicBytes)
    (hwidth : Receiver.sizeField header 4 = some width)
    (hheight : Receiver.sizeField header 6 = some height) (events : List Receiver.Event)
    (h : Along Receiver.step (fun s e => s.NoOverrun e ∧ s.FewCalls e)
      (Receiver.initSocketClient size) (.message header :: events)) {pics : List CodedPicture}
    (hpics : List.Forall₂ (Encodes (Sequence.ofSize width height))
      (run Receiver.step (Receiver.initSocketClient size) (.message header :: events)).pictures
      pics)
    (hcomplete : ∀ pic ∈ pics, pic.Complete (Sequence.ofSize width height)) :
    ∃ screen shown,
      (run Receiver.step (Receiver.initSocketClient size) (.message header :: events)).screen size =
        some screen ∧
      shown <+: pics ∧ pics.length ≤ shown.length + 1 ∧
      Meant (Sequence.ofSize width height) (Sequence.ofSize width height).blank shown
        (screen.decoder.frames.map Prod.fst) screen.decoder.forward := by
  have hsized := Receiver.sized_run size hheader hwidth hheight events
  obtain ⟨phase, hfollows⟩ := Receiver.exists_follows size _ h
  obtain ⟨screen, hplay, hreaches⟩ := hfollows.play size width height hpics hcomplete
  have hscreen : (run Receiver.step (Receiver.initSocketClient size)
      (.message header :: events)).screen size = some screen := by
    rw [Receiver.screen, hsized.width, hsized.height]
    exact hplay
  cases hreaches with
  | blank hsound => exact ⟨screen, pics, hscreen, List.prefix_rfl, by omega, hsound.meant⟩
  | loaded hpics' hsound =>
      subst hpics'
      exact ⟨screen, _, hscreen, List.prefix_append _ _, by simp, hsound.meant⟩
  | once hsound => exact ⟨screen, pics, hscreen, List.prefix_rfl, by omega, hsound.meant⟩
  | twice hsound => exact ⟨screen, pics, hscreen, List.prefix_rfl, by omega, hsound.meant⟩

/-- A picture of one grey macroblock. -/
def greyPicture : CodedPicture :=
  ⟨0, 0, .intra, [⟨1, 8, [], [⟨0, 8, true, none, fun _ => some ⟨128, []⟩⟩],
    [toBits 2 3 ++ (toBits 20 0x94a52 ++ toBits 8 0x22)]⟩]⟩

/-- Its bytes, up to the start code of the next picture. -/
def greyBytes : List UInt8 :=
  [0, 8, 0, 0, 0, 0, 1, 1, 0x43, 0x94, 0xa5, 0x22, 0x20, 0, 0, 1, 0]

theorem encodes_grey : Encodes (Sequence.ofSize 16 16) greyBytes greyPicture := by
  have hluma : DcCode (dcSizeTable 0) 0 (toBits 3 4) := .zero (by decide +kernel)
  have hchroma : DcCode (dcSizeTable 4) 0 (toBits 2 0) := .zero (by decide +kernel)
  have hblocks : BlocksCode true (fun _ => some ⟨128, []⟩) [0, 1, 2, 3, 4, 5] resetPredictors
      ((toBits 3 4 ++ [true, false]) ++ ((toBits 3 4 ++ [true, false]) ++
        ((toBits 3 4 ++ [true, false]) ++ ((toBits 3 4 ++ [true, false]) ++
          ((toBits 2 0 ++ [true, false]) ++ ((toBits 2 0 ++ [true, false]) ++ [])))))) :=
    .coded rfl (.intra hluma .done) (.coded rfl (.intra hluma .done)
      (.coded rfl (.intra hluma .done) (.coded rfl (.intra hluma .done)
        (.coded rfl (.intra hchroma .done) (.coded rfl (.intra hchroma .done) .nil)))))
  have hmacroblock := @MacroblockCode.mk ((Sequence.ofSize 16 16).announced .intra)
    (firstCoder ((Sequence.ofSize 16 16).announced .intra) 1 8)
    ⟨0, 8, true, none, fun _ => some ⟨128, []⟩⟩ 1 1 0x3f (toBits 1 1) (toBits 1 1) [] [] [] _
    (.code (.last (by decide) (by decide +kernel))) (by decide) (by decide) (by decide)
    (by decide +kernel) rfl (by decide) (.kept rfl) rfl .implied (by decide) hblocks
  exact ⟨4, 13, by decide +kernel, .here (by decide) (by decide +kernel)
      (show CodeAt greyBytes 4 1 by decide +kernel) rfl,
    .slice (by decide +kernel) ⟨rfl, by decide, .cons hmacroblock .nil, by decide⟩
      (by decide +kernel) (show BitReader.nextBytesAreStartCode _ = true by decide +kernel)
      (.done (show CodeAt greyBytes 13 0 by decide +kernel) rfl)⟩

/-- A header and the picture, in two messages. -/
def greyStream : List Receiver.Event :=
  [.message [0x6a, 0x73, 0x6d, 0x70, 0, 16, 0, 16],
    .message (Receiver.pictureStart ++ [0, 8, 0, 0]),
    .message (greyBytes.drop 4), .frame]

def greyFrame : Frame := ⟨List.replicate 256 128, List.replicate 64 128, List.replicate 64 128⟩

/-- One frame is decoded: it is grey all over, and shows the picture. -/
theorem pictures_shown_grey :
    (run Receiver.step (Receiver.initSocketClient 64) greyStream).pictures = [greyBytes] ∧
      ∃ screen,
        (run Receiver.step (Receiver.initSocketClient 64) greyStream).screen 64 = some screen ∧
        screen.decoder.frames = [(greyFrame, true)] ∧
        Meant (Sequence.ofSize 16 16) (Sequence.ofSize 16 16).blank [greyPicture]
          (screen.decoder.frames.map Prod.fst) screen.decoder.forward := by
  have hcut : (run Receiver.step (Receiver.initSocketClient 64) greyStream).pictures =
      [greyBytes] := by decide +kernel
  have hpics : List.Forall₂ (Encodes (Sequence.ofSize 16 16))
      (run Receiver.step (Receiver.initSocketClient 64) greyStream).pictures [greyPicture] := by
    rw [hcut]
    exact .cons encodes_grey .nil
  obtain ⟨screen, shown, hscreen, hshown, -, hmeant⟩ := pictures_shown 64 (by decide) (by decide)
    (by decide) greyStream.tail (by decide +kernel) hpics (by decide +kernel)
  replace hscreen : (run Receiver.step (Receiver.initSocketClient 64) greyStream).screen 64 =
      some screen := hscreen
  have hframes : screen.decoder.frames = [(greyFrame, true)] := by
    have hdecoded : ((run Receiver.step (Receiver.initSocketClient 64) greyStream).screen 64).map
        (fun screen => screen.decoder.frames) = some [(greyFrame, true)] := by decide +kernel
    rw [hscreen] at hdecoded
    exact Option.some.inj hdecoded
  obtain rfl : shown = [greyPicture] := by
    refine hshown.eq_of_length ?_
    rw [hmeant.length_eq, hframes]
    rfl
  exact ⟨hcut, screen, hscreen, hframes, hmeant⟩

end SsmIaas.Player
