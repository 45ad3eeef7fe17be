import SsmIaas.Lib.Run
import SsmIaas.Lib.Segment
import SsmIaas.Player.BitReader

/-!
# Cutting the stream into pictures

The video comes in WebSocket messages that know nothing of pictures.  The player
(`receiveSocketMessage` of `jsmpg.js`) writes them into `nextPictureBuffer`, from the start
again when a message no longer fits, and looks there for the start code of the next picture.
What lies between two of them is copied into `buffer`, to be decoded with the next animation
frame, or when the next picture is there if that comes first.

Nothing in the player keeps a message from being written over bytes that still wait to be
copied.  `pictures_consecutive`: as long as that does not happen (`NoOverrun`), the pictures
are consecutive parts of the stream, cut right behind start codes.  At most one picture is
copied for a message, and start codes in front of a wrap are not found; the parts are then
longer, but nothing is missing between them.

`pictures_decoded` is about the animation frames: no picture is overwritten before it was
decoded, and if the frames keep up each is decoded once.
-/

namespace SsmIaas.Player

open Lib

/-! ## The program -/

/-- The three bytes in front of every start code. -/
def BitReader.startCodeAt (r : BitReader) (i : ℕ) : Bool :=
  r.bytes[i]? == some 0 && r.bytes[i + 1]? == some 0 && r.bytes[i + 2]? == some 1

/-- `findNextMPEGStartCode ()`, with `none` for `NOT_FOUND`.  The byte that says which code it
is can be `undefined`. -/
def BitReader.findNextMPEGStartCode (r : BitReader) : Option (Option UInt8) × BitReader :=
  let first := (r.index + 7) / 8
  match (List.range' first (r.writePos - first)).find? r.startCodeAt with
  | some i => (some r.bytes[i + 3]?, { r with index := (i + 4) * 8 })
  | none => (none, { r with index := r.writePos * 8 })

/-- Back a few bytes, in case they begin a start code. -/
def BitReader.stepBack (r : BitReader) : BitReader := { r with index := (r.writePos - 3) * 8 }

/-- The loop that looks for a picture: if there is one, and the position to go on from. -/
def BitReader.findPicture : ℕ → BitReader → Option (Bool × BitReader)
  | 0, _ => none
  | fuel + 1, r =>
      match r.findNextMPEGStartCode with
      | (none, next) => some (false, next.stepBack)
      | (some startCode, next) =>
          if next.index / 8 > next.writePos then some (false, next.stepBack)
          else if startCode = some 0 then some (true, next)
          else findPicture fuel next

/-- What is done with `buffer`. -/
inductive Call
  /-- a picture is copied into it -/
  | load (chunk : List UInt8)
  | decodePicture (skipOutput : Bool)
  deriving DecidableEq, Repr

/-- A player that is fed by a WebSocket. -/
structure Receiver where
  sequenceStarted : Bool
  /-- `none` if it is `undefined` or `NaN` -/
  width : Option ℕ
  height : Option ℕ
  waitForIntraFrame : Bool
  /-- `nextPictureBuffer` -/
  next : BitReader
  chunkBegin : ℕ
  lastWriteBeforeWrap : ℕ
  /-- the bytes of `buffer` below its `writePos` -/
  current : List UInt8
  currentPictureDecoded : Bool
  /-- the calls of `scheduleDecoding` that are still to come -/
  scheduled : ℕ
  /-- what `buffer` held at each call of `decodePicture` -/
  decodes : List (List UInt8)
  /-- what was done with `buffer` up to now -/
  calls : List Call
  /-- ghost: the bytes that came -/
  received : List UInt8
  /-- ghost: the pictures that were put into `buffer` -/
  pictures : List (List UInt8)
  deriving DecidableEq, Repr

namespace Receiver

/-- `initSocketClient`, with buffers of any size. -/
def initSocketClient (size : ℕ) : Receiver where
  sequenceStarted := false
  width := none
  height := none
  waitForIntraFrame := true
  next := ⟨List.replicate size 0, 0, 0⟩
  chunkBegin := 0
  lastWriteBeforeWrap := 0
  current := List.replicate size 0
  currentPictureDecoded := false
  scheduled := 0
  decodes := []
  calls := []
  received := []
  pictures := []

/-- `data[i] * 256 + data[i + 1]`. -/
def sizeField (data : List UInt8) (i : ℕ) : Option ℕ := do
  return (← data[i]?).toNat * 256 + (← data[i + 1]?).toNat

/-- `SOCKET_MAGIC_BYTES`, the text `jsmp`. -/
def socketMagicBytes : List UInt8 := [0x6a, 0x73, 0x6d, 0x70]

def decodeSocketHeader (s : Receiver) (data : List UInt8) : Receiver :=
  if data.take 4 = socketMagicBytes then
    { s with sequenceStarted := true, width := sizeField data 4, height := sizeField data 6 }
  else s

/-- A message that does not fit in goes to the start of the buffer. -/
def makeRoom (s : Receiver) (count : ℕ) : Receiver :=
  if s.next.writePos + count > s.next.bytes.length then
    { s with
      lastWriteBeforeWrap := s.next.writePos
      next := { s.next with writePos := 0, index := 0 } }
  else s

def store (s : Receiver) (data : List UInt8) : Receiver :=
  { s with
    next := { s.next with
      bytes := overwrite s.next.bytes data s.next.writePos
      writePos := s.next.writePos + data.length }
    received := s.received ++ data }

/-- `decodePicture`, as far as it is called.  Before the header has come there are no planes to
draw into, and a picture raises an error in the source; the runs below are meant with it. -/
def decodePicture (s : Receiver) (skipOutput : Bool) : Receiver :=
  { s with
    decodes := s.decodes ++ [s.current]
    calls := s.calls ++ [.decodePicture skipOutput] }

/-- Pictures are skipped up to the first intra frame. -/
def testIntraFrame (s : Receiver) : Receiver :=
  if (s.next.skip 10).nextBits 3 = 1 then
    { s with
      waitForIntraFrame := false
      next := s.next.skip 13
      chunkBegin := ((s.next.skip 13).index - 13) / 8 }
  else { s with next := s.next.skip 13 }

/-- A picture is in `buffer`, and its decoding is scheduled. -/
def hand (s : Receiver) (chunk : List UInt8) (chunkEnd : ℕ) : Receiver :=
  { s with
    current := chunk
    chunkBegin := chunkEnd
    currentPictureDecoded := false
    scheduled := s.scheduled + 1
    calls := s.calls ++ [.load chunk]
    pictures := s.pictures ++ [chunk] }

/-- The last picture is decoded now, without output, if it was not yet. -/
def release (s : Receiver) : Receiver :=
  if s.currentPictureDecoded then s else s.decodePicture true

def takePicture (s : Receiver) : Receiver :=
  let s := s.release
  let chunkEnd := s.next.index / 8
  if chunkEnd > s.chunkBegin then s.hand (segment s.chunkBegin chunkEnd s.next.bytes) chunkEnd
  -- `set` with a negative offset raises a `RangeError`
  else if s.lastWriteBeforeWrap < s.chunkBegin then s
  else
    s.hand (segment s.chunkBegin s.lastWriteBeforeWrap s.next.bytes ++
      segment 0 chunkEnd s.next.bytes) chunkEnd

/-- What follows once a message is in the buffer. -/
def lookForPicture (s : Receiver) : Receiver :=
  match s.next.findPicture (s.next.writePos + 1) with
  | none => s
  | some (false, next) => { s with next := next }
  | some (true, next) =>
      if s.waitForIntraFrame then testIntraFrame { s with next := next }
      else takePicture { s with next := next }

def receiveSocketMessage (s : Receiver) (data : List UInt8) : Receiver :=
  let s := if s.sequenceStarted then s else s.decodeSocketHeader data
  let s := s.makeRoom data.length
  -- `set` raises a `RangeError` for more bytes than the buffer has
  if s.next.writePos + data.length > s.next.bytes.length then s
  else (s.store data).lookForPicture

def scheduleDecoding (s : Receiver) : Receiver :=
  { s.decodePicture false with currentPictureDecoded := true }

inductive Event
  | message (data : List UInt8)
  /-- one of the functions given to `requestAnimFrame` is called -/
  | frame
  deriving DecidableEq, Repr

def step (s : Receiver) : Event → Receiver
  | .message data => s.receiveSocketMessage data
  | .frame =>
      if s.scheduled = 0 then s else { s.scheduleDecoding with scheduled := s.scheduled - 1 }

/-! ## Looking for a picture -/

/-- The start code of a picture. -/
def pictureStart : List UInt8 := [0, 0, 1, 0]

end Receiver

open Receiver

namespace BitReader

theorem findNext_some {r next : BitReader} {startCode : Option UInt8}
    (h : r.findNextMPEGStartCode = (some startCode, next)) :
    ∃ i, (r.index + 7) / 8 ≤ i ∧ r.startCodeAt i = true ∧ startCode = r.bytes[i + 3]? ∧
      next = { r with index := (i + 4) * 8 } := by
  unfold findNextMPEGStartCode at h
  dsimp only at h
  split at h
  · rename_i i hfind
    obtain ⟨hcode, rfl⟩ := Prod.mk.inj h
    have hmem := List.mem_range'_1.mp (List.mem_of_find?_eq_some hfind)
    exact ⟨i, hmem.1, List.find?_some hfind, (Option.some.inj hcode).symm, rfl⟩
  · exact absurd (Prod.mk.inj h).1 (by simp)

theorem findNext_none {r next : BitReader} (h : r.findNextMPEGStartCode = (none, next)) :
    next = { r with index := r.writePos * 8 } := by
  unfold findNextMPEGStartCode at h
  dsimp only at h
  split at h
  · exact absurd (Prod.mk.inj h).1 (by simp)
  · exact (Prod.mk.inj h).2.symm

theorem segment_startCode {r : BitReader} {i : ℕ} (h : r.startCodeAt i = true)
    (hcode : r.bytes[i + 3]? = some 0) : segment i (i + 4) r.bytes = pictureStart := by
  simp only [startCodeAt, Bool.and_eq_true, beq_iff_eq] at h
  obtain ⟨⟨h0, h1⟩, h2⟩ := h
  refine List.ext_getElem? fun k => ?_
  rw [getElem?_segment]
  match k with
  | 0 => simpa [pictureStart] using h0
  | 1 => simpa [pictureStart] using h1
  | 2 => simpa [pictureStart] using h2
  | 3 => simpa [pictureStart] using hcode
  | k + 4 => rw [if_neg (by omega)]; rfl

/-- A picture that is found has its start code in the buffer, not in front of the position. -/
theorem findPicture_found {fuel : ℕ} {r next : BitReader}
    (h : r.findPicture fuel = some (true, next)) :
    ∃ i, r.index / 8 ≤ i ∧ i + 4 ≤ r.writePos ∧ next = { r with index := (i + 4) * 8 } ∧
      segment i (i + 4) r.bytes = pictureStart := by
  induction fuel generalizing r with
  | zero => simp [findPicture] at h
  | succ fuel ih =>
      unfold findPicture at h
      split at h
      · simp at h
      · rename_i startCode found hnext
        obtain ⟨i, hfirst, hat, hcode, rfl⟩ := findNext_some hnext
        dsimp only at h
        rw [Nat.mul_div_cancel _ (by decide : 0 < 8)] at h
        split at h
        · simp at h
        rename_i hle
        split at h
        · rename_i hpicture
          obtain rfl : _ = next := by simpa using h
          exact ⟨i, by omega, by omega, rfl, segment_startCode hat (hcode ▸ hpicture)⟩
        · obtain ⟨j, hj, hjle, rfl, hsegment⟩ := ih h
          dsimp only at hj hjle hsegment ⊢
          exact ⟨j, by omega, hjle, rfl, hsegment⟩

theorem findPicture_missing {fuel : ℕ} {r next : BitReader}
    (h : r.findPicture fuel = some (false, next)) : next = r.stepBack := by
  induction fuel generalizing r with
  | zero => simp [findPicture] at h
  | succ fuel ih =>
      unfold findPicture at h
      split at h
      · rename_i found hnext
        obtain rfl := findNext_none hnext
        simpa [stepBack] using h.symm
      · rename_i startCode found hnext
        obtain ⟨i, -, -, -, rfl⟩ := findNext_some hnext
        split at h
        · simpa [stepBack] using h.symm
        split at h
        · simp at h
        · have hback := ih h
          exact hback

/-- The loop ends: each start code lies behind the one before. -/
theorem exists_findPicture {fuel : ℕ} {r : BitReader} (hfuel : 0 < fuel)
    (h : r.writePos < (r.index + 7) / 8 + fuel) : ∃ result, r.findPicture fuel = some result := by
  induction fuel generalizing r with
  | zero => omega
  | succ fuel ih =>
      unfold findPicture
      split
      · exact ⟨_, rfl⟩
      · rename_i startCode found hnext
        obtain ⟨i, hfirst, -, -, rfl⟩ := findNext_some hnext
        dsimp only
        rw [Nat.mul_div_cancel _ (by decide : 0 < 8)]
        split
        · exact ⟨_, rfl⟩
        split
        · exact ⟨_, rfl⟩
        · exact ih (by omega) (by dsimp only; omega)

end BitReader

namespace Receiver

/-! ## What waits to be copied -/

/-- The bytes that wait to be copied.  They lie in one piece, with the start code of their
picture in front, or they go on at the start of the buffer. -/
inductive Holds (s : Receiver) (pending : List UInt8) : Prop
  | straight (hbegin : 4 ≤ s.chunkBegin) (hwrite : s.chunkBegin ≤ s.next.writePos)
      (hindex : s.chunkBegin ≤ s.next.index / 8 + 3)
      (hbytes : segment (s.chunkBegin - 4) s.next.writePos s.next.bytes = pictureStart ++ pending)
  | wrapped (hwrite : s.next.writePos < s.chunkBegin)
      (hbegin : s.chunkBegin ≤ s.lastWriteBeforeWrap)
      (hlast : s.lastWriteBeforeWrap ≤ s.next.bytes.length)
      (hbytes : segment s.chunkBegin s.lastWriteBeforeWrap s.next.bytes ++
        segment 0 s.next.writePos s.next.bytes = pending)

/-- The message is not written over bytes that wait to be copied, nor right up to them, and fits
into the buffer. -/
def NoOverrun (s : Receiver) : Event → Prop
  | .message data =>
      if s.waitForIntraFrame then data.length ≤ s.next.bytes.length
      else if s.next.writePos < s.chunkBegin then s.next.writePos + data.length < s.chunkBegin
      else s.next.writePos + data.length ≤ s.next.bytes.length ∨ data.length < s.chunkBegin
  | .frame => True

instance (s : Receiver) : DecidablePred s.NoOverrun
  | .message _ => by unfold NoOverrun; infer_instance
  | .frame => isTrue trivial

theorem makeRoom_of_le {s : Receiver} {count : ℕ}
    (h : s.next.writePos + count ≤ s.next.bytes.length) : s.makeRoom count = s :=
  if_neg (by omega)

theorem makeRoom_of_lt {s : Receiver} {count : ℕ}
    (h : s.next.bytes.length < s.next.writePos + count) :
    s.makeRoom count = { s with
      lastWriteBeforeWrap := s.next.writePos
      next := { s.next with writePos := 0, index := 0 } } :=
  if_pos h

@[simp] theorem waitForIntraFrame_makeRoom (s : Receiver) (count : ℕ) :
    (s.makeRoom count).waitForIntraFrame = s.waitForIntraFrame := by
  unfold makeRoom; split <;> rfl

@[simp] theorem received_makeRoom (s : Receiver) (count : ℕ) :
    (s.makeRoom count).received = s.received := by
  unfold makeRoom; split <;> rfl

@[simp] theorem pictures_makeRoom (s : Receiver) (count : ℕ) :
    (s.makeRoom count).pictures = s.pictures := by
  unfold makeRoom; split <;> rfl

@[simp] theorem bytes_makeRoom (s : Receiver) (count : ℕ) :
    (s.makeRoom count).next.bytes = s.next.bytes := by
  unfold makeRoom; split <;> rfl

theorem Holds.segment_eq {s : Receiver} {pending : List UInt8} (hbegin : 4 ≤ s.chunkBegin)
    (hwrite : s.chunkBegin ≤ s.next.writePos) (hle : s.next.writePos ≤ s.next.bytes.length)
    (hbytes : segment (s.chunkBegin - 4) s.next.writePos s.next.bytes = pictureStart ++ pending) :
    segment (s.chunkBegin - 4) s.chunkBegin s.next.bytes = pictureStart ∧
      segment s.chunkBegin s.next.writePos s.next.bytes = pending := by
  rw [← segment_append (Nat.sub_le s.chunkBegin 4) hwrite] at hbytes
  refine List.append_inj hbytes ?_
  rw [length_segment (by omega)]
  show s.chunkBegin - (s.chunkBegin - 4) = 4
  omega

theorem Holds.store {s : Receiver} {pending data : List UInt8} (h : s.Holds pending)
    (hle : s.next.writePos ≤ s.next.bytes.length) (hwait : s.waitForIntraFrame = false)
    (hroom : s.NoOverrun (.message data)) :
    (s.makeRoom data.length).next.writePos + data.length ≤ s.next.bytes.length ∧
      ((s.makeRoom data.length).store data).Holds (pending ++ data) := by
  simp only [NoOverrun, hwait, Bool.false_eq_true, if_false] at hroom
  cases h with
  | straight hbegin hwrite hindex hbytes =>
      rw [if_neg (by omega)] at hroom
      by_cases hfits : s.next.writePos + data.length ≤ s.next.bytes.length
      · rw [makeRoom_of_le hfits]
        refine ⟨hfits, .straight hbegin (by dsimp only [Receiver.store]; omega) hindex ?_⟩
        dsimp only [Receiver.store]
        rw [segment_overwrite_append hfits (by omega), hbytes, List.append_assoc]
      · -- the tail stays where it is, and the message goes to the start of the buffer
        have hshort : data.length < s.chunkBegin := hroom.resolve_left hfits
        have hzero : 0 + data.length ≤ s.next.bytes.length := by omega
        rw [makeRoom_of_lt (by omega)]
        refine ⟨hzero, .wrapped ?_ hwrite ?_ ?_⟩
        · dsimp only [Receiver.store]; omega
        · dsimp only [Receiver.store]; rw [length_overwrite hzero]; exact hle
        · dsimp only [Receiver.store]
          rw [segment_overwrite_behind hzero (by omega), segment_overwrite_self hzero,
            (Holds.segment_eq hbegin hwrite hle hbytes).2]
  | wrapped hwrite hbegin hlast hbytes =>
      rw [if_pos hwrite] at hroom
      have hfits : s.next.writePos + data.length ≤ s.next.bytes.length := by omega
      rw [makeRoom_of_le hfits]
      refine ⟨hfits, .wrapped hroom hbegin ?_ ?_⟩
      · dsimp only [Receiver.store]; rw [length_overwrite hfits]; exact hlast
      · dsimp only [Receiver.store]
        rw [segment_overwrite_behind hfits (by omega),
          segment_overwrite_append hfits (Nat.zero_le _), ← hbytes, List.append_assoc]

theorem Holds.stepBack {s : Receiver} {pending : List UInt8} (h : s.Holds pending) :
    Holds { s with next := s.next.stepBack } pending := by
  cases h with
  | straight hbegin hwrite hindex hbytes =>
      refine .straight hbegin hwrite ?_ hbytes
      dsimp only [BitReader.stepBack]
      omega
  | wrapped hwrite hbegin hlast hbytes => exact .wrapped hwrite hbegin hlast hbytes

/-- Behind a start code that was found, the bytes that came lie in one piece. -/
theorem Holds.of_start {s : Receiver} {i : ℕ} (hbegin : s.chunkBegin = i + 4)
    (hwrite : i + 4 ≤ s.next.writePos) (hindex : i + 4 ≤ s.next.index / 8)
    (hstart : segment i (i + 4) s.next.bytes = pictureStart) :
    s.Holds (segment (i + 4) s.next.writePos s.next.bytes) := by
  refine .straight (by omega) (by omega) (by omega) ?_
  rw [hbegin, Nat.add_sub_cancel, ← hstart, segment_append (Nat.le_add_right _ _) hwrite]

/-- The picture that a start code ends. -/
def chunk (s : Receiver) (chunkEnd : ℕ) : List UInt8 :=
  if chunkEnd > s.chunkBegin then segment s.chunkBegin chunkEnd s.next.bytes
  else segment s.chunkBegin s.lastWriteBeforeWrap s.next.bytes ++ segment 0 chunkEnd s.next.bytes

/-- What is copied comes first among the bytes that wait, and ends with a start code if the
bytes in front of it do. -/
theorem Holds.chunk {s : Receiver} {pending : List UInt8} {i : ℕ} (h : s.Holds pending)
    (hle : s.next.writePos ≤ s.next.bytes.length) (hindex : s.next.index / 8 ≤ i)
    (hwrite : i + 4 ≤ s.next.writePos)
    (hstart : segment i (i + 4) s.next.bytes = pictureStart) :
    (i + 4 ≤ s.chunkBegin → s.chunkBegin ≤ s.lastWriteBeforeWrap) ∧
      pending = s.chunk (i + 4) ++ segment (i + 4) s.next.writePos s.next.bytes ∧
      ∀ seen, pictureStart <:+ seen → pictureStart <:+ seen ++ s.chunk (i + 4) := by
  unfold Receiver.chunk
  cases h with
  | straight hbegin hwrite' hindex' hbytes =>
      obtain ⟨hfront, hpending⟩ := Holds.segment_eq hbegin hwrite' hle hbytes
      rw [if_pos (by omega)]
      refine ⟨by omega, ?_, ?_⟩
      · rw [segment_append (by omega) hwrite, hpending]
      · rintro seen ⟨before, rfl⟩
        -- the start code may overlap the one in front
        refine ⟨before ++ segment (s.chunkBegin - 4) i s.next.bytes, ?_⟩
        rw [← hstart, List.append_assoc, segment_append (by omega) (by omega), List.append_assoc,
          hstart, ← hfront, segment_append (by omega) (by omega)]
  | wrapped hwrite' hbegin hlast hbytes =>
      rw [if_neg (by omega)]
      refine ⟨fun _ => hbegin, ?_, ?_⟩
      · rw [← hbytes, List.append_assoc, segment_append (Nat.zero_le _) hwrite]
      · intro seen _
        rw [← segment_append (Nat.zero_le i) (Nat.le_add_right i 4), hstart]
        exact ⟨seen ++ (segment s.chunkBegin s.lastWriteBeforeWrap s.next.bytes ++
          segment 0 i s.next.bytes), by simp only [List.append_assoc]⟩

/-! ## The pictures -/

/-- The bytes are some pictures with something in front, cut right behind start codes. -/
def CutAtStarts (seen : List UInt8) (pictures : List (List UInt8)) : Prop :=
  ∃ front, seen = front ++ pictures.flatten ∧
    ∀ k, pictureStart <:+ front ++ (pictures.take k).flatten

theorem cutAtStarts_nil {seen : List UInt8} (h : pictureStart <:+ seen) : CutAtStarts seen [] :=
  ⟨seen, by simp, fun k => by simpa using h⟩

theorem CutAtStarts.suffix {seen : List UInt8} {pictures : List (List UInt8)}
    (h : CutAtStarts seen pictures) : pictureStart <:+ seen := by
  obtain ⟨front, rfl, hstarts⟩ := h
  simpa using hstarts pictures.length

theorem CutAtStarts.snoc {seen picture : List UInt8} {pictures : List (List UInt8)}
    (h : CutAtStarts seen pictures) (hstart : pictureStart <:+ seen ++ picture) :
    CutAtStarts (seen ++ picture) (pictures ++ [picture]) := by
  obtain ⟨front, rfl, hstarts⟩ := h
  refine ⟨front, by simp, fun k => ?_⟩
  by_cases hk : k ≤ pictures.length
  · rw [List.take_append_of_le_length hk]
    exact hstarts k
  · rw [List.take_of_length_le (by rw [List.length_append, List.length_singleton]; omega)]
    simpa using hstart

/-- The invariant of the buffer. -/
structure StreamInv (s : Receiver) : Prop where
  writePos_le : s.next.writePos ≤ s.next.bytes.length
  waiting : s.waitForIntraFrame = true →
    s.pictures = [] ∧ segment 0 s.next.writePos s.next.bytes <:+ s.received
  begun : s.waitForIntraFrame = false →
    ∃ seen pending, s.received = seen ++ pending ∧ CutAtStarts seen s.pictures ∧ s.Holds pending

theorem streamInv_init (size : ℕ) : StreamInv (initSocketClient size) where
  writePos_le := Nat.zero_le _
  waiting := fun _ => ⟨rfl, List.nil_suffix⟩
  begun := fun h => absurd h (by simp [initSocketClient])

/-- The invariant is about the buffer and the bytes only. -/
theorem StreamInv.of_same {s t : Receiver} (h : StreamInv s) (hnext : t.next = s.next)
    (hbegin : t.chunkBegin = s.chunkBegin)
    (hlast : t.lastWriteBeforeWrap = s.lastWriteBeforeWrap)
    (hwait : t.waitForIntraFrame = s.waitForIntraFrame) (hreceived : t.received = s.received)
    (hpictures : t.pictures = s.pictures) : StreamInv t := by
  obtain ⟨hle, hwaiting, hbegun⟩ := h
  simp only [← hnext, ← hwait, ← hreceived, ← hpictures] at hle hwaiting hbegun
  refine ⟨hle, hwaiting, fun h => ?_⟩
  obtain ⟨seen, pending, heq, hcut, hholds⟩ := hbegun h
  refine ⟨seen, pending, heq, hcut, ?_⟩
  cases hholds with
  | straight h1 h2 h3 h4 =>
      simp only [← hnext, ← hbegin] at h1 h2 h3 h4
      exact .straight h1 h2 h3 h4
  | wrapped h1 h2 h3 h4 =>
      simp only [← hnext, ← hbegin, ← hlast] at h1 h2 h3 h4
      exact .wrapped h1 h2 h3 h4

theorem StreamInv.decodeSocketHeader {s : Receiver} (h : StreamInv s) (data : List UInt8) :
    StreamInv (s.decodeSocketHeader data) := by
  unfold Receiver.decodeSocketHeader
  split
  · exact h.of_same rfl rfl rfl rfl rfl rfl
  · exact h

theorem noOverrun_decodeSocketHeader {s : Receiver} {data : List UInt8} {e : Event}
    (h : s.NoOverrun e) : (s.decodeSocketHeader data).NoOverrun e := by
  unfold Receiver.decodeSocketHeader
  split
  · cases e <;> exact h
  · exact h

theorem StreamInv.store {s : Receiver} {data : List UInt8} (h : StreamInv s)
    (hroom : s.NoOverrun (.message data)) :
    (s.makeRoom data.length).next.writePos + data.length ≤ s.next.bytes.length ∧
      StreamInv ((s.makeRoom data.length).store data) := by
  cases hwait : s.waitForIntraFrame with
  | true =>
      obtain ⟨hpictures, hsuffix⟩ := h.waiting hwait
      have hsize : data.length ≤ s.next.bytes.length := by
        simpa only [NoOverrun, hwait, if_true] using hroom
      have hfits : (s.makeRoom data.length).next.writePos + data.length ≤ s.next.bytes.length := by
        unfold makeRoom
        split
        · dsimp only; omega
        · omega
      have hback : segment 0 (s.makeRoom data.length).next.writePos s.next.bytes <:+
          s.received := by
        unfold makeRoom
        split
        · rw [segment_self]; exact List.nil_suffix
        · exact hsuffix
      refine ⟨hfits, ?_, fun _ => ⟨?_, ?_⟩, fun hbegun => ?_⟩
      · dsimp only [Receiver.store]
        rw [bytes_makeRoom, length_overwrite hfits]
        exact hfits
      · simpa only [Receiver.store, pictures_makeRoom] using hpictures
      · dsimp only [Receiver.store]
        rw [bytes_makeRoom, received_makeRoom, segment_overwrite_append hfits (Nat.zero_le _)]
        obtain ⟨before, hbefore⟩ := hback
        exact ⟨before, by rw [← List.append_assoc, hbefore]⟩
      · simp [Receiver.store, hwait] at hbegun
  | false =>
      obtain ⟨seen, pending, hreceived, hcut, hholds⟩ := h.begun hwait
      obtain ⟨hfits, hstored⟩ := hholds.store h.writePos_le hwait hroom
      refine ⟨hfits, ?_, fun hwaiting => ?_, fun _ => ⟨seen, pending ++ data, ?_, ?_, hstored⟩⟩
      · dsimp only [Receiver.store]
        rw [bytes_makeRoom, length_overwrite hfits]
        exact hfits
      · simp [Receiver.store, hwait] at hwaiting
      · dsimp only [Receiver.store]
        rw [received_makeRoom, hreceived, List.append_assoc]
      · simpa only [Receiver.store, pictures_makeRoom] using hcut

/-- The first picture begins behind the start code that was found. -/
theorem StreamInv.testIntraFrame {s : Receiver} {i : ℕ} (h : StreamInv s)
    (hwait : s.waitForIntraFrame = true) (hwrite : i + 4 ≤ s.next.writePos)
    (hstart : segment i (i + 4) s.next.bytes = pictureStart) :
    StreamInv
      (Receiver.testIntraFrame { s with next := { s.next with index := (i + 4) * 8 } }) := by
  obtain ⟨hpictures, before, hbefore⟩ := h.waiting hwait
  unfold Receiver.testIntraFrame
  split
  · refine ⟨h.writePos_le, fun hwaiting => by simp at hwaiting, fun _ => ?_⟩
    refine ⟨before ++ segment 0 (i + 4) s.next.bytes,
      segment (i + 4) s.next.writePos s.next.bytes, ?_, ?_, ?_⟩
    · dsimp only
      rw [List.append_assoc, segment_append (Nat.zero_le _) hwrite, hbefore]
    · dsimp only
      rw [hpictures, ← segment_append (Nat.zero_le i) (Nat.le_add_right i 4), hstart]
      exact cutAtStarts_nil ⟨before ++ segment 0 i s.next.bytes, by rw [List.append_assoc]⟩
    · refine Holds.of_start ?_ hwrite ?_ hstart
      · dsimp only [BitReader.skip]; omega
      · dsimp only [BitReader.skip]; omega
  · exact ⟨h.writePos_le, fun _ => ⟨hpictures, before, hbefore⟩,
      fun hbegun => by simp [hwait] at hbegun⟩

theorem takePicture_eq {s : Receiver}
    (hwrap : s.next.index / 8 ≤ s.chunkBegin → s.chunkBegin ≤ s.lastWriteBeforeWrap) :
    s.takePicture = s.release.hand (s.chunk (s.next.index / 8)) (s.next.index / 8) := by
  have hcopy : ∀ t : Receiver, t.next = s.next → t.chunkBegin = s.chunkBegin →
      t.lastWriteBeforeWrap = s.lastWriteBeforeWrap →
      (if t.next.index / 8 > t.chunkBegin then
        t.hand (segment t.chunkBegin (t.next.index / 8) t.next.bytes) (t.next.index / 8)
      else if t.lastWriteBeforeWrap < t.chunkBegin then t
      else t.hand (segment t.chunkBegin t.lastWriteBeforeWrap t.next.bytes ++
        segment 0 (t.next.index / 8) t.next.bytes) (t.next.index / 8)) =
      t.hand (s.chunk (s.next.index / 8)) (s.next.index / 8) := by
    intro t hnext hbegin hlast
    rw [hnext, hbegin, hlast, chunk]
    split
    · rfl
    · rw [if_neg (by omega)]
  unfold takePicture release
  split
  · exact hcopy s rfl rfl rfl
  · exact hcopy (s.decodePicture true) rfl rfl rfl

theorem StreamInv.takePicture {s : Receiver} {i : ℕ} (h : StreamInv s)
    (hwait : s.waitForIntraFrame = false) (hindex : s.next.index / 8 ≤ i)
    (hwrite : i + 4 ≤ s.next.writePos)
    (hstart : segment i (i + 4) s.next.bytes = pictureStart) :
    StreamInv (Receiver.takePicture { s with next := { s.next with index := (i + 4) * 8 } }) := by
  obtain ⟨seen, pending, hreceived, hcut, hholds⟩ := h.begun hwait
  obtain ⟨hwrap, hpending, hends⟩ := hholds.chunk h.writePos_le hindex hwrite hstart
  have hdiv : (i + 4) * 8 / 8 = i + 4 := Nat.mul_div_cancel _ (by decide)
  rw [takePicture_eq (by dsimp only; rw [hdiv]; exact hwrap)]
  dsimp only
  rw [hdiv]
  have hhand : StreamInv (Receiver.hand { s with next := { s.next with index := (i + 4) * 8 } }
      (s.chunk (i + 4)) (i + 4)) := by
    refine ⟨h.writePos_le, fun hwaiting => by simp [hand, hwait] at hwaiting, fun _ => ?_⟩
    refine ⟨seen ++ s.chunk (i + 4), segment (i + 4) s.next.writePos s.next.bytes, ?_, ?_, ?_⟩
    · dsimp only [hand]
      rw [hreceived, hpending, List.append_assoc]
    · exact hcut.snoc (hends seen hcut.suffix)
    · exact Holds.of_start rfl hwrite (Nat.le_of_eq hdiv.symm) hstart
  unfold release
  split
  · exact hhand
  · exact hhand.of_same rfl rfl rfl rfl rfl rfl

theorem StreamInv.lookForPicture {s : Receiver} (h : StreamInv s) :
    StreamInv s.lookForPicture := by
  unfold Receiver.lookForPicture
  split
  · exact h
  · rename_i next hfind
    obtain rfl := BitReader.findPicture_missing hfind
    refine ⟨h.writePos_le, h.waiting, fun hwait => ?_⟩
    obtain ⟨seen, pending, hreceived, hcut, hholds⟩ := h.begun hwait
    exact ⟨seen, pending, hreceived, hcut, hholds.stepBack⟩
  · rename_i next hfind
    obtain ⟨i, hindex, hwrite, rfl, hstart⟩ := BitReader.findPicture_found hfind
    split
    · rename_i hwait
      exact h.testIntraFrame hwait hwrite hstart
    · rename_i hwait
      exact h.takePicture (Bool.eq_false_iff.mpr hwait) hindex hwrite hstart

theorem StreamInv.receiveSocketMessage {s : Receiver} {data : List UInt8} (h : StreamInv s)
    (hroom : s.NoOverrun (.message data)) : StreamInv (s.receiveSocketMessage data) := by
  unfold Receiver.receiveSocketMessage
  dsimp only
  have hstore : ∀ t : Receiver, StreamInv t → t.NoOverrun (.message data) →
      StreamInv (if (t.makeRoom data.length).next.writePos + data.length >
          (t.makeRoom data.length).next.bytes.length then t.makeRoom data.length
        else ((t.makeRoom data.length).store data).lookForPicture) := by
    intro t ht hroom'
    obtain ⟨hfits, hstored⟩ := ht.store hroom'
    rw [bytes_makeRoom, if_neg (by omega)]
    exact hstored.lookForPicture
  split
  · exact hstore s h hroom
  · exact hstore _ (h.decodeSocketHeader data) (noOverrun_decodeSocketHeader hroom)

theorem StreamInv.step {s : Receiver} {e : Event} (h : StreamInv s) (hroom : s.NoOverrun e) :
    StreamInv (s.step e) := by
  cases e with
  | message data => exact h.receiveSocketMessage hroom
  | frame =>
      show StreamInv (if s.scheduled = 0 then s
        else { s.scheduleDecoding with scheduled := s.scheduled - 1 })
      split
      · exact h
      · exact h.of_same rfl rfl rfl rfl rfl rfl

/-! ## All that came -/

/-- The bytes of an event. -/
def Event.bytes : Event → List UInt8
  | .message data => data
  | .frame => []

@[simp] theorem received_takePicture (s : Receiver) : s.takePicture.received = s.received := by
  unfold takePicture release
  dsimp only
  split_ifs <;> rfl

@[simp] theorem received_lookForPicture (s : Receiver) :
    s.lookForPicture.received = s.received := by
  unfold lookForPicture
  split
  · rfl
  · rfl
  · split
    · unfold testIntraFrame
      split <;> rfl
    · exact received_takePicture _

theorem received_step {s : Receiver} {e : Event} (h : StreamInv s) (hroom : s.NoOverrun e) :
    (s.step e).received = s.received ++ e.bytes := by
  cases e with
  | message data =>
      have hstore : ∀ t : Receiver, StreamInv t → t.NoOverrun (.message data) →
          (if (t.makeRoom data.length).next.writePos + data.length >
              (t.makeRoom data.length).next.bytes.length then t.makeRoom data.length
            else ((t.makeRoom data.length).store data).lookForPicture).received =
          t.received ++ data := by
        intro t ht hroom'
        obtain ⟨hfits, -⟩ := ht.store hroom'
        rw [bytes_makeRoom, if_neg (by omega), received_lookForPicture]
        dsimp only [Receiver.store]
        rw [received_makeRoom]
      show (s.receiveSocketMessage data).received = s.received ++ data
      unfold receiveSocketMessage
      dsimp only
      split
      · exact hstore s h hroom
      · rw [hstore _ (h.decodeSocketHeader data) (noOverrun_decodeSocketHeader hroom)]
        unfold decodeSocketHeader
        split <;> rfl
  | frame =>
      show (if s.scheduled = 0 then s
        else { s.scheduleDecoding with scheduled := s.scheduled - 1 }).received = s.received ++ []
      rw [List.append_nil]
      split <;> rfl

/-- The pictures are consecutive parts of what came, each cut right behind a start code. -/
theorem pictures_consecutive (size : ℕ) (events : List Event)
    (h : Along step NoOverrun (initSocketClient size) events)
    (hpictures : (run step (initSocketClient size) events).pictures ≠ []) :
    ∃ front rest,
      events.flatMap Event.bytes =
        front ++ (run step (initSocketClient size) events).pictures.flatten ++ rest ∧
      ∀ k, pictureStart <:+
        front ++ ((run step (initSocketClient size) events).pictures.take k).flatten := by
  obtain ⟨hinv, hreceived⟩ := h.history
    (H := fun before s => StreamInv s ∧ s.received = before.flatMap Event.bytes)
    ⟨streamInv_init size, rfl⟩ fun before s e hs hroom =>
      ⟨hs.1.step hroom, by rw [received_step hs.1 hroom, hs.2, List.flatMap_append,
        List.flatMap_singleton]⟩
  have hbegun := hinv.begun (by
    by_contra hwait
    exact hpictures (hinv.waiting (by simpa using hwait)).1)
  obtain ⟨seen, pending, heq, ⟨front, rfl, hstarts⟩, -⟩ := hbegun
  exact ⟨front, pending, by rw [← hreceived, heq], hstarts⟩

/-- The header, an intra picture over two messages, and a wrap in front of the start code that
ends it. -/
def wrappedStream : List Event :=
  [.message [0x6a, 0x73, 0x6d, 0x70, 3, 0, 5, 0], .message [0, 0, 1, 0, 0, 8],
    .message [7, 7, 7, 7, 7], .message [0, 0, 1, 0, 9]]

example : (run step (initSocketClient 22) wrappedStream).pictures =
    [[0, 8, 7, 7, 7, 7, 7, 0, 0, 1, 0]] := by
  decide +kernel

/-! ## Decoding -/

/-- The fields that say what was decoded are the same. -/
structure SameOutput (s t : Receiver) : Prop where
  pictures : t.pictures = s.pictures
  current : t.current = s.current
  decodes : t.decodes = s.decodes
  calls : t.calls = s.calls
  currentPictureDecoded : t.currentPictureDecoded = s.currentPictureDecoded
  scheduled : t.scheduled = s.scheduled

theorem SameOutput.refl (s : Receiver) : SameOutput s s := ⟨rfl, rfl, rfl, rfl, rfl, rfl⟩

theorem SameOutput.trans {s t u : Receiver} (h : SameOutput s t) (h' : SameOutput t u) :
    SameOutput s u :=
  ⟨h'.pictures.trans h.pictures, h'.current.trans h.current, h'.decodes.trans h.decodes,
    h'.calls.trans h.calls, h'.currentPictureDecoded.trans h.currentPictureDecoded,
    h'.scheduled.trans h.scheduled⟩

/-- What one message can do to the decoding: nothing, or a picture is taken.  It is put into
`buffer` unless an overrun has spoiled the positions. -/
theorem lookForPicture_cases (s : Receiver) :
    ∃ t, SameOutput s t ∧ (s.lookForPicture = t ∨
      (∃ chunk chunkEnd, s.lookForPicture = t.release.hand chunk chunkEnd) ∨
      (s.lookForPicture = t.release ∧ ¬ StreamInv s)) := by
  unfold lookForPicture
  split
  · exact ⟨s, .refl s, .inl rfl⟩
  · refine ⟨_, ?_, .inl rfl⟩
    exact ⟨rfl, rfl, rfl, rfl, rfl, rfl⟩
  · rename_i next hfind
    obtain ⟨i, hindex, hwrite, rfl, hstart⟩ := BitReader.findPicture_found hfind
    split
    · unfold testIntraFrame
      split
      · refine ⟨_, ?_, .inl rfl⟩
        exact ⟨rfl, rfl, rfl, rfl, rfl, rfl⟩
      · refine ⟨_, ?_, .inl rfl⟩
        exact ⟨rfl, rfl, rfl, rfl, rfl, rfl⟩
    · rename_i hwait
      refine ⟨{ s with next := { s.next with index := (i + 4) * 8 } },
        ⟨rfl, rfl, rfl, rfl, rfl, rfl⟩,
        .inr ?_⟩
      by_cases hinv : StreamInv s
      · obtain ⟨seen, pending, -, -, hholds⟩ := hinv.begun (Bool.eq_false_iff.mpr hwait)
        obtain ⟨hwrap, -⟩ := hholds.chunk hinv.writePos_le hindex hwrite hstart
        rw [takePicture_eq (by
          dsimp only
          rw [Nat.mul_div_cancel _ (by decide : 0 < 8)]
          exact hwrap)]
        exact .inl ⟨_, _, rfl⟩
      · unfold takePicture
        dsimp only
        split_ifs
        · exact .inl ⟨_, _, rfl⟩
        · exact .inr ⟨rfl, hinv⟩
        · exact .inl ⟨_, _, rfl⟩

theorem receiveSocketMessage_cases (s : Receiver) (data : List UInt8) :
    ∃ t, SameOutput s t ∧ (s.receiveSocketMessage data = t ∨
      (∃ chunk chunkEnd, s.receiveSocketMessage data = t.release.hand chunk chunkEnd) ∨
      (s.receiveSocketMessage data = t.release ∧
        ¬ (StreamInv s ∧ s.NoOverrun (.message data)))) := by
  obtain ⟨header, hheader, hreceive, hinv⟩ : ∃ header, SameOutput s header ∧
      s.receiveSocketMessage data =
        (if (header.makeRoom data.length).next.writePos + data.length >
            (header.makeRoom data.length).next.bytes.length then header.makeRoom data.length
          else ((header.makeRoom data.length).store data).lookForPicture) ∧
      (StreamInv s ∧ s.NoOverrun (.message data) →
        StreamInv ((header.makeRoom data.length).store data)) := by
    unfold receiveSocketMessage
    split
    · exact ⟨s, .refl s, rfl, fun h => (h.1.store h.2).2⟩
    · refine ⟨s.decodeSocketHeader data, ?_, rfl, fun h => ?_⟩
      · unfold decodeSocketHeader
        split
        · exact ⟨rfl, rfl, rfl, rfl, rfl, rfl⟩
        · exact .refl s
      · exact ((h.1.decodeSocketHeader data).store (noOverrun_decodeSocketHeader h.2)).2
  have hroom : SameOutput s (header.makeRoom data.length) := by
    refine hheader.trans ?_
    unfold makeRoom
    split
    · exact ⟨rfl, rfl, rfl, rfl, rfl, rfl⟩
    · exact .refl header
  rw [hreceive]
  split
  · exact ⟨_, hroom, .inl rfl⟩
  · have hstored : SameOutput s ((header.makeRoom data.length).store data) :=
      ⟨hroom.pictures, hroom.current, hroom.decodes, hroom.calls,
        hroom.currentPictureDecoded, hroom.scheduled⟩
    obtain ⟨t, ht, hcases⟩ := lookForPicture_cases ((header.makeRoom data.length).store data)
    refine ⟨t, hstored.trans ht, ?_⟩
    rcases hcases with heq | hhand | ⟨heq, hnot⟩
    · exact .inl heq
    · exact .inr (.inl hhand)
    · exact .inr (.inr ⟨heq, fun h => hnot (hinv h)⟩)

/-- The list with each element as often as said. -/
def repeated {α : Type*} (counts : List ℕ) (l : List α) : List α :=
  (List.zipWith List.replicate counts l).flatten

theorem repeated_snoc {α : Type*} {counts : List ℕ} {l : List α}
    (h : counts.length = l.length) (n : ℕ) (a : α) :
    repeated (counts ++ [n]) (l ++ [a]) = repeated counts l ++ List.replicate n a := by
  rw [repeated, List.zipWith_append h, List.flatten_append, repeated]
  simp

/-- What `buffer` held up to now, with how often it was decoded: all but the last at least
once, and the last one too if its flag is set. -/
structure DecodeInv (blank : List UInt8) (s : Receiver) (earlier : List (List UInt8))
    (counts : List ℕ) (n : ℕ) : Prop where
  buffers : blank :: s.pictures = earlier ++ [s.current]
  length : counts.length = earlier.length
  once : ∀ count ∈ counts, 1 ≤ count
  decodes : s.decodes = repeated counts earlier ++ List.replicate n s.current
  decoded : s.currentPictureDecoded = true → 1 ≤ n

variable {blank : List UInt8} {s t : Receiver} {earlier : List (List UInt8)} {counts : List ℕ}
  {n : ℕ}

theorem DecodeInv.of_same (h : DecodeInv blank s earlier counts n) (hsame : SameOutput s t) :
    DecodeInv blank t earlier counts n := by
  obtain ⟨hbuffers, hlength, honce, hdecodes, hdecoded⟩ := h
  rw [← hsame.pictures, ← hsame.current] at hbuffers
  rw [← hsame.decodes, ← hsame.current] at hdecodes
  rw [← hsame.currentPictureDecoded] at hdecoded
  exact ⟨hbuffers, hlength, honce, hdecodes, hdecoded⟩

theorem DecodeInv.decodePicture (h : DecodeInv blank s earlier counts n) (skipOutput : Bool) :
    DecodeInv blank (s.decodePicture skipOutput) earlier counts (n + 1) where
  buffers := h.buffers
  length := h.length
  once := h.once
  decodes := by
    dsimp only [Receiver.decodePicture]
    rw [h.decodes, List.append_assoc, List.replicate_succ']
  decoded := fun _ => Nat.le_add_left 1 n

theorem DecodeInv.release (h : DecodeInv blank s earlier counts n) :
    ∃ m, 1 ≤ m ∧ DecodeInv blank s.release earlier counts m := by
  unfold Receiver.release
  split
  · rename_i hdecoded
    exact ⟨n, h.decoded hdecoded, h⟩
  · exact ⟨n + 1, Nat.le_add_left 1 n, h.decodePicture true⟩

theorem DecodeInv.hand (h : DecodeInv blank s earlier counts n) (hn : 1 ≤ n) (chunk : List UInt8)
    (chunkEnd : ℕ) :
    DecodeInv blank (s.hand chunk chunkEnd) (earlier ++ [s.current]) (counts ++ [n]) 0 where
  buffers := by
    dsimp only [Receiver.hand]
    rw [← List.cons_append, h.buffers]
  length := by rw [List.length_append, List.length_append, h.length]; rfl
  once := by
    intro count hcount
    rcases List.mem_append.mp hcount with hmem | hmem
    · exact h.once count hmem
    · rw [List.mem_singleton.mp hmem]; exact hn
  decodes := by
    dsimp only [Receiver.hand]
    rw [repeated_snoc h.length, h.decodes, List.replicate_zero, List.append_nil]
  decoded := fun hdecoded => by simp [Receiver.hand] at hdecoded

theorem DecodeInv.step (h : DecodeInv blank s earlier counts n) (e : Event) :
    ∃ earlier counts n, DecodeInv blank (s.step e) earlier counts n := by
  cases e with
  | message data =>
      obtain ⟨t, hsame, hcases⟩ := receiveSocketMessage_cases s data
      have ht := h.of_same hsame
      obtain ⟨m, hm, hrelease⟩ := ht.release
      show ∃ earlier counts n, DecodeInv blank (s.receiveSocketMessage data) earlier counts n
      rcases hcases with heq | ⟨chunk, chunkEnd, heq⟩ | ⟨heq, -⟩
      · exact ⟨_, _, _, heq ▸ ht⟩
      · exact ⟨_, _, _, heq ▸ hrelease.hand hm chunk chunkEnd⟩
      · exact ⟨_, _, _, heq ▸ hrelease⟩
  | frame =>
      show ∃ earlier counts n, DecodeInv blank (if s.scheduled = 0 then s
        else { s.scheduleDecoding with scheduled := s.scheduled - 1 }) earlier counts n
      split
      · exact ⟨_, _, _, h⟩
      · exact ⟨earlier, counts, n + 1, h.buffers, h.length, h.once, (h.decodePicture false).decodes,
          fun _ => Nat.le_add_left 1 n⟩

/-- Whatever comes when: no picture is overwritten before it was decoded, and none is decoded
after a later one. -/
theorem pictures_decoded (size : ℕ) (events : List Event) :
    ∃ counts n, counts.length = (run step (initSocketClient size) events).pictures.length ∧
      (∀ count ∈ counts, 1 ≤ count) ∧
      (run step (initSocketClient size) events).decodes =
        repeated (counts ++ [n])
          (List.replicate size 0 :: (run step (initSocketClient size) events).pictures) := by
  have hstart : ∃ earlier counts n,
      DecodeInv (List.replicate size 0) (initSocketClient size) earlier counts n :=
    ⟨[], [], 0, rfl, rfl, by simp, rfl, by simp [initSocketClient]⟩
  have hstep : ∀ (s : Receiver) (e : Event),
      (∃ earlier counts n, DecodeInv (List.replicate size 0) s earlier counts n) →
      ∃ earlier counts n, DecodeInv (List.replicate size 0) (s.step e) earlier counts n := by
    rintro s e ⟨earlier, counts, n, hs⟩
    exact hs.step e
  obtain ⟨earlier, counts, n, hinv⟩ := run_invariant
    (I := fun s => ∃ earlier counts n, DecodeInv (List.replicate size 0) s earlier counts n) events
    hstart hstep
  refine ⟨counts, n, ?_, hinv.once, ?_⟩
  · have hlength := congrArg List.length hinv.buffers
    rw [List.length_cons, List.length_append, List.length_singleton, ← hinv.length] at hlength
    omega
  · rw [hinv.buffers, repeated_snoc hinv.length, hinv.decodes]

/-- Everything that was scheduled is done when the next message comes. -/
def KeepsUp (s : Receiver) : Event → Prop
  | .message _ => s.scheduled = 0
  | .frame => True

instance (s : Receiver) : DecidablePred s.KeepsUp
  | .message _ => by unfold KeepsUp; infer_instance
  | .frame => isTrue trivial

/-- The call that decodes what is in `buffer` was made, or it is the only one to come.  None is
scheduled for the zeros that are there at the beginning. -/
inductive OnceInv (blank : List UInt8) (s : Receiver) : Prop
  | decoded (hflag : s.currentPictureDecoded = true) (hscheduled : s.scheduled = 0)
      (hdecodes : s.decodes = blank :: s.pictures)
  | ready (hflag : s.currentPictureDecoded = false)
      (hscheduled : s.scheduled = 1 ∨ s.scheduled = 0 ∧ s.pictures = [])
      (hdecodes : s.decodes ++ [s.current] = blank :: s.pictures)

theorem OnceInv.of_same (h : OnceInv blank s) (hsame : SameOutput s t) : OnceInv blank t := by
  cases h with
  | decoded hflag hscheduled hdecodes =>
      rw [← hsame.currentPictureDecoded] at hflag
      rw [← hsame.scheduled] at hscheduled
      rw [← hsame.decodes, ← hsame.pictures] at hdecodes
      exact .decoded hflag hscheduled hdecodes
  | ready hflag hscheduled hdecodes =>
      rw [← hsame.currentPictureDecoded] at hflag
      rw [← hsame.scheduled, ← hsame.pictures] at hscheduled
      rw [← hsame.decodes, ← hsame.pictures, ← hsame.current] at hdecodes
      exact .ready hflag hscheduled hdecodes

theorem OnceInv.hand (h : OnceInv blank s) (hscheduled : s.scheduled = 0) (chunk : List UInt8)
    (chunkEnd : ℕ) : OnceInv blank (s.release.hand chunk chunkEnd) := by
  unfold release
  cases h with
  | decoded hflag _ hdecodes =>
      rw [if_pos hflag]
      refine .ready rfl (.inl ?_) ?_
      · dsimp only [Receiver.hand]; rw [hscheduled]
      · dsimp only [Receiver.hand]; rw [hdecodes, List.cons_append]
  | ready hflag _ hdecodes =>
      rw [if_neg (by simp [hflag])]
      refine .ready rfl (.inl ?_) ?_
      · dsimp only [Receiver.hand, Receiver.decodePicture]; rw [hscheduled]
      · dsimp only [Receiver.hand, Receiver.decodePicture]; rw [hdecodes, List.cons_append]

theorem OnceInv.step {e : Event} (h : OnceInv blank s) (hinv : StreamInv s)
    (hroom : s.NoOverrun e) (hkeeps : s.KeepsUp e) : OnceInv blank (s.step e) := by
  cases e with
  | message data =>
      obtain ⟨t, hsame, hcases⟩ := receiveSocketMessage_cases s data
      have ht := h.of_same hsame
      show OnceInv blank (s.receiveSocketMessage data)
      rcases hcases with heq | ⟨chunk, chunkEnd, heq⟩ | ⟨-, hnot⟩
      · exact heq ▸ ht
      · exact heq ▸ ht.hand (hsame.scheduled.trans hkeeps) chunk chunkEnd
      · exact absurd ⟨hinv, hroom⟩ hnot
  | frame =>
      show OnceInv blank (if s.scheduled = 0 then s
        else { s.scheduleDecoding with scheduled := s.scheduled - 1 })
      split
      · exact h
      · rename_i hcall
        cases h with
        | decoded _ hscheduled _ => exact absurd hscheduled hcall
        | ready hflag hscheduled hdecodes =>
            refine .decoded rfl ?_ hdecodes
            dsimp only
            rcases hscheduled with hone | ⟨hzero, -⟩
            · rw [hone]
            · exact absurd hzero hcall

/-- The picture in `buffer`, if its decoding is still to come. -/
def toDecode (s : Receiver) : List (List UInt8) :=
  if s.currentPictureDecoded then [] else [s.current]

/-- If the frames keep up, each picture is decoded once, and nothing else but the zeros that
are in `buffer` before the first one. -/
theorem pictures_decoded_once (size : ℕ) (events : List Event)
    (h : Along step (fun s e => s.NoOverrun e ∧ s.KeepsUp e) (initSocketClient size) events) :
    (run step (initSocketClient size) events).decodes ++
        (run step (initSocketClient size) events).toDecode =
      List.replicate size 0 :: (run step (initSocketClient size) events).pictures := by
  obtain ⟨-, honce⟩ := h.invariant
    (I := fun s => StreamInv s ∧ OnceInv (List.replicate size 0) s)
    ⟨streamInv_init size, .ready rfl (.inr ⟨rfl, rfl⟩) rfl⟩
    fun s e hs hC => ⟨hs.1.step hC.1, hs.2.step hs.1 hC.1 hC.2⟩
  unfold toDecode
  cases honce with
  | decoded hflag _ hdecodes => rw [if_pos hflag, List.append_nil, hdecodes]
  | ready hflag _ hdecodes => rw [if_neg (by simp [hflag]), hdecodes]

/-- The frame after the stream above decodes its picture. -/
theorem pictures_decoded_once_wrapped :
    (run step (initSocketClient 22) (wrappedStream ++ [.frame])).decodes.length = 2 ∧
      (run step (initSocketClient 22) (wrappedStream ++ [.frame])).decodes ++
          (run step (initSocketClient 22) (wrappedStream ++ [.frame])).toDecode =
        List.replicate 22 0 ::
          (run step (initSocketClient 22) (wrappedStream ++ [.frame])).pictures := by
  have honce := pictures_decoded_once 22 (wrappedStream ++ [.frame]) (by decide +kernel)
  exact ⟨by decide +kernel, honce⟩

end Receiver

end SsmIaas.Player
