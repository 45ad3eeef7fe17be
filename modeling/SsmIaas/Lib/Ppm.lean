import SsmIaas.Lib.CString
import SsmIaas.Lib.Raster

/-!
# Binary PPM files

The format `P6`: a magic number, three decimal numbers with blanks or comments in front
of them, one blank, and a raster of three bytes for a pixel.  `parseP6` accepts a file
with exactly the raster its header announces, and samples of one byte.

`parseP6_eq` reads back a header that was written with single blanks.
-/

namespace SsmIaas.Lib

structure Ppm where
  width : ℕ
  height : ℕ
  maxval : ℕ
  /-- the number of bytes in front of the raster -/
  headerLength : ℕ
  pixels : List Color
  deriving DecidableEq, Repr

def Ppm.pixel (ppm : Ppm) (x y : ℕ) : Option Color := ppm.pixels[ppm.width * y + x]?

/-- Drop blanks and comments; `comment` says that a comment is open. -/
def skipBlank (comment : Bool) : Bytes → Bytes
  | [] => []
  | b :: rest =>
      if comment then skipBlank (b != 10) rest
      else if b = 35 then skipBlank true rest
      else if isSpace b then skipBlank false rest
      else b :: rest

/-- A number of the header, with at least one blank in front of it. -/
def readNumber (text : Bytes) : Option (ℕ × Bytes) :=
  let rest := skipBlank false text
  let digits := rest.takeWhile isDigit
  if rest.length < text.length ∧ digits ≠ [] then
    some (digitsValue digits, rest.dropWhile isDigit)
  else none

/-- The raster, pixel by pixel. -/
def colors : Bytes → List Color
  | r :: g :: b :: rest => ⟨r, g, b⟩ :: colors rest
  | _ => []

def parseP6 (file : Bytes) : Option Ppm := do
  guard (file.take 2 = ascii "P6")
  let (width, rest) ← readNumber (file.drop 2)
  let (height, rest) ← readNumber rest
  let (maxval, rest) ← readNumber rest
  match rest with
  | [] => none
  | b :: raster =>
      guard (isSpace b ∧ 0 < maxval ∧ maxval < 256 ∧ raster.length = width * height * 3)
      return ⟨width, height, maxval, file.length - raster.length, colors raster⟩

/-! ## Reading back a header -/

theorem isSpace_not_isDigit {b : UInt8} (hb : isSpace b = true) : isDigit b = false := by
  by_contra hdigit
  have hspace := isDigit_not_isSpace (by simpa using hdigit)
  simp [hb] at hspace

theorem skipBlank_digit {b : UInt8} (hb : isDigit b = true) (rest : Bytes) :
    skipBlank false (b :: rest) = b :: rest := by
  have hcomment : b ≠ 35 := by
    rintro rfl
    simp [isDigit] at hb
  simp [skipBlank, hcomment, isDigit_not_isSpace hb]

theorem skipBlank_blank {b : UInt8} (hb : isSpace b = true) (rest : Bytes) :
    skipBlank false (b :: rest) = skipBlank false rest := by
  have hcomment : b ≠ 35 := by
    rintro rfl
    simp [isSpace, space] at hb
  simp [skipBlank, hcomment, hb]

theorem readNumber_decimal {b c : UInt8} (hb : isSpace b = true) (hc : isSpace c = true) (n : ℕ)
    (rest : Bytes) : readNumber (b :: (decimal n ++ c :: rest)) = some (n, c :: rest) := by
  obtain ⟨hne, hdigits, hvalue⟩ := numeral_decimal n
  have hskip : skipBlank false (b :: (decimal n ++ c :: rest)) = decimal n ++ c :: rest := by
    rw [skipBlank_blank hb]
    obtain ⟨d, tail, hcons⟩ := List.exists_cons_of_ne_nil hne
    rw [hcons] at hdigits ⊢
    exact skipBlank_digit (hdigits d (List.mem_cons_self ..)) _
  have hstop : isDigit c = false := isSpace_not_isDigit hc
  have htake : (decimal n ++ c :: rest).takeWhile isDigit = decimal n := by
    rw [List.takeWhile_append_of_pos hdigits, List.takeWhile_cons_of_neg (by simp [hstop]),
      List.append_nil]
  have hdrop : (decimal n ++ c :: rest).dropWhile isDigit = c :: rest := by
    rw [List.dropWhile_append_of_pos hdigits, List.dropWhile_cons_of_neg (by simp [hstop])]
  simp only [readNumber, hskip, htake, hdrop, hvalue]
  simp [hne]

/-- **Round trip.**  A header written with single blanks, and the raster it announces. -/
theorem parseP6_eq {b₁ b₂ b₃ b₄ : UInt8} (h₁ : isSpace b₁ = true) (h₂ : isSpace b₂ = true)
    (h₃ : isSpace b₃ = true) (h₄ : isSpace b₄ = true) (w h : ℕ) {maxval : ℕ} (hpos : 0 < maxval)
    (hmax : maxval < 256) {raster : Bytes} (hraster : raster.length = w * h * 3) :
    parseP6 (ascii "P6" ++ b₁ :: (decimal w ++ b₂ :: (decimal h ++ b₃ :: (decimal maxval ++
        b₄ :: raster)))) =
      some ⟨w, h, maxval, 6 + (decimal w).length + (decimal h).length + (decimal maxval).length,
        colors raster⟩ := by
  have hmagic : (ascii "P6").length = 2 := rfl
  have hguard : isSpace b₄ = true ∧ 0 < maxval ∧ maxval < 256 ∧ raster.length = w * h * 3 :=
    ⟨h₄, hpos, hmax, hraster⟩
  simp only [parseP6, List.take_left' hmagic, List.drop_left' hmagic, guard, if_true,
    readNumber_decimal h₁ h₂, readNumber_decimal h₂ h₃, readNumber_decimal h₃ h₄, if_pos hguard,
    pure, bind, Option.bind]
  simp only [List.length_append, List.length_cons, hmagic]
  congr 2
  omega

/-! ## The raster of a buffer -/

/-- The first bytes of a memory, as a file. -/
def dump (memory : Memory) (length : ℕ) : Bytes := (List.range length).map memory

theorem dump_add (memory : Memory) (base length : ℕ) :
    dump memory (base + length) = dump memory base ++ (List.range' base length).map memory := by
  rw [dump, dump, List.range_eq_range', List.range_eq_range', ← List.map_append,
    ← List.range'_append_1, Nat.zero_add]

theorem colors_map (memory : Memory) (base n : ℕ) :
    colors ((List.range' base (n * 3)).map memory) = (List.range n).map (pixelAt base memory) := by
  induction n generalizing base with
  | zero => rfl
  | succ n ih =>
      have hsplit : List.range' base ((n + 1) * 3) =
          base :: (base + 1) :: (base + 2) :: List.range' (base + 3) (n * 3) := by
        rw [Nat.add_mul, Nat.one_mul]
        simp [List.range'_succ]
      have hshift : pixelAt (base + 3) memory = pixelAt base memory ∘ Nat.succ := by
        funext index
        simp only [Function.comp_apply, pixelAt]
        congr 2 <;> omega
      have hfirst : pixelAt base memory 0 =
          ⟨memory base, memory (base + 1), memory (base + 2)⟩ := by
        simp only [pixelAt]
        congr 2 <;> omega
      rw [hsplit, List.range_succ_eq_map]
      simp only [List.map_cons, colors, ih, hshift, hfirst, List.map_map]

end SsmIaas.Lib
