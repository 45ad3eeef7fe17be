import SsmIaas.VMManager.Wire

/-!
# The hand-over by `client_data.dat`

For a start or an install, `command ()` of VMManager leaves the OS type and the three
ports in a file, and `IPC_getClientData ()` of the QEMU it starts reads them back.  The
two agree by position only, and not on every position: VMManager writes the image port
second and the audio port third, QEMU makes the audio address of the second field and
the frame address of the third.

The file ends behind the last digit of the event port.  The local buffer it is read into
is not cleared, so the first `printf` runs on to a NUL among the old bytes, and the last
field to the first space or NUL.  At last the port number is printed to the front of the
same buffer that its digits stand in.

`hand_over_iff` has the exact conditions under which all four values arrive.
-/

namespace SsmIaas.Qemu

open Lib VMManager

/-- What `command ()` writes to `client_data.dat`:
`sprintf (buf, "%d %d %d %d", os_type, port_i, port_a, port_e)`. -/
def clientData (osType : UInt8) (portI portA portE : UInt16) : Bytes :=
  decimal osType.toNat ++ [space] ++ decimal portI.toNat ++ [space] ++ decimal portA.toNat ++
    [space] ++ decimal portE.toNat

/-- How `IPC_getClientData ()` can leave what C defines: when it prints its buffer, in the
parse, with a text that is too long for its array, or with an `sprintf` whose source and
target overlap. -/
inductive HandOverFault
  | print
  | parse (fault : Fault)
  | tooLong
  | overlap
  deriving DecidableEq, Repr

/-- The globals that are set from the file. -/
structure ClientGlobals where
  androidMode : Bool
  audioDomain : Bytes
  frameDomain : Bytes
  portnum : ℤ
  deriving DecidableEq, Repr

/-- `temp = strtok (..)` and the string it points to; a `NULL` is not a string. -/
def nextString (t : Tokenizer) : Except HandOverFault (ℕ × Bytes × Tokenizer) :=
  match token t with
  | .error fault => .error (.parse fault)
  | .ok (none, _) => .error (.parse .nullToken)
  | .ok (some temp, t) => .ok (temp, cstr t.buffer temp, t)

/-- The text of an address around a port. -/
def domain (host port : Bytes) : Bytes := host ++ port ++ ascii "/1234"

def audioDomain (port : Bytes) : Bytes := domain (ascii "http://211.189.20.76:850") port

def frameDomain (port : Bytes) : Bytes := domain (ascii "http://211.189.20.76:800") port

/-- `sprintf` into an array of the given size. -/
def printInto (size : ℕ) (text : Bytes) : Except HandOverFault Bytes :=
  if text.length < size then .ok text else .error .tooLong

/-- `sprintf (buf, "%s%s", "750", temp)` for a `temp` in `buf`: the text with its
terminator goes to the front of the buffer, and must end before `temp` begins. -/
def printToFront (temp : ℕ) (port : Bytes) : Except HandOverFault Bytes :=
  let text := ascii "750" ++ port
  if text.length < temp then .ok text else .error .overlap

/-- `printf ("%s\n", buf)`: it reads up to a NUL, which has to be in the buffer. -/
def printData (buf : Bytes) : Except HandOverFault Unit :=
  if nul ∈ buf then .ok () else .error .print

/-- `IPC_getClientData ()` after its `read`, with `g_androidMode` still `false`.  What else it
prints are strings that end in a NUL. -/
def ipcGetClientData (buf : Bytes) : Except HandOverFault ClientGlobals := do
  printData buf
  let (_, osType, t) ← nextString ⟨buf, 0⟩
  let (_, second, t) ← nextString t
  let audio ← printInto 100 (audioDomain second)
  let (_, third, t) ← nextString t
  let frame ← printInto 100 (frameDomain third)
  let (temp, fourth, _) ← nextString t
  let port ← printToFront temp fourth
  return {
    androidMode := atoi osType = 0
    audioDomain := audio
    frameDomain := frame
    portnum := atoi port }

/-! ## The fields -/

theorem nextString_between (front rest : Bytes) (word : Word) :
    nextString (.between front (word.text ++ space :: rest)) =
      .ok (front.length, word.text, .between (front ++ word.text ++ [nul]) rest) := by
  have hread : cstr (front ++ word.text ++ [nul] ++ rest) front.length = word.text := by
    simpa using cstr_word front rest word
  simp only [nextString, token_between]
  simp only [Tokenizer.between, hread]

/-- The bytes behind the file that its last field runs on over. -/
def runOn (stale : Bytes) : Bytes := stale.takeWhile fun b => b != space && b != nul

theorem nextString_last (front : Bytes) (word : Word) {stale : Bytes} (h : Ended stale) :
    ∃ t, nextString (.between front (word.text ++ stale)) =
      .ok (front.length, word.text ++ runOn stale, t) := by
  obtain ⟨junk, d, after, hsplit, hd, hjunk, hclean⟩ := exists_end_of_token h
  have hrunOn : runOn stale = junk := hjunk.symm
  let line : Word := ⟨word.text ++ junk, by
    refine ⟨by simp [word.isToken.nonempty], fun b hb => ?_⟩
    rcases List.mem_append.mp hb with hb | hb
    · exact word.isToken.clean b hb
    · exact hclean b hb⟩
  have hline : word.text ++ stale = line.text ++ d :: after := by
    simp [line, hsplit]
  rw [hline, hrunOn]
  rcases hd with rfl | rfl
  · exact ⟨_, nextString_between front after line⟩
  · refine ⟨⟨front ++ (line.text ++ nul :: after), front.length + line.text.length⟩, ?_⟩
    simp only [nextString, token, strtok_terminated line.isToken, cstr_word]
    rfl

def portWord (port : UInt16) : Word := ⟨decimal port.toNat, (numeral_decimal _).token⟩

theorem length_port (port : UInt16) : (decimal port.toNat).length ≤ 5 :=
  length_decimal_le (by decide) (by have := port.toNat_lt; omega)

theorem length_osType (osType : UInt8) : (decimal osType.toNat).length ≤ 3 :=
  length_decimal_le (by decide) (by have := osType.toNat_lt; omega)

theorem printInto_domain {host : Bytes} (hhost : host.length = 24) (port : UInt16) :
    printInto 100 (domain host (decimal port.toNat)) = .ok (domain host (decimal port.toNat)) := by
  have hlength := length_port port
  have hback : (ascii "/1234").length = 5 := by decide
  apply if_pos
  simp only [domain, List.length_append, hhost, hback]
  omega

theorem domain_injective (host : Bytes) : Function.Injective (domain host) := by
  intro port port' heq
  exact List.append_cancel_left (List.append_cancel_right heq)

theorem length_clientData (osType : UInt8) (portI portA portE : UInt16) :
    (clientData osType portI portA portE).length ≤ 200 := by
  have hos := length_osType osType
  have hi := length_port portI
  have ha := length_port portA
  have he := length_port portE
  simp only [clientData, List.length_append, List.length_singleton]
  omega

/-! ## The file in any buffer -/

section

variable (osType : UInt8) (portI portA portE : UInt16) {behind : Bytes}

/-- The last field and the bytes it runs on over are shorter than the fields in front
of it, so that the port number can be printed to the front of the buffer. -/
def FitsInFront (behind : Bytes) : Prop :=
  (decimal portE.toNat).length + (runOn behind).length <
    (decimal osType.toNat).length + (decimal portI.toNat).length + (decimal portA.toNat).length

instance : Decidable (FitsInFront osType portI portA portE behind) :=
  inferInstanceAs (Decidable (_ < _))

/-- What is in front of the event port once the other fields are taken. -/
def takenFields : Bytes :=
  [] ++ decimal osType.toNat ++ [nul] ++ decimal portI.toNat ++ [nul] ++ decimal portA.toNat ++
    [nul]

/-- The function up to the event port. -/
theorem ipcGetClientData_front (hnul : nul ∈ behind) :
    ipcGetClientData (clientData osType portI portA portE ++ behind) =
      (nextString (.between (takenFields osType portI portA) (decimal portE.toNat ++ behind))).bind
        fun (temp, fourth, _) => (printToFront temp fourth).bind fun port =>
          .ok {
            androidMode := atoi (decimal osType.toNat) = 0
            audioDomain := audioDomain (decimal portI.toNat)
            frameDomain := frameDomain (decimal portA.toNat)
            portnum := atoi port } := by
  let os : Word := ⟨decimal osType.toNat, (numeral_decimal _).token⟩
  have hstart : (⟨clientData osType portI portA portE ++ behind, 0⟩ : Tokenizer) =
      .between [] (os.text ++ space :: ((portWord portI).text ++ space ::
        ((portWord portA).text ++ space :: (decimal portE.toNat ++ behind)))) := by
    simp [clientData, Tokenizer.between, portWord, os]
  have haudio : printInto 100 (audioDomain (portWord portI).text) =
      .ok (audioDomain (portWord portI).text) := printInto_domain (by decide) portI
  have hframe : printInto 100 (frameDomain (portWord portA).text) =
      .ok (frameDomain (portWord portA).text) := printInto_domain (by decide) portA
  have hprint : printData (clientData osType portI portA portE ++ behind) = .ok () :=
    if_pos (List.mem_append_right _ hnul)
  simp only [ipcGetClientData, hprint, hstart, nextString_between, bind, Except.bind, haudio,
    hframe]
  rfl

/-- The function on a file with a NUL behind it in the buffer. -/
theorem ipcGetClientData_ended (hnul : nul ∈ behind) :
    ipcGetClientData (clientData osType portI portA portE ++ behind) =
      if FitsInFront osType portI portA portE behind then
        .ok {
          androidMode := atoi (decimal osType.toNat) = 0
          audioDomain := audioDomain (decimal portI.toNat)
          frameDomain := frameDomain (decimal portA.toNat)
          portnum := atoi (ascii "750" ++ (decimal portE.toNat ++ runOn behind)) }
      else .error .overlap := by
  obtain ⟨t, hlast⟩ := nextString_last (takenFields osType portI portA) (portWord portE)
    ⟨nul, hnul, Or.inr rfl⟩
  have hfront : (ascii "750" ++ (decimal portE.toNat ++ runOn behind)).length <
      (takenFields osType portI portA).length ↔ FitsInFront osType portI portA portE behind := by
    have htext : (ascii "750").length = 3 := by decide
    simp only [FitsInFront, takenFields, List.length_append, List.length_nil,
      List.length_singleton, htext]
    omega
  simp only [portWord] at hlast
  rw [ipcGetClientData_front osType portI portA portE hnul, hlast]
  simp only [Except.bind, printToFront, hfront]
  by_cases hfits : FitsInFront osType portI portA portE behind
  · simp only [if_pos hfits]
  · simp only [if_neg hfits]

/-- The function on a file without a NUL behind it. -/
theorem ipcGetClientData_unended (hnul : nul ∉ behind) :
    ipcGetClientData (clientData osType portI portA portE ++ behind) = .error .print := by
  have hdecimal : ∀ n, nul ∉ decimal n := fun n h => (numeral_decimal n).token.ne_nul nul h rfl
  have hspace : nul ≠ space := by decide
  have hnone : nul ∉ clientData osType portI portA portE ++ behind := by
    simp [clientData, hdecimal, hspace, hnul]
  rw [ipcGetClientData, printData, if_neg hnone]
  rfl

theorem androidMode_iff : decide (atoi (decimal osType.toNat) = 0) = true ↔ osType = 0 := by
  have hlt := osType.toNat_lt
  have hvalue : atoi (decimal osType.toNat) = osType.toNat := by
    rw [atoi_numeral (numeral_decimal _), Nat.min_eq_left (by omega),
      Int.bmod_eq_of_le (by omega) (by omega)]
  rw [hvalue, decide_eq_true_eq, ← UInt8.toNat_inj]
  exact Int.natCast_eq_zero

end

/-! ## The port number -/

/-- The number whose text is `750` and the event port. -/
def portNumber (portE : UInt16) : ℕ := digitsValue (ascii "750" ++ decimal portE.toNat)

/-- The old bytes right behind the file leave the port number alone: no digit is there, or the
digits make a number that is the same in 32 bits. -/
def KeepsPort (portE : UInt16) (behind : Bytes) : Prop :=
  let digits := behind.takeWhile isDigit
  digits = [] ∨
    (portNumber portE * 10 ^ digits.length + digitsValue digits) % 2 ^ 32 = portNumber portE

theorem numeral_port (portE : UInt16) :
    Numeral (ascii "750" ++ decimal portE.toNat) (portNumber portE) := by
  have htext : ascii "750" = [55, 53, 48] := by decide
  refine ⟨by simp [htext], fun b hb => ?_, rfl⟩
  rcases List.mem_append.mp hb with hb | hb
  · simp only [htext, List.mem_cons, List.not_mem_nil, or_false] at hb
    rcases hb with rfl | rfl | rfl <;> rfl
  · exact (numeral_decimal _).digits b hb

theorem portNumber_lt (portE : UInt16) : portNumber portE < 10 ^ 8 := by
  have htext : (ascii "750").length = 3 := by decide
  apply lt_of_lt_of_le (digitsValue_lt (numeral_port portE).digits)
  apply Nat.pow_le_pow_right (by decide)
  rw [List.length_append, htext]
  exact Nat.add_le_add_left (length_port portE) 3

/-- No digit ends a field. -/
theorem takeWhile_runOn (behind : Bytes) :
    (runOn behind).takeWhile isDigit = behind.takeWhile isDigit := by
  rw [runOn, List.takeWhile_takeWhile]
  congr 1
  funext b
  cases hb : isDigit b with
  | false => simp
  | true => simp [isDigit_ne hb]

theorem atoi_port_iff {osType : UInt8} {portI portA portE : UInt16} {behind : Bytes}
    (hfits : FitsInFront osType portI portA portE behind) :
    atoi (ascii "750" ++ (decimal portE.toNat ++ runOn behind)) = portNumber portE ↔
      KeepsPort portE behind := by
  have hport := portNumber_lt portE
  have hall : ∀ b ∈ ascii "750" ++ decimal portE.toNat ++ behind.takeWhile isDigit,
      isDigit b = true := fun b hb => (List.mem_append.mp hb).elim ((numeral_port portE).digits b)
        List.mem_takeWhile_imp
  -- the last field is shorter than those in front of it, so that it has at most twelve digits
  have hlength :
      (ascii "750" ++ decimal portE.toNat ++ behind.takeWhile isDigit).length ≤ 15 := by
    have htext : (ascii "750").length = 3 := by decide
    have hle := (List.takeWhile_prefix isDigit (l := runOn behind)).length_le
    have hos := length_osType osType
    have hi := length_port portI
    have ha := length_port portA
    rw [takeWhile_runOn] at hle
    unfold FitsInFront at hfits
    rw [List.length_append, List.length_append, htext]
    omega
  have hvalue : digitsValue (ascii "750" ++ decimal portE.toNat ++ behind.takeWhile isDigit) <
      10 ^ 15 := lt_of_lt_of_le (digitsValue_lt hall) (Nat.pow_le_pow_right (by decide) hlength)
  rw [← List.append_assoc, atoi_numeral_append (numeral_port portE), takeWhile_runOn,
    Nat.min_eq_left (by omega)]
  rw [digitsValue_append] at hvalue ⊢
  change Int.bmod ((portNumber portE * _ + _ : ℕ) : ℤ) _ = _ ↔ _
  unfold KeepsPort
  dsimp only
  cases behind.takeWhile isDigit with
  | nil =>
      simp only [digitsValue, List.length_nil, List.foldl_nil, true_or, iff_true]
      rw [Int.bmod_eq_of_le (by omega) (by omega)]
      simp
  | cons b rest =>
      generalize portNumber portE * 10 ^ (b :: rest).length + digitsValue (b :: rest) = total
      simp only [reduceCtorEq, false_or, Int.bmod]
      omega

/-- **The hand-over.**  All four values arrive if and only if the image port and the
audio port are the same, a NUL stands behind the file in the buffer, the event port with
what follows it is shorter than the fields in front of it, and what follows it leaves its
number alone. -/
theorem hand_over_iff (osType : UInt8) (portI portA portE : UInt16) (stale : Bytes) :
    let data := clientData osType portI portA portE
    let behind := stale.drop data.length
    (∃ globals, ipcGetClientData (readInto 200 stale data) = .ok globals ∧
        globals.frameDomain = frameDomain (decimal portI.toNat) ∧
        globals.audioDomain = audioDomain (decimal portA.toNat) ∧
        globals.portnum = digitsValue (ascii "750" ++ decimal portE.toNat) ∧
        (globals.androidMode = true ↔ osType = 0)) ↔
      portI = portA ∧ nul ∈ behind ∧ FitsInFront osType portI portA portE behind ∧
        KeepsPort portE behind := by
  intro data behind
  rw [readInto_of_le stale (length_clientData osType portI portA portE)]
  change (∃ globals, ipcGetClientData (data ++ behind) = .ok globals ∧ _) ↔ _
  by_cases hnul : nul ∈ behind
  · rw [ipcGetClientData_ended osType portI portA portE hnul]
    by_cases hfits : FitsInFront osType portI portA portE behind
    · rw [if_pos hfits, ← atoi_port_iff hfits]
      refine ⟨?_, ?_⟩
      · rintro ⟨globals, hok, hframe, -, hport, -⟩
        cases hok
        have hsame := decimal_injective (domain_injective _ hframe)
        exact ⟨(UInt16.toNat_inj.mp hsame).symm, hnul, hfits, hport⟩
      · rintro ⟨rfl, -, -, hport⟩
        exact ⟨_, rfl, rfl, rfl, hport, androidMode_iff osType⟩
    · rw [if_neg hfits]
      simp [hfits]
  · rw [ipcGetClientData_unended osType portI portA portE hnul]
    simp [hnul]

/-- The ports 1 and 2 for images and audio, with zeros behind the file: each goes to the
other's address. -/
theorem ports_are_swapped :
    ipcGetClientData (readInto 200 (List.replicate 200 nul) (clientData 2 1 2 3)) =
      .ok {
        androidMode := false
        audioDomain := audioDomain (decimal 1)
        frameDomain := frameDomain (decimal 2)
        portnum := 7503 } ∧
      frameDomain (decimal 2) ≠ frameDomain (decimal 1) := by
  decide

end SsmIaas.Qemu
