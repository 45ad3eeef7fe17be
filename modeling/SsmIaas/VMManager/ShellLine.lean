import SsmIaas.Lib.JavaScript
import SsmIaas.Lib.Shell
import SsmIaas.LoadBalancer.ImageDAO
import SsmIaas.VMManager.Command

/-!
# The line that VMManager gives to the shell

The id of a member is free text.  `registerInputCheck ()` of the registration page asks for
five characters without white space and Korean letters, and `command ()` of VMManager prints
what was registered into a line of 100 bytes, between blanks and without quotes, and hands
the line to `system ()`.

`shell_line_iff`: the line fits and is one command of the six words that it was made of
exactly if the id is short enough and none of its bytes has a meaning for a shell.  The
check of the registration takes care of blanks, line ends and, by a slip in its pattern for
Korean letters, of the pipe; all other operators, quotes and expansions pass.
-/

namespace SsmIaas.LoadBalancer

open Lib

/-- A character in the pattern `[ㄱ-ㅎ|ㅏ-ㅣ|가-힣]`, in which `|` is a character like others. -/
def isKorean (c : Char) : Bool :=
  ('ㄱ' ≤ c && c ≤ 'ㅎ') || c == '|' || ('ㅏ' ≤ c && c ≤ 'ㅣ') || ('가' ≤ c && c ≤ '힣')

/-- `length` of a JavaScript string, which counts UTF-16 units. -/
def jsLength (value : String) : ℕ :=
  (value.toList.map fun c => if c.toNat < 0x10000 then 1 else 2).sum

/-- `registerInputCheck ()`: the message that is shown, or nothing. -/
def registerInputCheck (value : String) : Except String Unit :=
  if value.toList.any isJsSpace then .error "입력 값에 공백이 들어갈 수 없습니다."
  else if value.toList.filter (fun c => !isJsSpace c) = [] then
    .error "입력 값에 공백이 들어갈 수 없습니다."
  else if value.toList.any isKorean then .error "입력 값엔 영어와 숫자만 허용합니다."
  else if jsLength value < 5 then .error "ID값은 5자 이상 입력이 필요합니다."
  else .ok ()

theorem registered_clean {value : String} (h : registerInputCheck value = .ok ()) :
    value.toList ≠ [] ∧ ∀ c ∈ value.toList, isJsSpace c = false ∧ isKorean c = false := by
  unfold registerInputCheck at h
  split_ifs at h with hspace hblank hkorean
  refine ⟨?_, fun c hc => ⟨?_, ?_⟩⟩
  · intro hnil
    exact hblank (by rw [hnil, List.filter_nil])
  · simpa using mt (fun hany => List.any_eq_true.mpr ⟨c, hc, hany⟩) hspace
  · simpa using mt (fun hany => List.any_eq_true.mpr ⟨c, hc, hany⟩) hkorean

end SsmIaas.LoadBalancer

namespace SsmIaas.VMManager

open Lib LoadBalancer

/-- The words that `command ()` means by its line. -/
def commandWords (command : UInt8) (id os : Bytes) (index : UInt8) (slot : ℕ) : List Bytes :=
  [utf8 "./command.sh", decimal command.toNat, id, os, decimal index.toNat, decimal slot]

theorem commandLine_eq (client : ClientInfo) {id : Bytes} (hid : client.id = some id)
    (os : Bytes) (slot : ℕ) :
    commandLine client os slot =
      [space].intercalate (commandWords client.command id os client.index slot) := by
  have hfront : utf8 "./command.sh " = utf8 "./command.sh" ++ [space] := by decide +kernel
  simp [commandLine, ClientInfo.address, commandWords, hid, hfront, List.intercalate]

/-- What is left of the id in the buffer of VMManager: `%s` prints it up to a NUL. -/
def receivedId (id : String) : Bytes := cstr (utf8 id ++ [nul]) 0

/-- The bytes that the registration lets pass and that have a meaning for the shell, wherever
they stand. -/
def hasMeaning (b : UInt8) : Bool := (ascii "&;<>()$`\\\"'").contains b || b == nul

/-- An id that the shell takes as it is. -/
structure Inert (id : Bytes) : Prop where
  bytes : ∀ b ∈ id, hasMeaning b = false
  no_comment : id.head? ≠ some hash
  no_tilde : id.head? ≠ some tilde
  no_pattern : isPattern (unquoted id) = false

/-! ## The words -/

/-- Without the bytes that the registration refuses, ordinary means without a meaning. -/
theorem isOrdinary_eq {b : UInt8} (hspace : b ≠ space) (htab : b ≠ 9) (hnewline : b ≠ lineFeed)
    (hpipe : b ≠ 124) : isOrdinary b = !hasMeaning b := by
  have hoperators : ascii "|&;<>()" = [124, 38, 59, 60, 62, 40, 41] := by decide
  have hmeanings : ascii "&;<>()$`\\\"'" = [38, 59, 60, 62, 40, 41, 36, 96, 92, 34, 39] := by decide
  simp only [isOrdinary, isBlank, isOperator, isExpansion, isQuote, hasMeaning, hoperators,
    hmeanings, backslash, singleQuote, doubleQuote, nul, List.contains_cons, List.contains_nil]
  grind

theorem literal_iff_inert {id : String} (hid : registerInputCheck id = .ok ()) :
    Literal (utf8 id) ↔ Inert (utf8 id) := by
  obtain ⟨hne, hclean⟩ := registered_clean hid
  have hbyte : ∀ b ∈ utf8 id, isOrdinary b = !hasMeaning b := by
    intro b hb
    -- a byte below 128 comes from a character that the check has seen
    have hchar : ∀ n, n < 128 → b = UInt8.ofNat n →
        isJsSpace (Char.ofNat n) = false ∧ isKorean (Char.ofNat n) = false := by
      rintro n hn rfl
      have htoNat : (UInt8.ofNat n).toNat = n := by
        rw [UInt8.toNat_ofNat']
        omega
      obtain ⟨c, hc, hcn⟩ := mem_utf8 hb (by omega)
      rw [← htoNat, ← hcn, Char.ofNat_toNat]
      exact hclean c hc
    refine isOrdinary_eq ?_ ?_ ?_ ?_
    · exact fun heq => absurd (hchar 32 (by decide) heq).1 (by decide)
    · exact fun heq => absurd (hchar 9 (by decide) heq).1 (by decide)
    · exact fun heq => absurd (hchar 10 (by decide) heq).1 (by decide)
    · exact fun heq => absurd (hchar 124 (by decide) heq).2 (by decide)
  refine ⟨fun h => ⟨?_, h.no_comment, h.no_tilde, h.no_pattern⟩,
    fun h => ⟨?_, ?_, h.no_comment, h.no_tilde, h.no_pattern⟩⟩
  · intro b hb
    simpa [hbyte b hb] using h.ordinary b hb
  · rw [utf8_eq, Ne, List.flatMap_eq_nil_iff]
    obtain ⟨c, rest, hcons⟩ := List.exists_cons_of_ne_nil hne
    exact fun hnil => String.utf8EncodeChar_ne_nil (hnil c (by simp [hcons]))
  · intro b hb
    simp [hbyte b hb, h.bytes b hb]

theorem literal_command : Literal (utf8 "./command.sh") :=
  literal_of_plain (by decide +kernel) (by decide +kernel)

theorem literal_osName {osType : ℕ} (hos : osType < 4) (uninitialised : Bytes) :
    Literal (osName (UInt8.ofNat osType) uninitialised) := by
  rw [osName_of_lt hos]
  interval_cases osType <;> exact literal_of_plain (by decide +kernel) (by decide +kernel)

/-- The other five words stand for themselves. -/
theorem shellWords_commandWords_iff (command : UInt8) (id : Bytes) {osType : ℕ} (hos : osType < 4)
    (uninitialised : Bytes) (index : UInt8) (slot : ℕ) :
    shellWords ([space].intercalate (commandWords command id
      (osName (UInt8.ofNat osType) uninitialised) index slot)) =
        some (commandWords command id (osName (UInt8.ofNat osType) uninitialised) index slot) ↔
      Literal id := by
  rw [shellWords_eq_iff (by simp [commandWords])]
  simp only [commandWords, List.forall_mem_cons, literal_command, literal_osName hos,
    (numeral_decimal _).literal, List.not_mem_nil, true_and, and_true, false_imp_iff, implies_true]

theorem receivedId_eq_takeWhile (id : String) :
    receivedId id = (utf8 id).takeWhile fun b => b != nul := by
  rw [receivedId, cstr, List.drop_zero, List.takeWhile_append]
  split
  · next hall =>
      rw [List.takeWhile_cons_of_neg (by simp), List.append_nil]
      exact ((List.takeWhile_prefix _).eq_of_length hall).symm
  · rfl

/-- A word that is longer than what was printed of it cannot come back. -/
theorem receivedId_of_shellWords {id : String} {command : UInt8} {os : Bytes} {index : UInt8}
    {slot : ℕ}
    (h : shellWords ([space].intercalate (commandWords command (receivedId id) os index slot)) =
      some (commandWords command (utf8 id) os index slot)) : receivedId id = utf8 id := by
  have hle := weight_le_of_shellWords h
  rw [length_intercalate (by simp [commandWords])] at hle
  simp only [commandWords, weight_cons] at hle
  rw [receivedId_eq_takeWhile] at hle ⊢
  exact (List.takeWhile_prefix _).eq_of_length_le (by omega)

theorem receivedId_of_inert {id : String} (h : Inert (utf8 id)) : receivedId id = utf8 id := by
  rw [receivedId_eq_takeWhile, List.takeWhile_eq_self_iff]
  intro b hb
  have hmeaning := h.bytes b hb
  simp only [hasMeaning, Bool.or_eq_false_iff] at hmeaning
  simpa using hmeaning.2

theorem length_commandWords {command : UInt8} (hcommand : command ≤ 3) (id os : Bytes)
    (index : UInt8) (slot : ℕ) :
    ([space].intercalate (commandWords command id os index slot)).length + 1 =
      19 + id.length + os.length + (decimal index.toNat).length + (decimal slot).length := by
  have hscript : (utf8 "./command.sh").length = 12 := by decide +kernel
  have hnumber : (decimal command.toNat).length = 1 := by
    have hle : command.toNat ≤ 3 := UInt8.le_iff_toNat_le.mp hcommand
    rw [decimal_of_lt (by omega), List.length_singleton]
  rw [length_intercalate (by simp [commandWords])]
  simp only [commandWords, weight_cons, weight_nil, hscript, hnumber]
  omega

/-- **Shell.**  The line of a registered id fits into its 100 bytes and is one command of the
six words it was made of exactly if the id is not too long and the shell takes it as it is. -/
theorem shell_line_iff {id : String} (hid : registerInputCheck id = .ok ()) {command : UInt8}
    (hcommand : command ≤ 3) {imageVersion : String} {osType : ℕ}
    (hos : getImageIndex imageVersion = some osType) (index : UInt8) (slot : ℕ)
    (connection : Option Connection) (uninitialised : Bytes) :
    let client : ClientInfo :=
      ⟨command, UInt8.ofNat osType, index, some (receivedId id), connection⟩
    let os := osName client.osType uninitialised
    ((commandLine client os slot).length + 1 ≤ 100 ∧
      shellWords (commandLine client os slot) =
        some [utf8 "./command.sh", decimal command.toNat, utf8 id, os, decimal index.toNat,
          decimal slot]) ↔
      (utf8 id).length + os.length + (decimal index.toNat).length + (decimal slot).length ≤ 81 ∧
        Inert (utf8 id) := by
  intro client os
  rw [commandLine_eq client rfl]
  change (([space].intercalate (commandWords command (receivedId id) os index slot)).length + 1 ≤
      100 ∧ shellWords ([space].intercalate (commandWords command (receivedId id) os index slot)) =
        some (commandWords command (utf8 id) os index slot)) ↔ _
  have hwords := shellWords_commandWords_iff command (utf8 id) (getImageIndex_lt hos)
    uninitialised index slot
  have hlength := length_commandWords hcommand (utf8 id) os index slot
  rw [literal_iff_inert hid] at hwords
  refine ⟨?_, ?_⟩
  · rintro ⟨hfits, hline⟩
    rw [receivedId_of_shellWords hline] at hfits hline
    exact ⟨by omega, hwords.mp hline⟩
  · rintro ⟨hfits, hinert⟩
    rw [receivedId_of_inert hinert]
    exact ⟨by omega, hwords.mpr hinert⟩

theorem shell_line_alice :
    registerInputCheck "alice" = .ok () ∧
      shellWords (commandLine ⟨1, 2, 7, some (receivedId "alice"), none⟩ (utf8 "ubuntu") 0) =
        some [utf8 "./command.sh", decimal 1, utf8 "alice", utf8 "ubuntu", decimal 7,
          decimal 0] := by
  have hid : registerInputCheck "alice" = .ok () := by decide +kernel
  have hinert : Inert (utf8 "alice") :=
    ⟨by decide +kernel, by decide +kernel, by decide +kernel, by decide +kernel⟩
  have hos : getImageIndex "linux" = some 2 := by decide
  refine ⟨hid, ?_⟩
  exact ((shell_line_iff hid (by decide) hos 7 0 none []).mpr ⟨by decide +kernel, hinert⟩).2

/-- Two ids that can be registered: one ends the command and begins another, and one is
too long for the buffer. -/
theorem registered_ids_break_line :
    registerInputCheck "a;reboot" = .ok () ∧
      shellWords (commandLine ⟨1, 2, 7, some (receivedId "a;reboot"), none⟩ (utf8 "ubuntu") 0) =
        none ∧
      registerInputCheck (String.ofList (List.replicate 80 'a')) = .ok () ∧
      ¬ (commandLine ⟨1, 2, 7, some (receivedId (String.ofList (List.replicate 80 'a'))), none⟩
        (utf8 "ubuntu") 0).length + 1 ≤ 100 := by
  decide +kernel

end SsmIaas.VMManager
