import SsmIaas.Lib.CString

/-!
# The words of a shell command

How a POSIX shell takes a line apart: blanks end words, `#` at the beginning of a word
starts a comment, operators and expansions are more than words, and backslashes and quotes
take the meaning from the bytes behind or between them and are then removed.

`shellWords line` is the list of words if the line is nothing but words that stand for
themselves, whatever the environment and the files of the shell are.

Which words can be written with blanks between them and nothing else?  `shellWords_eq_iff`:
exactly those without any byte that has a meaning.  That quotes cannot help is a matter of
counting: every byte adds one to the words and the gaps between them, or less if it is
removed (`Weighed`), and a line without quotes needs all of them.
-/

namespace SsmIaas.Lib

/-! ## Bytes with a meaning -/

def lineFeed : UInt8 := 10

def hash : UInt8 := 35

def backslash : UInt8 := 92

def singleQuote : UInt8 := 39

def doubleQuote : UInt8 := 34

def tilde : UInt8 := 126

/-- A space or a tab. -/
def isBlank (b : UInt8) : Bool := b == space || b == 9

/-- The bytes of operators, and the end of a line. -/
def isOperator (b : UInt8) : Bool := (ascii "|&;<>()").contains b || b == lineFeed

/-- `$` and the backquote. -/
def isExpansion (b : UInt8) : Bool := b == 36 || b == 96

def isQuote (b : UInt8) : Bool := b == backslash || b == singleQuote || b == doubleQuote

/-- A byte that stands for itself wherever it stands in a word, but for the beginning and
for patterns. -/
def isOrdinary (b : UInt8) : Bool :=
  !isBlank b && !isOperator b && !isExpansion b && !isQuote b && b != nul

/-- A byte of a word, and whether it was quoted. -/
structure Mark where
  quoted : Bool
  byte : UInt8
  deriving DecidableEq, Repr

abbrev ShellWord := List Mark

/-- A word that was written without quotes. -/
def unquoted (text : Bytes) : ShellWord := text.map (Mark.mk false)

/-- Is there a `]` for a `[`?  The byte behind the `[` is not taken for it, and a slash ends
the search. -/
def closesBracket (w : ShellWord) : Bool :=
  ((w.takeWhile fun m => m.byte != 47).drop 1).any fun m => m == ⟨false, 93⟩

/-- There is a bracket expression, `[..]` or `[!..]`. -/
def hasBracket : ShellWord → Bool
  | [] => false
  | m :: rest =>
      (m == ⟨false, 91⟩ &&
        closesBracket (if rest.head? = some ⟨false, 33⟩ then rest.tail else rest)) ||
      hasBracket rest

/-- The word may be replaced by the names of files. -/
def isPattern (w : ShellWord) : Bool :=
  (w.any fun m => m == ⟨false, 42⟩ || m == ⟨false, 63⟩) || hasBracket w

/-- The text of a word, if it stands for itself. -/
def wordText (w : ShellWord) : Option Bytes :=
  if w.head? = some ⟨false, tilde⟩ ∨ isPattern w then none else some (w.map Mark.byte)

/-! ## Taking a line apart -/

inductive Quoting
  | unquoted
  | escaped
  | single
  | double
  | doubleEscaped
  | comment
  deriving DecidableEq, Repr

/-- The words of the line so far; the last may go on. -/
structure Lexer where
  quoting : Quoting
  done : List ShellWord
  word : Option ShellWord
  deriving DecidableEq, Repr

namespace Lexer

def words (s : Lexer) : List ShellWord := s.done ++ s.word.toList

def add (s : Lexer) (quoted : Bool) (b : UInt8) : Lexer :=
  { s with word := some (s.word.getD [] ++ [⟨quoted, b⟩]) }

def endWord (s : Lexer) : Lexer := { s with done := s.words, word := none }

def setQuoting (s : Lexer) (quoting : Quoting) : Lexer := { s with quoting }

/-- A quote begins; there is a word now, even if it stays empty. -/
def openQuote (s : Lexer) (quoting : Quoting) : Lexer :=
  { s with quoting, word := some (s.word.getD []) }

/-- One byte of a line, which is not its terminator; `none` at what is no part of a word, or
may stand for anything. -/
def step (s : Lexer) (b : UInt8) : Option Lexer :=
  if b = nul then none else
  match s.quoting with
  | .unquoted =>
      if isBlank b then some s.endWord
      else if isOperator b || isExpansion b then none
      else if b = backslash then some (s.setQuoting .escaped)
      else if b = singleQuote then some (s.openQuote .single)
      else if b = doubleQuote then some (s.openQuote .double)
      else if b = hash ∧ s.word = none then some (s.setQuoting .comment)
      else some (s.add false b)
  | .escaped =>
      if b = lineFeed then some (s.setQuoting .unquoted)
      else some ((s.add true b).setQuoting .unquoted)
  | .single =>
      if b = singleQuote then some (s.setQuoting .unquoted) else some (s.add true b)
  | .double =>
      if b = doubleQuote then some (s.setQuoting .unquoted)
      else if isExpansion b then none
      else if b = backslash then some (s.setQuoting .doubleEscaped)
      else some (s.add true b)
  | .doubleEscaped =>
      if b = lineFeed then some (s.setQuoting .double)
      else if isExpansion b ∨ b = doubleQuote ∨ b = backslash then
        some ((s.add true b).setQuoting .double)
      else some (((s.add true backslash).add true b).setQuoting .double)
  | .comment => if b = lineFeed then none else some s

/-- At the end of the line no quote may be open. -/
def finish (s : Lexer) : Option (List ShellWord) :=
  if s.quoting = .unquoted ∨ s.quoting = .comment then some s.words else none

end Lexer

/-- The words of a line that is nothing but words. -/
def lex (line : Bytes) : Option (List ShellWord) :=
  (line.foldlM Lexer.step ⟨.unquoted, [], none⟩).bind Lexer.finish

/-- The texts of the words of a line, if all of them stand for themselves.  A shell runs
such a line as one simple command (unless the first word is an assignment or reserved). -/
def shellWords (line : Bytes) : Option (List Bytes) := (lex line).bind fun ws => ws.mapM wordText

/-- A text that stands for itself as a word of a command. -/
structure Literal (text : Bytes) : Prop where
  nonempty : text ≠ []
  ordinary : ∀ b ∈ text, isOrdinary b = true
  no_comment : text.head? ≠ some hash
  no_tilde : text.head? ≠ some tilde
  no_pattern : isPattern (unquoted text) = false

/-! ## Counting -/

/-- What a quoting mode has cost so far: bytes that are no part of any word. -/
def Quoting.loss : Quoting → ℕ
  | .unquoted => 0
  | .escaped | .single | .double | .comment => 1
  | .doubleEscaped => 2

/-- The words, each with the gap behind it. -/
def weight {α : Type*} (words : List (List α)) : ℕ := (words.map fun w => w.length + 1).sum

theorem weight_nil {α : Type*} : weight ([] : List (List α)) = 0 := rfl

theorem weight_cons {α : Type*} (w : List α) (words : List (List α)) :
    weight (w :: words) = w.length + 1 + weight words := by
  simp [weight]

/-- A word of bytes that stand for themselves, except perhaps as a pattern or with a tilde. -/
structure Bare (w : ShellWord) : Prop where
  nonempty : w ≠ []
  marks : ∀ m ∈ w, m.quoted = false ∧ isOrdinary m.byte = true
  no_comment : w.head? ≠ some ⟨false, hash⟩

namespace Lexer

variable {s s' : Lexer} {n : ℕ} {b : UInt8}

/-- The bytes that have become part of a word or of a gap. -/
def used (s : Lexer) : ℕ := weight s.done + (s.word.getD []).length

/-- After `n` bytes: not more than `n` of them have been used, and if all have then there
were no quotes. -/
structure Weighed (n : ℕ) (s : Lexer) : Prop where
  used_le : s.used + s.quoting.loss ≤ n
  bare : s.used < n ∨ ∀ w ∈ s.words, Bare w

@[simp] theorem used_add (quoted : Bool) : (s.add quoted b).used = s.used + 1 := by
  simp [used, add, Nat.add_assoc]

@[simp] theorem used_openQuote (quoting : Quoting) : (s.openQuote quoting).used = s.used := by
  simp [used, openQuote]

@[simp] theorem used_setQuoting (quoting : Quoting) : (s.setQuoting quoting).used = s.used := rfl

@[simp] theorem quoting_add (quoted : Bool) : (s.add quoted b).quoting = s.quoting := rfl

@[simp] theorem quoting_openQuote (quoting : Quoting) :
    (s.openQuote quoting).quoting = quoting := rfl

@[simp] theorem quoting_setQuoting (quoting : Quoting) :
    (s.setQuoting quoting).quoting = quoting := rfl

theorem words_endWord : s.endWord.words = s.words := by
  simp [words, endWord]

theorem used_endWord_le : s.endWord.used ≤ s.used + 1 := by
  cases hword : s.word with
  | none => simp [used, endWord, words, hword]
  | some w => simp [used, endWord, words, hword, weight, Nat.add_assoc]

/-- A byte that stands for itself goes on with a bare word, or begins one. -/
theorem bare_add (hbare : ∀ w ∈ s.words, Bare w) (hb : isOrdinary b = true)
    (hhash : ¬ (b = hash ∧ s.word = none)) : ∀ w ∈ (s.add false b).words, Bare w := by
  intro w hw
  simp only [words, add, Option.toList_some, List.mem_append, List.mem_singleton] at hw
  rcases hw with hdone | rfl
  · exact hbare w (List.mem_append_left _ hdone)
  · cases hword : s.word with
    | none =>
        have hne : b ≠ hash := fun heq => hhash ⟨heq, hword⟩
        refine ⟨by simp, by simpa using hb, by simpa using hne⟩
    | some front =>
        have hfront := hbare front (by simp [words, hword])
        refine ⟨by simp, ?_, ?_⟩
        · intro m hm
          rcases List.mem_append.mp hm with hm | hm
          · exact hfront.marks m hm
          · rw [List.mem_singleton.mp hm]
            exact ⟨rfl, hb⟩
        · obtain ⟨m, tail, rfl⟩ := List.exists_cons_of_ne_nil hfront.nonempty
          exact hfront.no_comment

/-- What a byte can do: end a word, go on with one, or get lost. -/
theorem step_cases (hstep : s.step b = some s') :
    (s.quoting = .unquoted ∧ s' = s.endWord) ∨
      (s.quoting = .unquoted ∧ isOrdinary b = true ∧ ¬ (b = hash ∧ s.word = none) ∧
        s' = s.add false b) ∨
      (s'.used ≤ s.used + s.quoting.loss ∧
        s'.used + s'.quoting.loss ≤ s.used + s.quoting.loss + 1) := by
  unfold step at hstep
  split at hstep
  · cases hstep
  next hnul =>
  -- where something is lost, `s'` is the same but for its quoting and for quoted bytes
  cases hquoting : s.quoting with
  | unquoted =>
      simp only [hquoting] at hstep
      split_ifs at hstep with hblank hoperator hbackslash hsingle hdouble hhash
      · exact Or.inl ⟨rfl, (Option.some.inj hstep).symm⟩
      · cases hstep
        simp [Quoting.loss]
      · cases hstep
        simp [Quoting.loss]
      · cases hstep
        simp [Quoting.loss]
      · cases hstep
        simp [Quoting.loss]
      · refine Or.inr (Or.inl ⟨rfl, ?_, hhash, (Option.some.inj hstep).symm⟩)
        simp_all [isOrdinary, isQuote]
  | escaped =>
      simp only [hquoting] at hstep
      split_ifs at hstep <;> cases hstep <;> simp [Quoting.loss, Nat.add_assoc]
  | single =>
      simp only [hquoting] at hstep
      split_ifs at hstep <;> cases hstep <;> simp [Quoting.loss, hquoting, Nat.add_assoc]
  | double =>
      simp only [hquoting] at hstep
      split_ifs at hstep <;> cases hstep <;> simp [Quoting.loss, hquoting, Nat.add_assoc]
  | doubleEscaped =>
      simp only [hquoting] at hstep
      split_ifs at hstep <;> cases hstep <;> simp [Quoting.loss, Nat.add_assoc]
  | comment =>
      simp only [hquoting] at hstep
      split_ifs at hstep
      cases hstep
      simp [Quoting.loss, hquoting]

theorem Weighed.step (h : Weighed n s) (hstep : s.step b = some s') : Weighed (n + 1) s' := by
  have hused := h.used_le
  rcases step_cases hstep with ⟨hquoting, rfl⟩ | ⟨hquoting, hb, hhash, rfl⟩ | ⟨hlost, hle⟩
  · have hend := used_endWord_le (s := s)
    rw [hquoting, Quoting.loss] at hused
    refine ⟨?_, ?_⟩
    · show s.endWord.used + s.quoting.loss ≤ n + 1
      rw [hquoting, Quoting.loss]
      omega
    · rw [words_endWord]
      exact h.bare.imp_left fun hlt => by omega
  · rw [hquoting, Quoting.loss] at hused
    refine ⟨?_, ?_⟩
    · rw [quoting_add, hquoting, used_add, Quoting.loss]
      omega
    · rw [used_add]
      exact h.bare.imp (fun hlt => by omega) fun hbare => bare_add hbare hb hhash
  · exact ⟨by omega, Or.inl (by omega)⟩

theorem Weighed.run {line : Bytes} (h : Weighed n s) (hrun : line.foldlM Lexer.step s = some s') :
    Weighed (n + line.length) s' := by
  induction line generalizing n s with
  | nil =>
      have heq : s = s' := by simpa using hrun
      exact heq ▸ h
  | cons b rest ih =>
      rw [List.foldlM_cons] at hrun
      obtain ⟨m, hstep, hrest⟩ := Option.bind_eq_some_iff.mp hrun
      have hrest' := ih (h.step hstep) hrest
      rwa [List.length_cons, Nat.add_comm rest.length 1, ← Nat.add_assoc]

theorem weight_words_le : weight s.words ≤ s.used + 1 := by
  cases hword : s.word with
  | none => simp [words, used, hword]
  | some w => simp [words, used, hword, weight, Nat.add_assoc]

theorem step_ordinary (hquoting : s.quoting = .unquoted) (hb : isOrdinary b = true)
    (hhash : ¬ (b = hash ∧ s.word = none)) : s.step b = some (s.add false b) := by
  simp only [isOrdinary, isQuote, Bool.and_eq_true, Bool.not_eq_true', Bool.or_eq_false_iff,
    beq_eq_false_iff_ne, bne_iff_ne] at hb
  obtain ⟨⟨⟨⟨hblank, hoperator⟩, hexpansion⟩, ⟨hbackslash, hsingle⟩, hdouble⟩, hnul⟩ := hb
  simp [step, hquoting, hblank, hoperator, hexpansion, hbackslash, hsingle, hdouble, hnul, hhash]

variable (done : List ShellWord)

theorem run_ordinary {text : Bytes} (h : ∀ b ∈ text, isOrdinary b = true) (w : ShellWord) :
    text.foldlM step ⟨.unquoted, done, some w⟩ =
      some ⟨.unquoted, done, some (w ++ unquoted text)⟩ := by
  induction text generalizing w with
  | nil => simp [unquoted]
  | cons b rest ih =>
      have hstep := step_ordinary (s := ⟨.unquoted, done, some w⟩) rfl (h b (by simp)) (by simp)
      have hrest := ih (fun c hc => h c (by simp [hc])) (w ++ [⟨false, b⟩])
      rw [List.foldlM_cons, hstep]
      simpa [unquoted, add] using hrest

/-- A word, from its beginning. -/
theorem run_word {text : Bytes} (h : Literal text) :
    text.foldlM step ⟨.unquoted, done, none⟩ = some ⟨.unquoted, done, some (unquoted text)⟩ := by
  obtain ⟨b, rest, rfl⟩ := List.exists_cons_of_ne_nil h.nonempty
  have hhash : b ≠ hash := by simpa using h.no_comment
  have hstep := step_ordinary (s := ⟨.unquoted, done, none⟩) rfl (h.ordinary b (by simp))
    (fun hcomment => hhash hcomment.1)
  have hordinary : ∀ c ∈ rest, isOrdinary c = true := fun c hc => h.ordinary c (by simp [hc])
  have hrest := run_ordinary done hordinary [⟨false, b⟩]
  rw [List.foldlM_cons, hstep]
  simpa [unquoted, add] using hrest

/-- Words with blanks between them. -/
theorem run_words {ws : List Bytes} (hws : ws ≠ []) (h : ∀ w ∈ ws, Literal w) :
    ∃ s, ([space].intercalate ws).foldlM step ⟨.unquoted, done, none⟩ = some s ∧
      s.quoting = .unquoted ∧ s.words = done ++ ws.map unquoted := by
  induction ws generalizing done with
  | nil => exact absurd rfl hws
  | cons w rest ih =>
      have hword := run_word done (h w (by simp))
      cases rest with
      | nil =>
          rw [List.intercalate_singleton]
          exact ⟨_, hword, rfl, by simp [words]⟩
      | cons w' rest =>
          obtain ⟨s, hrest, hquoting, hwords⟩ := ih (done ++ [unquoted w]) (by simp)
            fun w hw => h w (by simp [hw])
          refine ⟨s, ?_, hquoting, by simp [hwords]⟩
          rw [List.intercalate_cons_cons, List.append_assoc, List.foldlM_append, hword]
          exact hrest

end Lexer

/-! ## The words of a line -/

/-- The words of a line are not longer than the line, and if they are as long as it, with
one byte for each gap, then it has no quotes. -/
theorem lex_weight {line : Bytes} {ws : List ShellWord} (h : lex line = some ws) :
    weight ws ≤ line.length + 1 ∧ (line.length + 1 ≤ weight ws → ∀ w ∈ ws, Bare w) := by
  obtain ⟨s, hrun, hfinish⟩ := Option.bind_eq_some_iff.mp h
  have hstart : Lexer.Weighed 0 ⟨.unquoted, [], none⟩ :=
    ⟨Nat.le_refl 0, Or.inr (by simp [Lexer.words])⟩
  have hend := hstart.run hrun
  rw [Nat.zero_add] at hend
  have hws : s.words = ws := by
    unfold Lexer.finish at hfinish
    split at hfinish
    · exact Option.some.inj hfinish
    · cases hfinish
  subst hws
  have hle := Lexer.weight_words_le (s := s)
  have hused := hend.used_le
  refine ⟨by omega, fun hfull => ?_⟩
  exact hend.bare.resolve_left (by omega)

theorem wordText_eq_some {w : ShellWord} {text : Bytes} :
    wordText w = some text ↔
      w.head? ≠ some ⟨false, tilde⟩ ∧ isPattern w = false ∧ w.map Mark.byte = text := by
  unfold wordText
  split
  · next hmeans => simp; grind
  · next hmeans => simp at hmeans; simp [hmeans]

theorem head?_unquoted (text : Bytes) (b : UInt8) :
    (unquoted text).head? = some ⟨false, b⟩ ↔ text.head? = some b := by
  cases text <;> simp [unquoted]

theorem map_byte_unquoted (text : Bytes) : (unquoted text).map Mark.byte = text := by
  simp [unquoted, Function.comp_def]

theorem Literal.wordText_unquoted {text : Bytes} (h : Literal text) :
    wordText (unquoted text) = some text :=
  wordText_eq_some.mpr
    ⟨mt (head?_unquoted text tilde).mp h.no_tilde, h.no_pattern, map_byte_unquoted text⟩

theorem Bare.eq_unquoted {w : ShellWord} (h : Bare w) : unquoted (w.map Mark.byte) = w := by
  rw [unquoted, List.map_map]
  calc w.map (Mark.mk false ∘ Mark.byte)
      = w.map id := List.map_congr_left fun m hm => by
        have hquoted := (h.marks m hm).1
        cases m
        simp_all
    _ = w := List.map_id w

/-- A bare word that stands for itself is a literal text. -/
theorem Bare.literal {w : ShellWord} {text : Bytes} (h : Bare w) (htext : wordText w = some text) :
    Literal text := by
  obtain ⟨htilde, hpattern, rfl⟩ := wordText_eq_some.mp htext
  have hw := h.eq_unquoted
  refine ⟨by simpa using h.nonempty, ?_, ?_, ?_, by rwa [hw]⟩
  · intro b hb
    obtain ⟨m, hm, rfl⟩ := List.mem_map.mp hb
    exact (h.marks m hm).2
  · rw [← hw] at h
    exact mt (head?_unquoted _ hash).mpr h.no_comment
  · rw [← hw] at htilde
    exact mt (head?_unquoted _ tilde).mpr htilde

theorem forall₂_of_mapM {ws : List ShellWord} {texts : List Bytes}
    (h : ws.mapM wordText = some texts) :
    List.Forall₂ (fun w t => wordText w = some t) ws texts := by
  induction ws generalizing texts with
  | nil =>
      have hnil : texts = [] := by simpa using h
      exact hnil ▸ .nil
  | cons w rest ih =>
      simp only [List.mapM_cons, Option.bind_eq_bind, Option.bind_eq_some_iff] at h
      obtain ⟨t, hw, ts, hrest, heq⟩ := h
      cases heq
      exact .cons hw (ih hrest)

/-- The texts are as long as the words. -/
theorem weight_texts {ws : List ShellWord} {texts : List Bytes}
    (h : List.Forall₂ (fun w t => wordText w = some t) ws texts) : weight texts = weight ws := by
  induction h with
  | nil => rfl
  | cons hw _ ih =>
      obtain ⟨-, -, rfl⟩ := wordText_eq_some.mp hw
      rw [weight_cons, weight_cons, ih, List.length_map]

theorem literal_texts {ws : List ShellWord} {texts : List Bytes}
    (h : List.Forall₂ (fun w t => wordText w = some t) ws texts) (hbare : ∀ w ∈ ws, Bare w) :
    ∀ text ∈ texts, Literal text := by
  induction h with
  | nil => simp
  | cons hw _ ih =>
      rw [List.forall_mem_cons] at hbare ⊢
      exact ⟨hbare.1.literal hw, ih hbare.2⟩

theorem mapM_unquoted {texts : List Bytes} (h : ∀ text ∈ texts, Literal text) :
    (texts.map unquoted).mapM wordText = some texts := by
  induction texts with
  | nil => rfl
  | cons text rest ih =>
      rw [List.forall_mem_cons] at h
      rw [List.map_cons, List.mapM_cons, h.1.wordText_unquoted, ih h.2]
      rfl

/-- The words that a shell makes of a line are not longer than the line. -/
theorem weight_le_of_shellWords {line : Bytes} {texts : List Bytes}
    (h : shellWords line = some texts) : weight texts ≤ line.length + 1 := by
  obtain ⟨ws, hlex, htexts⟩ := Option.bind_eq_some_iff.mp h
  rw [weight_texts (forall₂_of_mapM htexts)]
  exact (lex_weight hlex).1

theorem length_intercalate {texts : List Bytes} (hne : texts ≠ []) :
    ([space].intercalate texts).length + 1 = weight texts := by
  induction texts with
  | nil => exact absurd rfl hne
  | cons text rest ih =>
      cases rest with
      | nil => simp [weight]
      | cons text' rest =>
          have hrest := ih (by simp)
          rw [weight_cons, ← hrest, List.intercalate_cons_cons]
          simp only [List.length_append, List.length_singleton]
          omega

/-- **Words.**  Texts with blanks between them are the words of a command exactly if each of
them stands for itself. -/
theorem shellWords_eq_iff {texts : List Bytes} (hne : texts ≠ []) :
    shellWords ([space].intercalate texts) = some texts ↔ ∀ text ∈ texts, Literal text := by
  refine ⟨fun h => ?_, fun h => ?_⟩
  · obtain ⟨ws, hlex, htexts⟩ := Option.bind_eq_some_iff.mp h
    have hall := forall₂_of_mapM htexts
    -- the words use up the whole line
    have hfull := length_intercalate hne
    rw [weight_texts hall] at hfull
    exact literal_texts hall ((lex_weight hlex).2 (Nat.le_of_eq hfull))
  · obtain ⟨s, hrun, hquoting, hwords⟩ := Lexer.run_words [] hne h
    have hlex : lex ([space].intercalate texts) = some (texts.map unquoted) := by
      rw [lex, hrun, Option.bind_some, Lexer.finish, if_pos (Or.inl hquoting), hwords,
        List.nil_append]
    rw [shellWords, hlex]
    exact mapM_unquoted h

example : shellWords (ascii "mv 'a b' c\\ d # e") =
    some [ascii "mv", ascii "a b", ascii "c d"] := by
  decide

/-- A byte that is ordinary and has no meaning at the beginning of a word or in a pattern. -/
def isPlain (b : UInt8) : Bool := isOrdinary b && !(ascii "#~*?[").contains b

theorem hasBracket_eq_false {w : ShellWord} (h : ∀ m ∈ w, m.byte ≠ 91) : hasBracket w = false := by
  induction w with
  | nil => rfl
  | cons m rest ih =>
      rw [List.forall_mem_cons] at h
      have hm : (m == ⟨false, 91⟩) = false := by
        rw [beq_eq_false_iff_ne]
        rintro rfl
        exact h.1 rfl
      rw [hasBracket, hm, ih h.2]
      rfl

theorem literal_of_plain {text : Bytes} (hne : text ≠ []) (h : ∀ b ∈ text, isPlain b = true) :
    Literal text := by
  have hplain : ∀ b ∈ text, isOrdinary b = true ∧ b ≠ hash ∧ b ≠ tilde ∧ b ≠ 42 ∧ b ≠ 63 ∧
      b ≠ 91 := by
    intro b hb
    have hb := h b hb
    simp only [isPlain, Bool.and_eq_true, Bool.not_eq_true'] at hb
    refine ⟨hb.1, ?_, ?_, ?_, ?_, ?_⟩ <;> rintro rfl <;> exact absurd hb.2 (by decide)
  refine ⟨hne, fun b hb => (hplain b hb).1, ?_, ?_, ?_⟩
  · exact fun hhead => (hplain _ (List.mem_of_head? hhead)).2.1 rfl
  · exact fun hhead => (hplain _ (List.mem_of_head? hhead)).2.2.1 rfl
  · have hbracket : hasBracket (unquoted text) = false := by
      refine hasBracket_eq_false fun m hm => ?_
      obtain ⟨b, hb, rfl⟩ := List.mem_map.mp hm
      exact (hplain b hb).2.2.2.2.2
    rw [isPattern, hbracket, Bool.or_false, List.any_eq_false]
    intro m hm
    obtain ⟨b, hb, rfl⟩ := List.mem_map.mp hm
    simp [(hplain b hb).2.2.2.1, (hplain b hb).2.2.2.2.1]

theorem isPlain_of_isDigit {b : UInt8} (hb : isDigit b = true) : isPlain b = true := by
  simp only [isDigit, Bool.and_eq_true, decide_eq_true_eq] at hb
  obtain ⟨n, hn, rfl⟩ : ∃ n, b.toNat = n ∧ UInt8.ofNat n = b := ⟨_, rfl, UInt8.ofNat_toNat⟩
  rw [hn] at hb
  obtain ⟨hlo, hhi⟩ := hb
  interval_cases n <;> decide

/-- Numbers stand for themselves. -/
theorem Numeral.literal {text : Bytes} {value : ℕ} (h : Numeral text value) : Literal text :=
  literal_of_plain h.nonempty fun b hb => isPlain_of_isDigit (h.digits b hb)

end SsmIaas.Lib
