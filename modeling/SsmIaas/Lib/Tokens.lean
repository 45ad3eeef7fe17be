import SsmIaas.Lib.CString

/-!
# All tokens of a buffer

`strtok` writes only in front of the position it saves, so what successive calls return can
be read off the bytes as they are at the beginning: `closedTokens` is the list of those that
a delimiter or a terminator ends.  Whether the calls find them, and find all of them among
the first bytes of the buffer, is a matter of counting (`tokensWithin_iff`).

The proofs go by cases on how the bytes begin (`lead`).
-/

namespace SsmIaas.Lib

/-- The tokens of some bytes that begin with `word`, each ended by a delimiter; the
terminator ends the last one. -/
def closedTokensFrom : Bytes → Bytes → List Bytes
  | _, [] => []
  | word, b :: rest =>
      if b = nul then if word = [] then [] else [word]
      else if b = space then
        if word = [] then closedTokensFrom [] rest else word :: closedTokensFrom [] rest
      else closedTokensFrom (word ++ [b]) rest

def closedTokens (bytes : Bytes) : List Bytes := closedTokensFrom [] bytes

/-- Successive calls of `strtok (NULL, " ")`, and the pointers they return. -/
def strtoks : ℕ → Tokenizer → Option (List (Option ℕ) × Tokenizer)
  | 0, t => some ([], t)
  | k + 1, t => do
      let (pointer, t) ← strtok t
      let (pointers, t) ← strtoks k t
      return (pointer :: pointers, t)

/-! ## How bytes begin -/

/-- The four ways in which `strtok` can find the bytes in front of it. -/
inductive Lead : Bytes → Prop
  | token (gap text : Bytes) (d : UInt8) (rest : Bytes) (hgap : ∀ b ∈ gap, b = space)
      (htext : Token text) (hd : d = space ∨ d = nul) : Lead (gap ++ (text ++ d :: rest))
  | terminated (gap rest : Bytes) (hgap : ∀ b ∈ gap, b = space) : Lead (gap ++ nul :: rest)
  | blank (gap : Bytes) (hgap : ∀ b ∈ gap, b = space) : Lead gap
  | unended (gap text : Bytes) (hgap : ∀ b ∈ gap, b = space) (htext : Token text) :
      Lead (gap ++ text)

theorem lead (bytes : Bytes) : Lead bytes := by
  induction bytes with
  | nil => exact .blank [] (by simp)
  | cons b rest ih =>
      by_cases hspace : b = space
      · -- one more delimiter in front
        have hcons : ∀ gap : Bytes, (∀ c ∈ gap, c = space) → ∀ c ∈ b :: gap, c = space :=
          fun gap hgap => List.forall_mem_cons.mpr ⟨hspace, hgap⟩
        cases ih with
        | token gap text d rest hgap htext hd =>
            exact .token (b :: gap) text d rest (hcons gap hgap) htext hd
        | terminated gap rest hgap => exact .terminated (b :: gap) rest (hcons gap hgap)
        | blank _ hgap => exact .blank (b :: rest) (hcons rest hgap)
        | unended gap text hgap htext => exact .unended (b :: gap) text (hcons gap hgap) htext
      · by_cases hnul : b = nul
        · rw [hnul]
          exact .terminated [] rest (by simp)
        · by_cases hended : Ended rest
          · obtain ⟨junk, d, after, rfl, hd, -, hclean⟩ := exists_end_of_token hended
            exact .token [] (b :: junk) d after (by simp)
              ⟨by simp, List.forall_mem_cons.mpr ⟨⟨hspace, hnul⟩, hclean⟩⟩ hd
          · refine .unended [] (b :: rest) (by simp) ⟨by simp, ?_⟩
            refine List.forall_mem_cons.mpr ⟨⟨hspace, hnul⟩, fun c hc => ?_⟩
            exact not_or.mp fun hend => hended ⟨c, hc, hend⟩

/-! ## The tokens, case by case -/

theorem closedTokensFrom_gap {gap : Bytes} (hgap : ∀ b ∈ gap, b = space) (rest : Bytes) :
    closedTokensFrom [] (gap ++ rest) = closedTokensFrom [] rest := by
  induction gap with
  | nil => rfl
  | cons b gap ih =>
      rw [List.forall_mem_cons] at hgap
      have hne : b ≠ nul := by
        rw [hgap.1]
        decide
      rw [List.cons_append, closedTokensFrom, if_neg hne, if_pos hgap.1, if_pos rfl, ih hgap.2]

theorem closedTokensFrom_text {text : Bytes} (htext : ∀ b ∈ text, b ≠ space ∧ b ≠ nul)
    (word rest : Bytes) :
    closedTokensFrom word (text ++ rest) = closedTokensFrom (word ++ text) rest := by
  induction text generalizing word with
  | nil => simp
  | cons b text ih =>
      rw [List.forall_mem_cons] at htext
      rw [List.cons_append, closedTokensFrom, if_neg htext.1.2, if_neg htext.1.1, ih htext.2]
      simp

/-- Delimiters and the beginning of a token. -/
theorem closedTokens_open {gap text : Bytes} (hgap : ∀ b ∈ gap, b = space)
    (htext : ∀ b ∈ text, b ≠ space ∧ b ≠ nul) : closedTokens (gap ++ text) = [] := by
  have hopen := closedTokensFrom_text htext [] []
  rw [List.append_nil] at hopen
  rw [closedTokens, closedTokensFrom_gap hgap, hopen, closedTokensFrom]

theorem closedTokens_cons {gap text : Bytes} (hgap : ∀ b ∈ gap, b = space) (htext : Token text)
    (rest : Bytes) :
    closedTokens (gap ++ (text ++ space :: rest)) = text :: closedTokens rest := by
  have hne : space ≠ nul := by decide
  rw [closedTokens, closedTokensFrom_gap hgap, closedTokensFrom_text htext.clean, List.nil_append,
    closedTokensFrom, if_neg hne, if_pos rfl, if_neg htext.nonempty, closedTokens]

theorem closedTokens_last {gap text : Bytes} (hgap : ∀ b ∈ gap, b = space) (htext : Token text)
    (rest : Bytes) : closedTokens (gap ++ (text ++ nul :: rest)) = [text] := by
  rw [closedTokens, closedTokensFrom_gap hgap, closedTokensFrom_text htext.clean, List.nil_append,
    closedTokensFrom, if_pos rfl, if_neg htext.nonempty]

theorem closedTokens_terminated {gap : Bytes} (hgap : ∀ b ∈ gap, b = space) (rest : Bytes) :
    closedTokens (gap ++ nul :: rest) = [] := by
  rw [closedTokens, closedTokensFrom_gap hgap, closedTokensFrom, if_pos rfl, if_pos rfl]

/-- More bytes behind do not change the tokens that were ended before. -/
theorem closedTokens_append (bytes more : Bytes) :
    closedTokens bytes <+: closedTokens (bytes ++ more) := by
  unfold closedTokens
  generalize ([] : Bytes) = word
  induction bytes generalizing word with
  | nil => exact List.nil_prefix
  | cons b rest ih =>
      rw [List.cons_append, closedTokensFrom, closedTokensFrom]
      split
      · exact List.prefix_refl _
      · split
        · split
          · exact ih []
          · exact (List.prefix_cons_inj word).mpr (ih [])
        · exact ih _

/-! ## The calls, case by case -/

theorem strtok_gap {gap : Bytes} (hgap : ∀ b ∈ gap, b = space) (front rest : Bytes) :
    strtok (.between front (gap ++ rest)) = strtok (.between (front ++ gap) rest) := by
  have hspn : strspn (gap ++ rest) = gap.length + strspn rest := by
    rw [strspn, List.takeWhile_append_of_pos (by simpa using hgap), List.length_append, strspn]
  have hstart : front.length + strspn ((front ++ (gap ++ rest)).drop front.length) =
      (front ++ gap).length + strspn ((front ++ gap ++ rest).drop (front ++ gap).length) := by
    rw [List.drop_left, List.drop_left, hspn, List.length_append, Nat.add_assoc]
  simp only [strtok, Tokenizer.between, hstart, List.append_assoc]

variable (front : Bytes) {gap text : Bytes} (hgap : ∀ b ∈ gap, b = space) (rest : Bytes)
include hgap

theorem strtok_cons (htext : Token text) :
    strtok (.between front (gap ++ (text ++ space :: rest))) =
      some (some (front.length + gap.length),
        .between (front ++ gap ++ text ++ [nul]) rest) := by
  rw [strtok_gap hgap, strtok_token htext, List.length_append]

theorem strtok_last (htext : Token text) :
    strtok (.between front (gap ++ (text ++ nul :: rest))) =
      some (some (front.length + gap.length), .between (front ++ gap ++ text) (nul :: rest)) := by
  rw [strtok_gap hgap, strtok_terminated htext, Tokenizer.between]
  simp [Nat.add_assoc]

theorem strtok_at_terminator :
    strtok (.between front (gap ++ nul :: rest)) =
      some (none, .between (front ++ gap) (nul :: rest)) := by
  rw [strtok_gap hgap]
  have hspn : strspn (nul :: rest) = 0 := by simp [strspn, nul, space]
  simp [strtok, Tokenizer.between, hspn]

theorem strtok_blank : strtok (.between front gap) = none := by
  have hgap' := strtok_gap hgap front []
  rw [List.append_nil] at hgap'
  rw [hgap']
  simp [strtok, Tokenizer.between, strspn]

theorem strtok_open (htext : Token text) : strtok (.between front (gap ++ text)) = none := by
  have hunended : strtok (.between (front ++ gap) (text ++ [])) = none :=
    strtok_unended htext (by simp [Ended])
  rw [strtok_gap hgap]
  simpa using hunended

omit hgap

/-- Either there is a token, or a call does not find one. -/
theorem token_or_none (bytes : Bytes) :
    (∃ gap text d rest, (∀ b ∈ gap, b = space) ∧ Token text ∧ (d = space ∨ d = nul) ∧
      bytes = gap ++ (text ++ d :: rest)) ∨
    (closedTokens bytes = [] ∧ ∀ front, strtok (.between front bytes) = none ∨
      ∃ t, strtok (.between front bytes) = some (none, t)) := by
  cases lead bytes with
  | token gap text d rest hgap htext hd => exact Or.inl ⟨gap, text, d, rest, hgap, htext, hd, rfl⟩
  | terminated gap rest hgap =>
      exact Or.inr ⟨closedTokens_terminated hgap rest,
        fun front => Or.inr ⟨_, strtok_at_terminator front hgap rest⟩⟩
  | blank _ hgap =>
      have hnil : closedTokens (bytes ++ []) = [] := closedTokens_open hgap (by simp)
      rw [List.append_nil] at hnil
      exact Or.inr ⟨hnil, fun front => Or.inl (strtok_blank front hgap)⟩
  | unended gap text hgap htext =>
      exact Or.inr ⟨closedTokens_open hgap htext.clean,
        fun front => Or.inl (strtok_open front hgap htext)⟩

/-! ## Counting -/

/-- A token counts if it and what ends it are among the first `m` bytes. -/
theorem closedTokens_take {d : UInt8} (hgap : ∀ b ∈ gap, b = space) (htext : Token text)
    (hd : d = space ∨ d = nul) (m : ℕ) :
    closedTokens ((gap ++ (text ++ d :: rest)).take m) =
      if m ≤ gap.length + text.length then []
      else text :: if d = nul then [] else
        closedTokens (rest.take (m - (gap.length + text.length + 1))) := by
  split
  · next hle =>
      rw [← List.append_assoc, List.take_append_of_le_length (by simpa using hle), List.take_append]
      exact closedTokens_open (fun b hb => hgap b (List.mem_of_mem_take hb))
        fun b hb => htext.clean b (List.mem_of_mem_take hb)
  · next hgt =>
      obtain ⟨n, rfl⟩ : ∃ n, m = gap.length + text.length + 1 + n :=
        ⟨m - (gap.length + text.length + 1), by omega⟩
      have htake : (gap ++ (text ++ d :: rest)).take (gap.length + text.length + 1 + n) =
          gap ++ (text ++ d :: rest.take n) := by
        have hsplit : gap ++ (text ++ d :: rest) = gap ++ text ++ [d] ++ rest := by simp
        have hlength : gap.length + text.length + 1 = (gap ++ text ++ [d]).length := by
          simp [Nat.add_assoc]
        rw [hsplit, hlength, List.take_length_add_append]
        simp
      rw [htake, Nat.add_sub_cancel_left]
      rcases hd with rfl | rfl
      · rw [closedTokens_cons hgap htext, if_neg (by decide)]
      · rw [closedTokens_last hgap htext, if_pos rfl]

theorem strtoks_succ {k : ℕ} {t t' : Tokenizer} {pointers : List (Option ℕ)} :
    strtoks (k + 1) t = some (pointers, t') ↔
      ∃ p t₁ rest, strtok t = some (p, t₁) ∧ strtoks k t₁ = some (rest, t') ∧
        pointers = p :: rest := by
  simp only [strtoks, Option.bind_eq_bind, Option.bind_eq_some_iff, Prod.exists, Option.pure_def,
    Option.some.injEq, Prod.mk.injEq]
  refine ⟨?_, ?_⟩
  · rintro ⟨p, t₁, hstrtok, rest, t₂, hrest, rfl, rfl⟩
    exact ⟨p, t₁, rest, hstrtok, hrest, rfl⟩
  · rintro ⟨p, t₁, rest, hstrtok, hrest, rfl⟩
    exact ⟨p, t₁, hstrtok, rest, t', hrest, rfl, rfl⟩

theorem strtok_length {t t' : Tokenizer} {p : Option ℕ} (h : strtok t = some (p, t')) :
    t'.buffer.length = t.buffer.length := by
  simp only [strtok] at h
  repeat' split at h
  all_goals cases h
  all_goals simp

theorem strtoks_length {k : ℕ} {t t' : Tokenizer} {pointers : List (Option ℕ)}
    (h : strtoks k t = some (pointers, t')) : t'.buffer.length = t.buffer.length := by
  induction k generalizing t pointers with
  | zero =>
      cases h
      rfl
  | succ k ih =>
      obtain ⟨p, t₁, others, hstrtok, hothers, -⟩ := strtoks_succ.mp h
      rw [ih hothers, strtok_length hstrtok]

/-- `strtok` leaves the bytes in front of its position alone. -/
theorem strtok_between {front rest : Bytes} {p : Option ℕ} {t : Tokenizer}
    (h : strtok (.between front rest) = some (p, t)) :
    ∃ more rest', t = .between (front ++ more) rest' := by
  cases lead rest with
  | token gap text d rest hgap htext hd =>
      rcases hd with rfl | rfl
      · rw [strtok_cons front hgap rest htext] at h
        cases h
        exact ⟨gap ++ text ++ [nul], rest, by simp⟩
      · rw [strtok_last front hgap rest htext] at h
        cases h
        exact ⟨gap ++ text, nul :: rest, by simp⟩
  | terminated gap rest hgap =>
      rw [strtok_at_terminator front hgap rest] at h
      cases h
      exact ⟨gap, nul :: rest, rfl⟩
  | blank _ hgap =>
      rw [strtok_blank front hgap] at h
      cases h
  | unended gap text hgap htext =>
      rw [strtok_open front hgap htext] at h
      cases h

theorem strtoks_between {k : ℕ} {front rest : Bytes} {pointers : List (Option ℕ)} {t : Tokenizer}
    (h : strtoks k (.between front rest) = some (pointers, t)) :
    ∃ more rest', t = .between (front ++ more) rest' := by
  induction k generalizing front rest pointers with
  | zero =>
      cases h
      exact ⟨[], rest, by simp⟩
  | succ k ih =>
      obtain ⟨p, t₁, others, hstrtok, hothers, -⟩ := strtoks_succ.mp h
      obtain ⟨more, rest₁, rfl⟩ := strtok_between hstrtok
      obtain ⟨more', rest', rfl⟩ := ih hothers
      exact ⟨more ++ more', rest', by simp⟩

/-- `k` calls all return a token, and the strings they point to stand within the first `n`
bytes of the buffer. -/
def TokensWithin (k : ℕ) (t : Tokenizer) (n : ℕ) : Prop :=
  ∃ pointers t', strtoks k t = some (pointers, t') ∧
    ∀ p ∈ pointers, ∃ i, p = some i ∧ i + (cstr t'.buffer i).length ≤ n

theorem tokensWithin_zero (t : Tokenizer) (n : ℕ) : TokensWithin 0 t n :=
  ⟨[], t, rfl, by simp⟩

/-- The first of the calls, and the others. -/
theorem tokensWithin_succ {k n : ℕ} {t : Tokenizer} :
    TokensWithin (k + 1) t n ↔
      ∃ i t₁ pointers t', strtok t = some (some i, t₁) ∧ strtoks k t₁ = some (pointers, t') ∧
        i + (cstr t'.buffer i).length ≤ n ∧
          ∀ p ∈ pointers, ∃ i, p = some i ∧ i + (cstr t'.buffer i).length ≤ n := by
  refine ⟨?_, ?_⟩
  · rintro ⟨pointers, t', hcalls, hall⟩
    obtain ⟨p, t₁, others, hstrtok, hothers, rfl⟩ := strtoks_succ.mp hcalls
    obtain ⟨⟨i, rfl, hle⟩, hrest⟩ := List.forall_mem_cons.mp hall
    exact ⟨i, t₁, others, t', hstrtok, hothers, hle, hrest⟩
  · rintro ⟨i, t₁, others, t', hstrtok, hothers, hle, hrest⟩
    exact ⟨_, t', strtoks_succ.mpr ⟨_, _, _, hstrtok, hothers, rfl⟩,
      List.forall_mem_cons.mpr ⟨⟨i, rfl, hle⟩, hrest⟩⟩

/-- A call, if all of them return tokens. -/
theorem TokensWithin.head {k n : ℕ} {t : Tokenizer} (h : TokensWithin (k + 1) t n) :
    ∃ i t₁, strtok t = some (some i, t₁) ∧ TokensWithin k t₁ n := by
  obtain ⟨i, t₁, others, t', hstrtok, hothers, -, hrest⟩ := tokensWithin_succ.mp h
  exact ⟨i, t₁, hstrtok, others, t', hothers, hrest⟩

theorem not_tokensWithin_of_none {k n : ℕ} {t : Tokenizer} (h : strtok t = none) :
    ¬ TokensWithin (k + 1) t n := by
  intro hwithin
  obtain ⟨i, t₁, hstrtok, -⟩ := hwithin.head
  rw [h] at hstrtok
  cases hstrtok

theorem not_tokensWithin_of_null {k n : ℕ} {t t₁ : Tokenizer} (h : strtok t = some (none, t₁)) :
    ¬ TokensWithin (k + 1) t n := by
  intro hwithin
  obtain ⟨i, t₂, hstrtok, -⟩ := hwithin.head
  rw [h] at hstrtok
  cases hstrtok

theorem tokensWithin_cons {k n : ℕ} (hgap : ∀ b ∈ gap, b = space) (htext : Token text) :
    TokensWithin (k + 1) (.between front (gap ++ (text ++ space :: rest))) n ↔
      front.length + gap.length + text.length ≤ n ∧
        TokensWithin k (.between (front ++ gap ++ text ++ [nul]) rest) n := by
  -- later calls do not touch the string
  have hstring : ∀ {pointers t'},
      strtoks k (.between (front ++ gap ++ text ++ [nul]) rest) = some (pointers, t') →
        cstr t'.buffer (front.length + gap.length) = text := by
    intro pointers t' hcalls
    obtain ⟨more, rest', rfl⟩ := strtoks_between hcalls
    have hread : cstr (front ++ gap ++ (text ++ nul :: (more ++ rest'))) (front ++ gap).length =
        text := cstr_append htext.ne_nul
    simpa [Tokenizer.between] using hread
  rw [tokensWithin_succ, strtok_cons front hgap rest htext]
  refine ⟨?_, ?_⟩
  · rintro ⟨_, _, others, t', ⟨⟩, hothers, hle, hrest⟩
    rw [hstring hothers] at hle
    exact ⟨hle, others, t', hothers, hrest⟩
  · rintro ⟨hle, others, t', hothers, hrest⟩
    exact ⟨_, _, others, t', rfl, hothers, by rwa [hstring hothers], hrest⟩

theorem tokensWithin_last {k n : ℕ} (hgap : ∀ b ∈ gap, b = space) (htext : Token text) :
    TokensWithin (k + 1) (.between front (gap ++ (text ++ nul :: rest))) n ↔
      front.length + gap.length + text.length ≤ n ∧ k = 0 := by
  have hstring : cstr (front ++ gap ++ text ++ nul :: rest) (front.length + gap.length) = text := by
    have hread : cstr (front ++ gap ++ (text ++ nul :: rest)) (front ++ gap).length = text :=
      cstr_append htext.ne_nul
    simpa using hread
  have hfirst := strtok_last front hgap rest htext
  cases k with
  | zero =>
      rw [tokensWithin_succ, hfirst]
      refine ⟨?_, ?_⟩
      · rintro ⟨_, _, others, t', ⟨⟩, ⟨⟩, hle, -⟩
        rw [Tokenizer.between, hstring] at hle
        exact ⟨hle, rfl⟩
      · rintro ⟨hle, -⟩
        exact ⟨_, _, [], _, rfl, rfl, by rwa [Tokenizer.between, hstring], by simp⟩
  | succ k =>
      refine ⟨fun hwithin => ?_, by simp⟩
      obtain ⟨i, t₁, hstrtok, hothers⟩ := hwithin.head
      rw [hfirst] at hstrtok
      cases hstrtok
      -- the next call stands at the terminator
      have hnull : strtok (.between (front ++ gap ++ text) ([] ++ nul :: rest)) = _ :=
        strtok_at_terminator (front ++ gap ++ text) (by simp) rest
      exact absurd hothers (not_tokensWithin_of_null hnull)

/-- A call returns the first of the tokens, and leaves the others. -/
theorem strtok_of_closedTokens {rest text : Bytes} {more : List Bytes}
    (h : closedTokens rest = text :: more) (front : Bytes) :
    ∃ i behind rest', strtok (.between front rest) =
        some (some i, .between (front ++ behind) rest') ∧
      cstr (front ++ behind ++ rest') i = text ∧ closedTokens rest' = more := by
  rcases token_or_none rest with ⟨gap, text', d, rest, hgap, htext, hd, rfl⟩ | ⟨hnil, -⟩
  · have hread : cstr (front ++ gap ++ (text' ++ nul :: rest)) (front ++ gap).length = text' :=
      cstr_append htext.ne_nul
    rcases hd with rfl | rfl
    · rw [closedTokens_cons hgap htext] at h
      cases h
      refine ⟨front.length + gap.length, gap ++ text ++ [nul], rest, ?_, ?_, rfl⟩
      · simp [strtok_cons front hgap rest htext]
      · simpa using hread
    · rw [closedTokens_last hgap htext] at h
      cases h
      have hnil : closedTokens ([] ++ nul :: rest) = [] := closedTokens_terminated (by simp) rest
      refine ⟨front.length + gap.length, gap ++ text, nul :: rest, ?_, ?_, hnil⟩
      · simp [strtok_last front hgap rest htext]
      · simpa using hread
  · rw [hnil] at h
    cases h

theorem strtok_of_closedTokens_nil {rest : Bytes} (h : closedTokens rest = []) (front : Bytes) :
    strtok (.between front rest) = none ∨
      ∃ t, strtok (.between front rest) = some (none, t) := by
  rcases token_or_none rest with ⟨gap, text, d, rest, hgap, htext, hd, rfl⟩ | ⟨-, hnone⟩
  · rcases hd with rfl | rfl
    · rw [closedTokens_cons hgap htext] at h
      cases h
    · rw [closedTokens_last hgap htext] at h
      cases h
  · exact hnone front

theorem closedTokens_take_eq_nil {bytes : Bytes} (h : closedTokens bytes = []) (m : ℕ) :
    closedTokens (bytes.take m) = [] := by
  have hprefix := closedTokens_append (bytes.take m) (bytes.drop m)
  rw [List.take_append_drop, h] at hprefix
  exact List.prefix_nil.mp hprefix

/-- **Counting tokens.**  `k` calls return tokens within the first `n` bytes exactly if `k`
tokens are ended there or by the byte behind. -/
theorem tokensWithin_iff (k : ℕ) (front rest : Bytes) (n : ℕ) :
    TokensWithin k (.between front rest) n ↔
      k ≤ (closedTokens (rest.take (n + 1 - front.length))).length := by
  -- the calls are in step with the tokens
  induction k generalizing front rest with
  | zero => exact ⟨fun _ => Nat.zero_le _, fun _ => tokensWithin_zero _ n⟩
  | succ k ih =>
      rcases token_or_none rest with ⟨gap, text, d, rest, hgap, htext, hd, rfl⟩ | ⟨hnil, hnone⟩
      · rw [closedTokens_take rest hgap htext hd]
        rcases hd with rfl | rfl
        · have hlength : (front ++ gap ++ text ++ [nul]).length =
              front.length + gap.length + text.length + 1 := by simp [Nat.add_assoc]
          have hdelimiter : space ≠ nul := by decide
          have htake : n + 1 - (front.length + gap.length + text.length + 1) =
              n + 1 - front.length - (gap.length + text.length + 1) := by omega
          rw [tokensWithin_cons front rest hgap htext, ih, hlength, if_neg hdelimiter, htake]
          split
          · simp only [List.length_nil]
            omega
          · simp only [List.length_cons]
            omega
        · rw [tokensWithin_last front rest hgap htext, if_pos rfl]
          split
          · simp only [List.length_nil]
            omega
          · simp only [List.length_cons, List.length_nil]
            omega
      · rw [closedTokens_take_eq_nil hnil]
        refine ⟨fun hwithin => ?_, fun hle => absurd hle (Nat.not_succ_le_zero k)⟩
        rcases hnone front with hnone | ⟨t, hnull⟩
        · exact absurd hwithin (not_tokensWithin_of_none hnone)
        · exact absurd hwithin (not_tokensWithin_of_null hnull)

end SsmIaas.Lib
