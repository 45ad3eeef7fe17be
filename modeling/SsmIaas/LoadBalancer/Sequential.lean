import SsmIaas.LoadBalancer.Select

/-!
# Requests one at a time

Without interleaving, a start or install request is one function of the two
lists, `serve`; `run_alone` says that this is what the callback machine of
`Select.lean` does when a request runs by itself.  The reply to the second
`checkOverLogin` takes no part in it.

Even then the lists go wrong in two ways.

* The two lists are scanned independently although index `k` of either names the
  same worker `k` of the WebServer (ports `7000 + k` to `9500 + k`).
  `workers_exclusive_iff` gives the exact runs in which no worker is handed to two
  members.
* A member who holds a port of `sessionList2` only is not recognised as logged in.
  `one_slot_iff` gives the exact runs in which every member has at most one slot
  and a second request is answered `dup`.
-/

namespace SsmIaas.LoadBalancer

open Lib

/-- A start (`sessionList1`) or install (`sessionList2`) request, from its first
redis command to its answer. -/
def serve (lists : Sessions) (email : Option Email) (target : ListName) : Sessions × Answer :=
  if checkOverLogin email (lists .sessionList1) then (lists, .dup)
  else
    let index := freeIndex (lists target)
    if index ≤ 3 then (setSession lists target index (storedText email), .url index)
    else (lists, .full)

/-- The operations of a sequential run. -/
inductive Op
  | start (member : Email)
  | install (member : Email)
  | release (worker : ℕ)
  deriving DecidableEq, Repr

def opStep (lists : Sessions) : Op → Sessions
  | .start member => (serve lists (some member) .sessionList1).1
  | .install member => (serve lists (some member) .sessionList2).1
  | .release worker => setSession lists .sessionList2 worker nullText

/-- The member and the list of a request, `none` for a release. -/
def Op.call : Op → Option (Email × ListName)
  | .start member => some (member, .sessionList1)
  | .install member => some (member, .sessionList2)
  | .release _ => none

theorem opStep_of_call {lists : Sessions} {op : Op} {member : Email} {target : ListName}
    (h : op.call = some (member, target)) :
    opStep lists op = (serve lists (some member) target).1 := by
  cases op with
  | start name => simp only [Op.call, Option.some.injEq, Prod.mk.injEq] at h; simp [opStep, h]
  | install name => simp only [Op.call, Option.some.injEq, Prod.mk.injEq] at h; simp [opStep, h]
  | release worker => simp [Op.call] at h

theorem opStep_of_release (lists : Sessions) {op : Op} (h : op.call = none) :
    ∃ worker, opStep lists op = setSession lists .sessionList2 worker nullText := by
  cases op with
  | start name => simp [Op.call] at h
  | install name => simp [Op.call] at h
  | release worker => exact ⟨worker, rfl⟩

/-! ## The callback machine, run alone -/

theorem serve_dup {lists : Sessions} {email : Option Email} {target : ListName}
    (hdup : checkOverLogin email (lists .sessionList1) = true) :
    serve lists email target = (lists, .dup) := by
  simp [serve, hdup]

theorem serve_grant {lists : Sessions} {email : Option Email} {target : ListName}
    (hdup : checkOverLogin email (lists .sessionList1) = false)
    (hfree : freeIndex (lists target) ≤ 3) :
    serve lists email target =
      (setSession lists target (freeIndex (lists target)) (storedText email),
        .url (freeIndex (lists target))) := by
  simp [serve, hdup, hfree]

theorem serve_full {lists : Sessions} {email : Option Email} {target : ListName}
    (hdup : checkOverLogin email (lists .sessionList1) = false)
    (hfree : ¬ freeIndex (lists target) ≤ 3) : serve lists email target = (lists, .full) := by
  simp [serve, hdup, hfree]

/-- A request whose replies come with nothing in between changes the lists and is
answered as `serve` says. -/
theorem run_alone (s : State) (call : Call) :
    let id := s.requests.length
    let s' := run step s [.request call, .reply id, .innerReply id, .reply id, .reply id]
    s'.lists = (serve s.lists call.email call.target).1 ∧
      ∃ r, s'.requests[id]? = some r ∧
        r.phase = .answered (serve s.lists call.email call.target).2 := by
  dsimp only
  by_cases hdup : checkOverLogin call.email (s.lists .sessionList1) = true
  · rw [serve_dup hdup]
    simp [run, step, State.reply, Request.onCheckOverLogin, Request.onInner, hdup]
  · rw [Bool.not_eq_true] at hdup
    by_cases hfree : freeIndex (s.lists call.target) ≤ 3
    · rw [serve_grant hdup hfree]
      simp [run, step, State.reply, Request.onCheckOverLogin, Request.onInner,
        Request.onLoadBalancer, hdup, hfree, Call.text]
    · rw [serve_full hdup hfree]
      simp [run, step, State.reply, Request.onCheckOverLogin, Request.onInner,
        Request.onLoadBalancer, hdup, hfree]

/-! ## One worker, two members -/

/-- No worker index is held by two different members: where both lists have an
entry that is not free, it is the same. -/
def WorkersExclusive (lists : Sessions) : Prop :=
  ∀ k, lists .sessionList1 k ≠ some nullText → lists .sessionList2 k ≠ some nullText →
    lists .sessionList1 k = lists .sessionList2 k

def ListName.other : ListName → ListName
  | .sessionList1 => .sessionList2
  | .sessionList2 => .sessionList1

theorem ListName.other_ne (name : ListName) : name.other ≠ name := by
  cases name <;> simp [ListName.other]

theorem ListName.other_other (name : ListName) : name.other.other = name := by
  cases name <;> rfl

theorem ListName.eq_other {name target : ListName} (h : name ≠ target) : name = target.other := by
  cases name <;> cases target <;> first | rfl | exact absurd rfl h

/-- The condition on a request that is about to be granted: the slot of the same
number in the other list is free or the member's own.  (A member called `"null"`
leaves the slot marked as free.) -/
def OtherListClear (lists : Sessions) (op : Op) : Prop :=
  match op.call with
  | none => True
  | some (member, target) =>
      checkOverLogin (some member) (lists .sessionList1) = false →
      freeIndex (lists target) ≤ 3 →
        member = nullText ∨ lists target.other (freeIndex (lists target)) = some nullText ∨
          lists target.other (freeIndex (lists target)) = some member

theorem workersExclusive_iff {lists : Sessions} :
    WorkersExclusive lists ↔ ∀ name k, lists name k ≠ some nullText →
      lists name.other k ≠ some nullText → lists name k = lists name.other k := by
  refine ⟨?_, ?_⟩
  · intro h name k hname hother
    cases name with
    | sessionList1 => exact h k hname hother
    | sessionList2 => exact (h k hother hname).symm
  · intro h k h₁ h₂
    exact h .sessionList1 k h₁ h₂

theorem workersExclusive_initRedis : WorkersExclusive initRedis := by
  intro k _ _
  rw [initRedis_apply, initRedis_apply]

/-- Writing one slot keeps the lists exclusive exactly when the same slot of the
other list agrees. -/
theorem workersExclusive_setSession {lists : Sessions} (h : WorkersExclusive lists)
    (target : ListName) (k : ℕ) (value : String) :
    WorkersExclusive (setSession lists target k value) ↔
      value = nullText ∨ lists target.other k = some nullText ∨
        lists target.other k = some value := by
  have hkeep : setSession lists target k value target.other k = lists target.other k :=
    setSession_of_ne (Or.inl target.other_ne)
  rw [workersExclusive_iff] at h ⊢
  refine ⟨?_, ?_⟩
  · intro h'
    have hslot := h' target k
    rw [setSession_same, hkeep] at hslot
    by_cases hvalue : value = nullText
    · exact Or.inl hvalue
    · by_cases hnull : lists target.other k = some nullText
      · exact Or.inr (Or.inl hnull)
      · exact Or.inr (Or.inr (hslot (by simpa using hvalue) hnull).symm)
  · intro hclear name j hname hname'
    by_cases hj : j = k
    · subst hj
      -- the slot that was written, seen from either list
      rcases eq_or_ne name target with rfl | hne
      · rw [setSession_same] at hname ⊢
        rw [hkeep] at hname' ⊢
        rcases hclear with rfl | hnull | hsame
        · exact absurd rfl hname
        · exact absurd hnull hname'
        · exact hsame.symm
      · obtain rfl : name = target.other := ListName.eq_other hne
        rw [ListName.other_other, setSession_same] at hname' ⊢
        rw [hkeep] at hname ⊢
        rcases hclear with rfl | hnull | hsame
        · exact absurd rfl hname'
        · exact absurd hnull hname
        · exact hsame
    · rw [setSession_of_ne (Or.inr hj)] at hname hname' ⊢
      rw [setSession_of_ne (Or.inr hj)]
      exact h name j hname hname'

theorem workersExclusive_step {lists : Sessions} (h : WorkersExclusive lists) (op : Op) :
    WorkersExclusive (opStep lists op) ↔ OtherListClear lists op := by
  cases hcall : op.call with
  | none =>
      obtain ⟨worker, hstep⟩ := opStep_of_release lists hcall
      simp only [OtherListClear, hcall, hstep, workersExclusive_setSession h, true_or]
  | some pair =>
      obtain ⟨member, target⟩ := pair
      rw [opStep_of_call hcall]
      simp only [OtherListClear, hcall]
      by_cases hdup : checkOverLogin (some member) (lists .sessionList1) = true
      · simp [serve_dup hdup, hdup, h]
      · rw [Bool.not_eq_true] at hdup
        by_cases hfree : freeIndex (lists target) ≤ 3
        · simp only [serve_grant hdup hfree, hdup, hfree, forall_const, storedText,
            Option.getD_some]
          exact workersExclusive_setSession h target _ member
        · simp [serve_full hdup hfree, hfree, h]

/-- **One worker, one member.**  A sequential run never has two members on one
worker index exactly when each of its grants finds the other list clear there. -/
theorem workers_exclusive_iff (ops : List Op) :
    Everywhere opStep WorkersExclusive initRedis ops ↔
      Along opStep OtherListClear initRedis ops :=
  everywhere_iff_along workersExclusive_initRedis fun _ op h => workersExclusive_step h op

/-- A start and an install share worker 1. -/
theorem start_install_share_worker :
    ¬ Everywhere opStep WorkersExclusive initRedis [.start "alice", .install "bob"] := by
  intro h
  have hlast := h.last 1 (by decide) (by decide)
  revert hlast
  decide

/-! ## One member, two slots -/

/-- The member's e-mail is in one of the slots `LoadBalancer` hands out. -/
def HoldsSlot (lists : Sessions) (member : Email) : Prop :=
  ∃ name k, 1 ≤ k ∧ k ≤ 3 ∧ lists name k = some member

/-- A request of a member who holds a slot is answered `dup` and changes nothing. -/
def AnsweredDup (lists : Sessions) (op : Op) : Prop :=
  match op.call with
  | none => True
  | some (member, target) =>
      HoldsSlot lists member → serve lists (some member) target = (lists, .dup)

/-- Every member occupies at most one slot of the two lists; `"null"` is no
member but the mark of a free slot. -/
def OneSlot (lists : Sessions) : Prop :=
  ∀ member, member ≠ nullText → ∀ name₁ k₁ name₂ k₂, lists name₁ k₁ = some member →
    lists name₂ k₂ = some member → name₁ = name₂ ∧ k₁ = k₂

/-- The condition on a request: a member with a slot in `sessionList2` has one in
`sessionList1` too. -/
def Recognised (lists : Sessions) (op : Op) : Prop :=
  match op.call with
  | none => True
  | some (member, _) =>
      checkOverLogin (some member) (lists .sessionList2) = true →
        checkOverLogin (some member) (lists .sessionList1) = true

theorem holdsSlot_iff {lists : Sessions} {member : Email} :
    HoldsSlot lists member ↔ checkOverLogin (some member) (lists .sessionList1) = true ∨
      checkOverLogin (some member) (lists .sessionList2) = true := by
  rw [checkOverLogin_iff, checkOverLogin_iff]
  refine ⟨?_, ?_⟩
  · intro hcase
    obtain ⟨name, h⟩ := hcase
    cases name with
    | sessionList1 => exact Or.inl h
    | sessionList2 => exact Or.inr h
  · intro hcase
    rcases hcase with h | h
    · exact ⟨_, h⟩
    · exact ⟨_, h⟩

/-- A request is answered `dup` only for an e-mail found in `sessionList1`. -/
theorem serve_eq_dup_iff {lists : Sessions} {email : Option Email} {target : ListName} :
    serve lists email target = (lists, .dup) ↔
      checkOverLogin email (lists .sessionList1) = true := by
  refine ⟨?_, ?_⟩
  · intro h
    by_contra hdup
    rw [Bool.not_eq_true] at hdup
    by_cases hfree : freeIndex (lists target) ≤ 3
    · rw [serve_grant hdup hfree] at h
      simp at h
    · rw [serve_full hdup hfree] at h
      simp at h
  · exact serve_dup

theorem answeredDup_iff (lists : Sessions) (op : Op) :
    AnsweredDup lists op ↔ Recognised lists op := by
  unfold AnsweredDup Recognised
  split
  · rfl
  · rw [holdsSlot_iff, serve_eq_dup_iff]
    tauto

/-- Besides the members' slots, the lists hold free marks and fields never set. -/
structure OneSlotInv (lists : Sessions) : Prop where
  oneSlot : OneSlot lists
  outside : ∀ name k member, lists name k = some member → member ≠ nullText → 1 ≤ k ∧ k ≤ 3

theorem oneSlotInv_initRedis : OneSlotInv initRedis := by
  have hnull : ∀ name k member, initRedis name k = some member → member = nullText := by
    intro name k member h
    rw [initRedis_apply] at h
    split at h
    · simpa using h.symm
    · simp at h
  refine ⟨?_, ?_⟩
  · intro member hne name₁ k₁ _ _ h₁ _
    exact absurd (hnull name₁ k₁ member h₁) hne
  · intro name k member h hne
    exact absurd (hnull name k member h) hne

/-- Freeing a slot takes an entry away. -/
theorem OneSlotInv.release {lists : Sessions} (h : OneSlotInv lists) (worker : ℕ) :
    OneSlotInv (setSession lists .sessionList2 worker nullText) := by
  refine ⟨?_, ?_⟩
  · intro member hne name₁ k₁ name₂ k₂ h₁ h₂
    exact h.oneSlot member hne _ _ _ _ (of_setSession hne h₁).2 (of_setSession hne h₂).2
  · intro name k member hslot hne
    exact h.outside name k member (of_setSession hne hslot).2 hne

/-- A grant to a member who has no slot yet gives them their only one. -/
theorem OneSlotInv.grant {lists : Sessions} (h : OneSlotInv lists) {target : ListName} {k : ℕ}
    {member : Email} (hk : 1 ≤ k ∧ k ≤ 3) (hnone : ¬ HoldsSlot lists member) :
    OneSlotInv (setSession lists target k member) := by
  -- the granted member is only found in the slot just written
  have hfind : ∀ name j, member ≠ nullText →
      setSession lists target k member name j = some member → name = target ∧ j = k := by
    intro name j hne hslot
    rw [setSession_apply] at hslot
    split at hslot
    · assumption
    · obtain ⟨hlo, hhi⟩ := h.outside name j member hslot hne
      exact absurd ⟨name, j, hlo, hhi, hslot⟩ hnone
  refine ⟨?_, ?_⟩
  · intro other hne name₁ k₁ name₂ k₂ h₁ h₂
    rcases eq_or_ne other member with rfl | hother
    · obtain ⟨rfl, rfl⟩ := hfind _ _ hne h₁
      obtain ⟨rfl, rfl⟩ := hfind _ _ hne h₂
      exact ⟨rfl, rfl⟩
    · exact h.oneSlot other hne _ _ _ _ (of_setSession hother h₁).2 (of_setSession hother h₂).2
  · intro name j other hslot hne
    rcases eq_or_ne other member with rfl | hother
    · obtain ⟨-, rfl⟩ := hfind _ _ hne hslot
      exact hk
    · exact h.outside name j other (of_setSession hother hslot).2 hne

theorem oneSlotInv_step {lists : Sessions} {op : Op} (h : OneSlotInv lists)
    (hrec : Recognised lists op) : OneSlotInv (opStep lists op) := by
  cases hcall : op.call with
  | none =>
      obtain ⟨worker, hstep⟩ := opStep_of_release lists hcall
      rw [hstep]
      exact h.release worker
  | some pair =>
      obtain ⟨member, target⟩ := pair
      rw [opStep_of_call hcall]
      simp only [Recognised, hcall] at hrec
      by_cases hdup : checkOverLogin (some member) (lists .sessionList1) = true
      · rw [serve_dup hdup]
        exact h
      · have hnone : ¬ HoldsSlot lists member := by
          rw [holdsSlot_iff]
          tauto
        rw [Bool.not_eq_true] at hdup
        by_cases hfree : freeIndex (lists target) ≤ 3
        · rw [serve_grant hdup hfree]
          exact h.grant ⟨freeIndex_pos _, hfree⟩ hnone
        · rw [serve_full hdup hfree]
          exact h

/-- **One member, one slot.**  In a sequential run every member has at most one
slot, and requests of slot holders are answered `dup` and change nothing, exactly
when no request comes from a member with a slot of `sessionList2` only. -/
theorem one_slot_iff (ops : List Op) :
    (Along opStep AnsweredDup initRedis ops ∧ Everywhere opStep OneSlot initRedis ops) ↔
      Along opStep Recognised initRedis ops := by
  refine ⟨?_, ?_⟩
  · intro hcase
    obtain ⟨hdup, -⟩ := hcase
    exact hdup.mono fun lists op => (answeredDup_iff lists op).mp
  · intro hrec
    refine ⟨hrec.mono fun lists op => (answeredDup_iff lists op).mpr, ?_⟩
    have hinv := hrec.everywhere oneSlotInv_initRedis fun _ _ => oneSlotInv_step
    exact hinv.mono fun _ h => h.oneSlot

/-- A member who is installing an image can start one as well. -/
theorem install_then_start_not_dup :
    ¬ (Along opStep AnsweredDup initRedis [.install "alice", .start "alice"] ∧
      Everywhere opStep OneSlot initRedis [.install "alice", .start "alice"]) := by
  intro hcase
  obtain ⟨hdup, -⟩ := hcase
  have hsecond := hdup.2.1 ⟨.sessionList2, 1, by decide, by decide, by decide⟩
  have hanswer := congrArg Prod.snd hsecond
  revert hanswer
  decide

end SsmIaas.LoadBalancer
