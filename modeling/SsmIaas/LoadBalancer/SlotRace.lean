import SsmIaas.LoadBalancer.Select

/-!
# Concurrent grants

`LoadBalancer` looks for a free slot in one redis command and writes it in
another, so a grant can hit a slot that another member was given in between.
`race_overwrites` is the shortest such run: two members start an image, both read
the list while port 1 is free, and both are sent to port 1.

The window is the only way to lose a slot.  Call a scan clear when no request of
another member has found the same slot and not yet written it.  If every scan of
a run is clear, and no member is called `"null"` like the free mark, then every
pending write goes to a slot that is free or the member's own (`Inv.pending`), and
the ports handed out are different (`grants_exclusive`).
-/

namespace SsmIaas.LoadBalancer

open Lib

/-- A grant made by this event does not hit a slot that holds another member's
e-mail at that moment. -/
def NoOverwrite (s : State) : Event → Prop
  | .reply id =>
      match s.requests[id]? with
      | none => True
      | some r =>
          match r.phase with
          | .setSession k =>
              match s.holder r.call.target k with
              | none => True
              | some other => s.lists r.call.target k = some other → other = r.call.text
          | _ => True
  | _ => True

/-- The event is the `HSET` that gives `port` of a list to a member. -/
def Grants (s : State) (event : Event) (member : String) (target : ListName) (port : ℕ) : Prop :=
  ∃ id r, event = .reply id ∧ s.requests[id]? = some r ∧ r.phase = .setSession port ∧
    r.call.target = target ∧ r.call.text = member

/-- No grant of the run overwrites another member, and two members granted ports
of one list, with no release in between, got different ones. -/
def GrantsExclusive (events : List Event) : Prop :=
  Along step NoOverwrite init events ∧
    ∀ before first between second after member₁ member₂ target port₁ port₂,
      events = before ++ first :: (between ++ second :: after) →
      Grants (run step init before) first member₁ target port₁ →
      Grants (run step init (before ++ first :: between)) second member₂ target port₂ →
      (∀ worker, .release worker ∉ between) → member₁ ≠ member₂ → port₁ ≠ port₂

/-- The condition on the scans: no member is called `"null"`, and when
`LoadBalancer` reads a list, no other member's request has found the slot that is
first free now and not yet written it. -/
def ClearScan (s : State) : Event → Prop
  | .request call => call.text ≠ nullText
  | .reply id =>
      match s.requests[id]? with
      | none => True
      | some r => r.phase = .loadBalancer → ∀ other ∈ s.requests,
          other.call.target = r.call.target →
          other.phase = .setSession (freeIndex (s.lists r.call.target)) →
          other.call.text = r.call.text
  | _ => True

instance (s : State) (event : Event) : Decidable (NoOverwrite s event) := by
  unfold NoOverwrite
  repeat' split
  all_goals infer_instance

instance (s : State) (event : Event) : Decidable (ClearScan s event) := by
  unfold ClearScan
  repeat' split
  all_goals infer_instance

/-! ## The invariant -/

structure Inv (s : State) : Prop where
  /-- a slot has the text of the member it was granted to -/
  slot : ∀ name k member, s.holder name k = some member → s.lists name k = some member
  named : ∀ name k member, s.holder name k = some member → member ≠ nullText
  member : ∀ r ∈ s.requests, r.call.text ≠ nullText
  /-- a slot about to be written is nobody else's -/
  pending : ∀ r ∈ s.requests, ∀ k, r.phase = .setSession k → ∀ other,
    s.holder r.call.target k = some other → other = r.call.text
  /-- one slot is only ever about to be written for one member -/
  single : ∀ r₁ ∈ s.requests, ∀ r₂ ∈ s.requests, ∀ k, r₁.phase = .setSession k →
    r₂.phase = .setSession k → r₁.call.target = r₂.call.target → r₁.call.text = r₂.call.text

theorem inv_init : Inv init :=
  ⟨by simp [init], by simp [init], by simp [init], by simp [init], by simp [init]⟩

/-- The slot a scan has just found has no holder: it reads `"null"`, and no member
is called that. -/
theorem Inv.holder_freeIndex {s : State} (h : Inv s) {name : ListName}
    (hle : freeIndex (s.lists name) ≤ 3) : s.holder name (freeIndex (s.lists name)) = none := by
  cases hholder : s.holder name (freeIndex (s.lists name)) with
  | none => rfl
  | some member =>
      have hslot := h.slot _ _ _ hholder
      rw [freeIndex_free hle, Option.some.injEq] at hslot
      exact absurd hslot.symm (h.named _ _ _ hholder)

/-- A write pending after a clear scan: whoever else waits for the slot is the
same member. -/
theorem ClearScan.same_member {s : State} {id : ℕ} {r other : Request}
    (h : ClearScan s (.reply id)) (hr : s.requests[id]? = some r) (hphase : r.phase = .loadBalancer)
    (hother : other ∈ s.requests) (htarget : other.call.target = r.call.target)
    (hpending : other.phase = .setSession (freeIndex (s.lists r.call.target))) :
    other.call.text = r.call.text := by
  simp only [ClearScan, hr] at h
  exact h hphase other hother htarget hpending

/-- After a step, the slot a request is about to write is nobody else's: the one who
wrote it in this step had waited for it too, and a scan found it free. -/
theorem Inv.pending_step {s : State} (h : Inv s) {event : Event} {r : Request}
    (hr : r ∈ (step s event).requests) {k : ℕ} (hphase : r.phase = .setSession k) {other : String}
    (hholder : (step s event).holder r.call.target k = some other) : other = r.call.text := by
  rcases (request_step hr).pending k hphase with ⟨r₀, hr₀, hcall, hphase₀⟩ |
    ⟨id, r₀, rfl, hr₀, hphase₀, hcall, hk, hle⟩
  · rw [← hcall] at hholder ⊢
    rcases slot_step s event r₀.call.target k with ⟨-, hkeep⟩ |
      ⟨id, writer, -, hwriter, hwphase, htarget, -, hgrant⟩ | ⟨-, -, -, hfree⟩
    · exact h.pending r₀ hr₀ k hphase₀ other (hkeep ▸ hholder)
    · have htext : writer.call.text = other := by simpa [hgrant] using hholder
      rw [← htext]
      exact h.single writer (List.mem_of_getElem? hwriter) r₀ hr₀ k hwphase hphase₀ htarget
    · simp [hfree] at hholder
  · have hnone : s.holder r.call.target k = none := by
      rw [hk] at hle ⊢
      exact h.holder_freeIndex hle
    rcases slot_step s (.reply id) r.call.target k with ⟨-, hkeep⟩ |
      ⟨id', writer, hid, hwriter, hwphase, -⟩ | ⟨hrelease, -⟩
    · simp [hkeep, hnone] at hholder
    · -- this reply was a scan, not a write
      obtain rfl : id = id' := by simpa using hid
      rw [hr₀, Option.some.injEq] at hwriter
      simp [← hwriter, hphase₀] at hwphase
    · simp at hrelease

/-- After a clear step, two requests about to write one slot are of one member. -/
theorem Inv.single_step {s : State} (h : Inv s) {event : Event} (hclear : ClearScan s event)
    {r₁ r₂ : Request} (hr₁ : r₁ ∈ (step s event).requests) (hr₂ : r₂ ∈ (step s event).requests)
    {k : ℕ} (hphase₁ : r₁.phase = .setSession k) (hphase₂ : r₂.phase = .setSession k)
    (htarget : r₁.call.target = r₂.call.target) : r₁.call.text = r₂.call.text := by
  rcases (request_step hr₁).pending k hphase₁ with ⟨o₁, ho₁, hcall₁, hp₁⟩ |
      ⟨id, o₁, rfl, ho₁, hp₁, hcall₁, hk, -⟩ <;>
    rcases (request_step hr₂).pending k hphase₂ with ⟨o₂, ho₂, hcall₂, hp₂⟩ |
      ⟨id₂, o₂, hid, ho₂, hp₂, hcall₂, hk₂, -⟩
  · rw [← hcall₁, ← hcall₂] at htarget ⊢
    exact h.single o₁ ho₁ o₂ ho₂ k hp₁ hp₂ htarget
  · subst hid
    rw [← hcall₁, ← hcall₂] at htarget ⊢
    rw [← hcall₂] at hk₂
    exact hclear.same_member ho₂ hp₂ ho₁ htarget (hk₂ ▸ hp₁)
  · rw [← hcall₁, ← hcall₂] at htarget ⊢
    rw [← hcall₁] at hk
    exact (hclear.same_member ho₁ hp₁ ho₂ htarget.symm (hk ▸ hp₂)).symm
  · -- both found the slot in this step, so they are one request
    obtain rfl : id = id₂ := by simpa using hid
    rw [ho₁, Option.some.injEq] at ho₂
    rw [← hcall₁, ← hcall₂, ho₂]

theorem inv_step {s : State} {event : Event} (h : Inv s) (hclear : ClearScan s event) :
    Inv (step s event) where
  slot := by
    intro name k member hholder
    rcases slot_step s event name k with ⟨hlists, hkeep⟩ | ⟨id, r, -, -, -, -, hlists, hgrant⟩ |
      ⟨-, -, -, hfree⟩
    · rw [hlists]
      exact h.slot name k member (hkeep ▸ hholder)
    · rw [hlists, ← hgrant, hholder]
    · simp [hfree] at hholder
  named := by
    intro name k member hholder
    rcases slot_step s event name k with ⟨-, hkeep⟩ | ⟨id, r, -, hr, -, -, -, hgrant⟩ |
      ⟨-, -, -, hfree⟩
    · exact h.named name k member (hkeep ▸ hholder)
    · have htext : r.call.text = member := by simpa [hgrant] using hholder
      exact htext ▸ h.member r (List.mem_of_getElem? hr)
    · simp [hfree] at hholder
  member := by
    intro r hr
    rcases (request_step hr).call with ⟨r₀, hr₀, hcall⟩ | rfl
    · exact hcall ▸ h.member r₀ hr₀
    · exact hclear
  pending := fun _ hr _ hphase _ hholder => h.pending_step hr hphase hholder
  single := fun _ hr₁ _ hr₂ _ hphase₁ hphase₂ htarget =>
    h.single_step hclear hr₁ hr₂ hphase₁ hphase₂ htarget

theorem Inv.noOverwrite {s : State} (h : Inv s) (event : Event) : NoOverwrite s event := by
  unfold NoOverwrite
  split
  · split
    · trivial
    · rename_i id r hr
      split
      · rename_i k hphase
        split
        · trivial
        · rename_i other hholder
          exact fun _ => h.pending r (List.mem_of_getElem? hr) k hphase other hholder
      · trivial
  · trivial

/-! ## Different members get different ports -/

/-- A slot keeps its holder as long as nobody releases it: a later grant of the
slot can only go to the same member. -/
theorem holder_step {s : State} {event : Event} (h : Inv s) {name : ListName} {k : ℕ}
    {member : String} (hholder : s.holder name k = some member)
    (hrelease : ∀ worker, event ≠ .release worker) :
    (step s event).holder name k = some member := by
  rcases slot_step s event name k with ⟨-, hkeep⟩ | ⟨id, r, -, hr, hphase, htarget, -, hgrant⟩ |
    ⟨hfree, -⟩
  · rw [hkeep, hholder]
  · subst htarget
    rw [hgrant, h.pending r (List.mem_of_getElem? hr) k hphase member hholder]
  · exact absurd hfree (hrelease k)

theorem holder_run {s : State} {events : List Event} (h : Inv s)
    (hclear : Along step ClearScan s events) {name : ListName} {k : ℕ} {member : String}
    (hholder : s.holder name k = some member) (hrelease : ∀ worker, .release worker ∉ events) :
    (run step s events).holder name k = some member := by
  induction events generalizing s with
  | nil => exact hholder
  | cons event rest ih =>
      refine ih (inv_step h hclear.1) hclear.2 ?_ ?_
      · refine holder_step h hholder fun worker heq => hrelease worker ?_
        simp [heq]
      · exact fun worker hmem => hrelease worker (List.mem_cons_of_mem _ hmem)

/-- **Exclusive grants.**  When every scan of a run is clear, no grant overwrites
another member's slot, and members hold different ports. -/
theorem grants_exclusive (events : List Event) (hclear : Along step ClearScan init events) :
    GrantsExclusive events := by
  refine ⟨hclear.of_invariant inv_init (fun s e => inv_step) fun s e h _ => h.noOverwrite e, ?_⟩
  rintro before first between second after member₁ member₂ target port₁ port₂ rfl
    ⟨id₁, r₁, rfl, hr₁, hphase₁, rfl, rfl⟩ ⟨id₂, r₂, rfl, hr₂, hphase₂, htarget, rfl⟩
    hrelease hne heq
  obtain ⟨hbefore, hfirst, hrest⟩ := along_append.mp hclear
  have hinv : Inv (run step init before) := hbefore.invariant inv_init fun s e => inv_step
  have hinv₁ := inv_step hinv hfirst
  -- the first grant makes its member the holder, and it stays the holder
  have hheld : (step (run step init before) (.reply id₁)).holder r₁.call.target port₁ =
      some r₁.call.text := by
    simp [step, hr₁, State.reply, hphase₁]
  have hbetween := (along_append.mp hrest).1
  have hstill := holder_run hinv₁ hbetween hheld hrelease
  have hinv₂ : Inv (run step init (before ++ .reply id₁ :: between)) := by
    rw [run_append, run_cons]
    exact hbetween.invariant hinv₁ fun s e => inv_step
  -- so the second grant of the same slot would be pending against it
  refine hne (hinv₂.pending r₂ (List.mem_of_getElem? hr₂) port₂ hphase₂ r₁.call.text ?_)
  rw [htarget, ← heq, run_append, run_cons]
  exact hstill

/-- A start request of this member. -/
def startCall (email : Email) : Call :=
  ⟨some email, .sessionList1, some (decimal 1), some 2, some []⟩

/-- Two members start an image one after the other and get ports 1 and 2. -/
theorem grants_exclusive_two_starts :
    GrantsExclusive [.request (startCall "alice"), .reply 0, .reply 0, .reply 0,
      .request (startCall "bob"), .reply 1, .reply 1, .reply 1] :=
  grants_exclusive _ (by decide)

/-- Two members start an image at the same time: both scans find port 1 free, and
the second write takes the slot from the first member. -/
theorem race_overwrites :
    ¬ GrantsExclusive [.request (startCall "alice"), .request (startCall "bob"),
      .reply 0, .reply 1, .reply 0, .reply 1, .reply 0, .reply 1] := by
  intro h
  have hrun := h.1
  revert hrun
  decide

end SsmIaas.LoadBalancer
