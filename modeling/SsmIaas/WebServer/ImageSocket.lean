import SsmIaas.LoadBalancer.Sequential
import Mathlib.Data.Finset.Card
import Mathlib.Data.Finset.Image

/-!
# Releasing a port when an image WebSocket closes

A port is taken by the LoadBalancer and given back by the WebServer: the `close`
handler of a worker's image sockets (`bin/www`) writes `null` into `port<k>` of
`sessionList2`, whatever list the port was taken from and whoever else is still
connected.

The abstract side of this file is the table of *sessions*: one is opened by every
grant and ends when its member's last image socket on that worker closes.  A
correct handler would free exactly the slots of the sessions that end.
`closes_correct_iff` says which runs of the real handler look like that: those
where no ending session came from `sessionList1`, and where a close on a worker
leaves no other socket of the member entered in `sessionList2` behind.  In these
runs, and by the first half of the condition alone, a full list means three live
sessions.
-/

namespace SsmIaas.WebServer

open Lib LoadBalancer

/-- A granted port: the list it was taken from, its number and its member. -/
structure Session where
  list : ListName
  port : ℕ
  member : Email
  deriving DecidableEq, Repr

structure State where
  lists : Sessions
  /-- the number of open image sockets of each member on each worker -/
  sockets : ℕ → Email → ℕ
  /-- ghost: the sessions that were granted and have not ended -/
  alive : Finset Session

inductive Event
  /-- a start (`sessionList1`) or install (`sessionList2`) request, run by itself -/
  | request (member : Email) (target : ListName)
  /-- a browser of the member opens an image socket on a worker -/
  | connect (worker : ℕ) (member : Email)
  /-- one of the member's image sockets on a worker closes -/
  | close (worker : ℕ) (member : Email)
  deriving DecidableEq, Repr

def setCount (sockets : ℕ → Email → ℕ) (worker : ℕ) (member : Email) (count : ℕ) :
    ℕ → Email → ℕ :=
  Function.update sockets worker (Function.update (sockets worker) member count)

/-- The `close` handler: `setSession ('sessionList2', 'port' + worker, null)`. -/
def onClose (lists : Sessions) (worker : ℕ) : Sessions :=
  setSession lists .sessionList2 worker nullText

def step (s : State) : Event → State
  | .request member target =>
      let result := serve s.lists (some member) target
      { s with
        lists := result.1
        alive := match result.2 with
          | .url port => insert ⟨target, port, member⟩ s.alive
          | _ => s.alive }
  | .connect worker member =>
      { s with sockets := setCount s.sockets worker member (s.sockets worker member + 1) }
  | .close worker member =>
      if s.sockets worker member = 0 then s
      else
        { lists := onClose s.lists worker
          sockets := setCount s.sockets worker member (s.sockets worker member - 1)
          alive :=
            if s.sockets worker member = 1 then
              s.alive.filter fun session => ¬ (session.port = worker ∧ session.member = member)
            else s.alive }

def init : State := ⟨initRedis, fun _ _ => 0, ∅⟩

/-! ## What the handler should do, and when it does -/

/-- The last close of a session's member frees the session's slot. -/
def LastCloseFrees (s : State) (worker : ℕ) (member : Email) : Prop :=
  s.sockets worker member = 1 → ∀ name, ⟨name, worker, member⟩ ∈ s.alive →
    (step s (.close worker member)).lists name worker = some nullText

/-- A slot that a close frees has no member still connected to the worker. -/
def FreesNoConnected (s : State) (worker : ℕ) (member : Email) : Prop :=
  ∀ name holder, holder ≠ nullText → s.lists name worker = some holder →
    (step s (.close worker member)).lists name worker = some nullText →
    (step s (.close worker member)).sockets worker holder = 0

/-- The list is only reported full with three live sessions. -/
def FullMeansThree (s : State) (member : Email) (target : ListName) : Prop :=
  (serve s.lists (some member) target).2 = .full →
    3 ≤ (s.alive.filter fun session => session.list = target).card

def Correct (s : State) : Event → Prop
  | .request member target => FullMeansThree s member target
  | .connect _ _ => True
  | .close worker member =>
      s.sockets worker member ≠ 0 →
        LastCloseFrees s worker member ∧ FreesNoConnected s worker member

/-- The condition on a close: the session it ends, if any, was not granted from
`sessionList1`, and the member entered in `sessionList2` has no socket left. -/
def Releasable (s : State) : Event → Prop
  | .close worker member =>
      s.sockets worker member ≠ 0 →
        (s.sockets worker member = 1 → ⟨.sessionList1, worker, member⟩ ∉ s.alive) ∧
        ∀ holder, holder ≠ nullText → s.lists .sessionList2 worker = some holder →
          setCount s.sockets worker member (s.sockets worker member - 1) worker holder = 0
  | _ => True

/-! ## The invariant -/

structure Inv (s : State) : Prop where
  /-- an entry of a list is a live session -/
  entry : ∀ name k member, member ≠ nullText → s.lists name k = some member →
    ⟨name, k, member⟩ ∈ s.alive
  /-- a session started from `sessionList1` keeps its entry -/
  started : ∀ k member, ⟨.sessionList1, k, member⟩ ∈ s.alive →
    s.lists .sessionList1 k = some member ∧ member ≠ nullText

theorem inv_init : Inv init := by
  refine ⟨?_, by simp [init]⟩
  intro name k member hne hslot
  simp only [init, initRedis_apply] at hslot
  split at hslot
  · exact absurd (Option.some_inj.mp hslot).symm hne
  · simp at hslot

/-- A member who is granted a port of `sessionList1` is not called `"null"`: the
free mark would have been taken for their own entry. -/
theorem ne_null_of_grant {lists : Sessions} {member : Email}
    (hdup : checkOverLogin (some member) (lists .sessionList1) = false)
    (hfree : freeIndex (lists .sessionList1) ≤ 3) : member ≠ nullText := by
  rintro rfl
  have hheld : checkOverLogin (some nullText) (lists .sessionList1) = true :=
    checkOverLogin_iff.mpr ⟨_, freeIndex_pos _, hfree, freeIndex_free hfree⟩
  simp [hheld] at hdup

theorem inv_request {s : State} (h : Inv s) (member : Email) (target : ListName) :
    Inv (step s (.request member target)) := by
  by_cases hdup : checkOverLogin (some member) (s.lists .sessionList1) = true
  · simpa only [step, serve_dup hdup] using h
  rw [Bool.not_eq_true] at hdup
  by_cases hfree : freeIndex (s.lists target) ≤ 3
  · set k := freeIndex (s.lists target) with hk
    have hslot : s.lists target k = some nullText := freeIndex_free hfree
    have hstep : step s (.request member target) =
        { s with lists := setSession s.lists target k member
                 alive := insert ⟨target, k, member⟩ s.alive } := by
      simp only [step, serve_grant hdup hfree, storedText, Option.getD_some]
      rfl
    rw [hstep]
    refine ⟨?_, ?_⟩
    · intro name j other hne hentry
      dsimp only at hentry ⊢
      rw [setSession_apply] at hentry
      split at hentry
      · rename_i hsame
        obtain rfl : member = other := by simpa using hentry
        rw [hsame.1, hsame.2]
        exact Finset.mem_insert_self _ _
      · exact Finset.mem_insert_of_mem (h.entry name j other hne hentry)
    · intro j other hmem
      dsimp only at hmem ⊢
      rcases Finset.mem_insert.mp hmem with heq | hmem
      · obtain ⟨rfl, rfl, rfl⟩ : ListName.sessionList1 = target ∧ j = k ∧ other = member := by
          simpa using heq
        exact ⟨setSession_same _ _ _ _, ne_null_of_grant hdup hfree⟩
      · obtain ⟨hentry, hne⟩ := h.started j other hmem
        refine ⟨?_, hne⟩
        -- the slot just granted was free, so it is not this one
        rw [setSession_of_ne, hentry]
        by_contra hsame
        push Not at hsame
        rw [← hsame.1, ← hsame.2, hentry] at hslot
        exact hne (Option.some_inj.mp hslot)
  · simpa only [step, serve_full hdup hfree] using h

theorem step_close {s : State} {worker : ℕ} {member : Email}
    (hopen : s.sockets worker member ≠ 0) :
    step s (.close worker member) =
      { lists := onClose s.lists worker
        sockets := setCount s.sockets worker member (s.sockets worker member - 1)
        alive :=
          if s.sockets worker member = 1 then
            s.alive.filter fun session => ¬ (session.port = worker ∧ session.member = member)
          else s.alive } := by
  simp only [step, if_neg hopen]

@[simp] theorem onClose_freed (lists : Sessions) (worker : ℕ) :
    onClose lists worker .sessionList2 worker = some nullText :=
  setSession_same _ _ _ _

@[simp] theorem onClose_sessionList1 (lists : Sessions) (worker k : ℕ) :
    onClose lists worker .sessionList1 k = lists .sessionList1 k :=
  setSession_of_ne (Or.inl (by simp))

theorem inv_close {s : State} {worker : ℕ} {member : Email} (h : Inv s)
    (hrel : Releasable s (.close worker member)) : Inv (step s (.close worker member)) := by
  by_cases hopen : s.sockets worker member = 0
  · simpa only [step, if_pos hopen] using h
  obtain ⟨hstarted, -⟩ := hrel hopen
  rw [step_close hopen]
  refine ⟨?_, ?_⟩
  · intro name k other hne hentry
    obtain ⟨hkept, hbefore⟩ := of_setSession hne hentry
    have hmem := h.entry name k other hne hbefore
    dsimp only
    split
    · next hlast =>
        refine Finset.mem_filter.mpr ⟨hmem, ?_⟩
        -- an ended session whose entry is kept is one of `sessionList1`
        rintro ⟨rfl, rfl⟩
        cases name with
        | sessionList1 => exact hstarted hlast hmem
        | sessionList2 => exact hkept ⟨rfl, rfl⟩
    · exact hmem
  · intro k other hmem
    have hmem' : (⟨.sessionList1, k, other⟩ : Session) ∈ s.alive := by
      dsimp only at hmem
      split at hmem
      · exact (Finset.mem_filter.mp hmem).1
      · exact hmem
    simpa only [onClose_sessionList1] using h.started k other hmem'

theorem inv_step (s : State) (event : Event) (h : Inv s) (hrel : Releasable s event) :
    Inv (step s event) := by
  cases event with
  | request member target => exact inv_request h member target
  | connect worker member => exact ⟨h.entry, h.started⟩
  | close worker member => exact inv_close h hrel

/-! ## The condition is exact -/

/-- Three slots of a list that are not free are three sessions. -/
theorem Inv.fullMeansThree {s : State} (h : Inv s) (hfields : ∀ name k, 1 ≤ k → k ≤ 3 →
    s.lists name k ≠ none) (member : Email) (target : ListName) :
    FullMeansThree s member target := by
  intro hfull
  have hnotfree : ¬ freeIndex (s.lists target) ≤ 3 := by
    intro hfree
    by_cases hdup : checkOverLogin (some member) (s.lists .sessionList1) = true
    · simp [serve_dup hdup] at hfull
    · rw [Bool.not_eq_true] at hdup
      simp [serve_grant hdup hfree] at hfull
  have hports : ({1, 2, 3} : Finset ℕ) ⊆
      (s.alive.filter fun session => session.list = target).image Session.port := by
    intro k hk
    have hrange : 1 ≤ k ∧ k ≤ 3 := by
      simp only [Finset.mem_insert, Finset.mem_singleton] at hk
      omega
    obtain ⟨holder, hholder⟩ := Option.ne_none_iff_exists'.mp (hfields target k hrange.1 hrange.2)
    have hne : holder ≠ nullText := by
      rintro rfl
      exact hnotfree (freeIndex_le_iff.mpr ⟨k, hrange.1, hrange.2, hholder⟩)
    exact Finset.mem_image.mpr ⟨⟨target, k, holder⟩,
      Finset.mem_filter.mpr ⟨h.entry target k holder hne hholder, rfl⟩, rfl⟩
  calc 3 = ({1, 2, 3} : Finset ℕ).card := rfl
    _ ≤ ((s.alive.filter fun session => session.list = target).image Session.port).card :=
        Finset.card_le_card hports
    _ ≤ (s.alive.filter fun session => session.list = target).card := Finset.card_image_le

theorem Inv.close_iff {s : State} (h : Inv s) {worker : ℕ} {member : Email}
    (hopen : s.sockets worker member ≠ 0) :
    (LastCloseFrees s worker member ∧ FreesNoConnected s worker member) ↔
      (s.sockets worker member = 1 → ⟨.sessionList1, worker, member⟩ ∉ s.alive) ∧
        ∀ holder, holder ≠ nullText → s.lists .sessionList2 worker = some holder →
          setCount s.sockets worker member (s.sockets worker member - 1) worker holder = 0 := by
  have hfreed : (step s (.close worker member)).lists .sessionList2 worker = some nullText := by
    simp only [step_close hopen, onClose_freed]
  have hkept : (step s (.close worker member)).lists .sessionList1 worker =
      s.lists .sessionList1 worker := by
    simp only [step_close hopen, onClose_sessionList1]
  have hsockets : (step s (.close worker member)).sockets =
      setCount s.sockets worker member (s.sockets worker member - 1) := by
    rw [step_close hopen]
  unfold LastCloseFrees FreesNoConnected
  rw [hsockets]
  refine ⟨?_, ?_⟩
  · intro hcase
    obtain ⟨hlast, hconn⟩ := hcase
    refine ⟨fun hone hmem => ?_, fun holder hne hentry => hconn _ holder hne hentry hfreed⟩
    have hnull := hlast hone _ hmem
    obtain ⟨hentry, hne⟩ := h.started worker member hmem
    rw [hkept, hentry] at hnull
    exact hne (Option.some_inj.mp hnull)
  · intro hcase
    obtain ⟨hstarted, hconn⟩ := hcase
    refine ⟨fun hone name hmem => ?_, fun name holder hne hentry hnull => ?_⟩
    · cases name with
      | sessionList1 => exact absurd hmem (hstarted hone)
      | sessionList2 => exact hfreed
    · cases name with
      | sessionList1 =>
          rw [hkept, hentry] at hnull
          exact absurd (Option.some_inj.mp hnull) hne
      | sessionList2 => exact hconn holder hne hentry

/-- The fields `port1` to `port3` are set by `initRedis` and stay set. -/
theorem fields_step {s : State} (event : Event)
    (h : ∀ name k, 1 ≤ k → k ≤ 3 → s.lists name k ≠ none) :
    ∀ name k, 1 ≤ k → k ≤ 3 → (step s event).lists name k ≠ none := by
  have hset : ∀ target j value name k, 1 ≤ k → k ≤ 3 →
      setSession s.lists target j value name k ≠ none := by
    intro target j value name k hlo hhi
    rw [setSession_apply]
    split
    · simp
    · exact h name k hlo hhi
  cases event with
  | connect worker member => exact h
  | close worker member =>
      simp only [step]
      split
      · exact h
      · exact hset _ _ _
  | request member target =>
      simp only [step, serve]
      split
      · exact h
      · split
        · exact hset _ _ _
        · exact h

/-- **Releases.**  Every close of a run frees the slot of the session it ends and
no slot of a connected member, and no list is reported full with fewer than three
live sessions, exactly when every close of the run is releasable. -/
theorem closes_correct_iff (events : List Event) :
    Along step Correct init events ↔ Along step Releasable init events := by
  have hstart : Inv init ∧ ∀ name k, 1 ≤ k → k ≤ 3 → init.lists name k ≠ none := by
    refine ⟨inv_init, fun name k hlo hhi => ?_⟩
    simp only [init, initRedis_apply]
    rw [if_pos ⟨hlo, by omega⟩]
    simp
  refine along_iff_of_invariant (I := fun s => Inv s ∧ ∀ name k, 1 ≤ k → k ≤ 3 →
    s.lists name k ≠ none) hstart ?_ ?_
  · rintro s event ⟨hinv, hfields⟩ hrel
    exact ⟨inv_step s event hinv hrel, fields_step event hfields⟩
  · rintro s event ⟨hinv, hfields⟩
    cases event with
    | request member target =>
        exact iff_of_true (hinv.fullMeansThree hfields member target) trivial
    | connect worker member => exact Iff.rfl
    | close worker member => exact imp_congr_right fun hopen => hinv.close_iff hopen

/-- The only socket of a member who started an image closes, and the slot stays
taken. -/
theorem started_session_not_freed :
    ¬ Along step Correct init
      [.request "alice" .sessionList1, .connect 1 "alice", .close 1 "alice"] := by
  intro hcase
  obtain ⟨-, -, hclose, -⟩ := hcase
  have hfreed := (hclose (by decide)).1 (by decide) .sessionList1 (by decide)
  revert hfreed
  decide

end SsmIaas.WebServer
