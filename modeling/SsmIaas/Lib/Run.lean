import Mathlib.Data.List.Basic
import Mathlib.Data.List.Induction
import Mathlib.Tactic.Common

/-!
# Runs of a labelled transition function

The programs of this development are event driven: a state, and a function that
says what one event does to it.  An interleaving of several parties is a list of
events, each naming the party that moves, so a statement about every
interleaving is a statement about every list.

* `run` is the state after a list of events.
* `Along step P` says that `P` held, at every event of the run, of the event and
  the state it was taken in.  Conditions on a run (what the environment may do)
  and properties of its steps (what the program did) are both of this form.
* `Everywhere step I` says that `I` holds in every state the run passes through.

The rules below are the induction over a run, done once: `Along.everywhere` for
an invariant that needs a condition, `along_iff_of_invariant` for a condition
that is exactly what a step property needs.
-/

namespace SsmIaas.Lib

variable {State Event : Type*} {step : State → Event → State}

/-- The state after a list of events. -/
def run (step : State → Event → State) (state : State) (events : List Event) : State :=
  events.foldl step state

@[simp] theorem run_nil (state : State) : run step state [] = state := rfl

@[simp] theorem run_cons (state : State) (event : Event) (rest : List Event) :
    run step state (event :: rest) = run step (step state event) rest := rfl

@[simp] theorem run_append (state : State) (before after : List Event) :
    run step state (before ++ after) = run step (run step state before) after :=
  List.foldl_append

/-- `P` holds, at every event of the run, of the state the event was taken in. -/
def Along (step : State → Event → State) (P : State → Event → Prop) :
    State → List Event → Prop
  | _, [] => True
  | state, event :: rest => P state event ∧ Along step P (step state event) rest

/-- `I` holds in every state of the run, the first and the last included. -/
def Everywhere (step : State → Event → State) (I : State → Prop) : State → List Event → Prop
  | state, [] => I state
  | state, event :: rest => I state ∧ Everywhere step I (step state event) rest

variable {P Q C : State → Event → Prop} {I : State → Prop}

instance Along.decidable [hP : ∀ s e, Decidable (P s e)] :
    ∀ (state : State) (events : List Event), Decidable (Along step P state events)
  | _, [] => isTrue trivial
  | state, event :: rest =>
      @instDecidableAnd _ _ (hP state event) (Along.decidable (step state event) rest)

instance Everywhere.decidable [hI : DecidablePred I] :
    ∀ (state : State) (events : List Event), Decidable (Everywhere step I state events)
  | state, [] => hI state
  | state, event :: rest =>
      @instDecidableAnd _ _ (hI state) (Everywhere.decidable (step state event) rest)

/-! ## Prefixes of a run -/

theorem along_append {state : State} {before after : List Event} :
    Along step P state (before ++ after) ↔
      Along step P state before ∧ Along step P (run step state before) after := by
  induction before generalizing state with
  | nil => simp [Along]
  | cons event rest ih => simp [Along, ih, and_assoc]

theorem Everywhere.head {state : State} {events : List Event}
    (h : Everywhere step I state events) : I state := by
  cases events with
  | nil => exact h
  | cons event rest => exact h.1

theorem everywhere_append {state : State} {before after : List Event} :
    Everywhere step I state (before ++ after) ↔
      Everywhere step I state before ∧ Everywhere step I (run step state before) after := by
  induction before generalizing state with
  | nil =>
      exact ⟨fun h => ⟨h.head, h⟩, fun h => h.2⟩
  | cons event rest ih => simp [Everywhere, ih, and_assoc]

theorem Everywhere.last {state : State} {events : List Event}
    (h : Everywhere step I state events) : I (run step state events) := by
  have hsplit : Everywhere step I state (events ++ []) := by simpa using h
  exact (everywhere_append.mp hsplit).2

/-- `P` along a run, said of every event and the events before it. -/
theorem along_iff_forall_split {state : State} {events : List Event} :
    Along step P state events ↔ ∀ before event after, events = before ++ event :: after →
      P (run step state before) event := by
  refine ⟨?_, ?_⟩
  · rintro h before event after rfl
    exact (along_append.mp h).2.1
  · intro h
    induction events generalizing state with
    | nil => trivial
    | cons event rest ih =>
        refine ⟨h [] event rest rfl, ih ?_⟩
        rintro before next after rfl
        exact h (event :: before) next after rfl

/-- What holds in every state holds wherever an event is taken. -/
theorem Everywhere.along {state : State} {events : List Event}
    (h : Everywhere step I state events) : Along step (fun s _ => I s) state events := by
  induction events generalizing state with
  | nil => trivial
  | cons event rest ih => exact ⟨h.1, ih h.2⟩

/-- A run stays in good states if it starts in one and every event leads to one. -/
theorem everywhere_iff {state : State} {events : List Event} :
    Everywhere step I state events ↔
      I state ∧ Along step (fun s e => I (step s e)) state events := by
  induction events generalizing state with
  | nil => simp [Everywhere, Along]
  | cons event rest ih => simp [Everywhere, Along, ih]

/-! ## Events that are given by others -/

theorem run_map {Name : Type*} (event : Name → Event) (state : State) (names : List Name) :
    run step state (names.map event) = run (fun s name => step s (event name)) state names :=
  List.foldl_map

theorem along_map {Name : Type*} {event : Name → Event} {state : State} {names : List Name} :
    Along step P state (names.map event) ↔
      Along (fun s name => step s (event name)) (fun s name => P s (event name)) state names := by
  induction names generalizing state with
  | nil => rfl
  | cons name rest ih => exact and_congr_right fun _ => ih

/-! ## Invariants -/

theorem Along.mono {state : State} {events : List Event} (h : Along step P state events)
    (hPQ : ∀ s e, P s e → Q s e) : Along step Q state events := by
  induction events generalizing state with
  | nil => trivial
  | cons event rest ih => exact ⟨hPQ _ _ h.1, ih h.2⟩

theorem Everywhere.mono {J : State → Prop} {state : State} {events : List Event}
    (h : Everywhere step I state events) (hIJ : ∀ s, I s → J s) :
    Everywhere step J state events := by
  induction events generalizing state with
  | nil => exact hIJ _ h
  | cons event rest ih => exact ⟨hIJ _ h.1, ih h.2⟩

/-- **Invariant rule.**  What holds at the start and is kept by every step that
meets the condition holds in every state of a run that meets it. -/
theorem Along.everywhere {state : State} {events : List Event} (hC : Along step C state events)
    (hstart : I state) (hstep : ∀ s e, I s → C s e → I (step s e)) :
    Everywhere step I state events := by
  induction events generalizing state with
  | nil => exact hstart
  | cons event rest ih => exact ⟨hstart, ih hC.2 (hstep _ _ hstart hC.1)⟩

/-- An invariant that every step keeps holds after every run. -/
theorem run_invariant {state : State} (events : List Event) (hstart : I state)
    (hstep : ∀ s e, I s → I (step s e)) : I (run step state events) := by
  induction events generalizing state with
  | nil => exact hstart
  | cons event rest ih => exact ih (hstep _ _ hstart)

/-- An invariant that speaks of the events so far. -/
theorem run_history {H : List Event → State → Prop} {state : State} (events : List Event)
    (hstart : H [] state)
    (hstep : ∀ before s e, H before s → H (before ++ [e]) (step s e)) :
    H events (run step state events) := by
  induction events using List.reverseRecOn with
  | nil => exact hstart
  | append_singleton before event ih =>
      rw [run_append]
      exact hstep before _ event ih

/-- The same along a run that meets a condition. -/
theorem Along.history {H : List Event → State → Prop} {state : State} {events : List Event}
    (hC : Along step C state events) (hstart : H [] state)
    (hstep : ∀ before s e, H before s → C s e → H (before ++ [e]) (step s e)) :
    H events (run step state events) := by
  induction events using List.reverseRecOn with
  | nil => exact hstart
  | append_singleton before event ih =>
      obtain ⟨hbefore, hevent, -⟩ := along_append.mp hC
      rw [run_append]
      exact hstep before _ event (ih hbefore) hevent

theorem Along.invariant {state : State} {events : List Event} (hC : Along step C state events)
    (hstart : I state) (hstep : ∀ s e, I s → C s e → I (step s e)) :
    I (run step state events) :=
  (hC.everywhere hstart hstep).last

/-- A step property that follows from an invariant and the condition holds along
every run that meets the condition. -/
theorem Along.of_invariant {state : State} {events : List Event}
    (hC : Along step C state events) (hstart : I state)
    (hstep : ∀ s e, I s → C s e → I (step s e)) (hP : ∀ s e, I s → C s e → P s e) :
    Along step P state events := by
  induction events generalizing state with
  | nil => trivial
  | cons event rest ih =>
      exact ⟨hP _ _ hstart hC.1, ih hC.2 (hstep _ _ hstart hC.1)⟩

/-- **Exact conditions.**  When, under an invariant that the condition keeps, a
step has the property exactly if it meets the condition, the same is true of
runs. -/
theorem along_iff_of_invariant {state : State} {events : List Event} (hstart : I state)
    (hstep : ∀ s e, I s → C s e → I (step s e)) (hiff : ∀ s e, I s → (P s e ↔ C s e)) :
    Along step P state events ↔ Along step C state events := by
  induction events generalizing state with
  | nil => rfl
  | cons event rest ih =>
      refine ⟨?_, ?_⟩
      · intro hcase
        obtain ⟨hhead, hrest⟩ := hcase
        have hC := (hiff _ _ hstart).mp hhead
        exact ⟨hC, (ih (hstep _ _ hstart hC)).mp hrest⟩
      · intro hcase
        obtain ⟨hhead, hrest⟩ := hcase
        exact ⟨(hiff _ _ hstart).mpr hhead, (ih (hstep _ _ hstart hhead)).mpr hrest⟩

/-- The same for the states: when a step leads to a good state exactly if it meets
the condition, a run stays in good states exactly if all its steps meet it. -/
theorem everywhere_iff_along {state : State} {events : List Event} (hstart : I state)
    (hiff : ∀ s e, I s → (I (step s e) ↔ C s e)) :
    Everywhere step I state events ↔ Along step C state events := by
  induction events generalizing state with
  | nil => exact ⟨fun _ => trivial, fun _ => hstart⟩
  | cons event rest ih =>
      refine ⟨?_, ?_⟩
      · intro hcase
        obtain ⟨-, hrest⟩ := hcase
        have hnext := hrest.head
        exact ⟨(hiff _ _ hstart).mp hnext, (ih hnext).mp hrest⟩
      · intro hcase
        obtain ⟨hhead, hrest⟩ := hcase
        exact ⟨hstart, (ih ((hiff _ _ hstart).mpr hhead)).mpr hrest⟩

/-- The same when the good states are a part of the invariant. -/
theorem everywhere_iff_of_invariant {G : State → Prop} {state : State} {events : List Event}
    (hstart : I state) (hgood : ∀ s, I s → G s) (hstep : ∀ s e, I s → C s e → I (step s e))
    (hneeds : ∀ s e, I s → G (step s e) → C s e) :
    Everywhere step G state events ↔ Along step C state events := by
  rw [everywhere_iff, and_iff_right (hgood state hstart)]
  refine along_iff_of_invariant hstart hstep fun s e hI => ⟨hneeds s e hI, fun hC => ?_⟩
  exact hgood _ (hstep s e hI hC)

/-! ## Simulation -/

/-- Two systems that take the same events and stay related. -/
theorem run_related {State' : Type*} {step' : State' → Event → State'}
    {R : State → State' → Prop} (hstep : ∀ s t e, R s t → R (step s e) (step' t e)) {state : State}
    {state' : State'} (h : R state state') (events : List Event) :
    R (run step state events) (run step' state' events) := by
  induction events generalizing state state' with
  | nil => exact h
  | cons event rest ih => exact ih (hstep _ _ event h)

/-- **One party's part.**  When the events of the others keep a relation between the state and
one party's own state, and its own events keep it too, the party is where its own events
alone would have taken it. -/
theorem run_filter_related {Own : Type*} {mine : Event → Bool} {ownStep : Own → Event → Own}
    {R : State → Own → Prop} {C : Own → Event → Prop} {events : List Event}
    (hother : ∀ e ∈ events, mine e = false → ∀ s t, R s t → R (step s e) t)
    (hmine : ∀ e ∈ events, mine e = true → ∀ s t, R s t → C t e → R (step s e) (ownStep t e))
    {state : State} {own : Own} (h : R state own)
    (hC : Along ownStep C own (events.filter mine)) :
    R (run step state events) (run ownStep own (events.filter mine)) := by
  induction events generalizing state own with
  | nil => exact h
  | cons event rest ih =>
      rw [List.forall_mem_cons] at hother hmine
      cases hevent : mine event with
      | false =>
          rw [List.filter_cons_of_neg (by simp [hevent])] at hC ⊢
          exact ih hother.2 hmine.2 (hother.1 hevent _ _ h) hC
      | true =>
          rw [List.filter_cons_of_pos hevent] at hC ⊢
          exact ih hother.2 hmine.2 (hmine.1 hevent _ _ h hC.1) hC.2

/-- **Simulation.**  When every event is seen as some events of another system, or none, so
is every run. -/
theorem run_simulates {State' Event' : Type*} {step' : State' → Event' → State'}
    {view : State → State'}
    (hstep : ∀ s e, ∃ seen, view (step s e) = run step' (view s) seen) (state : State)
    (events : List Event) : ∃ seen, view (run step state events) = run step' (view state) seen := by
  induction events generalizing state with
  | nil => exact ⟨[], rfl⟩
  | cons event rest ih =>
      obtain ⟨first, hfirst⟩ := hstep state event
      obtain ⟨others, hothers⟩ := ih (step state event)
      refine ⟨first ++ others, ?_⟩
      rw [run_cons, hothers, hfirst, run_append]

end SsmIaas.Lib
