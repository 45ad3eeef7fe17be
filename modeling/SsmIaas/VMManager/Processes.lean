import SsmIaas.Lib.Run
import SsmIaas.VMManager.Command
import Mathlib.Data.List.Nodup
import Mathlib.Data.List.Range

/-!
# The processes of VMManager

`command ()` forks so that the parent can wait for `system ()`, but the child is
not told to leave: parent and child both return to the accept loop.  Every
handled command adds a process that accepts requests, with a copy of `android[]`
of its own.

This module follows android creates, each taken by an arbitrary one of the
processes.  As long as there are no deletes a table is determined by how many
slots are taken in it (`prefixTable`), and a process is up to date exactly if it
handled the last create or was forked by it.  The others have stale copies, and
give a slot out again: `slots_distinct_iff`.
-/

namespace SsmIaas.VMManager

open Lib

/-- All processes that accept requests, oldest first. -/
structure Server where
  processes : List Table
  /-- the slots passed to `command.sh`, in the order of the creates -/
  slots : List ℕ
  /-- the process that handled the last create -/
  last : ℕ

/-- An android create, with the process whose `accept ()` gets the connection. -/
structure Create where
  process : ℕ
  id : Bytes
  index : UInt8
  deriving DecidableEq, Repr

/-- A process handles a create: its table changes and then it forks. -/
def handle (s : Server) (request : Create) : Server :=
  match s.processes[request.process]? with
  | none => s
  | some android =>
      let result := slotFor (androidCreate request.id request.index) android
      { processes := s.processes.set request.process result.2 ++ [result.2]
        slots := s.slots ++ [result.1]
        last := request.process }

/-- The one process that `main` leaves in `start_server ()`. -/
def started : Server := ⟨[freshTable], [], 0⟩

/-- The process handled the last create itself, or is the child forked for it. -/
def FromLast (s : Server) (request : Create) : Prop :=
  request.process < s.processes.length →
    request.process = s.last ∨ request.process + 1 = s.processes.length

instance (s : Server) (request : Create) : Decidable (FromLast s request) :=
  inferInstanceAs (Decidable (_ → _))

/-! ## Tables without deletes -/

/-- The table after `count` creates: the lowest slots are in use. -/
def prefixTable (count : ℕ) : Table := fun i => if count ≤ i ∧ i < 100 then 1 else 0

theorem prefixTable_zero : prefixTable 0 = freshTable := by
  funext i
  simp [prefixTable, freshTable]

theorem takeSlot_prefixTable {count : ℕ} (hcount : count < 100) :
    takeSlot (prefixTable count) = (count, prefixTable (count + 1)) := by
  have hfree : prefixTable count count = 1 := by simp [prefixTable, hcount]
  have hbefore : ∀ j, j < count → prefixTable count j ≠ 1 := by
    intro j hj
    simp [prefixTable, Nat.not_le.mpr hj]
  rw [takeSlot_of_free hcount hfree hbefore]
  refine Prod.ext rfl ?_
  funext i
  by_cases hi : i = count
  · simp [hi, prefixTable]
  · have hle : count ≤ i ↔ count + 1 ≤ i := by omega
    simp [Function.update_of_ne hi, prefixTable, hle]

/-! ## Up-to-date processes -/

/-- As long as only up-to-date processes handle creates, the slots are given in
order, and the tables that miss some of them are those of the other processes. -/
structure InOrder (s : Server) : Prop where
  slots : s.slots = List.range s.slots.length
  tables : ∀ process < s.processes.length, ∃ count ≤ s.slots.length,
    s.processes[process]? = some (prefixTable count) ∧
      (count = s.slots.length ↔ process = s.last ∨ process + 1 = s.processes.length)

theorem inOrder_started : InOrder started := by
  refine ⟨rfl, fun process hprocess => ⟨0, le_rfl, ?_, ?_⟩⟩
  · obtain rfl : process = 0 := by simpa [started] using hprocess
    simp [started, prefixTable_zero]
  · have hzero : process = 0 := by simpa [started] using hprocess
    simp [started, hzero]

theorem handle_of_none {s : Server} {request : Create}
    (hprocess : ¬ request.process < s.processes.length) : handle s request = s := by
  have hnone : s.processes[request.process]? = none := List.getElem?_eq_none (by omega)
  simp only [handle, hnone]

/-- What one create does when the handling process has given out `count` slots
that it knows of. -/
theorem handle_of_prefixTable {s : Server} {request : Create} {count : ℕ} (hcount : count < 100)
    (htable : s.processes[request.process]? = some (prefixTable count)) :
    handle s request =
      ⟨s.processes.set request.process (prefixTable (count + 1)) ++ [prefixTable (count + 1)],
        s.slots ++ [count], request.process⟩ := by
  simp only [handle, htable, slotFor_androidCreate, takeSlot_prefixTable hcount]

theorem InOrder.handle {s : Server} (h : InOrder s) (hroom : s.slots.length < 100)
    {request : Create} (hlast : FromLast s request) : InOrder (handle s request) := by
  by_cases hprocess : request.process < s.processes.length
  · obtain ⟨count, -, htable, hcount⟩ := h.tables request.process hprocess
    obtain rfl : count = s.slots.length := hcount.mpr (hlast hprocess)
    rw [handle_of_prefixTable hroom htable]
    refine ⟨?_, ?_⟩
    · simp only [List.length_append, List.length_singleton, List.range_succ]
      rw [← h.slots]
    · intro process hnew
      simp only [List.length_append, List.length_set, List.length_singleton] at hnew ⊢
      rcases Nat.lt_or_ge process s.processes.length with hold | hchild
      · rw [List.getElem?_append_left (by simpa using hold), List.getElem?_set]
        by_cases hself : request.process = process
        · -- the parent, now up to date
          exact ⟨_, le_rfl, by simp [hself, hold], by simp [hself]⟩
        · -- any other process keeps its table, and is behind from now on
          obtain ⟨count, hle, hother, -⟩ := h.tables process hold
          refine ⟨count, by omega, by simpa [hself] using hother, ?_⟩
          refine ⟨?_, ?_⟩
          · intro heq
            omega
          · intro hcase
            rcases hcase with heq | heq
            · exact absurd heq.symm hself
            · omega
      · -- the child is forked with the parent's table
        obtain rfl : process = s.processes.length := by omega
        refine ⟨_, le_rfl, by simp, by simp⟩
  · rw [handle_of_none hprocess]
    exact h

/-- A process that is behind gives out a slot again. -/
theorem InOrder.not_nodup {s : Server} (h : InOrder s) (hroom : s.slots.length < 100)
    {request : Create} (hlast : ¬ FromLast s request) :
    ¬ (VMManager.handle s request).slots.Nodup := by
  obtain ⟨hprocess, hbehind⟩ := Classical.not_imp.mp hlast
  obtain ⟨count, hle, htable, hcount⟩ := h.tables request.process hprocess
  have hlt : count < s.slots.length := lt_of_le_of_ne hle fun heq => hbehind (hcount.mp heq)
  have hgiven : count ∈ s.slots := by
    rw [h.slots]
    exact List.mem_range.mpr hlt
  rw [handle_of_prefixTable (hlt.trans hroom) htable]
  intro hnodup
  exact (List.nodup_append.mp hnodup).2.2 count hgiven count (List.mem_singleton_self _) rfl

/-! ## Runs -/

theorem slots_handle_isPrefix (s : Server) (request : Create) :
    s.slots <+: (handle s request).slots := by
  unfold handle
  split
  · exact List.prefix_rfl
  · exact List.prefix_append _ _

theorem slots_run_isPrefix (s : Server) (requests : List Create) :
    s.slots <+: (run handle s requests).slots := by
  induction requests generalizing s with
  | nil => exact List.prefix_rfl
  | cons request rest ih => exact (slots_handle_isPrefix s request).trans (ih _)

theorem length_slots_handle_le (s : Server) (request : Create) :
    (handle s request).slots.length ≤ s.slots.length + 1 := by
  unfold handle
  split
  · exact Nat.le_succ _
  · simp

theorem InOrder.nodup_run_iff {s : Server} (h : InOrder s) {requests : List Create}
    (hroom : s.slots.length + requests.length ≤ 100) :
    (run VMManager.handle s requests).slots.Nodup ↔ Along VMManager.handle FromLast s requests := by
  induction requests generalizing s with
  | nil =>
      have hnodup : s.slots.Nodup := by
        rw [h.slots]
        exact List.nodup_range
      exact ⟨fun _ => trivial, fun _ => hnodup⟩
  | cons request rest ih =>
      have hlength := length_slots_handle_le s request
      simp only [List.length_cons] at hroom
      rw [run_cons, Along]
      by_cases hlast : FromLast s request
      · rw [ih (h.handle (by omega) hlast) (by omega)]
        simp [hlast]
      · -- the duplicate stays in the list of slots
        have hdup := h.not_nodup (by omega) hlast
        refine iff_of_false (fun hnodup => hdup ?_) fun hboth => hlast hboth.1
        exact hnodup.sublist (slots_run_isPrefix _ rest).sublist

/-- **Forked tables.**  The slots given to up to a hundred android creates are
pairwise distinct exactly when each create is handled by the process that handled
the one before it, or by the child which that process forked for it. -/
theorem slots_distinct_iff (requests : List Create) (hfew : requests.length ≤ 100) :
    (run handle started requests).slots.Nodup ↔ Along handle FromLast started requests := by
  apply inOrder_started.nodup_run_iff
  simpa [started] using hfew

/-- A chain of children: each create is handled by the newest process. -/
theorem slots_distinct_chain :
    (run handle started [⟨0, [97], 1⟩, ⟨1, [97], 2⟩, ⟨2, [97], 3⟩]).slots.Nodup :=
  (slots_distinct_iff _ (by decide)).mpr (by decide)

/-- Process 0 handles two creates; the child of the first one has not seen the
second and gives out slot 1 again. -/
theorem stale_child_reuses_slot :
    ¬ (run handle started [⟨0, [97], 1⟩, ⟨0, [97], 2⟩, ⟨1, [97], 3⟩]).slots.Nodup := by
  decide

end SsmIaas.VMManager
