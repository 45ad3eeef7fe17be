import Mathlib.Data.Finset.Max
import Mathlib.Data.Finset.SDiff

/-!
# Who is there

Connections come and go, and are numbered in the order in which they come.  A `Roster` is
the set of those that are there; a number that has not been given yet is not in it.
-/

namespace SsmIaas.Lib

structure Roster where
  /-- the number of the next one to come -/
  next : ℕ
  members : Finset ℕ
  lt_next : ∀ m ∈ members, m < next

namespace Roster

def empty : Roster := ⟨0, ∅, by simp⟩

def join (r : Roster) : Roster where
  next := r.next + 1
  members := insert r.next r.members
  lt_next := by
    intro m hm
    rcases Finset.mem_insert.mp hm with rfl | hold
    · exact Nat.lt_succ_self _
    · exact Nat.lt_succ_of_lt (r.lt_next m hold)

def leave (r : Roster) (m : ℕ) : Roster where
  next := r.next
  members := r.members.erase m
  lt_next := fun k hk => r.lt_next k (Finset.mem_of_mem_erase hk)

/-- The member that came last. -/
def Latest (r : Roster) (m : ℕ) : Prop := m ∈ r.members ∧ ∀ k ∈ r.members, k ≤ m

instance (r : Roster) (m : ℕ) : Decidable (r.Latest m) := inferInstanceAs (Decidable (_ ∧ _))

variable {r : Roster} {m k : ℕ}

@[simp] theorem mem_join : k ∈ r.join.members ↔ k = r.next ∨ k ∈ r.members := Finset.mem_insert

@[simp] theorem mem_leave : k ∈ (r.leave m).members ↔ k ≠ m ∧ k ∈ r.members := Finset.mem_erase

theorem latest_join : r.join.Latest m ↔ m = r.next := by
  refine ⟨?_, ?_⟩
  · rintro ⟨hmem, hlast⟩
    have hle : r.next ≤ m := hlast r.next (by simp)
    rcases mem_join.mp hmem with heq | hold
    · exact heq
    · exact absurd (r.lt_next m hold) (by omega)
  · rintro rfl
    refine ⟨by simp, fun k hk => ?_⟩
    rcases mem_join.mp hk with rfl | hold
    · exact le_rfl
    · exact (r.lt_next k hold).le

/-- Someone came last, unless nobody is there. -/
theorem forall_not_latest_iff : (∀ m, ¬ r.Latest m) ↔ r.members = ∅ := by
  refine ⟨fun hnone => ?_, fun hempty m hlatest => ?_⟩
  · by_contra hmembers
    have hnonempty := Finset.nonempty_iff_ne_empty.mpr hmembers
    exact hnone (r.members.max' hnonempty)
      ⟨Finset.max'_mem _ _, fun k hk => Finset.le_max' _ k hk⟩
  · have hmem := hlatest.1
    simp [hempty] at hmem

theorem leave_members_eq_empty : (r.leave m).members = ∅ ↔ ∀ k ∈ r.members, k = m := by
  simp only [Finset.eq_empty_iff_forall_notMem, mem_leave, not_and', not_not]

end Roster

end SsmIaas.Lib
