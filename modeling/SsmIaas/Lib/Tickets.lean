import Mathlib.Data.List.Nodup
import Mathlib.Logic.Function.Basic
import SsmIaas.Lib.Run

/-!
# Numbers from a counter

Holders draw numbers from a counter, keep them for a while and spend them.  However the
draws and the spending of many holders are interleaved, no number is spent twice, and none
that was there before the counter started.
-/

namespace SsmIaas.Lib

structure Tickets (Holder : Type*) where
  /-- the last number that was drawn -/
  counter : ℕ
  held : Holder → Option ℕ
  spent : List ℕ

inductive TicketEvent (Holder : Type*)
  | draw (holder : Holder)
  | spend (holder : Holder)

namespace Tickets

variable {Holder : Type*} [DecidableEq Holder]

/-- The numbers up to `base` were drawn by someone else. -/
def fresh (base : ℕ) : Tickets Holder := ⟨base, fun _ => none, []⟩

/-- A holder that draws again has no more use for the number it had. -/
def draw (s : Tickets Holder) (holder : Holder) : Tickets Holder where
  counter := s.counter + 1
  held := Function.update s.held holder (some (s.counter + 1))
  spent := s.spent

def spend (s : Tickets Holder) (holder : Holder) : Tickets Holder :=
  match s.held holder with
  | none => s
  | some n => { s with held := Function.update s.held holder none, spent := s.spent ++ [n] }

def step (s : Tickets Holder) : TicketEvent Holder → Tickets Holder
  | .draw holder => s.draw holder
  | .spend holder => s.spend holder

/-- The number was drawn, after the counter started at `base`. -/
def Drawn (base : ℕ) (s : Tickets Holder) (n : ℕ) : Prop := base < n ∧ n ≤ s.counter

structure Inv (base : ℕ) (s : Tickets Holder) : Prop where
  base_le : base ≤ s.counter
  held_drawn : ∀ holder n, s.held holder = some n → s.Drawn base n
  held_inj : ∀ holder holder' n, s.held holder = some n → s.held holder' = some n →
    holder = holder'
  held_unspent : ∀ holder n, s.held holder = some n → n ∉ s.spent
  spent_drawn : ∀ n ∈ s.spent, s.Drawn base n
  spent_nodup : s.spent.Nodup

variable {base : ℕ} {s : Tickets Holder}

omit [DecidableEq Holder] in
theorem inv_fresh (base : ℕ) : Inv base (fresh base : Tickets Holder) where
  base_le := Nat.le_refl _
  held_drawn := by simp [fresh]
  held_inj := by simp [fresh]
  held_unspent := by simp [fresh]
  spent_drawn := by simp [fresh]
  spent_nodup := by simp [fresh]

omit [DecidableEq Holder] in
theorem Drawn.mono {n : ℕ} {s' : Tickets Holder} (h : s.Drawn base n)
    (hcounter : s.counter ≤ s'.counter) : s'.Drawn base n :=
  ⟨h.1, Nat.le_trans h.2 hcounter⟩

/-- Who has what after an update: the one it was about, or another one as before. -/
theorem update_cases {Value : Type*} {f : Holder → Value} {holder other : Holder} {v w : Value}
    (h : Function.update f holder v other = w) :
    other = holder ∧ v = w ∨ other ≠ holder ∧ f other = w := by
  by_cases heq : other = holder
  · subst heq
    rw [Function.update_self] at h
    exact Or.inl ⟨rfl, h⟩
  · rw [Function.update_of_ne heq] at h
    exact Or.inr ⟨heq, h⟩

theorem Inv.draw (h : Inv base s) (holder : Holder) : Inv base (s.draw holder) where
  base_le := Nat.le_succ_of_le h.base_le
  held_drawn := by
    intro other n hn
    rcases update_cases hn with ⟨-, ⟨⟩⟩ | ⟨-, hold⟩
    · exact ⟨Nat.lt_succ_of_le h.base_le, Nat.le_refl _⟩
    · exact (h.held_drawn other n hold).mono (Nat.le_succ _)
  held_inj := by
    -- the new number is above all others
    have hnew : ∀ other, s.held other ≠ some (s.counter + 1) := fun other hn =>
      Nat.not_succ_le_self _ (h.held_drawn other _ hn).2
    intro a b n ha hb
    rcases update_cases ha with ⟨rfl, ⟨⟩⟩ | ⟨-, hna⟩
    · rcases update_cases hb with ⟨rfl, -⟩ | ⟨-, hnb⟩
      · rfl
      · exact absurd hnb (hnew b)
    · rcases update_cases hb with ⟨rfl, ⟨⟩⟩ | ⟨-, hnb⟩
      · exact absurd hna (hnew a)
      · exact h.held_inj a b n hna hnb
  held_unspent := by
    intro other n hn hspent
    rcases update_cases hn with ⟨-, ⟨⟩⟩ | ⟨-, hold⟩
    · exact Nat.not_succ_le_self _ (h.spent_drawn _ hspent).2
    · exact h.held_unspent other n hold hspent
  spent_drawn := fun n hn => (h.spent_drawn n hn).mono (Nat.le_succ _)
  spent_nodup := h.spent_nodup

theorem Inv.spend (h : Inv base s) (holder : Holder) : Inv base (s.spend holder) := by
  unfold Tickets.spend
  split
  · exact h
  · next n hn =>
      -- the others keep their numbers
      have hothers : ∀ other m, Function.update s.held holder none other = some m →
          other ≠ holder ∧ s.held other = some m := by
        intro other m hm
        rcases update_cases hm with ⟨-, ⟨⟩⟩ | hold
        exact hold
      refine ⟨h.base_le, ?_, ?_, ?_, ?_, ?_⟩
      · exact fun other m hm => h.held_drawn other m (hothers other m hm).2
      · exact fun a b m ha hb => h.held_inj a b m (hothers a m ha).2 (hothers b m hb).2
      · intro other m hm hspent
        obtain ⟨hne, hold⟩ := hothers other m hm
        rcases List.mem_append.mp hspent with hbefore | hnew
        · exact h.held_unspent other m hold hbefore
        · rw [List.mem_singleton.mp hnew] at hold
          exact hne (h.held_inj other holder n hold hn)
      · intro m hm
        rcases List.mem_append.mp hm with hbefore | hnew
        · exact h.spent_drawn m hbefore
        · rw [List.mem_singleton.mp hnew]
          exact h.held_drawn holder n hn
      · rw [← List.concat_eq_append, List.nodup_concat]
        exact ⟨h.held_unspent holder n hn, h.spent_nodup⟩

theorem inv_step (s : Tickets Holder) (event : TicketEvent Holder) (h : Inv base s) :
    Inv base (s.step event) := by
  cases event with
  | draw holder => exact h.draw holder
  | spend holder => exact h.spend holder

theorem inv_run (base : ℕ) (events : List (TicketEvent Holder)) :
    Inv base (run step (fresh base) events) :=
  run_invariant events (inv_fresh base) inv_step

end Tickets

end SsmIaas.Lib
