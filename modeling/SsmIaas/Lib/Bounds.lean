import SsmIaas.Lib.Raster

/-!
# Memory with bounds

An array in C has an extent, and an access outside it is undefined.  Here loads and stores
are checked against a range of addresses, and a loop over them stops at the first access
that leaves it.

The rules say when a checked program returns: a sequence if both parts do, a loop if every
round does (`foldlM_eq_ok`), and then the result is that of the program without checks.
-/

namespace SsmIaas.Lib

/-- An access that leaves its array. -/
inductive OutOfBounds
  | read (address : ℕ)
  | write (address : ℕ)
  deriving DecidableEq, Repr

/-- The addresses of an array. -/
structure Region where
  first : ℕ
  /-- one behind the last address -/
  stop : ℕ

def Region.Has (region : Region) (address : ℕ) : Prop :=
  region.first ≤ address ∧ address < region.stop

instance (region : Region) (address : ℕ) : Decidable (region.Has address) :=
  inferInstanceAs (Decidable (_ ∧ _))

def load (region : Region) (memory : Memory) (address : ℕ) : Except OutOfBounds UInt8 :=
  if region.Has address then .ok (memory address) else .error (.read address)

def store (region : Region) (memory : Memory) (address : ℕ) (byte : UInt8) :
    Except OutOfBounds Memory :=
  if region.Has address then .ok (Function.update memory address byte)
  else .error (.write address)

theorem load_eq_ok {region : Region} {memory : Memory} {address : ℕ} {byte : UInt8} :
    load region memory address = .ok byte ↔ region.Has address ∧ byte = memory address := by
  unfold load
  split
  · next hin => simp [hin, eq_comm]
  · next hout => simp [hout]

theorem store_eq_ok {region : Region} {memory after : Memory} {address : ℕ} {byte : UInt8} :
    store region memory address byte = .ok after ↔
      region.Has address ∧ after = Function.update memory address byte := by
  unfold store
  split
  · next hin => simp [hin, eq_comm]
  · next hout => simp [hout]

section

variable {Error State Item : Type}

theorem bind_eq_ok {Value : Type} {first : Except Error Value} {rest : Value → Except Error State}
    {result : State} :
    (first >>= rest) = .ok result ↔ ∃ value, first = .ok value ∧ rest value = .ok result := by
  cases first with
  | error e => simp [bind, Except.bind]
  | ok value => simp [bind, Except.bind]

/-- **Loops.**  If a round returns exactly under a condition that does not depend on the
state, a loop returns exactly if every round meets it. -/
theorem foldlM_eq_ok {body : State → Item → Except Error State} {next : State → Item → State}
    {ok : Item → Prop}
    (hbody : ∀ state item result,
      body state item = .ok result ↔ ok item ∧ result = next state item)
    (items : List Item) (state result : State) :
    items.foldlM body state = .ok result ↔
      (∀ item ∈ items, ok item) ∧ result = items.foldl next state := by
  induction items generalizing state with
  | nil => simp [pure, Except.pure, eq_comm]
  | cons item rest ih =>
      rw [List.foldlM_cons, bind_eq_ok]
      refine ⟨?_, ?_⟩
      · rintro ⟨middle, hfirst, hrest⟩
        obtain ⟨hok, rfl⟩ := (hbody _ _ _).mp hfirst
        obtain ⟨hall, rfl⟩ := (ih _).mp hrest
        exact ⟨List.forall_mem_cons.mpr ⟨hok, hall⟩, rfl⟩
      · rintro ⟨hall, rfl⟩
        obtain ⟨hok, hrest⟩ := List.forall_mem_cons.mp hall
        exact ⟨_, (hbody _ _ _).mpr ⟨hok, rfl⟩, (ih _).mpr ⟨hrest, rfl⟩⟩

/-- The same for a nested loop over a rectangle. -/
theorem foldlM_rect_eq_ok {body : State → ℕ → ℕ → Except Error State}
    {next : State → ℕ → ℕ → State} {ok : ℕ → ℕ → Prop}
    (hbody : ∀ state x y result,
      body state x y = .ok result ↔ ok x y ∧ result = next state x y)
    (rect : Rect) (state result : State) :
    ((List.range' rect.y rect.h).foldlM (fun state y =>
        (List.range' rect.x rect.w).foldlM (fun state x => body state x y) state) state =
          .ok result) ↔
      (∀ px py, rect.Has px py → ok px py) ∧
        result = (List.range' rect.y rect.h).foldl (fun state y =>
          (List.range' rect.x rect.w).foldl (fun state x => next state x y) state) state := by
  have hrow : ∀ state y result,
      (List.range' rect.x rect.w).foldlM (fun state x => body state x y) state = .ok result ↔
        (∀ x ∈ List.range' rect.x rect.w, ok x y) ∧
          result = (List.range' rect.x rect.w).foldl (fun state x => next state x y) state :=
    fun state y result => foldlM_eq_ok (fun state x result => hbody state x y result) _ state result
  rw [foldlM_eq_ok hrow]
  have hall : (∀ y ∈ List.range' rect.y rect.h, ∀ x ∈ List.range' rect.x rect.w, ok x y) ↔
      ∀ px py, rect.Has px py → ok px py := by
    simp only [List.mem_range'_1, Rect.Has]
    refine ⟨fun hok px py hhas => hok py hhas.2 px hhas.1, fun hok y hy x hx => hok x y ⟨hx, hy⟩⟩
  rw [hall]

end

end SsmIaas.Lib
