import SsmIaas.Lib.Scan
import Mathlib.Logic.Function.Basic

/-!
# The session lists in redis

`util/Redis.js` keeps two hashes, `sessionList1` (ports handed out by
`requestStartOS`) and `sessionList2` (by `requestInstallOS`).  Field `port<k>` of a
hash holds the e-mail of the member who was given worker `k`, or the string
`"null"` when the port is free: `HSET` stores JavaScript's `null` under that name.
All code reads and writes fields by their number, so a hash is a map from port
numbers.
-/

namespace SsmIaas.LoadBalancer

open Lib

/-- The e-mail a member logged in with. -/
abbrev Email := String

inductive ListName
  | sessionList1
  | sessionList2
  deriving DecidableEq, Repr

/-- The reply to `HGETALL`: the value of every field `port<k>` that was ever set. -/
abbrev SessionList := ℕ → Option String

/-- Both hashes. -/
abbrev Sessions := ListName → SessionList

/-- What `HSET` stores for `null`: the mark of a free port. -/
def nullText : String := "null"

/-- What `HSET` stores for `req.session.MemberEmail`, which is `undefined` before
the login. -/
def storedText (email : Option Email) : String := email.getD "undefined"

/-- `setSession`: one `HSET`. -/
def setSession (lists : Sessions) (category : ListName) (index : ℕ) (value : String) : Sessions :=
  Function.update lists category (Function.update (lists category) index (some value))

/-- The loop body of `initRedis`. -/
def clearPort (lists : Sessions) (index : ℕ) : Sessions :=
  setSession (setSession lists .sessionList1 index nullText) .sessionList2 index nullText

/-- `initRedis`, run once before the server listens, on an empty store. -/
def initRedis : Sessions := (List.range' 1 8).foldl clearPort fun _ _ => none

/-- A write to one slot of one list leaves every other slot alone. -/
theorem update_slot_of_ne {Value : Type*} {slots : ListName → ℕ → Value}
    {category name : ListName} {index k : ℕ} {value : Value} (h : name ≠ category ∨ k ≠ index) :
    Function.update slots category (Function.update (slots category) index value) name k =
      slots name k := by
  by_cases hname : name = category
  · subst hname
    rw [Function.update_self, Function.update_of_ne (h.resolve_left (by simp))]
  · rw [Function.update_of_ne hname]

@[simp] theorem setSession_same (lists : Sessions) (category : ListName) (index : ℕ)
    (value : String) : setSession lists category index value category index = some value := by
  simp [setSession]

theorem setSession_of_ne {lists : Sessions} {category name : ListName} {index k : ℕ}
    {value : String} (h : name ≠ category ∨ k ≠ index) :
    setSession lists category index value name k = lists name k :=
  update_slot_of_ne h

/-- A slot after a write: the value written, or what it was. -/
theorem setSession_apply (lists : Sessions) (category name : ListName) (index k : ℕ)
    (value : String) :
    setSession lists category index value name k =
      if name = category ∧ k = index then some value else lists name k := by
  split
  · rename_i h
    rw [h.1, h.2, setSession_same]
  · rename_i h
    exact setSession_of_ne (not_and_or.mp h)

/-- A value found after a write, and not the one written, was there before. -/
theorem of_setSession {lists : Sessions} {category name : ListName} {index k : ℕ}
    {value other : String} (hne : other ≠ value)
    (h : setSession lists category index value name k = some other) :
    ¬ (name = category ∧ k = index) ∧ lists name k = some other := by
  rw [setSession_apply] at h
  split at h
  · exact absurd (Option.some_inj.mp h).symm hne
  · next hkept => exact ⟨hkept, h⟩

theorem clearPort_apply (lists : Sessions) (index : ℕ) (name : ListName) (k : ℕ) :
    clearPort lists index name k = if k = index then some nullText else lists name k := by
  unfold clearPort
  cases name <;> simp [setSession_apply]

theorem foldl_clearPort (indices : List ℕ) (lists : Sessions) (name : ListName) (k : ℕ) :
    indices.foldl clearPort lists name k =
      if k ∈ indices then some nullText else lists name k := by
  induction indices generalizing lists with
  | nil => simp
  | cons index rest ih =>
      rw [List.foldl_cons, ih, clearPort_apply]
      by_cases hk : k ∈ rest <;> by_cases heq : k = index <;> simp [hk, heq]

theorem initRedis_apply (name : ListName) (k : ℕ) :
    initRedis name k = if 1 ≤ k ∧ k ≤ 8 then some nullText else none := by
  have hmem : k ∈ List.range' 1 8 ↔ 1 ≤ k ∧ k ≤ 8 := by
    rw [List.mem_range'_1]
    omega
  rw [initRedis, foldl_clearPort]
  simp only [hmem]

end SsmIaas.LoadBalancer
