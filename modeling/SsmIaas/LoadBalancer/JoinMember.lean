import Mathlib.Data.List.Nodup
import SsmIaas.Lib.JavaScript
import SsmIaas.Lib.Run
import SsmIaas.LoadBalancer.Redis

/-!
# Registration

A `joinMember` request sends two queries at once: `getIndexers` counts up a sequence
number, `checkIdMember` looks for the e-mail.  The reply to the first one only fills the
variable `inputIndex`; the reply to the second one decides, and inserts the member with
whatever `inputIndex` is at that time.

Three things can go wrong.  `checkIdMember` hands its callback the e-mail it has found and
not `true`, so that `data==true` fails for nearly every e-mail that is taken.  Two requests
that look for one e-mail before either has inserted it both insert it.  And the reply to
the check may come before the index.  `members_distinct` says that there is nothing else:
without these three, in every interleaving, e-mails and indices stay distinct.
-/

namespace SsmIaas.LoadBalancer

open Lib

/-- A document of `Members`, with the fields that matter here; a missing `Index` is
`undefined`. -/
structure Member where
  index : Option ℕ
  email : Email
  deriving DecidableEq, Repr

/-- How far `getIndexers` of one request is: the database has not seen it yet, has
counted, or its reply has been assigned to `inputIndex`. -/
inductive IndexQuery
  | waiting
  | answered (seq : ℕ)
  | delivered (seq : ℕ)
  deriving DecidableEq, Repr

/-- How far `checkIdMember` of one request is, and what its callback did. -/
inductive CheckQuery
  | waiting
  | answered (found : Bool)
  | refused
  | inserting (member : Member)
  | stored
  deriving DecidableEq, Repr

/-- One `joinMember` request. -/
structure Join where
  email : Email
  index : IndexQuery
  check : CheckQuery
  deriving DecidableEq, Repr

/-- The variable `inputIndex`. -/
def Join.inputIndex (join : Join) : Option ℕ :=
  match join.index with
  | .delivered seq => some seq
  | _ => none

/-- The test `data==true` in the callback of `checkIdMember`, which is called with the
e-mail if it was found and with `false` if not. -/
def isTaken (email : Email) (found : Bool) : Bool := if found then looseEqTrue email else false

/-- The database and all requests.  `seq` is the field of the document that
`initIndexers` inserts once. -/
structure Registry where
  joins : ℕ → Option Join
  seq : ℕ
  members : List Member

def Registry.start : Registry := ⟨fun _ => none, 0, []⟩

/-- Some document has this e-mail. -/
def Registry.Registered (s : Registry) (email : Email) : Prop :=
  email ∈ s.members.map Member.email

instance (s : Registry) (email : Email) : Decidable (s.Registered email) :=
  inferInstanceAs (Decidable (_ ∈ _))

/-- Request `r` goes on to `join`. -/
def Registry.set (s : Registry) (r : ℕ) (join : Join) : Registry :=
  { s with joins := Function.update s.joins r (some join) }

inductive JoinEvent
  /-- A request arrives and sends its two queries. -/
  | join (r : ℕ) (email : Email)
  /-- The database runs `findAndModify`. -/
  | increment (r : ℕ)
  /-- The reply of `findAndModify` arrives. -/
  | indexReply (r : ℕ)
  /-- The database runs `findOne`. -/
  | find (r : ℕ)
  /-- The reply of `findOne` arrives. -/
  | checkReply (r : ℕ)
  /-- The database runs the `insert` of `insertMember`. -/
  | store (r : ℕ)
  deriving DecidableEq, Repr

def Registry.step (s : Registry) : JoinEvent → Registry
  | .join r email =>
      match s.joins r with
      | none => s.set r ⟨email, .waiting, .waiting⟩
      | some _ => s
  | .increment r =>
      match s.joins r with
      | some ⟨email, .waiting, check⟩ =>
          { s.set r ⟨email, .answered (s.seq + 1), check⟩ with seq := s.seq + 1 }
      | _ => s
  | .indexReply r =>
      match s.joins r with
      | some ⟨email, .answered seq, check⟩ => s.set r ⟨email, .delivered seq, check⟩
      | _ => s
  | .find r =>
      match s.joins r with
      | some ⟨email, index, .waiting⟩ => s.set r ⟨email, index, .answered (s.Registered email)⟩
      | _ => s
  | .checkReply r =>
      match s.joins r with
      | some ⟨email, index, .answered found⟩ =>
          if isTaken email found then s.set r ⟨email, index, .refused⟩
          else
            let join : Join := ⟨email, index, .answered found⟩
            s.set r ⟨email, index, .inserting ⟨join.inputIndex, email⟩⟩
      | _ => s
  | .store r =>
      match s.joins r with
      | some ⟨email, index, .inserting member⟩ =>
          { s.set r ⟨email, index, .stored⟩ with members := s.members ++ [member] }
      | _ => s

/-- The request that an event is about. -/
def JoinEvent.request : JoinEvent → ℕ
  | .join r _ => r
  | .increment r => r
  | .indexReply r => r
  | .find r => r
  | .checkReply r => r
  | .store r => r

/-! ## What should hold -/

/-- No e-mail occurs twice, every index is a number, and no index occurs twice. -/
structure Registry.Distinct (s : Registry) : Prop where
  emails : (s.members.map Member.email).Nodup
  defined : ∀ member ∈ s.members, member.index ≠ none
  indices : (s.members.map Member.index).Nodup

/-- The request has looked for its e-mail and will insert it, or is about to. -/
def Join.Claims (join : Join) : Prop :=
  match join.check with
  | .answered found => isTaken join.email found = false
  | .inserting _ => True
  | _ => False

/-- No other request is between its `findOne` and its `insert` of this e-mail. -/
def Registry.Unclaimed (s : Registry) (r : ℕ) (email : Email) : Prop :=
  ∀ r' ≠ r, ∀ join, s.joins r' = some join → join.Claims → join.email ≠ email

/-- The condition.  When the database looks for an e-mail, no other request is about to
insert it, and if it is taken it is one of those that are `== true`.  When a request goes
on to insert, its index has arrived. -/
def Registry.InTurn (s : Registry) : JoinEvent → Prop
  | .find r => ∀ join, s.joins r = some join → join.check = .waiting →
      s.Unclaimed r join.email ∧ (s.Registered join.email → looseEqTrue join.email = true)
  | .checkReply r => ∀ join found, s.joins r = some join → join.check = .answered found →
      isTaken join.email found = false → join.inputIndex ≠ none
  | _ => True

/-! ## The invariant -/

/-- The sequence number a request was given. -/
def Join.number (join : Join) : Option ℕ :=
  match join.index with
  | .waiting => none
  | .answered seq => some seq
  | .delivered seq => some seq

theorem Join.number_of_delivered {join : Join} {n : ℕ} (h : join.index = .delivered n) :
    join.number = some n := by
  rw [Join.number, h]

structure JoinInv (s : Registry) : Prop where
  number_le : ∀ r join n, s.joins r = some join → join.number = some n → n ≤ s.seq
  number_inj : ∀ r r' join join' n, s.joins r = some join → s.joins r' = some join' →
    join.number = some n → join'.number = some n → r = r'
  /-- Who is about to insert an e-mail is the only one, and it is not there yet. -/
  claims : ∀ r join, s.joins r = some join → join.Claims →
    ¬ s.Registered join.email ∧ s.Unclaimed r join.email
  inserting : ∀ r join member, s.joins r = some join → join.check = .inserting member →
    ∃ n, join.index = .delivered n ∧ member = ⟨some n, join.email⟩
  /-- Every document is the work of one request. -/
  stored : ∀ member ∈ s.members, ∃ r join n, s.joins r = some join ∧ join.check = .stored ∧
    join.index = .delivered n ∧ member = ⟨some n, join.email⟩
  emails : (s.members.map Member.email).Nodup
  indices : (s.members.map Member.index).Nodup

theorem JoinInv.distinct {s : Registry} (h : JoinInv s) : s.Distinct where
  emails := h.emails
  defined := by
    intro member hmem
    obtain ⟨r, join, n, -, -, -, rfl⟩ := h.stored member hmem
    exact Option.some_ne_none n
  indices := h.indices

theorem joinInv_start : JoinInv Registry.start where
  number_le := by simp [Registry.start]
  number_inj := by simp [Registry.start]
  claims := by simp [Registry.start]
  inserting := by simp [Registry.start]
  stored := by simp [Registry.start]
  emails := by simp [Registry.start]
  indices := by simp [Registry.start]

theorem set_joins_same (s : Registry) (r : ℕ) (join : Join) : (s.set r join).joins r = some join :=
  Function.update_self ..

theorem set_joins_of_ne (s : Registry) {r r' : ℕ} (join : Join) (h : r' ≠ r) :
    (s.set r join).joins r' = s.joins r' :=
  Function.update_of_ne h ..

/-- A request of the new state is the one that moved or was there before. -/
theorem joins_set_cases {s : Registry} {r r' : ℕ} {join join' : Join}
    (h : (s.set r join).joins r' = some join') :
    (r' = r ∧ join' = join) ∨ (r' ≠ r ∧ s.joins r' = some join') := by
  by_cases heq : r' = r
  · subst heq
    rw [set_joins_same, Option.some.injEq] at h
    exact Or.inl ⟨rfl, h.symm⟩
  · rw [set_joins_of_ne s join heq] at h
    exact Or.inr ⟨heq, h⟩

/-- An event leaves the other requests alone. -/
theorem step_joins_of_ne (s : Registry) (event : JoinEvent) {r : ℕ} (h : r ≠ event.request) :
    (s.step event).joins r = s.joins r := by
  cases event with
  | join k email =>
      simp only [Registry.step]
      split
      · exact set_joins_of_ne s _ h
      · rfl
  | increment k =>
      simp only [Registry.step]
      split
      · exact set_joins_of_ne s _ h
      · rfl
  | indexReply k =>
      simp only [Registry.step]
      split
      · exact set_joins_of_ne s _ h
      · rfl
  | find k =>
      simp only [Registry.step]
      split
      · exact set_joins_of_ne s _ h
      · rfl
  | checkReply k =>
      simp only [Registry.step]
      split
      · split
        · exact set_joins_of_ne s _ h
        · exact set_joins_of_ne s _ h
      · rfl
  | store k =>
      simp only [Registry.step]
      split
      · exact set_joins_of_ne s _ h
      · rfl

theorem run_joins_of_ne (s : Registry) (r : ℕ) (events : List JoinEvent)
    (h : ∀ event ∈ events, r ≠ event.request) :
    (run Registry.step s events).joins r = s.joins r := by
  induction events generalizing s with
  | nil => rfl
  | cons event rest ih =>
      have hrest := ih (s.step event) fun e he => h e (List.mem_cons_of_mem _ he)
      rw [run_cons, hrest, step_joins_of_ne s event (h event (List.mem_cons_self ..))]

section

variable {s : Registry}

/-- The number of a request that moves on is its own: it had it before, or it is above all
numbers there were. -/
theorem JoinInv.number_inj_set (h : JoinInv s) {r : ℕ} {join : Join}
    (hnumber : ∀ n, join.number = some n →
      (∃ old, s.joins r = some old ∧ old.number = some n) ∨ s.seq < n)
    {a b : ℕ} {joina joinb : Join} {n : ℕ} (ha : (s.set r join).joins a = some joina)
    (hb : (s.set r join).joins b = some joinb) (hna : joina.number = some n)
    (hnb : joinb.number = some n) : a = b := by
  have hmoved : ∀ r' join', r' ≠ r → s.joins r' = some join' → join'.number = some n →
      join.number ≠ some n := by
    intro r' join' hne hjoin' hn' hn
    rcases hnumber n hn with ⟨old, hold, hn⟩ | hlt
    · exact hne (h.number_inj r' r join' old n hjoin' hold hn' hn)
    · exact absurd (h.number_le r' join' n hjoin' hn') (by omega)
  rcases joins_set_cases ha with ⟨rfl, rfl⟩ | ⟨hane, haold⟩
  · rcases joins_set_cases hb with ⟨rfl, rfl⟩ | ⟨hbne, hbold⟩
    · rfl
    · exact absurd hna (hmoved b joinb hbne hbold hnb)
  · rcases joins_set_cases hb with ⟨rfl, rfl⟩ | ⟨hbne, hbold⟩
    · exact absurd hnb (hmoved a joina hane haold hna)
    · exact h.number_inj a b joina joinb n haold hbold hna hnb

/-- The claims of the others stay their own when a request with a claim of its own moves on. -/
theorem JoinInv.claims_set (h : JoinInv s) {r : ℕ} {join : Join}
    (hclaims : join.Claims → ¬ s.Registered join.email ∧ s.Unclaimed r join.email)
    {r' : ℕ} {join' : Join} (hjoin : (s.set r join).joins r' = some join')
    (hclaim : join'.Claims) :
    ¬ s.Registered join'.email ∧ (s.set r join).Unclaimed r' join'.email := by
  rcases joins_set_cases hjoin with ⟨rfl, rfl⟩ | ⟨hne, hbefore⟩
  · obtain ⟨hfree, hother⟩ := hclaims hclaim
    refine ⟨hfree, ?_⟩
    intro k hk joink hjoink hclaimk
    rcases joins_set_cases hjoink with ⟨rfl, -⟩ | ⟨-, hjoink⟩
    · exact absurd rfl hk
    · exact hother k hk joink hjoink hclaimk
  · obtain ⟨hfree, hother⟩ := h.claims r' join' hbefore hclaim
    refine ⟨hfree, ?_⟩
    intro k hk joink hjoink hclaimk
    rcases joins_set_cases hjoink with ⟨rfl, rfl⟩ | ⟨-, hjoink⟩
    · exact ((hclaims hclaimk).2 r' hne join' hbefore hclaim).symm
    · exact hother k hk joink hjoink hclaimk

/-- A request moves on and the documents stay: what has to be checked of the new request
alone. -/
theorem JoinInv.set (h : JoinInv s) {r : ℕ} {join : Join} {seq : ℕ} (hseq : s.seq ≤ seq)
    (hopen : ∀ old n, s.joins r = some old → old.index = .delivered n → old.check ≠ .stored)
    (hnumber : ∀ n, join.number = some n →
      (∃ old, s.joins r = some old ∧ old.number = some n) ∨ (s.seq < n ∧ n ≤ seq))
    (hclaims : join.Claims → ¬ s.Registered join.email ∧ s.Unclaimed r join.email)
    (hinserting : ∀ member, join.check = .inserting member →
      ∃ n, join.index = .delivered n ∧ member = ⟨some n, join.email⟩) :
    JoinInv { s.set r join with seq := seq } where
  number_le := by
    intro r' join' n hjoin hn
    show n ≤ seq
    rcases joins_set_cases hjoin with ⟨rfl, rfl⟩ | ⟨-, hjoin⟩
    · rcases hnumber n hn with ⟨old, hold, hn⟩ | ⟨-, hle⟩
      · exact (h.number_le _ old n hold hn).trans hseq
      · exact hle
    · exact (h.number_le r' join' n hjoin hn).trans hseq
  number_inj := by
    have hown : ∀ n, join.number = some n →
        (∃ old, s.joins r = some old ∧ old.number = some n) ∨ s.seq < n :=
      fun n hn => (hnumber n hn).imp_right And.left
    exact fun a b joina joinb n ha hb hna hnb => h.number_inj_set hown ha hb hna hnb
  claims := fun r' join' hjoin hclaim => h.claims_set hclaims hjoin hclaim
  inserting := by
    intro r' join' member hjoin hcheck
    rcases joins_set_cases hjoin with ⟨rfl, rfl⟩ | ⟨-, hjoin⟩
    · exact hinserting member hcheck
    · exact h.inserting r' join' member hjoin hcheck
  stored := by
    intro member hmem
    obtain ⟨r', old, n, hold, hstored, hindex, hmember⟩ := h.stored member hmem
    have hne : r' ≠ r := by
      rintro rfl
      exact hopen old n hold hindex hstored
    exact ⟨r', old, n, (set_joins_of_ne s join hne).trans hold, hstored, hindex, hmember⟩
  emails := h.emails
  indices := h.indices

/-- A request that keeps its e-mail and its number, and claims nothing new. -/
theorem JoinInv.move (h : JoinInv s) {r : ℕ} {old join : Join} (hold : s.joins r = some old)
    (hopen : ∀ n, old.index = .delivered n → old.check ≠ .stored)
    (hnumber : join.number = old.number)
    (hclaims : join.Claims → old.Claims ∧ join.email = old.email)
    (hinserting : ∀ member, join.check = .inserting member →
      ∃ n, join.index = .delivered n ∧ member = ⟨some n, join.email⟩) :
    JoinInv (s.set r join) := by
  refine h.set (le_refl s.seq) ?_ ?_ ?_ hinserting
  · intro old' n hold'
    rw [hold, Option.some.injEq] at hold'
    rw [← hold']
    exact hopen n
  · intro n hn
    exact Or.inl ⟨old, hold, hnumber ▸ hn⟩
  · intro hclaim
    obtain ⟨hclaim, hemail⟩ := hclaims hclaim
    rw [hemail]
    exact h.claims r old hold hclaim

/-- The number of a request that has not stored its document is in no document. -/
theorem JoinInv.index_fresh (h : JoinInv s) {r : ℕ} {join : Join} {n : ℕ}
    (hjoin : s.joins r = some join) (hcheck : join.check ≠ .stored)
    (hindex : join.index = .delivered n) : some n ∉ s.members.map Member.index := by
  intro hmem
  obtain ⟨other, hother, heq⟩ := List.mem_map.mp hmem
  obtain ⟨r', join', m, hjoin', hstored, hindex', rfl⟩ := h.stored other hother
  obtain rfl : m = n := Option.some.inj heq
  obtain rfl : r' = r := h.number_inj r' r join' join m hjoin' hjoin
    (Join.number_of_delivered hindex') (Join.number_of_delivered hindex)
  obtain rfl : join' = join := Option.some.inj (hjoin'.symm.trans hjoin)
  exact hcheck hstored

/-- The insert is done: the document is new in both fields. -/
theorem JoinInv.store (h : JoinInv s) {r : ℕ} {email : Email} {index : IndexQuery}
    {member : Member} (hjoin : s.joins r = some ⟨email, index, .inserting member⟩) :
    JoinInv { s.set r ⟨email, index, .stored⟩ with members := s.members ++ [member] } := by
  obtain ⟨n, hindex, hmember⟩ := h.inserting r _ member hjoin rfl
  obtain ⟨hfree, hother⟩ := h.claims r _ hjoin trivial
  have hmoved : JoinInv (s.set r ⟨email, index, .stored⟩) := by
    refine h.move hjoin (by simp) rfl ?_ (by simp)
    intro hclaim
    exact absurd hclaim (by simp [Join.Claims])
  have hfresh := h.index_fresh hjoin (by simp) hindex
  refine {
    number_le := hmoved.number_le
    number_inj := hmoved.number_inj
    claims := ?_
    inserting := hmoved.inserting
    stored := ?_
    emails := ?_
    indices := ?_ }
  · intro r' join' hjoin' hclaim
    obtain ⟨hunregistered, hunclaimed⟩ := hmoved.claims r' join' hjoin' hclaim
    refine ⟨?_, hunclaimed⟩
    rcases joins_set_cases hjoin' with ⟨rfl, rfl⟩ | ⟨hne, hbefore⟩
    · exact absurd hclaim (by simp [Join.Claims])
    · have hemail : join'.email ≠ email := hother r' hne join' hbefore hclaim
      intro hregistered
      simp only [Registry.Registered, List.map_append, List.map_singleton, List.mem_append,
        List.mem_singleton, hmember] at hregistered
      rcases hregistered with hold | hnew
      · exact hunregistered hold
      · exact hemail hnew
  · intro other hmem
    rcases List.mem_append.mp hmem with hold | hnew
    · exact hmoved.stored other hold
    · rw [List.mem_singleton.mp hnew, hmember]
      exact ⟨r, _, n, set_joins_same .., rfl, hindex, rfl⟩
  · rw [List.map_append, List.map_singleton, hmember]
    exact List.nodup_append_comm.mp (List.nodup_cons.mpr ⟨hfree, h.emails⟩)
  · rw [List.map_append, List.map_singleton, hmember]
    exact List.nodup_append_comm.mp (List.nodup_cons.mpr ⟨hfresh, h.indices⟩)

/-- The counter hands out a number that no request has. -/
theorem JoinInv.increment (h : JoinInv s) {r : ℕ} {email : Email} {check : CheckQuery}
    (hjoin : s.joins r = some ⟨email, .waiting, check⟩) :
    JoinInv { s.set r ⟨email, .answered (s.seq + 1), check⟩ with seq := s.seq + 1 } := by
  refine h.set (Nat.le_succ s.seq) ?_ ?_ ?_ ?_
  · intro old n hold hindex
    rw [hjoin, Option.some.injEq] at hold
    simp [← hold] at hindex
  · intro n hn
    obtain rfl : s.seq + 1 = n := Option.some.inj hn
    exact Or.inr ⟨Nat.lt_succ_self _, le_refl _⟩
  · exact h.claims r ⟨email, .waiting, check⟩ hjoin
  · intro member hcheck
    obtain ⟨n, hindex, -⟩ := h.inserting r _ member hjoin hcheck
    simp at hindex

/-- A request that looks in its turn: an e-mail that is taken is found, and refused. -/
theorem JoinInv.find (h : JoinInv s) {r : ℕ} {email : Email} {index : IndexQuery}
    (hjoin : s.joins r = some ⟨email, index, .waiting⟩) (hunclaimed : s.Unclaimed r email)
    (htaken : s.Registered email → looseEqTrue email = true) :
    JoinInv (s.set r ⟨email, index, .answered (s.Registered email)⟩) := by
  refine h.set (le_refl s.seq) ?_ ?_ ?_ (by simp)
  · intro old n hold _
    rw [hjoin, Option.some.injEq] at hold
    simp [← hold]
  · intro n hn
    exact Or.inl ⟨_, hjoin, hn⟩
  · intro hclaim
    refine ⟨?_, hunclaimed⟩
    intro hregistered
    have hfound : s.Registered email := hregistered
    simp [Join.Claims, isTaken, hfound, htaken hfound] at hclaim

/-- The callback of `checkIdMember` goes on to insert, with an index that has arrived. -/
theorem JoinInv.accept (h : JoinInv s) {r : ℕ} {join : Join} {found : Bool}
    (hjoin : s.joins r = some join) (hcheck : join.check = .answered found)
    (hfree : isTaken join.email found = false) (harrived : join.inputIndex ≠ none) :
    JoinInv (s.set r ⟨join.email, join.index, .inserting ⟨join.inputIndex, join.email⟩⟩) := by
  have hclaims : join.Claims := by
    rw [Join.Claims, hcheck]
    exact hfree
  refine h.move hjoin (by simp [hcheck]) rfl (fun _ => ⟨hclaims, rfl⟩) ?_
  intro member hmember
  obtain rfl : ⟨join.inputIndex, join.email⟩ = member := CheckQuery.inserting.inj hmember
  obtain ⟨email, index, check⟩ := join
  cases index with
  | waiting => exact absurd rfl harrived
  | answered seq => exact absurd rfl harrived
  | delivered seq => exact ⟨seq, rfl, rfl⟩

theorem joinInv_step (h : JoinInv s) {event : JoinEvent} (hturn : s.InTurn event) :
    JoinInv (s.step event) := by
  cases event with
  | join r email =>
      simp only [Registry.step]
      split
      · next hnone =>
          refine h.set (le_refl s.seq) ?_ ?_ ?_ ?_
          · simp [hnone]
          · simp [Join.number]
          · simp [Join.Claims]
          · simp
      · exact h
  | increment r =>
      simp only [Registry.step]
      split
      · next email check hjoin => exact h.increment hjoin
      · exact h
  | indexReply r =>
      simp only [Registry.step]
      split
      · next email seq check hjoin =>
          refine h.move hjoin (by simp) rfl (fun hclaim => ⟨hclaim, rfl⟩) ?_
          intro member hcheck
          obtain ⟨n, hindex, -⟩ := h.inserting r _ member hjoin hcheck
          simp at hindex
      · exact h
  | find r =>
      simp only [Registry.step]
      split
      · next email index hjoin =>
          obtain ⟨hunclaimed, htaken⟩ := hturn _ hjoin rfl
          exact h.find hjoin hunclaimed htaken
      · exact h
  | checkReply r =>
      simp only [Registry.step]
      split
      · next email index found hjoin =>
          split
          · refine h.move hjoin (by simp) rfl ?_ (by simp)
            intro hclaim
            exact absurd hclaim (by simp [Join.Claims])
          · next hfree =>
              have hfree : isTaken email found = false := by simpa using hfree
              exact h.accept hjoin rfl hfree (hturn _ found hjoin rfl hfree)
      · exact h
  | store r =>
      simp only [Registry.step]
      split
      · next email index member hjoin => exact h.store hjoin
      · exact h

end

/-- **Registration.**  In every interleaving of requests and replies in which no two
requests want to insert one e-mail at the same time, a taken e-mail is found to be
`== true`, and the index arrives before the answer to the check, all members have
different e-mails and different indices. -/
theorem members_distinct (events : List JoinEvent)
    (hturn : Along Registry.step Registry.InTurn .start events) :
    Everywhere Registry.step Registry.Distinct .start events := by
  have hinv : Everywhere Registry.step JoinInv .start events :=
    hturn.everywhere joinInv_start fun _ _ h hevent => joinInv_step h hevent
  exact hinv.mono fun _ h => h.distinct

/-- The events of one request whose index arrives first. -/
def joinAlone (r : ℕ) (email : Email) : List JoinEvent :=
  [.join r email, .increment r, .indexReply r, .find r, .checkReply r, .store r]

/-- Two members register, one after the other. -/
theorem members_distinct_two :
    Everywhere Registry.step Registry.Distinct .start (joinAlone 0 "a" ++ joinAlone 1 "b") := by
  apply members_distinct
  refine ⟨trivial, trivial, trivial, ?_, ?_, trivial, trivial, trivial, trivial, ?_, ?_, trivial,
    trivial⟩
  · rintro join ⟨⟩ -
    refine ⟨?_, by decide⟩
    intro r hne join hjoin
    have hnone := run_joins_of_ne .start r ((joinAlone 0 "a").take 3)
      (by simp [joinAlone, JoinEvent.request, hne])
    cases hjoin.symm.trans hnone
  · rintro join found ⟨⟩ - -
    decide
  · rintro join ⟨⟩ -
    refine ⟨?_, by decide⟩
    intro r hne join hjoin hclaim
    by_cases hzero : r = 0
    · -- the first request is done
      subst hzero
      cases hjoin
      exact False.elim hclaim
    · have hnone := run_joins_of_ne .start r (joinAlone 0 "a" ++ (joinAlone 1 "b").take 3)
        (by simp [joinAlone, JoinEvent.request, hne, hzero])
      cases hjoin.symm.trans hnone
  · rintro join found ⟨⟩ - -
    decide

/-- The same e-mail twice, one after the other: the second request finds it and inserts it
all the same.  And one request whose check is answered before its index: the member has
no index. -/
theorem taken_email_is_inserted :
    (run Registry.step .start (joinAlone 0 "a" ++ joinAlone 1 "a")).members =
        [⟨some 1, "a"⟩, ⟨some 2, "a"⟩] ∧
      (run Registry.step .start
        [.join 0 "a", .find 0, .checkReply 0, .store 0, .increment 0, .indexReply 0]).members =
        [⟨none, "a"⟩] := by
  decide

end SsmIaas.LoadBalancer
