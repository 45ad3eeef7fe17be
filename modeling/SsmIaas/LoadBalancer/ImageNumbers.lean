import SsmIaas.Lib.Run
import SsmIaas.Lib.Tickets
import SsmIaas.LoadBalancer.PostSelect

/-!
# The numbers of images

`requestCreateOS` sends the database three commands: the insert of `initIndexers ()`, which
fails except for the first time, the `findAndModify` of `getIndexers ()`, and, once that has
been answered, the insert of the image with the number of the answer.  Commands and answers
of many requests interleave in any order; a `findAndModify` may even come before the insert
of its own request.

The numbers are tickets of a counter (`ImageStore.tickets`): a request draws one and keeps it
until its image is inserted.  Hence no two images get one number (`image_numbers`).
-/

namespace SsmIaas.LoadBalancer

open Lib

variable {Value : Type*}

/-- How far a request is. -/
inductive CreatePhase
  /-- `findAndModify` has been sent. -/
  | waiting
  /-- It was executed and the answer is on its way, `null` if there was no document. -/
  | answered (data : Option ℕ)
  /-- The callback read `data.seq` of `null`. -/
  | threw
  /-- The insert of the image has been sent. -/
  | inserting (index : ℕ)
  | stored
  deriving DecidableEq, Repr

/-- The number that a request was given and has not used yet. -/
def CreatePhase.number : CreatePhase → Option ℕ
  | .answered data => data
  | .inserting index => some index
  | _ => none

/-- One `requestCreateOS`. -/
structure CreateRequest (Value : Type*) where
  email : JsText
  imageVersion : Value
  /-- was the insert of `initIndexers ()` executed? -/
  initialised : Bool
  phase : CreatePhase
  deriving DecidableEq, Repr

/-- The database and all requests. -/
structure ImageStore (Value : Type*) where
  indexers : Indexers
  images : List (ImageRecord Value)
  creates : ℕ → Option (CreateRequest Value)
  /-- ghost: the images that the requests have inserted -/
  inserted : List (ImageRecord Value)

inductive CreateEvent (Value : Type*)
  /-- A request arrives. -/
  | requestCreateOS (r : ℕ) (email : JsText) (imageVersion : Value)
  /-- The database executes the insert of `initIndexers ()`. -/
  | initIndexers (r : ℕ)
  /-- The database executes `findAndModify`. -/
  | getIndexers (r : ℕ)
  /-- The answer of `findAndModify` arrives. -/
  | callback (r : ℕ)
  /-- The database executes the insert of the image. -/
  | insertImage (r : ℕ)
  /-- The database executes the `remove` of a `requestDeleteOS`. -/
  | deleteImage (index email : JsText) (image : Value)
  deriving DecidableEq, Repr

namespace ImageStore

/-- Some documents, and no request yet. -/
def start (indexers : Indexers) (images : List (ImageRecord Value)) : ImageStore Value :=
  ⟨indexers, images, fun _ => none, []⟩

/-- Request `r` goes on to `create`. -/
def set (s : ImageStore Value) (r : ℕ) (create : CreateRequest Value) : ImageStore Value :=
  { s with creates := Function.update s.creates r (some create) }

/-- `findAndModify` for request `r`. -/
def count (s : ImageStore Value) (r : ℕ) (create : CreateRequest Value) : ImageStore Value :=
  match LoadBalancer.getIndexers s.indexers with
  | none => s.set r { create with phase := .answered none }
  | some (seq, indexers) =>
      { s.set r { create with phase := .answered (some seq) } with indexers }

/-- The callback of `getIndexers ()`. -/
def afterCount : Option ℕ → CreatePhase
  | none => .threw
  | some index => .inserting index

variable (ops : ValueOps Value)

def step (s : ImageStore Value) : CreateEvent Value → ImageStore Value
  | .requestCreateOS r email imageVersion =>
      match s.creates r with
      | none => s.set r ⟨email, imageVersion, false, .waiting⟩
      | some _ => s
  | .initIndexers r =>
      match s.creates r with
      | some ⟨email, imageVersion, false, phase⟩ =>
          { s.set r ⟨email, imageVersion, true, phase⟩ with
            indexers := LoadBalancer.initIndexers s.indexers }
      | _ => s
  | .getIndexers r =>
      match s.creates r with
      | some ⟨email, imageVersion, initialised, .waiting⟩ =>
          s.count r ⟨email, imageVersion, initialised, .waiting⟩
      | _ => s
  | .callback r =>
      match s.creates r with
      | some ⟨email, imageVersion, initialised, .answered data⟩ =>
          s.set r ⟨email, imageVersion, initialised, afterCount data⟩
      | _ => s
  | .insertImage r =>
      match s.creates r with
      | some ⟨email, imageVersion, initialised, .inserting index⟩ =>
          { s.set r ⟨email, imageVersion, initialised, .stored⟩ with
            images := LoadBalancer.insertImage s.images index email imageVersion
            inserted := s.inserted ++ [⟨index, email, imageVersion⟩] }
      | _ => s
  | .deleteImage index email image =>
      { s with images := (LoadBalancer.deleteImage ops s.images index email image).2 }

/-! ## What an event can do -/

/-- The number that request `r` holds. -/
def number (s : ImageStore Value) (r : ℕ) : Option ℕ :=
  (s.creates r).bind fun create => create.phase.number

theorem number_of_creates {s : ImageStore Value} {r : ℕ} {create : CreateRequest Value}
    (h : s.creates r = some create) : s.number r = create.phase.number := by
  simp [number, h]

theorem number_set (s : ImageStore Value) (r : ℕ) (create : CreateRequest Value) :
    (s.set r create).number = Function.update s.number r create.phase.number := by
  funext r'
  by_cases heq : r' = r
  · subst heq
    simp [number, set]
  · simp [number, set, heq]

/-- The request goes on with the number it has. -/
theorem number_set_same {s : ImageStore Value} {r : ℕ} {create : CreateRequest Value}
    (h : s.number r = create.phase.number) : (s.set r create).number = s.number := by
  rw [number_set, ← h, Function.update_eq_self]

/-- What an event does to the counter, the numbers and the images: nothing but making the
document of the counter or removing images, or handing out the next number, or using one. -/
inductive Effect (s s' : ImageStore Value) : Prop
  | quiet (hindexers : s'.indexers = s.indexers ∨ s'.indexers = initIndexers s.indexers)
      (hnumber : s'.number = s.number) (hinserted : s'.inserted = s.inserted)
      (himages : s'.images.Sublist s.images)
  | draws (r seq : ℕ) (hseq : s.indexers = some seq) (hindexers : s'.indexers = some (seq + 1))
      (hnumber : s'.number = Function.update s.number r (some (seq + 1)))
      (hinserted : s'.inserted = s.inserted) (himages : s'.images = s.images)
  | spends (r : ℕ) (record : ImageRecord Value) (hheld : s.number r = some record.index)
      (hindexers : s'.indexers = s.indexers) (hnumber : s'.number = Function.update s.number r none)
      (hinserted : s'.inserted = s.inserted ++ [record])
      (himages : s'.images = s.images ++ [record])

theorem Effect.refl (s : ImageStore Value) : Effect s s :=
  .quiet (Or.inl rfl) rfl rfl (List.Sublist.refl _)

theorem effect_count {s : ImageStore Value} {r : ℕ} {create : CreateRequest Value}
    (hcreate : s.creates r = some create) (hwaiting : create.phase = .waiting) :
    Effect s (s.count r create) := by
  have hnone : s.number r = none := by
    rw [number_of_creates hcreate, hwaiting]
    rfl
  cases hindexers : s.indexers with
  | none =>
      simp only [count, hindexers, LoadBalancer.getIndexers]
      exact .quiet (Or.inl rfl) (number_set_same hnone) rfl (List.Sublist.refl _)
  | some seq =>
      simp only [count, hindexers, LoadBalancer.getIndexers]
      exact .draws r seq hindexers rfl (number_set s r _) rfl rfl

theorem effect_step (s : ImageStore Value) (event : CreateEvent Value) :
    Effect s (s.step ops event) := by
  cases event with
  | requestCreateOS r email imageVersion =>
      simp only [step]
      split
      · next hnone =>
          have hnumber : s.number r = none := by simp [number, hnone]
          exact .quiet (Or.inl rfl) (number_set_same hnumber) rfl (List.Sublist.refl _)
      · exact .refl s
  | initIndexers r =>
      simp only [step]
      split
      · next email imageVersion phase hcreate =>
          have hnumber : s.number r = phase.number := number_of_creates hcreate
          exact .quiet (Or.inr rfl) (number_set_same hnumber) rfl (List.Sublist.refl _)
      · exact .refl s
  | getIndexers r =>
      simp only [step]
      split
      · next hcreate => exact effect_count hcreate rfl
      · exact .refl s
  | callback r =>
      simp only [step]
      split
      · next data hcreate =>
          have hnumber : s.number r = (afterCount data).number := by
            rw [number_of_creates hcreate]
            cases data <;> rfl
          exact .quiet (Or.inl rfl) (number_set_same hnumber) rfl (List.Sublist.refl _)
      · exact .refl s
  | insertImage r =>
      simp only [step]
      split
      · next email imageVersion initialised index hcreate =>
          exact .spends r ⟨index, email, imageVersion⟩ (number_of_creates hcreate) rfl
            (number_set s r _) rfl rfl
      · exact .refl s
  | deleteImage index email image => exact .quiet (Or.inl rfl) rfl rfl List.filter_sublist

/-! ## The counter -/

/-- The document of the counter stays, and its number does not get smaller. -/
def CounterKept (s s' : ImageStore Value) : Prop :=
  ∀ seq, s.indexers = some seq → ∃ seq', s'.indexers = some seq' ∧ seq ≤ seq'

theorem Effect.counterKept {s s' : ImageStore Value} (h : Effect s s') : CounterKept s s' := by
  intro seq hseq
  cases h with
  | quiet hindexers =>
      -- the insert of `initIndexers ()` fails when the document is there
      have hinit : initIndexers s.indexers = some seq := by rw [hseq]; rfl
      rcases hindexers with hsame | hsame
      · exact ⟨seq, hsame.trans hseq, le_rfl⟩
      · exact ⟨seq, hsame.trans hinit, le_rfl⟩
  | draws r seq' hseq' hindexers =>
      obtain rfl : seq' = seq := Option.some.inj (hseq'.symm.trans hseq)
      exact ⟨seq' + 1, hindexers, Nat.le_succ _⟩
  | spends r record hheld hindexers => exact ⟨seq, hindexers.trans hseq, le_rfl⟩

/-! ## Numbers as tickets -/

/-- What is left of the store when only the numbers matter. -/
def tickets (s : ImageStore Value) : Tickets ℕ where
  counter := s.indexers.getD 0
  held := s.number
  spent := s.inserted.map ImageRecord.index

theorem Effect.tickets {s s' : ImageStore Value} (h : Effect s s') :
    ∃ seen, s'.tickets = run Tickets.step s.tickets seen := by
  cases h with
  | quiet hindexers hnumber hinserted =>
      refine ⟨[], ?_⟩
      have hcounter : s'.indexers.getD 0 = s.indexers.getD 0 := by
        rcases hindexers with hsame | hsame <;> simp [hsame, initIndexers]
      simp [ImageStore.tickets, hcounter, hnumber, hinserted]
  | draws r seq hseq hindexers hnumber hinserted =>
      refine ⟨[.draw r], ?_⟩
      simp [ImageStore.tickets, Tickets.step, Tickets.draw, hseq, hindexers, hnumber, hinserted]
  | spends r record hheld hindexers hnumber hinserted =>
      refine ⟨[.spend r], ?_⟩
      simp [ImageStore.tickets, Tickets.step, Tickets.spend, hheld, hindexers, hnumber, hinserted]

/-- The requests draw and spend numbers above those there were. -/
theorem tickets_run (indexers : Indexers) (images : List (ImageRecord Value))
    (events : List (CreateEvent Value)) :
    Tickets.Inv (indexers.getD 0) (run (step ops) (start indexers images) events).tickets := by
  obtain ⟨seen, hseen⟩ := run_simulates (fun s event => (effect_step ops s event).tickets)
    (start indexers images) events
  rw [hseen]
  exact Tickets.inv_run (indexers.getD 0) seen

/-- **Image numbers.**  From any documents whose numbers are at most the counter, and in
every interleaving of the commands of any requests, all images that are inserted get numbers
of their own, which no image had before, and the counter never decreases. -/
theorem image_numbers (indexers : Indexers) (images : List (ImageRecord Value))
    (hle : ∀ image ∈ images, image.index ≤ indexers.getD 0) (events : List (CreateEvent Value)) :
    let s := run (step ops) (start indexers images) events
    (s.inserted.map ImageRecord.index).Nodup ∧
      (∀ old ∈ images, ∀ new ∈ s.inserted, old.index < new.index) ∧
      Along (step ops) (fun s event => CounterKept s (s.step ops event)) (start indexers images)
        events := by
  intro s
  have hinv := tickets_run ops indexers images events
  refine ⟨hinv.spent_nodup, fun old hold new hnew => ?_, ?_⟩
  · have hdrawn := hinv.spent_drawn new.index (List.mem_map_of_mem hnew)
    exact (hle old hold).trans_lt hdrawn.1
  · exact along_iff_forall_split.mpr fun _ event _ _ => (effect_step ops _ event).counterKept

/-- Two requests from an image with number 3: the database counts for the first one first,
and inserts the image of the second one first. -/
theorem image_numbers_two :
    let events : List (CreateEvent String) :=
      [.requestCreateOS 0 (some [97]) "linux", .requestCreateOS 1 (some [98]) "window7",
        .getIndexers 0, .initIndexers 1, .getIndexers 1, .callback 1, .insertImage 1,
        .initIndexers 0, .callback 0, .insertImage 0]
    let s := run (step strings) (start (some 3) [⟨3, some [97], "linux"⟩]) events
    s.inserted.map ImageRecord.index = [5, 4] ∧ (s.inserted.map ImageRecord.index).Nodup := by
  intro events s
  refine ⟨rfl, ?_⟩
  exact (image_numbers strings (some 3) [⟨3, some [97], "linux"⟩] (by simp) events).1

/-! ## The collection -/

theorem images_sublist_run (indexers : Indexers) (images : List (ImageRecord Value))
    (events : List (CreateEvent Value)) :
    let s := run (step ops) (start indexers images) events
    s.images.Sublist (images ++ s.inserted) := by
  refine run_invariant (I := fun s : ImageStore Value => s.images.Sublist (images ++ s.inserted))
    events ?_ ?_
  · simp [start]
  · intro s event h
    cases effect_step ops s event with
    | quiet hindexers hnumber hinserted himages =>
        rw [hinserted]
        exact himages.trans h
    | draws r seq hseq hindexers hnumber hinserted himages =>
        rw [hinserted, himages]
        exact h
    | spends r record hheld hindexers hnumber hinserted himages =>
        rw [hinserted, himages, ← List.append_assoc]
        exact h.append_right [record]

/-- Numbers that are distinct at the start stay distinct. -/
theorem images_nodup_run (indexers : Indexers) {images : List (ImageRecord Value)}
    (hle : ∀ image ∈ images, image.index ≤ indexers.getD 0)
    (hnodup : (images.map ImageRecord.index).Nodup) (events : List (CreateEvent Value)) :
    ((run (step ops) (start indexers images) events).images.map ImageRecord.index).Nodup := by
  have hinv := tickets_run ops indexers images events
  refine ((images_sublist_run ops indexers images events).map _).nodup ?_
  rw [List.map_append, List.nodup_append]
  refine ⟨hnodup, hinv.spent_nodup, ?_⟩
  rintro old hold new hnew
  obtain ⟨image, himage, rfl⟩ := List.mem_map.mp hold
  exact ((hle image himage).trans_lt (hinv.spent_drawn new hnew).1).ne

/-! ## One request alone

When nothing comes in between, a request leaves the documents and the counter that the
handler of `PostSelect.lean` leaves. -/

/-- The events of one request, in their order. -/
def createAlone (r : ℕ) (email : JsText) (imageVersion : Value) : List (CreateEvent Value) :=
  [.requestCreateOS r email imageVersion, .initIndexers r, .getIndexers r, .callback r,
    .insertImage r]

theorem run_createAlone {s : ImageStore Value} {r : ℕ} (hnew : s.creates r = none)
    (email : JsText) (imageVersion : Value) :
    let s' := run (step ops) s (createAlone r email imageVersion)
    s'.images = LoadBalancer.insertImage s.images (s.indexers.getD 0 + 1) email imageVersion ∧
      s'.indexers = some (s.indexers.getD 0 + 1) := by
  simp [createAlone, step, set, count, afterCount, hnew, LoadBalancer.initIndexers,
    LoadBalancer.getIndexers]

theorem createAlone_requestCreateOS (body : BodyOps Value) {around : Surroundings}
    (herror : around.databaseError = false) {store : Store Value} {s : ImageStore Value}
    (himages : s.images = store.images) (hindexers : s.indexers = store.indexers) {r : ℕ}
    (hnew : s.creates r = none) (email : Option Email) (imageVersion : Value) :
    let s' := run (step body.toValueOps) s (createAlone r (email.map utf8) imageVersion)
    let outcome := requestCreateOS body around store email imageVersion
    s'.images = outcome.store.images ∧ s'.indexers = outcome.store.indexers := by
  have hindex : LoadBalancer.getIndexers (LoadBalancer.initIndexers store.indexers) =
      some (store.indexers.getD 0 + 1, some (store.indexers.getD 0 + 1)) := rfl
  obtain ⟨halone, hcounter⟩ := run_createAlone body.toValueOps hnew (email.map utf8) imageVersion
  simp only [halone, hcounter, himages, hindexers, requestCreateOS, hindex, herror]
  cases body.equalsText imageVersion "androidx86" with
  | none => exact ⟨rfl, rfl⟩
  | some equal => exact ⟨rfl, rfl⟩

end ImageStore

end SsmIaas.LoadBalancer
