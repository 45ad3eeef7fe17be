import SsmIaas.Lib.JavaScript

/-!
# Login

`loginMember` and `mobile_loginMember` pass two fields of the request body to MongoDB as
they are, as values of the query `{Email: .., Password: ..}`.  A body is any JSON, and an
object with operators in the place of a value is a condition of its own: `{"$ne": null}`
for the password lets everybody in.

What an operator accepts is a parameter of this module.  `login_sound_iff` holds for every
meaning of the operators: a login is sound exactly for the bodies in which both fields are
strings, apart from those that no document can match at all.
-/

namespace SsmIaas.LoadBalancer

open Lib

/-- A document of `Members` with the fields that a login reads; any of them can be missing
or hold any value. -/
structure MemberDoc where
  index : Option Json
  email : Option Json
  password : Option Json
  deriving DecidableEq

/-- The field of a request body; `none` is `undefined`. -/
def bodyField (name : String) : Json → Option Json
  | .obj fields => lookup fields
  | _ => none
where
  lookup : Fields → Option Json
    | .nil => none
    | .cons key value rest => if key = name then some value else lookup rest

/-- Some key begins with a dollar sign. -/
def hasOperator : Fields → Bool
  | .nil => false
  | .cons key _ rest => key.toList.head? == some '$' || hasOperator rest

/-- The outcome of a login, up to the form of the reply. -/
inductive LoginResult
  | accepted
  | refused
  /-- the index is `== false`, and nothing is sent -/
  | unanswered
  deriving DecidableEq, Repr

/-- What `loginMember` does: the assignment to `req.session.MemberEmail`, if there is
one, and the body that is sent. -/
structure LoginEffect where
  memberEmail : Option (Option Json)
  sent : Option Bool
  deriving DecidableEq

section

variable (operator : Fields → Option Json → Bool)

/-- MongoDB's comparison of a query value with a field. -/
def accepts (query field : Option Json) : Bool :=
  match query with
  | some (.obj fields) =>
      if hasOperator fields then operator fields field else field == query
  | _ => field == query

/-- `checkLoginMember`: the argument of its callback. -/
def checkLoginMember (members : List MemberDoc) (email password : Option Json) : Bool :=
  (members.find? fun doc =>
    accepts operator email doc.email && accepts operator password doc.password).isSome

/-- `getIndexMember`: the argument of its callback. -/
def getIndexMember (members : List MemberDoc) (email : Option Json) : Option Json :=
  match members.find? fun doc => accepts operator email doc.email with
  | some doc => doc.index
  | none => some (.bool false)

/-- `data!=false`; `undefined` is not `== false`. -/
def looseNeFalse (data : Option Json) : Bool :=
  match data with
  | some value => !value.looseEqFalse
  | none => true

/-- The part that both functions have in common. -/
def login (members : List MemberDoc) (body : Json) : LoginResult :=
  let email := bodyField "inputMemberEmail" body
  let password := bodyField "inputMemberPassword" body
  if checkLoginMember operator members email password then
    if looseNeFalse (getIndexMember operator members email) then .accepted else .unanswered
  else .refused

def loginMember (members : List MemberDoc) (body : Json) : LoginEffect :=
  match login operator members body with
  | .accepted => ⟨some (bodyField "inputMemberEmail" body), some true⟩
  | .refused => ⟨none, some false⟩
  | .unanswered => ⟨none, none⟩

/-- The `login_result` that is sent. -/
def mobileLoginMember (members : List MemberDoc) (body : Json) : Option String :=
  match login operator members body with
  | .accepted => some "true"
  | .refused => some "false"
  | .unanswered => none

/-! ## Soundness -/

/-- Equal as strings: both are strings, and the same. -/
def SameText (submitted field : Option Json) : Prop :=
  ∃ text, submitted = some (.str text) ∧ field = some (.str text)

/-- The two fields of the body are those of a document. -/
def Authentic (members : List MemberDoc) (body : Json) : Prop :=
  ∃ doc ∈ members, SameText (bodyField "inputMemberEmail" body) doc.email ∧
    SameText (bodyField "inputMemberPassword" body) doc.password

/-- Both fields of the body are strings. -/
def OnlyText (body : Json) : Prop :=
  (∃ text, bodyField "inputMemberEmail" body = some (.str text)) ∧
    ∃ text, bodyField "inputMemberPassword" body = some (.str text)

/-- Some document would match the query. -/
def Satisfiable (body : Json) : Prop :=
  (∃ field, accepts operator (bodyField "inputMemberEmail" body) field = true) ∧
    ∃ field, accepts operator (bodyField "inputMemberPassword" body) field = true

variable {operator} {members : List MemberDoc} {body : Json}

/-- Either function lets the request in exactly when the common part accepts it. -/
theorem lets_in_iff :
    ((loginMember operator members body).memberEmail ≠ none ∨
      mobileLoginMember operator members body = some "true") ↔
        login operator members body = .accepted := by
  cases hlogin : login operator members body with
  | accepted => simp [loginMember, hlogin]
  | refused => simp [loginMember, mobileLoginMember, hlogin]
  | unanswered => simp [loginMember, mobileLoginMember, hlogin]

/-- A string is compared for equality. -/
theorem accepts_text {text : String} {field : Option Json} :
    accepts operator (some (.str text)) field = true ↔ field = some (.str text) := by
  simp [accepts]

theorem exists_of_accepted (h : login operator members body = .accepted) :
    ∃ doc ∈ members, accepts operator (bodyField "inputMemberEmail" body) doc.email = true ∧
      accepts operator (bodyField "inputMemberPassword" body) doc.password = true := by
  simp only [login] at h
  split at h
  · next hcheck =>
      rw [checkLoginMember, List.find?_isSome] at hcheck
      simpa using hcheck
  · cases h

/-- A collection of one document that matches, with an index. -/
theorem accepted_singleton {email password : Option Json}
    (hemail : accepts operator (bodyField "inputMemberEmail" body) email = true)
    (hpassword : accepts operator (bodyField "inputMemberPassword" body) password = true) :
    login operator [⟨some (.num 1), email, password⟩] body = .accepted := by
  simp [login, checkLoginMember, getIndexMember, looseNeFalse, Json.looseEqFalse, hemail,
    hpassword]

end

/-- **Login.**  Whatever the collection holds, a body is let in only with the e-mail and
the password of a document, if and only if both fields of the body are strings, or no
document can match them. -/
theorem login_sound_iff (operator : Fields → Option Json → Bool) (body : Json) :
    (∀ members, (loginMember operator members body).memberEmail ≠ none ∨
        mobileLoginMember operator members body = some "true" → Authentic members body) ↔
      OnlyText body ∨ ¬ Satisfiable operator body := by
  simp only [lets_in_iff]
  refine ⟨?_, ?_⟩
  · intro hsound
    by_contra hother
    rw [not_or, not_not] at hother
    obtain ⟨hnotText, ⟨email, hemail⟩, password, hpassword⟩ := hother
    obtain ⟨doc, -, ⟨text, htext, -⟩, text', htext', -⟩ :=
      hsound _ (accepted_singleton hemail hpassword)
    exact hnotText ⟨⟨text, htext⟩, text', htext'⟩
  · intro hcase members haccepted
    obtain ⟨doc, hmem, hemail, hpassword⟩ := exists_of_accepted haccepted
    rcases hcase with ⟨⟨text, htext⟩, text', htext'⟩ | hunsat
    · rw [htext, accepts_text] at hemail
      rw [htext', accepts_text] at hpassword
      exact ⟨doc, hmem, ⟨text, htext, hemail⟩, text', htext', hpassword⟩
    · exact absurd ⟨⟨_, hemail⟩, _, hpassword⟩ hunsat

/-- The operator `$ne`, and no other. -/
def neOperator : Fields → Option Json → Bool
  | .cons "$ne" value .nil, field => field != some value
  | _, _ => false

/-- The body `{inputMemberEmail: "a", inputMemberPassword: {"$ne": null}}`. -/
def anyPassword : Json :=
  .obj (.cons "inputMemberEmail" (.str "a")
    (.cons "inputMemberPassword" (.obj (.cons "$ne" .null .nil)) .nil))

/-- Without the password, member `a` is logged in by both functions. -/
theorem any_password_logs_in :
    loginMember neOperator [⟨some (.num 1), some (.str "a"), some (.str "secret")⟩] anyPassword =
        ⟨some (some (.str "a")), some true⟩ ∧
      mobileLoginMember neOperator [⟨some (.num 1), some (.str "a"), some (.str "secret")⟩]
        anyPassword = some "true" ∧
      ¬ Authentic [⟨some (.num 1), some (.str "a"), some (.str "secret")⟩] anyPassword := by
  refine ⟨by decide, by decide, ?_⟩
  rintro ⟨doc, -, -, text, htext, -⟩
  cases htext

end SsmIaas.LoadBalancer
