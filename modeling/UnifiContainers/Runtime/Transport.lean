import UnifiContainers.Runtime.OwnerSetup

/-!
# Requests over a failing transport

Opening a request and reading the answer's body can each raise. Whether the caller sees that depends
on the class of the exception, and on where it is raised: the body of an error status is read in a
handler, where nothing is caught.
-/

namespace UnifiContainers.Transport

open OwnerSetup

/-- What opening a request, or reading an answer, can raise. -/
inductive Failure where
  | urlError
  | timeout
  | sslError
  /-- Connection errors among them. -/
  | osError
  /-- A bad status line, say. -/
  | protocolError
  | incompleteRead
  deriving DecidableEq, Repr

/-- `urllib.error.URLError, socket.timeout, ssl.SSLError, OSError`; the exceptions of `http.client`
are none of these. -/
def Failure.isCaught : Failure → Bool
  | .urlError | .timeout | .sslError | .osError => true
  | .protocolError | .incompleteRead => false

inductive Opening where
  | answered (status : ℕ)
  | httpError (status : ℕ)
  | raised (failure : Failure)

inductive Reading where
  | body (text : List Char) (parsed : Option Json)
  | raised (failure : Failure)

/-- How one request goes. -/
structure Outcome where
  opening : Opening
  reading : Reading

def jsonRequest (outcome : Outcome) : Except Failure Response :=
  match outcome.opening with
  | .answered status =>
      match outcome.reading with
      | .body text parsed => .ok ⟨status, text, parsed⟩
      | .raised failure => if failure.isCaught then .ok noVerdict else .error failure
  | .httpError status =>
      match outcome.reading with
      | .body text parsed => .ok ⟨status, text, parsed⟩
      | .raised failure => .error failure
  | .raised failure => if failure.isCaught then .ok noVerdict else .error failure

/-! ### Requests that get a verdict -/

def Opening.status : Opening → Option ℕ
  | .answered status | .httpError status => some status
  | .raised _ => none

/-- The complete answer, if there is one. -/
def Outcome.answer (outcome : Outcome) : Option Response :=
  match outcome.opening.status, outcome.reading with
  | some status, .body text parsed => some ⟨status, text, parsed⟩
  | _, _ => none

/-- The request gets a verdict: the status of a complete answer, or 0. -/
def Outcome.HasVerdict (outcome : Outcome) : Prop :=
  jsonRequest outcome = .ok (outcome.answer.getD noVerdict)

/-- Nothing is raised that is not caught, and nothing while an error status is handled. -/
structure Outcome.Caught (outcome : Outcome) : Prop where
  opening : ∀ failure, outcome.opening = .raised failure → failure.isCaught = true
  answered : ∀ status failure, outcome.opening = .answered status →
    outcome.reading = .raised failure → failure.isCaught = true
  httpError : ∀ status failure, outcome.opening = .httpError status →
    outcome.reading ≠ .raised failure

variable {outcome : Outcome}

theorem hasVerdict_iff : outcome.HasVerdict ↔ outcome.Caught := by
  constructor
  · intro h
    constructor
    · intro failure hopening
      by_contra hcaught
      rw [Outcome.HasVerdict, jsonRequest, hopening] at h
      simp only [if_neg hcaught] at h
      cases h
    · intro status failure hopening hreading
      by_contra hcaught
      rw [Outcome.HasVerdict, jsonRequest, hopening, hreading] at h
      simp only [if_neg hcaught] at h
      cases h
    · intro status failure hopening hreading
      rw [Outcome.HasVerdict, jsonRequest, hopening, hreading] at h
      cases h
  · intro h
    obtain ⟨opening, reading⟩ := outcome
    cases opening with
    | answered status =>
      cases reading with
      | body text parsed => rfl
      | raised failure => exact if_pos (h.answered status failure rfl rfl)
    | httpError status =>
      cases reading with
      | body text parsed => rfl
      | raised failure => exact absurd rfl (h.httpError status failure rfl)
    | raised failure => exact if_pos (h.opening failure rfl)

/-- What is returned is the verdict. -/
theorem hasVerdict_of_returns {response : Response} (h : jsonRequest outcome = .ok response) :
    outcome.HasVerdict := by
  obtain ⟨opening, reading⟩ := outcome
  cases opening with
  | answered status | httpError status =>
    cases reading with
    | body text parsed => rfl
    | raised failure => cases failure <;> first | rfl | cases h
  | raised failure => cases failure <;> first | rfl | cases h

end UnifiContainers.Transport
