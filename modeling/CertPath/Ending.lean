import CertPath.Error

namespace CertPath

/-- How a run ends. One that breaks off at a number out of range, or waits for good, gives its
caller no error to go on with. -/
inductive Ending (α : Type)
  | ok (a : α)
  | error (e : TrustError)
  | overflow
  | hang
  deriving DecidableEq, Repr

namespace Ending

variable {α β : Type}

def ofExcept : Except TrustError α → Ending α
  | .ok a => ok a
  | .error e => error e

def bind (x : Ending α) (k : α → Ending β) : Ending β :=
  match x with
  | ok a => k a
  | error e => error e
  | overflow => overflow
  | hang => hang

def map (g : α → β) (x : Ending α) : Ending β := x.bind fun a ↦ ok (g a)

def returned (x : Ending α) (e : TrustError) : Except TrustError α :=
  match x with
  | ok a => .ok a
  | error e' => .error e'
  | overflow | hang => .error e

/-- The ending of all that waits for a run, if the run does not return. -/
def lost? : Ending α → Option (Ending β)
  | overflow => some overflow
  | hang => some hang
  | _ => none

variable {x : Ending α} {k : α → Ending β} {r : Except TrustError α} {a : α} {b : β}
  {e : TrustError}

theorem ofExcept_eq_ok_iff : ofExcept r = ok a ↔ r = .ok a := by
  cases r <;> simp [ofExcept]

theorem bind_eq_ok_iff : x.bind k = ok b ↔ ∃ a, x = ok a ∧ k a = ok b := by
  cases x <;> simp [bind]

theorem bind_ofExcept_eq_hang_iff {g : α → Except TrustError β} :
    (x.bind fun a ↦ ofExcept (g a)) = hang ↔ x = hang := by
  cases x with
  | ok a => cases h : g a <;> simp [bind, ofExcept, h]
  | _ => simp [bind]

end Ending

end CertPath
