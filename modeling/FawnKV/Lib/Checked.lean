import Mathlib.Data.List.Basic

/-! Computations that a fault of the machine ends: a division by zero, an access beyond an array, a shift by
the width of a word or more, an assertion that fails, or a loop that is still running when its rounds are used
up. -/
namespace Checked

inductive Fault where
  | divisionByZero
  | outOfBounds
  | invalidShift
  | assertion
  | running
deriving DecidableEq

section Operations

variable {α : Type}

def modulo (a b : Nat) : Except Fault Nat := if b = 0 then .error .divisionByZero else .ok (a % b)

def quotient (a b : Nat) : Except Fault Nat := if b = 0 then .error .divisionByZero else .ok (a / b)

def get (l : List α) (i : Nat) : Except Fault α :=
  match l[i]? with
  | some x => .ok x
  | none => .error .outOfBounds

def set (l : List α) (i : Nat) (x : α) : Except Fault (List α) :=
  if i < l.length then .ok (l.set i x) else .error .outOfBounds

def require (p : Prop) [Decidable p] : Except Fault Unit := if p then .ok () else .error .assertion

end Operations

section Rules

variable {α β : Type} {a b i : Nat} {l l' : List α} {x : α} {p : Prop} [Decidable p]

@[simp] theorem ok_bind (x : α) (f : α → Except Fault β) : (Except.ok x >>= f) = f x := rfl

@[simp] theorem error_bind (e : Fault) (f : α → Except Fault β) :
    ((Except.error e : Except Fault α) >>= f) = .error e := rfl

theorem bind_eq_ok {m : Except Fault α} {f : α → Except Fault β} {y : β} :
    (m >>= f) = .ok y ↔ ∃ x, m = .ok x ∧ f x = .ok y := by
  cases m with
  | error e => simp
  | ok x => simp

theorem modulo_ok (h : 0 < b) (a : Nat) : modulo a b = .ok (a % b) := if_neg (Nat.ne_of_gt h)

theorem quotient_ok (h : 0 < b) (a : Nat) : quotient a b = .ok (a / b) := if_neg (Nat.ne_of_gt h)

theorem quotient_zero (a : Nat) : quotient a 0 = .error .divisionByZero := rfl

theorem get_ok (h : l[i]? = some x) : get l i = .ok x := by rw [get, h]

theorem set_ok (h : i < l.length) (x : α) : set l i x = .ok (l.set i x) := if_pos h

theorem set_eq_ok : set l i x = .ok l' ↔ i < l.length ∧ l' = l.set i x := by
  rw [set]
  by_cases hi : i < l.length
  · simp [hi, eq_comm]
  · simp [hi]

theorem get_set_self (h : i < l.length) (x : α) : get (l.set i x) i = .ok x :=
  get_ok (List.getElem?_set_self h)

theorem get_set_ne {j : Nat} (h : i ≠ j) (x : α) : get (l.set i x) j = get l j := by
  rw [get, get, List.getElem?_set_ne h]

theorem require_ok (h : p) : require p = .ok () := if_pos h

theorem require_eq_ok {u : Unit} : require p = .ok u ↔ p := by
  rw [require]
  split <;> simp_all

end Rules

end Checked
