import Mathlib.Tactic.Common

/-!
# Calls that return or stop

What a call gives is described by a property of its value and by the faults it
may stop with instead.
-/

namespace Cs3650.Lib

variable {ε α β : Type} {allowed : ε → Prop} {P Q : α → Prop}

/-- The call returns a value with `P`, or stops with an allowed fault. -/
def Returns (allowed : ε → Prop) (P : α → Prop) : Except ε α → Prop
  | .ok a => P a
  | .error e => allowed e

namespace Returns

theorem of_ok {x : Except ε α} {a : α} (h : Returns allowed P x) (hx : x = .ok a) : P a := by
  rw [hx] at h
  exact h

theorem mono {x : Except ε α} (h : Returns allowed P x) (hPQ : ∀ a, P a → Q a) :
    Returns allowed Q x := by
  cases x with
  | error e => exact h
  | ok a => exact hPQ a h

theorem mono_fault {allowed' : ε → Prop} {x : Except ε α} (h : Returns allowed P x)
    (hall : ∀ e, allowed e → allowed' e) : Returns allowed' P x := by
  cases x with
  | error e => exact hall e h
  | ok a => exact h

theorem bind {x : Except ε α} {f : α → Except ε β} {R : β → Prop} (h : Returns allowed P x)
    (hf : ∀ a, P a → Returns allowed R (f a)) : Returns allowed R (x >>= f) := by
  cases x with
  | error e => exact h
  | ok a => exact hf a h

/-- Two facts about one call, the second under a condition. -/
theorem both {B : ε → Prop} {c : Prop} {x : Except ε α} (h : Returns allowed P x)
    (h' : c → Returns B Q x) :
    Returns (fun e => allowed e ∧ (c → B e)) (fun a => P a ∧ (c → Q a)) x := by
  cases x with
  | error e => exact ⟨h, h'⟩
  | ok a => exact ⟨h, h'⟩

end Returns

end Cs3650.Lib
