import Mathlib.Logic.Function.Basic
import Mathlib.Tactic.Common

/-!
# Redo logs

A redo log is a list of entries, an address with the value that is meant to go
there. A store `f` is covered by a log when every address it has not in common
with the wanted contents `c` is one the log still has an entry for. Installing
an entry keeps this, also when it was installed before, so an installation may
be cut off anywhere and started again from its first entry.
-/

namespace Cs3650.Lib.RedoLog

variable {α β : Type}

/-- Inside `S`, the store is `c` but for what the log has entries for. -/
structure Covers (S : Set α) (log : List (α × β)) (f c : α → β) : Prop where
  entries : ∀ e ∈ log, e.2 = c e.1
  rest : ∀ a ∈ S, (∀ e ∈ log, e.1 ≠ a) → f a = c a

variable {S : Set α} {log : List (α × β)} {f c : α → β}

namespace Covers

theorem nil (h : ∀ a ∈ S, f a = c a) : Covers S [] f c where
  entries := by simp
  rest := fun a ha _ => h a ha

theorem eq_of_nil (h : Covers S [] f c) (a : α) (ha : a ∈ S) : f a = c a :=
  h.rest a ha (by simp)

/-- The first entry is installed and needed no longer. -/
theorem advance [DecidableEq α] {e : α × β} (h : Covers S (e :: log) f c) :
    Covers S log (Function.update f e.1 e.2) c where
  entries := fun e' he' => h.entries e' (List.mem_cons_of_mem _ he')
  rest := by
    intro a ha hlog
    by_cases hea : a = e.1
    · subst hea
      rw [Function.update_self]
      exact h.entries e (List.mem_cons_self ..)
    · rw [Function.update_of_ne hea]
      apply h.rest a ha
      intro e' he'
      cases he' with
      | head => exact fun heq => hea heq.symm
      | tail _ hmem => exact hlog e' hmem

/-- A longer log whose entries are those of `c` covers as well. -/
theorem extend {log' : List (α × β)} (h : Covers S log f c) (hsub : log ⊆ log')
    (hent : ∀ e ∈ log', e.2 = c e.1) : Covers S log' f c where
  entries := hent
  rest := fun a ha hlog => h.rest a ha fun e he => hlog e (hsub he)

end Covers

end Cs3650.Lib.RedoLog
