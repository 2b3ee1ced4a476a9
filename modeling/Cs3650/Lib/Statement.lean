import Mathlib.Tactic.Common

/-!
# Statements that may return

The body of a function is made of statements. A statement changes the state
and then either falls through to the next one or returns a value from the
function; a body that falls off its end returns a value nobody chose.
Properties are triples with one postcondition for falling through and one for
returning.
-/

namespace Cs3650.Lib

abbrev Stmt (σ ρ : Type) := σ → σ × Option ρ

/-- The state behind a call whose result is known. -/
theorem fst_of_eq {α β : Type} {p : α × β} {a : α} {b : β} (h : p = (a, b)) : p.1 = a :=
  congrArg Prod.fst h

theorem snd_of_eq {α β : Type} {p : α × β} {a : α} {b : β} (h : p = (a, b)) : p.2 = b :=
  congrArg Prod.snd h

namespace Stmt

variable {σ ρ : Type}

def seq (f g : Stmt σ ρ) : Stmt σ ρ := fun s =>
  match f s with
  | (s', none) => g s'
  | (s', some r) => (s', some r)

/-- `for (j = i; j < i + n; ++j) body`. -/
def loop (body : Nat → Stmt σ ρ) : Nat → Nat → Stmt σ ρ
  | _, 0 => fun s => (s, none)
  | i, n + 1 => seq (body i) (loop body (i + 1) n)

/-- The whole body; `junk` is what it returns when it falls off its end. -/
def run (f : Stmt σ ρ) (junk : ρ) (s : σ) : σ × ρ := ((f s).1, (f s).2.getD junk)

theorem seq_of_return {f g : Stmt σ ρ} {s s' : σ} {r : ρ} (h : f s = (s', some r)) :
    seq f g s = (s', some r) := by
  unfold seq
  rw [h]

theorem seq_of_fall {f g : Stmt σ ρ} {s s' : σ} (h : f s = (s', none)) : seq f g s = g s' := by
  unfold seq
  rw [h]

theorem loop_of_return {body : Nat → Stmt σ ρ} {i n : Nat} {s s' : σ} {r : ρ} (hn : 0 < n)
    (h : body i s = (s', some r)) : loop body i n s = (s', some r) := by
  cases n with
  | zero => cases hn
  | succ n => exact seq_of_return h

theorem run_fst (f : Stmt σ ρ) (junk : ρ) (s : σ) : (run f junk s).1 = (f s).1 := rfl

theorem seq_skip (f : Stmt σ ρ) (s : σ) : (seq f (fun s => (s, none)) s).1 = (f s).1 := by
  unfold seq
  cases f s with
  | mk s' o =>
    cases o with
    | none => rfl
    | some r => rfl

theorem loop_two (body : Nat → Stmt σ ρ) :
    loop body 0 2 = seq (body 0) (seq (body 1) fun s => (s, none)) := rfl

/-- From `P` the statement falls through in `Q` or returns in `R`. -/
def Triple (P : σ → Prop) (f : Stmt σ ρ) (Q : σ → Prop) (R : ρ → σ → Prop) : Prop :=
  ∀ s, P s → ((f s).2 = none → Q (f s).1) ∧ ∀ r, (f s).2 = some r → R r (f s).1

theorem Triple.weaken {P P' Q Q' : σ → Prop} {R R' : ρ → σ → Prop} {f : Stmt σ ρ}
    (h : Triple P f Q R) (hP : ∀ s, P' s → P s) (hQ : ∀ s, Q s → Q' s)
    (hR : ∀ r s, R r s → R' r s) : Triple P' f Q' R' := by
  intro s hs
  obtain ⟨hfall, hret⟩ := h s (hP s hs)
  exact ⟨fun hn => hQ _ (hfall hn), fun r hr => hR r _ (hret r hr)⟩

theorem Triple.seq {P Q S : σ → Prop} {R : ρ → σ → Prop} {f g : Stmt σ ρ} (hf : Triple P f Q R)
    (hg : Triple Q g S R) : Triple P (f.seq g) S R := by
  intro s hs
  obtain ⟨hfall, hret⟩ := hf s hs
  unfold Stmt.seq
  cases hfs : f s with
  | mk s' o =>
    rw [hfs] at hfall hret
    cases o with
    | none => exact hg s' (hfall rfl)
    | some r => exact ⟨fun hn => absurd hn (by simp), hret⟩

/-- The invariant may depend on the loop variable. -/
theorem Triple.loop (Inv : Nat → σ → Prop) {R : ρ → σ → Prop} {body : Nat → Stmt σ ρ} {i n : Nat}
    (h : ∀ j, i ≤ j → j < i + n → Triple (Inv j) (body j) (Inv (j + 1)) R) :
    Triple (Inv i) (Stmt.loop body i n) (Inv (i + n)) R := by
  induction n generalizing i with
  | zero => exact fun s hs => ⟨fun _ => hs, fun r hr => by cases hr⟩
  | succ n ih =>
    have hrest : Triple (Inv (i + 1)) (Stmt.loop body (i + 1) n) (Inv (i + 1 + n)) R :=
      ih fun j hj hlt => h j (by omega) (by omega)
    rw [Nat.add_right_comm] at hrest
    exact (h i (Nat.le_refl i) (by omega)).seq hrest

theorem Triple.run {P Q : σ → Prop} {R : ρ → σ → Prop} {f : Stmt σ ρ}
    (h : Triple P f Q R) (junk : ρ) (hjunk : ∀ s, Q s → R junk s) {s : σ} (hs : P s) :
    R (f.run junk s).2 (f.run junk s).1 := by
  obtain ⟨hfall, hret⟩ := h s hs
  unfold Stmt.run
  cases ho : (f s).2 with
  | none => exact hjunk _ (hfall ho)
  | some r => exact hret r ho

end Stmt

end Cs3650.Lib
