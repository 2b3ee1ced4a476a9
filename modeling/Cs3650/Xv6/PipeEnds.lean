import Cs3650.Xv6.PipeProof

/-!
# The two ends of a pipe

A call on an end has a descriptor of its own, so the end is not closed under it.
The last `pipeclose` gives the page back when nobody is in the pipe any more.
-/

namespace Cs3650.Xv6.Pipes

open Cs3650.Lib

section Moves

variable {T : Type} [DecidableEq T] [Fintype T]

/-- What an action can do. -/
inductive Moves (s : State T) : Action T → State T → List (Event T) → Prop
  | write (t : T) (addr : List Byte) (hpc : s.pc t = .user)
  (hroom : (s.calls true).card < s.ref true) :
    Moves s (.write t addr) (s.goto t (.acquire (.write addr 0))) []
  | read (t : T) (n : Nat) (hpc : s.pc t = .user) (hroom : (s.calls false).card < s.ref false) :
    Moves s (.read t n) (s.goto t (.acquire (.read n))) []
  | filedup (w : Bool) (href : 0 < s.ref w) :
    Moves s (.filedup w) { s with ref := Function.update s.ref w (s.ref w + 1) } []
  | last (t : T) (w : Bool) (hpc : s.pc t = .user) (hroom : (s.calls w).card < s.ref w)
      (hone : s.ref w = 1) :
    Moves s (.fileclose t w) { s.goto t (.closing w) with ref := Function.update s.ref w 0 } []
  | fileclose (t : T) (w : Bool) (hpc : s.pc t = .user) (hroom : (s.calls w).card < s.ref w)
      (hmore : s.ref w ≠ 1) :
    Moves s (.fileclose t w) { s with ref := Function.update s.ref w (s.ref w - 1) } []
  | kill (t : T) (htable : s.table = none) :
    Moves s (.kill t) { s.goto t (s.pc t).killed with killed := Function.update s.killed t true } []
  | run (t : T) {s' : State T} {es : List (Event T)} (hnext : Next s t s' es) :
      Moves s (.run t) s' es

variable {s s' : State T} {a : Action T} {es : List (Event T)} {t : T}

theorem step_moves (hs : step s a = some (s', es)) : Moves s a s' es := by
  cases a with
  | write t addr =>
    simp only [step, Option.ite_none_right_eq_some, Option.some.injEq, Prod.mk.injEq] at hs
    obtain ⟨hguard, rfl, rfl⟩ := hs
    exact .write t addr hguard.1 hguard.2
  | read t n =>
    simp only [step, Option.ite_none_right_eq_some, Option.some.injEq, Prod.mk.injEq] at hs
    obtain ⟨hguard, rfl, rfl⟩ := hs
    exact .read t n hguard.1 hguard.2
  | filedup w =>
    simp only [step, Option.ite_none_right_eq_some, Option.some.injEq, Prod.mk.injEq] at hs
    obtain ⟨href, rfl, rfl⟩ := hs
    exact .filedup w href
  | fileclose t w =>
    simp only [step, Option.ite_none_right_eq_some] at hs
    obtain ⟨hguard, hs⟩ := hs
    split at hs
    · next hone =>
      simp only [Option.some.injEq, Prod.mk.injEq] at hs
      obtain ⟨rfl, rfl⟩ := hs
      exact .last t w hguard.1 hguard.2 hone
    · next hmore =>
      simp only [Option.some.injEq, Prod.mk.injEq] at hs
      obtain ⟨rfl, rfl⟩ := hs
      exact .fileclose t w hguard.1 hguard.2 hmore
  | kill t =>
    simp only [step, Option.ite_none_right_eq_some, Option.some.injEq, Prod.mk.injEq] at hs
    obtain ⟨htable, rfl, rfl⟩ := hs
    exact .kill t htable
  | run t => exact .run t (resume_next hs)

@[simp] theorem killed_holdsLock (p : Pc) : p.killed.holdsLock = p.holdsLock := by cases p <;> rfl
@[simp] theorem killed_holdsTable (p : Pc) : p.killed.holdsTable = p.holdsTable := by
    cases p <;> rfl
@[simp] theorem killed_end (p : Pc) : p.killed.end? = p.end? := by cases p <;> rfl

theorem knows_killed (q : Pipe) (p : Pc) : p.killed.Knows q ↔ p.Knows q := by cases p <;> rfl

theorem putSoFar_killed (p : Pc) : p.killed.putSoFar = p.putSoFar := by
  cases p <;> try rfl
  case asleep c => cases c <;> rfl

theorem gotSoFar_killed (p : Pc) : p.killed.gotSoFar = p.gotSoFar := by cases p <;> rfl

/-! ### Calls and descriptors -/

omit [DecidableEq T] in
theorem mem_calls {w : Bool} : t ∈ s.calls w ↔ (s.pc t).end? = some w := by
  simp [State.calls]

omit [DecidableEq T] in
/-- What only changes calls by ending them. -/
theorem card_calls_le (h : ∀ u, (s'.pc u).end? = (s.pc u).end? ∨ (s'.pc u).end? = none) (w : Bool) :
    (s'.calls w).card ≤ (s.calls w).card := by
  apply Finset.card_le_card
  intro u hu
  rw [mem_calls] at hu ⊢
  cases h u with
  | inl hsame => rw [← hsame, hu]
  | inr hnone => rw [hnone] at hu; cases hu

theorem card_calls_start (h : ∀ u, u ≠ t → (s'.pc u).end? = (s.pc u).end?) (w : Bool) :
    (s'.calls w).card ≤ (s.calls w).card + 1 := by
  have hsub : s'.calls w ⊆ insert t (s.calls w) := by
    intro u hu
    by_cases hut : u = t
    · exact hut ▸ Finset.mem_insert_self ..
    · rw [mem_calls, h u hut] at hu
      exact Finset.mem_insert_of_mem (mem_calls.mpr hu)
  exact (Finset.card_le_card hsub).trans (Finset.card_insert_le ..)

end Moves

section Others

theorem woken_closing (ch : Chan) (p : Pc) (w : Bool) : p.woken ch = .closing w ↔
    p = .closing w := by
  cases p <;> try rfl
  simp only [Pc.woken]
  split <;> simp

theorem woken_kfree (ch : Chan) (p : Pc) : p.woken ch = .kfree ↔ p = .kfree := by
  cases p <;> try rfl
  simp only [Pc.woken]
  split <;> simp

theorem woken_user (ch : Chan) (p : Pc) : p.woken ch = .user ↔ p = .user := by
  cases p <;> try rfl
  simp only [Pc.woken]
  split <;> simp

variable {T : Type} [DecidableEq T] {s s' : State T} {t u : T} {w : Bool} {es : List (Event T)}

/-- What the others are at the end of a step. -/
theorem Next.other_ends (hn : Next s t s' es) (hu : u ≠ t) : (s'.pc u).end? = (s.pc u).end? ∧
    (∀ w, s'.pc u = .closing w ↔ s.pc u = .closing w) ∧ (s'.pc u = .kfree ↔ s.pc u = .kfree) ∧
      (s'.pc u = .user ↔ s.pc u = .user) := by
  cases hn.other hu with
  | inl hsame =>
    rw [hsame]
    exact ⟨rfl, fun _ => Iff.rfl, Iff.rfl, Iff.rfl⟩
  | inr hwoken =>
    obtain ⟨-, ch, hpc⟩ := hwoken
    rw [hpc]
    exact ⟨woken_end ch _, woken_closing ch _, woken_kfree ch _, woken_user ch _⟩

/-- A call goes on or returns. -/
theorem Next.call_self (hn : Next s t s' es) (hcall : (s.pc t).end? = some w) :
    s'.pc t = .user ∨ (s'.pc t).end? = some w := by
  cases hn with
  | closing w' hpc | closed w' hpc | last w' hpc => rw [hpc] at hcall; cases hcall
  | kfree hpc => rw [hpc] at hcall; cases hcall
  | cut | refused | wrote | read => exact .inl (Function.update_self ..)
  | wakeup d hpc =>
    rw [hpc] at hcall
    cases d with
    | write addr | read n addr => exact .inr (by simp only [Function.update_self]; exact hcall)
    | close w' => cases hcall
  | acquire c hpc | written addr i hpc | full addr i hpc | put addr i b hpc | wakeReaders addr i hpc
      | empty n hpc
    | ready n hpc | got n addr hpc | copied n addr hpc | sleepTable c hpc | sleepRelease c hpc
    | sleepSched c hpc =>
    rw [hpc] at hcall
    exact .inr (by simp only [State.goto, Function.update_self]; exact hcall)

theorem Next.call_pipe (hn : Next s t s' es) (hcall : (s.pc t).end? = some w) :
    (∀ w, s'.pipe.isOpen w = s.pipe.isOpen w) ∧ s'.ref = s.ref ∧ s'.freed = s.freed := by
  cases hn with
  | closing w' hpc => rw [hpc] at hcall; cases hcall
  | kfree hpc => rw [hpc] at hcall; cases hcall
  | put | got => exact ⟨fun w => by cases w <;> rfl, rfl, rfl⟩
  | _ => exact ⟨fun _ => rfl, rfl, rfl⟩

end Others

section Ends

variable {T : Type} [Fintype T]

/-- Where the page is about to be given back. -/
def Pc.shuts : Pc → Bool
  | kfree | wakeup (.close _) | release (.close _) => true
  | _ => false

structure Ends (s : State T) : Prop where
  calls : ∀ w, (s.calls w).card ≤ s.ref w
  opened : ∀ w, 0 < s.ref w → s.pipe.isOpen w = true
  closing : ∀ t w, s.pc t = .closing w → s.ref w = 0 ∧ s.pipe.isOpen w = true
  one : ∀ t u w, s.pc t = .closing w → s.pc u = .closing w → t = u
  pending : ∀ w, s.pipe.isOpen w = true → s.ref w = 0 → ∃ t, s.pc t = .closing w
  kfree : ∀ t, s.pc t = .kfree → (∀ w, s.pipe.isOpen w = false) ∧ ∀ u, u ≠ t → s.pc u = .user
  freed : s.freed = true → (∀ w, s.pipe.isOpen w = false) ∧ ∀ u, s.pc u = .user
  shut : (∀ w, s.pipe.isOpen w = false) → s.freed = true ∨ ∃ t, (s.pc t).shuts = true

variable {s s' : State T} {t : T} {w : Bool}

namespace Ends

theorem opened_of_call (h : Ends s) (hcall : (s.pc t).end? = some w) : s.pipe.isOpen w = true := by
  apply h.opened
  have hpos : 0 < (s.calls w).card := Finset.card_pos.mpr ⟨t, by simp [State.calls, hcall]⟩
  exact Nat.lt_of_lt_of_le hpos (h.calls w)

/-- Nobody gives the page back while an end is open. -/
theorem not_kfree (h : Ends s) (hopen : s.pipe.isOpen w = true) (u : T) : s.pc u ≠ .kfree := by
  intro hpc
  have hclosed := (h.kfree u hpc).1 w
  rw [hopen] at hclosed
  cases hclosed

theorem not_freed (h : Ends s) (hopen : s.pipe.isOpen w = true) : s.freed = false := by
  cases hfreed : s.freed with
  | false => rfl
  | true =>
    have hclosed := (h.freed hfreed).1 w
    rw [hopen] at hclosed
    cases hclosed

/-- A step of a process that leaves the ends as they are, while one of them is open. -/
theorem quiet (h : Ends s) (hopen : s.pipe.isOpen w = true)
    (hpipe : ∀ w, s'.pipe.isOpen w = s.pipe.isOpen w)
    (href : s'.ref = s.ref) (hfreed : s'.freed = s.freed)
    (hcalls : ∀ w, (s'.calls w).card ≤ s.ref w)
    (hclosing : ∀ u w, s'.pc u = .closing w ↔ s.pc u = .closing w)
    (hkfree : ∀ u, s'.pc u = .kfree → s.pc u = .kfree) : Ends s' where
  calls := fun w => href ▸ hcalls w
  opened := fun w hw => by
    rw [hpipe w]
    exact h.opened w (href ▸ hw)
  closing := fun u w hu => by
    rw [href, hpipe w]
    exact h.closing u w ((hclosing u w).mp hu)
  one := fun u v w hu hv => h.one u v w ((hclosing u w).mp hu) ((hclosing v w).mp hv)
  pending := fun w hw hzero => by
    rw [hpipe w] at hw
    rw [href] at hzero
    obtain ⟨u, hu⟩ := h.pending w hw hzero
    exact ⟨u, (hclosing u w).mpr hu⟩
  kfree := fun u hu => absurd (hkfree u hu) (h.not_kfree hopen u)
  freed := fun hf => by
    rw [hfreed, h.not_freed hopen] at hf
    cases hf
  shut := fun hclosed => by
    have hw := hclosed w
    rw [hpipe w, hopen] at hw
    cases hw

theorem congr (h : Ends s) (hpc : s'.pc = s.pc) (hpipe : s'.pipe = s.pipe) (href : s'.ref = s.ref)
    (hfreed : s'.freed = s.freed) : Ends s' where
  calls := fun w => by
    have hcalls : s'.calls w = s.calls w := by simp only [State.calls, hpc]
    rw [hcalls, href]
    exact h.calls w
  opened := fun w => by
    rw [href, hpipe]
    exact h.opened w
  closing := fun u w => by
    rw [hpc, href, hpipe]
    exact h.closing u w
  one := by
    rw [hpc]
    exact h.one
  pending := fun w => by
    rw [hpipe, href, hpc]
    exact h.pending w
  kfree := fun u => by
    rw [hpc, hpipe]
    exact h.kfree u
  freed := by
    rw [hfreed, hpipe, hpc]
    exact h.freed
  shut := by
    rw [hpipe, hfreed, hpc]
    exact h.shut

end Ends

variable [DecidableEq T] {es : List (Event T)}

/-- A step of a call. -/
theorem Next.ends_call (hn : Next s t s' es) (h : Ends s) (hcall : (s.pc t).end? = some w) :
    Ends s' := by
  obtain ⟨hpipe, href, hfreed⟩ := hn.call_pipe hcall
  have hself := hn.call_self hcall
  have hend (v : T) : (s'.pc v).end? = (s.pc v).end? ∨ (s'.pc v).end? = none := by
    by_cases hv : v = t
    · subst hv
      cases hself with
      | inl huser => exact .inr (by rw [huser]; rfl)
      | inr hsame => exact .inl (hsame.trans hcall.symm)
    · exact .inl (hn.other_ends hv).1
  refine h.quiet (h.opened_of_call hcall) hpipe href hfreed
    (fun w => (card_calls_le hend w).trans (h.calls w)) ?_ ?_
  · intro v w'
    by_cases hv : v = t
    · subst hv
      have hbefore : s.pc v ≠ .closing w' := fun hpc => by rw [hpc] at hcall; cases hcall
      have hafter : s'.pc v ≠ .closing w' :=
        fun hpc => by rw [hpc] at hself; simp [Pc.end?] at hself
      exact iff_of_false hafter hbefore
    · exact (hn.other_ends hv).2.1 w'
  · intro v hpc
    by_cases hv : v = t
    · subst hv
      rw [hpc] at hself
      simp [Pc.end?] at hself
    · exact (hn.other_ends hv).2.2.1.mp hpc

theorem isOpen_close_ne (p : Pipe) {w' : Bool} (hne : w' ≠ w) :
    (p.close w).isOpen w' = p.isOpen w' := by
  cases w <;> cases w' <;> first | rfl | exact absurd rfl hne

/-- `pipeclose` marks its end as closed. -/
theorem Ends.close (h : Ends s) (hpc : s.pc t = .closing w) :
    Ends { s.goto t (.wakeup (.close w)) with lock := some t, pipe := s.pipe.close w } := by
  obtain ⟨hzero, hopen⟩ := h.closing t w hpc
  have hother (u : T) (hu : u ≠ t) : Function.update s.pc t (.wakeup (.close w)) u = s.pc u :=
    Function.update_of_ne hu ..
  have hself : Function.update s.pc t (.wakeup (.close w)) t = .wakeup (.close w) :=
    Function.update_self ..
  have hclosing (u : T) (w' : Bool) (hu : Function.update s.pc t (.wakeup (.close w)) u =
      .closing w') : s.pc u = .closing w' ∧ w' ≠ w := by
    have hut : u ≠ t := fun heq => by rw [heq, hself] at hu; cases hu
    rw [hother u hut] at hu
    exact ⟨hu, fun heq => hut (h.one u t w (heq ▸ hu) hpc)⟩
  refine ⟨fun w' => ?_, fun w' hw' => ?_, fun u w' hu => ?_, fun u v w' hu hv => ?_,
    fun w' hw' hz => ?_, fun u hu => ?_, fun hf => ?_, fun _ =>
    .inr ⟨t, by simp only [State.goto, hself]; rfl⟩⟩
  · refine (card_calls_le (fun u => ?_) w').trans (h.calls w')
    by_cases hu : u = t
    · subst hu
      exact .inr (by simp only [State.goto, hself]; rfl)
    · exact .inl (by simp only [State.goto, hother u hu])
  · have hne : w' ≠ w :=
      fun heq => by rw [heq] at hw'; exact absurd hw' (by simp [State.goto, hzero])
    exact (isOpen_close_ne s.pipe hne).trans (h.opened w' hw')
  · obtain ⟨hu', hne⟩ := hclosing u w' hu
    obtain ⟨hzero', hopen'⟩ := h.closing u w' hu'
    exact ⟨hzero', (isOpen_close_ne s.pipe hne).trans hopen'⟩
  · exact h.one u v w' (hclosing u w' hu).1 (hclosing v w' hv).1
  · have hne : w' ≠ w := fun heq => by simp [heq] at hw'
    obtain ⟨u, hu⟩ := h.pending w' ((isOpen_close_ne s.pipe hne).symm.trans hw') hz
    have hut : u ≠ t := fun heq => by rw [heq, hpc] at hu; exact hne (Pc.closing.inj hu).symm
    exact ⟨u, (hother u hut).trans hu⟩
  · have hut : u ≠ t := fun heq => by simp [State.goto, heq] at hu
    exact absurd ((hother u hut).symm.trans hu) (h.not_kfree hopen u)
  · exact absurd (show s.freed = true from hf) (by simp [h.not_freed hopen])

/-- Steps of `pipeclose` after that: the others may be woken. -/
theorem Ends.shutting (h : Ends s) (hshuts : (s.pc t).shuts = true) (hpc : s.pc t ≠ .kfree)
    {pc' : T → Pc}
    (hself : (pc' t).shuts = true ∧ pc' t ≠ .kfree)
    (hother : ∀ u, u ≠ t → (pc' u).end? = (s.pc u).end? ∧
      (∀ w, pc' u = .closing w ↔ s.pc u = .closing w) ∧ (pc' u = .kfree ↔ s.pc u = .kfree) ∧
        (pc' u = .user ↔ s.pc u = .user)) : Ends { s with pc := pc' } := by
  have hnone : (pc' t).end? = none := by
    have hs := hself.1
    cases hp : pc' t with
    | wakeup d | release d => cases d <;> first | rfl | (rw [hp] at hs; cases hs)
    | _ => first | rfl | (rw [hp] at hs; cases hs)
  have hclosing (u : T) (w : Bool) : pc' u = .closing w ↔ s.pc u = .closing w := by
    by_cases hu : u = t
    · subst hu
      have hafter : pc' u ≠ .closing w := fun heq => by rw [heq] at hself; cases hself.1
      have hbefore : s.pc u ≠ .closing w := fun heq => by rw [heq] at hshuts; cases hshuts
      exact iff_of_false hafter hbefore
    · exact (hother u hu).2.1 w
  refine ⟨fun w => ?_, h.opened, fun u w hu => h.closing u w ((hclosing u w).mp hu),
    fun u v w hu hv => h.one u v w ((hclosing u w).mp hu) ((hclosing v w).mp hv), fun w hw hz =>
    ?_, fun u hu => ?_,
    fun hf => ?_, fun _ => .inr ⟨t, hself.1⟩⟩
  · refine (card_calls_le (fun u => ?_) w).trans (h.calls w)
    by_cases hu : u = t
    · exact .inr (hu ▸ hnone)
    · exact .inl (hother u hu).1
  · obtain ⟨u, hu⟩ := h.pending w hw hz
    exact ⟨u, (hclosing u w).mpr hu⟩
  · by_cases hut : u = t
    · exact absurd (hut ▸ hu) hself.2
    · have huser := (h.kfree u ((hother u hut).2.2.1.mp hu)).2 t (Ne.symm hut)
      rw [huser] at hshuts
      cases hshuts
  · have huser := (h.freed hf).2 t
    rw [huser] at hshuts
    cases hshuts

omit [DecidableEq T] in
/-- When both ends are closed, the process that holds the lock is alone. -/
theorem Ends.alone (h : Ends s) (hl : Locks s) (hholds : (s.pc t).holdsLock = true)
    (hclosed : ∀ w, s.pipe.isOpen w = false) {u : T} (hu : u ≠ t) : s.pc u = .user := by
  have hnone : (s.pc u).end? = none := by
    cases hend : (s.pc u).end? with
    | none => rfl
    | some w => exact absurd (h.opened_of_call hend) (by simp [hclosed w])
  have hfree := hl.lock.other hholds hu
  cases hp : s.pc u with
  | user => rfl
  | closing w => exact absurd (h.closing u w hp).2 (by simp [hclosed w])
  | kfree =>
    have huser := (h.kfree u hp).2 t hu.symm
    rw [huser] at hholds
    cases hholds
  | wakeup d | release d => rw [hp] at hfree; cases hfree
  | _ => rw [hp] at hnone; cases hnone

omit [Fintype T] [DecidableEq T] in
theorem isOpen_false (hread : s.pipe.readopen = false) (hwrite : s.pipe.writeopen = false)
    (w : Bool) : s.pipe.isOpen w = false := by
  cases w
  · exact hread
  · exact hwrite

/-- The last `pipeclose` is about to free the page. -/
theorem Ends.last (h : Ends s) (hl : Locks s) (hpc : s.pc t = .release (.close w))
    (hclosed : ∀ w, s.pipe.isOpen w = false) : Ends { s.goto t .kfree with lock := none } := by
  have huser (u : T) (hu : u ≠ t) : Function.update s.pc t .kfree u = .user :=
    (Function.update_of_ne hu ..).trans (h.alone hl (by rw [hpc]; rfl) hclosed hu)
  have hself : Function.update s.pc t .kfree t = .kfree := Function.update_self ..
  have hnot (u : T) (w : Bool) : Function.update s.pc t .kfree u ≠ .closing w := by
    by_cases hu : u = t
    · simp [hu]
    · simp [huser u hu]
  refine ⟨fun w => ?_, h.opened, fun u w hu => absurd hu (hnot u w), fun u v w hu =>
    absurd hu (hnot u w), fun w hw => absurd hw (by simp [State.goto, hclosed w]), fun u hu =>
      ⟨hclosed, fun v hv => ?_⟩, fun hf => ?_,
    fun _ => .inr ⟨t, by simp only [State.goto, hself]; rfl⟩⟩
  · refine (card_calls_le (fun u => ?_) w).trans (h.calls w)
    by_cases hu : u = t
    · exact .inr (by simp only [State.goto, hu, hself]; rfl)
    · exact .inr (by simp only [State.goto, huser u hu]; rfl)
  · by_cases hut : u = t
    · exact huser v (hut ▸ hv)
    · exact absurd ((huser u hut).symm.trans hu) (by simp)
  · exact absurd ((h.freed hf).2 t) (by simp [hpc])

theorem Ends.free (h : Ends s) (hpc : s.pc t = .kfree) :
    Ends { s.goto t .user with freed := true } := by
  obtain ⟨hclosed, hothers⟩ := h.kfree t hpc
  have huser (u : T) : Function.update s.pc t .user u = .user := by
    by_cases hu : u = t
    · simp [hu]
    · exact (Function.update_of_ne hu ..).trans (hothers u hu)
  refine ⟨fun w => ?_, h.opened, fun u w hu => ?_, fun u v w hu => ?_, fun w hw =>
    absurd hw (by simp [State.goto, hclosed w]), fun u hu => ?_, fun _ =>
      ⟨hclosed, huser⟩, fun _ => .inl rfl⟩
  · refine (card_calls_le (fun u => ?_) w).trans (h.calls w)
    exact .inr (by simp only [State.goto, huser u]; rfl)
  · exact absurd ((huser u).symm.trans hu) (by simp)
  · exact absurd ((huser u).symm.trans hu) (by simp)
  · exact absurd ((huser u).symm.trans hu) (by simp)

theorem Next.ends (hn : Next s t s' es) (hl : Locks s) (h : Ends s) : Ends s' := by
  cases hcall : (s.pc t).end? with
  | some w => exact hn.ends_call h hcall
  | none =>
    have hothers := fun u hu => hn.other_ends (u := u) hu
    cases hn with
    | closing w hpc => exact h.close hpc
    | kfree hpc => exact h.free hpc
    | last w hpc hread hwrite => exact h.last hl hpc (isOpen_false hread hwrite)
    | wakeup d hpc =>
      cases d with
      | close w =>
        refine h.shutting (by rw [hpc]; rfl) (by simp [hpc]) ?_ hothers
        simp only [Function.update_self]
        exact ⟨rfl, by simp⟩
      | write addr | read n addr => rw [hpc] at hcall; cases hcall
    | closed w hpc hopen =>
      obtain ⟨w', hw'⟩ : ∃ w', s.pipe.isOpen w' = true := by
        cases hread : s.pipe.readopen with
        | true => exact ⟨false, hread⟩
        | false =>
          cases hwrite : s.pipe.writeopen with
          | true => exact ⟨true, hwrite⟩
          | false => exact absurd ⟨hread, hwrite⟩ hopen
      have hself : Function.update s.pc t .user t = .user := Function.update_self ..
      refine h.quiet hw' (fun _ => rfl) rfl rfl
        (fun w => (card_calls_le (fun u => ?_) w).trans (h.calls w)) ?_ ?_
      · by_cases hu : u = t
        · exact .inr (by simp only [State.goto, hu, hself]; rfl)
        · exact .inl (hothers u hu).1
      · intro u w'
        by_cases hu : u = t
        · subst hu
          simp [State.goto, hpc]
        · exact (hothers u hu).2.1 w'
      · intro u hu
        by_cases hut : u = t
        · simp [State.goto, hut] at hu
        · exact (hothers u hut).2.2.1.mp hu
    | acquire c hpc | sleepTable c hpc | sleepRelease c hpc | sleepSched c hpc =>
      rw [hpc] at hcall; cases hcall
    | written addr i hpc | cut addr i hpc | full addr i hpc | put addr i b hpc
        | wakeReaders addr i hpc =>
      rw [hpc] at hcall
      cases hcall
    | refused n hpc | empty n hpc | ready n hpc | got n addr hpc | copied n addr hpc
        | wrote addr hpc | read n addr hpc =>
      rw [hpc] at hcall
      cases hcall

/-- A call starts. -/
theorem Ends.start (h : Ends s) {c : Call} (hpc : s.pc t = .user)
    (hroom : (s.calls c.writable).card < s.ref c.writable) : Ends (s.goto t (.acquire c)) := by
  have hopen := h.opened c.writable (Nat.zero_lt_of_lt hroom)
  have hself : Function.update s.pc t (.acquire c) t = .acquire c := Function.update_self ..
  have hother (u : T) (hu : u ≠ t) : Function.update s.pc t (.acquire c) u = s.pc u :=
    Function.update_of_ne hu ..
  refine h.quiet hopen (fun _ => rfl) rfl rfl (fun w => ?_) (fun u w => ?_) fun u hu => ?_
  · by_cases hw : w = c.writable
    · subst hw
      have hle := @card_calls_start _ _ _ s (s.goto t (.acquire c)) t
        (fun u hu => by simp only [State.goto, hother u hu]) c.writable
      omega
    · refine le_trans (Finset.card_le_card fun u hu => ?_) (h.calls w)
      rw [mem_calls] at hu ⊢
      by_cases hut : u = t
      · simp only [State.goto, hut, hself, Pc.end?, Option.some.injEq] at hu
        exact absurd hu.symm hw
      · simpa only [State.goto, hother u hut] using hu
  · by_cases hut : u = t
    · simp [State.goto, hut, hpc]
    · simp [State.goto, hother u hut]
  · by_cases hut : u = t
    · simp [State.goto, hut] at hu
    · exact (hother u hut).symm.trans hu

omit [DecidableEq T] in
/-- The number of open files of an end changes, while there are some. -/
theorem Ends.setRef (h : Ends s) {w : Bool} {n : Nat} (href : 0 < s.ref w) (hn : 0 < n)
    (hcalls : (s.calls w).card ≤ n) : Ends { s with ref := Function.update s.ref w n } := by
  have hopen := h.opened w href
  have hother (w' : Bool) (hw : w' ≠ w) : Function.update s.ref w n w' = s.ref w' :=
    Function.update_of_ne hw ..
  have hne {w' : Bool} (hz : s.ref w' = 0) : w' ≠ w := fun heq => by rw [heq] at hz; omega
  have hzero (w' : Bool) (hz : Function.update s.ref w n w' = 0) : s.ref w' = 0 := by
    have hw : w' ≠ w := fun heq => by rw [heq, Function.update_self] at hz; omega
    rwa [hother w' hw] at hz
  refine ⟨fun w' => ?_, fun w' hw' => ?_, fun u w' hu => ?_, h.one, fun w' hw' hz =>
    h.pending w' hw' (hzero w' hz), h.kfree, h.freed, h.shut⟩
  · by_cases hw : w' = w
    · subst hw
      simp only [Function.update_self]
      exact hcalls
    · simp only [hother w' hw]
      exact h.calls w'
  · by_cases hw : w' = w
    · exact hw ▸ hopen
    · exact h.opened w' (by simpa only [hother w' hw] using hw')
  · obtain ⟨hz, hw'⟩ := h.closing u w' hu
    exact ⟨(hother w' (hne hz)).trans hz, hw'⟩

/-- The last descriptor of an end is closed. -/
theorem Ends.lastClose (h : Ends s) (hpc : s.pc t = .user) (hroom : (s.calls w).card < s.ref w)
    (hone : s.ref w = 1) :
    Ends { s.goto t (.closing w) with ref := Function.update s.ref w 0 } := by
  have hopen := h.opened w (by omega)
  have hself : Function.update s.pc t (.closing w) t = .closing w := Function.update_self ..
  have hother (u : T) (hu : u ≠ t) : Function.update s.pc t (.closing w) u = s.pc u :=
    Function.update_of_ne hu ..
  have hrefs (w' : Bool) (hw : w' ≠ w) : Function.update s.ref w 0 w' = s.ref w' :=
    Function.update_of_ne hw ..
  have hclosing (u : T) (w' : Bool) (hu : Function.update s.pc t (.closing w) u = .closing w') :
      u = t ∧ w' = w ∨ s.pc u = .closing w' ∧ w' ≠ w := by
    by_cases hut : u = t
    · subst hut
      rw [hself] at hu
      exact .inl ⟨rfl, (Pc.closing.inj hu).symm⟩
    · rw [hother u hut] at hu
      have hz := (h.closing u w' hu).1
      exact .inr ⟨hu, fun heq => by rw [heq] at hz; omega⟩
  have hcards (w' : Bool) :
      (State.calls { s.goto t (.closing w) with ref := Function.update s.ref w 0 } w').card ≤
      (s.calls w').card := by
    refine card_calls_le (fun u => ?_) w'
    by_cases hu : u = t
    · exact .inr (by simp only [State.goto, hu, hself]; rfl)
    · exact .inl (by simp only [State.goto, hother u hu])
  refine ⟨fun w' => (hcards w').trans ?_, fun w' hw' => ?_, fun u w' hu => ?_, fun u v w' hu hv =>
    ?_, fun w' hw' hz => ?_, fun u hu => ?_, fun hf => ?_, fun hclosed => ?_⟩
  · by_cases hw : w' = w
    · subst hw
      simp only [Function.update_self]
      omega
    · simpa only [hrefs w' hw] using h.calls w'
  · have hw : w' ≠ w := fun heq => by simp [heq] at hw'
    exact h.opened w' (by simpa only [hrefs w' hw] using hw')
  · rcases hclosing u w' hu with ⟨-, rfl⟩ | ⟨hu', hw⟩
    · exact ⟨Function.update_self .., hopen⟩
    · obtain ⟨hz, hw'⟩ := h.closing u w' hu'
      exact ⟨(hrefs w' hw).trans hz, hw'⟩
  · rcases hclosing u w' hu with ⟨rfl, rfl⟩ | ⟨hu', hw⟩
    · rcases hclosing v w' hv with ⟨rfl, -⟩ | ⟨-, hw⟩
      · rfl
      · exact absurd rfl hw
    · rcases hclosing v w' hv with ⟨-, rfl⟩ | ⟨hv', -⟩
      · exact absurd rfl hw
      · exact h.one u v w' hu' hv'
  · by_cases hw : w' = w
    · exact ⟨t, hw ▸ hself⟩
    · obtain ⟨u, hu⟩ := h.pending w' hw' (by simpa only [hrefs w' hw] using hz)
      have hut : u ≠ t := fun heq => by rw [heq, hpc] at hu; cases hu
      exact ⟨u, (hother u hut).trans hu⟩
  · have hut : u ≠ t := fun heq => by simp [State.goto, heq] at hu
    exact absurd ((hother u hut).symm.trans hu) (h.not_kfree hopen u)
  · exact absurd (show s.freed = true from hf) (by simp [h.not_freed hopen])
  · exact absurd (show s.pipe.isOpen w = false from hclosed w) (by simp [hopen])

theorem Ends.kill (h : Ends s) :
    Ends { s.goto t (s.pc t).killed with killed := Function.update s.killed t true } := by
  have hother (u : T) (hu : u ≠ t) : Function.update s.pc t (s.pc t).killed u = s.pc u :=
    Function.update_of_ne hu ..
  have hself : Function.update s.pc t (s.pc t).killed t = (s.pc t).killed := Function.update_self ..
  cases hpc : s.pc t with
  | asleep c =>
    have hcall : (s.pc t).end? = some c.writable := by rw [hpc]; rfl
    rw [hpc] at hself hother
    refine h.quiet (h.opened_of_call hcall) (fun _ => rfl) rfl rfl
      (fun w => (card_calls_le (fun u => ?_) w).trans (h.calls w)) (fun u w => ?_) fun u hu => ?_
    · by_cases hu : u = t
      · subst hu
        exact .inl (by simp only [State.goto, hself, hpc]; rfl)
      · exact .inl (by simp only [State.goto, hother u hu])
    · by_cases hu : u = t
      · subst hu
        simp [State.goto, Pc.killed, hpc]
      · simp only [State.goto, hother u hu]
    · by_cases hut : u = t
      · simp [State.goto, hut, Pc.killed] at hu
      · exact (hother u hut).symm.trans hu
  | _ =>
    refine h.congr ?_ rfl rfl rfl
    simp only [State.goto, Pc.killed, ← hpc, Function.update_eq_self]

variable {a : Action T}

theorem Moves.ends (hm : Moves s a s' es) (hl : Locks s) (h : Ends s) : Ends s' := by
  cases hm with
  | write t addr hpc hroom => exact h.start hpc hroom
  | read t n hpc hroom => exact h.start hpc hroom
  | filedup w href => exact h.setRef href (Nat.succ_pos _) ((h.calls w).trans (Nat.le_succ _))
  | last t w hpc hroom hone => exact h.lastClose hpc hroom hone
  | fileclose t w hpc hroom hmore =>
    refine h.setRef ?_ ?_ ?_ <;> omega
  | kill t htable => exact h.kill
  | run t hnext => exact hnext.ends hl h

end Ends

end Cs3650.Xv6.Pipes
