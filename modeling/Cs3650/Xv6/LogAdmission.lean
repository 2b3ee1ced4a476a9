import Cs3650.Xv6.Log
import Mathlib.Algebra.BigOperators.Ring.Finset
import Mathlib.Algebra.Order.BigOperators.Group.Finset

/-!
# How much the operations may log

`begin_op` lets an operation in when the log has `MAXOPBLOCKS` blocks for each
operation that runs. The reservation is kept as a sum over the processes of what
each may still log. The header takes one block of the `LOGSIZE` blocks of mkfs,
and the test of `log_write` stands before the absorption.
-/

namespace Cs3650.Xv6.Log

variable {T : Type}

namespace Pc

/-- Inside an operation. -/
def active : Pc → Nat
  | .user => 0
  | _ => 1

def logged : Pc → Finset Word
  | .user => ∅
  | .inOp logged => logged
  | .modified logged _ => logged
  | .checked logged _ => logged

/-- The block that is about to be logged. -/
def pending : Pc → Option Word
  | .modified _ b => some b
  | .checked _ b => some b
  | _ => none

/-- What an operation that logs at most `k` blocks may still log. -/
def left (k : Nat) : Pc → Nat
  | .user => 0
  | p => k - p.logged.card

@[simp] theorem active_user : active .user = 0 := rfl

@[simp] theorem active_inOp (w : Finset Word) : active (.inOp w) = 1 := rfl

@[simp] theorem left_user (k : Nat) : left k .user = 0 := rfl

theorem left_le (k : Nat) (p : Pc) : p.left k ≤ k * p.active := by
  cases p <;> simp [left, active]

end Pc

/-- The most the log ever holds. -/
def ROOM : Nat := LOGSIZE - 2

section Totals

variable [Fintype T]

def total (f : Pc → Nat) (pc : T → Pc) : Nat := ∑ t, f (pc t)

theorem total_update [DecidableEq T] (f : Pc → Nat) (pc : T → Pc) (t : T) (p : Pc) :
    total f (Function.update pc t p) + f (pc t) = total f pc + f p := by
  have hrest : ∑ u ∈ Finset.univ.erase t, f (Function.update pc t p u) =
      ∑ u ∈ Finset.univ.erase t, f (pc u) := by
    apply Finset.sum_congr rfl
    intro u hu
    rw [Function.update_of_ne (Finset.ne_of_mem_erase hu)]
  have hnew :=
    Finset.add_sum_erase Finset.univ (fun u => f (Function.update pc t p u)) (Finset.mem_univ t)
  have hold := Finset.add_sum_erase Finset.univ (fun u => f (pc u)) (Finset.mem_univ t)
  simp only [Function.update_self] at hnew
  simp only [total]
  omega

theorem le_total (f : Pc → Nat) (pc : T → Pc) (t : T) : f (pc t) ≤ total f pc :=
  Finset.single_le_sum (f := fun u => f (pc u)) (fun _ _ => Nat.zero_le _) (Finset.mem_univ t)

theorem total_of_user (f : Pc → Nat) (pc : T → Pc) (h : ∀ t, pc t = .user) (hf : f .user = 0) :
    total f pc = 0 := by
  simp [total, h, hf]

theorem total_left_le (k : Nat) (pc : T → Pc) : total (Pc.left k) pc ≤ k * total Pc.active pc := by
  have hsum := Finset.sum_le_sum fun t (_ : t ∈ Finset.univ) => Pc.left_le k (pc t)
  rwa [← Finset.mul_sum] at hsum

end Totals

section Absorb

theorem mem_absorb (xs : List Word) (b a : Word) : a ∈ absorb xs b ↔ a = b ∨ a ∈ xs := by
  induction xs with
  | nil => simp [absorb]
  | cons x xs ih =>
    simp only [absorb]
    split
    · next hx => simp [hx]
    · simp only [List.mem_cons, ih]
      exact or_left_comm

theorem absorb_of_mem {xs : List Word} {b : Word} (h : b ∈ xs) : absorb xs b = xs := by
  induction xs with
  | nil => cases h
  | cons x xs ih =>
    simp only [absorb]
    split
    · next hx => rw [hx]
    · next hx =>
      have hmem : b ∈ xs := (List.mem_cons.mp h).resolve_left fun heq => hx heq.symm
      rw [ih hmem]

theorem absorb_of_notMem {xs : List Word} {b : Word} (h : b ∉ xs) : absorb xs b = xs ++ [b] := by
  induction xs with
  | nil => rfl
  | cons x xs ih =>
    have hx : x ≠ b := fun heq => h (heq ▸ List.mem_cons_self ..)
    have htail := ih fun hmem => h (List.mem_cons_of_mem _ hmem)
    simp only [absorb, hx, ite_false, htail, List.cons_append]

theorem nodup_absorb {xs : List Word} (b : Word) (h : xs.Nodup) : (absorb xs b).Nodup := by
  by_cases hb : b ∈ xs
  · rwa [absorb_of_mem hb]
  · rw [absorb_of_notMem hb]
    exact h.append (List.nodup_singleton b) (by simpa using hb)

end Absorb

variable [Fintype T]

/-- `log.lh.n = 0` comes before these. -/
def Mode.emptied : Mode T → Bool
  | .recoverErase | .committing _ .eraseHead | .committing _ .done => true
  | _ => false

/-- What the counts of the log say of the operations that run. -/
structure Admitted (k : Nat) (s : State T) : Prop where
  count : s.outstanding = total Pc.active s.pc
  quiet : s.mode ≠ .running → ∀ t, s.pc t = .user
  fresh : s.mode = .running → s.outstanding = 0 → s.block = []
  emptied : s.mode.emptied → s.block = []
  mine : ∀ t, (s.pc t).logged ⊆ s.block.toFinset
  bound : ∀ t b, (s.pc t).pending = some b → (insert b (s.pc t).logged).card ≤ k
  budget : s.mode.up → s.block.length + total (Pc.left k) s.pc ≤ ROOM

section Frame

variable {L : Layout} {k : Nat} {s s' : State T} {t : T} {b : Word}

/-- The counts do not see the disk and the buffers. -/
theorem Admitted.beside (h : Admitted k s) (hs : Beside s s') (hmode : s'.mode = s.mode) :
    Admitted k s' where
  count := by rw [hs.outstanding, hs.pc]; exact h.count
  quiet := by rw [hmode, hs.pc]; exact h.quiet
  fresh := by rw [hmode, hs.outstanding, hs.block]; exact h.fresh
  emptied := by rw [hmode, hs.block]; exact h.emptied
  mine := by rw [hs.pc, hs.block]; exact h.mine
  bound := by rw [hs.pc]; exact h.bound
  budget := by rw [hmode, hs.block, hs.pc]; exact h.budget

theorem Admitted.running (h : Admitted k s) {t : T} (ht : s.pc t ≠ .user) : s.mode = .running := by
  by_contra hmode
  exact ht (h.quiet hmode t)

/-- The kernel moves on, and no process is inside an operation. -/
theorem Admitted.phase (h : Admitted k s) (hmode : s.mode ≠ .running) (hpc : s'.pc = s.pc)
    (hout : s'.outstanding = s.outstanding)
    (hclear : s'.mode.emptied ∨ s'.mode = .running → s'.block = [])
    (hlen : s'.mode.up → s'.block.length ≤ ROOM) : Admitted k s' := by
  have huser : ∀ t, s'.pc t = .user := fun t => by rw [hpc]; exact h.quiet hmode t
  constructor
  · rw [hout, hpc]
    exact h.count
  · exact fun _ => huser
  · exact fun hup _ => hclear (.inr hup)
  · exact fun hup => hclear (.inl hup)
  · exact fun t => by simp [huser t, Pc.logged]
  · exact fun t b hb => by simp [huser t, Pc.pending] at hb
  · intro hup
    rw [total_of_user (Pc.left k) s'.pc huser rfl]
    exact hlen hup

theorem Admitted.length_le (h : Admitted k s) (hup : s.mode.up) : s.block.length ≤ ROOM :=
  (Nat.le_add_right ..).trans (h.budget hup)

/-- The kernel moves on with the same blocks in the log. -/
theorem Admitted.phase_beside (h : Admitted k s) (hmode : s.mode ≠ .running) (hs : Beside s s')
    (hclear : s'.mode.emptied ∨ s'.mode = .running → s.mode.emptied)
    (hup : s'.mode.up → s.mode.up ∨ s.mode.emptied) : Admitted k s' := by
  refine h.phase hmode hs.pc hs.outstanding (fun hc => hs.block.trans (h.emptied (hclear hc)))
    fun hu => ?_
  rw [hs.block]
  cases hup hu with
  | inl hup => exact h.length_le hup
  | inr hempty =>
    rw [h.emptied hempty]
    exact Nat.zero_le _

theorem Admitted.pos (h : Admitted k s) (ht : (s.pc t).active = 1) : 1 ≤ s.outstanding := by
  have hle := le_total Pc.active s.pc t
  rw [h.count]
  omega

/-- A block that is new to the log is new to the operation. -/
theorem Admitted.absorb_left (h : Admitted k s) {logged : Finset Word}
    (hpc : s.pc t = .checked logged b) :
    (absorb s.block b).length + (Pc.inOp (insert b logged)).left k ≤
    s.block.length + (s.pc t).left k := by
  have hbound := h.bound t b (by rw [hpc]; rfl)
  simp only [hpc, Pc.left, Pc.logged] at hbound ⊢
  by_cases hb : b ∈ s.block
  · have hgrow := Finset.card_le_card (Finset.subset_insert b logged)
    rw [absorb_of_mem hb]
    omega
  · have hmine := h.mine t
    have hnot : b ∉ logged := fun hmem => by
      rw [hpc] at hmine
      exact hb (List.mem_toFinset.mp (hmine hmem))
    rw [absorb_of_notMem hb, List.length_append, List.length_singleton]
    rw [Finset.card_insert_of_notMem hnot] at hbound ⊢
    omega

theorem Admitted.commit (h : Admitted k s) (hs : commit L s = .next s') : Admitted k s' := by
  obtain ⟨u, hstep⟩ := commit_next hs
  cases hstep with
  | start hmode hn | logged tail hmode hb =>
    exact h.phase_beside (by simp [hmode]) ⟨rfl, rfl, rfl⟩ (by simp [Mode.emptied])
      (by simp [hmode, Mode.up])
  | nothing hmode hn =>
    exact h.phase (by simp [hmode]) rfl rfl (fun _ => hn) fun _ => by simp [hn]
  | log tail b hmode hb hlog hfree =>
    have hs := writeLogBody_beside L s tail b
    exact h.phase_beside (by simp [hmode]) ⟨hs.block, hs.outstanding, hs.pc⟩
      (by simp [Mode.emptied]) (by simp [hmode, Mode.up])
  | head hmode hfree =>
    have hs := writeHead_beside L s
    exact h.phase_beside (by simp [hmode]) ⟨hs.block, hs.outstanding, hs.pc⟩
      (by simp [Mode.emptied]) (by simp [hmode, Mode.up])
  | install tail b hmode hb hlog hfree =>
    have hs := installBody_beside L s tail b
    exact h.phase_beside (by simp [hmode]) ⟨hs.block, hs.outstanding, hs.pc⟩
      (by simp [Mode.emptied]) (by simp [hmode, Mode.up])
  | installed tail hmode hb =>
    exact h.phase (by simp [hmode]) rfl rfl (fun _ => rfl) fun _ => Nat.zero_le _
  | erase hmode hfree =>
    have hs := writeHead_beside L s
    exact h.phase_beside (by simp [hmode]) ⟨hs.block, hs.outstanding, hs.pc⟩
      (by simp [hmode, Mode.emptied]) (by simp [hmode, Mode.up])
  | done hmode =>
    exact h.phase_beside (by simp [hmode]) ⟨rfl, rfl, rfl⟩ (by simp [hmode, Mode.emptied])
      (by simp [hmode, Mode.up])

theorem Admitted.recover (h : Admitted k s) (hs : recover L s = .next s') : Admitted k s' := by
  cases recover_next hs with
  | head block hmode hread =>
    have hs := load_beside s L.start
    exact h.phase (by simp [hmode]) hs.pc hs.outstanding (by simp [Mode.emptied])
      (by simp [Mode.up])
  | install tail b hmode hb =>
    have hs := installBody_beside L s tail b
    exact h.phase_beside (by simp [hmode]) ⟨hs.block, hs.outstanding, hs.pc⟩
      (by simp [Mode.emptied]) (by simp [Mode.up])
  | installed tail hmode hb =>
    exact h.phase (by simp [hmode]) rfl rfl (fun _ => rfl) fun _ => Nat.zero_le _
  | erase hmode =>
    have hs := writeHead_beside L s
    exact h.phase_beside (by simp [hmode]) ⟨hs.block, hs.outstanding, hs.pc⟩
      (by simp [hmode, Mode.emptied]) (by simp [hmode, Mode.emptied])

theorem reset_admitted (d : Disk) : Admitted k (reset d : State T) where
  count := (total_of_user Pc.active _ (fun _ => rfl) rfl).symm
  quiet := fun _ _ => rfl
  fresh := by simp [reset]
  emptied := fun _ => rfl
  mine := fun _ => by simp [reset, Pc.logged]
  bound := by simp [reset, Pc.pending]
  budget := by simp [reset, Mode.up]

end Frame

section Steps

variable [DecidableEq T] {L : Layout} {k : Nat} {s s' : State T} {t : T} {b : Word} {new : Block}

theorem Admitted.budget_beginOp (h : Admitted k s) (hk : k ≤ MAXOPBLOCKS - 1)
    (hmode : s.mode = .running)
    (hpc : s.pc t = .user) (hroom : s.block.length + (s.outstanding + 1) * MAXOPBLOCKS ≤ LOGSIZE) :
    s.block.length + total (Pc.left k) (Function.update s.pc t (.inOp ∅)) ≤ ROOM := by
  have hleft := total_update (Pc.left k) s.pc t (.inOp ∅)
  have hempty : (Pc.inOp ∅).left k = k := by simp [Pc.left, Pc.logged]
  rw [hpc, Pc.left_user, hempty] at hleft
  have hsum := total_left_le k s.pc
  rw [← h.count] at hsum
  simp only [ROOM, LOGSIZE, MAXOPBLOCKS] at hroom hk ⊢
  have hmul : k * s.outstanding ≤ 9 * s.outstanding := Nat.mul_le_mul_right _ hk
  -- with nobody inside the log is empty, else a second block is spared
  by_cases hzero : s.outstanding = 0
  · have hnil : s.block.length = 0 := by rw [h.fresh hmode hzero]; rfl
    omega
  · omega

/-- One process moves while the others stay, and somebody is inside an operation after it. -/
theorem Admitted.move {p : Pc} (h : Admitted k s) (hmode : s'.mode = .running)
    (hpc : s'.pc = Function.update s.pc t p) (hblock : s.block ⊆ s'.block)
    (hcount : s'.outstanding + (s.pc t).active = s.outstanding + p.active)
    (hpos : s'.outstanding ≠ 0) (hmine : p.logged ⊆ s'.block.toFinset)
    (hbound : ∀ b, p.pending = some b → (insert b p.logged).card ≤ k)
    (hbudget : s'.block.length + total (Pc.left k) (Function.update s.pc t p) ≤ ROOM) :
    Admitted k s' := by
  constructor
  · have htotal := total_update Pc.active s.pc t p
    have hold := h.count
    rw [hpc]
    omega
  · exact fun hne => absurd hmode hne
  · exact fun _ hzero => absurd hzero hpos
  · simp [hmode, Mode.emptied]
  · intro u
    by_cases hu : u = t
    · subst hu
      rwa [hpc, Function.update_self]
    · rw [hpc, Function.update_of_ne hu]
      intro a ha
      exact List.mem_toFinset.mpr (hblock (List.mem_toFinset.mp (h.mine u ha)))
  · intro u c hc
    by_cases hu : u = t
    · subst hu
      rw [hpc, Function.update_self] at hc ⊢
      exact hbound c hc
    · rw [hpc, Function.update_of_ne hu] at hc ⊢
      exact h.bound u c hc
  · intro _
    rwa [hpc]

/-- The move keeps the budget when it takes as much from it as it puts in the log. -/
theorem Admitted.spend {p : Pc} (h : Admitted k s) (hmode : s.mode = .running) {n : Nat}
    (hn : n + p.left k ≤ s.block.length + (s.pc t).left k) :
    n + total (Pc.left k) (Function.update s.pc t p) ≤ ROOM := by
  have hold := h.budget (by rw [hmode]; rfl)
  have hleft := total_update (Pc.left k) s.pc t p
  have hle := le_total (Pc.left k) s.pc t
  omega

theorem Admitted.beginOp (h : Admitted k s) (hk : k ≤ MAXOPBLOCKS - 1)
    (hs : beginOp s t = .next s') : Admitted k s' := by
  obtain ⟨hmode, hpc, hroom, rfl⟩ := beginOp_next hs
  apply h.move (t := t) (p := .inOp ∅)
  · exact hmode
  · rfl
  · exact List.Subset.refl _
  · simp [hpc]
  · exact Nat.succ_ne_zero _
  · simp [Pc.logged]
  · simp [Pc.pending]
  · exact h.budget_beginOp hk hmode hpc hroom

theorem Admitted.modify (h : Admitted k s) (hs : modify L k s t b new = .next s') :
    Admitted k s' := by
  obtain ⟨logged, buf, hpc, -, -, -, hcard, rfl⟩ := modify_next hs
  have hmode := h.running (t := t) (by simp [hpc])
  apply h.move (t := t) (p := .modified logged b)
  · exact hmode
  · rfl
  · exact List.Subset.refl _
  · simp [State.setPc, State.setBuf, hpc, Pc.active]
  · have hpos := h.pos (t := t) (by simp [hpc])
    exact Nat.ne_of_gt hpos
  · have hmine := h.mine t
    rwa [hpc] at hmine
  · intro c hc
    cases hc
    exact hcard
  · exact h.spend hmode (by rw [hpc]; exact le_refl _)

theorem Admitted.logWrite (h : Admitted k s) (hs : logWrite L s t = .next s') : Admitted k s' := by
  cases logWrite_next hs with
  | check logged b hpc hroom =>
    have hmode := h.running (t := t) (by simp [hpc])
    apply h.move (t := t) (p := .checked logged b)
    · exact hmode
    · rfl
    · exact List.Subset.refl _
    · simp [State.setPc, hpc, Pc.active]
    · have hpos := h.pos (t := t) (by simp [hpc, Pc.active])
      exact Nat.ne_of_gt hpos
    · have hmine := h.mine t
      rwa [hpc] at hmine
    · have hbound := h.bound t
      rwa [hpc] at hbound
    · exact h.spend hmode (by rw [hpc]; exact le_refl _)
  | update logged b buf hpc hbuf =>
    have hmode := h.running (t := t) (by simp [hpc])
    apply h.move (t := t) (p := .inOp (insert b logged))
    · exact hmode
    · rfl
    · exact fun a ha => (mem_absorb s.block b a).mpr (.inr ha)
    · simp [State.setPc, State.setBuf, hpc, Pc.active]
    · have hpos := h.pos (t := t) (by simp [hpc, Pc.active])
      exact Nat.ne_of_gt hpos
    · intro a ha
      have hmine := h.mine t
      rw [hpc] at hmine
      rw [List.mem_toFinset, mem_absorb]
      exact (Finset.mem_insert.mp ha).imp_right fun hmem => List.mem_toFinset.mp (hmine hmem)
    · simp [Pc.pending]
    · exact h.spend hmode (h.absorb_left hpc)

theorem Admitted.endOp (h : Admitted k s) (hs : endOp s t = .next s') : Admitted k s' := by
  obtain ⟨⟨logged, hpc⟩, hstep⟩ := endOp_next hs
  have hmode := h.running (t := t) (by simp [hpc])
  have hpos := h.pos (t := t) (by simp [hpc])
  have htotal := total_update Pc.active s.pc t .user
  have hcount := h.count
  simp only [hpc, Pc.active_user, Pc.active_inOp] at htotal
  cases hstep with
  | last hone =>
    have hzero : total Pc.active (Function.update s.pc t .user) = 0 := by omega
    have huser : ∀ u, Function.update s.pc t .user u = .user := by
      intro u
      have hle := le_total Pc.active (Function.update s.pc t .user) u
      cases hu : Function.update s.pc t .user u with
      | user => rfl
      | inOp | modified | checked => simp [hu, Pc.active, hzero] at hle
    constructor
    · exact hone.trans hzero.symm
    · exact fun _ => huser
    · exact fun hrun => by simp at hrun
    · simp [Mode.emptied]
    · exact fun u => by simp [State.setPc, huser u, Pc.logged]
    · exact fun u c hc => by simp [State.setPc, huser u, Pc.pending] at hc
    · exact fun _ => h.spend hmode (Nat.le_add_right ..)
  | more hmore =>
    apply h.move (t := t) (p := .user)
    · exact hmode
    · rfl
    · exact List.Subset.refl _
    · simp only [hpc, Pc.active_user, Pc.active_inOp]
      omega
    · exact hmore
    · simp [Pc.logged]
    · simp [Pc.pending]
    · exact h.spend hmode (Nat.le_add_right ..)

theorem step_admitted {a : Action T} (h : Admitted k s) (hk : k ≤ MAXOPBLOCKS - 1)
    (hs : step L k s a = .next s') : Admitted k s' := by
  cases a with
  | beginOp t => exact h.beginOp hk hs
  | bread t b =>
    obtain ⟨-, buf, -, -, rfl⟩ := bread_next hs
    exact h.beside ⟨rfl, rfl, rfl⟩ rfl
  | modify t b new => exact h.modify hs
  | logWrite t => exact h.logWrite hs
  | brelse t b =>
    obtain ⟨-, buf, -, -, rfl⟩ := brelse_next hs
    exact h.beside ⟨rfl, rfl, rfl⟩ rfl
  | endOp t => exact h.endOp hs
  | commit => exact h.commit hs
  | recover => exact h.recover hs
  | evict b =>
    obtain ⟨buf, -, -, -, rfl⟩ := evict_next hs
    exact h.beside ⟨rfl, rfl, rfl⟩ rfl
  | crash =>
    cases hs
    exact reset_admitted s.disk

theorem step_ne_panic {a : Action T} {msg : String} (h : Admitted k s) :
    step L k s a ≠ .panic msg := by
  intro hs
  cases a with
  | logWrite t =>
    obtain ⟨logged, b, hpc, hbad⟩ := logWrite_panic hs
    have hpos := h.pos (t := t) (by rw [hpc]; rfl)
    have hbudget := h.length_le (by rw [h.running (t := t) (by simp [hpc])]; rfl)
    have hroom := L.room
    simp only [ROOM, LOGSIZE, MAXOPBLOCKS] at hbad hbudget hroom
    omega
  | endOp t =>
    obtain ⟨hpc, u, p, hmode⟩ := endOp_panic hs
    exact hpc (h.quiet (by simp [hmode]) t)
  | beginOp t =>
    simp only [step, Log.beginOp] at hs
    split at hs <;> [split at hs; skip] <;> cases hs
  | bread t b =>
    simp only [step, Log.bread] at hs
    split at hs <;> [split at hs <;> [split at hs; skip]; skip] <;> cases hs
  | modify t b new =>
    simp only [step, Log.modify] at hs
    split at hs <;> [split at hs; skip] <;> cases hs
  | brelse t b =>
    simp only [step, Log.brelse] at hs
    split at hs <;> (try split at hs) <;> cases hs
  | commit =>
    simp only [step, Log.commit] at hs
    split at hs <;> (try split at hs) <;> (try split at hs) <;> cases hs
  | recover =>
    simp only [step, Log.recover] at hs
    split at hs <;> (try split at hs) <;> cases hs
  | evict b =>
    simp only [step, Log.evict] at hs
    split at hs <;> (try split at hs) <;> cases hs
  | crash => cases hs

theorem run_ne_panic {acts : List (Action T)} {msg : String} (h : Admitted k s)
    (hk : k ≤ MAXOPBLOCKS - 1) : run L k s acts ≠ .panic msg := by
  induction acts generalizing s with
  | nil => simp [run]
  | cons a acts ih =>
    simp only [run]
    split
    · next s₁ hstep => exact ih (step_admitted h hk hstep)
    · next hstep => exact step_ne_panic h

end Steps

section Panic

/-- An operation that logs `n` blocks from `base` on. -/
def logBlocks (t : Pid) (base n : Nat) : List (Action Pid) :=
  (List.range n).flatMap fun i =>
    let b := BitVec.ofNat 32 (base + i)
    [.bread t b, .modify t b (fun _ => 0), .logWrite t, .logWrite t, .brelse t b]

def proc (n : Nat) : Pid := Fin.ofNat 64 n

/-- Three operations that log `MAXOPBLOCKS` blocks each. -/
def threeFull : List (Action Pid) :=
  [.recover, .recover, .recover, .beginOp (proc 0), .beginOp (proc 1), .beginOp (proc 2)] ++
    logBlocks (proc 0) 100 10 ++ logBlocks (proc 1) 200 10 ++ logBlocks (proc 2) 300 10

theorem threeFull_panics :
    (run mkfsLayout MAXOPBLOCKS (reset fun _ _ => 0) threeFull).msg =
    some "too big a transaction" := by
  decide +kernel

/-- No order of steps makes the log panic exactly when an operation keeps below `MAXOPBLOCKS`. -/
theorem never_panics_iff (k : Nat) : (∀ (d : Disk) (acts : List (Action Pid)) (msg : String),
    run mkfsLayout k (reset d) acts ≠ .panic msg) ↔ k ≤ MAXOPBLOCKS - 1 := by
  constructor
  · intro hnever
    by_contra hk
    have hfull := panic_of_msg threeFull_panics
    have hmore : MAXOPBLOCKS ≤ k := by
      simp only [MAXOPBLOCKS] at hk ⊢
      omega
    have hrun := @run_mono _ mkfsLayout _ (reset fun _ _ => 0) _ threeFull _ hmore
      (fun hblocked => by rw [hfull] at hblocked; cases hblocked)
    exact hnever _ threeFull _ (hrun.trans hfull)
  · intro hk d acts msg
    exact run_ne_panic (reset_admitted d) hk

end Panic

end Cs3650.Xv6.Log
