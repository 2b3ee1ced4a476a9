import Cs3650.Xv6.BufCache

/-!
# What holds of the buffer cache in every interleaving
-/

namespace Cs3650.Xv6.BufCache

open Cs3650.Lib

section Moves

variable {D T : Type} [DecidableEq T]

/-- What an action can do. -/
inductive Moves (s : State D T) : Action D T → State D T → List (Event D T) → Prop
  | hit (t : T) (dev blockno : Nat) (b : BufId) (hpc : s.pc t = .user) (hdev : dev ≠ 0)
    (hfind : findCached s dev blockno = some b) : Moves s (.bread t dev blockno)
      ((s.setBuf b { s.buf b with refcnt := (s.buf b).refcnt + 1 }).goto t (.locking b dev blockno))
      []
  | miss (t : T) (dev blockno : Nat) (b : BufId) (hpc : s.pc t = .user) (hdev : dev ≠ 0)
    (hnone : findCached s dev blockno = none) (hfind : findUnused s = some b) :
    Moves s (.bread t dev blockno)
      ((s.setBuf b { s.buf b with
        dev := dev, blockno := blockno, valid := false, dirty := false, refcnt := 1 }).goto t
          (.locking b dev blockno)) []
  | logWrite (t : T) (b : BufId) (data : D) (hpc : s.pc t = .user)
      (hlock : (s.buf b).lock = some t) :
    Moves s (.logWrite t b data) (s.setBuf b { s.buf b with data := data, dirty := true })
      [.stored t b (s.buf b).dev (s.buf b).blockno data]
  | bwrite (t : T) (b : BufId) (data : D) (hpc : s.pc t = .user) (hlock : (s.buf b).lock = some t) :
    Moves s (.bwrite t b data)
    ((s.setBuf b { s.buf b with data := data, dirty := true }).goto t (.writing b))
      [.stored t b (s.buf b).dev (s.buf b).blockno data]
  | brelse (t : T) (b : BufId) (hpc : s.pc t = .user) (hlock : (s.buf b).lock = some t) :
    Moves s (.brelse t b) ((s.setBuf b { s.buf b with lock := none }).goto t (.releasing b))
    [.released t b]
  | locked (t : T) (b : BufId) (dev blockno : Nat) (hpc : s.pc t = .locking b dev blockno)
      (hfree : (s.buf b).lock = none) :
    Moves s (.run t)
    ((s.setBuf b { s.buf b with lock := some t }).goto t (.filling b dev blockno)) []
  | cached (t : T) (b : BufId) (dev blockno : Nat) (hpc : s.pc t = .filling b dev blockno)
      (hvalid : (s.buf b).valid = true) :
    Moves s (.run t) (s.goto t .user) [.got t b dev blockno (s.buf b).data]
  | filled (t : T) (b : BufId) (dev blockno : Nat) (s' : State D T)
      (hpc : s.pc t = .filling b dev blockno)
    (hvalid : (s.buf b).valid = false) (hdisk : iderw s b = some s') :
    Moves s (.run t) (s'.goto t .user) [.got t b dev blockno (s'.buf b).data]
  | written (t : T) (b : BufId) (s' : State D T) (hpc : s.pc t = .writing b)
      (hdisk : iderw s b = some s') :
    Moves s (.run t) (s'.goto t .user) []
  | free (t : T) (b : BufId) (hpc : s.pc t = .releasing b) (hlast : (s.buf b).refcnt - 1 = 0) :
    Moves s (.run t)
    { (s.setBuf b { s.buf b with refcnt := (s.buf b).refcnt - 1 }).goto t .user with
      links := (s.links.unlink b).pushFront b } [.freed b]
  | release (t : T) (b : BufId) (hpc : s.pc t = .releasing b) (hmore : (s.buf b).refcnt - 1 ≠ 0) :
    Moves s (.run t) ((s.setBuf b { s.buf b with refcnt := (s.buf b).refcnt - 1 }).goto t .user) []

variable {s s' : State D T} {a : Action D T} {es : List (Event D T)} {t : T}

theorem bread_moves {dev blockno : Nat} (hs : step s (.bread t dev blockno) = some (s', es)) :
    Moves s (.bread t dev blockno) s' es := by
  simp only [step, Option.ite_none_right_eq_some, Option.map_eq_some_iff] at hs
  obtain ⟨⟨hpc, hdev⟩, ⟨b, s₁⟩, hget, heq⟩ := hs
  simp only [Prod.mk.injEq] at heq
  obtain ⟨rfl, rfl⟩ := heq
  unfold bget at hget
  split at hget
  · next b' hfind =>
    simp only [Option.some.injEq, Prod.mk.injEq] at hget
    obtain ⟨rfl, rfl⟩ := hget
    exact .hit t dev blockno b' hpc hdev hfind
  · next hnone =>
    split at hget
    · next b' hfind =>
      simp only [Option.some.injEq, Prod.mk.injEq] at hget
      obtain ⟨rfl, rfl⟩ := hget
      exact .miss t dev blockno b' hpc hdev hnone hfind
    · cases hget

theorem run_moves (hs : resume s t = some (s', es)) : Moves s (.run t) s' es := by
  cases hpc : s.pc t with
  | user => simp [resume, hpc] at hs
  | locking b dev blockno =>
    simp only [resume, hpc, Option.ite_none_right_eq_some, Option.some.injEq, Prod.mk.injEq] at hs
    obtain ⟨hfree, rfl, rfl⟩ := hs
    exact .locked t b dev blockno hpc hfree
  | filling b dev blockno =>
    simp only [resume, hpc] at hs
    split at hs
    · next hvalid =>
      simp only [Option.some.injEq, Prod.mk.injEq] at hs
      obtain ⟨rfl, rfl⟩ := hs
      exact .cached t b dev blockno hpc hvalid
    · next hvalid =>
      simp only [Option.map_eq_some_iff, Prod.mk.injEq] at hs
      obtain ⟨s₁, hdisk, rfl, rfl⟩ := hs
      exact .filled t b dev blockno s₁ hpc (Bool.eq_false_of_not_eq_true hvalid) hdisk
  | writing b =>
    simp only [resume, hpc, Option.map_eq_some_iff, Prod.mk.injEq] at hs
    obtain ⟨s₁, hdisk, rfl, rfl⟩ := hs
    exact .written t b s₁ hpc hdisk
  | releasing b =>
    simp only [resume, hpc] at hs
    split at hs
    · next hlast =>
      simp only [Option.some.injEq, Prod.mk.injEq] at hs
      obtain ⟨rfl, rfl⟩ := hs
      exact .free t b hpc hlast
    · next hmore =>
      simp only [Option.some.injEq, Prod.mk.injEq] at hs
      obtain ⟨rfl, rfl⟩ := hs
      exact .release t b hpc hmore

theorem step_moves (hs : step s a = some (s', es)) : Moves s a s' es := by
  cases a with
  | bread t dev blockno => exact bread_moves hs
  | run t => exact run_moves hs
  | logWrite t b data =>
    simp only [step, Option.ite_none_right_eq_some, Option.some.injEq, Prod.mk.injEq] at hs
    obtain ⟨⟨hpc, hlock⟩, rfl, rfl⟩ := hs
    exact .logWrite t b data hpc hlock
  | bwrite t b data =>
    simp only [step, Option.ite_none_right_eq_some, Option.some.injEq, Prod.mk.injEq] at hs
    obtain ⟨⟨hpc, hlock⟩, rfl, rfl⟩ := hs
    exact .bwrite t b data hpc hlock
  | brelse t b =>
    simp only [step, Option.ite_none_right_eq_some, Option.some.injEq, Prod.mk.injEq] at hs
    obtain ⟨⟨hpc, hlock⟩, rfl, rfl⟩ := hs
    exact .brelse t b hpc hlock

end Moves

section Order

variable {D T : Type} {s s' : State D T} {evs es : List (Event D T)} {b : BufId}

/-- A buffer that is dirty is written, and one that is not valid is read. -/
theorem iderw_cases (h : iderw s b = some s') :
    (s.buf b).dirty = true ∧ s' = { s.setBuf b { s.buf b with valid := true, dirty := false } with
        disk := Function.update s.disk (s.buf b).id (s.buf b).data } ∨
      (s.buf b).dirty = false ∧ (s.buf b).valid = false ∧
        s' = s.setBuf b { s.buf b with valid := true, data := s.disk (s.buf b).id } := by
  simp only [iderw] at h
  split at h
  · next hdirty => exact .inl ⟨hdirty, (Option.some.inj h).symm⟩
  · next hdirty =>
    split at h
    · cases h
    · next hvalid =>
      exact .inr ⟨Bool.eq_false_of_not_eq_true hdirty, Bool.eq_false_of_not_eq_true hvalid,
        (Option.some.inj h).symm⟩

theorem iderw_links (h : iderw s b = some s') : s'.links = s.links := by
  rcases iderw_cases h with ⟨-, rfl⟩ | ⟨-, -, rfl⟩ <;> rfl

theorem mem_start (b : BufId) : b ∈ (List.finRange NBUF).reverse :=
  List.mem_reverse.mpr (List.mem_finRange b)

theorem nodup_start : (List.finRange NBUF).reverse.Nodup :=
  List.nodup_reverse.mpr (List.nodup_finRange NBUF)

theorem order_perm : (order evs).Perm (List.finRange NBUF).reverse :=
  moveToFront_perm fun b _ => mem_start b

theorem mem_order (b : BufId) : b ∈ order evs := order_perm.mem_iff.mpr (mem_start b)

theorem length_order : (order evs).length = NBUF := by
  rw [order_perm.length_eq, List.length_reverse, List.length_finRange]

theorem order_append_freed : order (evs ++ [.freed b]) = b :: (order evs).erase b := by
  simp only [order, uses, List.filterMap_append, List.filterMap_cons, List.filterMap_nil,
    Event.freed?]
  exact moveToFront_append

theorem order_append (h : uses es = []) : order (evs ++ es) = order evs := by
  have happend : uses (evs ++ es) = uses evs ++ uses es := List.filterMap_append ..
  rw [order, happend, h, List.append_nil, order]

theorem binit_linked {disk : BlockId → D} {junk : D} :
    (binit disk junk : State D T).links.Represents (order ([] : List (Event D T))) := by
  have hfold (l : List BufId) (k : Links BufId) (m : List BufId) (hk : k.Represents m)
      (hnodup : (l.reverse ++ m).Nodup) :
      (l.foldl Links.pushFront k).Represents (l.reverse ++ m) := by
    induction l generalizing k m with
    | nil => exact hk
    | cons b l ih =>
      rw [List.reverse_cons, List.append_assoc, List.singleton_append] at hnodup ⊢
      have hb := (List.nodup_cons.mp ((List.nodup_append'.mp hnodup).2.1)).1
      exact ih _ _ (hk.pushFront hb) hnodup
  have hall :=
    hfold (List.finRange NBUF) Links.nil [] Links.nil_represents
      (by rw [List.append_nil]; exact nodup_start)
  rwa [List.append_nil] at hall

variable (h : s.links.Represents (order evs)) {dev blockno : Nat}
include h

theorem findCached_eq : findCached s dev blockno =
    (order evs).find? fun b => (s.buf b).dev == dev && (s.buf b).blockno == blockno :=
  h.find_forward (Nat.le_of_eq length_order)

theorem id_of_findCached (hfind : findCached s dev blockno = some b) :
    (s.buf b).id = (dev, blockno) := by
  rw [findCached_eq h] at hfind
  have hb := List.find?_some hfind
  simp only [Bool.and_eq_true, beq_iff_eq] at hb
  exact Prod.ext hb.1 hb.2

theorem findCached_none (hfind : findCached s dev blockno = none) (b : BufId) :
    (s.buf b).id ≠ (dev, blockno) := by
  rw [findCached_eq h, List.find?_eq_none] at hfind
  intro hid
  have hnot := hfind b (mem_order b)
  simp only [Bool.and_eq_true, beq_iff_eq] at hnot
  exact hnot ⟨congrArg Prod.fst hid, congrArg Prod.snd hid⟩

theorem findUnused_eq : findUnused s =
    (order evs).reverse.find? fun b => (s.buf b).refcnt == 0 && !(s.buf b).dirty :=
  h.find_backward (Nat.le_of_eq length_order)

theorem unused_of_findUnused (hfind : findUnused s = some b) :
    (s.buf b).refcnt = 0 ∧ (s.buf b).dirty = false := by
  rw [findUnused_eq h] at hfind
  have hb := List.find?_some hfind
  simpa using hb

/-- Of the buffers that could be taken, the one that was released first. -/
theorem lastUse_of_findUnused (hfind : findUnused s = some b) {c : BufId}
    (hrefcnt : (s.buf c).refcnt = 0)
    (hdirty : (s.buf c).dirty = false) : lastUse (uses evs) b ≤ lastUse (uses evs) c := by
  rw [findUnused_eq h] at hfind
  exact lastUse_le_of_find_reverse nodup_start (fun b _ => mem_start b) hfind (mem_start c)
    (by simp [hrefcnt, hdirty])

theorem findUnused_none (hfind : findUnused s = none) (b : BufId) :
    (s.buf b).refcnt ≠ 0 ∨ (s.buf b).dirty = true := by
  rw [findUnused_eq h, List.find?_eq_none] at hfind
  have hnot := hfind b (List.mem_reverse.mpr (mem_order b))
  simp only [Bool.and_eq_true, beq_iff_eq, Bool.not_eq_true', not_and, Bool.not_eq_false] at hnot
  by_cases hzero : (s.buf b).refcnt = 0
  · exact .inr (hnot hzero)
  · exact .inl hzero

end Order

section Represents

variable {D T : Type} [DecidableEq T] {s s' : State D T} {a : Action D T}
    {evs es : List (Event D T)}

theorem Moves.linked (hm : Moves s a s' es) (h : s.links.Represents (order evs)) :
    s'.links.Represents (order (evs ++ es)) := by
  cases hm with
  | free t b hpc hlast =>
    rw [order_append_freed]
    exact h.moveToFront (mem_order b)
  | filled t b dev blockno s₁ hpc hvalid hdisk =>
    rw [order_append rfl]
    simpa only [State.goto, iderw_links hdisk] using h
  | written t b s₁ hpc hdisk =>
    rw [order_append rfl]
    simpa only [State.goto, iderw_links hdisk] using h
  | _ =>
    rw [order_append rfl]
    exact h

end Represents

section Count

variable {D T : Type} [Fintype T]

/-- The buffer that the process counts for without its lock. -/
def Pc.waitsFor : Pc → Option BufId
  | locking b _ _ | releasing b => some b
  | user | filling .. | writing _ => none

def State.waiters (s : State D T) (b : BufId) : Finset T :=
  Finset.univ.filter fun t => (s.pc t).waitsFor = some b

def holders : Option T → Nat
  | none => 0
  | some _ => 1

/-- `refcnt` is the number of the processes that have the buffer, wait for it or
are about to give it up. -/
def Counted (s : State D T) : Prop :=
  ∀ b, (s.buf b).refcnt = (s.waiters b).card + holders (s.buf b).lock

variable {s s' : State D T} {t : T} {b c : BufId} {p : Pc}

theorem mem_waiters : t ∈ s.waiters b ↔ (s.pc t).waitsFor = some b := by
  simp [State.waiters]

theorem Counted.idle (h : Counted s) (hzero : (s.buf b).refcnt = 0) :
    (s.buf b).lock = none ∧ ∀ t, (s.pc t).waitsFor ≠ some b := by
  have hcount := h b
  rw [hzero] at hcount
  have hcard : (s.waiters b).card = 0 := by omega
  refine ⟨?_, fun t ht => ?_⟩
  · cases hlock : (s.buf b).lock with
    | none => rfl
    | some u => simp [hlock, holders] at hcount
  · have hmem := mem_waiters.mpr ht
    rw [Finset.card_eq_zero.mp hcard] at hmem
    exact absurd hmem (Finset.notMem_empty t)

theorem Counted.pos_of_waits (h : Counted s) (hpc : (s.pc t).waitsFor = some b) :
    0 < (s.buf b).refcnt := by
  have hcard : 0 < (s.waiters b).card := Finset.card_pos.mpr ⟨t, mem_waiters.mpr hpc⟩
  have hcount := h b
  omega

variable [DecidableEq T]

theorem waiters_goto : (s.goto t p).waiters c =
    if p.waitsFor = some c then insert t (s.waiters c) else (s.waiters c).erase t := by
  ext u
  by_cases hu : u = t
  · subst hu
    split <;> simp_all [mem_waiters, State.goto]
  · split <;> simp [mem_waiters, State.goto, hu]

theorem card_waiters_same (hpc : (s.pc t).waitsFor = p.waitsFor) :
    ((s.goto t p).waiters c).card = (s.waiters c).card := by
  rw [waiters_goto]
  split
  · next hp => rw [Finset.insert_eq_of_mem (mem_waiters.mpr (hpc.trans hp))]
  · next hp => rw [Finset.erase_eq_of_notMem fun hmem => hp (hpc.symm.trans (mem_waiters.mp hmem))]

theorem card_waiters_add (hpc : (s.pc t).waitsFor = none) (hp : p.waitsFor = some b) :
    ((s.goto t p).waiters c).card = (s.waiters c).card + if c = b then 1 else 0 := by
  have hnot : t ∉ s.waiters c := fun hmem => by
    rw [mem_waiters, hpc] at hmem
    cases hmem
  rw [waiters_goto, hp]
  by_cases hc : c = b
  · subst hc
    rw [if_pos rfl, if_pos rfl, Finset.card_insert_of_notMem hnot]
  · have hne : ¬some b = some c := fun heq => hc (Option.some.inj heq).symm
    rw [if_neg hne, if_neg hc, Finset.erase_eq_of_notMem hnot, Nat.add_zero]

theorem card_waiters_sub (hpc : (s.pc t).waitsFor = some b) (hp : p.waitsFor = none) :
    (s.waiters c).card = ((s.goto t p).waiters c).card + if c = b then 1 else 0 := by
  have hnone : ¬p.waitsFor = some c := by simp [hp]
  rw [waiters_goto, if_neg hnone]
  by_cases hc : c = b
  · subst hc
    rw [if_pos rfl, Finset.card_erase_add_one (mem_waiters.mpr hpc)]
  · have hnot : t ∉ s.waiters c := fun hmem => by
      rw [mem_waiters, hpc] at hmem
      exact hc (Option.some.inj hmem).symm
    rw [if_neg hc, Finset.erase_eq_of_notMem hnot, Nat.add_zero]

section Touch

variable {x : Buf D T}

omit [DecidableEq T] in
theorem Counted.touch (h : Counted s) (hbuf : ∀ c, c ≠ b → s'.buf c = s.buf c)
    (hcard : ∀ c, c ≠ b → (s'.waiters c).card = (s.waiters c).card)
    (hb : (s'.buf b).refcnt = (s'.waiters b).card + holders (s'.buf b).lock) : Counted s' := by
  intro c
  by_cases hc : c = b
  · exact hc ▸ hb
  · rw [hbuf c hc, hcard c hc]
    exact h c

/-- Process `t` goes on at `p`, and buffer `b` changes with it. -/
theorem Counted.move (h : Counted s)
    (hcard : ∀ c, c ≠ b → ((s.goto t p).waiters c).card = (s.waiters c).card)
    (hx : x.refcnt + (s.waiters b).card + holders (s.buf b).lock =
      (s.buf b).refcnt + ((s.goto t p).waiters b).card + holders x.lock) :
    Counted ((s.setBuf b x).goto t p) := by
  refine h.touch (fun c hc => Function.update_of_ne hc ..) hcard ?_
  have hold := h b
  simp only [State.goto, State.setBuf, Function.update_self]
  change _ = ((s.goto t p).waiters b).card + _
  omega

/-- One more process waits. -/
theorem Counted.add (h : Counted s) (hpc : (s.pc t).waitsFor = none) (hp : p.waitsFor = some b)
    (hx : x.refcnt + holders (s.buf b).lock = (s.buf b).refcnt + 1 + holders x.lock) :
    Counted ((s.setBuf b x).goto t p) := by
  have hcard (c : BufId) := card_waiters_add (c := c) hpc hp
  refine h.move (fun c hc => (hcard c).trans (by rw [if_neg hc]; rfl)) ?_
  rw [hcard b, if_pos rfl]
  omega

/-- One process waits no more. -/
theorem Counted.sub (h : Counted s) (hpc : (s.pc t).waitsFor = some b) (hp : p.waitsFor = none)
    (hx : x.refcnt + 1 + holders (s.buf b).lock = (s.buf b).refcnt + holders x.lock) :
    Counted ((s.setBuf b x).goto t p) := by
  have hcard (c : BufId) := card_waiters_sub (c := c) hpc hp
  refine h.move (fun c hc => ((hcard c).trans (by rw [if_neg hc]; rfl)).symm) ?_
  rw [hcard b, if_pos rfl]
  omega

theorem Counted.same (h : Counted s) (hpc : (s.pc t).waitsFor = p.waitsFor)
    (hx : x.refcnt + holders (s.buf b).lock = (s.buf b).refcnt + holders x.lock) :
    Counted ((s.setBuf b x).goto t p) := by
  refine h.move (fun c _ => card_waiters_same hpc) ?_
  rw [card_waiters_same hpc]
  omega

theorem Counted.iderw (h : Counted s) (hdisk : iderw s b = some s')
    (hpc : (s.pc t).waitsFor = none) : Counted (s'.goto t .user) := by
  rcases iderw_cases hdisk with ⟨-, rfl⟩ | ⟨-, -, rfl⟩
  · have hsame :
        Counted ((s.setBuf b { s.buf b with valid := true, dirty := false }).goto t .user) :=
        h.same hpc rfl
    exact hsame
  · exact h.same hpc rfl

end Touch

theorem Moves.counted {a : Action D T} {es evs : List (Event D T)} (hm : Moves s a s' es)
    (hl : s.links.Represents (order evs)) (h : Counted s) : Counted s' := by
  cases hm with
  | hit t dev blockno b hpc => exact h.add (by rw [hpc]; rfl) rfl rfl
  | miss t dev blockno b hpc hdev hnone hfind =>
    have hzero := (unused_of_findUnused hl hfind).1
    exact h.add (by rw [hpc]; rfl) rfl (by rw [hzero])
  | logWrite t b data hpc =>
    have hsame :
        Counted ((s.setBuf b { s.buf b with data := data, dirty := true }).goto t (s.pc t)) :=
        h.same rfl rfl
    simpa only [State.goto, State.setBuf, Function.update_eq_self] using hsame
  | bwrite t b data hpc => exact h.same (by rw [hpc]; rfl) rfl
  | brelse t b hpc hlock => exact h.add (by rw [hpc]; rfl) rfl (by simp only [hlock, holders])
  | locked t b dev blockno hpc hfree =>
    exact h.sub (by rw [hpc]; rfl) rfl (by simp only [hfree, holders])
  | cached t b dev blockno hpc =>
    have hsame : Counted ((s.setBuf b (s.buf b)).goto t .user) := h.same (by rw [hpc]; rfl) rfl
    simpa only [State.setBuf, Function.update_eq_self] using hsame
  | filled t b dev blockno s₁ hpc hvalid hdisk => exact h.iderw hdisk (by rw [hpc]; rfl)
  | written t b s₁ hpc hdisk => exact h.iderw hdisk (by rw [hpc]; rfl)
  | free t b hpc hlast =>
    have hpos := h.pos_of_waits (t := t) (b := b) (by rw [hpc]; rfl)
    have hsub :
        Counted ((s.setBuf b { s.buf b with refcnt := (s.buf b).refcnt - 1 }).goto t .user) :=
      h.sub (by rw [hpc]; rfl) rfl (by simp only; omega)
    exact hsub
  | release t b hpc hmore =>
    exact h.sub (by rw [hpc]; rfl) rfl (by simp only; omega)

end Count

end Cs3650.Xv6.BufCache
