import Cs3650.Xv6.BufCacheProof

/-!
# Runs of the buffer cache

Each block has one buffer at most, a buffer stays with its block while somebody
has it, and `bread` gives what was stored in the block last.
-/

namespace Cs3650.Xv6.BufCache

open Cs3650.Lib

section Named

variable {D T : Type} {s s' : State D T} {b c : BufId}

structure Named (s : State D T) : Prop where
  unique : ∀ b c, (s.buf b).id = (s.buf c).id → (s.buf b).dev ≠ 0 → b = c
  want : ∀ t b dev blockno, s.pc t = .locking b dev blockno ∨ s.pc t = .filling b dev blockno →
    (s.buf b).id = (dev, blockno) ∧ dev ≠ 0
  locked : ∀ b, (s.buf b).lock ≠ none → (s.buf b).dev ≠ 0

theorem Named.keep (h : Named s) (hid : ∀ c, (s'.buf c).id = (s.buf c).id)
    (hwant : ∀ u b dev blockno, s'.pc u = .locking b dev blockno ∨
      s'.pc u = .filling b dev blockno →
      (s.pc u = .locking b dev blockno ∨ s.pc u = .filling b dev blockno) ∨
      (s.buf b).id = (dev, blockno) ∧ dev ≠ 0)
    (hlock : ∀ c, (s'.buf c).lock ≠ none → (s.buf c).lock ≠ none ∨ (s.buf c).dev ≠ 0) :
    Named s' where
  unique := fun b c heq hdev => by
    rw [hid b, hid c] at heq
    have hsame : (s'.buf b).dev = (s.buf b).dev := congrArg Prod.fst (hid b)
    exact h.unique b c heq (hsame ▸ hdev)
  want := fun u b dev blockno hpc => by
    rw [hid b]
    cases hwant u b dev blockno hpc with
    | inl hold => exact h.want u b dev blockno hold
    | inr hnew => exact hnew
  locked := fun b hb => by
    have hsame : (s'.buf b).dev = (s.buf b).dev := congrArg Prod.fst (hid b)
    rw [hsame]
    cases hlock b hb with
    | inl hold => exact h.locked b hold
    | inr hdev => exact hdev

theorem id_setBuf {x : Buf D T} (hx : x.id = (s.buf b).id) (c : BufId) :
    ((s.setBuf b x).buf c).id = (s.buf c).id := by
  by_cases hc : c = b
  · subst hc
    simpa only [State.setBuf, Function.update_self] using hx
  · simp only [State.setBuf, Function.update_of_ne hc]

theorem lock_setBuf {x : Buf D T} (hx : x.lock = (s.buf b).lock) (c : BufId) :
    ((s.setBuf b x).buf c).lock = (s.buf c).lock := by
  by_cases hc : c = b
  · subst hc
    simpa only [State.setBuf, Function.update_self] using hx
  · simp only [State.setBuf, Function.update_of_ne hc]

theorem dirty_setBuf {x : Buf D T} (hx : x.dirty = (s.buf b).dirty) (c : BufId) :
    ((s.setBuf b x).buf c).dirty = (s.buf c).dirty := by
  by_cases hc : c = b
  · subst hc
    simpa only [State.setBuf, Function.update_self] using hx
  · simp only [State.setBuf, Function.update_of_ne hc]

theorem valid_setBuf {x : Buf D T} (hx : x.valid = (s.buf b).valid) (c : BufId) :
    ((s.setBuf b x).buf c).valid = (s.buf c).valid := by
  by_cases hc : c = b
  · subst hc
    simpa only [State.setBuf, Function.update_self] using hx
  · simp only [State.setBuf, Function.update_of_ne hc]

theorem kept (h : ∀ c, (s'.buf c).lock = (s.buf c).lock) (c : BufId) (hc : (s'.buf c).lock ≠ none) :
    (s.buf c).lock ≠ none ∨ (s.buf c).dev ≠ 0 :=
  .inl (h c ▸ hc)

theorem iderw_frame (h : iderw s b = some s') : s'.pc = s.pc ∧ (∀ c, (s'.buf c).id = (s.buf c).id) ∧
    (∀ c, (s'.buf c).lock = (s.buf c).lock) ∧ (∀ c, c ≠ b → s'.buf c = s.buf c) ∧
    (s'.buf b).valid = true ∧
      (s'.buf b).dirty = false := by
  rcases iderw_cases h with ⟨-, rfl⟩ | ⟨hdirty, -, rfl⟩
  · exact ⟨rfl, id_setBuf rfl, lock_setBuf rfl, fun c hc => Function.update_of_ne hc ..,
      by simp [State.setBuf], by simp [State.setBuf]⟩
  · exact ⟨rfl, id_setBuf rfl, lock_setBuf rfl, fun c hc => Function.update_of_ne hc ..,
      by simp [State.setBuf], by simp [State.setBuf, hdirty]⟩

variable [DecidableEq T] {t : T} {p : Pc} {a : Action D T} {es evs : List (Event D T)}

/-- A process that stops to want a buffer, or wants one that has its block. -/
theorem want_goto {s₁ : State D T} (hsame : s₁.pc = s.pc)
    (hp : ∀ b dev blockno, p = .locking b dev blockno ∨ p = .filling b dev blockno →
      (s.pc t = .locking b dev blockno ∨ s.pc t = .filling b dev blockno) ∨
      (s.buf b).id = (dev, blockno) ∧ dev ≠ 0)
    (u : T) (b : BufId) (dev blockno : Nat)
    (hpc : (s₁.goto t p).pc u = .locking b dev blockno ∨
      (s₁.goto t p).pc u = .filling b dev blockno) :
    (s.pc u = .locking b dev blockno ∨ s.pc u = .filling b dev blockno) ∨
    (s.buf b).id = (dev, blockno) ∧ dev ≠ 0 := by
  by_cases hu : u = t
  · subst hu
    simp only [State.goto, Function.update_self] at hpc
    exact hp b dev blockno hpc
  · simp only [State.goto, Function.update_of_ne hu, hsame] at hpc
    exact .inl hpc

/-- A buffer that nobody has gets a block that has no buffer. -/
theorem Named.recycle (h : Named s) {x : Buf D T} {dev blockno : Nat} (hdev : dev ≠ 0)
    (hx : x.id = (dev, blockno)) (hnew : ∀ c, (s.buf c).id ≠ (dev, blockno))
    (hidle : ∀ t dev blockno, s.pc t ≠ .locking b dev blockno ∧ s.pc t ≠ .filling b dev blockno) :
    Named ((s.setBuf b x).goto t (.locking b dev blockno)) := by
  have hself : ((s.setBuf b x).goto t (.locking b dev blockno)).buf b = x := Function.update_self ..
  have hother (c : BufId) (hc : c ≠ b) :
      ((s.setBuf b x).goto t (.locking b dev blockno)).buf c = s.buf c :=
    Function.update_of_ne hc ..
  have hxdev : x.dev = dev := congrArg Prod.fst hx
  refine ⟨fun c c' heq hcdev => ?_, fun u c dev' blockno' hu => ?_, fun c hlock => ?_⟩
  · by_cases hcb : c = b
    · by_cases hcb' : c' = b
      · rw [hcb, hcb']
      · rw [hcb, hself, hother c' hcb', hx] at heq
        exact absurd heq.symm (hnew c')
    · by_cases hcb' : c' = b
      · rw [hcb', hself, hother c hcb, hx] at heq
        exact absurd heq (hnew c)
      · rw [hother c hcb, hother c' hcb'] at heq
        rw [hother c hcb] at hcdev
        exact h.unique c c' heq hcdev
  · by_cases hut : u = t
    · subst hut
      simp only [State.goto, Function.update_self, Pc.locking.injEq, reduceCtorEq, or_false] at hu
      obtain ⟨rfl, rfl, rfl⟩ := hu
      rw [hself]
      exact ⟨hx, hdev⟩
    · simp only [State.goto, State.setBuf, Function.update_of_ne hut] at hu
      have hcb : c ≠ b := by
        intro heq
        subst heq
        obtain ⟨hlocking, hfilling⟩ := hidle u dev' blockno'
        cases hu with
        | inl heq => exact hlocking heq
        | inr heq => exact hfilling heq
      rw [hother c hcb]
      exact h.want u c dev' blockno' hu
  · by_cases hcb : c = b
    · rw [hcb, hself, hxdev]
      exact hdev
    · rw [hother c hcb] at hlock ⊢
      exact h.locked c hlock

theorem Moves.named [Fintype T] (hm : Moves s a s' es) (hl : s.links.Represents (order evs))
    (hc : Counted s)
    (hidle : ∀ t b dev blockno, s.pc t = .filling b dev blockno → (s.buf b).lock = some t)
    (h : Named s) : Named s' := by
  have hnever {p : Pc} (hp : p = .user ∨ (∃ b, p = .writing b) ∨
      ∃ b, p = .releasing b) {t : T} (b : BufId) (dev blockno : Nat) (hpc :
      p = .locking b dev blockno ∨ p = .filling b dev blockno) :
      (s.pc t = .locking b dev blockno ∨ s.pc t = .filling b dev blockno) ∨
      (s.buf b).id = (dev, blockno) ∧ dev ≠ 0 := by
    rcases hp with rfl | ⟨_, rfl⟩ | ⟨_, rfl⟩ <;> cases hpc <;> contradiction
  cases hm with
  | hit t dev blockno b hpc hdev hfind =>
    refine h.keep (id_setBuf rfl) (want_goto rfl fun b' dev' blockno' hp => .inr ?_)
      (kept (lock_setBuf rfl))
    cases hp with
    | inl heq =>
      cases heq
      exact ⟨id_of_findCached hl hfind, hdev⟩
    | inr heq => cases heq
  | miss t dev blockno b hpc hdev hnone hfind =>
    obtain ⟨hfree, hwaits⟩ := hc.idle (unused_of_findUnused hl hfind).1
    refine h.recycle hdev rfl (findCached_none hl hnone) fun u dev' blockno' =>
      ⟨fun heq => ?_, fun heq => ?_⟩
    · exact hwaits u (by rw [heq]; rfl)
    · rw [hidle u b dev' blockno' heq] at hfree
      cases hfree
  | logWrite t b data hpc hlock =>
    exact h.keep (id_setBuf rfl) (fun _ _ _ _ hu => .inl hu) (kept (lock_setBuf rfl))
  | bwrite t b data hpc hlock =>
    exact h.keep (id_setBuf rfl) (want_goto rfl (hnever (.inr (.inl ⟨b, rfl⟩))))
      (kept (lock_setBuf rfl))
  | brelse t b hpc hlock =>
    refine h.keep (id_setBuf rfl) (want_goto rfl (hnever (.inr (.inr ⟨b, rfl⟩))))
      fun c hc => .inl ?_
    by_cases hcb : c = b
    · simp [hcb, hlock]
    · simpa only [State.goto, State.setBuf, Function.update_of_ne hcb] using hc
  | locked t b dev blockno hpc hfree =>
    have hwant := h.want t b dev blockno (.inl hpc)
    refine h.keep (id_setBuf rfl) (want_goto rfl fun b' dev' blockno' hp => .inr ?_) fun c hc => ?_
    · cases hp with
      | inl heq => cases heq
      | inr heq =>
        cases heq
        exact hwant
    · by_cases hcb : c = b
      · subst hcb
        have hdev : (s.buf c).dev = dev := congrArg Prod.fst hwant.1
        exact .inr (hdev ▸ hwant.2)
      · exact .inl (by simpa only [State.goto, State.setBuf, Function.update_of_ne hcb] using hc)
  | cached t b dev blockno hpc =>
    exact h.keep (fun _ => rfl) (want_goto rfl (hnever (.inl rfl))) fun c hc => .inl hc
  | filled t b dev blockno s₁ hpc hvalid hdisk =>
    obtain ⟨hpc₁, hid, hlock, -⟩ := iderw_frame hdisk
    exact h.keep hid (want_goto hpc₁ (hnever (.inl rfl))) (kept hlock)
  | written t b s₁ hpc hdisk =>
    obtain ⟨hpc₁, hid, hlock, -⟩ := iderw_frame hdisk
    exact h.keep hid (want_goto hpc₁ (hnever (.inl rfl))) (kept hlock)
  | free t b hpc hlast =>
    exact h.keep (id_setBuf rfl) (want_goto rfl (hnever (.inl rfl))) (kept (lock_setBuf rfl))
  | release t b hpc hmore =>
    exact h.keep (id_setBuf rfl) (want_goto rfl (hnever (.inl rfl))) (kept (lock_setBuf rfl))

end Named

section Owned

variable {D T : Type}

/-- The process has the lock of the buffer, and `bread` has not returned it yet. -/
def Pc.fills (b : BufId) : Pc → Bool
  | filling c _ _ => c == b
  | _ => false

variable [DecidableEq T]

/-- The buffer is in the hands of the process. -/
def State.owns (s : State D T) (t : T) (b : BufId) : Prop :=
  (s.buf b).lock = some t ∧ (s.pc t).fills b = false

instance (s : State D T) (t : T) (b : BufId) : Decidable (s.owns t b) :=
  inferInstanceAs (Decidable (_ ∧ _))

structure Owned (s : State D T) (evs : List (Event D T)) : Prop where
  filling : ∀ t b, (s.pc t).fills b = true → (s.buf b).lock = some t
  writing : ∀ t b, s.pc t = .writing b → (s.buf b).lock = some t ∧ (s.buf b).dirty = true
  loaded : ∀ t b, s.owns t b → (s.buf b).valid = true
  dirty : ∀ b, (s.buf b).dirty = true → (s.buf b).valid = true
  held : ∀ t b, holding t b evs = if s.owns t b then some (s.buf b).id else none

variable {s s' : State D T} {t : T} {b : BufId} {a : Action D T} {es evs : List (Event D T)}

theorem holding_append (t : T) (b : BufId) (evs : List (Event D T)) (e : Event D T) :
    holding t b (evs ++ [e]) = e.hold t b (holding t b evs) := by
  simp [holding]

theorem Owned.lock_of_filling (h : Owned s evs) (t : T) (b : BufId) (dev blockno : Nat)
    (hpc : s.pc t = .filling b dev blockno) : (s.buf b).lock = some t :=
  h.filling t b (by simp [hpc, Pc.fills])

/-- A step of `t` on the buffer `b`. -/
theorem Owned.touch (h : Owned s evs) (t : T) (b : BufId) (hbuf : ∀ c, c ≠ b → s'.buf c = s.buf c)
    (hpc : ∀ u, u ≠ t → s'.pc u = s.pc u)
    (hfills : ∀ c, c ≠ b → (s'.pc t).fills c = (s.pc t).fills c)
    (hwriting : ∀ c, s'.pc t = .writing c → c = b)
    (hevs : ∀ u c, c ≠ b → holding u c (evs ++ es) = holding u c evs)
    (hfilling : ∀ u, (s'.pc u).fills b = true → (s'.buf b).lock = some u)
    (hwrites : ∀ u, s'.pc u = .writing b → (s'.buf b).lock = some u ∧ (s'.buf b).dirty = true)
    (hvalid : (s'.buf b).dirty = true ∨ (∃ u, s'.owns u b) → (s'.buf b).valid = true)
    (hheld : ∀ u, holding u b (evs ++ es) = if s'.owns u b then some (s'.buf b).id else none) :
    Owned s' (evs ++ es) := by
  have hfills' (u : T) (c : BufId) (hc : c ≠ b) : (s'.pc u).fills c = (s.pc u).fills c := by
    by_cases hu : u = t
    · exact hu ▸ hfills c hc
    · rw [hpc u hu]
  have howns (u : T) (c : BufId) (hc : c ≠ b) : s'.owns u c ↔ s.owns u c := by
    rw [State.owns, State.owns, hbuf c hc, hfills' u c hc]
  refine ⟨fun u c hu => ?_, fun u c hu => ?_, fun u c hu => ?_, fun c hc => ?_, fun u c => ?_⟩
  · by_cases hc : c = b
    · exact hc ▸ hfilling u (hc ▸ hu)
    · rw [hbuf c hc]
      exact h.filling u c ((hfills' u c hc) ▸ hu)
  · by_cases hc : c = b
    · exact hc ▸ hwrites u (hc ▸ hu)
    · have hut : u ≠ t := fun heq => hc (hwriting c (heq ▸ hu))
      rw [hbuf c hc]
      exact h.writing u c (hpc u hut ▸ hu)
  · by_cases hc : c = b
    · exact hc ▸ hvalid (.inr ⟨u, hc ▸ hu⟩)
    · rw [hbuf c hc]
      exact h.loaded u c ((howns u c hc).mp hu)
  · by_cases hcb : c = b
    · exact hcb ▸ hvalid (.inl (hcb ▸ hc))
    · rw [hbuf c hcb] at hc ⊢
      exact h.dirty c hc
  · by_cases hc : c = b
    · exact hc ▸ hheld u
    · simp only [hevs u c hc, h.held u c, howns u c hc, hbuf c hc]

/-- A step that changes no lock and no contents. -/
theorem Owned.quiet (h : Owned s evs) (hlock : ∀ c, (s'.buf c).lock = (s.buf c).lock)
    (hdirty : ∀ c, (s'.buf c).dirty = (s.buf c).dirty)
    (hvalid : ∀ c, (s'.buf c).valid = (s.buf c).valid)
    (hid : ∀ c, (s'.buf c).id = (s.buf c).id) (hfills : ∀ u c, (s'.pc u).fills c = (s.pc u).fills c)
    (hwriting : ∀ u c, s'.pc u = .writing c → s.pc u = .writing c)
    (hevs : ∀ u c, holding u c (evs ++ es) = holding u c evs) : Owned s' (evs ++ es) := by
  have howns (u : T) (c : BufId) : s'.owns u c ↔ s.owns u c := by
    rw [State.owns, State.owns, hlock c, hfills u c]
  refine ⟨fun u c hu => ?_, fun u c hu => ?_, fun u c hu => ?_, fun c hc => ?_, fun u c => ?_⟩
  · rw [hlock c]
    exact h.filling u c (hfills u c ▸ hu)
  · rw [hlock c, hdirty c]
    exact h.writing u c (hwriting u c hu)
  · rw [hvalid c]
    exact h.loaded u c ((howns u c).mp hu)
  · rw [hdirty c] at hc
    rw [hvalid c]
    exact h.dirty c hc
  · simp only [hevs u c, h.held u c, howns u c, hid c]

theorem fills_goto {s₁ : State D T} {p : Pc} (hsame : s₁.pc = s.pc)
    (hp : ∀ c, p.fills c = (s.pc t).fills c) (u : T) (c : BufId) :
    ((s₁.goto t p).pc u).fills c = (s.pc u).fills c := by
  by_cases hu : u = t
  · subst hu
    simpa only [State.goto, Function.update_self] using hp c
  · simp only [State.goto, Function.update_of_ne hu, hsame]

theorem writing_goto {s₁ : State D T} {p : Pc} (hsame : s₁.pc = s.pc) (hp : ∀ c, p ≠ .writing c)
    (u : T) (c : BufId) (hu : (s₁.goto t p).pc u = .writing c) : s.pc u = .writing c := by
  by_cases hut : u = t
  · subst hut
    simp only [State.goto, Function.update_self] at hu
    exact absurd hu (hp c)
  · simpa only [State.goto, Function.update_of_ne hut, hsame] using hu

/-- `bread` returns the buffer to its caller. -/
theorem Owned.got (h : Owned s evs) (hn : Named s) {dev blockno : Nat} {data : D} {s₁ : State D T}
    (hpc : s.pc t = .filling b dev blockno) (hpcs : s₁.pc = s.pc)
    (hlock : ∀ c, (s₁.buf c).lock = (s.buf c).lock)
    (hid : ∀ c, (s₁.buf c).id = (s.buf c).id) (hbuf : ∀ c, c ≠ b → s₁.buf c = s.buf c)
    (hvalid : (s₁.buf b).valid = true) :
    Owned (s₁.goto t .user) (evs ++ [.got t b dev blockno data]) := by
  have hmine := h.lock_of_filling t b dev blockno hpc
  have hself : (s₁.goto t .user).pc t = .user := Function.update_self ..
  have hother (u : T) (hu : u ≠ t) : (s₁.goto t .user).pc u = s.pc u :=
    (Function.update_of_ne hu ..).trans (congrFun hpcs u)
  have honly (u : T) (hu : (s₁.buf b).lock = some u) : u = t := by
    rw [hlock b, hmine] at hu
    exact (Option.some.inj hu).symm
  refine h.touch t b hbuf hother (fun c hc => ?_) (fun c hc => ?_) (fun u c hc => ?_)
    (fun u hu => ?_) (fun u hu => ?_) (fun _ => hvalid) fun u => ?_
  · rw [hself, hpc]
    simp [Pc.fills, Ne.symm hc]
  · rw [hself] at hc
    cases hc
  · rw [holding_append]
    simp [Event.hold, Ne.symm hc]
  · have hut : u ≠ t := fun heq => by rw [heq, hself] at hu; cases hu
    rw [hother u hut] at hu
    exact (hlock b).trans (h.filling u b hu)
  · have hut : u ≠ t := fun heq => by rw [heq, hself] at hu; cases hu
    rw [hother u hut] at hu
    have hlocked := (h.writing u b hu).1
    rw [hmine] at hlocked
    exact absurd (Option.some.inj hlocked).symm hut
  · rw [holding_append]
    by_cases hut : u = t
    · subst hut
      have howns : (s₁.goto u .user).owns u b := ⟨(hlock b).trans hmine, by rw [hself]; rfl⟩
      have hblock : (s.buf b).id = (dev, blockno) := (hn.want u b dev blockno (.inr hpc)).1
      rw [if_pos howns]
      simp only [Event.hold, and_self, if_true]
      exact congrArg some (hblock.symm.trans (hid b).symm)
    · have hnot : ¬(s₁.goto t .user).owns u b := fun howns => hut (honly u howns.1)
      have hnot' : ¬s.owns u b := fun howns => hut (honly u ((hlock b).trans howns.1))
      rw [if_neg hnot, Event.hold, if_neg (fun hand => hut hand.1.symm), h.held, if_neg hnot']

/-- A buffer that nobody has. -/
theorem Owned.recycle (h : Owned s evs) {x : Buf D T} {dev blockno : Nat} (hpc : s.pc t = .user)
    (hfree : (s.buf b).lock = none) (hx : x.lock = none) (hdirty : x.dirty = false) :
    Owned ((s.setBuf b x).goto t (.locking b dev blockno)) (evs ++ []) := by
  have hself : ((s.setBuf b x).goto t (.locking b dev blockno)).buf b = x := Function.update_self ..
  have hfills :=
    @fills_goto _ _ _ s t (s.setBuf b x) (.locking b dev blockno) rfl fun c => by rw [hpc]; rfl
  have hwriting :=
    @writing_goto _ _ _ s t (s.setBuf b x) (.locking b dev blockno) rfl fun c => by simp
  have hnobody (u : T) : ¬((s.setBuf b x).goto t (.locking b dev blockno)).owns u b := by
    intro howns
    have hlock := howns.1
    rw [hself, hx] at hlock
    cases hlock
  refine h.touch t b (fun c hc => Function.update_of_ne hc ..)
    (fun u hu => Function.update_of_ne hu ..) (fun c _ => hfills t c) (fun c hc => ?_)
    (fun u c _ => by rw [List.append_nil]) (fun u hu => ?_) (fun u hu => ?_)
    (fun hor => ?_) fun u => ?_
  · have hold := hwriting t c hc
    rw [hpc] at hold
    cases hold
  · rw [hfills u b] at hu
    have hlock := h.filling u b hu
    rw [hfree] at hlock
    cases hlock
  · have hlock := (h.writing u b (hwriting u b hu)).1
    rw [hfree] at hlock
    cases hlock
  · cases hor with
    | inl hd =>
      rw [hself, hdirty] at hd
      cases hd
    | inr howns =>
      obtain ⟨u, hu⟩ := howns
      exact absurd hu (hnobody u)
  · have hnot : ¬s.owns u b := by
      intro howns
      have hlock := howns.1
      rw [hfree] at hlock
      cases hlock
    rw [List.append_nil, h.held, if_neg hnot, if_neg (hnobody u)]

/-- The owner stores into the buffer. -/
theorem Owned.store (h : Owned s evs) {x : Buf D T} {p : Pc} {dev blockno : Nat} {data : D}
    (hpc : s.pc t = .user)
    (hlock : (s.buf b).lock = some t) (hx : x.lock = some t) (hdirty : x.dirty = true)
    (hvalid : x.valid = (s.buf b).valid)
    (hid : x.id = (s.buf b).id) (hp : p = .user ∨ p = .writing b) :
    Owned ((s.setBuf b x).goto t p) (evs ++ [.stored t b dev blockno data]) := by
  have hself : ((s.setBuf b x).goto t p).buf b = x := Function.update_self ..
  have hpfills (c : BufId) : p.fills c = (s.pc t).fills c := by
    rw [hpc]
    cases hp with
    | inl heq => rw [heq]
    | inr heq => rw [heq]; rfl
  have hfills := @fills_goto _ _ _ s t (s.setBuf b x) p rfl hpfills
  have hmine : s.owns t b := ⟨hlock, by rw [hpc]; rfl⟩
  have howns (u : T) : ((s.setBuf b x).goto t p).owns u b ↔ s.owns u b := by
    rw [State.owns, State.owns, hself, hfills u b, hx, hlock]
  refine h.touch t b (fun c hc => Function.update_of_ne hc ..)
    (fun u hu => Function.update_of_ne hu ..) (fun c _ => hfills t c) (fun c hc => ?_)
    (fun u c _ => ?_) (fun u hu => ?_) (fun u hu => ?_) (fun _ => ?_) fun u => ?_
  · simp only [State.goto, Function.update_self] at hc
    cases hp with
    | inl heq => rw [heq] at hc; cases hc
    | inr heq => rw [heq] at hc; exact (Pc.writing.inj hc).symm
  · rw [holding_append]
    rfl
  · rw [hfills u b] at hu
    rw [hself, hx, ← hlock]
    exact h.filling u b hu
  · rw [hself]
    by_cases hut : u = t
    · exact ⟨hut ▸ hx, hdirty⟩
    · simp only [State.goto, State.setBuf, Function.update_of_ne hut] at hu
      exact ⟨by rw [hx, ← hlock]; exact (h.writing u b hu).1, hdirty⟩
  · rw [hself, hvalid]
    exact h.loaded t b hmine
  · have hkeep : holding u b (evs ++ [.stored t b dev blockno data]) = holding u b evs :=
      holding_append ..
    rw [hkeep, h.held]
    simp only [howns u, hself, hid]

/-- The owner releases the buffer. -/
theorem Owned.release (h : Owned s evs) (hpc : s.pc t = .user) (hlock : (s.buf b).lock = some t) :
    Owned ((s.setBuf b { s.buf b with lock := none }).goto t (.releasing b))
      (evs ++ [.released t b]) := by
  have hself : ((s.setBuf b { s.buf b with lock := none }).goto t (.releasing b)).buf b =
      { s.buf b with lock := none } :=
    Function.update_self ..
  have hfills := @fills_goto _ _ _ s t (s.setBuf b { s.buf b with lock := none }) (.releasing b) rfl
    fun c => by rw [hpc]; rfl
  have hwriting :=
    @writing_goto _ _ _ s t (s.setBuf b { s.buf b with lock := none }) (.releasing b) rfl
      fun c => by simp
  have honly {u : T} (hu : (s.buf b).lock = some u) : s.pc u = .user := by
    rw [hlock] at hu
    rwa [← Option.some.inj hu]
  refine h.touch t b (fun c hc => Function.update_of_ne hc ..)
    (fun u hu => Function.update_of_ne hu ..) (fun c _ => hfills t c) (fun c hc => ?_)
    (fun u c hc => ?_) (fun u hu => ?_) (fun u hu => ?_) (fun hor => ?_) fun u => ?_
  · have hold := hwriting t c hc
    rw [hpc] at hold
    cases hold
  · rw [holding_append]
    simp [Event.hold, Ne.symm hc]
  · rw [hfills u b] at hu
    have huser := honly (h.filling u b hu)
    rw [huser] at hu
    cases hu
  · have hold := hwriting u b hu
    have huser := honly (h.writing u b hold).1
    rw [huser] at hold
    cases hold
  · rw [hself] at hor ⊢
    cases hor with
    | inl hd => exact h.dirty b hd
    | inr howns =>
      obtain ⟨u, hu⟩ := howns
      have hnone := hu.1
      rw [hself] at hnone
      cases hnone
  · have hnot : ¬((s.setBuf b { s.buf b with lock := none }).goto t (.releasing b)).owns u b := by
      intro hu
      have hnone := hu.1
      rw [hself] at hnone
      cases hnone
    rw [holding_append, Event.hold, if_neg hnot, h.held]
    by_cases hut : t = u
    · simp [hut]
    · have hnot' : ¬s.owns u b := by
        intro hu
        have hsame := hu.1
        rw [hlock] at hsame
        exact hut (Option.some.inj hsame)
      simp [hut, hnot']

/-- `acquiresleep` in `bget`. -/
theorem Owned.acquire (h : Owned s evs) {dev blockno : Nat} (hpc : s.pc t = .locking b dev blockno)
    (hfree : (s.buf b).lock = none) :
    Owned ((s.setBuf b { s.buf b with lock := some t }).goto t (.filling b dev blockno))
      (evs ++ []) := by
  have hself :
      ((s.setBuf b { s.buf b with lock := some t }).goto t (.filling b dev blockno)).buf b =
      { s.buf b with lock := some t } := Function.update_self ..
  have hpc' : ((s.setBuf b { s.buf b with lock := some t }).goto t (.filling b dev blockno)).pc t =
      .filling b dev blockno :=
    Function.update_self ..
  have hother (u : T) (hu : u ≠ t) :
      ((s.setBuf b { s.buf b with lock := some t }).goto t (.filling b dev blockno)).pc u =
      s.pc u :=
    Function.update_of_ne hu ..
  have hnobody (u : T) :
      ¬((s.setBuf b { s.buf b with lock := some t }).goto t (.filling b dev blockno)).owns u b := by
    intro hu
    have hlock := hu.1
    rw [hself] at hlock
    obtain rfl : t = u := Option.some.inj hlock
    have hfills := hu.2
    rw [hpc'] at hfills
    simp [Pc.fills] at hfills
  refine h.touch t b (fun c hc => Function.update_of_ne hc ..) hother (fun c hc => ?_)
    (fun c hc => ?_) (fun u c _ => by rw [List.append_nil]) (fun u hu => ?_) (fun u hu => ?_)
    (fun hor => ?_) fun u => ?_
  · rw [hpc', hpc]
    simp [Pc.fills, Ne.symm hc]
  · rw [hpc'] at hc
    cases hc
  · rw [hself]
    by_cases hut : u = t
    · rw [hut]
    · rw [hother u hut] at hu
      have hlock := h.filling u b hu
      rw [hfree] at hlock
      cases hlock
  · have hut : u ≠ t := fun heq => by rw [heq, hpc'] at hu; cases hu
    rw [hother u hut] at hu
    have hlock := (h.writing u b hu).1
    rw [hfree] at hlock
    cases hlock
  · rw [hself] at hor ⊢
    cases hor with
    | inl hd => exact h.dirty b hd
    | inr howns =>
      obtain ⟨u, hu⟩ := howns
      exact absurd hu (hnobody u)
  · have hnot : ¬s.owns u b := by
      intro howns
      have hlock := howns.1
      rw [hfree] at hlock
      cases hlock
    rw [List.append_nil, h.held, if_neg hnot, if_neg (hnobody u)]

/-- `bwrite` is done. -/
theorem Owned.written (h : Owned s evs) (hpc : s.pc t = .writing b) (hdisk : iderw s b = some s') :
    Owned (s'.goto t .user) (evs ++ []) := by
  obtain ⟨hpcs, hid, hlock, hbuf, hvalid, hdirty⟩ := iderw_frame hdisk
  have hmine := (h.writing t b hpc).1
  have hfills := @fills_goto _ _ _ s t s' .user hpcs fun c => by rw [hpc]; rfl
  have hwriting := @writing_goto _ _ _ s t s' .user hpcs fun c => by simp
  have howns (u : T) : (s'.goto t .user).owns u b ↔ s.owns u b := by
    rw [State.owns, State.owns, hfills u b]
    exact and_congr_left fun _ => by rw [State.goto, hlock b]
  refine h.touch t b hbuf (fun u hu => (Function.update_of_ne hu ..).trans (congrFun hpcs u))
    (fun c _ => hfills t c) (fun c hc => ?_) (fun u c _ => by rw [List.append_nil]) (fun u hu => ?_)
    (fun u hu => ?_) (fun _ => hvalid) fun u => ?_
  · simp [State.goto] at hc
  · rw [hfills u b] at hu
    exact (hlock b).trans (h.filling u b hu)
  · have hold := h.writing u b (hwriting u b hu)
    have hut : u = t := by
      rw [hmine] at hold
      exact (Option.some.inj hold.1).symm
    simp [State.goto, hut] at hu
  · have hblock : ((s'.goto t .user).buf b).id = (s.buf b).id := hid b
    rw [List.append_nil, h.held, hblock]
    simp only [howns u]

theorem Moves.owned [Fintype T] (hm : Moves s a s' es) (hl : s.links.Represents (order evs))
    (hc : Counted s) (hn : Named s) (h : Owned s evs) : Owned s' (evs ++ es) := by
  have hquiet (u : T) (c : BufId) : holding u c (evs ++ []) = holding u c evs := by
    rw [List.append_nil]
  cases hm with
  | hit t dev blockno b hpc =>
    exact h.quiet (lock_setBuf rfl) (dirty_setBuf rfl) (valid_setBuf rfl) (id_setBuf rfl)
      (fills_goto rfl fun c => by rw [hpc]; rfl) (writing_goto rfl fun c => by simp) hquiet
  | miss t dev blockno b hpc hdev hnone hfind =>
    have hfree := (hc.idle (unused_of_findUnused hl hfind).1).1
    exact h.recycle hpc hfree hfree rfl
  | logWrite t b data hpc hlock =>
    have hstore : Owned ((s.setBuf b { s.buf b with data := data, dirty := true }).goto t .user)
        (evs ++ [.stored t b (s.buf b).dev (s.buf b).blockno data]) :=
        h.store hpc hlock hlock rfl rfl rfl (.inl rfl)
    have hsame : Function.update s.pc t .user = s.pc := by rw [← hpc, Function.update_eq_self]
    simpa only [State.goto, State.setBuf, hsame] using hstore
  | bwrite t b data hpc hlock => exact h.store hpc hlock hlock rfl rfl rfl (.inr rfl)
  | brelse t b hpc hlock => exact h.release hpc hlock
  | locked t b dev blockno hpc hfree => exact h.acquire hpc hfree
  | cached t b dev blockno hpc hvalid =>
    exact h.got hn hpc rfl (fun _ => rfl) (fun _ => rfl) (fun _ _ => rfl) hvalid
  | filled t b dev blockno s₁ hpc hvalid hdisk =>
    obtain ⟨hpcs, hid, hlock, hbuf, hloaded, -⟩ := iderw_frame hdisk
    exact h.got hn hpc hpcs hlock hid hbuf hloaded
  | written t b s₁ hpc hdisk => exact h.written hpc hdisk
  | free t b hpc hlast =>
    refine h.quiet (lock_setBuf rfl) (dirty_setBuf rfl) (valid_setBuf rfl) (id_setBuf rfl)
      (fun u c => ?_) (fun u c hu => ?_) fun u c => ?_
    · exact @fills_goto _ _ _ s t (s.setBuf b _) .user rfl (fun c => by rw [hpc]; rfl) u c
    · exact @writing_goto _ _ _ s t (s.setBuf b _) .user rfl (fun c => by simp) u c hu
    · rw [holding_append]
      rfl
  | release t b hpc hmore =>
    exact h.quiet (lock_setBuf rfl) (dirty_setBuf rfl) (valid_setBuf rfl) (id_setBuf rfl)
      (fills_goto rfl fun c => by rw [hpc]; rfl) (writing_goto rfl fun c => by simp) hquiet

end Owned

end Cs3650.Xv6.BufCache
