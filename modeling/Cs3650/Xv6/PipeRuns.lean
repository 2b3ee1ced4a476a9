import Cs3650.Xv6.PipeEnds

/-!
# Runs of a pipe

What holds after any run from `pipealloc`: the bytes come out in the order in
which they went in, a process sleeps only for a reason, somebody can go on, and
the page is given back once and not while it is in use.
-/

namespace Cs3650.Xv6.Pipes

open Cs3650.Lib

section Sleeps

/-- The call of a process that sleeps, or has left the lock to sleep. -/
def Pc.sleeps? : Pc → Option Call
  | sleepSched c | asleep c => some c
  | _ => none

/-- The process will wake the sleepers before it leaves the lock. -/
def Pc.announces (ch : Chan) : Pc → Bool
  | loop (.write _ i) => ch == .nread && 0 < i
  | wakeReaders .. => ch == .nread
  | copy _ addr => ch == .nwrite && addr != []
  | wakeup d => d.chan == ch
  | _ => false

theorem holdsLock_of_announces {ch : Chan} {p : Pc} (h : p.announces ch = true) :
    p.holdsLock = true := by
  cases p <;> first | rfl | cases h

theorem sleeps_of_woken {ch : Chan} {p : Pc} {c : Call} (h : (p.woken ch).sleeps? = some c) :
    p.sleeps? = some c := by
  cases p <;> try exact h
  simp only [Pc.woken] at h
  split at h
  · cases h
  · exact h

/-- `wakeup` leaves nobody asleep on its channel. -/
theorem chan_ne_of_woken {ch : Chan} {p : Pc} {c : Call} (htable : p.holdsTable = false)
    (h : (p.woken ch).sleeps? = some c) : c.chan ≠ ch := by
  cases p <;> try cases h
  case sleepSched => cases htable
  case asleep c' =>
    simp only [Pc.woken] at h
    split at h
    · cases h
    · next hne =>
      obtain rfl : c' = c := Option.some.inj h
      exact hne

variable {T : Type}

/-- A `pipewrite` that returned -1 after it had put bytes in, and without a `wakeup`. -/
def Cut (evs : List (Event T)) : Prop := ∃ t addr i, Event.wrote t addr i (-1) ∈ evs ∧ 0 < i

/-- Who sleeps has a reason, or will be woken; or it is a reader that was forgotten. -/
def Sleeps (s : State T) (evs : List (Event T)) : Prop :=
  ∀ t c, (s.pc t).sleeps? = some c → c.waits s.pipe = true ∨
    (∃ u, (s.pc u).announces c.chan = true) ∨ c.writable = false ∧ Cut evs

theorem Cut.append {evs es : List (Event T)} (h : Cut evs) : Cut (evs ++ es) := by
  obtain ⟨t, addr, i, hmem, hi⟩ := h
  exact ⟨t, addr, i, List.mem_append_left _ hmem, hi⟩

variable [DecidableEq T] {s s' : State T} {t u v : T} {c : Call} {es evs : List (Event T)}

/-- A reason that a step of another process takes away is announced by it. -/
theorem Next.waits (hn : Next s t s' es) (h : c.waits s.pipe = true) :
    c.waits s'.pipe = true ∨ (s'.pc t).announces c.chan = true := by
  cases hn with
  | put addr i b hpc hb hroom =>
    cases c with
    | write addr' i' => simp [Call.waits, hroom] at h
    | read n => exact .inr (by simp [State.goto, Pc.announces, Call.chan])
  | got n addr hpc hlt hsome =>
    cases c with
    | write addr' i' => exact .inr (by simp [State.goto, Pc.announces, Call.chan])
    | read n' => simp [Call.waits, hsome] at h
  | closing w hpc =>
    cases c <;> cases w <;>
      first | exact .inl h | exact .inr (by simp [State.goto, Pc.announces, Call.chan, Done.chan])
  | _ => exact .inl h

/-- A process keeps its word: it still announces, or it has woken everybody, or
it is the write that was cut short. -/
theorem Next.announces (hn : Next s t s' es) (hl : Locks s) (hv : (s.pc v).announces c.chan = true)
    (hu : u ≠ t) (hsleep : (s'.pc u).sleeps? = some c) :
    (s'.pc v).announces c.chan = true ∨ c.writable = false ∧ Cut (evs ++ es) := by
  have hwoken {ch : Chan} (htable : s.table = none) (hpc : s'.pc u = (s.pc u).woken ch) :
      c.chan ≠ ch :=
    chan_ne_of_woken (hl.table.free htable u) (hpc ▸ hsleep)
  by_cases hvt : v = t
  · subst hvt
    cases hn with
    | written addr i hpc | full addr i hpc | put addr i b hpc =>
      rw [hpc] at hv
      simp only [Pc.announces, Bool.and_eq_true, beq_iff_eq] at hv
      exact .inl (by simp [State.goto, Pc.announces, Done.chan, hv.1])
    | cut addr i hpc =>
      rw [hpc] at hv
      simp only [Pc.announces, Bool.and_eq_true, beq_iff_eq, decide_eq_true_eq] at hv
      refine .inr ⟨?_, v, addr, i, by simp, hv.2⟩
      cases c with
      | read n => rfl
      | write => simp [Call.chan] at hv
    | got n addr hpc =>
      rw [hpc] at hv
      simp only [Pc.announces, Bool.and_eq_true, beq_iff_eq] at hv
      exact .inl (by simp [State.goto, Pc.announces, hv.1])
    | copied n addr hpc =>
      rw [hpc] at hv
      simp only [Pc.announces, Bool.and_eq_true, beq_iff_eq] at hv
      exact .inl (by simp [State.goto, Pc.announces, Done.chan, hv.1])
    | wakeReaders addr i hpc htable =>
      rw [hpc] at hv
      simp only [Pc.announces, beq_iff_eq] at hv
      exact absurd hv (hwoken htable (by simp [hu]))
    | wakeup d hpc htable =>
      rw [hpc] at hv
      simp only [Pc.announces, beq_iff_eq] at hv
      exact absurd hv.symm (hwoken htable (by simp [hu]))
    | acquire c hpc | sleepTable c hpc | sleepRelease c hpc | sleepSched c hpc =>
      rw [hpc] at hv; cases hv
    | refused n hpc | empty n hpc | ready n hpc | closing w hpc | wrote addr hpc | read n addr hpc
        | closed w hpc
      | last w hpc | kfree hpc => rw [hpc] at hv; cases hv
  · cases hn.other hvt with
    | inl hsame => exact .inl (hsame ▸ hv)
    | inr hwake =>
      obtain ⟨-, ch, hpc⟩ := hwake
      rw [hpc, woken_of_holdsLock ch (holdsLock_of_announces hv)]
      exact .inl hv

theorem Next.sleeps (hn : Next s t s' es) (hl : Locks s) (hk : ∀ u, (s.pc u).Knows s.pipe)
    (h : Sleeps s evs) : Sleeps s' (evs ++ es) := by
  intro u c hu
  by_cases hut : u = t
  · subst hut
    cases hn with
    | sleepRelease c' hpc =>
      have hknows := hk u
      rw [hpc] at hknows
      simp only [State.goto, Function.update_self, Pc.sleeps?, Option.some.injEq] at hu
      exact .inl (hu ▸ hknows.2)
    | sleepSched c' hpc =>
      simp only [State.goto, Function.update_self, Pc.sleeps?, Option.some.injEq] at hu
      subst hu
      rcases h u c' (by rw [hpc]; rfl) with hwaits | ⟨v, hv⟩ | hcut
      · exact .inl hwaits
      · have hne : v ≠ u := fun heq => by rw [heq, hpc] at hv; cases hv
        exact .inr (.inl ⟨v, by simpa only [State.goto, Function.update_of_ne hne] using hv⟩)
      · exact .inr (.inr ⟨hcut.1, hcut.2.append⟩)
    | _ => simp [State.goto, Pc.sleeps?] at hu
  · have hbefore : (s.pc u).sleeps? = some c := by
      cases hn.other hut with
      | inl hsame => rwa [hsame] at hu
      | inr hwake =>
        obtain ⟨-, ch, hpc⟩ := hwake
        exact sleeps_of_woken (hpc ▸ hu)
    rcases h u c hbefore with hwaits | ⟨v, hv⟩ | hcut
    · cases hn.waits hwaits with
      | inl hstill => exact .inl hstill
      | inr hann => exact .inr (.inl ⟨t, hann⟩)
    · have hword : (s'.pc v).announces c.chan = true ∨ c.writable = false ∧ Cut (evs ++ es) :=
        hn.announces hl hv hut hu
      cases hword with
      | inl hann => exact .inr (.inl ⟨v, hann⟩)
      | inr hcut => exact .inr (.inr hcut)
    · exact .inr (.inr ⟨hcut.1, hcut.2.append⟩)

end Sleeps

section Returns

variable {T : Type}

/-- What the value that a call returned says. -/
def Event.Ok (s : State T) : Event T → Prop
  | put .. | got .. => True
  | wrote t addr i r => i = addr.length ∧ r = addr.length ∨
    i < addr.length ∧ r = -1 ∧ (s.pipe.readopen = false ∨ s.killed t = true)
  | read t n addr r => addr.length ≤ n ∧
    (r = addr.length ∧ (addr = [] → 0 < n → s.pipe.empty = true ∧ s.pipe.writeopen = false) ∨
      addr = [] ∧ r = -1 ∧ s.killed t = true)

variable {s s' : State T} {t : T} {e : Event T}

theorem Event.Ok.mono (h : e.Ok s) (hread : s.pipe.readopen = false → s'.pipe.readopen = false)
    (hkilled : ∀ t, s.killed t = true → s'.killed t = true)
    (hend : s.pipe.empty = true ∧ s.pipe.writeopen = false → s'.pipe.empty = true ∧
      s'.pipe.writeopen = false) :
    e.Ok s' := by
  cases e with
  | put | got => trivial
  | wrote t addr i r =>
    rcases h with hall | ⟨hi, hr, hwhy⟩
    · exact .inl hall
    · exact .inr ⟨hi, hr, hwhy.imp hread (hkilled t)⟩
  | read t n addr r =>
    obtain ⟨hlen, h⟩ := h
    rcases h with ⟨hr, hnil⟩ | ⟨hnil, hr, hk⟩
    · exact ⟨hlen, .inl ⟨hr, fun h0 hn => hend (hnil h0 hn)⟩⟩
    · exact ⟨hlen, .inr ⟨hnil, hr, hkilled t hk⟩⟩

variable [DecidableEq T] {es : List (Event T)}

theorem Next.event_ok (hn : Next s t s' es) (hk : (s.pc t).Knows s.pipe) : ∀ e ∈ es, e.Ok s' := by
  cases hn with
  | cut addr i hpc hi hfull hwhy =>
    intro e he
    obtain rfl := List.mem_singleton.mp he
    exact .inr ⟨hi, rfl, hwhy⟩
  | refused n hpc hkilled =>
    intro e he
    obtain rfl := List.mem_singleton.mp he
    exact ⟨Nat.zero_le n, .inr ⟨rfl, rfl, hkilled⟩⟩
  | wrote addr hpc =>
    intro e he
    obtain rfl := List.mem_singleton.mp he
    exact .inl ⟨rfl, rfl⟩
  | read n addr hpc =>
    intro e he
    obtain rfl := List.mem_singleton.mp he
    rw [hpc] at hk
    exact ⟨hk.1, .inl ⟨rfl, hk.2⟩⟩
  | put | got =>
    intro e he
    obtain rfl := List.mem_singleton.mp he
    trivial
  | _ => exact fun e he => absurd he List.not_mem_nil

/-- A closed end stays closed, and after the end of the file nothing comes. -/
theorem Next.mono [Fintype T] (hn : Next s t s' es) (h : Ends s) :
    (s.pipe.readopen = false → s'.pipe.readopen = false) ∧
    (∀ u, s.killed u = true → s'.killed u = true) ∧
      (s.pipe.empty = true ∧ s.pipe.writeopen = false → s'.pipe.empty = true ∧
        s'.pipe.writeopen = false) := by
  cases hn with
  | put addr i b hpc =>
    have hopen : s.pipe.writeopen = true := h.opened_of_call (w := true) (t := t) (by rw [hpc]; rfl)
    exact ⟨id, fun _ => id, fun hend => by simp [hopen] at hend⟩
  | got n addr hpc hlt hsome => exact ⟨id, fun _ => id, fun hend => by simp [hsome] at hend⟩
  | closing w hpc =>
    cases w with
    | true => exact ⟨id, fun _ => id, fun hend => ⟨hend.1, rfl⟩⟩
    | false => exact ⟨fun _ => rfl, fun _ => id, id⟩
  | _ => exact ⟨id, fun _ => id, id⟩

end Returns

section Inv

variable {T : Type} [DecidableEq T] [Fintype T]

structure Inv (s : State T) (evs : List (Event T)) : Prop where
  locks : Locks s
  known : ∀ u, (s.pc u).Knows s.pipe
  queued : Queued s evs
  ledger : ∀ u, Ledger s evs u
  ends : Ends s
  sleeps : Sleeps s evs
  events : ∀ e ∈ evs, e.Ok s

variable {s s' : State T} {a : Action T} {es evs : List (Event T)} {t : T}

theorem Next.inv (hn : Next s t s' es) (h : Inv s evs) : Inv s' (evs ++ es) where
  locks := hn.locks h.locks
  known := hn.known h.locks h.known
  queued := hn.queued h.queued
  ledger := fun u => hn.ledger (h.ledger u)
  ends := hn.ends h.locks h.ends
  sleeps := hn.sleeps h.locks h.known h.sleeps
  events := by
    obtain ⟨hread, hkilled, hend⟩ := hn.mono h.ends
    intro e he
    cases List.mem_append.mp he with
    | inl hold => exact (h.events e hold).mono hread hkilled hend
    | inr hnew => exact hn.event_ok (h.known t) e hnew

/-- A process is at another place and neither the pipe nor the other processes notice. -/
structure Alike (p p' : Pc) : Prop where
  lock : p'.holdsLock = p.holdsLock
  table : p'.holdsTable = p.holdsTable
  known : ∀ q, p.Knows q → p'.Knows q
  put : p'.putSoFar = p.putSoFar
  got : p'.gotSoFar = p.gotSoFar
  sleeps : ∀ c, p'.sleeps? = some c → p.sleeps? = some c
  announces : ∀ ch, p'.announces ch = p.announces ch

theorem Alike.refl (p : Pc) : Alike p p :=
  ⟨rfl, rfl, fun _ => id, rfl, rfl, fun _ => id, fun _ => rfl⟩

omit [Fintype T] in
theorem Alike.update {p : Pc} (h : Alike (s.pc t) p) (u : T) :
    Alike (s.pc u) (Function.update s.pc t p u) := by
  by_cases hu : u = t
  · subst hu
    rwa [Function.update_self]
  · rw [Function.update_of_ne hu]
    exact Alike.refl _

theorem alike_killed (p : Pc) : Alike p p.killed where
  lock := killed_holdsLock p
  table := killed_holdsTable p
  known := fun q => (knows_killed q p).mpr
  put := putSoFar_killed p
  got := gotSoFar_killed p
  sleeps := fun c hc => by
    cases p <;> first | exact hc | cases hc
  announces := fun ch => by cases p <;> rfl

/-- Actions that are no step of a call. -/
theorem Inv.outside (h : Inv s evs) (hends : Ends s') (hpipe : s'.pipe = s.pipe)
    (hlock : s'.lock = s.lock)
    (htable : s'.table = s.table) (hkilled : ∀ u, s.killed u = true → s'.killed u = true)
    (hpc : ∀ u, Alike (s.pc u) (s'.pc u)) : Inv s' (evs ++ []) := by
  rw [List.append_nil]
  refine ⟨⟨?_, ?_⟩, fun u => ?_, ?_, fun u => ?_, hends, fun u c hu => ?_, fun e he => ?_⟩
  · rw [hlock]
    exact h.locks.lock.congr fun u => (hpc u).lock
  · rw [htable]
    exact h.locks.table.congr fun u => (hpc u).table
  · rw [hpipe]
    exact (hpc u).known _ (h.known u)
  · rw [Queued, hpipe]
    exact h.queued
  · exact ⟨by rw [(h.ledger u).put, (hpc u).put], by rw [(h.ledger u).got, (hpc u).got]⟩
  · rw [hpipe]
    rcases h.sleeps u c ((hpc u).sleeps c hu) with hwaits | ⟨v, hv⟩ | hcut
    · exact .inl hwaits
    · exact .inr (.inl ⟨v, ((hpc v).announces c.chan).trans hv⟩)
    · exact .inr (.inr hcut)
  · exact (h.events e he).mono (fun hf => hpipe ▸ hf) hkilled (fun hf => hpipe ▸ hf)

theorem Inv.step (h : Inv s evs) (hs : step s a = some (s', es)) : Inv s' (evs ++ es) := by
  have hm := step_moves hs
  have hends := hm.ends h.locks h.ends
  cases hm with
  | run t hnext => exact hnext.inv h
  | write t addr hpc =>
    have halike : Alike (s.pc t) (.acquire (.write addr 0)) := by
      rw [hpc]
      exact ⟨rfl, rfl, fun _ _ => Nat.zero_le _, rfl, rfl, fun _ hc => (by cases hc), fun _ => rfl⟩
    exact h.outside hends rfl rfl rfl (fun _ => id) halike.update
  | read t n hpc =>
    have halike : Alike (s.pc t) (.acquire (.read n)) := by
      rw [hpc]
      exact ⟨rfl, rfl, fun _ _ => trivial, rfl, rfl, fun _ hc => (by cases hc), fun _ => rfl⟩
    exact h.outside hends rfl rfl rfl (fun _ => id) halike.update
  | last t w hpc =>
    have halike : Alike (s.pc t) (.closing w) := by
      rw [hpc]
      exact ⟨rfl, rfl, fun _ _ => trivial, rfl, rfl, fun _ hc => (by cases hc), fun _ => rfl⟩
    exact h.outside hends rfl rfl rfl (fun _ => id) halike.update
  | filedup w | fileclose t w =>
    exact h.outside hends rfl rfl rfl (fun _ => id) fun u => Alike.refl _
  | kill t htable =>
    refine h.outside hends rfl rfl rfl (fun u hu => ?_) (alike_killed (s.pc t)).update
    by_cases hut : u = t
    · simp [hut]
    · simpa only [Function.update_of_ne hut] using hu

theorem start_inv (page : Nat → Byte) : Inv (start T page) [] where
  locks := ⟨fun t => by simp [start, Pc.holdsLock], fun t => by simp [start, Pc.holdsTable]⟩
  known := fun u => trivial
  queued := ⟨[], RingHolds.nil (Nat.two_pow_pos 32), rfl⟩
  ledger := fun u => ⟨rfl, rfl⟩
  ends := by
    have hcalls (w : Bool) : (start T page).calls w = ∅ := by simp [State.calls, start, Pc.end?]
    refine ⟨fun w => ?_, fun w _ => ?_, fun t w hpc => ?_, fun t u w hpc => ?_, fun w _ hz => ?_,
      fun t hpc => ?_, fun hf => ?_, fun hclosed => ?_⟩
    · simp [hcalls w]
    · cases w <;> rfl
    · cases hpc
    · cases hpc
    · cases hz
    · cases hpc
    · cases hf
    · exact absurd (hclosed true) (by simp [start, pipealloc, Pipe.isOpen])
  sleeps := fun t c hc => by cases hc
  events := fun e he => absurd he List.not_mem_nil

theorem run_inv {page : Nat → Byte} {acts : List (Action T)}
    (hrun : run (start T page) acts = some (s, evs)) : Inv s evs :=
  runs_invariant (fun h hs => Inv.step h hs) (start_inv page) hrun

/-- The pipe is a queue of at most `PIPESIZE` bytes for all its readers and writers. -/
theorem fifo {page : Nat → Byte} {acts : List (Action T)}
    (hrun : run (start T page) acts = some (s, evs)) :
    bytesPut evs = bytesGot evs ++ s.pipe.contents ∧ s.pipe.contents.length ≤ PIPESIZE ∧
    (∀ t, Ledger s evs t) ∧
      (∀ t addr i r, .wrote t addr i r ∈ evs → i = addr.length ∧ r = addr.length ∨
        i < addr.length ∧ r = -1 ∧ (s.pipe.readopen = false ∨ s.killed t = true)) ∧
      ∀ t n addr r, .read t n addr r ∈ evs → addr.length ≤ n ∧
        (r = addr.length ∧
          (addr = [] → 0 < n → bytesPut evs = bytesGot evs ∧ s.pipe.writeopen = false) ∨
          addr = [] ∧ r = -1 ∧ s.killed t = true) := by
  have h := run_inv hrun
  obtain ⟨q, hring, hbytes⟩ := h.queued
  have hcontents : s.pipe.contents = q := hring.contents pipesize_lt
  rw [hcontents]
  refine ⟨hbytes, hring.room, h.ledger, fun t addr i r hmem => h.events _ hmem,
    fun t n addr r hmem => ?_⟩
  obtain ⟨hlen, hok⟩ := h.events _ hmem
  refine ⟨hlen, hok.imp_left fun hdone => ⟨hdone.1, fun hnil hn => ?_⟩⟩
  obtain ⟨hempty, hclosed⟩ := hdone.2 hnil hn
  have hq : q = [] := (empty_iff hring).mp hempty
  rw [hq, List.append_nil] at hbytes
  exact ⟨hbytes, hclosed⟩

/-- Process `true` writes three bytes and `false` reads two of them. -/
def handed : List (Action Bool) :=
  [.write true [1, 2, 3], .read false 2] ++ List.replicate 7 (.run true) ++ List.replicate 7
    (.run false)

theorem fifo_handed : ∃ r, run (start Bool fun _ => 0) handed = some r ∧ r.1.pipe.contents = [3] ∧
    bytesPut r.2 = bytesGot r.2 ++ r.1.pipe.contents := by
  obtain ⟨r, hr, hcontents⟩ : ∃ r, run (start Bool fun _ => 0) handed = some r ∧
      r.1.pipe.contents = [3] :=
    ⟨_, Option.some_get (by decide +kernel) |>.symm, by decide +kernel⟩
  exact ⟨r, hr, hcontents, (fifo hr).1⟩

omit [Fintype T] in
/-- A process that is where it can be blocked, and is not. -/
theorem resume_isSome (huser : s.pc t ≠ .user) (hasleep : ∀ c, s.pc t ≠ .asleep c)
    (hlock : (s.pc t).holdsLock = false → s.lock = none)
    (htable : (s.pc t).holdsTable = false → s.table = none) : (resume s t).isSome = true := by
  cases hpc : s.pc t with
  | user => exact absurd hpc huser
  | asleep c => exact absurd hpc (hasleep c)
  | acquire c | closing w =>
    have hfree := hlock (by rw [hpc]; rfl)
    simp [resume, hpc, hfree]
  | wakeReaders addr i | sleepTable c | wakeup d =>
    have hfree := htable (by rw [hpc]; rfl)
    simp [resume, hpc, hfree]
  | sleepRelease c | sleepSched c | kfree => simp [resume, hpc]
  | loop c =>
    cases c with
    | write addr i =>
      simp only [resume, hpc]
      cases addr[i]? with
      | none => rfl
      | some b =>
        simp only
        split
        · split <;> rfl
        · rfl
    | read n =>
      simp only [resume, hpc]
      split
      · split <;> rfl
      · rfl
  | copy n addr =>
    simp only [resume, hpc]
    split <;> rfl
  | release d =>
    cases d with
    | write addr | read n addr => simp [resume, hpc]
    | close w =>
      simp only [resume, hpc]
      split <;> rfl

omit [Fintype T] in
/-- Whoever holds `ptable.lock`, or else the lock of the pipe, can go on. -/
theorem Locks.progress (h : Locks s) (huser : s.pc t ≠ .user) (hasleep : ∀ c, s.pc t ≠ .asleep c) :
    ∃ u, (resume s u).isSome = true := by
  have hawake {u : T} (hholds : (s.pc u).holdsLock = true ∨ (s.pc u).holdsTable = true) :
      s.pc u ≠ .user ∧ ∀ c, s.pc u ≠ .asleep c := by
    constructor
    · intro hpc
      rw [hpc] at hholds
      simp [Pc.holdsLock, Pc.holdsTable] at hholds
    · intro c hpc
      rw [hpc] at hholds
      simp [Pc.holdsLock, Pc.holdsTable] at hholds
  cases htable : s.table with
  | some u =>
    have hholds := (h.table u).mp htable
    refine ⟨u, ?_⟩
    cases hpc : s.pc u with
    | sleepRelease c | sleepSched c => simp [resume, hpc]
    | _ => rw [hpc] at hholds; cases hholds
  | none =>
    cases hlock : s.lock with
    | some u =>
      have hholds := (h.lock u).mp hlock
      obtain ⟨huser', hasleep'⟩ := hawake (.inl hholds)
      exact ⟨u, resume_isSome huser' hasleep' (fun hnot => by rw [hholds] at hnot; cases hnot)
        fun _ => htable⟩
    | none => exact ⟨t, resume_isSome huser hasleep (fun _ => hlock) fun _ => htable⟩

/-- No wakeup is lost but the one that a killed writer leaves out, and the processes
in the pipe do not block each other. -/
theorem sleepers_wait {page : Nat → Byte} {acts : List (Action T)}
    (hrun : run (start T page) acts = some (s, evs)) :
    (s.lock = none → ∀ t c, s.pc t = .asleep c → c.waits s.pipe = true ∨
      c.writable = false ∧ ∃ u addr i, .wrote u addr i (-1) ∈ evs ∧ 0 < i ∧ s.killed u = true) ∧
      ∀ t, s.pc t ≠ .user → (∀ c, s.pc t ≠ .asleep c) → ∃ u, (resume s u).isSome = true := by
  have h := run_inv hrun
  refine ⟨fun hlock t c hpc => ?_, fun t => h.locks.progress⟩
  rcases h.sleeps t c (by rw [hpc]; rfl) with hwaits | ⟨v, hv⟩ | ⟨hreader, u, addr, i, hmem, hi⟩
  · exact .inl hwaits
  · have hholds := holdsLock_of_announces hv
    rw [h.locks.lock.free hlock v] at hholds
    cases hholds
  · have hopen : s.pipe.readopen = true := by
      have hcall : (s.pc t).end? = some c.writable := by rw [hpc]; rfl
      have hend := h.ends.opened_of_call hcall
      rwa [hreader] at hend
    rcases h.events _ hmem with ⟨-, hr⟩ | ⟨-, -, hclosed | hkilled⟩
    · omega
    · rw [hopen] at hclosed
      cases hclosed
    · exact .inr ⟨hreader, u, addr, i, hmem, hi, hkilled⟩

/-- A writer that is alone puts in what there is room for. -/
theorem fill {addr : List Byte} {i k : Nat} {q : List Byte} (hpc : s.pc t = .loop (.write addr i))
    (hring : RingHolds PIPESIZE (2 ^ 32) s.pipe.data s.pipe.nread s.pipe.nwrite q)
    (hroom : q.length + k ≤ PIPESIZE) (hk : i + k ≤ addr.length) :
    ∃ s' es q', run s (List.replicate k (.run t)) = some (s', es) ∧
    s'.pc t = .loop (.write addr (i + k)) ∧
      (∀ u, u ≠ t → s'.pc u = s.pc u) ∧ s'.table = s.table ∧
      RingHolds PIPESIZE (2 ^ 32) s'.pipe.data s'.pipe.nread s'.pipe.nwrite q' ∧
      q'.length = q.length + k := by
  induction k generalizing s i q with
  | zero => exact ⟨s, [], q, rfl, hpc, fun _ _ => rfl, rfl, hring, rfl⟩
  | succ k ih =>
    have hi : i < addr.length := by omega
    have hfull : s.pipe.full = false := by
      have hne : q.length ≠ PIPESIZE := by omega
      exact Bool.eq_false_of_not_eq_true fun hf => hne ((full_iff hring).mp hf)
    have hfirst :
        step s (.run t) =
        some ({ s.goto t (.loop (.write addr (i + 1))) with pipe := s.pipe.put addr[i] },
        [.put t addr[i]]) := by
      simp [step, resume, hpc, List.getElem?_eq_getElem hi, hfull]
    obtain ⟨s', es, q', hrun, hpc', hother, htable, hring', hlen⟩ := @ih
      { s.goto t (.loop (.write addr (i + 1))) with pipe := s.pipe.put addr[i] } (i + 1)
      (q ++ [addr[i]])
      (Function.update_self ..) (hring.put pipesize_dvd (by omega)) (by simp; omega) (by omega)
    refine ⟨s', .put t addr[i] :: es, q', ?_, ?_, fun u hu => ?_, htable, hring', ?_⟩
    · simp only [run] at hrun
      simp [run, List.replicate_succ, runs, hfirst, hrun]
    · rw [hpc', Nat.add_right_comm, Nat.add_assoc]
    · exact (hother u hu).trans (Function.update_of_ne hu ..)
    · rw [hlen, List.length_append, List.length_singleton]
      omega

/-- A writer that is killed in a full pipe returns, and wakes nobody. -/
theorem killed_write {addr : List Byte} {i : Nat} (hpc : s.pc t = .loop (.write addr i))
    (hi : i < addr.length)
    (hfull : s.pipe.full = true) (htable : s.table = none) : runs step s [.kill t, .run t] =
      some ({ s.goto t .user with lock := none, killed := Function.update s.killed t true },
        [.wrote t addr i (-1)]) := by
  simp [runs, step, htable, resume, hpc, State.goto, Pc.killed, hfull, List.getElem?_eq_getElem hi]

/-- Process `false` sleeps in a read and `true` begins to write. -/
def beginning : List (Action Bool) :=
  [.read false 1] ++ List.replicate 5 (.run false) ++
    [.write true (List.replicate 513 7), .run true]

/-- Process `true` fills the pipe and is killed before it can write its last byte. -/
def forgotten : List (Action Bool) :=
  beginning ++ (List.replicate 512 (.run true) ++ [.kill true, .run true])

theorem beginning_runs : ∃ r, run (start Bool fun _ => 0) beginning = some r ∧
    r.1.pc true = .loop (.write (List.replicate 513 7) 0) ∧ r.1.pc false = .asleep (.read 1) ∧
    r.1.table = none ∧
      r.1.pipe.nread = 0 ∧ r.1.pipe.nwrite = 0 :=
  ⟨_, Option.some_get (by decide +kernel) |>.symm, by decide +kernel⟩

theorem forgotten_runs : ∃ r, run (start Bool fun _ => 0) forgotten = some r ∧ r.1.lock = none ∧
    r.1.pc false = .asleep (.read 1) ∧ r.1.pc true = .user ∧ r.1.pipe.full = true := by
  obtain ⟨⟨s₁, evs₁⟩, hrun₁, hpc, hasleep, htable, hread, hwrite⟩ := beginning_runs
  have hring : RingHolds PIPESIZE (2 ^ 32) s₁.pipe.data s₁.pipe.nread s₁.pipe.nwrite [] := by
    rw [hread, hwrite]
    exact RingHolds.nil (Nat.two_pow_pos 32)
  obtain ⟨s₂, evs₂, q, hrun₂, hpc₂, hother, htable₂, hring₂, hlen⟩ :=
    fill (k := 512) hpc hring (Nat.le_refl 512) (by rw [List.length_replicate]; omega)
  have hfull : s₂.pipe.full = true := (full_iff hring₂).mpr hlen
  have hasleep₂ : s₂.pc false = .asleep (.read 1) := (hother false (by decide)).trans hasleep
  have hlast :=
    killed_write hpc₂ (by rw [List.length_replicate]; omega) hfull (htable₂.trans htable)
  refine ⟨_, runs_append hrun₁ (runs_append hrun₂ hlast), rfl, ?_, ?_, hfull⟩
  · simp [State.goto, hasleep₂]
  · simp [State.goto]

/-- The reader is forgotten: it sleeps beside a full pipe. -/
theorem sleepers_wait_forgotten :
    ∃ r, run (start Bool fun _ => 0) forgotten = some r ∧ r.1.lock = none ∧
    r.1.pc false = .asleep (.read 1) ∧ r.1.pc true = .user ∧ r.1.pipe.full = true ∧
      ∃ u addr i, .wrote u addr i (-1) ∈ r.2 ∧ 0 < i ∧ r.1.killed u = true := by
  obtain ⟨r, hr, hlock, hasleep, huser, hfull⟩ := forgotten_runs
  refine ⟨r, hr, hlock, hasleep, huser, hfull, ?_⟩
  cases (sleepers_wait hr).1 hlock false _ hasleep with
  | inl hwaits =>
    obtain ⟨q, hring, -⟩ := (run_inv hr).queued
    simp only [Call.waits, Bool.and_eq_true, empty_iff hring] at hwaits
    have hlen := (full_iff hring).mp hfull
    simp [hwaits.1, PIPESIZE] at hlen
  | inr hcut => exact hcut.2

/-- The page of the pipe is given back when both ends are closed and nobody is in
the pipe, and then nothing can use it. -/
theorem page_freed_iff {page : Nat → Byte} {acts : List (Action T)}
    (hrun : run (start T page) acts = some (s, evs)) :
    (s.freed = true ↔ (∀ w, s.ref w = 0) ∧ ∀ t, s.pc t = .user) ∧
      (s.freed = true → ∀ a s' es, step s a = some (s', es) → ∃ t, a = .kill t) := by
  have h := (run_inv hrun).ends
  have hunused (hfreed : s.freed = true) : (∀ w, s.ref w = 0) ∧ ∀ t, s.pc t = .user := by
    obtain ⟨hclosed, huser⟩ := h.freed hfreed
    refine ⟨fun w => ?_, huser⟩
    have hnot : ¬0 < s.ref w := fun hpos => absurd (h.opened w hpos) (by simp [hclosed w])
    omega
  refine ⟨⟨hunused, fun ⟨hrefs, huser⟩ => ?_⟩, fun hfreed a s' es hs => ?_⟩
  · have hclosed (w : Bool) : s.pipe.isOpen w = false := by
      cases hopen : s.pipe.isOpen w with
      | false => rfl
      | true =>
        obtain ⟨t, ht⟩ := h.pending w hopen (hrefs w)
        rw [huser t] at ht
        cases ht
    cases h.shut hclosed with
    | inl hfreed => exact hfreed
    | inr hshuts =>
      obtain ⟨t, ht⟩ := hshuts
      rw [huser t] at ht
      cases ht
  · obtain ⟨hrefs, huser⟩ := hunused hfreed
    cases step_moves hs with
    | kill t => exact ⟨t, rfl⟩
    | write t addr hpc hroom => rw [hrefs] at hroom; exact absurd hroom (Nat.not_lt_zero _)
    | read t n hpc hroom => rw [hrefs] at hroom; exact absurd hroom (Nat.not_lt_zero _)
    | filedup w href => rw [hrefs] at href; exact absurd href (Nat.not_lt_zero _)
    | last t w hpc hroom => rw [hrefs] at hroom; exact absurd hroom (Nat.not_lt_zero _)
    | fileclose t w hpc hroom => rw [hrefs] at hroom; exact absurd hroom (Nat.not_lt_zero _)
    | run t hnext =>
      have hcannot := hs
      simp [step, resume, huser t] at hcannot

/-- Both ends are closed, the last one by process `false`. -/
def shut : List (Action Bool) :=
  [.fileclose true true, .fileclose false false] ++ List.replicate 3 (.run true) ++ List.replicate 4
    (.run false)

theorem page_freed_iff_shut : ∃ r, run (start Bool fun _ => 0) shut = some r ∧ r.1.freed = true ∧
    ∀ w, r.1.ref w = 0 := by
  obtain ⟨r, hr, hfreed⟩ : ∃ r, run (start Bool fun _ => 0) shut = some r ∧ r.1.freed = true :=
    ⟨_, Option.some_get (by decide +kernel) |>.symm, by decide +kernel⟩
  exact ⟨r, hr, hfreed, ((page_freed_iff hr).1.mp hfreed).1⟩

end Inv

end Cs3650.Xv6.Pipes
