import Cs3650.Xv6.Pipe

/-!
# What holds of a pipe in every interleaving
-/

namespace Cs3650.Xv6.Pipes

open Cs3650.Lib

section Next

variable {T : Type} [DecidableEq T]

/-- What one step of a process can do. -/
inductive Next (s : State T) (t : T) : State T → List (Event T) → Prop
  | acquire (c : Call) (hpc : s.pc t = .acquire c) (hlock : s.lock = none) :
    Next s t { s.goto t (.loop c) with lock := some t } []
  | written (addr : List Byte) (i : Nat) (hpc : s.pc t = .loop (.write addr i))
      (hi : addr[i]? = none) :
    Next s t (s.goto t (.wakeup (.write addr))) []
  | cut (addr : List Byte) (i : Nat) (hpc : s.pc t = .loop (.write addr i)) (hi : i < addr.length)
    (hfull : s.pipe.full = true) (hwhy : s.pipe.readopen = false ∨ s.killed t = true) :
    Next s t { s.goto t .user with lock := none } [.wrote t addr i (-1)]
  | full (addr : List Byte) (i : Nat) (hpc : s.pc t = .loop (.write addr i))
      (hfull : s.pipe.full = true)
    (hopen : s.pipe.readopen = true) : Next s t (s.goto t (.wakeReaders addr i)) []
  | put (addr : List Byte) (i : Nat) (b : Byte) (hpc : s.pc t = .loop (.write addr i))
      (hb : addr[i]? = some b)
    (hroom : s.pipe.full = false) :
    Next s t { s.goto t (.loop (.write addr (i + 1))) with pipe := s.pipe.put b } [.put t b]
  | wakeReaders (addr : List Byte) (i : Nat) (hpc : s.pc t = .wakeReaders addr i)
      (htable : s.table = none) :
    Next s t { s with
      pc := Function.update (fun u => (s.pc u).woken .nread) t (.sleepTable (.write addr i)) } []
  | refused (n : Nat) (hpc : s.pc t = .loop (.read n)) (hkilled : s.killed t = true) :
    Next s t { s.goto t .user with lock := none } [.read t n [] (-1)]
  | empty (n : Nat) (hpc : s.pc t = .loop (.read n)) (hempty : s.pipe.empty = true)
      (hopen : s.pipe.writeopen = true) :
    Next s t (s.goto t (.sleepTable (.read n))) []
  | ready (n : Nat) (hpc : s.pc t = .loop (.read n))
      (hready : ¬(s.pipe.empty = true ∧ s.pipe.writeopen = true)) :
    Next s t (s.goto t (.copy n [])) []
  | got (n : Nat) (addr : List Byte) (hpc : s.pc t = .copy n addr) (hn : addr.length < n)
    (hsome : s.pipe.empty = false) :
    Next s t { s.goto t (.copy n (addr ++ [s.pipe.next])) with pipe := s.pipe.drop }
    [.got t s.pipe.next]
  | copied (n : Nat) (addr : List Byte) (hpc : s.pc t = .copy n addr)
    (hstop : ¬(addr.length < n ∧ s.pipe.empty = false)) :
    Next s t (s.goto t (.wakeup (.read n addr))) []
  | sleepTable (c : Call) (hpc : s.pc t = .sleepTable c) (htable : s.table = none) :
    Next s t { s.goto t (.sleepRelease c) with table := some t } []
  | sleepRelease (c : Call) (hpc : s.pc t = .sleepRelease c) :
    Next s t { s.goto t (.sleepSched c) with lock := none } []
  | sleepSched (c : Call) (hpc : s.pc t = .sleepSched c) :
      Next s t { s.goto t (.asleep c) with table := none } []
  | closing (w : Bool) (hpc : s.pc t = .closing w) (hlock : s.lock = none) :
    Next s t { s.goto t (.wakeup (.close w)) with lock := some t, pipe := s.pipe.close w } []
  | wakeup (d : Done) (hpc : s.pc t = .wakeup d) (htable : s.table = none) :
    Next s t { s with pc := Function.update (fun u => (s.pc u).woken d.chan) t (.release d) } []
  | wrote (addr : List Byte) (hpc : s.pc t = .release (.write addr)) :
    Next s t { s.goto t .user with lock := none } [.wrote t addr addr.length addr.length]
  | read (n : Nat) (addr : List Byte) (hpc : s.pc t = .release (.read n addr)) :
    Next s t { s.goto t .user with lock := none } [.read t n addr addr.length]
  | closed (w : Bool) (hpc : s.pc t = .release (.close w))
    (hopen : ¬(s.pipe.readopen = false ∧ s.pipe.writeopen = false)) :
    Next s t { s.goto t .user with lock := none } []
  | last (w : Bool) (hpc : s.pc t = .release (.close w)) (hread : s.pipe.readopen = false)
    (hwrite : s.pipe.writeopen = false) : Next s t { s.goto t .kfree with lock := none } []
  | kfree (hpc : s.pc t = .kfree) : Next s t { s.goto t .user with freed := true } []

variable {s s' : State T} {t : T} {es : List (Event T)}

theorem next_write {addr : List Byte} {i : Nat} (hpc : s.pc t = .loop (.write addr i))
    (hs : resume s t = some (s', es)) : Next s t s' es := by
  simp only [resume, hpc] at hs
  cases hi : addr[i]? with
  | none =>
    simp only [hi, Option.some.injEq, Prod.mk.injEq] at hs
    obtain ⟨rfl, rfl⟩ := hs
    exact .written addr i hpc hi
  | some b =>
    simp only [hi] at hs
    split at hs
    · next hfull =>
      split at hs
      · next hwhy =>
        simp only [Option.some.injEq, Prod.mk.injEq] at hs
        obtain ⟨rfl, rfl⟩ := hs
        exact .cut addr i hpc (List.getElem?_eq_some_iff.mp hi).1 hfull hwhy
      · next hwhy =>
        simp only [Option.some.injEq, Prod.mk.injEq] at hs
        obtain ⟨rfl, rfl⟩ := hs
        simp only [not_or, Bool.not_eq_false] at hwhy
        exact .full addr i hpc hfull hwhy.1
    · next hfull =>
      simp only [Option.some.injEq, Prod.mk.injEq] at hs
      obtain ⟨rfl, rfl⟩ := hs
      exact .put addr i b hpc hi (Bool.eq_false_of_not_eq_true hfull)

theorem next_read {n : Nat} (hpc : s.pc t = .loop (.read n)) (hs : resume s t = some (s', es)) :
    Next s t s' es := by
  simp only [resume, hpc] at hs
  split at hs
  · next hwait =>
    split at hs
    · next hkilled =>
      simp only [Option.some.injEq, Prod.mk.injEq] at hs
      obtain ⟨rfl, rfl⟩ := hs
      exact .refused n hpc hkilled
    · simp only [Option.some.injEq, Prod.mk.injEq] at hs
      obtain ⟨rfl, rfl⟩ := hs
      exact .empty n hpc hwait.1 hwait.2
  · next hready =>
    simp only [Option.some.injEq, Prod.mk.injEq] at hs
    obtain ⟨rfl, rfl⟩ := hs
    exact .ready n hpc hready

theorem resume_next (hs : resume s t = some (s', es)) : Next s t s' es := by
  cases hpc : s.pc t with
  | user | asleep c => simp [resume, hpc] at hs
  | loop c =>
    cases c with
    | write addr i => exact next_write hpc hs
    | read n => exact next_read hpc hs
  | acquire c =>
    simp only [resume, hpc, Option.ite_none_right_eq_some, Option.some.injEq, Prod.mk.injEq] at hs
    obtain ⟨hlock, rfl, rfl⟩ := hs
    exact .acquire c hpc hlock
  | wakeReaders addr i =>
    simp only [resume, hpc, Option.ite_none_right_eq_some, Option.some.injEq, Prod.mk.injEq] at hs
    obtain ⟨htable, rfl, rfl⟩ := hs
    exact .wakeReaders addr i hpc htable
  | sleepTable c =>
    simp only [resume, hpc, Option.ite_none_right_eq_some, Option.some.injEq, Prod.mk.injEq] at hs
    obtain ⟨htable, rfl, rfl⟩ := hs
    exact .sleepTable c hpc htable
  | sleepRelease c =>
    simp only [resume, hpc, Option.some.injEq, Prod.mk.injEq] at hs
    obtain ⟨rfl, rfl⟩ := hs
    exact .sleepRelease c hpc
  | sleepSched c =>
    simp only [resume, hpc, Option.some.injEq, Prod.mk.injEq] at hs
    obtain ⟨rfl, rfl⟩ := hs
    exact .sleepSched c hpc
  | closing w =>
    simp only [resume, hpc, Option.ite_none_right_eq_some, Option.some.injEq, Prod.mk.injEq] at hs
    obtain ⟨hlock, rfl, rfl⟩ := hs
    exact .closing w hpc hlock
  | wakeup d =>
    simp only [resume, hpc, Option.ite_none_right_eq_some, Option.some.injEq, Prod.mk.injEq] at hs
    obtain ⟨htable, rfl, rfl⟩ := hs
    exact .wakeup d hpc htable
  | kfree =>
    simp only [resume, hpc, Option.some.injEq, Prod.mk.injEq] at hs
    obtain ⟨rfl, rfl⟩ := hs
    exact .kfree hpc
  | copy n addr =>
    simp only [resume, hpc, Bool.not_eq_true] at hs
    split at hs
    · next hmore =>
      simp only [Option.some.injEq, Prod.mk.injEq] at hs
      obtain ⟨rfl, rfl⟩ := hs
      exact .got n addr hpc hmore.1 hmore.2
    · next hstop =>
      simp only [Option.some.injEq, Prod.mk.injEq] at hs
      obtain ⟨rfl, rfl⟩ := hs
      exact .copied n addr hpc hstop
  | release d =>
    cases d with
    | write addr =>
      simp only [resume, hpc, Option.some.injEq, Prod.mk.injEq] at hs
      obtain ⟨rfl, rfl⟩ := hs
      exact .wrote addr hpc
    | read n addr =>
      simp only [resume, hpc, Option.some.injEq, Prod.mk.injEq] at hs
      obtain ⟨rfl, rfl⟩ := hs
      exact .read n addr hpc
    | close w =>
      simp only [resume, hpc] at hs
      split at hs
      · next hboth =>
        simp only [Option.some.injEq, Prod.mk.injEq] at hs
        obtain ⟨rfl, rfl⟩ := hs
        exact .last w hpc hboth.1 hboth.2
      · next hopen =>
        simp only [Option.some.injEq, Prod.mk.injEq] at hs
        obtain ⟨rfl, rfl⟩ := hs
        exact .closed w hpc hopen

/-! ### What a step leaves of the other processes -/

/-- A process that does not move may be woken. -/
theorem Next.other (h : Next s t s' es) {u : T} (hu : u ≠ t) :
    s'.pc u = s.pc u ∨ s.table = none ∧ ∃ ch, s'.pc u = (s.pc u).woken ch := by
  cases h with
  | wakeReaders addr i hpc htable =>
    exact .inr ⟨htable, .nread, by simp only [Function.update_of_ne hu]⟩
  | wakeup d hpc htable => exact .inr ⟨htable, d.chan, by simp only [Function.update_of_ne hu]⟩
  | _ => exact .inl (Function.update_of_ne hu ..)

end Next

section Locks

/-- Where `p->lock` is held. -/
def Pc.holdsLock : Pc → Bool
  | loop _ | wakeReaders .. | sleepTable _ | sleepRelease _ | copy .. | wakeup _ | release _ => true
  | user | acquire _ | sleepSched _ | asleep _ | closing _ | kfree => false

/-- Where `ptable.lock` is held. -/
def Pc.holdsTable : Pc → Bool
  | sleepRelease _ | sleepSched _ => true
  | _ => false

@[simp] theorem woken_holdsLock (ch : Chan) (p : Pc) : (p.woken ch).holdsLock = p.holdsLock := by
  cases p <;> try rfl
  simp only [Pc.woken]
  split <;> rfl

@[simp] theorem woken_holdsTable (ch : Chan) (p : Pc) : (p.woken ch).holdsTable = p.holdsTable := by
  cases p <;> try rfl
  simp only [Pc.woken]
  split <;> rfl

@[simp] theorem woken_end (ch : Chan) (p : Pc) : (p.woken ch).end? = p.end? := by
  cases p <;> try rfl
  simp only [Pc.woken]
  split <;> rfl

theorem woken_of_holdsLock (ch : Chan) {p : Pc} (h : p.holdsLock = true) : p.woken ch = p := by
  cases p <;> first | rfl | cases h

variable {T : Type} {s s' : State T} {t : T} {es : List (Event T)}

structure Locks (s : State T) : Prop where
  lock : HeldAt Pc.holdsLock s.lock s.pc
  table : HeldAt Pc.holdsTable s.table s.pc

variable [DecidableEq T]

/-- A process that holds `p->lock` wakes others and goes on with the lock. -/
theorem Locks.wakeup (h : Locks s) {p : Pc} (ch : Chan) (hholds : (s.pc t).holdsLock = true)
    (htable : (s.pc t).holdsTable = false) (hp : p.holdsLock = true) (hp' : p.holdsTable = false) :
    Locks { s with pc := Function.update (fun u => (s.pc u).woken ch) t p } where
  lock := (h.lock.congr fun u => woken_holdsLock ch (s.pc u)).keep (by simp [hp, hholds])
  table := (h.table.congr fun u => woken_holdsTable ch (s.pc u)).keep (by simp [hp', htable])

theorem Next.locks (hn : Next s t s' es) (h : Locks s) : Locks s' := by
  cases hn with
  | acquire c hpc hlock => exact ⟨h.lock.acquire hlock rfl, h.table.keep (by rw [hpc]; rfl)⟩
  | closing w hpc hlock => exact ⟨h.lock.acquire hlock rfl, h.table.keep (by rw [hpc]; rfl)⟩
  | sleepTable c hpc htable => exact ⟨h.lock.keep (by rw [hpc]; rfl), h.table.acquire htable rfl⟩
  | sleepRelease c hpc =>
    exact ⟨h.lock.release (by rw [hpc]; rfl) rfl, h.table.keep (by rw [hpc]; rfl)⟩
  | sleepSched c hpc =>
    exact ⟨h.lock.keep (by rw [hpc]; rfl), h.table.release (by rw [hpc]; rfl) rfl⟩
  | wakeReaders addr i hpc => exact h.wakeup .nread (by rw [hpc]; rfl) (by rw [hpc]; rfl) rfl rfl
  | wakeup d hpc => exact h.wakeup d.chan (by rw [hpc]; rfl) (by rw [hpc]; rfl) rfl rfl
  | written addr i hpc | full addr i hpc | put addr i b hpc | ready n hpc | copied n addr hpc
      | empty n hpc
    | got n addr hpc | kfree hpc =>
    exact ⟨h.lock.keep (by rw [hpc]; rfl), h.table.keep (by rw [hpc]; rfl)⟩
  | cut addr i hpc | refused n hpc | wrote addr hpc | read n addr hpc | closed w hpc | last w hpc =>
    exact ⟨h.lock.release (by rw [hpc]; rfl) rfl, h.table.keep (by rw [hpc]; rfl)⟩

/-- While a process holds the lock, the others leave the pipe as it is. -/
theorem Next.pipe_of_holds (hn : Next s t s' es) (h : Locks s) {u : T} (hu : u ≠ t)
    (hholds : (s.pc u).holdsLock = true) : s'.pipe = s.pipe := by
  have hother := h.lock.other hholds hu.symm
  cases hn with
  | put addr i b hpc => rw [hpc] at hother; cases hother
  | got n addr hpc => rw [hpc] at hother; cases hother
  | closing w hpc hlock => rw [h.lock.free hlock u] at hholds; cases hholds
  | _ => rfl

end Locks

section Known

/-- The condition of the loop in which the call sleeps. -/
def Call.waits (p : Pipe) : Call → Bool
  | write .. => p.full && p.readopen
  | read _ => p.empty && p.writeopen

def Call.Bounded : Call → Prop
  | write addr i => i ≤ addr.length
  | read _ => True

/-- What a process knows of the pipe from where it stands. -/
def Pc.Knows (p : Pipe) : Pc → Prop
  | acquire c | sleepSched c | asleep c | loop c => c.Bounded
  | wakeReaders addr i => i ≤ addr.length ∧ p.full = true ∧ p.readopen = true
  | sleepTable c | sleepRelease c => c.Bounded ∧ c.waits p = true
  | copy n addr => addr.length ≤ n ∧ (addr = [] → p.empty = true → p.writeopen = false)
  | wakeup (.read n addr) | release (.read n addr) =>
    addr.length ≤ n ∧ (addr = [] → 0 < n → p.empty = true ∧ p.writeopen = false)
  | wakeup (.close w) | release (.close w) => p.isOpen w = false
  | wakeup (.write _) | release (.write _) | user | closing _ | kfree => True

theorem knows_woken (q : Pipe) (ch : Chan) (p : Pc) : (p.woken ch).Knows q ↔ p.Knows q := by
  cases p <;> try rfl
  simp only [Pc.woken]
  split <;> rfl

theorem knows_congr {p : Pc} (h : p.holdsLock = false) (q q' : Pipe) : p.Knows q ↔ p.Knows q' := by
  cases p <;> first | rfl | cases h

@[simp] theorem isOpen_close (p : Pipe) (w : Bool) : (p.close w).isOpen w = false := by
  cases w <;> rfl

variable {T : Type} [DecidableEq T] {s s' : State T} {t : T} {es : List (Event T)}

theorem Next.knows_self (hn : Next s t s' es) (h : (s.pc t).Knows s.pipe) :
    (s'.pc t).Knows s'.pipe := by
  cases hn with
  | acquire c hpc | sleepTable c hpc | sleepSched c hpc =>
    rw [hpc] at h
    simp only [State.goto, Function.update_self]
    exact h
  | sleepRelease c hpc =>
    rw [hpc] at h
    simp only [State.goto, Function.update_self]
    exact h.1
  | full addr i hpc hfull hopen =>
    rw [hpc] at h
    simp only [State.goto, Function.update_self]
    exact ⟨h, hfull, hopen⟩
  | put addr i b hpc hb =>
    simp only [State.goto, Function.update_self]
    exact (List.getElem?_eq_some_iff.mp hb).1
  | wakeReaders addr i hpc =>
    rw [hpc] at h
    simpa only [Function.update_self, Pc.Knows, Call.Bounded, Call.waits, Bool.and_eq_true] using h
  | empty n hpc hempty hopen =>
    simpa only [State.goto, Function.update_self, Pc.Knows, Call.Bounded, Call.waits,
      Bool.and_eq_true, true_and] using ⟨hempty, hopen⟩
  | ready n hpc hready =>
    simp only [State.goto, Function.update_self]
    exact ⟨Nat.zero_le n, fun _ hempty => Bool.eq_false_of_not_eq_true fun hopen =>
      hready ⟨hempty, hopen⟩⟩
  | got n addr hpc hlt =>
    simp only [State.goto, Function.update_self]
    have hlen : (addr ++ [s.pipe.next]).length ≤ n := by
      rw [List.length_append]
      exact hlt
    exact ⟨hlen, fun hnil => by simp at hnil⟩
  | copied n addr hpc hstop =>
    rw [hpc] at h
    simp only [State.goto, Function.update_self]
    refine ⟨h.1, fun hnil hn => ?_⟩
    have hempty : s.pipe.empty = true := by
      cases he : s.pipe.empty with
      | true => rfl
      | false => exact absurd ⟨by simpa [hnil] using hn, he⟩ hstop
    exact ⟨hempty, h.2 hnil hempty⟩
  | closing w hpc =>
    simp only [State.goto, Function.update_self]
    exact isOpen_close s.pipe w
  | wakeup d hpc =>
    rw [hpc] at h
    simp only [Function.update_self]
    cases d <;> exact h
  | written addr i hpc | cut addr i hpc | refused n hpc | wrote addr hpc | read n addr hpc
      | closed w hpc
    | last w hpc | kfree hpc => simp only [State.goto, Function.update_self, Pc.Knows]

theorem Next.known (hn : Next s t s' es) (hl : Locks s) (h : ∀ u, (s.pc u).Knows s.pipe) (u : T) :
    (s'.pc u).Knows s'.pipe := by
  by_cases hu : u = t
  · exact hu ▸ hn.knows_self (h t)
  · have hsame : (s'.pc u).Knows s'.pipe ↔ (s.pc u).Knows s'.pipe := by
      cases hn.other hu with
      | inl hpc => rw [hpc]
      | inr hwoken =>
        obtain ⟨-, ch, hpc⟩ := hwoken
        rw [hpc, knows_woken]
    rw [hsame]
    cases hholds : (s.pc u).holdsLock with
    | true =>
      rw [hn.pipe_of_holds hl hu hholds]
      exact h u
    | false => exact (knows_congr hholds _ _).mpr (h u)

end Known

section Bytes

variable {T : Type}

def Event.put? : Event T → Option Byte
  | put _ b => some b
  | _ => none

def Event.got? : Event T → Option Byte
  | got _ b => some b
  | _ => none

/-- The bytes that went into the pipe, in this order. -/
def bytesPut (evs : List (Event T)) : List Byte := evs.filterMap Event.put?

/-- The bytes that came out of the pipe, in this order. -/
def bytesGot (evs : List (Event T)) : List Byte := evs.filterMap Event.got?

/-- What went in and has not come out is in the pipe. -/
def Queued (s : State T) (evs : List (Event T)) : Prop :=
  ∃ q, RingHolds PIPESIZE (2 ^ 32) s.pipe.data s.pipe.nread s.pipe.nwrite q ∧
    bytesPut evs = bytesGot evs ++ q

theorem pipesize_lt : PIPESIZE < 2 ^ 32 := by decide

theorem pipesize_dvd : PIPESIZE ∣ 2 ^ 32 := ⟨2 ^ 23, by decide⟩

variable {p : Pipe} {q : List Byte}

theorem empty_iff (h : RingHolds PIPESIZE (2 ^ 32) p.data p.nread p.nwrite q) :
    p.empty = true ↔ q = [] := by
  rw [← h.empty_iff pipesize_lt, Pipe.empty, beq_iff_eq]

theorem full_iff (h : RingHolds PIPESIZE (2 ^ 32) p.data p.nread p.nwrite q) :
    p.full = true ↔ q.length = PIPESIZE := by
  rw [← h.full_iff pipesize_lt, Pipe.full, beq_iff_eq, uint]

variable [DecidableEq T] {s s' : State T} {t : T} {es evs : List (Event T)}

theorem Next.queued (hn : Next s t s' es) (h : Queued s evs) : Queued s' (evs ++ es) := by
  obtain ⟨q, hring, hbytes⟩ := h
  cases hn with
  | put addr i b hpc hb hroom =>
    have hlen : q.length < PIPESIZE := by
      have hne : q.length ≠ PIPESIZE := fun heq => by simp [(full_iff hring).mpr heq] at hroom
      have hle := hring.room
      omega
    refine ⟨q ++ [b], hring.put pipesize_dvd hlen, ?_⟩
    simp only [bytesPut, bytesGot, List.filterMap_append, List.filterMap_cons,
      List.filterMap_nil, Event.put?, Event.got?, List.append_nil] at hbytes ⊢
    rw [hbytes, List.append_assoc]
  | got n addr hpc hn hsome =>
    cases q with
    | nil => simp [(empty_iff hring).mpr rfl] at hsome
    | cons b q =>
      have hb : s.pipe.next = b := hring.head
      refine ⟨q, hring.take, ?_⟩
      simp only [bytesPut, bytesGot, List.filterMap_append, List.filterMap_cons,
        List.filterMap_nil, Event.put?, Event.got?, List.append_nil, hb] at hbytes ⊢
      rw [hbytes, List.append_assoc, List.singleton_append]
  | closing w hpc =>
    refine ⟨q, ?_, by simpa using hbytes⟩
    cases w <;> exact hring
  | cut | refused | wrote | read =>
    refine ⟨q, hring, ?_⟩
    simpa only [bytesPut, bytesGot, List.filterMap_append, List.filterMap_cons,
      List.filterMap_nil, Event.put?, Event.got?, List.append_nil] using hbytes
  | _ => exact ⟨q, hring, by simpa using hbytes⟩

end Bytes

/-! ### The bytes of each process -/

section Ledger

variable {T : Type} [DecidableEq T]

def Event.putBy? (t : T) : Event T → Option Byte
  | put u b => if u = t then some b else none
  | _ => none

def Event.gotBy? (t : T) : Event T → Option Byte
  | got u b => if u = t then some b else none
  | _ => none

/-- The part of the buffer that a write of `t` put in before it returned. -/
def Event.wroteBy (t : T) : Event T → List Byte
  | wrote u addr i _ => if u = t then addr.take i else []
  | _ => []

def Event.readBy (t : T) : Event T → List Byte
  | read u _ addr _ => if u = t then addr else []
  | _ => []

/-- What the write under way has put in. -/
def Pc.putSoFar : Pc → List Byte
  | acquire (.write addr i) | loop (.write addr i) | sleepTable (.write addr i)
  | sleepRelease (.write addr i)
  | sleepSched (.write addr i) | asleep (.write addr i) | wakeReaders addr i => addr.take i
  | wakeup (.write addr) | release (.write addr) => addr
  | _ => []

/-- What the read under way has taken out. -/
def Pc.gotSoFar : Pc → List Byte
  | copy _ addr | wakeup (.read _ addr) | release (.read _ addr) => addr
  | _ => []

/-- The bytes of a process are those of its calls. -/
structure Ledger (s : State T) (evs : List (Event T)) (t : T) : Prop where
  put : evs.filterMap (Event.putBy? t) = evs.flatMap (Event.wroteBy t) ++ (s.pc t).putSoFar
  got : evs.filterMap (Event.gotBy? t) = evs.flatMap (Event.readBy t) ++ (s.pc t).gotSoFar

theorem putSoFar_woken (ch : Chan) (p : Pc) : (p.woken ch).putSoFar = p.putSoFar := by
  cases p <;> try rfl
  case asleep c =>
    simp only [Pc.woken]
    split
    · cases c <;> rfl
    · rfl

theorem gotSoFar_woken (ch : Chan) (p : Pc) : (p.woken ch).gotSoFar = p.gotSoFar := by
  cases p <;> try rfl
  simp only [Pc.woken]
  split <;> rfl

variable {s s' : State T} {t u : T} {es evs : List (Event T)}

/-- A step without a byte and without a return. -/
theorem Ledger.silent (h : Ledger s evs t) (hput : (s'.pc t).putSoFar = (s.pc t).putSoFar)
    (hgot : (s'.pc t).gotSoFar = (s.pc t).gotSoFar) : Ledger s' (evs ++ []) t := by
  rw [List.append_nil]
  exact ⟨by rw [h.put, hput], by rw [h.got, hgot]⟩

theorem Next.ledger_self (hn : Next s t s' es) (h : Ledger s evs t) : Ledger s' (evs ++ es) t := by
  have hput := h.put
  have hgot := h.got
  cases hn with
  | acquire c hpc | sleepTable c hpc | sleepRelease c hpc | sleepSched c hpc =>
    exact h.silent (by cases c <;> simp [State.goto, hpc, Pc.putSoFar])
      (by simp [State.goto, hpc, Pc.gotSoFar])
  | written addr i hpc hi =>
    have hall : addr.take i = addr := List.take_of_length_le (List.getElem?_eq_none_iff.mp hi)
    exact h.silent (by simp [State.goto, hpc, Pc.putSoFar, hall])
      (by simp [State.goto, hpc, Pc.gotSoFar])
  | wakeup d hpc =>
    exact h.silent (by cases d <;> simp [hpc, Pc.putSoFar]) (by cases d <;> simp [hpc, Pc.gotSoFar])
  | full addr i hpc | wakeReaders addr i hpc | empty n hpc | ready n hpc | copied n addr hpc
      | closing w hpc
    | closed w hpc | last w hpc | kfree hpc =>
    exact h.silent (by simp [State.goto, hpc, Pc.putSoFar]) (by simp [State.goto, hpc, Pc.gotSoFar])
  | put addr i b hpc hb =>
    rw [hpc] at hput hgot
    constructor
    · simp only [State.goto, Function.update_self, List.filterMap_append, List.flatMap_append, hput,
        Pc.putSoFar, List.take_add_one, hb]
      simp [Event.putBy?, Event.wroteBy]
    · simp only [State.goto, Function.update_self, List.filterMap_append, List.flatMap_append, hgot,
        Pc.gotSoFar]
      simp [Event.gotBy?, Event.readBy]
  | got n addr hpc =>
    rw [hpc] at hput hgot
    constructor
    · simp only [State.goto, Function.update_self, List.filterMap_append, List.flatMap_append, hput,
        Pc.putSoFar]
      simp [Event.putBy?, Event.wroteBy]
    · simp only [State.goto, Function.update_self, List.filterMap_append, List.flatMap_append, hgot,
        Pc.gotSoFar]
      simp [Event.gotBy?, Event.readBy]
  | cut addr i hpc | refused n hpc | wrote addr hpc | read n addr hpc =>
    rw [hpc] at hput hgot
    constructor
    · simp only [State.goto, Function.update_self, List.filterMap_append, List.flatMap_append, hput,
        Pc.putSoFar]
      simp [Event.putBy?, Event.wroteBy]
    · simp only [State.goto, Function.update_self, List.filterMap_append, List.flatMap_append, hgot,
        Pc.gotSoFar]
      simp [Event.gotBy?, Event.readBy]

/-- A step makes bytes and returns of one process only. -/
theorem Next.ledger (hn : Next s t s' es) (h : Ledger s evs u) : Ledger s' (evs ++ es) u := by
  by_cases hu : u = t
  · subst hu
    exact hn.ledger_self h
  · have hut : ¬t = u := fun heq => hu heq.symm
    have hes : es.filterMap (Event.putBy? u) = [] ∧ es.flatMap (Event.wroteBy u) = [] ∧
        es.filterMap (Event.gotBy? u) = [] ∧ es.flatMap (Event.readBy u) = [] := by
      cases hn <;> simp [Event.putBy?, Event.wroteBy, Event.gotBy?, Event.readBy, hut]
    have hpc : (s'.pc u).putSoFar = (s.pc u).putSoFar ∧ (s'.pc u).gotSoFar = (s.pc u).gotSoFar := by
      cases hn.other hu with
      | inl hsame => rw [hsame]; exact ⟨rfl, rfl⟩
      | inr hwoken =>
        obtain ⟨-, ch, hpc⟩ := hwoken
        rw [hpc]
        exact ⟨putSoFar_woken ch _, gotSoFar_woken ch _⟩
    constructor
    · rw [List.filterMap_append, List.flatMap_append, hes.1, hes.2.1, hpc.1, List.append_nil,
        List.append_nil]
      exact h.put
    · rw [List.filterMap_append, List.flatMap_append, hes.2.2.1, hes.2.2.2, hpc.2, List.append_nil,
        List.append_nil]
      exact h.got

end Ledger

end Cs3650.Xv6.Pipes
