import Cs3650.Lib.RedoLog
import Cs3650.Xv6.FileTable
import Mathlib.Data.Finset.Card

/-!
# The log of the xv6 file system (hw09/starter-hw09/xv6: log.c, with bread, bwrite and brelse of
bio.c)

The processes, the kernel that commits for one of them, the disk and a reset of
the machine take steps in any order. A step is what runs under `log.lock`, or
the body of a loop of log.c, whose two buffers are locked: at most one sector is
written in a step, and a reset may come between any two. A block is 128 words.
-/

namespace Cs3650.Xv6.Log

abbrev Word := BitVec 32
abbrev Block := Fin 128 → Word
abbrev Disk := Word → Block

def LOGSIZE : Nat := MAXOPBLOCKS * 3

/-- Where the superblock puts the log: `logstart` and `nlog`. -/
structure Layout where
  start : Word
  size : Nat
  room : LOGSIZE ≤ size
  fits : start.toNat + size < 2 ^ 32

namespace Layout

/-- `log.start+tail+1` -/
def logBlock (L : Layout) (tail : Nat) : Word := L.start + BitVec.ofNat 32 (tail + 1)

/-- The blocks outside the log. -/
def Home (L : Layout) (a : Word) : Prop :=
  a.toNat < L.start.toNat ∨ L.start.toNat + L.size ≤ a.toNat

instance (L : Layout) (a : Word) : Decidable (L.Home a) := inferInstanceAs (Decidable (_ ∨ _))

end Layout

/-- `nlog`, `logstart` of mkfs.c -/
def mkfsLayout : Layout := ⟨2, LOGSIZE, le_refl _, by decide⟩

structure Buf (T : Type) where
  data : Block
  dirty : Bool
  holder : Option T

/-- What a process is doing. An operation carries the blocks it has logged;
`modified` has changed a buffer and calls `log_write`, `checked` is past the tests. -/
inductive Pc
  | user
  | inOp (logged : Finset Word)
  | modified (logged : Finset Word) (b : Word)
  | checked (logged : Finset Word) (b : Word)
  deriving DecidableEq

/-- Where `commit` is. -/
inductive Phase
  | start
  | writeLog (tail : Nat)
  | writeHead
  | installTrans (tail : Nat)
  | eraseHead
  | done
  deriving DecidableEq

/-- `recover_from_log` before the first process runs, then `log.committing` with
the process whose `end_op` commits. -/
inductive Mode (T : Type)
  | readHead
  | recoverInstall (tail : Nat)
  | recoverErase
  | running
  | committing (t : T) (p : Phase)
  deriving DecidableEq

/-- The disk, the buffers, `log.lh`, `log.outstanding` and the processes. -/
structure State (T : Type) where
  disk : Disk
  cache : Word → Option (Buf T)
  block : List Word
  outstanding : Nat
  mode : Mode T
  pc : T → Pc

inductive Outcome (T : Type)
  | blocked
  | panic (msg : String)
  | next (s : State T)

def Outcome.msg {T : Type} : Outcome T → Option String
  | .panic msg => some msg
  | _ => none

def Outcome.isNext {T : Type} : Outcome T → Bool
  | .next _ => true
  | _ => false

theorem exists_of_isNext {T : Type} {o : Outcome T} (h : o.isNext) : ∃ s, o = .next s := by
  cases o with
  | next s => exact ⟨s, rfl⟩
  | blocked | panic msg => cases h

theorem panic_of_msg {T : Type} {o : Outcome T} {msg : String} (h : o.msg = some msg) :
    o = .panic msg := by
  cases o with
  | panic m =>
    cases h
    rfl
  | blocked | next s => cases h

section Header

/-- `hb->n` and the first entries of `hb->block`; the rest of the buffer stays. -/
def writeHeader (hb : Block) (block : List Word) : Block := fun i =>
  if i.val = 0 then BitVec.ofNat 32 block.length else (block[i.val - 1]?).getD (hb i)

/-- The entries `read_head` copies; `none` when it would run over `log.lh.block`. -/
def readHeader (lh : Block) : Option (List Word) :=
  if (lh 0).toInt ≤ LOGSIZE then
    some ((List.range (lh 0).toInt.toNat).map fun i => lh (Fin.ofNat 128 (i + 1)))
  else none

end Header

section Recovery

/-- `install_trans` on buffers that are read from the disk, from entry `tail` on. -/
def installTrans (L : Layout) (block : List Word) (d : Disk) (tail : Nat) : Disk :=
  match block with
  | [] => d
  | b :: rest => installTrans L rest (Function.update d b (d (L.logBlock tail))) (tail + 1)

/-- `recover_from_log`, when nothing stops it. -/
def recoverFromLog (L : Layout) (d : Disk) : Option Disk :=
  (readHeader (d L.start)).map fun block =>
    let d' := installTrans L block d 0
    Function.update d' L.start (writeHeader (d' L.start) [])

end Recovery

variable {T : Type}

namespace State

/-- What a `bread` of the block shows. -/
def view (s : State T) (a : Word) : Block :=
  match s.cache a with
  | some buf => buf.data
  | none => s.disk a

/-- No process holds the buffer of the block. -/
def unheld (s : State T) (a : Word) : Bool :=
  match s.cache a with
  | some buf => buf.holder.isNone
  | none => true

def setBuf (s : State T) (a : Word) (buf : Buf T) : State T :=
  { s with cache := Function.update s.cache a (some buf) }

def setPc [DecidableEq T] (s : State T) (t : T) (p : Pc) : State T :=
  { s with pc := Function.update s.pc t p }

/-- `bread`, then `brelse`: the block is in the cache. -/
def load (s : State T) (a : Word) : State T :=
  match s.cache a with
  | some _ => s
  | none => s.setBuf a ⟨s.disk a, false, none⟩

/-- `bwrite` of a buffer with these data, then `brelse`. -/
def bwrite (s : State T) (a : Word) (data : Block) : State T :=
  { s.setBuf a ⟨data, false, none⟩ with disk := Function.update s.disk a data }

end State

/-- The machine starts, or starts again. -/
def reset (d : Disk) : State T := ⟨d, fun _ => none, [], 0, .readHead, fun _ => .user⟩

/-- The body of the loop of `write_log`, for entry `b`. -/
def writeLogBody (L : Layout) (s : State T) (tail : Nat) (b : Word) : State T :=
  let s' := (s.load (L.logBlock tail)).load b
  s'.bwrite (L.logBlock tail) (s'.view b)

/-- The body of the loop of `install_trans`, for entry `b`. -/
def installBody (L : Layout) (s : State T) (tail : Nat) (b : Word) : State T :=
  let s' := (s.load (L.logBlock tail)).load b
  s'.bwrite b (s'.view (L.logBlock tail))

def writeHead (L : Layout) (s : State T) : State T :=
  let s' := s.load L.start
  s'.bwrite L.start (writeHeader (s'.view L.start) s.block)

/-- Only the disk, the buffers and the mode may differ. -/
structure Beside (s s' : State T) : Prop where
  block : s'.block = s.block
  outstanding : s'.outstanding = s.outstanding
  pc : s'.pc = s.pc

theorem load_beside (s : State T) (a : Word) : Beside s (s.load a) := by
  unfold State.load
  split
  · exact ⟨rfl, rfl, rfl⟩
  · exact ⟨rfl, rfl, rfl⟩

theorem load_load_bwrite (s : State T) (a b c : Word) (data : Block) :
    Beside s (((s.load a).load b).bwrite c data) where
  block := (load_beside _ b).block.trans (load_beside s a).block
  outstanding := (load_beside _ b).outstanding.trans (load_beside s a).outstanding
  pc := (load_beside _ b).pc.trans (load_beside s a).pc

theorem writeLogBody_beside (L : Layout) (s : State T) (tail : Nat) (b : Word) :
    Beside s (writeLogBody L s tail b) := load_load_bwrite ..

theorem installBody_beside (L : Layout) (s : State T) (tail : Nat) (b : Word) :
    Beside s (installBody L s tail b) := load_load_bwrite ..

theorem writeHead_beside (L : Layout) (s : State T) : Beside s (writeHead L s) where
  block := (load_beside s L.start).block
  outstanding := (load_beside s L.start).outstanding
  pc := (load_beside s L.start).pc

section Calls

variable [DecidableEq T]

/-- One round of `begin_op`: it sleeps, or it enters. -/
def beginOp (s : State T) (t : T) : Outcome T :=
  match s.mode, s.pc t with
  | .running, .user =>
    if LOGSIZE < s.block.length + (s.outstanding + 1) * MAXOPBLOCKS then .blocked
    else .next { s.setPc t (.inOp ∅) with outstanding := s.outstanding + 1 }
  | _, _ => .blocked

/-- `log_write` finds the block or puts it at the end. -/
def absorb : List Word → Word → List Word
  | [], b => [b]
  | x :: xs, b => if x = b then b :: xs else x :: absorb xs b

/-- The two tests of `log_write`, made without the lock, and the rest under it. -/
def logWrite (L : Layout) (s : State T) (t : T) : Outcome T :=
  match s.pc t with
  | .modified logged b =>
    if LOGSIZE ≤ s.block.length ∨ L.size - 1 ≤ s.block.length then .panic "too big a transaction"
    else if s.outstanding < 1 then .panic "log_write outside of trans"
    else .next (s.setPc t (.checked logged b))
  | .checked logged b =>
    match s.cache b with
    | some buf =>
      let s' := (s.setBuf b { buf with dirty := true }).setPc t (.inOp (insert b logged))
      .next { s' with block := absorb s.block b }
    | none => .blocked
  | _ => .blocked

/-- `end_op` up to the call of `commit`. -/
def endOp (s : State T) (t : T) : Outcome T :=
  match s.pc t with
  | .inOp _ =>
    let s' := { s.setPc t .user with outstanding := s.outstanding - 1 }
    match s.mode with
    | .committing _ _ => .panic "log.committing"
    | _ => if s.outstanding - 1 = 0 then .next { s' with mode := .committing t .start }
        else .next s'
  | _ => .blocked

/-- The next step of `commit` and of the end of `end_op`. -/
def commit (L : Layout) (s : State T) : Outcome T :=
  match s.mode with
  | .committing t .start =>
    .next { s with mode := .committing t (if 0 < s.block.length then .writeLog 0 else .done) }
  | .committing t (.writeLog tail) =>
    match s.block[tail]? with
    | some b =>
      if s.unheld (L.logBlock tail) && s.unheld b then
        .next { writeLogBody L s tail b with mode := .committing t (.writeLog (tail + 1)) }
      else .blocked
    | none => .next { s with mode := .committing t .writeHead }
  | .committing t .writeHead =>
    if s.unheld L.start then .next { writeHead L s with mode := .committing t (.installTrans 0) }
    else .blocked
  | .committing t (.installTrans tail) =>
    match s.block[tail]? with
    | some b =>
      if s.unheld (L.logBlock tail) && s.unheld b then
        .next { installBody L s tail b with mode := .committing t (.installTrans (tail + 1)) }
      else .blocked
    | none => .next { s with block := [], mode := .committing t .eraseHead }
  | .committing t .eraseHead =>
    if s.unheld L.start then .next { writeHead L s with mode := .committing t .done } else .blocked
  | .committing _ .done => .next { s with mode := .running }
  | _ => .blocked

/-- The next step of `recover_from_log`. -/
def recover (L : Layout) (s : State T) : Outcome T :=
  match s.mode with
  | .readHead =>
    match readHeader (s.view L.start) with
    | some block => .next { s.load L.start with block := block, mode := .recoverInstall 0 }
    | none => .blocked
  | .recoverInstall tail =>
    match s.block[tail]? with
    | some b => .next { installBody L s tail b with mode := .recoverInstall (tail + 1) }
    | none => .next { s with block := [], mode := .recoverErase }
  | .recoverErase => .next { writeHead L s with mode := .running }
  | _ => .blocked

/-- The processes run: the log is recovered. -/
def Mode.up : Mode T → Bool
  | .running | .committing _ _ => true
  | _ => false

/-- `bread` by a process, which keeps the buffer. -/
def bread (s : State T) (t : T) (b : Word) : Outcome T :=
  if s.mode.up then
    match (s.load b).cache b with
    | some buf =>
      if buf.holder.isNone then .next (s.setBuf b { buf with holder := some t }) else .blocked
    | none => .blocked
  else .blocked

/-- A process that holds the buffer, inside an operation, changes it: a block
outside the log, and no more than `k` blocks in one operation. -/
def modify (L : Layout) (k : Nat) (s : State T) (t : T) (b : Word) (new : Block) : Outcome T :=
  match s.pc t, s.cache b with
  | .inOp logged, some buf =>
    if buf.holder = some t ∧ L.Home b ∧ (insert b logged).card ≤ k then
      .next ((s.setBuf b { buf with data := new }).setPc t (.modified logged b))
    else .blocked
  | _, _ => .blocked

def brelse (s : State T) (t : T) (b : Word) : Outcome T :=
  match s.pc t, s.cache b with
  | .modified _ _, _ => .blocked
  | .checked _ _, _ => .blocked
  | _, some buf =>
    if buf.holder = some t then .next (s.setBuf b { buf with holder := none }) else .blocked
  | _, none => .blocked

/-- `bget` takes the buffer of a block for another one. -/
def evict (s : State T) (b : Word) : Outcome T :=
  match s.cache b with
  | some buf =>
    if buf.holder.isNone && !buf.dirty then
      .next { s with cache := Function.update s.cache b none }
    else .blocked
  | none => .blocked

inductive Action (T : Type)
  | beginOp (t : T)
  | bread (t : T) (b : Word)
  | modify (t : T) (b : Word) (new : Block)
  | logWrite (t : T)
  | brelse (t : T) (b : Word)
  | endOp (t : T)
  | commit
  | recover
  | evict (b : Word)
  | crash

def step (L : Layout) (k : Nat) (s : State T) : Action T → Outcome T
  | .beginOp t => Log.beginOp s t
  | .bread t b => Log.bread s t b
  | .modify t b new => Log.modify L k s t b new
  | .logWrite t => Log.logWrite L s t
  | .brelse t b => Log.brelse s t b
  | .endOp t => Log.endOp s t
  | .commit => Log.commit L s
  | .recover => Log.recover L s
  | .evict b => Log.evict s b
  | .crash => .next (reset s.disk)

/-- A run of steps; it ends where one is blocked or panics. -/
def run (L : Layout) (k : Nat) (s : State T) : List (Action T) → Outcome T
  | [] => .next s
  | a :: acts =>
    match step L k s a with
    | .next s' => run L k s' acts
    | o => o

end Calls

/-! ### What a step can do -/

section Cases

variable {L : Layout} {k : Nat} {s s' : State T} {t : T} {b : Word} {new : Block} {msg : String}

inductive CommitStep (L : Layout) (s : State T) (t : T) : State T → Prop
  | start (hmode : s.mode = .committing t .start) (hn : 0 < s.block.length) :
      CommitStep L s t { s with mode := .committing t (.writeLog 0) }
  | nothing (hmode : s.mode = .committing t .start) (hn : s.block = []) :
      CommitStep L s t { s with mode := .committing t .done }
  | log (tail : Nat) (b : Word) (hmode : s.mode = .committing t (.writeLog tail))
      (hb : s.block[tail]? = some b) (hlog : s.unheld (L.logBlock tail)) (hfree : s.unheld b) :
      CommitStep L s t { writeLogBody L s tail b with mode := .committing t (.writeLog (tail + 1)) }
  | logged (tail : Nat) (hmode : s.mode = .committing t (.writeLog tail))
      (hb : s.block.length ≤ tail) : CommitStep L s t { s with mode := .committing t .writeHead }
  | head (hmode : s.mode = .committing t .writeHead) (hfree : s.unheld L.start) :
      CommitStep L s t { writeHead L s with mode := .committing t (.installTrans 0) }
  | install (tail : Nat) (b : Word) (hmode : s.mode = .committing t (.installTrans tail))
      (hb : s.block[tail]? = some b) (hlog : s.unheld (L.logBlock tail)) (hfree : s.unheld b) :
      CommitStep L s t
      { installBody L s tail b with mode := .committing t (.installTrans (tail + 1)) }
  | installed (tail : Nat) (hmode : s.mode = .committing t (.installTrans tail))
      (hb : s.block.length ≤ tail) :
      CommitStep L s t { s with block := [], mode := .committing t .eraseHead }
  | erase (hmode : s.mode = .committing t .eraseHead) (hfree : s.unheld L.start) :
      CommitStep L s t { writeHead L s with mode := .committing t .done }
  | done (hmode : s.mode = .committing t .done) : CommitStep L s t { s with mode := .running }

theorem commit_next (h : commit L s = .next s') : ∃ t, CommitStep L s t s' := by
  unfold commit at h
  split at h
  · next t hmode =>
    refine ⟨t, ?_⟩
    cases h
    split
    · next hn => exact .start hmode hn
    · next hn => exact .nothing hmode (List.length_eq_zero_iff.mp (by omega))
  · next t tail hmode =>
    refine ⟨t, ?_⟩
    split at h
    · next b hb =>
      split at h
      · next hfree =>
        cases h
        rw [Bool.and_eq_true] at hfree
        exact .log tail b hmode hb hfree.1 hfree.2
      · cases h
    · next hb =>
      cases h
      exact .logged tail hmode (List.getElem?_eq_none_iff.mp hb)
  · next t hmode =>
    refine ⟨t, ?_⟩
    split at h
    · next hfree =>
      cases h
      exact .head hmode hfree
    · cases h
  · next t tail hmode =>
    refine ⟨t, ?_⟩
    split at h
    · next b hb =>
      split at h
      · next hfree =>
        cases h
        rw [Bool.and_eq_true] at hfree
        exact .install tail b hmode hb hfree.1 hfree.2
      · cases h
    · next hb =>
      cases h
      exact .installed tail hmode (List.getElem?_eq_none_iff.mp hb)
  · next t hmode =>
    refine ⟨t, ?_⟩
    split at h
    · next hfree =>
      cases h
      exact .erase hmode hfree
    · cases h
  · next t hmode =>
    refine ⟨t, ?_⟩
    cases h
    exact .done hmode
  · cases h

inductive RecoverStep (L : Layout) (s : State T) : State T → Prop
  | head (block : List Word) (hmode : s.mode = .readHead)
  (hread : readHeader (s.view L.start) = some block) :
      RecoverStep L s { s.load L.start with block := block, mode := .recoverInstall 0 }
  | install (tail : Nat) (b : Word) (hmode : s.mode = .recoverInstall tail)
      (hb : s.block[tail]? = some b) :
      RecoverStep L s { installBody L s tail b with mode := .recoverInstall (tail + 1) }
  | installed (tail : Nat) (hmode : s.mode = .recoverInstall tail) (hb : s.block.length ≤ tail) :
      RecoverStep L s { s with block := [], mode := .recoverErase }
  | erase (hmode : s.mode = .recoverErase) : RecoverStep L s { writeHead L s with mode := .running }

theorem recover_next (h : recover L s = .next s') : RecoverStep L s s' := by
  unfold recover at h
  split at h
  · next hmode =>
    split at h
    · next block hread =>
      cases h
      exact .head block hmode hread
    · cases h
  · next tail hmode =>
    split at h
    · next b hb =>
      cases h
      exact .install tail b hmode hb
    · next hb =>
      cases h
      exact .installed tail hmode (List.getElem?_eq_none_iff.mp hb)
  · next hmode =>
    cases h
    exact .erase hmode
  · cases h

theorem bread_next (h : bread s t b = .next s') : s.mode.up ∧
    ∃ buf, (s.load b).cache b = some buf ∧ buf.holder = none ∧
      s' = s.setBuf b { buf with holder := some t } := by
  unfold bread at h
  split at h
  · next hup =>
    split at h
    · next buf hbuf =>
      split at h
      · next hfree =>
          exact ⟨hup, buf, hbuf, Option.isNone_iff_eq_none.mp hfree, (Outcome.next.inj h).symm⟩
      · cases h
    · cases h
  · cases h

theorem evict_next (h : evict s b = .next s') : ∃ buf, s.cache b = some buf ∧ buf.holder = none ∧
    buf.dirty = false ∧ s' = { s with cache := Function.update s.cache b none } := by
  unfold evict at h
  split at h
  · next buf hbuf =>
    split at h
    · next hfree =>
      simp only [Bool.and_eq_true, Option.isNone_iff_eq_none, Bool.not_eq_eq_eq_not,
        Bool.not_true] at hfree
      exact ⟨buf, hbuf, hfree.1, hfree.2, (Outcome.next.inj h).symm⟩
    · cases h
  · cases h

variable [DecidableEq T]

theorem beginOp_next (h : beginOp s t = .next s') : s.mode = .running ∧ s.pc t = .user ∧
    s.block.length + (s.outstanding + 1) * MAXOPBLOCKS ≤ LOGSIZE ∧
      s' = { s.setPc t (.inOp ∅) with outstanding := s.outstanding + 1 } := by
  unfold beginOp at h
  split at h
  · next hmode hpc =>
    split at h
    · cases h
    · next hroom => exact ⟨hmode, hpc, by omega, (Outcome.next.inj h).symm⟩
  · cases h

inductive LogWriteStep (L : Layout) (s : State T) (t : T) : State T → Prop
  | check (logged : Finset Word) (b : Word) (hpc : s.pc t = .modified logged b)
      (hroom : s.block.length + 1 < L.size) : LogWriteStep L s t (s.setPc t (.checked logged b))
  | update (logged : Finset Word) (b : Word) (buf : Buf T) (hpc : s.pc t = .checked logged b)
      (hbuf : s.cache b = some buf) : LogWriteStep L s t
        { (s.setBuf b { buf with dirty := true }).setPc t (.inOp (insert b logged)) with
          block := absorb s.block b }

theorem logWrite_next (h : logWrite L s t = .next s') : LogWriteStep L s t s' := by
  unfold logWrite at h
  split at h
  · next logged b hpc =>
    split at h
    · cases h
    · next hroom =>
      split at h
      · cases h
      · cases h
        exact .check logged b hpc (by omega)
  · next logged b hpc =>
    split at h
    · next buf hbuf =>
      cases h
      exact .update logged b buf hpc hbuf
    · cases h
  · cases h

theorem logWrite_panic (h : logWrite L s t = .panic msg) : ∃ logged b, s.pc t = .modified logged b ∧
    (LOGSIZE ≤ s.block.length ∨ L.size - 1 ≤ s.block.length ∨ s.outstanding < 1) := by
  unfold logWrite at h
  split at h
  · next logged b hpc =>
    split at h
    · next hfull => exact ⟨logged, b, hpc, hfull.imp_right .inl⟩
    · split at h
      · next hout => exact ⟨logged, b, hpc, .inr (.inr hout)⟩
      · cases h
  · split at h <;> cases h
  · cases h

inductive EndOpStep (s : State T) (t : T) : State T → Prop
  | last (hone : s.outstanding - 1 = 0) : EndOpStep s t
      { s.setPc t .user with outstanding := s.outstanding - 1, mode := .committing t .start }
  | more (hmore : s.outstanding - 1 ≠ 0) : EndOpStep s t
      { s.setPc t .user with outstanding := s.outstanding - 1 }

theorem endOp_next (h : endOp s t = .next s') :
    (∃ logged, s.pc t = .inOp logged) ∧ EndOpStep s t s' := by
  unfold endOp at h
  split at h
  · next logged hpc =>
    split at h
    · cases h
    · split at h
      · next hone =>
        cases h
        exact ⟨⟨logged, hpc⟩, .last hone⟩
      · next hmore =>
        cases h
        exact ⟨⟨logged, hpc⟩, .more hmore⟩
  · cases h

theorem endOp_panic (h : endOp s t = .panic msg) :
    s.pc t ≠ .user ∧ ∃ u p, s.mode = .committing u p := by
  unfold endOp at h
  split at h
  · next logged hpc =>
    split at h
    · next u p hmode => exact ⟨by simp [hpc], u, p, hmode⟩
    · split at h <;> cases h
  · cases h

theorem modify_next (h : modify L k s t b new = .next s') : ∃ logged buf, s.pc t = .inOp logged ∧
    s.cache b = some buf ∧ buf.holder = some t ∧ L.Home b ∧ (insert b logged).card ≤ k ∧
      s' = (s.setBuf b { buf with data := new }).setPc t (.modified logged b) := by
  unfold modify at h
  split at h
  · next logged buf hpc hbuf =>
    split at h
    · next hall =>
        exact ⟨logged, buf, hpc, hbuf, hall.1, hall.2.1, hall.2.2, (Outcome.next.inj h).symm⟩
    · cases h
  · cases h

theorem brelse_next (h : brelse s t b = .next s') :
    (∀ logged c, s.pc t ≠ .modified logged c ∧ s.pc t ≠ .checked logged c) ∧
      ∃ buf, s.cache b = some buf ∧ buf.holder = some t ∧
      s' = s.setBuf b { buf with holder := none } := by
  unfold brelse at h
  split at h
  · cases h
  · cases h
  · next buf hbuf hmodified hchecked =>
    split at h
    · next hheld =>
      exact ⟨fun logged c => ⟨hmodified logged c, hchecked logged c⟩, buf, hbuf, hheld,
        (Outcome.next.inj h).symm⟩
    · cases h
  · cases h

/-- A process that may log more blocks can do what it could. -/
theorem step_mono {a : Action T} {k' : Nat} (hk : k ≤ k') (hs : step L k s a ≠ .blocked) :
    step L k' s a = step L k s a := by
  cases a with
  | modify t b new =>
    simp only [step, Log.modify] at hs ⊢
    split at hs
    · split at hs
      · next hall =>
        have hcard := hall.2.2.trans hk
        simp only [hall, hcard, and_self, ite_true]
      · exact absurd rfl hs
    · exact absurd rfl hs
  | _ => rfl

theorem run_mono {acts : List (Action T)} {k' : Nat} (hk : k ≤ k')
    (hs : run L k s acts ≠ .blocked) : run L k' s acts = run L k s acts := by
  induction acts generalizing s with
  | nil => rfl
  | cons a acts ih =>
    simp only [run] at hs ⊢
    have hstep : step L k s a ≠ .blocked := fun hblocked => by simp [hblocked] at hs
    rw [step_mono hk hstep]
    split at hs
    · exact ih hs
    · rfl

theorem run_append (s : State T) (xs ys : List (Action T)) : run L k s (xs ++ ys) =
    match run L k s xs with
    | .next s' => run L k s' ys
    | o => o := by
  induction xs generalizing s with
  | nil => rfl
  | cons x xs ih =>
    simp only [List.cons_append, run]
    cases step L k s x with
    | next s₁ => exact ih s₁
    | blocked | panic msg => rfl

theorem run_concat {acts : List (Action T)} {a : Action T}
    (h : run L k s (acts ++ [a]) = .next s') :
    ∃ s₁, run L k s acts = .next s₁ ∧ step L k s₁ a = .next s' := by
  rw [run_append] at h
  split at h
  · next s₁ hrun =>
    refine ⟨s₁, hrun, ?_⟩
    simp only [run] at h
    split at h
    · next s₂ hstep =>
      cases h
      exact hstep
    · next hstep => exact absurd h (hstep s')
  · next hrun => exact absurd h (hrun s')

end Cases

end Cs3650.Xv6.Log
