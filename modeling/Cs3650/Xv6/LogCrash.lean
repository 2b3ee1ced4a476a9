import Cs3650.Xv6.LogAdmission

/-!
# What a reset of the machine leaves of the log

Beside a run goes the disk `c` that the operations have committed: what the
buffers showed when the header was last written with blocks in it. The disk
outside the log is `c`, or the log on the disk covers it, at every step of a
commit and of a recovery.
-/

namespace Cs3650.Xv6.Log

open Cs3650.Lib.RedoLog

section Addresses

variable {L : Layout}

def Layout.homes (L : Layout) : Set Word := {a | L.Home a}

theorem logBlock_toNat {i : Nat} (hi : i + 1 < L.size) :
    (L.logBlock i).toNat = L.start.toNat + (i + 1) := by
  have hfits := L.fits
  simp only [Layout.logBlock, BitVec.toNat_add, BitVec.toNat_ofNat]
  omega

theorem room_lt {i : Nat} (hi : i < ROOM) : i + 1 < L.size := by
  have hroom := L.room
  simp only [ROOM, LOGSIZE, MAXOPBLOCKS] at hi hroom
  omega

theorem logBlock_ne_start {i : Nat} (hi : i < ROOM) : L.logBlock i ≠ L.start := by
  intro heq
  have hnat := logBlock_toNat (room_lt (L := L) hi)
  rw [heq] at hnat
  omega

theorem logBlock_inj {i j : Nat} (hi : i < ROOM) (hj : j < ROOM)
    (h : L.logBlock i = L.logBlock j) : i = j := by
  have hi' := logBlock_toNat (room_lt (L := L) hi)
  have hj' := logBlock_toNat (room_lt (L := L) hj)
  rw [h] at hi'
  omega

theorem home_ne_logBlock {a : Word} {i : Nat} (ha : L.Home a) (hi : i < ROOM) :
    a ≠ L.logBlock i := by
  rintro rfl
  have hlt := room_lt (L := L) hi
  have hnat := logBlock_toNat hlt
  simp only [Layout.Home] at ha
  omega

theorem home_ne_start {a : Word} (ha : L.Home a) : a ≠ L.start := by
  rintro rfl
  have hroom := L.room
  simp only [Layout.Home, LOGSIZE, MAXOPBLOCKS] at ha hroom
  omega

end Addresses

section Header

theorem writeHeader_zero (hb : Block) (block : List Word) :
    writeHeader hb block 0 = BitVec.ofNat 32 block.length := rfl

theorem writeHeader_succ (hb : Block) (block : List Word) {i : Nat} (hi : i < block.length)
    (h127 : i + 1 < 128) : writeHeader hb block (Fin.ofNat 128 (i + 1)) = block[i] := by
  have hval : (Fin.ofNat 128 (i + 1)).val = i + 1 := Nat.mod_eq_of_lt h127
  simp only [writeHeader, hval, Nat.add_one_ne_zero, ite_false, Nat.add_sub_cancel,
    List.getElem?_eq_getElem hi, Option.getD_some]

/-- What `write_head` puts on the disk, `read_head` gets back. -/
theorem readHeader_writeHeader (hb : Block) {block : List Word} (hlen : block.length ≤ LOGSIZE) :
    readHeader (writeHeader hb block) = some block := by
  simp only [LOGSIZE, MAXOPBLOCKS] at hlen
  have hn : (writeHeader hb block 0).toInt = block.length := by
    have hnat : (BitVec.ofNat 32 block.length).toNat = block.length := by
      rw [BitVec.toNat_ofNat]
      omega
    rw [writeHeader_zero, BitVec.toInt_eq_toNat_of_lt (by omega), hnat]
  have hle : (block.length : Int) ≤ (LOGSIZE : Nat) := by
    simp only [LOGSIZE, MAXOPBLOCKS]
    omega
  simp only [readHeader, hn, hle, ite_true, Int.toNat_natCast, Option.some.injEq]
  apply List.ext_getElem
  · simp
  · intro i hi hi'
    simp only [List.getElem_map, List.getElem_range]
    exact writeHeader_succ hb block hi' (by omega)

end Header

section Entries

variable {L : Layout}

/-- The log on the disk: where each block goes, and what it is. -/
def Layout.entries (L : Layout) (d : Disk) (l : List Word) : List (Word × Block) :=
  l.zipIdx.map fun p => (p.1, d (L.logBlock p.2))

theorem length_entries (d : Disk) (l : List Word) : (L.entries d l).length = l.length := by
  simp [Layout.entries]

theorem getElem_entries (d : Disk) (l : List Word) {i : Nat} (hlen : i < (L.entries d l).length)
    (hi : i < l.length) : (L.entries d l)[i] = (l[i], d (L.logBlock i)) := by
  simp [Layout.entries]

theorem mem_entries {d : Disk} {l : List Word} {e : Word × Block} (he : e ∈ L.entries d l) :
    ∃ (i : Nat) (hi : i < l.length), e = (l[i], d (L.logBlock i)) := by
  obtain ⟨i, hlen, rfl⟩ := List.mem_iff_getElem.mp he
  have hi : i < l.length := by rwa [length_entries] at hlen
  exact ⟨i, hi, getElem_entries _ _ hlen hi⟩

/-- The log does not change when its blocks do not. -/
theorem entries_congr {d d' : Disk} {l : List Word}
    (h : ∀ i < l.length, d' (L.logBlock i) = d (L.logBlock i)) :
    L.entries d' l = L.entries d l := by
  apply List.ext_getElem
  · simp [length_entries]
  · intro i hlen _
    have hi : i < l.length := by rwa [length_entries] at hlen
    rw [getElem_entries _ _ _ hi, getElem_entries _ _ _ hi, h i hi]

theorem entries_update_home {d : Disk} {l : List Word} {b : Word} {v : Block} (hb : L.Home b)
    (hl : l.length ≤ ROOM) : L.entries (Function.update d b v) l = L.entries d l :=
  entries_congr fun _ hi =>
    Function.update_of_ne (home_ne_logBlock hb (Nat.lt_of_lt_of_le hi hl)).symm _ _

theorem entries_update_start {d : Disk} {l : List Word} {v : Block} (hl : l.length ≤ ROOM) :
    L.entries (Function.update d L.start v) l = L.entries d l :=
  entries_congr fun _ hi => Function.update_of_ne (logBlock_ne_start (Nat.lt_of_lt_of_le hi hl)) _ _

end Entries

section Durable

variable {L : Layout}

/-- The log on the disk has the entries `l`, and they are what was committed. -/
structure Logged (L : Layout) (c d : Disk) (l : List Word) : Prop where
  header : readHeader (d L.start) = some l
  length : l.length ≤ ROOM
  home : ∀ a ∈ l, L.Home a
  nodup : l.Nodup
  entries : ∀ e ∈ L.entries d l, e.2 = c e.1

/-- The log is empty and the disk is what was committed. -/
structure Settled (L : Layout) (c d : Disk) : Prop where
  header : readHeader (d L.start) = some []
  home : ∀ a ∈ L.homes, d a = c a

variable {c d : Disk} {l : List Word} {tail : Nat} {b : Word}

theorem Settled.logged (h : Settled L c d) : Logged L c d [] :=
  ⟨h.header, Nat.zero_le _, by simp, List.nodup_nil, by simp [Layout.entries]⟩

theorem Settled.covers (h : Settled L c d) : Covers L.homes (L.entries d []) d c :=
  Covers.nil h.home

/-- A block outside the log is written. -/
theorem Logged.update_home (h : Logged L c d l) {v : Block} (hb : L.Home b) :
    Logged L c (Function.update d b v) l where
  header := by
    rw [Function.update_of_ne (home_ne_start hb).symm]
    exact h.header
  length := h.length
  home := h.home
  nodup := h.nodup
  entries := by
    rw [entries_update_home hb h.length]
    exact h.entries

/-- One round of `install_trans` leaves the log shorter by its first entry. -/
theorem Logged.install (h : Logged L c d l) (hb : l[tail]? = some b)
    (hcov : Covers L.homes ((L.entries d l).drop tail) d c) :
    Logged L c (Function.update d b (d (L.logBlock tail))) l ∧
      Covers L.homes ((L.entries (Function.update d b (d (L.logBlock tail))) l).drop (tail + 1))
        (Function.update d b (d (L.logBlock tail))) c := by
  obtain ⟨hlt, rfl⟩ := List.getElem?_eq_some_iff.mp hb
  have hhome := h.home _ (List.getElem_mem hlt)
  have hlen : tail < (L.entries d l).length := by rwa [length_entries]
  refine ⟨h.update_home hhome, ?_⟩
  rw [entries_update_home hhome h.length]
  rw [List.drop_eq_getElem_cons hlen, getElem_entries _ _ _ hlt] at hcov
  exact hcov.advance

/-- After the last round the disk is what was committed. -/
theorem covers_done (htail : l.length ≤ tail)
    (hcov : Covers L.homes ((L.entries d l).drop tail) d c) : ∀ a ∈ L.homes, d a = c a := by
  rw [List.drop_eq_nil_of_le (by rwa [length_entries])] at hcov
  exact hcov.eq_of_nil

/-- The header of an empty log is written. -/
theorem settled_of_home {hb : Block} (h : ∀ a ∈ L.homes, d a = c a) :
    Settled L c (Function.update d L.start (writeHeader hb [])) where
  header := by
    rw [Function.update_self]
    exact readHeader_writeHeader hb (Nat.zero_le _)
  home := fun a ha => by
    rw [Function.update_of_ne (home_ne_start ha)]
    exact h a ha

/-- What `recover_from_log` needs of the disk. -/
def Recoverable (L : Layout) (c d : Disk) : Prop :=
  ∃ l, Logged L c d l ∧ Covers L.homes (L.entries d l) d c

theorem installTrans_covers (h : Logged L c d l)
    (hcov : Covers L.homes ((L.entries d l).drop tail) d c) :
    ∀ a ∈ L.homes, installTrans L (l.drop tail) d tail a = c a := by
  generalize hrest : l.drop tail = rest
  induction rest generalizing d tail with
  | nil => exact covers_done (List.drop_eq_nil_iff.mp hrest) hcov
  | cons b rest ih =>
    have hb : l[tail]? = some b := by rw [← List.head?_drop, hrest, List.head?_cons]
    have hnext : l.drop (tail + 1) = rest := by rw [← List.tail_drop, hrest, List.tail_cons]
    obtain ⟨h', hcov'⟩ := h.install hb hcov
    exact ih h' hcov' hnext

/-- A recovery that nothing stops gives the committed disk and an empty log. -/
theorem recoverFromLog_eq (h : Recoverable L c d) :
    ∃ d', recoverFromLog L d = some d' ∧ Settled L c d' := by
  obtain ⟨l, hlog, hcov⟩ := h
  refine ⟨_, by rw [recoverFromLog, hlog.header, Option.map_some], ?_⟩
  exact settled_of_home (@installTrans_covers _ _ _ _ 0 hlog hcov)

end Durable

section Buffers

variable {T : Type} {L : Layout} {s s' : State T} {a b : Word} {data : Block}

/-- The blocks whose buffers wait for the log to write them home. -/
def pinned (s : State T) : List Word :=
  match s.mode with
  | .running => s.block
  | .committing _ (.installTrans tail) => s.block.drop tail
  | .committing _ _ => s.block
  | _ => []

/-- A buffer is the block on the disk, but for the ones an operation is changing
and the ones that are pinned. -/
structure Buffers (L : Layout) (s : State T) : Prop where
  held : ∀ t b, (s.pc t).pending = some b → L.Home b ∧ ∃ buf, s.cache b = some buf ∧
    buf.holder = some t
  clean : ∀ a buf, s.cache a = some buf → buf.dirty = false → (∀ t, (s.pc t).pending ≠ some a) →
    buf.data = s.disk a
  dirty : ∀ a, a ∈ pinned s ↔ ∃ buf, s.cache a = some buf ∧ buf.dirty = true

theorem Buffers.view_eq (h : Buffers L s) (hpin : a ∉ pinned s)
    (hfree : ∀ t, (s.pc t).pending ≠ some a) : s.view a = s.disk a := by
  unfold State.view
  split
  · next buf hbuf =>
    have hdirty : buf.dirty = false := by
      by_contra hne
      exact hpin ((h.dirty a).mpr ⟨buf, hbuf, by simpa using hne⟩)
    exact h.clean a buf hbuf hdirty hfree
  · rfl

/-- What a process holds no other process is changing. -/
theorem Buffers.not_pending (h : Buffers L s) {buf : Buf T} {o : Option T}
    (hbuf : s.cache a = some buf)
    (ho : buf.holder = o) {t : T} (ht : o ≠ some t) : (s.pc t).pending ≠ some a := by
  intro hpend
  obtain ⟨-, buf', hbuf', hheld⟩ := h.held t a hpend
  rw [hbuf] at hbuf'
  cases hbuf'
  exact ht (ho.symm.trans hheld)

theorem view_of_cache {buf : Buf T} (h : s.cache a = some buf) : s.view a = buf.data := by
  simp only [State.view, h]

theorem load_cache (s : State T) (a b : Word) : (s.load a).cache b = s.cache b ∨
    s.cache b = none ∧ (s.load a).cache b = some ⟨s.disk b, false, none⟩ := by
  unfold State.load
  split
  · exact .inl rfl
  · next hnone =>
    by_cases hb : b = a
    · subst hb
      exact .inr ⟨hnone, Function.update_self ..⟩
    · exact .inl (Function.update_of_ne hb _ _)

theorem load_disk (s : State T) (a : Word) : (s.load a).disk = s.disk := by
  unfold State.load
  split <;> rfl

theorem load_view (s : State T) (a b : Word) : (s.load a).view b = s.view b := by
  cases load_cache s a b with
  | inl hsame => simp only [State.view, hsame, load_disk]
  | inr hnew => simp only [State.view, hnew.1, hnew.2]

/-- The buffer of `a` is written to the disk; the others may have been read. -/
structure Written (s s' : State T) (a : Word) (data : Block) : Prop where
  disk : s'.disk = Function.update s.disk a data
  self : s'.cache a = some ⟨data, false, none⟩
  other : ∀ b, b ≠ a → s'.cache b = s.cache b ∨ s.cache b = none ∧
    s'.cache b = some ⟨s.disk b, false, none⟩

theorem bwrite_written (s : State T) (a : Word) (data : Block) :
    Written s (s.bwrite a data) a data where
  disk := rfl
  self := Function.update_self ..
  other := fun _ hb => .inl (Function.update_of_ne hb _ _)

theorem Written.after_load (h : Written (s.load b) s' a data) : Written s s' a data where
  disk := by rw [h.disk, load_disk]
  self := h.self
  other := by
    intro e he
    have hload := load_cache s b e
    rw [← load_disk s b]
    cases h.other e he with
    | inl hsame =>
      rw [hsame, load_disk]
      exact hload
    | inr hnew =>
      cases hload with
      | inl hsame => exact .inr ⟨hsame.symm.trans hnew.1, hnew.2⟩
      | inr hread => rw [hnew.1] at hread; cases hread.2

theorem writeLogBody_written (L : Layout) (s : State T) (tail : Nat) (b : Word) :
    Written s (writeLogBody L s tail b) (L.logBlock tail) (s.view b) := by
  simp only [writeLogBody, load_view]
  exact (bwrite_written ..).after_load.after_load

theorem installBody_written (L : Layout) (s : State T) (tail : Nat) (b : Word) :
    Written s (installBody L s tail b) b (s.view (L.logBlock tail)) := by
  simp only [installBody, load_view]
  exact (bwrite_written ..).after_load.after_load

theorem writeHead_written (L : Layout) (s : State T) :
    Written s (writeHead L s) L.start (writeHeader (s.view L.start) s.block) := by
  simp only [writeHead, load_view]
  exact (bwrite_written ..).after_load

theorem Written.view_of_ne (h : Written s s' a data) (hb : b ≠ a) : s'.view b = s.view b := by
  have hdisk : s'.disk b = s.disk b := by rw [h.disk, Function.update_of_ne hb]
  cases h.other b hb with
  | inl hsame => simp only [State.view, hsame, hdisk]
  | inr hnew => simp only [State.view, hnew.1, hnew.2]

/-- A write of the kernel, while no process is inside an operation. -/
theorem Buffers.written (h : Buffers L s) (hw : Written s s' a data) (hpc : s'.pc = s.pc)
    (huser : ∀ t, s.pc t = .user) (hpin : ∀ b, b ∈ pinned s' ↔ b ∈ pinned s ∧ b ≠ a) :
    Buffers L s' where
  held := fun t b hb => by simp [hpc, huser, Pc.pending] at hb
  clean := by
    intro b buf hbuf hdirty hfree
    by_cases hb : b = a
    · subst hb
      rw [hw.self] at hbuf
      cases hbuf
      rw [hw.disk, Function.update_self]
    · rw [hw.disk, Function.update_of_ne hb]
      cases hw.other b hb with
      | inl hsame =>
        exact h.clean b buf (hsame.symm.trans hbuf) hdirty fun t => by rw [← hpc]; exact hfree t
      | inr hnew =>
        rw [hnew.2] at hbuf
        cases hbuf
        rfl
  dirty := by
    intro b
    rw [hpin b, h.dirty b]
    by_cases hb : b = a
    · subst hb
      simp [hw.self]
    · cases hw.other b hb with
      | inl hsame => simp [hsame, hb]
      | inr hnew => simp [hnew.1, hnew.2]

/-- Nothing the buffers depend on changes; a block may have been read. -/
theorem Buffers.congr (h : Buffers L s) (hdisk : s'.disk = s.disk)
    (hcache : ∀ b, s'.cache b = s.cache b ∨ s.cache b = none ∧
      s'.cache b = some ⟨s.disk b, false, none⟩)
    (hpend : ∀ t, (s'.pc t).pending = (s.pc t).pending) (hpin : ∀ b, b ∈ pinned s' ↔ b ∈ pinned s) :
    Buffers L s' where
  held := by
    intro t b hb
    rw [hpend] at hb
    obtain ⟨hhome, buf, hbuf, hheld⟩ := h.held t b hb
    cases hcache b with
    | inl hsame => exact ⟨hhome, buf, hsame.trans hbuf, hheld⟩
    | inr hnew => rw [hnew.1] at hbuf; cases hbuf
  clean := by
    intro b buf hbuf hdirty hfree
    rw [hdisk]
    cases hcache b with
    | inl hsame =>
      exact h.clean b buf (hsame.symm.trans hbuf) hdirty fun t => by rw [← hpend]; exact hfree t
    | inr hnew =>
      rw [hnew.2] at hbuf
      cases hbuf
      rfl
  dirty := by
    intro b
    rw [hpin, h.dirty b]
    cases hcache b with
    | inl hsame => rw [hsame]
    | inr hnew => simp [hnew.1, hnew.2]

end Buffers

section Invariant

variable {T : Type} {L : Layout} {k : Nat} {c : Disk} {s s' : State T}

/-- What is on the disk at each point of a commit and of a recovery. -/
def Durable (L : Layout) (c : Disk) (s : State T) : Prop :=
  match s.mode with
  | .readHead => Recoverable L c s.disk
  | .recoverInstall tail | .committing _ (.installTrans tail) =>
    Logged L c s.disk s.block ∧ Covers L.homes ((L.entries s.disk s.block).drop tail) s.disk c
  | .recoverErase | .committing _ .eraseHead =>
    (∃ l, Logged L c s.disk l) ∧ ∀ a ∈ L.homes, s.disk a = c a
  | .running | .committing _ .start | .committing _ .done => Settled L c s.disk
  | .committing _ (.writeLog tail) => Settled L c s.disk ∧
      ∀ i b, s.block[i]? = some b → i < tail → s.disk (L.logBlock i) = s.view b
  | .committing _ .writeHead => Settled L c s.disk ∧
      ∀ i b, s.block[i]? = some b → s.disk (L.logBlock i) = s.view b

theorem Durable.recoverable (h : Durable L c s) : Recoverable L c s.disk := by
  unfold Durable at h
  split at h
  · exact h
  · exact ⟨s.block, h.1, h.2.extend (List.drop_subset _ _) h.1.entries⟩
  · exact ⟨s.block, h.1, h.2.extend (List.drop_subset _ _) h.1.entries⟩
  · obtain ⟨⟨l, hl⟩, hhome⟩ := h
    exact ⟨l, hl, (Covers.nil hhome).extend (List.nil_subset _) hl.entries⟩
  · obtain ⟨⟨l, hl⟩, hhome⟩ := h
    exact ⟨l, hl, (Covers.nil hhome).extend (List.nil_subset _) hl.entries⟩
  · exact ⟨[], h.logged, h.covers⟩
  · exact ⟨[], h.logged, h.covers⟩
  · exact ⟨[], h.logged, h.covers⟩
  · exact ⟨[], h.1.logged, h.1.covers⟩
  · exact ⟨[], h.1.logged, h.1.covers⟩

/-- Processes that read, and buffers that are recycled, change nothing of it. -/
theorem Durable.congr (h : Durable L c s) (hmode : s'.mode = s.mode) (hdisk : s'.disk = s.disk)
    (hblock : s'.block = s.block) (hview : ∀ a, s'.view a = s.view a) : Durable L c s' := by
  simp only [Durable, hmode, hdisk, hblock, hview] at h ⊢
  exact h

structure Inv [Fintype T] (L : Layout) (k : Nat) (c : Disk) (s : State T) : Prop where
  admitted : Admitted k s
  buffers : Buffers L s
  nodup : s.block.Nodup
  home : ∀ a ∈ s.block, L.Home a
  durable : Durable L c s

variable [Fintype T] {a b : Word}

theorem Inv.settled (h : Inv L k c s) (hmode : s.mode = .running) : Settled L c s.disk := by
  have hd := h.durable
  simpa only [Durable, hmode] using hd

theorem Inv.not_pending (h : Inv L k c s) (hmode : s.mode ≠ .running) (t : T) :
    (s.pc t).pending ≠ some a := by
  rw [h.admitted.quiet hmode t]
  simp [Pc.pending]

theorem reset_inv {d : Disk} (h : Recoverable L c d) : Inv L k c (reset d : State T) where
  admitted := reset_admitted d
  buffers := ⟨by simp [reset, Pc.pending], by simp [reset], by simp [reset, pinned]⟩
  nodup := List.nodup_nil
  home := by simp [reset]
  durable := h

/-- A process that reads a block, or gives its buffer back. -/
theorem Inv.setHolder (h : Inv L k c s) {buf : Buf T} {o : Option T}
    (hbuf : (s.load b).cache b = some buf)
    (hfree : ∀ t, (s.pc t).pending = some b → False) :
    Inv L k c (s.setBuf b { buf with holder := o }) := by
  have hview (a : Word) : (s.setBuf b { buf with holder := o }).view a = s.view a := by
    by_cases ha : a = b
    · subst ha
      rw [← load_view s a a, view_of_cache hbuf, view_of_cache (Function.update_self ..)]
    · simp only [State.view, State.setBuf, Function.update_of_ne ha]
  refine ⟨h.admitted.beside ⟨rfl, rfl, rfl⟩ rfl, ?_, h.nodup, h.home,
    h.durable.congr rfl rfl rfl hview⟩
  constructor
  · intro t a ha
    have hne : a ≠ b := by
      rintro rfl
      exact hfree t ha
    obtain ⟨hhome, hheld⟩ := h.buffers.held t a ha
    refine ⟨hhome, ?_⟩
    simpa only [State.setBuf, Function.update_of_ne hne] using hheld
  · intro a buf' hbuf' hdirty hpend
    by_cases ha : a = b
    · subst ha
      simp only [State.setBuf, Function.update_self, Option.some.injEq] at hbuf'
      subst hbuf'
      cases load_cache s a a with
      | inl hsame => exact h.buffers.clean a buf (hsame.symm.trans hbuf) hdirty hpend
      | inr hnew =>
        rw [hnew.2] at hbuf
        cases hbuf
        rfl
    · simp only [State.setBuf, Function.update_of_ne ha] at hbuf'
      exact h.buffers.clean a buf' hbuf' hdirty hpend
  · intro a
    refine (h.buffers.dirty a).trans ?_
    by_cases ha : a = b
    · subst ha
      cases load_cache s a a with
      | inl hsame => simp [State.setBuf, hsame.symm.trans hbuf]
      | inr hnew =>
        rw [hnew.2] at hbuf
        cases hbuf
        simp [State.setBuf, hnew.1]
    · simp only [State.setBuf, Function.update_of_ne ha]

theorem Inv.evict (h : Inv L k c s) (hs : evict s b = .next s') : Inv L k c s' := by
  obtain ⟨buf, hbuf, hholder, hdirty, rfl⟩ := evict_next hs
  have hdata : buf.data = s.disk b :=
    h.buffers.clean b buf hbuf hdirty fun t => h.buffers.not_pending hbuf hholder (by simp)
  have hview (a : Word) :
      ({ s with cache := Function.update s.cache b none } : State T).view a = s.view a := by
    by_cases ha : a = b
    · subst ha
      simp only [State.view, Function.update_self, hbuf, hdata]
    · simp only [State.view, Function.update_of_ne ha]
  refine ⟨h.admitted.beside ⟨rfl, rfl, rfl⟩ rfl, ?_, h.nodup, h.home,
    h.durable.congr rfl rfl rfl hview⟩
  constructor
  · intro t a ha
    have hne : a ≠ b := by
      rintro rfl
      exact h.buffers.not_pending hbuf hholder (by simp) ha
    obtain ⟨hhome, hheld⟩ := h.buffers.held t a ha
    refine ⟨hhome, ?_⟩
    simpa only [Function.update_of_ne hne] using hheld
  · intro a buf' hbuf' hd hpend
    by_cases ha : a = b
    · subst ha
      simp at hbuf'
    · exact h.buffers.clean a buf' (by simpa only [Function.update_of_ne ha] using hbuf') hd hpend
  · intro a
    refine (h.buffers.dirty a).trans ?_
    by_cases ha : a = b
    · subst ha
      simp [hbuf, hdirty]
    · simp only [Function.update_of_ne ha]

/-- A block the kernel may write: the buffers show what the disk has. -/
theorem Inv.view_eq (h : Inv L k c s) (hmode : s.mode ≠ .running) (hpin : a ∉ pinned s) :
    s.view a = s.disk a :=
  h.buffers.view_eq hpin (h.not_pending hmode)

theorem Inv.pinned_home (h : Inv L k c s) (ha : a ∈ pinned s) : L.Home a := by
  unfold pinned at ha
  split at ha
  · exact h.home a ha
  · exact h.home a (List.mem_of_mem_drop ha)
  · exact h.home a ha
  · cases ha

theorem mem_drop_succ {l : List Word} {tail : Nat} (hl : l.Nodup) (hb : l[tail]? = some b) :
    a ∈ l.drop (tail + 1) ↔ a ∈ l.drop tail ∧ a ≠ b := by
  obtain ⟨hlt, rfl⟩ := List.getElem?_eq_some_iff.mp hb
  have hdrop := hl.sublist (List.drop_sublist tail l)
  rw [List.drop_eq_getElem_cons hlt] at hdrop ⊢
  have hnot := (List.nodup_cons.mp hdrop).1
  simp only [List.mem_cons]
  constructor
  · intro ha
    exact ⟨.inr ha, fun heq => hnot (heq ▸ ha)⟩
  · intro ha
    exact ha.1.resolve_left ha.2

/-- One round of `install_trans`, in `commit` and in the recovery. -/
theorem Inv.installBody {tail : Nat} {m : Mode T} (h : Inv L k c s) (hb : s.block[tail]? = some b)
    (hmode : s.mode ≠ .running) (hadmitted : Admitted k { installBody L s tail b with mode := m })
    (hpin : ∀ a, a ∈ pinned { Log.installBody L s tail b with mode := m } ↔ a ∈ pinned s ∧ a ≠ b)
    (hlog : Logged L c s.disk s.block)
    (hcov : Covers L.homes ((L.entries s.disk s.block).drop tail) s.disk c)
    (hdurable : ∀ d', Logged L c d' s.block →
      Covers L.homes ((L.entries d' s.block).drop (tail + 1)) d' c →
      Durable L c { Log.installBody L s tail b with disk := d', mode := m }) :
    Inv L k c { Log.installBody L s tail b with mode := m } := by
  obtain ⟨hlt, -⟩ := List.getElem?_eq_some_iff.mp hb
  have hwritten := installBody_written L s tail b
  have hbeside := installBody_beside L s tail b
  have hview : s.view (L.logBlock tail) = s.disk (L.logBlock tail) := by
    apply h.view_eq hmode
    intro hmem
    exact home_ne_logBlock (h.pinned_home hmem) (Nat.lt_of_lt_of_le hlt hlog.length) rfl
  rw [hview] at hwritten
  obtain ⟨hlog', hcov'⟩ := hlog.install hb hcov
  refine ⟨hadmitted, ?_, ?_, ?_, ?_⟩
  · exact h.buffers.written ⟨hwritten.disk, hwritten.self, hwritten.other⟩ hbeside.pc
      (h.admitted.quiet hmode) hpin
  · exact hbeside.block ▸ h.nodup
  · exact fun a ha => h.home a (hbeside.block ▸ ha)
  · have hd := hdurable _ hlog' hcov'
    rwa [← hwritten.disk] at hd

/-- The header is written with no blocks in it. -/
theorem Inv.eraseHead {m : Mode T} (h : Inv L k c s) (hempty : s.block = [])
    (hmode : s.mode ≠ .running)
    (hadmitted : Admitted k { writeHead L s with mode := m }) (hpin : pinned s = [])
    (hpin' : pinned { writeHead L s with mode := m } = []) (hhome : ∀ a ∈ L.homes, s.disk a = c a)
    (hdurable : ∀ d', Settled L c d' → Durable L c { writeHead L s with disk := d', mode := m }) :
    Inv L k c { writeHead L s with mode := m } := by
  have hwritten := writeHead_written L s
  have hbeside := writeHead_beside L s
  have hblock : (writeHead L s).block = [] := hbeside.block.trans hempty
  rw [hempty] at hwritten
  refine ⟨hadmitted, ?_, ?_, ?_, ?_⟩
  · refine h.buffers.written ⟨hwritten.disk, hwritten.self, hwritten.other⟩ hbeside.pc
      (h.admitted.quiet hmode) ?_
    simp [hpin, hpin']
  · exact hblock ▸ List.nodup_nil
  · exact fun a ha => by rw [hblock] at ha; cases ha
  · have hd := hdurable _ (@settled_of_home _ _ _ (s.view L.start) hhome)
    rwa [← hwritten.disk] at hd

/-- What is committed after a step of `commit`: the header is the point. -/
def State.committed (s : State T) (c : Disk) : Disk :=
  match s.mode with
  | .committing _ .writeHead => s.view
  | _ => c

theorem Inv.logBody {tail : Nat} {u : T} (h : Inv L k c s)
    (hmode : s.mode = .committing u (.writeLog tail)) (hb : s.block[tail]? = some b)
    (hadmitted : Admitted k
      { writeLogBody L s tail b with mode := .committing u (.writeLog (tail + 1)) }) :
    Inv L k c { writeLogBody L s tail b with mode := .committing u (.writeLog (tail + 1)) } := by
  have hwritten := writeLogBody_written L s tail b
  have hbeside := writeLogBody_beside L s tail b
  obtain ⟨hlt, hget⟩ := List.getElem?_eq_some_iff.mp hb
  have hlen := h.admitted.length_le (by rw [hmode]; rfl)
  have hpin : pinned s = s.block := by simp only [pinned, hmode]
  have hd := h.durable
  simp only [Durable, hmode] at hd
  obtain ⟨hsettled, hlogged⟩ := hd
  have hroom (i : Nat) (x : Word) (hi : s.block[i]? = some x) : i < ROOM := by
    obtain ⟨hi', -⟩ := List.getElem?_eq_some_iff.mp hi
    omega
  have hview (x : Word) (i : Nat) (hi : s.block[i]? = some x) :
      (writeLogBody L s tail b).view x = s.view x := by
    apply hwritten.view_of_ne
    exact home_ne_logBlock (h.home x (List.mem_of_getElem? hi)) (hroom tail b hb)
  refine ⟨hadmitted, ?_, hbeside.block ▸ h.nodup, fun a ha => h.home a (hbeside.block ▸ ha), ?_⟩
  · refine h.buffers.written ⟨hwritten.disk, hwritten.self, hwritten.other⟩ hbeside.pc
      (h.admitted.quiet (by simp [hmode])) ?_
    intro a
    rw [hpin]
    simp only [pinned, hbeside.block]
    constructor
    · exact fun ha => ⟨ha, home_ne_logBlock (h.home a ha) (hroom tail b hb)⟩
    · exact fun ha => ha.1
  · simp only [Durable, hbeside.block]
    constructor
    · constructor
      · rw [hwritten.disk, Function.update_of_ne (logBlock_ne_start (hroom tail b hb)).symm]
        exact hsettled.header
      · intro a ha
        rw [hwritten.disk, Function.update_of_ne (home_ne_logBlock ha (hroom tail b hb))]
        exact hsettled.home a ha
    · intro i x hi hle
      change (writeLogBody L s tail b).disk (L.logBlock i) = (writeLogBody L s tail b).view x
      rw [hview x i hi, hwritten.disk]
      by_cases heq : i = tail
      · subst heq
        rw [Function.update_self]
        rw [hb] at hi
        cases hi
        rfl
      · rw [Function.update_of_ne fun hsame =>
          heq (logBlock_inj (hroom i x hi) (hroom tail b hb) hsame)]
        exact hlogged i x hi (by omega)

/-- The header is written: what the buffers show is committed. -/
theorem Inv.head {u : T} (h : Inv L k c s) (hmode : s.mode = .committing u .writeHead)
    (hadmitted : Admitted k { writeHead L s with mode := .committing u (.installTrans 0) }) :
    Inv L k s.view { writeHead L s with mode := .committing u (.installTrans 0) } := by
  have hwritten := writeHead_written L s
  have hbeside := writeHead_beside L s
  have hlen := h.admitted.length_le (by rw [hmode]; rfl)
  have hpin : pinned s = s.block := by simp only [pinned, hmode]
  have hd := h.durable
  simp only [Durable, hmode] at hd
  obtain ⟨hsettled, hlogged⟩ := hd
  have hentries : ∀ e ∈ L.entries (writeHead L s).disk s.block, e.2 = s.view e.1 := by
    intro e he
    rw [hwritten.disk, entries_update_start hlen] at he
    obtain ⟨i, hi, rfl⟩ := mem_entries he
    exact hlogged i _ (List.getElem?_eq_getElem hi)
  refine ⟨hadmitted, ?_, hbeside.block ▸ h.nodup, fun a ha => h.home a (hbeside.block ▸ ha), ?_⟩
  · refine h.buffers.written ⟨hwritten.disk, hwritten.self, hwritten.other⟩ hbeside.pc
      (h.admitted.quiet (by simp [hmode])) ?_
    intro a
    rw [hpin]
    simp only [pinned, hbeside.block, List.drop_zero]
    constructor
    · exact fun ha => ⟨ha, home_ne_start (h.home a ha)⟩
    · exact fun ha => ha.1
  · simp only [Durable, hbeside.block, List.drop_zero]
    refine ⟨⟨?_, hlen, h.home, h.nodup, hentries⟩, hentries, ?_⟩
    · rw [hwritten.disk, Function.update_self]
      refine readHeader_writeHeader _ (hlen.trans ?_)
      exact Nat.sub_le ..
    · intro a ha hout
      have hnot : a ∉ s.block := by
        intro hmem
        obtain ⟨i, hi, rfl⟩ := List.mem_iff_getElem.mp hmem
        have hi' : i < (L.entries (writeHead L s).disk s.block).length := by rwa [length_entries]
        exact hout _ (List.getElem_mem hi') (by rw [getElem_entries])
      rw [hwritten.disk, Function.update_of_ne (home_ne_start ha)]
      exact (h.view_eq (by simp [hmode]) (hpin ▸ hnot)).symm

theorem Inv.commit (h : Inv L k c s) (hs : commit L s = .next s') : Inv L k (s.committed c) s' := by
  have hadmitted := h.admitted.commit hs
  obtain ⟨u, hstep⟩ := commit_next hs
  have hd := h.durable
  cases hstep with
  | start hmode hn =>
    simp only [State.committed, hmode]
    simp only [Durable, hmode] at hd
    refine ⟨hadmitted, h.buffers.congr rfl (fun _ => .inl rfl) (fun _ => rfl) ?_, h.nodup,
      h.home, hd, ?_⟩
    · simp [pinned, hmode]
    · exact fun i x _ hi => absurd hi (Nat.not_lt_zero i)
  | nothing hmode hn =>
    simp only [State.committed, hmode]
    simp only [Durable, hmode] at hd
    refine ⟨hadmitted, h.buffers.congr rfl (fun _ => .inl rfl) (fun _ => rfl) ?_,
      h.nodup, h.home, hd⟩
    simp [pinned, hmode]
  | log tail b hmode hb hlog hfree =>
    simp only [State.committed, hmode]
    exact h.logBody hmode hb hadmitted
  | logged tail hmode hb =>
    simp only [State.committed, hmode]
    simp only [Durable, hmode] at hd
    refine ⟨hadmitted, h.buffers.congr rfl (fun _ => .inl rfl) (fun _ => rfl) ?_, h.nodup,
      h.home, hd.1, ?_⟩
    · simp [pinned, hmode]
    · intro i x hi
      obtain ⟨hi', -⟩ := List.getElem?_eq_some_iff.mp hi
      exact hd.2 i x hi (Nat.lt_of_lt_of_le hi' hb)
  | head hmode hfree =>
    simp only [State.committed, hmode]
    exact h.head hmode hadmitted
  | install tail b hmode hb hlog hfree =>
    simp only [State.committed, hmode]
    simp only [Durable, hmode] at hd
    refine h.installBody hb (by simp [hmode]) hadmitted ?_ hd.1 hd.2 ?_
    · intro a
      simp only [pinned, hmode, (installBody_beside L s tail b).block]
      exact mem_drop_succ h.nodup hb
    · intro d' hlog' hcov'
      simp only [Durable, (installBody_beside L s tail b).block]
      exact ⟨hlog', hcov'⟩
  | installed tail hmode hb =>
    simp only [State.committed, hmode]
    simp only [Durable, hmode] at hd
    refine ⟨hadmitted, h.buffers.congr rfl (fun _ => .inl rfl) (fun _ => rfl) ?_, List.nodup_nil,
      by simp, ?_⟩
    · simp [pinned, hmode, List.drop_eq_nil_of_le hb]
    · exact ⟨⟨s.block, hd.1⟩, covers_done hb hd.2⟩
  | erase hmode hfree =>
    simp only [State.committed, hmode]
    simp only [Durable, hmode] at hd
    have hempty := h.admitted.emptied (by rw [hmode]; rfl)
    refine h.eraseHead hempty (by simp [hmode]) hadmitted ?_ ?_ hd.2 fun d' hd' => hd'
    · simp [pinned, hmode, hempty]
    · simp [pinned, (writeHead_beside L s).block, hempty]
  | done hmode =>
    simp only [State.committed, hmode]
    simp only [Durable, hmode] at hd
    refine ⟨hadmitted, h.buffers.congr rfl (fun _ => .inl rfl) (fun _ => rfl) ?_,
      h.nodup, h.home, hd⟩
    simp [pinned, hmode]

theorem Inv.recover (h : Inv L k c s) (hs : recover L s = .next s') : Inv L k c s' := by
  have hadmitted := h.admitted.recover hs
  have hd := h.durable
  cases recover_next hs with
  | head block hmode hread =>
    simp only [Durable, hmode] at hd
    obtain ⟨l, hlog, hcov⟩ := hd
    have hview : s.view L.start = s.disk L.start :=
      h.view_eq (by simp [hmode]) (by simp [pinned, hmode])
    rw [hview, hlog.header] at hread
    cases hread
    refine ⟨hadmitted, ?_, hlog.nodup, hlog.home, ?_⟩
    · have hbeside := load_beside s L.start
      refine h.buffers.congr (load_disk s L.start) (load_cache s L.start) (fun t => ?_) ?_
      · exact congrArg (fun pc => (pc t).pending) hbeside.pc
      · simp [pinned, hmode]
    · simp only [Durable, load_disk, List.drop_zero]
      exact ⟨hlog, hcov⟩
  | install tail b hmode hb =>
    simp only [Durable, hmode] at hd
    refine h.installBody hb (by simp [hmode]) hadmitted ?_ hd.1 hd.2 ?_
    · simp [pinned, hmode]
    · intro d' hlog' hcov'
      simp only [Durable, (installBody_beside L s tail b).block]
      exact ⟨hlog', hcov'⟩
  | installed tail hmode hb =>
    simp only [Durable, hmode] at hd
    refine ⟨hadmitted, h.buffers.congr rfl (fun _ => .inl rfl) (fun _ => rfl) ?_, List.nodup_nil,
      by simp, ?_⟩
    · simp [pinned, hmode]
    · exact ⟨⟨s.block, hd.1⟩, covers_done hb hd.2⟩
  | erase hmode =>
    simp only [Durable, hmode] at hd
    have hempty := h.admitted.emptied (by rw [hmode]; rfl)
    refine h.eraseHead hempty (by simp [hmode]) hadmitted ?_ ?_ hd.2 fun d' hd' => hd'
    · simp [pinned, hmode]
    · simp [pinned, (writeHead_beside L s).block, hempty]

/-- No operation runs and no commit is under way. -/
def State.quiescent (s : State T) : Prop := s.mode = .running ∧ s.outstanding = 0

/-- When nothing runs, what the buffers show is committed. -/
theorem Inv.quiescent (h : Inv L k c s) (hq : s.quiescent) : ∀ a, L.Home a → s.view a = c a := by
  intro a ha
  have hempty := h.admitted.fresh hq.1 hq.2
  have hpend (t : T) : (s.pc t).pending ≠ some a := by
    have hle := le_total Pc.active s.pc t
    rw [← h.admitted.count, hq.2] at hle
    cases hp : s.pc t with
    | user | inOp => simp [Pc.pending]
    | modified | checked => simp [hp, Pc.active] at hle
  rw [h.buffers.view_eq (by simp [pinned, hq.1, hempty]) hpend]
  exact (h.settled hq.1).home a ha

variable [DecidableEq T] {t : T} {new : Block}

theorem Inv.beginOp (h : Inv L k c s) (hk : k ≤ MAXOPBLOCKS - 1) (hs : beginOp s t = .next s') :
    Inv L k c s' := by
  have hadmitted := h.admitted.beginOp hk hs
  obtain ⟨hmode, hpc, -, rfl⟩ := beginOp_next hs
  refine ⟨hadmitted, h.buffers.congr rfl (fun _ => .inl rfl) ?_ fun _ => Iff.rfl, h.nodup, h.home,
    h.durable.congr rfl rfl rfl fun _ => rfl⟩
  intro u
  by_cases hu : u = t
  · subst hu
    simp [State.setPc, hpc, Pc.pending]
  · simp [State.setPc, hu]

theorem Inv.modify (h : Inv L k c s) (hs : modify L k s t b new = .next s') : Inv L k c s' := by
  have hadmitted := h.admitted.modify hs
  obtain ⟨logged, buf, hpc, hbuf, hholder, hhome, -, rfl⟩ := modify_next hs
  have hmode := h.admitted.running (t := t) (by simp [hpc])
  refine ⟨hadmitted, ?_, h.nodup, h.home, ?_⟩
  · have hother (u : T) (hu : u ≠ t) : (s.pc u).pending ≠ some b :=
      h.buffers.not_pending hbuf hholder fun heq => hu (Option.some.inj heq).symm
    constructor
    · intro u a ha
      by_cases hu : u = t
      · subst hu
        simp only [State.setPc, Function.update_self, Pc.pending, Option.some.injEq] at ha
        subst ha
        exact ⟨hhome, { buf with data := new }, Function.update_self .., hholder⟩
      · simp only [State.setPc, Function.update_of_ne hu] at ha
        have hne : a ≠ b := by
          rintro rfl
          exact hother u hu ha
        simpa only [State.setPc, State.setBuf, Function.update_of_ne hne]
          using h.buffers.held u a ha
    · intro a buf' hbuf' hdirty hpend
      have hne : a ≠ b := by
        rintro rfl
        exact hpend t (by simp [State.setPc, Pc.pending])
      simp only [State.setPc, State.setBuf, Function.update_of_ne hne] at hbuf'
      refine h.buffers.clean a buf' hbuf' hdirty fun u hu => ?_
      by_cases hut : u = t
      · subst hut
        simp [hpc, Pc.pending] at hu
      · exact hpend u (by simpa [State.setPc, State.setBuf, hut] using hu)
    · intro a
      refine (h.buffers.dirty a).trans ?_
      by_cases ha : a = b
      · subst ha
        simp [State.setPc, State.setBuf, hbuf]
      · simp only [State.setPc, State.setBuf, Function.update_of_ne ha]
  · simpa only [Durable, State.setPc, State.setBuf, hmode] using h.settled hmode

theorem Inv.logWrite (h : Inv L k c s) (hs : logWrite L s t = .next s') : Inv L k c s' := by
  have hadmitted := h.admitted.logWrite hs
  cases logWrite_next hs with
  | check logged b hpc hroom =>
    refine ⟨hadmitted, h.buffers.congr rfl (fun _ => .inl rfl) ?_ fun _ => Iff.rfl, h.nodup, h.home,
      h.durable.congr rfl rfl rfl fun _ => rfl⟩
    intro u
    by_cases hu : u = t
    · subst hu
      simp [State.setPc, hpc, Pc.pending]
    · simp [State.setPc, hu]
  | update logged b buf hpc hbuf =>
    have hmode := h.admitted.running (t := t) (by simp [hpc])
    obtain ⟨hhome, buf', hbuf', hholder⟩ := h.buffers.held t b (by rw [hpc]; rfl)
    obtain rfl : buf = buf' := Option.some.inj (hbuf.symm.trans hbuf')
    refine ⟨hadmitted, ?_, nodup_absorb b h.nodup, ?_, ?_⟩
    · constructor
      · intro u a ha
        by_cases hu : u = t
        · subst hu
          simp [State.setPc, Pc.pending] at ha
        · simp only [State.setPc, Function.update_of_ne hu] at ha
          have hne : a ≠ b := by
            rintro rfl
            exact h.buffers.not_pending hbuf hholder (fun heq => hu (Option.some.inj heq).symm) ha
          simpa only [State.setPc, State.setBuf, Function.update_of_ne hne]
            using h.buffers.held u a ha
      · intro a buf' hbuf' hdirty hpend
        have hne : a ≠ b := by
          rintro rfl
          simp only [State.setPc, State.setBuf, Function.update_self, Option.some.injEq] at hbuf'
          subst hbuf'
          simp at hdirty
        simp only [State.setPc, State.setBuf, Function.update_of_ne hne] at hbuf'
        refine h.buffers.clean a buf' hbuf' hdirty fun u hu => ?_
        by_cases hut : u = t
        · subst hut
          simp only [hpc, Pc.pending, Option.some.injEq] at hu
          exact hne hu.symm
        · exact hpend u (by simpa [State.setPc, State.setBuf, hut] using hu)
      · intro a
        have hold := h.buffers.dirty a
        simp only [pinned, hmode] at hold
        simp only [pinned, State.setPc, State.setBuf, hmode, mem_absorb, hold]
        by_cases ha : a = b
        · subst ha
          simp
        · simp [ha]
    · intro a ha
      rcases (mem_absorb s.block b a).mp ha with rfl | hmem
      · exact hhome
      · exact h.home a hmem
    · simpa only [Durable, State.setPc, State.setBuf, hmode] using h.settled hmode

theorem Inv.endOp (h : Inv L k c s) (hs : endOp s t = .next s') : Inv L k c s' := by
  have hadmitted := h.admitted.endOp hs
  obtain ⟨⟨logged, hpc⟩, hstep⟩ := endOp_next hs
  have hmode := h.admitted.running (t := t) (by simp [hpc])
  have hpend (u : T) : (Function.update s.pc t .user u).pending = (s.pc u).pending := by
    by_cases hu : u = t
    · subst hu
      simp [hpc, Pc.pending]
    · simp [hu]
  cases hstep with
  | last hone =>
    refine ⟨hadmitted, h.buffers.congr rfl (fun _ => .inl rfl) hpend ?_, h.nodup, h.home, ?_⟩
    · simp [pinned, hmode, State.setPc]
    · exact h.settled hmode
  | more hmore =>
    exact ⟨hadmitted, h.buffers.congr rfl (fun _ => .inl rfl) hpend fun _ => Iff.rfl,
      h.nodup, h.home, h.durable.congr rfl rfl rfl fun _ => rfl⟩

/-- What is committed after a step. -/
def committed (s : State T) (c : Disk) : Action T → Disk
  | .commit => s.committed c
  | _ => c

theorem step_inv {a : Action T} (h : Inv L k c s) (hk : k ≤ MAXOPBLOCKS - 1)
    (hs : step L k s a = .next s') : Inv L k (committed s c a) s' := by
  cases a with
  | beginOp t => exact h.beginOp hk hs
  | bread t b =>
    obtain ⟨-, buf, hbuf, hholder, rfl⟩ := bread_next hs
    refine h.setHolder hbuf fun u hu => ?_
    obtain ⟨-, buf', hbuf', hheld⟩ := h.buffers.held u b hu
    cases load_cache s b b with
    | inl hsame =>
      obtain rfl : buf = buf' := Option.some.inj ((hbuf.symm.trans hsame).trans hbuf')
      simp [hholder] at hheld
    | inr hnew => simp [hnew.1] at hbuf'
  | modify t b new => exact h.modify hs
  | logWrite t => exact h.logWrite hs
  | brelse t b =>
    obtain ⟨hpc, buf, hbuf, hholder, rfl⟩ := brelse_next hs
    refine @Inv.setHolder _ _ _ _ _ _ _ h buf _ ?_ fun u hu => ?_
    · simp only [State.load, hbuf]
    · by_cases hut : u = t
      · subst hut
        cases hp : s.pc u with
        | user | inOp => simp [hp, Pc.pending] at hu
        | modified logged e => exact (hpc logged e).1 hp
        | checked logged e => exact (hpc logged e).2 hp
      · exact h.buffers.not_pending hbuf hholder (fun heq => hut (Option.some.inj heq).symm) hu
  | endOp t => exact h.endOp hs
  | commit => exact h.commit hs
  | recover => exact h.recover hs
  | evict b => exact h.evict hs
  | crash =>
    cases hs
    exact reset_inv h.durable.recoverable

/-- The run went through `q`, where no operation was running, and `c` is what the
buffers showed there and at every quiet state since. -/
structure Point (L : Layout) (k : Nat) (c : Disk) (s₀ : State T) (acts : List (Action T))
    (q : State T) (post : List (Action T)) : Prop where
  reached : ∃ pre, acts = pre ++ post ∧ run L k s₀ pre = .next q
  quiet : q.outstanding = 0
  view : ∀ a, L.Home a → q.view a = c a
  since : ∀ p r q', post = p ++ r → run L k q p = .next q' → q'.quiescent → ∀ a, L.Home a →
    q'.view a = c a

theorem Point.concat {s₀ q : State T} {acts post : List (Action T)} {a : Action T}
    (h : Point L k c s₀ acts q post) (hrun : run L k s₀ (acts ++ [a]) = .next s')
    (hs' : Inv L k c s') : Point L k c s₀ (acts ++ [a]) q (post ++ [a]) := by
  obtain ⟨pre, rfl, hpre⟩ := h.reached
  refine ⟨⟨pre, by simp, hpre⟩, h.quiet, h.view, ?_⟩
  intro p r q' hsplit hq' hquiet
  rcases List.eq_nil_or_concat r with rfl | ⟨r', x, rfl⟩
  · -- the last state of the run
    have hp : p = post ++ [a] := by simpa using hsplit.symm
    have hlast : run L k s₀ (pre ++ p) = .next q' := by rw [run_append, hpre]; exact hq'
    rw [hp, ← List.append_assoc, hrun] at hlast
    cases hlast
    exact hs'.quiescent hquiet
  · have hinit : post = p ++ r' := by
      rw [List.concat_eq_append, ← List.append_assoc] at hsplit
      exact (List.append_inj' hsplit rfl).1
    exact h.since p r' q' hinit hq' hquiet

/-- The header has been written: the run is at a new point. -/
theorem Point.fresh {s₀ s₁ : State T} {acts : List (Action T)} {a : Action T}
    (hrun : run L k s₀ acts = .next s₁)
    (hquiet : s₁.outstanding = 0) (hmode : s₁.mode ≠ .running) (hstep : step L k s₁ a = .next s')
    (hs' : Inv L k s₁.view s') : Point L k s₁.view s₀ (acts ++ [a]) s₁ [a] := by
  refine ⟨⟨acts, rfl, hrun⟩, hquiet, fun _ _ => rfl, ?_⟩
  intro p r q' hsplit hq' hq
  cases p with
  | nil =>
    cases hq'
    exact absurd hq.1 hmode
  | cons x p =>
    obtain ⟨rfl, hp⟩ := List.cons.inj hsplit
    obtain ⟨rfl, -⟩ := List.append_eq_nil_iff.mp hp.symm
    simp only [run, hstep] at hq'
    cases hq'
    exact hs'.quiescent hq

theorem run_point {d : Disk} (hd : readHeader (d L.start) = some []) (hk : k ≤ MAXOPBLOCKS - 1)
    (acts : List (Action T)) (s : State T) (hrun : run L k (reset d) acts = .next s) :
    ∃ c q post, Inv L k c s ∧ Point L k c (reset d) acts q post := by
  induction acts using List.reverseRecOn generalizing s with
  | nil =>
    cases hrun
    have hsettled : Settled L d d := ⟨hd, fun _ _ => rfl⟩
    refine ⟨d, reset d, [], reset_inv ⟨[], hsettled.logged, hsettled.covers⟩, ⟨[], rfl, rfl⟩, rfl,
      fun _ _ => rfl, ?_⟩
    intro p r q' hsplit hq' hq
    obtain ⟨rfl, -⟩ := List.append_eq_nil_iff.mp hsplit.symm
    cases hq'
    cases hq.1
  | append_singleton acts a ih =>
    obtain ⟨s₁, hrun₁, hstep⟩ := run_concat hrun
    obtain ⟨c, q, post, hinv, hpoint⟩ := ih s₁ hrun₁
    have hnext := step_inv hinv hk hstep
    by_cases hsame : committed s₁ c a = c
    · rw [hsame] at hnext
      exact ⟨c, q, post ++ [a], hnext, hpoint.concat hrun hnext⟩
    · cases a with
      | commit =>
        simp only [committed, State.committed] at hsame hnext
        split at hnext
        · next u hmode =>
          have huser := hinv.admitted.quiet (by simp [hmode])
          have hzero := hinv.admitted.count.trans (total_of_user Pc.active s₁.pc huser rfl)
          exact ⟨s₁.view, s₁, [.commit], hnext,
            Point.fresh hrun₁ hzero (by simp [hmode]) hstep hnext⟩
        · next hmode =>
          split at hsame
          · next u hmode' => exact absurd hmode' (hmode u)
          · exact absurd rfl hsame
      | _ => exact absurd rfl hsame

/-- Whenever the machine stops, also during a recovery, `recover_from_log` gives
what the buffers showed at a moment of the run when no operation was running, and
nothing that was complete at a quiet moment before is lost. -/
theorem crash_restores {d : Disk} (hd : readHeader (d L.start) = some []) (hk : k ≤ MAXOPBLOCKS - 1)
    (acts : List (Action T)) (s : State T) (hrun : run L k (reset d) acts = .next s) :
    ∃ pre post q d', acts = pre ++ post ∧ run L k (reset d) pre = .next q ∧ q.outstanding = 0 ∧
      recoverFromLog L s.disk = some d' ∧ readHeader (d' L.start) = some [] ∧
      (∀ a, L.Home a → d' a = q.view a) ∧
      ∀ p r q', post = p ++ r → run L k q p = .next q' → q'.quiescent →
        ∀ a, L.Home a → q'.view a = q.view a := by
  obtain ⟨c, q, post, hinv, hpoint⟩ := run_point hd hk acts s hrun
  obtain ⟨pre, hacts, hpre⟩ := hpoint.reached
  obtain ⟨d', hrecover, hsettled⟩ := recoverFromLog_eq hinv.durable.recoverable
  refine ⟨pre, post, q, d', hacts, hpre, hpoint.quiet, hrecover, hsettled.header, ?_, ?_⟩
  · exact fun a ha => (hsettled.home a ha).trans (hpoint.view a ha).symm
  · intro p r q' hsplit hq' hquiet a ha
    exact (hpoint.since p r q' hsplit hq' hquiet a ha).trans (hpoint.view a ha).symm

end Invariant

section Midway

/-- An operation logs two blocks and ends; the machine stops after one of them
is installed, and again after the first step of the recovery. -/
def midway : List (Action Pid) :=
  [.recover, .recover, .recover, .beginOp (proc 0)] ++ logBlocks (proc 0) 100 2 ++
    [.endOp (proc 0)] ++ List.replicate 6 .commit ++ [.crash, .recover, .crash]

theorem midway_runs : ∃ s, run mkfsLayout 9 (reset fun _ _ => 0) midway = .next s := by
  apply exists_of_isNext
  decide +kernel

theorem crash_restores_midway : ∃ s, run mkfsLayout 9 (reset fun _ _ => 0) midway = .next s ∧
    ∃ pre post q d', midway = pre ++ post ∧ run mkfsLayout 9 (reset fun _ _ => 0) pre = .next q ∧
      q.outstanding = 0 ∧ recoverFromLog mkfsLayout s.disk = some d' ∧
      readHeader (d' mkfsLayout.start) = some [] ∧ (∀ a, mkfsLayout.Home a → d' a = q.view a) ∧
      ∀ p r q', post = p ++ r → run mkfsLayout 9 q p = .next q' → q'.quiescent →
        ∀ a, mkfsLayout.Home a → q'.view a = q.view a := by
  obtain ⟨s, hs⟩ := midway_runs
  exact ⟨s, hs, crash_restores (by decide) (by decide) midway s hs⟩

end Midway

end Cs3650.Xv6.Log
