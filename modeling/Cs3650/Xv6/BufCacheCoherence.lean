import Cs3650.Xv6.BufCacheRuns

/-!
# What the buffer cache promises its callers
-/

namespace Cs3650.Xv6.BufCache

open Cs3650.Lib

section Coherent

variable {D T : Type}

/-- A buffer has what was stored in its block, and so has the disk unless the
buffer is dirty. -/
structure Coherent (disk : BlockId → D) (s : State D T) (evs : List (Event D T)) : Prop where
  data : ∀ b, (s.buf b).dev ≠ 0 → (s.buf b).valid = true →
    (s.buf b).data = latest disk evs (s.buf b).id
  clean : ∀ b, (s.buf b).dev ≠ 0 → (s.buf b).dirty = false →
    s.disk (s.buf b).id = latest disk evs (s.buf b).id
  uncached : ∀ k : BlockId, k.1 ≠ 0 → (∀ b, (s.buf b).id ≠ k) → s.disk k = latest disk evs k

variable {disk : BlockId → D} {s s' : State D T} {t : T} {b : BufId} {es evs : List (Event D T)}

theorem latest_append (evs : List (Event D T)) (e : Event D T) (k : BlockId) :
    latest disk (evs ++ [e]) k = e.store k (latest disk evs k) := by
  simp [latest]

theorem Coherent.quiet (h : Coherent disk s evs) (hdisk : s'.disk = s.disk)
    (hid : ∀ c, (s'.buf c).id = (s.buf c).id)
    (hdata : ∀ c, (s'.buf c).data = (s.buf c).data)
    (hvalid : ∀ c, (s'.buf c).valid = (s.buf c).valid)
    (hdirty : ∀ c, (s'.buf c).dirty = (s.buf c).dirty)
    (hevs : ∀ k, latest disk (evs ++ es) k = latest disk evs k) : Coherent disk s' (evs ++ es) := by
  have hdev (c : BufId) : (s'.buf c).dev = (s.buf c).dev := congrArg Prod.fst (hid c)
  refine ⟨fun c hc hv => ?_, fun c hc hd => ?_, fun k hk hnone => ?_⟩
  · rw [hdata c, hid c, hevs]
    exact h.data c (hdev c ▸ hc) (hvalid c ▸ hv)
  · rw [hdisk, hid c, hevs]
    exact h.clean c (hdev c ▸ hc) (hdirty c ▸ hd)
  · rw [hdisk, hevs]
    exact h.uncached k hk fun c => hid c ▸ hnone c

theorem data_setBuf {x : Buf D T} (hx : x.data = (s.buf b).data) (c : BufId) :
    ((s.setBuf b x).buf c).data = (s.buf c).data := by
  by_cases hc : c = b
  · subst hc
    simpa only [State.setBuf, Function.update_self] using hx
  · simp only [State.setBuf, Function.update_of_ne hc]

/-- Another block than that of the buffer. -/
theorem Named.id_ne (h : Named s) {c : BufId} (hc : c ≠ b) (hdev : (s.buf c).dev ≠ 0) :
    (s.buf c).id ≠ (s.buf b).id :=
  fun heq => hc (h.unique c b heq hdev)

variable [DecidableEq T] {p : Pc}

theorem Coherent.recycle (h : Coherent disk s evs) {x : Buf D T} {dev blockno : Nat}
    (hdev : dev ≠ 0)
    (hx : x.id = (dev, blockno)) (hvalid : x.valid = false) (hdirty : (s.buf b).dirty = false)
    (hnew : ∀ c, (s.buf c).id ≠ (dev, blockno)) :
    Coherent disk ((s.setBuf b x).goto t p) (evs ++ []) := by
  have hself : ((s.setBuf b x).goto t p).buf b = x := Function.update_self ..
  have hother (c : BufId) (hc : c ≠ b) : ((s.setBuf b x).goto t p).buf c = s.buf c :=
    Function.update_of_ne hc ..
  rw [List.append_nil]
  refine ⟨fun c hc hv => ?_, fun c hc hd => ?_, fun k hk hnone => ?_⟩
  · by_cases hcb : c = b
    · rw [hcb, hself, hvalid] at hv
      cases hv
    · rw [hother c hcb] at hc hv ⊢
      exact h.data c hc hv
  · by_cases hcb : c = b
    · rw [hcb, hself, hx]
      exact h.uncached (dev, blockno) hdev hnew
    · rw [hother c hcb] at hc hd ⊢
      exact h.clean c hc hd
  · by_cases hold : (s.buf b).id = k
    · have hbdev : (s.buf b).dev ≠ 0 := by
        have hfst : (s.buf b).dev = k.1 := congrArg Prod.fst hold
        rwa [hfst]
      rw [← hold]
      exact h.clean b hbdev hdirty
    · refine h.uncached k hk fun c => ?_
      by_cases hcb : c = b
      · exact hcb ▸ hold
      · have hc := hnone c
        rwa [hother c hcb] at hc

theorem Coherent.store (h : Coherent disk s evs) (hn : Named s) {x : Buf D T} {data : D}
    (hid : x.id = (s.buf b).id) (hdata : x.data = data) (hdirty : x.dirty = true) :
    Coherent disk ((s.setBuf b x).goto t p)
      (evs ++ [.stored t b (s.buf b).dev (s.buf b).blockno data]) := by
  have hself : ((s.setBuf b x).goto t p).buf b = x := Function.update_self ..
  have hother (c : BufId) (hc : c ≠ b) : ((s.setBuf b x).goto t p).buf c = s.buf c :=
    Function.update_of_ne hc ..
  have hlatest (k : BlockId) :
      latest disk (evs ++ [.stored t b (s.buf b).dev (s.buf b).blockno data]) k =
      if (s.buf b).id = k then data else latest disk evs k := latest_append ..
  refine ⟨fun c hc hv => ?_, fun c hc hd => ?_, fun k hk hnone => ?_⟩
  · by_cases hcb : c = b
    · rw [hcb, hself, hlatest, hid, if_pos rfl, hdata]
    · rw [hother c hcb] at hc hv ⊢
      rw [hlatest, if_neg (hn.id_ne hcb hc).symm]
      exact h.data c hc hv
  · by_cases hcb : c = b
    · rw [hcb, hself, hdirty] at hd
      cases hd
    · rw [hother c hcb] at hc hd ⊢
      rw [hlatest, if_neg (hn.id_ne hcb hc).symm]
      exact h.clean c hc hd
  · have hne : (s.buf b).id ≠ k := by
      have hb := hnone b
      rwa [hself, hid] at hb
    rw [hlatest, if_neg hne]
    refine h.uncached k hk fun c => ?_
    by_cases hcb : c = b
    · exact hcb ▸ hne
    · have hc := hnone c
      rwa [hother c hcb] at hc

/-- The disk has worked for a buffer. -/
theorem Coherent.iderw (h : Coherent disk s evs) (hn : Named s) (hbdev : (s.buf b).dev ≠ 0)
    (hvalid : (s.buf b).dirty = true → (s.buf b).valid = true) (hdisk : iderw s b = some s')
    (hevs : ∀ k, latest disk (evs ++ es) k = latest disk evs k) :
    Coherent disk (s'.goto t p) (evs ++ es) ∧
      (s'.buf b).data = latest disk evs (s.buf b).id := by
  rcases iderw_cases hdisk with ⟨hdirty, rfl⟩ | ⟨hdirty, hloaded, rfl⟩
  · have hdata := h.data b hbdev (hvalid hdirty)
    have hsame (k : BlockId) : Function.update s.disk (s.buf b).id (s.buf b).data k =
        if k = (s.buf b).id then latest disk evs k else s.disk k := by
      by_cases hk : k = (s.buf b).id
      · rw [if_pos hk, hk, Function.update_self, hdata]
      · rw [if_neg hk, Function.update_of_ne hk]
    refine ⟨⟨fun c hc hv => ?_, fun c hc hd => ?_, fun k hk hnone => ?_⟩, ?_⟩
    · by_cases hcb : c = b
      · subst hcb
        rw [hevs]
        simp only [State.goto, State.setBuf, Function.update_self]
        exact hdata
      · simp only [State.goto, State.setBuf, Function.update_of_ne hcb] at hc hv ⊢
        rw [hevs]
        exact h.data c hc hv
    · rw [hevs]
      by_cases hcb : c = b
      · subst hcb
        simp only [State.goto, State.setBuf, Function.update_self]
        exact (hsame _).trans (if_pos rfl)
      · simp only [State.goto, State.setBuf, Function.update_of_ne hcb] at hc hd ⊢
        rw [hsame, if_neg (hn.id_ne hcb hc)]
        exact h.clean c hc hd
    · have hne : k ≠ (s.buf b).id := by
        have hb := hnone b
        simp only [State.goto, State.setBuf, Function.update_self] at hb
        exact Ne.symm hb
      rw [hevs]
      refine ((hsame k).trans (if_neg hne)).trans (h.uncached k hk fun c => ?_)
      by_cases hcb : c = b
      · exact hcb ▸ Ne.symm hne
      · have hc := hnone c
        simpa only [State.goto, State.setBuf, Function.update_of_ne hcb] using hc
    · simpa only [State.setBuf, Function.update_self] using hdata
  · have hclean := h.clean b hbdev hdirty
    refine ⟨⟨fun c hc hv => ?_, fun c hc hd => ?_, fun k hk hnone => ?_⟩, ?_⟩
    · rw [hevs]
      by_cases hcb : c = b
      · subst hcb
        simp only [State.goto, State.setBuf, Function.update_self]
        exact hclean
      · simp only [State.goto, State.setBuf, Function.update_of_ne hcb] at hc hv ⊢
        exact h.data c hc hv
    · rw [hevs]
      by_cases hcb : c = b
      · subst hcb
        simp only [State.goto, State.setBuf, Function.update_self]
        exact hclean
      · simp only [State.goto, State.setBuf, Function.update_of_ne hcb] at hc hd ⊢
        exact h.clean c hc hd
    · rw [hevs]
      refine h.uncached k hk fun c => ?_
      have hc := hnone c
      by_cases hcb : c = b
      · subst hcb
        simp only [State.goto, State.setBuf, Function.update_self] at hc
        exact hc
      · simpa only [State.goto, State.setBuf, Function.update_of_ne hcb] using hc
    · simpa only [State.setBuf, Function.update_self] using hclean

end Coherent

section Inv

variable {D T : Type} [DecidableEq T]

/-- What an event says of the events before it. -/
def Past (disk : BlockId → D) (before : List (Event D T)) : Event D T → Prop
  | .got _ _ dev blockno data => data = latest disk before (dev, blockno)
  | .stored t b dev blockno _ => holding t b before = some (dev, blockno)
  | .released .. | .freed _ => True

variable [Fintype T]

structure Inv (disk : BlockId → D) (s : State D T) (evs : List (Event D T)) : Prop where
  linked : s.links.Represents (order evs)
  counted : Counted s
  named : Named s
  owned : Owned s evs
  coherent : Coherent disk s evs
  fits : Fits (Past disk) evs

variable {disk : BlockId → D} {junk : D} {s s' : State D T} {a : Action D T}
    {es evs : List (Event D T)}

theorem Moves.coherent (hm : Moves s a s' es) (h : Inv disk s evs) :
    Coherent disk s' (evs ++ es) ∧ Fits (Past disk) (evs ++ es) := by
  have hc := h.coherent
  have hsilent : Fits (Past disk) (evs ++ []) := by
    rw [List.append_nil]
    exact h.fits
  have hnil (k : BlockId) : latest disk (evs ++ []) k = latest disk evs k := by rw [List.append_nil]
  cases hm with
  | hit t dev blockno b hpc =>
    exact ⟨hc.quiet rfl (id_setBuf rfl) (data_setBuf rfl) (valid_setBuf rfl) (dirty_setBuf rfl)
      hnil, hsilent⟩
  | miss t dev blockno b hpc hdev hnone hfind =>
    have hdirty := (unused_of_findUnused h.linked hfind).2
    exact ⟨hc.recycle hdev rfl rfl hdirty (findCached_none h.linked hnone), hsilent⟩
  | logWrite t b data hpc hlock =>
    have howns : s.owns t b := ⟨hlock, by rw [hpc]; rfl⟩
    have hheld := h.owned.held t b
    rw [if_pos howns] at hheld
    have hsame : Function.update s.pc t .user = s.pc := by rw [← hpc, Function.update_eq_self]
    have hstore :
        Coherent disk ((s.setBuf b { s.buf b with data := data, dirty := true }).goto t .user)
        (evs ++ [.stored t b (s.buf b).dev (s.buf b).blockno data]) := hc.store h.named rfl rfl rfl
    exact ⟨by simpa only [State.goto, State.setBuf, hsame] using hstore, h.fits.append hheld⟩
  | bwrite t b data hpc hlock =>
    have howns : s.owns t b := ⟨hlock, by rw [hpc]; rfl⟩
    have hheld := h.owned.held t b
    rw [if_pos howns] at hheld
    exact ⟨hc.store h.named rfl rfl rfl, h.fits.append hheld⟩
  | brelse t b hpc hlock =>
    exact ⟨hc.quiet rfl (id_setBuf rfl) (data_setBuf rfl) (valid_setBuf rfl) (dirty_setBuf rfl)
      fun k => latest_append .., h.fits.append trivial⟩
  | locked t b dev blockno hpc hfree =>
    exact ⟨hc.quiet rfl (id_setBuf rfl) (data_setBuf rfl) (valid_setBuf rfl) (dirty_setBuf rfl)
      hnil, hsilent⟩
  | cached t b dev blockno hpc hvalid =>
    obtain ⟨hblock, hdev⟩ := h.named.want t b dev blockno (.inr hpc)
    have hbdev : (s.buf b).dev ≠ 0 := by
      have hfst : (s.buf b).dev = dev := congrArg Prod.fst hblock
      rwa [hfst]
    have hdata := hc.data b hbdev hvalid
    rw [hblock] at hdata
    exact ⟨hc.quiet rfl (fun _ => rfl) (fun _ => rfl) (fun _ => rfl) (fun _ => rfl) fun k =>
      latest_append .., h.fits.append hdata⟩
  | filled t b dev blockno s₁ hpc hvalid hdisk =>
    obtain ⟨hblock, hdev⟩ := h.named.want t b dev blockno (.inr hpc)
    have hbdev : (s.buf b).dev ≠ 0 := by
      have hfst : (s.buf b).dev = dev := congrArg Prod.fst hblock
      rwa [hfst]
    obtain ⟨hcoherent, hdata⟩ :=
      hc.iderw (t := t) (p := .user) h.named hbdev (h.owned.dirty b) hdisk fun k =>
        latest_append evs (.got t b dev blockno (s₁.buf b).data) k
    rw [hblock] at hdata
    exact ⟨hcoherent, h.fits.append hdata⟩
  | written t b s₁ hpc hdisk =>
    have hlock := (h.owned.writing t b hpc).1
    have hbdev := h.named.locked b (by simp [hlock])
    exact ⟨(hc.iderw h.named hbdev (h.owned.dirty b) hdisk hnil).1, hsilent⟩
  | free t b hpc hlast =>
    exact ⟨hc.quiet rfl (id_setBuf rfl) (data_setBuf rfl) (valid_setBuf rfl) (dirty_setBuf rfl)
      fun k => latest_append .., h.fits.append trivial⟩
  | release t b hpc hmore =>
    exact ⟨hc.quiet rfl (id_setBuf rfl) (data_setBuf rfl) (valid_setBuf rfl) (dirty_setBuf rfl)
      hnil, hsilent⟩

theorem Inv.step (h : Inv disk s evs) (hs : step s a = some (s', es)) :
    Inv disk s' (evs ++ es) := by
  have hm := step_moves hs
  obtain ⟨hcoherent, hfits⟩ := hm.coherent h
  exact ⟨hm.linked h.linked, hm.counted h.linked h.counted,
    hm.named h.linked h.counted h.owned.lock_of_filling h.named,
    hm.owned h.linked h.counted h.named h.owned, hcoherent, hfits⟩

theorem binit_inv : Inv disk (binit disk junk : State D T) [] where
  linked := binit_linked
  counted := fun b => by simp [State.waiters, binit, Pc.waitsFor, holders]
  named := ⟨fun b c _ hdev => absurd rfl hdev, fun t b dev blockno hpc => by simp [binit] at hpc,
    fun b hb => absurd rfl hb⟩
  owned := by
    have hnobody (t : T) (b : BufId) : ¬(binit disk junk : State D T).owns t b :=
      fun howns => by cases howns.1
    refine ⟨fun t b hpc => ?_, fun t b hpc => ?_, fun t b howns => absurd howns (hnobody t b),
      fun b hd => ?_, fun t b => ?_⟩
    · cases hpc
    · cases hpc
    · cases hd
    · rw [if_neg (hnobody t b)]
      rfl
  coherent := ⟨fun b hdev => absurd rfl hdev, fun b hdev => absurd rfl hdev, fun k _ _ => rfl⟩
  fits := fits_nil

theorem run_inv {acts : List (Action D T)} (hrun : run (binit disk junk) acts = some (s, evs)) :
    Inv disk s evs :=
  runs_invariant (fun h hs => Inv.step h hs) binit_inv hrun

/-- After every run the links go through all the buffers, forwards and backwards in
the order of the last release, no block has two buffers, and `bget` takes the
buffer of the block or else, of those that are unused and clean, the one that
was released first. -/
theorem bget_lru {acts : List (Action D T)} (hrun : run (binit disk junk) acts = some (s, evs)) :
    s.links.Represents (order evs) ∧ (order evs).Perm (List.finRange NBUF).reverse ∧
      (order evs).Pairwise (fun b c => lastUse (uses evs) c ≤ lastUse (uses evs) b) ∧
      (∀ b c, (s.buf b).id = (s.buf c).id → (s.buf b).dev ≠ 0 → b = c) ∧
      ∀ dev blockno, dev ≠ 0 →
        (bget s dev blockno = none ↔ (∀ b, (s.buf b).id ≠ (dev, blockno)) ∧
          ∀ b, (s.buf b).refcnt ≠ 0 ∨ (s.buf b).dirty = true) ∧
        ∀ b s', bget s dev blockno = some (b, s') → (s'.buf b).id = (dev, blockno) ∧
          ((s.buf b).id = (dev, blockno) ∨ (∀ c, (s.buf c).id ≠ (dev, blockno)) ∧
            (s.buf b).refcnt = 0 ∧ (s.buf b).dirty = false ∧ ∀ c, (s.buf c).refcnt = 0 →
            (s.buf c).dirty = false →
              lastUse (uses evs) b ≤ lastUse (uses evs) c) := by
  have h := run_inv hrun
  have hl := h.linked
  refine ⟨hl, order_perm, moveToFront_pairwise nodup_start fun b _ => mem_start b, h.named.unique,
    fun dev blockno _ => ?_⟩
  cases hcached : findCached s dev blockno with
  | some b =>
    have hid := id_of_findCached hl hcached
    have hget :
        bget s dev blockno =
        some (b, s.setBuf b { s.buf b with refcnt := (s.buf b).refcnt + 1 }) := by
      simp [bget, hcached]
    refine ⟨⟨fun hnone => ?_, fun hnot => absurd hid (hnot.1 b)⟩, fun c s' hc => ?_⟩
    · rw [hget] at hnone
      cases hnone
    · rw [hget] at hc
      simp only [Option.some.injEq, Prod.mk.injEq] at hc
      obtain ⟨rfl, rfl⟩ := hc
      have hsame : ((s.setBuf b { s.buf b with refcnt := (s.buf b).refcnt + 1 }).buf b).id =
          (s.buf b).id := by
        simp [State.setBuf, Buf.id]
      exact ⟨hsame.trans hid, .inl hid⟩
  | none =>
    have hmissing := findCached_none hl hcached
    cases hunused : findUnused s with
    | none =>
      have hget : bget s dev blockno = none := by simp [bget, hcached, hunused]
      refine ⟨⟨fun _ => ⟨hmissing, findUnused_none hl hunused⟩, fun _ => hget⟩, fun c s' hc => ?_⟩
      rw [hget] at hc
      cases hc
    | some b =>
      obtain ⟨hzero, hclean⟩ := unused_of_findUnused hl hunused
      have hget : bget s dev blockno = some (b, s.setBuf b { s.buf b with
          dev := dev, blockno := blockno, valid := false, dirty := false, refcnt := 1 }) := by
        simp [bget, hcached, hunused]
      refine ⟨⟨fun hnone => ?_, fun hnot => ?_⟩, fun c s' hc => ?_⟩
      · rw [hget] at hnone
        cases hnone
      · cases hnot.2 b with
        | inl hne => exact absurd hzero hne
        | inr hd =>
          rw [hclean] at hd
          cases hd
      · rw [hget] at hc
        simp only [Option.some.injEq, Prod.mk.injEq] at hc
        obtain ⟨rfl, rfl⟩ := hc
        refine ⟨by simp [State.setBuf, Buf.id], .inr ⟨hmissing, hzero, hclean, fun c hc hd => ?_⟩⟩
        exact lastUse_of_findUnused hl hunused hc hd

def firstBuf : BufId := ⟨0, Nat.succ_pos 29⟩

/-- Process `false` stores 7 in a block, and process `true`, which waits for the
buffer, reads it. -/
def passed : List (Action Nat Bool) :=
  [.bread false 1 5, .run false, .run false, .bread true 1 5, .logWrite false firstBuf 7,
    .brelse false firstBuf, .run false, .run true, .run true]

theorem passed_runs : ∃ r, run (binit (fun _ => 3) 0) passed = some r ∧
    ∃ before, r.2 = before ++ [.got true firstBuf 1 5 7] := by
  refine ⟨_, (Option.some_get (by decide +kernel)).symm,
    [.got false firstBuf 1 5 3, .stored false firstBuf 1 5 7, .released false firstBuf], ?_⟩
  rfl

theorem bget_lru_passed :
    ∃ r, run (binit (fun _ => 3) 0) passed = some r ∧ r.1.links.Represents (order r.2) := by
  obtain ⟨r, hr, -⟩ := passed_runs
  exact ⟨r, hr, (bget_lru hr).1⟩

/-- What `bread` returns is what was stored in the block last, by any process. A
process stores into the block it has asked for, and while it has the buffer no
other process has it and the buffer stays with the block. -/
theorem bread_latest {acts : List (Action D T)}
    (hrun : run (binit disk junk) acts = some (s, evs)) :
    (∀ before t b dev blockno data after, evs = before ++ .got t b dev blockno data :: after →
        data = latest disk before (dev, blockno)) ∧
      (∀ before t b dev blockno data after, evs = before ++ .stored t b dev blockno data :: after →
        holding t b before = some (dev, blockno)) ∧
      (∀ t b k, holding t b evs = some k → (s.buf b).id = k ∧ ∀ u c, holding u c evs = some k →
        u = t ∧ c = b) ∧
      ∀ b, (s.buf b).refcnt = (s.waiters b).card + holders (s.buf b).lock := by
  have h := run_inv hrun
  refine ⟨fun before t b dev blockno data after heq => h.fits _ _ _ heq,
    fun before t b dev blockno data after heq => h.fits _ _ _ heq, fun t b k hk => ?_, h.counted⟩
  have hhas {t : T} {b : BufId} (hheld : holding t b evs = some k) :
      s.owns t b ∧ (s.buf b).id = k := by
    rw [h.owned.held t b] at hheld
    by_cases howns : s.owns t b
    · rw [if_pos howns] at hheld
      exact ⟨howns, Option.some.inj hheld⟩
    · rw [if_neg howns] at hheld
      cases hheld
  obtain ⟨howns, hid⟩ := hhas hk
  have hdev := h.named.locked b (by simp [howns.1])
  refine ⟨hid, fun u c hc => ?_⟩
  obtain ⟨howns', hid'⟩ := hhas hc
  obtain rfl : b = c := h.named.unique b c (hid.trans hid'.symm) hdev
  have hsame := howns'.1
  rw [howns.1] at hsame
  exact ⟨(Option.some.inj hsame).symm, rfl⟩

theorem bread_latest_passed : ∃ r before, run (binit (fun _ => 3) 0) passed = some r ∧
    r.2 = before ++ [.got true firstBuf 1 5 7] ∧ 7 = latest (fun _ => 3) before (1, 5) := by
  obtain ⟨r, hr, before, heq⟩ := passed_runs
  exact ⟨r, before, hr, heq, (bread_latest hr).1 before true firstBuf 1 5 7 [] heq⟩

end Inv

end Cs3650.Xv6.BufCache
