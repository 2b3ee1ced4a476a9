import Cs3650.Nush.ScriptExec

/-!
# How a line spoils the rest of the script

For some answers of the world a line that is not fit kills the process that
executes it, or leaves it in a child as well; and one that does not leave the
file alone sets its offset back.
-/

namespace Cs3650.Nush

/-! ## Lines that are not fit -/

/-- For some answers of the world the calling process is killed. -/
def Dies (x : Exec) (gen : Nat) (s : Shell) : Prop :=
  ∃ o, ∀ k, EndsZero k → (x gen s o k).fate = .killed

/-- The call returns in the calling process and also in a child, whatever the
world answers to either afterwards. -/
def Strays (x : Exec) (gen : Nat) (s : Shell) : Prop :=
  ∃ (κ : Kind) (g : Nat) (rp rc : Int) (sp sc : Shell), gen < g ∧ κ.Is rp ∧ κ.Is rc ∧
    ∀ op oc, ∃ o, ∀ k, EndsZero k → Follows (x gen s o k) (k gen rp sp op) ∧
      ∀ a ∈ (k g rc sc oc).log, a ∈ (x gen s o k).log

def Escapes (x : Exec) : Prop := ∀ gen s, Dies x gen s ∨ Strays x gen s

/-- A call that for some answers of the world comes to another escapes with it. -/
theorem escapes_of_follows {x y : Exec} {gen : Nat} {s s' : Shell}
    (h : ∀ o', ∃ o, ∀ k, EndsZero k → Follows (x gen s o k) (y gen s' o' k))
    (hy : Dies y gen s' ∨ Strays y gen s') : Dies x gen s ∨ Strays x gen s := by
  rcases hy with ⟨o', hdies⟩ | ⟨κ, g, rp, rc, sp, sc, hg, hp, hc, hstray⟩
  · obtain ⟨o, ho⟩ := h o'
    exact Or.inl ⟨o, fun k hk => (ho k hk).1.trans (hdies k hk)⟩
  · refine Or.inr ⟨κ, g, rp, rc, sp, sc, hg, hp, hc, fun op oc => ?_⟩
    obtain ⟨o', ho'⟩ := hstray op oc
    obtain ⟨o, ho⟩ := h o'
    refine ⟨o, fun k hk => ⟨(ho k hk).trans (ho' k hk).1, fun a ha => ?_⟩⟩
    exact (ho k hk).2 a ((ho' k hk).2 a ha)

theorem Escapes.returning {x : Exec} (h : Escapes x) :
    Escapes fun gen s o k => x gen s o (returning gen k) := by
  intro gen s
  rcases h gen s with ⟨o, hdies⟩ | ⟨κ, g, rp, rc, sp, sc, hg, hp, hc, hstray⟩
  · exact Or.inl ⟨o, fun k hk => hdies _ (hk.returning gen)⟩
  · refine Or.inr ⟨κ, g, rp, rc, sp, sc, hg, hp, hc, fun op oc => ?_⟩
    obtain ⟨o, ho⟩ := hstray op oc
    refine ⟨o, fun k hk => ?_⟩
    obtain ⟨hfollows, hchild⟩ := ho (Nush.returning gen k) (hk.returning gen)
    refine ⟨hfollows.trans (follows_after _ _), fun a ha => hchild a ?_⟩
    exact List.mem_append_right _ ha

section EscapeSeq

variable {cond : Int → Bool} {runs : Kind → Bool} {ea eb : Ends} {a : Exec} {b : Astree}
  (hcond : ∀ κ r, Kind.Is κ r → cond r = runs κ)

include hcond

theorem escapes_seq_right (ha : ComesBack ea a) (hreach : reaches runs ea = true)
    (hb : Escapes (execute b)) : Escapes (seqCmd cond a (execute b)) := by
  intro gen s
  obtain ⟨s', hright⟩ := ha.reached_right hcond (fun _ _ hk => hk.next) hreach gen s
  exact escapes_of_follows hright (hb gen s')

/-- Where the left side also returns in a child, the right side runs in both. -/
theorem escapes_seq_left (ha : Escapes a)
    (hb : (ComesBack eb (execute b) ∧ reaches (fun _ => true) eb = true) ∨ Escapes (execute b)) :
    Escapes (seqCmd cond a (execute b)) := by
  intro gen s
  rcases ha gen s with ⟨o, hdies⟩ | ⟨κ, g, rp, rc, sp, sc, hg, hp, hc, hstray⟩
  · exact Or.inl ⟨o, fun k hk => hdies _ hk.next⟩
  · cases hruns : runs κ with
    | false =>
      refine Or.inr ⟨κ, g, rp, rc, sp, sc, hg, hp, hc, fun op oc => ?_⟩
      obtain ⟨o, ho⟩ := hstray op oc
      refine ⟨o, fun k hk => ?_⟩
      have hrun := ho (fun gen' first s' o' =>
        if cond first then execute b gen' s' o' k else k gen' first s' o') hk.next
      simp only [hcond κ rp hp, hcond κ rc hc, hruns] at hrun
      exact hrun
    | true =>
      have hrun : ∀ op oc, ∃ o, ∀ k, EndsZero k →
          Follows (seqCmd cond a (execute b) gen s o k) (execute b gen sp op k) ∧
            ∀ x ∈ (execute b g sc oc k).log, x ∈ (seqCmd cond a (execute b) gen s o k).log := by
        intro op oc
        obtain ⟨o, ho⟩ := hstray op oc
        refine ⟨o, fun k hk => ?_⟩
        have hrun := ho (fun gen' first s' o' =>
          if cond first then execute b gen' s' o' k else k gen' first s' o') hk.next
        simp only [hcond κ rp hp, hcond κ rc hc, hruns, if_true] at hrun
        exact hrun
      rcases hb with ⟨hback, hreach⟩ | hescapes
      · obtain ⟨κ', hne, he, -⟩ := reaches_exists hreach
        obtain ⟨rp', sp', hp', hpar⟩ := hback.comesBack gen sp he hne
        obtain ⟨rc', sc', hc', hchi⟩ := hback.comesBack g sc he hne
        refine Or.inr ⟨κ', g, rp', rc', sp', sc', hg, hp', hc', fun op oc => ?_⟩
        obtain ⟨op', hop⟩ := hpar op
        obtain ⟨oc', hoc⟩ := hchi oc
        obtain ⟨o, ho⟩ := hrun op' oc'
        refine ⟨o, fun k hk => ⟨(ho k hk).1.trans (hop k hk), fun x hx => ?_⟩⟩
        exact (ho k hk).2 x ((hoc k hk).2 x hx)
      · refine escapes_of_follows (fun o' => ?_) (hescapes gen sp)
        obtain ⟨o, ho⟩ := hrun o' fun _ => ⟨.killed, true⟩
        exact ⟨o, fun k hk => (ho k hk).1⟩

end EscapeSeq

theorem escapes_background (a : Exec) {b : Exec} (hb : Escapes b) :
    Escapes (backgroundCmd a b true) := by
  intro gen s
  exact escapes_of_follows
    (fun o => ⟨joinOracle o o, fun k _ => background_follows a b gen s o o k⟩) (hb gen s)

theorem escapes_rdrOut {ea : Ends} {a b : Astree} (hname : (fileName b).isSome = true)
    (ha : ComesBack ea (execute a)) (hreach : reaches (fun _ => true) ea = true) :
    Escapes (rdrOutCmd (execute a) b) := by
  intro gen s
  obtain ⟨path, hpath⟩ := Option.isSome_iff_exists.mp hname
  obtain ⟨κ, hne, he, -⟩ := reaches_exists hreach
  obtain ⟨rc, sc, -, hchild⟩ := ha.comesBack (gen + 1) s he hne
  refine Or.inr ⟨.zero, gen + 1, 0, 0, s, sc, by omega, rfl, rfl, fun op oc => ?_⟩
  obtain ⟨o, ho⟩ := hchild oc
  refine ⟨joinOracle o op, fun k hk => ?_⟩
  have hfollows := ho (fun gen' _ s' o' => k gen' 0 s' o') fun gen' _ s' o' => hk gen' 0 s' o'
  unfold rdrOutCmd
  rw [hpath]
  dsimp only
  rw [child_join, parent_join]
  unfold afterWait
  rw [hfollows.1, hk]
  exact ⟨follows_after _ _, fun x hx => List.mem_append_left _ (hfollows.2 x hx)⟩

theorem fit_returns {t : Astree} (hwf : WellFormed t) (hexit : noExit t = true)
    (hfit : fit t = true) : reaches (fun _ => true) (codes t) = true := by
  have hleaves := executeOn_leaves (w := ⟨fun _ => true, fun _ => 0⟩) (n := 0) hwf hfit false
  rcases hleaves 0 [] (fun _ => ⟨.killed, true⟩) ⟨0, 0, 0, []⟩ with
    ⟨he, -⟩ | ⟨κ, r, -, -, -, -, he, hr, -⟩
  · rw [codes_exit hexit] at he
    cases he
  · exact reaches_of hr he rfl

theorem execute_escapes {t : Astree} (hwf : WellFormed t) (hexit : noExit t = true)
    (hfit : fit t = false) : Escapes (execute t) := by
  induction t with
  | null => cases hfit
  | cmd words =>
    intro gen s
    have hcrash : crashes (.cmd words) = true := by
      rw [fit] at hfit
      simp [crashes, hfit]
    refine Or.inl ⟨fun _ => ⟨.killed, true⟩, fun k _ => ?_⟩
    rw [execute_crash hcrash]
    rfl
  | op oper a b iha ihb =>
    obtain ⟨hleft, hright, hwa, hwb⟩ := hwf
    obtain ⟨hea, heb⟩ := Bool.and_eq_true_iff.mp hexit
    have hb : (ComesBack (codes b) (execute b) ∧ reaches (fun _ => true) (codes b) = true) ∨
        Escapes (execute b) := by
      cases hfb : fit b with
      | true => exact Or.inl ⟨comesBack_codes hwb, fit_returns hwb heb hfb⟩
      | false => exact Or.inr (ihb hwb heb hfb)
    have hseq : ∀ {cond : Int → Bool} {runs : Kind → Bool},
        (∀ κ r, Kind.Is κ r → cond r = runs κ) →
        (fit a && (!reaches runs (codes a) || fit b)) = false →
        Escapes (seqCmd cond (execute a) (execute b)) := by
      intro cond runs hcond hunfit
      cases hfa : fit a with
      | true =>
        have hreach : reaches runs (codes a) = true ∧ fit b = false := by
          simpa [hfa] using hunfit
        exact escapes_seq_right hcond (comesBack_codes hwa) hreach.1 (ihb hwb heb hreach.2)
      | false => exact escapes_seq_left hcond (iha hwa hea hfa) hb
    cases oper with
    | semicolon => exact (hseq (semicolon_cond (decide (b ≠ .null))) hfit).returning
    | or =>
      have hescapes := hseq or_cond hfit
      rw [← orCmd_eq] at hescapes
      exact hescapes.returning
    | and =>
      have hescapes := hseq and_cond hfit
      rw [← andCmd_eq] at hescapes
      exact hescapes.returning
    | background =>
      have hne : decide (b ≠ .null) = true := by
        refine decide_eq_true ?_
        rintro rfl
        cases hfit
      have hescapes : Escapes (backgroundCmd (execute a) (execute b) (decide (b ≠ .null))) := by
        rw [hne]
        exact escapes_background _ (ihb hwb heb hfit)
      exact hescapes.returning
    | pipe => cases hfit
    | rdrIn => cases hfit
    | rdrOut =>
      have hboth : (fileName b).isSome = true ∧ reaches (fun _ => true) (codes a) = true := by
        simpa [fit] using hfit
      exact (escapes_rdrOut hboth.1 (comesBack_codes hwa) hboth.2).returning

/-! ## Lines that set the offset back -/

/-- Every exit comes at once. -/
abbrev World.prompt (installed : String → Bool) : World := ⟨installed, fun _ => 0⟩

theorem File.late_back (n : Nat) (f : File) : (f.back n).late = f.late := by
  unfold File.back
  split
  · rfl
  · rfl

/-- Nothing has been read since `f`. -/
def Below (f' f : File) : Prop := f'.offset ≤ f.offset ∧ f'.late = f.late

theorem Below.trans {f f' f'' : File} (h : Below f'' f') (h' : Below f' f) : Below f'' f :=
  ⟨h.1.trans h'.1, h.2.trans h'.2⟩

theorem below_exit (n : Nat) (background : Bool) (f : File) :
    Below (f.exit (fun _ => 0) n background) f := by
  refine ⟨File.offset_exit_le _ _ _ _, ?_⟩
  unfold File.exit
  split
  · rfl
  · split
    · exact File.late_back n f
    · exact File.late_back n f

theorem exit_lt {n : Nat} (hn : 0 < n) {f : File} (hf : n ≤ f.offset) (background : Bool) :
    (f.exit (fun _ => 0) n background).offset < f.offset := by
  have hback : (f.back n).offset < f.offset := by
    unfold File.back
    rw [if_pos hf]
    show f.offset - n < f.offset
    omega
  unfold File.exit
  rw [if_neg (Nat.ne_of_gt hn)]
  split
  · exact hback
  · exact hback

section Rewinds

variable {installed : String → Bool} {n : Nat}

/-- A child that ends with this status and reads nothing. -/
def LowerChild (f : File) (c : FileRun) (c₀ : Run) : Prop :=
  c.fate.wexitstatus = c₀.fate.wexitstatus ∧ Below c.file f

theorem related_lowerChild (installed : String → Bool) (n : Nat) :
    RelatedChild (.prompt installed) n LowerChild where
  crash _ _ := ⟨rfl, Nat.le_refl _, rfl⟩
  returned _ _ h := h
  wait hc h := ⟨h.1, h.2.trans hc.2⟩
  status h := h.1
  exits background _ _ _ _ f := ⟨rfl, below_exit n background f⟩
  leaves _ _ _ _ _ := ⟨rfl, Nat.le_refl _, rfl⟩
  ran _ _ _ _ := ⟨rfl, Nat.le_refl _, rfl⟩
  missing background _ _ _ f := ⟨rfl, below_exit n background f⟩

theorem exits_lowerChild (installed : String → Bool) (n : Nat) :
    Exits (.prompt installed) n LowerChild :=
  fun background _ f => ⟨rfl, below_exit n background f⟩

theorem below_execute {k : FileCont} (k₀ : Cont)
    (hk : ∀ gen r s o f, (k gen r s o f).fate.wexitstatus = (k₀ gen r s o).fate.wexitstatus ∧
      Below (k gen r s o f).file f) (t : Astree) (background : Bool) (gen : Nat) (s : Shell)
    (o : Oracle) (f : File) :
    Below (executeOn (.prompt installed) n background t gen s o f k).file f := by
  have hexits := exits_lowerChild installed n
  have hchild := related_lowerChild installed n
  exact (hchild.execute hchild t (fun _ => ⟨hexits, hexits⟩) (hk gen) (fun g _ => hk g) background
    s o f).2

theorem below_exiting (installed : String → Bool) (n : Nat) (t : Astree) (background : Bool)
    (gen : Nat) (s : Shell) (o : Oracle)
    (f : File) : Below (executeOn (.prompt installed) n background t gen s o f
      (exitOn (.prompt installed) n background)).file f :=
  below_execute exiting (fun _ _ _ _ f => ⟨rfl, below_exit n background f⟩) t background gen
    s o f

/-- The rest of the process reads nothing and ends with status 0. -/
structure Lowers (k : FileCont) : Prop where
  zero : EndsZeroOn k
  below : ∀ gen r s o f, Below (k gen r s o f).file f

theorem lowers_leaveOn : Lowers leaveOn :=
  ⟨fun _ _ _ _ _ => rfl, fun _ _ _ _ _ => ⟨Nat.le_refl _, rfl⟩⟩

theorem Lowers.returning {k : FileCont} (h : Lowers k) (caller : Nat) :
    Lowers (returningOn caller k) :=
  ⟨fun gen r s o f => h.zero gen r s o f, fun gen r s o f => h.below gen r s o f⟩

theorem Lowers.zeroed {k : FileCont} (h : Lowers k) : Lowers fun gen _ s o f => k gen 0 s o f :=
  ⟨fun gen _ s o f => h.zero gen 0 s o f, fun gen _ s o f => h.below gen 0 s o f⟩

theorem Lowers.execute {k : FileCont} (h : Lowers k) (t : Astree) (background : Bool) (gen : Nat)
    (s : Shell) (o : Oracle) (f : File) :
    Below (executeOn (.prompt installed) n background t gen s o f k).file f :=
  below_execute (fun _ _ _ _ => exitWith 0)
    (fun gen r s o f => ⟨h.zero gen r s o f, h.below gen r s o f⟩) t background gen s o f

theorem Lowers.next {k : FileCont} (h : Lowers k) (cond : Int → Bool) (background : Bool)
    (b : Astree) : Lowers fun gen first s o f =>
      if cond first then executeOn (.prompt installed) n background b gen s o f k
      else k gen first s o f := by
  refine ⟨h.zero.next cond background b, fun gen first s o f => ?_⟩
  split
  · exact h.execute b background gen s o f
  · exact h.below _ _ _ _ _

/-- The offset goes back, if there are `n` bytes in front of it. -/
def Rewinds (n : Nat) (x : File → FileRun) : Prop :=
  ∀ f, n ≤ f.offset → (x f).file.offset < f.offset

/-- The offset has gone back already if the `n` bytes are no longer there. -/
theorem rewinds_after {x : File → FileRun} (h : Rewinds n x)
    (hx : ∀ f, (x f).file.offset ≤ f.offset)
    {f f' : File} (hf : n ≤ f.offset) (hle : f'.offset ≤ f.offset) :
    (x f').file.offset < f.offset := by
  by_cases hn : n ≤ f'.offset
  · exact Nat.lt_of_lt_of_le (h f' hn) hle
  · exact Nat.lt_of_le_of_lt (hx f') (Nat.lt_of_lt_of_le (Nat.lt_of_not_le hn) hf)

/-- A call that comes to a rest which sets the offset back does so itself. -/
theorem Lowers.reached (hn : 0 < n) {k : FileCont} (hk : Lowers k) {t : Astree}
    {gen : Nat} {r : Int} {s s' : Shell} {o o' : Oracle}
    (hreach : ∀ k₀, EndsZero k₀ → Follows (Nush.execute t gen s o k₀) (k₀ gen r s' o'))
    (hrewinds : Rewinds n (k gen r s' o')) (background : Bool) :
    Rewinds n fun f => executeOn (.prompt installed) n background t gen s o f k := by
  classical
  intro f hf
  -- the calling process is seen to end with 0 where it comes to this rest, and to be killed
  -- elsewhere
  let k₀ : Cont := fun g r₁ s₁ o₁ =>
    ⟨if g = gen ∧ r₁ = r ∧ s₁ = s' ∧ o₁ = o' then .exits 0 else .killed, []⟩
  have hzero : EndsZero k₀ := by
    intro g r₁ s₁ o₁
    show (if _ then Fate.exits 0 else Fate.killed).wexitstatus = 0
    split
    · rfl
    · rfl
  let Own : File → FileRun → Run → Prop := fun f r r₀ =>
    r.file.offset ≤ f.offset ∧ (r₀.fate = .exits 0 → n ≤ f.offset → r.file.offset < f.offset)
  have hown : Related Own LowerChild := by
    refine ⟨fun _ _ => ⟨Nat.le_refl _, fun h => by cases h⟩, fun _ _ h => h, ?_⟩
    rintro f c c₀ r r₀ ⟨-, hc⟩ ⟨hle, hlt⟩
    refine ⟨hle.trans hc.1, fun hfate hf => ?_⟩
    by_cases hnc : n ≤ c.file.offset
    · exact Nat.lt_of_lt_of_le (hlt hfate hnc) hc.1
    · exact Nat.lt_of_le_of_lt hle (Nat.lt_of_lt_of_le (Nat.lt_of_not_le hnc) hf)
  have hexits : Exits (.prompt installed) n Own := fun background _ f =>
    ⟨(below_exit n background f).1, fun _ hf => exit_lt hn hf background⟩
  have hrun : Own f (executeOn (.prompt installed) n background t gen s o f k)
      (Nush.execute t gen s o k₀) := by
    refine hown.execute (related_lowerChild installed n) t
      (fun _ => ⟨hexits, exits_lowerChild installed n⟩) ?_ ?_ background s o f
    · intro r₁ s₁ o₁ f₁
      refine ⟨(hk.below gen r₁ s₁ o₁ f₁).1, fun hfate hf₁ => ?_⟩
      have hhere : gen = gen ∧ r₁ = r ∧ s₁ = s' ∧ o₁ = o' := by
        by_contra hnot
        rw [show (k₀ gen r₁ s₁ o₁).fate = .killed from if_neg hnot] at hfate
        cases hfate
      obtain ⟨-, rfl, rfl, rfl⟩ := hhere
      exact hrewinds f₁ hf₁
    · intro g _ r₁ s₁ o₁ f₁
      exact ⟨(hk.zero g r₁ s₁ o₁ f₁).trans (hzero g r₁ s₁ o₁).symm, hk.below g r₁ s₁ o₁ f₁⟩
  refine hrun.2 ?_ hf
  rw [(hreach k₀ hzero).1]
  exact if_pos ⟨rfl, rfl, rfl, rfl⟩

/-! ### Children that exit -/

theorem rewinds_exit (hn : 0 < n) {f f' : File} (hf : n ≤ f.offset) (hle : f'.offset ≤ f.offset)
    (background : Bool) : (f'.exit (fun _ => 0) n background).offset < f.offset := by
  by_cases hn' : n ≤ f'.offset
  · exact Nat.lt_of_lt_of_le (exit_lt hn hn' background) hle
  · exact Nat.lt_of_le_of_lt (below_exit n background f').1
      (Nat.lt_of_lt_of_le (Nat.lt_of_not_le hn') hf)

/-- A child that executes a pipeline and exits, unless it dies before. -/
theorem exiting_rewinds (hn : 0 < n) {t : Astree} (hp : IsPipeline t) (h : crashes t = false)
    (background : Bool) (gen : Nat) (s : Shell) (o : Oracle) :
    Rewinds n fun f => executeOn (.prompt installed) n background t gen s o f
      (exitOn (.prompt installed) n background) := by
  intro f hf
  cases t with
  | null => exact exit_lt hn hf background
  | cmd words =>
    cases words with
    | nil => cases h
    | cons input args =>
      by_cases hcd : input = "cd"
      · subst hcd
        cases args with
        | nil => cases h
        | cons dir args =>
          show (if o.next.cdOk then _ else _ : FileRun).file.offset < f.offset
          split
          · exact exit_lt hn hf background
          · exact exit_lt hn hf background
      · by_cases hexit : input = "exit"
        · subst hexit
          exact exit_lt hn hf background
        · show (cmdOn (.prompt installed) n background (input :: args) gen s o f _).file.offset < _
          rw [cmdOn_program hcd hexit]
          refine rewinds_exit hn hf ?_ background
          dsimp only
          split
          · exact (below_exit n background f).1
          · exact Nat.le_refl _
  | op oper a b =>
    have hindex := hp oper (by simp [opers])
    have hwait : ∀ {c : FileRun}, Below c.file f →
        (waitOn c gen s o.parent
          (returningOn gen (exitOn (.prompt installed) n background))).file.offset <
          f.offset := fun hc => rewinds_exit hn hf hc.1 background
    cases oper with
    | pipe =>
      exact hwait ((below_exiting installed n b background (gen + 1) s o.child.parent _).trans
        (below_exiting installed n a background (gen + 2) s o.child.child f))
    | rdrIn =>
      apply hwait
      cases fileName b with
      | none => exact ⟨Nat.le_refl _, rfl⟩
      | some path => exact below_exiting installed n a background (gen + 1) s o.child f
    | rdrOut =>
      apply hwait
      cases fileName b with
      | none => exact ⟨Nat.le_refl _, rfl⟩
      | some path =>
        have hlowers : Lowers fun gen' _ s' o' f' =>
            returningOn gen (exitOn (.prompt installed) n background) gen' 0 s' o' f' :=
          ⟨fun _ _ _ _ _ => rfl, fun _ _ _ _ f' => below_exit n background f'⟩
        exact hlowers.execute a background (gen + 1) s o.child f
    | semicolon => exact absurd hindex (by decide)
    | background => exact absurd hindex (by decide)
    | or => exact absurd hindex (by decide)
    | and => exact absurd hindex (by decide)

/-- The children of a pipe. -/
theorem pipe_rewinds (hn : 0 < n) {a b : Astree} (hpa : IsPipeline a) (hpb : IsPipeline b)
    (h : canExit installed (.op .pipe a b) = true) (background : Bool) (gen : Nat) (s : Shell)
    (o : Oracle) {k : FileCont} (hk : Lowers k) :
    Rewinds n fun f => executeOn (.prompt installed) n background (.op .pipe a b) gen s o f k := by
  intro f hf
  have ha := below_exiting installed n a background (gen + 2) s o.child.child f
  refine Nat.lt_of_le_of_lt (hk.below gen _ s o.parent _).1 ?_
  have hone : crashes a = false ∨ crashes b = false := by
    simpa [canExit, Decidable.not_and_iff_or_not] using h
  rcases hone with hna | hnb
  · exact Nat.lt_of_le_of_lt (below_exiting installed n b background (gen + 1) s o.child.parent _).1
      (exiting_rewinds hn hpa hna background (gen + 2) s o.child.child f hf)
  · exact rewinds_after (exiting_rewinds hn hpb hnb background (gen + 1) s o.child.parent)
      (fun f => (below_exiting installed n b background (gen + 1) s o.child.parent f).1) hf ha.1

theorem rdrIn_rewinds (hn : 0 < n) {a b : Astree} (hpa : IsPipeline a)
    (h : canExit installed (.op .rdrIn a b) = true) (background : Bool) (gen : Nat) (s : Shell)
    (o : Oracle) {k : FileCont} (hk : Lowers k) :
    Rewinds n fun f => executeOn (.prompt installed) n background (.op .rdrIn a b) gen s o f k := by
  intro f hf
  obtain ⟨hname, hcrash⟩ : (fileName b).isSome = true ∧ crashes a = false := by
    simpa [canExit] using h
  obtain ⟨path, hpath⟩ := Option.isSome_iff_exists.mp hname
  refine Nat.lt_of_le_of_lt (hk.below gen _ s o.parent _).1 ?_
  rw [hpath]
  exact exiting_rewinds hn hpa hcrash background (gen + 1) s o.child f hf

theorem rdrOut_rewinds {a b : Astree} (hname : (fileName b).isSome = true) {gen : Nat} {s : Shell}
    {o : Oracle}
    (ha : ∀ k, Lowers k → ∀ background, Rewinds n fun f =>
      executeOn (.prompt installed) n background a (gen + 1) s o.child f k)
    {k : FileCont} (hk : Lowers k) (background : Bool) :
    Rewinds n fun f =>
    executeOn (.prompt installed) n background (.op .rdrOut a b) gen s o f k := by
  intro f hf
  obtain ⟨path, hpath⟩ := Option.isSome_iff_exists.mp hname
  refine Nat.lt_of_le_of_lt (hk.below gen _ s o.parent _).1 ?_
  rw [hpath]
  exact ha _ (hk.returning gen).zeroed background f hf

theorem background_rewinds_left {a b : Astree} {gen : Nat} {s : Shell} {o : Oracle}
    (ha : Rewinds n fun f => executeOn (.prompt installed) n true a (gen + 1) s o.child f leaveOn)
    {k : FileCont} (hk : Lowers k) (background : Bool) :
    Rewinds n fun f =>
      executeOn (.prompt installed) n background (.op .background a b) gen s o f k := by
  intro f hf
  refine Nat.lt_of_le_of_lt ?_ (ha f hf)
  show (if b ≠ .null then _ else _ : FileRun).file.offset ≤ _
  split
  · exact ((hk.returning gen).execute b background gen s o.parent _).1
  · exact (hk.below _ _ _ _ _).1

theorem background_rewinds_right {a b : Astree} (hb : b ≠ .null) {gen : Nat} {s : Shell}
    {o : Oracle} {k : FileCont} (hk : Lowers k) {background : Bool}
    (h : Rewinds n fun f =>
      executeOn (.prompt installed) n background b gen s o.parent f (returningOn gen k)) :
    Rewinds n fun f =>
      executeOn (.prompt installed) n background (.op .background a b) gen s o f k := by
  intro f hf
  show (if b ≠ .null then _ else _ : FileRun).file.offset < _
  rw [if_pos hb]
  exact rewinds_after h (fun f => ((hk.returning gen).execute b background gen s o.parent f).1) hf
    (lowers_leaveOn.execute a true (gen + 1) s o.child f).1

/-- Where some process can exit, it does so for some answers of the world. -/
theorem canExit_rewinds (hn : 0 < n) {t : Astree} (hwf : WellFormed t)
    (h : canExit installed t = true) (gen : Nat) (s : Shell) :
    ∃ o, ∀ k, Lowers k → ∀ background,
      Rewinds n fun f => executeOn (.prompt installed) n background t gen s o f k := by
  induction t generalizing gen s with
  | null => cases h
  | cmd words =>
    cases words with
    | nil => cases h
    | cons input args =>
      by_cases hexit : input = "exit"
      · subst hexit
        exact ⟨fun _ => ⟨.killed, true⟩, fun k _ background f hf => exit_lt hn hf background⟩
      · obtain ⟨hcd, hmissing⟩ : input ≠ "cd" ∧ installed input = false := by
          simpa [canExit, hexit] using h
        refine ⟨fun _ => ⟨.exits 1, false⟩, fun k hk background f hf => ?_⟩
        show (cmdOn (.prompt installed) n background (input :: args) gen s _ f _).file.offset < _
        rw [cmdOn_program hcd hexit]
        refine Nat.lt_of_le_of_lt (hk.below _ _ _ _ _).1 ?_
        have hyes :
            (World.prompt installed).missing input (Oracle.next fun _ => ⟨.exits 1, false⟩) =
            true := by
          simp [World.missing, hmissing, Oracle.next]
        rw [hyes]
        exact exit_lt hn hf background
  | op oper a b iha ihb =>
    obtain ⟨hleft, hright, hwa, hwb⟩ := hwf
    have hseq : ∀ {cond : Int → Bool} {runs : Kind → Bool},
        (∀ κ r, Kind.Is κ r → cond r = runs κ) →
        (canExit installed a || (reaches runs (codes a) && canExit installed b)) = true →
        ∃ o, ∀ k, Lowers k → ∀ background, Rewinds n fun f =>
          seqOn cond (executeOn (.prompt installed) n background a)
            (executeOn (.prompt installed) n background b) gen s o f k := by
      intro cond runs hcond hone
      rcases Bool.or_eq_true_iff.mp hone with ha | hb
      · obtain ⟨o, ho⟩ := iha hwa ha gen s
        exact ⟨o, fun k hk background => ho _ (hk.next cond background b) background⟩
      · obtain ⟨hreach, hb⟩ := Bool.and_eq_true_iff.mp hb
        obtain ⟨κ, hne, he, hruns⟩ := reaches_exists hreach
        obtain ⟨r, s', hr, hleft⟩ := (comesBack_codes hwa).comesBack gen s he hne
        obtain ⟨ob, hob⟩ := ihb hwb hb gen s'
        obtain ⟨o, ho⟩ := hleft ob
        refine ⟨o, fun k hk background => (hk.next cond background b).reached hn ho ?_ background⟩
        rw [hcond κ r hr, hruns]
        exact hob k hk background
    cases oper with
    | semicolon =>
      obtain ⟨o, ho⟩ := hseq (semicolon_cond (decide (b ≠ .null))) h
      exact ⟨o, fun k hk background => ho _ (hk.returning gen) background⟩
    | or =>
      obtain ⟨o, ho⟩ := hseq or_cond h
      exact ⟨o, fun k hk background => ho _ (hk.returning gen) background⟩
    | and =>
      obtain ⟨o, ho⟩ := hseq and_cond h
      exact ⟨o, fun k hk background => ho _ (hk.returning gen) background⟩
    | background =>
      rcases Bool.or_eq_true_iff.mp h with ha | hb
      · obtain ⟨o, ho⟩ := iha hwa ha (gen + 1) s
        refine ⟨joinOracle o o, fun k hk background => background_rewinds_left ?_ hk background⟩
        rw [child_join]
        exact ho leaveOn lowers_leaveOn true
      · obtain ⟨o, ho⟩ := ihb hwb hb gen s
        have hne : b ≠ .null := by
          rintro rfl
          cases hb
        refine ⟨joinOracle o o, fun k hk background => background_rewinds_right hne hk ?_⟩
        rw [parent_join]
        exact ho _ (hk.returning gen) background
    | pipe =>
      have hpa : IsPipeline a := fun o ho => Nat.le_of_lt (hleft o ho)
      exact ⟨fun _ => ⟨.killed, true⟩, fun k hk background =>
        pipe_rewinds hn hpa hright h background gen s _ hk⟩
    | rdrIn =>
      have hpa : IsPipeline a := fun o ho => Nat.le_trans (by decide) (Nat.le_of_lt (hleft o ho))
      exact ⟨fun _ => ⟨.killed, true⟩, fun k hk background =>
        rdrIn_rewinds hn hpa h background gen s _ hk⟩
    | rdrOut =>
      obtain ⟨hname, ha⟩ := Bool.and_eq_true_iff.mp h
      obtain ⟨o, ho⟩ := iha hwa ha (gen + 1) s
      refine ⟨joinOracle o o, fun k hk background => rdrOut_rewinds hname ?_ hk background⟩
      rw [child_join]
      exact ho

/-! ### Calls that return after an exit -/

/-- The call comes back in every way of `d` but `exit` for some answers of the world,
whatever answers come after it, and sets the offset back before. -/
def ComesRewound (installed : String → Bool) (n : Nat) (d : Ends) (t : Astree) : Prop :=
  ∀ gen s κ, d κ = true → κ ≠ .exit → ∃ r s', κ.Is r ∧ ∀ o', ∃ o,
    (∀ k, EndsZero k → Follows (execute t gen s o k) (k gen r s' o')) ∧
    ∀ k, Lowers k → ∀ background,
      Rewinds n fun f => executeOn (.prompt installed) n background t gen s o f k

/-- A call that sets the offset back for all answers of the world. -/
theorem comesRewound_of_always {d : Ends} {t : Astree} (hwf : WellFormed t)
    (hd : ∀ κ, d κ = true → codes t κ = true)
    (h : ∀ κ, d κ = true → ∀ gen s o k, Lowers k → ∀ background,
      Rewinds n fun f => executeOn (.prompt installed) n background t gen s o f k) :
    ComesRewound installed n d t := by
  intro gen s κ he hne
  obtain ⟨r, s', hr, hback⟩ := (comesBack_codes hwf).comesBack gen s (hd κ he) hne
  refine ⟨r, s', hr, fun o' => ?_⟩
  obtain ⟨o, ho⟩ := hback o'
  exact ⟨o, ho, h κ he gen s o⟩

section SeqRewound

variable {oper : Oper} {cond : Int → Bool} {runs : Kind → Bool} {a b : Astree} {da db : Ends}

theorem comesRewound_seq (hn : 0 < n) (hcond : ∀ κ r, Kind.Is κ r → cond r = runs κ)
    (hrun : ∀ gen s o k, execute (.op oper a b) gen s o k =
      seqCmd cond (execute a) (execute b) gen s o (returning gen k))
    (hrunOn : ∀ background gen s o f k,
      executeOn (.prompt installed) n background (.op oper a b) gen s o f k =
        seqOn cond (executeOn (.prompt installed) n background a)
          (executeOn (.prompt installed) n background b) gen s o f (returningOn gen k))
    (hwa : WellFormed a) (hwb : WellFormed b) (ha : ComesRewound installed n da a)
    (hb : ComesRewound installed n db b) :
    ComesRewound installed n (fun κ => (da κ && !runs κ) || (reaches runs da && codes b κ) ||
      (reaches runs (codes a) && db κ)) (.op oper a b) := by
  intro gen s κ he hne
  simp only [Bool.or_eq_true, Bool.and_eq_true, Bool.not_eq_true'] at he
  simp only [hrun, hrunOn]
  have hfollows : ∀ {κa : Kind} {r : Int} {s' : Shell} {o o' : Oracle}, κa.Is r →
      (∀ k, EndsZero k → Follows (execute a gen s o k) (k gen r s' o')) → ∀ k, EndsZero k →
      Follows (seqCmd cond (execute a) (execute b) gen s o (returning gen k))
        (if runs κa then execute b gen s' o' (returning gen k) else returning gen k gen r s' o') :=
    fun hr ho k hk =>
      seqCmd_follows (K := fun _ => EndsZero) hcond (fun _ _ h => h.next) hr ho (hk.returning gen)
  rcases he with (⟨hd, hstop⟩ | ⟨hreach, he⟩) | ⟨hreach, hd⟩
  · obtain ⟨r, s', hr, hleft⟩ := ha gen s κ hd hne
    refine ⟨r, s', hr, fun o' => ?_⟩
    obtain ⟨o, ho, hrewinds⟩ := hleft o'
    refine ⟨o, fun k hk => ?_, fun k hk background =>
      hrewinds _ ((hk.returning gen).next cond background b) background⟩
    have hrest := hfollows hr ho k hk
    rw [hstop] at hrest
    exact hrest.trans (follows_after _ _)
  · -- the exit comes in the left side
    obtain ⟨κa, hnea, hda, hruns⟩ := reaches_exists hreach
    obtain ⟨ra, sa, hra, hleft⟩ := ha gen s κa hda hnea
    obtain ⟨r, s', hr, hright⟩ := (comesBack_codes hwb).comesBack gen sa he hne
    refine ⟨r, s', hr, fun o' => ?_⟩
    obtain ⟨ob, hob⟩ := hright o'
    obtain ⟨o, ho, hrewinds⟩ := hleft ob
    refine ⟨o, fun k hk => ?_, fun k hk background =>
      hrewinds _ ((hk.returning gen).next cond background b) background⟩
    have hrest := hfollows hra ho k hk
    rw [hruns, if_pos rfl] at hrest
    exact (hrest.trans (hob _ (hk.returning gen))).trans (follows_after _ _)
  · -- the exit comes in the right side
    obtain ⟨κa, hnea, hea, hruns⟩ := reaches_exists hreach
    obtain ⟨ra, sa, hra, hleft⟩ := (comesBack_codes hwa).comesBack gen s hea hnea
    obtain ⟨r, s', hr, hright⟩ := hb gen sa κ hd hne
    refine ⟨r, s', hr, fun o' => ?_⟩
    obtain ⟨ob, hob, hrewinds⟩ := hright o'
    obtain ⟨o, ho⟩ := hleft ob
    refine ⟨o, fun k hk => ?_, fun k hk background => ?_⟩
    · have hrest := hfollows hra ho k hk
      rw [hruns, if_pos rfl] at hrest
      exact (hrest.trans (hob _ (hk.returning gen))).trans (follows_after _ _)
    · refine ((hk.returning gen).next cond background b).reached hn ho ?_ background
      rw [hcond κa ra hra, hruns]
      exact hrewinds _ (hk.returning gen) background

end SeqRewound

theorem afterExit_rewound (hn : 0 < n) {t : Astree} (hwf : WellFormed t) :
    ComesRewound installed n (afterExit installed t) t := by
  induction t with
  | null => exact fun _ _ _ he => by cases he
  | cmd words =>
    intro gen s κ he _
    cases words with
    | nil => simp [afterExit, canExit] at he
    | cons input args =>
      simp only [afterExit, canExit, List.head?_cons, Bool.and_eq_true, Bool.or_eq_true, beq_iff_eq,
        bne_iff_ne, Bool.not_eq_true', ne_eq, Option.some.injEq] at he
      obtain ⟨⟨rfl, hcan⟩, hexit⟩ := he
      obtain ⟨hcd, hmissing⟩ := hcan.resolve_left hexit
      refine ⟨1, s, rfl, fun o' => ⟨answerFirst ⟨.exits 1, false⟩ o', fun k _ => ?_,
        fun k hk background f hf => ?_⟩⟩
      · have hrun : execute (.cmd (input :: args)) gen s (answerFirst ⟨.exits 1, false⟩ o') k =
            ((k gen 1 s o').after [.returned gen gen]).after [.ran (gen + 1) (input :: args)] := by
          simp only [execute, executeCmd, if_neg hcd, if_neg hexit]
          rfl
        rw [hrun]
        exact (follows_after _ _).trans (follows_after _ _)
      · show (cmdOn (.prompt installed) n background (input :: args) gen s _ f _).file.offset < _
        rw [cmdOn_program hcd hexit]
        refine Nat.lt_of_le_of_lt (hk.below _ _ _ _ _).1 ?_
        have hyes : (World.prompt installed).missing input
            (Oracle.next (answerFirst ⟨.exits 1, false⟩ o')) = true := by
          simp [World.missing, hmissing, Oracle.next, answerFirst]
        rw [hyes]
        exact exit_lt hn hf background
  | op oper a b iha ihb =>
    have hwf' := hwf
    obtain ⟨hleft, hright, hwa, hwb⟩ := hwf'
    cases oper with
    | semicolon =>
      exact comesRewound_seq hn (semicolon_cond (decide (b ≠ .null))) (fun _ _ _ _ => rfl)
        (fun _ _ _ _ _ _ => rfl) hwa hwb (iha hwa) (ihb hwb)
    | or =>
      refine comesRewound_seq hn or_cond (fun gen s o k => ?_) (fun _ _ _ _ _ _ => rfl) hwa hwb
        (iha hwa) (ihb hwb)
      rw [← orCmd_eq]
      rfl
    | and =>
      refine comesRewound_seq hn and_cond (fun gen s o k => ?_) (fun _ _ _ _ _ _ => rfl) hwa hwb
        (iha hwa) (ihb hwb)
      rw [← andCmd_eq]
      rfl
    | background =>
      intro gen s κ he hne
      have hfollows : ∀ {r : Int} {s' : Shell} {o o' : Oracle}, b ≠ .null →
          (∀ k, EndsZero k → Follows (execute b gen s o k) (k gen r s' o')) → ∀ oc k, EndsZero k →
          Follows (execute (.op .background a b) gen s (joinOracle oc o) k) (k gen r s' o') := by
        intro r s' o o' hb ho oc k hk
        have hrun : execute (.op .background a b) gen s (joinOracle oc o) k =
            (execute b gen s o (returning gen k)).after
              (execute a (gen + 1) s oc fun _ _ _ _ => exitWith 0).log := by
          simp only [execute, backgroundCmd, hb, ne_eq, not_false_eq_true, decide_true, if_true,
            child_join, parent_join]
        rw [hrun]
        exact ((follows_after _ _).trans (ho _ (hk.returning gen))).trans (follows_after _ _)
      rcases Bool.or_eq_true_iff.mp he with hboth | hd
      · obtain ⟨hcan, he⟩ := Bool.and_eq_true_iff.mp hboth
        obtain ⟨oc, hoc⟩ := canExit_rewinds hn hwa hcan (gen + 1) s
        have hchild : ∀ o k, Lowers k → ∀ background, Rewinds n fun f =>
            executeOn (.prompt installed) n background (.op .background a b) gen s
              (joinOracle oc o) f k := by
          intro o k hk background
          refine background_rewinds_left ?_ hk background
          rw [child_join]
          exact hoc leaveOn lowers_leaveOn true
        by_cases hb : b = .null
        · subst hb
          obtain rfl : κ = .zero := by simpa [codes, zeroOnly] using he
          refine ⟨0, s, rfl, fun o' => ⟨joinOracle oc o', fun k _ => ?_, hchild o'⟩⟩
          show Follows (backgroundCmd (execute a) (execute .null) false gen s _ (returning gen k)) _
          unfold backgroundCmd
          rw [parent_join]
          exact (follows_after _ _).trans (follows_after _ _)
        · have heb : codes b κ = true := by simpa [codes, hb] using he
          obtain ⟨r, s', hr, hback⟩ := (comesBack_codes hwb).comesBack gen s heb hne
          refine ⟨r, s', hr, fun o' => ?_⟩
          obtain ⟨o, ho⟩ := hback o'
          exact ⟨joinOracle oc o, hfollows hb ho oc, hchild o⟩
      · have hb : b ≠ .null := by
          rintro rfl
          cases hd
        obtain ⟨r, s', hr, hback⟩ := ihb hwb gen s κ hd hne
        refine ⟨r, s', hr, fun o' => ?_⟩
        obtain ⟨o, ho, hrewinds⟩ := hback o'
        refine ⟨joinOracle o o, hfollows hb ho o, fun k hk background =>
          background_rewinds_right hb hk ?_⟩
        rw [parent_join]
        exact hrewinds _ (hk.returning gen) background
    | pipe =>
      have hpa : IsPipeline a := fun o ho => Nat.le_of_lt (hleft o ho)
      refine comesRewound_of_always hwf (fun κ he => (Bool.and_eq_true_iff.mp he).2) ?_
      exact fun κ he gen s o k hk background =>
        pipe_rewinds hn hpa hright (Bool.and_eq_true_iff.mp he).1 background gen s o hk
    | rdrIn =>
      have hpa : IsPipeline a := fun o ho => Nat.le_trans (by decide) (Nat.le_of_lt (hleft o ho))
      refine comesRewound_of_always hwf (fun κ he => ?_) ?_
      · obtain ⟨hcan, hchild⟩ := Bool.and_eq_true_iff.mp he
        have hname : (fileName b).isSome = true := (Bool.and_eq_true_iff.mp hcan).1
        unfold codes
        simpa [hname] using hchild
      · exact fun κ he gen s o k hk background =>
          rdrIn_rewinds hn hpa (Bool.and_eq_true_iff.mp he).1 background gen s o hk
    | rdrOut =>
      intro gen s κ he _
      obtain ⟨hcan, hzero⟩ := Bool.and_eq_true_iff.mp he
      obtain rfl : κ = .zero := by simpa using hzero
      obtain ⟨hname, hca⟩ := Bool.and_eq_true_iff.mp hcan
      obtain ⟨oc, hoc⟩ := canExit_rewinds hn hwa hca (gen + 1) s
      refine ⟨0, s, rfl, fun o' => ⟨joinOracle oc o', fun k hk => ?_, fun k hk background => ?_⟩⟩
      · obtain ⟨L, hrun, -⟩ := rdrOut_run a b gen s (joinOracle oc o') _ (hk.returning gen)
        show Follows (rdrOutCmd (execute a) b gen s _ (returning gen k)) _
        rw [hrun, parent_join]
        exact (follows_after _ _).trans (follows_after _ _)
      · refine rdrOut_rewinds hname ?_ hk background
        rw [child_join]
        exact hoc

end Rewinds

/-! ## Fit lines -/

section Fit

variable {t : Astree}

/-- Out of a fit line comes the shell, and no other process, unless it has run `exit`. -/
theorem fit_comesBack (hwf : WellFormed t) (hfit : fit t = true) (w : World) (n : Nat) (s : Shell)
    (o : Oracle) (f : File) :
    (codes t .exit = true ∧ ∃ L f', SilentOn L ∧
      ∀ k, executeOn w n false t 0 s o f k = ⟨.exits 0, L, f'⟩) ∨
    ∃ r s' o' L f', SilentOn L ∧ f'.offset ≤ f.offset ∧
      (n = 0 ∨ leavesFile w.installed t = true → f' = f) ∧
      ∀ k, executeOn w n false t 0 s o f k = (k 0 r s' o' f').after L := by
  refine (executeOn_leaves hwf hfit false 0 s o f).imp id ?_
  rintro ⟨κ, r, s', o', L, f', -, hr, hL, hle, hkept, hrun⟩
  refine ⟨r, s', o', L, f', hL, hle, fun hfile => hkept ?_, hrun⟩
  rcases hfile with hn | hleaves
  · exact Or.inl hn
  · refine Or.inr (Bool.eq_false_iff.mpr fun hd => ?_)
    have hreach : reaches (fun _ => true) (afterExit w.installed t) = true := reaches_of hr hd rfl
    rw [leavesFile, hreach] at hleaves
    cases hleaves

/-- Where the call is known to come back, there it comes back. -/
theorem fit_follows (hwf : WellFormed t) (hfit : fit t = true) (w : World) (n : Nat) {r : Int}
    {s s' : Shell} {o o' : Oracle}
    (hfollows : ∀ k, EndsZero k → Follows (execute t 0 s o k) (k 0 r s' o')) (f : File) :
    ∃ L f', SilentOn L ∧ f'.offset ≤ f.offset ∧
      (n = 0 ∨ leavesFile w.installed t = true → f' = f) ∧
      ∀ k, executeOn w n false t 0 s o f k = (k 0 r s' o' f').after L := by
  classical
  -- a rest that tells where it has been reached
  let k₀ : Cont := fun _ r₁ s₁ o₁ =>
    ⟨if r₁ = r ∧ s₁ = s' ∧ o₁ = o' then .exits 0 else .killed, [.lineDone 0]⟩
  have hzero : EndsZero k₀ := by
    intro g r₁ s₁ o₁
    show (if _ then Fate.exits 0 else Fate.killed).wexitstatus = 0
    split
    · rfl
    · rfl
  have hsame := @executeOn_run w n false t
    (fun g r s o f => ⟨(k₀ g r s o).fate, [.did (.lineDone 0)], f⟩) k₀
    (fun _ _ _ _ _ => rfl) 0 s o f
  obtain ⟨hfate, hlog⟩ := hfollows k₀ hzero
  rw [← hsame] at hfate hlog
  rcases fit_comesBack hwf hfit w n s o f with
    ⟨-, L, f', hL, hrun⟩ | ⟨r₁, s₁, o₁, L, f', hL, hle, hkept, hrun⟩
  · rw [hrun] at hlog
    obtain ⟨e, he, hdone⟩ := List.mem_filterMap.mp (hlog _ (List.mem_singleton.mpr rfl))
    have hsilent := hL e he
    cases e with
    | did a =>
      cases hdone
      cases hsilent
    | passed gen cmd => cases hdone
    | cutOff gen => cases hdone
  · have hhere : r₁ = r ∧ s₁ = s' ∧ o₁ = o' := by
      by_contra hnot
      rw [hrun] at hfate
      have hkilled : (k₀ 0 r₁ s₁ o₁).fate = .killed := if_neg hnot
      have hexits : (k₀ 0 r s' o').fate = .exits 0 := if_pos ⟨rfl, rfl, rfl⟩
      have hboth := hkilled.symm.trans (hfate.trans hexits)
      cases hboth
    obtain ⟨rfl, rfl, rfl⟩ := hhere
    exact ⟨L, f', hL, hle, hkept, hrun⟩

/-- What comes after the line may be chosen. -/
theorem fit_resumes (hwf : WellFormed t) (hexit : noExit t = true) (hfit : fit t = true) (w : World)
    (n : Nat) (hfile : n = 0 ∨ leavesFile w.installed t = true) (s : Shell) :
    ∃ r s', ∀ o', ∃ o, ∀ f, ∃ L, SilentOn L ∧
      ∀ k, executeOn w n false t 0 s o f k = (k 0 r s' o' f).after L := by
  obtain ⟨κ, hne, he, -⟩ := reaches_exists (fit_returns hwf hexit hfit)
  obtain ⟨r, s', -, hback⟩ := (comesBack_codes hwf).comesBack 0 s he hne
  refine ⟨r, s', fun o' => ?_⟩
  obtain ⟨o, ho⟩ := hback o'
  refine ⟨o, fun f => ?_⟩
  obtain ⟨L, f', hL, -, hkept, hrun⟩ := fit_follows hwf hfit w n ho f
  rw [hkept hfile] at hrun
  exact ⟨L, hL, hrun⟩

/-- A line that does not leave the file alone. -/
theorem fit_rewinds (hwf : WellFormed t) (hfit : fit t = true) {installed : String → Bool}
    (hleaves : leavesFile installed t = false) {n : Nat} (hn : 0 < n) (s : Shell) :
    ∃ o r s' o', ∀ f, n ≤ f.offset → ∃ L f', SilentOn L ∧ f'.offset < f.offset ∧ f'.late = f.late ∧
      ∀ k, executeOn (.prompt installed) n false t 0 s o f k = (k 0 r s' o' f').after L := by
  have hreach : reaches (fun _ => true) (afterExit installed t) = true := by
    simpa [leavesFile] using hleaves
  obtain ⟨κ, hne, hd, -⟩ := reaches_exists hreach
  obtain ⟨r, s', -, hback⟩ := afterExit_rewound hn hwf 0 s κ hd hne
  obtain ⟨o, ho, hrewinds⟩ := hback fun _ => ⟨.killed, true⟩
  refine ⟨o, r, s', fun _ => ⟨.killed, true⟩, fun f hf => ?_⟩
  obtain ⟨L, f', hL, -, -, hrun⟩ := fit_follows hwf hfit (.prompt installed) n ho f
  have hlt := hrewinds leaveOn lowers_leaveOn false f hf
  have hlate := (@Lowers.execute installed n _ lowers_leaveOn t false 0 s o f).2
  rw [hrun] at hlate
  simp only [hrun] at hlt
  exact ⟨L, f', hL, hlt, hlate, hrun⟩

end Fit

end Cs3650.Nush
