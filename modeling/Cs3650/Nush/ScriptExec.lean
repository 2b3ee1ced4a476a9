import Cs3650.Nush.Script
import Cs3650.Nush.ShellSafety

/-!
# Executing a line of a script

`executeOn` takes the steps of `execute`, so what is known of the statuses of
`execute` holds of it too. What is new is the file: the line leaves it alone, or some
process that it has forked calls `exit` with bytes of the script unread, and
then its offset goes back.
-/

namespace Cs3650.Nush

/-! ## The same steps -/

theorem actionsOf_append (L M : List ScriptEvent) :
    actionsOf (L ++ M) = actionsOf L ++ actionsOf M := List.filterMap_append

theorem FileRun.after_after (r : FileRun) (L M : List ScriptEvent) :
    (r.after L).after M = r.after (M ++ L) := by
  unfold FileRun.after
  rw [List.append_assoc]

/-- No command of the tree is the builtin `exit`. -/
def noExit : Astree → Bool
  | .null => true
  | .cmd words => words.head? != some "exit"
  | .op _ l r => noExit l && noExit r

/-- `R` relates runs from a file on to runs without one, and the steps of a process
keep it; `C` is what its children satisfy. -/
structure Related (R C : File → FileRun → Run → Prop) : Prop where
  crash : ∀ gen f, R f (crashOn gen f) (crash gen)
  returned : ∀ {f r r₀} caller gen, R f r r₀ →
    R f (r.after [.did (.returned caller gen)]) (r₀.after [.returned caller gen])
  wait : ∀ {f c c₀ r r₀}, C f c c₀ → R c.file r r₀ → R f (r.after c.log) (r₀.after c₀.log)

section Related

variable (w : World) (n : Nat)

/-- The ways in which children end, and what the parent sees of them. -/
structure RelatedChild (C : File → FileRun → Run → Prop) : Prop extends Related C C where
  status : ∀ {f c c₀}, C f c c₀ → c.fate.wexitstatus = c₀.fate.wexitstatus
  exits : ∀ background gen status s o f,
    C f (exitOn w n background gen status s o f) (exitWith status)
  leaves : ∀ gen status s o f, C f (leaveOn gen status s o f) (exitWith 0)
  ran : ∀ fate gen words f, C f ⟨fate, [.did (.ran gen words)], f⟩ ⟨fate, [.ran gen words]⟩
  missing : ∀ background fate gen words f,
    C f ⟨fate, [.did (.ran gen words)], f.exit w.delay n background⟩ ⟨fate, [.ran gen words]⟩

/-- The relation of runs that the builtin `exit` ends. -/
def Exits (R : File → FileRun → Run → Prop) : Prop := ∀ background gen f,
  R f ⟨.exits 0, [.did (.exitBuiltin gen)], f.exit w.delay n background⟩
    ⟨.exits 0, [.exitBuiltin gen]⟩

variable {w : World} {n : Nat} {R C : File → FileRun → Run → Prop}

theorem Related.cmd (hR : Related R C) (hC : RelatedChild w n C) {words : List String}
    (hexit : noExit (.cmd words) = false → Exits w n R) {gen : Nat} {k : FileCont} {k₀ : Cont}
    (hk : ∀ r s o f, R f (k gen r s o f) (k₀ gen r s o)) (background : Bool) (s : Shell)
    (o : Oracle) (f : File) :
    R f (cmdOn w n background words gen s o f k) (executeCmd words gen s o k₀) := by
  unfold cmdOn executeCmd
  cases words with
  | nil => exact hR.crash gen f
  | cons input args =>
    dsimp only
    by_cases hcd : input = "cd"
    · rw [if_pos hcd, if_pos hcd]
      cases args with
      | nil => exact hR.crash gen f
      | cons dir args =>
        dsimp only
        split
        · exact hk _ _ _ _
        · exact hk _ _ _ _
    · rw [if_neg hcd, if_neg hcd]
      by_cases hne : input = "exit"
      · rw [if_pos hne, if_pos hne]
        exact hexit (by simp [noExit, hne]) background gen f
      · rw [if_neg hne, if_neg hne]
        refine hR.wait ?_ (hk _ _ _ _)
        split
        · exact hC.missing _ _ _ _ _
        · exact hC.ran _ _ _ _

/-- What relates the runs after the call, in the process that makes it and in the others,
relates the runs from the call on. -/
theorem Related.execute (hR : Related R C) (hC : RelatedChild w n C) (t : Astree)
    (hexit : noExit t = false → Exits w n R ∧ Exits w n C) {gen : Nat} {k : FileCont} {k₀ : Cont}
    (hown : ∀ r s o f, R f (k gen r s o f) (k₀ gen r s o))
    (hother : ∀ g, gen < g → ∀ r s o f, C f (k g r s o f) (k₀ g r s o)) (background : Bool)
    (s : Shell) (o : Oracle) (f : File) :
    R f (executeOn w n background t gen s o f k) (execute t gen s o k₀) := by
  induction t generalizing R background gen s o f k k₀ with
  | null => exact hR.returned _ _ (hown _ _ _ _)
  | cmd words =>
    exact hR.cmd hC (fun h => (hexit h).1) (fun _ _ _ _ => hR.returned _ _ (hown _ _ _ _)) _ _ _ _
  | op oper a b iha ihb =>
    have hexita : noExit a = false → Exits w n R ∧ Exits w n C :=
      fun h => hexit (by simp [noExit, h])
    have hexitb : noExit b = false → Exits w n R ∧ Exits w n C :=
      fun h => hexit (by simp [noExit, h])
    have hexita' : noExit a = false → Exits w n C ∧ Exits w n C := fun h =>
      ⟨(hexita h).2, (hexita h).2⟩
    have hexitb' : noExit b = false → Exits w n C ∧ Exits w n C := fun h =>
      ⟨(hexitb h).2, (hexitb h).2⟩
    have hown' : ∀ r s o f, R f (returningOn gen k gen r s o f) (returning gen k₀ gen r s o) :=
      fun _ _ _ _ => hR.returned _ _ (hown _ _ _ _)
    have hother' : ∀ g, gen < g → ∀ r s o f,
        C f (returningOn gen k g r s o f) (returning gen k₀ g r s o) :=
      fun _ hg _ _ _ _ => hC.returned _ _ (hother _ hg _ _ _ _)
    have hseq : ∀ cond : Int → Bool,
        R f (seqOn cond (executeOn w n background a) (executeOn w n background b) gen s o f
            (returningOn gen k))
          (seqCmd cond (Nush.execute a) (Nush.execute b) gen s o (returning gen k₀)) := by
      intro cond
      apply iha hR hexita
      · intro r s' o' f'
        split
        · exact ihb hR hexitb hown' hother' _ _ _ _
        · exact hown' _ _ _ _
      · intro g hg r s' o' f'
        split
        · exact ihb hC.toRelated hexitb' (hother' g hg)
            (fun g' hg' => hother' g' (Nat.lt_trans hg hg')) _ _ _ _
        · exact hother' g hg _ _ _ _
    have hexitsa : ∀ gen s o f, C f (executeOn w n background a gen s o f (exitOn w n background))
        (Nush.execute a gen s o exiting) := fun gen _ _ _ =>
      iha hC.toRelated hexita' (hC.exits background gen) (fun g _ => hC.exits background g) _ _ _ _
    have hexitsb : ∀ gen s o f, C f (executeOn w n background b gen s o f (exitOn w n background))
        (Nush.execute b gen s o exiting) := fun gen _ _ _ =>
      ihb hC.toRelated hexitb' (hC.exits background gen) (fun g _ => hC.exits background g) _ _ _ _
    have hwaiton : ∀ {c : FileRun} {c₀ : Run}, C f c c₀ → ∀ o',
        R f (waitOn c gen s o' (returningOn gen k)) (afterWait c₀ gen s o' (returning gen k₀)) := by
      intro c c₀ hc o'
      refine hR.wait hc ?_
      rw [hC.status hc]
      exact hown' _ _ _ _
    cases oper with
    | semicolon => exact hseq _
    | or =>
      show R f _ (orCmd (Nush.execute a) (Nush.execute b) gen s o (returning gen k₀))
      rw [orCmd_eq]
      exact hseq _
    | and =>
      show R f _ (andCmd (Nush.execute a) (Nush.execute b) gen s o (returning gen k₀))
      rw [andCmd_eq]
      exact hseq _
    | background =>
      refine hR.wait
        (iha hC.toRelated hexita' (hC.leaves (gen + 1)) (fun g _ => hC.leaves g) _ _ _ _) ?_
      by_cases hb : b = .null
      · simp only [hb, ne_eq, not_true_eq_false, if_false, decide_false]
        exact hown' _ _ _ _
      · simp only [hb, ne_eq, not_false_eq_true, if_true, decide_true]
        exact ihb hR hexitb hown' hother' _ _ _ _
    | pipe =>
      apply hwaiton
      exact hC.wait (hexitsa _ _ _ _) (hexitsb _ _ _ _)
    | rdrIn =>
      apply hwaiton
      cases fileName b with
      | none => exact hC.crash _ _
      | some path => exact hexitsa _ _ _ _
    | rdrOut =>
      apply hwaiton
      cases fileName b with
      | none => exact hC.crash _ _
      | some path =>
        refine iha hC.toRelated hexita' ?_ ?_ _ _ _ _
        · exact fun _ s' o' f' => hother' _ (Nat.lt_succ_self gen) 0 s' o' f'
        · exact fun g hg _ s' o' f' => hother' g (Nat.lt_of_succ_lt hg) 0 s' o' f'

end Related

/-- Without the file, `executeOn` is `execute`. -/
theorem executeOn_run (w : World) (n : Nat) (background : Bool) (t : Astree) {k : FileCont}
    {k₀ : Cont} (hk : ∀ gen r s o f, (k gen r s o f).run = k₀ gen r s o) (gen : Nat) (s : Shell)
    (o : Oracle) (f : File) :
    (executeOn w n background t gen s o f k).run = execute t gen s o k₀ := by
  have hrun :
      ∀ (r : FileRun) (L : List ScriptEvent), (r.after L).run = r.run.after (actionsOf L) := by
    intro r L
    simp only [FileRun.run, FileRun.after, Run.after, actionsOf_append]
  have hsame : Related (fun _ r r₀ => r.run = r₀) fun _ r r₀ => r.run = r₀ := by
    refine ⟨fun _ _ => rfl, ?_, ?_⟩
    · rintro f r r₀ caller gen rfl
      exact hrun _ _
    · rintro f c c₀ r r₀ rfl rfl
      exact hrun _ _
  have hchild : RelatedChild w n fun _ r r₀ => r.run = r₀ :=
    ⟨hsame, by rintro f c c₀ rfl; rfl, fun _ _ _ _ _ _ => rfl, fun _ _ _ _ _ => rfl,
      fun _ _ _ _ => rfl, fun _ _ _ _ _ => rfl⟩
  have hexits : Exits w n fun _ r r₀ => r.run = r₀ := fun _ _ _ => rfl
  exact hsame.execute hchild t (fun _ => ⟨hexits, hexits⟩) (hk gen) (fun g _ => hk g)
    background s o f

/-! ## The file in a child -/

theorem File.offset_back_le (n : Nat) (f : File) : (f.back n).offset ≤ f.offset := by
  unfold File.back
  split
  · exact Nat.sub_le _ _
  · exact Nat.le_refl _

theorem File.offset_exit_le (delay : Nat → Nat) (n : Nat) (background : Bool) (f : File) :
    (f.exit delay n background).offset ≤ f.offset := by
  unfold File.exit
  split
  · exact Nat.le_refl _
  · split
    · split
      · exact File.offset_back_le n f
      · exact Nat.le_refl _
    · exact File.offset_back_le n f

theorem File.exit_zero (delay : Nat → Nat) (background : Bool) (f : File) :
    f.exit delay 0 background = f := if_pos rfl

/-- An event that is no matter of the reading loop. -/
def ScriptEvent.Silent : ScriptEvent → Prop
  | .did a => a.isLineDone = false
  | .passed .. => False
  | .cutOff _ => False

def SilentOn (L : List ScriptEvent) : Prop := ∀ e ∈ L, e.Silent

theorem silentOn_nil : SilentOn [] := fun _ he => by cases he

theorem SilentOn.append {L M : List ScriptEvent} (hL : SilentOn L) (hM : SilentOn M) :
    SilentOn (L ++ M) := by
  intro e he
  rcases List.mem_append.mp he with he | he
  · exact hL e he
  · exact hM e he

theorem silentOn_did {a : Action} (h : a.isLineDone = false) : SilentOn [.did a] := by
  intro e he
  rw [List.mem_singleton.mp he]
  exact h

/-- A child that ends without reading the script. -/
structure Ended (n : Nat) (f : File) (c : FileRun) (c₀ : Run) : Prop where
  fate : c.fate = c₀.fate
  silent : SilentOn c.log
  lower : c.file.offset ≤ f.offset
  kept : n = 0 → c.file = f

theorem Ended.after {n : Nat} {f : File} {c c' : FileRun} {c₀ c₀' : Run} (h : Ended n f c c₀)
    (h' : Ended n c.file c' c₀') : Ended n f (c'.after c.log) (c₀'.after c₀.log) :=
  ⟨h'.fate, h.silent.append h'.silent, h'.lower.trans h.lower,
    fun hn => (h'.kept hn).trans (h.kept hn)⟩

theorem ended_exit (w : World) (n : Nat) (background : Bool) (f : File) (fate : Fate)
    {L : List ScriptEvent} (hL : SilentOn L) (L₀ : List Action) :
    Ended n f ⟨fate, L, f.exit w.delay n background⟩ ⟨fate, L₀⟩ := by
  refine ⟨rfl, hL, File.offset_exit_le _ _ _ _, ?_⟩
  rintro rfl
  exact File.exit_zero w.delay background f

theorem ended_here (n : Nat) (f : File) (fate : Fate) {L : List ScriptEvent} (hL : SilentOn L)
    (L₀ : List Action) : Ended n f ⟨fate, L, f⟩ ⟨fate, L₀⟩ :=
  ⟨rfl, hL, Nat.le_refl _, fun _ => rfl⟩

theorem related_ended (w : World) (n : Nat) : RelatedChild w n (Ended n) where
  crash gen f := ended_here n f .killed (silentOn_did rfl) _
  returned caller gen h :=
    ⟨h.fate, (silentOn_did rfl).append h.silent, h.lower, h.kept⟩
  wait hc h := hc.after h
  status h := by rw [h.fate]
  exits background _ status _ _ f :=
    ended_exit w n background f (exitWith status).fate silentOn_nil []
  leaves _ _ _ _ f := ended_here n f (exitWith 0).fate silentOn_nil []
  ran fate _ _ f := ended_here n f fate (silentOn_did rfl) _
  missing background fate _ _ f := ended_exit w n background f fate (silentOn_did rfl) _

theorem ended_child (w : World) (n : Nat) (background : Bool) (t : Astree) {k : FileCont}
    {k₀ : Cont} (hk : ∀ gen r s o f, Ended n f (k gen r s o f) (k₀ gen r s o)) (gen : Nat)
    (s : Shell) (o : Oracle) (f : File) :
    Ended n f (executeOn w n background t gen s o f k) (execute t gen s o k₀) := by
  have hexits : Exits w n (Ended n) := fun background _ f =>
    ended_exit w n background f (.exits 0) (silentOn_did rfl) _
  exact (related_ended w n).execute (related_ended w n) t (fun _ => ⟨hexits, hexits⟩) (hk gen)
    (fun g _ => hk g) background s o f

theorem ended_exiting (w : World) (n : Nat) (background : Bool) (t : Astree) (gen : Nat) (s : Shell)
    (o : Oracle) (f : File) :
    Ended n f (executeOn w n background t gen s o f (exitOn w n background))
      (execute t gen s o exiting) :=
  ended_child w n background t ((related_ended w n).exits background) gen s o f

theorem ended_leaving (w : World) (n : Nat) (background : Bool) (t : Astree) (gen : Nat) (s : Shell)
    (o : Oracle) (f : File) :
    Ended n f (executeOn w n background t gen s o f leaveOn)
      (execute t gen s o fun _ _ _ _ => exitWith 0) :=
  ended_child w n background t (related_ended w n).leaves gen s o f

/-! ## Which lines let a child exit -/

/-- Every call returns at most once, in the process that makes it, and that process
is not killed. -/
def fit : Astree → Bool
  | .null => true
  | .cmd words => safe (.cmd words)
  | .op oper a b =>
    match oper with
    | .background => fit b
    | .pipe => true
    | .rdrIn => true
    | .rdrOut => (fileName b).isNone || !reaches (fun _ => true) (codes a)
    | _ => fit a && (!reaches (runsRight oper b) (codes a) || fit b)

section Installed

variable (installed : String → Bool)

/-- Some process can call `exit` in the call. -/
def canExit : Astree → Bool
  | .null => false
  | .cmd [] => false
  | .cmd (input :: _) => input == "exit" || (input != "cd" && !installed input)
  | .op oper a b =>
    match oper with
    | .background => canExit a || canExit b
    | .pipe => !(crashes a && crashes b)
    | .rdrIn => (fileName b).isSome && !crashes a
    | .rdrOut => (fileName b).isSome && canExit a
    | _ => canExit a || (reaches (runsRight oper b) (codes a) && canExit b)

/-- The statuses that a fit call can return after another process has called `exit`. -/
def afterExit : Astree → Ends
  | .null => fun _ => false
  | .cmd words => fun κ => κ == .one && canExit installed (.cmd words) && words.head? != some "exit"
  | .op oper a b =>
    let runs := runsRight oper b
    match oper with
    | .background =>
      fun κ => (canExit installed a && codes (.op .background a b) κ) || afterExit b κ
    | .pipe => fun κ => canExit installed (.op .pipe a b) && childEnds b κ
    | .rdrIn => fun κ => canExit installed (.op .rdrIn a b) && childEnds a κ
    | .rdrOut => fun κ => canExit installed (.op .rdrOut a b) && κ == .zero
    | _ => fun κ => (afterExit a κ && !runs κ) ||
        (reaches runs (afterExit a) && codes b κ) || (reaches runs (codes a) && afterExit b κ)

/-- No child calls `exit` on a way on which the call returns. -/
def leavesFile (t : Astree) : Bool := !reaches (fun _ => true) (afterExit installed t)

end Installed

/-- The rest of the process that makes the call ends with status 0. -/
def EndsZeroOn (k : FileCont) : Prop := ∀ gen r s o f, (k gen r s o f).fate.wexitstatus = 0

section File

variable {w : World} {n : Nat}

theorem EndsZeroOn.execute {k : FileCont} (h : EndsZeroOn k) (background : Bool) (t : Astree)
    (gen : Nat) (s : Shell) (o : Oracle) (f : File) :
    (executeOn w n background t gen s o f k).fate.wexitstatus = 0 := by
  have hstatus : RelatedChild w n fun _ r r₀ => r.fate.wexitstatus = r₀.fate.wexitstatus :=
    ⟨⟨fun _ _ => rfl, fun _ _ h => h, fun _ h => h⟩, fun h => h, fun _ _ _ _ _ _ => rfl,
      fun _ _ _ _ _ => rfl, fun _ _ _ _ => rfl, fun _ _ _ _ _ => rfl⟩
  have hzero : Related (fun _ r _ => r.fate.wexitstatus = 0)
      fun _ r r₀ => r.fate.wexitstatus = r₀.fate.wexitstatus :=
    ⟨fun _ _ => rfl, fun _ _ h => h, fun _ h => h⟩
  exact @Related.execute w n _ _ hzero hstatus t
    (fun _ => ⟨fun _ _ _ => rfl, fun _ _ _ => rfl⟩) gen k (fun _ _ _ _ => exitWith 0)
    (fun r s o f => h gen r s o f) (fun g _ r s o f => h g r s o f) background s o f

theorem EndsZeroOn.next {k : FileCont} (h : EndsZeroOn k) (cond : Int → Bool) (background : Bool)
    (b : Astree) : EndsZeroOn fun gen first s o f =>
      if cond first then executeOn w n background b gen s o f k else k gen first s o f := by
  intro gen first s o f
  dsimp only
  split
  · exact h.execute background b gen s o f
  · exact h _ _ _ _ _

theorem executeOn_crash {t : Astree} (h : crashes t = true) (background : Bool) (gen : Nat)
    (s : Shell) (o : Oracle) (f : File) (k : FileCont) :
    executeOn w n background t gen s o f k = crashOn gen f := by
  cases t with
  | null => cases h
  | op o a b => cases h
  | cmd words =>
    cases words with
    | nil => rfl
    | cons input args =>
      have hcd : input = "cd" ∧ args = [] := by simpa [crashes, safe] using h
      obtain ⟨rfl, rfl⟩ := hcd
      rfl

theorem missing_of_installed {input : String} (h : w.installed input = true) (a : Answer) :
    w.missing input a = false := by simp [World.missing, h]

theorem cmdOn_program {input : String} {args : List String} (hcd : input ≠ "cd")
    (hexit : input ≠ "exit") (background : Bool) (gen : Nat) (s : Shell) (o : Oracle) (f : File)
    (k : FileCont) : cmdOn w n background (input :: args) gen s o f k =
      waitOn ⟨o.next.fate, [.did (.ran (gen + 1) (input :: args))],
        if w.missing input o.next then f.exit w.delay n background else f⟩ gen s o.rest k := by
  simp only [cmdOn, if_neg hcd, if_neg hexit]

theorem childEnds_crash {t : Astree} (h : crashes t = true) : childEnds t = zeroOnly := by
  cases t with
  | null => cases h
  | op o a b => cases h
  | cmd words =>
    have hunsafe : safe (.cmd words) = false := by simpa [crashes] using h
    simp [childEnds, hunsafe]

theorem not_missing {installed : String → Bool} {input : String} {args : List String}
    (h : canExit installed (.cmd (input :: args)) = false) (hcd : input ≠ "cd") :
    input ≠ "exit" ∧ installed input = true := by
  simpa [canExit, hcd] using h

/-- Without an `exit` the file is left as it is, also where the call returns in a child. -/
theorem file_kept {t : Astree} (h : canExit w.installed t = false) {background : Bool} {gen : Nat}
    {s : Shell} {o : Oracle} {f : File} {k : FileCont} (hzero : EndsZeroOn k)
    (hk : ∀ g κ r s o, codes t κ = true → κ.Is r → (k g r s o f).file = f) :
    (executeOn w n background t gen s o f k).file = f := by
  induction t generalizing background gen s o k with
  | null => exact hk gen .zero 0 s o rfl rfl
  | cmd words =>
    cases words with
    | nil => rfl
    | cons input args =>
      by_cases hcd : input = "cd"
      · subst hcd
        cases args with
        | nil => rfl
        | cons dir args =>
          show (if o.next.cdOk then _ else _ : FileRun).file = f
          split
          · exact hk gen .zero 0 _ _ rfl rfl
          · exact hk gen .other (-1) _ _ rfl (Or.inl rfl)
      · obtain ⟨hne, hinstalled⟩ := not_missing h hcd
        obtain ⟨h0, h255⟩ := wexitstatus_range o.next.fate
        obtain ⟨κ, hκne, hκ⟩ := exists_kind h0 h255
        have hcodes : codes (.cmd (input :: args)) κ = true := by
          simp [codes, safe, cmdEnds, hcd, hne, hκne]
        show (cmdOn w n background (input :: args) gen s o f (returningOn gen k)).file = f
        rw [cmdOn_program hcd hne, missing_of_installed hinstalled]
        exact hk gen κ o.next.fate.wexitstatus s o.rest hcodes hκ
  | op oper a b iha ihb =>
    have hzero' : EndsZeroOn (returningOn gen k) := fun g r s o f => hzero g r s o f
    have hk' : ∀ g κ r s o, codes (.op oper a b) κ = true → κ.Is r →
        (returningOn gen k g r s o f).file = f := fun g κ r s o => hk g κ r s o
    have hseq : ∀ {cond : Int → Bool} {runs : Kind → Bool},
        (∀ κ r, Kind.Is κ r → cond r = runs κ) →
        codes (.op oper a b) = seqEnds runs (codes a) (codes b) →
        (canExit w.installed a || (reaches runs (codes a) && canExit w.installed b)) = false →
        (seqOn cond (executeOn w n background a) (executeOn w n background b) gen s o f
          (returningOn gen k)).file = f := by
      intro cond runs hcond hcodes hnone
      rw [hcodes] at hk'
      obtain ⟨hna, hnb⟩ := Bool.or_eq_false_iff.mp hnone
      refine iha hna (hzero'.next cond background b) fun g κ r s o he hr => ?_
      rw [hcond κ r hr]
      by_cases hruns : runs κ = true
      · have hreach : reaches runs (codes a) = true := reaches_of hr he hruns
        rw [if_pos hruns]
        refine ihb (by simpa [hreach] using hnb) hzero' fun g κ r s o he hr => ?_
        exact hk' g κ r s o (by simp [seqEnds, hreach, he]) hr
      · rw [if_neg hruns]
        exact hk' g κ r s o (by simp [seqEnds, he, hruns]) hr
    have hwait : ∀ {c : FileRun}, c.file = f →
        (∃ κ, codes (.op oper a b) κ = true ∧ κ.Is c.fate.wexitstatus) →
        (waitOn c gen s o.parent (returningOn gen k)).file = f := by
      rintro c hc ⟨κ, he, hr⟩
      show (returningOn gen k gen _ s o.parent c.file).file = f
      rw [hc]
      exact hk' gen κ _ s o.parent he hr
    cases oper with
    | semicolon => exact hseq (semicolon_cond (decide (b ≠ .null))) rfl h
    | or => exact hseq or_cond rfl h
    | and => exact hseq and_cond rfl h
    | background =>
      obtain ⟨hna, hnb⟩ := Bool.or_eq_false_iff.mp h
      have hchild : (executeOn w n true a (gen + 1) s o.child f leaveOn).file = f :=
        iha hna (fun _ _ _ _ _ => rfl) fun _ _ _ _ _ _ _ => rfl
      show (if b ≠ .null then _ else _ : FileRun).file = f
      rw [hchild]
      by_cases hb : b = .null
      · rw [if_neg (fun hne => hne hb)]
        exact hk' gen .zero 0 s o.parent (by simp [codes, hb, zeroOnly]) rfl
      · rw [if_pos hb]
        refine ihb hnb hzero' fun g κ r s o he hr => hk' g κ r s o ?_ hr
        simpa [codes, hb] using he
    | pipe =>
      have hboth : crashes a = true ∧ crashes b = true := by
        simpa [canExit] using h
      apply hwait
      · rw [executeOn_crash hboth.1, executeOn_crash hboth.2]
        rfl
      · refine ⟨.zero, ?_, ?_⟩
        · show childEnds b .zero = true
          rw [childEnds_crash hboth.2]
          rfl
        · rw [executeOn_crash hboth.2]
          rfl
    | rdrIn =>
      have hcrash : ∀ path, fileName b = some path → crashes a = true :=
        fun path hname => by simpa [canExit, hname] using h
      apply hwait
      · cases hname : fileName b with
        | none => rfl
        | some path =>
          dsimp only
          rw [executeOn_crash (hcrash path hname)]
          rfl
      · refine ⟨.zero, ?_, ?_⟩
        · cases hname : fileName b with
          | none => simp [codes, hname, zeroOnly]
          | some path => simp [codes, hname, childEnds_crash (hcrash path hname), zeroOnly]
        · cases hname : fileName b with
          | none => rfl
          | some path =>
            dsimp only
            rw [executeOn_crash (hcrash path hname)]
            rfl
    | rdrOut =>
      have hchild : ∀ path, fileName b = some path → canExit w.installed a = false :=
        fun path hname => by simpa [canExit, hname] using h
      apply hwait
      · cases hname : fileName b with
        | none => rfl
        | some path =>
          refine iha (hchild path hname) (fun g _ s o f => hzero' g 0 s o f) fun g _ _ s o _ _ => ?_
          exact hk' g .zero 0 s o rfl rfl
      · refine ⟨.zero, rfl, ?_⟩
        cases fileName b with
        | none => rfl
        | some path => exact EndsZeroOn.execute (fun g _ s o f => hzero' g 0 s o f) _ _ _ _ _ _

end File

theorem childEnds_exit (t : Astree) : childEnds t .exit = false := by
  induction t with
  | null => rfl
  | cmd words =>
    unfold childEnds
    split
    · rfl
    · rfl
  | op oper a b iha ihb =>
    cases oper with
    | pipe => exact ihb
    | rdrIn =>
      unfold childEnds
      dsimp only
      split
      · exact iha
      · rfl
    | _ => rfl

theorem codes_exit {t : Astree} (h : noExit t = true) : codes t .exit = false := by
  induction t with
  | null => rfl
  | cmd words =>
    cases words with
    | nil => rfl
    | cons input args =>
      have hne : input ≠ "exit" := by simpa [noExit] using h
      by_cases hcd : input = "cd"
      · subst hcd
        unfold codes
        split
        · rfl
        · rfl
      · unfold codes
        split
        · simp [cmdEnds, hcd, hne]
        · rfl
  | op oper a b iha ihb =>
    obtain ⟨ha, hb⟩ := Bool.and_eq_true_iff.mp h
    have hseq : ∀ runs, seqEnds runs (codes a) (codes b) .exit = false := by
      intro runs
      simp [seqEnds, iha ha, ihb hb]
    cases oper with
    | semicolon => exact hseq _
    | or => exact hseq _
    | and => exact hseq _
    | background =>
      simp only [codes]
      split
      · rfl
      · exact ihb hb
    | pipe => exact childEnds_exit b
    | rdrIn =>
      simp only [codes]
      split
      · exact childEnds_exit a
      · rfl
    | rdrOut => rfl

/-! ## Calls that return once -/

/-- The call returns once, in the process that makes it, with a status in `e`, or ends with
the builtin `exit`; and the file is as before unless the status is in `d`. -/
def Leaves (n : Nat) (e d : Ends) (x : FileExec) : Prop :=
  ∀ gen s o f,
    (e .exit = true ∧ ∃ L f', SilentOn L ∧ ∀ k, x gen s o f k = ⟨.exits 0, L, f'⟩) ∨
    ∃ κ r s' o' L f', e κ = true ∧ κ.Is r ∧ SilentOn L ∧ f'.offset ≤ f.offset ∧
      (n = 0 ∨ d κ = false → f' = f) ∧ ∀ k, x gen s o f k = (k gen r s' o' f').after L

section Leaves

variable {w : World} {n : Nat} {e d : Ends}

theorem Leaves.returning {x : FileExec} (h : Leaves n e d x) :
    Leaves n e d fun gen s o f k => x gen s o f (returningOn gen k) := by
  intro gen s o f
  rcases h gen s o f with ⟨he, L, f', hL, hrun⟩ | ⟨κ, r, s', o', L, f', he, hr, hL, hle, hf, hrun⟩
  · exact Or.inl ⟨he, L, f', hL, fun k => hrun _⟩
  · refine Or.inr ⟨κ, r, s', o', L ++ [.did (.returned gen gen)], f', he, hr,
      hL.append (silentOn_did rfl), hle, hf, fun k => ?_⟩
    exact (hrun _).trans (FileRun.after_after _ _ _)

theorem Leaves.seq {cond : Int → Bool} {runs : Kind → Bool} {ea eb da db : Ends} {a b : FileExec}
    (hcond : ∀ κ r, Kind.Is κ r → cond r = runs κ) (ha : Leaves n ea da a)
    (hb : reaches runs ea = true → Leaves n eb db b) :
    Leaves n (seqEnds runs ea eb)
      (fun κ => (da κ && !runs κ) || (reaches runs da && eb κ) || (reaches runs ea && db κ))
      (seqOn cond a b) := by
  intro gen s o f
  rcases ha gen s o f with ⟨he, L, f', hL, hrun⟩ | ⟨κ, r, s', o', L, f', he, hr, hL, hle, hf, hrun⟩
  · exact Or.inl ⟨by simp [seqEnds, he], L, f', hL, fun k => hrun _⟩
  have hrun' : ∀ k, seqOn cond a b gen s o f k =
      (if runs κ then b gen s' o' f' k else k gen r s' o' f').after L := by
    intro k
    unfold seqOn
    rw [hrun, hcond κ r hr]
  cases hruns : runs κ with
  | false =>
    refine Or.inr ⟨κ, r, s', o', L, f', by simp [seqEnds, he, hruns], hr, hL, hle, ?_, fun k => ?_⟩
    · rintro (hn | hd)
      · exact hf (Or.inl hn)
      · simp only [hruns, Bool.or_eq_false_iff] at hd
        exact hf (Or.inr (by simpa using hd.1.1))
    · rw [hrun', hruns]
      rfl
  | true =>
    have hreach : reaches runs ea = true := reaches_of hr he hruns
    rcases hb hreach gen s' o' f' with
      ⟨he', L', f'', hL', hrest⟩ | ⟨κ', r', s'', o'', L', f'', he', hr', hL', hle', hf', hrest⟩
    · refine Or.inl ⟨by simp [seqEnds, hreach, he'], L ++ L', f'', hL.append hL', fun k => ?_⟩
      rw [hrun', hruns, if_pos rfl, hrest]
      rfl
    · refine Or.inr ⟨κ', r', s'', o'', L ++ L', f'', by simp [seqEnds, hreach, he'], hr',
        hL.append hL', hle'.trans hle, ?_, fun k => ?_⟩
      · rintro (hn | hd)
        · exact (hf' (Or.inl hn)).trans (hf (Or.inl hn))
        · simp only [hreach, he', Bool.or_eq_false_iff, Bool.and_true, Bool.true_and] at hd
          -- a way through `κ` after an exit would be one of the whole sequence
          have hda : da κ = false := by
            cases hda : da κ with
            | false => rfl
            | true => rw [reaches_of hr hda hruns] at hd; simp at hd
          exact (hf' (Or.inr hd.2)).trans (hf (Or.inr hda))
      · rw [hrun', hruns, if_pos rfl, hrest, FileRun.after_after]

theorem leaves_cmd {words : List String} (hsafe : safe (.cmd words) = true) (background : Bool) :
    Leaves n (codes (.cmd words)) (afterExit w.installed (.cmd words))
      (cmdOn w n background words) := by
  intro gen s o f
  have hcodes : codes (.cmd words) = cmdEnds words := if_pos hsafe
  rw [hcodes]
  cases words with
  | nil => cases hsafe
  | cons input args =>
    by_cases hcd : input = "cd"
    · subst hcd
      cases args with
      | nil => cases hsafe
      | cons dir args =>
        right
        cases hok : o.next.cdOk with
        | true =>
          refine ⟨.zero, 0, s ++ [dir], o.rest, [], f, rfl, rfl, silentOn_nil, Nat.le_refl _,
            fun _ => rfl, fun k => ?_⟩
          simp only [cmdOn, hok, if_true]
          rfl
        | false =>
          refine ⟨.other, -1, s, o.rest, [], f, rfl, Or.inl rfl, silentOn_nil, Nat.le_refl _,
            fun _ => rfl, fun k => ?_⟩
          simp only [cmdOn, hok, if_true]
          rfl
    · by_cases hexit : input = "exit"
      · subst hexit
        exact Or.inl ⟨rfl, _, _, silentOn_did rfl, fun k => rfl⟩
      · obtain ⟨h0, h255⟩ := wexitstatus_range o.next.fate
        obtain ⟨κ, hne, hκ⟩ := exists_kind h0 h255
        have hends : cmdEnds (input :: args) κ = true := by simp [cmdEnds, hcd, hexit, hne]
        refine Or.inr ⟨κ, o.next.fate.wexitstatus, s, o.rest,
          [.did (.ran (gen + 1) (input :: args))],
          if w.missing input o.next then f.exit w.delay n background else f, hends, hκ,
          silentOn_did rfl, ?_, ?_, fun k => cmdOn_program hcd hexit background gen s o f k⟩
        · split
          · exact File.offset_exit_le _ _ _ _
          · exact Nat.le_refl _
        · intro hkept
          cases hmissing : w.missing input o.next with
          | false => rfl
          | true =>
            -- a failed `execvp` makes the status 1
            simp only [World.missing, Bool.and_eq_true, Bool.not_eq_true',
              decide_eq_true_eq] at hmissing
            obtain ⟨⟨hinstalled, hfate⟩, -⟩ := hmissing
            rcases hkept with rfl | hd
            · exact File.exit_zero w.delay background f
            · have hone : κ = .one := by
                rw [hfate] at hκ
                cases κ with
                | one => rfl
                | zero => exact absurd (show (1 : Int) = 0 from hκ) (by decide)
                | other =>
                  have hother : (1 : Int) = -1 ∨ (2 : Int) ≤ 1 ∧ (1 : Int) ≤ 255 := hκ
                  omega
                | exit => exact absurd hκ id
              simp [hone, afterExit, canExit, hcd, hexit, hinstalled] at hd

/-- A parent that waits for a child. -/
theorem leaves_wait {child : Nat → Shell → Oracle → File → FileRun}
    (h : ∀ gen s o f, ∃ c₀, Ended n f (child gen s o f) c₀ ∧
      ∃ κ, e κ = true ∧ κ.Is c₀.fate.wexitstatus ∧ (d κ = false → (child gen s o f).file = f)) :
    Leaves n e d fun gen s o f k => waitOn (child gen s o.child f) gen s o.parent k := by
  intro gen s o f
  obtain ⟨c₀, hc, κ, he, hκ, hd⟩ := h gen s o.child f
  refine Or.inr ⟨κ, c₀.fate.wexitstatus, s, o.parent, (child gen s o.child f).log,
    (child gen s o.child f).file, he, hκ, hc.silent, hc.lower, ?_, fun k => ?_⟩
  · rintro (hn | hkept)
    · exact hc.kept hn
    · exact hd hkept
  · show (k gen _ s o.parent _).after _ = _
    rw [hc.fate]

def pipeChildOn (w : World) (n : Nat) (background : Bool) (a b : Astree) (gen : Nat) (s : Shell)
    (o : Oracle) (f : File) : FileRun :=
  let child2 := executeOn w n background a (gen + 2) s o.child f (exitOn w n background)
  (executeOn w n background b (gen + 1) s o.parent child2.file (exitOn w n background)).after
    child2.log

def rdrInChildOn (w : World) (n : Nat) (background : Bool) (a b : Astree) (gen : Nat) (s : Shell)
    (o : Oracle) (f : File) : FileRun :=
  match fileName b with
  | none => crashOn (gen + 1) f
  | some _ => executeOn w n background a (gen + 1) s o f (exitOn w n background)

/-- A child of `>` that does not return. -/
def rdrOutChildOn (w : World) (n : Nat) (background : Bool) (a b : Astree) (gen : Nat) (_ : Shell)
    (_ : Oracle) (f : File) : FileRun :=
  if (fileName b).isNone || crashes a then crashOn (gen + 1) f
  else ⟨.exits 0, [.did (.exitBuiltin (gen + 1))], f.exit w.delay n background⟩

theorem leaves_background (a : Astree) {x : FileExec} (hx : Leaves n e d x) :
    Leaves n e (fun κ => (canExit w.installed a && e κ) || d κ) fun gen s o f k =>
      (x gen s o.parent (executeOn w n true a (gen + 1) s o.child f leaveOn).file k).after
        (executeOn w n true a (gen + 1) s o.child f leaveOn).log := by
  intro gen s o f
  have hchild := ended_leaving w n true a (gen + 1) s o.child f
  have hkept : canExit w.installed a = false →
      (executeOn w n true a (gen + 1) s o.child f leaveOn).file = f := fun h =>
    file_kept h (fun _ _ _ _ _ => rfl) fun _ _ _ _ _ _ _ => rfl
  rcases hx gen s o.parent (executeOn w n true a (gen + 1) s o.child f leaveOn).file with
    ⟨he, L, f', hL, hrun⟩ | ⟨κ, r, s', o', L, f', he, hr, hL, hle, hf, hrun⟩
  · refine Or.inl ⟨he, _, f', hchild.silent.append hL, fun k => ?_⟩
    dsimp only
    rw [hrun]
    rfl
  · refine Or.inr ⟨κ, r, s', o', _, f', he, hr, hchild.silent.append hL,
      hle.trans hchild.lower, ?_, fun k => ?_⟩
    · rintro (hn | hd)
      · exact (hf (Or.inl hn)).trans (hchild.kept hn)
      · obtain ⟨hnone, hd⟩ := Bool.or_eq_false_iff.mp hd
        exact (hf (Or.inr hd)).trans (hkept (by simpa [he] using hnone))
    · dsimp only
      rw [hrun, FileRun.after_after]

/-- The left side of a `>` never returns: it is a command that dies or that is `exit`. -/
theorem never_returns {a b : Astree} (hwf : WellFormed (.op .rdrOut a b))
    (h : reaches (fun _ => true) (codes a) = false) :
    crashes a = true ∨ ∃ args, a = .cmd ("exit" :: args) := by
  have hstop : ∀ κ, κ ≠ .exit → codes a κ = false := by
    intro κ hne
    cases he : codes a κ with
    | false => rfl
    | true =>
      have hmem : κ ∈ returnKinds := by cases κ <;> simp [returnKinds] at hne ⊢
      have hreach : reaches (fun _ => true) (codes a) = true :=
        List.any_eq_true.mpr ⟨κ, hmem, by rw [he]; rfl⟩
      rw [hreach] at h
      cases h
  cases a with
  | null => exact absurd (hstop .zero (by decide)) (by decide)
  | cmd words =>
    cases words with
    | nil => exact Or.inl rfl
    | cons input args =>
      by_cases hexit : input = "exit"
      · exact Or.inr ⟨args, by rw [hexit]⟩
      · left
        cases hsafe : safe (.cmd (input :: args)) with
        | false => simp [crashes, hsafe]
        | true =>
          have hzero := hstop .zero (by decide)
          simp only [codes, hsafe, if_true, cmdEnds] at hzero
          by_cases hcd : input = "cd" <;> simp [hcd, hexit] at hzero
  | op o l r =>
    obtain ⟨hleft, -, hwl, -⟩ := hwf
    have hindex := hleft o (by simp [opers])
    cases o with
    | rdrIn =>
      obtain ⟨hl, -, hwl', -⟩ := hwl
      have hpl : IsPipeline l := fun o ho => Nat.le_trans (by decide) (Nat.le_of_lt (hl o ho))
      have hsome : ∃ κ, κ ≠ .exit ∧ codes (.op .rdrIn l r) κ = true := by
        cases hname : fileName r with
        | none => exact ⟨.zero, by decide, by simp [codes, hname, zeroOnly]⟩
        | some path =>
          obtain ⟨κ, he, hκ⟩ := (pipeline_shows hwl' hpl).1 0 [] fun _ => ⟨.killed, true⟩
          exact ⟨κ, hκ.ne_exit, by simpa [codes, hname] using he⟩
      obtain ⟨κ, hne, he⟩ := hsome
      rw [hstop κ hne] at he
      cases he
    | _ => exact absurd hindex (by decide)

theorem executeOn_leaves {t : Astree} (hwf : WellFormed t) (hfit : fit t = true)
    (background : Bool) :
    Leaves n (codes t) (afterExit w.installed t) (executeOn w n background t) := by
  have hhere : Leaves n zeroOnly (fun _ => false) fun gen s o f k => k gen 0 s o f :=
    fun gen s o f => Or.inr ⟨.zero, 0, s, o, [], f, rfl, rfl, silentOn_nil, Nat.le_refl _,
      fun _ => rfl, fun _ => rfl⟩
  induction t with
  | null => exact hhere.returning
  | cmd words => exact (leaves_cmd hfit background).returning
  | op oper a b iha ihb =>
    have hwf' := hwf
    obtain ⟨hleft, hright, hwa, hwb⟩ := hwf'
    have hseq : ∀ {cond : Int → Bool} {runs : Kind → Bool},
        (∀ κ r, Kind.Is κ r → cond r = runs κ) →
        (fit a && (!reaches runs (codes a) || fit b)) = true →
        Leaves n (seqEnds runs (codes a) (codes b))
          (fun κ => (afterExit w.installed a κ && !runs κ) ||
            (reaches runs (afterExit w.installed a) && codes b κ) ||
            (reaches runs (codes a) && afterExit w.installed b κ))
          (seqOn cond (executeOn w n background a) (executeOn w n background b)) := by
      intro cond runs hcond hboth
      obtain ⟨hfa, hfb⟩ := Bool.and_eq_true_iff.mp hboth
      exact (iha hwa hfa).seq hcond fun hr => ihb hwb (by simpa [hr] using hfb)
    cases oper with
    | semicolon => exact (hseq (semicolon_cond (decide (b ≠ .null))) hfit).returning
    | or => exact (hseq or_cond hfit).returning
    | and => exact (hseq and_cond hfit).returning
    | background =>
      by_cases hb : b = .null
      · subst hb
        exact (leaves_background a hhere).returning
      · have hcodes : codes (.op .background a b) = codes b := if_neg hb
        have hrun : executeOn w n background (.op .background a b) = fun gen s o f k =>
            (executeOn w n background b gen s o.parent
                (executeOn w n true a (gen + 1) s o.child f leaveOn).file (returningOn gen k)).after
              (executeOn w n true a (gen + 1) s o.child f leaveOn).log := by
          funext gen s o f k
          simp only [executeOn, if_pos hb]
        have hd : afterExit w.installed (.op .background a b) = fun κ =>
            (canExit w.installed a && codes b κ) || afterExit w.installed b κ := by
          funext κ
          simp only [afterExit, hcodes]
        rw [hcodes, hrun, hd]
        exact (leaves_background a (ihb hwb hfit)).returning
    | pipe =>
      have hpipe : Leaves n (childEnds b)
          (fun κ => canExit w.installed (.op .pipe a b) && childEnds b κ) fun gen s o f k =>
            waitOn (pipeChildOn w n background a b gen s o.child f) gen s o.parent k := by
        apply leaves_wait
        intro gen s o f
        obtain ⟨κ, he, hκ⟩ := (pipeline_shows hwb hright).1 (gen + 1) s o.parent
        refine ⟨_, (ended_exiting w n background a (gen + 2) s o.child f).after
          (ended_exiting w n background b (gen + 1) s o.parent _), κ, he, hκ, fun hd => ?_⟩
        have hboth : crashes a = true ∧ crashes b = true := by
          have hnone : canExit w.installed (.op .pipe a b) = false := by simpa [he] using hd
          simpa [canExit] using hnone
        unfold pipeChildOn
        rw [executeOn_crash hboth.1]
        dsimp only
        rw [executeOn_crash hboth.2]
        rfl
      exact hpipe.returning
    | rdrIn =>
      have hpa : IsPipeline a := fun o ho => Nat.le_trans (by decide) (Nat.le_of_lt (hleft o ho))
      have hin : Leaves n (codes (.op .rdrIn a b)) (afterExit w.installed (.op .rdrIn a b))
          fun gen s o f k =>
            waitOn (rdrInChildOn w n background a b gen s o.child f) gen s o.parent k := by
        apply leaves_wait
        intro gen s o f
        unfold rdrInChildOn
        cases hname : fileName b with
        | none =>
          exact ⟨⟨.killed, []⟩, ended_here n f .killed (silentOn_did rfl) _, .zero,
            by simp [codes, hname, zeroOnly], rfl, fun _ => rfl⟩
        | some path =>
          obtain ⟨κ, he, hκ⟩ := (pipeline_shows hwa hpa).1 (gen + 1) s o
          refine ⟨_, ended_exiting w n background a (gen + 1) s o f, κ,
            by simpa [codes, hname] using he, hκ, fun hd => ?_⟩
          have hcrash : crashes a = true := by simpa [afterExit, canExit, hname, he] using hd
          dsimp only
          rw [executeOn_crash hcrash]
          rfl
      exact hin.returning
    | rdrOut =>
      have hout : Leaves n zeroOnly (afterExit w.installed (.op .rdrOut a b)) fun gen s o f k =>
          waitOn (rdrOutChildOn w n background a b gen s o.child f) gen s o.parent k := by
        apply leaves_wait
        intro gen s o f
        unfold rdrOutChildOn
        split
        · exact ⟨⟨.killed, []⟩, ended_here n f .killed (silentOn_did rfl) _, .zero, rfl, rfl,
            fun _ => rfl⟩
        · next hsome =>
          refine ⟨⟨.exits 0, []⟩,
            ended_exit w n background f (.exits 0) (silentOn_did rfl) _, .zero,
            rfl, rfl, fun hd => ?_⟩
          simp only [Bool.or_eq_true, not_or, Bool.not_eq_true] at hsome
          obtain ⟨path, hname⟩ : ∃ path, fileName b = some path :=
            Option.isSome_iff_exists.mp (by simpa using hsome.1)
          have hreach : reaches (fun _ => true) (codes a) = false := by
            simpa [fit, hname] using hfit
          rcases never_returns hwf hreach with hcrash | ⟨args, rfl⟩
          · rw [hcrash] at hsome
            cases hsome.2
          · simp [afterExit, canExit, hname] at hd
      have hrun : executeOn w n background (.op .rdrOut a b) = fun gen s o f k =>
          waitOn (rdrOutChildOn w n background a b gen s o.child f) gen s o.parent
            (returningOn gen k) := by
        funext gen s o f k
        cases hname : fileName b with
        | none => simp [executeOn, rdrOutChildOn, hname]
        | some path =>
          have hreach : reaches (fun _ => true) (codes a) = false := by
            simpa [fit, hname] using hfit
          rcases never_returns hwf hreach with hcrash | ⟨args, rfl⟩
          · simp [executeOn, rdrOutChildOn, hname, hcrash, executeOn_crash hcrash]
          · simp [executeOn, rdrOutChildOn, hname, crashes, safe, cmdOn]
      rw [hrun]
      exact hout.returning

end Leaves

end Cs3650.Nush
