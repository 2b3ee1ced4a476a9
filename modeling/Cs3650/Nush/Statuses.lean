import Cs3650.Nush.Discipline

/-!
# What a parent sees of its children

The status that a call returns is often that of a child which ran a subtree and
then called `exit`. `childEnds` are the statuses of such a child, over all answers
of the world; a child that dies is seen as 0 (`WEXITSTATUS` of a signal). What
comes out of a line and goes on with the script ends with 0 as well (`EndsZero`).
-/

namespace Cs3650.Nush

/-- The process that executes the tree dies at once. -/
def crashes : Astree → Bool
  | .cmd words => !safe (.cmd words)
  | _ => false

def zeroOnly : Ends := fun κ => κ == .zero

/-- The statuses of a child that executes a pipeline and exits. -/
def childEnds : Astree → Ends
  | .null => zeroOnly
  | .cmd words => if safe (.cmd words) then waited (cmdEnds words) else zeroOnly
  | .op oper a b =>
    match oper with
    | .pipe => childEnds b
    | .rdrIn => if (fileName b).isSome then childEnds a else zeroOnly
    | _ => zeroOnly

/-- The statuses that a call can return, in the process that makes it or in a child. -/
def codes : Astree → Ends
  | .null => zeroOnly
  | .cmd words => if safe (.cmd words) then cmdEnds words else fun _ => false
  | .op oper a b =>
    match oper with
    | .background => if b = .null then zeroOnly else codes b
    | .pipe => childEnds b
    | .rdrIn => if (fileName b).isSome then childEnds a else zeroOnly
    | .rdrOut => zeroOnly
    | _ => seqEnds (runsRight oper b) (codes a) (codes b)

/-! ## What comes from the continuation -/

/-- A property of runs that a call of `execute` adds nothing to: `C` is what
its children satisfy. -/
structure Closed (P C : Run → Prop) : Prop where
  dies : ∀ gen, P (crash gen)
  quits : ∀ gen, P ⟨.exits 0, [.exitBuiltin gen]⟩
  ran : ∀ r gen words, P r → P (r.after [.ran gen words])
  returned : ∀ r caller gen, P r → P (r.after [.returned caller gen])
  child : ∀ r c, C c → P r → P (r.after c.log)

section Closed

variable {P C : Run → Prop}

theorem Closed.cmd (hP : Closed P C) {k : Cont} (hk : ∀ gen r s o, P (k gen r s o))
    (words : List String) (gen : Nat) (s : Shell) (o : Oracle) :
    P (executeCmd words gen s o k) := by
  cases words with
  | nil => exact hP.dies gen
  | cons input args =>
    unfold executeCmd
    dsimp only
    split
    · split
      · exact hP.dies gen
      · split
        · exact hk _ _ _ _
        · exact hk _ _ _ _
    · split
      · exact hP.quits gen
      · exact hP.ran _ _ _ (hk _ _ _ _)

/-- What holds of every run after the call holds of the run from the call on. -/
theorem Closed.execute (hP : Closed P C) (hC : Closed C C) (hPC : ∀ r, P r → C r)
    (hexit : ∀ status, C (exitWith status)) (t : Astree) {k : Cont}
    (hk : ∀ gen r s o, P (k gen r s o)) (gen : Nat) (s : Shell) (o : Oracle) :
    P (execute t gen s o k) := by
  induction t generalizing P gen s o k with
  | null => exact hP.returned _ _ _ (hk _ _ _ _)
  | cmd words => exact hP.cmd (fun _ _ _ _ => hP.returned _ _ _ (hk _ _ _ _)) words gen s o
  | op oper a b iha ihb =>
    have hk' : ∀ gen' r s o, P (returning gen k gen' r s o) := fun _ _ _ _ =>
      hP.returned _ _ _ (hk _ _ _ _)
    have hright : ∀ cond : Int → Prop, ∀ _ : DecidablePred cond, ∀ gen' first s' o',
        P (if cond first then Nush.execute b gen' s' o' (returning gen k)
          else returning gen k gen' first s' o') := by
      intro cond _ gen' first s' o'
      by_cases hc : cond first
      · rw [if_pos hc]
        exact ihb hP hPC hk' gen' s' o'
      · rw [if_neg hc]
        exact hk' _ _ _ _
    have ha : ∀ gen s o, C (Nush.execute a gen s o exiting) :=
      iha hC (fun _ h => h) fun _ _ _ _ => hexit _
    have hb : ∀ gen s o, C (Nush.execute b gen s o exiting) :=
      ihb hC (fun _ h => h) fun _ _ _ _ => hexit _
    cases oper with
    | semicolon =>
      exact iha hP hPC (hright (fun _ => decide (b ≠ .null) = true) inferInstance) gen s o
    | or => exact iha hP hPC (hright (fun r => r = 1) inferInstance) gen s o
    | and => exact iha hP hPC (hright (fun r => r = 0) inferInstance) gen s o
    | background =>
      refine hP.child _ _ (iha hC (fun _ h => h) (fun _ _ _ _ => hexit 0) _ _ _) ?_
      split
      · exact ihb hP hPC hk' gen s o.parent
      · exact hk' _ _ _ _
    | pipe => exact hP.child _ _ (hC.child _ _ (ha _ _ _) (hb _ _ _)) (hk' _ _ _ _)
    | rdrIn =>
      refine hP.child _ _ ?_ (hk' _ _ _ _)
      cases fileName b with
      | none => exact hC.dies _
      | some path => exact ha _ _ _
    | rdrOut =>
      refine hP.child _ _ ?_ (hk' _ _ _ _)
      cases fileName b with
      | none => exact hC.dies _
      | some path => exact hPC _ (iha hP hPC (fun gen' _ s' o' => hk' gen' 0 s' o') _ _ _)

end Closed

def EndsZero (k : Cont) : Prop := ∀ gen r s o, (k gen r s o).fate.wexitstatus = 0

theorem EndsZero.execute {k : Cont} (h : EndsZero k) (t : Astree) (gen : Nat) (s : Shell)
    (o : Oracle) : (execute t gen s o k).fate.wexitstatus = 0 := by
  have hzero : Closed (fun r => r.fate.wexitstatus = 0) fun _ => True :=
    ⟨fun _ => rfl, fun _ => rfl, fun _ _ _ h => h, fun _ _ _ h => h, fun _ _ _ h => h⟩
  have htrue : Closed (fun _ => True) fun _ => True :=
    ⟨fun _ => trivial, fun _ => trivial, fun _ _ _ h => h, fun _ _ _ h => h, fun _ _ _ h => h⟩
  exact hzero.execute htrue (fun _ _ => trivial) (fun _ => trivial) t h gen s o

/-! ## Children that exit -/

/-- The child is seen to end in the ways `e`, and in each of them for some
answers of the world. -/
def Shows (e : Ends) (child : Nat → Shell → Oracle → Run) : Prop :=
  (∀ gen s o, ∃ κ, e κ = true ∧ κ.Is (child gen s o).fate.wexitstatus) ∧
    ∀ gen s κ, e κ = true → ∃ o, κ.Is (child gen s o).fate.wexitstatus

theorem shows_zero {child : Nat → Shell → Oracle → Run}
    (h : ∀ gen s o, (child gen s o).fate.wexitstatus = 0) : Shows zeroOnly child := by
  refine ⟨fun gen s o => ⟨.zero, rfl, h gen s o⟩, fun gen s κ he => ?_⟩
  obtain rfl : κ = .zero := by simpa [zeroOnly] using he
  exact ⟨fun _ => ⟨.killed, true⟩, h _ _ _⟩

/-- A process that waits for the child and exits with its status. -/
theorem Shows.wait {e : Ends} {child : Nat → Shell → Oracle → Run} (h : Shows e child) :
    Shows e fun gen s o => waitFor child gen s o (returning gen exiting) := by
  refine ⟨fun gen s o => ?_, fun gen s κ he => ?_⟩
  · obtain ⟨κ, he, hκ⟩ := h.1 gen s o.child
    exact ⟨κ, he, wait_exit hκ⟩
  · obtain ⟨o, ho⟩ := h.2 gen s κ he
    refine ⟨joinOracle o o, ?_⟩
    have hwait := wait_exit ho
    rw [← child_join o o] at hwait
    exact hwait

def pipeChild (a b : Astree) (gen : Nat) (s : Shell) (o : Oracle) : Run :=
  (execute b (gen + 1) s o.parent exiting).after (execute a (gen + 2) s o.child exiting).log

def rdrInChild (a b : Astree) (gen : Nat) (s : Shell) (o : Oracle) : Run :=
  match fileName b with
  | none => crash (gen + 1)
  | some _ => execute a (gen + 1) s o exiting

theorem rdrInCmd_wait (a b : Astree) : rdrInCmd (execute a) b = waitFor (rdrInChild a b) := by
  unfold rdrInCmd rdrInChild
  cases fileName b <;> rfl

theorem shows_pipe {e : Ends} (a : Astree) {b : Astree}
    (h : Shows e fun gen s o => execute b gen s o exiting) : Shows e (pipeChild a b) := by
  refine ⟨fun gen s o => h.1 (gen + 1) s o.parent, fun gen s κ he => ?_⟩
  obtain ⟨o, ho⟩ := h.2 (gen + 1) s κ he
  refine ⟨joinOracle o o, ?_⟩
  unfold pipeChild
  rw [parent_join]
  exact ho

theorem shows_rdrIn {e : Ends} {a : Astree} (b : Astree)
    (h : Shows e fun gen s o => execute a gen s o exiting) :
    Shows (if (fileName b).isSome then e else zeroOnly) (rdrInChild a b) := by
  unfold rdrInChild
  cases fileName b with
  | none => exact shows_zero fun _ _ _ => rfl
  | some path => exact ⟨fun gen => h.1 (gen + 1), fun gen => h.2 (gen + 1)⟩

theorem execute_crash {t : Astree} (h : crashes t = true) (gen : Nat) (s : Shell) (o : Oracle)
    (k : Cont) : execute t gen s o k = crash gen := by
  cases t with
  | null => cases h
  | op o a b => cases h
  | cmd words =>
    cases words with
    | nil => rfl
    | cons input args =>
      have hcd : input = "cd" ∧ args = [] := by simpa [crashes, safe] using h
      obtain ⟨rfl, rfl⟩ := hcd
      rfl

/-- A pipeline: no operator weaker than `|`. -/
def IsPipeline (t : Astree) : Prop := ∀ o ∈ opers t, Oper.pipe.index ≤ o.index

theorem rdrOut_exiting (a b : Astree) (gen : Nat) (s : Shell) (o : Oracle) :
    (execute (.op .rdrOut a b) gen s o exiting).fate.wexitstatus = 0 := by
  have hchild : ∀ k : Cont, EndsZero (fun gen' _ s' o' => k gen' 0 s' o') →
      (rdrOutCmd (execute a) b gen s o k).fate = (k gen 0 s o.parent).fate := by
    intro k hk
    unfold rdrOutCmd
    cases fileName b with
    | none => rfl
    | some path =>
      show (k gen (execute a (gen + 1) s o.child _).fate.wexitstatus s o.parent).fate = _
      rw [EndsZero.execute hk a]
  show (rdrOutCmd (execute a) b gen s o _).fate.wexitstatus = 0
  rw [hchild _ fun _ _ _ _ => rfl]
  rfl

theorem pipeline_shows {t : Astree} (hwf : WellFormed t) (hp : IsPipeline t) :
    Shows (childEnds t) fun gen s o => execute t gen s o exiting := by
  induction t with
  | null => exact shows_zero fun _ _ _ => rfl
  | cmd words =>
    unfold childEnds
    cases hsafe : safe (.cmd words) with
    | true =>
      have hkeeps := (keeps_cmd hsafe).returning composes_quiet
      have hattains := (attains_cmd hsafe).returning fun _ _ _ => trivial
      exact ⟨fun gen s o => (KeepsQuiet.child hkeeps gen s o).2,
        fun gen s κ he => AttainsAlways.child hattains gen s he⟩
    | false =>
      apply shows_zero
      intro gen s o
      rw [execute_crash (by simp [crashes, hsafe])]
      rfl
  | op oper a b iha ihb =>
    obtain ⟨hleft, hright, hwa, hwb⟩ := hwf
    have hindex := hp oper (by simp [opers])
    cases oper with
    | pipe => exact (shows_pipe a (ihb hwb hright)).wait
    | rdrIn =>
      have hpa : IsPipeline a := fun o ho => Nat.le_trans (by decide) (Nat.le_of_lt (hleft o ho))
      exact (shows_rdrIn b (iha hwa hpa)).wait
    | rdrOut => exact shows_zero (rdrOut_exiting a b)
    | semicolon => exact absurd hindex (by decide)
    | background => exact absurd hindex (by decide)
    | or => exact absurd hindex (by decide)
    | and => exact absurd hindex (by decide)

end Cs3650.Nush
