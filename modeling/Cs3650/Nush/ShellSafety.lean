import Cs3650.Nush.Statuses
import Cs3650.Nush.Tokens

/-!
# Lines that cannot abort the shell

Besides the vectors of a forked child, the shell itself reads word 0 of a leaf
and, for `cd`, word 1 (`implement.c:27-31`); `svec_get` asserts that it is
there. `shellSafe` computes that no answers of the world lead the shell to a
`cd` without a directory: it follows the statuses that the calls of the shell
return, and those of the children it waits for.
-/

namespace Cs3650.Nush

/-- The ways in which the shell itself leaves a call. -/
def shellEnds : Astree → Ends
  | .null => zeroOnly
  | .cmd words => cmdEnds words
  | .op oper a b =>
    match oper with
    | .background => if b = .null then zeroOnly else shellEnds b
    | .pipe => childEnds b
    | .rdrIn => if (fileName b).isSome then childEnds a else zeroOnly
    | .rdrOut => zeroOnly
    | _ => seqEnds (runsRight oper b) (shellEnds a) (shellEnds b)

/-- The shell executes no command that its own `svec_get` aborts. -/
def shellSafe : Astree → Bool
  | .null => true
  | .cmd words => safe (.cmd words)
  | .op oper a b =>
    match oper with
    | .background => shellSafe b
    | .pipe => true
    | .rdrIn => true
    | .rdrOut => true
    | _ => shellSafe a && (!reaches (runsRight oper b) (shellEnds a) || shellSafe b)

/-! ## Crashes of the children -/

/-- Nothing before generation `m` has crashed. -/
def CrashesFrom (m : Nat) (L : List Action) : Prop := ∀ gen, .crashed gen ∈ L → m ≤ gen

theorem CrashesFrom.append {m : Nat} {L M : List Action} (hL : CrashesFrom m L)
    (hM : CrashesFrom m M) : CrashesFrom m (L ++ M) := by
  intro gen h
  rcases List.mem_append.mp h with h | h
  · exact hL gen h
  · exact hM gen h

theorem crashesFrom_nil (m : Nat) : CrashesFrom m [] := fun _ hmem => by cases hmem

theorem crashesFrom_single {m : Nat} {a : Action} (h : ∀ gen, a ≠ .crashed gen) :
    CrashesFrom m [a] := by
  intro gen hmem
  exact absurd (List.mem_singleton.mp hmem).symm (h gen)

theorem crashesFrom_crash {m gen : Nat} (h : m ≤ gen) : CrashesFrom m (crash gen).log := by
  intro gen' hmem
  obtain rfl : gen' = gen := by simpa [crash] using hmem
  exact h

theorem crashesFrom_execute {m : Nat} (t : Astree) {k : Cont}
    (hk : ∀ gen r s o, m ≤ gen → CrashesFrom m (k gen r s o).log) {gen : Nat} (hm : m ≤ gen)
    (s : Shell) (o : Oracle) : CrashesFrom m (execute t gen s o k).log := by
  have hreturned : ∀ caller gen : Nat, CrashesFrom m [.returned caller gen] :=
    fun _ _ => crashesFrom_single fun _ => Action.noConfusion
  have hexit : ∀ gen r s o, m ≤ gen → CrashesFrom m (exiting gen r s o).log :=
    fun _ _ _ _ _ => crashesFrom_nil m
  induction t generalizing gen s o k with
  | null => exact (hreturned _ _).append (hk _ _ _ _ hm)
  | cmd words =>
    have hk' : ∀ r s o, CrashesFrom m (returning gen k gen r s o).log :=
      fun _ _ _ => (hreturned _ _).append (hk _ _ _ _ hm)
    cases words with
    | nil => exact crashesFrom_crash hm
    | cons input args =>
      unfold execute executeCmd
      dsimp only
      split
      · cases args with
        | nil => exact crashesFrom_crash hm
        | cons dir args =>
          dsimp only
          split <;> exact hk' _ _ _
      · split
        · exact crashesFrom_single fun _ => Action.noConfusion
        · exact (crashesFrom_single fun _ => Action.noConfusion).append (hk' _ _ _)
  | op oper a b iha ihb =>
    have hk' : ∀ gen' r s o, m ≤ gen' → CrashesFrom m (returning gen k gen' r s o).log :=
      fun _ _ _ _ h => (hreturned _ _).append (hk _ _ _ _ h)
    have hnext : m ≤ gen + 1 := Nat.le_succ_of_le hm
    have hright : ∀ cond : Int → Prop, ∀ _ : DecidablePred cond, ∀ gen' first s' o', m ≤ gen' →
        CrashesFrom m (if cond first then execute b gen' s' o' (returning gen k)
          else returning gen k gen' first s' o').log := by
      intro cond _ gen' first s' o' h
      split
      · exact ihb hk' h s' o'
      · exact hk' _ _ _ _ h
    cases oper with
    | semicolon =>
      exact iha (hright (fun _ => decide (b ≠ .null) = true) inferInstance) hm s o
    | or => exact iha (hright (fun r => r = 1) inferInstance) hm s o
    | and => exact iha (hright (fun r => r = 0) inferInstance) hm s o
    | background =>
      refine CrashesFrom.append (iha (fun gen' _ => hexit gen' 0) hnext s o.child) ?_
      split
      · exact ihb hk' hm s o.parent
      · exact hk' _ _ _ _ hm
    | pipe =>
      have hleft := iha hexit (Nat.le_succ_of_le hnext) s o.child.child
      exact (hleft.append (ihb hexit hnext s o.child.parent)).append (hk' _ _ _ _ hm)
    | rdrIn =>
      refine CrashesFrom.append ?_ (hk' _ _ _ _ hm)
      cases fileName b with
      | none => exact crashesFrom_crash hnext
      | some path => exact iha hexit hnext s o.child
    | rdrOut =>
      refine CrashesFrom.append ?_ (hk' _ _ _ _ hm)
      cases fileName b with
      | none => exact crashesFrom_crash hnext
      | some path => exact iha (fun gen' _ s' o' h => hk' gen' 0 s' o' h) hnext s o.child

/-! ## The shell -/

/-- What comes after a call of generation `gen` ends with status 0, and in a
child of `gen` only children of `gen` crash. -/
def ShellCont (gen : Nat) (k : Cont) : Prop :=
  EndsZero k ∧ ∀ g r s o, gen + 1 ≤ g → CrashesFrom (gen + 1) (k g r s o).log

/-- The process that makes the call does not crash in it, and leaves it in one
of the ways `e`. -/
abbrev Survives (e : Ends) (x : Exec) : Prop :=
  Keeps (fun gen => CrashesFrom (gen + 1)) ShellCont e x

/-- The call takes every way of `e`, where the rest of the process ends with
status 0. -/
abbrev ComesBack (e : Ends) (x : Exec) : Prop := Attains (fun _ => EndsZero) e x

/-- For some answers of the world the process that makes the call crashes. -/
def Aborts (x : Exec) : Prop :=
  ∀ gen s, ∃ o, ∀ k, EndsZero k →
    (x gen s o k).fate = .killed ∧ .crashed gen ∈ (x gen s o k).log

theorem crashesFrom_of_quiet {L : List Action} (h : Quiet L) (m : Nat) : CrashesFrom m L :=
  fun _ hmem => absurd (h _ hmem) id

theorem EndsZero.returning {k : Cont} (h : EndsZero k) (caller : Nat) :
    EndsZero (returning caller k) := fun gen r s o => h gen r s o

theorem EndsZero.next {cond : Int → Bool} {b : Astree} {k : Cont} (h : EndsZero k) :
    EndsZero fun gen' first s' o' =>
      if cond first then Nush.execute b gen' s' o' k else k gen' first s' o' := by
  intro gen' first s' o'
  dsimp only
  split
  · exact h.execute b gen' s' o'
  · exact h _ _ _ _

theorem composes_crashesFrom : Composes (fun gen => CrashesFrom (gen + 1)) ShellCont where
  append _ _ _ := CrashesFrom.append
  returned _ := crashesFrom_single fun _ => Action.noConfusion
  returning gen _ hk := ⟨hk.1.returning gen, fun g r s o hg =>
    (crashesFrom_single fun _ => Action.noConfusion).append (hk.2 g r s o hg)⟩

theorem ShellCont.next {cond : Int → Bool} (b : Astree) (gen : Nat) (k : Cont)
    (hk : ShellCont gen k) : ShellCont gen fun gen' first s' o' =>
      if cond first then Nush.execute b gen' s' o' k else k gen' first s' o' := by
  refine ⟨hk.1.next, fun g r s o hg => ?_⟩
  dsimp only
  split
  · exact crashesFrom_execute b hk.2 hg s o
  · exact hk.2 g r s o hg

theorem Aborts.returning {x : Exec} (h : Aborts x) :
    Aborts fun gen s o k => x gen s o (returning gen k) := by
  intro gen s
  obtain ⟨o, ho⟩ := h gen s
  exact ⟨o, fun k hk => ho _ (hk.returning gen)⟩

theorem Aborts.of_follows {x y : Exec} (hy : Aborts y) {gen : Nat} {s s' : Shell}
    (h : ∀ o', ∃ o, ∀ k, EndsZero k → Follows (x gen s o k) (y gen s' o' k)) :
    ∃ o, ∀ k, EndsZero k → (x gen s o k).fate = .killed ∧ .crashed gen ∈ (x gen s o k).log := by
  obtain ⟨o', ho'⟩ := hy gen s'
  obtain ⟨o, ho⟩ := h o'
  refine ⟨o, fun k hk => ?_⟩
  obtain ⟨hfate, hmem⟩ := ho' k hk
  exact ⟨(ho k hk).1.trans hfate, (ho k hk).2 _ hmem⟩

theorem aborts_seq_left {cond : Int → Bool} {a : Exec} {b : Astree} (ha : Aborts a) :
    Aborts (seqCmd cond a (execute b)) := by
  intro gen s
  obtain ⟨o, ho⟩ := ha gen s
  exact ⟨o, fun k hk => ho _ hk.next⟩

theorem aborts_seq_right {cond : Int → Bool} {runs : Kind → Bool} {ea : Ends} {a : Exec}
    {b : Astree} (hcond : ∀ κ r, Kind.Is κ r → cond r = runs κ) (ha : ComesBack ea a)
    (hreach : reaches runs ea = true) (hb : Aborts (execute b)) :
    Aborts (seqCmd cond a (execute b)) := by
  intro gen s
  obtain ⟨s', hright⟩ := ha.reached_right hcond (fun _ _ hk => hk.next) hreach gen s
  exact hb.of_follows hright

theorem aborts_background (a : Exec) {b : Exec} (hb : Aborts b) :
    Aborts (backgroundCmd a b true) := fun gen s =>
  hb.of_follows fun o => ⟨joinOracle o o, fun k _ => background_follows a b gen s o o k⟩

/-- The child of `>` goes on as the shell would; it ends with 0 then. -/
theorem rdrOut_run (a b : Astree) (gen : Nat) (s : Shell) (o : Oracle) (k : Cont)
    (hk : EndsZero k) : ∃ L, rdrOutCmd (execute a) b gen s o k = (k gen 0 s o.parent).after L ∧
      ((∀ g r s o, gen + 1 ≤ g → CrashesFrom (gen + 1) (k g r s o).log) →
        CrashesFrom (gen + 1) L) := by
  unfold rdrOutCmd
  cases fileName b with
  | none => exact ⟨_, rfl, fun _ => crashesFrom_crash (Nat.le_refl _)⟩
  | some path =>
    have hzero : EndsZero fun gen' _ s' o' => k gen' 0 s' o' := fun gen' _ s' o' => hk gen' 0 s' o'
    refine ⟨(execute a (gen + 1) s o.child fun gen' _ s' o' => k gen' 0 s' o').log, ?_, ?_⟩
    · show (k gen (execute a (gen + 1) s o.child _).fate.wexitstatus s o.parent).after _ = _
      rw [hzero.execute a]
    · intro hcrash
      exact crashesFrom_execute a (fun g _ s o hg => hcrash g 0 s o hg) (Nat.le_refl _) s o.child

theorem survives_rdrOut (a b : Astree) : Survives zeroOnly (rdrOutCmd (execute a) b) := by
  intro gen s o k hk
  obtain ⟨L, hrun, hL⟩ := rdrOut_run a b gen s o k hk.1
  exact Or.inr ⟨.zero, 0, s, o.parent, L, rfl, rfl, hL hk.2, hrun⟩

theorem comesBack_rdrOut (a b : Astree) : ComesBack zeroOnly (rdrOutCmd (execute a) b) := by
  intro gen s κ he
  obtain rfl : κ = .zero := by simpa [zeroOnly] using he
  refine Or.inr ⟨0, s, rfl, fun o' => ⟨joinOracle o' o', fun k hk => ?_⟩⟩
  obtain ⟨L, hrun, -⟩ := rdrOut_run a b gen s (joinOracle o' o') k hk
  rw [hrun, parent_join]
  exact follows_after _ _

/-! ## Lines -/

theorem seqEnds_of_reaches {runs : Kind → Bool} {ea eb eb' : Ends}
    (h : reaches runs ea = true → eb = eb') : seqEnds runs ea eb = seqEnds runs ea eb' := by
  cases hreach : reaches runs ea with
  | true => rw [h hreach]
  | false =>
    funext κ
    simp [seqEnds, hreach]

theorem shellEnds_eq_codes {t : Astree} (h : shellSafe t = true) : shellEnds t = codes t := by
  induction t with
  | null => rfl
  | cmd words => exact (if_pos h).symm
  | op oper a b iha ihb =>
    have hseq : ∀ {runs : Kind → Bool},
        (shellSafe a && (!reaches runs (shellEnds a) || shellSafe b)) = true →
        seqEnds runs (shellEnds a) (shellEnds b) = seqEnds runs (codes a) (codes b) := by
      intro runs hsafe
      obtain ⟨hsa, hsb⟩ := Bool.and_eq_true_iff.mp hsafe
      rw [iha hsa] at hsb ⊢
      exact seqEnds_of_reaches fun hr => ihb (by simpa [hr] using hsb)
    cases oper with
    | semicolon => exact hseq h
    | or => exact hseq h
    | and => exact hseq h
    | background =>
      unfold shellEnds codes
      rw [ihb h]
    | pipe => rfl
    | rdrIn => rfl
    | rdrOut => rfl

theorem comesBack_codes {t : Astree} (hwf : WellFormed t) : ComesBack (codes t) (execute t) := by
  have hreturning : ∀ {e : Ends} {x : Exec}, ComesBack e x →
      ComesBack e fun gen s o k => x gen s o (returning gen k) :=
    fun h => h.returning fun gen _ hk => hk.returning gen
  induction t with
  | null =>
    refine hreturning (x := fun gen s o k => k gen 0 s o) fun gen s κ he => ?_
    obtain rfl : κ = .zero := by simpa [codes, zeroOnly] using he
    exact Or.inr ⟨0, s, rfl, fun o' => ⟨o', fun k _ => Follows.refl _⟩⟩
  | cmd words =>
    unfold codes
    split
    · next hsafe => exact hreturning ((attains_cmd hsafe).mono fun _ _ _ => trivial)
    · exact fun _ _ _ he => by cases he
  | op oper a b iha ihb =>
    obtain ⟨hleft, hright, hwa, hwb⟩ := hwf
    have hseq : ∀ {cond : Int → Bool} {runs : Kind → Bool},
        (∀ κ r, Kind.Is κ r → cond r = runs κ) →
        ComesBack (seqEnds runs (codes a) (codes b)) (seqCmd cond (execute a) (execute b)) :=
      fun hcond => Attains.seq hcond (fun _ _ hk => hk.next) (iha hwa) fun _ => ihb hwb
    cases oper with
    | semicolon => exact hreturning (hseq (semicolon_cond (decide (b ≠ .null))))
    | or =>
      have hc := hseq or_cond
      rw [← orCmd_eq] at hc
      exact hreturning hc
    | and =>
      have hc := hseq and_cond
      rw [← andCmd_eq] at hc
      exact hreturning hc
    | background =>
      have hends :
          codes (.op .background a b) = if decide (b ≠ .null) then codes b else zeroOnly := by
        by_cases hb : b = .null <;> simp [codes, hb]
      rw [hends]
      exact hreturning (attains_background _ (ihb hwb) _)
    | pipe => exact hreturning (attains_wait (shows_pipe a (pipeline_shows hwb hright)).2)
    | rdrIn =>
      have hpa : IsPipeline a := fun o ho => Nat.le_trans (by decide) (Nat.le_of_lt (hleft o ho))
      have hc : ComesBack _ _ := attains_wait (shows_rdrIn b (pipeline_shows hwa hpa)).2
      rw [← rdrInCmd_wait] at hc
      exact hreturning hc
    | rdrOut => exact hreturning (comesBack_rdrOut a b)

theorem shell_survives {t : Astree} (hwf : WellFormed t) (h : shellSafe t = true) :
    Survives (shellEnds t) (execute t) := by
  have hreturning : ∀ {e : Ends} {x : Exec}, Survives e x →
      Survives e fun gen s o k => x gen s o (returning gen k) :=
    fun h => h.returning composes_crashesFrom
  induction t with
  | null =>
    exact hreturning (x := fun gen s o k => k gen 0 s o) fun gen s o k _ =>
      Or.inr ⟨.zero, 0, s, o, [], rfl, rfl, crashesFrom_nil _, rfl⟩
  | cmd words =>
    exact hreturning ((keeps_cmd h).mono (fun _ _ hL => crashesFrom_of_quiet hL _)
      fun _ _ _ => trivial)
  | op oper a b iha ihb =>
    obtain ⟨hleft, hright, hwa, hwb⟩ := hwf
    have hseq : ∀ {cond : Int → Bool} {runs : Kind → Bool},
        (∀ κ r, Kind.Is κ r → cond r = runs κ) →
        (shellSafe a && (!reaches runs (shellEnds a) || shellSafe b)) = true →
        Survives (seqEnds runs (shellEnds a) (shellEnds b))
        (seqCmd cond (execute a) (execute b)) := by
      intro cond runs hcond hsafe
      obtain ⟨hsa, hsb⟩ := Bool.and_eq_true_iff.mp hsafe
      exact Keeps.seq hcond (ShellCont.next b) composes_crashesFrom (iha hwa hsa)
        fun hr => ihb hwb (by simpa [hr] using hsb)
    have hexit : ∀ m gen' r s o, m ≤ gen' → CrashesFrom m (exiting gen' r s o).log :=
      fun _ _ _ _ _ _ => crashesFrom_nil _
    cases oper with
    | semicolon => exact hreturning (hseq (semicolon_cond (decide (b ≠ .null))) h)
    | or =>
      have hs := hseq or_cond h
      rw [← orCmd_eq] at hs
      exact hreturning hs
    | and =>
      have hs := hseq and_cond h
      rw [← andCmd_eq] at hs
      exact hreturning hs
    | background =>
      have hends : shellEnds (.op .background a b) =
          if decide (b ≠ .null) then shellEnds b else zeroOnly := by
        by_cases hb : b = .null <;> simp [shellEnds, hb]
      have hcrash : ∀ gen s o, CrashesFrom (gen + 1)
          (execute a (gen + 1) s o fun _ _ _ _ => exitWith 0).log := fun _ s o =>
        crashesFrom_execute a (fun _ _ _ _ _ => crashesFrom_nil _) (Nat.le_refl _) s o
      rw [hends]
      exact hreturning (keeps_background composes_crashesFrom hcrash (ihb hwb h) _)
    | pipe =>
      have hshows := shows_pipe a (pipeline_shows hwb hright)
      have hcrash : ∀ gen s o, CrashesFrom (gen + 1) (pipeChild a b gen s o).log := fun gen s o =>
        (crashesFrom_execute a (hexit _) (by omega) s o.child).append
          (crashesFrom_execute b (hexit _) (by omega) s o.parent)
      exact hreturning (keeps_wait fun gen s o => ⟨hcrash gen s o, hshows.1 gen s o⟩)
    | rdrIn =>
      have hpa : IsPipeline a := fun o ho => Nat.le_trans (by decide) (Nat.le_of_lt (hleft o ho))
      have hshows := shows_rdrIn b (pipeline_shows hwa hpa)
      have hcrash : ∀ gen s o, CrashesFrom (gen + 1) (rdrInChild a b gen s o).log := by
        intro gen s o
        unfold rdrInChild
        cases fileName b with
        | none => exact crashesFrom_crash (Nat.le_refl _)
        | some path => exact crashesFrom_execute a (hexit _) (Nat.le_refl _) s o
      have hs : Survives _ _ := keeps_wait fun gen s o => ⟨hcrash gen s o, hshows.1 gen s o⟩
      rw [← rdrInCmd_wait] at hs
      exact hreturning hs
    | rdrOut => exact hreturning (survives_rdrOut a b)

theorem shell_aborts {t : Astree} (hwf : WellFormed t) (h : shellSafe t = false) :
    Aborts (execute t) := by
  induction t with
  | null => cases h
  | cmd words =>
    intro gen s
    refine ⟨fun _ => ⟨.killed, true⟩, fun k _ => ?_⟩
    have hcrash : crashes (.cmd words) = true := by
      rw [shellSafe] at h
      simp [crashes, h]
    rw [execute_crash hcrash]
    exact ⟨rfl, List.mem_singleton.mpr rfl⟩
  | op oper a b iha ihb =>
    obtain ⟨hleft, hright, hwa, hwb⟩ := hwf
    have hseq : ∀ {cond : Int → Bool} {runs : Kind → Bool},
        (∀ κ r, Kind.Is κ r → cond r = runs κ) →
        (shellSafe a && (!reaches runs (shellEnds a) || shellSafe b)) = false →
        Aborts (seqCmd cond (execute a) (execute b)) := by
      intro cond runs hcond hunsafe
      cases hsa : shellSafe a with
      | true =>
        have hboth : reaches runs (shellEnds a) = true ∧ shellSafe b = false := by
          simpa [hsa] using hunsafe
        have hreach := hboth.1
        rw [shellEnds_eq_codes hsa] at hreach
        exact aborts_seq_right hcond (comesBack_codes hwa) hreach (ihb hwb hboth.2)
      | false => exact aborts_seq_left (iha hwa hsa)
    cases oper with
    | semicolon => exact (hseq (semicolon_cond (decide (b ≠ .null))) h).returning
    | or =>
      have haborts := hseq or_cond h
      rw [← orCmd_eq] at haborts
      exact haborts.returning
    | and =>
      have haborts := hseq and_cond h
      rw [← andCmd_eq] at haborts
      exact haborts.returning
    | background =>
      have hne : decide (b ≠ .null) = true := by
        refine decide_eq_true ?_
        rintro rfl
        cases h
      have haborts : Aborts (backgroundCmd (execute a) (execute b) (decide (b ≠ .null))) := by
        rw [hne]
        exact aborts_background _ (ihb hwb h)
      exact haborts.returning
    | pipe => cases h
    | rdrIn => cases h
    | rdrOut => cases h

/-- No `svec_get` of the shell itself fails while it executes the line. What a
child that comes out of the line does then ends with status 0, or by a signal,
as the reading loop does (`mainLoop_zero`). -/
def ShellSurvives (line : List Char) : Prop :=
  ∀ s o ends', (∀ gen r s o, (ends' gen r s o : Fate).wexitstatus = 0) →
    .crashed 0 ∉ (executeLine (parse (tokenize line)) s o ends').log

/-- The shell survives a line exactly if it reaches no `cd` without a directory. -/
theorem shellSurvives_iff (line : List Char) :
    ShellSurvives line ↔ shellSafe (parse (tokenize line)) = true := by
  obtain ⟨hwf, -⟩ := parse_sound (tokenize line)
  constructor
  · intro h
    by_contra hunsafe
    obtain ⟨o, ho⟩ := shell_aborts hwf (Bool.eq_false_iff.mpr hunsafe) 0 []
    exact h [] o (fun _ _ _ _ => .exits 0) (fun _ _ _ _ => rfl) (ho _ fun _ _ _ _ => rfl).2
  · intro h s o ends' hends hmem
    have hdone : ∀ gen : Nat, CrashesFrom 1 [.lineDone gen] :=
      fun _ => crashesFrom_single fun _ => Action.noConfusion
    have hsurvives := shell_survives hwf h 0 s o
      (fun gen r s o => ⟨ends' gen r s o, [.lineDone gen]⟩) ⟨hends, fun gen _ _ _ _ => hdone gen⟩
    unfold executeLine at hmem
    rcases hsurvives with ⟨-, L, hL, -, hrun⟩ | ⟨_, _, _, _, L, -, -, hL, hrun⟩
    · rw [hrun] at hmem
      exact absurd (hL 0 hmem) (by decide)
    · rw [hrun] at hmem
      exact absurd ((hL.append (hdone 0)) 0 hmem) (by decide)

/-- `cd` on its own. -/
theorem bare_cd_aborts : ¬ ∀ line, ShellSurvives line := by
  intro h
  have hparse : parse (tokenize "cd".toList) = .cmd ["cd"] := by
    rw [show tokenize "cd".toList = ["cd"] by decide]
    exact parse_cmd (by simp) (by decide)
  have hline := h "cd".toList [] (fun _ => ⟨.exits 0, true⟩) (fun _ _ _ _ => .exits 0)
    fun _ _ _ _ => rfl
  rw [hparse] at hline
  exact hline (by decide)

end Cs3650.Nush
