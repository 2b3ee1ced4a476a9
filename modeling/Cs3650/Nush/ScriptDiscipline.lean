import Cs3650.Nush.ScriptRuns

/-!
# Which lines keep the process discipline

A line keeps it when every call of `execute` returns in the process that has made
it only, and when the shell then reads the later lines of its script, each once. The
second half needs more than the first: a child that ends by `exit` returns nowhere, but
it hands the bytes that its copy of the stream has left back to the file.
-/

namespace Cs3650.Nush

/-- The later lines are handed on by the shell, each once, unless it has run `exit`. -/
def LaterOnce (later : List (List Char)) (r : FileRun) : Prop :=
  (.did (.exitBuiltin 0) ∈ r.log ∧ Passes [] r) ∨ Passes later r

/-- The discipline of a line that the shell executes after it has used the first `p` bytes
of its script, whatever the world answers. -/
def KeepsDiscipline (installed : String → Bool) (blksize : Nat) (text : List Char) (p : Nat)
    (t : Astree) : Prop :=
  (∀ s o ends', Disciplined (executeLine t s o ends')) ∧
  ∀ delay s o st f, Regular blksize text p st f → ∃ fuel, LaterOnce (lines (text.drop p))
    (executeOn ⟨installed, delay⟩ st.unread.length false t 0 s o f fun gen _ s o f =>
      (mainLoop ⟨installed, delay⟩ blksize text fuel st gen s o f).after [.did (.lineDone gen)])

/-! ## Safe lines return at most once -/

theorem codes_le_ends {t : Astree} (hwf : WellFormed t) (hsafe : safe t = true) {κ : Kind}
    (hne : κ ≠ .exit) (he : codes t κ = true) : ends t κ = true := by
  obtain ⟨r, s', hr, hback⟩ := (comesBack_codes hwf).comesBack 0 [] he hne
  obtain ⟨o, ho⟩ := hback fun _ => ⟨.killed, true⟩
  -- a rest that tells the status it has been given
  let k₀ : Cont := fun _ r' _ _ => ⟨if r' = r then .exits 0 else .killed, [.lineDone 0]⟩
  have hzero : EndsZero k₀ := by
    intro g r' s o
    show (if _ then Fate.exits 0 else Fate.killed).wexitstatus = 0
    split
    · rfl
    · rfl
  obtain ⟨hfate, hlog⟩ := ho k₀ hzero
  rcases (execute_safe t hsafe).1 0 [] o k₀ trivial with
    ⟨-, L, hL, -, hrun⟩ | ⟨κ', r', s₁, o₁, L, he', hr', -, hrun⟩
  · rw [hrun] at hlog
    exact absurd (hL _ (hlog _ (List.mem_singleton.mpr rfl))) id
  · rw [hrun] at hfate
    have hsame : r' = r := by
      by_contra hnot
      have hkilled : (k₀ 0 r' s₁ o₁).fate = .killed := if_neg hnot
      have hexits : (k₀ 0 r s' fun _ => ⟨.killed, true⟩).fate = .exits 0 := if_pos rfl
      cases hkilled.symm.trans (hfate.trans hexits)
    subst hsame
    rwa [hr.unique hr']

theorem reaches_mono {runs : Kind → Bool} {e e' : Ends}
    (h : ∀ κ, κ ≠ .exit → e κ = true → e' κ = true) (hreach : reaches runs e = true) :
    reaches runs e' = true := by
  obtain ⟨κ, hne, he, hruns⟩ := reaches_exists hreach
  refine List.any_eq_true.mpr ⟨κ, ?_, by rw [h κ hne he, hruns]; rfl⟩
  cases κ <;> simp [returnKinds] at hne ⊢

theorem fit_of_safe {t : Astree} (hwf : WellFormed t) (h : safe t = true) : fit t = true := by
  induction t with
  | null => rfl
  | cmd words => exact h
  | op oper a b iha ihb =>
    obtain ⟨-, -, hwa, hwb⟩ := hwf
    have hreach : ∀ {runs : Kind → Bool}, safe a = true → reaches runs (codes a) = true →
        reaches runs (ends a) = true := fun hsa => reaches_mono fun κ => codes_le_ends hwa hsa
    have hseq : ∀ {runs : Kind → Bool}, (safe a && (!reaches runs (ends a) || safe b)) = true →
        (fit a && (!reaches runs (codes a) || fit b)) = true := by
      intro runs hboth
      obtain ⟨hsa, hsb⟩ := Bool.and_eq_true_iff.mp hboth
      rw [iha hwa hsa, Bool.true_and]
      cases hr : reaches runs (codes a) with
      | false => rfl
      | true =>
        rw [hreach hsa hr] at hsb
        exact ihb hwb hsb
    cases oper with
    | semicolon => exact hseq h
    | or => exact hseq h
    | and => exact hseq h
    | background => exact ihb hwb (Bool.and_eq_true_iff.mp h).2
    | pipe => rfl
    | rdrIn => rfl
    | rdrOut =>
      obtain ⟨hleft, hnone⟩ := Bool.and_eq_true_iff.mp h
      have hsa := (Bool.and_eq_true_iff.mp hleft).2
      cases hr : reaches (fun _ => true) (codes a) with
      | false => simp [fit, hr]
      | true =>
        rw [hreach hsa hr] at hnone
        cases hnone

/-! ## The later lines -/

section Later

variable {installed : String → Bool} {blksize : Nat} {text : List Char} {p : Nat} {t : Astree}

theorem regular_exists (hp : p ≤ text.length) :
    ∃ st f, Regular blksize text p st f :=
  ⟨⟨(text.drop p).take (blockEnd blksize text.length p - p), false⟩,
    ⟨blockEnd blksize text.length p, 0, 0, []⟩, rfl, rfl, rfl, hp, fun heof => by cases heof⟩

theorem later_once (hblk : 0 < blksize) (hscript : Script (lines (text.drop p)))
    (hlater : LinesFit installed blksize p (lines (text.drop p))) (hwf : WellFormed t)
    (hsafe : safe t = true) {st : Stream} {f : File} (h : Regular blksize text p st f)
    (hfile : st.unread.length = 0 ∨ leavesFile installed t = true) (delay : Nat → Nat) (s : Shell)
    (o : Oracle) : ∃ fuel, LaterOnce (lines (text.drop p))
      (executeOn ⟨installed, delay⟩ st.unread.length false t 0 s o f fun gen _ s o f =>
        (mainLoop ⟨installed, delay⟩ blksize text fuel st gen s o f).after
          [.did (.lineDone gen)]) := by
  rcases fit_comesBack hwf (fit_of_safe hwf hsafe) ⟨installed, delay⟩ st.unread.length s o f with
    ⟨-, L, f', hL, hrun⟩ | ⟨r, s', o', L, f', hL, -, hkept, hrun⟩
  · -- the shell has run `exit`: the line was not done, and nothing is read
    refine ⟨0, Or.inl ?_⟩
    have hline := disciplined_of_safe hsafe s o fun _ _ _ _ => .exits 0
    have hsame := @executeOn_run ⟨installed, delay⟩ st.unread.length false t
      (fun gen _ _ _ f => ⟨.exits 0, [.did (.lineDone gen)], f⟩)
      (fun gen _ _ _ => ⟨.exits 0, [.lineDone gen]⟩) (fun _ _ _ _ _ => rfl) 0 s o f
    unfold executeLine at hline
    rw [← hsame, hrun] at hline
    rw [hrun]
    obtain ⟨-, -, hdone | ⟨-, hexit⟩⟩ := hline
    · have hmem : Action.lineDone 0 ∈ (actionsOf L).filter Action.isLineDone := by
        show _ ∈ (FileRun.run ⟨.exits 0, L, f'⟩).log.filter _
        rw [hdone]
        exact List.mem_singleton.mpr rfl
      obtain ⟨e, he, hdid⟩ := List.mem_filterMap.mp (List.mem_filter.mp hmem).1
      have hsilent := hL e he
      cases e with
      | did a =>
        cases hdid
        cases hsilent
      | passed gen cmd => cases hdid
      | cutOff gen => cases hdid
    · obtain ⟨e, he, hdid⟩ := List.mem_filterMap.mp hexit
      refine ⟨?_, fun gen hmem => absurd (hL _ hmem) id, hL.idle.passedBy, rfl⟩
      cases e with
      | did a =>
        cases hdid
        exact he
      | passed gen cmd => cases hdid
      | cutOff gen => cases hdid
  · rw [hkept hfile] at hrun
    obtain ⟨fuel, hpasses⟩ :=
      @linesFit_passes ⟨installed, delay⟩ blksize text hblk _ hscript p st f h rfl hlater s' o'
    refine ⟨fuel, Or.inr ?_⟩
    rw [hrun]
    exact hL.idle.passes ((idle_did _).passes hpasses)

end Later

end Cs3650.Nush
