import Cs3650.Nush.Implement
import Mathlib.Tactic.Ring

/-!
# Which lines keep the process discipline

`ends` computes in which ways the process that executes a tree can leave it,
over all answers of the world: by returning 0, 1 or another status, or by the
`exit` builtin. `safe` says that nothing goes wrong on any of these ways. A
line is disciplined in every shell state and for all answers of the world
exactly when its tree is safe; in particular every `>` whose left side can
return is a violation.
-/

namespace Cs3650.Nush

/-- A way to leave a call of `execute`. -/
inductive Kind
  | zero
  | one
  | other
  | exit
  deriving DecidableEq, Repr

def Kind.Is : Kind → Int → Prop
  | .zero, r => r = 0
  | .one, r => r = 1
  | .other, r => r = -1 ∨ (2 ≤ r ∧ r ≤ 255)
  | .exit, _ => False

def returnKinds : List Kind := [.zero, .one, .other]

abbrev Ends := Kind → Bool

/-- The right side of a sequence runs after the return kinds in `runs`. -/
def reaches (runs : Kind → Bool) (a : Ends) : Bool := returnKinds.any fun κ => a κ && runs κ

def seqEnds (runs : Kind → Bool) (a b : Ends) : Ends := fun κ =>
  (a κ && (κ == .exit || !runs κ)) || (reaches runs a && b κ)

/-- What the parent of a process that ends so sees. -/
def waited (e : Ends) : Ends
  | .zero => e .zero || e .exit
  | .one => e .one
  | .other => e .other
  | .exit => false

def cmdEnds : List String → Ends
  | [] => fun _ => false
  | input :: _ =>
    if input = "cd" then fun κ => κ == .zero || κ == .other
    else if input = "exit" then fun κ => κ == .exit
    else fun κ => κ != .exit

/-- After which statuses of the left side the right side runs. -/
def runsRight (oper : Oper) (b : Astree) : Kind → Bool :=
  match oper with
  | .or => fun κ => κ == .one
  | .and => fun κ => κ == .zero
  | _ => fun _ => b ≠ .null

def ends : Astree → Ends
  | .null => fun κ => κ == .zero
  | .cmd words => cmdEnds words
  | .op oper a b =>
    match oper with
    | .background => if b = .null then fun κ => κ == .zero else ends b
    | .pipe => waited (ends b)
    | .rdrIn => waited (ends a)
    | .rdrOut => fun κ => κ == .zero
    | _ => seqEnds (runsRight oper b) (ends a) (ends b)

def safe : Astree → Bool
  | .null => true
  | .cmd [] => false
  | .cmd (input :: args) => !(input == "cd" && args == [])
  | .op oper a b =>
    match oper with
    | .background => safe a && safe b
    | .pipe => safe a && safe b
    | .rdrIn => (fileName b).isSome && safe a
    | .rdrOut => (fileName b).isSome && safe a && !reaches (fun _ => true) (ends a)
    | _ => safe a && (!reaches (runsRight oper b) (ends a) || safe b)

/-! ## Logs -/

theorem after_nil (r : Run) : r.after [] = r := rfl

theorem after_after (r : Run) (L M : List Action) : (r.after L).after M = r.after (M ++ L) := by
  unfold Run.after
  rw [List.append_assoc]

/-- Actions that break nothing. -/
def Action.Quiet : Action → Prop
  | .ran _ _ => True
  | .exitBuiltin _ => True
  | .crashed _ => False
  | .returned caller gen => gen = caller
  | .lineDone _ => False

def Quiet (L : List Action) : Prop := ∀ a ∈ L, a.Quiet

theorem Quiet.append {L M : List Action} (hL : Quiet L) (hM : Quiet M) : Quiet (L ++ M) := by
  intro a ha
  rcases List.mem_append.mp ha with ha | ha
  · exact hL a ha
  · exact hM a ha

theorem Kind.Is.mem {κ : Kind} {r : Int} (h : κ.Is r) : κ ∈ returnKinds := by
  cases κ with
  | zero => decide
  | one => decide
  | other => decide
  | exit => exact absurd h id

theorem Kind.Is.ne_exit {κ : Kind} {r : Int} (h : κ.Is r) : κ ≠ .exit := by
  rintro rfl
  exact h

theorem Kind.Is.unique {κ κ' : Kind} {r : Int} (h : κ.Is r) (h' : κ'.Is r) : κ = κ' := by
  cases κ <;> cases κ' <;> simp only [Kind.Is] at h h' <;> first | rfl | omega

theorem reaches_of {κ : Kind} {r : Int} (hr : κ.Is r) {e : Ends} (he : e κ = true)
    {runs : Kind → Bool} (hruns : runs κ = true) : reaches runs e = true :=
  List.any_eq_true.mpr ⟨κ, hr.mem, by rw [he, hruns]; rfl⟩

theorem reaches_exists {e : Ends} {runs : Kind → Bool} (h : reaches runs e = true) :
    ∃ κ, κ ≠ .exit ∧ e κ = true ∧ runs κ = true := by
  obtain ⟨κ, hκ, hboth⟩ := List.any_eq_true.mp h
  obtain ⟨he, hruns⟩ := Bool.and_eq_true_iff.mp hboth
  refine ⟨κ, ?_, he, hruns⟩
  rintro rfl
  simp [returnKinds] at hκ

/-- `r` goes on as `r'`. -/
def Follows (r r' : Run) : Prop := r.fate = r'.fate ∧ ∀ a ∈ r'.log, a ∈ r.log

theorem Follows.refl (r : Run) : Follows r r := ⟨rfl, fun _ ha => ha⟩

theorem Follows.trans {r r' r'' : Run} (h : Follows r r') (h' : Follows r' r'') : Follows r r'' :=
  ⟨h.1.trans h'.1, fun a ha => h.2 a (h'.2 a ha)⟩

theorem follows_after (r : Run) (L : List Action) : Follows (r.after L) r :=
  ⟨rfl, fun _ ha => List.mem_append_right L ha⟩

/-! ## Ways out of a call

`Q` is what the actions of a call satisfy, `K` what comes after the call. -/

/-- Whatever the world answers, the call leaves in one of the ways `e`. -/
def Keeps (Q : Nat → List Action → Prop) (K : Nat → Cont → Prop) (e : Ends) (x : Exec) : Prop :=
  ∀ gen s o k, K gen k →
    (e .exit = true ∧ ∃ L, Q gen L ∧ .exitBuiltin gen ∈ L ∧ x gen s o k = ⟨.exits 0, L⟩) ∨
    ∃ κ r s' o' L, e κ = true ∧ κ.Is r ∧ Q gen L ∧ x gen s o k = (k gen r s' o').after L

/-- Every way in `e` is taken for some answers of the world, and the answers
that come after it may be chosen. -/
def Attains (K : Nat → Cont → Prop) (e : Ends) (x : Exec) : Prop :=
  ∀ gen s κ, e κ = true →
    (κ = .exit ∧ ∃ o, ∀ k, K gen k → (x gen s o k).fate = .exits 0) ∨
    ∃ r s', κ.Is r ∧ ∀ o', ∃ o, ∀ k, K gen k → Follows (x gen s o k) (k gen r s' o')

/-- What calls that are made one after the other keep. -/
structure Composes (Q : Nat → List Action → Prop) (K : Nat → Cont → Prop) : Prop where
  append : ∀ gen L M, Q gen L → Q gen M → Q gen (L ++ M)
  returned : ∀ gen, Q gen [.returned gen gen]
  returning : ∀ gen k, K gen k → K gen (returning gen k)

/-- `;`, `||` and `&&` differ in the statuses after which the right side runs. -/
def seqCmd (cond : Int → Bool) (a b : Exec) : Exec := fun gen s o k =>
  a gen s o fun gen' first s' o' => if cond first then b gen' s' o' k else k gen' first s' o'

section Ways

variable {Q : Nat → List Action → Prop} {K : Nat → Cont → Prop} {e : Ends} {x : Exec}

theorem Keeps.mono {Q' : Nat → List Action → Prop} {K' : Nat → Cont → Prop} (h : Keeps Q K e x)
    (hQ : ∀ gen L, Q gen L → Q' gen L) (hK : ∀ gen k, K' gen k → K gen k) : Keeps Q' K' e x := by
  intro gen s o k hk
  rcases h gen s o k (hK gen k hk) with ⟨he, L, hL, hmem, hrun⟩
    | ⟨κ, r, s', o', L, he, hr, hL, hrun⟩
  · exact Or.inl ⟨he, L, hQ gen L hL, hmem, hrun⟩
  · exact Or.inr ⟨κ, r, s', o', L, he, hr, hQ gen L hL, hrun⟩

theorem Attains.mono {K' : Nat → Cont → Prop} (h : Attains K e x)
    (hK : ∀ gen k, K' gen k → K gen k) : Attains K' e x := by
  intro gen s κ he
  rcases h gen s κ he with ⟨hκ, o, hrun⟩ | ⟨r, s', hr, hrun⟩
  · exact Or.inl ⟨hκ, o, fun k hk => hrun k (hK gen k hk)⟩
  · refine Or.inr ⟨r, s', hr, fun o' => ?_⟩
    obtain ⟨o, ho⟩ := hrun o'
    exact ⟨o, fun k hk => ho k (hK gen k hk)⟩

/-- The way is a return, unless it is `exit`. -/
theorem Attains.comesBack (h : Attains K e x) (gen : Nat) (s : Shell) {κ : Kind} (he : e κ = true)
    (hne : κ ≠ .exit) : ∃ r s', κ.Is r ∧
      ∀ o', ∃ o, ∀ k, K gen k → Follows (x gen s o k) (k gen r s' o') :=
  (h gen s κ he).resolve_left fun hexit => hne hexit.1

/-! ### The return of a call -/

theorem Keeps.returning (h : Keeps Q K e x) (hc : Composes Q K) :
    Keeps Q K e fun gen s o k => x gen s o (returning gen k) := by
  intro gen s o k hk
  rcases h gen s o _ (hc.returning gen k hk) with hexit | ⟨κ, r, s', o', L, he, hr, hL, hrun⟩
  · exact Or.inl hexit
  · refine Or.inr ⟨κ, r, s', o', L ++ [.returned gen gen], he, hr,
      hc.append gen _ _ hL (hc.returned gen), ?_⟩
    exact hrun.trans (after_after _ _ _)

theorem Attains.returning (h : Attains K e x) (hK : ∀ gen k, K gen k → K gen (returning gen k)) :
    Attains K e fun gen s o k => x gen s o (Nush.returning gen k) := by
  intro gen s κ he
  rcases h gen s κ he with ⟨hκ, o, hrun⟩ | ⟨r, s', hr, hrun⟩
  · exact Or.inl ⟨hκ, o, fun k hk => hrun _ (hK gen k hk)⟩
  · refine Or.inr ⟨r, s', hr, fun o' => ?_⟩
    obtain ⟨o, ho⟩ := hrun o'
    exact ⟨o, fun k hk => (ho _ (hK gen k hk)).trans (follows_after _ _)⟩

/-! ### Sequences -/

section Seq

variable {cond : Int → Bool} {runs : Kind → Bool} {ea eb : Ends} {a b : Exec}
  (hcond : ∀ κ r, Kind.Is κ r → cond r = runs κ)
  (hnext : ∀ gen k, K gen k → K gen fun gen' first s' o' =>
    if cond first then b gen' s' o' k else k gen' first s' o')

include hcond hnext

theorem Keeps.seq (hc : Composes Q K) (ha : Keeps Q K ea a)
    (hb : reaches runs ea = true → Keeps Q K eb b) :
    Keeps Q K (seqEnds runs ea eb) (seqCmd cond a b) := by
  intro gen s o k hk
  rcases ha gen s o _ (hnext gen k hk) with
    ⟨he, L, hL, hmem, hrun⟩ | ⟨κ, r, s', o', L, he, hr, hL, hrun⟩
  · exact Or.inl ⟨by simp [seqEnds, he], L, hL, hmem, hrun⟩
  · rw [hcond κ r hr] at hrun
    by_cases hruns : runs κ = true
    · have hreach : reaches runs ea = true :=
        List.any_eq_true.mpr ⟨κ, hr.mem, by rw [he, hruns]; rfl⟩
      rw [if_pos hruns] at hrun
      rcases hb hreach gen s' o' k hk with
        ⟨he', L', hL', hmem', hrun'⟩ | ⟨κ', r', s'', o'', L', he', hr', hL', hrun'⟩
      · refine Or.inl ⟨by simp [seqEnds, hreach, he'], L ++ L', hc.append gen _ _ hL hL',
          List.mem_append_right _ hmem', ?_⟩
        rw [hrun'] at hrun
        exact hrun
      · refine Or.inr ⟨κ', r', s'', o'', L ++ L', by simp [seqEnds, hreach, he'], hr',
          hc.append gen _ _ hL hL', ?_⟩
        rw [hrun', after_after] at hrun
        exact hrun
    · rw [if_neg hruns] at hrun
      exact Or.inr ⟨κ, r, s', o', L, by simp [seqEnds, he, hruns], hr, hL, hrun⟩

theorem seqCmd_follows {κ : Kind} {r : Int} (hr : κ.Is r) {gen : Nat} {s s' : Shell} {o o' : Oracle}
    (ho : ∀ k, K gen k → Follows (a gen s o k) (k gen r s' o')) {k : Cont} (hk : K gen k) :
    Follows (seqCmd cond a b gen s o k) (if runs κ then b gen s' o' k else k gen r s' o') := by
  rw [← hcond κ r hr]
  exact ho _ (hnext gen k hk)

theorem Attains.reached_right (ha : Attains K ea a) (hreach : reaches runs ea = true) (gen : Nat)
    (s : Shell) : ∃ s', ∀ o', ∃ o, ∀ k, K gen k →
      Follows (seqCmd cond a b gen s o k) (b gen s' o' k) := by
  obtain ⟨κ, hne, he, hruns⟩ := reaches_exists hreach
  obtain ⟨r, s', hr, hleft⟩ := ha.comesBack gen s he hne
  refine ⟨s', fun o' => ?_⟩
  obtain ⟨o, ho⟩ := hleft o'
  refine ⟨o, fun k hk => ?_⟩
  have hfollows := seqCmd_follows hcond hnext hr ho hk
  rwa [if_pos hruns] at hfollows

theorem Attains.seq (ha : Attains K ea a) (hb : reaches runs ea = true → Attains K eb b) :
    Attains K (seqEnds runs ea eb) (seqCmd cond a b) := by
  intro gen s κ he
  simp only [seqEnds, Bool.or_eq_true, Bool.and_eq_true] at he
  rcases he with ⟨he, hstop⟩ | ⟨hreach, he⟩
  · rcases ha gen s κ he with ⟨hκ, o, hrun⟩ | ⟨r, s', hr, hleft⟩
    · exact Or.inl ⟨hκ, o, fun k hk => hrun _ (hnext gen k hk)⟩
    · have hruns : ¬ runs κ = true := by
        have hne := hr.ne_exit
        simpa [hne] using hstop
      refine Or.inr ⟨r, s', hr, fun o' => ?_⟩
      obtain ⟨o, ho⟩ := hleft o'
      refine ⟨o, fun k hk => ?_⟩
      have hfollows := seqCmd_follows hcond hnext hr ho hk
      rwa [if_neg hruns] at hfollows
  · obtain ⟨s₁, hright⟩ := ha.reached_right hcond hnext hreach gen s
    rcases hb hreach gen s₁ κ he with ⟨hκ, o₁, hrun⟩ | ⟨r, s', hr, hb'⟩
    · obtain ⟨o, ho⟩ := hright o₁
      exact Or.inl ⟨hκ, o, fun k hk => (ho k hk).1.trans (hrun k hk)⟩
    · refine Or.inr ⟨r, s', hr, fun o' => ?_⟩
      obtain ⟨o₁, ho₁⟩ := hb' o'
      obtain ⟨o, ho⟩ := hright o₁
      exact ⟨o, fun k hk => (ho k hk).trans (ho₁ k hk)⟩

end Seq

end Ways

/-! ## Children -/

/-- Answers for a child and for the parent of a fork. -/
def joinOracle (child parent : Oracle) : Oracle := fun n =>
  if n % 2 = 0 then child (n / 2) else parent (n / 2)

@[simp] theorem child_join (c p : Oracle) : (joinOracle c p).child = c := by
  funext n
  show (if 2 * n % 2 = 0 then c (2 * n / 2) else p (2 * n / 2)) = c n
  rw [if_pos (by omega), show 2 * n / 2 = n by omega]

@[simp] theorem parent_join (c p : Oracle) : (joinOracle c p).parent = p := by
  funext n
  show (if (2 * n + 1) % 2 = 0 then c ((2 * n + 1) / 2) else p ((2 * n + 1) / 2)) = p n
  rw [if_neg (by omega), show (2 * n + 1) / 2 = n by omega]

def answerFirst (a : Answer) (o : Oracle) : Oracle
  | 0 => a
  | n + 1 => o n

/-- The rest of a child that ends with `exit`. -/
def exiting : Cont := fun _ status _ _ => exitWith status

theorem wait_exit {κ : Kind} {r : Int} (h : κ.Is r) :
    κ.Is (exitWith r).fate.wexitstatus := by
  unfold exitWith Fate.wexitstatus
  dsimp only
  cases κ with
  | zero =>
    rw [show r = 0 from h]
    rfl
  | one =>
    rw [show r = 1 from h]
    rfl
  | other =>
    have hr : r = -1 ∨ (2 ≤ r ∧ r ≤ 255) := h
    show _ = -1 ∨ _
    omega
  | exit => exact absurd h id

theorem waited_of_return {e : Ends} {κ : Kind} {r : Int} (he : e κ = true) (h : κ.Is r) :
    waited e κ = true := by
  cases κ with
  | zero => simp [waited, he]
  | one => exact he
  | other => exact he
  | exit => exact absurd h id

/-- Nothing goes wrong in the call, whatever comes after it. -/
abbrev KeepsQuiet (e : Ends) (x : Exec) : Prop := Keeps (fun _ => Quiet) (fun _ _ => True) e x

abbrev AttainsAlways (e : Ends) (x : Exec) : Prop := Attains (fun _ _ => True) e x

theorem composes_quiet : Composes (fun _ => Quiet) fun _ _ => True where
  append _ _ _ := Quiet.append
  returned _ := by simp [Quiet, Action.Quiet]
  returning _ _ _ := trivial

/-- A child that ends with `exit` behind the call does nothing wrong. -/
theorem KeepsQuiet.child {e : Ends} {x : Exec} (h : KeepsQuiet e x) (gen : Nat) (s : Shell)
    (o : Oracle) : Quiet (x gen s o exiting).log ∧
      ∃ κ, waited e κ = true ∧ κ.Is (x gen s o exiting).fate.wexitstatus := by
  rcases h gen s o exiting trivial with ⟨he, L, hL, -, hrun⟩ | ⟨κ, r, s', o', L, he, hr, hL, hrun⟩
  · rw [hrun]
    exact ⟨hL, .zero, by simp [waited, he], rfl⟩
  · rw [hrun]
    refine ⟨hL.append (by simp [exiting, exitWith, Quiet]), κ, waited_of_return he hr, wait_exit hr⟩

theorem AttainsAlways.child {e : Ends} {x : Exec} (h : AttainsAlways e x) (gen : Nat) (s : Shell)
    {κ : Kind} (he : waited e κ = true) : ∃ o, κ.Is (x gen s o exiting).fate.wexitstatus := by
  have hreturn : e κ = true → κ ≠ .exit → ∃ o, κ.Is (x gen s o exiting).fate.wexitstatus := by
    intro he hne
    obtain ⟨r, s', hr, hrun⟩ := h.comesBack gen s he hne
    obtain ⟨o, ho⟩ := hrun fun _ => ⟨.killed, true⟩
    exact ⟨o, by rw [(ho exiting trivial).1]; exact wait_exit hr⟩
  cases κ with
  | zero =>
    rcases Bool.or_eq_true_iff.mp he with he | he
    · exact hreturn he (by decide)
    · rcases h gen s .exit he with ⟨-, o, hrun⟩ | ⟨r, s', hr, -⟩
      · exact ⟨o, by rw [hrun exiting trivial]; rfl⟩
      · exact absurd hr id
  | one => exact hreturn he (by decide)
  | other => exact hreturn he (by decide)
  | exit => cases he

/-! ## The commands -/

theorem wexitstatus_range (f : Fate) : 0 ≤ f.wexitstatus ∧ f.wexitstatus ≤ 255 := by
  cases f with
  | exits code =>
    unfold Fate.wexitstatus
    dsimp only
    omega
  | killed => decide

theorem exists_kind {r : Int} (h0 : 0 ≤ r) (h255 : r ≤ 255) : ∃ κ : Kind, κ ≠ .exit ∧ κ.Is r := by
  by_cases hr0 : r = 0
  · exact ⟨.zero, by decide, hr0⟩
  · by_cases hr1 : r = 1
    · exact ⟨.one, by decide, hr1⟩
    · exact ⟨.other, by decide, Or.inr ⟨by omega, h255⟩⟩

theorem keeps_cmd {words : List String} (hsafe : safe (.cmd words) = true) :
    KeepsQuiet (cmdEnds words) (executeCmd words) := by
  cases words with
  | nil => cases hsafe
  | cons input args =>
    intro gen s o k _
    unfold executeCmd cmdEnds
    dsimp only
    by_cases hcd : input = "cd"
    · subst hcd
      cases args with
      | nil => cases hsafe
      | cons dir args =>
        rw [if_pos rfl, if_pos rfl]
        dsimp only
        by_cases hok : o.next.cdOk = true
        · rw [if_pos hok]
          exact Or.inr ⟨.zero, 0, _, _, [], rfl, rfl, by simp [Quiet], rfl⟩
        · rw [if_neg hok]
          exact Or.inr ⟨.other, -1, _, _, [], rfl, Or.inl rfl, by simp [Quiet], rfl⟩
    · rw [if_neg hcd, if_neg hcd]
      by_cases hexit : input = "exit"
      · rw [if_pos hexit, if_pos hexit]
        exact Or.inl ⟨rfl, [.exitBuiltin gen], by simp [Quiet, Action.Quiet], by simp, rfl⟩
      · rw [if_neg hexit, if_neg hexit]
        obtain ⟨h0, h255⟩ := wexitstatus_range o.next.fate
        obtain ⟨κ, hne, hκ⟩ := exists_kind h0 h255
        exact Or.inr ⟨κ, _, s, o.rest, [.ran (gen + 1) (input :: args)], by simpa using hne, hκ,
          by simp [Quiet, Action.Quiet], rfl⟩

theorem attains_cmd {words : List String} (hsafe : safe (.cmd words) = true) :
    AttainsAlways (cmdEnds words) (executeCmd words) := by
  intro gen s κ he
  cases words with
  | nil => cases he
  | cons input args =>
    unfold cmdEnds at he
    unfold executeCmd
    dsimp only at he ⊢
    by_cases hcd : input = "cd"
    · subst hcd
      cases args with
      | nil => cases hsafe
      | cons dir args =>
        right
        simp only [if_true, Bool.or_eq_true, beq_iff_eq] at he ⊢
        rcases he with rfl | rfl
        · exact ⟨0, _, rfl, fun o' => ⟨answerFirst ⟨.killed, true⟩ o', fun k _ => Follows.refl _⟩⟩
        · exact ⟨-1, _, Or.inl rfl, fun o' =>
            ⟨answerFirst ⟨.killed, false⟩ o', fun k _ => Follows.refl _⟩⟩
    · rw [if_neg hcd] at he
      simp only [if_neg hcd]
      by_cases hexit : input = "exit"
      · rw [if_pos hexit] at he
        refine Or.inl ⟨by simpa using he, fun _ => ⟨.killed, true⟩, fun _ _ => ?_⟩
        rw [if_pos hexit]
      · rw [if_neg hexit] at he
        simp only [if_neg hexit]
        have hfate : ∀ (code : Nat) (o' : Oracle), ∃ o : Oracle, ∀ k : Cont, True →
            Follows (afterWait ⟨o.next.fate, [.ran (gen + 1) (input :: args)]⟩ gen s o.rest k)
              (k gen (Fate.exits code).wexitstatus s o') := fun code o' =>
          ⟨answerFirst ⟨.exits code, true⟩ o', fun _ _ => follows_after _ _⟩
        right
        cases κ with
        | zero => exact ⟨0, s, rfl, hfate 0⟩
        | one => exact ⟨1, s, rfl, hfate 1⟩
        | other => exact ⟨2, s, Or.inr ⟨by decide, by decide⟩, hfate 2⟩
        | exit => cases he

/-! ## The forking operators -/

/-- A parent that only waits for a child. -/
def waitFor (child : Nat → Shell → Oracle → Run) : Exec := fun gen s o k =>
  afterWait (child gen s o.child) gen s o.parent k

section Forks

variable {Q : Nat → List Action → Prop} {K : Nat → Cont → Prop}

theorem keeps_wait {e : Ends} {child : Nat → Shell → Oracle → Run}
    (h : ∀ gen s o, Q gen (child gen s o).log ∧
      ∃ κ, e κ = true ∧ κ.Is (child gen s o).fate.wexitstatus) : Keeps Q K e (waitFor child) := by
  intro gen s o k _
  obtain ⟨hL, κ, he, hκ⟩ := h gen s o.child
  exact Or.inr ⟨κ, _, s, o.parent, _, he, hκ, hL, rfl⟩

theorem attains_wait {e : Ends} {child : Nat → Shell → Oracle → Run}
    (h : ∀ gen s κ, e κ = true → ∃ o, κ.Is (child gen s o).fate.wexitstatus) :
    Attains K e (waitFor child) := by
  intro gen s κ he
  obtain ⟨oc, hκ⟩ := h gen s κ he
  refine Or.inr ⟨_, s, hκ, fun o' => ⟨joinOracle oc o', fun k _ => ?_⟩⟩
  unfold waitFor afterWait
  rw [child_join, parent_join]
  exact follows_after _ _

theorem keeps_background (hc : Composes Q K) {eb : Ends} {a b : Exec}
    (ha : ∀ gen s o, Q gen (a (gen + 1) s o fun _ _ _ _ => exitWith 0).log) (hb : Keeps Q K eb b)
    (hasBranch2 : Bool) :
    Keeps Q K (if hasBranch2 then eb else fun κ => κ == .zero) (backgroundCmd a b hasBranch2) := by
  intro gen s o k hk
  have hchild := ha gen s o.child
  unfold backgroundCmd
  dsimp only
  cases hasBranch2 with
  | false => exact Or.inr ⟨.zero, 0, s, o.parent, _, rfl, rfl, hchild, rfl⟩
  | true =>
    simp only [if_true]
    rcases hb gen s o.parent k hk with ⟨he, L, hL, hmem, hrun⟩ | ⟨κ, r, s', o', L, he, hr, hL, hrun⟩
    · refine Or.inl ⟨he, _, hc.append gen _ _ hchild hL, List.mem_append_right _ hmem, ?_⟩
      rw [hrun]
      rfl
    · refine Or.inr ⟨κ, r, s', o', _, he, hr, hc.append gen _ _ hchild hL, ?_⟩
      rw [hrun, after_after]

theorem background_follows (a b : Exec) (gen : Nat) (s : Shell) (oc o : Oracle) (k : Cont) :
    Follows (backgroundCmd a b true gen s (joinOracle oc o) k) (b gen s o k) := by
  unfold backgroundCmd
  rw [parent_join]
  exact follows_after _ _

theorem attains_background (a : Exec) {eb : Ends} {b : Exec} (hb : Attains K eb b)
    (hasBranch2 : Bool) :
    Attains K (if hasBranch2 then eb else fun κ => κ == .zero) (backgroundCmd a b hasBranch2) := by
  intro gen s κ he
  cases hasBranch2 with
  | false =>
    obtain rfl : κ = .zero := by simpa using he
    refine Or.inr ⟨0, s, rfl, fun o' => ⟨joinOracle o' o', fun k _ => ?_⟩⟩
    unfold backgroundCmd
    rw [parent_join]
    exact follows_after _ _
  | true =>
    rcases hb gen s κ he with ⟨hκ, o, hrun⟩ | ⟨r, s', hr, hright⟩
    · refine Or.inl ⟨hκ, joinOracle o o, fun k hk => ?_⟩
      exact (background_follows a b gen s o o k).1.trans (hrun k hk)
    · refine Or.inr ⟨r, s', hr, fun o' => ?_⟩
      obtain ⟨o, ho⟩ := hright o'
      exact ⟨joinOracle o o, fun k hk => (background_follows a b gen s o o k).trans (ho k hk)⟩

end Forks

theorem pipeCmd_eq (a b : Exec) : pipeCmd a b = waitFor fun gen s o =>
    (b (gen + 1) s o.parent exiting).after (a (gen + 2) s o.child exiting).log := rfl

theorem keeps_pipe {ea eb : Ends} {a b : Exec} (ha : KeepsQuiet ea a) (hb : KeepsQuiet eb b) :
    KeepsQuiet (waited eb) (pipeCmd a b) := by
  rw [pipeCmd_eq]
  refine keeps_wait fun gen s o => ⟨?_, (hb.child (gen + 1) s o.parent).2⟩
  exact (ha.child (gen + 2) s o.child).1.append (hb.child (gen + 1) s o.parent).1

theorem attains_pipe (a : Exec) {eb : Ends} {b : Exec} (hb : AttainsAlways eb b) :
    AttainsAlways (waited eb) (pipeCmd a b) := by
  rw [pipeCmd_eq]
  refine attains_wait fun gen s κ he => ?_
  obtain ⟨o, ho⟩ := hb.child (gen + 1) s he
  refine ⟨joinOracle (fun _ => ⟨.killed, true⟩) o, ?_⟩
  rw [parent_join]
  exact ho

theorem rdrInCmd_eq {a : Exec} {branch2 : Astree} (h : (fileName branch2).isSome = true) :
    rdrInCmd a branch2 = waitFor fun gen s o => a (gen + 1) s o exiting := by
  obtain ⟨path, hpath⟩ := Option.isSome_iff_exists.mp h
  unfold rdrInCmd
  rw [hpath]
  rfl

theorem rdrOut_child {ea : Ends} {a : Exec} (ha : KeepsQuiet ea a)
    (hnever : reaches (fun _ => true) ea = false) :
    ea .exit = true ∧ ∀ gen s o k, ∃ L, Quiet L ∧ a gen s o k = ⟨.exits 0, L⟩ := by
  have hnone : ∀ κ : Kind, κ ∈ returnKinds → ea κ = true → False := by
    intro κ hκ he
    have hreach : reaches (fun _ => true) ea = true :=
      List.any_eq_true.mpr ⟨κ, hκ, by rw [he]; rfl⟩
    rw [hnever] at hreach
    cases hreach
  have hexit : ∀ gen s o k, ea .exit = true ∧ ∃ L, Quiet L ∧ a gen s o k = ⟨.exits 0, L⟩ := by
    intro gen s o k
    rcases ha gen s o k trivial with ⟨he, L, hL, -, hrun⟩ | ⟨κ, r, s', o', L, he, hr, -, -⟩
    · exact ⟨he, L, hL, hrun⟩
    · exact absurd he fun he => hnone κ hr.mem he
  exact ⟨(hexit 0 [] (fun _ => ⟨.killed, true⟩) exiting).1, fun gen s o k => (hexit gen s o k).2⟩

theorem keeps_rdrOut {ea : Ends} {a : Exec} (ha : KeepsQuiet ea a) {branch2 : Astree}
    (h : (fileName branch2).isSome = true) (hnever : reaches (fun _ => true) ea = false) :
    KeepsQuiet (fun κ => κ == .zero) (rdrOutCmd a branch2) := by
  intro gen s o k _
  obtain ⟨path, hpath⟩ := Option.isSome_iff_exists.mp h
  obtain ⟨L, hL, hrun⟩ := (rdrOut_child ha hnever).2 (gen + 1) s o.child
    fun gen' _ s' o' => k gen' 0 s' o'
  refine Or.inr ⟨.zero, 0, s, o.parent, L, rfl, rfl, hL, ?_⟩
  unfold rdrOutCmd
  rw [hpath]
  dsimp only
  rw [hrun]
  rfl

theorem attains_rdrOut {ea : Ends} {a : Exec} (hk : KeepsQuiet ea a) {branch2 : Astree}
    (h : (fileName branch2).isSome = true) (hnever : reaches (fun _ => true) ea = false) :
    AttainsAlways (fun κ => κ == .zero) (rdrOutCmd a branch2) := by
  intro gen s κ he
  obtain rfl : κ = .zero := by simpa using he
  obtain ⟨path, hpath⟩ := Option.isSome_iff_exists.mp h
  refine Or.inr ⟨0, s, rfl, fun o' => ⟨joinOracle o' o', fun k _ => ?_⟩⟩
  obtain ⟨L, -, hrun⟩ :=
    (rdrOut_child hk hnever).2 (gen + 1) s o' fun gen' _ s' o' => k gen' 0 s' o'
  unfold rdrOutCmd
  rw [hpath]
  dsimp only
  rw [child_join, parent_join, hrun]
  exact follows_after _ _

/-! ## Safe trees -/

theorem semicolon_cond (hasBranch2 : Bool) :
    ∀ κ r, Kind.Is κ r → (fun _ : Int => hasBranch2) r = (fun _ : Kind => hasBranch2) κ :=
  fun _ _ _ => rfl

theorem or_cond : ∀ κ r, Kind.Is κ r → decide (r = 1) = (κ == Kind.one) := by
  intro κ r h
  cases κ with
  | zero => simp [show r = 0 from h]
  | one => simp [show r = 1 from h]
  | other =>
    have hr : r = -1 ∨ (2 ≤ r ∧ r ≤ 255) := h
    have hne : r ≠ 1 := by omega
    simp [hne]
  | exit => exact absurd h id

theorem and_cond : ∀ κ r, Kind.Is κ r → decide (r = 0) = (κ == Kind.zero) := by
  intro κ r h
  cases κ with
  | zero => simp [show r = 0 from h]
  | one => simp [show r = 1 from h]
  | other =>
    have hr : r = -1 ∨ (2 ≤ r ∧ r ≤ 255) := h
    have hne : r ≠ 0 := by omega
    simp [hne]
  | exit => exact absurd h id

theorem orCmd_eq (a b : Exec) : orCmd a b = seqCmd (fun r => decide (r = 1)) a b := by
  unfold orCmd seqCmd
  simp only [decide_eq_true_eq]

theorem andCmd_eq (a b : Exec) : andCmd a b = seqCmd (fun r => decide (r = 0)) a b := by
  unfold andCmd seqCmd
  simp only [decide_eq_true_eq]

/-- A safe tree keeps the discipline and takes exactly the ways that `ends` lists. -/
theorem execute_safe (t : Astree) (h : safe t = true) :
    KeepsQuiet (ends t) (execute t) ∧ AttainsAlways (ends t) (execute t) := by
  have hboth : ∀ {e : Ends} {x : Exec}, KeepsQuiet e x → AttainsAlways e x →
      KeepsQuiet e (fun gen s o k => x gen s o (returning gen k)) ∧
        AttainsAlways e fun gen s o k => x gen s o (returning gen k) :=
    fun hk ha => ⟨hk.returning composes_quiet, ha.returning fun _ _ _ => trivial⟩
  induction t with
  | null =>
    refine hboth (x := fun gen s o k => k gen 0 s o) ?_ ?_
    · exact fun gen s o k _ => Or.inr ⟨.zero, 0, s, o, [], rfl, rfl, by simp [Quiet], rfl⟩
    · intro gen s κ he
      obtain rfl : κ = .zero := by simpa [ends] using he
      exact Or.inr ⟨0, s, rfl, fun o' => ⟨o', fun k _ => Follows.refl _⟩⟩
  | cmd words => exact hboth (keeps_cmd h) (attains_cmd h)
  | op oper a b iha ihb =>
    have hseq : ∀ {cond : Int → Bool} {runs : Kind → Bool},
        (∀ κ r, Kind.Is κ r → cond r = runs κ) →
        (safe a && (!reaches runs (ends a) || safe b)) = true →
        KeepsQuiet (seqEnds runs (ends a) (ends b)) (seqCmd cond (execute a) (execute b)) ∧
          AttainsAlways (seqEnds runs (ends a) (ends b))
            (seqCmd cond (execute a) (execute b)) := by
      intro cond runs hcond hsafe
      obtain ⟨hsa, hsb⟩ := Bool.and_eq_true_iff.mp hsafe
      have hb : reaches runs (ends a) = true → safe b = true := fun hr => by simpa [hr] using hsb
      exact ⟨Keeps.seq hcond (fun _ _ _ => trivial) composes_quiet (iha hsa).1
          fun hr => (ihb (hb hr)).1,
        Attains.seq hcond (fun _ _ _ => trivial) (iha hsa).2 fun hr => (ihb (hb hr)).2⟩
    cases oper with
    | semicolon =>
      obtain ⟨hk, ha⟩ := hseq (semicolon_cond (decide (b ≠ .null))) h
      exact hboth hk ha
    | or =>
      obtain ⟨hk, ha⟩ := hseq or_cond h
      rw [← orCmd_eq] at hk ha
      exact hboth hk ha
    | and =>
      obtain ⟨hk, ha⟩ := hseq and_cond h
      rw [← andCmd_eq] at hk ha
      exact hboth hk ha
    | background =>
      obtain ⟨hsa, hsb⟩ := Bool.and_eq_true_iff.mp h
      have hends : ends (.op .background a b) =
          if decide (b ≠ .null) then ends b else fun κ => κ == .zero := by
        by_cases hb : b = .null <;> simp [ends, hb]
      have hchild : ∀ gen s o, Quiet (execute a (gen + 1) s o fun _ _ _ _ => exitWith 0).log := by
        intro gen s o
        rcases (iha hsa).1 (gen + 1) s o (fun _ _ _ _ => exitWith 0) trivial with
          ⟨-, L, hL, -, hrun⟩ | ⟨_, _, _, _, L, -, -, hL, hrun⟩
        · rw [hrun]
          exact hL
        · rw [hrun]
          exact hL.append (by simp [exitWith, Quiet])
      rw [hends]
      exact hboth (keeps_background composes_quiet hchild (ihb hsb).1 _)
        (attains_background _ (ihb hsb).2 _)
    | pipe =>
      obtain ⟨hsa, hsb⟩ := Bool.and_eq_true_iff.mp h
      exact hboth (keeps_pipe (iha hsa).1 (ihb hsb).1) (attains_pipe _ (ihb hsb).2)
    | rdrIn =>
      obtain ⟨hname, hsa⟩ := Bool.and_eq_true_iff.mp h
      have hk : KeepsQuiet (waited (ends a)) (rdrInCmd (execute a) b) := by
        rw [rdrInCmd_eq hname]
        exact keeps_wait fun gen s o => KeepsQuiet.child (iha hsa).1 (gen + 1) s o
      have ha : AttainsAlways (waited (ends a)) (rdrInCmd (execute a) b) := by
        rw [rdrInCmd_eq hname]
        exact attains_wait fun gen s κ he => AttainsAlways.child (iha hsa).2 (gen + 1) s he
      exact hboth hk ha
    | rdrOut =>
      obtain ⟨hleft, hnever⟩ := Bool.and_eq_true_iff.mp h
      obtain ⟨hname, hsa⟩ := Bool.and_eq_true_iff.mp hleft
      have hnever' : reaches (fun _ => true) (ends a) = false := by simpa using hnever
      exact hboth (keeps_rdrOut (iha hsa).1 hname hnever')
        (attains_rdrOut (iha hsa).1 hname hnever')

/-! ## Unsafe trees -/

/-- A log with a violation. -/
def Bad (L : List Action) : Prop :=
  (∃ gen, .crashed gen ∈ L) ∨ ∃ caller gen, .returned caller gen ∈ L ∧ gen ≠ caller

theorem Bad.mono {L M : List Action} (hL : Bad L) (h : ∀ a ∈ L, a ∈ M) : Bad M := by
  rcases hL with ⟨gen, hmem⟩ | ⟨caller, gen, hmem, hne⟩
  · exact Or.inl ⟨gen, h _ hmem⟩
  · exact Or.inr ⟨caller, gen, h _ hmem, hne⟩

theorem Bad.after {r : Run} (h : Bad r.log) (L : List Action) : Bad (r.after L).log :=
  h.mono fun _ ha => List.mem_append_right L ha

theorem Bad.before {L : List Action} (h : Bad L) (r : Run) : Bad (r.after L).log :=
  h.mono fun _ ha => List.mem_append_left r.log ha

theorem bad_crash (gen : Nat) : Bad (crash gen).log := Or.inl ⟨gen, List.mem_singleton.mpr rfl⟩

/-- Whatever follows the call, some answers of the world lead to a violation. -/
def Fails (x : Exec) : Prop := ∀ gen s k, ∃ o, Bad (x gen s o k).log

theorem Fails.returning {x : Exec} (h : Fails x) :
    Fails fun gen s o k => x gen s o (returning gen k) :=
  fun gen s k => h gen s (Nush.returning gen k)

theorem fails_cmd {words : List String} (h : safe (.cmd words) = false) :
    Fails (executeCmd words) := by
  intro gen s k
  refine ⟨fun _ => ⟨.killed, true⟩, ?_⟩
  cases words with
  | nil => exact bad_crash gen
  | cons input args =>
    have hcd : input = "cd" ∧ args = [] := by simpa [safe] using h
    obtain ⟨rfl, rfl⟩ := hcd
    exact bad_crash gen

theorem fails_seq_left {cond : Int → Bool} {a b : Exec} (ha : Fails a) : Fails (seqCmd cond a b) :=
  fun gen s _ => ha gen s _

theorem fails_seq_right {cond : Int → Bool} {runs : Kind → Bool} {ea : Ends} {a b : Exec}
    (hcond : ∀ κ r, Kind.Is κ r → cond r = runs κ) (ha : AttainsAlways ea a)
    (hreach : reaches runs ea = true) (hb : Fails b) : Fails (seqCmd cond a b) := by
  intro gen s k
  obtain ⟨s', hright⟩ := ha.reached_right hcond (fun _ _ _ => trivial) hreach gen s
  obtain ⟨o', hbad⟩ := hb gen s' k
  obtain ⟨o, ho⟩ := hright o'
  exact ⟨o, hbad.mono (ho k trivial).2⟩

theorem fails_background_left {a b : Exec} (ha : Fails a) (hasBranch2 : Bool) :
    Fails (backgroundCmd a b hasBranch2) := by
  intro gen s k
  obtain ⟨o, hbad⟩ := ha (gen + 1) s fun _ _ _ _ => exitWith 0
  refine ⟨joinOracle o o, ?_⟩
  unfold backgroundCmd
  rw [child_join]
  exact hbad.before _

theorem fails_background_right {a b : Exec} (hb : Fails b) : Fails (backgroundCmd a b true) := by
  intro gen s k
  obtain ⟨o, hbad⟩ := hb gen s k
  refine ⟨joinOracle o o, ?_⟩
  unfold backgroundCmd
  rw [parent_join]
  exact hbad.after _

theorem fails_wait {child : Nat → Shell → Oracle → Run}
    (h : ∀ gen s, ∃ o, Bad (child gen s o).log) : Fails (waitFor child) := by
  intro gen s k
  obtain ⟨o, hbad⟩ := h gen s
  refine ⟨joinOracle o o, ?_⟩
  unfold waitFor afterWait
  rw [child_join]
  exact hbad.before _

theorem fails_pipe_left {a b : Exec} (ha : Fails a) : Fails (pipeCmd a b) := by
  rw [pipeCmd_eq]
  refine fails_wait fun gen s => ?_
  obtain ⟨o, hbad⟩ := ha (gen + 2) s exiting
  refine ⟨joinOracle o o, ?_⟩
  rw [child_join]
  exact hbad.before _

theorem fails_pipe_right {a b : Exec} (hb : Fails b) : Fails (pipeCmd a b) := by
  rw [pipeCmd_eq]
  refine fails_wait fun gen s => ?_
  obtain ⟨o, hbad⟩ := hb (gen + 1) s exiting
  refine ⟨joinOracle o o, ?_⟩
  rw [parent_join]
  exact hbad.after _

theorem fails_rdrIn_name {a : Exec} {branch2 : Astree} (h : fileName branch2 = none) :
    Fails (rdrInCmd a branch2) := by
  intro gen s k
  refine ⟨fun _ => ⟨.killed, true⟩, ?_⟩
  unfold rdrInCmd
  rw [h]
  exact (bad_crash (gen + 1)).before _

theorem fails_rdrIn_left {a : Exec} {branch2 : Astree} (h : (fileName branch2).isSome = true)
    (ha : Fails a) : Fails (rdrInCmd a branch2) := by
  rw [rdrInCmd_eq h]
  exact fails_wait fun gen s => ha (gen + 1) s exiting

theorem fails_rdrOut_name {a : Exec} {branch2 : Astree} (h : fileName branch2 = none) :
    Fails (rdrOutCmd a branch2) := by
  intro gen s k
  refine ⟨fun _ => ⟨.killed, true⟩, ?_⟩
  unfold rdrOutCmd
  rw [h]
  exact (bad_crash (gen + 1)).before _

theorem fails_rdrOut_left {a : Exec} {branch2 : Astree} (h : (fileName branch2).isSome = true)
    (ha : Fails a) : Fails (rdrOutCmd a branch2) := by
  intro gen s k
  obtain ⟨path, hpath⟩ := Option.isSome_iff_exists.mp h
  obtain ⟨o, hbad⟩ := ha (gen + 1) s fun gen' _ s' o' => k gen' 0 s' o'
  refine ⟨joinOracle o o, ?_⟩
  unfold rdrOutCmd
  rw [hpath]
  dsimp only
  rw [child_join]
  exact hbad.before _

/-- A left side of `>` that returns does so in the child, which then returns
from the whole redirection in place of its parent. -/
theorem fails_rdrOut_return {ea : Ends} {a : Exec} {branch2 : Astree}
    (h : (fileName branch2).isSome = true) (ha : AttainsAlways ea a)
    (hreach : reaches (fun _ => true) ea = true) :
    Fails fun gen s o k => rdrOutCmd a branch2 gen s o (returning gen k) := by
  intro gen s k
  obtain ⟨path, hpath⟩ := Option.isSome_iff_exists.mp h
  obtain ⟨κ, hne, he, -⟩ := reaches_exists hreach
  obtain ⟨r, s', -, hrun⟩ := ha.comesBack (gen + 1) s he hne
  obtain ⟨o, ho⟩ := hrun fun _ => ⟨.killed, true⟩
  have hfollows := ho (fun gen' _ s' o' => returning gen k gen' 0 s' o') trivial
  refine ⟨joinOracle o o, ?_⟩
  unfold rdrOutCmd
  rw [hpath]
  dsimp only
  rw [child_join]
  have hbad : Bad (returning gen k (gen + 1) 0 s' fun _ => ⟨.killed, true⟩).log :=
    Or.inr ⟨gen, gen + 1, List.mem_append_left _ (List.mem_singleton.mpr rfl), by omega⟩
  exact (hbad.mono hfollows.2).before _

theorem execute_unsafe (t : Astree) (h : safe t = false) : Fails (execute t) := by
  induction t with
  | null => cases h
  | cmd words => exact (fails_cmd h).returning
  | op oper a b iha ihb =>
    have hseq : ∀ {cond : Int → Bool} {runs : Kind → Bool},
        (∀ κ r, Kind.Is κ r → cond r = runs κ) →
        (safe a && (!reaches runs (ends a) || safe b)) = false →
        Fails (seqCmd cond (execute a) (execute b)) := by
      intro cond runs hcond hunsafe
      by_cases hsa : safe a = true
      · have hright : reaches runs (ends a) = true ∧ safe b = false := by
          simpa [hsa] using hunsafe
        exact fails_seq_right hcond (execute_safe a hsa).2 hright.1 (ihb hright.2)
      · exact fails_seq_left (iha (Bool.eq_false_iff.mpr hsa))
    have hname : ∀ {p : Bool}, ((fileName b).isSome && p) = false →
        fileName b = none ∨ (fileName b).isSome = true ∧ p = false := by
      intro p hp
      cases hf : fileName b with
      | none => exact Or.inl rfl
      | some path => exact Or.inr ⟨rfl, by simpa [hf] using hp⟩
    cases oper with
    | semicolon => exact (hseq (semicolon_cond (decide (b ≠ .null))) h).returning
    | or =>
      have hfails := hseq or_cond h
      rw [← orCmd_eq] at hfails
      exact hfails.returning
    | and =>
      have hfails := hseq and_cond h
      rw [← andCmd_eq] at hfails
      exact hfails.returning
    | background =>
      rcases Bool.and_eq_false_iff.mp h with hsa | hsb
      · exact (fails_background_left (iha hsa) _).returning
      · have hb : decide (b ≠ .null) = true := by
          refine decide_eq_true ?_
          rintro rfl
          cases hsb
        have hfails : Fails (backgroundCmd (execute a) (execute b) (decide (b ≠ .null))) := by
          rw [hb]
          exact fails_background_right (ihb hsb)
        exact hfails.returning
    | pipe =>
      rcases Bool.and_eq_false_iff.mp h with hsa | hsb
      · exact (fails_pipe_left (iha hsa)).returning
      · exact (fails_pipe_right (ihb hsb)).returning
    | rdrIn =>
      rcases hname h with hnone | ⟨hsome, hsa⟩
      · exact (fails_rdrIn_name hnone).returning
      · exact (fails_rdrIn_left hsome (iha hsa)).returning
    | rdrOut =>
      have h' : ((fileName b).isSome && (safe a && !reaches (fun _ => true) (ends a))) = false := by
        rw [← Bool.and_assoc]
        exact h
      rcases hname h' with hnone | ⟨hsome, hrest⟩
      · exact (fails_rdrOut_name hnone).returning
      · by_cases hsa : safe a = true
        · have hreach : reaches (fun _ => true) (ends a) = true := by simpa [hsa] using hrest
          exact fails_rdrOut_return hsome (execute_safe a hsa).2 hreach
        · exact (fails_rdrOut_left hsome (iha (Bool.eq_false_iff.mpr hsa))).returning

/-! ## Lines -/

theorem Bad.not_disciplined {r : Run} (h : Bad r.log) : ¬ Disciplined r := by
  rintro ⟨hreturned, hcrashed, -⟩
  rcases h with ⟨gen, hmem⟩ | ⟨caller, gen, hmem, hne⟩
  · exact hcrashed gen hmem
  · exact hne (hreturned _ hmem caller gen rfl)

theorem Quiet.filter_isLineDone {L : List Action} (h : Quiet L) :
    L.filter Action.isLineDone = [] := by
  refine List.filter_eq_nil_iff.mpr fun a ha hdone => ?_
  have hquiet := h a ha
  cases a with
  | lineDone gen => exact hquiet
  | _ => cases hdone

theorem Quiet.disciplined {L M : List Action} (h : Quiet L) (hM : M = [] ∨ M = [.lineDone 0])
    {fate : Fate} (hexit : M = [] → .exitBuiltin 0 ∈ L) : Disciplined ⟨fate, L ++ M⟩ := by
  refine ⟨?_, ?_, ?_⟩
  · rintro a ha caller gen rfl
    rcases List.mem_append.mp ha with ha | ha
    · exact h _ ha
    · rcases hM with rfl | rfl <;> simp at ha
  · intro gen ha
    rcases List.mem_append.mp ha with ha | ha
    · exact h _ ha
    · rcases hM with rfl | rfl <;> simp at ha
  · rw [List.filter_append, h.filter_isLineDone, List.nil_append]
    rcases hM with rfl | rfl
    · exact Or.inr ⟨rfl, List.mem_append_left _ (hexit rfl)⟩
    · exact Or.inl rfl

theorem disciplined_of_safe {t : Astree} (h : safe t = true) (s : Shell) (o : Oracle)
    (ends' : Nat → Int → Shell → Oracle → Fate) : Disciplined (executeLine t s o ends') := by
  unfold executeLine
  rcases (execute_safe t h).1 0 s o (fun gen status s o => ⟨ends' gen status s o, [.lineDone gen]⟩)
    trivial with ⟨-, L, hL, hmem, hrun⟩ | ⟨_, _, _, _, L, -, -, hL, hrun⟩
  · rw [hrun, ← List.append_nil L]
    exact hL.disciplined (Or.inl rfl) fun _ => hmem
  · rw [hrun]
    exact hL.disciplined (Or.inr rfl) fun hne => by cases hne

theorem disciplined_iff (t : Astree) :
    (∀ s o ends', Disciplined (executeLine t s o ends')) ↔ safe t = true := by
  constructor
  · intro h
    by_contra hunsafe
    obtain ⟨o, hbad⟩ := execute_unsafe _ (Bool.eq_false_iff.mpr hunsafe) 0 []
      fun gen _ _ _ => ⟨.killed, [.lineDone gen]⟩
    exact hbad.not_disciplined (h [] o fun _ _ _ _ => .killed)
  · exact fun h s o ends' => disciplined_of_safe h s o ends'

end Cs3650.Nush
