import Cs3650.Nush.Discipline

/-!
# Subshells

The reference semantics of trees without `&`, `||` and `>`: a sequence runs
both sides in one shell, a pipe and a redirected command run in a subshell of
which the caller sees the status modulo 256. `execute` computes it, whatever
the world answers and whatever the caller does next.
-/

namespace Cs3650.Nush

/-- How a shell leaves a tree: the call returns, or `exit` ends the shell. -/
inductive Outcome
  | done (status : Int) (s : Shell) (o : Oracle)
  | exited (code : Nat)

abbrev Semantics := Shell → Oracle → Outcome

def Outcome.next (out : Outcome) (k : Int → Semantics) : Outcome :=
  match out with
  | .done status s o => k status s o
  | .exited code => .exited code

/-- What an `exit` in the subshell or the subshell's end leaves for the caller. -/
def Outcome.status : Outcome → Int
  | .done status _ _ => status % 256
  | .exited code => ((code % 256 : Nat) : Int)

/-- The caller goes on in its own directory. -/
def subshell (body : Semantics) : Semantics := fun s o => .done (body s o.child).status s o.parent

def command (words : List String) : Semantics := fun s o =>
  match words with
  | "cd" :: dir :: _ => if o.next.cdOk then .done 0 (s ++ [dir]) o.rest else .done (-1) s o.rest
  | "exit" :: _ => .exited 0
  | _ => .done o.next.fate.wexitstatus s o.rest

def reference : Astree → Semantics
  | .null => fun s o => .done 0 s o
  | .cmd words => command words
  | .op .semicolon a .null => reference a
  | .op .semicolon a b => fun s o => (reference a s o).next fun _ => reference b
  | .op .and a b => fun s o =>
    (reference a s o).next fun status => if status = 0 then reference b else .done status
  | .op .pipe _ b => subshell fun s o => reference b s o.parent
  | .op .rdrIn a _ => subshell (reference a)
  | .op _ _ _ => fun s o => .done 0 s o

/-- Command leaves, of which `cd` has its argument, under `;`, `&&`, `|` and
`<`; a file name is a command leaf. -/
def Plain : Astree → Prop
  | .null => True
  | .cmd words => words ≠ [] ∧ words ≠ ["cd"]
  | .op .semicolon a b => Plain a ∧ Plain b
  | .op .and a b => Plain a ∧ Plain b
  | .op .pipe a b => Plain a ∧ Plain b
  | .op .rdrIn a b => Plain a ∧ ∃ path args, b = .cmd (path :: args)
  | .op _ _ _ => False

/-- The calling process goes on after `out`. -/
def Outcome.resume (out : Outcome) (gen : Nat) (k : Cont) : Run :=
  match out with
  | .done status s o => k gen status s o
  | .exited code => ⟨.exits code, []⟩

/-- The process that calls `x` leaves it as `sem` says. -/
def Computes (x : Exec) (sem : Semantics) : Prop :=
  ∀ gen s o, ∃ log, ∀ k, x gen s o k = ((sem s o).resume gen k).after log

theorem Computes.returning {x : Exec} {sem : Semantics} (h : Computes x sem) :
    Computes (fun gen s o k => x gen s o (returning gen k)) sem := by
  intro gen s o
  obtain ⟨log, hrun⟩ := h gen s o
  cases hout : sem s o with
  | done status s' o' =>
    refine ⟨log ++ [.returned gen gen], fun k => ?_⟩
    show x gen s o (Nush.returning gen k) = _
    rw [hrun, hout]
    exact after_after _ _ _
  | exited code =>
    refine ⟨log, fun k => ?_⟩
    show x gen s o (Nush.returning gen k) = _
    rw [hrun, hout]
    rfl

theorem Computes.next {x : Exec} {sem : Semantics} {y : Int → Exec} {sems : Int → Semantics}
    (hx : Computes x sem) (hy : ∀ status, Computes (y status) (sems status)) :
    Computes (fun gen s o k => x gen s o fun gen' status s' o' => y status gen' s' o' k)
      fun s o => (sem s o).next sems := by
  intro gen s o
  obtain ⟨log, hrun⟩ := hx gen s o
  cases hout : sem s o with
  | done status s' o' =>
    obtain ⟨log', hrun'⟩ := hy status gen s' o'
    refine ⟨log ++ log', fun k => ?_⟩
    show x gen s o (fun gen' status s' o' => y status gen' s' o' k) =
      (((sem s o).next sems).resume gen k).after _
    rw [hrun, hout]
    show (y status gen s' o' k).after log = _
    rw [hrun', after_after]
    rfl
  | exited code =>
    refine ⟨log, fun k => ?_⟩
    show x gen s o (fun gen' status s' o' => y status gen' s' o' k) =
      (((sem s o).next sems).resume gen k).after _
    rw [hrun, hout]
    rfl

theorem computes_done (r : Int) :
    Computes (fun gen s o k => k gen r s o) (fun s o => .done r s o) := by
  intro gen s o
  exact ⟨[], fun k => rfl⟩

theorem Computes.seqCmd {x y : Exec} {sem sem' : Semantics} (cond : Int → Bool)
    (hx : Computes x sem) (hy : Computes y sem') :
    Computes (seqCmd cond x y) fun s o =>
      (sem s o).next fun status => if cond status then sem' else .done status := by
  have hright : ∀ status : Int, Computes
      (fun gen s o k => if cond status then y gen s o k else k gen status s o)
      (if cond status then sem' else .done status) := by
    intro status
    cases hcond : cond status with
    | true => simpa using hy
    | false => simpa using computes_done status
  exact hx.next hright

theorem wexitstatus_exitWith (status : Int) :
    (exitWith status).fate.wexitstatus = status % 256 := by
  show (((status % 256).toNat % 256 : Nat) : Int) = status % 256
  omega

/-- A child that ends with `exit` behind the call is a subshell. -/
theorem Computes.child {x : Exec} {sem : Semantics} (h : Computes x sem) (gen : Nat) (s : Shell)
    (o : Oracle) : (x gen s o exiting).fate.wexitstatus = (sem s o).status := by
  obtain ⟨log, hrun⟩ := h gen s o
  rw [hrun]
  cases sem s o with
  | done status s' o' => exact wexitstatus_exitWith status
  | exited code => rfl

theorem computes_afterWait (child : Nat → Shell → Oracle → Run) {body : Semantics}
    (h : ∀ gen s o, (child gen s o).fate.wexitstatus = (body s o).status) :
    Computes (fun gen s o k => afterWait (child (gen + 1) s o.child) gen s o.parent k)
      (subshell body) := by
  intro gen s o
  refine ⟨(child (gen + 1) s o.child).log, fun k => ?_⟩
  show (k gen (child (gen + 1) s o.child).fate.wexitstatus s o.parent).after _ = _
  rw [h]
  rfl

theorem computes_cmd {words : List String} (h : Plain (.cmd words)) :
    Computes (executeCmd words) (command words) := by
  obtain ⟨hne, hcd⟩ := h
  intro gen s o
  cases words with
  | nil => exact absurd rfl hne
  | cons input args =>
    by_cases hinput : input = "cd"
    · subst hinput
      cases args with
      | nil => exact absurd rfl hcd
      | cons dir rest =>
        refine ⟨[], fun k => ?_⟩
        cases hok : o.next.cdOk with
        | true => simp [executeCmd, command, hok, Outcome.resume, after_nil]
        | false => simp [executeCmd, command, hok, Outcome.resume, after_nil]
    · by_cases hexit : input = "exit"
      · subst hexit
        exact ⟨[.exitBuiltin gen], fun k => rfl⟩
      · refine ⟨[.ran (gen + 1) (input :: args)], fun k => ?_⟩
        have hcommand : command (input :: args) s o = .done o.next.fate.wexitstatus s o.rest := by
          unfold command
          split
          · next heq => exact absurd (List.cons.inj heq).1 hinput
          · next heq => exact absurd (List.cons.inj heq).1 hexit
          · rfl
        rw [hcommand]
        simp only [executeCmd, if_neg hinput, if_neg hexit]
        rfl

theorem reference_semicolon {a b : Astree} (hb : b ≠ .null) :
    reference (.op .semicolon a b) = fun s o => (reference a s o).next fun _ => reference b := by
  cases b with
  | null => exact absurd rfl hb
  | cmd words => rfl
  | op o l r => rfl

theorem execute_computes {t : Astree} (h : Plain t) : Computes (execute t) (reference t) := by
  induction t with
  | null => exact (computes_done 0).returning
  | cmd words => exact (computes_cmd h).returning
  | op oper a b iha ihb =>
    cases oper with
    | semicolon =>
      by_cases hb : b = .null
      · subst hb
        exact (iha h.1).returning
      · have hseq := (iha h.1).seqCmd (fun _ => true) (ihb h.2)
        have hexec := hseq.returning
        rw [reference_semicolon hb]
        simpa [execute, semicolonCmd, seqCmd, hb] using hexec
    | and =>
      have hseq := (iha h.1).seqCmd (fun status => decide (status = 0)) (ihb h.2)
      have hexec := hseq.returning
      simpa [execute, andCmd, seqCmd, reference] using hexec
    | pipe =>
      have hwait := computes_afterWait
        (fun gen s o => (execute b gen s o.parent exiting).after
          (execute a (gen + 1) s o.child exiting).log)
        fun gen s o => (ihb h.2).child gen s o.parent
      exact hwait.returning
    | rdrIn =>
      obtain ⟨ha, path, args, rfl⟩ := h
      have hwait := computes_afterWait (fun gen s o => execute a gen s o exiting)
        fun gen s o => (iha ha).child gen s o
      exact hwait.returning
    | background => exact absurd h id
    | or => exact absurd h id
    | rdrOut => exact absurd h id

/-- The calling process returns once from `execute`, with the status and in
the directory of the reference semantics, or ends where that ends. -/
theorem execute_reference {t : Astree} (h : Plain t) (gen : Nat) (s : Shell) (o : Oracle) :
    ∃ log, ∀ k : Cont, execute t gen s o k =
      (match reference t s o with
        | .done status s' o' => k gen status s' o'
        | .exited code => ⟨.exits code, []⟩).after log :=
  execute_computes h gen s o

/-- `sort < list && cd / | exit`, where every command ends with 257: the pipe is not reached. -/
theorem execute_reference_redirect :
    ∃ log, ∀ k : Cont,
      execute (.op .and (.op .rdrIn (.cmd ["sort"]) (.cmd ["list"]))
        (.op .pipe (.cmd ["cd", "/"]) (.cmd ["exit"]))) 0 ["home"] (fun _ => ⟨.exits 257, true⟩) k =
        (k 0 1 ["home"] fun _ => ⟨.exits 257, true⟩).after log :=
  execute_reference (t := .op .and (.op .rdrIn (.cmd ["sort"]) (.cmd ["list"]))
    (.op .pipe (.cmd ["cd", "/"]) (.cmd ["exit"]))) (by simp [Plain]) 0 ["home"]
    fun _ => ⟨.exits 257, true⟩

end Cs3650.Nush
