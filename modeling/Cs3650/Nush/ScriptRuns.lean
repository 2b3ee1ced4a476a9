import Cs3650.Nush.ScriptFaults
import Cs3650.Nush.ScriptReads

/-!
# Which scripts run line by line

Besides lines that do not fit into the buffer, a line spoils the run when the
shell itself can die in it, by a `cd` without a directory; when it can reach
a `>` whose left side returns, so that the child goes on with the script as well;
and when a child can call `exit` while the stream has bytes left, which the shell then
reads again. Behind the last line there is nothing left to read.
-/

namespace Cs3650.Nush

/-- Lines without the `exit` builtin. -/
def Script (cmds : List (List Char)) : Prop := ∀ cmd ∈ cmds, noExit (parse (tokenize cmd)) = true

/-- No line from the position `p` on spoils the run. -/
def LinesFit (installed : String → Bool) (blksize : Nat) : Nat → List (List Char) → Prop
  | _, [] => True
  | p, line :: rest =>
    line.length ≤ 255 ∧
      (if rest = [] then shellSafe (parse (tokenize line)) = true
        else fit (parse (tokenize line)) = true ∧
          (blksize ∣ p + line.length ∨ leavesFile installed (parse (tokenize line)) = true)) ∧
      LinesFit installed blksize (p + line.length) rest

/-! ## The loop -/

section Loop

variable {w : World} {blksize : Nat} {text : List Char}

theorem mainLoop_zero (fuel : Nat) (st : Stream) (gen : Nat) (s : Shell) (o : Oracle) (f : File) :
    (mainLoop w blksize text fuel st gen s o f).fate.wexitstatus = 0 := by
  induction fuel generalizing st gen s o f with
  | zero => rfl
  | succ fuel ih =>
    rw [mainLoop]
    dsimp only
    split
    · rfl
    · have hzero : EndsZeroOn fun gen' _ s' o' f'' =>
          (mainLoop w blksize text fuel (fgets blksize text 255 st f).2.1 gen' s' o' f'').after
            [.did (.lineDone gen')] := fun gen' _ s' o' f'' => ih _ gen' s' o' f''
      exact hzero.execute false _ gen s o _

theorem mainLoop_end {fuel : Nat} {st st' : Stream} {f f' : File}
    (h : fgets blksize text 255 st f = ([], st', f')) (gen : Nat) (s : Shell) (o : Oracle) :
    mainLoop w blksize text (fuel + 1) st gen s o f =
      ⟨.exits 0, [], f'.exit w.delay st'.unread.length false⟩ := by
  rw [mainLoop, h]
  rfl

theorem mainLoop_line {fuel : Nat} {st st' : Stream} {f f' : File} {line : List Char}
    (h : fgets blksize text 255 st f = (line, st', f')) (hne : line ≠ []) (gen : Nat) (s : Shell)
    (o : Oracle) :
    mainLoop w blksize text (fuel + 1) st gen s o f =
      (executeOn w st'.unread.length false (parse (tokenize line)) gen s o f'
        fun gen' _ s' o' f'' => (mainLoop w blksize text fuel st' gen' s' o' f'').after
          [.did (.lineDone gen')]).after [.passed gen line] := by
  rw [mainLoop, h]
  exact if_neg hne

theorem passedBy_append (L M : List ScriptEvent) : passedBy (L ++ M) = passedBy L ++ passedBy M :=
  List.filterMap_append

/-- Nothing is handed on, and nobody is cut off. -/
def Idle (L : List ScriptEvent) : Prop := ∀ e ∈ L, ∃ a, e = .did a

theorem Idle.append {L M : List ScriptEvent} (hL : Idle L) (hM : Idle M) : Idle (L ++ M) := by
  intro e he
  rcases List.mem_append.mp he with he | he
  · exact hL e he
  · exact hM e he

theorem SilentOn.idle {L : List ScriptEvent} (h : SilentOn L) : Idle L := by
  intro e he
  have hsilent := h e he
  cases e with
  | did a => exact ⟨a, rfl⟩
  | passed gen cmd => exact absurd hsilent id
  | cutOff gen => exact absurd hsilent id

theorem idle_did (a : Action) : Idle [.did a] := fun _ he => ⟨a, List.mem_singleton.mp he⟩

theorem Idle.passedBy {L : List ScriptEvent} (h : Idle L) : Nush.passedBy L = [] := by
  refine List.filterMap_eq_nil_iff.mpr fun e he => ?_
  obtain ⟨a, rfl⟩ := h e he
  rfl

theorem Idle.passes {L : List ScriptEvent} (h : Idle L) {r : FileRun} {strings : List (List Char)}
    (hr : Passes strings r) : Passes strings (r.after L) := by
  refine ⟨?_, ?_, hr.exits⟩
  · intro gen hmem
    rcases List.mem_append.mp hmem with hmem | hmem
    · obtain ⟨a, ha⟩ := h _ hmem
      cases ha
    · exact hr.finished gen hmem
  · show Nush.passedBy (L ++ r.log) = _
    rw [passedBy_append, h.passedBy, List.nil_append, hr.strings]

theorem Passes.of_after {L : List ScriptEvent} {r : FileRun} {strings : List (List Char)}
    (h : Passes strings (r.after L)) (hL : Idle L) : Passes strings r := by
  refine ⟨fun gen hmem => h.finished gen (List.mem_append_right L hmem), ?_, h.exits⟩
  rw [← h.strings, FileRun.after, passedBy_append, hL.passedBy, List.nil_append]

theorem Passes.line {r : FileRun} {strings : List (List Char)} (hr : Passes strings r)
    (line : List Char) : Passes (line :: strings) (r.after [.passed 0 line]) := by
  refine ⟨?_, ?_, hr.exits⟩
  · intro gen hmem
    rcases List.mem_cons.mp hmem with hmem | hmem
    · cases hmem
    · exact hr.finished gen hmem
  · show passedBy (.passed 0 line :: r.log) = _
    rw [List.map_cons, ← hr.strings]
    rfl

end Loop

/-! ## Fitting lines -/

section Fitting

variable {w : World} {blksize : Nat} {text : List Char}

theorem line_ne_nil {bytes line : List Char} {rest : List (List Char)}
    (h : lines bytes = line :: rest) : line ≠ [] :=
  List.ne_nil_of_length_pos (@length_line_pos bytes line (by simp [h]))

/-- At the end of the file the process exits, and so do the children that come out of the line. -/
theorem mainLoop_regular_end (hblk : 0 < blksize) {st : Stream} {f : File}
    (h : Regular blksize text text.length st f) (fuel gen : Nat) (s : Shell) (o : Oracle) :
    ∃ f', mainLoop w blksize text (fuel + 1) st gen s o f = ⟨.exits 0, [], f'⟩ ∧ f'.late = [] ∧
      f'.offset = f.offset := by
  obtain ⟨st', f', hget, h'⟩ := h.end hblk 255
  have hunread : st'.unread.length = 0 := by simp [h'.unread]
  refine ⟨f', ?_, h'.late, h'.offset.trans h.offset.symm⟩
  rw [mainLoop_end hget, hunread, File.exit_zero]

/-- The last line may leave processes behind: they find the end of the file. -/
theorem mainLoop_last (hblk : 0 < blksize) {p : Nat} {st : Stream} {f : File} {line : List Char}
    (h : Regular blksize text p st f) (hline : lines (text.drop p) = [line])
    (hlen : line.length ≤ 255) (hexit : noExit (parse (tokenize line)) = true)
    (hsafe : shellSafe (parse (tokenize line)) = true) (s : Shell) (o : Oracle) :
    Passes [line] (mainLoop w blksize text 2 st 0 s o f) := by
  obtain ⟨st', f', hget, h', hrest⟩ := h.line hblk hline hlen
  have hend : p + line.length = text.length := by
    have hnil := lines_eq_nil hrest
    rw [List.drop_eq_nil_iff] at hnil
    have hwithin := h'.within
    omega
  rw [hend] at h'
  have hunread : st'.unread.length = 0 := by simp [h'.unread]
  have hne := line_ne_nil hline
  rw [mainLoop_line hget hne, hunread]
  -- the runs of a process that leaves the file at its end
  let AtEnd : File → FileRun → Run → Prop := fun f r r₀ =>
    r.fate.wexitstatus = r₀.fate.wexitstatus ∧
      (Regular blksize text text.length st' f →
        r.fate = r₀.fate ∧ Idle r.log ∧ Regular blksize text text.length st' r.file)
  have hidle : Related AtEnd AtEnd := by
    refine ⟨fun gen f => ⟨rfl, fun hf => ⟨rfl, idle_did _, hf⟩⟩, ?_, ?_⟩
    · rintro f r r₀ caller gen ⟨hstatus, hat⟩
      refine ⟨hstatus, fun hf => ?_⟩
      obtain ⟨hfate, hlog, hfile⟩ := hat hf
      exact ⟨hfate, (idle_did _).append hlog, hfile⟩
    · rintro f c c₀ r r₀ ⟨-, hc⟩ ⟨hstatus, hr⟩
      refine ⟨hstatus, fun hf => ?_⟩
      obtain ⟨-, hclog, hcfile⟩ := hc hf
      obtain ⟨hfate, hlog, hfile⟩ := hr hcfile
      exact ⟨hfate, hclog.append hlog, hfile⟩
  have hchild : RelatedChild w 0 AtEnd := by
    refine ⟨hidle, fun hc => hc.1, ?_, ?_, ?_, ?_⟩
    · intro background gen status s o f
      refine ⟨rfl, fun hf => ⟨rfl, silentOn_nil.idle, ?_⟩⟩
      exact (File.exit_zero w.delay background f).symm ▸ hf
    · exact fun _ _ _ _ f => ⟨rfl, fun hf => ⟨rfl, silentOn_nil.idle, hf⟩⟩
    · exact fun _ _ _ f => ⟨rfl, fun hf => ⟨rfl, idle_did _, hf⟩⟩
    · intro background fate gen words f
      refine ⟨rfl, fun hf => ⟨rfl, idle_did _, ?_⟩⟩
      exact (File.exit_zero w.delay background f).symm ▸ hf
  have hk : ∀ gen (r : Int) s o f, AtEnd f
      ((mainLoop w blksize text 1 st' gen s o f).after [.did (.lineDone gen)])
      ⟨.exits 0, [.lineDone gen]⟩ := by
    intro gen r s o f
    refine ⟨mainLoop_zero 1 st' gen s o f, fun hf => ?_⟩
    obtain ⟨f'', hrun, hlate, hoff⟩ := mainLoop_regular_end (w := w) hblk hf 0 gen s o
    rw [hrun]
    refine ⟨rfl, idle_did _, hlate, hoff.trans hf.offset, ?_, hf.within, hf.eof⟩
    simp [hf.unread]
  obtain ⟨-, hat⟩ := hidle.execute hchild (parse (tokenize line))
    (fun hno => absurd (hexit.symm.trans hno) (by decide)) (hk 0) (fun g _ => hk g) false s o f'
  obtain ⟨hfate, hlog, -⟩ := hat h'
  have hsurvives : (execute (parse (tokenize line)) 0 s o fun gen _ _ _ =>
      ⟨.exits 0, [.lineDone gen]⟩).fate = .exits 0 := by
    have hdone : ∀ gen : Nat, CrashesFrom 1 [.lineDone gen] :=
      fun _ => crashesFrom_single fun _ => Action.noConfusion
    rcases shell_survives (parse_sound _).1 hsafe 0 s o
        (fun gen _ _ _ => ⟨.exits 0, [.lineDone gen]⟩) ⟨fun _ _ _ _ => rfl,
          fun gen _ _ _ _ => hdone gen⟩
      with ⟨-, L, -, -, hrun⟩ | ⟨κ, r, s', o', L, -, -, -, hrun⟩
    · rw [hrun]
    · rw [hrun]
      rfl
  have hpasses :
      Passes [] (executeOn w 0 false (parse (tokenize line)) 0 s o f' fun gen' _ s' o' f'' =>
      (mainLoop w blksize text 1 st' gen' s' o' f'').after [.did (.lineDone gen')]) := by
    refine ⟨fun gen hmem => ?_, List.filterMap_eq_nil_iff.mpr fun e he => ?_, hfate.trans hsurvives⟩
    · obtain ⟨a, ha⟩ := hlog _ hmem
      cases ha
    · obtain ⟨a, rfl⟩ := hlog e he
      rfl
  exact hpasses.line line

/-- The shell goes on with the file as it was. -/
theorem shell_goes_on {t : Astree} (hwf : WellFormed t) (hexit : noExit t = true)
    (hfit : fit t = true) (w : World) (n : Nat) (hfile : n = 0 ∨ leavesFile w.installed t = true)
    (s : Shell) (o : Oracle) (f : File) : ∃ r s' o' L, SilentOn L ∧
      ∀ k, executeOn w n false t 0 s o f k = (k 0 r s' o' f).after L := by
  rcases fit_comesBack hwf hfit w n s o f with ⟨he, -⟩ | ⟨r, s', o', L, f', hL, -, hkept, hrun⟩
  · rw [codes_exit hexit] at he
    cases he
  · rw [hkept hfile] at hrun
    exact ⟨r, s', o', L, hL, hrun⟩

theorem linesFit_passes (hblk : 0 < blksize) {ls : List (List Char)} (hscript : Script ls) {p : Nat}
    {st : Stream} {f : File} (h : Regular blksize text p st f) (hls : lines (text.drop p) = ls)
    (hfit : LinesFit w.installed blksize p ls) (s : Shell) (o : Oracle) :
    ∃ fuel, Passes ls (mainLoop w blksize text fuel st 0 s o f) := by
  induction ls generalizing p st f s o with
  | nil =>
    have hend : p = text.length := by
      have hnil := lines_eq_nil hls
      rw [List.drop_eq_nil_iff] at hnil
      have hwithin := h.within
      omega
    subst hend
    obtain ⟨f', hrun, -⟩ := mainLoop_regular_end (w := w) hblk h 0 0 s o
    refine ⟨1, ?_⟩
    rw [hrun]
    exact ⟨fun _ hmem => (by cases hmem), rfl, rfl⟩
  | cons line rest ih =>
    obtain ⟨hlen, hline, hrest⟩ := hfit
    have hexit := hscript line (by simp)
    by_cases hlast : rest = []
    · subst hlast
      exact ⟨2, mainLoop_last hblk h hls hlen hexit (by simpa using hline) s o⟩
    · rw [if_neg hlast] at hline
      obtain ⟨st', f', hget, h', hls'⟩ := h.line hblk hls hlen
      have hp : p + line.length < text.length := by
        by_contra hge
        rw [List.drop_eq_nil_of_le (Nat.le_of_not_lt hge)] at hls'
        exact hlast hls'.symm
      have hfile := hline.2.imp_left (h'.unread_eq_nil_iff hblk hp).mpr
      obtain ⟨r, s', o', L, hL, hrun⟩ :=
        shell_goes_on (parse_sound _).1 hexit hline.1 w st'.unread.length hfile s o f'
      obtain ⟨fuel, hpasses⟩ :=
        ih (fun c hc => hscript c (List.mem_cons_of_mem _ hc)) h' hls' hrest s' o'
      have hne := line_ne_nil hls
      refine ⟨fuel + 1, ?_⟩
      rw [mainLoop_line hget hne, hrun]
      exact (hL.idle.passes ((idle_did _).passes hpasses)).line line

end Fitting

/-! ## Spoilt runs -/

/-- Another process than the shell reads the script, or the shell reads what is no line of it. -/
def Astray (L : List ScriptEvent) : Prop :=
  (∃ gen, .cutOff gen ∈ L) ∨
    ∃ gen cmd, .passed gen cmd ∈ L ∧ (0 < gen ∨ noExit (parse (tokenize cmd)) = false)

theorem Astray.after {L : List ScriptEvent} (h : Astray L) (M : List ScriptEvent) :
    Astray (M ++ L) := by
  rcases h with ⟨gen, hmem⟩ | ⟨gen, cmd, hmem, hbad⟩
  · exact Or.inl ⟨gen, List.mem_append_right M hmem⟩
  · exact Or.inr ⟨gen, cmd, List.mem_append_right M hmem, hbad⟩

theorem Astray.before {L : List ScriptEvent} (h : Astray L) (M : List ScriptEvent) :
    Astray (L ++ M) := by
  rcases h with ⟨gen, hmem⟩ | ⟨gen, cmd, hmem, hbad⟩
  · exact Or.inl ⟨gen, List.mem_append_left M hmem⟩
  · exact Or.inr ⟨gen, cmd, List.mem_append_left M hmem, hbad⟩

def Spoilt (r : FileRun) : Prop := r.fate = .killed ∨ Astray r.log

theorem Spoilt.after {r : FileRun} (h : Spoilt r) (L : List ScriptEvent) : Spoilt (r.after L) :=
  h.imp id fun hastray => hastray.after L

theorem Passes.not_spoilt {strings : List (List Char)} {r : FileRun} (h : Passes strings r)
    (hscript : Script strings) : ¬ Spoilt r := by
  rintro (hkilled | ⟨gen, hmem⟩ | ⟨gen, cmd, hmem, hbad⟩)
  · have hexits := h.exits
    rw [hkilled] at hexits
    cases hexits
  · exact h.finished gen hmem
  · have hpassed : (gen, cmd) ∈ passedBy r.log := List.mem_filterMap.mpr ⟨_, hmem, rfl⟩
    rw [h.strings] at hpassed
    obtain ⟨cmd', hcmd, heq⟩ := List.mem_map.mp hpassed
    cases heq
    rcases hbad with hgen | hexit
    · exact absurd hgen (Nat.lt_irrefl 0)
    · rw [hscript _ hcmd] at hexit
      cases hexit

/-- How many bytes have been handed on. -/
def passedBytes (L : List ScriptEvent) : Nat := ((passedBy L).map fun e => e.2.length).sum

theorem passedBytes_append (L M : List ScriptEvent) :
    passedBytes (L ++ M) = passedBytes L + passedBytes M := by
  unfold passedBytes
  rw [passedBy_append, List.map_append, List.sum_append]

theorem Passes.bytes {strings : List (List Char)} {r : FileRun} (h : Passes strings r) :
    passedBytes r.log = strings.flatten.length := by
  unfold passedBytes
  rw [h.strings, List.length_flatten, List.map_map]
  rfl

section Accounts

variable {installed : String → Bool} {blksize : Nat} {text : List Char}

/-- A process with these bytes before it that is no longer the shell. -/
theorem stray_reads (hblk : 0 < blksize) {st : Stream} {gen : Nat} (hgen : 0 < gen) {f : File}
    (h : Readable text st f) (fuel : Nat) (s : Shell) (o : Oracle) :
    Astray (mainLoop (.prompt installed) blksize text fuel st gen s o f).log ∨
      (remaining text st f = 0 ∧
        (mainLoop (.prompt installed) blksize text fuel st gen s o f).file.offset ≤ f.offset ∧
        Readable text st (mainLoop (.prompt installed) blksize text fuel st gen s o f).file) := by
  cases fuel with
  | zero => exact Or.inl (Or.inl ⟨gen, List.mem_singleton.mpr rfl⟩)
  | succ fuel =>
    cases hget : fgets blksize text 255 st f with
    | mk cmd more =>
      obtain ⟨st', f'⟩ := more
      obtain ⟨h', hsum, hend⟩ := h.fgets hblk 255 hget
      by_cases hne : cmd = []
      · subst hne
        have hzero := hend (by decide) rfl
        rw [hzero, List.length_nil] at hsum
        have hunread : st'.unread.length = 0 := by
          unfold remaining at hsum
          omega
        rw [mainLoop_end hget, hunread, File.exit_zero]
        have hoff : f'.offset = text.length ∧ f.offset = text.length := by
          have hwithin := h.within
          have hwithin' := h'.within
          unfold remaining at hsum hzero
          omega
        refine Or.inr ⟨hzero, by rw [hoff.1, hoff.2], h'.late, h'.within, fun heof => ?_⟩
        exact ⟨(h.eof heof).1, hoff.1⟩
      · left
        rw [mainLoop_line hget hne]
        exact Or.inr ⟨gen, cmd, List.mem_cons_self, Or.inl hgen⟩

/-- What remains before a line is handed on behind it, unless something goes wrong. -/
def Accounts (text : List Char) (st : Stream) (f : File) (r : FileRun) (r₀ : Run) : Prop :=
  Readable text st f → Spoilt r ∨ (remaining text st f ≤ passedBytes r.log ∧ r₀.fate = .exits 0 ∧
    (0 < remaining text st f → ∀ g, 0 < g → .lineDone g ∉ r₀.log))

def ChildAccounts (text : List Char) (st : Stream) (f : File) (c : FileRun) (c₀ : Run) : Prop :=
  c.fate.wexitstatus = c₀.fate.wexitstatus ∧
    (Readable text st f → Astray c.log ∨ (Readable text st c.file ∧ c.file.offset ≤ f.offset ∧
      (0 < remaining text st f → ∀ g, 0 < g → .lineDone g ∉ c₀.log)))

theorem remaining_le (text : List Char) (st : Stream) {f f' : File} (h : f'.offset ≤ f.offset) :
    remaining text st f ≤ remaining text st f' := by
  unfold remaining
  omega

/-- An exit leaves the stream of the others as it is. -/
theorem Readable.exit {st : Stream} {f : File} (h : Readable text st f) (background : Bool) :
    Readable text st (f.exit (fun _ => 0) st.unread.length background) ∧
      (f.exit (fun _ => 0) st.unread.length background).offset ≤ f.offset := by
  obtain ⟨hle, hlate⟩ := below_exit st.unread.length background f
  refine ⟨⟨hlate.trans h.late, hle.trans h.within, fun heof => ?_⟩, hle⟩
  obtain ⟨hnil, hend⟩ := h.eof heof
  rw [hnil]
  exact ⟨rfl, (congrArg File.offset (File.exit_zero _ background f)).trans hend⟩

theorem passedBytes_did (a : Action) : passedBytes [.did a] = 0 := rfl

theorem related_accounts (st : Stream) :
    Related (Accounts text st) (ChildAccounts text st) := by
  refine ⟨fun _ _ _ => Or.inl (Or.inl rfl), ?_, ?_⟩
  · intro f r r₀ caller gen h hread
    rcases h hread with hspoilt | ⟨hle, hfate, hdone⟩
    · exact Or.inl (hspoilt.after _)
    · refine Or.inr ⟨?_, hfate, fun hpos g hg hmem => ?_⟩
      · rwa [FileRun.after, passedBytes_append, passedBytes_did, Nat.zero_add]
      · rcases List.mem_cons.mp hmem with hmem | hmem
        · cases hmem
        · exact hdone hpos g hg hmem
  · intro f c c₀ r r₀ hc h hread
    rcases hc.2 hread with hastray | ⟨hreadc, hlec, hdonec⟩
    · exact Or.inl (Or.inr (hastray.before _))
    have hmore := remaining_le text st hlec
    rcases h hreadc with hspoilt | ⟨hle, hfate, hdone⟩
    · exact Or.inl (hspoilt.after _)
    · refine Or.inr ⟨?_, hfate, fun hpos g hg hmem => ?_⟩
      · rw [FileRun.after, passedBytes_append]
        omega
      · rcases List.mem_append.mp hmem with hmem | hmem
        · exact hdonec hpos g hg hmem
        · exact hdone (Nat.lt_of_lt_of_le hpos hmore) g hg hmem

theorem related_childAccounts (installed : String → Bool) (st : Stream) :
    RelatedChild (.prompt installed) st.unread.length (ChildAccounts text st) := by
  have hkeeps : ∀ {f : File} (fate : Fate) (L : List ScriptEvent) {L₀ : List Action},
      (∀ g, .lineDone g ∉ L₀) → ChildAccounts text st f ⟨fate, L, f⟩ ⟨fate, L₀⟩ :=
    fun _ _ _ hnone => ⟨rfl, fun hread => Or.inr ⟨hread, Nat.le_refl _, fun _ g _ => hnone g⟩⟩
  have hexits : ∀ {f : File} (background : Bool) (fate : Fate) (L : List ScriptEvent)
      {L₀ : List Action}, (∀ g, .lineDone g ∉ L₀) →
      ChildAccounts text st f ⟨fate, L, f.exit (fun _ => 0) st.unread.length background⟩
      ⟨fate, L₀⟩ :=
    fun background _ _ _ hnone => ⟨rfl, fun hread =>
      Or.inr ⟨(hread.exit background).1, (hread.exit background).2, fun _ g _ => hnone g⟩⟩
  refine ⟨⟨fun _ _ => hkeeps .killed _ (by simp), ?_, ?_⟩, fun h => h.1,
    fun background _ _ _ _ _ => hexits background _ [] (by simp), fun _ _ _ _ _ =>
    hkeeps _ [] (by simp),
    fun fate _ _ _ => hkeeps fate _ (by simp), fun background fate _ _ _ =>
      hexits background fate _ (by simp)⟩
  · intro f c c₀ caller gen h
    refine ⟨h.1, fun hread => ?_⟩
    rcases h.2 hread with hastray | ⟨hfile, hle, hdone⟩
    · exact Or.inl (hastray.after [_])
    · refine Or.inr ⟨hfile, hle, fun hpos g hg hmem => ?_⟩
      rcases List.mem_cons.mp hmem with hmem | hmem
      · cases hmem
      · exact hdone hpos g hg hmem
  · intro f c c₀ r r₀ hc h
    refine ⟨h.1, fun hread => ?_⟩
    rcases hc.2 hread with hastray | ⟨hreadc, hlec, hdonec⟩
    · exact Or.inl (hastray.before _)
    have hmore := remaining_le text st hlec
    rcases h.2 hreadc with hastray | ⟨hfile, hle, hdone⟩
    · exact Or.inl (hastray.after _)
    · refine Or.inr ⟨hfile, hle.trans hlec, fun hpos g hg hmem => ?_⟩
      rcases List.mem_append.mp hmem with hmem | hmem
      · exact hdonec hpos g hg hmem
      · exact hdone (Nat.lt_of_lt_of_le hpos hmore) g hg hmem

theorem line_accounts (hblk : 0 < blksize) {st : Stream} {f : File} {t : Astree} {fuel : Nat}
    (hexit : noExit t = true)
    (hloop : ∀ s o f, Readable text st f →
      Spoilt (mainLoop (.prompt installed) blksize text fuel st 0 s o f) ∨
      remaining text st f ≤
      passedBytes (mainLoop (.prompt installed) blksize text fuel st 0 s o f).log)
    (s : Shell) (o : Oracle) :
    Accounts text st f
      (executeOn (.prompt installed) st.unread.length false t 0 s o f fun gen _ s o f =>
        (mainLoop (.prompt installed) blksize text fuel st gen s o f).after [.did (.lineDone gen)])
      (executeLine t s o fun _ _ _ _ => .exits 0) := by
  refine (related_accounts st).execute (related_childAccounts installed st) t
    (fun hno => absurd (hexit.symm.trans hno) (by decide)) ?_ ?_ false s o f
  · intro r s o f hread
    rcases hloop s o f hread with hspoilt | hle
    · exact Or.inl (hspoilt.after _)
    · refine Or.inr ⟨?_, rfl, fun _ g hg hmem => ?_⟩
      · rw [FileRun.after, passedBytes_append]
        exact Nat.le_trans hle (Nat.le_add_left _ _)
      · cases List.mem_singleton.mp hmem
        exact absurd hg (Nat.lt_irrefl 0)
  · intro g hg r s o f
    refine ⟨mainLoop_zero fuel st g s o f, fun hread => ?_⟩
    rcases stray_reads hblk hg hread fuel s o with hastray | ⟨hzero, hle, hread'⟩
    · exact Or.inl (hastray.after _)
    · refine Or.inr ⟨hread', hle, fun hpos => ?_⟩
      rw [hzero] at hpos
      exact absurd hpos (Nat.lt_irrefl 0)

/-- The shell hands on what remains, if nothing goes wrong. -/
theorem mainLoop_accounts (hblk : 0 < blksize) {st : Stream} {f : File} (h : Readable text st f)
    (fuel : Nat) (s : Shell) (o : Oracle) :
    Spoilt (mainLoop (.prompt installed) blksize text fuel st 0 s o f) ∨
      remaining text st f ≤
      passedBytes (mainLoop (.prompt installed) blksize text fuel st 0 s o f).log := by
  induction fuel generalizing st s o f with
  | zero => exact Or.inl (Or.inr (Or.inl ⟨0, List.mem_singleton.mpr rfl⟩))
  | succ fuel ih =>
    cases hget : fgets blksize text 255 st f with
    | mk cmd more =>
      obtain ⟨st', f'⟩ := more
      obtain ⟨h', hsum, hend⟩ := h.fgets hblk 255 hget
      by_cases hne : cmd = []
      · right
        rw [hend (by decide) hne]
        exact Nat.zero_le _
      · rw [mainLoop_line hget hne]
        cases hexit : noExit (parse (tokenize cmd)) with
        | false => exact Or.inl (Or.inr (Or.inr ⟨0, cmd, List.mem_cons_self, Or.inr hexit⟩))
        | true =>
          rcases line_accounts hblk hexit (fun s o f hread => ih hread s o) s o h' with
            hspoilt | ⟨hle, -⟩
          · exact Or.inl (hspoilt.after _)
          · right
            rw [FileRun.after, passedBytes_append, ← hsum]
            exact Nat.add_le_add (Nat.le_refl _) hle

/-! ## Lines that do not fit -/

theorem passed_short (w : World) (fuel : Nat) (st : Stream) (gen : Nat) (s : Shell) (o : Oracle)
    (f : File) : ∀ g cmd, .passed g cmd ∈ (mainLoop w blksize text fuel st gen s o f).log →
      cmd.length ≤ 255 := by
  let Short : FileRun → Prop := fun r => ∀ g cmd, .passed g cmd ∈ r.log → cmd.length ≤ 255
  have hdid : ∀ (a : Action) (fate : Fate) (f : File), Short ⟨fate, [.did a], f⟩ := by
    intro a fate f g cmd hmem
    cases List.mem_singleton.mp hmem
  have hafter : ∀ {r : FileRun} {L : List ScriptEvent},
      (∀ g cmd, .passed g cmd ∈ L → cmd.length ≤ 255) → Short r → Short (r.after L) := by
    intro r L hL hr g cmd hmem
    exact (List.mem_append.mp hmem).elim (hL g cmd) (hr g cmd)
  have hchild : ∀ n, RelatedChild w n fun _ c c₀ =>
      c.fate.wexitstatus = c₀.fate.wexitstatus ∧ Short c := by
    intro n
    refine ⟨⟨fun gen f => ⟨rfl, hdid _ _ f⟩, ?_, ?_⟩, fun h => h.1, ?_, ?_, ?_, ?_⟩
    · exact fun caller gen h => ⟨h.1, hafter (hdid _ .killed ⟨0, 0, 0, []⟩) h.2⟩
    · exact fun hc h => ⟨h.1, hafter hc.2 h.2⟩
    · exact fun _ _ _ _ _ _ => ⟨rfl, fun _ _ hmem => by cases hmem⟩
    · exact fun _ _ _ _ _ => ⟨rfl, fun _ _ hmem => by cases hmem⟩
    · exact fun _ _ _ f => ⟨rfl, hdid _ _ f⟩
    · exact fun _ _ _ _ f => ⟨rfl, hdid _ _ _⟩
  have hexits : ∀ n, Exits w n fun _ c c₀ =>
      c.fate.wexitstatus = c₀.fate.wexitstatus ∧ Short c :=
    fun _ _ _ _ => ⟨rfl, hdid _ _ _⟩
  induction fuel generalizing st gen s o f with
  | zero =>
    intro g cmd hmem
    cases List.mem_singleton.mp hmem
  | succ fuel ih =>
    have hlen : (fgets blksize text 255 st f).1.length ≤ 255 := length_fgets 255 st f
    cases hget : fgets blksize text 255 st f with
    | mk cmd more =>
      obtain ⟨st', f'⟩ := more
      rw [hget] at hlen
      by_cases hne : cmd = []
      · subst hne
        rw [mainLoop_end hget]
        exact fun _ _ hmem => by cases hmem
      · rw [mainLoop_line hget hne]
        refine hafter (fun g cmd' hmem => ?_) ?_
        · cases List.mem_singleton.mp hmem
          exact hlen
        · have hloop : ∀ g (r : Int) s o f,
              ((mainLoop w blksize text fuel st' g s o f).after
                [.did (.lineDone g)]).fate.wexitstatus = (exitWith 0).fate.wexitstatus ∧
              Short ((mainLoop w blksize text fuel st' g s o f).after [.did (.lineDone g)]) :=
            fun g _ s o f => ⟨mainLoop_zero fuel st' g s o f,
              hafter (hdid _ .killed ⟨0, 0, 0, []⟩) (ih st' g s o f)⟩
          have hrun :=
            @Related.execute w st'.unread.length _ _ (hchild st'.unread.length).toRelated (hchild _)
              (parse (tokenize cmd)) (fun _ => ⟨hexits _, hexits _⟩) gen
              _ (fun _ _ _ _ => exitWith 0)
            (hloop gen) (fun g _ => hloop g) false s o f'
          exact hrun.2

/-- Where the offset has gone back, the shell has more before it than the rest of the script. -/
theorem rewound_not_passes (hblk : 0 < blksize) {p : Nat} {st : Stream} {f : File} {t : Astree}
    (h : Regular blksize text p st f) (hwf : WellFormed t) (hfit : fit t = true)
    (hleaves : leavesFile installed t = false) (hn : 0 < st.unread.length) (s : Shell) :
    ∃ o, ∀ fuel {strings : List (List Char)}, Script strings →
      strings.flatten.length ≤ text.length - p →
      ¬ Passes strings (executeOn (.prompt installed) st.unread.length false t 0 s o f
        fun gen' _ s' o' f' =>
        (mainLoop (.prompt installed) blksize text fuel st gen' s' o' f').after
          [.did (.lineDone gen')]) := by
  obtain ⟨o, r, s', o', ho⟩ := fit_rewinds hwf hfit hleaves hn s
  refine ⟨o, fun fuel strings hscript hlen hpasses => ?_⟩
  have hread := h.readable hblk
  have hwithin := hread.within
  have hleft := h.remaining hblk
  have hunread : st.unread.length ≤ f.offset := by
    rw [h.unread, List.length_take]
    omega
  obtain ⟨L, f', hL, hlt, hlate, hrun⟩ := ho f hunread
  rw [hrun] at hpasses
  have hread' : Readable text st f' :=
    ⟨hlate.trans hread.late, by omega, fun heof => by
      rw [(hread.eof heof).1] at hn
      exact absurd hn (Nat.lt_irrefl 0)⟩
  rcases mainLoop_accounts hblk hread' fuel s' o' with hspoilt | hle
  · exact hpasses.not_spoilt hscript ((hspoilt.after _).after _)
  · have hbytes := hpasses.bytes
    rw [FileRun.after, passedBytes_append, FileRun.after, passedBytes_append] at hbytes
    unfold remaining at hle hleft
    omega

theorem not_passes_line {w : World} {fuel : Nat} {st st' : Stream} {f f' : File} {line : List Char}
    {rest : List (List Char)} {s : Shell} {o : Oracle}
    (hget : fgets blksize text 255 st f = (line, st', f')) (hne : line ≠ [])
    (h : ¬ Passes rest (executeOn w st'.unread.length false (parse (tokenize line)) 0 s o f'
      fun gen' _ s' o' f'' => (mainLoop w blksize text fuel st' gen' s' o' f'').after
        [.did (.lineDone gen')])) :
    ¬ Passes (line :: rest) (mainLoop w blksize text (fuel + 1) st 0 s o f) := by
  rw [mainLoop_line hget hne]
  intro hpasses
  refine h ⟨fun gen hmem => hpasses.finished gen (List.mem_cons_of_mem _ hmem), ?_, hpasses.exits⟩
  exact (List.cons.injEq _ _ _ _ ▸ hpasses.strings).2

/-- Where a line does not fit, some answers of the world and prompt exits spoil the run. -/
theorem not_passes (hblk : 0 < blksize) {ls : List (List Char)} (hscript : Script ls) {p : Nat}
    {st : Stream} {f : File} (h : Regular blksize text p st f) (hls : lines (text.drop p) = ls)
    (hunfit : ¬ LinesFit installed blksize p ls) (s : Shell) :
    ∃ o, ∀ fuel, ¬ Passes ls (mainLoop (.prompt installed) blksize text fuel st 0 s o f) := by
  induction ls generalizing p st f s with
  | nil => exact absurd trivial hunfit
  | cons line rest ih =>
    have hexit := hscript line List.mem_cons_self
    have hrestScript : Script rest := fun c hc => hscript c (List.mem_cons_of_mem _ hc)
    have hwf := (parse_sound (tokenize line)).1
    have hne := line_ne_nil hls
    have hcut : ∀ o, ¬ Passes (line :: rest)
        (mainLoop (.prompt installed) blksize text 0 st 0 s o f) :=
      fun o hpasses => hpasses.finished 0 (List.mem_singleton.mpr rfl)
    by_cases hlen : line.length ≤ 255
    · obtain ⟨st', f', hget, h', hls'⟩ := h.line hblk hls hlen
      -- it is enough to spoil the run of the line
      have hline :
          (∃ o, ∀ fuel,
            ¬ Passes rest
            (executeOn (.prompt installed) st'.unread.length false (parse (tokenize line)) 0 s o f'
              fun gen' _ s' o' f'' =>
            (mainLoop (.prompt installed) blksize text fuel st' gen' s' o' f'').after
              [.did (.lineDone gen')])) →
          ∃ o, ∀ fuel, ¬ Passes (line :: rest)
            (mainLoop (.prompt installed) blksize text fuel st 0 s o f) := by
        rintro ⟨o, ho⟩
        refine ⟨o, fun fuel => ?_⟩
        cases fuel with
        | zero => exact hcut o
        | succ fuel => exact not_passes_line hget hne (ho fuel)
      apply hline
      have haccounts : ∀ fuel o, Spoilt (executeOn (.prompt installed) st'.unread.length false
          (parse (tokenize line)) 0 s o f' fun gen' _ s' o' f'' =>
            (mainLoop (.prompt installed) blksize text fuel st' gen' s' o' f'').after
              [.did (.lineDone gen')]) ∨ _ := fun fuel o =>
        line_accounts hblk hexit (fun s o f hread => mainLoop_accounts hblk hread fuel s o) s o
          (h'.readable hblk)
      have hkilled : ∀ o, (executeLine (parse (tokenize line)) s o fun _ _ _ _ => .exits 0).fate =
          .killed → ∀ fuel, ¬ Passes rest (executeOn (.prompt installed) st'.unread.length false
            (parse (tokenize line)) 0 s o f' fun gen' _ s' o' f'' =>
              (mainLoop (.prompt installed) blksize text fuel st' gen' s' o' f'').after
                [.did (.lineDone gen')]) := by
        intro o hfate fuel hpasses
        rcases haccounts fuel o with hspoilt | ⟨-, hexits, -⟩
        · exact hpasses.not_spoilt hrestScript hspoilt
        · rw [hfate] at hexits
          cases hexits
      by_cases hlast : rest = []
      · -- the shell dies in the last line
        have hunsafe : shellSafe (parse (tokenize line)) = false := by
          refine Bool.eq_false_iff.mpr fun hsafe => hunfit ⟨hlen, ?_, ?_⟩
          · rw [if_pos hlast]
            exact hsafe
          · rw [hlast]
            trivial
        obtain ⟨o, ho⟩ := shell_aborts hwf hunsafe 0 s
        exact ⟨o, hkilled o (ho _ fun _ _ _ _ => rfl).1⟩
      · have hp : p + line.length < text.length := by
          by_contra hge
          rw [List.drop_eq_nil_of_le (Nat.le_of_not_lt hge)] at hls'
          exact hlast hls'.symm
        have hleft := h'.remaining hblk
        cases hfit : fit (parse (tokenize line)) with
        | false =>
          rcases execute_escapes hwf hexit hfit 0 s with
            ⟨o, hdies⟩ | ⟨_, g, _, _, _, _, hg, -, -, hstray⟩
          · exact ⟨o, hkilled o (hdies _ fun _ _ _ _ => rfl)⟩
          · -- a child comes out of the line too, and there is a line left
            obtain ⟨o, ho⟩ := hstray (fun _ => ⟨.killed, true⟩) fun _ => ⟨.killed, true⟩
            refine ⟨o, fun fuel hpasses => ?_⟩
            have hdone := (ho (fun gen _ _ _ => ⟨.exits 0, [.lineDone gen]⟩) fun _ _ _ _ => rfl).2
              (.lineDone g) (List.mem_singleton.mpr rfl)
            rcases haccounts fuel o with hspoilt | ⟨-, -, hnone⟩
            · exact hpasses.not_spoilt hrestScript hspoilt
            · exact hnone (by omega) g hg hdone
        | true =>
          by_cases hfile : st'.unread.length = 0 ∨
            leavesFile installed (parse (tokenize line)) = true
          · have hrest : ¬ LinesFit installed blksize (p + line.length) rest := by
              refine fun hrest => hunfit ⟨hlen, ?_, hrest⟩
              rw [if_neg hlast]
              exact ⟨hfit, hfile.imp_left (h'.unread_eq_nil_iff hblk hp).mp⟩
            obtain ⟨r, s', hresumes⟩ := fit_resumes hwf hexit hfit (.prompt installed) _ hfile s
            obtain ⟨o', ho'⟩ := ih hrestScript h' hls' hrest s'
            obtain ⟨o, ho⟩ := hresumes o'
            refine ⟨o, fun fuel hpasses => ho' fuel ?_⟩
            obtain ⟨L, hL, hrun⟩ := ho f'
            rw [hrun] at hpasses
            exact (hpasses.of_after hL.idle).of_after (idle_did _)
          · -- the shell has more before it than the rest of the lines
            obtain ⟨hpos, hleaves⟩ := not_or.mp hfile
            obtain ⟨o, ho⟩ := rewound_not_passes hblk h' hwf hfit (Bool.eq_false_iff.mpr hleaves)
              (Nat.pos_of_ne_zero hpos) s
            refine ⟨o, fun fuel => ho fuel hrestScript ?_⟩
            rw [← hls', lines_flatten, List.length_drop]
    · refine ⟨fun _ => ⟨.killed, true⟩, fun fuel hpasses => hlen ?_⟩
      have hpassed : (0, line) ∈ passedBy
          (mainLoop (.prompt installed) blksize text fuel st 0 s (fun _ => ⟨.killed, true⟩)
            f).log := by
        rw [hpasses.strings]
        exact List.mem_cons_self
      obtain ⟨e, hmem, he⟩ := List.mem_filterMap.mp hpassed
      cases e with
      | passed gen cmd =>
        cases he
        exact passed_short _ fuel st 0 s _ f _ _ hmem
      | did a => cases he
      | cutOff gen => cases he

end Accounts

/-! ## Scripts -/

section Scripts

variable {installed : String → Bool} {blksize : Nat} {text : List Char}

theorem regular_zero (hblk : 0 < blksize) : Regular blksize text 0 ⟨[], false⟩ ⟨0, 0, 0, []⟩ :=
  ⟨rfl, (blockEnd_dvd hblk (Nat.dvd_zero _) (Nat.zero_le _)).symm, rfl, Nat.zero_le _,
    fun heof => by cases heof⟩

theorem not_runsLineByLine (hblk : 0 < blksize) (h : Script (lines text))
    (hunfit : ¬ LinesFit installed blksize 0 (lines text)) :
    ¬ RunsLineByLine installed blksize text := by
  intro hruns
  obtain ⟨o, ho⟩ := not_passes hblk h (regular_zero hblk) rfl hunfit []
  obtain ⟨fuel, hpasses⟩ := hruns (fun _ => 0) [] o
  exact ho fuel hpasses

end Scripts

theorem lines_cd_pipe :
    lines "cd /tmp\nls | cat".toList = ["cd /tmp\n".toList, "ls | cat".toList] := by
  decide

/-- The child whose `execvp` fails gives the shell the rest of the script once more. -/
example : ¬ RunsLineByLine (fun _ => false) 4096 "nosuchcmd\necho X".toList := by
  have hlines : lines "nosuchcmd\necho X".toList = ["nosuchcmd\n".toList, "echo X".toList] := by
    decide
  have hfirst : parse (tokenize "nosuchcmd\n".toList) = .cmd ["nosuchcmd"] := by
    rw [show tokenize "nosuchcmd\n".toList = ["nosuchcmd"] by decide]
    exact parse_cmd (by simp) (by decide)
  have hsecond : parse (tokenize "echo X".toList) = .cmd ["echo", "X"] := by
    rw [show tokenize "echo X".toList = ["echo", "X"] by decide]
    exact parse_cmd (by simp) (by decide)
  refine not_runsLineByLine (by decide) ?_ ?_
  · rw [hlines]
    intro cmd hcmd
    rcases List.mem_pair.mp hcmd with rfl | rfl
    · rw [hfirst]
      rfl
    · rw [hsecond]
      rfl
  · rw [hlines]
    rintro ⟨-, hline, -⟩
    rw [if_neg (by simp), hfirst] at hline
    exact absurd hline.2 (by decide)

end Cs3650.Nush
