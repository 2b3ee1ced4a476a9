import Cs3650.Nush.Astree
import Mathlib.Data.List.Basic

/-!
# Tokens (chal1/challenge01/tokens.c)

`tokenize` cuts a line into maximal runs of operator characters and maximal
runs of other characters that are no white space. `parse` knows seven operator
strings; a run that is none of them ends up as a word of a command.
-/

namespace Cs3650.Nush

def isOp (x : Char) : Bool := x == '&' || x == '<' || x == '>' || x == '|' || x == ';'

/-- `isspace` in the C locale. -/
def isspace (x : Char) : Bool :=
  x == ' ' || x == '\t' || x == '\n' || x == '\r' || x == '\x0b' || x == '\x0c'

def addOp (rest : List Char) : List Char := rest.takeWhile isOp

def addToken (rest : List Char) : List Char := rest.takeWhile fun c => !(isOp c || isspace c)

/-- The loop of `tokenize` from the character `ii` on; every turn advances. -/
def tokenizeFrom : Nat → List Char → List String
  | 0, _ => []
  | _ + 1, [] => []
  | fuel + 1, c :: cs =>
    if isspace c then tokenizeFrom fuel cs
    else if isOp c then
      let opList := addOp (c :: cs)
      String.ofList opList :: tokenizeFrom fuel ((c :: cs).drop opList.length)
    else
      let token := addToken (c :: cs)
      String.ofList token :: tokenizeFrom fuel ((c :: cs).drop token.length)

def tokenize (line : List Char) : List String := tokenizeFrom line.length line

/-! ## Maximal runs of operator characters -/

def MaxRun (line run : List Char) : Prop :=
  ∃ pre post, line = pre ++ (run ++ post) ∧ run ≠ [] ∧ (∀ c ∈ run, isOp c = true) ∧
    (∀ c, pre.getLast? = some c → isOp c = false) ∧ ∀ c, post.head? = some c → isOp c = false

theorem maxRun_nil (run : List Char) : ¬ MaxRun [] run := by
  rintro ⟨pre, post, hline, hne, -⟩
  simp at hline
  exact hne hline.2.1

theorem maxRun_skip {front rest run : List Char} (hfront : ∀ c ∈ front, isOp c = false) :
    MaxRun (front ++ rest) run ↔ MaxRun rest run := by
  constructor
  · rintro ⟨pre, post, hline, hne, hrun, hpre, hpost⟩
    rcases List.append_eq_append_iff.mp hline with ⟨mid, hp, hr⟩ | ⟨mid, hf, hr⟩
    · refine ⟨mid, post, hr, hne, hrun, ?_, hpost⟩
      intro c hc
      apply hpre c
      rw [hp, List.getLast?_append, hc]
      rfl
    · cases mid with
      | nil => exact ⟨[], post, by simpa using hr.symm, hne, hrun, by simp, hpost⟩
      | cons x mid =>
        cases run with
        | nil => exact absurd rfl hne
        | cons y run =>
          have hxy : y = x := by
            rw [List.cons_append, List.cons_append, List.cons.injEq] at hr
            exact hr.1
          have hx := hfront x (by simp [hf])
          have hy := hrun y (by simp)
          rw [hxy, hx] at hy
          cases hy
  · rintro ⟨pre, post, hline, hne, hrun, hpre, hpost⟩
    refine ⟨front ++ pre, post, by rw [hline, List.append_assoc], hne, hrun, ?_, hpost⟩
    intro c hc
    rw [List.getLast?_append] at hc
    cases hlast : pre.getLast? with
    | none =>
      rw [hlast] at hc
      exact hfront c (List.mem_of_getLast? (by simpa using hc))
    | some d =>
      rw [hlast] at hc
      have hdc : d = c := by simpa using hc
      exact hpre c (hdc ▸ hlast)

theorem maxRun_op {front rest : List Char} (hne : front ≠ [])
    (hfront : ∀ c ∈ front, isOp c = true) (hrest : ∀ c, rest.head? = some c → isOp c = false)
    (run : List Char) : MaxRun (front ++ rest) run ↔ run = front ∨ MaxRun rest run := by
  constructor
  · rintro ⟨pre, post, hline, hner, hrun, hpre, hpost⟩
    rcases List.append_eq_append_iff.mp hline with ⟨mid, hp, hr⟩ | ⟨mid, hf, hr⟩
    · right
      refine ⟨mid, post, hr, hner, hrun, ?_, hpost⟩
      intro c hc
      apply hpre c
      rw [hp, List.getLast?_append, hc]
      rfl
    · left
      have hnil : pre = [] := by
        cases hlast : pre.getLast? with
        | none => exact List.getLast?_eq_none_iff.mp hlast
        | some d =>
          have hd := hfront d (by simp [hf, List.mem_of_getLast? hlast])
          rw [hpre d hlast] at hd
          cases hd
      rw [hnil, List.nil_append] at hf
      subst hf
      rcases List.append_eq_append_iff.mp hr with ⟨ds, hd, hq⟩ | ⟨ds, hd, hq⟩
      · cases ds with
        | nil => simpa using hd.symm
        | cons x ds =>
          have hx := hfront x (by simp [hd])
          rw [hpost x (by simp [hq])] at hx
          cases hx
      · cases ds with
        | nil => simpa using hd
        | cons x ds =>
          have hx := hrun x (by simp [hd])
          rw [hrest x (by simp [hq])] at hx
          cases hx
  · rintro (rfl | ⟨pre, post, hline, hner, hrun, hpre, hpost⟩)
    · exact ⟨[], rest, rfl, hne, hfront, by simp, hrest⟩
    · refine ⟨front ++ pre, post, by rw [hline, List.append_assoc], hner, hrun, ?_, hpost⟩
      intro c hc
      rw [List.getLast?_append] at hc
      cases hlast : pre.getLast? with
      | none =>
        -- the run would start the rest
        have hnil := List.getLast?_eq_none_iff.mp hlast
        cases run with
        | nil => exact absurd rfl hner
        | cons y run =>
          have hy := hrun y (by simp)
          rw [hrest y (by simp [hline, hnil])] at hy
          cases hy
      | some d =>
        rw [hlast] at hc
        have hdc : d = c := by simpa using hc
        exact hpre c (hdc ▸ hlast)

theorem head_dropWhile (p : Char → Bool) (line : List Char) :
    ∀ c, (line.dropWhile p).head? = some c → p c = false := by
  intro c hc
  have h := List.head?_dropWhile_not p line
  rw [hc] at h
  exact h

theorem drop_takeWhile (p : Char → Bool) (line : List Char) :
    line.drop (line.takeWhile p).length = line.dropWhile p := by
  have h := List.takeWhile_append_dropWhile (p := p) (l := line)
  calc line.drop (line.takeWhile p).length
      = (line.takeWhile p ++ line.dropWhile p).drop (line.takeWhile p).length := by rw [h]
    _ = line.dropWhile p := List.drop_left

theorem isOp_of_isspace {c : Char} (h : isspace c = true) : isOp c = false := by
  simp only [isspace, Bool.or_eq_true, beq_iff_eq] at h
  rcases h with ((((rfl | rfl) | rfl) | rfl) | rfl) | rfl <;> rfl

/-- The tokens with an operator character are the maximal operator runs. -/
theorem op_token_iff_maxRun {fuel : Nat} {rest : List Char} (hfuel : rest.length ≤ fuel)
    (w : String) :
    (w ∈ tokenizeFrom fuel rest ∧ ∃ c ∈ w.toList, isOp c = true) ↔ MaxRun rest w.toList := by
  induction fuel generalizing rest with
  | zero =>
    have hnil : rest = [] := List.length_eq_zero_iff.mp (by omega)
    subst hnil
    simp [tokenizeFrom, maxRun_nil]
  | succ fuel ih =>
    cases rest with
    | nil => simp [tokenizeFrom, maxRun_nil]
    | cons c cs =>
      simp only [List.length_cons] at hfuel
      cases hspace : isspace c with
      | true =>
        have hop : isOp c = false := isOp_of_isspace hspace
        have hskip : MaxRun (c :: cs) w.toList ↔ MaxRun cs w.toList :=
          maxRun_skip (by simpa using hop : ∀ d ∈ [c], isOp d = false)
        rw [tokenizeFrom, if_pos hspace, hskip]
        exact ih (by omega)
      | false =>
        cases hop : isOp c with
        | true =>
          have hne : addOp (c :: cs) ≠ [] := by simp [addOp, hop]
          have hrun : ∀ d ∈ addOp (c :: cs), isOp d = true := fun d hd =>
            List.all_eq_true.mp List.all_takeWhile d hd
          have hlen : 0 < (addOp (c :: cs)).length := List.length_pos_iff.mpr hne
          rw [tokenizeFrom, if_neg (by simp [hspace]), if_pos hop]
          have hsplit := List.takeWhile_append_dropWhile (p := isOp) (l := c :: cs)
          have hmax := maxRun_op hne hrun (head_dropWhile isOp (c :: cs)) w.toList
          rw [addOp, hsplit] at hmax
          have hshort : ((c :: cs).dropWhile isOp).length ≤ fuel := by
            rw [← drop_takeWhile, List.length_drop, List.length_cons]
            rw [addOp] at hlen
            omega
          have hrest := ih hshort
          rw [hmax, ← hrest, ← drop_takeWhile]
          simp only [addOp, List.mem_cons, or_and_right]
          refine or_congr_left ?_
          constructor
          · rintro ⟨rfl, -⟩
            simp
          · intro hw
            have hw' : w = String.ofList ((c :: cs).takeWhile isOp) := by simp [← hw]
            exact ⟨hw', c, by simp [hw, hop], hop⟩
        | false =>
          have hfree : ∀ d ∈ addToken (c :: cs), isOp d = false := by
            intro d hd
            have h := List.all_eq_true.mp List.all_takeWhile d hd
            simp only [Bool.not_eq_true', Bool.or_eq_false_iff] at h
            exact h.1
          have hlen : 0 < (addToken (c :: cs)).length := by simp [addToken, hop, hspace]
          rw [tokenizeFrom, if_neg (by simp [hspace]), if_neg (by simp [hop])]
          have hsplit := List.takeWhile_append_dropWhile
            (p := fun d => !(isOp d || isspace d)) (l := c :: cs)
          have hmax : MaxRun (addToken (c :: cs) ++
              (c :: cs).dropWhile fun d => !(isOp d || isspace d)) w.toList ↔ _ :=
            maxRun_skip hfree
          rw [addToken, hsplit] at hmax
          have hshort : ((c :: cs).dropWhile fun d => !(isOp d || isspace d)).length ≤ fuel := by
            rw [← drop_takeWhile, List.length_drop, List.length_cons]
            rw [addToken] at hlen
            omega
          have hrest := ih hshort
          rw [hmax, ← hrest, ← drop_takeWhile]
          simp only [addToken, List.mem_cons, or_and_right]
          refine or_iff_right ?_
          rintro ⟨rfl, d, hd, hdop⟩
          rw [hfree d (by simpa [addToken] using hd)] at hdop
          cases hdop

/-! ## The leaves of the parsed line -/

def leafWords : Astree → List String
  | .null => []
  | .cmd words => words
  | .op _ l r => leafWords l ++ leafWords r

theorem mem_leafWords {t : Astree} (h : WellFormed t) (w : String) :
    w ∈ leafWords t ↔ w ∈ flatten t ∧ ∀ o : Oper, w ≠ o.text := by
  induction t with
  | null => simp [leafWords, flatten]
  | cmd words =>
    simp only [leafWords, flatten, iff_self_and]
    intro hw o ho
    exact h.2 o (ho ▸ hw)
  | op o l r ihl ihr =>
    obtain ⟨-, -, hl, hr⟩ := h
    simp only [leafWords, flatten, List.mem_append, List.mem_cons, ihl hl, ihr hr]
    constructor
    · rintro (⟨hw, hno⟩ | ⟨hw, hno⟩)
      · exact ⟨.inl hw, hno⟩
      · exact ⟨.inr (.inr hw), hno⟩
    · rintro ⟨hw | hw | hw, hno⟩
      · exact .inl ⟨hw, hno⟩
      · exact absurd hw (hno o)
      · exact .inr ⟨hw, hno⟩

def OperatorsRecognised (line : List Char) : Prop :=
  ∀ w ∈ leafWords (parse (tokenize line)), ∀ c ∈ w.toList, isOp c = false

def RunsKnown (line : List Char) : Prop :=
  ∀ run, MaxRun line run → ∃ o : Oper, run = o.text.toList

theorem operatorsRecognised_iff (line : List Char) :
    OperatorsRecognised line ↔ RunsKnown line := by
  obtain ⟨hwf, hflat⟩ := parse_sound (tokenize line)
  have hleaf := mem_leafWords hwf
  rw [hflat] at hleaf
  have htoken := op_token_iff_maxRun (Nat.le_refl line.length)
  constructor
  · intro hrec run hrun
    have hw := (htoken (String.ofList run)).mpr (by simpa using hrun)
    obtain ⟨hmem, c, hc, hop⟩ := hw
    apply by_contra
    intro hno
    -- a run that is no operator would be a word of a leaf
    have hword : String.ofList run ∈ leafWords (parse (tokenize line)) := by
      refine (hleaf _).mpr ⟨hmem, fun o ho => hno ⟨o, ?_⟩⟩
      simp [← ho]
    rw [hrec _ hword c hc] at hop
    cases hop
  · intro hknown w hw c hc
    obtain ⟨hmem, hno⟩ := (hleaf w).mp hw
    cases hop : isOp c with
    | false => rfl
    | true =>
      obtain ⟨o, ho⟩ := hknown w.toList ((htoken w).mp ⟨hmem, c, hc, hop⟩)
      exact absurd (String.toList_inj.mp ho) (hno o)

theorem append_redirect_not_recognised :
    ¬ OperatorsRecognised "echo hi >> f".toList := by
  have htokens : tokenize "echo hi >> f".toList = ["echo", "hi", ">>", "f"] := by decide
  intro h
  rw [OperatorsRecognised, htokens, parse_cmd (by simp) (by decide)] at h
  exact absurd (h ">>" (by simp [leafWords]) '>' (by decide)) (by decide)

end Cs3650.Nush
