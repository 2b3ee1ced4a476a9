import Cs3650.Lib.Scanner
import Cs3650.Nush.Tokens

/-!
# The two copies of the tokenizer

chal1/challenge01/tokens.c and hw05/starter-hw05/tokens.c have the same loops
under other names. Here the index `ii` that the helpers advance is explicit, and
the loop of `tokenize` is given a number of turns; a turn moves `ii`.
-/

namespace Cs3650.Nush

open Lib.Scanner

/-- Both helpers: count from `start`, copy, push; the count is returned. -/
def pushRun (keep : Char → Bool) (sv : List String) (line : List Char) (start : Nat) :
    List String × Nat :=
  let numChars := countRun keep line start 0
  (sv ++ [String.ofList ((line.drop start).take numChars)], numChars)

abbrev Adder := List String → List Char → Nat → List String × Nat

/-- `for (int ii = 0; ii < strlen(line);)`; nothing when the turns are used up. -/
def tokenizeLoop (isOp : Char → Bool) (addOp addToken : Adder) :
    Nat → List String → List Char → Nat → Option (List String)
  | 0, sv, line, ii => if ii < line.length then none else some sv
  | turns + 1, sv, line, ii =>
    match (line)[ii]? with
    | none => some sv
    | some c =>
      if isspace c then tokenizeLoop isOp addOp addToken turns sv line (ii + 1)
      else if isOp c then
        tokenizeLoop isOp addOp addToken turns (addOp sv line ii).1 line (ii + (addOp sv line ii).2)
      else
        tokenizeLoop isOp addOp addToken turns (addToken sv line ii).1 line
          (ii + (addToken sv line ii).2)

end Cs3650.Nush

/-! ## chal1/challenge01/tokens.c -/

namespace Cs3650.Chal1

open Nush

def isOp (x : Char) : Bool := x == '&' || x == '<' || x == '>' || x == '|' || x == ';'

def addOp : Adder := pushRun isOp

def addToken : Adder := pushRun fun tokenIndex => !(isOp tokenIndex || isspace tokenIndex)

def tokenize (turns : Nat) (line : List Char) : Option (List String) :=
  tokenizeLoop isOp addOp addToken turns [] line 0

end Cs3650.Chal1

/-! ## hw05/starter-hw05/tokens.c -/

namespace Cs3650.Hw05

open Nush

def isOp (x : Char) : Bool := x == '&' || x == '<' || x == '>' || x == '|' || x == ';'

def addOp : Adder := pushRun isOp

def addToken : Adder := pushRun fun tokenIndex => !(isOp tokenIndex || isspace tokenIndex)

def tokenize (turns : Nat) (line : List Char) : Option (List String) :=
  tokenizeLoop isOp addOp addToken turns [] line 0

end Cs3650.Hw05

namespace Cs3650.Nush

open Lib.Scanner

/-! ## What the tokens are -/

/-- White space has no kind; else the kind says whether it is an operator. -/
def charKind (c : Char) : Option Bool := if isspace c then none else some (isOp c)

theorem isOp_iff_kind (c : Char) : isOp c = true ↔ charKind c = some true := by
  unfold charKind
  split
  · rename_i hspace
    simp [isOp_of_isspace hspace]
  · simp

theorem word_iff_kind (c : Char) : (!(isOp c || isspace c)) = true ↔ charKind c = some false := by
  unfold charKind
  split
  · rename_i hspace
    simp [hspace]
  · rename_i hspace
    simp [hspace]

theorem isSome_charKind (c : Char) : (charKind c).isSome = !isspace c := by
  unfold charKind
  split
  · rename_i hspace
    simp [hspace]
  · rename_i hspace
    simp [hspace]

def spanText (line : List Char) (s : Nat × Nat) : String := String.ofList (slice line s)

/-- The tokens are the maximal runs of operators and of other characters that
are no white space, in their order. -/
structure SplitsIntoRuns (line : List Char) (tokens : List String) : Prop where
  runs : ∃ spans : List (Nat × Nat), (spans.Pairwise fun s t => s.2 ≤ t.1) ∧
    (∀ i j, (i, j) ∈ spans ↔ MaxRunAt charKind line i j) ∧ tokens = spans.map (spanText line)
  joined : tokens.flatMap String.toList = line.filter fun c => !isspace c
  oneKind : ∀ w ∈ tokens, w ≠ "" ∧
    ((∀ c ∈ w.toList, isOp c = true) ∨ ∀ c ∈ w.toList, isOp c = false ∧ isspace c = false)

/-- The helper's push is the next maximal run. -/
theorem pushRun_take {line : List Char} {ii : Nat} {spans : List (Nat × Nat)} {keep : Char → Bool}
    {k : Bool} (h : ScannedTo charKind line ii spans)
    (hkeep : ∀ a, keep a = true ↔ charKind a = some k) {c : Char} (hc : (line)[ii]? = some c)
    (hkc : charKind c = some k) :
    ∃ spans', (pushRun keep (spans.map (spanText line)) line ii).1 = spans'.map (spanText line) ∧
      0 < (pushRun keep (spans.map (spanText line)) line ii).2 ∧
      ScannedTo charKind line (ii +
        (pushRun keep (spans.map (spanText line)) line ii).2) spans' := by
  obtain ⟨hpos, hscan⟩ := h.take_countRun hkeep hc hkc
  refine ⟨_, ?_, hpos, hscan⟩
  simp [pushRun, spanText, slice]

/-- The turns that are left suffice when there is one for each character left. -/
theorem tokenizeLoop_runs {turns : Nat} {line : List Char} {ii : Nat} {spans : List (Nat × Nat)}
    (hturns : line.length ≤ turns + ii) (h : ScannedTo charKind line ii spans) :
    ∃ spans', ScannedTo charKind line line.length spans' ∧
      tokenizeLoop isOp (pushRun isOp) (pushRun fun c => !(isOp c || isspace c)) turns
        (spans.map (spanText line)) line ii = some (spans'.map (spanText line)) := by
  induction turns generalizing ii spans with
  | zero =>
    have hend : ii = line.length := Nat.le_antisymm h.fits (by omega)
    subst hend
    exact ⟨spans, h, by simp [tokenizeLoop]⟩
  | succ turns ih =>
    cases hc : (line)[ii]? with
    | none =>
      have hend : ii = line.length :=
        Nat.le_antisymm h.fits (List.getElem?_eq_none_iff.mp hc)
      subst hend
      exact ⟨spans, h, by rw [tokenizeLoop, hc]⟩
    | some c =>
      rw [tokenizeLoop, hc]
      dsimp only
      split
      · rename_i hspace
        exact ih (by omega) (h.skip hc (by simp [charKind, hspace]))
      · rename_i hspace
        split
        · rename_i hop
          obtain ⟨spans', hsv, hpos, hscan⟩ :=
            pushRun_take h isOp_iff_kind hc ((isOp_iff_kind c).mp hop)
          rw [hsv]
          exact ih (by omega) hscan
        · rename_i hop
          have hkc : charKind c = some false := (word_iff_kind c).mp (by simp [hop, hspace])
          obtain ⟨spans', hsv, hpos, hscan⟩ := pushRun_take h word_iff_kind hc hkc
          rw [hsv]
          exact ih (by omega) hscan

theorem splitsIntoRuns_of_scanned {line : List Char} {spans : List (Nat × Nat)}
    (h : ScannedTo charKind line line.length spans) :
    SplitsIntoRuns line (spans.map (spanText line)) := by
  constructor
  · exact ⟨spans, h.ordered, h.all, rfl⟩
  · have hsome : (fun c => (charKind c).isSome) = fun c => !isspace c := funext isSome_charKind
    rw [← hsome, ← h.filtered, List.flatMap_map]
    simp [spanText]
  · intro w hw
    obtain ⟨⟨i, j⟩, hs, rfl⟩ := List.mem_map.mp hw
    obtain ⟨hne, k, hk⟩ := ((h.all i j).mp hs).slice_kind
    refine ⟨by simpa [spanText, String.ofList_eq_empty_iff] using hne, ?_⟩
    cases k with
    | true =>
      left
      intro c hc
      exact (isOp_iff_kind c).mpr (hk c (by simpa [spanText] using hc))
    | false =>
      right
      intro c hc
      have hword := (word_iff_kind c).mpr (hk c (by simpa [spanText] using hc))
      simpa using hword

/-! ## The same tokens by suffixes of the line -/

theorem tokenizeFrom_fuel {fuel fuel' : Nat} {rest : List Char} (h : rest.length ≤ fuel)
    (h' : rest.length ≤ fuel') : tokenizeFrom fuel rest = tokenizeFrom fuel' rest := by
  induction fuel generalizing fuel' rest with
  | zero =>
    have hnil : rest = [] := List.length_eq_zero_iff.mp (by omega)
    subst hnil
    cases fuel' <;> simp [tokenizeFrom]
  | succ fuel ih =>
    cases rest with
    | nil => cases fuel' <;> simp [tokenizeFrom]
    | cons c cs =>
      cases fuel' with
      | zero => simp at h'
      | succ fuel' =>
        simp only [List.length_cons] at h h'
        rw [tokenizeFrom, tokenizeFrom]
        split
        · exact ih (by omega) (by omega)
        · rename_i hspace
          split
          · rename_i hop
            have hlen : 0 < (addOp (c :: cs)).length := by simp [addOp, hop]
            dsimp only
            rw [@ih fuel'] <;> rw [List.length_drop, List.length_cons] <;> omega
          · rename_i hop
            have hlen : 0 < (addToken (c :: cs)).length := by simp [addToken, hop, hspace]
            dsimp only
            rw [@ih fuel'] <;> rw [List.length_drop, List.length_cons] <;> omega

theorem pushRun_eq (keep : Char → Bool) (sv : List String) (line : List Char) (start : Nat) :
    pushRun keep sv line start = (sv ++ [String.ofList ((line.drop start).takeWhile keep)],
      ((line.drop start).takeWhile keep).length) := by
  have hsplit := List.takeWhile_append_dropWhile (p := keep) (l := line.drop start)
  have htake : (line.drop start).take ((line.drop start).takeWhile keep).length =
      (line.drop start).takeWhile keep := by
    rw [← List.prefix_iff_eq_take.mp (List.takeWhile_prefix keep)]
  simp [pushRun, countRun_eq, htake]

theorem tokenizeLoop_eq {turns : Nat} {sv : List String} {line : List Char} {ii : Nat}
    (hturns : line.length ≤ turns + ii) :
    tokenizeLoop isOp (pushRun isOp) (pushRun fun c => !(isOp c || isspace c)) turns sv line ii =
      some (sv ++ tokenizeFrom turns (line.drop ii)) := by
  induction turns generalizing sv ii with
  | zero =>
    rw [List.drop_eq_nil_of_le (by omega)]
    simp [tokenizeLoop, tokenizeFrom]
    omega
  | succ turns ih =>
    cases hc : (line)[ii]? with
    | none =>
      rw [List.drop_eq_nil_of_le (List.getElem?_eq_none_iff.mp hc)]
      simp [tokenizeLoop, tokenizeFrom, hc]
    | some c =>
      obtain ⟨hlt, hget⟩ := List.getElem?_eq_some_iff.mp hc
      have hdrop : line.drop ii = c :: line.drop (ii + 1) := by
        rw [List.drop_eq_getElem_cons hlt, hget]
      rw [tokenizeLoop, hc, hdrop, tokenizeFrom]
      dsimp only
      split
      · exact ih (by omega)
      · rename_i hspace
        split
        · rename_i hop
          have hlen : 0 < (addOp (line.drop ii)).length := by simp [addOp, hdrop, hop]
          rw [pushRun_eq, ← hdrop]
          unfold addOp at hlen ⊢
          rw [ih (by omega), List.drop_drop]
          simp
        · rename_i hop
          have hlen : 0 < (addToken (line.drop ii)).length := by
            simp [addToken, hdrop, hop, hspace]
          rw [pushRun_eq, ← hdrop]
          unfold addToken at hlen ⊢
          rw [ih (by omega), List.drop_drop]
          simp

theorem tokenize_space {c : Char} {cs : List Char} (h : isspace c = true) :
    tokenize (c :: cs) = tokenize cs := by
  rw [tokenize, List.length_cons, tokenizeFrom, if_pos h, tokenize]

/-- A run of one kind in front, ended by another kind, is the first token. -/
theorem tokenize_append {w rest : List Char} {k : Bool} (hne : w ≠ [])
    (hw : ∀ c ∈ w, charKind c = some k)
    (hrest : ∀ c, rest.head? = some c → charKind c ≠ some k) :
    tokenize (w ++ rest) = String.ofList w :: tokenize rest := by
  obtain ⟨c, cs, rfl⟩ := List.exists_cons_of_ne_nil hne
  have hck := hw c (by simp)
  have hspace : ¬ isspace c = true := by
    intro hs
    rw [charKind, if_pos hs] at hck
    cases hck
  have hcut : ∀ keep : Char → Bool, (∀ a, keep a = true ↔ charKind a = some k) →
      (c :: (cs ++ rest)).takeWhile keep = c :: cs := by
    intro keep hkeep
    have hback : rest.takeWhile keep = [] := by
      cases rest with
      | nil => rfl
      | cons d ds =>
        refine List.takeWhile_cons_of_neg fun hd => ?_
        exact hrest d rfl ((hkeep d).mp hd)
    rw [← List.cons_append, List.takeWhile_append_of_pos (fun a ha => (hkeep a).mpr (hw a ha)),
      hback, List.append_nil]
  have hfuel : rest.length ≤ (cs ++ rest).length := by simp
  rw [tokenize, List.cons_append, List.length_cons, tokenizeFrom, if_neg hspace]
  cases hop : isOp c with
  | true =>
    have hk : k = true := by
      have h := (isOp_iff_kind c).mp hop
      exact (Option.some.inj (hck.symm.trans h))
    subst hk
    rw [if_pos rfl, addOp, hcut isOp isOp_iff_kind, ← List.cons_append]
    dsimp only
    rw [List.drop_left, tokenizeFrom_fuel hfuel (Nat.le_refl _), tokenize]
  | false =>
    have hk : k = false := by
      have h := (word_iff_kind c).mp (by simp [hop, hspace])
      exact (Option.some.inj (hck.symm.trans h))
    subst hk
    rw [if_neg (by simp), addToken, hcut _ word_iff_kind, ← List.cons_append]
    dsimp only
    rw [List.drop_left, tokenizeFrom_fuel hfuel (Nat.le_refl _), tokenize]

theorem tokenize_intercalate {ws : List String}
    (h : ∀ w ∈ ws, w ≠ "" ∧ ∃ k, ∀ c ∈ w.toList, charKind c = some k) :
    tokenize (" ".intercalate ws).toList = ws := by
  induction ws with
  | nil => rfl
  | cons w ws ih =>
    obtain ⟨hne, k, hk⟩ := h w (by simp)
    have hne' : w.toList ≠ [] := by simpa using hne
    have hrest := ih fun v hv => h v (by simp [hv])
    cases ws with
    | nil =>
      have hone := @tokenize_append _ [] _ hne' hk (by simp)
      simpa [tokenize, tokenizeFrom] using hone
    | cons v ws =>
      rw [String.intercalate_cons_cons, String.toList_append, String.toList_append,
        List.append_assoc, tokenize_append hne' hk]
      · rw [String.ofList_toList]
        exact congrArg _ ((tokenize_space rfl).trans hrest)
      · intro c hc
        have hc' : c = ' ' := by simpa using hc.symm
        rw [hc']
        cases k <;> decide

/-- A turn for every character is enough, the tokens are the runs, and the
tokens joined by spaces give the same tokens. -/
structure Tokenizes (tok : Nat → List Char → Option (List String)) (line : List Char)
    (tokens : List String) : Prop where
  returns : ∀ more, tok (line.length + more) line = some tokens
  splits : SplitsIntoRuns line tokens
  again : ∀ more, tok ((" ".intercalate tokens).toList.length + more)
    (" ".intercalate tokens).toList = some tokens

def sharedTokenize (turns : Nat) (line : List Char) : Option (List String) :=
  tokenizeLoop isOp (pushRun isOp) (pushRun fun c => !(isOp c || isspace c)) turns [] line 0

theorem sharedTokenize_eq (line : List Char) (more : Nat) :
    sharedTokenize (line.length + more) line = some (tokenize line) := by
  rw [sharedTokenize, tokenizeLoop_eq (by omega), List.drop_zero, List.nil_append, tokenize,
    tokenizeFrom_fuel (by omega) (Nat.le_refl _)]

theorem tokenize_splits (line : List Char) : SplitsIntoRuns line (tokenize line) := by
  obtain ⟨spans, hscan, hloop⟩ := @tokenizeLoop_runs (line.length + 0) line 0 [] (by omega)
    scannedTo_start
  have heq := sharedTokenize_eq line 0
  rw [sharedTokenize, ← List.map_nil (f := spanText line), hloop, Option.some.injEq] at heq
  rw [← heq]
  exact splitsIntoRuns_of_scanned hscan

theorem SplitsIntoRuns.has_kind {line : List Char} {tokens : List String}
    (h : SplitsIntoRuns line tokens) :
    ∀ w ∈ tokens, w ≠ "" ∧ ∃ k, ∀ c ∈ w.toList, charKind c = some k := by
  intro w hw
  obtain ⟨hne, hop | hword⟩ := h.oneKind w hw
  · exact ⟨hne, true, fun c hc => (isOp_iff_kind c).mp (hop c hc)⟩
  · refine ⟨hne, false, fun c hc => (word_iff_kind c).mp ?_⟩
    obtain ⟨h1, h2⟩ := hword c hc
    rw [h1, h2]
    rfl

theorem sharedTokenize_tokenizes (line : List Char) :
    Tokenizes sharedTokenize line (tokenize line) := by
  have hsplits := tokenize_splits line
  refine ⟨sharedTokenize_eq line, hsplits, fun more => ?_⟩
  rw [sharedTokenize_eq, tokenize_intercalate hsplits.has_kind]

theorem both_tokenizers_split (line : List Char) :
    Tokenizes Chal1.tokenize line (tokenize line) ∧
      Tokenizes Hw05.tokenize line (tokenize line) :=
  ⟨sharedTokenize_tokenizes line, sharedTokenize_tokenizes line⟩

example : tokenize "true&& \techo spaces |tr o   i;;".toList =
    ["true", "&&", "echo", "spaces", "|", "tr", "o", "i", ";;"] := by decide

end Cs3650.Nush
