import Mathlib.Tactic.Common

/-!
# The nush syntax tree (astree.h / astree.c)

`parse` (`astree.c:54-88`) looks through the token vector for the seven
operator strings in the order of `op_list`, splits at the first occurrence of
the first one that is present, and parses both sides. An absent right or left
side is the null tree. The grammar that this recursive splitting decides is
`WellFormed`; `flatten` is its printer.
-/

namespace Cs3650.Nush

/-- The operators of nush. -/
inductive Oper where
  | semicolon
  | background
  | or
  | and
  | pipe
  | rdrOut
  | rdrIn
  deriving DecidableEq, Repr

namespace Oper

def text : Oper → String
  | semicolon => ";"
  | background => "&"
  | or => "||"
  | and => "&&"
  | pipe => "|"
  | rdrOut => ">"
  | rdrIn => "<"

/-- Position of the operator in `op_list` (`astree.c:67`). -/
def index : Oper → Nat
  | semicolon => 0
  | background => 1
  | or => 2
  | and => 3
  | pipe => 4
  | rdrOut => 5
  | rdrIn => 6

theorem text_injective : Function.Injective text := by
  intro o o' h
  cases o <;> cases o' <;> first | rfl | exact absurd h (by decide)

theorem index_injective : Function.Injective index := by
  intro o o' h
  cases o <;> cases o' <;> first | rfl | exact absurd h (by decide)

end Oper

/-- An `astree*`: the null pointer, a command leaf or an operator node. -/
inductive Astree where
  | null
  | cmd (words : List String)
  | op (o : Oper) (branch1 branch2 : Astree)
  deriving DecidableEq, Repr

/-- First position of a string in a vector (`svec.c:51-61`); `none` is the
source's `-1`. -/
def svecIndexOf (sv : List String) (item : String) : Option Nat :=
  sv.findIdx? (· == item)

/-- The items from `startIndex` up to `endIndex` (`svec.c:126-138`). -/
def subSvec (sv : List String) (startIndex endIndex : Nat) : List String :=
  (sv.take endIndex).drop startIndex

/-- `op_list` of `parse`. -/
def opList : List Oper :=
  [.semicolon, .background, .or, .and, .pipe, .rdrOut, .rdrIn]

theorem mem_opList (o : Oper) : o ∈ opList := by
  cases o <;> decide

/-- The loop of `parse` over `op_list`: the first operator that occurs in the
tokens, with the index of its first occurrence. -/
def findOp (tokens : List String) : List Oper → Option (Oper × Nat)
  | [] => none
  | o :: rest =>
    match svecIndexOf tokens o.text with
    | some index => some (o, index)
    | none => findOp tokens rest

theorem svecIndexOf_some {sv : List String} {item : String} {i : Nat}
    (h : svecIndexOf sv item = some i) :
    ∃ pre post, sv = pre ++ item :: post ∧ pre.length = i ∧ item ∉ pre := by
  induction sv generalizing i with
  | nil => simp [svecIndexOf] at h
  | cons x xs ih =>
    by_cases hx : x = item
    · have hi : i = 0 := by simpa [svecIndexOf, List.findIdx?_cons, hx] using h.symm
      exact ⟨[], xs, by simp [hx], by simp [hi], by simp⟩
    · simp only [svecIndexOf, List.findIdx?_cons, beq_iff_eq, hx, if_false,
        Option.map_eq_some_iff] at h
      obtain ⟨j, hj, rfl⟩ := h
      obtain ⟨pre, post, hsv, hlen, hnot⟩ := ih hj
      refine ⟨x :: pre, post, by simp [hsv], by simp [hlen], ?_⟩
      simp [Ne.symm hx, hnot]

theorem svecIndexOf_none {sv : List String} {item : String} :
    svecIndexOf sv item = none ↔ item ∉ sv := by
  simp only [svecIndexOf, List.findIdx?_eq_none_iff, beq_eq_false_iff_ne]
  constructor
  · intro h hm
    exact h item hm rfl
  · intro h x hx he
    exact h (he ▸ hx)

theorem svecIndexOf_append {pre post : List String} {item : String} (h : item ∉ pre) :
    svecIndexOf (pre ++ item :: post) item = some pre.length := by
  cases hi : svecIndexOf (pre ++ item :: post) item with
  | none => exact absurd (by simp) (svecIndexOf_none.mp hi)
  | some i =>
    obtain ⟨pre', post', hsv, hlen, hnot⟩ := svecIndexOf_some hi
    -- two splittings at an item that neither left part contains coincide
    have hpre : pre = pre' := by
      rcases List.append_eq_append_iff.mp hsv with ⟨mid, hp, hm⟩ | ⟨mid, hp, hm⟩
      · cases mid with
        | nil => simpa using hp.symm
        | cons x xs =>
          simp only [List.cons_append, List.cons.injEq] at hm
          exact absurd (by simp [hp, ← hm.1]) hnot
      · cases mid with
        | nil => simpa using hp
        | cons x xs =>
          simp only [List.cons_append, List.cons.injEq] at hm
          exact absurd (by simp [hp, ← hm.1]) h
    rw [← hlen, hpre]

theorem subSvec_left (pre post : List String) (item : String) :
    subSvec (pre ++ item :: post) 0 pre.length = pre := by
  simp [subSvec]

theorem subSvec_right (pre post : List String) (item : String) :
    subSvec (pre ++ item :: post) (pre.length + 1) (pre ++ item :: post).length = post := by
  rw [subSvec, List.take_length]
  simp [List.drop_append]

/-- What the loop over `op_list` finds: a splitting at the first occurrence,
with every operator before it in the list absent. -/
theorem findOp_some {tokens : List String} {ops : List Oper} {o : Oper} {i : Nat}
    (h : findOp tokens ops = some (o, i)) :
    svecIndexOf tokens o.text = some i ∧
      ∃ before after, ops = before ++ o :: after ∧ ∀ o' ∈ before, o'.text ∉ tokens := by
  induction ops with
  | nil => simp [findOp] at h
  | cons x rest ih =>
    simp only [findOp] at h
    cases hx : svecIndexOf tokens x.text with
    | some j =>
      simp only [hx, Option.some.injEq, Prod.mk.injEq] at h
      obtain ⟨rfl, rfl⟩ := h
      exact ⟨hx, [], rest, rfl, by simp⟩
    | none =>
      simp only [hx] at h
      obtain ⟨hi, before, after, hops, hbefore⟩ := ih h
      refine ⟨hi, x :: before, after, by simp [hops], ?_⟩
      intro o' ho'
      rcases List.mem_cons.mp ho' with rfl | ho'
      · exact svecIndexOf_none.mp hx
      · exact hbefore o' ho'

theorem findOp_none {tokens : List String} {ops : List Oper} (h : findOp tokens ops = none) :
    ∀ o ∈ ops, o.text ∉ tokens := by
  induction ops with
  | nil => simp
  | cons x rest ih =>
    simp only [findOp] at h
    cases hx : svecIndexOf tokens x.text with
    | some j => simp [hx] at h
    | none =>
      simp only [hx] at h
      intro o ho
      rcases List.mem_cons.mp ho with rfl | ho
      · exact svecIndexOf_none.mp hx
      · exact ih h o ho

theorem findOp_split {tokens : List String} {o : Oper} {i : Nat}
    (h : findOp tokens opList = some (o, i)) :
    ∃ pre post, tokens = pre ++ o.text :: post ∧ pre.length = i ∧ o.text ∉ pre ∧
      ∀ o' : Oper, o'.index < o.index → o'.text ∉ tokens := by
  obtain ⟨hi, before, after, hops, hbefore⟩ := findOp_some h
  obtain ⟨pre, post, hsv, hlen, hnot⟩ := svecIndexOf_some hi
  refine ⟨pre, post, hsv, hlen, hnot, ?_⟩
  intro o' ho'
  apply hbefore
  -- `opList` lists the operators by increasing index
  have hsorted : opList.Pairwise (fun a b => a.index < b.index) := by decide
  rw [hops] at hsorted
  have hmem : o' ∈ before ++ o :: after := by
    rw [← hops]
    exact mem_opList o'
  rcases List.mem_append.mp hmem with hm | hm
  · exact hm
  · have hafter := (List.pairwise_append.mp hsorted).2.1
    rcases List.mem_cons.mp hm with rfl | hm
    · omega
    · have := (List.pairwise_cons.mp hafter).1 o' hm
      omega

/-- `parse` (`astree.c:54-88`). -/
def parse (tokens : List String) : Astree :=
  if tokens.length < 1 then .null
  else
    match h : findOp tokens opList with
    | some (o, index) =>
      .op o (parse (subSvec tokens 0 index))
        (parse (subSvec tokens (index + 1) tokens.length))
    | none => .cmd tokens
termination_by tokens.length
decreasing_by
  all_goals
    obtain ⟨pre, post, rfl, rfl, -, -⟩ := findOp_split h
    simp only [subSvec, List.length_drop, List.length_take, List.length_append,
      List.length_cons]
    omega

theorem parse_nil : parse [] = .null := by
  rw [parse]
  simp

theorem parse_cmd {tokens : List String} (hne : tokens ≠ [])
    (h : findOp tokens opList = none) : parse tokens = .cmd tokens := by
  have hlen : ¬ tokens.length < 1 := by
    have := List.length_pos_iff.mpr hne
    omega
  rw [parse, if_neg hlen]
  split
  · next hs => simp [h] at hs
  · rfl

theorem parse_op {pre post : List String} {o : Oper}
    (h : findOp (pre ++ o.text :: post) opList = some (o, pre.length)) :
    parse (pre ++ o.text :: post) = .op o (parse pre) (parse post) := by
  rw [parse, if_neg (by simp)]
  split
  · next o' i hs =>
    simp only [h, Option.some.injEq, Prod.mk.injEq] at hs
    obtain ⟨rfl, rfl⟩ := hs
    rw [subSvec_left, subSvec_right]
  · next hs => simp [h] at hs

/-! ### The grammar -/

/-- In-order traversal of a tree. -/
def flatten : Astree → List String
  | .null => []
  | .cmd words => words
  | .op o l r => flatten l ++ o.text :: flatten r

/-- The operators of a tree. -/
def opers : Astree → List Oper
  | .null => []
  | .cmd _ => []
  | .op o l r => opers l ++ o :: opers r

/-- The words of a leaf are no operators, and there is at least one of them;
an operator binds strictly weaker than those of its left side and no stronger
than those of its right side. -/
def WellFormed : Astree → Prop
  | .null => True
  | .cmd words => words ≠ [] ∧ ∀ o : Oper, o.text ∉ words
  | .op o l r =>
    (∀ o' ∈ opers l, o.index < o'.index) ∧ (∀ o' ∈ opers r, o.index ≤ o'.index) ∧
      WellFormed l ∧ WellFormed r

instance decidableWellFormed : (t : Astree) → Decidable (WellFormed t)
  | .null => .isTrue trivial
  | .cmd words =>
    decidable_of_iff (words ≠ [] ∧ ∀ o ∈ opList, o.text ∉ words)
      (and_congr_right fun _ => ⟨fun h o => h o (mem_opList o), fun h o _ => h o⟩)
  | .op o l r =>
    have := decidableWellFormed l
    have := decidableWellFormed r
    inferInstanceAs (Decidable ((∀ o' ∈ opers l, o.index < o'.index) ∧
      (∀ o' ∈ opers r, o.index ≤ o'.index) ∧ WellFormed l ∧ WellFormed r))

/-- The operator tokens of a printed well-formed tree are the operators of its
nodes. -/
theorem text_mem_flatten {t : Astree} (h : WellFormed t) (o : Oper) :
    o.text ∈ flatten t ↔ o ∈ opers t := by
  induction t with
  | null => simp [flatten, opers]
  | cmd words => simp [flatten, opers, h.2 o]
  | op o' l r ihl ihr =>
    obtain ⟨-, -, hl, hr⟩ := h
    simp only [flatten, opers, List.mem_append, List.mem_cons, ihl hl, ihr hr,
      Oper.text_injective.eq_iff]

theorem findOp_of_first {tokens pre post : List String} {o : Oper}
    (ht : tokens = pre ++ o.text :: post) (hpre : o.text ∉ pre)
    (hless : ∀ o' : Oper, o'.index < o.index → o'.text ∉ tokens) :
    findOp tokens opList = some (o, pre.length) := by
  cases hf : findOp tokens opList with
  | none =>
    have hno := findOp_none hf o (mem_opList o)
    exact absurd (by simp [ht]) hno
  | some p =>
    obtain ⟨o', i⟩ := p
    obtain ⟨pre', post', ht', hlen', hnot', hless'⟩ := findOp_split hf
    have hin : o.text ∈ tokens := by simp [ht]
    have hin' : o'.text ∈ tokens := by simp [ht']
    have hle : o'.index ≤ o.index := Nat.le_of_not_lt fun hlt => hless' o hlt hin
    have hge : o.index ≤ o'.index := Nat.le_of_not_lt fun hlt => hless o' hlt hin'
    have ho : o = o' := Oper.index_injective (Nat.le_antisymm hge hle)
    subst ho
    have hi : svecIndexOf tokens o.text = some i := (findOp_some hf).1
    rw [ht, svecIndexOf_append hpre, Option.some.injEq] at hi
    rw [hi]

/-- `parse` followed by `flatten` gives the tokens back, and the tree is in
the grammar. -/
theorem parse_sound (tokens : List String) :
    WellFormed (parse tokens) ∧ flatten (parse tokens) = tokens := by
  -- the two sides of a split are shorter than the tokens they come from
  induction hn : tokens.length using Nat.strongRecOn generalizing tokens with
  | ind n ih =>
    subst hn
    by_cases hnil : tokens = []
    · subst hnil
      rw [parse_nil]
      exact ⟨trivial, rfl⟩
    · cases hf : findOp tokens opList with
      | none =>
        rw [parse_cmd hnil hf]
        exact ⟨⟨hnil, fun o => findOp_none hf o (mem_opList o)⟩, rfl⟩
      | some p =>
        obtain ⟨o, i⟩ := p
        obtain ⟨pre, post, rfl, rfl, hpre, hless⟩ := findOp_split hf
        obtain ⟨hwl, hfl⟩ := ih pre.length (by simp) pre rfl
        obtain ⟨hwr, hfr⟩ := ih post.length (by simp; omega) post rfl
        rw [parse_op hf]
        refine ⟨⟨?_, ?_, hwl, hwr⟩, by rw [flatten, hfl, hfr]⟩
        · intro o' ho'
          have hin : o'.text ∈ pre := hfl ▸ (text_mem_flatten hwl o').mpr ho'
          have hle : o.index ≤ o'.index :=
            Nat.le_of_not_lt fun hlt => hless o' hlt (by simp [hin])
          have hne : o.index ≠ o'.index := fun he =>
            hpre (Oper.index_injective he ▸ hin)
          omega
        · intro o' ho'
          have hin : o'.text ∈ post := hfr ▸ (text_mem_flatten hwr o').mpr ho'
          exact Nat.le_of_not_lt fun hlt => hless o' hlt (by simp [hin])

/-- Every tree of the grammar is what `parse` makes of its own tokens. -/
theorem parse_complete (t : Astree) (h : WellFormed t) : parse (flatten t) = t := by
  induction t with
  | null => exact parse_nil
  | cmd words =>
    refine parse_cmd h.1 ?_
    rw [flatten]
    cases hf : findOp words opList with
    | none => rfl
    | some p =>
      obtain ⟨pre, post, ht, -, -, -⟩ := findOp_split hf
      exact absurd (by simp [ht]) (h.2 p.1)
  | op o l r ihl ihr =>
    obtain ⟨hleft, hright, hl, hr⟩ := h
    have hpre : o.text ∉ flatten l := by
      rw [text_mem_flatten hl]
      intro hm
      exact absurd (hleft o hm) (Nat.lt_irrefl _)
    have hless : ∀ o' : Oper, o'.index < o.index → o'.text ∉ flatten l ++ o.text :: flatten r := by
      intro o' hlt hm
      simp only [List.mem_append, List.mem_cons, text_mem_flatten hl, text_mem_flatten hr,
        Oper.text_injective.eq_iff] at hm
      rcases hm with hm | rfl | hm
      · have := hleft o' hm
        omega
      · omega
      · have := hright o' hm
        omega
    rw [flatten, parse_op (findOp_of_first rfl hpre hless), ihl hl, ihr hr]

/-- `parse` and `flatten` are inverse to each other between the token vectors
and the well-formed trees. -/
theorem parse_flatten_bijective :
    (∀ tokens : List String, WellFormed (parse tokens) ∧ flatten (parse tokens) = tokens) ∧
      ∀ t : Astree, WellFormed t → parse (flatten t) = t :=
  ⟨parse_sound, parse_complete⟩

theorem parse_flatten_pipeline :
    parse ["sort", "|", "tail", "-n", "2", ">", "out"] =
      .op .pipe (.cmd ["sort"]) (.op .rdrOut (.cmd ["tail", "-n", "2"]) (.cmd ["out"])) :=
  parse_flatten_bijective.2
    (.op .pipe (.cmd ["sort"]) (.op .rdrOut (.cmd ["tail", "-n", "2"]) (.cmd ["out"])))
    (by decide)

end Cs3650.Nush
