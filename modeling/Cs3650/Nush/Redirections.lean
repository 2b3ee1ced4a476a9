import Cs3650.Nush.Implement
import Cs3650.Nush.TokenRuns

/-!
# Several redirections on one line

`parse` (`astree.c:54-88`) looks for `>` before `<` and splits at the first
one, and what stands behind it becomes the second branch. `rdr_in_cmd` and
`rdr_out_cmd` (`implement.c:259-307`) take the file name from the words of
that branch, which are there only if no further redirection is in it.
-/

namespace Cs3650.Nush

structure Redirection where
  oper : Oper
  redirects : oper = .rdrIn ∨ oper = .rdrOut
  file : String

/-- A word without white space and operator characters. -/
def PlainWord (w : String) : Prop := w ≠ "" ∧ ∀ c ∈ w.toList, charKind c = some false

instance (w : String) : Decidable (PlainWord w) :=
  decidable_of_iff (w ≠ "" ∧ w.toList.all fun c => charKind c == some false)
    (by simp only [List.all_eq_true, beq_iff_eq, PlainWord])

/-- The words of a command, then its redirections. -/
def commandTokens (words : List String) (redirs : List Redirection) : List String :=
  words ++ redirs.flatMap fun r => [r.oper.text, r.file]

/-- The operators of a tree with their second branches, in the order of the line. -/
def nodes : Astree → List (Oper × Astree)
  | .op o l r => nodes l ++ (o, r) :: nodes r
  | _ => []

def innermost : Astree → Astree
  | .op _ l _ => innermost l
  | t => t

/-- Every redirection node has the name of its own file, which is the one word
of its second branch, and the words are the leaf inside all of them; so the
name is never read from a node without words. -/
structure NamesFiles (words : List String) (redirs : List Redirection) (t : Astree) : Prop where
  files : nodes t = redirs.map fun r => (r.oper, .cmd [r.file])
  command : innermost t = .cmd words
  readable : ∀ o branch2, (o, branch2) ∈ nodes t → (fileName branch2).isSome = true

theorem map_fst_nodes (t : Astree) : (nodes t).map Prod.fst = opers t := by
  induction t with
  | null => rfl
  | cmd words => rfl
  | op o l r ihl ihr => simp [nodes, opers, ihl, ihr]

/-- Nodes whose second branches are leaves bind the stronger the further left
they stand. -/
theorem opers_pairwise {t : Astree} (h : WellFormed t)
    (hleaf : ∀ n ∈ nodes t, ∃ words, n.2 = .cmd words) :
    (opers t).Pairwise fun o o' => o'.index < o.index := by
  induction t with
  | null => exact List.Pairwise.nil
  | cmd words => exact List.Pairwise.nil
  | op o l r ihl ihr =>
    obtain ⟨hleft, -, hl, -⟩ := h
    obtain ⟨words, hr⟩ := hleaf (o, r) (by simp [nodes])
    dsimp only at hr
    subst hr
    simp only [opers, List.pairwise_append, List.pairwise_cons, List.mem_singleton]
    refine ⟨ihl hl fun n hn => hleaf n (by simp [nodes, hn]), ⟨by simp, .nil⟩, ?_⟩
    intro o' ho' o'' ho''
    rw [ho'']
    exact hleft o' ho'

theorem PlainWord.no_operator {w : String} (h : PlainWord w) (o : Oper) : o.text ≠ w := by
  rintro rfl
  revert h
  cases o <;> decide

/-- The tree that is meant: every redirection is put around what is left of it. -/
def around (t : Astree) (redirs : List Redirection) : Astree :=
  redirs.foldl (fun t r => .op r.oper t (.cmd [r.file])) t

theorem flatten_around (t : Astree) (redirs : List Redirection) :
    flatten (around t redirs) = flatten t ++ redirs.flatMap fun r => [r.oper.text, r.file] := by
  induction redirs generalizing t with
  | nil => simp [around]
  | cons r rest ih =>
    have hrest := ih (.op r.oper t (.cmd [r.file]))
    simpa [around, flatten] using hrest

theorem nodes_around (t : Astree) (redirs : List Redirection) :
    nodes (around t redirs) = nodes t ++ redirs.map fun r => (r.oper, .cmd [r.file]) := by
  induction redirs generalizing t with
  | nil => simp [around]
  | cons r rest ih =>
    have hrest := ih (.op r.oper t (.cmd [r.file]))
    simpa [around, nodes] using hrest

theorem innermost_around (t : Astree) (redirs : List Redirection) :
    innermost (around t redirs) = innermost t := by
  induction redirs generalizing t with
  | nil => rfl
  | cons r rest ih => exact ih (.op r.oper t (.cmd [r.file]))

theorem wellFormed_around {t : Astree} {redirs : List Redirection} (ht : WellFormed t)
    (hfiles : ∀ r ∈ redirs, PlainWord r.file)
    (horder : (opers t ++ redirs.map Redirection.oper).Pairwise fun o o' => o'.index < o.index) :
    WellFormed (around t redirs) := by
  induction redirs generalizing t with
  | nil => exact ht
  | cons r rest ih =>
    have hfile : WellFormed (.cmd [r.file]) := by
      refine ⟨by simp, fun o ho => ?_⟩
      exact (hfiles r (by simp)).no_operator o (List.mem_singleton.mp ho)
    have hinner : ∀ o ∈ opers t, r.oper.index < o.index := by
      intro o ho
      exact (List.pairwise_append.mp horder).2.2 o ho r.oper (by simp)
    refine ih ⟨hinner, by simp [opers], ht, hfile⟩ (fun r' hr' => hfiles r' (by simp [hr'])) ?_
    simpa [opers] using horder

/-- The orders of redirections in which an operator binds stronger than all
that follow it. -/
theorem decreasing_iff {redirs : List Redirection} (hne : redirs ≠ []) :
    (redirs.map Redirection.oper).Pairwise (fun o o' => o'.index < o.index) ↔
      redirs.map Redirection.oper ∈ [[Oper.rdrIn], [.rdrOut], [.rdrIn, .rdrOut]] := by
  have hoper : ∀ r : Redirection, 5 ≤ r.oper.index ∧ r.oper.index ≤ 6 := by
    intro r
    rcases r.redirects with hr | hr <;> rw [hr] <;> decide
  match redirs with
  | [] => exact absurd rfl hne
  | [r] => rcases r.redirects with hr | hr <;> simp [hr]
  | [r, r'] =>
    rcases r.redirects with hr | hr <;> rcases r'.redirects with hr' | hr' <;>
      simp [hr, hr', Oper.index]
  | r :: r' :: r'' :: rest =>
    have h := hoper r
    have h' := hoper r''
    simp only [List.map_cons, List.pairwise_cons, List.mem_cons, List.cons.injEq, reduceCtorEq,
      and_false, List.not_mem_nil, or_self, iff_false]
    intro ⟨h1, h2, _⟩
    have hfirst := h1 r'.oper (Or.inl rfl)
    have hsecond := h2 r''.oper (Or.inl rfl)
    omega

/-- The tokens of the command are those of a line with spaces between them. -/
theorem tokenize_commandTokens {words : List String} {redirs : List Redirection}
    (hplain : ∀ w ∈ words, PlainWord w) (hfiles : ∀ r ∈ redirs, PlainWord r.file) :
    tokenize (" ".intercalate (commandTokens words redirs)).toList =
    commandTokens words redirs := by
  apply tokenize_intercalate
  intro w hw
  have hoper : ∀ o : Oper, o.text ≠ "" ∧ ∃ k, ∀ c ∈ o.text.toList, charKind c = some k := by
    intro o
    have hall : (o.text.toList.all fun c => charKind c == some true) = true := by
      cases o <;> decide
    refine ⟨by cases o <;> decide, true, ?_⟩
    simpa only [List.all_eq_true, beq_iff_eq] using hall
  rcases List.mem_append.mp hw with hw | hw
  · exact ⟨(hplain w hw).1, false, (hplain w hw).2⟩
  · obtain ⟨r, hr, hw⟩ := List.mem_flatMap.mp hw
    rcases List.mem_cons.mp hw with rfl | hw
    · exact hoper r.oper
    · rw [List.mem_singleton.mp hw]
      exact ⟨(hfiles r hr).1, false, (hfiles r hr).2⟩

/-- A line of words and redirections is parsed as it is meant exactly if it has
one redirection, or `<` before `>`. -/
theorem redirections_parse_iff (words : List String) (redirs : List Redirection)
    (hwords : words ≠ []) (hredirs : redirs ≠ []) (hplain : ∀ w ∈ words, PlainWord w)
    (hfiles : ∀ r ∈ redirs, PlainWord r.file) (line : List Char)
    (hline : tokenize line = commandTokens words redirs) :
    NamesFiles words redirs (parse (tokenize line)) ↔
      redirs.map Redirection.oper ∈ [[Oper.rdrIn], [.rdrOut], [.rdrIn, .rdrOut]] := by
  rw [← decreasing_iff hredirs, hline]
  constructor
  · intro h
    obtain ⟨hwf, -⟩ := parse_sound (commandTokens words redirs)
    have hopers : opers (parse (commandTokens words redirs)) = redirs.map Redirection.oper := by
      rw [← map_fst_nodes, h.files, List.map_map]
      rfl
    rw [← hopers]
    apply opers_pairwise hwf
    intro n hn
    rw [h.files] at hn
    obtain ⟨r, -, rfl⟩ := List.mem_map.mp hn
    exact ⟨[r.file], rfl⟩
  · intro h
    have hcmd : WellFormed (.cmd words) :=
      ⟨hwords, fun o ho => (hplain _ ho).no_operator o rfl⟩
    have hparse : parse (commandTokens words redirs) = around (.cmd words) redirs := by
      have hcomplete := parse_complete _ (wellFormed_around hcmd hfiles h)
      rwa [flatten_around] at hcomplete
    have hfiles' : nodes (parse (commandTokens words redirs)) =
        redirs.map fun r => (r.oper, .cmd [r.file]) := by
      rw [hparse, nodes_around]
      rfl
    refine ⟨hfiles', ?_, ?_⟩
    · rw [hparse, innermost_around]
      rfl
    · intro o branch2 hmem
      rw [hfiles'] at hmem
      obtain ⟨r, -, hr⟩ := List.mem_map.mp hmem
      obtain ⟨-, rfl⟩ := Prod.mk.inj hr
      rfl

/-- `sort < in > out`. -/
theorem in_then_out_parses :
    NamesFiles ["sort"] [⟨.rdrIn, .inl rfl, "in"⟩, ⟨.rdrOut, .inr rfl, "out"⟩]
      (parse (tokenize "sort < in > out".toList)) :=
  (redirections_parse_iff ["sort"] [⟨.rdrIn, .inl rfl, "in"⟩, ⟨.rdrOut, .inr rfl, "out"⟩]
    (by decide) (by simp) (by decide) (by decide) "sort < in > out".toList (by decide)).mpr
    (by decide)

/-- `sort > out < in` has the second redirection in the branch of the first. -/
theorem out_then_in_misparsed :
    ¬ ∀ (words : List String) (redirs : List Redirection), words ≠ [] → redirs ≠ [] →
      (∀ w ∈ words, PlainWord w) → (∀ r ∈ redirs, PlainWord r.file) → ∀ line,
      tokenize line = commandTokens words redirs →
      NamesFiles words redirs (parse (tokenize line)) := by
  intro hclaim
  have hnames := hclaim ["sort"] [⟨.rdrOut, .inr rfl, "out"⟩, ⟨.rdrIn, .inl rfl, "in"⟩]
    (by decide) (by simp) (by decide) (by decide) "sort > out < in".toList (by decide)
  have hparse : parse (tokenize "sort > out < in".toList) =
      .op .rdrOut (.cmd ["sort"]) (.op .rdrIn (.cmd ["out"]) (.cmd ["in"])) :=
    parse_complete
      (.op .rdrOut (.cmd ["sort"]) (.op .rdrIn (.cmd ["out"]) (.cmd ["in"]))) (by decide)
  have hread := hnames.readable .rdrOut (.op .rdrIn (.cmd ["out"]) (.cmd ["in"]))
    (by rw [hparse]; simp [nodes])
  exact absurd hread (by decide)

end Cs3650.Nush
