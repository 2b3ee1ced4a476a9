import Cs3650.Lib.Memory
import Mathlib.Data.List.DropRight

/-!
# Strings and paths (hw10/starter-fshw/slist.c, util.h; dirname and basename)

A string is the list of its bytes before the NUL.
-/

namespace Cs3650.Nufs

open Cs3650.Lib

abbrev Str := List Byte

def nul : Byte := 0
def slash : Byte := 47

/-- `s_split` on a text of at most `fuel` bytes. -/
def splitFuel (delim : Byte) : Nat → Str → List Str
  | 0, _ => []
  | fuel + 1, text =>
    if text = [] then []
    else
      let plen := (text.takeWhile fun c => c != delim).length
      let skip := if (text.drop plen).head? = some delim then 1 else 0
      text.take plen :: splitFuel delim fuel (text.drop (plen + skip))

def sSplit (text : Str) (delim : Byte) : List Str := splitFuel delim text.length text

/-- An absolute path; `tree_lookup` asserts the leading slash. -/
structure Path where
  text : Str
  absolute : text.head? = some slash
  noNul : nul ∉ text

namespace Path

def root : Path := ⟨[slash], rfl, by decide⟩

end Path

def isSlash (c : Byte) : Bool := c == slash

/-- The text up to the slash before the last component. -/
def parentText (t : Str) : Str :=
  let s := t.rdropWhile isSlash
  if s = [] then t else s.rdropWhile fun c => !isSlash c

/-- `dirname`; two leading slashes alone stay two. -/
def dirnameText (t : Str) : Str :=
  let d := parentText t
  let s := d.rdropWhile isSlash
  if s = [] then if d.length = 2 then [slash, slash] else [slash] else s

/-- The `basename` of libgen.h. -/
def basenameText (t : Str) : Str :=
  let s := t.rdropWhile isSlash
  if s = [] then [slash] else s.rtakeWhile fun c => !isSlash c

/-- `join_to_path` on a copy of `aa`. -/
def pathJoinText (aa bb : Str) : Str :=
  if aa.getLast? = some slash then aa ++ bb else aa ++ slash :: bb

theorem parentText_initial (t : Str) : parentText t <+: t := by
  unfold parentText
  dsimp only
  split
  · exact List.prefix_rfl
  · exact (List.rdropWhile_prefix _ _).trans (List.rdropWhile_prefix _ _)

theorem dirnameText_cases (t : Str) :
    dirnameText t = [slash] ∨ dirnameText t = [slash, slash] ∨
      (dirnameText t ≠ [] ∧ dirnameText t <+: t) := by
  unfold dirnameText
  dsimp only
  by_cases h : (parentText t).rdropWhile isSlash = []
  · rw [if_pos h]
    by_cases hlen : (parentText t).length = 2
    · exact Or.inr (Or.inl (if_pos hlen))
    · exact Or.inl (if_neg hlen)
  · rw [if_neg h]
    exact Or.inr (Or.inr ⟨h, (List.rdropWhile_prefix _ _).trans (parentText_initial t)⟩)

namespace Path

def dirname (p : Path) : Path where
  text := dirnameText p.text
  absolute := by
    rcases dirnameText_cases p.text with h | h | ⟨hne, hpre⟩
    · rw [h]
      rfl
    · rw [h]
      rfl
    · obtain ⟨c, cs, hd⟩ := List.exists_cons_of_ne_nil hne
      obtain ⟨rest, ht⟩ := hpre
      have habs := p.absolute
      rw [← ht, hd] at habs
      rw [hd]
      exact habs
  noNul := by
    rcases dirnameText_cases p.text with h | h | ⟨-, hpre⟩
    · rw [h]
      decide
    · rw [h]
      decide
    · exact fun hmem => p.noNul (hpre.subset hmem)

def basename (p : Path) : Str := basenameText p.text

/-- `path_join`; `strcat` copies the item up to a NUL. -/
def join (p : Path) (item : Str) : Path where
  text := pathJoinText p.text (item.takeWhile fun c => c != nul)
  absolute := by
    obtain ⟨c, cs, ht⟩ := List.exists_cons_of_ne_nil (l := p.text)
      (fun h => by simpa [h] using p.absolute)
    have habs := p.absolute
    rw [ht] at habs
    unfold pathJoinText
    by_cases h : p.text.getLast? = some slash
    · rw [if_pos h, ht]
      exact habs
    · rw [if_neg h, ht]
      exact habs
  noNul := by
    have hp := p.noNul
    have hitem : nul ∉ item.takeWhile fun c => c != nul := fun hmem => by
      simpa using List.mem_takeWhile_imp hmem
    unfold pathJoinText
    by_cases h : p.text.getLast? = some slash
    · rw [if_pos h]
      simp [hp, hitem]
    · rw [if_neg h]
      have hns : nul ≠ slash := by decide
      simp [hp, hitem, hns]

theorem join_text (p : Path) {item : Str} (h : nul ∉ item) :
    (p.join item).text = pathJoinText p.text item := by
  have htake : (item.takeWhile fun c => c != nul) = item := by
    rw [List.takeWhile_eq_self_iff]
    intro c hc
    have hne : c ≠ nul := fun he => h (he ▸ hc)
    simpa using hne
  show pathJoinText p.text (item.takeWhile fun c => c != nul) = _
  rw [htake]

end Path

end Cs3650.Nufs
