import Cs3650.Nush.Script
import Mathlib.Order.Lattice
import Mathlib.Order.Nat

/-!
# Reading a script

As long as no other process moves the offset, `fgets` returns one line after the other,
if they fit into the buffer, and the stream has no byte left just where a block
of the file or the file itself ends.
-/

namespace Cs3650.Nush

/-! ## Lines -/

theorem length_line_pos {text line : List Char} (h : line ∈ lines text) : 0 < line.length := by
  induction text generalizing line with
  | nil => simp [lines] at h
  | cons c text ih =>
    by_cases hc : c = '\n'
    · simp only [lines, if_pos hc, List.mem_cons] at h
      rcases h with rfl | h
      · simp
      · exact ih h
    · cases hl : lines text with
      | nil =>
        simp only [lines, if_neg hc, hl, List.mem_singleton] at h
        simp [h]
      | cons first rest =>
        simp only [lines, if_neg hc, hl, List.mem_cons] at h
        rcases h with rfl | h
        · simp
        · exact ih (by simp [hl, h])

theorem lines_eq_nil {text : List Char} (h : lines text = []) : text = [] := by
  cases text with
  | nil => rfl
  | cons c text =>
    by_cases hc : c = '\n'
    · simp [lines, hc] at h
    · cases hl : lines text with
      | nil => simp [lines, hc, hl] at h
      | cons line rest => simp [lines, hc, hl] at h

theorem lines_flatten (text : List Char) : (lines text).flatten = text := by
  induction text with
  | nil => rfl
  | cons c text ih =>
    by_cases hc : c = '\n'
    · simp [lines, hc, ih]
    · cases hl : lines text with
      | nil =>
        rw [hl] at ih
        simp [lines, hc, ← ih]
      | cons line rest =>
        rw [hl] at ih
        simpa [lines, hc, hl] using ih

/-! ## The stream -/

section Reading

variable {blksize : Nat} {text : List Char}

theorem length_fgets (n : Nat) (st : Stream) (f : File) :
    (fgets blksize text n st f).1.length ≤ n := by
  induction n generalizing st f with
  | zero => simp [fgets]
  | succ n ih =>
    rw [fgets]
    dsimp only
    split
    · simp
    · split
      · simp
      · simpa using ih _ _

/-- The end of the block that the byte before `p` is in. -/
def blockEnd (blksize size p : Nat) : Nat := min size ((p + blksize - 1) / blksize * blksize)

/-- A process has used the first `p` bytes of the script, and no other process has
moved the offset. -/
structure Regular (blksize : Nat) (text : List Char) (p : Nat) (st : Stream) (f : File) : Prop where
  late : f.late = []
  offset : f.offset = blockEnd blksize text.length p
  unread : st.unread = (text.drop p).take (f.offset - p)
  within : p ≤ text.length
  eof : st.eof = true → p = text.length

theorem blockEnd_le (blksize size p : Nat) : blockEnd blksize size p ≤ size := min_le_left _ _

theorem le_blockEnd (hblk : 0 < blksize) {p size : Nat} (hp : p ≤ size) :
    p ≤ blockEnd blksize size p := by
  refine le_min hp ?_
  have hdiv := Nat.div_add_mod (p + blksize - 1) blksize
  have hmod := Nat.mod_lt (p + blksize - 1) hblk
  rw [Nat.mul_comm] at hdiv
  omega

theorem blockEnd_dvd (hblk : 0 < blksize) {p size : Nat} (h : blksize ∣ p) (hp : p ≤ size) :
    blockEnd blksize size p = p := by
  obtain ⟨q, rfl⟩ := h
  have hdiv : (blksize * q + blksize - 1) / blksize = q := by
    rw [show blksize * q + blksize - 1 = (blksize - 1) + blksize * q by omega,
      Nat.add_mul_div_left _ _ hblk, Nat.div_eq_of_lt (by omega), Nat.zero_add]
  rw [blockEnd, hdiv, Nat.mul_comm, min_eq_right hp]

theorem dvd_of_blockEnd {p size : Nat} (hp : p < size) (h : blockEnd blksize size p = p) :
    blksize ∣ p := by
  unfold blockEnd at h
  have hmul : (p + blksize - 1) / blksize * blksize = p := by omega
  exact ⟨_, by rw [Nat.mul_comm]; exact hmul.symm⟩

/-- The end of the block moves with `p` only where a block ends. -/
theorem blockEnd_succ (hblk : 0 < blksize) {p size : Nat} (hp : p < size) :
    blockEnd blksize size (p + 1) =
      if blockEnd blksize size p = p then min size (p + blksize) else blockEnd blksize size p := by
  have hnext : (p + 1 + blksize - 1) / blksize = p / blksize + 1 := by
    rw [show p + 1 + blksize - 1 = p + blksize by omega, Nat.add_div_right _ hblk]
  split
  · next h =>
    obtain ⟨q, rfl⟩ := dvd_of_blockEnd hp h
    rw [blockEnd, hnext, Nat.mul_div_cancel_left _ hblk, Nat.succ_mul, Nat.mul_comm q]
  · next h =>
    have hmod : p % blksize ≠ 0 := fun h0 => h (blockEnd_dvd hblk (Nat.dvd_of_mod_eq_zero h0) hp.le)
    have hpos : 0 < p := Nat.pos_of_ne_zero fun h0 => hmod (by rw [h0, Nat.zero_mod])
    have hsame : (p + blksize - 1) / blksize = p / blksize + 1 := by
      rw [show p + blksize - 1 = (p - 1) + blksize by omega, Nat.add_div_right _ hblk]
      have hdiv := Nat.div_add_mod p blksize
      have hlt := Nat.mod_lt p hblk
      have hpred : (p - 1) / blksize = p / blksize := by
        rw [show p - 1 = (p % blksize - 1) + blksize * (p / blksize) by omega,
          Nat.add_mul_div_left _ _ hblk, Nat.div_eq_of_lt (by omega), Nat.zero_add]
      rw [hpred]
    rw [blockEnd, blockEnd, hnext, hsame]

theorem settle_of_nil {f : File} (h : f.late = []) : f.settle = f := by
  cases f
  subst h
  rfl

theorem drop_eq_cons {p : Nat} (hp : p < text.length) :
    text.drop p = text[p] :: text.drop (p + 1) :=
  List.drop_eq_getElem_cons hp

/-- After `fill` there is a byte in the stream, if the script has one left. -/
theorem Regular.fill (hblk : 0 < blksize) {p : Nat} {st : Stream} {f : File}
    (h : Regular blksize text p st f) (hp : p < text.length) :
    ∃ rest f', st.fill blksize text f = (⟨text[p] :: rest, false⟩, f') ∧
      Regular blksize text (p + 1) ⟨rest, false⟩ f' := by
  have heof : st.eof = false := by
    cases he : st.eof with
    | false => rfl
    | true => exact absurd (h.eof he) (Nat.ne_of_lt hp)
  have hle : p ≤ f.offset := by
    rw [h.offset]
    exact le_blockEnd hblk h.within
  have hsucc := blockEnd_succ hblk hp
  have htake : ∀ m, 0 < m → (text.drop p).take m = text[p] :: (text.drop (p + 1)).take (m - 1) := by
    intro m hm
    obtain ⟨m, rfl⟩ := Nat.exists_eq_succ_of_ne_zero (Nat.ne_of_gt hm)
    rw [drop_eq_cons hp, List.take_succ_cons, Nat.succ_sub_one]
  cases hunread : st.unread with
  | nil =>
    have hoff : f.offset = p := by
      by_contra hne
      rw [h.unread, htake _ (by omega)] at hunread
      cases hunread
    rw [if_pos (h.offset.symm.trans hoff)] at hsucc
    have hread : f.read blksize text = ((text.drop p).take blksize,
        { f with offset := p + ((text.drop p).take blksize).length, reads := f.reads + 1 }) := by
      unfold File.read
      rw [settle_of_nil h.late]
      dsimp only
      rw [hoff]
    rw [htake _ hblk] at hread
    refine ⟨(text.drop (p + 1)).take (blksize - 1),
      { f with
        offset := p + (text[p] :: (text.drop (p + 1)).take (blksize - 1)).length
        reads := f.reads + 1 }, ?_, h.late, ?_, ?_, hp, fun he => by cases he⟩
    · unfold Stream.fill
      rw [if_neg (by simp [hunread, heof]), hread]
      rfl
    · simp only [List.length_cons, List.length_take, List.length_drop]
      rw [hsucc]
      omega
    · simp only [List.length_cons, List.length_take, List.length_drop]
      rw [List.take_eq_take_iff]
      simp only [List.length_drop]
      omega
  | cons c rest =>
    have hoff : p < f.offset := by
      by_contra hge
      rw [h.unread, show f.offset - p = 0 by omega] at hunread
      cases hunread
    have hall := h.unread
    rw [htake _ (by omega), hunread, List.cons.injEq] at hall
    obtain ⟨rfl, rfl⟩ := hall
    rw [h.offset] at hoff
    rw [if_neg (Nat.ne_of_gt hoff)] at hsucc
    refine ⟨(text.drop (p + 1)).take (f.offset - p - 1), f, ?_, h.late, h.offset.trans hsucc.symm,
      ?_, hp, fun he => by cases he⟩
    · unfold Stream.fill
      rw [if_pos (by simp [hunread])]
      cases st
      subst heof hunread
      rfl
    · rw [show f.offset - p - 1 = f.offset - (p + 1) by omega]

theorem Regular.end (hblk : 0 < blksize) {st : Stream} {f : File}
    (h : Regular blksize text text.length st f) (n : Nat) :
    ∃ st' f', fgets blksize text n st f = ([], st', f') ∧
      Regular blksize text text.length st' f' := by
  have hunread : st.unread = [] := by simpa using h.unread
  have hoff : f.offset = text.length := by
    have hle : text.length ≤ blockEnd blksize text.length text.length :=
      le_blockEnd hblk (Nat.le_refl _)
    have hge := blockEnd_le blksize text.length text.length
    rw [h.offset]
    omega
  cases n with
  | zero => exact ⟨st, f, rfl, h⟩
  | succ n =>
    cases heof : st.eof with
    | true =>
      have hfill : st.fill blksize text f = (st, f) := if_pos (Or.inr heof)
      exact ⟨st, f, by simp [fgets, hfill, hunread], h⟩
    | false =>
      have hread : f.read blksize text = ([], { f with reads := f.reads + 1 }) := by
        unfold File.read
        rw [settle_of_nil h.late]
        simp [hoff]
      have hfill : st.fill blksize text f = (⟨[], true⟩, { f with reads := f.reads + 1 }) := by
        unfold Stream.fill
        rw [if_neg (by simp [hunread, heof]), hread]
        rfl
      refine ⟨⟨[], true⟩, { f with reads := f.reads + 1 }, by simp [fgets, hfill], h.late, h.offset,
        by simp, Nat.le_refl _, fun _ => rfl⟩

/-- `fgets` returns the next line, if it fits into the buffer. -/
theorem Regular.line (hblk : 0 < blksize) {p n : Nat} {st : Stream} {f : File}
    (h : Regular blksize text p st f) {line : List Char} {ls : List (List Char)}
    (hline : lines (text.drop p) = line :: ls) (hfit : line.length ≤ n) :
    ∃ st' f', fgets blksize text n st f = (line, st', f') ∧
      Regular blksize text (p + line.length) st' f' ∧ lines (text.drop (p + line.length)) = ls := by
  induction n generalizing p st f line ls with
  | zero =>
    have hpos := length_line_pos (show line ∈ lines (text.drop p) by simp [hline])
    omega
  | succ n ih =>
    have hp : p < text.length := by
      by_contra hge
      rw [List.drop_eq_nil_of_le (Nat.le_of_not_lt hge)] at hline
      cases hline
    obtain ⟨rest, f₁, hfill, h₁⟩ := h.fill hblk hp
    rw [drop_eq_cons hp, lines] at hline
    by_cases hc : text[p] = '\n'
    · rw [if_pos hc, List.cons.injEq] at hline
      obtain ⟨rfl, rfl⟩ := hline
      refine ⟨⟨rest, false⟩, f₁, ?_, h₁, rfl⟩
      simp [fgets, hfill, hc]
    · rw [if_neg hc] at hline
      cases hl : lines (text.drop (p + 1)) with
      | nil =>
        rw [hl, List.cons.injEq] at hline
        obtain ⟨rfl, rfl⟩ := hline
        have hend : p + 1 = text.length := by
          have hnil := lines_eq_nil hl
          rw [List.drop_eq_nil_iff] at hnil
          omega
        rw [hend] at h₁
        obtain ⟨st', f', hnone, h'⟩ := h₁.end hblk n
        refine ⟨st', f', ?_, by simpa [hend] using h', by simpa using hl⟩
        simp [fgets, hfill, hc, hnone]
      | cons first ls' =>
        rw [hl, List.cons.injEq] at hline
        obtain ⟨rfl, rfl⟩ := hline
        obtain ⟨st', f', hrest, h', hls⟩ := ih h₁ hl (by simpa using hfit)
        refine ⟨st', f', ?_, ?_, ?_⟩
        · simp [fgets, hfill, hc, hrest]
        · rwa [List.length_cons, ← Nat.add_assoc, Nat.add_right_comm]
        · rwa [List.length_cons, ← Nat.add_assoc, Nat.add_right_comm]

/-- Behind a line that is not the last one, the stream has no byte left only at
the end of a block. -/
theorem Regular.unread_eq_nil_iff (hblk : 0 < blksize) {p : Nat} {st : Stream} {f : File}
    (h : Regular blksize text p st f) (hp : p < text.length) :
    st.unread.length = 0 ↔ blksize ∣ p := by
  have hle := le_blockEnd hblk h.within
  have hend := blockEnd_le blksize text.length p
  rw [h.unread, List.length_take, List.length_drop, h.offset]
  constructor
  · intro hzero
    exact dvd_of_blockEnd hp (by omega)
  · intro hdvd
    rw [blockEnd_dvd hblk hdvd h.within]
    omega

/-! ## What is still to be read -/

variable (text) in
/-- The bytes that a process has still to use. -/
def remaining (st : Stream) (f : File) : Nat := st.unread.length + (text.length - f.offset)

/-- The offset is in the file, and the stream is at the end only if nothing remains. -/
structure Readable (text : List Char) (st : Stream) (f : File) : Prop where
  late : f.late = []
  within : f.offset ≤ text.length
  eof : st.eof = true → st.unread = [] ∧ f.offset = text.length

theorem Regular.readable (hblk : 0 < blksize) {p : Nat} {st : Stream} {f : File}
    (h : Regular blksize text p st f) : Readable text st f := by
  refine ⟨h.late, h.offset.trans_le (blockEnd_le _ _ p), fun heof => ?_⟩
  obtain rfl := h.eof heof
  refine ⟨by simp [h.unread], h.offset.trans (le_antisymm (blockEnd_le _ _ _) ?_)⟩
  exact le_blockEnd hblk (Nat.le_refl _)

theorem Regular.remaining (hblk : 0 < blksize) {p : Nat} {st : Stream} {f : File}
    (h : Regular blksize text p st f) : Nush.remaining text st f = text.length - p := by
  have hle := le_blockEnd hblk h.within
  have hend := blockEnd_le blksize text.length p
  unfold Nush.remaining
  rw [h.unread, List.length_take, List.length_drop, h.offset]
  omega

theorem Readable.fill (hblk : 0 < blksize) {st : Stream} {f : File} (h : Readable text st f) :
    Readable text (st.fill blksize text f).1 (st.fill blksize text f).2 ∧
      remaining text (st.fill blksize text f).1 (st.fill blksize text f).2 = remaining text st f ∧
      ((st.fill blksize text f).1.unread = [] → remaining text st f = 0) := by
  unfold Stream.fill
  split
  · next hkeep =>
    refine ⟨h, rfl, fun hnil => ?_⟩
    have hempty : st.unread = [] := hnil
    obtain ⟨-, hend⟩ := h.eof (hkeep.resolve_left fun hne => hne hempty)
    simp [remaining, hempty, hend]
  · next hread =>
    obtain ⟨hnil, -⟩ : st.unread = [] ∧ st.eof = false := by simpa using hread
    have hwithin := h.within
    have hlen :
        ((text.drop f.offset).take blksize).length = min blksize (text.length - f.offset) := by
      rw [List.length_take, List.length_drop]
    have hbytes : f.read blksize text = ((text.drop f.offset).take blksize,
        { f with
          offset := f.offset + ((text.drop f.offset).take blksize).length
          reads := f.reads + 1 }) := by
      unfold File.read
      rw [settle_of_nil h.late]
    rw [hbytes]
    refine ⟨⟨h.late, ?_, fun heof => ?_⟩, ?_, fun hempty => ?_⟩
    · dsimp only
      omega
    · have hempty : (text.drop f.offset).take blksize = [] := List.isEmpty_iff.mp heof
      refine ⟨hempty, ?_⟩
      dsimp only
      rw [hempty, List.length_nil] at hlen
      rw [hempty, List.length_nil]
      omega
    · simp only [remaining, hnil, List.length_nil]
      omega
    · have hzero : ((text.drop f.offset).take blksize).length = 0 :=
        List.length_eq_zero_iff.mpr hempty
      simp only [remaining, hnil, List.length_nil]
      omega

/-- What `fgets` returns no longer remains; it returns nothing only at the end. -/
theorem Readable.fgets (hblk : 0 < blksize) {st : Stream} {f : File} (h : Readable text st f)
    (n : Nat) {cmd : List Char} {st' : Stream} {f' : File}
    (hget : fgets blksize text n st f = (cmd, st', f')) :
    Readable text st' f' ∧ cmd.length + remaining text st' f' = remaining text st f ∧
      (0 < n → cmd = [] → remaining text st f = 0) := by
  induction n generalizing st f cmd st' f' with
  | zero =>
    cases hget
    exact ⟨h, Nat.zero_add _, fun hn => absurd hn (Nat.lt_irrefl 0)⟩
  | succ n ih =>
    obtain ⟨h₁, hsame, hend⟩ := h.fill hblk
    rw [Nush.fgets] at hget
    dsimp only at hget
    cases hunread : (st.fill blksize text f).1.unread with
    | nil =>
      rw [hunread] at hget
      cases hget
      exact ⟨h₁, by rw [List.length_nil, Nat.zero_add, hsame], fun _ _ => hend hunread⟩
    | cons c rest =>
      have hrest : Readable text { (st.fill blksize text f).1 with unread := rest }
          (st.fill blksize text f).2 := by
        refine ⟨h₁.late, h₁.within, fun heof => ?_⟩
        obtain ⟨hnil, -⟩ := h₁.eof heof
        rw [hunread] at hnil
        cases hnil
      have hone : 1 + remaining text { (st.fill blksize text f).1 with unread := rest }
          (st.fill blksize text f).2 = remaining text st f := by
        rw [← hsame]
        simp only [remaining, hunread, List.length_cons]
        omega
      rw [hunread] at hget
      dsimp only at hget
      split at hget
      · cases hget
        exact ⟨hrest, hone, fun _ hnil => by cases hnil⟩
      · cases hnext : Nush.fgets blksize text n { (st.fill blksize text f).1 with unread := rest }
            (st.fill blksize text f).2 with
        | mk cmd' more =>
          obtain ⟨st'', f''⟩ := more
          rw [hnext] at hget
          cases hget
          obtain ⟨hreadable, hsum, -⟩ := ih hrest hnext
          refine ⟨hreadable, ?_, fun _ hnil => by cases hnil⟩
          show cmd'.length + 1 + remaining text st'' f'' = remaining text st f
          omega

end Reading

end Cs3650.Nush
