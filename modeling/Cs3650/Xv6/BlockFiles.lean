import Cs3650.Xv6.BlocksProof

/-!
# Files in blocks are lists of bytes

`readi` and `writei` on blocks are the ones on lists of bytes, whatever inodes
are made, written, freed and read in again, and in whatever order.
-/

namespace Cs3650.Xv6.Blocks

open Cs3650.Lib

section Data

variable {sb : Superblock} {fs fs₁ fs' : Fs} {i j b bn nb k off n fuel : Nat}

/-- A block that is no table may change, and every number stays where it is. -/
theorem addrAt_setBlock {c : Nat}
    (hc : ∀ i', (fs.inode i').addr NDIRECT ≠ 0 → (fs.inode i').addr NDIRECT ≠ c)
    (m : Memory) (i' j' : Nat) : addrAt (fs.setBlock c m) i' j' = addrAt fs i' j' := by
  by_cases htable : (fs.inode i').addr NDIRECT = 0
  · simp only [addrAt, Fs.setBlock, htable, true_or, if_true]
  · have hsame : (fs.setBlock c m).disk ((fs.inode i').addr NDIRECT) =
        fs.disk ((fs.inode i').addr NDIRECT) :=
      Function.update_of_ne (hc i' htable) _ _
    unfold addrAt
    change (if _ then _ else if _ then 0
      else entry ((fs.setBlock c m).disk ((fs.inode i').addr NDIRECT)) _) = _
    rw [hsame]
    rfl

theorem addrAt_setData (ho : Owned sb fs) (hne : addrAt fs i (place bn) ≠ 0) (m : Memory)
    (i' j' : Nat) : addrAt (fs.setBlock (addrAt fs i (place bn)) m) i' j' = addrAt fs i' j' := by
  apply addrAt_setBlock
  intro i' _ heq
  rw [← addrAt_le (le_refl NDIRECT)] at heq
  exact place_ne (ho.inj hne heq).2.symm

theorem Holding.setData (h : Holding sb fs i nb) (hne : addrAt fs i (place bn) ≠ 0) (m : Memory) :
    Holding sb (fs.setBlock (addrAt fs i (place bn)) m) i nb where
  max := h.max
  owned := by
    have hholds : holds (fs.setBlock (addrAt fs i (place bn)) m) = holds fs := by
      funext p
      simp only [holds, addrAt_setData h.owned hne]
    have hused := @used_setBlock _ fs _ m (h.owned.data hne)
    rw [Owned, hholds, hused]
    exact h.owned
  table := h.table
  mapped := by
    intro bn' hbn'
    rw [addrAt_setData h.owned hne]
    exact h.mapped bn' hbn'

theorem bmapstart_lt (sb : Superblock) : sb.bmapstart < sb.nmeta :=
  Nat.lt_of_le_of_lt (Nat.le_add_left ..)
    (sb.bitmap_fit 0 (Nat.lt_of_lt_of_le sb.nmeta_pos sb.nmeta_le))

theorem frame_setData (ho : Owned sb fs) (hne : addrAt fs i (place bn) ≠ 0)
    (m : Memory) : Frame sb fs (fs.setBlock (addrAt fs i (place bn)) m) i where
  inode := fun _ _ => rfl
  same := ⟨(fs.inode i).addrs, rfl⟩
  low := by
    intro c hc
    have hdata := ho.data hne
    have hlow := bmapstart_lt sb
    exact Function.update_of_ne (by omega) _ _
  kept := by
    intro i' j' hi hne'
    exact Function.update_of_ne (fun heq => hi (ho.inj hne heq).1) _ _

/-- The bytes of the file after a write of `m` bytes at offset `o` of block `bn`. -/
theorem byteAt_setData (h : Holding sb fs i nb) (hne : addrAt fs i (place bn) ≠ 0) {o m : Nat}
    (f : Nat → Byte) (hroom : o + m ≤ BSIZE) :
    byteAt (fs.setBlock (addrAt fs i (place bn))
      (patch (fs.disk (addrAt fs i (place bn))) (o : Nat) m f)) i k =
      if bn * BSIZE + o ≤ k ∧ k < bn * BSIZE + o + m then f (k - (bn * BSIZE + o))
      else byteAt fs i k := by
  simp only [byteAt, addrAt_setData h.owned hne]
  have hdiv := Nat.div_add_mod k BSIZE
  have hmod := Nat.mod_lt k (show 0 < BSIZE by decide)
  by_cases hbn : k / BSIZE = bn
  · subst hbn
    simp only [Fs.setBlock, Function.update_self]
    rw [Nat.mul_comm] at hdiv
    by_cases hin : o ≤ k % BSIZE ∧ k % BSIZE < o + m
    · obtain ⟨d, hd⟩ := Nat.exists_eq_add_of_le hin.1
      have hpos : ((k % BSIZE : Nat) : Int) = (o : Int) + d := by omega
      have hidx : k - (k / BSIZE * BSIZE + o) = d := by omega
      rw [hpos, patch_inside _ _ _ _ (by omega), if_pos (by omega), hidx]
    · rw [patch_outside _ _ _ _ (by omega), if_neg (by omega)]
  · have hdiff : addrAt fs i (place (k / BSIZE)) ≠ addrAt fs i (place bn) := by
      intro heq
      exact hbn (place_inj (h.owned.inj hne heq).2)
    simp only [Fs.setBlock, Function.update_of_ne hdiff]
    rw [if_neg]
    intro hin
    apply hbn
    exact Nat.div_eq_of_lt_le (by omega) (by rw [Nat.succ_mul]; omega)

/-- `bmap` for the block at the offset: it is there, or it is the next one. -/
theorem bmap_step (h : Holding sb fs i nb) (hbn : bn ≤ nb) (hmax : bn < NDIRECT + NINDIRECT)
    (hrun : bmap sb fs i bn = some (fs', b)) : ∃ nb', nb' = max nb (bn + 1) ∧ Holding sb fs' i nb' ∧
      Frame sb fs fs' i ∧ addrAt fs' i (place bn) = b ∧ (nb' = nb → fs' = fs) ∧
      ∀ k < nb' * BSIZE, byteAt fs' i k = if k < nb * BSIZE then byteAt fs i k else 0 := by
  by_cases hlt : bn < nb
  · rw [bmap_mapped h hlt hmax] at hrun
    cases hrun
    have hnb : max nb (bn + 1) = nb := by omega
    refine ⟨nb, hnb.symm, h, Frame.refl sb fs i, rfl, fun _ => rfl, ?_⟩
    intro k hk
    rw [if_pos hk]
  · obtain rfl : bn = nb := by omega
    obtain ⟨hh, hframe, haddr, hzero, hbytes⟩ := bmap_next h hmax hrun
    refine ⟨bn + 1, by omega, hh, hframe, haddr, by omega, ?_⟩
    intro k hk
    by_cases hold : k < bn * BSIZE
    · rw [if_pos hold, hbytes k hold]
    · have hdiv : k / BSIZE = bn := Nat.div_eq_of_lt_le (by omega) (by omega)
      rw [if_neg hold, byteAt, hdiv, haddr]
      have hmod := Nat.mod_lt k (show 0 < BSIZE by decide)
      exact hzero _ (by omega) (by omega)

theorem lt_maxfile {off : Nat} (h : off < MAXBYTES) : off / BSIZE < NDIRECT + NINDIRECT := by
  simp only [MAXBYTES] at h
  exact Nat.div_lt_of_lt_mul (by simp only [BSIZE, NDIRECT, NINDIRECT]; omega)

/-- What the loop of `writei` leaves when it has written `src` at `off`. -/
structure Wrote (sb : Superblock) (fs fs' : Fs) (i nb nb' : Nat) (src : List Byte)
    (off : Nat) : Prop where
  holding : Holding sb fs' i nb'
  frame : Frame sb fs fs' i
  more : nb ≤ nb'
  least : nb' = nb ∨ (nb' - 1) * BSIZE < off + src.length
  enough : off + src.length ≤ nb' * BSIZE
  same : nb' = nb → fs'.inode i = fs.inode i
  bytes : ∀ k < nb' * BSIZE, byteAt fs' i k =
    if off ≤ k ∧ k < off + src.length then src.getD (k - off) 0 else if k < nb * BSIZE
    then byteAt fs i k else 0

theorem writeLoop_spec {src : List Byte} {nb off : Nat} (h : Holding sb fs i nb)
    (hoff : off ≤ nb * BSIZE) (hmax : off + src.length ≤ MAXBYTES) (hfuel : src.length ≤ fuel)
    {r : Fs × Nat} (hrun : writeLoop sb i fuel fs src off = some r) :
    r.2 = off + src.length ∧ ∃ nb', Wrote sb fs r.1 i nb nb' src off := by
  induction fuel generalizing fs src nb off with
  | zero =>
    have hnil : src = [] := List.length_eq_zero_iff.mp (by omega)
    subst hnil
    cases hrun
    refine ⟨rfl, nb, h, Frame.refl sb fs i, le_refl _, .inl rfl, hoff, fun _ => rfl, ?_⟩
    intro k hk
    rw [if_neg (by simp only [List.length_nil]; omega), if_pos hk]
  | succ fuel ih =>
    by_cases hsrc : src = []
    · subst hsrc
      simp only [writeLoop, if_true] at hrun
      cases hrun
      refine ⟨rfl, nb, h, Frame.refl sb fs i, le_refl _, .inl rfl, hoff, fun _ => rfl, ?_⟩
      intro k hk
      rw [if_neg (by simp only [List.length_nil]; omega), if_pos hk]
    · simp only [writeLoop, if_neg hsrc] at hrun
      obtain ⟨⟨fs₁, b⟩, hmap, hrest⟩ := Option.bind_eq_some_iff.mp hrun
      have hpos : 0 < src.length := List.length_pos_iff.mpr hsrc
      have hbs : (0 : Nat) < BSIZE := by decide
      have hmod := Nat.mod_lt off hbs
      have hdiv := Nat.div_add_mod off BSIZE
      rw [Nat.mul_comm] at hdiv
      have hbn : off / BSIZE ≤ nb := Nat.div_le_of_le_mul (by rwa [Nat.mul_comm])
      obtain ⟨nb₁, hnb₁, h₁, hframe₁, haddr₁, hsame₁, hbytes₁⟩ :=
        bmap_step h hbn (lt_maxfile (by omega)) hmap
      have hne₁ : addrAt fs₁ i (place (off / BSIZE)) ≠ 0 :=
        (h₁.mapped _ (lt_maxfile (by omega))).mpr (by omega)
      dsimp only at hrest
      rw [← haddr₁] at hrest
      have hm : min src.length (BSIZE - off % BSIZE) ≤ BSIZE - off % BSIZE := Nat.min_le_right ..
      have hmsrc : min src.length (BSIZE - off % BSIZE) ≤ src.length := Nat.min_le_left ..
      have hmpos : 0 < min src.length (BSIZE - off % BSIZE) := by omega
      generalize hmdef : min src.length (BSIZE - off % BSIZE) = m at hrest hm hmsrc hmpos
      have hstop : off + m ≤ nb₁ * BSIZE := by
        have hle : (off / BSIZE + 1) * BSIZE ≤ nb₁ * BSIZE := Nat.mul_le_mul_right _ (by omega)
        rw [Nat.succ_mul] at hle
        omega
      have hdrop : (src.drop m).length = src.length - m := List.length_drop
      obtain ⟨hoff', nb', hw⟩ := ih (h₁.setData hne₁ _) hstop (by omega) (by omega) hrest
      rw [hdrop] at hoff'
      refine ⟨by omega, nb', hw.holding, ?_, ?_, ?_, ?_, ?_, ?_⟩
      · exact (hframe₁.trans (frame_setData h₁.owned hne₁ _)).trans hw.frame
      · exact Nat.le_trans (by omega) hw.more
      · rcases hw.least with heq | hlt
        · by_cases hgrow : nb₁ = nb
          · exact .inl (heq.trans hgrow)
          · right
            have hfirst : nb' - 1 = off / BSIZE := by omega
            rw [hfirst]
            omega
        · right
          rw [hdrop] at hlt
          omega
      · have henough := hw.enough
        rw [hdrop] at henough
        omega
      · intro heq
        have hmore := hw.more
        have hnb : nb₁ = nb := by omega
        have hinode := hw.same (by omega)
        have hfirst : fs₁.inode i = fs.inode i := by rw [hsame₁ hnb]
        exact hinode.trans hfirst
      · intro k hk
        rw [hw.bytes k hk, hdrop]
        by_cases hin : off + m ≤ k ∧ k < off + m + (src.length - m)
        · rw [if_pos hin, if_pos (by omega)]
          have hidx : m + (k - (off + m)) = k - off := by omega
          simp only [List.getD_eq_getElem?_getD, List.getElem?_drop, hidx]
        · rw [if_neg hin]
          by_cases hk₁ : k < nb₁ * BSIZE
          · rw [if_pos hk₁, byteAt_setData h₁ hne₁ _ (by omega), hdiv, hbytes₁ k hk₁]
            by_cases hwrote : off ≤ k ∧ k < off + m
            · rw [if_pos hwrote, if_pos (by omega)]
            · have hout : ¬ (off ≤ k ∧ k < off + src.length) := by omega
              rw [if_neg hwrote, if_neg hout]
          · have hk₀ : ¬ k < nb * BSIZE := by
              have hle : nb * BSIZE ≤ nb₁ * BSIZE := Nat.mul_le_mul_right _ (by omega)
              omega
            rw [if_neg hk₁, if_neg (by omega), if_neg hk₀]

/-- `readi` finds every block it needs. -/
theorem readLoop_spec (h : Holding sb fs i nb) (hend : off + n ≤ nb * BSIZE) (hfuel : n ≤ fuel) :
    readLoop sb i fuel fs off n = some (fs, extent n fun k => byteAt fs i (off + k)) := by
  induction fuel generalizing off n with
  | zero =>
    obtain rfl : n = 0 := by omega
    rfl
  | succ fuel ih =>
    by_cases hn : n = 0
    · subst hn
      simp only [readLoop, if_true]
      rfl
    · have hmod := Nat.mod_lt off (show 0 < BSIZE by decide)
      have hdiv := Nat.div_add_mod off BSIZE
      rw [Nat.mul_comm] at hdiv
      have hbn : off / BSIZE < nb := Nat.div_lt_of_lt_mul (by rw [Nat.mul_comm]; omega)
      have hm : min n (BSIZE - off % BSIZE) ≤ BSIZE - off % BSIZE := Nat.min_le_right ..
      have hmn : min n (BSIZE - off % BSIZE) ≤ n := Nat.min_le_left ..
      have hpos : 0 < min n (BSIZE - off % BSIZE) := by omega
      simp only [readLoop, if_neg hn, bmap_mapped h hbn (hbn.trans_le h.max), Option.bind_some]
      generalize min n (BSIZE - off % BSIZE) = m at hm hmn hpos
      rw [ih (by omega) (by omega), Option.map_some]
      obtain ⟨rest, rfl⟩ := Nat.exists_eq_add_of_le hmn
      rw [Nat.add_sub_cancel_left, extent_add]
      congr 3
      · apply List.map_congr_left
        intro k hk
        have hk := List.mem_range.mp hk
        have hblock : (off + k) / BSIZE = off / BSIZE :=
          Nat.div_eq_of_lt_le (by omega) (by rw [Nat.succ_mul]; omega)
        have hat : (off + k) % BSIZE = off % BSIZE + k := by
          have hsplit := Nat.div_add_mod (off + k) BSIZE
          rw [hblock, Nat.mul_comm] at hsplit
          omega
        simp only [byteAt, hblock, hat]
      · simp only [Nat.add_assoc]

end Data

section OnDisk

variable {sb : Superblock} {fs fs' : Fs} {i j nb : Nat} {m m' : Memory} {p : Int} {d : Dinode}

/-- The fields fit their types. -/
structure Dinode.Small (d : Dinode) : Prop where
  type : d.type < 2 ^ 16
  major : d.major < 2 ^ 16
  minor : d.minor < 2 ^ 16
  nlink : d.nlink < 2 ^ 16

theorem getInode_congr (h : ∀ x : Int, p ≤ x → x < p + DINODE → m' x = m x) :
    getInode m' p = getInode m p := by
  have hload (q : Int) (w : Nat) (h1 : p ≤ q) (h2 : q + w ≤ p + DINODE) :
      load m' q w = load m q w :=
    load_congr fun x hx hx' => h x (by omega) (by omega)
  simp only [DINODE] at hload
  simp only [getInode]
  rw [hload p 2 (by omega) (by omega), hload (p + 2) 2 (by omega) (by omega),
    hload (p + 4) 2 (by omega) (by omega),
    hload (p + 6) 2 (by omega) (by omega), hload (p + 8) 4 (by omega) (by omega)]
  congr 1
  funext k
  exact hload _ 4 (by omega) (by omega)

theorem putInode_outside {x : Int} (h : x < p ∨ p + DINODE ≤ x) : putInode m p d x = m x := by
  simp only [DINODE] at h
  simp only [putInode, store]
  rw [patch_outside _ _ _ _ (by omega), patch_outside _ _ _ _ (by omega),
    patch_outside _ _ _ _ (by omega),
    patch_outside _ _ _ _ (by omega), patch_outside _ _ _ _ (by omega),
    patch_outside _ _ _ _ (by omega)]

/-- What `iupdate` writes, `ilock` reads. -/
theorem getInode_putInode (hs : d.Small) (hsize : d.size < 2 ^ 32)
    (haddr : ∀ j, d.addr j < 2 ^ 32) : getInode (putInode m p d) p = d := by
  have hpatch (m : Memory) (q : Int) (w : Nat) (hq : p ≤ q) (h2 : q + w ≤ p + 12) (f : Nat → Byte) :
      load (patch m (p + 12) 52 f) q w = load m q w := load_patch_outside _ _ _ _ (by omega)
  have hout (m : Memory) (a b : Int) (w w' v : Nat) (h : b + w' ≤ a ∨ a + w ≤ b) :
      load (store m a w v) b w' = load m b w' := load_store_outside m a w v h
  have haddrs (k : Fin 13) : load (putInode m p d) (p + 12 + 4 * k.val) 4 = d.addrs k := by
    have hk := k.isLt
    have hdk : d.addr k.val = d.addrs k := by simp only [Dinode.addr, hk, dite_true]
    have hdigits : load (putInode m p d) (p + 12 + 4 * k.val) 4 = d.addr k.val % 256 ^ 4 := by
      apply load_digits
      intro n hn
      have hpos : p + 12 + 4 * (k.val : Int) + n = p + 12 + ((4 * k.val + n : Nat) : Int) := by
        omega
      have hquot : (4 * k.val + n) / 4 = k.val := by omega
      have hrem : (4 * k.val + n) % 4 = n := by omega
      simp only [putInode]
      rw [hpos, patch_inside _ _ _ _ (by omega), hquot, hrem]
    rw [hdigits, ← hdk]
    exact Nat.mod_eq_of_lt (haddr k.val)
  apply Dinode.ext
  · simp only [getInode, putInode]
    rw [hpatch _ _ _ (by omega) (by omega), hout _ _ _ _ _ _ (by omega),
      hout _ _ _ _ _ _ (by omega),
      hout _ _ _ _ _ _ (by omega), hout _ _ _ _ _ _ (by omega), load_store]
    exact Nat.mod_eq_of_lt hs.type
  · simp only [getInode, putInode]
    rw [hpatch _ _ _ (by omega) (by omega), hout _ _ _ _ _ _ (by omega),
      hout _ _ _ _ _ _ (by omega), hout _ _ _ _ _ _ (by omega), load_store]
    exact Nat.mod_eq_of_lt hs.major
  · simp only [getInode, putInode]
    rw [hpatch _ _ _ (by omega) (by omega), hout _ _ _ _ _ _ (by omega),
      hout _ _ _ _ _ _ (by omega), load_store]
    exact Nat.mod_eq_of_lt hs.minor
  · simp only [getInode, putInode]
    rw [hpatch _ _ _ (by omega) (by omega), hout _ _ _ _ _ _ (by omega), load_store]
    exact Nat.mod_eq_of_lt hs.nlink
  · simp only [getInode, putInode]
    rw [hpatch _ _ _ (by omega) (by omega), load_store]
    exact Nat.mod_eq_of_lt hsize
  · funext k
    exact haddrs k

/-- Inodes of one block are apart. -/
theorem ioffset_apart {i' : Nat} (hblock : iblock sb i' = iblock sb i) (hne : i' ≠ i) :
    ioffset i' + DINODE ≤ ioffset i ∨ ioffset i + DINODE ≤ ioffset i' := by
  simp only [iblock, ioffset, IPB, DINODE] at *
  omega

/-- An inode is put on the disk. -/
theorem dinode_putInode (hs : d.Small) (hsize : d.size < 2 ^ 32) (haddr : ∀ j, d.addr j < 2 ^ 32)
    (i' : Nat) :
    dinode sb (fs.setBlock (iblock sb i) (putInode (fs.disk (iblock sb i)) (ioffset i) d)).disk i' =
      if i' = i then d else dinode sb fs.disk i' := by
  unfold dinode
  by_cases hi : i' = i
  · subst hi
    simp only [if_true, Fs.setBlock, Function.update_self]
    exact getInode_putInode hs hsize haddr
  · rw [if_neg hi]
    by_cases hblock : iblock sb i' = iblock sb i
    · simp only [Fs.setBlock, hblock, Function.update_self]
      have hapart := ioffset_apart hblock hi
      exact getInode_congr fun x hx hx' => putInode_outside (by omega)
    · simp only [Fs.setBlock, Function.update_of_ne hblock]

end OnDisk

section Contents

variable {sb : Superblock} {fs fs' : Fs} {i i' j k nb off n : Nat} {d : Dinode} {src : List Byte}

/-- The blocks a file of this size has. -/
def blocks (size : Nat) : Nat := (size + (BSIZE - 1)) / BSIZE

theorem le_blocks (size : Nat) : size ≤ blocks size * BSIZE := by
  simp only [blocks, BSIZE]
  omega

theorem blocks_of_least {size nb : Nat} (hle : size ≤ nb * BSIZE)
    (hleast : nb = 0 ∨ (nb - 1) * BSIZE < size) : nb = blocks size := by
  simp only [blocks, BSIZE] at *
  omega

def contents (fs : Fs) (i : Nat) : List Byte := extent (fs.inode i).size (byteAt fs i)

/-- What holds between two calls. -/
structure Ok (sb : Superblock) (fs : Fs) : Prop where
  holding : ∀ i, Holding sb fs i (blocks (fs.inode i).size)
  small : ∀ i, (fs.inode i).Small
  max : ∀ i, (fs.inode i).size ≤ MAXBYTES
  synced : ∀ i < sb.ninodes, dinode sb fs.disk i = fs.inode i
  free : ∀ i, (fs.inode i).type = 0 → (fs.inode i).size = 0

theorem Ok.owned (h : Ok sb fs) : Owned sb fs := (h.holding 0).owned

theorem addr_lt (ho : Owned sb fs) (i j : Nat) : (fs.inode i).addr j < 2 ^ 32 := by
  by_cases h0 : (fs.inode i).addr j = 0
  · rw [h0]
    decide
  · have hj : j ≤ NDIRECT := by
      by_contra hj
      have hlt : ¬ j < 13 := fun hlt => hj (Nat.le_of_lt_succ hlt)
      exact h0 (by simp only [Dinode.addr, hlt, dite_false])
    rw [← addrAt_le hj] at h0 ⊢
    exact (ho.mem_used h0).1.trans sb.size_lt

/-- Blocks below the bitmap may change, and the fields of the inodes beside `addrs`. -/
theorem addrAt_congr (ho : Owned sb fs) (haddr : ∀ i j, (fs'.inode i).addr j = (fs.inode i).addr j)
    (hdisk : ∀ c, sb.bmapstart ≤ c → fs'.disk c = fs.disk c) (i j : Nat) :
    addrAt fs' i j = addrAt fs i j := by
  simp only [addrAt, haddr]
  by_cases htable : (fs.inode i).addr NDIRECT = 0
  · simp only [htable, true_or, if_true]
  · have hdata := ho.data (i := i) (j := NDIRECT) (by rwa [addrAt_le (le_refl _)])
    rw [addrAt_le (le_refl _)] at hdata
    have hlow := bmapstart_lt sb
    rw [hdisk _ (by omega)]

theorem Holding.congr (h : Holding sb fs i nb)
    (haddr : ∀ i j, (fs'.inode i).addr j = (fs.inode i).addr j)
    (hdisk : ∀ c, sb.bmapstart ≤ c → fs'.disk c = fs.disk c) : Holding sb fs' i nb where
  owned := by
    have hholds : holds fs' = holds fs := by
      funext p
      simp only [holds, addrAt_congr h.owned haddr hdisk]
    have hused : used sb fs'.disk = used sb fs.disk := used_congr fun c hc _ => hdisk c hc
    rw [Owned, hholds, hused]
    exact h.owned
  max := h.max
  table := by rw [haddr]; exact h.table
  mapped := fun bn hbn => by rw [addrAt_congr h.owned haddr hdisk]; exact h.mapped bn hbn

theorem byteAt_congr (ho : Owned sb fs) (haddr : ∀ i j, (fs'.inode i).addr j = (fs.inode i).addr j)
    (hdisk : ∀ c, sb.bmapstart ≤ c → fs'.disk c = fs.disk c)
    (hne : addrAt fs i (place (k / BSIZE)) ≠ 0) : byteAt fs' i k = byteAt fs i k := by
  have hdata := ho.data hne
  have hlow := bmapstart_lt sb
  rw [byteAt, byteAt, addrAt_congr ho haddr hdisk, hdisk _ (by omega)]

theorem Frame.holding (h : Frame sb fs fs' i) (ho : Owned sb fs') (hi : i' ≠ i)
    (hh : Holding sb fs i' nb) : Holding sb fs' i' nb where
  owned := ho
  max := hh.max
  table := by rw [h.inode i' hi]; exact hh.table
  mapped := fun bn hbn => by rw [h.addrAt_eq hi]; exact hh.mapped bn hbn

/-- A file that another call left alone. -/
structure Untouched (fs fs' : Fs) (i : Nat) : Prop where
  inode : fs'.inode i = fs.inode i
  places : ∀ j, addrAt fs' i j = addrAt fs i j
  contents : contents fs' i = contents fs i

theorem Untouched.refl (fs : Fs) (i : Nat) : Untouched fs fs i := ⟨rfl, fun _ => rfl, rfl⟩

theorem Untouched.trans {fs₁ : Fs} (h : Untouched fs fs₁ i) (h' : Untouched fs₁ fs' i) :
    Untouched fs fs' i :=
  ⟨h'.inode.trans h.inode, fun j => (h'.places j).trans (h.places j), h'.contents.trans h.contents⟩

theorem Frame.untouched (h : Frame sb fs fs' i) (hok : Ok sb fs) (hi : i' ≠ i) :
    Untouched fs fs' i' where
  inode := h.inode i' hi
  places := fun _ => h.addrAt_eq hi
  contents := by
    rw [contents, contents, h.inode i' hi]
    refine extent_congr fun k hk => h.byteAt_eq hi ((hok.holding i').ne_zero ?_)
    exact hk.trans_le (le_blocks _)

/-- An inode is changed beside its `addrs`, and written to the disk. -/
def save (sb : Superblock) (fs : Fs) (i : Nat) (d : Dinode) : Fs := iupdate sb (fs.setInode i d) i

theorem save_inode : (save sb fs i d).inode i' = if i' = i then d else fs.inode i' := by
  simp only [save, iupdate, Fs.setBlock, Fs.setInode, Function.update_apply]

theorem save_addr (hd : d.addrs = (fs.inode i).addrs) (i' j : Nat) :
    ((save sb fs i d).inode i').addr j = (fs.inode i').addr j := by
  rw [save_inode]
  split
  · next hi =>
    subst hi
    simp only [Dinode.addr, hd]
  · rfl

theorem save_disk (hi : i < sb.ninodes) (c : Nat) (hc : sb.bmapstart ≤ c) :
    (save sb fs i d).disk c = fs.disk c := by
  have hlt := sb.inodes_fit i hi
  exact Function.update_of_ne (by simp only [iblock]; omega) _ _

/-- After a change to one file, and the `iupdate` of its inode. -/
theorem Frame.save_ok (h : Frame sb fs fs' i) (hok : Ok sb fs) (hi : i < sb.ninodes)
    (hd : d.addrs = (fs'.inode i).addrs)
    (hholding : Holding sb fs' i (blocks d.size)) (hsmall : d.Small) (hmax : d.size ≤ MAXBYTES)
    (hfree : d.type = 0 → d.size = 0) :
    Ok sb (save sb fs' i d) ∧ (∀ i', i' ≠ i → Untouched fs (save sb fs' i d) i') ∧
      ∀ k < d.size, byteAt (save sb fs' i d) i k = byteAt fs' i k := by
  have haddr := @save_addr sb _ _ _ hd
  have hdisk := @save_disk _ fs' _ d hi
  have ho := hholding.owned
  have hinode (i' : Nat) : (save sb fs' i d).inode i' = if i' = i then d else fs.inode i' := by
    rw [save_inode]
    split
    · rfl
    · next hne => exact h.inode i' hne
  refine ⟨⟨?_, ?_, ?_, ?_, ?_⟩, ?_, ?_⟩
  · intro i'
    rw [hinode]
    split
    · next heq => exact heq ▸ hholding.congr haddr hdisk
    · next hne => exact (h.holding ho hne (hok.holding i')).congr haddr hdisk
  · intro i'
    rw [hinode]
    split
    · exact hsmall
    · exact hok.small i'
  · intro i'
    rw [hinode]
    split
    · exact hmax
    · exact hok.max i'
  · intro i' hi'
    have hlt : d.size < 2 ^ 32 := Nat.lt_of_le_of_lt hmax (by decide)
    have haddrs (j : Nat) : d.addr j < 2 ^ 32 := by
      have hj := addr_lt ho i j
      simp only [Dinode.addr, ← hd] at hj
      exact hj
    have hput := @dinode_putInode sb (fs'.setInode i d) i _ hsmall hlt haddrs i'
    have hsame : (fs'.setInode i d).inode i = d := Function.update_self ..
    rw [hinode, save, iupdate, hsame, hput]
    split
    · rfl
    · next hne =>
      rw [← hok.synced i' hi']
      have hlow := h.low (iblock sb i') (sb.inodes_fit i' hi')
      simp only [dinode, Fs.setInode, hlow]
  · intro i'
    rw [hinode]
    split
    · exact hfree
    · exact hok.free i'
  · intro i' hne
    have hu := h.untouched hok hne
    refine ⟨by rw [hinode, if_neg hne], fun j =>
      (addrAt_congr ho haddr hdisk i' j).trans (hu.places j), ?_⟩
    rw [← hu.contents, contents, contents, hinode, if_neg hne, h.inode i' hne]
    refine extent_congr fun k hk => byteAt_congr ho haddr hdisk ?_
    rw [h.addrAt_eq hne]
    exact (hok.holding i').ne_zero (hk.trans_le (le_blocks _))
  · exact fun k hk => byteAt_congr ho haddr hdisk (hholding.ne_zero (hk.trans_le (le_blocks _)))

/-- After a change to the data of one file that its inode does not show. -/
theorem Frame.ok_same (h : Frame sb fs fs' i) (hok : Ok sb fs) (hsame : fs'.inode i = fs.inode i)
    (hholding : Holding sb fs' i (blocks (fs.inode i).size)) : Ok sb fs' := by
  have hinode (i' : Nat) : fs'.inode i' = fs.inode i' := by
    by_cases hi : i' = i
    · rw [hi, hsame]
    · exact h.inode i' hi
  refine ⟨?_, ?_, ?_, ?_, ?_⟩
  · intro i'
    rw [hinode]
    by_cases hi : i' = i
    · rwa [hi]
    · exact h.holding hholding.owned hi (hok.holding i')
  · exact fun i' => (hinode i').symm ▸ hok.small i'
  · exact fun i' => (hinode i').symm ▸ hok.max i'
  · intro i' hi'
    rw [hinode, ← hok.synced i' hi']
    have hlow := h.low (iblock sb i') (sb.inodes_fit i' hi')
    simp only [dinode, hlow]
  · exact fun i' => (hinode i').symm ▸ hok.free i'

theorem contents_length (fs : Fs) (i : Nat) : (contents fs i).length = (fs.inode i).size :=
  length_extent

/-- `readi` on blocks allocates nothing and reads the list of bytes. -/
theorem readi_spec (h : Ok sb fs) {ip : Inode} (hdev : ip.type ≠ .dev)
    (hip : ip.data = contents fs i)
    (got : Option (List Byte)) : readi sb fs i off n = some (fs, Xv6.readi ip got off n) := by
  have hlen : ip.data.length = (fs.inode i).size := by rw [hip, contents_length]
  unfold readi Xv6.readi
  rw [if_neg hdev, hlen]
  split
  · rfl
  · next hgood =>
    have hn : off + (if off + n > (fs.inode i).size then (fs.inode i).size - off else n) ≤
        (fs.inode i).size := by
      split <;> omega
    generalize (if off + n > (fs.inode i).size then (fs.inode i).size - off else n) = n' at hn
    dsimp only
    rw [readLoop_spec (h.holding i) (hn.trans (le_blocks _)) (le_refl _), Option.map_some]
    have hslice := slice_extent (f := byteAt fs i) (n := (fs.inode i).size) off n'
    rw [Nat.min_eq_left (by omega)] at hslice
    rw [hip, contents, ← hslice]
    rfl

/-- What `writei` leaves in the file, its inode with it. -/
theorem Wrote.contents_eq {src : List Byte} {fs₁ : Fs} {nb' : Nat}
    (hw : Wrote sb fs fs₁ i (blocks (fs.inode i).size) nb' src off)
    (hoff : off ≤ (fs.inode i).size)
    (hsize : (fs'.inode i).size = max (fs.inode i).size (off + src.length))
    (hbytes : ∀ k < (fs'.inode i).size, byteAt fs' i k = byteAt fs₁ i k) :
    contents fs' i =
    (contents fs i).take off ++ src ++ (contents fs i).drop (off + src.length) := by
  have hle := le_blocks (fs.inode i).size
  have henough := hw.enough
  have hmore : blocks (fs.inode i).size * BSIZE ≤ nb' * BSIZE := Nat.mul_le_mul_right _ hw.more
  refine extent_splice 0 hoff hsize fun k hk => ?_
  rw [hbytes k hk]
  rw [hsize] at hk
  have hk' : k < (fs.inode i).size ∨ k < off + src.length := by omega
  rw [hw.bytes k (by omega)]
  split
  · rfl
  · next hout => rw [if_pos (by omega)]

theorem writei_spec (h : Ok sb fs) (hi : i < sb.ninodes) (htype : (fs.inode i).type ≠ 0)
    {ip : Inode}
    (hdev : ip.type ≠ .dev) (hip : ip.data = contents fs i) {r : Fs × Int}
    (hrun : writei sb fs i src off = some r) :
    Ok sb r.1 ∧ (∀ i', i' ≠ i → Untouched fs r.1 i') ∧ (r.1.inode i).type = (fs.inode i).type ∧
      contents r.1 i = (Xv6.writei ip src off).1.data ∧ r.2 = (Xv6.writei ip src off).2 := by
  have hlen : ip.data.length = (fs.inode i).size := by rw [hip, contents_length]
  unfold Xv6.writei
  rw [if_neg hdev, hlen]
  unfold writei at hrun
  split at hrun
  · next hbad =>
    cases hrun
    rw [if_pos hbad]
    exact ⟨h, fun i' _ => Untouched.refl fs i', rfl, hip.symm, rfl⟩
  · next hgood =>
    rw [if_neg hgood]
    split at hrun
    · next hbig =>
      cases hrun
      rw [dif_pos hbig]
      exact ⟨h, fun i' _ => Untouched.refl fs i', rfl, hip.symm, rfl⟩
    · next hfits =>
      rw [dif_neg hfits]
      obtain ⟨⟨fs₁, off'⟩, hloop, rfl⟩ := Option.map_eq_some_iff.mp hrun
      have hle := le_blocks (fs.inode i).size
      have hoff : off ≤ (fs.inode i).size := by omega
      obtain ⟨hoff', nb', hw⟩ :=
        writeLoop_spec (h.holding i) (hoff.trans hle) (by omega) (le_refl _) hloop
      dsimp only at hoff'
      subst hoff'
      have hsize₁ : (fs₁.inode i).size = (fs.inode i).size := by
        obtain ⟨a, ha⟩ := hw.frame.same
        rw [ha]
      have hrest : (fs₁.inode i).type = (fs.inode i).type ∧ (fs₁.inode i).Small := by
        obtain ⟨a, ha⟩ := hw.frame.same
        have hs := h.small i
        rw [ha]
        exact ⟨rfl, hs.type, hs.major, hs.minor, hs.nlink⟩
      have hleast : blocks (fs.inode i).size = 0 ∨ (blocks (fs.inode i).size - 1) * BSIZE <
          (fs.inode i).size := by
        simp only [blocks, BSIZE]
        omega
      have hcases := hw.least
      have henough := hw.enough
      dsimp only
      rw [hsize₁, hip]
      by_cases hgrow : 0 < src.length ∧ off + src.length > (fs.inode i).size
      · rw [if_pos hgrow]
        have hnb : nb' = blocks (off + src.length) := by
          refine blocks_of_least henough ?_
          rcases hcases with heq | hlt
          · rw [heq]
            exact hleast.imp_right fun hlt => hlt.trans hgrow.2
          · exact .inr hlt
        have hsaved :=
          hw.frame.save_ok (d := { fs₁.inode i with size := off + src.length }) h hi rfl
            (hnb ▸ hw.holding)
          ⟨hrest.2.type, hrest.2.major, hrest.2.minor, hrest.2.nlink⟩ (by dsimp only; omega)
          fun h0 => absurd (hrest.1.symm.trans h0) htype
        obtain ⟨hok, huntouched, hbytes⟩ := hsaved
        have hinode : (save sb fs₁ i { fs₁.inode i with size := off + src.length }).inode i =
            { fs₁.inode i with size := off + src.length } := by rw [save_inode, if_pos rfl]
        have hsize' := congrArg Dinode.size hinode
        dsimp only at hsize'
        refine ⟨hok, huntouched, ?_, ?_, rfl⟩
        · exact (congrArg Dinode.type hinode).trans hrest.1
        · refine hw.contents_eq hoff ?_ ?_
          · exact hsize'.trans (Nat.max_eq_right (by omega)).symm
          · exact fun k hk => hbytes k (Nat.lt_of_lt_of_eq hk hsize')
      · rw [if_neg hgrow]
        have hin : off + src.length ≤ (fs.inode i).size := by omega
        have hnb : nb' = blocks (fs.inode i).size := by
          rcases hcases with heq | hlt
          · exact heq
          · have hmore := hw.more
            simp only [BSIZE] at hlt hle
            omega
        subst hnb
        have hsame := hw.same rfl
        refine ⟨hw.frame.ok_same h hsame hw.holding, fun i' hne => hw.frame.untouched h hne,
          hrest.1, ?_, rfl⟩
        refine hw.contents_eq hoff ?_ fun _ _ => rfl
        exact hsize₁.trans (Nat.max_eq_left hin).symm

end Contents

end Cs3650.Xv6.Blocks
