import Cs3650.Xv6.FileTable

/-!
# Reading a file to its end (hw09/starter-hw09/xv6: file.c)

`fileread` once more, with the lock of the inode: it is taken before `readi` and
given back only beside a positive value. At the end of the file `readi` returns
0, and the code behind the `if` panics with the lock held.
-/

namespace Cs3650.Xv6

open Cs3650.Lib

/-- A kernel and the inodes locked by the process that reads; nobody else holds them. -/
structure Machine where
  kernel : Kernel
  held : Nat → Bool

inductive Outcome
  | returned (m : Machine) (r : Int) (bytes : List Byte)
  | panic (m : Machine)

namespace Outcome

def machine : Outcome → Machine
  | .returned m _ _ => m
  | .panic m => m

def value : Outcome → Option Int
  | .returned _ r _ => some r
  | .panic _ => none

def bytes : Outcome → List Byte
  | .returned _ _ bytes => bytes
  | .panic _ => []

/-- What is left of it without the locks. -/
def erase : Outcome → Option (Kernel × Int × List Byte)
  | .returned m r bytes => some (m.kernel, r, bytes)
  | .panic _ => none

end Outcome

namespace Machine

def ilock (m : Machine) (ip : Nat) : Machine := { m with held := Function.update m.held ip true }
def iunlock (m : Machine) (ip : Nat) : Machine := { m with held := Function.update m.held ip false }
def setFile (m : Machine) (s : Slot) (f : File) : Machine :=
  { m with kernel := m.kernel.setFile s f }

def file (m : Machine) (s : Slot) : File := m.kernel.file s

def fileread (m : Machine) (s : Slot) (n : Nat) (got : Option (List Byte)) : Outcome :=
  let f := m.file s
  if f.readable = false then .returned m (-1) []
  else
    match f.type with
    | .pipe =>
      let r := delivered got n
      .returned (m.setFile s { f with readBytes := uint (f.readBytes + n) }) r.1 r.2
    | .inode =>
      let m₁ := m.ilock f.ip
      let r := readi (m.kernel.inode f.ip) got f.off n
      if r.1 > 0 then
        let m₂ := m₁.setFile s
          { f with off := uint (f.off + r.1.toNat), readBytes := uint (f.readBytes + n) }
        .returned (m₂.iunlock f.ip) r.1 r.2
      -- past the `if` there is nothing but the panic
      else .panic m₁
    | .none => .panic m

theorem fileread_erase (m : Machine) (s : Slot) (n : Nat) (got : Option (List Byte)) :
    (m.fileread s n got).erase = Xv6.fileread m.kernel s n got := by
  unfold fileread Xv6.fileread file
  dsimp only
  by_cases hr : (m.kernel.file s).readable = false
  · rw [if_pos hr, if_pos hr]
    rfl
  rw [if_neg hr, if_neg hr]
  cases (m.kernel.file s).type with
  | none => rfl
  | pipe => rfl
  | inode =>
    dsimp only [ilock]
    by_cases hv : (readi (m.kernel.inode (m.kernel.file s).ip) got (m.kernel.file s).off n).1 > 0
    · rw [if_pos hv, if_pos hv]
      rfl
    · rw [if_neg hv, if_neg hv]
      rfl

/-- The calls of a loop that reads until the value is 0 or less, `turns` of them at most. -/
def readLoop (s : Slot) (n : Nat) : Nat → Machine → List Outcome
  | 0, _ => []
  | turns + 1, m =>
    match m.fileread s n none with
    | .panic m' => [.panic m']
    | .returned m' r bytes =>
      .returned m' r bytes :: if r ≤ 0 then [] else readLoop s n turns m'

def data (m : Machine) (s : Slot) : List Byte := (m.kernel.inode (m.file s).ip).data
def rest (m : Machine) (s : Slot) : List Byte := (m.data s).drop (m.file s).off

/-- The slot is a readable regular file, read to a place inside it. -/
structure Reads (m : Machine) (s : Slot) : Prop where
  readable : (m.file s).readable = true
  type : (m.file s).type = .inode
  regular : (m.kernel.inode (m.file s).ip).type = .file
  inside : (m.file s).off ≤ (m.data s).length

/-- Some number of calls reads the file to its end: none panics or keeps the lock, together they
give what is left, and the last one returns 0. -/
def ReadsToEnd (m : Machine) (s : Slot) (n : Nat) : Prop :=
  ∃ turns, let calls := m.readLoop s n turns
    (∀ o ∈ calls, o.value.isSome ∧ o.machine.held (m.file s).ip = false) ∧
      calls.flatMap Outcome.bytes = m.rest s ∧ calls.getLast?.bind Outcome.value = some 0

variable {m : Machine} {s : Slot} {n : Nat}

theorem rest_eq_nil (h : m.Reads s) : m.rest s = [] ↔ (m.file s).off = (m.data s).length := by
  have := h.inside
  simp only [rest, List.drop_eq_nil_iff]
  omega

theorem length_rest (m : Machine) (s : Slot) :
    (m.rest s).length = (m.data s).length - (m.file s).off := List.length_drop

theorem readi_inside (h : m.Reads s) (hw : (m.file s).off + n < 2 ^ 32) :
    readi (m.kernel.inode (m.file s).ip) none (m.file s).off n =
      (((min n (m.rest s).length : Nat) : Int), (m.rest s).take n) := by
  have hin := h.inside
  have hreg : (m.kernel.inode (m.file s).ip).type ≠ .dev := by rw [h.regular]; decide
  have hbad : ¬((m.file s).off > (m.kernel.inode (m.file s).ip).data.length ∨
      2 ^ 32 ≤ (m.file s).off + n) := by
    change ¬((m.file s).off > (m.data s).length ∨ _)
    omega
  unfold readi
  rw [if_neg hreg, if_neg hbad]
  change (((if (m.file s).off + n > (m.data s).length then (m.data s).length - (m.file s).off
    else n : Nat) : Int),
    (m.rest s).take (if (m.file s).off + n > (m.data s).length
      then (m.data s).length - (m.file s).off else n)) = _
  rw [← length_rest]
  have hl := length_rest m s
  by_cases hshort : (m.file s).off + n > (m.data s).length
  · rw [if_pos hshort, min_eq_right (by omega), List.take_length, List.take_of_length_le (by omega)]
  · rw [if_neg hshort, min_eq_left (by omega)]

theorem fileread_inode (hr : (m.file s).readable = true) (ht : (m.file s).type = .inode) :
    m.fileread s n none =
      let r := readi (m.kernel.inode (m.file s).ip) none (m.file s).off n
      if r.1 > 0 then
        .returned (((m.ilock (m.file s).ip).setFile s { m.file s with
          off := uint ((m.file s).off + r.1.toNat)
          readBytes := uint ((m.file s).readBytes + n) }).iunlock (m.file s).ip) r.1 r.2
      else .panic (m.ilock (m.file s).ip) := by
  have hr : ¬(m.file s).readable = false := by rw [hr]; decide
  unfold fileread
  dsimp only
  rw [if_neg hr, ht]

/-- At the end of the file the call stops in the panic, and the inode stays locked. -/
theorem fileread_end (h : m.Reads s) (hend : m.rest s = []) :
    m.fileread s n none = .panic (m.ilock (m.file s).ip) := by
  have hoff := (rest_eq_nil h).mp hend
  have hv : ¬(readi (m.kernel.inode (m.file s).ip) none (m.file s).off n).1 > 0 := by
    by_cases hw : (m.file s).off + n < 2 ^ 32
    · rw [readi_inside h hw, hend]
      simp
    · have hreg : (m.kernel.inode (m.file s).ip).type ≠ .dev := by rw [h.regular]; decide
      unfold readi
      rw [if_neg hreg, if_pos (Or.inr (by omega))]
      decide
  rw [fileread_inode h.readable h.type, if_neg hv]

theorem fileread_more (h : m.Reads s) (hn : 0 < n) (hw : (m.file s).off + n < 2 ^ 32)
    (hmore : m.rest s ≠ []) :
    ∃ m', m.fileread s n none = .returned m' (min n (m.rest s).length : Nat) ((m.rest s).take n) ∧
      m'.Reads s ∧ m'.data s = m.data s ∧ (m'.file s).ip = (m.file s).ip ∧
      (m'.file s).off = (m.file s).off + min n (m.rest s).length ∧
      m'.held (m.file s).ip = false := by
  have hlen := length_rest m s
  have hfits : (m.data s).length ≤ MAXBYTES := (m.kernel.inode (m.file s).ip).fits
  have hpos : 0 < (m.rest s).length := List.length_pos_of_ne_nil hmore
  have hin := h.inside
  have hv : ((min n (m.rest s).length : Nat) : Int) > 0 := by omega
  let f : File := { m.file s with
    off := uint ((m.file s).off + ((min n (m.rest s).length : Nat) : Int).toNat)
    readBytes := uint ((m.file s).readBytes + n) }
  have hoff : f.off = (m.file s).off + min n (m.rest s).length := by
    change uint _ = _
    rw [Int.toNat_natCast]
    exact Nat.mod_eq_of_lt (by unfold MAXBYTES at hfits; omega)
  let m' := ((m.ilock (m.file s).ip).setFile s f).iunlock (m.file s).ip
  have hf : m'.file s = f := Function.update_self ..
  have hdata : m'.data s = m.data s := by
    unfold data
    rw [hf]
    rfl
  refine ⟨m', ?_, ⟨?_, ?_, ?_, ?_⟩, hdata, by rw [hf], by rw [hf, hoff], ?_⟩
  · rw [fileread_inode h.readable h.type, readi_inside h hw, if_pos hv]
  · rw [hf]
    exact h.readable
  · rw [hf]
    exact h.type
  · rw [hf]
    exact h.regular
  · rw [hf, hoff, hdata]
    omega
  · simp [m', iunlock]

/-- A call on an inode file returns nothing but positive values. -/
theorem fileread_positive (hr : (m.file s).readable = true) (ht : (m.file s).type = .inode)
    {m' : Machine} {r : Int} {bytes : List Byte} (h : m.fileread s n none = .returned m' r bytes) :
    0 < r ∧ (m'.file s).readable = true ∧ (m'.file s).type = .inode := by
  rw [fileread_inode hr ht] at h
  dsimp only at h
  split at h
  · rename_i hv
    injection h with hm hr' hb
    subst hm hr' hb
    have hf : ∀ f, ((((m.ilock (m.file s).ip).setFile s f).iunlock (m.file s).ip).file s) = f :=
      fun f => Function.update_self ..
    rw [hf]
    exact ⟨hv, hr, ht⟩
  · cases h

theorem readLoop_positive (turns : Nat) (hr : (m.file s).readable = true)
    (ht : (m.file s).type = .inode) : ∀ o ∈ m.readLoop s n turns, o.value ≠ some 0 := by
  induction turns generalizing m with
  | zero => exact fun o ho => absurd ho List.not_mem_nil
  | succ turns ih =>
    unfold readLoop
    cases hc : m.fileread s n none with
    | panic m' =>
      intro o ho
      obtain rfl := List.mem_singleton.mp ho
      exact nofun
    | returned m' r bytes =>
      obtain ⟨hpos, hr', ht'⟩ := fileread_positive hr ht hc
      dsimp only
      rw [if_neg (not_le.mpr hpos)]
      intro o ho
      rcases List.mem_cons.mp ho with rfl | ho
      · intro h0
        have : r = 0 := Option.some.inj h0
        omega
      · exact ih hr' ht' o ho

/-- The loop gives all that is left, in order and unlocked after each call, and then panics. -/
theorem readLoop_delivers (turns : Nat) (h : m.Reads s) (hn : 0 < n)
    (hw : m.rest s ≠ [] → (m.file s).off + n < 2 ^ 32) (ht : (m.rest s).length < turns) :
    ∃ calls m', m.readLoop s n turns = calls ++ [.panic m'] ∧
      (∀ o ∈ calls, o.value.isSome ∧ o.machine.held (m.file s).ip = false) ∧
      calls.flatMap Outcome.bytes = m.rest s ∧ m'.held (m.file s).ip = true := by
  induction turns generalizing m with
  | zero => omega
  | succ turns ih =>
    unfold readLoop
    by_cases hend : m.rest s = []
    · rw [fileread_end h hend, hend]
      exact ⟨[], _, rfl, fun o ho => absurd ho List.not_mem_nil, rfl, Function.update_self ..⟩
    have hpos : 0 < (m.rest s).length := List.length_pos_of_ne_nil hend
    obtain ⟨m₁, hcall, h₁, hdata, hip, hoff, hfree⟩ := fileread_more h hn (hw hend) hend
    have hrest : m₁.rest s = (m.rest s).drop n := by
      unfold rest
      rw [hdata, hoff, List.drop_drop, length_rest]
      by_cases hshort : n ≤ (m.data s).length - (m.file s).off
      · rw [min_eq_left hshort]
      · have := h.inside
        rw [min_eq_right (by omega), List.drop_of_length_le (by omega),
          List.drop_of_length_le (by omega)]
    have hnext : m₁.rest s ≠ [] → (m₁.file s).off + n < 2 ^ 32 := by
      intro hne
      have hfits : (m.data s).length ≤ MAXBYTES := (m.kernel.inode (m.file s).ip).fits
      have hlt : 0 < (m₁.rest s).length := List.length_pos_of_ne_nil hne
      have hlen := length_rest m s
      have hin := h.inside
      rw [hrest, List.length_drop] at hlt
      unfold MAXBYTES at hfits
      rw [hoff]
      omega
    obtain ⟨calls, m', hloop, hall, hbytes, hlocked⟩ := ih h₁ hnext (by
      rw [hrest, List.length_drop]
      omega)
    rw [hcall]
    refine ⟨.returned m₁ (min n (m.rest s).length : Nat) ((m.rest s).take n) :: calls, m',
      ?_, ?_, ?_, ?_⟩
    · have hmin : ¬((min n (m.rest s).length : Nat) : Int) ≤ 0 := by omega
      dsimp only
      rw [if_neg hmin, hloop]
      rfl
    · intro o ho
      rcases List.mem_cons.mp ho with rfl | ho
      · exact ⟨rfl, hfree⟩
      · rw [← hip]
        exact hall o ho
    · rw [List.flatMap_cons, hbytes, hrest]
      exact List.take_append_drop ..
    · rw [← hip]
      exact hlocked

theorem not_readsToEnd (hr : (m.file s).readable = true) (ht : (m.file s).type = .inode) :
    ¬m.ReadsToEnd s n := by
  rintro ⟨turns, -, -, hlast⟩
  obtain ⟨o, ho, hzero⟩ := Option.bind_eq_some_iff.mp hlast
  exact readLoop_positive turns hr ht o (List.mem_of_getLast? ho) hzero

theorem read_to_end_panics (h : m.Reads s) (hn : 0 < n) (hw : (m.file s).off + n < 2 ^ 32) :
    ¬m.ReadsToEnd s n ∧ ∃ calls m', m.readLoop s n ((m.rest s).length + 1) = calls ++ [.panic m'] ∧
      (∀ o ∈ calls, o.value.isSome ∧ o.machine.held (m.file s).ip = false) ∧
      calls.flatMap Outcome.bytes = m.rest s ∧ m'.held (m.file s).ip = true :=
  ⟨not_readsToEnd h.readable h.type, readLoop_delivers _ h hn (fun _ => hw) (Nat.lt_succ_self _)⟩

/-! ### A file of one byte -/

def firstSlot : Slot := ⟨0, Nat.zero_lt_succ _⟩

/-- After `echo -n a > f`, `f` opened for reading. -/
def oneByteOpen : Machine where
  kernel :=
    (boot fun _ => (writei newFile [0x61] 0).1).setFile firstSlot
      ⟨.inode, 1, true, false, 1, 0, 0, 0⟩
  held _ := false

theorem oneByteOpen_reads : oneByteOpen.Reads firstSlot :=
  ⟨by decide, by decide, by decide, by decide⟩

theorem one_byte_then_panics :
    oneByteOpen.Reads firstSlot ∧ (oneByteOpen.file firstSlot).off + 1 < 2 ^ 32 ∧
      oneByteOpen.rest firstSlot = [0x61] ∧ ¬oneByteOpen.ReadsToEnd firstSlot 1 :=
  ⟨oneByteOpen_reads, by decide, by decide,
    not_readsToEnd oneByteOpen_reads.readable oneByteOpen_reads.type⟩

theorem read_to_end_panics_one_byte :
    oneByteOpen.rest firstSlot = [0x61] ∧ ¬oneByteOpen.ReadsToEnd firstSlot 1 :=
  ⟨by decide, (read_to_end_panics oneByteOpen_reads Nat.one_pos (by decide)).1⟩

end Machine

end Cs3650.Xv6
