import Cs3650.Lib.Buckets
import Cs3650.Tsort.Barrier

/-!
# The threaded sample sort (tsort.c, float_vec.c)

`sample_sort` (`tsort.c:96-144`) draws `3 * (T - 1)` samples, sorts them, takes
every third one as a bucket bound between `0.0` and `INFINITY`, and starts `T`
workers. A worker (`tsort.c:68-94`) collects its half-open range of the shared
array, records its size, sorts its copy, waits at the barrier, adds up the
sizes recorded by the workers before it and copies its bucket back into the
shared array. Every access of a worker to shared memory is a step of its own.

The floats are the elements of a linear order, `zero` and `infinity` two of
them. Thread and sample counts are unbounded; the conversions from `long` to
`int` in `floats_size` and in `count += job->sizes[i]` are modelled.
-/

namespace Cs3650.Tsort

open Cs3650.Lib

/-- The library's `qsort` called with `float_cmp`. -/
structure Qsort (α : Type*) [LinearOrder α] where
  run : List α → List α
  perm : ∀ xs, (run xs).Perm xs
  sorted : ∀ xs, (run xs).Pairwise (· ≤ ·)

/-- Conversion of a wider integer to a 32-bit `int`. -/
def toInt (x : Int) : Int := x.bmod (2 ^ 32)

variable {α : Type*} [LinearOrder α]

/-- `floats_size` (`float_vec.c:50-53`) returns the `long` size as an `int`. -/
def floatsSize (fs : List α) : Int := toInt fs.length

/-- `floats_get` (`float_vec.c:86-89`); `none` is its failed assertion. -/
def floatsGet (fs : List α) (ii : Nat) : Option α := fs[ii]?

/-- The bucket bounds of `sample_sort` (`tsort.c:98-119`). -/
def sampleMedians (qsort : Qsort α) (zero infinity : α) (fs : List α) (numThreads : Nat)
    (random : Nat → Nat) : Option (List α) := do
  let numSamples := 3 * (numThreads - 1)
  let sampled ← (List.range numSamples).mapM fun i => floatsGet fs (random i % fs.length)
  -- `for (int i = 1; i < num_samples; i += 3)`
  let picked ← (List.range' 1 ((numSamples + 1) / 3) 3).mapM fun i =>
    floatsGet (qsort.run sampled) i
  pure (zero :: picked ++ [infinity])

/-- Where a worker is, with its local variables. -/
inductive Worker (α : Type*) where
  | start
  | reading (start finish : α) (i : Nat) (range : List α)
  | sizing (range : List α)
  | sorting (range : List α)
  | waiting (range : List α)
  | counting (range : List α) (i : Nat) (count : Int)
  | copying (range : List α) (count : Int) (k : Nat)
  | finished
  deriving DecidableEq, Repr

structure State (α : Type*) (T : Nat) where
  data : List α
  sizes : Fin T → Nat
  bar : Barrier.State T
  job : Fin T → Worker α

variable {T : Nat}

/-- The state in which `sample_sort` has started its workers; `sizes` is an
uninitialised array of `main`. -/
def initial (data : List α) (sizes : Fin T → Nat) : State α T :=
  ⟨data, sizes, Barrier.makeBarrier T, fun _ => .start⟩

def State.setJob (s : State α T) (t : Fin T) (w : Worker α) : State α T :=
  { s with job := Function.update s.job t w }

/-- The next step of worker `t`; `none` while it is blocked, has failed an
assertion, or is done. -/
def step (qsort : Qsort α) (medians : List α) (t : Fin T) (s : State α T) : Option (State α T) :=
  match s.job t with
  | .start => do
    let start ← floatsGet medians t
    let finish ← floatsGet medians (t + 1)
    pure (s.setJob t (.reading start finish 0 []))
  | .reading start finish i range =>
    if (i : Int) < floatsSize s.data then do
      let test ← floatsGet s.data i
      pure (s.setJob t (.reading start finish (i + 1)
        (if start ≤ test ∧ test < finish then range ++ [test] else range)))
    else some (s.setJob t (.sizing range))
  | .sizing range =>
    some { s.setJob t (.sorting range) with sizes := Function.update s.sizes t range.length }
  | .sorting range => some (s.setJob t (.waiting (qsort.run range)))
  | .waiting range =>
    (Barrier.step t s.bar).map fun bar =>
      { s.setJob t (if bar.pc t = .returned then .counting range 0 0 else .waiting range) with
        bar := bar }
  | .counting range i count =>
    if h : i < t then
      some (s.setJob t (.counting range (i + 1) (toInt (count + s.sizes ⟨i, h.trans t.isLt⟩))))
    else some (s.setJob t (.copying range count 0))
  | .copying range count k =>
    match range[k]? with
    | some x =>
      if 0 ≤ count ∧ count + k < s.data.length then
        some { s.setJob t (.copying range count (k + 1)) with
          data := s.data.set (count.toNat + k) x }
      else none
    | none => some (s.setJob t .finished)
  | .finished => none

/-- The workers take their steps in the order of the schedule. -/
def run (qsort : Qsort α) (medians : List α) : List (Fin T) → State α T → Option (State α T)
  | [], s => some s
  | t :: rest, s => (step qsort medians t s).bind (run qsort medians rest)

def AllFinished (s : State α T) : Prop := ∀ t, s.job t = .finished

end Cs3650.Tsort
