import Polyphony.Mix.Sum

/-! # Schedules of a sum

The frames of a sum are shared among workers. The buffer is cut into chunks, each chunk is summed
in place by one worker, and the peaks of the workers are brought together by a tree.
-/
namespace Polyphony.Mix

/-- The larger of two floats. An undefined one gives way to the other. -/
def larger (x y : Float) : Float := if x.isNaN then y else if x < y then y else x

/-- The number of chunks of `size` frames that cover `frames` frames. -/
def chunkCount (frames size : Nat) : Nat := (frames + size - 1) / size

/-- The frames of one chunk. The last chunk may be shorter than the others. -/
def chunkLength (frames size chunk : Nat) : Nat := min size (frames - chunk * size)

/-- Sum `count` frames of the chunk at `offset` in place, from its frame `i` on. -/
def sumChunk (buffers : List Buffer) (offset : Nat) : (count i : Nat) → Sum → Sum
  | 0, _, s => s
  | count + 1, i, s =>
    let x := frameSum buffers (offset + i)
    sumChunk buffers offset count (i + 1)
      ⟨s.samples.setIfInBounds (offset + i) x, larger s.peak x.abs⟩

/-- A tree that brings the peaks of chunks together. Silence may come in anywhere. -/
inductive Reduction where
  | silence
  | chunk (chunk : Nat)
  | join (left right : Reduction)

def Reduction.chunks : Reduction → List Nat
  | .silence => []
  | .chunk k => [k]
  | .join left right => left.chunks ++ right.chunks

def Reduction.peak (peaks : Array Float) : Reduction → Float
  | .silence => 0
  | .chunk k => peaks.getD k 0
  | .join left right => larger (left.peak peaks) (right.peak peaks)

/-- The size of the chunks, the order in which they are summed, and the tree that brings their
peaks together. Each chunk is summed once and is brought in once. -/
structure Schedule (frames : Nat) where
  size : Nat
  order : List Nat
  reduction : Reduction
  size_pos : 0 < size
  order_perm : order.Perm (List.range (chunkCount frames size))
  reduction_perm : reduction.chunks.Perm (List.range (chunkCount frames size))

/-- The common buffer, and the peaks of the chunks that have been summed. -/
structure Bench where
  mixed : Buffer
  peaks : Array Float

namespace Schedule

variable {frames : Nat}

def sumOne (s : Schedule frames) (buffers : List Buffer) (bench : Bench) (chunk : Nat) : Bench :=
  let done := sumChunk buffers (chunk * s.size) (chunkLength frames s.size chunk) 0 ⟨bench.mixed, 0⟩
  ⟨done.samples, bench.peaks.setIfInBounds chunk done.peak⟩

def sumAll (s : Schedule frames) (buffers : List Buffer) : Bench :=
  s.order.foldl (s.sumOne buffers)
    ⟨Array.replicate frames 0, Array.replicate (chunkCount frames s.size) 0⟩

def run (buffers : List Buffer) (s : Schedule (longest buffers)) : Sum :=
  let bench := s.sumAll buffers
  ⟨bench.mixed, s.reduction.peak bench.peaks⟩

end Schedule
end Polyphony.Mix
