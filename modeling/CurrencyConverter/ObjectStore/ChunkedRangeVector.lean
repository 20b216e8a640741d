import CurrencyConverter.SeparatedRanges
import Mathlib.Data.Nat.Notation

/-! The vector under the index sets of the object store: ranges in chunks of bounded size,
each chunk with its bounds and the number of indexes it holds, and the iterators over it. -/
namespace ObjectStore

open SeparatedRanges

/-- A chunk fills a page of 4096 bytes in a release build and holds four ranges in a debug
build. -/
inductive Build where
  | debug
  | release64
  | release32

def maxSize : Build → ℕ
  | .debug => 4
  | .release64 => 4096/16
  | .release32 => 4096/8

/-- `front` and `back` are the members the source calls `begin` and `end`. -/
structure Chunk where
  data : List Range := []
  front : ℕ := 0
  back : ℕ := 0
  count : ℕ := 0
  deriving DecidableEq, Repr

structure ChunkedRangeVector where
  data : List Chunk := []
  deriving DecidableEq, Repr

/-- The place of a range: its chunk and its offset there. -/
structure Iterator where
  outer : ℕ
  inner : ℕ
  deriving DecidableEq, Repr

def firstOf (data : List Range) : ℕ := (data.head?.getD (0,0)).1

def lastOf (data : List Range) : ℕ := (data.getLast?.getD (0,0)).2

namespace ChunkedRangeVector

variable (b : Build) (v : ChunkedRangeVector) (it : Iterator)

def beginIt : Iterator := ⟨0, 0⟩

def endIt : Iterator := ⟨v.data.length, 0⟩

def ranges : List Range := v.data.flatMap Chunk.data

def chunk (outer : ℕ) : Chunk := v.data[outer]?.getD {}

def deref : Range := (v.chunk it.outer).data[it.inner]?.getD (0,0)

def nextChunk : Iterator := ⟨it.outer+1, 0⟩

def next : Iterator :=
  if it.inner+1 = (v.chunk it.outer).data.length then nextChunk it
  else ⟨it.outer, it.inner+1⟩

def prev : Iterator :=
  if it.inner = 0 then ⟨it.outer-1, (v.chunk (it.outer-1)).data.length-1⟩
  else ⟨it.outer, it.inner-1⟩

/-- The range at an iterator becomes `r`; the bounds of its chunk move only with the ranges at
the ends of the chunk. -/
def put (c : Chunk) (inner front back count : ℕ) (r : Range) : Chunk where
  data := c.data.set inner r
  front := if inner = 0 then front else c.front
  back := if inner+1 = c.data.length then back else c.back
  count := count

def setAt (front back : ℕ) : ChunkedRangeVector :=
  let r := v.deref it
  { data := v.data.modify it.outer fun c =>
      put c it.inner front back (c.count-(r.2-r.1)+(back-front)) (front,back) }

def adjustAt (front back : ℤ) : ChunkedRangeVector :=
  let r := v.deref it
  { data := v.data.modify it.outer fun c =>
      put c it.inner (c.front+front).toNat (c.back+back).toNat (c.count + (-front+back)).toNat
        ((r.1+front).toNat,(r.2+back).toNat) }

def shiftAt (distance : ℤ) : ChunkedRangeVector :=
  let r := v.deref it
  { data := v.data.modify it.outer fun c =>
      put c it.inner (c.front+distance).toNat (c.back+distance).toNat c.count
        ((r.1+distance).toNat,(r.2+distance).toNat) }

def pushBack (value : Range) : ChunkedRangeVector :=
  let fresh : Chunk := ⟨[value], value.1, value.2, value.2-value.1⟩
  match v.data.getLast? with
  | none => { data := v.data ++ [fresh] }
  | some range =>
    if range.data.length < maxSize b then
      { data := v.data.dropLast ++ [{ range with
          data := range.data ++ [value]
          count := range.count+(value.2-value.1)
          back := value.2 }] }
    else { data := v.data ++ [fresh] }

/-- A full chunk is split in half; the iterator stays at its range. -/
def ensureSpace : ChunkedRangeVector × Iterator :=
  let c := v.chunk it.outer
  if c.data.length+1 ≤ maxSize b then (v, it)
  else
    let toMove := maxSize b/2
    let moved := c.data.drop (c.data.length-toMove)
    let kept := c.data.take (c.data.length-toMove)
    let prev : Chunk := ⟨kept, c.front, lastOf kept, c.count-width moved⟩
    let new : Chunk := ⟨moved, firstOf moved, lastOf moved, width moved⟩
    ({ data := v.data.take it.outer ++ prev :: new :: v.data.drop (it.outer+1) },
      if it.inner ≥ toMove then ⟨it.outer+1, it.inner-toMove⟩ else it)

def insert (value : Range) : ChunkedRangeVector × Iterator :=
  if it.outer = v.data.length then
    let v := v.pushBack b value
    (v, v.prev v.endIt)
  else
    let (v, pos) := v.ensureSpace b it
    ({ data := v.data.modify pos.outer fun c => {
        data := c.data.insertIdx pos.inner value
        count := c.count+(value.2-value.1)
        front := min c.front value.1
        back := max c.back value.2 } }, pos)

def erase : ChunkedRangeVector × Iterator :=
  let c := v.chunk it.outer
  let data := c.data.eraseIdx it.inner
  if data.length = 0 then ({ data := v.data.eraseIdx it.outer }, ⟨it.outer, 0⟩)
  else
    let r := v.deref it
    ({ data := v.data.set it.outer ⟨data, firstOf data, lastOf data, c.count-(r.2-r.1)⟩ },
      if it.inner < data.length then it else nextChunk it)

/-- The first chunk from `start` on that ends behind the index, and in it the first range that
does. -/
def find (index : ℕ) (start : Iterator) : Iterator :=
  let outer := start.outer + (v.data.drop start.outer).findIdx (fun lft => index < lft.back)
  if v.data.length ≤ outer then v.endIt
  else
    let c := v.chunk outer
    if index < c.front then ⟨outer, 0⟩
    else
      let skipped := if outer = start.outer then start.inner else 0
      ⟨outer, skipped + (c.data.drop skipped).findIdx (fun lft => ¬ lft.2 ≤ index)⟩

/-- The checks of a debug build. -/
structure Verified : Prop where
  separated : Separated v.ranges
  chunk : ∀ c ∈ v.data, c.data ≠ [] ∧ c.data.length ≤ maxSize b ∧ c.front = firstOf c.data ∧
    c.back = lastOf c.data ∧ c.count = width c.data

end ChunkedRangeVector

end ObjectStore
