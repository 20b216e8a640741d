import CurrencyConverter.ObjectStore.ChunkedRangeVector

/-! The index sets of the object store: sets of row positions kept as ranges, with the
operations that follow rows as other rows come and go. -/
namespace ObjectStore

open SeparatedRanges ChunkedRangeVector

abbrev IndexSet : Type := ChunkedRangeVector

namespace IndexSet

/-- A loop that walks the ranges and leaves them alone: while the condition holds, the body
runs and the iterator advances. Every pass leaves a range behind, so the number of ranges is
fuel enough. -/
def walk {σ : Type} (v : IndexSet) (cond : Iterator → σ → Bool) (advance : Iterator → Iterator)
    (body : Iterator → σ → σ) : ℕ → Iterator → σ → Iterator × σ
  | 0, it, s => (it, s)
  | n+1, it, s =>
    if it ≠ v.endIt ∧ cond it s then walk v cond advance body n (advance it) (body it s)
    else (it, s)

variable (b : Build) (v : IndexSet)

def isEmpty : Bool := v.data.isEmpty

def clear (_ : IndexSet) : IndexSet := {}

/-- Goes over one index after the other and not over one range after the other. -/
structure IndexIterator where
  it : Iterator
  offset : ℕ := 0

def IndexIterator.next (i : IndexIterator) : IndexIterator :=
  if (v.deref i.it).1+(i.offset+1) = (v.deref i.it).2 then { it := v.next i.it }
  else { i with offset := i.offset+1 }

/-- The indexes an index iterator meets until it is at the end. -/
def collect : ℕ → IndexIterator → List ℕ
  | 0, _ => []
  | n+1, i =>
    if i.it = v.endIt then [] else ((v.deref i.it).1+i.offset) :: collect n (i.next v)

def asIndexes : List ℕ := collect v (width v.ranges) { it := beginIt }

def contains (index : ℕ) : Bool :=
  let it := v.find index beginIt
  it ≠ v.endIt ∧ (v.deref it).1 ≤ index

def doAdd (it : Iterator) (index : ℕ) : IndexSet × Iterator :=
  let moreBefore : Bool := it ≠ beginIt
  let valid : Bool := it ≠ v.endIt
  if valid ∧ (v.deref it).1 ≤ index ∧ (v.deref it).2 > index then
    -- index is already in set
    (v, it)
  else if moreBefore ∧ (v.deref (v.prev it)).2 = index then
    -- index is immediately after an existing range
    let prev := v.prev it
    let v := v.adjustAt prev 0 1
    if valid ∧ (v.deref prev).2 = (v.deref it).1 then
      -- index joins two existing ranges
      let r := v.deref it
      let (v, it) := (v.adjustAt prev 0 ((r.2:ℤ)-r.1)).erase it
      (v, v.prev it)
    else (v, prev)
  else if valid ∧ (v.deref it).1 = index+1 then
    -- index is immediately before an existing range
    (v.adjustAt it (-1) 0, it)
  else v.insert b it (index,index+1)

def add (index : ℕ) : IndexSet := (v.doAdd b (v.find index beginIt) index).1

/-- Each search goes on from where the index before was added. -/
def addAll (other : IndexSet) : IndexSet :=
  (other.asIndexes.foldl
    (fun s index => s.1.doAdd b (s.1.find index s.2) index) (v, beginIt)).1

/-- Adds an index that does not count the ranges of the set before it; the index that does
comes with the new set. -/
def addShifted (index : ℕ) : IndexSet × ℕ :=
  let n := v.ranges.length
  let w := walk v (fun it index => (v.chunk it.outer).back ≤ index) nextChunk
    (fun it index => index + (v.chunk it.outer).count) n beginIt index
  let w := walk v (fun it index => (v.deref it).1 ≤ index) v.next
    (fun it index => index + ((v.deref it).2-(v.deref it).1)) n w.1 w.2
  ((v.doAdd b w.1 w.2).1, w.2)

def set (len : ℕ) : IndexSet :=
  if len = 0 then v.clear else v.clear.pushBack b (0,len)

def shiftUntilEndBy (distance : ℤ) : ℕ → IndexSet → Iterator → IndexSet
  | 0, v, _ => v
  | n+1, v, it =>
    if it = v.endIt then v
    else shiftUntilEndBy distance n (v.shiftAt it distance) ((v.shiftAt it distance).next it)

/-- Adds `n` indexes one after the other, each behind the range of the one before. -/
def addFrom : ℕ → ℕ → IndexSet → Iterator → IndexSet
  | _, 0, v, _ => v
  | index, n+1, v, pos =>
    let s := v.doAdd b pos index
    addFrom (index+1) n s.1 (s.1.next s.2)

def insertAt (index count : ℕ) : IndexSet :=
  let pos := v.find index beginIt
  let n := v.ranges.length
  let inExisting : Bool := pos ≠ v.endIt ∧ (v.deref pos).1 ≤ index
  let v :=
    if pos = v.endIt then v
    else
      let v := if inExisting then v.adjustAt pos 0 count else v.shiftAt pos count
      shiftUntilEndBy count n v (v.next pos)
  if inExisting then v else addFrom b index count v pos

def shiftForInsertAt (index count : ℕ) : IndexSet :=
  let it := v.find index beginIt
  if it = v.endIt then v
  else
    let v := shiftUntilEndBy count v.ranges.length v it
    let r := v.deref it
    -- a range around the insertion point is split, and its first part moves back
    if r.1 < index+count then
      let v := v.setAt it (r.1-count) index
      (v.insert b (v.next it) (index+count,r.2)).1
    else v

def doErase (it : Iterator) (index : ℕ) : IndexSet :=
  let n := v.ranges.length
  let r := v.deref it
  if r.1 ≤ index then
    if r.1+1 = r.2 then
      let (v, it) := v.erase it
      shiftUntilEndBy (-1) n v it
    else
      let v := v.adjustAt it 0 (-1)
      shiftUntilEndBy (-1) n v (v.next it)
  else if it ≠ beginIt ∧ (v.deref (v.prev it)).2+1 = r.1 then
    let (v, it) := (v.adjustAt (v.prev it) 0 ((r.2:ℤ)-r.1)).erase it
    shiftUntilEndBy (-1) n v it
  else shiftUntilEndBy (-1) n v it

def eraseAt (index : ℕ) : IndexSet :=
  let it := v.find index beginIt
  if it = v.endIt then v else v.doErase it index

/-- The source's `npos` is `none`. -/
def eraseOrUnshift (index : ℕ) : IndexSet × Option ℕ :=
  let n := v.ranges.length
  let w := walk v (fun it _ => (v.chunk it.outer).back ≤ index) nextChunk
    (fun it shifted => shifted - (v.chunk it.outer).count) n beginIt index
  let w := walk v (fun it _ => (v.deref it).2 ≤ index) v.next
    (fun it shifted => shifted - ((v.deref it).2-(v.deref it).1)) n w.1 w.2
  if w.1 = v.endIt then (v, some w.2)
  else (v.doErase w.1 index, if (v.deref w.1).1 ≤ index then none else some w.2)

/-- Each pass takes a range out or makes one shorter; a range split in two ends the loop at
the next pass. -/
def doRemove (stop : ℕ) : ℕ → IndexSet → Iterator → ℕ → IndexSet × Iterator
  | 0, v, it, start => (v, v.find start it)
  | n+1, v, it, start =>
    let it := v.find start it
    let r := v.deref it
    if it = v.endIt ∨ stop ≤ r.1 then (v, it)
    else
      let start := max r.1 start
      if r.1 < start ∧ stop < r.2 then
        let v := v.setAt it r.1 start
        let s := v.insert b (v.next it) (stop,r.2)
        doRemove stop n s.1 (s.1.prev s.2) start
      else if start = r.1 ∧ r.2 ≤ stop then doRemove stop n (v.erase it).1 (v.erase it).2 start
      else if start = r.1 then doRemove stop n (v.setAt it stop r.2) it start
      else doRemove stop n (v.setAt it r.1 start) it start

def remove (index count : ℕ) : IndexSet :=
  (doRemove b (index+count) (v.ranges.length+1) v (v.find index beginIt) index).1

def removeAll (values : IndexSet) : IndexSet :=
  go v beginIt values.ranges
where
  go (v : IndexSet) (it : Iterator) : List Range → IndexSet
    | [] => v
    | range :: rest =>
      let s := doRemove b range.2 (v.ranges.length+1) v it range.1
      if s.2 = s.1.endIt then s.1 else go s.1 s.2 rest

def shift (index : ℕ) : ℕ := go index v.ranges
where
  go (index : ℕ) : List Range → ℕ
    | [] => index
    | range :: rest => if range.1 > index then index else go (index+(range.2-range.1)) rest

def count (startIndex endIndex : ℕ) : ℕ :=
  let n := v.ranges.length
  let it := v.find startIndex beginIt
  let r := v.deref it
  -- the complete chunks, the complete ranges of the last chunk, the last range
  let finish (it : Iterator) (ret : ℕ) : ℕ :=
    let w := walk v (fun it _ => (v.chunk it.outer).back ≤ endIndex) nextChunk
      (fun it ret => ret + (v.chunk it.outer).count) n it ret
    let w := walk v (fun it _ => (v.deref it).2 ≤ endIndex) v.next
      (fun it ret => ret + ((v.deref it).2-(v.deref it).1)) n w.1 w.2
    if w.1 ≠ v.endIt ∧ (v.deref w.1).1 < endIndex then w.2 + (endIndex-(v.deref w.1).1)
    else w.2
  if it = v.endIt ∨ r.1 ≥ endIndex then 0
  else if r.2 ≥ endIndex then min r.2 endIndex-max r.1 startIndex
  else if startIndex > r.1 ∨ it.inner ≠ 0 then
    -- the start is in the middle of a chunk: the rest of that chunk first
    let w := walk v (fun it _ => (v.deref it).2 < endIndex ∧ it.inner ≠ 0) v.next
      (fun it ret => ret + ((v.deref it).2-(v.deref it).1)) n (v.next it)
      (r.2-max r.1 startIndex)
    let ret := if w.1 ≠ v.endIt ∧ (v.deref w.1).1 < endIndex ∧ w.1.inner ≠ 0 then
      w.2 + (endIndex-(v.deref w.1).1) else w.2
    if w.1 = v.endIt ∨ (v.deref w.1).2 ≥ endIndex then ret else finish w.1 ret
  else finish it 0

def unshift (index : ℕ) : ℕ := index - v.count 0 index

end IndexSet

/-- The builder writes its chunks one after the other and never looks back. -/
structure ChunkedRangeVectorBuilder where
  data : List Chunk
  outerPos : ℕ := 0

namespace ChunkedRangeVectorBuilder

variable (b : Build)

def new (expected : ChunkedRangeVector) : ChunkedRangeVectorBuilder where
  data := List.replicate ((expected.data.map (fun c => c.data.length)).sum/maxSize b + 1) {}

def pushBack (builder : ChunkedRangeVectorBuilder) (range : Range) :
    ChunkedRangeVectorBuilder :=
  let chunk := builder.data[builder.outerPos]?.getD {}
  if chunk.data = [] then
    { builder with data := builder.data.set builder.outerPos { chunk with
        data := [range], count := range.2-range.1, front := range.1 } }
  else if range.1 = lastOf chunk.data then
    { builder with data := builder.data.set builder.outerPos { chunk with
        data := chunk.data.modify (chunk.data.length-1) (fun last => (last.1,range.2))
        count := chunk.count+(range.2-range.1) } }
  else if chunk.data.length < maxSize b then
    { builder with data := builder.data.set builder.outerPos { chunk with
        data := chunk.data ++ [range], count := chunk.count+(range.2-range.1) } }
  else
    let data := builder.data.set builder.outerPos { chunk with back := lastOf chunk.data }
    let outerPos := builder.outerPos+1
    if data.length ≤ outerPos then
      -- a chunk past the expected ones is counted as one index
      { data := data ++ [⟨[range], range.1, 0, 1⟩], outerPos := outerPos }
    else
      { data := data.modify outerPos fun chunk => { chunk with
          data := chunk.data ++ [range], front := range.1, count := range.2-range.1 }
        outerPos := outerPos }

def pushIndex (builder : ChunkedRangeVectorBuilder) (index : ℕ) : ChunkedRangeVectorBuilder :=
  builder.pushBack b (index,index+1)

def finalize (builder : ChunkedRangeVectorBuilder) : ChunkedRangeVector :=
  let data := builder.data.take (builder.outerPos+1)
  match data.getLast? with
  | none => { data := data }
  | some last =>
    if last.data = [] then { data := data.dropLast }
    else { data := data.dropLast ++ [{ last with back := lastOf last.data }] }

end ChunkedRangeVectorBuilder

namespace IndexSet

open ChunkedRangeVectorBuilder

variable (b : Build) (v : IndexSet)

/-- The loop of `insert_at`: new positions and moved old indexes in order. -/
def insertLoop : List ℕ → List ℕ → ℕ → ChunkedRangeVectorBuilder → ChunkedRangeVectorBuilder
  | old, [], shift, builder => old.foldl (fun builder i => builder.pushIndex b (i+shift)) builder
  | [], positions, _, builder => positions.foldl (pushIndex b) builder
  | i :: old, p :: positions, shift, builder =>
    if i+shift < p then insertLoop old (p :: positions) shift (builder.pushIndex b (i+shift))
    else insertLoop (i :: old) positions (shift+1) (builder.pushIndex b p)
termination_by old positions => old.length+positions.length

def insertAtAll (positions : IndexSet) : IndexSet :=
  if positions.isEmpty then v
  else if v.isEmpty then positions
  else (insertLoop b v.asIndexes positions.asIndexes 0 (new b v)).finalize

def shiftLoop : List ℕ → List ℕ → ℕ → ChunkedRangeVectorBuilder → ChunkedRangeVectorBuilder
  | old, [], shift, builder => old.foldl (fun builder i => builder.pushIndex b (i+shift)) builder
  | [], _, _, builder => builder
  | i :: old, p :: values, shift, builder =>
    if i+shift < p then shiftLoop old (p :: values) shift (builder.pushIndex b (i+shift))
    else shiftLoop (i :: old) values (shift+1) builder
termination_by old values => old.length+values.length

def shiftForInsertAtAll (values : IndexSet) : IndexSet :=
  if v.isEmpty ∨ values.isEmpty then v
  else if (v.data.getLast?.getD {}).back ≤ (values.chunk 0).front then v
  else (shiftLoop b v.asIndexes values.asIndexes 0 (new b v)).finalize

def eraseLoop : List ℕ → List ℕ → ℕ → ChunkedRangeVectorBuilder → ChunkedRangeVectorBuilder
  | old, [], shift, builder => old.foldl (fun builder i => builder.pushIndex b (i-shift)) builder
  | [], _, _, builder => builder
  | i :: old, p :: positions, shift, builder =>
    if i < p then eraseLoop old (p :: positions) shift (builder.pushIndex b (i-shift))
    else if i = p then eraseLoop old positions (shift+1) builder
    else eraseLoop (i :: old) positions (shift+1) builder
termination_by old positions => old.length+positions.length

def eraseAtAll (positions : IndexSet) : IndexSet :=
  if v.isEmpty ∨ positions.isEmpty then v
  else (eraseLoop b v.asIndexes positions.asIndexes 0 (new b v)).finalize

/-- What the loop of `add_shifted_by` carries from one value to the next. -/
structure ShiftedBy where
  old : List Range
  shiftRanges : List Range
  skipUntil : ℕ := 0
  oldShift : ℕ := 0
  newShift : ℕ := 0
  builder : ChunkedRangeVectorBuilder

def ShiftedBy.skipShift (index : ℕ) (s : ShiftedBy) : ShiftedBy :=
  go s.shiftRanges s
where
  go : List Range → ShiftedBy → ShiftedBy
    | [], s => { s with shiftRanges := [] }
    | r :: rest, s =>
      if r.1 ≤ index then go rest { s with newShift := s.newShift+(r.2-r.1), skipUntil := r.2 }
      else { s with shiftRanges := r :: rest }

def ShiftedBy.copyOld (index : ℕ) (s : ShiftedBy) : ShiftedBy :=
  go s.old s
where
  go : List Range → ShiftedBy → ShiftedBy
    | [], s => { s with old := [] }
    | r :: rest, s =>
      if r.1 ≤ index-s.newShift+s.oldShift then
        go rest { s with
          builder := (List.range' r.1 (r.2-r.1)).foldl (pushIndex b) s.builder
          oldShift := s.oldShift+(r.2-r.1) }
      else { s with old := r :: rest }

def ShiftedBy.value (s : ShiftedBy) (index : ℕ) : ShiftedBy :=
  let s := s.skipShift index
  if index < s.skipUntil then s
  else
    let s := s.copyOld b index
    { s with builder := s.builder.pushIndex b (index-s.newShift+s.oldShift) }

def addShiftedBy (shiftedBy values : IndexSet) : IndexSet :=
  if values.isEmpty then v
  else
    let s := values.asIndexes.foldl (ShiftedBy.value b)
      { old := v.ranges, shiftRanges := shiftedBy.ranges, builder := new b v }
    (s.old.foldl (ChunkedRangeVectorBuilder.pushBack b) s.builder).finalize

end IndexSet

end ObjectStore
