import Mathlib.Data.List.AList
import CurrencyConverter.ObjectStore.IndexSet

/-! The change sets of collections and the builder that collects them one operation at a
time. -/
namespace ObjectStore

structure Move where
  «from» : ℕ
  «to» : ℕ
  deriving DecidableEq, Repr

/-- The place of an item when another one moves past it, or when it moves itself. -/
def Move.adjust («from» «to» : ℕ) (m : Move) : Move :=
  if m.to ≠ «from» then
    if m.to ≥ «to» ∧ m.to < «from» then { m with «to» := m.to+1 }
    else if m.to ≤ «to» ∧ m.to > «from» then { m with «to» := m.to-1 }
    else m
  else { m with «to» := «to» }

/-- What a callback gets: deletions, moved rows and `modifications` by old positions,
insertions and `modificationsNew` by new ones. -/
structure CollectionChangeSet where
  deletions : IndexSet := {}
  insertions : IndexSet := {}
  modifications : IndexSet := {}
  modificationsNew : IndexSet := {}
  moves : List Move := []
  columns : List IndexSet := []

def CollectionChangeSet.empty (c : CollectionChangeSet) : Bool :=
  c.deletions.isEmpty && c.insertions.isEmpty && c.modifications.isEmpty &&
    c.modificationsNew.isEmpty && c.moves.isEmpty

/-- A change set under construction: its modifications are at new positions. The mapping
leads from new to old positions of moved rows until the log is parsed. -/
structure CollectionChangeBuilder where
  deletions : IndexSet := {}
  insertions : IndexSet := {}
  modifications : IndexSet := {}
  moves : List Move := []
  columns : List IndexSet := []
  moveMapping : AList (fun _ : ℕ => ℕ) := ∅

namespace CollectionChangeBuilder

/-- Columns that are not there yet have no modifications. -/
def grow (columns : List IndexSet) (size : ℕ) : List IndexSet :=
  columns ++ List.replicate (size-columns.length) { data := [] }

variable (b : Build) (c : CollectionChangeBuilder)

def new (deletions insertions modifications : IndexSet) (moves : List Move) :
    CollectionChangeBuilder where
  deletions := moves.foldl (fun v move => v.add b move.from) deletions
  insertions := moves.foldl (fun v move => v.add b move.to) insertions
  modifications := modifications
  moves := moves

def empty : Bool :=
  c.deletions.isEmpty && c.insertions.isEmpty && c.modifications.isEmpty && c.moves.isEmpty

/-- The rows' own set and the set of each column. -/
def forEachCol (f : IndexSet → IndexSet) : CollectionChangeBuilder :=
  { c with modifications := f c.modifications, columns := c.columns.map f }

/-! Merging -/

/-- The sets of `c` beside the sets of `other`, where the shorter list of columns grows. -/
def forEachPair (f : IndexSet → IndexSet → IndexSet) (other : CollectionChangeBuilder) :
    CollectionChangeBuilder :=
  { other with
    modifications := f c.modifications other.modifications
    columns := List.zipWith f (grow c.columns other.columns.length)
      (grow other.columns c.columns.length) }

/-- A modified row that moves on stays modified. -/
def carryModified (m : Move) (other : CollectionChangeBuilder) : CollectionChangeBuilder :=
  c.forEachPair (fun col other => if col.contains m.from then other.add b m.to else other) other

/-- Puts the last item in the place of the one at `i`. -/
def removeSwap {α : Type*} (l : List α) (i : ℕ) : List α :=
  match l.getLast? with
  | none => l
  | some last => (l.set i last).dropLast

/-- Takes an old move through the newer changes: a row that moves again only changes its
destination, and one that was deleted is a move no more. -/
def updateOldMoves : List Move → CollectionChangeBuilder → List Move × CollectionChangeBuilder
  | [], other => ([], other)
  | old :: rest, other =>
    match other.moves.findIdx? (fun m => old.to = m.from) with
    | some i =>
      let m := other.moves.getD i old
      let s := updateOldMoves rest
        { c.carryModified b m other with moves := removeSwap other.moves i }
      ({ old with «to» := m.to } :: s.1, s.2)
    | none =>
      let s := updateOldMoves rest other
      if other.deletions.contains old.to then s
      else ({ old with «to» := other.insertions.shift (other.deletions.unshift old.to) } :: s.1, s.2)

/-- Looks for moves which are no-ops by now and takes them out with their deletion and
insertion. Other insertions and deletions shift rows as well, so it is the ranks that are
compared. -/
def cleanUpStaleMoves : CollectionChangeBuilder :=
  go c.moves { c with moves := [] }
where
  go : List Move → CollectionChangeBuilder → CollectionChangeBuilder
    | [], c => c
    | move :: rest, c =>
      if move.from-c.deletions.count 0 move.from ≠ move.to-c.insertions.count 0 move.to then
        go rest { c with moves := c.moves ++ [move] }
      else
        go rest { c with
          deletions := c.deletions.remove b move.from 1
          insertions := c.insertions.remove b move.to 1 }

def merge (other : CollectionChangeBuilder) : CollectionChangeBuilder :=
  if other.empty then c
  else if c.empty then other
  else
    let updated :=
      if ¬ other.moves.isEmpty ∨ ¬ other.deletions.isEmpty ∨ ¬ other.insertions.isEmpty then
        updateOldMoves b c c.moves other
      else (c.moves, other)
    -- the implicit delete of a move removes the insertion of a row that is new itself
    let other :=
      if ¬ c.insertions.isEmpty ∧ ¬ updated.2.moves.isEmpty then
        { updated.2 with
          moves := updated.2.moves.filter (fun m => ¬ c.insertions.contains m.from) }
      else updated.2
    let other :=
      if ¬ c.modifications.isEmpty ∧ ¬ other.moves.isEmpty then
        other.moves.foldl (fun other m => c.carryModified b m other) other
      else other
    let newMoves :=
      if ¬ c.deletions.isEmpty ∨ ¬ c.insertions.isEmpty then
        other.moves.map (fun m =>
          { m with «from» := c.deletions.shift (c.insertions.unshift m.from) })
      else other.moves
    let merged := cleanUpStaleMoves b { c with
      moves := updated.1 ++ newMoves
      deletions := c.deletions.addShiftedBy b c.insertions other.deletions
      insertions := (c.insertions.eraseAtAll b other.deletions).insertAtAll b other.insertions }
    let sets := merged.forEachPair (fun col changed =>
      ((col.eraseAtAll b other.deletions).shiftForInsertAtAll b other.insertions).addAll b
        changed) other
    { merged with modifications := sets.modifications, columns := sets.columns }

/-! Single operations -/

def modify (index : ℕ) (col : Option ℕ) : CollectionChangeBuilder :=
  let c := { c with modifications := c.modifications.add b index }
  match col with
  | none => c
  | some col =>
    { c with columns := (grow c.columns (col+1)).modify col (fun set => set.add b index) }

/-- The keys of the mapping are new positions, so those behind the index are taken out and
put in again at their new places. -/
def shiftMapping (mapping : AList (fun _ : ℕ => ℕ)) (index count : ℕ) :
    AList (fun _ : ℕ => ℕ) :=
  let shifted := mapping.entries.filter (fun e => e.1 ≥ index)
  (shifted.map (fun e => (e.1+count,e.2))).foldl (fun mapping e => mapping.insert e.1 e.2)
    (shifted.foldl (fun mapping e => mapping.erase e.1) mapping)

/-- Rows come in at the index. The destinations of moves behind it are shifted by one,
whatever the count is. -/
protected def insert (index count : ℕ) (trackMoves : Bool) : CollectionChangeBuilder :=
  let c := c.forEachCol (fun col => col.shiftForInsertAt b index count)
  if ¬ trackMoves then c
  else
    { c with
      insertions := c.insertions.insertAt b index count
      moves := c.moves.map (fun m => if m.to ≥ index then { m with «to» := m.to+1 } else m)
      moveMapping := shiftMapping c.moveMapping index count }

def addShiftedDeletion (index : ℕ) : CollectionChangeBuilder :=
  { c with deletions := (c.deletions.addShifted b index).1 }

protected def erase (index : ℕ) : CollectionChangeBuilder :=
  let c := c.forEachCol (fun col => col.eraseAt index)
  let unshifted := c.insertions.eraseOrUnshift index
  let c := { c with insertions := unshifted.1 }
  let c := match unshifted.2 with
    | some unshifted => c.addShiftedDeletion b unshifted
    | none => c
  { c with
    moves := c.moves.filterMap (fun m =>
      if m.to = index then none
      else if m.to > index then some { m with «to» := m.to-1 } else some m) }

/-- The largest `size_t`, which stands for no index and for a size that is not known. -/
def npos : Build → ℕ
  | Build.release32 => 2^32-1
  | _ => 2^64-1

def clear (oldSize : ℕ) : CollectionChangeBuilder :=
  let oldSize := if oldSize ≠ npos b then
      oldSize+SeparatedRanges.width c.deletions.ranges-SeparatedRanges.width c.insertions.ranges
    else oldSize
  { deletions := c.deletions.set b oldSize }

def move («from» «to» : ℕ) : CollectionChangeBuilder :=
  let moves := c.moves.map (Move.adjust «from» «to»)
  let moved :=
    -- collapse A → B, B → C into a single A → C move
    if c.moves.any (fun m => m.to = «from») then
      { c with moves, insertions := (c.insertions.eraseAt «from»).insertAt b «to» 1 }
    else
      let shiftedFrom := c.insertions.eraseOrUnshift «from»
      let insertions := shiftedFrom.1.insertAt b «to» 1
      match shiftedFrom.2 with
      -- no deletions and moves for newly inserted rows
      | none => { c with moves, insertions }
      | some index =>
        let deleted := c.deletions.addShifted b index
        { c with moves := moves ++ [⟨deleted.2, «to»⟩], insertions, deletions := deleted.1 }
  moved.forEachCol (fun col =>
    if col.contains «from» then (col.eraseAt «from»).insertAt b «to» 1
    else (col.eraseAt «from»).shiftForInsertAt b «to» 1)

/-! Rows of tables, which have no order of their own -/

/-- Where the last range of the insertions ends. -/
def insertionsEnd : Option ℕ := c.insertions.ranges.getLast?.map Prod.snd

/-- The row is deleted and the last row takes its place. -/
def moveOver (rowNdx lastRow : ℕ) (trackMoves : Bool) : CollectionChangeBuilder :=
  if rowNdx = lastRow then
    let c :=
      if trackMoves then
        let unshifted := c.insertions.eraseOrUnshift rowNdx
        let c := { c with
          insertions := unshifted.1, moveMapping := c.moveMapping.erase rowNdx }
        match unshifted.2 with
        | some unshifted => c.addShiftedDeletion b unshifted
        | none => c
      else c
    c.forEachCol (fun col => col.remove b rowNdx 1)
  else
    let c := c.forEachCol (fun col =>
      if col.contains lastRow then (col.remove b lastRow 1).add b rowNdx
      else col.remove b rowNdx 1)
    if ¬ trackMoves then c
    else
      let rowIsInsertion := c.insertions.contains rowNdx
      let lastIsInsertion := c.insertionsEnd = some (lastRow+1)
      let alreadyMoved := if lastIsInsertion then c.moveMapping.lookup lastRow else none
      let mapping := match alreadyMoved with
        | some source => (c.moveMapping.insert rowNdx source).erase lastRow
        | none =>
          if rowIsInsertion then c.moveMapping.erase rowNdx else c.moveMapping
      let c := { c with moveMapping := mapping }
      let c :=
        if lastIsInsertion then { c with insertions := c.insertions.remove b lastRow 1 }
        else
          let shifted := c.deletions.addShifted b (c.insertions.unshift lastRow)
          { c with
            deletions := shifted.1, moveMapping := c.moveMapping.insert rowNdx shifted.2 }
      if rowIsInsertion then c
      else
        let c := c.addShiftedDeletion b (c.insertions.unshift rowNdx)
        { c with insertions := c.insertions.add b rowNdx }

/-- The row at `target` now holds what stood at `source`, which was not moved before. -/
def addMove (source target : ℕ) : CollectionChangeBuilder :=
  if c.insertions.contains source then c
  else
    let shifted := c.deletions.addShifted b (c.insertions.unshift source)
    { c with
      deletions := shifted.1
      moveMapping := c.moveMapping.insert target shifted.2
      insertions := c.insertions.add b source }

/-- Of two rows that are swapped only the first one was moved there before, from
`original`. -/
def updateMove (original ndx1 ndx2 : ℕ) : CollectionChangeBuilder :=
  { c with moveMapping := (c.moveMapping.erase ndx2).insert ndx1 original }.addMove b ndx1 ndx2

def swap (ndx1 ndx2 : ℕ) (trackMoves : Bool) : CollectionChangeBuilder :=
  go (min ndx1 ndx2) (max ndx1 ndx2)
where
  go (ndx1 ndx2 : ℕ) : CollectionChangeBuilder :=
    let c := c.forEachCol (fun col =>
      if col.contains ndx1 = col.contains ndx2 then col
      else if col.contains ndx1 then (col.remove b ndx1 1).add b ndx2
      else (col.remove b ndx2 1).add b ndx1)
    if ¬ trackMoves then c
    else
      match c.moveMapping.lookup ndx1, c.moveMapping.lookup ndx2 with
      | some original1, some original2 =>
        { c with
          moveMapping := (c.moveMapping.insert ndx1 original2).insert ndx2 original1 }
      | some original1, none => c.updateMove b original1 ndx2 ndx1
      | none, some original2 => c.updateMove b original2 ndx1 ndx2
      -- the second row first, so that the shifts of the first one are not changed
      | none, none => (c.addMove b ndx2 ndx1).addMove b ndx1 ndx2

/-- What stood at `oldNdx` is now at the new row `newNdx`. The old row goes next. -/
def subsume (oldNdx newNdx : ℕ) (trackMoves : Bool) : CollectionChangeBuilder :=
  let c := c.forEachCol (fun col => if col.contains oldNdx then col.add b newNdx else col)
  if ¬ trackMoves then c
  else
    match c.moveMapping.lookup oldNdx with
    | some source =>
      { c with moveMapping := (c.moveMapping.insert newNdx source).erase oldNdx }
    | none =>
      if c.insertions.contains oldNdx then c
      else
        { c with moveMapping :=
            c.moveMapping.insert newNdx (c.deletions.shift (c.insertions.unshift oldNdx)) }

/-- One entry of the mapping becomes a move, unless the row is back where it was. -/
def parseMove (move : ℕ × ℕ) : CollectionChangeBuilder :=
  if move.1 = move.2 then
    { c with
      deletions := c.deletions.remove b move.2 1, insertions := c.insertions.remove b move.1 1 }
  else { c with moves := c.moves ++ [⟨move.2, move.1⟩] }

def parseComplete : CollectionChangeBuilder :=
  let c := c.moveMapping.entries.foldl (fun c move => c.parseMove b (move.1,move.2)) c
  { c with
    moveMapping := ∅
    moves := c.moves.mergeSort (fun lft rgt => lft.from ≤ rgt.from) }

def insertColumn (index : ℕ) : CollectionChangeBuilder :=
  if index < c.columns.length then
    { c with columns := c.columns.insertIdx index { data := [] } }
  else c

def moveColumn («from» «to» : ℕ) : CollectionChangeBuilder :=
  if «from» ≥ c.columns.length ∧ «to» ≥ c.columns.length then c
  else
    let columns := grow c.columns (max «from» «to»+1)
    { c with columns :=
        (columns.eraseIdx «from»).insertIdx «to» (columns[«from»]?.getD { data := [] }) }

/-- The modified rows at their old positions as well, without those that are new. -/
def finalize : CollectionChangeSet where
  deletions := c.deletions
  insertions := c.insertions
  modifications :=
    (c.modifications.eraseAtAll b c.insertions).shiftForInsertAtAll b c.deletions
  modificationsNew := c.modifications.removeAll b c.insertions
  moves := c.moves
  columns := c.columns

end CollectionChangeBuilder

end ObjectStore
