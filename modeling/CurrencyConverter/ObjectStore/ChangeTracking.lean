import CurrencyConverter.SequenceDiff
import CurrencyConverter.ObjectStore.CollectionChangeBuilder
import CurrencyConverter.ObjectStore.IndexSetCount
import CurrencyConverter.ObjectStore.IndexSetShiftedBy

/-! What a change set says about two versions of a collection. -/
namespace ObjectStore

open SequenceDiff

/-- What of a row is compared: which object it is, its whole contents or one column. -/
inductive Aspect
  | identity
  | contents
  | column (index : ℕ)
  deriving DecidableEq

namespace CollectionChangeBuilder

variable {b : Build} {c other : CollectionChangeBuilder} {α : Type*} {xs ys zs : List α}
  {a : Aspect}

/-- The rows that may differ in an aspect. A row stays the same object as long as it is not
deleted. -/
def tracked (c : CollectionChangeBuilder) : Aspect → IndexSet
  | Aspect.identity => { data := [] }
  | Aspect.contents => c.modifications
  | Aspect.column index => c.columns[index]?.getD { data := [] }

def deleted (c : CollectionChangeBuilder) : Finset ℕ := c.deletions.indices

def added (c : CollectionChangeBuilder) : Finset ℕ := c.insertions.indices

def changed (c : CollectionChangeBuilder) (a : Aspect) : Finset ℕ := (c.tracked a).indices

/-- What the fields of a change set promise each other. -/
structure WellFormed (b : Build) (c : CollectionChangeBuilder) : Prop where
  deletions : c.deletions.Verified b
  insertions : c.insertions.Verified b
  tracked : ∀ a, (c.tracked a).Verified b
  within : ∀ a, c.changed a ⊆ c.changed Aspect.contents
  from_mem : ∀ m ∈ c.moves, m.from ∈ c.deleted
  to_mem : ∀ m ∈ c.moves, m.to ∈ c.added
  from_nodup : (c.moves.map Move.from).Nodup
  to_nodup : (c.moves.map Move.to).Nodup

/-- The change set leads from the old rows to the new ones: whatever it neither deletes nor
inserts, and is not in `M`, is the same, its moves are moves, and its positions are positions
of rows. -/
structure Describes (c : CollectionChangeBuilder) (M : Finset ℕ) (xs ys : List α) : Prop where
  transforms : Transforms c.deleted c.added M xs ys
  carries : ∀ m ∈ c.moves, Carries c.deleted c.added M xs ys m.from m.to
  fits : Fits c.deleted c.added xs.length ys.length
  marks : M ⊆ Finset.range ys.length

theorem represents_self {v : IndexSet} (h : v.Verified b) :
    IndexSet.Represents b v v.indices := ⟨h, rfl⟩

theorem getD_grow (l : List IndexSet) (n k : ℕ) :
    (grow l n)[k]?.getD { data := [] } = l[k]?.getD { data := [] } := by
  rw [grow]
  by_cases hk : k < l.length
  · rw [List.getElem?_append_left hk]
  · rw [List.getElem?_append_right (by omega), List.getElem?_replicate,
      List.getElem?_eq_none (by omega)]
    split
    · rfl
    · rfl

theorem length_grow (l : List IndexSet) (n : ℕ) : (grow l n).length = max l.length n := by
  rw [grow, List.length_append, List.length_replicate]
  omega

/-- An operation on every set, when it leaves an empty set empty, is done for columns that
are not there as well. -/
theorem represents_forEachCol {f : IndexSet → IndexSet} {F : Finset ℕ → Finset ℕ}
    {M : Aspect → Finset ℕ} (hF : F ∅ = ∅)
    (hf : ∀ v S, IndexSet.Represents b v S → IndexSet.Represents b (f v) (F S))
    (h : ∀ a, IndexSet.Represents b (c.tracked a) (M a)) (a : Aspect) :
    IndexSet.Represents b ((c.forEachCol f).tracked a) (F (M a)) := by
  have hnone {S : Finset ℕ} (hS : IndexSet.Represents b { data := [] } S) :
      IndexSet.Represents b { data := [] } (F S) := by
    have hS0 : S = ∅ := hS.indices_eq.symm
    rw [hS0, hF]
    exact IndexSet.represents_empty
  have ha := h a
  cases a with
  | identity => exact hnone ha
  | contents => exact hf _ _ ha
  | column k =>
    change IndexSet.Represents b ((c.columns.map f)[k]?.getD { data := [] }) _
    rw [tracked] at ha
    rw [List.getElem?_map]
    cases hk : c.columns[k]? with
    | none =>
      rw [hk] at ha
      exact hnone ha
    | some v =>
      rw [hk] at ha
      exact hf _ _ ha

/-- The same for an operation on two change sets at a time. -/
theorem represents_forEachPair {f : IndexSet → IndexSet → IndexSet}
    {F : Finset ℕ → Finset ℕ → Finset ℕ} {M M' : Aspect → Finset ℕ} (hF : F ∅ ∅ = ∅)
    (hf : ∀ v v' S S', IndexSet.Represents b v S → IndexSet.Represents b v' S' →
      IndexSet.Represents b (f v v') (F S S'))
    (h : ∀ a, IndexSet.Represents b (c.tracked a) (M a))
    (h' : ∀ a, IndexSet.Represents b (other.tracked a) (M' a)) (a : Aspect) :
    IndexSet.Represents b ((c.forEachPair f other).tracked a) (F (M a) (M' a)) := by
  have ha := h a
  have ha' := h' a
  cases a with
  | identity =>
    have hM : M Aspect.identity = ∅ := ha.indices_eq.symm
    have hM' : M' Aspect.identity = ∅ := ha'.indices_eq.symm
    rw [hM, hM', hF]
    exact IndexSet.represents_empty
  | contents => exact hf _ _ _ _ ha ha'
  | column k =>
    change IndexSet.Represents b ((List.zipWith f (grow c.columns other.columns.length)
      (grow other.columns c.columns.length))[k]?.getD { data := [] }) _
    rw [tracked, ← getD_grow _ other.columns.length] at ha
    rw [tracked, ← getD_grow _ c.columns.length] at ha'
    rw [List.getElem?_zipWith]
    by_cases hk : k < max c.columns.length other.columns.length
    · obtain ⟨v,hv⟩ : ∃ v, (grow c.columns other.columns.length)[k]? = some v :=
        ⟨_, List.getElem?_eq_getElem (by rwa [length_grow])⟩
      obtain ⟨v',hv'⟩ : ∃ v, (grow other.columns c.columns.length)[k]? = some v :=
        ⟨_, List.getElem?_eq_getElem (by rwa [length_grow, max_comm])⟩
      rw [hv] at ha ⊢
      rw [hv'] at ha' ⊢
      exact hf _ _ _ _ ha ha'
    · have hv : (grow c.columns other.columns.length)[k]? = none :=
        List.getElem?_eq_none (by rw [length_grow]; omega)
      have hv' : (grow other.columns c.columns.length)[k]? = none :=
        List.getElem?_eq_none (by rw [length_grow]; omega)
      rw [hv] at ha ⊢
      rw [hv'] at ha'
      have hM : M (Aspect.column k) = ∅ := ha.indices_eq.symm
      have hM' : M' (Aspect.column k) = ∅ := ha'.indices_eq.symm
      rw [hM, hM', hF]
      exact IndexSet.represents_empty

/-- How a move of `c'` comes about when the rows `D'` go and the rows `I'` come after `c`: an
old move goes on, it stays where it is among them, or it is a move of theirs. -/
def ComesFrom (c : CollectionChangeBuilder) (D' I' M M' : Finset ℕ) (ys zs : List α)
    (n : Move) : Prop :=
  (∃ old ∈ c.moves, n.from = old.from ∧
    ((Carries D' I' M' ys zs old.to n.to ∧ (old.to ∈ M → n.to ∈ M')) ∨
      (old.to ∉ D' ∧ n.to = IndexShift.shift I' (IndexShift.unshift D' old.to)))) ∨
  ∃ f, f ∉ c.added ∧ Carries D' I' M' ys zs f n.to ∧ (f ∈ M → n.to ∈ M') ∧
    n.from = IndexShift.shift c.deleted (IndexShift.unshift c.added f)

/-- A change set that takes up further changes describes both. -/
theorem Describes.extend {c' : CollectionChangeBuilder} {D' I' M M' : Finset ℕ}
    (h : Describes c M xs ys) (h' : Transforms D' I' M' ys zs)
    (hfits : Fits D' I' ys.length zs.length) (hM' : M' ⊆ Finset.range zs.length)
    (hD : c'.deleted = IndexShift.inserted (IndexShift.erased D' c.added) c.deleted)
    (hI : c'.added = IndexShift.inserted (IndexShift.erased c.added D') I')
    (hmoves : ∀ n ∈ c'.moves, ComesFrom c D' I' M M' ys zs n) :
    Describes c' (carried M D' I' M') xs zs := by
  refine ⟨?_, ?_, ?_, hfits.carried_subset h.marks hM'⟩
  · rw [hD, hI]
    exact h.transforms.comp h'
  · intro n hn
    rw [hD, hI]
    rcases hmoves n hn with ⟨old,hold,hfrom,hto⟩ | ⟨f,hf,hcarry,hM,hfrom⟩
    · rw [hfrom]
      rcases hto with ⟨hcarry,hM⟩ | ⟨hstay,hto⟩
      · exact (h.carries old hold).trans hcarry hM
      · rw [hto]
        exact (h.carries old hold).stay h' hstay
    · rw [hfrom]
      exact h.transforms.carries hcarry hf hM
  · rw [hD, hI]
    exact h.fits.comp hfits

end CollectionChangeBuilder

end ObjectStore
