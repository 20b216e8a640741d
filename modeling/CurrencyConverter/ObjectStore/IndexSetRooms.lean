import CurrencyConverter.ObjectStore.IndexSetErasure

/-! Making room in an index set: rows inserted at one place move the indexes behind it, and
count as indexes of the set or not. -/
namespace ObjectStore

open SeparatedRanges ChunkedRangeVector

namespace IndexSet

variable {b : Build} {v : IndexSet} {it : Iterator} {l t : List Range} {index count : ℕ}
  {S : Finset ℕ}

theorem contains_iff (h : Represents b v S) (index : ℕ) : v.contains index = true ↔ index ∈ S := by
  obtain ⟨l,t,_,hs,hl,ht,hat,hc⟩ := h.find index
  rw [← hc, covers_append, or_iff_right (not_covers_of_le hl), contains]
  cases t with
  | nil =>
    have hend := hat.eq_end_iff.mpr rfl
    simp [hend]
  | cons r t =>
    have hend : v.find index beginIt ≠ v.endIt := fun he => by simpa using hat.eq_end_iff.mp he
    have hr := ht r t rfl
    simp only [hat.deref_eq, hend, ne_eq, not_false_eq_true, true_and, decide_eq_true_eq]
    constructor
    · exact fun hle => covers_cons.mpr (Or.inl ⟨hle, hr⟩)
    · exact fun hx => (separated_append.mp hs).2.1.first_le hx

theorem set_represents (len : ℕ) : Represents b (v.set b len) (Finset.range len) := by
  rw [set]
  by_cases hlen : len = 0
  · rw [if_pos hlen, hlen]
    exact represents_empty
  · rw [if_neg hlen]
    have hat := (at_begin (represents_empty (b := b)).verified).pushBack (0,len)
    refine At.represents hat (by simp [separated_nil]; omega) ?_
    intro x
    simp

theorem addFrom_represents (n : ℕ) (h : At b v it l t) (hs : Separated (l ++ t))
    (hl : ∀ r ∈ l, r.2 ≤ index) (ht : ∀ r ∈ t, index+n ≤ r.1)
    (hS : ∀ x, Covers (l ++ t) x ↔ x ∈ S) :
    Represents b (addFrom b index n v it) (Finset.Ico index (index+n) ∪ S) := by
  induction n generalizing v it l t index S with
  | zero =>
    rw [addFrom, Nat.add_zero, Finset.Ico_self, Finset.empty_union]
    exact At.represents h hs hS
  | succ n ih =>
    have hadd := doAdd_spec h hs hl (by
      intro r q hrq
      have := ht r (by rw [hrq]; simp)
      have := (separated_append.mp hs).2.1.nonempty r (by rw [hrq]; simp)
      omega)
    have hset : Finset.Ico index (index+(n+1)) ∪ S =
        Finset.Ico (index+1) (index+1+n) ∪ insert index S := by
      ext x
      simp only [Finset.mem_union, Finset.mem_Ico, Finset.mem_insert]
      constructor
      · rintro (hx | hx)
        · by_cases he : x = index
          · exact Or.inr (Or.inl he)
          · exact Or.inl (by omega)
        · exact Or.inr (Or.inr hx)
      · rintro (hx | rfl | hx)
        · exact Or.inl (by omega)
        · exact Or.inl (by omega)
        · exact Or.inr hx
    rw [addFrom, hset]
    cases n with
    | zero =>
      rw [addFrom, Nat.add_zero, Finset.Ico_self, Finset.empty_union]
      exact hadd.represents hS
    | succ n =>
      -- more indexes follow, so this one does not reach the ranges behind
      obtain ⟨l',r',t',hat,hs',hr1,_,hc,hfar⟩ := hadd
      obtain ⟨rfl,hr2⟩ := hfar (by
        intro r q hrq
        have := ht r (by rw [hrq]; simp)
        omega)
      apply ih hat.next (by simpa using hs')
      · intro r hr
        rcases List.mem_append.mp hr with hr | hr
        · have := (separated_middle.mp hs').2.2.2.1 r hr
          omega
        · rw [List.mem_singleton.mp hr]
          omega
      · intro r hr
        have := ht r hr
        omega
      · intro x
        rw [List.append_assoc, List.singleton_append, hc, hS, Finset.mem_insert]

/-- Ranges that all moved by the same distance. -/
theorem covers_later (x : ℕ) :
    Covers (t.map (moved count)) x ↔ count ≤ x ∧ Covers t (x-count) := by
  rw [covers_moved (fun r _ => by omega)]
  constructor
  · rintro ⟨y,hy,hc⟩
    have hyx : x-count = y := by omega
    exact ⟨by omega, by rwa [hyx]⟩
  · rintro ⟨hx,hc⟩
    exact ⟨x-count, by omega, hc⟩

theorem moved_natCast (r : Range) : moved (count:ℤ) r = (r.1+count,r.2+count) := by
  simp only [moved, Prod.mk.injEq]
  omega

/-- The ranges before and behind an index, in the set with room made. -/
theorem covers_room (count : ℕ) (hl : ∀ r ∈ l, r.2 ≤ index)
    (ht : ∀ r ∈ t, index ≤ r.1) (hS : ∀ x, Covers (l ++ t) x ↔ x ∈ S) (x : ℕ) :
    Covers (l ++ t.map (moved count)) x ↔
      x ∈ S.image (IndexShift.shift (Finset.Ico index (index+count))) := by
  rw [IndexShift.mem_image_shift_Ico, ← hS, ← hS, covers_append, covers_append, covers_append,
    covers_later]
  have hlx (x : ℕ) : Covers l x → x < index := fun hc => by
    obtain ⟨r,hr,hx⟩ := hc
    have := hl r hr
    omega
  have htx (x : ℕ) : Covers t x → index ≤ x := fun hc => by
    obtain ⟨r,hr,hx⟩ := hc
    have := ht r hr
    omega
  constructor
  · rintro (hc | ⟨hx,hc⟩)
    · exact Or.inl ⟨hlx x hc, Or.inl hc⟩
    · have := htx _ hc
      exact Or.inr ⟨by omega, Or.inr hc⟩
  · rintro (⟨hx,hc | hc⟩ | ⟨hx,hc | hc⟩)
    · exact Or.inl hc
    · have := htx _ hc
      omega
    · have := hlx _ hc
      omega
    · exact Or.inr ⟨by omega, hc⟩

theorem separated_room (hs : Separated (l ++ t)) : Separated (l ++ t.map (moved count)) := by
  obtain ⟨hsl,hst,hlt⟩ := separated_append.mp hs
  refine separated_append.mpr ⟨hsl, separated_moved (fun r _ => by omega) hst, ?_⟩
  intro r hr s hs'
  obtain ⟨u,hu,rfl⟩ := List.mem_map.mp hs'
  have := hlt r hr u hu
  rw [moved_natCast]
  change r.2 < u.1+count
  omega

/-- Rows inserted into the set, all at one place. -/
theorem insertAt_represents (h : Represents b v S) (index count : ℕ) :
    Represents b (v.insertAt b index count)
      (IndexShift.inserted S (Finset.Ico index (index+count))) := by
  obtain ⟨l,t,hlt,hs,hl,ht,hat,hc⟩ := h.find index
  have hfuel : t.length ≤ v.ranges.length := by
    rw [hlt, List.length_append]
    omega
  have hdist : ∀ q, Separated q → ∀ r ∈ q, r.1 ≤ r.2 ∧ (0:ℤ) ≤ r.1+(count:ℤ) := fun q hq r hr =>
    ⟨Nat.le_of_lt (hq.nonempty r hr), by omega⟩
  rw [insertAt]
  cases t with
  | nil =>
    have hend : v.find index beginIt = v.endIt := hat.eq_end_iff.mpr rfl
    have hset := covers_room count hl (by simp) hc
    simp only [hend, ne_eq, not_true_eq_false, false_and, decide_false, Bool.false_eq_true,
      if_false, if_true]
    rw [← hend, IndexShift.inserted]
    exact addFrom_represents count hat hs hl (by simp) hset
  | cons r t =>
    have hend : v.find index beginIt ≠ v.endIt := fun he => by simpa using hat.eq_end_iff.mp he
    have hr := ht r t rfl
    obtain ⟨hsl,hst,hrr,hlr,hrt⟩ := separated_middle.mp hs
    have hlen : t.length ≤ v.ranges.length := Nat.le_of_succ_le hfuel
    simp only [hat.deref_eq, hend, ne_eq, not_false_eq_true, true_and, if_false,
      decide_eq_true_eq]
    by_cases hin : r.1 ≤ index
    · -- the range around the place grows
      simp only [hin, if_true]
      have h₁ : At b (v.adjustAt (v.find index beginIt) 0 count) (v.find index beginIt) l
          ((r.1,r.2+count) :: t) := by
        apply hat.adjustAt (Nat.le_of_lt hrr)
        · change r.1 ≤ r.2+count
          omega
        · simp
        · simp
      obtain ⟨h₂,_⟩ := shiftUntilEndBy_at h₁.next (hdist t hst) v.ranges.length hlen
      refine At.represents h₂ ?_ ?_
      · rw [List.append_assoc]
        refine separated_middle.mpr ⟨hsl, separated_moved (fun r _ => by omega) hst,
          show r.1 < r.2+count by omega, hlr, ?_⟩
        intro s hs'
        obtain ⟨u,hu,rfl⟩ := List.mem_map.mp hs'
        have := hrt u hu
        rw [moved_natCast]
        change r.2+count < u.1+count
        omega
      · intro x
        rw [IndexShift.mem_inserted_Ico, ← hc, ← hc, covers_append, covers_append, covers_cons,
          covers_later, covers_append, covers_cons, covers_append, covers_cons]
        have hlx (x : ℕ) : Covers l x → x < index := fun hc => by
          obtain ⟨s,hs',hx⟩ := hc
          have := hlr s hs'
          omega
        have htx (x : ℕ) : Covers t x → r.2 < x := fun hc => by
          obtain ⟨s,hs',hx⟩ := hc
          have := hrt s hs'
          omega
        have h1 := hlx x
        have h2 := hlx (x-count)
        have h3 := htx x
        have h4 := htx (x-count)
        simp only [covers_nil, or_false]
        grind
    · -- the ranges from there on move, and the rows fill the gap
      simp only [hin, if_false]
      have h₁ : At b (v.shiftAt (v.find index beginIt) count) (v.find index beginIt) l
          (moved count r :: t) := by
        apply hat.shiftAt
        · rw [moved_natCast]
          push_cast
          omega
        · rw [moved_natCast]
          push_cast
          omega
      obtain ⟨h₂,hshape⟩ := shiftUntilEndBy_at h₁.next (hdist t hst) v.ranges.length hlen
      have h₃ := h₂.prev
      rw [← hshape.prev_eq, h₁.prev_next, ← List.map_cons] at h₃
      have hafter : ∀ s ∈ r :: t, index ≤ s.1 := by
        intro s hs'
        rcases List.mem_cons.mp hs' with rfl | hs'
        · omega
        · have := hrt s hs'
          omega
      rw [IndexShift.inserted]
      apply addFrom_represents count h₃ (separated_room hs) hl _ (covers_room count hl hafter hc)
      intro s hs'
      obtain ⟨u,hu,rfl⟩ := List.mem_map.mp hs'
      have := hafter u hu
      rw [moved_natCast]
      change index+count ≤ u.1+count
      omega

/-- Rows inserted outside the set, all at one place. -/
theorem shiftForInsertAt_represents (h : Represents b v S) (index : ℕ) (hcount : 0 < count) :
    Represents b (v.shiftForInsertAt b index count)
      (S.image (IndexShift.shift (Finset.Ico index (index+count)))) := by
  obtain ⟨l,t,hlt,hs,hl,ht,hat,hc⟩ := h.find index
  rw [shiftForInsertAt]
  cases t with
  | nil =>
    rw [if_pos (hat.eq_end_iff.mpr rfl)]
    exact At.represents hat hs (covers_room count hl (by simp) hc)
  | cons r t =>
    have hend : v.find index beginIt ≠ v.endIt := fun he => by simpa using hat.eq_end_iff.mp he
    have hr := ht r t rfl
    obtain ⟨hsl,hst,hrr,hlr,hrt⟩ := separated_middle.mp hs
    have hfuel : (r :: t).length ≤ v.ranges.length := by
      rw [hlt, List.length_append]
      omega
    rw [if_neg hend]
    obtain ⟨h₁,_⟩ := shiftUntilEndBy_at (d := count) hat (fun s hs' =>
      ⟨Nat.le_of_lt ((separated_append.mp hs).2.1.nonempty s hs'), by omega⟩)
      v.ranges.length hfuel
    rw [List.map_cons, moved_natCast] at h₁
    simp only [h₁.deref_eq]
    by_cases hin : r.1 < index
    · -- the range around the place is split
      rw [if_pos (by omega)]
      have h₂ := (h₁.setAt (r.1+count-count) index).next
      have hsub : r.1+count-count = r.1 := by omega
      have hsm : Separated (t.map (moved count)) := separated_moved (fun r _ => by omega) hst
      have hfar : ∀ s ∈ t.map (moved count), r.2+count < s.1 := by
        intro s hs'
        obtain ⟨u,hu,rfl⟩ := List.mem_map.mp hs'
        have := hrt u hu
        rw [moved_natCast]
        change r.2+count < u.1+count
        omega
      have hnew : Separated ((l ++ [(r.1,index)]) ++ (index+count,r.2+count) ::
          t.map (moved count)) := by
        refine separated_middle.mpr ⟨separated_middle.mpr ⟨hsl, separated_nil, hin, hlr, by simp⟩,
          hsm, show index+count < r.2+count by omega, ?_, hfar⟩
        intro s hs'
        rcases List.mem_append.mp hs' with hs' | hs'
        · have := hlr s hs'
          change s.2 < index+count
          omega
        · rw [List.mem_singleton.mp hs']
          change index < index+count
          omega
      rw [hsub] at h₂ ⊢
      refine At.represents (h₂.insert hnew) hnew ?_
      intro x
      rw [IndexShift.mem_image_shift_Ico, ← hc, ← hc, covers_append, covers_append, covers_cons,
        covers_cons, covers_later, covers_append, covers_cons, covers_append, covers_cons]
      have hlx (x : ℕ) : Covers l x → x < index := fun hc => by
        obtain ⟨s,hs',hx⟩ := hc
        have := hlr s hs'
        omega
      have htx (x : ℕ) : Covers t x → r.2 < x := fun hc => by
        obtain ⟨s,hs',hx⟩ := hc
        have := hrt s hs'
        omega
      have h1 := hlx x
      have h2 := hlx (x-count)
      have h3 := htx x
      have h4 := htx (x-count)
      simp only [covers_nil, or_false]
      grind
    · rw [if_neg (by omega)]
      have hafter : ∀ s ∈ r :: t, index ≤ s.1 := by
        intro s hs'
        rcases List.mem_cons.mp hs' with rfl | hs'
        · omega
        · have := hrt s hs'
          omega
      rw [← moved_natCast, ← List.map_cons] at h₁
      exact At.represents h₁ (separated_room hs) (covers_room count hl hafter hc)

end IndexSet

end ObjectStore
