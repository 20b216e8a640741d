import CurrencyConverter.ObjectStore.IndexSetRemoval

/-! The builder behind the operations that run two sets through each other: what it has
written, and what comes out when it is done. -/
namespace ObjectStore

open SeparatedRanges ChunkedRangeVector

namespace ChunkedRangeVectorBuilder

variable {b : Build} {W : List Range} {r : Range} {cap : ℕ} {builder : ChunkedRangeVectorBuilder}

/-- A range written behind the others: it continues the last one or stands on its own. -/
def pushRange (W : List Range) (r : Range) : List Range :=
  if W ≠ [] ∧ r.1 = lastOf W then W.modify (W.length-1) (fun last => (last.1,r.2)) else W ++ [r]

/-- The chunk being written; its end is filled in when it is left. -/
structure Writing (c : Chunk) (d : List Range) : Prop where
  data_eq : c.data = d
  front_eq : d ≠ [] → c.front = firstOf d
  count_eq : d ≠ [] → c.count = width d

/-- The builder expects `cap` chunks and has written the ranges `W`: full chunks, one that
is being written, and chunks that wait. -/
def Building (b : Build) (cap : ℕ) (builder : ChunkedRangeVectorBuilder) (W : List Range) : Prop :=
  ∃ A c d, builder.data = A.map Chunk.ofData ++ c :: List.replicate (cap-(A.length+1)) {} ∧
    builder.outerPos = A.length ∧ Writing c d ∧ W = A.flatten ++ d ∧
    (∀ a ∈ A, a.length = maxSize b) ∧ d.length ≤ maxSize b ∧ (d = [] → A = [])

theorem maxSize_pos (b : Build) : 0 < maxSize b := by
  obtain ⟨h,hpos,hmax,_⟩ := maxSize_eq b
  omega

theorem building_new (v : ChunkedRangeVector) :
    Building b (v.ranges.length/maxSize b+1) (new b v) [] := by
  refine ⟨[], {}, [], ?_, rfl, ⟨rfl, by simp, by simp⟩, rfl, by simp, by simp, fun _ => rfl⟩
  have hlen : v.ranges.length = (v.data.map (fun c => c.data.length)).sum := by
    simp [ranges, List.length_flatMap]
  rw [new, ← hlen, List.replicate_succ]
  simp

theorem length_flatten_full {A : List (List Range)} (h : ∀ a ∈ A, a.length = maxSize b) :
    A.flatten.length = maxSize b*A.length := by
  induction A with
  | nil => simp
  | cons a A ih =>
    rw [List.flatten_cons, List.length_append, h a List.mem_cons_self,
      ih (fun a' ha' => h a' (List.mem_cons_of_mem a ha')), List.length_cons, Nat.mul_succ,
      Nat.add_comm]

theorem getElem?_middle {α : Type*} (A B : List α) (c : α) : (A ++ c :: B)[A.length]? = some c := by
  simp

theorem set_middle {α : Type*} (A B : List α) (c c' : α) :
    (A ++ c :: B).set A.length c' = A ++ c' :: B := by
  simp

theorem modify_last {d : List Range} {last : Range} (f : Range → Range) :
    (d ++ [last]).modify ((d ++ [last]).length-1) f = d ++ [f last] := by
  have h := modify_middle d [] last f
  simpa using h

theorem Writing.continue_last {c : Chunk} {d : List Range} {last : Range}
    (h : Writing c (d ++ [last])) (hr : r.1 = last.2) (hlast : last.1 < last.2) (hlt : r.1 < r.2) :
    Writing { c with
      data := c.data.modify (c.data.length-1) (fun last => (last.1,r.2))
      count := c.count+(r.2-r.1) } (d ++ [(last.1,r.2)]) := by
  refine ⟨?_, ?_, ?_⟩
  · rw [h.data_eq, modify_last]
  · intro _
    have hf := h.front_eq (by simp)
    cases d with
    | nil => exact hf
    | cons r' d => exact hf
  · intro _
    have hc := h.count_eq (by simp)
    simp only [width_append, width_cons, width_nil] at hc ⊢
    omega

theorem pushRange_concat {d : List Range} {q : Range} (hr : r.1 = q.2) :
    pushRange (d ++ [q]) r = d ++ [(q.1,r.2)] := by
  rw [pushRange, if_pos ⟨by simp, by rw [lastOf_concat, hr]⟩, modify_last]

theorem pushRange_apart (h : W = [] ∨ r.1 ≠ lastOf W) : pushRange W r = W ++ [r] := by
  rw [pushRange, if_neg]
  rintro ⟨hne,he⟩
  rcases h with h | h
  · exact hne h
  · exact h he

/-- A push keeps the builder in step, as long as a range of several indexes does not begin a
chunk past the expected ones. -/
theorem pushBack_building (h : Building b cap builder W) (hW : Separated W) (hr : r.1 < r.2)
    (hroom : W.length < maxSize b*cap ∨ r.2 = r.1+1) :
    Building b cap (builder.pushBack b r) (pushRange W r) := by
  obtain ⟨A,c,d,hdata,hpos,hc,hWd,hfull,hlen,hfirst⟩ := h
  have hpos' : builder.outerPos = (A.map Chunk.ofData).length := by rw [hpos, List.length_map]
  have hget : builder.data[builder.outerPos]?.getD {} = c := by
    rw [hdata, hpos', getElem?_middle]
    rfl
  have hmax := maxSize_pos b
  rw [ChunkedRangeVectorBuilder.pushBack]
  simp only [hget, hc.data_eq]
  by_cases hd : d = []
  · -- the first range of all
    obtain rfl := hfirst hd
    subst hd
    rw [if_pos rfl, hWd, pushRange_apart (Or.inl (by simp))]
    refine ⟨[], ⟨[r], r.1, c.back, r.2-r.1⟩, [r], ?_, hpos, ⟨rfl, fun _ => rfl, ?_⟩, by simp,
      by simp, hmax, by simp⟩
    · rw [hdata, hpos]
      simp
    · intro _
      simp
  rw [if_neg hd]
  obtain ⟨d₀,last,rfl⟩ : ∃ d₀ last, d = d₀ ++ [last] := by
    rcases List.eq_nil_or_concat d with he | ⟨d₀,last,he⟩
    · exact absurd he hd
    · exact ⟨d₀, last, by rw [he, List.concat_eq_append]⟩
  have hlast : last.1 < last.2 := hW.nonempty last (by rw [hWd]; simp)
  have hlastW : lastOf W = last.2 := by rw [hWd, ← List.append_assoc, lastOf_concat]
  rw [lastOf_concat]
  by_cases hcont : r.1 = last.2
  · rw [if_pos hcont, hWd, ← List.append_assoc, pushRange_concat hcont, List.append_assoc]
    have hw := hc.continue_last hcont hlast hr
    rw [hc.data_eq] at hw
    refine ⟨A, _, _, ?_, hpos, hw, rfl, hfull, by simpa using hlen, by simp⟩
    rw [hdata, hpos', set_middle]
  rw [if_neg hcont, pushRange_apart (Or.inr (by rw [hlastW]; exact hcont))]
  by_cases hspace : (d₀ ++ [last]).length < maxSize b
  · rw [if_pos hspace]
    refine ⟨A, _, (d₀ ++ [last]) ++ [r], by rw [hdata, hpos', set_middle], hpos, ⟨rfl, ?_, ?_⟩, ?_,
      hfull, ?_, by simp⟩
    · intro _
      rw [firstOf_append hd]
      exact hc.front_eq hd
    · intro _
      change c.count+(r.2-r.1) = _
      rw [hc.count_eq hd, width_append (l := d₀ ++ [last])]
      simp
    · rw [hWd, List.append_assoc, List.append_assoc]
    · rw [List.length_append]
      exact hspace
  rw [if_neg hspace]
  -- the chunk is full: its end is filled in and the next one begins
  have hfilled : ({ c with data := d₀ ++ [last], back := last.2 } : Chunk) =
      Chunk.ofData (d₀ ++ [last]) := by
    rw [Chunk.ofData, ← hc.front_eq hd, ← hc.count_eq hd, lastOf_concat]
  have hfull' : ∀ a ∈ A ++ [d₀ ++ [last]], a.length = maxSize b := by
    intro a ha
    rcases List.mem_append.mp ha with ha | ha
    · exact hfull a ha
    · rw [List.mem_singleton.mp ha]
      omega
  have hWr : W ++ [r] = (A ++ [d₀ ++ [last]]).flatten ++ [r] := by
    rw [hWd]
    simp
  rw [hpos', hdata, set_middle, hfilled]
  cases hk : cap-(A.length+1) with
  | zero =>
    rw [if_pos (by simp)]
    have hone : r.2 = r.1+1 := by
      rcases hroom with hroom | hone
      · -- there is no room any more
        exfalso
        rw [hWd, List.length_append, length_flatten_full hfull] at hroom
        have hle : maxSize b*cap ≤ maxSize b*(A.length+1) := Nat.mul_le_mul_left _ (by omega)
        rw [Nat.mul_succ] at hle
        omega
      · exact hone
    refine ⟨A ++ [d₀ ++ [last]], ⟨[r], r.1, 0, 1⟩, [r], ?_, by simp, ⟨rfl, fun _ => rfl, ?_⟩, hWr,
      hfull', hmax, by simp⟩
    · have hz : cap-((A ++ [d₀ ++ [last]]).length+1) = 0 := by
        rw [List.length_append, List.length_singleton]
        omega
      rw [hz]
      simp
    · intro _
      change 1 = width [r]
      rw [width_cons, width_nil]
      omega
  | succ k =>
    rw [if_neg (by simp)]
    refine ⟨A ++ [d₀ ++ [last]], ⟨[r], r.1, 0, r.2-r.1⟩, [r], ?_, by simp,
      ⟨rfl, fun _ => rfl, fun _ => by simp⟩, hWr, hfull', hmax, by simp⟩
    have hz : cap-((A ++ [d₀ ++ [last]]).length+1) = k := by
      rw [List.length_append, List.length_singleton]
      omega
    have hmod := modify_middle (A.map Chunk.ofData ++ [Chunk.ofData (d₀ ++ [last])])
      (List.replicate k ({} : Chunk)) {} (fun chunk => { chunk with
        data := chunk.data ++ [r], front := r.1, count := r.2-r.1 })
    rw [hz, List.replicate_succ]
    simpa using hmod

theorem finalize_building (h : Building b cap builder W) (hW : Separated W) :
    builder.finalize.Verified b ∧ builder.finalize.ranges = W := by
  obtain ⟨A,c,d,hdata,hpos,hc,hWd,hfull,hlen,hfirst⟩ := h
  have hmax := maxSize_pos b
  have htake : builder.data.take (builder.outerPos+1) = A.map Chunk.ofData ++ [c] := by
    rw [hdata, hpos]
    simp [List.take_append, List.take_of_length_le]
  have hA : Blocks b A := by
    intro a ha
    have := hfull a ha
    refine ⟨?_, by omega⟩
    intro he
    rw [he, List.length_nil] at this
    omega
  rw [finalize, htake, List.getLast?_concat]
  simp only [hc.data_eq, List.dropLast_concat]
  by_cases hd : d = []
  · obtain rfl := hfirst hd
    rw [if_pos hd]
    have hWn : W = [] := by rw [hWd, hd]; rfl
    rw [hWn]
    exact ⟨verified_iff.mpr ⟨[], by simp [Blocks], rfl, separated_nil⟩, rfl⟩
  · rw [if_neg hd]
    have hlast : ({ data := d, front := c.front, back := lastOf d, count := c.count } : Chunk) =
        Chunk.ofData d := by rw [Chunk.ofData, ← hc.front_eq hd, ← hc.count_eq hd]
    have hval : ({ data := A.map Chunk.ofData ++ [Chunk.ofData d] } : ChunkedRangeVector) =
        ofBlocks (A ++ [d]) := by simp [ofBlocks]
    rw [hlast, hval, ranges_ofBlocks]
    have hWf : (A ++ [d]).flatten = W := by rw [hWd]; simp
    exact ⟨verified_iff.mpr ⟨A ++ [d], hA.append (Blocks.one hd hlen), rfl, by rwa [hWf]⟩, hWf⟩

theorem pushRange_cases (hW : Separated W) (hle : ∀ s ∈ W, s.2 ≤ r.1) :
    (∃ W₀ last, W = W₀ ++ [last] ∧ r.1 = last.2 ∧ pushRange W r = W₀ ++ [(last.1,r.2)]) ∨
      ((∀ s ∈ W, s.2 < r.1) ∧ pushRange W r = W ++ [r]) := by
  rcases List.eq_nil_or_concat W with rfl | ⟨W₀,last,rfl⟩
  · exact Or.inr ⟨by simp, pushRange_apart (Or.inl rfl)⟩
  · rw [List.concat_eq_append] at *
    by_cases hr : r.1 = last.2
    · exact Or.inl ⟨W₀, last, rfl, hr, pushRange_concat hr⟩
    · refine Or.inr ⟨?_, pushRange_apart (Or.inr (by rwa [lastOf_concat]))⟩
      have hlast := hle last (by simp)
      obtain ⟨_,_,hll,hW₀,_⟩ := separated_middle.mp hW
      intro s hs
      rcases List.mem_append.mp hs with hs | hs
      · have := hW₀ s hs
        omega
      · rw [List.mem_singleton.mp hs]
        omega

theorem pushRange_spec (hW : Separated W) (hr : r.1 < r.2) (hle : ∀ s ∈ W, s.2 ≤ r.1) :
    Separated (pushRange W r) ∧
      (∀ x, Covers (pushRange W r) x ↔ Covers W x ∨ (r.1 ≤ x ∧ x < r.2)) ∧
        (∀ s ∈ pushRange W r, s.2 ≤ r.2) ∧ (pushRange W r).length ≤ W.length+1 := by
  rcases pushRange_cases hW hle with ⟨W₀,last,rfl,hlast,hval⟩ | ⟨hlt,hval⟩
  · obtain ⟨hs,_,hll,hW₀,_⟩ := separated_middle.mp hW
    rw [hval]
    refine ⟨separated_middle.mpr ⟨hs, separated_nil, show last.1 < r.2 by omega, hW₀, by simp⟩,
      ?_, ?_, by simp⟩
    · intro x
      simp only [covers_append, covers_cons, covers_nil, or_false]
      rw [or_assoc]
      apply or_congr_right
      omega
    · intro s hs'
      rcases List.mem_append.mp hs' with hs' | hs'
      · have := hle s (List.mem_append_left _ hs')
        omega
      · rw [List.mem_singleton.mp hs']
  · rw [hval]
    refine ⟨separated_middle.mpr ⟨hW, separated_nil, hr, hlt, by simp⟩, ?_, ?_, by simp⟩
    · intro x
      simp only [covers_append, covers_cons, covers_nil, or_false]
    · intro s hs'
      rcases List.mem_append.mp hs' with hs' | hs'
      · have := hle s hs'
        omega
      · rw [List.mem_singleton.mp hs']

/-- A range may be pushed in two parts. -/
theorem pushRange_pushRange {i m j : ℕ} (hW : Separated W) (hle : ∀ s ∈ W, s.2 ≤ i) :
    pushRange (pushRange W (i,m)) (m,j) = pushRange W (i,j) := by
  rcases pushRange_cases (r := (i,m)) hW hle with ⟨W₀,last,rfl,hlast,hval⟩ | ⟨hlt,hval⟩
  · have h := pushRange_concat (d := W₀) (r := (i,j)) hlast
    have h' := pushRange_concat (d := W₀) (q := (last.1,m)) (r := (m,j)) rfl
    rw [hval, h', h]
  · have hval' : pushRange W (i,j) = W ++ [(i,j)] := by
      apply pushRange_apart
      by_cases hne : W = []
      · exact Or.inl hne
      · refine Or.inr ?_
        intro he
        rcases List.eq_nil_or_concat W with h | ⟨W₀,last,h⟩
        · exact hne h
        · rw [List.concat_eq_append] at h
          have := hlt last (by rw [h]; simp)
          rw [h, lastOf_concat] at he
          change i = last.2 at he
          change last.2 < i at this
          omega
    have h' := pushRange_concat (d := W) (q := (i,m)) (r := (m,j)) rfl
    rw [hval, hval', h']

/-- The builder has written the indexes `T`, all below `bound`, in at most `n` ranges. -/
def Written (b : Build) (cap : ℕ) (builder : ChunkedRangeVectorBuilder) (T : Finset ℕ)
    (bound n : ℕ) : Prop :=
  ∃ W, Building b cap builder W ∧ Separated W ∧ (∀ x, Covers W x ↔ x ∈ T) ∧
    (∀ s ∈ W, s.2 ≤ bound) ∧ W.length ≤ n

variable {T : Finset ℕ} {bound n : ℕ}

theorem written_new (v : ChunkedRangeVector) :
    Written b (v.ranges.length/maxSize b+1) (new b v) ∅ 0 0 :=
  ⟨[], building_new v, separated_nil, by simp, by simp, le_rfl⟩

theorem Written.pushBack (h : Written b cap builder T bound n) (hr : r.1 < r.2)
    (hb : bound ≤ r.1) (hroom : n < maxSize b*cap ∨ r.2 = r.1+1) :
    Written b cap (builder.pushBack b r) (T ∪ Finset.Ico r.1 r.2) r.2 (n+1) := by
  obtain ⟨W,hB,hW,hT,hle,hn⟩ := h
  obtain ⟨hs,hc,hle',hlen⟩ := pushRange_spec hW hr (fun s hs => Nat.le_trans (hle s hs) hb)
  refine ⟨_, pushBack_building hB hW hr (hroom.imp_left (Nat.lt_of_le_of_lt hn)), hs, ?_, hle',
    by omega⟩
  intro x
  rw [hc, hT, Finset.mem_union, Finset.mem_Ico]

/-- A run of neighbouring indexes is one range. -/
theorem Written.pushIndexes (h : Written b cap builder T bound n) {i : ℕ} (hb : bound ≤ i)
    (k : ℕ) : Written b cap ((List.range' i (k+1)).foldl (pushIndex b) builder)
      (T ∪ Finset.Ico i (i+(k+1))) (i+(k+1)) (n+1) := by
  obtain ⟨W,hB,hW,hT,hle,hn⟩ := h
  have hle' : ∀ s ∈ W, s.2 ≤ i := fun s hs => Nat.le_trans (hle s hs) hb
  have hrun : Building b cap ((List.range' i (k+1)).foldl (pushIndex b) builder)
      (pushRange W (i,i+(k+1))) := by
    induction k with
    | zero => exact pushBack_building hB hW (Nat.lt_succ_self i) (Or.inr rfl)
    | succ k ih =>
      rw [List.range'_concat, List.foldl_append, List.foldl_cons, List.foldl_nil, Nat.one_mul]
      have hstep := pushBack_building (r := (i+(k+1),i+(k+1)+1)) ih
        (pushRange_spec (r := (i,i+(k+1))) hW (show i < i+(k+1) by omega) hle').1
        (Nat.lt_succ_self _) (Or.inr rfl)
      rwa [pushRange_pushRange hW hle'] at hstep
  obtain ⟨hs,hc,hle'',hlen⟩ := pushRange_spec (r := (i,i+(k+1))) hW
    (show i < i+(k+1) by omega) hle'
  refine ⟨_, hrun, hs, ?_, hle'', by omega⟩
  intro x
  rw [hc, hT, Finset.mem_union, Finset.mem_Ico]

theorem Written.pushIndex (h : Written b cap builder T bound n) {i : ℕ} (hb : bound ≤ i) :
    Written b cap (builder.pushIndex b i) (insert i T) (i+1) (n+1) := by
  have hpush := h.pushIndexes hb 0
  rw [Nat.zero_add, Nat.Ico_succ_singleton, Finset.union_comm, ← Finset.insert_eq] at hpush
  exact hpush

theorem Written.foldl (L : List ℕ) (h : Written b cap builder T bound n)
    (hL : L.Pairwise (· < ·)) (hb : ∀ i ∈ L, bound ≤ i) :
    ∃ bound', Written b cap (L.foldl (ChunkedRangeVectorBuilder.pushIndex b) builder)
      (T ∪ L.toFinset) bound' (n+L.length) := by
  induction L generalizing builder T bound n with
  | nil => exact ⟨bound, by simpa using h⟩
  | cons i L ih =>
    obtain ⟨hi,hL⟩ := List.pairwise_cons.mp hL
    obtain ⟨bound',h'⟩ := ih (h.pushIndex (hb i List.mem_cons_self)) hL
      (fun j hj => Nat.succ_le_of_lt (hi j hj))
    refine ⟨bound', ?_⟩
    rw [List.foldl_cons, List.toFinset_cons, List.length_cons, Finset.union_insert,
      ← Finset.insert_union]
    have hlen : n+(L.length+1) = n+1+L.length := by omega
    rwa [hlen]

theorem Written.finalize (h : Written b cap builder T bound n) :
    IndexSet.Represents b builder.finalize T := by
  obtain ⟨W,hB,hW,hT,_,_⟩ := h
  obtain ⟨hv,hr⟩ := finalize_building hB hW
  refine ⟨hv, ?_⟩
  ext x
  rw [IndexSet.indices, mem_members, hr, hT]

/-- Indexes pushed in order come out as their set. -/
theorem build_represents (v : ChunkedRangeVector) (L : List ℕ) (hL : L.Pairwise (· < ·)) :
    IndexSet.Represents b (L.foldl (pushIndex b) (new b v)).finalize L.toFinset := by
  obtain ⟨bound,h⟩ := Written.foldl L (written_new (b := b) v) hL (fun i _ => Nat.zero_le i)
  rw [Finset.empty_union] at h
  exact h.finalize

end ChunkedRangeVectorBuilder

end ObjectStore
