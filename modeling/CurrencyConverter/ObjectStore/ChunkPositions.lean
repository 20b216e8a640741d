import CurrencyConverter.ObjectStore.ChunkedRangeVector

/-! What the operations of the chunked vector do to the plain list of its ranges. An iterator
splits that list in two, and an operation on the vector is the operation on the list at the
split. -/
namespace ObjectStore

open SeparatedRanges

/-- The chunk a list of ranges fills. -/
def Chunk.ofData (data : List Range) : Chunk :=
  ⟨data, firstOf data, lastOf data, width data⟩

theorem firstOf_append {p q : List Range} (hp : p ≠ []) : firstOf (p ++ q) = firstOf p := by
  cases p with
  | nil => exact absurd rfl hp
  | cons r p => rfl

@[simp] theorem firstOf_cons (r : Range) (q : List Range) : firstOf (r :: q) = r.1 := rfl

theorem lastOf_append {p q : List Range} (hq : q ≠ []) : lastOf (p ++ q) = lastOf q := by
  rw [lastOf, lastOf, List.getLast?_append_of_ne_nil p hq]

@[simp] theorem lastOf_concat (p : List Range) (r : Range) : lastOf (p ++ [r]) = r.2 := by
  rw [lastOf_append (List.cons_ne_nil r [])]
  rfl

namespace ChunkedRangeVector

def ofBlocks (D : List (List Range)) : ChunkedRangeVector := ⟨D.map Chunk.ofData⟩

def Blocks (b : Build) (D : List (List Range)) : Prop :=
  ∀ d ∈ D, d ≠ [] ∧ d.length ≤ maxSize b

variable {b : Build} {v : ChunkedRangeVector} {it : Iterator} {l t : List Range} {r : Range}
  {A B D : List (List Range)} {d : List Range}

theorem ranges_ofBlocks : (ofBlocks D).ranges = D.flatten := by
  simp [ranges, ofBlocks, List.flatMap_def, Chunk.ofData, Function.comp_def]

theorem verified_iff : v.Verified b ↔ ∃ D, Blocks b D ∧ v = ofBlocks D ∧ Separated D.flatten := by
  constructor
  · intro h
    have hv : v = ofBlocks (v.data.map Chunk.data) := by
      cases v with
      | mk data =>
        rw [ofBlocks, List.map_map, ChunkedRangeVector.mk.injEq]
        conv_lhs => rw [← List.map_id data]
        apply List.map_congr_left
        intro c hc
        have hc := h.chunk c hc
        simp only [id_eq, Function.comp_apply, Chunk.ofData]
        rw [← hc.2.2.1, ← hc.2.2.2.1, ← hc.2.2.2.2]
    refine ⟨v.data.map Chunk.data, ?_, hv, ?_⟩
    · intro d hd
      obtain ⟨c,hc,rfl⟩ := List.mem_map.mp hd
      exact ⟨(h.chunk c hc).1, (h.chunk c hc).2.1⟩
    · rw [← ranges_ofBlocks, ← hv]
      exact h.separated
  · rintro ⟨D,hD,rfl,hs⟩
    refine ⟨by rwa [ranges_ofBlocks], ?_⟩
    intro c hc
    obtain ⟨d,hd,rfl⟩ := List.mem_map.mp hc
    exact ⟨(hD d hd).1, (hD d hd).2, rfl, rfl, rfl⟩

theorem Blocks.append (hA : Blocks b A) (hB : Blocks b B) : Blocks b (A ++ B) := by
  intro d hd
  rcases List.mem_append.mp hd with hd | hd
  · exact hA d hd
  · exact hB d hd

theorem Blocks.left (h : Blocks b (A ++ B)) : Blocks b A :=
  fun d hd => h d (List.mem_append_left B hd)

theorem Blocks.right (h : Blocks b (A ++ B)) : Blocks b B :=
  fun d hd => h d (List.mem_append_right A hd)

theorem Blocks.one (hn : d ≠ []) (hlen : d.length ≤ maxSize b) : Blocks b [d] := by
  intro e he
  rw [List.mem_singleton.mp he]
  exact ⟨hn, hlen⟩

/-- The block in the middle may be exchanged for other blocks. -/
theorem Blocks.replace (h : Blocks b (A ++ d :: B)) (hD : Blocks b D) :
    Blocks b (A ++ (D ++ B)) := h.left.append (hD.append (h.right.right (A := [d])))

theorem modify_middle {α : Type*} (A B : List α) (c : α) (f : α → α) :
    (A ++ c :: B).modify A.length f = A ++ f c :: B := by
  induction A with
  | nil => rfl
  | cons a A ih => simpa using ih

theorem drop_middle {α : Type*} (A B : List α) (c : α) : (A ++ c :: B).drop (A.length+1) = B := by
  induction A with
  | nil => rfl
  | cons a A ih => simp

@[simp] theorem chunk_ofBlocks (A B : List (List Range)) (d : List Range) :
    (ofBlocks (A ++ d :: B)).chunk A.length = Chunk.ofData d := by
  simp [chunk, ofBlocks]

/-- The iterator stands before the ranges `t` and behind the ranges `l`. -/
inductive At (b : Build) (v : ChunkedRangeVector) (it : Iterator) (l t : List Range) : Prop
  | finish (D : List (List Range)) (hD : Blocks b D) (hv : v = ofBlocks D)
      (hit : it = ⟨D.length, 0⟩) (hl : l = D.flatten) (ht : t = [])
  | inside (A B : List (List Range)) (p : List Range) (r : Range) (s : List Range)
      (hD : Blocks b (A ++ (p ++ r :: s) :: B)) (hv : v = ofBlocks (A ++ (p ++ r :: s) :: B))
      (hit : it = ⟨A.length, p.length⟩) (hl : l = A.flatten ++ p)
      (ht : t = r :: (s ++ B.flatten))

theorem At.ranges_eq (h : At b v it l t) : v.ranges = l ++ t := by
  cases h with
  | finish D hD hv hit hl ht => rw [hv, ranges_ofBlocks, hl, ht, List.append_nil]
  | inside A B p r s hD hv hit hl ht =>
    rw [hv, ranges_ofBlocks, hl, ht]
    simp

theorem At.blocks (h : At b v it l t) : ∃ D, Blocks b D ∧ v = ofBlocks D := by
  cases h with
  | finish D hD hv hit hl ht => exact ⟨D, hD, hv⟩
  | inside A B p r s hD hv hit hl ht => exact ⟨_, hD, hv⟩

theorem At.verified (h : At b v it l t) (hs : Separated (l ++ t)) : v.Verified b := by
  obtain ⟨D,hD,hv⟩ := h.blocks
  refine verified_iff.mpr ⟨D, hD, hv, ?_⟩
  rwa [← ranges_ofBlocks, ← hv, h.ranges_eq]

/-- Between two blocks. -/
theorem at_boundary (h : Blocks b (A ++ B)) :
    At b (ofBlocks (A ++ B)) ⟨A.length, 0⟩ A.flatten B.flatten := by
  cases B with
  | nil => exact At.finish A h.left (by rw [List.append_nil]) rfl rfl rfl
  | cons d B =>
    cases d with
    | nil => exact absurd rfl (h [] (by simp)).1
    | cons r s => exact At.inside A B [] r s h rfl rfl (by simp) (by simp)

theorem at_begin (h : v.Verified b) : At b v beginIt [] v.ranges := by
  obtain ⟨D,hD,rfl,hs⟩ := verified_iff.mp h
  rw [ranges_ofBlocks]
  exact at_boundary (A := []) hD

theorem At.eq_end_iff (h : At b v it l t) : it = v.endIt ↔ t = [] := by
  cases h with
  | finish D hD hv hit hl ht => simp [hv, hit, ht, endIt, ofBlocks]
  | inside A B p r s hD hv hit hl ht =>
    simp [hv, hit, ht, endIt, ofBlocks]

theorem At.outer_eq_iff (h : At b v it l t) : it.outer = v.data.length ↔ t = [] := by
  cases h with
  | finish D hD hv hit hl ht => simp [hv, hit, ht, ofBlocks]
  | inside A B p r s hD hv hit hl ht =>
    simp [hv, hit, ht, ofBlocks]

theorem Blocks.flatten_eq_nil_iff (h : Blocks b D) : D.flatten = [] ↔ D = [] := by
  constructor
  · intro hf
    cases D with
    | nil => rfl
    | cons d D =>
      rw [List.flatten_cons, List.append_eq_nil_iff] at hf
      exact absurd hf.1 (h d List.mem_cons_self).1
  · rintro rfl
    rfl

theorem At.eq_begin_iff (h : At b v it l t) : it = beginIt ↔ l = [] := by
  cases h with
  | finish D hD hv hit hl ht =>
    rw [hit, hl, hD.flatten_eq_nil_iff, beginIt]
    simp
  | inside A B p r s hD hv hit hl ht =>
    rw [hit, hl, List.append_eq_nil_iff, hD.left.flatten_eq_nil_iff, beginIt]
    simp

theorem At.deref_eq (h : At b v it l (r :: t)) : v.deref it = r := by
  cases h with
  | finish D hD hv hit hl ht => exact absurd ht (List.cons_ne_nil r t)
  | inside A B p r' s hD hv hit hl ht =>
    rw [(List.cons.inj ht).1, deref, hv, hit]
    simp [Chunk.ofData]

theorem Chunk_ofData_length (d : List Range) : (Chunk.ofData d).data.length = d.length := rfl

theorem At.next (h : At b v it l (r :: t)) : At b v (v.next it) (l ++ [r]) t := by
  cases h with
  | finish D hD hv hit hl ht => exact absurd ht (List.cons_ne_nil r t)
  | inside A B p r' s hD hv hit hl ht =>
    obtain ⟨hr,ht⟩ := List.cons.inj ht
    have hlen : (v.chunk it.outer).data.length = p.length+(s.length+1) := by
      rw [hv, hit, chunk_ofBlocks, Chunk_ofData_length, List.length_append, List.length_cons]
    cases s with
    | nil =>
      -- the last range of its block: the next block begins
      have hnext : v.next it = ⟨(A ++ [p ++ [r]]).length, 0⟩ := by
        rw [ChunkedRangeVector.next, hlen, hit, nextChunk]
        simp
      have hD' : Blocks b ((A ++ [p ++ [r]]) ++ B) := by simpa [hr] using hD
      have hb := at_boundary hD'
      have hv' : v = ofBlocks ((A ++ [p ++ [r]]) ++ B) := by simpa [hr] using hv
      rw [hnext, hv', hl, ht]
      simpa using hb
    | cons r'' s =>
      have hnext : v.next it = ⟨A.length, (p ++ [r]).length⟩ := by
        rw [ChunkedRangeVector.next, hlen, hit, if_neg (by simp)]
        simp
      exact At.inside A B (p ++ [r]) r'' s (by simpa [hr] using hD) (by simpa [hr] using hv) hnext
        (by rw [hl, List.append_assoc]) (by rw [ht]; rfl)

/-- The last range lies at the end of the last block. -/
theorem Blocks.last (h : Blocks b D) (hl : D.flatten = l ++ [r]) :
    ∃ A p, D = A ++ [p ++ [r]] ∧ l = A.flatten ++ p := by
  rcases List.eq_nil_or_concat D with rfl | ⟨A,d,rfl⟩
  · simp at hl
  · rcases List.eq_nil_or_concat d with rfl | ⟨p,r',rfl⟩
    · exact absurd rfl (h [] (by simp)).1
    · simp only [List.concat_eq_append, List.flatten_append, List.flatten_cons, List.flatten_nil,
        List.append_nil, ← List.append_assoc] at hl
      obtain ⟨hl,hr⟩ := List.append_inj' hl rfl
      refine ⟨A, p, ?_, hl.symm⟩
      rw [List.concat_eq_append, List.concat_eq_append, (List.cons.inj hr).1]

theorem At.prev (h : At b v it (l ++ [r]) t) : At b v (v.prev it) l (r :: t) := by
  -- to the left of a block boundary stands the last range of the block before it
  have hboundary : ∀ A B, Blocks b (A ++ B) → v = ofBlocks (A ++ B) → it = ⟨A.length, 0⟩ →
      A.flatten = l ++ [r] → B.flatten = t → At b v (v.prev it) l (r :: t) := by
    intro A B hD hv hit hA hB
    obtain ⟨A',p,rfl,hl⟩ := hD.left.last hA
    have hD' : Blocks b (A' ++ (p ++ r :: []) :: B) := by simpa using hD
    have hv' : v = ofBlocks (A' ++ (p ++ r :: []) :: B) := by simpa using hv
    have hprev : v.prev it = ⟨A'.length, p.length⟩ := by
      rw [ChunkedRangeVector.prev, hit, if_pos rfl]
      have houter : (A' ++ [p ++ [r]]).length-1 = A'.length := by simp
      rw [houter, hv', chunk_ofBlocks, Chunk_ofData_length]
      simp
    exact At.inside A' B p r [] hD' hv' hprev hl (by rw [← hB]; rfl)
  cases h with
  | finish D hD hv hit hl ht =>
    exact hboundary D [] (by rwa [List.append_nil]) (by rwa [List.append_nil]) hit hl.symm
      ht.symm
  | inside A B p r' s hD hv hit hl ht =>
    rcases List.eq_nil_or_concat p with rfl | ⟨p',r'',rfl⟩
    · exact hboundary A _ hD hv hit (by simpa using hl.symm) (by rw [ht]; simp)
    · rw [List.concat_eq_append, ← List.append_assoc] at hl
      obtain ⟨hl',hr⟩ := List.append_inj' hl rfl
      have hprev : v.prev it = ⟨A.length, p'.length⟩ := by
        rw [ChunkedRangeVector.prev, hit, if_neg (by simp)]
        simp
      obtain rfl := (List.cons.inj hr).1
      exact At.inside A B p' r (r' :: s) (by simpa using hD) (by simpa using hv) hprev hl'
        (by rw [ht]; rfl)

/-- Changing one range inside its chunk changes it in the list. -/
theorem At.modify {r' : Range} (h : At b v it l (r :: t)) (g : Chunk → Chunk)
    (hg : ∀ p s, p.length = it.inner →
      g (Chunk.ofData (p ++ r :: s)) = Chunk.ofData (p ++ r' :: s)) :
    At b { data := v.data.modify it.outer g } it l (r' :: t) := by
  cases h with
  | finish D hD hv hit hl ht => exact absurd ht (List.cons_ne_nil r t)
  | inside A B p r'' s hD hv hit hl ht =>
    obtain ⟨hr,ht⟩ := List.cons.inj ht
    have hD' : Blocks b (A ++ (p ++ r' :: s) :: B) := by
      apply hD.replace (D := [p ++ r' :: s])
      apply Blocks.one
      · simp
      · have hlen := (hD (p ++ r'' :: s) (by simp)).2
        simpa using hlen
    apply At.inside A B p r' s hD' _ hit hl (by rw [ht])
    have hmid := modify_middle (A.map Chunk.ofData) (B.map Chunk.ofData)
      (Chunk.ofData (p ++ r :: s)) g
    rw [List.length_map] at hmid
    simp only [hv, hit, ofBlocks, List.map_append, List.map_cons, ← hr, hmid]
    rw [hg p s (by rw [hit])]

theorem put_ofData (p s : List Range) (r r' : Range) (front back : ℕ)
    (hfront : p = [] → front = r'.1) (hback : s = [] → back = r'.2) :
    put (Chunk.ofData (p ++ r :: s)) p.length front back (width (p ++ r' :: s)) r' =
      Chunk.ofData (p ++ r' :: s) := by
  have hset : (p ++ r :: s).set p.length r' = p ++ r' :: s := by simp
  have hf : (if p.length = 0 then front else firstOf (p ++ r :: s)) = firstOf (p ++ r' :: s) := by
    cases p with
    | nil => exact hfront rfl
    | cons r'' p => rfl
  have hb : (if p.length+1 = (p ++ r :: s).length then back else lastOf (p ++ r :: s)) =
      lastOf (p ++ r' :: s) := by
    cases s with
    | nil => rw [if_pos (by simp), hback rfl, lastOf_concat]
    | cons r'' s =>
      rw [if_neg (by simp), lastOf_append (List.cons_ne_nil _ _),
        lastOf_append (List.cons_ne_nil _ _)]
      rfl
  rw [put, Chunk.ofData, Chunk.ofData, Chunk.mk.injEq]
  exact ⟨hset, hf, hb, rfl⟩

theorem At.setAt (h : At b v it l (r :: t)) (front back : ℕ) :
    At b (v.setAt it front back) it l ((front,back) :: t) := by
  have hr := h.deref_eq
  apply h.modify
  intro p s hp
  rw [hr, ← hp]
  have hcount : (Chunk.ofData (p ++ r :: s)).count-(r.2-r.1)+(back-front) =
      width (p ++ (front,back) :: s) := by
    simp only [Chunk.ofData, width_append, width_cons]
    omega
  rw [hcount]
  exact put_ofData p s r (front,back) front back (fun _ => rfl) (fun _ => rfl)

theorem At.adjustAt {front back : ℤ} {r' : Range} (h : At b v it l (r :: t)) (hr : r.1 ≤ r.2)
    (hr' : r'.1 ≤ r'.2) (h1 : (r'.1:ℤ) = r.1+front) (h2 : (r'.2:ℤ) = r.2+back) :
    At b (v.adjustAt it front back) it l (r' :: t) := by
  have hd := h.deref_eq
  apply h.modify
  intro p s hp
  rw [hd, ← hp]
  have hcount : (((Chunk.ofData (p ++ r :: s)).count:ℤ) + (-front+back)).toNat =
      width (p ++ r' :: s) := by
    simp only [Chunk.ofData, width_append, width_cons]
    omega
  have hnew : ((r.1+front).toNat,(r.2+back).toNat) = r' := by
    rw [← h1, ← h2, Int.toNat_natCast, Int.toNat_natCast]
  rw [hcount, hnew]
  apply put_ofData
  · rintro rfl
    simp only [Chunk.ofData, List.nil_append, firstOf_cons, ← h1, Int.toNat_natCast]
  · rintro rfl
    simp only [Chunk.ofData, lastOf_concat, ← h2, Int.toNat_natCast]

theorem At.shiftAt {distance : ℤ} {r' : Range} (h : At b v it l (r :: t))
    (h1 : (r'.1:ℤ) = r.1+distance) (h2 : (r'.2:ℤ) = r.2+distance) :
    At b (v.shiftAt it distance) it l (r' :: t) := by
  have hd := h.deref_eq
  apply h.modify
  intro p s hp
  rw [hd, ← hp]
  have hcount : (Chunk.ofData (p ++ r :: s)).count = width (p ++ r' :: s) := by
    simp only [Chunk.ofData, width_append, width_cons]
    omega
  have hnew : ((r.1+distance).toNat,(r.2+distance).toNat) = r' := by
    rw [← h1, ← h2, Int.toNat_natCast, Int.toNat_natCast]
  rw [hcount, hnew]
  apply put_ofData
  · rintro rfl
    simp only [Chunk.ofData, List.nil_append, firstOf_cons, ← h1, Int.toNat_natCast]
  · rintro rfl
    simp only [Chunk.ofData, lastOf_concat, ← h2, Int.toNat_natCast]

theorem maxSize_eq (b : Build) : ∃ h, 0 < h ∧ maxSize b = 2*h ∧ maxSize b/2 = h := by
  cases b
  · exact ⟨2, by decide, rfl, rfl⟩
  · exact ⟨128, by decide, rfl, rfl⟩
  · exact ⟨256, by decide, rfl, rfl⟩

theorem At.erase (h : At b v it l (r :: t)) : At b (v.erase it).1 (v.erase it).2 l t := by
  cases h with
  | finish D hD hv hit hl ht => exact absurd ht (List.cons_ne_nil r t)
  | inside A B p r' s hD hv hit hl ht =>
    obtain ⟨rfl,ht'⟩ := List.cons.inj ht
    have hchunk : v.chunk it.outer = Chunk.ofData (p ++ r :: s) := by rw [hv, hit, chunk_ofBlocks]
    have hderef : v.deref it = r :=
      (At.inside A B p r s hD hv hit hl ht).deref_eq
    have hdata : (Chunk.ofData (p ++ r :: s)).data.eraseIdx it.inner = p ++ s := by
      rw [hit]
      simp [Chunk.ofData, List.eraseIdx_append_of_length_le]
    have hset (c : Chunk) : v.data.set it.outer c = A.map Chunk.ofData ++ c :: B.map Chunk.ofData := by
      rw [hv, hit]
      simp [ofBlocks]
    have hcount : (Chunk.ofData (p ++ r :: s)).count-(r.2-r.1) = width (p ++ s) := by
      simp only [Chunk.ofData, width_append, width_cons]
      omega
    simp only [ChunkedRangeVector.erase, hchunk, hdata, hderef, hset, hcount]
    by_cases hps : p ++ s = []
    · -- the chunk is empty now, and goes as well
      obtain ⟨hp,hs⟩ := List.append_eq_nil_iff.mp hps
      have hvec : ({ data := v.data.eraseIdx it.outer } : ChunkedRangeVector) =
          ofBlocks (A ++ B) := by
        rw [hv, hit]
        simp [ofBlocks, List.eraseIdx_append_of_length_le]
      rw [if_pos (by rw [hps]; rfl), hvec, hit, hl, ht', hp, hs, List.append_nil,
        List.nil_append]
      exact at_boundary (hD.left.append (hD.right.right (A := [p ++ r :: s])))
    · have hlen := (hD (p ++ r :: s) (by simp)).2
      have hD' : Blocks b (A ++ (p ++ s) :: B) := by
        apply hD.replace (D := [p ++ s])
        apply Blocks.one hps
        simp only [List.length_append, List.length_cons] at hlen ⊢
        omega
      have hvec : ({ data := A.map Chunk.ofData ++ Chunk.ofData (p ++ s) :: B.map Chunk.ofData } :
          ChunkedRangeVector) = ofBlocks (A ++ (p ++ s) :: B) := by simp [ofBlocks]
      rw [if_neg (by simpa using hps)]
      change At b { data := _ ++ Chunk.ofData (p ++ s) :: _ } _ l t
      rw [hvec]
      cases s with
      | nil =>
        rw [if_neg (by rw [hit]; simp), nextChunk, hit, hl, ht']
        have hD'' : Blocks b ((A ++ [p]) ++ B) := by simpa using hD'
        simpa using at_boundary hD''
      | cons r'' s =>
        rw [if_pos (by rw [hit]; simp)]
        exact At.inside A B p r'' s hD' rfl hit hl ht'

theorem pushBack_ofBlocks (hD : Blocks b D) (x : Range) :
    ∃ A p, Blocks b (A ++ [p ++ [x]]) ∧ (ofBlocks D).pushBack b x = ofBlocks (A ++ [p ++ [x]]) ∧
      D.flatten = A.flatten ++ p := by
  obtain ⟨h,hpos,hmax,hhalf⟩ := maxSize_eq b
  have hfresh : Blocks b (D ++ [[] ++ [x]]) :=
    hD.append (Blocks.one (by simp) (by simp; omega))
  rcases List.eq_nil_or_concat D with rfl | ⟨A,d,rfl⟩
  · refine ⟨[], [], hfresh, ?_, rfl⟩
    simp [pushBack, ofBlocks, Chunk.ofData, lastOf]
  · simp only [List.concat_eq_append] at *
    by_cases hlen : d.length < maxSize b
    · have hd : d ≠ [] := (hD d (by simp)).1
      refine ⟨A, d, hD.left.append (Blocks.one (by simp) ?_), ?_, by simp⟩
      · rw [List.length_append]
        exact hlen
      · simp [pushBack, ofBlocks, Chunk.ofData, hlen, firstOf_append hd]
    · refine ⟨A ++ [d], [], hfresh, ?_, by simp⟩
      simp [pushBack, ofBlocks, Chunk.ofData, hlen, lastOf]

/-- After room is made the iterator stands at its range in a chunk that is not full. -/
theorem At.ensureSpace (h : At b v it l (r :: t)) : ∃ A B p s,
    Blocks b (A ++ (p ++ r :: s) :: B) ∧ (p ++ r :: s).length+1 ≤ maxSize b ∧
      v.ensureSpace b it = (ofBlocks (A ++ (p ++ r :: s) :: B), ⟨A.length, p.length⟩) ∧
      l = A.flatten ++ p ∧ t = s ++ B.flatten := by
  cases h with
  | finish D hD hv hit hl ht => exact absurd ht (List.cons_ne_nil r t)
  | inside A B p r' s hD hv hit hl ht =>
    obtain ⟨rfl,ht'⟩ := List.cons.inj ht
    have hchunk : v.chunk it.outer = Chunk.ofData (p ++ r :: s) := by rw [hv, hit, chunk_ofBlocks]
    have hmax := (hD (p ++ r :: s) (by simp)).2
    by_cases hfull : (p ++ r :: s).length+1 ≤ maxSize b
    · refine ⟨A, B, p, s, hD, hfull, ?_, hl, ht'⟩
      rw [ChunkedRangeVector.ensureSpace, hchunk, Chunk_ofData_length, if_pos hfull, hv, hit]
    · obtain ⟨m,hpos,hmax2,hhalf⟩ := maxSize_eq b
      -- a full chunk holds twice as many ranges as move
      have hlen : (p ++ r :: s).length-m = m := by omega
      have hsplit (kept moved : List Range) : v.data.take it.outer ++ Chunk.ofData kept ::
          Chunk.ofData moved :: v.data.drop (it.outer+1) =
            (ofBlocks (A ++ kept :: moved :: B)).data := by
        have hdrop := drop_middle (A.map Chunk.ofData) (B.map Chunk.ofData)
          (Chunk.ofData (p ++ r :: s))
        rw [List.length_map] at hdrop
        rw [hv, hit]
        simp [ofBlocks, hdrop]
      have hens : ∀ kept moved, kept ++ moved = p ++ r :: s → kept.length = m →
          v.ensureSpace b it = (ofBlocks (A ++ kept :: moved :: B),
            if p.length ≥ m then ⟨A.length+1, p.length-m⟩ else ⟨A.length, p.length⟩) := by
        intro kept moved hkm hk
        have hkept : (p ++ r :: s).take m = kept := by rw [← hkm, ← hk, List.take_left]
        have hmoved : (p ++ r :: s).drop m = moved := by rw [← hkm, ← hk, List.drop_left]
        have hkne : kept ≠ [] := by
          intro h
          rw [h, List.length_nil] at hk
          omega
        have hfirst : firstOf (p ++ r :: s) = firstOf kept := by rw [← hkm, firstOf_append hkne]
        have hwidth : width (p ++ r :: s)-width moved = width kept := by
          rw [← hkm, width_append]
          omega
        have hdata := hsplit kept moved
        rw [ChunkedRangeVector.ensureSpace, hchunk, Chunk_ofData_length, if_neg hfull]
        simp only [Chunk.ofData, hhalf, hlen, hkept, hmoved, hfirst, hwidth] at hdata ⊢
        rw [hdata, hit]
      have hblocks : ∀ kept moved, kept ++ moved = p ++ r :: s → kept.length = m →
          Blocks b (A ++ kept :: moved :: B) := by
        intro kept moved hkm hk
        have hml : (kept ++ moved).length = (p ++ r :: s).length := by rw [hkm]
        rw [List.length_append] at hml
        apply hD.replace (D := [kept, moved])
        apply Blocks.append (A := [kept])
        · apply Blocks.one
          · intro h
            rw [h, List.length_nil] at hk
            omega
          · omega
        · apply Blocks.one
          · intro h
            rw [h, List.length_nil] at hml
            omega
          · omega
      by_cases hside : p.length ≥ m
      · have hkm : p.take m ++ (p.drop m ++ r :: s) = p ++ r :: s := by
          rw [← List.append_assoc, List.take_append_drop]
        have hk : (p.take m).length = m := by
          rw [List.length_take]
          omega
        have hml : (p.drop m ++ r :: s).length+1 ≤ maxSize b := by
          simp only [List.length_append, List.length_drop, List.length_cons] at hlen hmax ⊢
          omega
        refine ⟨A ++ [p.take m], B, p.drop m, s, ?_, hml, ?_, ?_, ht'⟩
        · simpa using hblocks _ _ hkm hk
        · rw [hens _ _ hkm hk, if_pos hside]
          simp
        · rw [hl]
          simp
      · have hkm : (p ++ r :: s.take (m-p.length-1)) ++ s.drop (m-p.length-1) = p ++ r :: s := by
          simp
        have hk : (p ++ r :: s.take (m-p.length-1)).length = m := by
          simp only [List.length_append, List.length_cons, List.length_take] at hlen ⊢
          omega
        refine ⟨A, s.drop (m-p.length-1) :: B, p, s.take (m-p.length-1), ?_, by omega, ?_, hl, ?_⟩
        · exact hblocks _ _ hkm hk
        · rw [hens _ _ hkm hk, if_neg hside]
        · rw [ht', List.flatten_cons, ← List.append_assoc, List.take_append_drop]

theorem insertIdx_middle {α : Type*} (p q : List α) (x : α) :
    (p ++ q).insertIdx p.length x = p ++ x :: q := by
  induction p with
  | nil => rfl
  | cons a p ih => simpa using ih

theorem At.pushBack (h : At b v it l []) (x : Range) :
    At b (v.pushBack b x) ((v.pushBack b x).prev (v.pushBack b x).endIt) l [x] := by
  obtain ⟨D,hD,hv⟩ := h.blocks
  have hl : D.flatten = l := by
    have hr := h.ranges_eq
    rwa [hv, ranges_ofBlocks, List.append_nil] at hr
  obtain ⟨A,p,hD',hpush,hflat⟩ := pushBack_ofBlocks hD x
  rw [hv, hpush]
  apply At.prev
  apply At.finish _ hD' rfl
  · simp [endIt, ofBlocks]
  · rw [← hl, hflat]
    simp
  · rfl

/-- A range that fits between its neighbours is put between them. -/
theorem At.insert {x : Range} (h : At b v it l t) (hs : Separated (l ++ x :: t)) :
    At b (v.insert b it x).1 (v.insert b it x).2 l (x :: t) := by
  cases t with
  | nil =>
    rw [ChunkedRangeVector.insert, if_pos (h.outer_eq_iff.mpr rfl)]
    exact h.pushBack x
  | cons r t =>
    rw [ChunkedRangeVector.insert, if_neg (fun he => List.cons_ne_nil r t (h.outer_eq_iff.mp he))]
    obtain ⟨A,B,p,s,hD,hlen,hens,hl,ht⟩ := h.ensureSpace
    rw [hens]
    obtain ⟨hsl,hsx,hlx⟩ := separated_append.mp hs
    obtain ⟨hx,hxr,hsr⟩ := separated_cons.mp hsx
    have hD' : Blocks b (A ++ (p ++ x :: r :: s) :: B) := by
      apply hD.replace (D := [p ++ x :: r :: s])
      apply Blocks.one
      · simp
      · simp only [List.length_append, List.length_cons] at hlen ⊢
        omega
    have hfront : min (firstOf (p ++ r :: s)) x.1 = firstOf (p ++ x :: r :: s) := by
      cases p with
      | nil =>
        have := hxr r List.mem_cons_self
        rw [List.nil_append, List.nil_append, firstOf_cons, firstOf_cons]
        omega
      | cons q p =>
        have hq := hsl.nonempty q (by rw [hl]; simp)
        have := hlx q (by rw [hl]; simp) x List.mem_cons_self
        rw [List.cons_append, List.cons_append, firstOf_cons, firstOf_cons]
        omega
    have hback : max (lastOf (p ++ r :: s)) x.2 = lastOf (p ++ x :: r :: s) := by
      rw [lastOf_append (List.cons_ne_nil r s),
        show p ++ x :: r :: s = (p ++ [x]) ++ (r :: s) by simp,
        lastOf_append (List.cons_ne_nil r s)]
      obtain ⟨y,q,hy⟩ : ∃ y q, r :: s = q ++ [y] := by
        rcases List.eq_nil_or_concat (r :: s) with he | ⟨q,y,he⟩
        · exact absurd he (List.cons_ne_nil r s)
        · exact ⟨y, q, by rw [he, List.concat_eq_append]⟩
      have hmem : y ∈ r :: t := by
        rw [ht, ← List.cons_append, hy]
        simp
      have := hxr y hmem
      have := hsr.nonempty y hmem
      rw [hy, lastOf_concat]
      omega
    have hmid := modify_middle (A.map Chunk.ofData) (B.map Chunk.ofData)
      (Chunk.ofData (p ++ r :: s)) (fun c => {
        data := c.data.insertIdx p.length x
        count := c.count+(x.2-x.1)
        front := min c.front x.1
        back := max c.back x.2 })
    have hdata := insertIdx_middle p (r :: s) x
    have hcount : width (p ++ r :: s)+(x.2-x.1) = width (p ++ x :: r :: s) := by
      simp only [width_append, width_cons]
      omega
    rw [List.length_map] at hmid
    apply At.inside A B p x (r :: s) hD' _ rfl hl (by rw [ht]; simp)
    simp only [ofBlocks, List.map_append, List.map_cons, hmid]
    simp only [Chunk.ofData, hdata, hcount, hfront, hback]

theorem exists_split_findIdx {α : Type*} (q : α → Bool) (l : List α) : ∃ l₁ l₂,
    l = l₁ ++ l₂ ∧ l.findIdx q = l₁.length ∧ (∀ x ∈ l₁, q x = false) ∧
      ∀ x l₃, l₂ = x :: l₃ → q x = true := by
  induction l with
  | nil => exact ⟨[], [], rfl, rfl, by simp, by simp⟩
  | cons a l ih =>
    by_cases ha : q a = true
    · refine ⟨[], a :: l, rfl, by simp [List.findIdx_cons, ha], by simp, ?_⟩
      intro x l₃ h
      rw [← (List.cons.inj h).1]
      exact ha
    · obtain ⟨l₁,l₂,rfl,hidx,hno,hyes⟩ := ih
      refine ⟨a :: l₁, l₂, rfl, ?_, ?_, hyes⟩
      · simp [List.findIdx_cons, ha, hidx]
      · intro x hx
        rcases List.mem_cons.mp hx with rfl | hx
        · simpa using ha
        · exact hno x hx

/-- In separated ranges the last one ends last. -/
theorem le_lastOf {q : List Range} (hs : Separated q) {x : Range} (hx : x ∈ q) :
    x.2 ≤ lastOf q := by
  rcases List.eq_nil_or_concat q with rfl | ⟨q',y,rfl⟩
  · simp at hx
  · rw [List.concat_eq_append] at *
    rw [lastOf_concat]
    obtain ⟨_,hy,hlt⟩ := separated_append.mp hs
    rcases List.mem_append.mp hx with hx | hx
    · have := hlt x hx y (by simp)
      have := hy.nonempty y (by simp)
      omega
    · rw [List.mem_singleton.mp hx]

/-- The search inside one block, from behind the ranges `p`. -/
theorem at_lowerBound {p q : List Range} {index : ℕ} (hD : Blocks b (A ++ (p ++ q) :: B))
    (hq : index < lastOf q) (hne : q ≠ []) : ∃ q' t', q ++ B.flatten = q' ++ t' ∧
      (∀ r ∈ q', r.2 ≤ index) ∧ (∀ r q, t' = r :: q → index < r.2) ∧
      At b (ofBlocks (A ++ (p ++ q) :: B))
        ⟨A.length, p.length + q.findIdx (fun lft => ¬ lft.2 ≤ index)⟩
        (A.flatten ++ p ++ q') t' := by
  obtain ⟨q₁,q₂,hsplit,hidx,hno,hyes⟩ := exists_split_findIdx (fun r => ¬ r.2 ≤ index) q
  have hle : ∀ r ∈ q₁, r.2 ≤ index := fun r hr => by simpa using hno r hr
  cases q₂ with
  | nil =>
    -- the last range of the block ends beyond the index
    rcases List.eq_nil_or_concat q with he | ⟨q',y,he⟩
    · exact absurd he hne
    · rw [List.concat_eq_append] at he
      rw [he, lastOf_concat] at hq
      have := hle y (by rw [List.append_nil] at hsplit; rw [← hsplit, he]; simp)
      omega
  | cons r q₂ =>
    refine ⟨q₁, r :: (q₂ ++ B.flatten), by rw [hsplit]; simp, hle, ?_, ?_⟩
    · intro r' q' hr'
      rw [← (List.cons.inj hr').1]
      simpa using hyes r q₂ rfl
    · rw [hidx]
      have hblock : p ++ q = (p ++ q₁) ++ r :: q₂ := by rw [hsplit, List.append_assoc]
      rw [hblock] at hD ⊢
      exact At.inside A B (p ++ q₁) r q₂ hD rfl (by simp) (by simp) rfl

/-- From an iterator with only ranges up to `index` behind it, the search stops at the first
range that ends beyond `index`. -/
theorem At.find {index : ℕ} (h : At b v it l t) (hs : Separated (l ++ t))
    (hl : ∀ r ∈ l, r.2 ≤ index) : ∃ l' t', t = l' ++ t' ∧ (∀ r ∈ l', r.2 ≤ index) ∧
      (∀ r q, t' = r :: q → index < r.2) ∧ At b v (v.find index it) (l ++ l') t' := by
  obtain ⟨A,C,p,hD,hv,hit,hla,hpt,hp⟩ : ∃ A C p, Blocks b (A ++ C) ∧ v = ofBlocks (A ++ C) ∧
      it = ⟨A.length, p.length⟩ ∧ l = A.flatten ++ p ∧ C.flatten = p ++ t ∧
      ∀ d C', C = d :: C' → ∃ q, q ≠ [] ∧ d = p ++ q := by
    cases h with
    | finish D hD hv hit hl ht =>
      exact ⟨D, [], [], by simpa using hD, by simpa using hv, hit, by simpa using hl,
        by simp [ht], by simp⟩
    | inside A B p r s hD hv hit hl ht =>
      refine ⟨A, (p ++ r :: s) :: B, p, hD, hv, hit, hl, by simp [ht], ?_⟩
      intro d C' he
      exact ⟨r :: s, List.cons_ne_nil r s, (List.cons.inj he).1.symm⟩
  have hC : Separated C.flatten := by
    rw [hla, List.append_assoc, ← hpt] at hs
    exact (separated_append.mp hs).2.1
  have hblock : ∀ d ∈ C, Separated d := by
    intro d hd
    obtain ⟨C₁,C₂,rfl⟩ := List.append_of_mem hd
    rw [List.flatten_append, List.flatten_cons] at hC
    exact (separated_append.mp (separated_append.mp hC).2.1).1
  obtain ⟨C₁,C₂,hsplit,hidx,hno,hyes⟩ :=
    exists_split_findIdx (fun d => decide (index < lastOf d)) C
  have hle : ∀ r ∈ C₁.flatten, r.2 ≤ index := by
    intro r hr
    obtain ⟨d,hd,hr⟩ := List.mem_flatten.mp hr
    have hlast := le_lastOf (hblock d (by rw [hsplit]; simp [hd])) hr
    have := hno d hd
    simp only [decide_eq_false_iff_not] at this
    omega
  have houter : it.outer + (v.data.drop it.outer).findIdx (fun lft => index < lft.back) =
      A.length+C₁.length := by
    rw [← hidx, hv, hit]
    simp [ofBlocks, Chunk.ofData, List.findIdx_map, Function.comp_def]
    rfl
  cases C₂ with
  | nil =>
    -- every chunk ends at or before the index
    rw [List.append_nil] at hsplit
    refine ⟨t, [], by simp, ?_, by simp, ?_⟩
    · intro r hr
      apply hle
      rw [← hsplit, hpt]
      exact List.mem_append_right p hr
    · have hlen : v.data.length = A.length+C₁.length := by
        rw [hv, hsplit]
        simp [ofBlocks]
      rw [ChunkedRangeVector.find, houter, if_pos (by omega)]
      apply At.finish (A ++ C) hD hv
      · rw [endIt, hlen, hsplit, List.length_append]
      · rw [hla, List.append_assoc, ← hpt, List.flatten_append]
      · rfl
  | cons d C₃ =>
    have hd : index < lastOf d := by simpa using hyes d C₃ rfl
    have hds : Separated d := hblock d (by rw [hsplit]; simp)
    have hdne : d ≠ [] := (hD d (by rw [hsplit]; simp)).1
    have hlen : ¬ v.data.length ≤ A.length+C₁.length := by
      rw [hv, hsplit]
      simp [ofBlocks]
    have hv' : v = ofBlocks ((A ++ C₁) ++ d :: C₃) := by rw [hv, hsplit, List.append_assoc]
    have hD' : Blocks b ((A ++ C₁) ++ d :: C₃) := by rwa [List.append_assoc, ← hsplit]
    have hchunk : v.chunk (A.length+C₁.length) = Chunk.ofData d := by
      rw [hv', ← List.length_append, chunk_ofBlocks]
    -- a chunk that begins behind the index is met at its first range either way
    have hfind : ∀ p' q, d = p' ++ q → (∀ r ∈ p', r.2 ≤ index) → q ≠ [] →
        (if A.length+C₁.length = A.length then p.length else 0) = p'.length →
        v.find index it = ⟨(A ++ C₁).length,
          p'.length + q.findIdx (fun lft => ¬ lft.2 ≤ index)⟩ := by
      intro p' q hpq hp' hq hif
      have hdrop : (Chunk.ofData d).data.drop p'.length = q := by simp [Chunk.ofData, hpq]
      rw [ChunkedRangeVector.find, houter, if_neg hlen, hchunk, hit, List.length_append]
      simp only [hif, hdrop]
      by_cases hfront : index < (Chunk.ofData d).front
      · rw [if_pos hfront]
        cases p' with
        | nil =>
          cases q with
          | nil => exact absurd rfl hq
          | cons r q =>
            rw [hpq] at hfront hds
            have hr := (separated_cons.mp hds).1
            have : index < r.1 := hfront
            have hgt : index < r.2 := by omega
            simp [List.findIdx_cons, hgt]
        | cons r p' =>
          have hr := hds.nonempty r (by rw [hpq]; simp)
          have := hp' r List.mem_cons_self
          rw [hpq] at hfront
          have : index < r.1 := hfront
          omega
      · rw [if_neg hfront]
    cases C₁ with
    | nil =>
      obtain ⟨q,hq,hdq⟩ := hp d C₃ (by rw [hsplit]; rfl)
      have hp' : ∀ r ∈ p, r.2 ≤ index := fun r hr => hl r (by rw [hla]; simp [hr])
      have hval := hfind p q hdq hp' hq (by simp)
      rw [hdq, lastOf_append hq] at hd
      rw [hdq] at hD' hv'
      obtain ⟨q',t',ht,hq',hhead,hat⟩ := at_lowerBound hD' hd hq
      refine ⟨q', t', ?_, hq', hhead, ?_⟩
      · rw [hsplit, hdq, List.nil_append, List.flatten_cons, List.append_assoc] at hpt
        rw [← ht]
        exact (List.append_cancel_left hpt).symm
      · rw [hval, hv', hla]
        simpa using hat
    | cons d₀ C₁ =>
      have hval := hfind [] d rfl (by simp) hdne (by simp)
      obtain ⟨q',t',ht,hq',hhead,hat⟩ := at_lowerBound (p := []) hD' hd hdne
      -- what the search passed begins with what was behind the iterator
      have hpass : ∃ l', (d₀ :: C₁).flatten = p ++ l' := by
        obtain ⟨q,_,hq⟩ := hp d₀ (C₁ ++ d :: C₃) (by rw [hsplit]; rfl)
        exact ⟨q ++ C₁.flatten, by rw [List.flatten_cons, hq, List.append_assoc]⟩
      obtain ⟨l',hl'⟩ := hpass
      refine ⟨l' ++ q', t', ?_, ?_, hhead, ?_⟩
      · rw [hsplit, List.flatten_append, hl', List.append_assoc, List.flatten_cons, ht] at hpt
        rw [← List.append_cancel_left hpt, List.append_assoc]
      · intro r hr
        rcases List.mem_append.mp hr with hr | hr
        · exact hle r (by rw [hl']; simp [hr])
        · exact hq' r hr
      · rw [hval, hv', hla]
        simpa [hl'] using hat

theorem ofBlocks_injective (h : ofBlocks A = ofBlocks B) : A = B := by
  have hdata := congrArg (fun w => w.data.map Chunk.data) h
  simpa [ofBlocks, Chunk.ofData, Function.comp_def] using hdata

/-- A chunk boundary further right has more ranges behind it. -/
theorem length_flatten_lt {A' B' : List (List Range)} {c c' : List Range}
    (h : A ++ c :: B = A' ++ c' :: B') (hlt : A.length < A'.length) :
    A.flatten.length+c.length ≤ A'.flatten.length := by
  rcases List.append_eq_append_iff.mp h with ⟨X,hA,hX⟩ | ⟨X,hA,_⟩
  · cases X with
    | nil =>
      rw [hA, List.append_nil] at hlt
      omega
    | cons x X =>
      rw [hA, (List.cons.inj hX).1]
      simp
  · rw [hA, List.length_append] at hlt
    omega

/-- There is one iterator for a split of the ranges. -/
theorem At.unique {it' : Iterator} {l' t' : List Range} (h : At b v it l t)
    (h' : At b v it' l' t') (hlen : l.length = l'.length) : it = it' := by
  have htot : l.length+t.length = l'.length+t'.length := by
    rw [← List.length_append, ← List.length_append, ← h.ranges_eq, ← h'.ranges_eq]
  cases h with
  | finish D hD hv hit hl ht =>
    have ht' : t' = [] := by
      apply List.eq_nil_of_length_eq_zero
      rw [ht, List.length_nil] at htot
      omega
    rw [h'.eq_end_iff.mpr ht', hit, hv]
    simp [endIt, ofBlocks]
  | inside A B p r s hD hv hit hl ht =>
    cases h' with
    | finish D' hD' hv' hit' hl' ht' =>
      rw [ht, ht', List.length_nil, List.length_cons] at htot
      omega
    | inside A' B' p' r' s' hD' hv' hit' hl' ht' =>
      have hsame := ofBlocks_injective (hv.symm.trans hv')
      have hlen' : A.flatten.length+p.length = A'.flatten.length+p'.length := by
        rw [← List.length_append, ← List.length_append, ← hl, ← hl', hlen]
      have hA : A.length = A'.length := by
        rcases Nat.lt_trichotomy A.length A'.length with hlt | heq | hlt
        · have := length_flatten_lt hsame hlt
          simp only [List.length_append, List.length_cons] at this
          omega
        · exact heq
        · have := length_flatten_lt hsame.symm hlt
          simp only [List.length_append, List.length_cons] at this
          omega
      obtain ⟨rfl,_⟩ := List.append_inj hsame hA
      rw [hit, hit', Iterator.mk.injEq]
      exact ⟨rfl, by omega⟩

theorem At.next_prev (h : At b v it (l ++ [r]) t) : v.next (v.prev it) = it :=
  h.prev.next.unique h rfl

theorem At.prev_next (h : At b v it l (r :: t)) : v.prev (v.next it) = it :=
  h.next.prev.unique h rfl

/-- The same numbers of ranges in the same chunks. -/
def SameShape (v w : ChunkedRangeVector) : Prop :=
  v.data.map (fun c => c.data.length) = w.data.map (fun c => c.data.length)

variable {w u : ChunkedRangeVector}

theorem SameShape.trans (h : SameShape v w) (h' : SameShape w u) : SameShape v u :=
  Eq.trans h h'

theorem SameShape.chunk (h : SameShape v w) (i : ℕ) :
    (v.chunk i).data.length = (w.chunk i).data.length := by
  have hi := congrArg (fun q => q[i]?.getD 0) h
  simp only [List.getElem?_map] at hi
  simp only [ChunkedRangeVector.chunk]
  cases hv : v.data[i]? with
  | none => cases hw : w.data[i]? <;> simp_all
  | some c => cases hw : w.data[i]? <;> simp_all

theorem SameShape.next_eq (h : SameShape v w) (it : Iterator) : v.next it = w.next it := by
  rw [ChunkedRangeVector.next, ChunkedRangeVector.next, h.chunk]

theorem SameShape.prev_eq (h : SameShape v w) (it : Iterator) : v.prev it = w.prev it := by
  rw [ChunkedRangeVector.prev, ChunkedRangeVector.prev, h.chunk]

theorem SameShape.endIt_eq (h : SameShape v w) : v.endIt = w.endIt := by
  have hlen := congrArg List.length h
  rw [List.length_map, List.length_map] at hlen
  rw [endIt, endIt, hlen]

theorem sameShape_modify (i : ℕ) (g : Chunk → Chunk)
    (hg : ∀ c, (g c).data.length = c.data.length) :
    SameShape v { data := v.data.modify i g } := by
  rw [SameShape]
  apply List.ext_getElem?
  intro k
  simp only [List.getElem?_map, List.getElem?_modify]
  by_cases hk : i = k
  · cases v.data[k]? <;> simp [hk, hg]
  · cases v.data[k]? <;> simp [hk]

theorem sameShape_adjustAt (front back : ℤ) : SameShape v (v.adjustAt it front back) :=
  sameShape_modify _ _ (fun c => by simp [put])

theorem sameShape_shiftAt (distance : ℤ) : SameShape v (v.shiftAt it distance) :=
  sameShape_modify _ _ (fun c => by simp [put])

theorem sameShape_setAt (front back : ℕ) : SameShape v (v.setAt it front back) :=
  sameShape_modify _ _ (fun c => by simp [put])

end ChunkedRangeVector

end ObjectStore
