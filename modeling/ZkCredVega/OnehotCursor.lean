import ZkCredVega.Bellpepper

/-!
# One-hot distributions

`allocOneHot values real` allocates one Boolean for each of `values` and makes
them sum to one: a satisfying assignment selects one of the values, and any of
them can be selected.
-/

namespace ZkCredVega

open Circuits

variable {F V : Type} [Field F]

def allocOneHot [One V] (values : List ℕ) (realValue : ℕ) : Circuit F V (List (Boolean V)) := do
  .assert (realValue ∈ values)
  let realIdx := values.idxOf realValue
  let onehot ← (List.range values.length).mapM fun idx => Boolean.alloc (some (idx == realIdx))
  .require (.sum (onehot.map (·.lc 1))) (.const 1) (.const 1)
  pure onehot

theorem ensures_allocOneHot [LargeChar F] {values : List ℕ} {realValue : ℕ}
    (hlen : values.length < 2 ^ 255) :
    (allocOneHot values realValue : Circuit F F _).Ensures fun bs =>
      ∃ j < values.length, Boolean.ReadsAll bs (oneHot values.length j) := by
  unfold allocOneHot
  refine Circuit.ensures_assert.bind fun _ _ => Boolean.ensures_allocBits.bind fun bs hbs => ?_
  refine .require_bind fun h => Circuit.ensures_pure.mpr ?_
  obtain ⟨ys, hys, hr⟩ := hbs
  rw [List.length_range] at hys
  have hsum : (ys.map ofBool).sum = (1 : F) := by
    rw [← Boolean.readsAll_iff.mp hr]
    simpa [Function.comp_def] using h
  obtain ⟨j, hj, hoh⟩ := exists_oneHot_of_sum (by rw [hys]; exact hlen) hsum
  rw [hys] at hj hoh
  exact ⟨j, hj, hoh ▸ hr⟩

theorem admits_allocOneHot {values : List ℕ} {realValue j : ℕ} (hr : realValue ∈ values)
    (hj : j < values.length) :
    (allocOneHot values realValue : Circuit F F _).Admits
      (Boolean.ReadsAll · (oneHot values.length j)) := by
  unfold allocOneHot
  refine (Circuit.admits_assert hr).bind fun _ _ => ?_
  refine (Boolean.admits_allocBits (oneHot values.length j) (by simp)).bind fun bs hbs => ?_
  refine .require_bind ?_ (Circuit.admits_pure.mpr hbs)
  have hsum := sum_oneHot (F := F) hj
  rw [← Boolean.readsAll_iff.mp hbs] at hsum
  simpa [Function.comp_def] using hsum

theorem oneHot_eq_map_beq {values : List ℕ} (hnodup : values.Nodup) {j : ℕ} (hj : j < values.length) :
    oneHot values.length j = values.map (· == values[j]) := by
  refine List.ext_getElem (by simp) fun i h1 h2 => ?_
  have hi : i < values.length := by simpa using h2
  rw [List.getElem_map]
  have heq : (values[i] == values[j]) = (i == j) := by
    apply Bool.eq_iff_iff.mpr
    simp only [beq_iff_eq]
    exact hnodup.getElem_inj_iff
  rw [heq]
  simp [oneHot]

/-- The sum of the allocated Booleans whose index satisfies `p`. -/
def sumWhere [One V] (p : ℕ → Bool) (sel : List (Boolean V)) : LC F V :=
  .sum ((sel.zipIdx.filter fun t => p t.2).map fun t => t.1.lc 1)

theorem eval_sumWhere {sel : List (Boolean F)} {n j : ℕ} (p : ℕ → Bool)
    (h : Boolean.ReadsAll sel (oneHot n j)) (hj : j < n) :
    (sumWhere p sel).eval = ofBool (p j) := by
  rw [← sum_filter_zipIdx_oneHot p hj, ← Boolean.readsAll_iff.mp h, sumWhere, LC.eval_sum]
  simp only [List.zipIdx_map, List.filter_map, List.map_map, Function.comp_def, Prod.map,
    Boolean.eval_lc, one_mul, id]

theorem eval_sum_sel {sel : List (Boolean F)} {xs : List Bool} (h : Boolean.ReadsAll sel xs) :
    (LC.sum (sel.map (·.lc (1 : F)))).eval = (xs.map ofBool).sum := by
  rw [← Boolean.readsAll_iff.mp h]
  simp [Function.comp_def]

theorem succeeds_allocOneHot {values : List ℕ} {v : ℕ} (hv : v ∈ values) (hnodup : values.Nodup) :
    (allocOneHot values v : Circuit F F _).Succeeds (Boolean.HonestReadsAll · (values.map (· == v))) := by
  unfold allocOneHot
  have hj := List.idxOf_lt_length_iff.mpr hv
  refine (Circuit.succeeds_assert hv).bind fun _ _ => ?_
  refine (Circuit.Succeeds.mapM fun j _ => Boolean.succeeds_alloc rfl).bind fun onehot honehot => ?_
  have hreads : Boolean.HonestReadsAll onehot (oneHot values.length (values.idxOf v)) := .of_forall₂ honehot
  refine .require_bind ?_ (Circuit.succeeds_pure.mpr ?_)
  · rw [eval_sum_sel hreads.reads, sum_oneHot hj]
    simp
  · rw [oneHot_eq_map_beq hnodup hj, List.getElem_idxOf hj] at hreads
    exact hreads

/-- A one-hot over `0..n`: its Booleans sum to one. -/
def oneHotSelector [One V] (n real : ℕ) : Circuit F V (List (Boolean V)) := do
  let bits ← (List.range n).mapM fun j => Boolean.alloc (some (j == real))
  .require (.sum (bits.map (·.lc 1))) (.const 1) (.const 1)
  pure bits

section Selector

variable {n real j : ℕ}

theorem ensures_oneHotSelector [LargeChar F] (hn : n < 2 ^ 255) :
    (oneHotSelector n real : Circuit F F _).Ensures fun sel =>
      ∃ j < n, Boolean.ReadsAll sel (oneHot n j) := by
  unfold oneHotSelector
  refine Boolean.ensures_allocBits.bind fun sel hsel => .require_bind fun hsum => ?_
  obtain ⟨xs, hxs, hr⟩ := hsel
  rw [List.length_range] at hxs
  rw [eval_sum_sel hr, LC.eval_const, mul_one] at hsum
  obtain ⟨j, hj, hoh⟩ := exists_oneHot_of_sum (by rw [hxs]; exact hn) hsum
  rw [hxs] at hj hoh
  exact Circuit.ensures_pure.mpr ⟨j, hj, hoh ▸ hr⟩

theorem admits_oneHotSelector (hj : j < n) :
    (oneHotSelector n real : Circuit F F _).Admits (Boolean.ReadsAll · (oneHot n j)) := by
  unfold oneHotSelector
  refine (Boolean.admits_allocBits (oneHot n j) (by simp)).bind fun sel hr => ?_
  refine .require_bind ?_ (Circuit.admits_pure.mpr hr)
  rw [eval_sum_sel hr, sum_oneHot hj]
  simp

theorem succeeds_oneHotSelector (hreal : real < n) :
    (oneHotSelector n real : Circuit F F _).Succeeds
      (Boolean.HonestReadsAll · (oneHot n real)) := by
  unfold oneHotSelector
  refine (Circuit.Succeeds.mapM fun j _ => Boolean.succeeds_alloc rfl).bind fun sel hsel => ?_
  have hr : Boolean.HonestReadsAll sel (oneHot n real) := .of_forall₂ hsel
  refine .require_bind ?_ (Circuit.succeeds_pure.mpr hr)
  rw [eval_sum_sel hr.reads, sum_oneHot hreal]
  simp

end Selector

end ZkCredVega
