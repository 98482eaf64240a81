import ZkCredVega.Circuit.Shape
import ZkCredVega.Nym.MdocCore

/-!
# One shape for every witness

Setup synthesizes a blank core and a blank step, and the prover synthesizes them with a credential.
Sums of slots are `Alike` when they are over the same variables with the same weights, whatever their
values. Every gadget given alike arguments builds one constraint system and returns alike results, so
the keys that setup makes from blank circuits fit every presentation.
-/

namespace ZkCredVega

open Circuits

section Alike

variable {F V : Type}

/-- The numbers are one variable. -/
def AllocatedNum.Alike (a b : AllocatedNum F V) : Prop := a.var = b.var

/-- The Booleans are one variable, or its negation, or one constant. -/
def Boolean.Alike : Boolean V → Boolean V → Prop
  | .is a, .is b => a.var = b.var
  | .not a, .not b => a.var = b.var
  | .constant a, .constant b => a = b
  | _, _ => False

theorem Boolean.Alike.lc [Field F] [One V] {a b : Boolean V} (h : a.Alike b) (c : F) : a.lc c = b.lc c := by
  cases a <;> cases b <;> simp_all [Boolean.Alike, Boolean.lc]

theorem Boolean.same_alloc [Field F] [One V] {x y : Option Bool} :
    Circuit.Same Boolean.Alike (Boolean.alloc x : Circuit F V _) (Boolean.alloc y) := by
  refine Circuit.Same.map (R := fun a b : AllocatedBit V => a.var = b.var) ?_ fun a b h => h
  refine Circuit.same_var.bind fun v w hvw => ?_
  subst hvw
  exact (Circuit.same_require rfl rfl rfl).bind fun _ _ _ => Circuit.same_pure rfl

theorem AllocatedNum.same_alloc [Field F] {x y : Outcome F} :
    Circuit.Same AllocatedNum.Alike (AllocatedNum.alloc x : Circuit F V _) (AllocatedNum.alloc y) :=
  Circuit.same_var.bind fun _ _ h => Circuit.same_pure h

theorem AllocatedNum.same_allocInput [Field F] {x y : Outcome F} :
    Circuit.Same AllocatedNum.Alike (AllocatedNum.allocInput x : Circuit F V _) (AllocatedNum.allocInput y) :=
  Circuit.same_input.bind fun _ _ h => Circuit.same_pure h

end Alike

namespace Nym

section Gadgets

variable {F V : Type} [Field F] [One V]

/-! ## Weighted sums -/

/-- The sums have the same terms. -/
def Lc.Alike (a b : Lc F V) : Prop := a.lc = b.lc

abbrev Lc.AllAlike : List (Lc F V) → List (Lc F V) → Prop := List.Forall₂ Lc.Alike

abbrev Boolean.AllAlike : List (Boolean V) → List (Boolean V) → Prop := List.Forall₂ ZkCredVega.Boolean.Alike

namespace Lc

variable {a b a' b' : Lc F V}

omit [One V] in
theorem alike_zero : (0 : Lc F V).Alike 0 := rfl

omit [Field F] in
theorem alike_constant (c : F) : (constant c : Lc F V).Alike (constant c) := rfl

omit [One V] in
theorem alike_num {n n' : AllocatedNum F V} (h : n.Alike n') : (num n).Alike (num n') := congrArg LC.var h

theorem alike_bit {x y : Boolean V} (h : x.Alike y) : (bit x : Lc F V).Alike (bit y) := h.lc 1

omit [One V] in
theorem Alike.scale (h : a.Alike b) (c : F) : (a.scale c).Alike (b.scale c) := by
  show LC.mk _ = LC.mk _
  rw [h]

omit [One V] in
theorem Alike.add (ha : a.Alike a') (hb : b.Alike b') : (a + b).Alike (a' + b') := congrArg₂ (· + ·) ha hb

omit [One V] in
theorem Alike.sub (ha : a.Alike a') (hb : b.Alike b') : (a - b).Alike (a' - b') := congrArg₂ (· - ·) ha hb

omit [One V] in
theorem same_alloc {x y : Option F} : Circuit.Same Lc.Alike (Lc.alloc x : Circuit F V _) (Lc.alloc y) :=
  Circuit.same_var.bind fun _ _ h => Circuit.same_pure (congrArg LC.var h)

omit [One V] in
theorem alike_fold {α : Type} {R : α → α → Prop} {f : α → Lc F V} (hf : ∀ x y, R x y → (f x).Alike (f y)) (step : F → F)
    {xs ys : List α} (h : List.Forall₂ R xs ys) (w : F) (hab : a.Alike b) :
    (xs.foldl (fun (t : Lc F V × F) x => (t.1 + (f x).scale t.2, step t.2)) (a, w)).1.Alike
      (ys.foldl (fun (t : Lc F V × F) x => (t.1 + (f x).scale t.2, step t.2)) (b, w)).1 := by
  induction h generalizing a b w with
  | nil => exact hab
  | cons hxy _ ih => exact ih _ (hab.add ((hf _ _ hxy).scale w))

end Lc

theorem alike_pack {xs ys : List (Boolean V)} (h : Boolean.AllAlike xs ys) : (pack xs : Lc F V).Alike (pack ys) :=
  Lc.alike_fold (f := Lc.bit) (fun _ _ => Lc.alike_bit) (fun w => w + w) (List.forall₂_reverse_iff.mpr h) 1 Lc.alike_zero

omit [One V] in
theorem alike_packBytes {xs ys : List (Lc F V)} (h : Lc.AllAlike xs ys) : (packBytes xs).Alike (packBytes ys) :=
  Lc.alike_fold (f := id) (fun _ _ h => h) (fun w => w * 256) (List.forall₂_reverse_iff.mpr h) 1 Lc.alike_zero

theorem alike_decimal {xs ys : List (Lc F V)} (h : Lc.AllAlike xs ys) : (decimal xs).Alike (decimal ys) :=
  Lc.alike_fold (f := fun digit => digit - Lc.constant 48) (fun _ _ h => h.sub (Lc.alike_constant 48)) (fun w => w * 10)
    (List.forall₂_reverse_iff.mpr h) 1 Lc.alike_zero

/-! ## Rules and slots -/

section Rules

variable {a b c a' b' c' : Lc F V}

omit [Field F] [One V] in
theorem same_product (ha : a.Alike a') (hb : b.Alike b') (hc : c.Alike c') :
    Circuit.Same (fun _ _ => True) (product a b c) (product a' b' c') := Circuit.same_require ha hb hc

theorem same_equal (ha : a.Alike a') (hb : b.Alike b') :
    Circuit.Same (fun _ _ => True) (equal a b) (equal a' b') := Circuit.same_require (ha.sub hb) rfl rfl

omit [One V] in
theorem same_mul (ha : a.Alike a') (hb : b.Alike b') : Circuit.Same Lc.Alike (mul a b) (mul a' b') :=
  Lc.same_alloc.bind fun _ _ hc => (same_product ha hb hc).bind fun _ _ _ => Circuit.same_pure hc

omit [One V] in
theorem same_mux (ha : a.Alike a') (hb : b.Alike b') (hc : c.Alike c') :
    Circuit.Same Lc.Alike (mux a b c) (mux a' b' c') := by
  refine Lc.same_alloc.bind fun _ _ hout => ?_
  exact (same_product ha (hc.sub hb) (hout.sub hb)).bind fun _ _ _ => Circuit.same_pure hout

theorem same_nonzero (ha : a.Alike a') : Circuit.Same (fun _ _ => True) (nonzero a) (nonzero a') :=
  Lc.same_alloc.bind fun _ _ hinv => same_product ha hinv (Lc.alike_constant 1)

/-! ## Bits -/

/-- The prover's bits, if it has any, are as many as the circuit allocates. -/
def Covers (bits : Option (List Bool)) (n : ℕ) : Prop := ∀ bs ∈ bits, n ≤ bs.length

omit [Field F] [One V] in
theorem exists_bitAt {bits : Option (List Bool)} {n i : ℕ} (h : Covers bits n) (hi : i < n) :
    ∃ b, (bitAt bits i : Circuit F V _) = pure b := by
  cases bits with
  | none => exact ⟨none, rfl⟩
  | some bs =>
    have hlt : i < bs.length := hi.trans_le (h bs rfl)
    exact ⟨some bs[i], by simp only [bitAt, List.getElem?_eq_getElem hlt]⟩

theorem same_allocBits {bits bits' : Option (List Bool)} {n : ℕ} (h : Covers bits n) (h' : Covers bits' n) :
    Circuit.Same Boolean.AllAlike (allocBits bits n : Circuit F V _) (allocBits bits' n) := by
  refine Circuit.Same.mapM_self fun i hi => ?_
  obtain ⟨b, hb⟩ := exists_bitAt (F := F) (V := V) h (List.mem_range.mp hi)
  obtain ⟨b', hb'⟩ := exists_bitAt (F := F) (V := V) h' (List.mem_range.mp hi)
  rw [hb, hb', pure_bind, pure_bind]
  exact Boolean.same_alloc

theorem same_bits [ToRepr F] (ha : a.Alike a') (n : ℕ) : Circuit.Same Boolean.AllAlike (bits a n) (bits a' n) := by
  have hcovers : ∀ x : Option F,
      Covers (x.map fun v => ((List.range n).map fun i => (ToRepr.toNat v).testBit i).reverse) n := by
    intro x bs hbs
    obtain ⟨v, -, rfl⟩ := Option.map_eq_some_iff.mp hbs
    simp
  refine (Circuit.same_assert Iff.rfl).bind fun _ _ _ => ?_
  refine (same_allocBits (hcovers _) (hcovers _)).bind fun out out' hout => ?_
  exact (same_equal (alike_pack hout) ha).bind fun _ _ _ => Circuit.same_pure hout

theorem same_digestBits [ToRepr F] (ha : a.Alike a') (hb : b.Alike b') :
    Circuit.Same Boolean.AllAlike (digestBits a b) (digestBits a' b') := by
  refine (same_bits ha 128).bind fun out out' hout => (same_bits hb 128).bind fun rest rest' hrest => ?_
  exact Circuit.same_pure (List.rel_append hout hrest)

theorem same_rangeCheck [ToRepr F] (ha : a.Alike a') (n : ℕ) :
    Circuit.Same (fun _ _ => True) (rangeCheck a n) (rangeCheck a' n) :=
  (same_bits ha n).bind fun _ _ _ => Circuit.same_pure trivial

theorem same_lessThan {xs ys : List (Boolean V)} (h : Boolean.AllAlike xs ys) (bound : List UInt8) :
    Circuit.Same (fun _ _ => True) (lessThan xs bound : Circuit F V Unit) (lessThan ys bound) := by
  refine (Circuit.same_assert (by rw [h.length_eq])).bind fun _ _ _ => ?_
  have hfold : Circuit.Same (fun s t : Lc F V × Lc F V => s.1.Alike t.1 ∧ s.2.Alike t.2)
      ((xs.zip (bytesBits bound)).foldlM lessThanBit (Lc.constant 1, 0))
      ((ys.zip (bytesBits bound)).foldlM lessThanBit (Lc.constant 1, 0)) := by
    refine Circuit.Same.foldlM ⟨Lc.alike_constant 1, Lc.alike_zero⟩ ?_
    have hsame : List.Forall₂ Eq (bytesBits bound) (bytesBits bound) := List.forall₂_same.mpr fun _ _ => rfl
    refine (Circuit.forall₂_zip_zip h hsame).imp fun x y hxy s t hst => ?_
    obtain ⟨hbit, hbound⟩ := hxy
    unfold lessThanBit
    rw [← hbound]
    split
    · refine (same_mul hst.1 (Lc.alike_bit hbit)).bind fun still still' hstill => ?_
      exact Circuit.same_pure ⟨hstill, hst.2.add (hst.1.sub hstill)⟩
    · refine (same_mul hst.1 ((Lc.alike_constant 1).sub (Lc.alike_bit hbit))).bind fun still still' hstill => ?_
      exact Circuit.same_pure ⟨hstill, hst.2⟩
  exact hfold.bind fun s t hst => same_equal hst.2 (Lc.alike_constant 1)

end Rules

/-! ## Points and signatures -/

section Points

structure Point.Alike (p q : Point F V) : Prop where
  x : p.x.Alike q.x
  y : p.y.Alike q.y

variable {a a' b b' : Lc F V} {p p' q q' : Point F V} {x y : Boolean V} {xs ys : List (Boolean V)}

omit [Field F] in
theorem Point.alike_constant (c : F × F) : (Point.constant c : Point F V).Alike (Point.constant c) :=
  ⟨Lc.alike_constant c.1, Lc.alike_constant c.2⟩

omit [One V] in
theorem Point.same_alloc {k k' : Option PublicKey} :
    Circuit.Same Point.Alike (Point.alloc k : Circuit F V _) (Point.alloc k') :=
  Lc.same_alloc.bind fun _ _ hx => Lc.same_alloc.bind fun _ _ hy => Circuit.same_pure ⟨hx, hy⟩

omit [One V] in
theorem same_fromSlope (ha : a.Alike a') (hp : p.Alike p') (hb : b.Alike b') :
    Circuit.Same Point.Alike (fromSlope a p b) (fromSlope a' p' b') := by
  refine Lc.same_alloc.bind fun u u' hu => ?_
  refine (same_product ha ha ((hu.add hp.x).add hb)).bind fun _ _ _ => ?_
  refine Lc.same_alloc.bind fun v v' hv => ?_
  exact (same_product ha (hp.x.sub hu) (hv.add hp.y)).bind fun _ _ _ => Circuit.same_pure ⟨hu, hv⟩

theorem same_add (hp : p.Alike p') (hq : q.Alike q') : Circuit.Same Point.Alike (add p q) (add p' q') := by
  have hdx := hq.x.sub hp.x
  refine (same_nonzero hdx).bind fun _ _ _ => Lc.same_alloc.bind fun l l' hl => ?_
  exact (same_product hl hdx (hq.y.sub hp.y)).bind fun _ _ _ => same_fromSlope hl hp hq.x

theorem same_double (hp : p.Alike p') : Circuit.Same Point.Alike (double p) (double p') := by
  refine (same_mul hp.x hp.x).bind fun xx xx' hxx => Lc.same_alloc.bind fun l l' hl => ?_
  refine (same_product hl (hp.y.scale 2) ((hxx.scale 3).sub (Lc.alike_constant 3))).bind fun _ _ _ => ?_
  exact same_fromSlope hl hp hp.x

theorem same_choose (hx : x.Alike y) (hp : p.Alike p') (hq : q.Alike q') :
    Circuit.Same Point.Alike (choose x p q) (choose y p' q') := by
  have hbit : (Lc.bit x : Lc F V).Alike (Lc.bit y) := Lc.alike_bit hx
  refine (same_mux hbit hp.x hq.x).bind fun u u' hu => ?_
  exact (same_mux hbit hp.y hq.y).bind fun v v' hv => Circuit.same_pure ⟨hu, hv⟩

theorem same_multiply (constants : Constants F) (h : Boolean.AllAlike xs ys) (hp : p.Alike p') :
    Circuit.Same Point.Alike (multiply constants xs p) (multiply constants ys p') := by
  refine (Circuit.same_assert (by rw [h.length_eq])).bind fun _ _ _ => ?_
  have hfold : Circuit.Same Point.Alike (xs.foldlM (multiplyBit p) (Point.constant constants.start))
      (ys.foldlM (multiplyBit p') (Point.constant constants.start)) := by
    refine Circuit.Same.foldlM (Point.alike_constant _) (h.imp fun x y hxy acc acc' hacc => ?_)
    refine (same_double hacc).bind fun doubled doubled' hdoubled => ?_
    exact (same_add hdoubled hp).bind fun added added' hadded => same_choose hxy hdoubled hadded
  exact hfold.bind fun acc acc' hacc => same_add hacc (Point.alike_constant _)

omit [Field F] [One V] in
theorem same_bitOf (h : Boolean.AllAlike xs ys) (i : ℕ) :
    Circuit.Same ZkCredVega.Boolean.Alike (bitOf xs i : Circuit F V _) (bitOf ys i) := by
  have hget := Circuit.forall₂_getElem? h i
  unfold bitOf
  generalize xs[i]? = x at hget ⊢
  generalize ys[i]? = y at hget ⊢
  cases hget with
  | some hxy => exact Circuit.same_pure hxy
  | none => exact .fail .panic

theorem alike_coordinateOf {low low' high high' both both' : Lc F V} (hlow : low.Alike low') (hhigh : high.Alike high')
    (hboth : both.Alike both') (c0 c1 c2 c3 : F) :
    (coordinateOf low high both c0 c1 c2 c3).Alike (coordinateOf low' high' both' c0 c1 c2 c3) :=
  (((Lc.alike_constant c0).add (hlow.scale _)).add (hhigh.scale _)).add (hboth.scale _)

theorem same_generatorWindow (h : Boolean.AllAlike xs ys) {sum sum' : Option (Point F V)}
    (hsum : Option.Rel Point.Alike sum sum') (t : ((F × F) × (F × F) × (F × F) × (F × F)) × ℕ) :
    Circuit.Same (Option.Rel Point.Alike) (generatorWindow xs sum t) (generatorWindow ys sum' t) := by
  refine (same_bitOf h _).bind fun high high' hhigh => (same_bitOf h _).bind fun low low' hlow => ?_
  have hhigh : (Lc.bit high : Lc F V).Alike (Lc.bit high') := Lc.alike_bit hhigh
  have hlow : (Lc.bit low : Lc F V).Alike (Lc.bit low') := Lc.alike_bit hlow
  refine (same_mul hhigh hlow).bind fun both both' hboth => ?_
  have hx := alike_coordinateOf hlow hhigh hboth t.1.1.1 t.1.2.1.1 t.1.2.2.1.1 t.1.2.2.2.1
  have hy := alike_coordinateOf hlow hhigh hboth t.1.1.2 t.1.2.1.2 t.1.2.2.1.2 t.1.2.2.2.2
  cases hsum with
  | none => exact (Circuit.same_pure ⟨hx, hy⟩).bind fun s s' hs => Circuit.same_pure (.some hs)
  | some hsum => exact (same_add hsum ⟨hx, hy⟩).bind fun s s' hs => Circuit.same_pure (.some hs)

theorem same_multiplyGenerator (constants : Constants F) (h : Boolean.AllAlike xs ys) :
    Circuit.Same Point.Alike (multiplyGenerator constants xs : Circuit F V _) (multiplyGenerator constants ys) := by
  refine (Circuit.same_assert (by rw [h.length_eq])).bind fun _ _ _ => ?_
  have hfold : Circuit.Same (Option.Rel Point.Alike) (constants.windows.zipIdx.foldlM (generatorWindow xs) none)
      (constants.windows.zipIdx.foldlM (generatorWindow (F := F) (V := V) ys) none) :=
    Circuit.Same.foldlM .none (List.forall₂_same.mpr fun t _ sum sum' hsum => same_generatorWindow h hsum t)
  refine hfold.bind fun sum sum' hsum => ?_
  cases hsum with
  | none => exact .fail .panic
  | some hsum => exact (Circuit.same_pure hsum).bind fun s s' hs => same_add hs (Point.alike_constant _)

theorem same_checkScalar (h : Boolean.AllAlike xs ys) :
    Circuit.Same (fun _ _ => True) (checkScalar xs : Circuit F V Unit) (checkScalar ys) :=
  (same_lessThan h order).bind fun _ _ _ => same_nonzero (alike_pack h)

omit [Field F] [One V] in
theorem covers_signature (signature : Option Signature) (part : Signature → Bytes 32) :
    Covers (signature.map fun s => bytesBits (part s).val) 256 := by
  intro bs hbs
  obtain ⟨s, -, rfl⟩ := Option.map_eq_some_iff.mp hbs
  rw [length_bytesBits, (part s).property]

/-- A signature's rules do not depend on the signature. -/
theorem same_verify (constants : Constants F) (h : Boolean.AllAlike xs ys) (hp : p.Alike p')
    (signature signature' : Option Signature) :
    Circuit.Same (fun _ _ => True) (verify constants xs p signature) (verify constants ys p' signature') := by
  have hr := covers_signature signature Signature.r
  have hsInv := covers_signature signature Signature.sInv
  refine (same_allocBits hr (covers_signature signature' Signature.r)).bind fun r r' hr => ?_
  refine (same_allocBits hsInv (covers_signature signature' Signature.sInv)).bind fun s s' hs => ?_
  refine (same_checkScalar hr).bind fun _ _ _ => (same_checkScalar hs).bind fun _ _ _ => ?_
  refine (same_multiplyGenerator constants h).bind fun zG zG' hzG => ?_
  refine (same_multiply constants hr hp).bind fun rQ rQ' hrQ => ?_
  refine (same_add hzG hrQ).bind fun sum sum' hsum => ?_
  refine (same_multiply constants hs hsum).bind fun point point' hpoint => ?_
  exact same_equal hpoint.x (alike_pack hr)

end Points

/-! ## Selectors and cells -/

section Table

def OneHot.Alike (s t : OneHot V) : Prop := Boolean.AllAlike s.bits t.bits

def Cells.Alike (cells cells' : Cells F V) : Prop := List.Forall₂ AllocatedNum.Alike cells.nums cells'.nums

variable {s t : OneHot V} {cells cells' : Cells F V}

theorem OneHot.same_alloc (n : ℕ) (i j : Option ℕ) :
    Circuit.Same OneHot.Alike (OneHot.alloc n i : Circuit F V _) (OneHot.alloc n j) := by
  refine (Circuit.Same.mapM_self fun _ _ => Boolean.same_alloc).bind fun xs ys h => ?_
  have hsum : (xs.foldl (fun sum bit => sum + Lc.bit bit) (0 : Lc F V)).Alike
      (ys.foldl (fun sum bit => sum + Lc.bit bit) 0) :=
    List.rel_foldl (fun _ _ ha _ _ hb => ha.add (Lc.alike_bit hb)) Lc.alike_zero h
  exact (same_equal hsum (Lc.alike_constant 1)).bind fun _ _ _ => Circuit.same_pure h

theorem OneHot.Alike.index (h : s.Alike t) : (s.index : Lc F V).Alike t.index := by
  have hzip : ∀ (k : ℕ) {xs ys : List (Boolean V)}, Boolean.AllAlike xs ys →
      List.Forall₂ (fun u v => u.1.Alike v.1 ∧ u.2 = v.2) (xs.zipIdx k) (ys.zipIdx k) := by
    intro k xs ys h
    induction h generalizing k with
    | nil => exact .nil
    | cons hxy _ ih => exact .cons ⟨hxy, rfl⟩ (ih (k + 1))
  refine List.rel_foldl (P := Lc.Alike) (fun a b hab u v huv => ?_) Lc.alike_zero (hzip 0 h)
  obtain ⟨hbit, hindex⟩ := huv
  rw [← hindex]
  exact hab.add ((Lc.alike_bit hbit).scale _)

theorem OneHot.Alike.same_select (h : s.Alike t) {es es' : List (Lc F V)} (hes : Lc.AllAlike es es') :
    Circuit.Same Lc.Alike (s.select es) (t.select es') := by
  have hbits := h.length_eq
  refine (Circuit.same_assert (by rw [hes.length_eq, hbits])).bind fun _ _ _ => ?_
  cases hes with
  | nil => exact .fail .panic
  | cons he hes =>
    have hterms := List.forall₂_drop 1 (Circuit.forall₂_zip_zip h (.cons he hes))
    refine Circuit.Same.foldlM he (hterms.imp fun x y hxy sum sum' hsum => ?_)
    refine (same_mul (Lc.alike_bit hxy.1) (hxy.2.sub he)).bind fun term term' hterm => ?_
    exact Circuit.same_pure (hsum.add hterm)

omit [Field F] [One V] in
theorem Cells.Alike.get (h : cells.Alike cells') (i : ℕ) :
    Option.Rel AllocatedNum.Alike cells.nums[i]? cells'.nums[i]? := Circuit.forall₂_getElem? h i

omit [One V] in
theorem Cells.Alike.chunk (h : cells.Alike cells') (c : ℕ) : (cells.chunk c).Alike (cells'.chunk c) := by
  unfold Cells.chunk
  split
  · exact Lc.alike_num (List.Forall₂.get h _ _)
  · exact Lc.alike_zero

omit [One V] in
/-- A cell that is read, or a panic past the end. -/
theorem Cells.Alike.same_get (h : cells.Alike cells') (i : ℕ) :
    Circuit.Same Lc.Alike
      (match cells.nums[i]? with
        | some n => pure (Lc.num n)
        | none => .fail .panic : Circuit F V (Lc F V))
      (match cells'.nums[i]? with
        | some n => pure (Lc.num n)
        | none => .fail .panic) := by
  have hget := h.get i
  generalize cells.nums[i]? = x at hget ⊢
  generalize cells'.nums[i]? = y at hget ⊢
  cases hget with
  | some hxy => exact Circuit.same_pure (Lc.alike_num hxy)
  | none => exact .fail .panic

omit [One V] in
theorem Cells.Alike.same_state (h : cells.Alike cells') (j i : ℕ) :
    Circuit.Same Lc.Alike (cells.state j i) (cells'.state j i) := h.same_get _

end Table

/-! ## Messages -/

omit [Field F] [One V] in
theorem alike_chunks {α : Type} {R : α → α → Prop} {xs ys : List α} (h : List.Forall₂ R xs ys) (n : ℕ) :
    List.Forall₂ (List.Forall₂ R) (chunks n xs) (chunks n ys) := by
  unfold chunks
  rw [← h.length_eq, List.forall₂_map_left_iff, List.forall₂_map_right_iff, List.forall₂_same]
  exact fun i _ => List.forall₂_take n (List.forall₂_drop (n * i) h)

namespace Message

/-- The messages are one region of alike cells, with alike selectors of the last block. -/
structure Alike (m m' : Message F V) : Prop where
  cells : m.cells.Alike m'.cells
  region : m.region = m'.region
  last : m.last.Alike m'.last

variable {cells cells' : Cells F V} {m m' : Message F V} {block block' chunk chunk' : OneHot V}

theorem same_openRegion (h : cells.Alike cells') (region : Region) (l l' : Option ℕ) :
    Circuit.Same (fun r r' => r.1.Alike r'.1 ∧ r.2.1.Alike r'.2.1 ∧ r.2.2.Alike r'.2.2)
      (openRegion cells region l) (openRegion cells' region l') := by
  have hstates : ∀ i, Circuit.Same Lc.AllAlike ((List.range region.blocks).mapM fun j => cells.state (region.first + j) i)
      ((List.range region.blocks).mapM fun j => cells'.state (region.first + j) i) :=
    fun i => Circuit.Same.mapM_self fun j _ => h.same_state (region.first + j) i
  refine (OneHot.same_alloc region.blocks l l').bind fun last last' hlast => ?_
  refine (hstates 0).bind fun highs highs' hhighs => (hlast.same_select hhighs).bind fun high high' hhigh => ?_
  refine (hstates 1).bind fun lows lows' hlows => (hlast.same_select hlows).bind fun low low' hlow => ?_
  exact Circuit.same_pure ⟨⟨h, rfl, hlast⟩, hhigh, hlow⟩

theorem Alike.same_reached (h : m.Alike m') (hblock : block.Alike block') (r : ℕ) :
    Circuit.Same Lc.Alike (m.reached block r) (m'.reached block' r) := by
  unfold reached
  rw [← h.region]
  refine hblock.same_select ?_
  rw [Lc.AllAlike, List.forall₂_map_left_iff, List.forall₂_map_right_iff, List.forall₂_same]
  exact fun b _ => h.cells.chunk _

theorem same_chunkAt [ToRepr F] (hchunk : chunk.Alike chunk') {es es' : List (Lc F V)} (hes : Lc.AllAlike es es')
    (k : ℕ) : Circuit.Same Lc.AllAlike (chunkAt chunk es k) (chunkAt chunk' es' k) := by
  have hfour := List.forall₂_take chunksPerBlock (List.forall₂_drop k hes)
  refine (hchunk.same_select hfour).bind fun value value' hvalue => ?_
  refine (same_bits hvalue _).bind fun out out' hout => Circuit.same_pure ?_
  rw [Lc.AllAlike, bitBytes, bitBytes, List.forall₂_map_left_iff, List.forall₂_map_right_iff]
  exact (alike_chunks hout 8).imp fun _ _ => alike_pack

theorem same_shiftStage (len : ℕ) {es es' : List (Lc F V)} (hes : Lc.AllAlike es es') {x y : Boolean V}
    (hxy : x.Alike y) (step : ℕ) :
    Circuit.Same Lc.AllAlike (shiftStage len es (x, step)) (shiftStage len es' (y, step)) := by
  refine Circuit.Same.mapM_self fun i _ => ?_
  have hkept := Circuit.forall₂_getElem? hes i
  have hshifted := Circuit.forall₂_getElem? hes (i + step)
  unfold shiftByte
  generalize es[i]? = a at hkept ⊢
  generalize es'[i]? = a' at hkept ⊢
  generalize es[i + step]? = b at hshifted ⊢
  generalize es'[i + step]? = b' at hshifted ⊢
  cases hkept with
  | none => exact .fail .panic
  | some hkept =>
    cases hshifted with
    | none => exact .fail .panic
    | some hshifted => exact same_mux (Lc.alike_bit hxy) hkept hshifted

theorem Alike.same_readBytes [ToRepr F] (h : m.Alike m') (hblock : block.Alike block') (hchunk : chunk.Alike chunk')
    {shift shift' : List (Boolean V)} (hshift : Boolean.AllAlike shift shift') (len : ℕ) :
    Circuit.Same Lc.AllAlike (m.readBytes block chunk shift len) (m'.readBytes block' chunk' shift' len) := by
  refine (Circuit.Same.mapM_self fun r _ => h.same_reached hblock r).bind fun es es' hes => ?_
  refine (Circuit.Same.mapM_self fun k _ => same_chunkAt hchunk hes k).bind fun window window' hwindow => ?_
  have hsteps : List.Forall₂ Eq [8, 4, 2, 1] [8, 4, 2, 1] := List.forall₂_same.mpr fun _ _ => rfl
  refine Circuit.Same.foldlM (I := Lc.AllAlike) (List.rel_flatten hwindow) ?_
  refine (Circuit.forall₂_zip_zip hshift hsteps).imp fun x y hxy es es' hes => ?_
  obtain ⟨x, step⟩ := x
  obtain ⟨y, step'⟩ := y
  obtain ⟨hbit, rfl⟩ := hxy
  exact same_shiftStage len hes hbit step

theorem Alike.same_read [ToRepr F] (h : m.Alike m') (pos pos' : Option ℕ) (len : ℕ) :
    Circuit.Same (fun r r' => Lc.AllAlike r.bytes r'.bytes) (m.read pos len) (m'.read pos' len) := by
  have hcovers : ∀ pos : Option ℕ, Covers (pos.map fun a => smallBits (a % chunkBytes) 4) 4 := by
    intro pos bs hbs
    obtain ⟨a, -, rfl⟩ := Option.map_eq_some_iff.mp hbs
    simp [smallBits]
  unfold read
  rw [← h.region]
  refine (OneHot.same_alloc m.region.blocks _ _).bind fun block block' hblock => ?_
  refine (OneHot.same_alloc chunksPerBlock _ _).bind fun chunk chunk' hchunk => ?_
  refine (same_allocBits (hcovers pos) (hcovers pos')).bind fun shift shift' hshift => ?_
  have hoffset := ((hblock.index.scale (64 : F)).add (hchunk.index.scale (chunkBytes : F))).add (alike_pack hshift)
  have hend := (h.last.index.add (Lc.alike_constant (1 : F))).scale 64
  refine (same_rangeCheck ((hend.sub hoffset).sub (Lc.alike_constant _)) offsetBits).bind fun _ _ _ => ?_
  refine (h.same_readBytes hblock hchunk hshift len).bind fun bytes bytes' hbytes => ?_
  exact Circuit.same_pure hbytes

end Message

/-! ## The core's rules -/

section Core

variable {es es' : List (Lc F V)} {m m' : Message F V} {cells cells' : Cells F V}

theorem same_expect (h : Lc.AllAlike es es') (pattern : List UInt8) :
    Circuit.Same (fun _ _ => True) (expect es pattern) (expect es' pattern) := by
  have hsame : List.Forall₂ Eq (chunks expectGroup pattern) (chunks expectGroup pattern) :=
    List.forall₂_same.mpr fun _ _ => rfl
  refine (Circuit.same_assert (by rw [h.length_eq])).bind fun _ _ _ => Circuit.Same.forM ?_
  refine (Circuit.forall₂_zip_zip (alike_chunks h expectGroup) hsame).imp fun x y hxy => ?_
  rw [← hxy.2]
  exact same_equal (alike_packBytes hxy.1) (Lc.alike_constant _)

omit [Field F] [One V] in
theorem same_bytesAt (h : Lc.AllAlike es es') (places : List ℕ) :
    Circuit.Same Lc.AllAlike (bytesAt es places) (bytesAt es' places) := by
  refine Circuit.Same.mapM_self fun i _ => ?_
  have hget := Circuit.forall₂_getElem? h i
  generalize es[i]? = x at hget ⊢
  generalize es'[i]? = y at hget ⊢
  cases hget with
  | some hxy => exact Circuit.same_pure hxy
  | none => exact .fail .panic

theorem same_toNum {a b : Lc F V} (h : a.Alike b) : Circuit.Same AllocatedNum.Alike (toNum a) (toNum b) :=
  AllocatedNum.same_alloc.bind fun _ _ hn => (same_equal (Lc.alike_num hn) h).bind fun _ _ _ => Circuit.same_pure hn

theorem same_toNums (h : Lc.AllAlike es es') :
    Circuit.Same (List.Forall₂ AllocatedNum.Alike) (es.mapM toNum) (es'.mapM toNum) :=
  Circuit.Same.mapM (h.imp fun _ _ => same_toNum)

namespace Mdoc

omit [One V] in
theorem alike_slice (h : Lc.AllAlike es es') (i n : ℕ) :
    (packBytes ((es.drop i).take n)).Alike (packBytes ((es'.drop i).take n)) :=
  alike_packBytes (List.forall₂_take n (List.forall₂_drop i h))

theorem same_listsDigest (h : Lc.AllAlike es es') {digest digest' : Lc F V × Lc F V} (hhigh : digest.1.Alike digest'.1)
    (hlow : digest.2.Alike digest'.2) :
    Circuit.Same (fun _ _ => True) (listsDigest es digest) (listsDigest es' digest') := by
  refine (same_expect (List.forall₂_take 2 h) digestHead).bind fun _ _ _ => ?_
  exact (same_equal (alike_slice h 2 16) hhigh).bind fun _ _ _ => same_equal (alike_slice h 18 16) hlow

theorem same_dateTime [ToRepr F] (h : m.Alike m') (pos pos' : Option ℕ) (key : List UInt8) :
    Circuit.Same Lc.Alike (dateTime m pos key) (dateTime m' pos' key) := by
  refine (h.same_read pos pos' _).bind fun window window' hwindow => ?_
  refine (same_expect (List.forall₂_take _ hwindow) key).bind fun _ _ _ => ?_
  refine (same_bytesAt (List.forall₂_drop _ hwindow) dateTimeDigits).bind fun digits digits' hdigits => ?_
  exact Circuit.same_pure (alike_decimal hdigits)

theorem same_readDeviceKey [ToRepr F] (h : m.Alike m') (pos pos' : Option ℕ) :
    Circuit.Same Point.Alike (readDeviceKey m pos) (readDeviceKey m' pos') := by
  refine (h.same_read pos pos' _).bind fun key key' hkey => ?_
  refine (same_expect (List.forall₂_take _ hkey) deviceKey).bind fun _ _ _ => ?_
  refine (same_expect (List.forall₂_take _ (List.forall₂_drop _ hkey)) deviceKeyY).bind fun _ _ _ => ?_
  exact Circuit.same_pure ⟨alike_slice hkey _ _, alike_slice hkey _ _⟩

end Mdoc

structure Facts.Alike (f f' : Facts F V) : Prop where
  issuerKey : f.issuerKey.Alike f'.issuerKey
  birthDate : f.birthDate.Alike f'.birthDate
  validFrom : f.validFrom.Alike f'.validFrom
  validUntil : f.validUntil.Alike f'.validUntil
  deviceKey : f.deviceKey.Alike f'.deviceKey
  docType : List.Forall₂ AllocatedNum.Alike f.windows.1 f'.windows.1
  identifier : List.Forall₂ AllocatedNum.Alike f.windows.2 f'.windows.2

theorem Facts.Alike.same_intoSlots {f f' : Facts F V} (h : f.Alike f') :
    Circuit.Same (List.Forall₂ AllocatedNum.Alike) f.intoSlots f'.intoSlots := by
  have hbase : Lc.AllAlike f.base f'.base :=
    .cons h.issuerKey.x (.cons h.issuerKey.y (.cons h.birthDate (.cons h.validFrom (.cons h.validUntil
      (.cons h.deviceKey.x (.cons h.deviceKey.y .nil))))))
  refine (same_toNums hbase).bind fun slots slots' hslots => Circuit.same_pure ?_
  exact List.rel_append (List.rel_append hslots h.docType) h.identifier

namespace Mdoc

variable [ToRepr F]

theorem same_agePart (constants : Constants F) (h : cells.Alike cells') (w w' : Option MdocWitness) (layout : Layout) :
    Circuit.Same (fun r r' => r.1.Alike r'.1 ∧ r.2.Alike r'.2) (agePart constants cells w layout)
      (agePart constants cells' w' layout) := by
  refine (Message.same_openRegion h layout.signed _ _).bind fun signed signed' hsigned => ?_
  refine (Message.same_openRegion h layout.attr _ _).bind fun item item' hitem => ?_
  refine Point.same_alloc.bind fun key key' hkey => ?_
  refine (same_digestBits hsigned.2.1 hsigned.2.2).bind fun digest digest' hdigest => ?_
  refine (same_verify constants hdigest hkey _ _).bind fun _ _ _ => ?_
  refine (hsigned.1.same_read _ _ _).bind fun docType docType' hdocType => ?_
  refine (hsigned.1.same_read _ _ _).bind fun listed listed' hlisted => ?_
  refine (same_listsDigest hlisted hitem.2.1 hitem.2.2).bind fun _ _ _ => ?_
  refine (hitem.1.same_read _ _ _).bind fun identifier identifier' hidentifier => ?_
  refine (hitem.1.same_read _ _ _).bind fun dated dated' hdated => ?_
  refine (same_expect (List.forall₂_take _ hdated) value).bind fun _ _ _ => ?_
  refine (same_bytesAt (List.forall₂_drop _ hdated) dateDigits).bind fun date date' hdate => ?_
  refine (same_readDeviceKey hsigned.1 _ _).bind fun deviceKey deviceKey' hdeviceKey => ?_
  refine (same_dateTime hsigned.1 _ _ validFrom).bind fun from_ from_' hfrom => ?_
  refine (same_dateTime hsigned.1 _ _ validUntil).bind fun until_ until_' huntil => ?_
  refine (same_toNums hdocType).bind fun typeSlots typeSlots' htype => ?_
  refine (same_toNums hidentifier).bind fun attributeSlots attributeSlots' hattribute => ?_
  exact Circuit.same_pure ⟨hsigned.1, hkey, alike_decimal hdate, hfrom, huntil, hdeviceKey, htype, hattribute⟩

theorem same_seedAndNym [DecidableEq F] (h : cells.Alike cells') (regions : PseudonymRegions) :
    Circuit.Same (fun r r' => r.1.1.Alike r'.1.1 ∧ r.1.2.Alike r'.1.2 ∧ Lc.AllAlike r.2 r'.2)
      (seedAndNym cells regions) (seedAndNym cells' regions) := by
  have hcovers : ∀ seed : Option F, Covers (seed.map seedLowBits) 56 := by
    intro seed bs hbs
    obtain ⟨v, -, rfl⟩ := Option.map_eq_some_iff.mp hbs
    simp [seedLowBits, smallBits]
  have hseed := h.chunk (chunksPerBlock * regions.seed.first + 0)
  refine (Circuit.Same.forM (List.forall₂_same.mpr fun t _ =>
    same_equal (h.chunk _) (Lc.alike_constant (fromBe t.1)))).bind fun _ _ _ => ?_
  refine (h.same_state _ 0).bind fun high high' hhigh => (h.same_state _ 1).bind fun low low' hlow => ?_
  refine (same_equal (h.chunk _) (Lc.alike_constant _)).bind fun _ _ _ => ?_
  refine (same_equal (h.chunk _) (Lc.alike_constant _)).bind fun _ _ _ => ?_
  refine (same_allocBits (hcovers _) (hcovers _)).bind fun bits bits' hbits => ?_
  have hpack : (pack bits : Lc F V).Alike (pack bits') := alike_pack hbits
  refine (same_equal (h.chunk _) (hpack.scale two72)).bind fun _ _ _ => ?_
  have htop := (hseed.sub hpack).scale (inverse (2 ^ 56))
  refine (same_equal (h.chunk _) ((Lc.alike_constant _).add htop)).bind fun _ _ _ => ?_
  refine (same_equal (h.chunk _) Lc.alike_zero).bind fun _ _ _ => ?_
  refine (h.same_state _ 0).bind fun nymHigh nymHigh' hnymHigh => ?_
  refine (h.same_state _ 1).bind fun nymLow nymLow' hnymLow => Circuit.same_pure ⟨hhigh, hlow, ?_⟩
  exact .cons (h.chunk _) (.cons (h.chunk _) (.cons (h.chunk _) (.cons hnymHigh (.cons hnymLow .nil))))

theorem same_commitmentAndSlots [DecidableEq F] (h : cells.Alike cells') (regions : PseudonymRegions)
    {ssc ssc' : Lc F V × Lc F V} (hhigh : ssc.1.Alike ssc'.1) (hlow : ssc.2.Alike ssc'.2) :
    Circuit.Same (List.Forall₂ AllocatedNum.Alike) (commitmentAndSlots cells regions ssc)
      (commitmentAndSlots cells' regions ssc') := by
  refine (same_seedAndNym h regions).bind fun r r' hr => ?_
  refine (same_equal hr.1 hhigh).bind fun _ _ _ => (same_equal hr.2.1 hlow).bind fun _ _ _ => ?_
  exact same_toNums hr.2.2

/-- A witness of the full statement knows the `ssc` item. -/
def KnowsNym (w : Option MdocWitness) : Prop := ∀ x ∈ w, x.nym ≠ none

omit [Field F] [One V] [ToRepr F] in
theorem exists_nymOf {w : Option MdocWitness} (h : KnowsNym w) : ∃ n, (nymOf w : Circuit F V _) = pure n := by
  cases w with
  | none => exact ⟨none, rfl⟩
  | some w =>
    obtain ⟨n, hn⟩ := Option.ne_none_iff_exists'.mp (h w rfl)
    exact ⟨some n, by simp only [nymOf, hn]⟩

theorem same_nymRules [DecidableEq F] (h : cells.Alike cells') (hm : m.Alike m') {w w' : Option MdocWitness}
    (hw : KnowsNym w) (hw' : KnowsNym w') (layout : Layout) :
    Circuit.Same (List.Forall₂ AllocatedNum.Alike) (nymRules cells m w layout) (nymRules cells' m' w' layout) := by
  have hregions : Circuit.Same Eq (pseudonymRegions layout : Circuit F V _) (pseudonymRegions layout) := by
    unfold pseudonymRegions
    cases layout.pseudonym with
    | none => exact .fail .unsatisfiable
    | some regions => exact Circuit.same_pure rfl
  refine hregions.bind fun regions regions' hregions => ?_
  subst hregions
  obtain ⟨n, hn⟩ := exists_nymOf (F := F) (V := V) hw
  obtain ⟨n', hn'⟩ := exists_nymOf (F := F) (V := V) hw'
  rw [hn, hn', pure_bind, pure_bind]
  refine (Message.same_openRegion h regions.ssc _ _).bind fun item item' hitem => ?_
  refine (hm.same_read _ _ _).bind fun listed listed' hlisted => ?_
  refine (same_listsDigest hlisted hitem.2.1 hitem.2.2).bind fun _ _ _ => ?_
  refine (hitem.1.same_read _ _ _).bind fun identifier identifier' hidentifier => ?_
  refine (same_expect hidentifier mdocIdentifier).bind fun _ _ _ => ?_
  refine (hitem.1.same_read _ _ _).bind fun committed committed' hcommitted => ?_
  refine (same_expect (List.forall₂_take _ hcommitted) mdocValue).bind fun _ _ _ => ?_
  exact same_commitmentAndSlots h regions (alike_slice hcommitted _ _) (alike_slice hcommitted _ _)

end Mdoc

end Core

/-! ## The rest segment -/

section Rest

variable {fs fs' : List (AllocatedNum F V)}

/-- The prover's public values, if it has any, are as many as the circuit allocates. -/
def Supplies (values : Option (List F)) (n : ℕ) : Prop := ∀ vs ∈ values, n ≤ vs.length

omit [Field F] [One V] in
theorem exists_valueAt {values : Option (List F)} {n i : ℕ} (h : Supplies values n) (hi : i < n) :
    ∃ v, (allocInputs.valueAt values i : Circuit F V _) = pure v := by
  cases values with
  | none => exact ⟨none, rfl⟩
  | some vs =>
    have hlt : i < vs.length := hi.trans_le (h vs rfl)
    exact ⟨some vs[i], by simp only [allocInputs.valueAt, List.getElem?_eq_getElem hlt]⟩

omit [One V] in
theorem same_allocInputs {values values' : Option (List F)} {n : ℕ} (h : Supplies values n) (h' : Supplies values' n) :
    Circuit.Same Lc.AllAlike (allocInputs values n : Circuit F V _) (allocInputs values' n) := by
  refine Circuit.Same.mapM_self fun i hi => ?_
  obtain ⟨v, hv⟩ := exists_valueAt (F := F) (V := V) h (List.mem_range.mp hi)
  obtain ⟨v', hv'⟩ := exists_valueAt (F := F) (V := V) h' (List.mem_range.mp hi)
  rw [hv, hv', pure_bind, pure_bind]
  exact AllocatedNum.same_allocInput.bind fun _ _ hn => Circuit.same_pure (Lc.alike_num hn)

theorem alike_switches {xs ys : List (Boolean V)} (h : Boolean.AllAlike xs ys) (window : Window) :
    List.Forall₂ (Option.Rel Lc.Alike) (switches window xs : List (Option (Lc F V))) (switches window ys) := by
  have hstart : List.Forall₂ (Option.Rel Lc.Alike) (List.replicate window.len (none : Option (Lc F V)))
      (List.replicate window.len none) := by
    rw [List.forall₂_same]
    intro x hx
    rw [List.eq_of_mem_replicate hx]
    exact .none
  have hmap : ∀ {x y : Option (Boolean V)}, Option.Rel ZkCredVega.Boolean.Alike x y →
      Option.Rel Lc.Alike (x.map Lc.bit : Option (Lc F V)) (y.map Lc.bit) := by
    intro x y hxy
    cases hxy with
    | some hxy => exact .some (Lc.alike_bit hxy)
    | none => exact .none
  have hsame : List.Forall₂ Eq (List.range window.thermometer) (List.range window.thermometer) :=
    List.forall₂_same.mpr fun _ _ => rfl
  refine List.rel_foldl (fun us vs hus i j hij => ?_) hstart hsame
  subst hij
  exact Circuit.forall₂_set hus _ (hmap (Circuit.forall₂_getElem? h _))

omit [One V] in
theorem same_comparedByte {t t' : AllocatedNum F V × Option (Lc F V)} (hbyte : t.1.Alike t'.1)
    (hbit : Option.Rel Lc.Alike t.2 t'.2) : Circuit.Same Lc.Alike (comparedByte t) (comparedByte t') := by
  obtain ⟨byte, bit⟩ := t
  obtain ⟨byte', bit'⟩ := t'
  cases hbit with
  | some hbit => exact same_mul hbit (Lc.alike_num hbyte)
  | none => exact Circuit.same_pure (Lc.alike_num hbyte)

theorem same_checkNonempty {xs ys : List (Boolean V)} (h : Boolean.AllAlike xs ys) (window : Window) :
    Circuit.Same (fun _ _ => True) (checkNonempty window xs : Circuit F V Unit) (checkNonempty window ys) := by
  unfold checkNonempty
  split
  · exact (same_bitOf h _).bind fun bit bit' hbit => same_equal (Lc.alike_bit hbit) (Lc.alike_constant 1)
  · exact Circuit.same_pure trivial

theorem same_checkPattern [ToRepr F] (window : Window) (h : List.Forall₂ AllocatedNum.Alike fs fs')
    {values values' : Option (List F)} (hvalues : Supplies values window.publicCount)
    (hvalues' : Supplies values' window.publicCount) :
    Circuit.Same (fun _ _ => True) (checkPattern window fs values) (checkPattern window fs' values') := by
  refine (Circuit.same_assert (by rw [h.length_eq])).bind fun _ _ _ => ?_
  refine (same_allocInputs hvalues hvalues').bind fun inputs inputs' hinputs => ?_
  have hlast : (inputs.getLastD 0).Alike (inputs'.getLastD 0) := by
    rw [List.getLastD_eq_getLast?, List.getLastD_eq_getLast?, List.getLast?_eq_getElem?, List.getLast?_eq_getElem?,
      hinputs.length_eq]
    have hget := Circuit.forall₂_getElem? hinputs (inputs'.length - 1)
    generalize inputs[inputs'.length - 1]? = x at hget ⊢
    generalize inputs'[inputs'.length - 1]? = y at hget ⊢
    cases hget with
    | some hxy => exact hxy
    | none => exact Lc.alike_zero
  refine (same_bits hlast _).bind fun thermometer thermometer' hthermometer => ?_
  refine (same_checkNonempty hthermometer window).bind fun _ _ _ => ?_
  have hbytes := Circuit.forall₂_zip_zip h (alike_switches (F := F) hthermometer window)
  refine (Circuit.Same.mapM (hbytes.imp fun _ _ ht => same_comparedByte ht.1 ht.2)).bind fun compared compared' hc => ?_
  rw [List.dropLast_eq_take, List.dropLast_eq_take, hinputs.length_eq]
  have hpairs := Circuit.forall₂_zip_zip (alike_chunks hc limb) (List.forall₂_take (inputs'.length - 1) hinputs)
  exact Circuit.Same.forM (hpairs.imp fun _ _ ht => same_equal (alike_packBytes ht.1) ht.2)

theorem same_checkFacts [ToRepr F] (constants : Constants F) (signature signature' : Option Signature)
    {es es' pub pub' : List (Lc F V)} (h : Lc.AllAlike es es') (hpub : Lc.AllAlike pub pub') :
    Circuit.Same (fun _ _ => True) (checkFacts constants signature es pub) (checkFacts constants signature' es' pub') := by
  unfold checkFacts
  split
  · obtain _ | ⟨issuerX, _ | ⟨issuerY, _ | ⟨birth, _ | ⟨from_, _ | ⟨until_, _ | ⟨deviceX, _ | ⟨deviceY, _ | _⟩⟩⟩⟩⟩⟩⟩ := h
    obtain _ | ⟨publicX, _ | ⟨publicY, _ | ⟨bornFrom, _ | ⟨bornBy, _ | ⟨now, _ | ⟨high, _ | ⟨low, _ | _⟩⟩⟩⟩⟩⟩⟩ := hpub
    refine (same_equal issuerX publicX).bind fun _ _ _ => (same_equal issuerY publicY).bind fun _ _ _ => ?_
    refine (same_rangeCheck (birth.sub bornFrom) 27).bind fun _ _ _ => ?_
    refine (same_rangeCheck (bornBy.sub birth) 27).bind fun _ _ _ => ?_
    refine (same_rangeCheck (now.sub from_) 47).bind fun _ _ _ => ?_
    refine (same_rangeCheck ((until_.sub now).sub (Lc.alike_constant 1)) 47).bind fun _ _ _ => ?_
    refine (same_digestBits high low).bind fun challenge challenge' hchallenge => ?_
    exact same_verify constants hchallenge ⟨deviceX, deviceY⟩ signature signature'
  · rename_i hne
    split
    · obtain _ | ⟨-, _ | ⟨-, _ | ⟨-, _ | ⟨-, _ | ⟨-, _ | ⟨-, _ | ⟨-, _ | _⟩⟩⟩⟩⟩⟩⟩ := h
      obtain _ | ⟨-, _ | ⟨-, _ | ⟨-, _ | ⟨-, _ | ⟨-, _ | ⟨-, _ | ⟨-, _ | _⟩⟩⟩⟩⟩⟩⟩ := hpub
      exact (hne _ _ _ _ _ _ _ _ _ _ _ _ _ _ rfl rfl).elim
    · exact .fail .panic

/-- A presentation for the windows that the circuit has. -/
def ForWindows (presentation : Option Presentation) (windows : Window × Window) : Prop :=
  ∀ p ∈ presentation, p.pub.request.windows = windows

omit [Field F] [One V] in
theorem ForWindows.rejectWindows_eq {p : Option Presentation} {windows : Window × Window} (h : ForWindows p windows) :
    (rejectWindows p windows : Circuit F V Unit) = pure () := by
  cases p with
  | none => rfl
  | some p => simp [rejectWindows, h p rfl]

theorem supplies_base (p : Option Presentation) : Supplies (p.map fun p => (p.pub.values : List F)) baseValues := by
  intro vs hvs
  obtain ⟨p, -, rfl⟩ := Option.map_eq_some_iff.mp hvs
  simp [Public.values, length_base]

/-- The values of a request, in the windows that the circuit has. -/
theorem ForWindows.drop_values {p : Option Presentation} {windows : Window × Window} (h : ForWindows p windows)
    {vs : List F} (hvs : vs ∈ (p.map fun p => (p.pub.values : List F)).map fun v => v.drop baseValues) :
    ∃ r : Request, vs = r.values ∧ r.windows = windows := by
  rw [Option.map_map] at hvs
  obtain ⟨p, hp, rfl⟩ := Option.map_eq_some_iff.mp hvs
  exact ⟨p.pub.request, List.drop_left' (length_base p.pub), h p hp⟩

theorem ForWindows.supplies_type {p : Option Presentation} {windows : Window × Window} (h : ForWindows p windows) :
    Supplies (((p.map fun p => (p.pub.values : List F)).map fun v => v.drop baseValues).map fun v =>
      v.take windows.1.publicCount) windows.1.publicCount := by
  intro _ hmem
  obtain ⟨vs, hvs, rfl⟩ := Option.map_eq_some_iff.mp hmem
  obtain ⟨r, rfl, rfl⟩ := h.drop_values hvs
  simp [Request.values, Request.windows, Pattern.length_values]

theorem ForWindows.supplies_name {p : Option Presentation} {windows : Window × Window} (h : ForWindows p windows) :
    Supplies (((p.map fun p => (p.pub.values : List F)).map fun v => v.drop baseValues).map fun v =>
      v.drop windows.1.publicCount) windows.2.publicCount := by
  intro _ hmem
  obtain ⟨vs, hvs, rfl⟩ := Option.map_eq_some_iff.mp hmem
  obtain ⟨r, rfl, rfl⟩ := h.drop_values hvs
  simp [Request.values, Request.windows, Pattern.length_values]

theorem same_check [ToRepr F] (constants : Constants F) (h : List.Forall₂ AllocatedNum.Alike fs fs')
    {presentation presentation' : Option Presentation} {windows : Window × Window} (hp : ForWindows presentation windows)
    (hp' : ForWindows presentation' windows) :
    Circuit.Same (fun _ _ => True) (check constants fs presentation windows)
      (check constants fs' presentation' windows) := by
  unfold check
  rw [hp.rejectWindows_eq, hp'.rejectWindows_eq, pure_bind, pure_bind, h.length_eq]
  refine (same_allocInputs (supplies_base presentation) (supplies_base presentation')).bind fun pub pub' hpub => ?_
  refine (Circuit.same_refl (fun _ => trivial) _).bind fun _ _ (_ : True) => ?_
  have hbytes := List.forall₂_drop baseValues h
  refine (same_checkPattern windows.1 (List.forall₂_take _ hbytes) hp.supplies_type hp'.supplies_type).bind fun _ _ _ => ?_
  refine (same_checkPattern windows.2 (List.forall₂_drop _ hbytes) hp.supplies_name hp'.supplies_name).bind fun _ _ _ => ?_
  refine same_checkFacts constants _ _ ?_ hpub
  rw [Lc.AllAlike, List.forall₂_map_left_iff, List.forall₂_map_right_iff]
  exact (List.forall₂_take baseValues h).imp fun _ _ => Lc.alike_num

theorem supplies_nym (nym : Option NymPublic) : Supplies (nym.map fun n => (n.values : List F)) nymValues := by
  intro vs hvs
  obtain ⟨n, -, rfl⟩ := Option.map_eq_some_iff.mp hvs
  exact le_of_eq rfl

theorem same_checkPseudonym (h : List.Forall₂ AllocatedNum.Alike fs fs') (nym nym' : Option NymPublic) :
    Circuit.Same (fun _ _ => True) (checkPseudonym fs nym) (checkPseudonym fs' nym') := by
  unfold checkPseudonym
  rw [h.length_eq]
  refine (same_allocInputs (supplies_nym nym) (supplies_nym nym')).bind fun pub pub' hpub => ?_
  refine (Circuit.same_refl (fun _ => trivial) _).bind fun _ _ (_ : True) => ?_
  have hlast : (pub.getD 2 0).Alike (pub'.getD 2 0) := by
    rw [List.getD_eq_getElem?_getD, List.getD_eq_getElem?_getD]
    have hget := Circuit.forall₂_getElem? hpub 2
    generalize pub[2]? = x at hget ⊢
    generalize pub'[2]? = y at hget ⊢
    cases hget with
    | some hxy => exact hxy
    | none => exact Lc.alike_zero
  have hpadded := Circuit.forall₂_set hpub 2 ((hlast.scale two72).add (Lc.alike_constant lastChunkPadding))
  exact Circuit.Same.forM ((Circuit.forall₂_zip_zip h hpadded).imp fun _ _ ht => same_equal (Lc.alike_num ht.1) ht.2)

theorem MdocNymCore.same_synthesize [ToRepr F] (constants : Constants F) {c c' : MdocNymCore}
    (hc : ForWindows c.presentation windows) (hc' : ForWindows c'.presentation windows)
    (h : List.Forall₂ AllocatedNum.Alike fs fs') :
    Circuit.Same (fun _ _ => True) (c.synthesize constants fs) (c'.synthesize constants fs') := by
  unfold MdocNymCore.synthesize
  rw [h.length_eq]
  refine (Circuit.same_refl (fun _ => trivial) _).bind fun _ _ (_ : True) => ?_
  refine (same_check constants (List.forall₂_take _ h) hc hc').bind fun _ _ _ => ?_
  exact same_checkPseudonym (List.forall₂_drop _ h) _ _

end Rest

/-! ## Whole circuits -/

section Circuits

variable {cells cells' : Cells F V}

/-- What the prover gives a core: a witness that knows the `ssc` item, and a presentation for the circuit's windows.
A blank core is given nothing. -/
structure Mdoc.NymCore.Given (c : NymCore) : Prop where
  nym : KnowsNym c.witness
  windows : ForWindows c.presentation windows

theorem Mdoc.NymCore.given_blank : NymCore.blank.Given := ⟨nofun, nofun⟩

/-- The core's rules do not depend on what the prover gives it. -/
theorem Mdoc.NymCore.same_precommitted [DecidableEq F] [ToRepr F] (constants : Constants F) {c c' : NymCore}
    (hc : c.Given) (hc' : c'.Given) (h : cells.Alike cells') :
    Circuit.Same (List.Forall₂ AllocatedNum.Alike) (c.precommitted constants cells) (c'.precommitted constants cells') := by
  refine (same_agePart constants h _ _ fullMdoc).bind fun part part' hpart => ?_
  refine hpart.2.same_intoSlots.bind fun slots slots' hslots => ?_
  refine (same_nymRules h hpart.1 hc.nym hc'.nym fullMdoc).bind fun nymSlots nymSlots' hnym => ?_
  exact Circuit.same_pure (List.rel_append hslots hnym)

theorem Mdoc.NymCore.same_rules [DecidableEq F] [ToRepr F] (constants : Constants F) {c c' : NymCore} (hc : c.Given)
    (hc' : c'.Given) (h : cells.Alike cells') :
    Circuit.Same (fun _ _ => True) (c.rules constants cells) (c'.rules constants cells') :=
  (same_precommitted constants hc hc' h).bind fun _ _ hslots =>
    MdocNymCore.same_synthesize constants hc.windows hc'.windows hslots

omit [One V] in
theorem same_sharedCells (t t' : Option Table) :
    Circuit.Same Cells.Alike (sharedCells t : Circuit F V _) (sharedCells t') := by
  have halloc : Circuit.Same (List.Forall₂ AllocatedNum.Alike)
      (allocateTable t : Circuit F V (List (AllocatedNum F V))) (allocateTable t') :=
    Circuit.Same.mapM_self fun _ _ => AllocatedNum.same_alloc
  refine halloc.bind fun nums nums' h => ?_
  by_cases hlen : nums.length = cellsPerPosition * positions + 2
  · rw [dif_pos hlen, dif_pos (h.length_eq ▸ hlen)]
    exact Circuit.same_pure h
  · rw [dif_neg hlen, dif_neg (h.length_eq ▸ hlen)]
    exact .fail .panic

theorem same_stateBeforeIn (h : cells.Alike cells') (layout : Layout) (j i : ℕ) :
    Circuit.Same Lc.Alike (cells.stateBeforeIn layout j i) (cells'.stateBeforeIn layout j i) := by
  unfold Cells.stateBeforeIn
  split
  · exact h.same_get _
  split
  · exact Circuit.same_pure (Lc.alike_constant _)
  split
  · exact .fail .panic
  · exact h.same_state _ _

variable [ToRepr F]

theorem same_selectBits {s t : OneHot V} (h : s.Alike t) {es es' : List (Lc F V)} (hes : Lc.AllAlike es es') :
    Circuit.Same Boolean.AllAlike (Step.selectBits s es) (Step.selectBits t es') :=
  (h.same_select hes).bind fun _ _ hvalue => same_bits hvalue 128

/-- The compression gadget builds its rules from the variables it is given, whatever their values. -/
def Regular (compress : Compression F V) : Prop :=
  ∀ {block block' state state' : List (Boolean V)}, Boolean.AllAlike block block' → Boolean.AllAlike state state' →
    Circuit.Same Boolean.AllAlike (compress block state) (compress block' state')

theorem same_compression {compress : Compression F V} (hcompress : Regular compress) (h : cells.Alike cells')
    (layout : Layout) {s t : OneHot V} (hst : s.Alike t) :
    Circuit.Same (fun _ _ => True) (Step.compression compress cells layout s)
      (Step.compression compress cells' layout t) := by
  have hchunks : ∀ c, Lc.AllAlike ((List.range positions).map fun j => cells.chunk (chunksPerBlock * j + c))
      ((List.range positions).map fun j => cells'.chunk (chunksPerBlock * j + c)) := by
    intro c
    rw [Lc.AllAlike, List.forall₂_map_left_iff, List.forall₂_map_right_iff, List.forall₂_same]
    exact fun j _ => h.chunk _
  refine (Circuit.Same.mapM_self fun c _ => same_selectBits hst (hchunks c)).bind fun block block' hblock => ?_
  have hbefore : ∀ i ∈ List.range 2, Circuit.Same Boolean.AllAlike
      (do
        let entries ← (List.range positions).mapM fun j => cells.stateBeforeIn layout j i
        Step.selectBits s entries)
      (do
        let entries ← (List.range positions).mapM fun j => cells'.stateBeforeIn layout j i
        Step.selectBits t entries) := by
    intro i _
    refine (Circuit.Same.mapM_self fun j _ => same_stateBeforeIn h layout j i).bind fun es es' hes => ?_
    exact same_selectBits hst hes
  refine (Circuit.Same.mapM_self hbefore).bind fun before before' hbefore => ?_
  refine (hcompress (List.rel_flatten hblock) (List.rel_flatten hbefore)).bind fun after after' hafter => ?_
  refine Circuit.Same.forM (List.forall₂_same.mpr fun i _ => ?_)
  refine (Circuit.Same.mapM_self fun j _ => h.same_state j i).bind fun es es' hes => ?_
  refine (hst.same_select hes).bind fun half half' hhalf => same_equal (alike_pack ?_) hhalf
  exact List.forall₂_take 128 (List.forall₂_drop _ hafter)

theorem same_stepPrecommitted {compress : Compression F V} (hcompress : Regular compress) (h : cells.Alike cells')
    (layout : Layout) (j j' : ℕ) :
    Circuit.Same (fun _ _ => True) (Step.precommitted compress cells layout j)
      (Step.precommitted compress cells' layout j') := by
  refine AllocatedNum.same_allocInput.bind fun input input' hinput => ?_
  refine (OneHot.same_alloc positions _ _).bind fun selector selector' hselector => ?_
  refine (same_equal hselector.index (Lc.alike_num hinput)).bind fun _ _ _ => ?_
  exact same_compression hcompress h layout hselector

/-- Every step instance builds the system of the blank step. -/
theorem step_same_blank {compress : Compression F V} (hcompress : Regular compress) (layout : Layout)
    (table : Option Table) (position : ℕ) :
    Circuit.Same (fun _ _ => True) (stepCircuit compress layout table position) (stepCircuit compress layout none 0) :=
  (same_sharedCells table none).bind fun _ _ h => same_stepPrecommitted hcompress h layout position 0

/-- Every core instance builds the system of the blank core. -/
theorem core_same_blank [DecidableEq F] (constants : Constants F) {core : Mdoc.NymCore} (hcore : core.Given)
    (table : Option Table) :
    Circuit.Same (fun _ _ => True) (coreCircuit constants core table : Circuit F V Unit)
      (coreCircuit constants .blank none) :=
  (same_sharedCells table none).bind fun _ _ h => Mdoc.NymCore.same_rules constants hcore Mdoc.NymCore.given_blank h

end Circuits

end Gadgets

end Nym

end ZkCredVega
