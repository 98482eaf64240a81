import ZkCredVega.Nym.Gadgets

/-!
# What the rules' gadgets hold

A weighted sum `Holds` a value for a prover when the assignment gives it that value, and
the honest prover also carries it. The gadgets of `gadgets/lc.rs` and `gadgets/bits.rs`
take sums that hold values to sums that hold values, for every satisfying assignment and
for the honest one.
-/

namespace ZkCredVega.Nym

open Circuits

section Rules

variable {F : Type} [Field F] {who : Circuit.Prover}

/-! ## Weighted sums -/

namespace Lc

/-- The sum is worth `v`, and for the honest prover that is the value it carries. -/
structure Holds (who : Circuit.Prover) (a : Lc F F) (v : F) : Prop where
  eval_eq : a.lc.eval = v
  value_eq : who = .honest → a.value = some v

variable {a b : Lc F F} {v w : F}

/-- What an honest prover holds is worth the same to any prover. -/
theorem Holds.any (h : a.Holds .honest v) : a.Holds .any v := ⟨h.eval_eq, fun hw => by cases hw⟩

theorem holds_zero : (0 : Lc F F).Holds who 0 := ⟨rfl, fun _ => rfl⟩

theorem holds_constant (c : F) : (constant c : Lc F F).Holds who c := ⟨LC.eval_const c, fun _ => rfl⟩

theorem holds_num {n : AllocatedNum F F} (h : n.Holds who v) : (num n).Holds who v :=
  ⟨n.eval_lc.trans h.val_eq, h.value_eq⟩

theorem holds_bit {c : Boolean F} {x : Bool} (h : c.Holds who x) : (bit c : Lc F F).Holds who (ofBool x) := by
  have heval : (c.lc (1 : F)).eval = ofBool x := by
    rw [Boolean.eval_lc, one_mul]
    exact h.reads
  refine ⟨heval, ?_⟩
  rintro rfl
  have hvalue := Boolean.HonestReads.value_eq h
  rw [bit, hvalue]
  rfl

theorem eval_scale (a : Lc F F) (c : F) : (a.scale c).lc.eval = a.lc.eval * c := by
  show ((a.lc.terms.map _).map _).sum = (a.lc.terms.map _).sum * c
  rw [List.map_map, ← List.sum_map_mul_right]
  apply congrArg List.sum
  apply List.map_congr_left
  intro t _
  show c * t.1 * t.2 = t.1 * t.2 * c
  ring

theorem eval_add (a b : Lc F F) : (a + b).lc.eval = a.lc.eval + b.lc.eval := LC.eval_add _ _

theorem eval_sub (a b : Lc F F) : (a - b).lc.eval = a.lc.eval - b.lc.eval := LC.eval_sub _ _

theorem eval_constant (c : F) : (constant c : Lc F F).lc.eval = c := LC.eval_const c

theorem Holds.scale (h : a.Holds who v) (c : F) : (a.scale c).Holds who (v * c) := by
  refine ⟨by rw [eval_scale, h.eval_eq], fun hw => ?_⟩
  rw [Lc.scale, h.value_eq hw]
  rfl

theorem Holds.add (ha : a.Holds who v) (hb : b.Holds who w) : (a + b).Holds who (v + w) := by
  refine ⟨by rw [eval_add, ha.eval_eq, hb.eval_eq], fun hw => ?_⟩
  show (do pure ((← a.value) + (← b.value)) : Option F) = _
  rw [ha.value_eq hw, hb.value_eq hw]
  rfl

theorem Holds.sub (ha : a.Holds who v) (hb : b.Holds who w) : (a - b).Holds who (v - w) := by
  refine ⟨by rw [eval_sub, ha.eval_eq, hb.eval_eq], fun hw => ?_⟩
  show (do pure ((← a.value) - (← b.value)) : Option F) = _
  rw [ha.value_eq hw, hb.value_eq hw]
  rfl

abbrev HoldAll (who : Circuit.Prover) (as : List (Lc F F)) (ns : List ℕ) : Prop :=
  List.Forall₂ (fun a n => a.Holds who ((n : ℕ) : F)) as ns

/-- A sum of digits whose weight grows by `base` at each. -/
theorem holds_foldl {α : Type} {f : α → Lc F F} (grow : F → F) (base : ℕ) (hgrow : ∀ w, grow w = w * base)
    {xs : List α} {ds : List ℕ} (h : List.Forall₂ (fun x d => (f x).Holds who ((d : ℕ) : F)) xs ds)
    {t : Lc F F × F} {v : F} (ht : t.1.Holds who v) :
    (xs.foldl (fun (t : Lc F F × F) x => (t.1 + (f x).scale t.2, grow t.2)) t).1.Holds who
      (v + t.2 * (Nat.ofDigits base ds : ℕ)) := by
  induction h generalizing t v with
  | nil => simpa using ht
  | cons hx _ ih =>
    rename_i x d xs ds _
    have hstep := ih (t := (t.1 + (f x).scale t.2, grow t.2)) (ht.add (hx.scale t.2))
    rw [List.foldl_cons]
    convert hstep using 1
    rw [hgrow, Nat.ofDigits_cons]
    push_cast
    ring

end Lc

theorem holds_pack {bs : List (Boolean F)} {xs : List Bool} (h : Boolean.HoldsAll who bs xs) :
    (pack bs : Lc F F).Holds who ((beBits xs : ℕ) : F) := by
  have hdigits : List.Forall₂ (fun b d => (Lc.bit b : Lc F F).Holds who ((d : ℕ) : F)) bs.reverse
      (xs.map Bool.toNat).reverse := by
    rw [List.forall₂_reverse_iff, List.forall₂_map_right_iff]
    refine h.imp fun b x hb => ?_
    rw [← ofBool_eq_natCast]
    exact Lc.holds_bit hb
  have hfold := Lc.holds_foldl (fun w => w + w) 2 (fun w => by push_cast; ring)
    hdigits (t := (0, 1)) Lc.holds_zero
  rw [zero_add, one_mul] at hfold
  exact hfold

theorem holds_packBytes {bytes : List (Lc F F)} {ns : List ℕ} (h : Lc.HoldAll who bytes ns) :
    (packBytes bytes).Holds who ((beNat 256 ns : ℕ) : F) := by
  have hfold := Lc.holds_foldl (f := id) (fun w => w * 256) 256 (fun w => by norm_num)
    (List.forall₂_reverse_iff.mpr h) (t := (0, 1)) Lc.holds_zero
  rw [zero_add, one_mul] at hfold
  exact hfold

/-- `decimal` of ASCII digits is the number they write. -/
theorem holds_decimal {digits : List (Lc F F)} {ds : List UInt8} (hds : ∀ d ∈ ds, 0x30 ≤ d.toNat)
    (h : Lc.HoldAll who digits (ds.map UInt8.toNat)) :
    (decimal digits).Holds who ((beNat 10 (ds.map fun d => d.toNat - 0x30) : ℕ) : F) := by
  have hdigits : List.Forall₂ (fun a n => (a - Lc.constant 48 : Lc F F).Holds who ((n : ℕ) : F)) digits.reverse
      (ds.map fun d => d.toNat - 0x30).reverse := by
    rw [List.forall₂_reverse_iff, List.forall₂_map_right_iff]
    rw [Lc.HoldAll, List.forall₂_map_right_iff] at h
    refine List.forall₂_iff_get.mpr ⟨h.length_eq, fun i h1 h2 => ?_⟩
    have hdigit := ((List.forall₂_iff_get.mp h).2 i h1 h2).sub (Lc.holds_constant 48)
    rwa [Nat.cast_sub (hds _ (List.get_mem _ _))]
  have hfold := Lc.holds_foldl (fun w => w * 10) 10 (fun w => by norm_num) hdigits (t := (0, 1)) Lc.holds_zero
  rw [zero_add, one_mul] at hfold
  exact hfold

/-! ## Rules -/

variable {a b : Lc F F} {v w : F}

theorem runs_equal {ins : List F} {u : Unit} :
    (equal a b).Runs ins u ↔ ins = [] ∧ a.lc.eval = b.lc.eval := by
  rw [equal, Circuit.runs_require, LC.eval_sub, LC.eval_const, mul_one, LC.eval_zero, sub_eq_zero]

theorem ensures_equal : (equal a b).Ensures fun _ => a.lc.eval = b.lc.eval :=
  fun _ _ h => runs_equal.mp h

theorem yields_equal (ha : a.Holds who v) (hb : b.Holds who v) :
    (equal a b).Yields who fun _ => True := by
  apply Circuit.yields_require
  rw [LC.eval_sub, ha.eval_eq, hb.eval_eq, sub_self, zero_mul, LC.eval_zero]

theorem Lc.ensures_alloc {hint : Option F} :
    (Lc.alloc hint : Circuit F F _).Ensures fun c => ∃ w, c = ⟨.var w, hint⟩ :=
  .var_bind fun w => Circuit.ensures_pure.mpr ⟨w, rfl⟩

theorem Lc.admits_alloc {hint : Option F} (w : F) :
    (Lc.alloc hint : Circuit F F _).Admits (· = ⟨.var w, hint⟩) :=
  .var_bind w (Circuit.admits_pure.mpr rfl)

theorem Lc.succeeds_alloc (v : F) :
    (Lc.alloc (some v) : Circuit F F _).Succeeds (· = ⟨.var v, some v⟩) :=
  .var_bind rfl (Circuit.succeeds_pure.mpr rfl)

/-- A new slot that a rule defines. -/
theorem yields_allocDefined {hint : Option F} {k : Lc F F → Lc F F}
    (hk : ∀ w, a.lc.eval * b.lc.eval = (k ⟨.var w, hint⟩).lc.eval ↔ w = v)
    (hv : who = .honest → hint = some v) :
    (do
      let c ← Lc.alloc hint
      product a b (k c)
      pure c).Yields who (·.Holds who v) := by
  cases who with
  | any =>
    constructor
    · refine Lc.ensures_alloc.bind ?_
      rintro c ⟨w, rfl⟩
      refine Circuit.Ensures.require_bind fun hw => Circuit.ensures_pure.mpr ?_
      rw [(hk w).mp hw]
      exact ⟨LC.eval_var v, fun h => by cases h⟩
    · refine (Lc.admits_alloc v).bind ?_
      rintro c rfl
      refine Circuit.Admits.require_bind ((hk v).mpr rfl) (Circuit.admits_pure.mpr ?_)
      exact ⟨LC.eval_var v, fun h => by cases h⟩
  | honest =>
    obtain rfl := hv rfl
    refine (Lc.succeeds_alloc v).bind ?_
    rintro c rfl
    refine Circuit.Succeeds.require_bind ((hk v).mpr rfl) (Circuit.succeeds_pure.mpr ?_)
    exact ⟨LC.eval_var v, fun _ => rfl⟩

theorem yields_mul (ha : a.Holds who v) (hb : b.Holds who w) : (mul a b).Yields who (·.Holds who (v * w)) := by
  apply yields_allocDefined (k := id)
  · intro u
    rw [ha.eval_eq, hb.eval_eq]
    show _ = (LC.var u).eval ↔ _
    rw [LC.eval_var]
    exact eq_comm
  · intro hw
    rw [ha.value_eq hw, hb.value_eq hw]
    rfl

theorem yields_mux {bit if0 if1 : Lc F F} {x : Bool} (hbit : bit.Holds who (ofBool x)) (h0 : if0.Holds who v)
    (h1 : if1.Holds who w) : (mux bit if0 if1).Yields who (·.Holds who (if x then w else v)) := by
  apply yields_allocDefined (k := fun out => out - if0)
  · intro u
    show _ = ((LC.var u) - if0.lc).eval ↔ _
    rw [(h1.sub h0).eval_eq, LC.eval_sub, LC.eval_var, hbit.eval_eq, h0.eval_eq]
    cases x with
    | true => simp [ofBool, eq_comm]
    | false =>
      simp only [ofBool, Bool.false_eq_true, if_false, zero_mul]
      exact ⟨fun h => sub_eq_zero.mp h.symm, fun h => (sub_eq_zero.mpr h).symm⟩
  · intro hw
    rw [hbit.value_eq hw, h0.value_eq hw, h1.value_eq hw]
    cases x <;> simp [ofBool]

/-! ## Bits -/

omit [Field F] in
theorem mapM_congr {α β : Type} {f g : β → Circuit F F α} {xs : List β} (h : ∀ x ∈ xs, f x = g x) :
    xs.mapM f = xs.mapM g := by
  induction xs with
  | nil => rfl
  | cons x xs ih =>
    rw [List.mapM_cons, List.mapM_cons, h x List.mem_cons_self, ih fun y hy => h y (List.mem_cons_of_mem _ hy)]

theorem allocBits_eq {bits : Option (List Bool)} {n : ℕ} (h : ∀ bs ∈ bits, bs.length = n) :
    (allocBits bits n : Circuit F F _) =
      (List.range n).mapM fun i => Boolean.alloc (bits.map fun bs => bs.getD i false) := by
  apply mapM_congr
  intro i hi
  cases bits with
  | none => rfl
  | some bs =>
    have hlt : i < bs.length := by
      rw [h bs rfl]
      exact List.mem_range.mp hi
    simp [bitAt, hlt]

theorem succeeds_allocBits {xs : List Bool} {n : ℕ} (hlen : xs.length = n) :
    (allocBits (some xs) n : Circuit F F _).Succeeds (Boolean.HonestReadsAll · xs) := by
  rw [allocBits_eq (by rintro bs ⟨⟩; exact hlen)]
  have hbit : ∀ i ∈ List.range n, (Boolean.alloc ((some xs).map fun bs => bs.getD i false) :
      Circuit F F _).Succeeds (·.HonestReads (xs.getD i false)) := fun i _ => Boolean.succeeds_alloc rfl
  refine (Circuit.Succeeds.mapM hbit).mono fun out hout => ?_
  have hreads := Boolean.HonestReadsAll.of_forall₂ hout
  rwa [map_getD_range hlen] at hreads

omit [Field F] in
theorem length_bitsHint [ToRepr F] {value : Option F} {n : ℕ} :
    ∀ bs ∈ value.map fun v => ((List.range n).map fun i => (ToRepr.toNat v).testBit i).reverse,
      bs.length = n := by
  intro bs hbs
  obtain ⟨v, -, rfl⟩ := Option.map_eq_some_iff.mp hbs
  simp

/-- The rules of a range split a number below `2 ^ n`. -/
theorem ensures_bits [ToRepr F] {n : ℕ} :
    (bits a n).Ensures fun out => ∃ xs : List Bool, xs.length = n ∧ Boolean.ReadsAll out xs ∧
      a.lc.eval = ((beBits xs : ℕ) : F) := by
  refine Circuit.ensures_assert.bind fun _ _ => ?_
  simp only
  rw [allocBits_eq length_bitsHint]
  refine Boolean.ensures_allocBits.bind fun out hout => ?_
  obtain ⟨xs, hlen, hxs⟩ := hout
  refine ensures_equal.bind fun _ heq => Circuit.ensures_pure.mpr ⟨xs, ?_, hxs, ?_⟩
  · rw [hlen, List.length_range]
  · have hpack : (pack out : Lc F F).Holds .any _ := holds_pack hxs
    rw [← heq, hpack.eval_eq]

theorem bitsHint_beBits [ToRepr F] [LawfulToRepr F] {n : ℕ} {xs : List Bool} (hlen : xs.length = n)
    (hlt : beBits xs < 2 ^ 255) :
    ((List.range n).map fun i => (ToRepr.toNat ((beBits xs : ℕ) : F)).testBit i).reverse = xs := by
  rw [LawfulToRepr.toNat_natCast hlt, ← leBits_reverse, ← hlen, ← List.length_reverse, ← List.reverse_inj,
    List.reverse_reverse]
  exact toLEBits_leBits xs.reverse

/-- The rules of a range give the bits of a number below `2 ^ n`. -/
theorem yields_bits [ToRepr F] [LargeChar F] [LawfulToRepr F] {n : ℕ} {xs : List Bool}
    (ha : a.Holds who ((beBits xs : ℕ) : F)) (hlen : xs.length = n) (hn : n < 256) :
    (bits a n).Yields who (Boolean.HoldsAll who · xs) := by
  have hpow : 2 ^ n ≤ 2 ^ 255 := Nat.pow_le_pow_right (by decide) (by omega)
  have hlt : ∀ ys : List Bool, ys.length = n → beBits ys < 2 ^ 255 := by
    intro ys hys
    have := beBits_lt ys
    rw [hys] at this
    omega
  cases who with
  | any =>
    constructor
    · refine ensures_bits.mono fun out hout => ?_
      obtain ⟨ys, hys, hreads, heval⟩ := hout
      rw [ha.eval_eq] at heval
      have heq := LargeChar.natCast_inj (F := F) (hlt xs hlen) (hlt ys hys) heval
      rw [beBits_inj (hlen.trans hys.symm) heq]
      exact hreads
    · refine (Circuit.admits_assert hn).bind fun _ _ => ?_
      simp only
      rw [allocBits_eq length_bitsHint]
      refine (Boolean.admits_allocBits xs (by simp [hlen])).bind fun out hout => ?_
      have hpack : (pack out : Lc F F).Holds .any _ := holds_pack hout
      have hequal := yields_equal hpack ha
      exact hequal.admits.bind fun _ _ => Circuit.admits_pure.mpr hout
  | honest =>
    refine (Circuit.succeeds_assert hn).bind fun _ _ => ?_
    simp only
    rw [ha.value_eq rfl]
    rw [Option.map_some, bitsHint_beBits hlen (hlt xs hlen)]
    refine (succeeds_allocBits hlen).bind fun out hout => ?_
    have hpack : (pack out : Lc F F).Holds .honest _ := holds_pack hout
    have hequal := yields_equal hpack ha
    exact hequal.succeeds.bind fun _ _ => Circuit.succeeds_pure.mpr hout

end Rules

end ZkCredVega.Nym
