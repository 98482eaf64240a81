import ZkCredVega.Nonnative.BigNat
import Mathlib.Tactic.LinearCombination

/-!
# Equality after carrying

`equal_when_carried` and `equal_when_carried_regroup` of `nonnative/bignat.rs`: the rules of the carries hold
over the integers, so that they are satisfied only by equal numbers, and by every pair of them.
-/

namespace ZkCredVega.Nonnative

open Circuits

section Rules

variable {F : Type} [Field F] {who : Circuit.Prover} [ToRepr F] [LawfulToRepr F]

/-! ## Carries -/

/-- No side of a carry rule reaches the field's size, and a carry has room in its bits. -/
structure Room (M base bits : ℕ) : Prop where
  base_two : 2 ≤ base
  noWrap : 3 * M + base * 2 ^ bits + base + 2 ^ bits < 2 ^ 255
  fits : 2 * M + 2 ^ bits ≤ base * 2 ^ bits
  bits_pos : 1 ≤ bits
  bits_le : bits ≤ 255

theorem Room.lt {M base bits : ℕ} (h : Room M base bits) : M < 2 ^ 255 := by
  have hle : M ≤ 3 * M + base * 2 ^ bits + base + 2 ^ bits := by
    generalize base * 2 ^ bits = x
    generalize 2 ^ bits = y
    omega
  exact lt_of_le_of_lt hle h.noWrap

/-- What the low `i` limbs of two numbers differ by, carried out. -/
def Carried (base : ℕ) (S O : List ℕ) (i c e : ℕ) : Prop :=
  ((evalList base (S.take i) : ℕ) : ℤ) - ((evalList base (O.take i) : ℕ) : ℤ) = (c - e) * base ^ i

theorem Carried.step {base : ℕ} {S O : List ℕ} {i c e c' e' r M : ℕ} (h : Carried base S O i c e)
    (hcarry : c + S.getD i 0 + M = O.getD i 0 + base * c' + r) (hextra : e + M = base * e' + r) :
    Carried base S O (i + 1) c' e' := by
  unfold Carried at *
  rw [evalList_take_succ, evalList_take_succ]
  have hdiff : (c : ℤ) - e + S.getD i 0 - O.getD i 0 = base * (c' - e') := by
    have h1 : (c : ℤ) + S.getD i 0 + M = O.getD i 0 + base * c' + r := by exact_mod_cast hcarry
    have h2 : (e : ℤ) + M = base * e' + r := by exact_mod_cast hextra
    linear_combination h1 - h2
  push_cast
  rw [pow_succ]
  linear_combination h + base ^ i * hdiff

section Carries

variable {a b : BigNat F F} {S O : List ℕ} {M bits n : ℕ}

structure CarryHolds (who : Circuit.Prover) (base M bits : ℕ) (S O : List ℕ) (n i : ℕ) (s : BigNat.Carry F F) (c : ℕ) :
    Prop where
  carryIn : s.carryIn.Holds who c
  carry_lt : i < n → c < 2 ^ bits
  last : i = n → 0 < n → c = s.extra
  extra_le : s.extra ≤ M
  carried : Carried base S O i c s.extra

omit [ToRepr F] [LawfulToRepr F] in
theorem carryHolds_zero (base M bits : ℕ) (S O : List ℕ) (n : ℕ) :
    CarryHolds who base M bits S O n 0 (⟨⟨0, some 0⟩, 0⟩ : BigNat.Carry F F) 0 := by
  refine ⟨⟨by simp, fun _ => by simp⟩, fun _ => Nat.two_pow_pos bits, fun _ _ => rfl, Nat.zero_le M, ?_⟩
  simp [Carried, evalList]

theorem extra_step {base e M : ℕ} (hbase : 2 ≤ base) (he : e ≤ M) : (e + M) / base ≤ M := by
  calc (e + M) / base ≤ (e + M) / 2 := Nat.div_le_div_left hbase (by decide)
    _ ≤ M := by omega

omit [LawfulToRepr F] in
theorem ensures_carryStep [LargeChar F] (hroom : Room M (2 ^ a.params.limbWidth) bits) (ha : a.Holds .any S)
    (hb : b.Holds .any O) (hS : ∀ x ∈ S, x ≤ M) (hO : ∀ x ∈ O, x ≤ M) {i : ℕ} (hi : i < n)
    {s : BigNat.Carry F F} {c : ℕ} (hs : CarryHolds .any (2 ^ a.params.limbWidth) M bits S O n i s c) :
    (a.carryStep b n M bits s i).Ensures fun s' => ∃ c',
      CarryHolds .any (2 ^ a.params.limbWidth) M bits S O n (i + 1) s' c' := by
  have hSi := getD_le hS i
  have hOi := getD_le hO i
  have hci := hs.carry_lt hi
  have hwrap := hroom.noWrap
  have hextraLe := extra_step hroom.base_two hs.extra_le
  have hsplit := Nat.div_add_mod (s.extra + M) (2 ^ a.params.limbWidth)
  have hmod := Nat.mod_lt (s.extra + M) (Nat.two_pow_pos a.params.limbWidth)
  have he := hs.extra_le
  unfold BigNat.carryStep Num.alloc
  simp only [bind_assoc, pure_bind]
  refine Circuit.Ensures.var_bind fun v => Circuit.Ensures.require_bind fun hrule => ?_
  simp only [LC.eval_zero, mul_zero, LC.eval_sub, LC.eval_add, LC.eval_const, eval_scaled, LC.eval_var,
    hs.carryIn.eval_eq, (ha.limb i).eval_eq, (hb.limb i).eval_eq] at hrule
  by_cases hlast : i + 1 < n
  · rw [if_pos hlast]
    refine (ensures_fitsInBits hroom.bits_pos).bind fun _ hfit => Circuit.ensures_pure.mpr ?_
    obtain ⟨c', hc', hv⟩ := hfit
    rw [LC.eval_var] at hv
    have hmul : 2 ^ a.params.limbWidth * c' ≤ 2 ^ a.params.limbWidth * 2 ^ bits := Nat.mul_le_mul_left _ hc'.le
    have hnat : c + S.getD i 0 + M = O.getD i 0 + 2 ^ a.params.limbWidth * c' +
        (s.extra + M) % 2 ^ a.params.limbWidth := by
      refine LargeChar.natCast_inj (F := F) (by omega) (by omega) ?_
      rw [hv] at hrule
      push_cast at hrule ⊢
      linear_combination -hrule
    refine ⟨c', ⟨by rw [LC.eval_var]; exact hv, fun h => by cases h⟩, fun _ => hc', fun h => by omega, hextraLe, ?_⟩
    exact hs.carried.step hnat hsplit.symm
  · rw [if_neg hlast]
    refine Circuit.Ensures.require_bind fun hout => Circuit.ensures_pure.mpr ?_
    simp only [LC.eval_zero, mul_zero, LC.eval_sub, LC.eval_const, LC.eval_var] at hout
    have hv : v = (((s.extra + M) / 2 ^ a.params.limbWidth : ℕ) : F) := (sub_eq_zero.mp hout.symm)
    have hnat : c + S.getD i 0 + M = O.getD i 0 + 2 ^ a.params.limbWidth * ((s.extra + M) / 2 ^ a.params.limbWidth) +
        (s.extra + M) % 2 ^ a.params.limbWidth := by
      refine LargeChar.natCast_inj (F := F) (by omega) (by omega) ?_
      rw [hv] at hrule
      push_cast at hrule ⊢
      linear_combination -hrule
    refine ⟨_, ⟨by rw [LC.eval_var]; exact hv, fun h => by cases h⟩, fun h => by omega, fun _ _ => rfl, hextraLe, ?_⟩
    exact hs.carried.step hnat hsplit.symm

theorem evalList_drop_zero {base n : ℕ} {xs : List ℕ} (h : ∀ x ∈ xs.drop n, x = 0) :
    evalList base xs = evalList base (xs.take n) := by
  have hzero : ∀ ys : List ℕ, (∀ y ∈ ys, y = 0) → evalList base ys = 0 := by
    intro ys hys
    induction ys with
    | nil => rfl
    | cons y ys ih =>
      rw [List.forall_mem_cons] at hys
      rw [evalList_cons, ih hys.2, hys.1, Nat.zero_mul]
  rw [evalList_take_drop base xs n, hzero _ h, Nat.mul_zero, Nat.add_zero]

omit [ToRepr F] [LawfulToRepr F] in
theorem ensures_zeroLimbs [LargeChar F] {a : BigNat F F} {S : List ℕ} (ha : a.Holds .any S)
    (hS : ∀ x ∈ S, x < 2 ^ 255) (n : ℕ) :
    (forM (a.limbs.drop n) fun limb => Circuit.require 0 0 limb : Circuit F F Unit).Ensures fun _ =>
      ∀ x ∈ S.drop n, x = 0 := by
  refine (Circuit.Ensures.forM fun limb _ => Circuit.ensures_require).mono fun _ h => ?_
  intro x hx
  have hcoeffs : a.limbs.map LC.eval = S.map fun n : ℕ => (n : F) := ha.poly.coefficients
  have hmem : ((x : ℕ) : F) ∈ (a.limbs.drop n).map LC.eval := by
    rw [List.map_drop, hcoeffs, ← List.map_drop]
    exact List.mem_map.mpr ⟨x, hx, rfl⟩
  obtain ⟨limb, hlimb, heval⟩ := List.mem_map.mp hmem
  have hzero := h limb hlimb
  rw [LC.eval_zero, mul_zero, heval] at hzero
  exact LargeChar.natCast_inj (F := F) (hS x (List.mem_of_mem_drop hx)) (by norm_num) (by rw [← hzero, Nat.cast_zero])

omit [LawfulToRepr F] in
/-- Numbers that are equal after carrying are equal. -/
theorem ensures_equalWhenCarried [LargeChar F] (hroom : Room M (2 ^ a.params.limbWidth) bits)
    (hM : max a.params.maxWord b.params.maxWord = M) (hbits : carryBits M a.params.limbWidth = bits)
    (hwidth : a.params.limbWidth = b.params.limbWidth) (hpos : 0 < S.length) (hpos' : 0 < O.length)
    (ha : a.Holds .any S) (hb : b.Holds .any O) :
    (a.equalWhenCarried b).Ensures fun _ =>
      evalList (2 ^ a.params.limbWidth) S = evalList (2 ^ a.params.limbWidth) O := by
  have hS : ∀ x ∈ S, x ≤ M := fun x hx => (ha.le x hx).trans (hM ▸ le_max_left _ _)
  have hO : ∀ x ∈ O, x ≤ M := fun x hx => (hb.le x hx).trans (hM ▸ le_max_right _ _)
  unfold BigNat.equalWhenCarried
  dsimp only
  rw [if_pos hwidth, hM, hbits]
  have hloop : ((List.range (min a.limbs.length b.limbs.length)).foldlM
      (a.carryStep b (min a.limbs.length b.limbs.length) M bits) ⟨⟨0, some 0⟩, 0⟩).Ensures fun s => ∃ c,
        CarryHolds .any (2 ^ a.params.limbWidth) M bits S O (min a.limbs.length b.limbs.length)
          (List.range (min a.limbs.length b.limbs.length)).length s c := by
    refine Circuit.Ensures.foldlM (fun i s => ∃ c, CarryHolds .any (2 ^ a.params.limbWidth) M bits S O
      (min a.limbs.length b.limbs.length) i s c) ⟨0, carryHolds_zero _ _ _ _ _ _⟩ ?_
    rintro i hi s ⟨c, hs⟩
    rw [List.getElem_range]
    exact ensures_carryStep hroom ha hb hS hO (by simpa using hi) hs
  refine hloop.bind fun s hs => ?_
  obtain ⟨c, hs⟩ := hs
  rw [List.length_range] at hs
  refine (ensures_zeroLimbs ha (fun x hx => lt_of_le_of_lt (hS x hx) hroom.lt) _).bind fun _ hzeroS => ?_
  refine (ensures_zeroLimbs hb (fun x hx => lt_of_le_of_lt (hO x hx) hroom.lt) _).mono fun _ hzeroO => ?_
  have hn : 0 < min a.limbs.length b.limbs.length := by
    rw [ha.length_eq, hb.length_eq]
    omega
  have hout := hs.last rfl hn
  have hcarried := hs.carried
  rw [Carried, hout, sub_self, zero_mul] at hcarried
  rw [evalList_drop_zero hzeroS, evalList_drop_zero hzeroO]
  exact_mod_cast sub_eq_zero.mp hcarried

/-- Equal numbers carry to a multiple of the next limb's weight. -/
theorem Carried.dvd {base i c e : ℕ} {S O : List ℕ} (hbase : 2 ≤ base) (h : Carried base S O i c e)
    (heq : evalList base S = evalList base O) :
    ∃ d : ℤ, (c : ℤ) - e + S.getD i 0 - O.getD i 0 = base * d := by
  have hS := evalList_take_drop base S (i + 1)
  have hO := evalList_take_drop base O (i + 1)
  rw [evalList_take_succ] at hS hO
  unfold Carried at h
  have hpow : (base : ℤ) ^ i ≠ 0 := pow_ne_zero _ (by positivity)
  refine ⟨(evalList base (O.drop (i + 1)) : ℕ) - (evalList base (S.drop (i + 1)) : ℕ), ?_⟩
  have hS' : ((evalList base S : ℕ) : ℤ) = ((evalList base (S.take i) : ℕ) : ℤ) + base ^ i * ((S.getD i 0 : ℕ) : ℤ) +
      base ^ (i + 1) * ((evalList base (S.drop (i + 1)) : ℕ) : ℤ) := by exact_mod_cast hS
  have hO' : ((evalList base O : ℕ) : ℤ) = ((evalList base (O.take i) : ℕ) : ℤ) + base ^ i * ((O.getD i 0 : ℕ) : ℤ) +
      base ^ (i + 1) * ((evalList base (O.drop (i + 1)) : ℕ) : ℤ) := by exact_mod_cast hO
  rw [heq] at hS'
  apply mul_left_cancel₀ hpow
  rw [pow_succ] at hS' hO'
  linear_combination hO' - hS' - h

theorem succeeds_carryStep (hroom : Room M (2 ^ a.params.limbWidth) bits) (ha : a.Holds .honest S)
    (hb : b.Holds .honest O) (hS : ∀ x ∈ S, x ≤ M) (hO : ∀ x ∈ O, x ≤ M)
    (heq : evalList (2 ^ a.params.limbWidth) S = evalList (2 ^ a.params.limbWidth) O)
    (hzeroS : ∀ x ∈ S.drop n, x = 0) (hzeroO : ∀ x ∈ O.drop n, x = 0) {i : ℕ} (hi : i < n)
    {s : BigNat.Carry F F} {c : ℕ} (hs : CarryHolds .honest (2 ^ a.params.limbWidth) M bits S O n i s c) :
    (a.carryStep b n M bits s i).Succeeds fun s' => ∃ c',
      CarryHolds .honest (2 ^ a.params.limbWidth) M bits S O n (i + 1) s' c' := by
  have hSi := getD_le hS i
  have hOi := getD_le hO i
  have hci := hs.carry_lt hi
  have hextraLe := extra_step hroom.base_two hs.extra_le
  have hsplit := Nat.div_add_mod (s.extra + M) (2 ^ a.params.limbWidth)
  have hmod := Nat.mod_lt (s.extra + M) (Nat.two_pow_pos a.params.limbWidth)
  obtain ⟨d, hd⟩ := hs.carried.dvd hroom.base_two heq
  -- the total is the extra's remainder and a multiple of the base
  obtain ⟨total, htotal⟩ : ∃ total, S.getD i 0 + c + M = O.getD i 0 + total :=
    ⟨S.getD i 0 + c + M - O.getD i 0, by omega⟩
  have htotalInt : (total : ℤ) =
      ((2 ^ a.params.limbWidth : ℕ) : ℤ) * (d + ((s.extra + M) / 2 ^ a.params.limbWidth : ℕ)) +
      ((s.extra + M) % 2 ^ a.params.limbWidth : ℕ) := by
    have h1 : ((S.getD i 0 : ℕ) : ℤ) + c + M = (O.getD i 0 : ℕ) + total := by exact_mod_cast htotal
    have h2 : ((2 ^ a.params.limbWidth : ℕ) : ℤ) * ((s.extra + M) / 2 ^ a.params.limbWidth : ℕ) +
        ((s.extra + M) % 2 ^ a.params.limbWidth : ℕ) = s.extra + M := by exact_mod_cast hsplit
    linear_combination -h1 + hd - h2
  have hbasePos := Nat.two_pow_pos a.params.limbWidth
  have hnonneg : 0 ≤ d + ((s.extra + M) / 2 ^ a.params.limbWidth : ℕ) := by
    by_contra hneg
    have hle : d + ((s.extra + M) / 2 ^ a.params.limbWidth : ℕ) ≤ -1 := by omega
    have hmul := mul_le_mul_of_nonneg_left hle (Int.natCast_nonneg (2 ^ a.params.limbWidth))
    omega
  obtain ⟨c', hc'⟩ : ∃ c' : ℕ, (c' : ℤ) = d + ((s.extra + M) / 2 ^ a.params.limbWidth : ℕ) :=
    ⟨_, Int.toNat_of_nonneg hnonneg⟩
  have htotalNat : total = 2 ^ a.params.limbWidth * c' + (s.extra + M) % 2 ^ a.params.limbWidth := by
    rw [← hc'] at htotalInt
    exact_mod_cast htotalInt
  have hdiv : total / 2 ^ a.params.limbWidth = c' := by
    rw [htotalNat, Nat.mul_add_div hbasePos, Nat.div_eq_of_lt hmod, Nat.add_zero]
  have hnat : c + S.getD i 0 + M = O.getD i 0 + 2 ^ a.params.limbWidth * c' +
      (s.extra + M) % 2 ^ a.params.limbWidth := by omega
  have hlt : c' < 2 ^ bits := by
    have hfits := hroom.fits
    refine Nat.lt_of_mul_lt_mul_left (a := 2 ^ a.params.limbWidth) (lt_of_lt_of_le ?_ hfits)
    omega
  have hcarried := hs.carried.step hnat hsplit.symm
  have hM := hroom.lt
  have hbitsLe : 2 ^ bits ≤ 2 ^ 255 := Nat.pow_le_pow_right (by decide) hroom.bits_le
  have hhint : BigNat.carryHint a b M (2 ^ a.params.limbWidth) s.carryIn.value i = .ok ((c' : ℕ) : F) := by
    have hx : a.limbValues = some (S.map fun n : ℕ => (n : F)) := ha.poly.values rfl
    have hy : b.limbValues = some (O.map fun n : ℕ => (n : F)) := hb.poly.values rfl
    have hSrepr : ToRepr.toNat ((S.getD i 0 : ℕ) : F) = S.getD i 0 := LawfulToRepr.toNat_natCast (by omega)
    have hOrepr : ToRepr.toNat ((O.getD i 0 : ℕ) : F) = O.getD i 0 := LawfulToRepr.toNat_natCast (by omega)
    have hcrepr : ToRepr.toNat ((c : ℕ) : F) = c := LawfulToRepr.toNat_natCast (by omega)
    unfold BigNat.carryHint
    rw [hx, hy, hs.carryIn.value_eq rfl]
    show (if ToRepr.toNat ((S.map fun n : ℕ => (n : F)).getD i 0) + ToRepr.toNat ((c : ℕ) : F) + M <
        ToRepr.toNat ((O.map fun n : ℕ => (n : F)).getD i 0) then Except.error Failure.panic
      else Except.ok (((ToRepr.toNat ((S.map fun n : ℕ => (n : F)).getD i 0) + ToRepr.toNat ((c : ℕ) : F) + M -
        ToRepr.toNat ((O.map fun n : ℕ => (n : F)).getD i 0)) / 2 ^ a.params.limbWidth : ℕ) : F)) = _
    rw [getD_cast, getD_cast, hSrepr, hOrepr, hcrepr, if_neg (by omega), htotal, Nat.add_sub_cancel_left, hdiv]
  unfold BigNat.carryStep Num.alloc
  simp only [bind_assoc, pure_bind]
  refine Circuit.Succeeds.var_bind hhint (Circuit.Succeeds.require_bind ?_ ?_)
  · simp only [LC.eval_zero, mul_zero, LC.eval_sub, LC.eval_add, LC.eval_const, eval_scaled, LC.eval_var,
      hs.carryIn.eval_eq, (ha.limb i).eval_eq, (hb.limb i).eval_eq]
    have hfield := congrArg (fun k : ℕ => (k : F)) hnat
    push_cast at hfield ⊢
    linear_combination -hfield
  have hnum : (⟨LC.var ((c' : ℕ) : F), (BigNat.carryHint a b M (2 ^ a.params.limbWidth) s.carryIn.value i).toOption⟩ :
      Num F F).Holds .honest c' := by
    rw [hhint]
    exact ⟨LC.eval_var _, fun _ => rfl⟩
  by_cases hlast : i + 1 < n
  · rw [if_pos hlast]
    refine (succeeds_fitsInBits hnum hlt hroom.bits_pos hroom.bits_le).bind fun _ _ => Circuit.succeeds_pure.mpr ?_
    exact ⟨c', hnum, fun _ => hlt, fun h => by omega, hextraLe, hcarried⟩
  · rw [if_neg hlast]
    obtain rfl : n = i + 1 := by omega
    have hout : c' = (s.extra + M) / 2 ^ a.params.limbWidth := by
      have hzero := hcarried
      rw [Carried, ← evalList_drop_zero hzeroS, ← evalList_drop_zero hzeroO, heq, sub_self] at hzero
      have hpow : ((2 ^ a.params.limbWidth : ℕ) : ℤ) ^ (i + 1) ≠ 0 := pow_ne_zero _ (by positivity)
      have := (mul_eq_zero.mp hzero.symm).resolve_right hpow
      omega
    refine Circuit.Succeeds.require_bind ?_ (Circuit.succeeds_pure.mpr ?_)
    · simp only [LC.eval_zero, mul_zero, LC.eval_sub, LC.eval_const, LC.eval_var, hout, sub_self]
    · exact ⟨c', hnum, fun _ => hlt, fun _ _ => hout, hextraLe, hcarried⟩

omit [ToRepr F] [LawfulToRepr F] in
theorem succeeds_zeroLimbs {a : BigNat F F} {S : List ℕ} (ha : a.Holds .honest S) {n : ℕ}
    (hzero : ∀ x ∈ S.drop n, x = 0) :
    (forM (a.limbs.drop n) fun limb => Circuit.require 0 0 limb : Circuit F F Unit).Succeeds fun _ => True := by
  refine Circuit.Succeeds.forM fun limb hlimb => Circuit.succeeds_require ?_
  have hcoeffs : a.limbs.map LC.eval = S.map fun n : ℕ => (n : F) := ha.poly.coefficients
  have hmem : limb.eval ∈ (S.drop n).map fun n : ℕ => (n : F) := by
    rw [List.map_drop, ← hcoeffs, ← List.map_drop]
    exact List.mem_map.mpr ⟨limb, hlimb, rfl⟩
  obtain ⟨x, hx, heval⟩ := List.mem_map.mp hmem
  rw [LC.eval_zero, mul_zero, ← heval, hzero x hx, Nat.cast_zero]

theorem succeeds_equalWhenCarried (hroom : Room M (2 ^ a.params.limbWidth) bits)
    (hM : max a.params.maxWord b.params.maxWord = M) (hbits : carryBits M a.params.limbWidth = bits)
    (hwidth : a.params.limbWidth = b.params.limbWidth) (ha : a.Holds .honest S) (hb : b.Holds .honest O)
    (heq : evalList (2 ^ a.params.limbWidth) S = evalList (2 ^ a.params.limbWidth) O)
    (hzeroS : ∀ x ∈ S.drop (min S.length O.length), x = 0) (hzeroO : ∀ x ∈ O.drop (min S.length O.length), x = 0) :
    (a.equalWhenCarried b).Succeeds fun _ => True := by
  have hS : ∀ x ∈ S, x ≤ M := fun x hx => (ha.le x hx).trans (hM ▸ le_max_left _ _)
  have hO : ∀ x ∈ O, x ≤ M := fun x hx => (hb.le x hx).trans (hM ▸ le_max_right _ _)
  unfold BigNat.equalWhenCarried
  dsimp only
  rw [if_pos hwidth, hM, hbits, ha.length_eq, hb.length_eq]
  have hloop : ((List.range (min S.length O.length)).foldlM
      (a.carryStep b (min S.length O.length) M bits) ⟨⟨0, some 0⟩, 0⟩).Succeeds fun s => ∃ c,
        CarryHolds .honest (2 ^ a.params.limbWidth) M bits S O (min S.length O.length)
          (List.range (min S.length O.length)).length s c := by
    refine Circuit.Succeeds.foldlM (fun i s => ∃ c, CarryHolds .honest (2 ^ a.params.limbWidth) M bits S O
      (min S.length O.length) i s c) ⟨0, carryHolds_zero _ _ _ _ _ _⟩ ?_
    rintro i hi s ⟨c, hs⟩
    rw [List.getElem_range]
    exact succeeds_carryStep hroom ha hb hS hO heq hzeroS hzeroO (by simpa using hi) hs
  refine hloop.bind fun s _ => ?_
  exact (succeeds_zeroLimbs ha hzeroS).bind fun _ _ => succeeds_zeroLimbs hb hzeroO

end Carries

/-! ## Equality after regrouping -/

/-- Every group of `g` limbs with entries up to `M` has room. -/
structure Grouping (M w g bits : ℕ) : Prop where
  size : (capacity - carryBits M w) / w = g
  pos : 0 < g
  carry : carryBits (((List.range g).map fun i => 2 ^ (i * w)).sum * M) (w * g) = bits
  room : Room (((List.range g).map fun i => 2 ^ (i * w)).sum * M) (2 ^ (w * g)) bits

section Regroup

variable {a b : BigNat F F} {S O : List ℕ} {M w g bits : ℕ}

omit [Field F] [ToRepr F] [LawfulToRepr F] in
theorem max_groupLimbs [Field F] (a b : BigNat F F) (hwidth : a.params.limbWidth = b.params.limbWidth) (g : ℕ) :
    max (a.groupLimbs g).params.maxWord (b.groupLimbs g).params.maxWord =
      ((List.range g).map fun i => 2 ^ (i * a.params.limbWidth)).sum * max a.params.maxWord b.params.maxWord := by
  show max (((List.range g).map fun i => 2 ^ (i * a.params.limbWidth)).sum * a.params.maxWord)
    (((List.range g).map fun i => 2 ^ (i * b.params.limbWidth)).sum * b.params.maxWord) = _
  rw [← hwidth, Nat.mul_max_mul_left]

theorem length_groupNats (w g : ℕ) (ns : List ℕ) : (groupNats w g ns).length = (ns.length - 1) / g + 1 := by
  simp [groupNats]

omit [LawfulToRepr F] in
theorem ensures_regroup [LargeChar F] (hgroup : Grouping M w g bits) (ha : a.Holds .any S) (hb : b.Holds .any O)
    (hwa : a.params.limbWidth = w) (hwb : b.params.limbWidth = w) (hM : max a.params.maxWord b.params.maxWord = M) :
    (a.equalWhenCarriedRegroup b).Ensures fun _ => evalList (2 ^ w) S = evalList (2 ^ w) O := by
  subst hwa
  unfold BigNat.equalWhenCarriedRegroup
  dsimp only
  rw [if_pos hwb.symm, hM, hgroup.size]
  have hwidth : (a.groupLimbs g).params.limbWidth = (b.groupLimbs g).params.limbWidth := by
    show a.params.limbWidth * g = b.params.limbWidth * g
    rw [hwb]
  have hmax := max_groupLimbs a b hwb.symm g
  rw [hM] at hmax
  have hpos : ∀ ns : List ℕ, 0 < (groupNats a.params.limbWidth g ns).length := by
    intro ns
    rw [length_groupNats]
    exact Nat.succ_pos _
  have hb' := hb.groupLimbs hgroup.pos
  rw [hwb] at hb'
  refine (ensures_equalWhenCarried hgroup.room hmax hgroup.carry hwidth (hpos S) (hpos O)
    (ha.groupLimbs hgroup.pos) hb').mono fun _ h => ?_
  have h : evalList (2 ^ (a.params.limbWidth * g)) (groupNats a.params.limbWidth g S) =
      evalList (2 ^ (a.params.limbWidth * g)) (groupNats a.params.limbWidth g O) := h
  rwa [evalList_groupNats hgroup.pos, evalList_groupNats hgroup.pos] at h

theorem eq_zero_of_evalList_lt {base n : ℕ} (hbase : 2 ≤ base) {xs : List ℕ} (h : evalList base xs < base ^ n) :
    ∀ x ∈ xs.drop n, x = 0 := by
  have hzero : ∀ ys : List ℕ, evalList base ys = 0 → ∀ y ∈ ys, y = 0 := by
    intro ys hys
    induction ys with
    | nil => exact fun _ h => absurd h List.not_mem_nil
    | cons y ys ih =>
      rw [evalList_cons] at hys
      have htail : evalList base ys = 0 := by
        have hmul : evalList base ys * base = 0 := by omega
        exact (Nat.mul_eq_zero.mp hmul).resolve_right (by omega)
      exact List.forall_mem_cons.mpr ⟨by omega, ih htail⟩
  apply hzero
  by_contra hne
  have hpos : 1 ≤ evalList base (xs.drop n) := by omega
  have hle := Nat.mul_le_mul_left (base ^ n) hpos
  rw [evalList_take_drop base xs n] at h
  omega

theorem succeeds_regroup (hgroup : Grouping M w g bits) (ha : a.Holds .honest S) (hb : b.Holds .honest O)
    (hwa : a.params.limbWidth = w) (hwb : b.params.limbWidth = w) (hM : max a.params.maxWord b.params.maxWord = M)
    (heq : evalList (2 ^ w) S = evalList (2 ^ w) O) (hlen : (S.length - 1) / g ≤ (O.length - 1) / g)
    (hlt : evalList (2 ^ w) S < (2 ^ (w * g)) ^ ((S.length - 1) / g + 1)) :
    (a.equalWhenCarriedRegroup b).Succeeds fun _ => True := by
  subst hwa
  unfold BigNat.equalWhenCarriedRegroup
  dsimp only
  rw [if_pos hwb.symm, hM, hgroup.size]
  have hwidth : (a.groupLimbs g).params.limbWidth = (b.groupLimbs g).params.limbWidth := by
    show a.params.limbWidth * g = b.params.limbWidth * g
    rw [hwb]
  have hmax := max_groupLimbs a b hwb.symm g
  rw [hM] at hmax
  have hb' := hb.groupLimbs hgroup.pos
  rw [hwb] at hb'
  have hgroups : evalList (2 ^ (a.params.limbWidth * g)) (groupNats a.params.limbWidth g S) =
      evalList (2 ^ (a.params.limbWidth * g)) (groupNats a.params.limbWidth g O) := by
    rw [evalList_groupNats hgroup.pos, evalList_groupNats hgroup.pos, heq]
  have hmin : min (groupNats a.params.limbWidth g S).length (groupNats a.params.limbWidth g O).length =
      (S.length - 1) / g + 1 := by
    rw [length_groupNats, length_groupNats]
    omega
  refine succeeds_equalWhenCarried hgroup.room hmax hgroup.carry hwidth (ha.groupLimbs hgroup.pos) hb' hgroups ?_ ?_
  · rw [hmin]
    refine eq_zero_of_evalList_lt hgroup.room.base_two ?_
    rw [evalList_groupNats hgroup.pos]
    exact hlt
  · rw [hmin]
    refine eq_zero_of_evalList_lt hgroup.room.base_two ?_
    rw [evalList_groupNats hgroup.pos, ← heq]
    exact hlt

end Regroup

/-! ## Bounds of products -/

theorem convAt_le {xs ys : List ℕ} {A B : ℕ} (hxs : ∀ x ∈ xs, x ≤ A) (hys : ∀ y ∈ ys, y ≤ B) (k : ℕ) :
    Poly.convAt xs ys k ≤ xs.length * (A * B) := by
  have hsum : Poly.convAt xs ys k = ∑ i ∈ Finset.range (k + 1), xs.getD i 0 * ys.getD (k - i) 0 := rfl
  rw [hsum]
  have hmem : ∀ i ∈ Finset.range (k + 1), xs.getD i 0 * ys.getD (k - i) 0 ≠ 0 → i ∈ Finset.range xs.length := by
    intro i _ hne
    rw [Finset.mem_range]
    by_contra hge
    rw [List.getD_eq_getElem?_getD, List.getElem?_eq_none (by omega)] at hne
    simp at hne
  calc ∑ i ∈ Finset.range (k + 1), xs.getD i 0 * ys.getD (k - i) 0
      ≤ ∑ i ∈ Finset.range xs.length, xs.getD i 0 * ys.getD (k - i) 0 := Finset.sum_le_sum_of_ne_zero hmem
    _ ≤ ∑ _i ∈ Finset.range xs.length, A * B :=
        Finset.sum_le_sum fun i _ => Nat.mul_le_mul (getD_le hxs i) (getD_le hys _)
    _ = xs.length * (A * B) := by rw [Finset.sum_const, Finset.card_range, smul_eq_mul]

theorem convAt_comm (xs ys : List ℕ) (k : ℕ) : Poly.convAt xs ys k = Poly.convAt ys xs k := by
  rw [← getD_conv, ← getD_conv, ← coeff_listPoly, ← coeff_listPoly, listPoly_conv, listPoly_conv, mul_comm]

theorem conv_le {xs ys : List ℕ} {A B : ℕ} (hxs : ∀ x ∈ xs, x ≤ A) (hys : ∀ y ∈ ys, y ≤ B) :
    ∀ z ∈ Poly.conv xs ys, z ≤ min xs.length ys.length * A * B := by
  intro z hz
  obtain ⟨k, -, rfl⟩ := List.mem_map.mp hz
  have hleft := convAt_le hxs hys k
  have hright := convAt_le hys hxs k
  rw [← convAt_comm xs ys, Nat.mul_comm B A] at hright
  rw [Nat.mul_assoc]
  rcases Nat.le_total xs.length ys.length with h | h
  · rw [Nat.min_eq_left h]
    exact hleft
  · rw [Nat.min_eq_right h]
    exact hright

theorem addLists_le {xs ys : List ℕ} {A B : ℕ} (hxs : ∀ x ∈ xs, x ≤ A) (hys : ∀ y ∈ ys, y ≤ B) :
    ∀ z ∈ Poly.addLists xs ys, z ≤ A + B := by
  intro z hz
  obtain ⟨k, -, rfl⟩ := List.mem_map.mp hz
  exact Nat.add_le_add (getD_le hxs k) (getD_le hys k)

end Rules

end ZkCredVega.Nonnative
