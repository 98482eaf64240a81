import ZkCredVega.Nym.Rules
import ZkCredVega.Nym.Statement

/-!
# Matching a request's patterns

The rules of `request.rs` compare a pattern with the credential's bytes in its window:
what the thermometer switches, what the limbs compare, and that a pattern's public values
name it.
-/

namespace ZkCredVega.Nym

open Circuits

/-! ## Where a pattern stands -/

namespace Pattern

/-- The window position of the pattern's first byte. -/
def start (p : Pattern) : ℕ :=
  match p.window.align with
  | .left => 0
  | .right => p.window.len - p.bytes.length

/-- The slots at the pattern's positions hold its bytes. -/
def Matches (p : Pattern) (slots : List UInt8) : Prop :=
  (slots.drop p.start).take p.bytes.length = p.bytes

instance (p : Pattern) (slots : List UInt8) : Decidable (p.Matches slots) :=
  inferInstanceAs (Decidable (_ = _))

def covers (p : Pattern) (i : ℕ) : Bool := p.start ≤ i ∧ i < p.start + p.bytes.length

def masked (p : Pattern) (slots : List UInt8) : List UInt8 :=
  slots.zipIdx.map fun t => if p.covers t.2 then t.1 else 0

theorem start_add_le (p : Pattern) : p.start + p.bytes.length ≤ p.window.len := by
  have h := p.length_le
  unfold start
  split <;> omega

theorem aligned_eq (p : Pattern) : p.aligned = List.replicate p.start 0 ++ p.bytes ++
    List.replicate (p.window.len - (p.start + p.bytes.length)) 0 := by
  have h := p.length_le
  unfold aligned start
  cases p.window.align with
  | left => simp
  | right =>
    have hzero : p.window.len - (p.window.len - p.bytes.length + p.bytes.length) = 0 := by omega
    simp [hzero]

theorem masked_eq (p : Pattern) {slots : List UInt8} (hlen : slots.length = p.window.len) :
    p.masked slots = List.replicate p.start 0 ++ (slots.drop p.start).take p.bytes.length ++
      List.replicate (p.window.len - (p.start + p.bytes.length)) 0 := by
  have h := p.start_add_le
  apply List.ext_getElem
  · simp [masked, hlen]
    omega
  intro i h1 h2
  simp only [masked, List.getElem_map, List.getElem_zipIdx, Nat.zero_add, covers, decide_eq_true_eq,
    List.getElem_append, List.length_append, List.length_replicate, List.length_take, List.length_drop,
    List.getElem_replicate, List.getElem_take, List.getElem_drop, hlen]
  by_cases hi : i < p.start
  · rw [if_neg (by omega), dif_pos (by omega), dif_pos hi]
  · by_cases hi' : i < p.start + p.bytes.length
    · rw [if_pos ⟨by omega, hi'⟩, dif_pos (by omega), dif_neg hi]
      congr 1
      omega
    · rw [if_neg (by omega), dif_neg (by omega)]

/-- The switched slots are the pattern's window exactly when the slots match. -/
theorem masked_eq_aligned_iff (p : Pattern) {slots : List UInt8} (hlen : slots.length = p.window.len) :
    p.masked slots = p.aligned ↔ p.Matches slots := by
  have h := p.start_add_le
  rw [p.masked_eq hlen, p.aligned_eq, List.append_left_inj, List.append_right_inj]
  rfl

end Pattern

/-! ## The thermometer -/

/-- The bits of `2 ^ count - 1`, most significant first. -/
def thermometerBits (n count : ℕ) : List Bool := List.replicate (n - count) false ++ List.replicate count true

theorem length_thermometerBits {n count : ℕ} (h : count ≤ n) : (thermometerBits n count).length = n := by
  simp [thermometerBits]
  omega

theorem getElem?_thermometerBits {n count k : ℕ} (h : count ≤ n) (hk : k < n) :
    (thermometerBits n count)[n - 1 - k]? = some (decide (k < count)) := by
  rw [thermometerBits, List.getElem?_append, List.length_replicate]
  by_cases hlt : k < count
  · rw [if_neg (by omega), List.getElem?_replicate, if_pos (by omega), decide_eq_true hlt]
  · rw [if_pos (by omega), List.getElem?_replicate, if_pos (by omega), decide_eq_false hlt]

theorem beBits_replicate_false (n : ℕ) : beBits (List.replicate n false) = 0 := by
  induction n with
  | zero => rfl
  | succ n ih =>
    rw [List.replicate_succ', beBits_append, ih]
    rfl

theorem beBits_replicate_true (n : ℕ) : beBits (List.replicate n true) = 2 ^ n - 1 := by
  induction n with
  | zero => rfl
  | succ n ih =>
    have hpos := Nat.two_pow_pos n
    rw [List.replicate_succ', beBits_append, ih, pow_succ]
    show 2 * (2 ^ n - 1) + 1 = _
    omega

theorem beBits_thermometerBits (n count : ℕ) : beBits (thermometerBits n count) = 2 ^ count - 1 := by
  rw [thermometerBits, beBits_append, beBits_replicate_false, beBits_replicate_true, Nat.mul_zero, Nat.zero_add]

section Fields

variable {F : Type} [Field F]

theorem foldl_thermometer (count : ℕ) :
    (List.range count).foldl (fun (sum : F) _ => sum + sum + 1) 0 = ((2 ^ count - 1 : ℕ) : F) := by
  induction count with
  | zero => simp
  | succ n ih =>
    have hpos := Nat.two_pow_pos n
    have hsucc : 2 ^ (n + 1) - 1 = (2 ^ n - 1) + (2 ^ n - 1) + 1 := by
      rw [pow_succ]
      omega
    rw [List.range_succ, List.foldl_append, List.foldl_cons, List.foldl_nil, ih, hsucc]
    push_cast
    rfl

theorem Pattern.values_eq (p : Pattern) : (p.values : List F) =
    (chunks limb p.aligned).map fromBe ++
      [((beBits (thermometerBits p.window.thermometer p.count) : ℕ) : F)] := by
  rw [Pattern.values, foldl_thermometer, beBits_thermometerBits]

/-! ## The switches -/

theorem foldl_set_getElem? {α : Type} (position : ℕ → ℕ) (value : ℕ → α) (init : List α) {n i : ℕ}
    (hinj : ∀ j k, j < n → k < n → position j = position k → j = k) (hi : i < init.length) :
    (∀ k < n, position k = i →
      ((List.range n).foldl (fun acc k => acc.set (position k) (value k)) init)[i]? = some (value k)) ∧
    ((∀ k < n, position k ≠ i) →
      ((List.range n).foldl (fun acc k => acc.set (position k) (value k)) init)[i]? = init[i]?) := by
  have hlength : ∀ m, ((List.range m).foldl (fun acc k => acc.set (position k) (value k)) init).length =
      init.length := by
    intro m
    induction m with
    | zero => rfl
    | succ m ih => rw [List.range_succ, List.foldl_append, List.foldl_cons, List.foldl_nil, List.length_set, ih]
  induction n with
  | zero => exact ⟨fun k hk => absurd hk (Nat.not_lt_zero k), fun _ => rfl⟩
  | succ n ih =>
    obtain ⟨hhit, hmiss⟩ := ih fun j k hj hk => hinj j k (by omega) (by omega)
    rw [List.range_succ, List.foldl_append, List.foldl_cons, List.foldl_nil, List.getElem?_set, hlength]
    constructor
    · intro k hk hpos
      by_cases hlast : k = n
      · rw [hlast] at hpos
        rw [if_pos hpos, if_pos (by omega), hlast]
      · have hne : position n ≠ i := fun h => hlast (hinj k n hk (by omega) (hpos.trans h.symm))
        rw [if_neg hne, hhit k (by omega) hpos]
    · intro hnone
      rw [if_neg (hnone n (by omega)), hmiss fun k hk => hnone k (by omega)]

theorem Window.position_inj {w : Window} {j k : ℕ} (hj : j < w.thermometer) (hk : k < w.thermometer)
    (h : w.position j = w.position k) : j = k := by
  unfold Window.position at h
  split at h <;> omega

theorem length_switches {V : Type} [One V] (window : Window) (thermometer : List (Boolean V)) :
    (switches window thermometer : List (Option (Lc F V))).length = window.len := by
  have hfold : ∀ (ks : List ℕ) (acc : List (Option (Lc F V))), (ks.foldl (fun switch k =>
      switch.set (window.position k) (thermometer[window.thermometer - 1 - k]?.map Lc.bit)) acc).length =
        acc.length := by
    intro ks
    induction ks with
    | nil => exact fun _ => rfl
    | cons k ks ih =>
      intro acc
      rw [List.foldl_cons, ih, List.length_set]
  rw [switches, hfold, List.length_replicate]

theorem Pattern.count_le (p : Pattern) (hfits : p.window.thermometer ≤ p.window.len) :
    p.count ≤ p.window.thermometer := by
  have h := p.length_le
  unfold Pattern.count Window.fixed
  omega

/-- The pattern covers the position of bit `k` when its count exceeds `k`. -/
theorem Pattern.covers_position (p : Pattern) (hfits : p.window.thermometer ≤ p.window.len) {k : ℕ}
    (hk : k < p.window.thermometer) : p.covers (p.window.position k) = decide (k < p.count) := by
  have h := p.length_le
  have hfixed := p.fixed_le
  unfold Window.fixed at hfixed
  unfold Pattern.covers Pattern.start Window.position Pattern.count Window.fixed
  apply decide_eq_decide.mpr
  cases p.window.align <;> simp only <;> omega

theorem Pattern.covers_of_fixed (p : Pattern) (hfits : p.window.thermometer ≤ p.window.len) {i : ℕ}
    (hi : i < p.window.len) (hfree : ∀ k < p.window.thermometer, p.window.position k ≠ i) :
    p.covers i = true := by
  have h := p.length_le
  have hfixed := p.fixed_le
  unfold Window.fixed at hfixed
  unfold Window.position Window.fixed at hfree
  unfold Pattern.covers Pattern.start
  apply decide_eq_true
  cases halign : p.window.align with
  | left =>
    simp only [halign] at hfree ⊢
    by_contra hout
    exact hfree (i - (p.window.len - p.window.thermometer)) (by omega) (by omega)
  | right =>
    simp only [halign] at hfree ⊢
    by_contra hout
    exact hfree (p.window.thermometer - 1 - i) (by omega) (by omega)

/-- A switch lets its byte pass exactly when `on`: there is none and the byte always passes, or it is
a thermometer bit worth `on`. -/
def SwitchHolds (who : Circuit.Prover) (switch : Option (Lc F F)) (on : Bool) : Prop :=
  match switch with
  | none => on = true
  | some bit => bit.Holds who (ofBool on)

theorem exists_getElem?_of_forall₂ {α β : Type} {R : α → β → Prop} {as : List α} {bs : List β}
    (h : List.Forall₂ R as bs) {i : ℕ} {b : β} (hb : bs[i]? = some b) : ∃ a, as[i]? = some a ∧ R a b := by
  induction h generalizing i with
  | nil => simp at hb
  | cons hab _ ih =>
    cases i with
    | zero =>
      rw [List.getElem?_cons_zero, Option.some.injEq] at hb
      exact ⟨_, rfl, hb ▸ hab⟩
    | succ i => exact ih hb

/-- The thermometer of a pattern switches on the positions the pattern covers. -/
theorem switchHolds_switches {who : Circuit.Prover} (p : Pattern) (hfits : p.window.thermometer ≤ p.window.len)
    {thermometer : List (Boolean F)}
    (h : Boolean.HoldsAll who thermometer (thermometerBits p.window.thermometer p.count)) {i : ℕ}
    (hi : i < p.window.len) : ∃ switch, (switches p.window thermometer : List (Option (Lc F F)))[i]? = some switch ∧
      SwitchHolds who switch (p.covers i) := by
  have hset := foldl_set_getElem? p.window.position
    (fun k => (thermometer[p.window.thermometer - 1 - k]?.map Lc.bit : Option (Lc F F)))
    (List.replicate p.window.len none) (fun j k hj hk => Window.position_inj hj hk)
    (hi.trans_eq List.length_replicate.symm)
  by_cases hex : ∃ k < p.window.thermometer, p.window.position k = i
  · obtain ⟨k, hk, rfl⟩ := hex
    obtain ⟨b, hb, hbit⟩ := exists_getElem?_of_forall₂ h (getElem?_thermometerBits (p.count_le hfits) hk)
    refine ⟨some (Lc.bit b), ?_, ?_⟩
    · rw [switches, hset.1 k hk rfl, hb, Option.map_some]
    · rw [p.covers_position hfits hk]
      exact Lc.holds_bit hbit
  · have hfree : ∀ k < p.window.thermometer, p.window.position k ≠ i := fun k hk hpos => hex ⟨k, hk, hpos⟩
    refine ⟨none, ?_, p.covers_of_fixed hfits hi hfree⟩
    rw [switches, hset.2 hfree, List.getElem?_replicate, if_pos hi]

theorem yields_comparedByte {who : Circuit.Prover} {t : AllocatedNum F F × Option (Lc F F)} {c : UInt8} {on : Bool}
    (hbyte : t.1.Holds who (c.toNat : F)) (hswitch : SwitchHolds who t.2 on) :
    (comparedByte t).Yields who (·.Holds who (((if on then c else 0).toNat : ℕ) : F)) := by
  unfold comparedByte
  cases hs : t.2 with
  | none =>
    rw [hs] at hswitch
    obtain rfl : on = true := hswitch
    exact Circuit.yields_pure (Lc.holds_num hbyte)
  | some bit =>
    rw [hs] at hswitch
    refine (yields_mul hswitch (Lc.holds_num hbyte)).mono fun a ha => ?_
    cases on <;> simpa [ofBool] using ha

/-! ## The rules -/

abbrev HoldBytes (who : Circuit.Prover) (credential : List (AllocatedNum F F)) (slots : List UInt8) : Prop :=
  List.Forall₂ (fun a c => a.Holds who ((c.toNat : ℕ) : F)) credential slots

theorem yields_compared {who : Circuit.Prover} (p : Pattern) (hfits : p.window.thermometer ≤ p.window.len)
    {credential : List (AllocatedNum F F)} {slots : List UInt8} (hlen : slots.length = p.window.len)
    (hslots : HoldBytes who credential slots) {thermometer : List (Boolean F)}
    (h : Boolean.HoldsAll who thermometer (thermometerBits p.window.thermometer p.count)) :
    ((credential.zip (switches p.window thermometer)).mapM comparedByte).Yields who
      (Lc.HoldAll who · ((p.masked slots).map UInt8.toNat)) := by
  apply Circuit.Yields.mapM_targets
  rw [List.forall₂_iff_get]
  have hcredential := hslots.length_eq
  constructor
  · simp [length_switches, Pattern.masked]
    omega
  intro i h1 h2
  have hi : i < p.window.len := by
    simp [length_switches] at h1
    omega
  obtain ⟨switch, hswitch, hon⟩ := switchHolds_switches p hfits h hi
  have hbyte := (List.forall₂_iff_get.mp hslots).2 i (by omega) (by omega)
  simp only [List.get_eq_getElem, List.getElem_zip, List.getElem_map, Pattern.masked, List.getElem_zipIdx,
    Nat.zero_add] at hbyte ⊢
  rw [List.getElem?_eq_some_iff] at hswitch
  obtain ⟨_, hswitch⟩ := hswitch
  rw [← hswitch] at hon
  exact yields_comparedByte hbyte hon

theorem runs_checkNonempty {window : Window} {count : ℕ} (hcount : count ≤ window.thermometer)
    {thermometer : List (Boolean F)}
    (h : Boolean.HoldsAll .any thermometer (thermometerBits window.thermometer count)) {ins : List F} {u : Unit} :
    (checkNonempty window thermometer : Circuit F F Unit).Runs ins u ↔
      ins = [] ∧ (window.nonempty = true → 0 < count) := by
  unfold checkNonempty
  cases hnonempty : window.nonempty with
  | false => simp
  | true =>
    rw [if_pos rfl]
    rcases Nat.eq_zero_or_pos window.thermometer with hzero | hpos
    · -- an empty thermometer has no lowest bit, and no count above zero
      have hnil : thermometer = [] := by
        have hlen := h.length_eq
        rw [length_thermometerBits hcount, hzero] at hlen
        exact List.eq_nil_of_length_eq_zero hlen
      have hnone : ¬0 < count := by omega
      rw [hnil]
      simp [bitOf, Circuit.runs_bind, hnone]
    · obtain ⟨b, hb, hbit⟩ := exists_getElem?_of_forall₂ h (getElem?_thermometerBits hcount hpos)
      rw [Nat.sub_zero] at hb
      have hval : (Lc.bit b : Lc F F).Holds .any (ofBool (decide (0 < count))) := Lc.holds_bit hbit
      simp only [bitOf, hb, pure_bind, runs_equal, hval.eval_eq]
      show _ ∧ _ = (LC.const (1 : F)).eval ↔ _
      rw [LC.eval_const]
      by_cases hlt : 0 < count <;> simp [ofBool, hlt]

omit [Field F] in
theorem forall_mem_zip_iff {α β : Type} {f : α → F} {g : β → F} {as : List α} {bs : List β}
    (hlen : as.length = bs.length) : (∀ t ∈ as.zip bs, f t.1 = g t.2) ↔ as.map f = bs.map g := by
  induction as generalizing bs with
  | nil =>
    obtain rfl := List.eq_nil_of_length_eq_zero hlen.symm
    simp
  | cons a as ih =>
    cases bs with
    | nil => simp at hlen
    | cons b bs =>
      rw [List.zip_cons_cons, List.forall_mem_cons, ih (by simpa using hlen), List.map_cons, List.map_cons,
        List.cons.injEq]

theorem runs_mapM_inputs {α β : Type} {f : β → Circuit F F α} {g : β → F → α} {xs : List β}
    (h : ∀ x ∈ xs, ∀ ins a, (f x).Runs ins a ↔ ∃ v, ins = [v] ∧ a = g x v) {ins : List F} {as : List α} :
    (xs.mapM f).Runs ins as ↔ ins.length = xs.length ∧ as = List.zipWith g xs ins := by
  induction xs generalizing ins as with
  | nil =>
    rw [List.mapM_nil, Circuit.runs_pure, List.length_nil, List.length_eq_zero_iff, List.zipWith_nil_left]
  | cons x xs ih =>
    have htail : ∀ {ins as}, (xs.mapM f).Runs ins as ↔ ins.length = xs.length ∧ as = List.zipWith g xs ins :=
      ih fun y hy => h y (List.mem_cons_of_mem _ hy)
    rw [List.mapM_cons]
    constructor
    · intro hr
      obtain ⟨i, j, a, rfl, hi, hj⟩ := Circuit.runs_bind.mp hr
      obtain ⟨i', j', as', rfl, hi', hj'⟩ := Circuit.runs_bind.mp hj
      obtain ⟨rfl, rfl⟩ := Circuit.runs_pure.mp hj'
      obtain ⟨v, rfl, rfl⟩ := (h x List.mem_cons_self i a).mp hi
      obtain ⟨hlen, rfl⟩ := htail.mp hi'
      rw [List.append_nil]
      exact ⟨by simp [hlen], rfl⟩
    · rintro ⟨hlen, rfl⟩
      cases ins with
      | nil => simp at hlen
      | cons v ins =>
        refine Circuit.runs_bind.mpr ⟨[v], ins, g x v, rfl, (h x List.mem_cons_self _ _).mpr ⟨v, rfl, rfl⟩, ?_⟩
        refine Circuit.runs_bind.mpr ⟨ins, [], _, (List.append_nil _).symm, htail.mpr ⟨by simpa using hlen, rfl⟩, ?_⟩
        exact Circuit.runs_pure.mpr ⟨rfl, rfl⟩

theorem runs_allocInput {hint : Outcome F} {ins : List F} {a : Lc F F} :
    (do
      let input ← AllocatedNum.allocInput hint
      pure (Lc.num input) : Circuit F F _).Runs ins a ↔
      ∃ v, ins = [v] ∧ a = Lc.num ⟨v, hint.toOption⟩ := by
  simp only [AllocatedNum.allocInput, bind_assoc, pure_bind, Circuit.runs_bind, Circuit.runs_input,
    Circuit.runs_pure]
  constructor
  · rintro ⟨i, j, v, rfl, rfl, rfl, rfl⟩
    exact ⟨v, rfl, rfl⟩
  · rintro ⟨v, rfl, rfl⟩
    exact ⟨[v], [], v, rfl, rfl, rfl, rfl⟩

/-- The first public inputs are slots of the values, whatever is published. -/
theorem runs_allocInputs {vs : List F} {n : ℕ} (hn : n ≤ vs.length) {ins : List F} {out : List (Lc F F)} :
    (allocInputs (some vs) n).Runs ins out ↔
      ins.length = n ∧ out = List.zipWith (fun i v => Lc.num ⟨v, vs[i]?⟩) (List.range n) ins := by
  have hbody : ∀ i ∈ List.range n, ∀ ins a, (do
      let value ← allocInputs.valueAt (some vs) i
      let input ← AllocatedNum.allocInput (assigned value)
      pure (Lc.num input) : Circuit F F _).Runs ins a ↔ ∃ v, ins = [v] ∧ a = Lc.num ⟨v, vs[i]?⟩ := by
    intro i hi ins a
    have hi : i < vs.length := by
      have := List.mem_range.mp hi
      omega
    simp only [allocInputs.valueAt, List.getElem?_eq_getElem hi, pure_bind]
    exact runs_allocInput
  rw [allocInputs, runs_mapM_inputs hbody, List.length_range]

theorem holds_of_runs_allocInputs {vs : List F} {n : ℕ} (hn : n ≤ vs.length) {out : List (Lc F F)}
    (h : (allocInputs (some vs) n).Runs (vs.take n) out) : List.Forall₂ (Lc.Holds .honest) out (vs.take n) := by
  obtain ⟨-, rfl⟩ := (runs_allocInputs hn).mp h
  refine List.forall₂_iff_get.mpr ⟨by simp [hn], fun i h1 h2 => ?_⟩
  have hi : i < vs.length := by
    rw [List.length_take] at h2
    omega
  simp only [List.get_eq_getElem, List.getElem_zipWith, List.getElem_range, List.getElem_take,
    List.getElem?_eq_getElem hi]
  exact Lc.holds_num ⟨rfl, fun _ => rfl⟩

theorem runs_allocInputs_bind {α : Type} {vs : List F} {n : ℕ} (hn : n ≤ vs.length)
    {f : List (Lc F F) → Circuit F F α} {rest : List F} {r : α} {Q : Prop}
    (hf : ∀ out, List.Forall₂ (Lc.Holds .honest) out (vs.take n) → ((f out).Runs rest r ↔ Q)) :
    (allocInputs (some vs) n >>= f).Runs (vs.take n ++ rest) r ↔ Q := by
  have htake : (vs.take n).length = n := by rw [List.length_take, Nat.min_eq_left hn]
  constructor
  · intro hr
    obtain ⟨i, j, out, hij, hi, hj⟩ := Circuit.runs_bind.mp hr
    obtain ⟨rfl, rfl⟩ := List.append_inj hij (htake.trans ((runs_allocInputs hn).mp hi).1.symm)
    exact (hf _ (holds_of_runs_allocInputs hn hi)).mp hj
  · intro hQ
    have hi : (allocInputs (some vs) n).Runs (vs.take n) _ := (runs_allocInputs hn).mpr ⟨htake, rfl⟩
    exact Circuit.runs_bind.mpr ⟨vs.take n, rest, _, rfl, hi, (hf _ (holds_of_runs_allocInputs hn hi)).mpr hQ⟩

theorem runs_allocInputs_all {α : Type} {vs : List F} {n : ℕ} (hlen : vs.length = n)
    {f : List (Lc F F) → Circuit F F α} {r : α} {Q : Prop}
    (hf : ∀ out, List.Forall₂ (Lc.Holds .any) out vs → ((f out).Runs [] r ↔ Q)) :
    (allocInputs (some vs) n >>= f).Runs vs r ↔ Q := by
  have htake : vs.take n = vs := List.take_of_length_le hlen.le
  have hbind : (allocInputs (some vs) n >>= f).Runs (vs.take n ++ []) r ↔ Q :=
    runs_allocInputs_bind hlen.ge fun out hout => hf out (htake ▸ hout.imp fun _ _ h => h.any)
  rwa [htake, List.append_nil] at hbind

end Fields

/-! ## Limbs -/

/-- The integers of short chunks determine the bytes. -/
theorem chunks_fromBe_inj {n : ℕ} (hn : 0 < n) (hshort : n < 32) {as bs : List UInt8} (hlen : as.length = bs.length)
    (h : (chunks n as).map (fromBe : List UInt8 → Scalar) = (chunks n bs).map fromBe) : as = bs := by
  have hchunks : chunks n as = chunks n bs := by
    rw [chunks, chunks, ← hlen, List.map_map, List.map_map, List.map_inj_left] at h
    rw [chunks, chunks, ← hlen, List.map_inj_left]
    intro i hi
    apply fromBe_inj _ _ (h i hi)
    · simp [hlen]
    · simp only [List.length_take]
      omega
  rw [← flatten_chunks_of_pos hn as, hchunks, flatten_chunks_of_pos hn]

theorem limbs_inj {as bs : List UInt8} (hlen : as.length = bs.length)
    (h : (chunks limb as).map (fromBe : List UInt8 → Scalar) = (chunks limb bs).map fromBe) : as = bs :=
  chunks_fromBe_inj (by decide) (by decide) hlen h

theorem map_packBytes_chunks {n : ℕ} {compared : List (Lc Scalar Scalar)} {bytes : List UInt8}
    (h : Lc.HoldAll .any compared (bytes.map UInt8.toNat)) :
    (chunks n compared).map (fun c => (packBytes c).lc.eval) = (chunks n bytes).map fromBe := by
  have hlen : compared.length = bytes.length := by simpa using h.length_eq
  rw [chunks, chunks, hlen, List.map_map, List.map_map, List.map_inj_left]
  intro i _
  have hchunk : Lc.HoldAll .any ((compared.drop (n * i)).take n) (((bytes.drop (n * i)).take n).map UInt8.toNat) := by
    rw [List.map_take, List.map_drop]
    exact List.forall₂_take n (List.forall₂_drop (n * i) h)
  exact (holds_packBytes hchunk).eval_eq

/-- The limbs of the compared bytes are those of the pattern's window exactly when the slots match. -/
theorem Pattern.limbs_match_iff (p : Pattern) {slots : List UInt8} (hlen : slots.length = p.window.len)
    {compared front : List (Lc Scalar Scalar)} (hc : Lc.HoldAll .any compared ((p.masked slots).map UInt8.toNat))
    (hfront : front.map (fun a => a.lc.eval) = (chunks limb p.aligned).map fromBe) :
    (∀ t ∈ (chunks limb compared).zip front, (packBytes t.1).lc.eval = t.2.lc.eval) ↔ p.Matches slots := by
  have hcomparedLen : compared.length = p.window.len := by
    have := hc.length_eq
    simpa [Pattern.masked, hlen] using this
  have hfrontLen : front.length = (chunks limb compared).length := by
    have := congrArg List.length hfront
    simpa [Pattern.length_aligned, hcomparedLen] using this
  rw [forall_mem_zip_iff (f := fun c => (packBytes c).lc.eval) (g := fun a : Lc Scalar Scalar => a.lc.eval)
    hfrontLen.symm, map_packBytes_chunks hc, hfront, ← p.masked_eq_aligned_iff hlen]
  refine ⟨limbs_inj ?_, fun h => by rw [h]⟩
  rw [Pattern.length_aligned]
  simp [Pattern.masked, hlen]

/-- The rules of a pattern's values hold exactly of the slots it matches. -/
theorem runs_checkPattern (p : Pattern) (hfits : p.window.thermometer ≤ p.window.len)
    (hsize : p.window.thermometer < 256) {credential : List (AllocatedNum Scalar Scalar)} {slots : List UInt8}
    (hlen : slots.length = p.window.len) (hslots : HoldBytes .any credential slots) :
    (checkPattern p.window credential (some p.values)).Runs p.values () ↔
      p.Matches slots ∧ (p.window.nonempty = true → 0 < p.count) := by
  have hcount := p.count_le hfits
  have hassert : (Circuit.assert (credential.length = p.window.len) : Circuit Scalar Scalar Unit).Yields .any _ :=
    Circuit.yields_assert (hslots.length_eq.trans hlen)
  unfold checkPattern
  refine hassert.runs_bind_iff fun _ _ => ?_
  refine runs_allocInputs_all p.length_values fun inputs hinputs => ?_
  -- the last input is the thermometer, and the others are the limbs
  rw [Pattern.values_eq, ← List.forall₂_reverse_iff, List.reverse_append, List.reverse_singleton,
    List.singleton_append] at hinputs
  obtain ⟨last, front, hlast, hfront, hrev⟩ := List.forall₂_cons_right_iff.mp hinputs
  obtain rfl : inputs = front.reverse ++ [last] := by
    rw [← List.reverse_reverse inputs, hrev, List.reverse_cons]
  rw [← List.forall₂_reverse_iff, List.reverse_reverse] at hfront
  rw [List.getLastD_concat, List.dropLast_concat]
  refine (yields_bits hlast (length_thermometerBits hcount) hsize).runs_bind_iff fun thermometer hther => ?_
  have hcompared := yields_compared p hfits hlen hslots hther
  have htail : ∀ ins u, (do
      let compared ← (credential.zip (switches p.window thermometer)).mapM comparedByte
      forM ((chunks limb compared).zip front.reverse) fun t => equal (packBytes t.1) t.2 :
      Circuit Scalar Scalar _).Runs ins u ↔ ins = [] ∧ p.Matches slots := by
    intro ins u
    refine hcompared.runs_bind_iff fun compared hc => ?_
    rw [Circuit.runs_forM fun _ _ _ _ => runs_equal]
    have hmap : front.reverse.map (fun a => a.lc.eval) = (chunks limb p.aligned).map fromBe := by
      rw [← List.forall₂_eq_eq_eq, List.forall₂_map_left_iff]
      exact hfront.imp fun _ _ h => h.eval_eq
    rw [p.limbs_match_iff hlen hc hmap]
  rw [Circuit.runs_bind]
  constructor
  · rintro ⟨i, j, u, hij, hi, hj⟩
    exact ⟨((htail j ()).mp hj).2, ((runs_checkNonempty hcount hther).mp hi).2⟩
  · rintro ⟨hmatch, hnonempty⟩
    exact ⟨[], [], (), rfl, (runs_checkNonempty hcount hther).mpr ⟨rfl, hnonempty⟩, (htail [] ()).mpr ⟨rfl, hmatch⟩⟩

theorem Pattern.values_inj {p q : Pattern} (hwindow : p.window = q.window)
    (hfits : p.window.thermometer ≤ p.window.len) (hsize : p.window.thermometer < 256)
    (h : (p.values : List Scalar) = q.values) : p = q := by
  have hcountP := p.count_le hfits
  have hcountQ : q.count ≤ p.window.thermometer := by
    rw [hwindow] at hfits ⊢
    exact q.count_le hfits
  rw [Pattern.values_eq, Pattern.values_eq, beBits_thermometerBits, beBits_thermometerBits] at h
  obtain ⟨hlimbs, hthermometer⟩ := List.append_inj' h rfl
  have haligned : p.aligned = q.aligned :=
    limbs_inj (by rw [p.length_aligned, q.length_aligned, hwindow]) hlimbs
  have hbound : ∀ c, c ≤ p.window.thermometer → 2 ^ c - 1 < 2 ^ 255 := by
    intro c hc
    have hpow : 2 ^ c ≤ 2 ^ 255 := Nat.pow_le_pow_right (by decide) (by omega)
    have hpos := Nat.two_pow_pos c
    omega
  have hpow := LargeChar.natCast_inj (F := Scalar) (hbound p.count hcountP)
    (hbound q.count hcountQ) (List.head_eq_of_cons_eq hthermometer)
  have hcount : p.count = q.count := by
    have hp := Nat.two_pow_pos p.count
    have hq := Nat.two_pow_pos q.count
    exact Nat.pow_right_injective le_rfl (by show 2 ^ p.count = 2 ^ q.count; omega)
  have hlength : p.bytes.length = q.bytes.length := by
    have hp := p.fixed_le
    have hq := q.fixed_le
    unfold Pattern.count at hcount
    rw [hwindow] at hcount hp
    omega
  -- the aligned windows hold the patterns at the same place
  have hstart : p.start = q.start := by
    unfold Pattern.start
    rw [hwindow, hlength]
  rw [p.aligned_eq, q.aligned_eq, hstart, hlength, hwindow, List.append_left_inj, List.append_right_inj] at haligned
  cases p
  cases q
  simp only at hwindow haligned
  subst hwindow haligned
  rfl

/-- A request's rules hold of a credential's slots exactly when the slots at the pattern's positions are
its bytes, and a window that must not be empty has a pattern with a switched byte; the values of a
pattern are its own. -/
theorem checkPattern_exact :
    (∀ (window : Window) (bytes : List UInt8) (p : Pattern) (credential : List (AllocatedNum Scalar Scalar))
      (slots : List UInt8), window.thermometer ≤ window.len → window.thermometer < 256 →
      Pattern.new window bytes = .ok p → slots.length = window.len → HoldBytes .any credential slots →
      ((checkPattern window credential (some p.values)).Runs p.values () ↔
        p.Matches slots ∧ (window.nonempty = true → 0 < p.count))) ∧
    (∀ (window : Window) (bytes bytes' : List UInt8) (p p' : Pattern), window.thermometer ≤ window.len →
      window.thermometer < 256 → Pattern.new window bytes = .ok p → Pattern.new window bytes' = .ok p' →
      (p.values : List Scalar) = p'.values → p = p') := by
  constructor
  · intro window bytes p credential slots hfits hsize hnew hlen hslots
    obtain rfl := Pattern.new_eq_ok hnew
    exact runs_checkPattern p hfits hsize hlen hslots
  · intro window bytes bytes' p p' hfits hsize hnew hnew' hvalues
    obtain rfl := Pattern.new_eq_ok hnew
    have hwindow := Pattern.new_eq_ok hnew'
    exact Pattern.values_inj hwindow.symm hfits hsize hvalues

/-- The claim name: the opening quote, a name of 1 to 16 bytes, the closing quote and the comma. -/
def claimWindow : Window := ⟨19, 16, .right, true⟩

def namePattern : Pattern := ⟨claimWindow, [0x22, 0x61, 0x22, 0x2c], by decide, by decide⟩

def nameSlots : List UInt8 := List.replicate 15 7 ++ [0x22, 0x61, 0x22, 0x2c]

theorem holdBytes_map (slots : List UInt8) :
    HoldBytes .any (slots.map fun c => (⟨(c.toNat : Scalar), none⟩ : AllocatedNum Scalar Scalar)) slots := by
  rw [HoldBytes, List.forall₂_map_left_iff, List.forall₂_same]
  exact fun c _ => ⟨rfl, fun h => by cases h⟩

theorem checkPattern_exact_name :
    (checkPattern claimWindow (nameSlots.map fun c => ⟨(c.toNat : Scalar), none⟩)
      (some namePattern.values)).Runs namePattern.values () := by
  have hiff := checkPattern_exact.1 claimWindow namePattern.bytes namePattern _ nameSlots (by decide) (by decide)
    rfl (by decide) (holdBytes_map nameSlots)
  exact hiff.mpr ⟨by decide, fun _ => by decide⟩

end ZkCredVega.Nym
