import Mathlib.Data.Int.ModEq
import Mathlib.Algebra.Order.BigOperators.Group.List
import Mathlib.Data.List.TakeWhile
import Mathlib.Tactic.Linarith

/-!
# Guarded running sums over signed 64-bit integers

A loop that adds up signed 64-bit values, testing each value before it is added
and the new total afterwards, is a `Tally`.  The machine addition wraps; the
questions asked of such a loop are whether an addition it performs leaves the
signed range (`AddOverflows`), and whether the total it returns is the exact
sum.

The guarded tallies are those whose tests admit exactly the non-negative values
and totals (`Tally.Guarded`).  For these a returned total is exact
(`Tally.Guarded.run_ok`), although the loop may well overflow on the way to a
rejection: `Tally.Guarded.safe_iff` says when it does.
-/

namespace RunningSum

/-- The exact sum of `a` and `b` is not a signed 64-bit integer. -/
def AddOverflows (a b : Int64) : Prop :=
  a.toInt + b.toInt < -2 ^ 63 ∨ 2 ^ 63 ≤ a.toInt + b.toInt

instance (a b : Int64) : Decidable (AddOverflows a b) :=
  inferInstanceAs (Decidable (_ ∨ _))

/-- An addition that does not overflow is exact. -/
theorem toInt_add {a b : Int64} (h : ¬ AddOverflows a b) :
    (a + b).toInt = a.toInt + b.toInt := by
  rw [AddOverflows, not_or] at h
  rw [Int64.toInt_add, Int.bmod_def]
  split <;> omega

theorem toInt_sub {a b : Int64} (hlower : -2 ^ 63 ≤ a.toInt - b.toInt)
    (hupper : a.toInt - b.toInt < 2 ^ 63) : (a - b).toInt = a.toInt - b.toInt := by
  rw [Int64.toInt_sub, Int.bmod_def]
  split <;> omega

theorem toInt_mul {a b : Int64} (hlower : -2 ^ 63 ≤ a.toInt * b.toInt)
    (hupper : a.toInt * b.toInt < 2 ^ 63) : (a * b).toInt = a.toInt * b.toInt := by
  rw [Int64.toInt_mul, Int.bmod_def]
  generalize a.toInt * b.toInt = c at hlower hupper ⊢
  split <;> omega

theorem nonneg_iff {a : Int64} : 0 ≤ a ↔ 0 ≤ a.toInt := by
  rw [Int64.le_iff_toInt_le]; rfl

/-- Two non-negative values overflow exactly when their wrapped sum is negative. -/
theorem addOverflows_iff_of_nonneg {a b : Int64} (ha : 0 ≤ a) (hb : 0 ≤ b) :
    AddOverflows a b ↔ ¬ 0 ≤ a + b := by
  rw [nonneg_iff] at ha hb ⊢
  have hal := a.toInt_lt
  have hbl := b.toInt_lt
  rw [AddOverflows, Int64.toInt_add, Int.bmod_def]
  split <;> omega

/-- Adding a negative value to a non-negative one stays in range. -/
theorem not_addOverflows_of_neg {a b : Int64} (ha : 0 ≤ a) (hb : ¬ 0 ≤ b) :
    ¬ AddOverflows a b := by
  rw [nonneg_iff] at ha hb
  have hal := a.toInt_lt
  have hbl := b.le_toInt
  rw [AddOverflows]
  omega

/-- Machine addition is exact modulo `2 ^ 64`. -/
theorem toInt_add_modEq (a b : Int64) : (a + b).toInt ≡ a.toInt + b.toInt [ZMOD 2 ^ 64] := by
  rw [Int64.toInt_add]
  exact Int.bmod_emod

theorem toInt_sub_modEq (a b : Int64) : (a - b).toInt ≡ a.toInt - b.toInt [ZMOD 2 ^ 64] := by
  rw [Int64.toInt_sub]
  exact Int.bmod_emod

/-- Two values are the same where they agree modulo `2 ^ 64`. -/
theorem toInt_modEq_iff {a b : Int64} : a.toInt ≡ b.toInt [ZMOD 2 ^ 64] ↔ a = b := by
  constructor
  · intro h
    have hdvd := h.dvd
    have hal := a.toInt_lt
    have hbl := b.toInt_lt
    have hau := a.le_toInt
    have hbu := b.le_toInt
    exact Int64.toInt_inj.mp (by omega)
  · rintro rfl
    exact Int.ModEq.refl _

section

variable {α ε : Type*}

/-- **A loop of additions.**  It returns where every round does, with the sum of what the rounds
add, modulo `2 ^ 64`. -/
theorem foldlM_spec {f : Int64 → α → Except ε Int64} {Returns : α → Prop} {value : α → Int}
    {xs : List α}
    (hreturns : ∀ x ∈ xs, ∀ acc, (∃ r, f acc x = .ok r) ↔ Returns x)
    (hvalue : ∀ x ∈ xs, ∀ acc r, f acc x = .ok r → r.toInt ≡ acc.toInt + value x [ZMOD 2 ^ 64])
    (acc : Int64) :
    ((∃ r, xs.foldlM f acc = .ok r) ↔ ∀ x ∈ xs, Returns x) ∧
      ∀ r, xs.foldlM f acc = .ok r → r.toInt ≡ acc.toInt + (xs.map value).sum [ZMOD 2 ^ 64] := by
  induction xs generalizing acc with
  | nil =>
      refine ⟨⟨nofun, fun _ ↦ ⟨acc, rfl⟩⟩, fun r hr ↦ ?_⟩
      rw [Except.ok.inj hr, List.map_nil, List.sum_nil, add_zero]
  | cons x xs ih =>
      obtain ⟨hreturns₀, hreturns⟩ := List.forall_mem_cons.mp hreturns
      obtain ⟨hvalue₀, hvalue⟩ := List.forall_mem_cons.mp hvalue
      rw [List.foldlM_cons, List.forall_mem_cons, List.map_cons, List.sum_cons]
      cases hf : f acc x with
      | error e =>
          refine ⟨⟨?_, ?_⟩, ?_⟩
          · rintro ⟨r, hr⟩
            cases hr
          · rintro ⟨hx, -⟩
            obtain ⟨r, hr⟩ := (hreturns₀ acc).mpr hx
            rw [hf] at hr
            cases hr
          · intro r hr
            cases hr
      | ok s =>
          have hx := (hreturns₀ acc).mp ⟨s, hf⟩
          obtain ⟨hrest, hsum⟩ := ih hreturns hvalue s
          refine ⟨hrest.trans ⟨fun h ↦ ⟨hx, h⟩, fun h ↦ h.2⟩, fun r hr ↦ ?_⟩
          rw [← add_assoc]
          exact (hsum r hr).trans ((hvalue₀ acc s hf).add_right _)

theorem toInt_foldl_add_modEq (value : α → Int64) (xs : List α) (acc : Int64) :
    (xs.foldl (fun acc x ↦ acc + value x) acc).toInt ≡
      acc.toInt + (xs.map fun x ↦ (value x).toInt).sum [ZMOD 2 ^ 64] := by
  induction xs generalizing acc with
  | nil => rw [List.foldl_nil, List.map_nil, List.sum_nil, add_zero]
  | cons x xs ih =>
      rw [List.foldl_cons, List.map_cons, List.sum_cons, ← add_assoc]
      exact (ih _).trans ((toInt_add_modEq acc (value x)).add_right _)

theorem toInt_foldl_sub_modEq (value : α → Int64) (xs : List α) (acc : Int64) :
    (xs.foldl (fun acc x ↦ acc - value x) acc).toInt ≡
      acc.toInt - (xs.map fun x ↦ (value x).toInt).sum [ZMOD 2 ^ 64] := by
  induction xs generalizing acc with
  | nil => rw [List.foldl_nil, List.map_nil, List.sum_nil, sub_zero]
  | cons x xs ih =>
      rw [List.foldl_cons, List.map_cons, List.sum_cons, ← sub_sub]
      exact (ih _).trans ((toInt_sub_modEq acc (value x)).sub_right _)

end

/-- A loop over the items `α` that adds up `value`, with a test of the item before
the addition and a test of the item and the new total after it. -/
structure Tally (α ε : Type*) where
  value : α → Int64
  before : α → Except ε Unit
  after : α → Int64 → Except ε Unit

namespace Tally

variable {α ε : Type*} (t : Tally α ε)

/-- The loop, started at the total `acc`. -/
def run (acc : Int64) : List α → Except ε Int64
  | [] => .ok acc
  | x :: xs =>
      match t.before x with
      | .error e => .error e
      | .ok () =>
          match t.after x (acc + t.value x) with
          | .error e => .error e
          | .ok () => run (acc + t.value x) xs

/-- The operands of the additions the loop performs, in order. -/
def additions (acc : Int64) : List α → List (Int64 × Int64)
  | [] => []
  | x :: xs =>
      match t.before x with
      | .error _ => []
      | .ok () =>
          (acc, t.value x) ::
            match t.after x (acc + t.value x) with
            | .error _ => []
            | .ok () => additions (acc + t.value x) xs

/-- No addition of the loop overflows. -/
def Safe (acc : Int64) (xs : List α) : Prop :=
  ∀ p ∈ t.additions acc xs, ¬ AddOverflows p.1 p.2

/-- The exact sum of the items' values. -/
def exact (xs : List α) : Int := (xs.map fun x ↦ (t.value x).toInt).sum

@[simp] theorem exact_nil : t.exact [] = 0 := rfl

@[simp] theorem exact_cons (x : α) (xs : List α) :
    t.exact (x :: xs) = (t.value x).toInt + t.exact xs := by
  simp [exact]

@[simp] theorem run_nil (acc : Int64) : t.run acc [] = .ok acc := rfl

@[simp] theorem safe_nil (acc : Int64) : t.Safe acc [] := by
  simp [Safe, additions]

/-- The loop as a fold. -/
theorem foldlM_eq_run (xs : List α) (acc : Int64) :
    xs.foldlM (fun acc x ↦ do
      t.before x
      t.after x (acc + t.value x)
      return acc + t.value x) acc = t.run acc xs := by
  induction xs generalizing acc with
  | nil => rfl
  | cons x xs ih =>
      rw [List.foldlM_cons, run]
      cases t.before x with
      | error e => rfl
      | ok _ =>
          cases t.after x (acc + t.value x) with
          | error e => rfl
          | ok _ => exact ih _

/-- One step of a run that returns: both tests passed. -/
theorem run_cons_eq_ok {acc r : Int64} {x : α} {xs : List α} :
    t.run acc (x :: xs) = .ok r ↔
      t.before x = .ok () ∧ t.after x (acc + t.value x) = .ok () ∧
        t.run (acc + t.value x) xs = .ok r := by
  rw [run]
  cases hb : t.before x with
  | error e => simp
  | ok u =>
      cases ha : t.after x (acc + t.value x) with
      | error e => simp
      | ok v => simp

/-- Loops that treat each item alike. -/
theorem run_congr {t' : Tally α ε} {xs : List α}
    (h : ∀ x ∈ xs, t'.value x = t.value x ∧ t'.before x = t.before x ∧ t'.after x = t.after x)
    (acc : Int64) : t'.run acc xs = t.run acc xs := by
  induction xs generalizing acc with
  | nil => rfl
  | cons x xs ih =>
      obtain ⟨⟨hvalue, hbefore, hafter⟩, hrest⟩ := List.forall_mem_cons.mp h
      rw [run, run, hvalue, hbefore, hafter, ih hrest]

/-- A run that returns has passed the first test on each item. -/
theorem before_of_run {acc r : Int64} {xs : List α} (h : t.run acc xs = .ok r) :
    ∀ x ∈ xs, t.before x = .ok () := by
  induction xs generalizing acc with
  | nil => exact nofun
  | cons x xs ih =>
      obtain ⟨hbefore, -, hrest⟩ := t.run_cons_eq_ok.mp h
      exact List.forall_mem_cons.mpr ⟨hbefore, ih hrest⟩

/-- A total returned is exact modulo `2 ^ 64`, whatever the tests. -/
theorem run_modEq {acc r : Int64} {xs : List α} (h : t.run acc xs = .ok r) :
    r.toInt ≡ acc.toInt + t.exact xs [ZMOD 2 ^ 64] := by
  induction xs generalizing acc with
  | nil =>
      rw [run_nil, Except.ok.injEq] at h
      rw [h, exact_nil, add_zero]
  | cons x xs ih =>
      obtain ⟨_, _, hrest⟩ := t.run_cons_eq_ok.mp h
      rw [exact_cons, ← add_assoc]
      exact (ih hrest).trans ((toInt_add_modEq acc (t.value x)).add_right _)

theorem safe_cons_of_error {acc : Int64} {x : α} {xs : List α} {e : ε}
    (h : t.before x = .error e) : t.Safe acc (x :: xs) := by
  simp [Safe, additions, h]

theorem safe_cons_of_stop {acc : Int64} {x : α} {xs : List α} {e : ε}
    (hb : t.before x = .ok ()) (ha : t.after x (acc + t.value x) = .error e) :
    t.Safe acc (x :: xs) ↔ ¬ AddOverflows acc (t.value x) := by
  simp [Safe, additions, hb, ha]

theorem safe_cons_of_ok {acc : Int64} {x : α} {xs : List α}
    (hb : t.before x = .ok ()) (ha : t.after x (acc + t.value x) = .ok ()) :
    t.Safe acc (x :: xs) ↔
      ¬ AddOverflows acc (t.value x) ∧ t.Safe (acc + t.value x) xs := by
  simp [Safe, additions, hb, ha]

/-! ## Guarded tallies -/

/-- The tests admit exactly the non-negative values and totals. -/
def Guarded : Prop :=
  ∀ x s, t.before x = .ok () → (t.after x s = .ok () ↔ 0 ≤ t.value x ∧ 0 ≤ s)

/-- The items a guarded loop adds before its own tests of an item stop it. -/
def leading [∀ x, Decidable (t.before x = .ok ())] (xs : List α) : List α :=
  xs.takeWhile fun x ↦ decide (t.before x = .ok () ∧ 0 ≤ t.value x)

variable {t}

/-- **A guarded total is exact.**  The wrap-around of an overflowing addition is
negative and so never passes the test of the total. -/
theorem Guarded.run_ok (h : t.Guarded) {acc r : Int64} (hacc : 0 ≤ acc) {xs : List α}
    (hr : t.run acc xs = .ok r) :
    r.toInt = acc.toInt + t.exact xs ∧ 0 ≤ r ∧ ∀ x ∈ xs, 0 ≤ t.value x := by
  induction xs generalizing acc with
  | nil =>
      rw [run_nil, Except.ok.injEq] at hr
      subst hr
      exact ⟨by simp, hacc, by simp⟩
  | cons x xs ih =>
      obtain ⟨hb, ha, hrest⟩ := t.run_cons_eq_ok.mp hr
      obtain ⟨hv, hs⟩ := (h x _ hb).mp ha
      obtain ⟨hsum, hr0, hall⟩ := ih hs hrest
      have hno : ¬ AddOverflows acc (t.value x) :=
        fun hov ↦ (addOverflows_iff_of_nonneg hacc hv).mp hov hs
      refine ⟨?_, hr0, ?_⟩
      · rw [hsum, toInt_add hno, exact_cons, add_assoc]
      · rintro y (_ | ⟨_, hy⟩)
        · exact hv
        · exact hall y hy

/-- **When a guarded loop returns.**  It does where every item passes the first test with a
non-negative value, and the exact sum is a signed 64-bit integer. -/
theorem Guarded.exists_run_iff (h : t.Guarded) {acc : Int64} (hacc : 0 ≤ acc) {xs : List α} :
    (∃ r, t.run acc xs = .ok r) ↔
      (∀ x ∈ xs, t.before x = .ok () ∧ 0 ≤ t.value x) ∧ acc.toInt + t.exact xs < 2 ^ 63 := by
  constructor
  · rintro ⟨r, hr⟩
    obtain ⟨hsum, -, hall⟩ := h.run_ok hacc hr
    refine ⟨fun x hx ↦ ⟨t.before_of_run hr x hx, hall x hx⟩, ?_⟩
    rw [← hsum]
    exact r.toInt_lt
  · rintro ⟨hall, hlt⟩
    induction xs generalizing acc with
    | nil => exact ⟨acc, rfl⟩
    | cons x xs ih =>
        obtain ⟨⟨hb, hv⟩, hall⟩ := List.forall_mem_cons.mp hall
        have hrest : 0 ≤ t.exact xs := by
          refine List.sum_nonneg fun v hv ↦ ?_
          obtain ⟨y, hy, rfl⟩ := List.mem_map.mp hv
          exact nonneg_iff.mp (hall y hy).2
        rw [exact_cons, ← add_assoc] at hlt
        have hno : ¬ AddOverflows acc (t.value x) := by
          have hacc' := nonneg_iff.mp hacc
          have hv' := nonneg_iff.mp hv
          rw [AddOverflows]
          omega
        have hs : 0 ≤ acc + t.value x :=
          not_not.mp fun hs ↦ hno ((addOverflows_iff_of_nonneg hacc hv).mpr hs)
        rw [← toInt_add hno] at hlt
        obtain ⟨r, hr⟩ := ih hs hall hlt
        exact ⟨r, t.run_cons_eq_ok.mpr ⟨hb, (h x _ hb).mpr ⟨hv, hs⟩, hr⟩⟩

/-- A guarded loop that tests only what it has added passes where another one does. -/
theorem Guarded.run_of_guarded {ε' : Type*} {t' : Tally α ε'} (h : t.Guarded) (h' : t'.Guarded)
    (hvalue : t'.value = t.value) (hbefore : ∀ x, t'.before x = .ok ()) {acc r : Int64}
    {xs : List α} (hr : t.run acc xs = .ok r) : t'.run acc xs = .ok r := by
  induction xs generalizing acc with
  | nil => exact congrArg Except.ok (Except.ok.inj hr)
  | cons x xs ih =>
      obtain ⟨hb, ha, hrest⟩ := t.run_cons_eq_ok.mp hr
      have hnonneg := (h x _ hb).mp ha
      rw [← hvalue] at hnonneg hrest
      exact t'.run_cons_eq_ok.mpr ⟨hbefore x, (h' x _ (hbefore x)).mpr hnonneg, ih hrest⟩

/-- **When a guarded loop overflows.**  It performs only in-range additions exactly
when the exact sum of the items it admits one by one, added to the starting total,
is below `2 ^ 63`. -/
theorem Guarded.safe_iff [∀ x, Decidable (t.before x = .ok ())] (h : t.Guarded)
    {acc : Int64} (hacc : 0 ≤ acc) {xs : List α} :
    t.Safe acc xs ↔ acc.toInt + t.exact (t.leading xs) < 2 ^ 63 := by
  induction xs generalizing acc with
  | nil => simpa [leading] using acc.toInt_lt
  | cons x xs ih =>
      cases hb : t.before x with
      | error e =>
          have hlead : t.leading (x :: xs) = [] := by simp [leading, hb]
          simp only [safe_cons_of_error t hb, hlead, exact_nil, add_zero, true_iff]
          exact acc.toInt_lt
      | ok u =>
          by_cases hv : 0 ≤ t.value x
          · have hlead : t.leading (x :: xs) = x :: t.leading xs := by
              simp [leading, hb, hv]
            rw [hlead, exact_cons]
            have hrest : 0 ≤ t.exact (t.leading xs) := by
              refine List.sum_nonneg fun y hy ↦ ?_
              obtain ⟨z, hz, rfl⟩ := List.mem_map.mp hy
              have hz' := List.mem_takeWhile_imp hz
              simp only [decide_eq_true_eq] at hz'
              exact nonneg_iff.mp hz'.2
            by_cases hs : 0 ≤ acc + t.value x
            · have hno : ¬ AddOverflows acc (t.value x) :=
                fun hov ↦ (addOverflows_iff_of_nonneg hacc hv).mp hov hs
              rw [safe_cons_of_ok t hb ((h x _ hb).mpr ⟨hv, hs⟩), ih hs, toInt_add hno,
                add_assoc]
              exact ⟨fun h ↦ h.2, fun h ↦ ⟨hno, h⟩⟩
            · -- the wrapped total is negative: the loop stops right after overflowing
              have hov := (addOverflows_iff_of_nonneg hacc hv).mpr hs
              have hstop : ∃ e, t.after x (acc + t.value x) = .error e := by
                cases ha : t.after x (acc + t.value x) with
                | error e => exact ⟨e, rfl⟩
                | ok u => exact absurd ((h x _ hb).mp ha).2 hs
              obtain ⟨e, ha⟩ := hstop
              rw [safe_cons_of_stop t hb ha]
              refine ⟨fun hno ↦ absurd hov hno, fun hlt ↦ ?_⟩
              rw [nonneg_iff] at hacc hv
              rcases hov with hov | hov <;> omega
          · have hlead : t.leading (x :: xs) = [] := by simp [leading, hv]
            have hstop : ∃ e, t.after x (acc + t.value x) = .error e := by
              cases ha : t.after x (acc + t.value x) with
              | error e => exact ⟨e, rfl⟩
              | ok u => exact absurd ((h x _ hb).mp ha).1 hv
            obtain ⟨e, ha⟩ := hstop
            rw [safe_cons_of_stop t hb ha, hlead, exact_nil, add_zero]
            exact ⟨fun _ ↦ acc.toInt_lt, fun _ ↦ not_addOverflows_of_neg hacc hv⟩

/-! ## Tallies that test no total -/

/-- Every partial sum, the starting total excluded, is a signed 64-bit integer. -/
def PartialSumsFit (acc : Int) : List Int → Prop
  | [] => True
  | v :: vs => (-2 ^ 63 ≤ acc + v ∧ acc + v < 2 ^ 63) ∧ PartialSumsFit (acc + v) vs

/-- A loop that tests items but no totals performs only in-range additions exactly when
all partial sums of the items it reaches fit. -/
theorem safe_iff_of_after_ok [∀ x, Decidable (t.before x = .ok ())]
    (h : ∀ x s, t.after x s = .ok ()) {acc : Int64} {xs : List α} :
    t.Safe acc xs ↔ PartialSumsFit acc.toInt
      ((xs.takeWhile fun x ↦ decide (t.before x = .ok ())).map fun x ↦ (t.value x).toInt) := by
  induction xs generalizing acc with
  | nil => simp [PartialSumsFit]
  | cons x xs ih =>
      cases hb : t.before x with
      | error e => simp [safe_cons_of_error t hb, hb, PartialSumsFit]
      | ok u =>
          have hfit : ¬ AddOverflows acc (t.value x) ↔
              -2 ^ 63 ≤ acc.toInt + (t.value x).toInt ∧
                acc.toInt + (t.value x).toInt < 2 ^ 63 := by
            rw [AddOverflows, not_or, not_lt, not_le]
          rw [safe_cons_of_ok t hb (h x _), ih]
          simp only [hb, decide_true, List.takeWhile_cons_of_pos, List.map_cons,
            PartialSumsFit, ← hfit]
          refine and_congr_right fun hno ↦ ?_
          rw [toInt_add hno]

end Tally

end RunningSum
