import Mathlib.Data.Nat.Digits.Defs
import Mathlib.Data.List.DropRight

/-!
# Numerals in two bases

Digits with the most significant one first, and the change of base that works on a buffer of fixed
length: the buffer is multiplied by the old base, and the next digit is added, digit by digit from
its end with a carry.  No carry is left if the buffer can hold what the digits stand for, and then
the buffer without its leading zeros is the numeral in the new base.
-/

namespace Radix

variable {b c k carry size : Nat} {ds es : List Nat} {d : Nat}

/-! ## Digits -/

/-- What digits stand for, the most significant one first. -/
def value (b : Nat) (ds : List Nat) : Nat := Nat.ofDigits b ds.reverse

@[simp] theorem value_nil (b : Nat) : value b [] = 0 := rfl

theorem value_cons (b d : Nat) (ds : List Nat) :
    value b (d :: ds) = d * b ^ ds.length + value b ds := by
  rw [value, Nat.ofDigits_reverse_cons, Nat.mul_comm, Nat.add_comm]
  rfl

@[simp] theorem value_concat (b : Nat) (ds : List Nat) (d : Nat) :
    value b (ds ++ [d]) = value b ds * b + d := by
  rw [value, List.reverse_concat, Nat.ofDigits_cons, Nat.mul_comm, Nat.add_comm]
  rfl

theorem value_append (b : Nat) (ds es : List Nat) :
    value b (ds ++ es) = value b ds * b ^ es.length + value b es := by
  rw [value, List.reverse_append, Nat.ofDigits_append, List.length_reverse, Nat.mul_comm,
    Nat.add_comm]
  rfl

theorem value_replicate_zero (b k : Nat) : value b (List.replicate k 0) = 0 := by
  rw [value, List.reverse_replicate, Nat.ofDigits_replicate_zero]

theorem value_lt (hb : 1 < b) (hds : ∀ d ∈ ds, d < b) : value b ds < b ^ ds.length := by
  rw [value, ← List.length_reverse]
  exact Nat.ofDigits_lt_base_pow_length hb fun d hd ↦ hds d (List.mem_reverse.mp hd)

/-- Digits are determined by their number and their value. -/
theorem value_inj (hb : 1 < b) (hds : ∀ d ∈ ds, d < b) (hes : ∀ d ∈ es, d < b)
    (hlen : ds.length = es.length) (h : value b ds = value b es) : ds = es := by
  have hlen' : ds.reverse.length = es.reverse.length := by simpa using hlen
  exact List.reverse_inj.mp (Nat.ofDigits_inj_of_len_eq hb hlen'
    (fun d hd ↦ hds d (List.mem_reverse.mp hd)) (fun d hd ↦ hes d (List.mem_reverse.mp hd)) h)

theorem value_dropWhile_zero (b : Nat) (ds : List Nat) :
    value b (ds.dropWhile (· = 0)) = value b ds := by
  induction ds with
  | nil => rfl
  | cons d ds ih =>
      rw [List.dropWhile_cons]
      split
      case isTrue h =>
        rw [ih, value_cons, of_decide_eq_true h, Nat.zero_mul, Nat.zero_add]
      case isFalse => rfl

theorem value_eq_zero_iff (hb : 0 < b) : value b ds = 0 ↔ ∀ d ∈ ds, d = 0 := by
  induction ds with
  | nil => simp
  | cons d ds ih =>
      have hpow : b ^ ds.length ≠ 0 := (Nat.pow_pos hb).ne'
      rw [value_cons, Nat.add_eq_zero_iff, Nat.mul_eq_zero, or_iff_left hpow, ih,
        List.forall_mem_cons]

/-- Digits that are not all zero outweigh whatever follows. -/
theorem value_lt_value_append {fs : List Nat} (hb : 1 < b) (hds : value b ds ≠ 0)
    (hfs : ∀ d ∈ fs, d < b) (hlen : fs.length ≤ es.length) : value b fs < value b (ds ++ es) := by
  calc value b fs < b ^ fs.length := value_lt hb hfs
    _ ≤ 1 * b ^ es.length := by
        rw [Nat.one_mul]
        exact Nat.pow_le_pow_right (Nat.lt_of_succ_lt hb) hlen
    _ ≤ value b ds * b ^ es.length := Nat.mul_le_mul_right _ (Nat.pos_of_ne_zero hds)
    _ ≤ value b (ds ++ es) := by
        rw [value_append]
        exact Nat.le_add_right _ _

/-- The first digit that differs decides. -/
theorem value_cons_lt {e : Nat} (hb : 1 < b) (hds : ∀ d ∈ ds, d < b)
    (hlen : ds.length = es.length) (h : d < e) : value b (d :: ds) < value b (e :: es) := by
  rw [value_cons, value_cons, hlen]
  have hlow : value b ds < b ^ es.length := hlen ▸ value_lt hb hds
  have hhigh : (d + 1) * b ^ es.length ≤ e * b ^ es.length := Nat.mul_le_mul_right _ h
  rw [Nat.succ_mul] at hhigh
  omega

/-- Digits without a leading zero. -/
structure IsNumeral (b : Nat) (ds : List Nat) : Prop where
  lt : ∀ d ∈ ds, d < b
  head_ne_zero : ∀ d, ds.head? = some d → d ≠ 0

/-- A number has one numeral. -/
theorem IsNumeral.eq_of_value (hb : 1 < b) (hds : IsNumeral b ds) (hes : IsNumeral b es)
    (h : value b ds = value b es) : ds = es := by
  have hdigits {ds : List Nat} (hds : IsNumeral b ds) : Nat.digits b (value b ds) = ds.reverse := by
    apply Nat.digits_ofDigits b hb
    · exact fun d hd ↦ hds.lt d (List.mem_reverse.mp hd)
    · intro hne
      rw [List.getLast_reverse]
      exact hds.head_ne_zero _ (List.head?_eq_some_head _)
  rw [← List.reverse_inj, ← hdigits hds, ← hdigits hes, h]

theorem isNumeral_dropWhile (hds : ∀ d ∈ ds, d < b) : IsNumeral b (ds.dropWhile (· = 0)) where
  lt d hd := hds d ((List.dropWhile_suffix _).mem hd)
  head_ne_zero d hd := by
    have h := List.head?_dropWhile_not (fun d : Nat ↦ decide (d = 0)) ds
    rw [hd] at h
    exact of_decide_eq_false (by simpa using h)

/-! ## The change of base -/

/-- `buffer = buffer * b + carry`, from the end of the buffer; the carry that is left. -/
def mulAdd (c b carry : Nat) : List Nat → List Nat × Nat
  | [] => ([], carry)
  | d :: ds =>
      let (ds, carry) := mulAdd c b carry ds
      ((carry + b * d) % c :: ds, (carry + b * d) / c)

theorem mulAdd_spec (c b carry : Nat) (ds : List Nat) :
    (mulAdd c b carry ds).1.length = ds.length ∧
      value c (mulAdd c b carry ds).1 + (mulAdd c b carry ds).2 * c ^ ds.length =
        value c ds * b + carry := by
  induction ds with
  | nil =>
      refine ⟨rfl, ?_⟩
      simp [mulAdd]
  | cons d ds ih =>
      obtain ⟨hlength, hvalue⟩ := ih
      refine ⟨by rw [mulAdd, List.length_cons, List.length_cons, hlength], ?_⟩
      have hdiv := Nat.mod_add_div ((mulAdd c b carry ds).2 + b * d) c
      rw [mulAdd, value_cons, value_cons, hlength, List.length_cons, pow_succ]
      calc ((mulAdd c b carry ds).2 + b * d) % c * c ^ ds.length + value c (mulAdd c b carry ds).1 +
            ((mulAdd c b carry ds).2 + b * d) / c * (c ^ ds.length * c)
          = (((mulAdd c b carry ds).2 + b * d) % c + c * (((mulAdd c b carry ds).2 + b * d) / c)) *
              c ^ ds.length + value c (mulAdd c b carry ds).1 := by ring
        _ = b * d * c ^ ds.length +
              (value c (mulAdd c b carry ds).1 + (mulAdd c b carry ds).2 * c ^ ds.length) := by
            rw [hdiv]
            ring
        _ = (d * c ^ ds.length + value c ds) * b + carry := by
            rw [hvalue]
            ring

theorem mulAdd_lt (hc : 0 < c) : ∀ d ∈ (mulAdd c b carry ds).1, d < c := by
  induction ds with
  | nil => exact nofun
  | cons d ds ih =>
      rw [mulAdd]
      exact List.forall_mem_cons.mpr ⟨Nat.mod_lt _ hc, ih⟩

/-- One digit; there is no result if a carry is left. -/
def convertDigit (c b : Nat) (buffer : List Nat) (d : Nat) : Option (List Nat) :=
  if (mulAdd c b d buffer).2 = 0 then some (mulAdd c b d buffer).1 else none

/-- The digits in base `b`, brought to base `c` in a buffer of `size` digits. -/
def convert (c b size : Nat) (ds : List Nat) : Option (List Nat) :=
  ds.foldlM (convertDigit c b) (List.replicate size 0)

/-- What a buffer holds: digits in base `c`, and as many as at the start. -/
structure Holds (c size n : Nat) (buffer : List Nat) : Prop where
  length : buffer.length = size
  lt : ∀ d ∈ buffer, d < c
  value : value c buffer = n

theorem Holds.convertDigit {buffer : List Nat} {n : Nat} (hc : 1 < c)
    (h : Holds c size n buffer) (hfits : n * b + d < c ^ size) :
    ∃ buffer', convertDigit c b buffer d = some buffer' ∧ Holds c size (n * b + d) buffer' := by
  obtain ⟨hlength, hvalue⟩ := mulAdd_spec c b d buffer
  rw [h.length, h.value] at hvalue
  have hcarry : (mulAdd c b d buffer).2 = 0 := by
    by_contra hne
    have hle : 1 * c ^ size ≤ (mulAdd c b d buffer).2 * c ^ size :=
      Nat.mul_le_mul_right _ (Nat.pos_of_ne_zero hne)
    omega
  refine ⟨_, if_pos hcarry, hlength.trans h.length, mulAdd_lt (by omega), ?_⟩
  rw [← hvalue, hcarry, Nat.zero_mul, Nat.add_zero]

/-- No carry is left if the buffer is long enough. -/
theorem convert_holds (hc : 1 < c) (hb : 1 < b) (hds : ∀ d ∈ ds, d < b)
    (hsize : b ^ ds.length ≤ c ^ size) :
    ∃ buffer, convert c b size ds = some buffer ∧ Holds c size (value b ds) buffer := by
  induction ds using List.reverseRecOn with
  | nil =>
      refine ⟨_, rfl, List.length_replicate, fun d hd ↦ ?_, value_replicate_zero c size⟩
      rw [List.eq_of_mem_replicate hd]
      omega
  | append_singleton ds d ih =>
      have hlt := (value_lt hb hds).trans_le hsize
      rw [List.length_append, List.length_singleton] at hsize
      have hds' := List.forall_mem_append.mp hds
      obtain ⟨buffer, hconvert, hbuffer⟩ :=
        ih hds'.1 ((Nat.pow_le_pow_right (by omega) (Nat.le_succ _)).trans hsize)
      rw [value_concat] at hlt ⊢
      obtain ⟨buffer', hdigit, hbuffer'⟩ := hbuffer.convertDigit hc hlt
      rw [convert] at hconvert
      refine ⟨buffer', ?_, hbuffer'⟩
      rw [convert, List.foldlM_append, hconvert, Option.bind_eq_bind, Option.bind_some,
        List.foldlM_cons, hdigit]
      rfl

/-- A length that is enough for every number of digits: `p / q` is at least the ratio of the
logarithms of the bases. -/
theorem pow_le_pow_of_ratio {p q : Nat} (hc : 0 < c) (hq : 0 < q) (hratio : b ^ q ≤ c ^ p)
    (n : Nat) : b ^ n ≤ c ^ (n * p / q + 1) := by
  rw [← Nat.pow_le_pow_iff_left hq.ne']
  calc (b ^ n) ^ q = (b ^ q) ^ n := by rw [← pow_mul, ← pow_mul, Nat.mul_comm]
    _ ≤ (c ^ p) ^ n := Nat.pow_le_pow_left hratio n
    _ = c ^ (n * p) := by rw [← pow_mul, Nat.mul_comm]
    _ ≤ c ^ ((n * p / q + 1) * q) := by
        apply Nat.pow_le_pow_right hc
        have := Nat.lt_div_mul_add hq (a := n * p)
        rw [Nat.add_mul, Nat.one_mul]
        exact this.le
    _ = (c ^ (n * p / q + 1)) ^ q := pow_mul _ _ _

end Radix
