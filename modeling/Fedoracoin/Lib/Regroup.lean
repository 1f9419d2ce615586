import Fedoracoin.Lib.Radix

/-!
# Digits of another width

A stream of digits of `a` bits is given out again in digits of `b` bits.  `Regrouped` says what has
gone in, what has come out, and which bits wait for more.  What comes out is determined by what went
in (`Regrouped.unique`), and as long as no bit that waits is set, what went in is determined by what
came out and the number of bits that wait (`Regrouped.unique_in`).
-/

namespace Regroup

open Radix

variable {a b m n n' x acc acc' : Nat} {xs xs' ys ys' : List Nat}

/-- `n` bits wait, and their number is `acc`. -/
structure Regrouped (a b : Nat) (xs ys : List Nat) (n acc : Nat) : Prop where
  lt_in : ∀ x ∈ xs, x < 2 ^ a
  lt_out : ∀ y ∈ ys, y < 2 ^ b
  acc_lt : acc < 2 ^ n
  bits : a * xs.length = b * ys.length + n
  value_eq : value (2 ^ a) xs = value (2 ^ b) ys * 2 ^ n + acc

namespace Regrouped

theorem nil (a b : Nat) : Regrouped a b [] [] 0 0 where
  lt_in _ h := absurd h List.not_mem_nil
  lt_out _ h := absurd h List.not_mem_nil
  acc_lt := Nat.zero_lt_one
  bits := rfl
  value_eq := rfl

/-! ## Steps -/

/-- A digit goes in. -/
theorem feed (h : Regrouped a b xs ys n acc) (hx : x < 2 ^ a) :
    Regrouped a b (xs ++ [x]) ys (n + a) (acc * 2 ^ a + x) where
  lt_in y hy := by
    rcases List.mem_append.mp hy with hy | hy
    · exact h.lt_in y hy
    · exact List.mem_singleton.mp hy ▸ hx
  lt_out := h.lt_out
  acc_lt := by
    have hle : (acc + 1) * 2 ^ a ≤ 2 ^ n * 2 ^ a := Nat.mul_le_mul_right _ h.acc_lt
    rw [Nat.succ_mul] at hle
    rw [pow_add]
    omega
  bits := by
    rw [List.length_append, List.length_singleton, Nat.mul_succ, h.bits, Nat.add_assoc]
  value_eq := by
    rw [value_concat, h.value_eq, pow_add]
    ring

/-- A digit comes out. -/
theorem emit (h : Regrouped a b xs ys (m + b) acc) :
    Regrouped a b xs (ys ++ [acc / 2 ^ m]) m (acc % 2 ^ m) where
  lt_in := h.lt_in
  lt_out y hy := by
    rcases List.mem_append.mp hy with hy | hy
    · exact h.lt_out y hy
    · rw [List.mem_singleton.mp hy]
      exact Nat.div_lt_of_lt_mul (by rw [← pow_add]; exact h.acc_lt)
  acc_lt := Nat.mod_lt _ (Nat.two_pow_pos m)
  bits := by
    rw [List.length_append, List.length_singleton, h.bits]
    ring
  value_eq := by
    have hdiv := Nat.div_add_mod acc (2 ^ m)
    rw [value_concat, h.value_eq, pow_add]
    calc value (2 ^ b) ys * (2 ^ m * 2 ^ b) + acc
        = value (2 ^ b) ys * (2 ^ m * 2 ^ b) + (2 ^ m * (acc / 2 ^ m) + acc % 2 ^ m) := by rw [hdiv]
      _ = (value (2 ^ b) ys * 2 ^ b + acc / 2 ^ m) * 2 ^ m + acc % 2 ^ m := by ring

/-- A digit goes in and one comes out, as machines compute it. -/
theorem step (h : Regrouped a b xs ys n acc) (hx : x < 2 ^ a) (hm : m ≤ a) (hn : n + a = m + b) :
    Regrouped a b (xs ++ [x]) (ys ++ [acc <<< (a - m) ||| x >>> m]) m (x &&& (2 ^ m - 1)) := by
  have hpow : 2 ^ a = 2 ^ (a - m) * 2 ^ m := by rw [← pow_add, Nat.sub_add_cancel hm]
  have hhigh : x / 2 ^ m < 2 ^ (a - m) := Nat.div_lt_of_lt_mul (by rwa [Nat.mul_comm, ← hpow])
  have hout : acc <<< (a - m) ||| x >>> m = (acc * 2 ^ a + x) / 2 ^ m := by
    rw [Nat.shiftRight_eq_div_pow, ← Nat.shiftLeft_add_eq_or_of_lt hhigh, Nat.shiftLeft_eq, hpow,
      ← Nat.mul_assoc, Nat.add_comm, Nat.add_comm _ x,
      Nat.add_mul_div_right _ _ (Nat.two_pow_pos m)]
  have hleft : x &&& (2 ^ m - 1) = (acc * 2 ^ a + x) % 2 ^ m := by
    rw [Nat.and_two_pow_sub_one_eq_mod, hpow, ← Nat.mul_assoc, Nat.mul_add_mod_self_right]
  have hfeed := h.feed hx
  rw [hn] at hfeed
  rw [hout, hleft]
  exact hfeed.emit

/-- A digit goes in, as machines compute it. -/
theorem feed_or (h : Regrouped a b xs ys n acc) (hx : x < 2 ^ a) :
    Regrouped a b (xs ++ [x]) ys (n + a) (acc <<< a ||| x) := by
  rw [← Nat.shiftLeft_add_eq_or_of_lt hx, Nat.shiftLeft_eq]
  exact h.feed hx

/-- A digit goes in and two come out. -/
theorem step_two (h : Regrouped a b xs ys n acc) (hx : x < 2 ^ a) (hm : m + b ≤ a)
    (hn : n + a = m + b + b) :
    Regrouped a b (xs ++ [x])
      (ys ++ [acc <<< (a - (m + b)) ||| x >>> (m + b)] ++ [x >>> m &&& (2 ^ b - 1)]) m
      (x &&& (2 ^ m - 1)) := by
  have hemit := (h.step hx hm hn).emit
  rw [Nat.and_two_pow_sub_one_eq_mod, pow_add, Nat.mod_mul_right_div_self,
    Nat.mod_mul_right_mod] at hemit
  rwa [Nat.and_two_pow_sub_one_eq_mod, Nat.and_two_pow_sub_one_eq_mod,
    Nat.shiftRight_eq_div_pow x m]

/-- No bit waits. -/
theorem acc_eq_zero (h : Regrouped a b xs ys 0 acc) : acc = 0 := Nat.lt_one_iff.mp h.acc_lt

/-! ## Padding -/

theorem symm (h : Regrouped a b xs ys 0 acc) : Regrouped b a ys xs 0 0 where
  lt_in := h.lt_out
  lt_out := h.lt_in
  acc_lt := Nat.zero_lt_one
  bits := h.bits.symm
  value_eq := by
    rw [h.value_eq, h.acc_eq_zero, pow_zero]
    ring

/-- The bits that wait come out in a digit that is filled up with zeros. -/
theorem flush (h : Regrouped a b xs ys n acc) (hn : n ≤ b) :
    Regrouped b a (ys ++ [acc <<< (b - n)]) xs (b - n) 0 where
  lt_in y hy := by
    rcases List.mem_append.mp hy with hy | hy
    · exact h.lt_out y hy
    · rw [List.mem_singleton.mp hy, Nat.shiftLeft_eq]
      have hlt : acc * 2 ^ (b - n) < 2 ^ n * 2 ^ (b - n) :=
        Nat.mul_lt_mul_of_pos_right h.acc_lt (Nat.two_pow_pos _)
      rwa [← pow_add, Nat.add_sub_cancel' hn] at hlt
  lt_out := h.lt_in
  acc_lt := Nat.two_pow_pos _
  bits := by
    rw [List.length_append, List.length_singleton, h.bits, Nat.mul_succ]
    omega
  value_eq := by
    have hpow : 2 ^ b = 2 ^ n * 2 ^ (b - n) := by rw [← pow_add, Nat.add_sub_cancel' hn]
    rw [value_concat, h.value_eq, Nat.shiftLeft_eq, Nat.add_zero]
    calc value (2 ^ b) ys * 2 ^ b + acc * 2 ^ (b - n)
        = value (2 ^ b) ys * (2 ^ n * 2 ^ (b - n)) + acc * 2 ^ (b - n) := by rw [← hpow]
      _ = (value (2 ^ b) ys * 2 ^ n + acc) * 2 ^ (b - n) := by ring

/-! ## Uniqueness -/

/-- What came out, and what waits. -/
theorem unique (h : Regrouped a b xs ys n acc) (h' : Regrouped a b xs ys' n' acc') (hn : n < b)
    (hn' : n' < b) : ys = ys' ∧ n = n' ∧ acc = acc' := by
  have hb : 0 < b := Nat.zero_lt_of_lt hn
  have hbits := h.bits.symm.trans h'.bits
  have hmod := congrArg (· % b) hbits
  simp only [Nat.mul_add_mod, Nat.mod_eq_of_lt hn, Nat.mod_eq_of_lt hn'] at hmod
  subst hmod
  have hlen : ys.length = ys'.length :=
    Nat.eq_of_mul_eq_mul_left hb (Nat.add_right_cancel hbits)
  have hvalue := h.value_eq.symm.trans h'.value_eq
  have hout := congrArg (· / 2 ^ n) hvalue
  have hacc := congrArg (· % 2 ^ n) hvalue
  have hpos := Nat.two_pow_pos n
  simp only [Nat.add_comm _ acc, Nat.add_comm _ acc', Nat.add_mul_div_right _ _ hpos,
    Nat.div_eq_of_lt h.acc_lt, Nat.div_eq_of_lt h'.acc_lt, Nat.zero_add] at hout
  simp only [Nat.add_comm _ acc, Nat.add_comm _ acc', Nat.add_mul_mod_self_right,
    Nat.mod_eq_of_lt h.acc_lt, Nat.mod_eq_of_lt h'.acc_lt] at hacc
  exact ⟨value_inj (Nat.one_lt_two_pow hb.ne') h.lt_out h'.lt_out hlen hout, rfl, hacc⟩

/-- What went in. -/
theorem unique_in (h : Regrouped a b xs ys n 0) (h' : Regrouped a b xs' ys n' 0) (hn : n < a)
    (hn' : n' < a) : xs = xs' ∧ n = n' := by
  have ha : 0 < a := Nat.zero_lt_of_lt hn
  have hbits := h.bits
  have hbits' := h'.bits
  have hlen : xs.length = xs'.length := by
    rcases Nat.lt_trichotomy xs.length xs'.length with hlt | heq | hgt
    · have hle := Nat.mul_le_mul_left a hlt
      rw [Nat.mul_succ] at hle
      omega
    · exact heq
    · have hle := Nat.mul_le_mul_left a hgt
      rw [Nat.mul_succ] at hle
      omega
  have hwait : n = n' := by
    rw [hlen] at hbits
    omega
  subst hwait
  exact ⟨value_inj (Nat.one_lt_two_pow ha.ne') h.lt_in h'.lt_in hlen
    (h.value_eq.trans h'.value_eq.symm), rfl⟩

end Regrouped

end Regroup
