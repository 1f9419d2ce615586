import Mathlib.Data.List.Basic
import Mathlib.Data.List.Induction
import Mathlib.Data.Nat.Bitwise
import Mathlib.Tactic.Ring

/-!
# Byte streams

Fixed-width little-endian numbers, readers of streams, and bits packed into bytes.

`Reads read bytes a` says that `read` takes exactly `bytes` off the front of a stream, whatever
follows, and yields `a`; a round trip is proved by putting such statements together along the
reader.  `Takes read write` is the other direction: what `read` accepted is what `write` gives for
its value.  `Framed f` says that `f` writes a message around a field, so that two such messages are
equal exactly if their fields are.
-/

namespace Wire

variable {ε α β : Type}

/-! ## Little-endian numbers -/

/-- The `k` lowest bytes of `n`, the least significant first. -/
def toBytes : (k n : Nat) → List UInt8
  | 0, _ => []
  | k + 1, n => UInt8.ofNat n :: toBytes k (n / 256)

def ofBytes : List UInt8 → Nat
  | [] => 0
  | b :: bs => b.toNat + 256 * ofBytes bs

@[simp] theorem length_toBytes (k n : Nat) : (toBytes k n).length = k := by
  induction k generalizing n with
  | zero => rfl
  | succ k ih => rw [toBytes, List.length_cons, ih]

theorem ofBytes_toBytes {k n : Nat} (h : n < 256 ^ k) : ofBytes (toBytes k n) = n := by
  induction k generalizing n with
  | zero =>
      rw [pow_zero, Nat.lt_one_iff] at h
      exact h.symm
  | succ k ih =>
      have hdiv : n / 256 < 256 ^ k := Nat.div_lt_of_lt_mul (by rwa [← pow_succ'])
      rw [toBytes, ofBytes, ih hdiv, UInt8.toNat_ofNat']
      exact Nat.mod_add_div n 256

theorem ofBytes_append (s t : List UInt8) :
    ofBytes (s ++ t) = ofBytes s + 256 ^ s.length * ofBytes t := by
  induction s with
  | nil => rw [List.nil_append, ofBytes, List.length_nil, pow_zero, Nat.one_mul, Nat.zero_add]
  | cons a s ih =>
      rw [List.cons_append, ofBytes, ofBytes, ih, List.length_cons, pow_succ']
      ring

theorem ofBytes_concat (s : List UInt8) (b : UInt8) :
    ofBytes (s ++ [b]) = ofBytes s + 256 ^ s.length * b.toNat := by
  rw [ofBytes_append, ofBytes, ofBytes, Nat.mul_zero, Nat.add_zero]

/-- A property of bytes that each number under 256 has. -/
theorem forall_byte {p : UInt8 → Prop} (h : ∀ n < 256, p (UInt8.ofNat n)) (b : UInt8) : p b := by
  have hb := h b.toNat b.toNat_lt
  rwa [UInt8.ofNat_toNat] at hb

/-- A property of the entries of a table that has one for each byte. -/
theorem forall_entry {p : UInt8 → α → Prop} (table : List α) (hlength : table.length = 256)
    (h : ∀ e ∈ table.zipIdx, p (UInt8.ofNat e.2) e.1) (d : α) (b : UInt8) :
    p b (table.getD b.toNat d) := by
  have hb : b.toNat < table.length := hlength ▸ b.toNat_lt
  have hmem : (table[b.toNat], b.toNat) ∈ table.zipIdx :=
    List.mem_zipIdx_iff_getElem?.mpr (List.getElem?_eq_getElem hb)
  have hentry := h _ hmem
  rwa [UInt8.ofNat_toNat, ← List.getD_eq_getElem table d hb] at hentry

/-! ## Readers -/

/-- A reader takes a value off the front of the stream, or fails. -/
abbrev Reader (ε α : Type) := StateT (List UInt8) (Except ε) α

def Reads (read : Reader ε α) (bytes : List UInt8) (a : α) : Prop :=
  ∀ rest, read (bytes ++ rest) = .ok (a, rest)

/-- The next `k` bytes; `e` is the failure at the end of the stream. -/
def take (e : ε) (k : Nat) : Reader ε (List UInt8) := fun s ↦
  if s.length < k then .error e else .ok (s.take k, s.drop k)

/-- The same reader `n` times. -/
def many (read : Reader ε α) : (n : Nat) → Reader ε (List α)
  | 0 => pure []
  | n + 1 => do
      let a ← read
      let l ← many read n
      return a :: l

/-- One element for each flag that is set, and `blank` for the others. -/
def slots (read : Reader ε α) (blank : α) : List Bool → Reader ε (List α)
  | [] => pure []
  | f :: fs => do
      let a ← if f then read else pure blank
      let l ← slots read blank fs
      return a :: l

theorem reads_pure (a : α) : Reads (pure a : Reader ε α) [] a := fun _ ↦ rfl

theorem Reads.bind {read : Reader ε α} {f : α → Reader ε β} {s t : List UInt8} {a : α} {b : β}
    (ha : Reads read s a) (hb : Reads (f a) t b) : Reads (read >>= f) (s ++ t) b := by
  intro rest
  change (read (s ++ t ++ rest) >>= fun p ↦ f p.1 p.2) = _
  rw [List.append_assoc, ha]
  exact hb rest

/-- A reader whose value is converted. -/
theorem Reads.map {read : Reader ε α} {s : List UInt8} {a : α} (f : α → β)
    (ha : Reads read s a) : Reads (read >>= fun a ↦ pure (f a)) s (f a) := by
  have h : Reads (read >>= fun a ↦ pure (f a)) (s ++ []) (f a) := ha.bind (reads_pure (f a))
  rwa [List.append_nil] at h

theorem reads_take {e : ε} {k : Nat} {s : List UInt8} (h : s.length = k) :
    Reads (take e k) s s := by
  intro rest
  subst h
  rw [take, if_neg (by simp), List.take_left', List.drop_left'] <;> rfl

theorem reads_toBytes {e : ε} {k n : Nat} (h : n < 256 ^ k) :
    Reads (take e k >>= fun s ↦ pure (ofBytes s)) (toBytes k n) n := by
  have hr := (reads_take (e := e) (length_toBytes k n)).map ofBytes
  rwa [ofBytes_toBytes h] at hr

theorem reads_many {read : Reader ε α} {write : α → List UInt8} {l : List α}
    (h : ∀ a ∈ l, Reads read (write a) a) : Reads (many read l.length) (l.flatMap write) l := by
  induction l with
  | nil => exact reads_pure []
  | cons a l ih =>
      rw [List.flatMap_cons]
      apply (h a List.mem_cons_self).bind
      exact (ih fun b hb ↦ h b (List.mem_cons_of_mem a hb)).map (a :: ·)

theorem reads_slots {read : Reader ε α} {write : α → List UInt8} {keep : α → Bool} {blank : α}
    {l : List α} (h : ∀ a ∈ l, keep a = true → Reads read (write a) a) :
    Reads (slots read blank (l.map keep)) (l.flatMap fun a ↦ if keep a then write a else [])
      (l.map fun a ↦ if keep a then a else blank) := by
  induction l with
  | nil => exact reads_pure []
  | cons a l ih =>
      have hrest := ih fun b hb ↦ h b (List.mem_cons_of_mem a hb)
      rw [List.map_cons, List.map_cons, List.flatMap_cons, slots]
      cases hkeep : keep a with
      | true => exact (h a List.mem_cons_self hkeep).bind (hrest.map (a :: ·))
      | false => exact (reads_pure blank).bind (hrest.map (blank :: ·))

/-- A loop that reads one element in each round. -/
theorem reads_foldlM_range {σ : Type} {body : σ → Nat → Reader ε σ} {write : α → List UInt8}
    {f : σ → α → Nat → σ} {l : List α}
    (h : ∀ i a, l[i]? = some a → ∀ s, Reads (body s i) (write a) (f s a i)) (s : σ) :
    Reads ((List.range l.length).foldlM body s) (l.flatMap write)
      (l.zipIdx.foldl (fun s e ↦ f s e.1 e.2) s) := by
  induction l using List.reverseRecOn with
  | nil => exact reads_pure s
  | append_singleton l a ih =>
      have hlast : (l ++ [a])[l.length]? = some a := List.getElem?_concat_length
      rw [List.length_append, List.length_singleton, List.range_succ, List.foldlM_append,
        List.flatMap_append, List.flatMap_singleton, List.zipIdx_append, List.foldl_append]
      apply (ih fun i b hb ↦ h i b ?_).bind
      · have hr := (h l.length a hlast (l.zipIdx.foldl (fun s e ↦ f s e.1 e.2) s)).bind
          (reads_pure _)
        rw [List.append_nil] at hr
        rw [Nat.zero_add]
        exact hr
      · obtain ⟨hi, -⟩ := List.getElem?_eq_some_iff.mp hb
        rw [List.getElem?_append_left hi]
        exact hb

/-! ## What a reader has taken -/

/-- Whatever the reader yields, what it took off the stream is what `write` gives for it. -/
def Takes (read : Reader ε α) (write : α → List UInt8) : Prop :=
  ∀ s a t, read s = .ok (a, t) → s = write a ++ t

section

variable {read : Reader ε α} {write : α → List UInt8} {f : α → Reader ε β} {s t : List UInt8}
  {a : α} {b : β} {e : ε} {k n : Nat} {l : List α}

theorem bind_ok (h : (read >>= f) s = .ok (b, t)) :
    ∃ a r, read s = .ok (a, r) ∧ f a r = .ok (b, t) := by
  change (read s >>= fun p ↦ f p.1 p.2) = _ at h
  cases hr : read s with
  | error e =>
      rw [hr] at h
      exact absurd h (by simp [bind, Except.bind])
  | ok p =>
      rw [hr] at h
      exact ⟨p.1, p.2, rfl, h⟩

theorem bind_of_ok (h : read s = .ok (a, t)) : (read >>= f) s = f a t := by
  change (read s >>= fun p ↦ f p.1 p.2) = _
  rw [h]
  rfl

theorem pure_ok {a' : α} (h : (pure a : Reader ε α) s = .ok (a', t)) : a' = a ∧ t = s := by
  obtain ⟨rfl, rfl⟩ := Prod.mk.inj (Except.ok.inj h)
  exact ⟨rfl, rfl⟩

theorem take_ok {data : List UInt8} (h : take e k s = .ok (data, t)) :
    s = data ++ t ∧ data.length = k := by
  rw [take] at h
  split at h
  case isTrue => cases h
  case isFalse hk =>
    obtain ⟨rfl, rfl⟩ := Prod.mk.inj (Except.ok.inj h)
    rw [List.take_append_drop, List.length_take]
    exact ⟨rfl, Nat.min_eq_left (Nat.not_lt.mp hk)⟩

theorem take_of_le (h : k ≤ s.length) : take e k s = .ok (s.take k, s.drop k) := by
  rw [take, if_neg (Nat.not_lt.mpr h)]

theorem ofBytes_lt (s : List UInt8) : ofBytes s < 256 ^ s.length := by
  induction s with
  | nil => exact Nat.one_pos
  | cons b s ih =>
      have hb : b.toNat < 256 := b.toNat_lt
      rw [ofBytes, List.length_cons, pow_succ']
      omega

theorem toBytes_ofBytes (s : List UInt8) : toBytes s.length (ofBytes s) = s := by
  induction s with
  | nil => rfl
  | cons b s ih =>
      have hb : b.toNat < 256 := b.toNat_lt
      have hdiv : (b.toNat + 256 * ofBytes s) / 256 = ofBytes s := by omega
      have hmod : UInt8.ofNat (b.toNat + 256 * ofBytes s) = b := by
        apply UInt8.toNat_inj.mp
        rw [UInt8.toNat_ofNat']
        omega
      rw [ofBytes, List.length_cons, toBytes, hdiv, hmod, ih]

/-- A number that was read fits in its bytes, which are the number's own. -/
theorem uint_ok (h : (take e k >>= fun s ↦ pure (ofBytes s)) s = .ok (n, t)) :
    s = toBytes k n ++ t ∧ n < 256 ^ k := by
  obtain ⟨data, r, hr, h⟩ := bind_ok h
  obtain ⟨rfl, rfl⟩ := pure_ok h
  obtain ⟨rfl, rfl⟩ := take_ok hr
  exact ⟨by rw [toBytes_ofBytes], ofBytes_lt data⟩

theorem many_ok (ht : Takes read write) (h : many read n s = .ok (l, t)) :
    s = l.flatMap write ++ t ∧ l.length = n := by
  induction n generalizing s l with
  | zero =>
      obtain ⟨rfl, rfl⟩ := pure_ok h
      exact ⟨rfl, rfl⟩
  | succ n ih =>
      obtain ⟨a, r, ha, h⟩ := bind_ok h
      obtain ⟨l', r', hl, h⟩ := bind_ok h
      obtain ⟨rfl, rfl⟩ := pure_ok h
      obtain ⟨rfl, rfl⟩ := ih hl
      rw [ht _ _ _ ha, List.flatMap_cons, List.append_assoc]
      exact ⟨rfl, rfl⟩

/-- Each value of a list stands where the values before it end. -/
theorem many_getElem (ht : Takes read write) (h : many read n s = .ok (l, t)) {i : Nat}
    (hi : i < l.length) :
    ∃ r, read (s.drop ((l.take i).map fun a ↦ (write a).length).sum) = .ok (l[i], r) := by
  induction n generalizing s l i with
  | zero =>
      obtain ⟨rfl, rfl⟩ := pure_ok h
      exact absurd hi (Nat.not_lt_zero i)
  | succ n ih =>
      obtain ⟨a, r, ha, h⟩ := bind_ok h
      obtain ⟨l', r', hl, h⟩ := bind_ok h
      obtain ⟨rfl, rfl⟩ := pure_ok h
      cases i with
      | zero => exact ⟨r, ha⟩
      | succ i =>
          obtain ⟨r'', hr⟩ := ih hl (Nat.lt_of_succ_lt_succ hi)
          refine ⟨r'', ?_⟩
          rw [List.take_succ_cons, List.map_cons, List.sum_cons, ht _ _ _ ha,
            List.drop_append, Nat.add_sub_cancel_left, List.drop_eq_nil_of_le (by omega),
            List.nil_append]
          exact hr

end

/-! ## Writing in place -/

/-- What a buffer or a file holds after `data` is written at `pos`; a gap is filled with zeros. -/
def writeAt (buf : List UInt8) (pos : Nat) (data : List UInt8) : List UInt8 :=
  (buf ++ List.replicate (pos - buf.length) 0).take pos ++ data ++ buf.drop (pos + data.length)

section

variable {buf : List UInt8} {pos : Nat} {data : List UInt8}

theorem drop_writeAt (buf : List UInt8) (pos : Nat) (header data : List UInt8) :
    (writeAt buf pos (header ++ data)).drop (pos + header.length) =
      data ++ buf.drop (pos + (header ++ data).length) := by
  have hlen : ((buf ++ List.replicate (pos - buf.length) 0).take pos).length = pos := by
    rw [List.length_take, List.length_append, List.length_replicate]
    omega
  rw [writeAt, List.append_assoc, ← List.drop_drop, List.drop_left' hlen, List.append_assoc,
    List.drop_left' rfl]

/-- Inside the buffer nothing is filled in. -/
theorem writeAt_of_le (h : pos ≤ buf.length) :
    writeAt buf pos data = buf.take pos ++ data ++ buf.drop (pos + data.length) := by
  rw [writeAt, Nat.sub_eq_zero_of_le h, List.replicate_zero, List.append_nil]

theorem length_writeAt (h : pos + data.length ≤ buf.length) :
    (writeAt buf pos data).length = buf.length := by
  rw [writeAt_of_le (by omega), List.length_append, List.length_append, List.length_take,
    List.length_drop]
  omega

/-- The buffer up to the end of what is written. -/
theorem take_writeAt (data : List UInt8) (h : pos ≤ buf.length) :
    (writeAt buf pos data).take (pos + data.length) = buf.take pos ++ data := by
  rw [writeAt_of_le h]
  apply List.take_left'
  rw [List.length_append, List.length_take, Nat.min_eq_left h]

end

/-! ## Messages with one field left open -/

section

variable {f : List α → List α} {g : List α → Nat → List α} {w w' : List α} {j k : Nat}

/-- `f` puts a field between bytes that do not depend on it. -/
def Framed (f : List α → List α) : Prop := ∃ pre post, ∀ w, f w = pre ++ w ++ post

namespace Framed

theorem field : Framed fun w : List α ↦ w :=
  ⟨[], [], fun w ↦ (List.append_nil w).symm⟩

theorem const_append (h : Framed f) (s : List α) : Framed fun w ↦ s ++ f w := by
  obtain ⟨pre, post, h⟩ := h
  refine ⟨s ++ pre, post, fun w ↦ ?_⟩
  dsimp only
  rw [h, List.append_assoc s, List.append_assoc s, List.append_assoc pre]

theorem append_const (h : Framed f) (s : List α) : Framed fun w ↦ f w ++ s := by
  obtain ⟨pre, post, h⟩ := h
  refine ⟨pre, post ++ s, fun w ↦ ?_⟩
  dsimp only
  rw [h, List.append_assoc]

/-- Different fields give different messages. -/
theorem inj (h : Framed f) : f w = f w' ↔ w = w' := by
  obtain ⟨pre, post, h⟩ := h
  rw [h, h, List.append_left_inj, List.append_right_inj]

/-- A loop that writes the field in one of its rounds. -/
theorem flatMap_range (hj : j < k) (hframe : Framed fun w ↦ g w j)
    (hconst : ∀ i, i ≠ j → ∀ w, g w i = g [] i) :
    Framed fun w ↦ (List.range k).flatMap (g w) := by
  induction k with
  | zero => exact absurd hj (Nat.not_lt_zero j)
  | succ k ih =>
      have hsplit (w : List α) :
          (List.range (k + 1)).flatMap (g w) = (List.range k).flatMap (g w) ++ g w k := by
        rw [List.range_succ, List.flatMap_append, List.flatMap_singleton]
      rw [funext hsplit]
      rcases Nat.lt_succ_iff_lt_or_eq.mp hj with hlt | rfl
      · have hlast (w : List α) : g w k = g [] k := hconst k hlt.ne' w
        simp only [hlast]
        exact (ih hlt).append_const (g [] k)
      · have hfirst (w : List α) : (List.range j).flatMap (g w) = (List.range j).flatMap (g []) :=
          List.flatMap_congr fun i hi ↦ hconst i (List.mem_range.mp hi).ne w
        simp only [hfirst]
        exact hframe.const_append _

end Framed

/-- A list written by its indices. -/
theorem flatMap_range_getElem? {γ : Type} (l : List γ) (write : γ → List α) :
    (List.range l.length).flatMap (fun i ↦ l[i]?.elim [] write) = l.flatMap write := by
  induction l using List.reverseRecOn with
  | nil => rfl
  | append_singleton l a ih =>
      rw [List.length_append, List.length_singleton, List.range_succ, List.flatMap_append,
        List.flatMap_append, List.flatMap_singleton, List.flatMap_singleton, ← ih]
      congr 1
      · apply List.flatMap_congr
        intro i hi
        rw [List.getElem?_append_left (List.mem_range.mp hi)]
      · rw [List.getElem?_concat_length]
        rfl

end

/-! ## Bits in bytes -/

/-- `bytes[p / 8] |= bit << (p % 8)`. -/
def orBit (bytes : List UInt8) (p : Nat) (bit : Bool) : List UInt8 :=
  bytes.modify (p / 8) fun b ↦ UInt8.ofNat (b.toNat ||| bit.toNat <<< (p % 8))

/-- The first `m` bits, set one after the other in bytes that are zero. -/
def packBits (bits : List Bool) : (m : Nat) → List UInt8
  | 0 => List.replicate ((bits.length + 7) / 8) 0
  | m + 1 => orBit (packBits bits m) m (bits.getD m false)

/-- `(bytes[p / 8] & (1 << (p % 8))) != 0`. -/
def bitAt (bytes : List UInt8) (p : Nat) : Bool :=
  ((bytes.getD (p / 8) 0).toNat &&& 1 <<< (p % 8)) != 0

def unpackBits (bytes : List UInt8) : List Bool :=
  (List.range (bytes.length * 8)).map (bitAt bytes)

@[simp] theorem length_packBits (bits : List Bool) (m : Nat) :
    (packBits bits m).length = (bits.length + 7) / 8 := by
  induction m with
  | zero => rw [packBits, List.length_replicate]
  | succ m ih => rw [packBits, orBit, List.length_modify, ih]

theorem bitAt_eq (bytes : List UInt8) (p : Nat) :
    bitAt bytes p = (bytes.getD (p / 8) 0).toNat.testBit (p % 8) := by
  rw [bitAt, Nat.one_shiftLeft, Nat.and_two_pow]
  cases Nat.testBit _ (p % 8) <;> simp

theorem testBit_or_shiftLeft (x i j : Nat) (bit : Bool) :
    (x ||| bit.toNat <<< i).testBit j = (x.testBit j || (decide (j = i) && bit)) := by
  rw [Nat.testBit_or, Nat.testBit_shiftLeft, Nat.testBit_bool_toNat]
  congr 1
  rcases Nat.lt_or_ge j i with h | h
  · rw [decide_eq_false (Nat.not_le.mpr h), decide_eq_false h.ne, Bool.false_and, Bool.false_and]
  · rw [decide_eq_true h, Bool.true_and]
    congr 1
    exact decide_eq_decide.mpr (by omega)

theorem bitAt_orBit {bytes : List UInt8} {p q : Nat} {bit : Bool} (h : p / 8 < bytes.length) :
    bitAt (orBit bytes p bit) q = (bitAt bytes q || (decide (q = p) && bit)) := by
  rw [bitAt_eq, bitAt_eq, orBit, List.getD_eq_getElem?_getD, List.getD_eq_getElem?_getD]
  have hlt : q % 8 < 8 := Nat.mod_lt q (by norm_num)
  rcases eq_or_ne (p / 8) (q / 8) with hbyte | hbyte
  · rw [← hbyte, List.getElem?_modify_eq, List.getElem?_eq_getElem h, Option.map_eq_map,
      Option.map_some, Option.getD_some, Option.getD_some, UInt8.toNat_ofNat']
    rw [Nat.testBit_mod_two_pow, testBit_or_shiftLeft, decide_eq_true hlt, Bool.true_and]
    congr 2
    exact decide_eq_decide.mpr (by omega)
  · have hne : q ≠ p := by
      rintro rfl
      exact hbyte rfl
    rw [List.getElem?_modify_ne _ _ hbyte, decide_eq_false hne, Bool.false_and, Bool.or_false]

/-- The bits that are set so far. -/
theorem bitAt_packBits {bits : List Bool} {m : Nat} (hm : m ≤ bits.length) (q : Nat) :
    bitAt (packBits bits m) q = (decide (q < m) && bits.getD q false) := by
  induction m with
  | zero =>
      rw [packBits, bitAt_eq, List.getD_eq_getElem?_getD, List.getElem?_replicate]
      split <;> simp
  | succ m ih =>
      have hbyte : m / 8 < (packBits bits m).length := by
        rw [length_packBits]
        omega
      rw [packBits, bitAt_orBit hbyte, ih (Nat.le_of_succ_le hm)]
      rcases lt_trichotomy q m with h | rfl | h
      · simp [h, h.ne, h.trans (Nat.lt_succ_self m)]
      · simp
      · simp [h.not_gt, h.ne', Nat.not_lt.mpr h]

/-- Bits come back from the bytes they are packed into, with zeros up to a whole byte. -/
theorem unpackBits_packBits (bits : List Bool) :
    unpackBits (packBits bits bits.length) =
      bits ++ List.replicate ((bits.length + 7) / 8 * 8 - bits.length) false := by
  apply List.ext_getElem?
  intro q
  have hle : bits.length ≤ (bits.length + 7) / 8 * 8 := by omega
  rw [unpackBits, length_packBits, List.getElem?_map, List.getElem?_append,
    List.getElem?_replicate]
  rcases Nat.lt_or_ge q ((bits.length + 7) / 8 * 8) with hq | hq
  · rw [List.getElem?_range hq, Option.map_some, bitAt_packBits (le_refl _)]
    rcases Nat.lt_or_ge q bits.length with hlt | hge
    · rw [if_pos hlt, List.getElem?_eq_getElem hlt]
      simp [hlt]
    · rw [if_neg (Nat.not_lt.mpr hge), if_pos (by omega), decide_eq_false (Nat.not_lt.mpr hge),
        Bool.false_and]
  · rw [if_neg (by omega), if_neg (by omega), List.getElem?_eq_none (by simpa using hq)]
    rfl

end Wire
