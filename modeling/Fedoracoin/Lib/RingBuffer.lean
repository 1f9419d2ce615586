import Mathlib.Data.List.Basic
import Mathlib.Data.Nat.ModEq

/-!
# Ring buffers

A list is passed through a buffer of fixed length, element `q` at place `q` modulo the length.
`Holds` says which elements are in it.  Storing the elements that come next pushes out the oldest
ones (`Holds.store`), and reading gives elements of the list (`Holds.read`), as long as neither goes
over the end of the buffer.
-/

namespace RingBuffer

variable {α : Type*} {v data whole : List α} {lo lo' hi q k i pos : Nat}

/-- Overwrites what is at a place. -/
def store (v : List α) (pos : Nat) (data : List α) : List α :=
  v.take pos ++ data ++ v.drop (pos + data.length)

/-- The elements from `lo` up to `hi` are in the buffer. -/
def Holds (v whole : List α) (lo hi : Nat) : Prop :=
  ∀ q, lo ≤ q → q < hi → v[q % v.length]? = whole[q]?

theorem length_store (h : pos + data.length ≤ v.length) :
    (store v pos data).length = v.length := by
  rw [store, List.length_append, List.length_append, List.length_take, List.length_drop]
  omega

theorem getElem?_store_left (h : pos ≤ v.length) (hi : i < pos) :
    (store v pos data)[i]? = v[i]? := by
  rw [store, List.append_assoc, List.getElem?_append_left (by rw [List.length_take]; omega),
    List.getElem?_take_of_lt hi]

theorem getElem?_store_data (h : pos ≤ v.length) (hi : i < data.length) :
    (store v pos data)[pos + i]? = data[i]? := by
  have hlen : (v.take pos).length = pos := List.length_take_of_le h
  rw [store, List.append_assoc, List.getElem?_append_right (by omega), hlen,
    Nat.add_sub_cancel_left, List.getElem?_append_left hi]

theorem getElem?_store_right (h : pos + data.length ≤ v.length) (hi : pos + data.length ≤ i) :
    (store v pos data)[i]? = v[i]? := by
  have hlen : (v.take pos ++ data).length = pos + data.length := by
    rw [List.length_append, List.length_take_of_le (by omega)]
  rw [store, List.getElem?_append_right (by omega), hlen, List.getElem?_drop,
    Nat.add_sub_of_le hi]

/-- The next places before the end of the buffer. -/
theorem add_mod_of_lt {n : Nat} (h : hi % n + i < n) : (hi + i) % n = hi % n + i := by
  rw [← Nat.mod_add_mod, Nat.mod_eq_of_lt h]

/-- An element that is no more than the length behind is not where the next ones go. -/
theorem mod_outside {n len : Nat} (hq : q < hi) (hlen : hi + len ≤ q + n)
    (hfit : hi % n + len ≤ n) :
    q % n < hi % n ∨ hi % n + len ≤ q % n := by
  by_contra hin
  rw [not_or, Nat.not_lt, Nat.not_le] at hin
  obtain ⟨i, hmod⟩ := Nat.exists_eq_add_of_le hin.1
  have hsame : q % n = (hi + i) % n := by
    rw [hmod, add_mod_of_lt (by omega)]
  have hdvd : n ∣ hi + i - q := (Nat.modEq_iff_dvd' (by omega)).mp hsame
  have hle := Nat.le_of_dvd (by omega) hdvd
  omega

/-- **The elements that come next** take the place of those that are the length behind. -/
theorem Holds.store (h : Holds v whole lo hi) (hlo : lo ≤ lo')
    (hdata : ∀ i < data.length, data[i]? = whole[hi + i]?)
    (hfit : hi % v.length + data.length ≤ v.length) (hlen : hi + data.length ≤ lo' + v.length) :
    Holds (RingBuffer.store v (hi % v.length) data) whole lo' (hi + data.length) := by
  intro q hq hlt
  rw [length_store hfit]
  rcases Nat.lt_or_ge q hi with hold | hnew
  · rw [← h q (hlo.trans hq) hold]
    rcases mod_outside hold (hlen.trans (by omega)) hfit with hleft | hright
    · exact getElem?_store_left (by omega) hleft
    · exact getElem?_store_right hfit hright
  · obtain ⟨i, rfl⟩ := Nat.exists_eq_add_of_le hnew
    rw [add_mod_of_lt (by omega), getElem?_store_data (by omega) (by omega), hdata i (by omega)]

/-- **What is read** at the place of an element is the list from there on. -/
theorem Holds.read (h : Holds v whole lo hi) (hlo : lo ≤ q) (hhi : q + k ≤ hi)
    (hfit : q % v.length + k ≤ v.length) :
    (v.drop (q % v.length)).take k = (whole.drop q).take k := by
  apply List.ext_getElem?
  intro i
  rcases Nat.lt_or_ge i k with hlt | hge
  · rw [List.getElem?_take_of_lt hlt, List.getElem?_take_of_lt hlt, List.getElem?_drop,
      List.getElem?_drop, ← add_mod_of_lt (by omega), h (q + i) (by omega) (by omega)]
  · rw [List.getElem?_take_eq_none hge, List.getElem?_take_eq_none hge]

end RingBuffer
