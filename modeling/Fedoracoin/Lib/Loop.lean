import Mathlib.Data.Set.Finite.Lattice
import Mathlib.Order.Interval.Set.Nat

/-!
# Loops with a bound on the iterations

A loop body takes a state to `Sum.inl` of a result, which leaves the loop, or to `Sum.inr`
of a state, which goes on; a body may also have no value at all.  `Loop.run body n` makes at
most `n` iterations.

* `run_spec`: total correctness, from an invariant and a measure;
* `run_invariant`: partial correctness, from an invariant alone;
* `run_simulates`: a loop that follows another one round by round;
* `foldlM_spec`: total correctness of a loop over a list;
* `exists_run_iff`: where the measure fails to go down only in iterations of one kind, the
  loop ends exactly if it makes finitely many of that kind.
-/

variable {σ ρ : Type*}

namespace Loop

/-- At most `n` iterations of `body`. -/
def run (body : σ → Option (ρ ⊕ σ)) : Nat → σ → Option ρ
  | 0, _ => none
  | n + 1, s =>
      match body s with
      | none => none
      | some (.inl r) => some r
      | some (.inr s') => run body n s'

/-- The state after `k` iterations, if the loop gets there. -/
def after (body : σ → Option (ρ ⊕ σ)) : Nat → σ → Option σ
  | 0, s => some s
  | k + 1, s =>
      match body s with
      | some (.inr s') => after body k s'
      | _ => none

variable {body : σ → Option (ρ ⊕ σ)} {s s' : σ} {r : ρ} {n k : Nat}

theorem run_exit (h : body s = some (.inl r)) : run body (n + 1) s = some r := by
  rw [run, h]

theorem run_again (h : body s = some (.inr s')) : run body (n + 1) s = run body n s' := by
  rw [run, h]

theorem after_again (h : body s = some (.inr s')) : after body (k + 1) s = after body k s' := by
  rw [after, h]

theorem after_succ_eq_some (h : after body (k + 1) s = some s') :
    ∃ s₁, body s = some (.inr s₁) ∧ after body k s₁ = some s' := by
  rw [after] at h
  split at h
  · exact ⟨_, ‹_›, h⟩
  · cases h

theorem run_succ_eq_some (h : run body (n + 1) s = some r) : body s = some (.inl r) ∨
    ∃ s₁, body s = some (.inr s₁) ∧ run body n s₁ = some r := by
  rw [run] at h
  split at h
  · cases h
  · exact .inl (Option.some.inj h ▸ ‹_›)
  · exact .inr ⟨_, ‹_›, h⟩

/-- **Total correctness.** -/
theorem run_spec {I : σ → Prop} {Q : ρ → Prop} {m : σ → Nat}
    (hbody : ∀ s, I s → (∃ r, body s = some (.inl r) ∧ Q r) ∨
      ∃ s', body s = some (.inr s') ∧ I s' ∧ m s' < m s)
    (hs : I s) (hn : m s < n) : ∃ r, run body n s = some r ∧ Q r := by
  induction n generalizing s with
  | zero => exact absurd hn (Nat.not_lt_zero _)
  | succ n ih =>
      rcases hbody s hs with ⟨r, hb, hr⟩ | ⟨s', hb, hs', hm⟩
      · exact ⟨r, run_exit hb, hr⟩
      · obtain ⟨r, hrun, hr⟩ := ih hs' (Nat.lt_of_lt_of_le hm (Nat.lt_succ_iff.mp hn))
        exact ⟨r, (run_again hb).trans hrun, hr⟩

theorem after_add {j : Nat} (h : after body k s = some s') :
    after body (k + j) s = after body j s' := by
  induction k generalizing s with
  | zero =>
      obtain rfl := Option.some.inj h
      rw [Nat.zero_add]
  | succ k ih =>
      obtain ⟨s₁, hb, h⟩ := after_succ_eq_some h
      rw [Nat.add_right_comm, after_again hb, ih h]

theorem run_add (h : after body k s = some s') : run body (k + n) s = run body n s' := by
  induction k generalizing s with
  | zero =>
      obtain rfl := Option.some.inj h
      rw [Nat.zero_add]
  | succ k ih =>
      obtain ⟨s₁, hb, h⟩ := after_succ_eq_some h
      rw [Nat.add_right_comm, run_again hb, ih h]

/-- A loop leaves from the state after some iterations. -/
theorem run_eq_some_iff : run body n s = some r ↔
    ∃ k < n, ∃ s', after body k s = some s' ∧ body s' = some (.inl r) := by
  constructor
  · intro h
    induction n generalizing s with
    | zero => exact absurd h (by simp [run])
    | succ n ih =>
        obtain hb | ⟨s₁, hb, h⟩ := run_succ_eq_some h
        · exact ⟨0, Nat.succ_pos n, s, rfl, hb⟩
        · obtain ⟨k, hk, s', hafter, hexit⟩ := ih h
          exact ⟨k + 1, Nat.succ_lt_succ hk, s', (after_again hb).trans hafter, hexit⟩
  · rintro ⟨k, hk, s', hafter, hexit⟩
    obtain ⟨j, rfl⟩ := Nat.exists_eq_add_of_lt hk
    rw [Nat.add_assoc, run_add hafter]
    exact run_exit hexit

/-- A loop that has left by iteration `n` is not at any later one. -/
theorem after_eq_none (h : run body n s = some r) (hk : n ≤ k) : after body k s = none := by
  obtain ⟨j, hj, s', hafter, hexit⟩ := run_eq_some_iff.mp h
  obtain ⟨i, rfl⟩ := Nat.exists_eq_add_of_lt (hj.trans_le hk)
  rw [Nat.add_assoc, after_add hafter, after, hexit]

/-- An invariant that counts the iterations. -/
theorem after_induct {I : Nat → σ → Prop} {j : Nat}
    (hagain : ∀ j s s', I j s → body s = some (.inr s') → I (j + 1) s')
    (hs : I j s) (h : after body k s = some s') : I (j + k) s' := by
  induction k generalizing j s with
  | zero =>
      obtain rfl := Option.some.inj h
      exact hs
  | succ k ih =>
      obtain ⟨s₁, hb, h⟩ := after_succ_eq_some h
      rw [Nat.add_comm k, ← Nat.add_assoc]
      exact ih (hagain j s s₁ hs hb) h

theorem after_invariant {I : σ → Prop} (hagain : ∀ s s', I s → body s = some (.inr s') → I s')
    (hs : I s) (h : after body k s = some s') : I s' :=
  after_induct (I := fun _ ↦ I) (j := 0) (fun _ ↦ hagain) hs h

/-- **Partial correctness.** -/
theorem run_invariant {I : σ → Prop} {Q : ρ → Prop}
    (hagain : ∀ s s', I s → body s = some (.inr s') → I s')
    (hexit : ∀ s r, I s → body s = some (.inl r) → Q r) (hs : I s)
    (h : run body n s = some r) : Q r := by
  obtain ⟨k, -, s', hafter, hb⟩ := run_eq_some_iff.mp h
  exact hexit s' r (after_invariant hagain hs hafter) hb

/-- A loop whose body always has a value either has left by iteration `k` or is at it. -/
theorem exists_run_or_after {I : σ → Prop}
    (hbody : ∀ s, I s → (∃ r, body s = some (.inl r)) ∨ ∃ s', body s = some (.inr s') ∧ I s')
    (hs : I s) (k : Nat) :
    (∃ r, run body k s = some r) ∨ ∃ s', after body k s = some s' ∧ I s' := by
  induction k generalizing s with
  | zero => exact Or.inr ⟨s, rfl, hs⟩
  | succ k ih =>
      rcases hbody s hs with ⟨r, hb⟩ | ⟨s', hb, hs'⟩
      · exact Or.inl ⟨r, run_exit hb⟩
      · rw [run_again hb, after_again hb]
        exact ih hs'

/-- **Termination up to one kind of iteration.**  If every iteration that is not `bad` lowers
the measure, the loop ends if and only if finitely many of its iterations are `bad`. -/
theorem exists_run_iff {I bad : σ → Prop} {m : σ → Nat}
    (hbody : ∀ s, I s → (∃ r, body s = some (.inl r)) ∨
      ∃ s', body s = some (.inr s') ∧ I s' ∧ (bad s ∨ m s' < m s))
    (hs : I s) :
    (∃ n r, run body n s = some r) ↔
      {k | ∃ s', after body k s = some s' ∧ bad s'}.Finite := by
  constructor
  · rintro ⟨n, r, h⟩
    refine (Set.finite_lt_nat n).subset ?_
    rintro k ⟨s', hk, _⟩
    by_contra hn
    rw [after_eq_none h (Nat.le_of_not_lt hn)] at hk
    cases hk
  · intro hfin
    obtain ⟨N, hN⟩ := hfin.bddAbove
    have hstep : ∀ s, I s → (∃ r, body s = some (.inl r)) ∨
        ∃ s', body s = some (.inr s') ∧ I s' := by
      intro s hs
      rcases hbody s hs with hexit | ⟨s', hb, hs', _⟩
      · exact Or.inl hexit
      · exact Or.inr ⟨s', hb, hs'⟩
    rcases exists_run_or_after hstep hs (N + 1) with ⟨r, h⟩ | ⟨s₁, h₁, hs₁⟩
    · exact ⟨_, r, h⟩
    · -- from here on no iteration is bad, so the measure bounds their number
      have hgood : ∀ s, (I s ∧ ∀ j s', after body j s = some s' → ¬ bad s') →
          (∃ r, body s = some (.inl r) ∧ True) ∨ ∃ s', body s = some (.inr s') ∧
            (I s' ∧ ∀ j s'', after body j s' = some s'' → ¬ bad s'') ∧ m s' < m s := by
        rintro s ⟨hs, hbad⟩
        rcases hbody s hs with ⟨r, hb⟩ | ⟨s', hb, hs', h⟩
        · exact Or.inl ⟨r, hb, trivial⟩
        · refine Or.inr ⟨s', hb, ⟨hs', fun j s'' hj ↦ ?_⟩, h.resolve_left (hbad 0 s rfl)⟩
          exact hbad (j + 1) s'' ((after_again hb).trans hj)
      have hclean : ∀ j s', after body j s₁ = some s' → ¬ bad s' := by
        intro j s' hj hbad
        have hmem := hN ⟨s', (after_add h₁).trans hj, hbad⟩
        omega
      obtain ⟨r, hr, _⟩ := run_spec (m := m) hgood ⟨hs₁, hclean⟩ (Nat.lt_succ_self _)
      exact ⟨_, r, (run_add h₁).trans hr⟩

/-- A loop that follows another one round by round ends when that one does. -/
theorem run_simulates {σ' ρ' : Type*} {body' : σ' → Option (ρ' ⊕ σ')} {R : σ → σ' → Prop}
    {Q : ρ → ρ' → Prop} {a : σ'} {b : ρ'}
    (hbody : ∀ s a, R s a →
      (∃ r b, body s = some (.inl r) ∧ body' a = some (.inl b) ∧ Q r b) ∨
      ∃ s' a', body s = some (.inr s') ∧ body' a = some (.inr a') ∧ R s' a')
    (hs : R s a) (h : run body' n a = some b) : ∃ r, run body n s = some r ∧ Q r b := by
  induction n generalizing s a with
  | zero => exact absurd h (by simp [run])
  | succ n ih =>
      rcases hbody s a hs with ⟨r, b', hb, hb', hr⟩ | ⟨s', a', hb, hb', hs'⟩
      · rw [run_exit hb'] at h
        exact ⟨r, run_exit hb, Option.some.inj h ▸ hr⟩
      · rw [run_again hb'] at h
        obtain ⟨r, hrun, hr⟩ := ih hs' h
        exact ⟨r, (run_again hb).trans hrun, hr⟩

/-- A loop that keeps coming back to states it goes on from does not end. -/
theorem run_eq_none {I : σ → Prop} (hbody : ∀ s, I s → ∃ s', body s = some (.inr s') ∧ I s')
    (hs : I s) (n : Nat) : run body n s = none := by
  induction n generalizing s with
  | zero => rfl
  | succ n ih =>
      obtain ⟨s', hb, hs'⟩ := hbody s hs
      rw [run_again hb]
      exact ih hs'

/-! ## Loops over a list -/

/-- A loop over a list that always has a value, with an invariant that knows what has been done. -/
theorem foldlM_spec {α : Type*} {σ : Type} {I : List α → σ → Prop} {f : σ → α → Option σ}
    {l : List α} {s : σ}
    (hstep : ∀ done a s, a ∈ l → I done s → ∃ s', f s a = some s' ∧ I (done ++ [a]) s')
    (hs : I [] s) : ∃ s', l.foldlM f s = some s' ∧ I l s' := by
  have hrest : ∀ rest done s, (∀ a ∈ rest, a ∈ l) → I done s →
      ∃ s', rest.foldlM f s = some s' ∧ I (done ++ rest) s' := by
    intro rest
    induction rest with
    | nil =>
        intro done s _ hs
        rw [List.append_nil]
        exact ⟨s, rfl, hs⟩
    | cons a rest ih =>
        intro done s hl hs
        obtain ⟨s₁, ha, hs₁⟩ := hstep done a s (hl a List.mem_cons_self) hs
        obtain ⟨s', hrun, hs'⟩ := ih (done ++ [a]) s₁
          (fun b hb ↦ hl b (List.mem_cons_of_mem a hb)) hs₁
        rw [List.append_assoc] at hs'
        refine ⟨s', ?_, hs'⟩
        rw [List.foldlM_cons, ha]
        exact hrun
  exact hrest l [] s (fun _ ha ↦ ha) hs

/-! ## A measure for walks -/

/-- Fewer elements of a list satisfy a test that is stricter on one of them. -/
theorem countP_lt {α : Type*} {p q : α → Bool} {l : List α} {a : α} (ha : a ∈ l)
    (hpq : ∀ x, p x = true → q x = true) (hq : q a = true) (hp : p a = false) :
    l.countP p < l.countP q := by
  induction l with
  | nil => exact absurd ha List.not_mem_nil
  | cons b l ih =>
      rw [List.countP_cons, List.countP_cons]
      have hle : l.countP p ≤ l.countP q := List.countP_mono_left fun x _ ↦ hpq x
      rcases List.mem_cons.mp ha with rfl | ha
      · rw [hq, hp]
        exact Nat.lt_succ_of_le hle
      · have hlt := ih ha
        cases hb : p b with
        | true =>
            rw [hpq b hb]
            exact Nat.add_lt_add_right hlt _
        | false => exact hlt.trans_le (Nat.le_add_right _ _)

end Loop
