import Fedoracoin.Lib.Wire

/-!
# Programs that read

A program that gets its input by asking for some number of elements at a time, independently of
where they come from.  On a list (`onList`) it takes what it asks for off the front.  On a machine
(`exec`) a read may fail for other reasons, has a state of its own, and may have no value.

`exec_of_onList` is the simulation: as long as the machine gives the elements of a list that it
stands in front of, a program that succeeds on the list succeeds on the machine with the same value.
Where the list ends first, the machine fails as it does at its end (`exec_of_runsOut`).  `exec_spec`
is what holds of any program.
-/

/-- A program that reads elements of `β`. -/
inductive ReadProgram (ε β α : Type) where
  | done (a : α)
  | fail (e : ε)
  | read (n : Nat) (k : List β → ReadProgram ε β α)

namespace ReadProgram

variable {ε β α γ σ : Type}

def bind : ReadProgram ε β α → (α → ReadProgram ε β γ) → ReadProgram ε β γ
  | done a, f => f a
  | fail e, _ => fail e
  | read n k, f => read n fun s ↦ (k s).bind f

instance : Monad (ReadProgram ε β) where
  pure := done
  bind := bind

/-- Asks for `n` elements. -/
def take (n : Nat) : ReadProgram ε β (List β) := read n done

/-! ## On a list -/

/-- Runs on a list; `e` is the failure at its end. -/
def onList (e : ε) : ReadProgram ε β α → StateT (List β) (Except ε) α
  | done a => fun s ↦ .ok (a, s)
  | fail e' => fun _ ↦ .error e'
  | read n k => fun s ↦ if s.length < n then .error e else (k (s.take n)).onList e (s.drop n)

theorem onList_read (e : ε) (n : Nat) (k : List β → ReadProgram ε β α) (s : List β) :
    onList e (read n k) s =
      if s.length < n then .error e else (k (s.take n)).onList e (s.drop n) := rfl

@[simp] theorem onList_bind (e : ε) (p : ReadProgram ε β α) (f : α → ReadProgram ε β γ) :
    onList e (p >>= f) = onList e p >>= fun a ↦ onList e (f a) := by
  change onList e (p.bind f) = _
  induction p with
  | done a => rfl
  | fail e' => rfl
  | read n k ih =>
      funext s
      have hbind : (onList e (read n k) >>= fun a ↦ onList e (f a)) s =
          onList e (read n k) s >>= fun r ↦ onList e (f r.1) r.2 := rfl
      rw [bind, hbind, onList_read, onList_read]
      split
      case isTrue => rfl
      case isFalse =>
          rw [ih]
          rfl

@[simp] theorem onList_ite (e : ε) {c : Prop} [Decidable c] (p q : ReadProgram ε β α) :
    onList e (if c then p else q) = if c then onList e p else onList e q := by
  split <;> rfl

/-! ## On a machine -/

/-- Runs on a machine with the given reads. -/
def exec (rd : Nat → σ → Option (Except ε (List β) × σ)) :
    ReadProgram ε β α → σ → Option (Except ε α × σ)
  | done a, s => some (.ok a, s)
  | fail e, s => some (.error e, s)
  | read n k, s =>
      match rd n s with
      | none => none
      | some (.error e, s') => some (.error e, s')
      | some (.ok data, s') => (k data).exec rd s'

variable {rd : Nat → σ → Option (Except ε (List β) × σ)} {e : ε} {s : σ} {w rest : List β} {a : α}

/-- What all reads keep, a program keeps, and if they have values, so does a program. -/
theorem exec_spec {I : σ → Prop} (hrd : ∀ n s, I s → ∃ r s', rd n s = some (r, s') ∧ I s')
    (p : ReadProgram ε β α) (hs : I s) : ∃ r s', p.exec rd s = some (r, s') ∧ I s' := by
  induction p generalizing s with
  | done a => exact ⟨_, s, rfl, hs⟩
  | fail e => exact ⟨_, s, rfl, hs⟩
  | read n k ih =>
      obtain ⟨r, s', hr, hs'⟩ := hrd n s hs
      rw [exec, hr]
      cases r with
      | error e => exact ⟨_, s', rfl, hs'⟩
      | ok data => exact ih data hs'

/-- What reads keep that do not fail, a program keeps that does not. -/
theorem exec_ok_invariant {I : σ → Prop} {s' : σ}
    (hrd : ∀ n s data s', I s → rd n s = some (.ok data, s') → I s') (p : ReadProgram ε β α)
    (hs : I s) (h : p.exec rd s = some (.ok a, s')) : I s' := by
  induction p generalizing s with
  | done a' =>
      cases h
      exact hs
  | fail e => cases h
  | read n k ih =>
      rw [exec] at h
      split at h
      · cases h
      · cases h
      case _ data s₁ hr => exact ih data (hrd n s data s₁ hs hr) h

/-- As far as the program gets on the list, it asks for at most `b` elements at a time. -/
def Fits (b : Nat) : ReadProgram ε β α → List β → Prop
  | done _, _ => True
  | fail _, _ => True
  | read n k, w => n ≤ w.length → n ≤ b ∧ (k (w.take n)).Fits b (w.drop n)

theorem fits_of_length_le {b : Nat} (p : ReadProgram ε β α) (h : w.length ≤ b) : p.Fits b w := by
  induction p generalizing w with
  | done => trivial
  | fail => trivial
  | read n k ih =>
      intro hn
      refine ⟨hn.trans h, ih _ ?_⟩
      rw [List.length_drop]
      omega

/-- **The simulation.**  `S s w` says that the machine in state `s` stands in front of the list `w`,
and `hrd` that it then gives the next elements, if they are no more than `b`. -/
theorem exec_of_onList {b : Nat} {S : σ → List β → Prop}
    (hrd : ∀ n s w, S s w → n ≤ w.length → n ≤ b →
      ∃ s', rd n s = some (.ok (w.take n), s') ∧ S s' (w.drop n))
    (p : ReadProgram ε β α) (hs : S s w) (hfits : p.Fits b w)
    (h : p.onList e w = .ok (a, rest)) : ∃ s', p.exec rd s = some (.ok a, s') ∧ S s' rest := by
  induction p generalizing s w with
  | done a' =>
      cases h
      exact ⟨s, rfl, hs⟩
  | fail e' => cases h
  | read n k ih =>
      rw [onList_read] at h
      split at h
      case isTrue => cases h
      case isFalse hn =>
          obtain ⟨hb, hrest⟩ := hfits (Nat.not_lt.mp hn)
          obtain ⟨s', hr, hs'⟩ := hrd n s w hs (Nat.not_lt.mp hn) hb
          obtain ⟨s'', hexec, hs''⟩ := ih _ hs' hrest h
          refine ⟨s'', ?_, hs''⟩
          rw [exec, hr]
          exact hexec

/-- The list ends before the program does, which asks for at most `b` elements at a time. -/
def RunsOut (b : Nat) : ReadProgram ε β α → List β → Prop
  | done _, _ => False
  | fail _, _ => False
  | read n k, w => n ≤ b ∧ (w.length < n ∨ (k (w.take n)).RunsOut b (w.drop n))

instance decidableRunsOut (b : Nat) :
    (p : ReadProgram ε β α) → (w : List β) → Decidable (p.RunsOut b w)
  | done _, _ => inferInstanceAs (Decidable False)
  | fail _, _ => inferInstanceAs (Decidable False)
  | read n k, w =>
      have := decidableRunsOut b (k (w.take n)) (w.drop n)
      inferInstanceAs (Decidable (n ≤ b ∧ (w.length < n ∨ (k (w.take n)).RunsOut b (w.drop n))))

/-- **The end of the list.**  `P` holds of the states that a read leaves that asks for more than
there is. -/
theorem exec_of_runsOut {b : Nat} {S : σ → List β → Prop} {P : σ → Prop}
    (hrd : ∀ n s w, S s w → n ≤ w.length → n ≤ b →
      ∃ s', rd n s = some (.ok (w.take n), s') ∧ S s' (w.drop n))
    (hend : ∀ n s w, S s w → w.length < n → n ≤ b → ∃ e s', rd n s = some (.error e, s') ∧ P s')
    (p : ReadProgram ε β α) (hs : S s w) (h : p.RunsOut b w) :
    ∃ e s', p.exec rd s = some (.error e, s') ∧ P s' := by
  induction p generalizing s w with
  | done a => exact absurd h id
  | fail e => exact absurd h id
  | read n k ih =>
      obtain ⟨hb, hrest⟩ := h
      rw [exec]
      rcases Nat.lt_or_ge w.length n with hshort | hlong
      · obtain ⟨e, s', hr, hs'⟩ := hend n s w hs hshort hb
        rw [hr]
        exact ⟨e, s', rfl, hs'⟩
      · obtain ⟨s', hr, hs'⟩ := hrd n s w hs hlong hb
        rw [hr]
        exact ih _ hs' (hrest.resolve_left (Nat.not_lt.mpr hlong))

end ReadProgram
