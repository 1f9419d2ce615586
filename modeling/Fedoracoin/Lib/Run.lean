import Mathlib.Algebra.Order.BigOperators.Group.List
import Mathlib.Algebra.Order.Ring.Int

/-!
# Runs of labelled steps

A step relation on states, each step carrying a label, and the runs of it.  Seven rules:

* `Run.invariant`: what every step preserves, a run preserves;
* `Run.iff_forall`: what every step with a good label keeps, and every other step ends for
  good, holds after a run exactly if all its labels are good;
* `Run.prefix_iff_forall`: for a step function, what exactly the steps with a good label keep
  holds all along a run exactly if all its labels are good;
* `Run.Guarded.invariant`: for a step function, what the steps that meet a guard preserve holds
  wherever a guarded run comes by;
* `Run.add_sum_le`: a quantity that a step with label `i` lowers by at least `g i` is
  lowered by a run by at least the sum over its labels;
* `Run.undoAll_invariant`: what undoing each label preserves, undoing them all preserves;
* `Run.rollback`: if every step can be undone from its label, up to a relation `R`
  between the state before and the state reached, then a run is undone by undoing its
  labels last to first.
-/

variable {σ τ ι κ ε : Type*}

/-- `Run Step s l s'`: the steps labelled `l` lead from `s` to `s'`. -/
inductive Run (Step : σ → ι → σ → Prop) : σ → List ι → σ → Prop
  | nil (s : σ) : Run Step s [] s
  | cons {s s₁ s' : σ} {i : ι} {l : List ι} (hstep : Step s i s₁) (hrun : Run Step s₁ l s') :
      Run Step s (i :: l) s'

namespace Run

variable {Step : σ → ι → σ → Prop} {s s' s'' : σ} {l l' : List ι} {i : ι}

theorem nil_iff : Run Step s [] s' ↔ s' = s := by
  constructor
  · intro h
    cases h
    rfl
  · rintro rfl
    exact .nil _

theorem cons_iff : Run Step s (i :: l) s' ↔ ∃ s₁, Step s i s₁ ∧ Run Step s₁ l s' := by
  constructor
  · intro h
    cases h with
    | cons hstep hrun => exact ⟨_, hstep, hrun⟩
  · rintro ⟨s₁, hstep, hrun⟩
    exact .cons hstep hrun

theorem append (h : Run Step s l s') (h' : Run Step s' l' s'') : Run Step s (l ++ l') s'' := by
  induction h with
  | nil => exact h'
  | cons hstep _ ih => exact .cons hstep (ih h')

theorem append_iff : Run Step s (l ++ l') s' ↔ ∃ s₁, Run Step s l s₁ ∧ Run Step s₁ l' s' := by
  constructor
  · intro h
    induction l generalizing s with
    | nil => exact ⟨s, .nil s, h⟩
    | cons i l ih =>
        obtain ⟨s₁, hstep, h⟩ := cons_iff.mp h
        obtain ⟨s₂, hrun, hrest⟩ := ih h
        exact ⟨s₂, .cons hstep hrun, hrest⟩
  · rintro ⟨s₁, hrun, hrest⟩
    exact hrun.append hrest

/-- A run of a step function. -/
theorem of_foldlM {step : σ → ι → Option σ} (h : l.foldlM step s = some s') :
    Run (fun s i s' ↦ step s i = some s') s l s' := by
  induction l generalizing s with
  | nil =>
      obtain rfl := Option.some.inj h
      exact .nil s
  | cons i l ih =>
      rw [List.foldlM_cons] at h
      obtain ⟨s₁, hstep, hrest⟩ := Option.bind_eq_some_iff.mp h
      exact .cons hstep (ih hrest)

/-- Every label of a run is that of a step. -/
theorem exists_step (h : Run Step s l s') (hi : i ∈ l) : ∃ s₁ s₂, Step s₁ i s₂ := by
  obtain ⟨l₁, l₂, rfl⟩ := List.append_of_mem hi
  obtain ⟨s₁, -, h⟩ := append_iff.mp h
  obtain ⟨s₂, hstep, -⟩ := cons_iff.mp h
  exact ⟨s₁, s₂, hstep⟩

/-- What every step preserves, a run preserves. -/
theorem invariant {I : σ → Prop} (hstep : ∀ s i s', I s → Step s i s' → I s')
    (h : Run Step s l s') (hs : I s) : I s' := by
  induction h with
  | nil => exact hs
  | cons hst _ ih => exact ih (hstep _ _ _ hs hst)

/-- The steps of a run may be strengthened by what its labels have in common. -/
theorem imp {Step' : σ → ι → σ → Prop} (h : Run Step s l s')
    (himp : ∀ s i s', i ∈ l → Step s i s' → Step' s i s') : Run Step' s l s' := by
  induction h with
  | nil => exact .nil _
  | cons hst _ ih =>
      refine .cons (himp _ _ _ (by simp) hst) (ih fun s i s' hi ↦ himp s i s' (by simp [hi]))

/-- A run of one system is a run of another. -/
theorem map {Step' : σ → κ → σ → Prop} {f : ι → κ} (h : Run Step s l s')
    (hmap : ∀ s i s', Step s i s' → Step' s (f i) s') : Run Step' s (l.map f) s' := by
  induction h with
  | nil => exact .nil _
  | cons hst _ ih => exact .cons (hmap _ _ _ hst) ih

/-- Every step of the runs from `s` to `s'` that are labelled `l`. -/
def Throughout (Step : σ → ι → σ → Prop) (P : σ → ι → σ → Prop) (s : σ) (l : List ι) (s' : σ) :
    Prop :=
  ∀ l₁ i l₂ s₁ s₂, l = l₁ ++ i :: l₂ → Run Step s l₁ s₁ → Step s₁ i s₂ → Run Step s₂ l₂ s' →
    P s₁ i s₂

theorem throughout_singleton {P : σ → ι → σ → Prop} (h : ∀ s₂, Step s i s₂ → P s i s₂) :
    Throughout Step P s [i] s' := by
  intro l₁ j l₂ s₁ s₂ hl hrun hstep _
  cases l₁ with
  | nil =>
      obtain rfl := nil_iff.mp hrun
      obtain ⟨rfl, -⟩ := List.cons.inj hl
      exact h s₂ hstep
  | cons k l₁ => exact absurd (List.cons.inj hl).2 (by simp)

/-- What is equivalent of every step is equivalent throughout a run. -/
theorem throughout_congr {P Q : σ → ι → σ → Prop}
    (h : ∀ s i s', Step s i s' → (P s i s' ↔ Q s i s')) :
    Throughout Step P s l s' ↔ Throughout Step Q s l s' := by
  constructor
  · exact fun hP l₁ i l₂ s₁ s₂ hl h₁ hst h₂ ↦ (h _ _ _ hst).mp (hP l₁ i l₂ s₁ s₂ hl h₁ hst h₂)
  · exact fun hQ l₁ i l₂ s₁ s₂ hl h₁ hst h₂ ↦ (h _ _ _ hst).mpr (hQ l₁ i l₂ s₁ s₂ hl h₁ hst h₂)

/-- What is kept exactly by the steps with a good label, and never comes back. -/
theorem iff_forall {I P : σ → Prop} {good : ι → Prop}
    (hstep : ∀ s i s', I s → Step s i s' → I s' ∧ (P s' ↔ P s ∧ good i))
    (h : Run Step s l s') (hs : I s) : P s' ↔ P s ∧ ∀ i ∈ l, good i := by
  induction h with
  | nil s =>
      rw [iff_self_and]
      exact nofun
  | cons hst _ ih =>
      obtain ⟨hs₁, hiff⟩ := hstep _ _ _ hs hst
      rw [ih hs₁, hiff, List.forall_mem_cons, and_assoc]

/-- What is kept exactly by the steps with a good label, and may come back. -/
theorem prefix_iff_forall {step : σ → ι → σ} {I P : σ → Prop} {good : ι → Prop}
    (hinv : ∀ s i, I s → I (step s i))
    (hgood : ∀ s i, I s → P s → (P (step s i) ↔ good i)) (hs : I s) :
    (∀ l', l' <+: l → P (l'.foldl step s)) ↔ P s ∧ ∀ i ∈ l, good i := by
  induction l generalizing s with
  | nil =>
      constructor
      · intro h
        exact ⟨h [] List.prefix_rfl, nofun⟩
      · rintro ⟨hP, -⟩ l' hl'
        obtain rfl := List.prefix_nil.mp hl'
        exact hP
  | cons i l ih =>
      constructor
      · intro h
        have hP := h [] List.nil_prefix
        have hrest := (ih (hinv s i hs)).mp fun l' hl' ↦
          h (i :: l') (List.cons_prefix_cons.mpr ⟨rfl, hl'⟩)
        exact ⟨hP, List.forall_mem_cons.mpr ⟨(hgood s i hs hP).mp hrest.1, hrest.2⟩⟩
      · rintro ⟨hP, hall⟩ l' hl'
        obtain ⟨hi, hrest⟩ := List.forall_mem_cons.mp hall
        cases l' with
        | nil => exact hP
        | cons j l' =>
            obtain ⟨rfl, htail⟩ := List.cons_prefix_cons.mp hl'
            exact (ih (hinv s j hs)).mpr ⟨(hgood s j hs hP).mpr hi, hrest⟩ l' htail

/-- Every step from `s` on meets the guard in the state that it is taken from. -/
def Guarded (step : σ → ι → σ) (guard : σ → ι → Prop) : σ → List ι → Prop
  | _, [] => True
  | s, i :: l => guard s i ∧ Guarded step guard (step s i) l

/-- What guarded steps preserve. -/
theorem Guarded.invariant {step : σ → ι → σ} {guard : σ → ι → Prop} {I : σ → Prop}
    (hstep : ∀ s i, I s → guard s i → I (step s i)) (h : Guarded step guard s l) (hs : I s) :
    (∀ l', l' <+: l → I (l'.foldl step s)) ∧
      ∀ l' i, l' ++ [i] <+: l → guard (l'.foldl step s) i := by
  induction l generalizing s with
  | nil =>
      refine ⟨fun l' hl' ↦ ?_, fun l' i hl' ↦ ?_⟩
      · obtain rfl := List.prefix_nil.mp hl'
        exact hs
      · exact absurd (List.prefix_nil.mp hl') (by simp)
  | cons j l ih =>
      obtain ⟨hj, hrest⟩ := h
      obtain ⟨hinv, hguard⟩ := ih hrest (hstep s j hs hj)
      constructor
      · intro l' hl'
        cases l' with
        | nil => exact hs
        | cons k l' =>
            obtain ⟨rfl, htail⟩ := List.cons_prefix_cons.mp hl'
            exact hinv l' htail
      · intro l' i hl'
        cases l' with
        | nil =>
            obtain ⟨rfl, -⟩ := List.cons_prefix_cons.mp hl'
            exact hj
        | cons k l' =>
            obtain ⟨rfl, htail⟩ := List.cons_prefix_cons.mp hl'
            exact hguard l' i htail

/-- A quantity lowered by each step by at least a function of its label. -/
theorem add_sum_le {f : σ → Int} {g : ι → Int} {I : σ → Prop}
    (hstep : ∀ s i s', I s → Step s i s' → I s' ∧ f s' + g i ≤ f s)
    (h : Run Step s l s') (hs : I s) : f s' + (l.map g).sum ≤ f s := by
  induction h with
  | nil => simp
  | cons hst _ ih =>
      obtain ⟨hs₁, hle⟩ := hstep _ _ _ hs hst
      have hrest := ih hs₁
      rw [List.map_cons, List.sum_cons]
      omega

/-- Undoes the labels of a run, last to first. -/
def undoAll (undo : τ → ι → Except ε τ) (t : τ) : List ι → Except ε τ
  | [] => .ok t
  | i :: l =>
      match undoAll undo t l with
      | .error e => .error e
      | .ok t => undo t i

/-- What undoing each label preserves, undoing them all preserves. -/
theorem undoAll_invariant {undo : τ → ι → Except ε τ} {I : τ → Prop} {t t' : τ}
    (hstep : ∀ t t', ∀ i ∈ l, I t → undo t i = .ok t' → I t')
    (h : undoAll undo t l = .ok t') (ht : I t) : I t' := by
  induction l generalizing t' with
  | nil =>
      obtain rfl := Except.ok.inj h
      exact ht
  | cons i l ih =>
      rw [undoAll] at h
      split at h
      case h_1 => cases h
      case h_2 t₁ hrest =>
        exact hstep t₁ t' i List.mem_cons_self
          (ih (fun t t' j hj ↦ hstep t t' j (List.mem_cons_of_mem _ hj)) hrest) h

/-- **Rollback.** -/
theorem rollback {undo : τ → ι → Except ε τ} {I : σ → Prop} {R : σ → τ → Prop}
    (hstep : ∀ s i s', I s → Step s i s' → I s' ∧
      ∀ t', R s' t' → ∃ t, undo t' i = .ok t ∧ R s t)
    (h : Run Step s l s') (hs : I s) {t' : τ} (ht : R s' t') :
    ∃ t, undoAll undo t' l = .ok t ∧ R s t := by
  induction h with
  | nil => exact ⟨t', rfl, ht⟩
  | cons hst _ ih =>
      obtain ⟨hs₁, hundo⟩ := hstep _ _ _ hs hst
      obtain ⟨t₁, hrest, ht₁⟩ := ih hs₁ ht
      obtain ⟨t, hlast, ht⟩ := hundo t₁ ht₁
      refine ⟨t, ?_, ht⟩
      rw [undoAll, hrest]
      exact hlast

end Run
