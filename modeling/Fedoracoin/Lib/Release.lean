import Fedoracoin.Lib.Loop

/-!
# Nodes that wait for their parents

A pool of nodes, each with a key and the key of its parent.  Once a key is accepted, the nodes that
wait for it are submitted, in the order of the pool, and leave the pool; the keys of those that are
accepted join a queue, and the same is done for each of them.

`run_spec`: the queue runs empty, and what was submitted is what descends from the first key
through accepted nodes, each node once and after the parent it waits for.
-/

namespace Release

variable {ν κ ω : Type*}

/-- The pool, the keys whose nodes are to be submitted, and what was submitted with what came of
it. -/
structure State (ν κ ω : Type*) where
  world : ω
  pool : List ν
  queue : List κ
  tried : List (ν × Bool) := []

section

variable (key parent : ν → κ) (accept : ω → ν → ω × Bool)

/-- Submits nodes one after the other. -/
def tryAll : ω → List ν → ω × List (ν × Bool)
  | w, [] => (w, [])
  | w, x :: l =>
      let r := accept w x
      let rest := tryAll r.1 l
      (rest.1, (x, r.2) :: rest.2)

def acceptedKeys (tried : List (ν × Bool)) : List κ := (tried.filter (·.2)).map (key ·.1)

variable [DecidableEq κ] in
/-- Submits the nodes that wait for `k`. -/
def release (k : κ) (s : State ν κ ω) : State ν κ ω :=
  let r := tryAll accept s.world (s.pool.filter (parent · = k))
  { world := r.1
    pool := s.pool.filter (parent · ≠ k)
    queue := s.queue ++ acceptedKeys key r.2
    tried := s.tried ++ r.2 }

variable [DecidableEq κ] in
def body (s : State ν κ ω) : Option (State ν κ ω ⊕ State ν κ ω) :=
  match s.queue with
  | [] => some (.inl s)
  | k :: queue => some (.inr (release key parent accept k { s with queue := queue }))

/-! ## What a run has to do -/

/-- A node is due if its parent is the root or was accepted. -/
def Due (root : κ) (tried : List (ν × Bool)) (x : ν) : Prop :=
  parent x = root ∨ ∃ y, (y, true) ∈ tried ∧ key y = parent x

/-- What descends from the root through accepted nodes. -/
inductive Descends (root : κ) (pool : List ν) (tried : List (ν × Bool)) : ν → Prop
  | child {x : ν} (hx : x ∈ pool) (hparent : parent x = root) : Descends root pool tried x
  | next {x y : ν} (hy : Descends root pool tried y) (haccepted : (y, true) ∈ tried)
      (hx : x ∈ pool) (hparent : parent x = key y) : Descends root pool tried x

/-- Each node was submitted once or is left; it was submitted after its parent, and what is left is
not due. -/
structure Released (root : κ) (pool : List ν) (tried : List (ν × Bool)) (rest : List ν) :
    Prop where
  perm : (tried.map Prod.fst ++ rest).Perm pool
  parent_first : ∀ before x ok after, tried = before ++ (x, ok) :: after →
    Due key parent root before x
  not_due : ∀ x ∈ rest, ¬ Due key parent root tried x

/-- The same while the queue is not empty: what is left and due waits for something in the
queue. -/
structure Inv (root : κ) (pool : List ν) (s : State ν κ ω) : Prop where
  perm : (s.tried.map Prod.fst ++ s.pool).Perm pool
  parent_first : ∀ before x ok after, s.tried = before ++ (x, ok) :: after →
    Due key parent root before x
  queued : ∀ x ∈ s.pool, Due key parent root s.tried x → parent x ∈ s.queue
  queue : ∀ k ∈ s.queue, k = root ∨ ∃ y, (y, true) ∈ s.tried ∧ key y = k

end

variable {key parent : ν → κ} {accept : ω → ν → ω × Bool} {root k : κ} {pool rest l : List ν}
  {tried : List (ν × Bool)} {s : State ν κ ω} {w : ω} {x y : ν}

@[simp] theorem map_fst_tryAll : (tryAll accept w l).2.map Prod.fst = l := by
  induction l generalizing w with
  | nil => rfl
  | cons x l ih => rw [tryAll, List.map_cons, ih]

theorem length_acceptedKeys_le (key : ν → κ) (tried : List (ν × Bool)) :
    (acceptedKeys key tried).length ≤ tried.length := by
  rw [acceptedKeys, List.length_map]
  exact List.length_filter_le _ _

theorem mem_acceptedKeys : k ∈ acceptedKeys key tried ↔ ∃ y, (y, true) ∈ tried ∧ key y = k := by
  simp only [acceptedKeys, List.mem_map, List.mem_filter, Prod.exists]
  constructor
  · rintro ⟨y, ok, ⟨hmem, rfl⟩, hk⟩
    exact ⟨y, hmem, hk⟩
  · rintro ⟨y, hmem, hk⟩
    exact ⟨y, true, ⟨hmem, rfl⟩, hk⟩

theorem Due.mono {tried' : List (ν × Bool)} (h : Due key parent root tried x)
    (hsub : tried ⊆ tried') : Due key parent root tried' x :=
  h.imp id fun ⟨y, hmem, hk⟩ ↦ ⟨y, hsub hmem, hk⟩

theorem inv_start : Inv key parent root pool { world := w, pool := pool, queue := [root] } where
  perm := List.Perm.refl pool
  parent_first before x ok after h := absurd h (by simp)
  queued x _ hdue := by
    rcases hdue with hroot | ⟨y, hmem, -⟩
    · exact hroot ▸ List.mem_singleton_self root
    · exact absurd hmem List.not_mem_nil
  queue k hk := Or.inl (List.mem_singleton.mp hk)

theorem Released.descends_of_mem (h : Released key parent root pool tried rest)
    (hx : x ∈ tried.map Prod.fst) : Descends key parent root pool tried x := by
  -- by the place where it was submitted
  have hall : ∀ before after, tried = before ++ after → ∀ x ∈ before.map Prod.fst,
      Descends key parent root pool tried x := by
    intro before
    induction before using List.reverseRecOn with
    | nil => exact nofun
    | append_singleton before p ih =>
        intro after heq x hx
        rw [List.append_assoc, List.singleton_append] at heq
        rw [List.map_append, List.map_singleton] at hx
        rcases List.mem_append.mp hx with hx | hx
        · exact ih _ heq x hx
        · obtain rfl := List.mem_singleton.mp hx
          have hpool : p.1 ∈ pool := by
            apply h.perm.subset
            rw [heq]
            simp
          rcases h.parent_first before p.1 p.2 after heq with hroot | ⟨y, hy, hkey⟩
          · exact .child hpool hroot
          · refine .next (ih _ heq y (List.mem_map_of_mem hy)) ?_ hpool hkey.symm
            rw [heq]
            exact List.mem_append_left _ hy
  exact hall tried [] (List.append_nil tried).symm x hx

/-- What was submitted is what descends from the root through accepted nodes. -/
theorem Released.mem_iff (h : Released key parent root pool tried rest) :
    x ∈ tried.map Prod.fst ↔ Descends key parent root pool tried x := by
  refine ⟨h.descends_of_mem, fun hd ↦ ?_⟩
  have hcases : ∀ x ∈ pool, Due key parent root tried x → x ∈ tried.map Prod.fst := by
    intro x hx hdue
    rcases List.mem_append.mp (h.perm.mem_iff.mpr hx) with hx | hx
    · exact hx
    · exact absurd hdue (h.not_due x hx)
  cases hd with
  | child hx hparent => exact hcases x hx (Or.inl hparent)
  | next hy haccepted hx hparent => exact hcases x hx (Or.inr ⟨_, haccepted, hparent.symm⟩)

variable [DecidableEq κ]

/-- Submitting what waits for the front of the queue. -/
theorem Inv.release {queue : List κ} (h : Inv key parent root pool s)
    (hqueue : s.queue = k :: queue) :
    Inv key parent root pool (release key parent accept k { s with queue := queue }) := by
  rw [Release.release]
  have hfst : (tryAll accept s.world (s.pool.filter (parent · = k))).2.map Prod.fst =
      s.pool.filter (parent · = k) := map_fst_tryAll
  generalize tryAll accept s.world (s.pool.filter (parent · = k)) = r at hfst
  have hk : k = root ∨ ∃ y, (y, true) ∈ s.tried ∧ key y = k :=
    h.queue k (hqueue ▸ List.mem_cons_self)
  have hdue : ∀ x ok, (x, ok) ∈ r.2 → Due key parent root s.tried x := by
    intro x ok hx
    have hmem : x ∈ s.pool.filter (parent · = k) := hfst ▸ List.mem_map_of_mem hx
    have hparent : parent x = k := of_decide_eq_true (List.mem_filter.mp hmem).2
    rw [Due, hparent]
    exact hk
  constructor
  case perm =>
    dsimp only
    rw [List.map_append, hfst, List.append_assoc]
    refine List.Perm.trans (List.Perm.append_left _ ?_) h.perm
    have hsplit := List.filter_append_perm (fun x ↦ decide (parent x = k)) s.pool
    simpa only [decide_not] using hsplit
  case parent_first =>
    intro before x ok after heq
    rcases List.append_eq_append_iff.mp heq with ⟨new, rfl, hr⟩ | ⟨old, htried, hold⟩
    · exact (hdue x ok (by rw [hr]; simp)).mono (List.subset_append_left _ _)
    · cases old with
      | nil =>
          rw [List.append_nil] at htried
          exact htried ▸ hdue x ok (by rw [← List.nil_append r.2, ← hold]; simp)
      | cons p old =>
          obtain ⟨rfl, -⟩ := List.cons.inj hold
          exact h.parent_first before x ok old htried
  case queued =>
    intro x hx hdue
    obtain ⟨hmem, hne⟩ := List.mem_filter.mp hx
    have hne : parent x ≠ k := of_decide_eq_true hne
    have hold : ∀ hd : Due key parent root s.tried x, parent x ∈ queue := by
      intro hd
      have hq := h.queued x hmem hd
      rw [hqueue] at hq
      exact (List.mem_cons.mp hq).resolve_left hne
    apply List.mem_append.mpr
    rcases hdue with hroot | ⟨y, hy, hkey⟩
    · exact Or.inl (hold (Or.inl hroot))
    · rcases List.mem_append.mp hy with hy | hy
      · exact Or.inl (hold (Or.inr ⟨y, hy, hkey⟩))
      · exact Or.inr (mem_acceptedKeys.mpr ⟨y, hy, hkey⟩)
  case queue =>
    intro k' hk'
    rcases List.mem_append.mp hk' with hk' | hk'
    · exact (h.queue k' (hqueue ▸ List.mem_cons_of_mem k hk')).imp id
        fun ⟨y, hy, hkey⟩ ↦ ⟨y, List.mem_append_left _ hy, hkey⟩
    · obtain ⟨y, hy, hkey⟩ := mem_acceptedKeys.mp hk'
      exact Or.inr ⟨y, List.mem_append_right _ hy, hkey⟩

/-- Each round takes one key off the queue, and adds at most one for each node it takes off the
pool. -/
theorem length_release (key parent : ν → κ) (accept : ω → ν → ω × Bool) {queue : List κ}
    (hqueue : s.queue = k :: queue) :
    (release key parent accept k { s with queue := queue }).queue.length +
        (release key parent accept k { s with queue := queue }).pool.length <
      s.queue.length + s.pool.length := by
  have hsplit := (List.filter_append_perm (fun x ↦ decide (parent x = k)) s.pool).length_eq
  rw [List.length_append] at hsplit
  have hle := length_acceptedKeys_le key (tryAll accept s.world (s.pool.filter (parent · = k))).2
  have hlen : (tryAll accept s.world (s.pool.filter (parent · = k))).2.length =
      (s.pool.filter (parent · = k)).length := by
    rw [← List.length_map Prod.fst, map_fst_tryAll]
  rw [Release.release, hqueue]
  simp only [List.length_append, List.length_cons, ne_eq, decide_not]
  omega

/-- The queue runs empty, and everything that is due was submitted. -/
theorem run_spec (key parent : ν → κ) (accept : ω → ν → ω × Bool) (w : ω) (pool : List ν)
    (root : κ) :
    ∃ r, Loop.run (body key parent accept) (pool.length + 2)
        { world := w, pool := pool, queue := [root] } = some r ∧
      Released key parent root pool r.tried r.pool := by
  refine Loop.run_spec (I := Inv key parent root pool)
    (m := fun s ↦ s.queue.length + s.pool.length) ?_ inv_start ?_
  · intro s hs
    rw [body]
    cases hqueue : s.queue with
    | nil =>
        refine Or.inl ⟨s, rfl, hs.perm, hs.parent_first, fun x hx hdue ↦ ?_⟩
        have hq := hs.queued x hx hdue
        rw [hqueue] at hq
        exact List.not_mem_nil hq
    | cons k queue =>
        refine Or.inr ⟨_, rfl, hs.release hqueue, ?_⟩
        have hlt := length_release key parent accept hqueue
        rwa [hqueue] at hlt
  · dsimp only [List.length_singleton]
    omega

end Release
