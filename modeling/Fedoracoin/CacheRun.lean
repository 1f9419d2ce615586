import Fedoracoin.CoinsCache

/-!
# Runs of a coins cache

Calls on the uppermost of a stack of caches, compared with the same calls on one map.  A call
carries what it returned, so that a run of a cache (`CacheCall.Performs`) is a list of calls, and
the map either gives the same answers along the list (`PlainMap.AnswersAll`) or not.
-/

namespace Fedoracoin

open Overlay ViewMethods CCoinsViewCache

/-- A call on a cache with what it returned. -/
inductive CacheCall
  | getCoins (txid : Uint256) (coins : Option CCoins)
  | haveCoins (txid : Uint256) (fHave : Bool)
  | setCoins (txid : Uint256) (coins : CCoins)
  | modifyCoins (txid : Uint256) (change : CCoins → CCoins)
  | setBestBlock (hashBlockIn : Uint256)
  | getBestBlock (hashBlock : Uint256)
  | flush (fOk : Bool)

variable {σ : Type}

/-- The call leads from `s` to `s'`. -/
def CacheCall.Performs (V : ViewMethods σ) (s : CCoinsViewCache σ) (call : CacheCall)
    (s' : CCoinsViewCache σ) : Prop :=
  match call with
  | .getCoins txid coins => s.fetchCoins V txid = (coins, s')
  | .haveCoins txid fHave => s.haveCoins V txid = (fHave, s')
  | .setCoins txid coins => s.setCoins txid coins = s'
  | .modifyCoins txid change => s.modifyCoins V txid change = .ok s'
  | .setBestBlock hashBlockIn => s.setBestBlock hashBlockIn = s'
  | .getBestBlock hashBlock => s.getBestBlock V = (hashBlock, s')
  | .flush fOk => s.flush V = (fOk, s')

/-- A call that the null hash does not disturb: the null hash is not set over a best block of the
base, and coins are not flushed without a best block to a base that would forget its own. -/
def CacheCall.Safe (V : ViewMethods σ) (s : CCoinsViewCache σ) : CacheCall → Prop
  | .setBestBlock hashBlockIn => hashBlockIn ≠ 0 ∨ V.best s.base = 0
  | .flush _ => s.hashBlock ≠ 0 ∨ V.KeepsBest s.base
  | _ => True

def CacheCall.SafelyPerforms (V : ViewMethods σ) (s : CCoinsViewCache σ) (call : CacheCall)
    (s' : CCoinsViewCache σ) : Prop :=
  call.Performs V s s' ∧ call.Safe V s

/-! ## One map -/

structure PlainMap where
  coins : Uint256 → Option CCoins
  bestBlock : Uint256

namespace PlainMap

/-- What a view answers, as a map. -/
def ofView (V : ViewMethods σ) (s : σ) : PlainMap := ⟨V.look s, V.best s⟩

/-- The map after a call. -/
def after (P : PlainMap) : CacheCall → PlainMap
  | .setCoins txid coins => { P with coins := Function.update P.coins txid (some coins) }
  | .modifyCoins txid change =>
      { P with coins := Function.update P.coins txid ((P.coins txid).map change) }
  | .setBestBlock hashBlockIn => { P with bestBlock := hashBlockIn }
  | _ => P

/-- The call returned what the map holds, or nothing in place of pruned coins. -/
def Answers (P : PlainMap) : CacheCall → Prop
  | .getCoins txid coins => PrunesCoins coins (P.coins txid)
  | .haveCoins txid fHave => ∃ coins, PrunesCoins coins (P.coins txid) ∧ fHave = coins.isSome
  | .getBestBlock hashBlock => hashBlock = P.bestBlock
  | _ => True

def AnswersAll (P : PlainMap) : List CacheCall → Prop
  | [] => True
  | call :: calls => P.Answers call ∧ (P.after call).AnswersAll calls

/-- The map after all the calls. -/
def afterAll (P : PlainMap) (calls : List CacheCall) : PlainMap := calls.foldl after P

end PlainMap

/-- The view answers what the map holds. -/
structure ViewMethods.Refines (V : ViewMethods σ) (s : σ) (P : PlainMap) : Prop where
  look : ∀ txid, PrunesCoins (V.look s txid) (P.coins txid)
  best : V.best s = P.bestBlock

variable {V : ViewMethods σ} {s s' : CCoinsViewCache σ} {P : PlainMap} {call : CacheCall}
  {calls : List CacheCall}

theorem refines_ofView (V : ViewMethods σ) (s : σ) : V.Refines s (PlainMap.ofView V s) :=
  ⟨fun _ ↦ .refl _, rfl⟩

theorem ViewMethods.Refines.same {s s' : σ} (h : V.Refines s P) (hsame : V.Same s' s) :
    V.Refines s' P := by
  constructor
  · intro txid
    rw [hsame.1]
    exact h.look txid
  · rw [hsame.2, h.best]

/-- Setting coins. -/
theorem refines_setCoins (h : (methods V).Refines s P) (txid : Uint256) (coins : CCoins) :
    (methods V).Refines (s.setCoins txid coins) (P.after (.setCoins txid coins)) := by
  constructor
  · intro txid'
    rw [look_setCoins, PlainMap.after]
    dsimp only
    rcases eq_or_ne txid' txid with rfl | hne
    · rw [Function.update_self, Function.update_self]
      exact .refl _
    · rw [Function.update_of_ne hne, Function.update_of_ne hne]
      exact h.look txid'
  · rw [best_setCoins]
    exact h.best

/-- **One call.** -/
theorem refines_call (hV : V.Lawful) (h : (methods V).Refines s P) (hcall : call.Performs V s s')
    (hsafe : call.Safe V s) : P.Answers call ∧ (methods V).Refines s' (P.after call) := by
  cases call with
  | getCoins txid coins =>
      obtain ⟨rfl, rfl⟩ := Prod.mk.inj hcall.symm
      exact ⟨h.look txid, h.same (fetchCoins_same hV s txid)⟩
  | haveCoins txid fHave =>
      obtain ⟨rfl, rfl⟩ := Prod.mk.inj hcall.symm
      exact ⟨⟨_, h.look txid, rfl⟩, h.same (fetchCoins_same hV s txid)⟩
  | setCoins txid coins =>
      obtain rfl := hcall
      exact ⟨trivial, refines_setCoins h txid coins⟩
  | modifyCoins txid change =>
      refine ⟨trivial, ?_⟩
      have hlook := h.look txid
      have hsame := fetchCoins_same hV s txid
      change s.modifyCoins V txid change = .ok s' at hcall
      rw [modifyCoins] at hcall
      rw [← fetchCoins_fst] at hlook
      generalize s.fetchCoins V txid = r at hcall hlook hsame
      obtain ⟨coins, s₁⟩ := r
      cases coins with
      | none => cases hcall
      | some coins =>
          obtain rfl := Except.ok.inj hcall
          have hset := refines_setCoins (h.same hsame) txid (change coins)
          rw [PlainMap.after, hlook.eq_some]
          exact hset
  | setBestBlock hashBlockIn =>
      obtain rfl := hcall
      refine ⟨trivial, ?_, ?_⟩
      · rw [look_setBestBlock]
        exact h.look
      · rw [best_methods]
        change (if hashBlockIn = 0 then V.best s.base else hashBlockIn) = hashBlockIn
        split
        case isTrue hnull => exact (hsafe.resolve_left (not_not.mpr hnull)).trans hnull.symm
        case isFalse => rfl
  | getBestBlock hashBlock =>
      obtain ⟨rfl, rfl⟩ := Prod.mk.inj hcall.symm
      exact ⟨h.best, h.same (getBestBlock_same hV s)⟩
  | flush fOk =>
      refine ⟨trivial, ?_⟩
      cases fOk with
      | false => exact h.same (flush_refused hV hcall)
      | true =>
          constructor
          · intro txid
            rw [look_of_flush hcall]
            exact (look_base_of_flush hV hcall txid).trans (h.look txid)
          · rw [best_of_flush hV hcall hsafe]
            exact h.best

/-- **A run.** -/
theorem refines_run (hV : V.Lawful) (h : (methods V).Refines s P)
    (hrun : Run (CacheCall.SafelyPerforms V) s calls s') :
    P.AnswersAll calls ∧ (methods V).Refines s' (P.afterAll calls) := by
  induction hrun generalizing P with
  | nil => exact ⟨trivial, h⟩
  | cons hstep _ ih =>
      obtain ⟨hanswers, hrefines⟩ := refines_call hV h hstep.1 hstep.2
      obtain ⟨hall, hrefines⟩ := ih hrefines
      exact ⟨⟨hanswers, hall⟩, hrefines⟩

/-! ## The best block of the base -/

/-- The best block has been read or set, so that the cache knows it, or there is none. -/
def CCoinsViewCache.Known (V : ViewMethods σ) (s : CCoinsViewCache σ) : Prop :=
  s.hashBlock ≠ 0 ∨ (methods V).best s = 0

/-- A call that reads or sets the best block. -/
def CacheCall.KnowsBest : CacheCall → Prop
  | .setBestBlock _ => True
  | .getBestBlock _ => True
  | _ => False

theorem hashBlock_fetchCoins (V : ViewMethods σ) (s : CCoinsViewCache σ) (txid : Uint256) :
    (s.fetchCoins V txid).2.hashBlock = s.hashBlock := by
  rw [fetchCoins]
  cases s.cacheCoins.lookup txid with
  | some coins => rfl
  | none =>
      cases V.getCoins s.base txid with
      | mk coins base => cases coins <;> rfl

/-- A best block that is read is kept. -/
theorem hashBlock_getBestBlock (V : ViewMethods σ) (s : CCoinsViewCache σ) :
    (s.getBestBlock V).2.hashBlock = (methods V).best s := by
  change _ = (s.getBestBlock V).1
  rw [CCoinsViewCache.getBestBlock]
  split
  · rfl
  · rfl

theorem CCoinsViewCache.Known.of_eq (h : Known V s) (hhash : s'.hashBlock = s.hashBlock)
    (hbest : (methods V).best s' = (methods V).best s) : Known V s' := by
  rw [Known, hhash, hbest]
  exact h

/-- A base that is written without a best block has none to forget. -/
theorem CCoinsViewCache.Known.safe (hV : V.Lawful) (h : Known V s) :
    s.hashBlock ≠ 0 ∨ V.KeepsBest s.base := by
  rw [or_iff_not_imp_left, not_not]
  intro hnull
  have hbest := h.resolve_left (not_not.mpr hnull)
  rw [best_methods, if_pos hnull] at hbest
  exact hV.keepsBest s.base hbest

/-- What is known stays known, and is known from a call that reads or sets it. -/
theorem known_call (hV : V.Lawful) (hcall : call.SafelyPerforms V s s')
    (h : Known V s ∨ call.KnowsBest) : Known V s' := by
  obtain ⟨hcall, hsafe⟩ := hcall
  cases call with
  | getCoins txid coins =>
      obtain ⟨_, rfl⟩ := Prod.mk.inj hcall.symm
      exact (h.resolve_right id).of_eq (hashBlock_fetchCoins V s txid) (fetchCoins_same hV s txid).2
  | haveCoins txid fHave =>
      obtain ⟨_, rfl⟩ := Prod.mk.inj hcall.symm
      exact (h.resolve_right id).of_eq (hashBlock_fetchCoins V s txid) (fetchCoins_same hV s txid).2
  | setCoins txid coins =>
      obtain rfl := hcall
      exact (h.resolve_right id).of_eq rfl (best_setCoins V s txid coins)
  | modifyCoins txid change =>
      change s.modifyCoins V txid change = .ok s' at hcall
      have hhash := hashBlock_fetchCoins V s txid
      have hsame := fetchCoins_same hV s txid
      rw [modifyCoins] at hcall
      generalize s.fetchCoins V txid = r at hcall hhash hsame
      obtain ⟨coins, s₁⟩ := r
      cases coins with
      | none => cases hcall
      | some coins =>
          obtain rfl := Except.ok.inj hcall
          exact (h.resolve_right id).of_eq hhash ((best_setCoins V s₁ _ _).trans hsame.2)
  | setBestBlock hashBlockIn =>
      obtain rfl := hcall
      rw [Known, best_methods]
      rcases eq_or_ne hashBlockIn 0 with rfl | hne
      · exact Or.inr ((if_pos rfl).trans (hsafe.resolve_left (not_not.mpr rfl)))
      · exact Or.inl hne
  | getBestBlock hashBlock =>
      obtain rfl : (s.getBestBlock V).2 = s' := congrArg Prod.snd hcall
      rw [Known, hashBlock_getBestBlock, (getBestBlock_same hV s).2]
      exact ne_or_eq _ _
  | flush fOk =>
      have hknown := h.resolve_right id
      cases fOk with
      | false =>
          have hhash : s'.hashBlock = s.hashBlock := congrArg (fun r ↦ r.2.hashBlock) hcall.symm
          exact hknown.of_eq hhash (flush_refused hV hcall).2
      | true =>
          exact hknown.of_eq (flush_written hcall).2.2.1 (best_of_flush hV hcall hsafe)

theorem known_run (hV : V.Lawful) (hrun : Run (CacheCall.SafelyPerforms V) s calls s')
    (h : Known V s ∨ ∃ call ∈ calls, call.KnowsBest) : Known V s' := by
  induction hrun with
  | nil =>
      rcases h with h | ⟨call, hmem, _⟩
      · exact h
      · exact absurd hmem List.not_mem_nil
  | cons hstep _ ih =>
      rcases h with h | ⟨call, hmem, hcall⟩
      · exact ih (Or.inl (known_call hV hstep (Or.inl h)))
      · rcases List.mem_cons.mp hmem with rfl | hmem
        · exact ih (Or.inl (known_call hV hstep (Or.inr hcall)))
        · exact ih (Or.inr ⟨call, hmem, hcall⟩)

/-! ## Stacks of caches -/

/-- However many caches there are on a view that keeps the laws, a run of calls on the uppermost,
which the null hash does not disturb, returns what the same calls return on one map laid over
what the stack answers at first, but for pruned coins that are gone; and behind a flush the base
alone answers as the cache did, with the best block if that was read or set before. -/
theorem cache_refines_map (V : ViewMethods σ) (hV : V.Lawful) (n : Nat)
    (s s' : CCoinsViewCache (Layers σ n)) (calls : List CacheCall)
    (hrun : Run (CacheCall.SafelyPerforms (layers V n)) s calls s') :
    (PlainMap.ofView (methods (layers V n)) s).AnswersAll calls ∧
    (methods (layers V n)).Refines s' ((PlainMap.ofView (methods (layers V n)) s).afterAll calls) ∧
    ∀ s'', s'.flush (layers V n) = (true, s'') →
      (∀ txid, PrunesCoins ((layers V n).look s''.base txid)
        ((methods (layers V n)).look s' txid)) ∧
      (∀ txid, ((layers V n).haveCoins s''.base txid).1 =
        ((layers V n).look s''.base txid).isSome) ∧
      ((∃ call ∈ calls, call.KnowsBest) →
        (layers V n).best s''.base = (methods (layers V n)).best s') := by
  have hlayers := layers_lawful hV n
  obtain ⟨hanswers, hrefines⟩ := refines_run hlayers (refines_ofView _ s) hrun
  refine ⟨hanswers, hrefines, fun s'' hflush ↦ ⟨?_, ?_, fun hknows ↦ ?_⟩⟩
  · exact look_base_of_flush hlayers hflush
  · exact hlayers.haveCoins_eq s''.base
  · exact best_base_of_flush hlayers hflush ((known_run hlayers hrun (Or.inr hknows)).safe hlayers)

/-- A new cache on a cache with a best block, on an empty database with another. -/
def stackedCaches : CCoinsViewCache (Layers CCoinsViewDB 1) where
  base := ({ base := ⟨fun _ ↦ none, some 2⟩, hashBlock := 1 } : CCoinsViewCache CCoinsViewDB)

/-- Coins that are written with their block. -/
theorem cache_refines_map_sample :
    (PlainMap.ofView (methods (layers CCoinsViewDB.methods 1)) stackedCaches).AnswersAll
      [.setCoins 7 { vout := [⟨5, []⟩] }, .setBestBlock 3, .flush true, .getBestBlock 3] :=
  (cache_refines_map CCoinsViewDB.methods CCoinsViewDB.methods_lawful 1 stackedCaches _
    [.setCoins 7 { vout := [⟨5, []⟩] }, .setBestBlock 3, .flush true, .getBestBlock 3]
    (.cons ⟨rfl, trivial⟩ (.cons ⟨rfl, Or.inl (by decide)⟩ (.cons ⟨rfl, Or.inl (by decide)⟩
      (.cons ⟨rfl, trivial⟩ (.nil _)))))).1

/-- A flush without a best block makes the cache below forget its own. -/
theorem flush_forgets_best :
    ¬ ∀ (σ : Type) (V : ViewMethods σ) (n : Nat) (s s' : CCoinsViewCache (Layers σ n))
      (calls : List CacheCall), V.Lawful →
      Run (CacheCall.Performs (layers V n)) s calls s' →
      (PlainMap.ofView (methods (layers V n)) s).AnswersAll calls := by
  intro hall
  have h := hall _ CCoinsViewDB.methods 1 stackedCaches _ [.flush true, .getBestBlock 2]
    CCoinsViewDB.methods_lawful (.cons rfl (.cons rfl (.nil _)))
  have hbest : (2 : Uint256) = 1 := h.2.1
  cases hbest

/-- The null hash is read back as the best block of the base. -/
theorem setBestBlock_null_not_kept :
    ¬ ∀ (σ : Type) (V : ViewMethods σ) (n : Nat) (s s' : CCoinsViewCache (Layers σ n))
      (hashBlock : Uint256), V.Lawful →
      Run (CacheCall.Performs (layers V n)) s [.setBestBlock 0, .getBestBlock hashBlock] s' →
      (PlainMap.ofView (methods (layers V n)) s).AnswersAll
        [.setBestBlock 0, .getBestBlock hashBlock] := by
  intro hall
  have h := hall _ CCoinsViewDB.methods 1 stackedCaches _ 1 CCoinsViewDB.methods_lawful
    (.cons rfl (.cons rfl (.nil _)))
  have hbest : (1 : Uint256) = 0 := h.2.1
  cases hbest

end Fedoracoin
