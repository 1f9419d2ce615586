import Fedoracoin.Core
import Fedoracoin.Lib.Wire

/-!
# Reading a script

`GetOp2` and `FindAndDelete` of `CScript`.  An iterator into a script is the list of the bytes
from it to the end, so that `end() - pc` is its length.  A read that fails leaves the iterator
behind the bytes that were there: behind the opcode if the bytes of the size are missing, and
behind the size if the data is.
-/

namespace Fedoracoin

open Wire

def opPushdata1 : UInt8 := 0x4c
def opPushdata2 : UInt8 := 0x4d
def opPushdata4 : UInt8 := 0x4e
def opCodeseparator : UInt8 := 0xab
def opInvalidopcode : UInt8 := 0xff

/-- What `GetOp2` returns and assigns. -/
structure OpRead where
  fRet : Bool
  opcodeRet : UInt8
  vchRet : List UInt8
  pc : List UInt8
deriving DecidableEq

/-- A read that fails. -/
def OpRead.fail (pc : List UInt8) : OpRead := ⟨false, opInvalidopcode, [], pc⟩

/-- The size of `k` bytes that follows an opcode, and the iterator behind it. -/
def readPushSize (k : Nat) (pc : List UInt8) : Option (Nat × List UInt8) :=
  if pc.length < k then none else some (ofBytes (pc.take k), pc.drop k)

/-- The size of what an opcode up to `OP_PUSHDATA4` pushes. -/
def getPushSize (opcode : UInt8) (pc : List UInt8) : Option (Nat × List UInt8) :=
  if opcode < opPushdata1 then some (opcode.toNat, pc)
  else if opcode = opPushdata1 then readPushSize 1 pc
  else if opcode = opPushdata2 then readPushSize 2 pc
  else readPushSize 4 pc

def getOp2 : List UInt8 → OpRead
  | [] => .fail []
  | opcode :: pc =>
      if opcode ≤ opPushdata4 then
        match getPushSize opcode pc with
        | none => .fail pc
        | some (nSize, pc) =>
            if pc.length < nSize then .fail pc
            else ⟨true, opcode, pc.take nSize, pc.drop nSize⟩
      else ⟨true, opcode, [], pc⟩

/-! ## What a read does to the iterator -/

variable {σ : Type} {opcode : UInt8} {pc pc' : List UInt8} {n m nSize : Nat}

theorem getPushSize_suffix (h : getPushSize opcode pc = some (nSize, pc')) : pc' <:+ pc := by
  have hread {k : Nat} (h : readPushSize k pc = some (nSize, pc')) : pc' <:+ pc := by
    rw [readPushSize] at h
    split at h
    case isTrue => cases h
    case isFalse =>
      obtain ⟨_, rfl⟩ := Prod.mk.inj (Option.some.inj h)
      exact List.drop_suffix k pc
  rw [getPushSize] at h
  split_ifs at h
  · obtain ⟨_, rfl⟩ := Prod.mk.inj (Option.some.inj h)
    exact List.suffix_refl pc
  · exact hread h
  · exact hread h
  · exact hread h

/-- A read takes the opcode and some of what follows. -/
theorem getOp2_cons_suffix (opcode : UInt8) (pc : List UInt8) :
    (getOp2 (opcode :: pc)).pc <:+ pc := by
  rw [getOp2]
  split
  case isTrue =>
    split
    case h_1 => exact List.suffix_refl pc
    case h_2 nSize pc' h =>
      split
      case isTrue => exact getPushSize_suffix h
      case isFalse => exact (List.drop_suffix nSize pc').trans (getPushSize_suffix h)
  case isFalse => exact List.suffix_refl pc

theorem getOp2_suffix (pc : List UInt8) : (getOp2 pc).pc <:+ pc := by
  cases pc with
  | nil => exact List.suffix_refl []
  | cons opcode pc => exact (getOp2_cons_suffix opcode pc).trans (List.suffix_cons opcode pc)

/-- A read that succeeds takes at least a byte. -/
theorem length_getOp2_lt (h : (getOp2 pc).fRet = true) : (getOp2 pc).pc.length < pc.length := by
  cases pc with
  | nil => exact absurd h (by simp [getOp2, OpRead.fail])
  | cons opcode pc => exact Nat.lt_succ_of_le (getOp2_cons_suffix opcode pc).length_le

/-- **Induction along a script**, from where reading fails. -/
@[elab_as_elim]
theorem getOp2_induct {P : List UInt8 → Prop}
    (stop : ∀ pc, (getOp2 pc).fRet = false → P pc)
    (read : ∀ pc, (getOp2 pc).fRet = true → P (getOp2 pc).pc → P pc) (pc : List UInt8) : P pc := by
  induction hn : pc.length using Nat.strongRecOn generalizing pc with
  | ind n ih =>
      cases hread : (getOp2 pc).fRet with
      | false => exact stop pc hread
      | true => exact read pc hread (ih _ (hn ▸ length_getOp2_lt hread) _ rfl)

/-! ## Reading a script to its end -/

/-- At most `n` rounds of `while (GetOp(pc, opcode))`, with the body's variables. -/
def opLoop (body : OpRead → σ → σ) : (n : Nat) → List UInt8 → σ → List UInt8 × σ
  | 0, pc, s => (pc, s)
  | n + 1, pc, s =>
      let op := getOp2 pc
      if op.fRet then opLoop body n op.pc (body op s) else (op.pc, s)

/-- `while (GetOp(pc, opcode))`: where the iterator ends, and the body's variables. -/
def whileGetOp (body : OpRead → σ → σ) (pc : List UInt8) (s : σ) : List UInt8 × σ :=
  opLoop body pc.length pc s

/-- The bytes behind the point where reading a script fails. -/
def readEnd (script : CScript) : List UInt8 :=
  (whileGetOp (fun _ s ↦ s) script ()).1

theorem opLoop_stop {body : OpRead → σ → σ} {s : σ} (h : (getOp2 pc).fRet = false)
    (hn : pc.length ≤ n) : opLoop body n pc s = ((getOp2 pc).pc, s) := by
  cases n with
  | zero =>
      obtain rfl := List.eq_nil_of_length_eq_zero (Nat.le_zero.mp hn)
      rfl
  | succ n =>
      rw [opLoop, h]
      rfl

theorem opLoop_read {body : OpRead → σ → σ} {s : σ} (h : (getOp2 pc).fRet = true) :
    opLoop body (n + 1) pc s = opLoop body n (getOp2 pc).pc (body (getOp2 pc) s) := by
  rw [opLoop, if_pos h]

/-- The number of rounds does not matter if there is one for each byte. -/
theorem opLoop_eq {body : OpRead → σ → σ} {s : σ} (hn : pc.length ≤ n) :
    opLoop body n pc s = whileGetOp body pc s := by
  induction pc using getOp2_induct generalizing n s with
  | stop pc h => rw [whileGetOp, opLoop_stop h hn, opLoop_stop h (le_refl _)]
  | read pc h ih =>
      have hlt := length_getOp2_lt h
      obtain ⟨n, rfl⟩ := Nat.exists_eq_succ_of_ne_zero (Nat.ne_zero_of_lt (hlt.trans_le hn))
      obtain ⟨m, hm⟩ := Nat.exists_eq_succ_of_ne_zero (Nat.ne_zero_of_lt hlt)
      rw [whileGetOp, hm, opLoop_read h, opLoop_read h, ih (Nat.lt_succ_iff.mp (hlt.trans_le hn)),
        ih (Nat.lt_succ_iff.mp (hlt.trans_eq hm))]

theorem whileGetOp_stop {body : OpRead → σ → σ} {s : σ} (h : (getOp2 pc).fRet = false) :
    whileGetOp body pc s = ((getOp2 pc).pc, s) := opLoop_stop h (le_refl _)

theorem whileGetOp_read {body : OpRead → σ → σ} {s : σ} (h : (getOp2 pc).fRet = true) :
    whileGetOp body pc s = whileGetOp body (getOp2 pc).pc (body (getOp2 pc) s) := by
  have hlt := length_getOp2_lt h
  rw [← opLoop_eq (Nat.le_succ _), opLoop_read h, opLoop_eq hlt.le]

theorem whileGetOp_separator {body : OpRead → σ → σ} {s : σ} :
    whileGetOp body (opCodeseparator :: pc) s =
      whileGetOp body pc (body ⟨true, opCodeseparator, [], pc⟩ s) := whileGetOp_read rfl

theorem readEnd_stop (h : (getOp2 pc).fRet = false) : readEnd pc = (getOp2 pc).pc := by
  rw [readEnd, whileGetOp_stop h]

theorem readEnd_read (h : (getOp2 pc).fRet = true) : readEnd pc = readEnd (getOp2 pc).pc := by
  rw [readEnd, whileGetOp_read h]
  rfl

/-! ## Deleting from a script -/

/-- The bytes that a read takes. -/
def readBytes (pc : List UInt8) : List UInt8 := pc.take (pc.length - (getOp2 pc).pc.length)

/-- The inner loop of `FindAndDelete`, for at most `n` rounds, with `nFound`. -/
def eraseMatches (b : CScript) : (n : Nat) → (pc : List UInt8) → (nFound : Nat) → List UInt8 × Nat
  | 0, pc, nFound => (pc, nFound)
  | n + 1, pc, nFound =>
      if b.isPrefixOf pc then eraseMatches b n (pc.drop b.length) (nFound + 1) else (pc, nFound)

/-- The outer loop: `done` are the bytes before the iterator. -/
def findAndDeleteLoop (b : CScript) :
    (n : Nat) → (done pc : List UInt8) → (nFound : Nat) → CScript × Nat
  | 0, done, pc, nFound => (done ++ pc, nFound)
  | n + 1, done, pc, nFound =>
      let (pc, nFound) := eraseMatches b pc.length pc nFound
      if (getOp2 pc).fRet then
        findAndDeleteLoop b n (done ++ readBytes pc) (getOp2 pc).pc nFound
      else (done ++ pc, nFound)

/-- The script after `FindAndDelete`, and what it returns. -/
def findAndDelete (script b : CScript) : CScript × Nat :=
  if b = [] then (script, 0) else findAndDeleteLoop b (script.length + 1) [] script 0

/-! ## Deleting the separators -/

/-- A script without the operations that are separators; what cannot be read stays. -/
def dropSeparators (pc : List UInt8) : CScript :=
  if (getOp2 pc).fRet = true then
    (if (getOp2 pc).opcodeRet = opCodeseparator then [] else readBytes pc) ++
      dropSeparators (getOp2 pc).pc
  else pc
termination_by pc.length
decreasing_by exact length_getOp2_lt ‹_›

theorem dropSeparators_stop (h : (getOp2 pc).fRet = false) : dropSeparators pc = pc := by
  rw [dropSeparators, if_neg (by simp [h])]

theorem dropSeparators_read (h : (getOp2 pc).fRet = true)
    (hop : (getOp2 pc).opcodeRet ≠ opCodeseparator) :
    dropSeparators pc = readBytes pc ++ dropSeparators (getOp2 pc).pc := by
  rw [dropSeparators, if_pos h, if_neg hop]

theorem getOp2_separator (pc : List UInt8) :
    getOp2 (opCodeseparator :: pc) = ⟨true, opCodeseparator, [], pc⟩ := rfl

@[simp] theorem dropSeparators_separator (pc : List UInt8) :
    dropSeparators (opCodeseparator :: pc) = dropSeparators pc := by
  rw [dropSeparators, getOp2_separator, if_pos rfl, if_pos rfl, List.nil_append]

/-- A read operation has the first byte as its opcode. -/
theorem opcodeRet_of_getOp2 : (getOp2 (opcode :: pc)).fRet = true →
    (getOp2 (opcode :: pc)).opcodeRet = opcode := by
  rw [getOp2]
  split
  · split
    · exact fun h ↦ absurd h (by simp [OpRead.fail])
    · split
      · exact fun h ↦ absurd h (by simp [OpRead.fail])
      · exact fun _ ↦ rfl
  · exact fun _ ↦ rfl

theorem eq_separator_of_getOp2 (h : (getOp2 pc).fRet = true)
    (hop : (getOp2 pc).opcodeRet = opCodeseparator) :
    pc = opCodeseparator :: (getOp2 pc).pc := by
  cases pc with
  | nil => exact absurd h (by simp [getOp2, OpRead.fail])
  | cons opcode pc =>
      obtain rfl := (opcodeRet_of_getOp2 h).symm.trans hop
      rw [getOp2_separator]

/-- Induction along a script, with the separators told apart. -/
@[elab_as_elim]
theorem separator_induct {P : List UInt8 → Prop}
    (stop : ∀ pc, (getOp2 pc).fRet = false → P pc)
    (separator : ∀ pc, P pc → P (opCodeseparator :: pc))
    (read : ∀ pc, (getOp2 pc).fRet = true → (getOp2 pc).opcodeRet ≠ opCodeseparator →
      P (getOp2 pc).pc → P pc) (pc : List UInt8) : P pc := by
  induction pc using getOp2_induct with
  | stop pc h => exact stop pc h
  | read pc h ih =>
      by_cases hop : (getOp2 pc).opcodeRet = opCodeseparator
      · rw [eq_separator_of_getOp2 h hop]
        exact separator _ ih
      · exact read pc h hop ih

/-- What is read and what is left. -/
theorem readBytes_append (pc : List UInt8) : readBytes pc ++ (getOp2 pc).pc = pc := by
  have hdrop := List.suffix_iff_eq_drop.mp (getOp2_suffix pc)
  rw [readBytes]
  nth_rewrite 2 [hdrop]
  exact List.take_append_drop _ pc

/-- Erasing separators in front of the next operation. -/
theorem eraseMatches_separator (nFound : Nat) (hn : pc.length ≤ n) :
    dropSeparators (eraseMatches [opCodeseparator] n pc nFound).1 = dropSeparators pc ∧
      (eraseMatches [opCodeseparator] n pc nFound).1.length ≤ pc.length ∧
      (eraseMatches [opCodeseparator] n pc nFound).1.head? ≠ some opCodeseparator := by
  induction n generalizing pc nFound with
  | zero =>
      obtain rfl := List.eq_nil_of_length_eq_zero (Nat.le_zero.mp hn)
      exact ⟨rfl, le_refl _, by simp [eraseMatches]⟩
  | succ n ih =>
      cases pc with
      | nil => exact ⟨rfl, le_refl _, by simp [eraseMatches]⟩
      | cons opcode pc =>
          by_cases hop : opcode = opCodeseparator
          · subst hop
            obtain ⟨hdrop, hle, hhead⟩ := ih (nFound + 1) (Nat.le_of_succ_le_succ hn)
            rw [eraseMatches, if_pos (by simp)]
            refine ⟨?_, hle.trans (Nat.le_succ _), hhead⟩
            rw [dropSeparators_separator]
            exact hdrop
          · rw [eraseMatches, if_neg (by simpa using fun h ↦ hop h.symm)]
            exact ⟨rfl, le_refl _, by simpa using hop⟩

/-- The loop deletes the separators from the rest of the script. -/
theorem findAndDeleteLoop_separator (done : List UInt8) (nFound : Nat) (hn : pc.length < n) :
    (findAndDeleteLoop [opCodeseparator] n done pc nFound).1 = done ++ dropSeparators pc := by
  induction n generalizing done pc nFound with
  | zero => exact absurd hn (Nat.not_lt_zero _)
  | succ n ih =>
      obtain ⟨hdrop, hle, hhead⟩ := eraseMatches_separator nFound (le_refl pc.length)
      rw [findAndDeleteLoop, ← hdrop]
      generalize eraseMatches [opCodeseparator] pc.length pc nFound = p at hle hhead
      obtain ⟨pc', nFound'⟩ := p
      dsimp only at hle hhead ⊢
      cases hread : (getOp2 pc').fRet with
      | false => rw [dropSeparators_stop hread]; rfl
      | true =>
          have hop : (getOp2 pc').opcodeRet ≠ opCodeseparator := by
            intro hop
            rw [eq_separator_of_getOp2 hread hop] at hhead
            exact hhead rfl
          have hlt := length_getOp2_lt hread
          rw [if_pos rfl, ih _ _ (by omega), dropSeparators_read hread hop, List.append_assoc]

theorem findAndDelete_separator (script : CScript) :
    (findAndDelete script [opCodeseparator]).1 = dropSeparators script := by
  rw [findAndDelete, if_neg (List.cons_ne_nil _ _), findAndDeleteLoop_separator _ _
    (Nat.lt_succ_self _), List.nil_append]

end Fedoracoin
