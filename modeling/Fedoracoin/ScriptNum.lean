import Fedoracoin.BigNum
import Fedoracoin.Lib.Wire
import Mathlib.Tactic.IntervalCases

/-!
# Numbers and truth values of scripts

`CScriptNum`, `CastToBool` and `CastToBigNum`.  An element of the stack is a byte string; read as a
number it is little-endian, with the sign in the highest bit.  A number that is read has at most
four bytes, so that no sum or difference comes near the bounds of an `int64_t`, and a number is an
integer.  An exception is `none`: the interpreters catch it.
-/

namespace Fedoracoin

open Wire

/-- `valtype`. -/
abbrev Valtype := List UInt8

def vchFalse : Valtype := []
def vchTrue : Valtype := [1]

/-- Any byte that is not zero, but not a negative zero. -/
def castToBool : Valtype → Bool
  | [] => false
  | [b] => b != 0 && b != 0x80
  | b :: vch => b != 0 || castToBool vch

/-- The sign, and the bits below it. -/
def signedOfBytes (vch : Valtype) : Int :=
  match vch.getLast? with
  | none => 0
  | some back =>
      if back &&& 0x80 != 0 then -((ofBytes vch % 2 ^ (8 * vch.length - 1) : Nat) : Int)
      else ofBytes vch

abbrev CScriptNum := Int

namespace CScriptNum

def nMaxNumSize : Nat := 4

def setVch (vch : Valtype) : CScriptNum := signedOfBytes vch

/-- The constructor, which throws. -/
def ofVch (vch : Valtype) : Option CScriptNum :=
  if nMaxNumSize < vch.length then none else some (setVch vch)

/-- Clamped to the range of an `int`. -/
def getint (n : Int) : Int := max (-2 ^ 31) (min (2 ^ 31 - 1) n)

/-- The bytes of an `uint64_t`, as far as they are not zero. -/
def absBytes : (k absvalue : Nat) → List UInt8
  | 0, _ => []
  | k + 1, absvalue =>
      if absvalue = 0 then [] else UInt8.ofNat absvalue :: absBytes k (absvalue / 256)

def serialize (value : Int) : Valtype :=
  let result := absBytes 8 value.natAbs
  match result.getLast? with
  | none => []
  | some back =>
      if back &&& 0x80 != 0 then result ++ [if value < 0 then 0x80 else 0]
      else if value < 0 then result.dropLast ++ [back ||| 0x80]
      else result

def ofBool (b : Bool) : CScriptNum := if b then 1 else 0

end CScriptNum

/-- `BN_mpi2bn`, of the bytes in reverse order. -/
def CBigNum.setvch (vch : Valtype) : CBigNum := signedOfBytes vch

def CBigNum.getint (bn : Int) : Int :=
  if 0 ≤ bn then if 2 ^ 31 - 1 < bn.natAbs then 2 ^ 31 - 1 else bn
  else if 2 ^ 31 - 1 < bn.natAbs then -2 ^ 31 else bn

/-- `CastToBigNum`.  That the number is written and read again takes leading zeros away. -/
def castToBigNum (vch : Valtype) : Option CBigNum :=
  if CScriptNum.nMaxNumSize < vch.length then none else some (CBigNum.setvch vch)

/-! ## The two readings of a number agree -/

theorem CBigNum.getint_eq (n : Int) : CBigNum.getint n = CScriptNum.getint n := by
  rw [CBigNum.getint, CScriptNum.getint]
  split
  case isTrue =>
    split
    case isTrue => omega
    case isFalse => omega
  case isFalse =>
    split
    case isTrue => omega
    case isFalse => omega

theorem castToBigNum_getint (vch : Valtype) :
    (castToBigNum vch).map CBigNum.getint = (CScriptNum.ofVch vch).map CScriptNum.getint := by
  rw [castToBigNum, CScriptNum.ofVch]
  split
  case isTrue => rfl
  case isFalse => exact congrArg some (CBigNum.getint_eq _)

/-! ## Small numbers -/

/-- What `OP_1` to `OP_16` push is read again. -/
theorem CScriptNum.getint_serialize {n : Nat} (h : n ≤ 16) :
    (CScriptNum.ofVch (CScriptNum.serialize n)).map CScriptNum.getint = some (n : Int) := by
  interval_cases n <;> decide

end Fedoracoin
