import Mathlib.Data.List.GetD

/-!
# Base 64 and base 32

`EncodeBase64`, `DecodeBase64`, `EncodeBase32` and `DecodeBase32`.  The four are loops over the
characters whose `mode` says how many bits wait in `left`.  A string is the list of its characters;
what is behind its end is the terminating NUL, which is in no alphabet.
-/

namespace Fedoracoin

/-! ## Encoders -/

structure EncodeState where
  mode : Nat := 0
  left : Nat := 0
  strRet : List UInt8 := []

def pbase64 : List UInt8 :=
  "ABCDEFGHIJKLMNOPQRSTUVWXYZabcdefghijklmnopqrstuvwxyz0123456789+/".toList.map Char.toUInt8

def char64 (i : Nat) : UInt8 := pbase64.getD i 0

def encode64Step (s : EncodeState) (enc : Nat) : EncodeState :=
  match s.mode with
  | 0 =>  -- we have no bits
      { mode := 1, left := (enc &&& 3) <<< 4, strRet := s.strRet ++ [char64 (enc >>> 2)] }
  | 1 =>  -- we have two bits
      { mode := 2, left := (enc &&& 15) <<< 2,
        strRet := s.strRet ++ [char64 (s.left ||| enc >>> 4)] }
  | 2 =>  -- we have four bits
      { s with
        mode := 0
        strRet := s.strRet ++ [char64 (s.left ||| enc >>> 6)] ++ [char64 (enc &&& 63)] }
  | _ => s

def encodeBase64 (pch : List UInt8) : List UInt8 :=
  let s := pch.foldl (fun s b ↦ encode64Step s b.toNat) {}
  if s.mode ≠ 0 then
    let strRet := s.strRet ++ [char64 s.left] ++ ['='.toUInt8]
    if s.mode = 1 then strRet ++ ['='.toUInt8] else strRet
  else s.strRet

def pbase32 : List UInt8 := "abcdefghijklmnopqrstuvwxyz234567".toList.map Char.toUInt8

def char32 (i : Nat) : UInt8 := pbase32.getD i 0

def encode32Step (s : EncodeState) (enc : Nat) : EncodeState :=
  match s.mode with
  | 0 =>  -- we have no bits
      { mode := 1, left := (enc &&& 7) <<< 2, strRet := s.strRet ++ [char32 (enc >>> 3)] }
  | 1 =>  -- we have three bits
      { mode := 2, left := (enc &&& 1) <<< 4,
        strRet := s.strRet ++ [char32 (s.left ||| enc >>> 6)] ++ [char32 (enc >>> 1 &&& 31)] }
  | 2 =>  -- we have one bit
      { mode := 3, left := (enc &&& 15) <<< 1,
        strRet := s.strRet ++ [char32 (s.left ||| enc >>> 4)] }
  | 3 =>  -- we have four bits
      { mode := 4, left := (enc &&& 3) <<< 3,
        strRet := s.strRet ++ [char32 (s.left ||| enc >>> 7)] ++ [char32 (enc >>> 2 &&& 31)] }
  | 4 =>  -- we have two bits
      { s with
        mode := 0
        strRet := s.strRet ++ [char32 (s.left ||| enc >>> 5)] ++ [char32 (enc &&& 31)] }
  | _ => s

def nPadding : List Nat := [0, 6, 4, 3, 1]

def encodeBase32 (pch : List UInt8) : List UInt8 :=
  let s := pch.foldl (fun s b ↦ encode32Step s b.toNat) {}
  if s.mode ≠ 0 then
    s.strRet ++ [char32 s.left] ++ List.replicate (nPadding.getD s.mode 0) '='.toUInt8
  else s.strRet

/-! ## Decoders -/

structure DecodeState where
  mode : Nat := 0
  left : Nat := 0
  vchRet : List UInt8 := []

/-- The value of a character, where a table has not -1. -/
def lookup (table : List Int) (c : UInt8) : Option Nat :=
  let dec := table.getD c.toNat (-1)
  if dec = -1 then none else some dec.toNat

/-- `while (1)`: what the loop has when it breaks, and what is left of the string. -/
def decodeLoop (table : UInt8 → Option Nat) (step : DecodeState → Nat → DecodeState) :
    DecodeState → List UInt8 → DecodeState × List UInt8
  | s, [] => (s, [])
  | s, c :: p =>
      match table c with
      | none => (s, c :: p)
      | some dec => decodeLoop table step (step s dec) p

/-- The first `n` characters are `=`, and the next is not in the alphabet. -/
def requirePadding (table : UInt8 → Option Nat) : (n : Nat) → List UInt8 → Bool
  | 0, [] => true
  | 0, c :: _ => (table c).isNone
  | _ + 1, [] => false
  | n + 1, c :: p => c = '='.toUInt8 && requirePadding table n p

def decode64Table : List Int :=
  [
    -1, -1, -1, -1, -1, -1, -1, -1, -1, -1, -1, -1, -1, -1, -1, -1, -1, -1, -1, -1,
    -1, -1, -1, -1, -1, -1, -1, -1, -1, -1, -1, -1, -1, -1, -1, -1, -1, -1, -1, -1,
    -1, -1, -1, 62, -1, -1, -1, 63, 52, 53, 54, 55, 56, 57, 58, 59, 60, 61, -1, -1,
    -1, -1, -1, -1, -1,  0,  1,  2,  3,  4,  5,  6,  7,  8,  9, 10, 11, 12, 13, 14,
    15, 16, 17, 18, 19, 20, 21, 22, 23, 24, 25, -1, -1, -1, -1, -1, -1, 26, 27, 28,
    29, 30, 31, 32, 33, 34, 35, 36, 37, 38, 39, 40, 41, 42, 43, 44, 45, 46, 47, 48,
    49, 50, 51, -1, -1, -1, -1, -1, -1, -1, -1, -1, -1, -1, -1, -1, -1, -1, -1, -1,
    -1, -1, -1, -1, -1, -1, -1, -1, -1, -1, -1, -1, -1, -1, -1, -1, -1, -1, -1, -1,
    -1, -1, -1, -1, -1, -1, -1, -1, -1, -1, -1, -1, -1, -1, -1, -1, -1, -1, -1, -1,
    -1, -1, -1, -1, -1, -1, -1, -1, -1, -1, -1, -1, -1, -1, -1, -1, -1, -1, -1, -1,
    -1, -1, -1, -1, -1, -1, -1, -1, -1, -1, -1, -1, -1, -1, -1, -1, -1, -1, -1, -1,
    -1, -1, -1, -1, -1, -1, -1, -1, -1, -1, -1, -1, -1, -1, -1, -1, -1, -1, -1, -1,
    -1, -1, -1, -1, -1, -1, -1, -1, -1, -1, -1, -1, -1, -1, -1, -1
  ]

def decode64Step (s : DecodeState) (dec : Nat) : DecodeState :=
  match s.mode with
  | 0 =>  -- we have no bits and get 6
      { s with mode := 1, left := dec }
  | 1 =>  -- we have 6 bits and keep 4
      { mode := 2, left := dec &&& 15,
        vchRet := s.vchRet ++ [UInt8.ofNat (s.left <<< 2 ||| dec >>> 4)] }
  | 2 =>  -- we have 4 bits and get 6, we keep 2
      { mode := 3, left := dec &&& 3,
        vchRet := s.vchRet ++ [UInt8.ofNat (s.left <<< 4 ||| dec >>> 2)] }
  | 3 =>  -- we have 2 bits and get 6
      { s with mode := 0, vchRet := s.vchRet ++ [UInt8.ofNat (s.left <<< 6 ||| dec)] }
  | _ => s

/-- `*pfInvalid`, from the mode and the rest of the string. -/
def invalid64 (s : DecodeState) (p : List UInt8) : Bool :=
  match s.mode with
  | 0 => false  -- 4n base64 characters processed: ok
  | 1 => true  -- 4n+1 base64 character processed: impossible
  | 2 => s.left ≠ 0 || !requirePadding (lookup decode64Table) 2 p
  | 3 => s.left ≠ 0 || !requirePadding (lookup decode64Table) 1 p
  | _ => false

/-- The bytes, and `*pfInvalid`. -/
def decodeBase64 (p : List UInt8) : List UInt8 × Bool :=
  let r := decodeLoop (lookup decode64Table) decode64Step {} p
  (r.1.vchRet, invalid64 r.1 r.2)

def decode32Table : List Int :=
  [
    -1, -1, -1, -1, -1, -1, -1, -1, -1, -1, -1, -1, -1, -1, -1, -1, -1, -1, -1, -1,
    -1, -1, -1, -1, -1, -1, -1, -1, -1, -1, -1, -1, -1, -1, -1, -1, -1, -1, -1, -1,
    -1, -1, -1, -1, -1, -1, -1, -1, -1, -1, 26, 27, 28, 29, 30, 31, -1, -1, -1, -1,
    -1, -1, -1, -1, -1,  0,  1,  2,  3,  4,  5,  6,  7,  8,  9, 10, 11, 12, 13, 14,
    15, 16, 17, 18, 19, 20, 21, 22, 23, 24, 25, -1, -1, -1, -1, -1, -1,  0,  1,  2,
    3,  4,  5,  6,  7,  8,  9, 10, 11, 12, 13, 14, 15, 16, 17, 18, 19, 20, 21, 22,
    23, 24, 25, -1, -1, -1, -1, -1, -1, -1, -1, -1, -1, -1, -1, -1, -1, -1, -1, -1,
    -1, -1, -1, -1, -1, -1, -1, -1, -1, -1, -1, -1, -1, -1, -1, -1, -1, -1, -1, -1,
    -1, -1, -1, -1, -1, -1, -1, -1, -1, -1, -1, -1, -1, -1, -1, -1, -1, -1, -1, -1,
    -1, -1, -1, -1, -1, -1, -1, -1, -1, -1, -1, -1, -1, -1, -1, -1, -1, -1, -1, -1,
    -1, -1, -1, -1, -1, -1, -1, -1, -1, -1, -1, -1, -1, -1, -1, -1, -1, -1, -1, -1,
    -1, -1, -1, -1, -1, -1, -1, -1, -1, -1, -1, -1, -1, -1, -1, -1, -1, -1, -1, -1,
    -1, -1, -1, -1, -1, -1, -1, -1, -1, -1, -1, -1, -1, -1, -1, -1
  ]

def decode32Step (s : DecodeState) (dec : Nat) : DecodeState :=
  match s.mode with
  | 0 =>  -- we have no bits and get 5
      { s with mode := 1, left := dec }
  | 1 =>  -- we have 5 bits and keep 2
      { mode := 2, left := dec &&& 3,
        vchRet := s.vchRet ++ [UInt8.ofNat (s.left <<< 3 ||| dec >>> 2)] }
  | 2 =>  -- we have 2 bits and keep 7
      { s with mode := 3, left := s.left <<< 5 ||| dec }
  | 3 =>  -- we have 7 bits and keep 4
      { mode := 4, left := dec &&& 15,
        vchRet := s.vchRet ++ [UInt8.ofNat (s.left <<< 1 ||| dec >>> 4)] }
  | 4 =>  -- we have 4 bits, and keep 1
      { mode := 5, left := dec &&& 1,
        vchRet := s.vchRet ++ [UInt8.ofNat (s.left <<< 4 ||| dec >>> 1)] }
  | 5 =>  -- we have 1 bit, and keep 6
      { s with mode := 6, left := s.left <<< 5 ||| dec }
  | 6 =>  -- we have 6 bits, and keep 3
      { mode := 7, left := dec &&& 7,
        vchRet := s.vchRet ++ [UInt8.ofNat (s.left <<< 2 ||| dec >>> 3)] }
  | 7 =>  -- we have 3 bits, and keep 0
      { s with mode := 0, vchRet := s.vchRet ++ [UInt8.ofNat (s.left <<< 5 ||| dec)] }
  | _ => s

def invalid32 (s : DecodeState) (p : List UInt8) : Bool :=
  match s.mode with
  | 0 => false  -- 8n base32 characters processed: ok
  | 1 | 3 | 6 => true  -- 8n+1, +3, +6 base32 characters processed: impossible
  | 2 => s.left ≠ 0 || !requirePadding (lookup decode32Table) 6 p
  | 4 => s.left ≠ 0 || !requirePadding (lookup decode32Table) 4 p
  | 5 => s.left ≠ 0 || !requirePadding (lookup decode32Table) 3 p
  | 7 => s.left ≠ 0 || !requirePadding (lookup decode32Table) 1 p
  | _ => false

def decodeBase32 (p : List UInt8) : List UInt8 × Bool :=
  let r := decodeLoop (lookup decode32Table) decode32Step {} p
  (r.1.vchRet, invalid32 r.1 r.2)

end Fedoracoin
