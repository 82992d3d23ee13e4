import Cb.Text.Bytes

/-! A 64-bit hash of contents (XXH64 with seed 0): four lanes over blocks of 32 bytes, then the rest
by eight, by four and one by one. -/

namespace Cb.Hash

def prime1 : UInt64 := 11400714785074694791
def prime2 : UInt64 := 14029467366897019727
def prime3 : UInt64 := 1609587929392839161
def prime4 : UInt64 := 9650029242287828579
def prime5 : UInt64 := 2870177450012600261

def rotate (word : UInt64) (count : UInt64) : UInt64 := (word <<< count) ||| (word >>> (64 - count))

def number (bytes : Bytes) : UInt64 := bytes.foldr (fun b high => (high <<< 8) ||| b.toUInt64) 0

def mix (lane word : UInt64) : UInt64 := rotate (lane + word * prime2) 31 * prime1

structure Lanes where
  first : UInt64 := prime1 + prime2
  second : UInt64 := prime2
  third : UInt64 := 0
  fourth : UInt64 := 0 - prime1

def Lanes.absorb (lanes : Lanes) (bytes : Bytes) : Nat → Lanes × Bytes
  | 0 => (lanes, bytes)
  | count + 1 =>
    let word (index : Nat) : UInt64 := number ((bytes.drop (8 * index)).take 8)
    let mixed : Lanes :=
      ⟨mix lanes.first (word 0), mix lanes.second (word 1), mix lanes.third (word 2), mix lanes.fourth (word 3)⟩
    mixed.absorb (bytes.drop 32) count

def Lanes.merged (lanes : Lanes) : UInt64 :=
  let merge (total lane : UInt64) : UInt64 := (total ^^^ mix 0 lane) * prime1 + prime4
  let total := rotate lanes.first 1 + rotate lanes.second 7 + rotate lanes.third 12 + rotate lanes.fourth 18
  merge (merge (merge (merge total lanes.first) lanes.second) lanes.third) lanes.fourth

def addWords (total : UInt64) (bytes : Bytes) : Nat → UInt64 × Bytes
  | 0 => (total, bytes)
  | count + 1 =>
    addWords (rotate (total ^^^ mix 0 (number (bytes.take 8))) 27 * prime1 + prime4) (bytes.drop 8) count

def addRest (total : UInt64) (bytes : Bytes) : UInt64 :=
  let (total, bytes) := if bytes.length < 4 then (total, bytes)
    else (rotate (total ^^^ number (bytes.take 4) * prime1) 23 * prime2 + prime3, bytes.drop 4)
  bytes.foldl (fun total b => rotate (total ^^^ b.toUInt64 * prime5) 11 * prime1) total

/-- Lets every bit of the input reach every bit of the result. -/
def finish (total : UInt64) : UInt64 :=
  let total := (total ^^^ (total >>> 33)) * prime2
  let total := (total ^^^ (total >>> 29)) * prime3
  total ^^^ (total >>> 32)

def of (bytes : Bytes) : UInt64 :=
  let size := bytes.length
  let (start, rest) := if size < 32 then (prime5, bytes)
    else
      let (lanes, rest) := ({} : Lanes).absorb bytes (size / 32)
      (lanes.merged, rest)
  let (total, rest) := addWords (start + size.toUInt64) rest (size % 32 / 8)
  finish (addRest total rest)

def text (bytes : Bytes) : Bytes := Bytes.hex (of bytes).toNat

end Cb.Hash
