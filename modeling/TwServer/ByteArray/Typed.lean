import TwServer.ByteArray.Model

/-! The typed writers and readers of `ByteArray`, each a few calls of `write`
and `read`. Machine integers are bit vectors; a signed and an unsigned type of
one width share their bit patterns. -/

namespace TwServer
open Programs

namespace ByteArray

/-! ## Object representations on a little-endian host -/

/-- The `k` bytes of an integer as they lie in memory. -/
def object (k : Nat) (v : BitVec (8 * k)) : List UInt8 :=
  (List.range k).map fun i => UInt8.ofNat (v.toNat / 256 ^ i)

def ofObject (k : Nat) (bytes : List UInt8) : BitVec (8 * k) :=
  BitVec.ofNat _ (bytes.foldr (fun b acc => b.toNat + 256 * acc) 0)

/-- `bswap`: the same bytes in the opposite order. -/
def bswap (k : Nat) (v : BitVec (8 * k)) : BitVec (8 * k) := ofObject k (object k v).reverse

def htons (v : BitVec 16) : BitVec 16 := bswap 2 v
def ntohs (v : BitVec 16) : BitVec 16 := bswap 2 v
def htonl (v : BitVec 32) : BitVec 32 := bswap 4 v
def ntohl (v : BitVec 32) : BitVec 32 := bswap 4 v
def htonll (v : BitVec 64) : BitVec 64 := bswap 8 v
def ntohll (v : BitVec 64) : BitVec 64 := bswap 8 v

/-! ## Fixed-width writers -/

def writeFint8 (value : BitVec 8) : Program ByteArray Unit := write (object 1 value)
def writeFuin8 (value : BitVec 8) : Program ByteArray Unit := write (object 1 value)
def writeFint16 (value : BitVec 16) : Program ByteArray Unit := write (object 2 (htons value))
def writeFuint16 (value : BitVec 16) : Program ByteArray Unit := write (object 2 (htons value))
def writeFint32 (value : BitVec 32) : Program ByteArray Unit := write (object 4 (htonl value))
def writeFuint32 (value : BitVec 32) : Program ByteArray Unit := write (object 4 (htonl value))
def writeFint64 (value : BitVec 64) : Program ByteArray Unit := write (object 8 (htonll value))
def writeFuint64 (value : BitVec 64) : Program ByteArray Unit := write (object 8 (htonll value))

/-! ## Varint writers -/

def decodeZigzag32 (v : BitVec 32) : BitVec 32 := (v >>> 1) ^^^ (-(v &&& 1))
def decodeZigzag64 (v : BitVec 64) : BitVec 64 := (v >>> 1) ^^^ (-(v &&& 1))

/-- The `while(value >= 0x80)` loop with `room` bytes of `tmp` left; `none`
where it would store past the end of `tmp`. -/
def varintLoop {w : Nat} : Nat → BitVec w → Option (List UInt8)
  | 0, _ => none
  | room + 1, value =>
    if value.toNat ≥ 0x80 then
      (varintLoop room (value >>> 7)).map
        (UInt8.ofNat ((value &&& 0x7f#w) ||| 0x80#w).toNat :: ·)
    else some [UInt8.ofNat value.toNat]

def writeVarint {w : Nat} (room : Nat) (value : BitVec w) : Program ByteArray Unit :=
  match varintLoop room value with
  | none => Program.crash .outOfBounds
  | some tmp => write tmp

/-- `uint8_t tmp[5]`. -/
def wirteUint32 (value : BitVec 32) : Program ByteArray Unit := writeVarint 5 value

/-- `uint8_t tmp[10]`. -/
def writeUint64 (value : BitVec 64) : Program ByteArray Unit := writeVarint 10 value

-- both signed writers pass the value through the decoder
def writeInt32 (value : BitVec 32) : Program ByteArray Unit := wirteUint32 (decodeZigzag32 value)
def writeInt64 (value : BitVec 64) : Program ByteArray Unit := writeUint64 (decodeZigzag64 value)

/-! ## Floats, by their bits, and strings -/

def writeFloat (value : BitVec 32) : Program ByteArray Unit := writeFuint32 value
def writeDouble (value : BitVec 64) : Program ByteArray Unit := writeFuint64 value

def writeStringF16 (value : List UInt8) : Program ByteArray Unit := do
  writeFuint16 (BitVec.ofNat 16 value.length)
  write value

def writeStringF32 (value : List UInt8) : Program ByteArray Unit := do
  writeFuint32 (BitVec.ofNat 32 value.length)
  write value

def writeStringF64 (value : List UInt8) : Program ByteArray Unit := do
  writeFuint64 (BitVec.ofNat 64 value.length)
  write value

def writeStringVint (value : List UInt8) : Program ByteArray Unit := do
  writeUint64 (BitVec.ofNat 64 value.length)
  write value

def writeStringWithoutLength (value : List UInt8) : Program ByteArray Unit := write value

/-! ## Readers -/

def readObject (k : Nat) : Program ByteArray (BitVec (8 * k)) := do
  let v ← read k
  pure (ofObject k v)

def readFint8 : Program ByteArray (BitVec 8) := readObject 1
def readFuint8 : Program ByteArray (BitVec 8) := readObject 1
def readFint16 : Program ByteArray (BitVec 16) := do return ntohs (← readObject 2)
def readFuint16 : Program ByteArray (BitVec 16) := do return ntohs (← readObject 2)
def readFint32 : Program ByteArray (BitVec 32) := do return ntohl (← readObject 4)
def readFuint32 : Program ByteArray (BitVec 32) := do return ntohl (← readObject 4)
def readFint64 : Program ByteArray (BitVec 64) := do return ntohll (← readObject 8)
def readFuint64 : Program ByteArray (BitVec 64) := do return ntohll (← readObject 8)

/-- `for(int i = 0; i < w; i += 7)`, with the rounds that are left. -/
def readVarintLoop (w : Nat) : Nat → Nat → BitVec w → Program ByteArray (BitVec w)
  | 0, _, result => pure result
  | rounds + 1, i, result => do
    let b ← readFuint8
    if b.toNat < 0x80 then
      pure (result ||| (b.setWidth w <<< i))
    else
      readVarintLoop w rounds (i + 7) (result ||| ((b &&& 0x7f).setWidth w <<< i))

def readUint32 : Program ByteArray (BitVec 32) := readVarintLoop 32 5 0 0
def readUint64 : Program ByteArray (BitVec 64) := readVarintLoop 64 10 0 0

/-- `readInt32` calls itself before it reads anything; `depth` is the stack. -/
def readInt32 : Nat → Program ByteArray (BitVec 32)
  | 0 => Program.crash .outOfStack
  | depth + 1 => do return decodeZigzag32 (← readInt32 depth)

def readInt64 : Program ByteArray (BitVec 64) := do return decodeZigzag64 (← readUint64)
def readFloat : Program ByteArray (BitVec 32) := readFuint32
def readDouble : Program ByteArray (BitVec 64) := readFuint64

def readStringF16 : Program ByteArray (List UInt8) := do read (← readFuint16).toNat
def readStringF32 : Program ByteArray (List UInt8) := do read (← readFuint32).toNat
def readStringF64 : Program ByteArray (List UInt8) := do read (← readFuint64).toNat
def readStringVint : Program ByteArray (List UInt8) := do read (← readUint64).toNat

/-- `readFromFile` after the open: one `write` for each chunk that
`ifs.read` delivered. -/
def readFromFile (chunks : List (List UInt8)) : Program ByteArray Unit := chunks.forM write

/-! ## The public operations that can change the object -/

inductive Op where
  | write (buf : List UInt8)
  | read (size : Nat)
  | setPosition (v : Nat)
  | clear
  | getWriteBuffers (len : Nat)
  | readFromFile (chunks : List (List UInt8))
  | writeFint8 (v : BitVec 8) | writeFuin8 (v : BitVec 8)
  | writeFint16 (v : BitVec 16) | writeFuint16 (v : BitVec 16)
  | writeFint32 (v : BitVec 32) | writeFuint32 (v : BitVec 32)
  | writeFint64 (v : BitVec 64) | writeFuint64 (v : BitVec 64)
  | writeInt32 (v : BitVec 32) | wirteUint32 (v : BitVec 32)
  | writeInt64 (v : BitVec 64) | writeUint64 (v : BitVec 64)
  | writeFloat (v : BitVec 32) | writeDouble (v : BitVec 64)
  | writeStringF16 (v : List UInt8) | writeStringF32 (v : List UInt8)
  | writeStringF64 (v : List UInt8) | writeStringVint (v : List UInt8)
  | writeStringWithoutLength (v : List UInt8)
  | readFint8 | readFuint8 | readFint16 | readFuint16
  | readFint32 | readFuint32 | readFint64 | readFuint64
  | readInt32 (depth : Nat) | readUint32 | readInt64 | readUint64
  | readFloat | readDouble
  | readStringF16 | readStringF32 | readStringF64 | readStringVint

/-- Run for the state only. -/
def drop {α : Type} (m : Program ByteArray α) : Program ByteArray Unit := do
  let _ ← m
  pure ()

def Op.run : Op → Program ByteArray Unit
  | write buf => ByteArray.write buf
  | read size => drop (ByteArray.read size)
  | setPosition v => ByteArray.setPosition v
  | clear => ByteArray.clear
  | getWriteBuffers len => drop (ByteArray.getWriteBuffers len)
  | readFromFile chunks => ByteArray.readFromFile chunks
  | writeFint8 v => ByteArray.writeFint8 v
  | writeFuin8 v => ByteArray.writeFuin8 v
  | writeFint16 v => ByteArray.writeFint16 v
  | writeFuint16 v => ByteArray.writeFuint16 v
  | writeFint32 v => ByteArray.writeFint32 v
  | writeFuint32 v => ByteArray.writeFuint32 v
  | writeFint64 v => ByteArray.writeFint64 v
  | writeFuint64 v => ByteArray.writeFuint64 v
  | writeInt32 v => ByteArray.writeInt32 v
  | wirteUint32 v => ByteArray.wirteUint32 v
  | writeInt64 v => ByteArray.writeInt64 v
  | writeUint64 v => ByteArray.writeUint64 v
  | writeFloat v => ByteArray.writeFloat v
  | writeDouble v => ByteArray.writeDouble v
  | writeStringF16 v => ByteArray.writeStringF16 v
  | writeStringF32 v => ByteArray.writeStringF32 v
  | writeStringF64 v => ByteArray.writeStringF64 v
  | writeStringVint v => ByteArray.writeStringVint v
  | writeStringWithoutLength v => ByteArray.writeStringWithoutLength v
  | readFint8 => drop ByteArray.readFint8
  | readFuint8 => drop ByteArray.readFuint8
  | readFint16 => drop ByteArray.readFint16
  | readFuint16 => drop ByteArray.readFuint16
  | readFint32 => drop ByteArray.readFint32
  | readFuint32 => drop ByteArray.readFuint32
  | readFint64 => drop ByteArray.readFint64
  | readFuint64 => drop ByteArray.readFuint64
  | readInt32 depth => drop (ByteArray.readInt32 depth)
  | readUint32 => drop ByteArray.readUint32
  | readInt64 => drop ByteArray.readInt64
  | readUint64 => drop ByteArray.readUint64
  | readFloat => drop ByteArray.readFloat
  | readDouble => drop ByteArray.readDouble
  | readStringF16 => drop ByteArray.readStringF16
  | readStringF32 => drop ByteArray.readStringF32
  | readStringF64 => drop ByteArray.readStringF64
  | readStringVint => drop ByteArray.readStringVint

end ByteArray
end TwServer
