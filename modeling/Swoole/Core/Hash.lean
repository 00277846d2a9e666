import Swoole.Core.Socket

/-!
# `swoole_hash_austin`

The hash function of the table: 32-bit arithmetic over the key, four bytes at a time.
The key is a `char *`, so a byte of 128 or more enters with its sign extended.
-/

namespace Swoole

/-- A `char` promoted to `int`, as the bits of an `unsigned int`. -/
def charBits (c : UInt8) : UInt32 :=
  if c < 128 then c.toUInt32 else c.toUInt32 ||| 0xffffff00

/-- The four-byte rounds; what is left of the key has less than four bytes. -/
def austinRounds (h : UInt32) : Bytes → UInt32 × Bytes
  | c0 :: c1 :: c2 :: c3 :: rest =>
    let k := charBits c0 ||| (charBits c1 <<< 8) ||| (charBits c2 <<< 16) ||| (charBits c3 <<< 24)
    let k := k * 0x5bd1e995
    let k := k ^^^ (k >>> 24)
    let k := k * 0x5bd1e995
    austinRounds ((h * 0x5bd1e995) ^^^ k) rest
  | rest => (h, rest)

/-- The `switch` over what is left. -/
def austinTail (h : UInt32) : Bytes → UInt32
  | [c0, c1, c2] =>
    (h ^^^ (charBits c2 <<< 16) ^^^ (charBits c1 <<< 8) ^^^ charBits c0) * 0x5bd1e995
  | [c0, c1] => (h ^^^ (charBits c1 <<< 8) ^^^ charBits c0) * 0x5bd1e995
  | [c0] => (h ^^^ charBits c0) * 0x5bd1e995
  | _ => h

/-- `swoole_hash_austin`. -/
def hashAustin (key : Bytes) : UInt32 :=
  let (h, rest) := austinRounds (UInt32.ofNat key.length) key
  let h := austinTail h rest
  let h := h ^^^ (h >>> 13)
  let h := h * 0x5bd1e995
  h ^^^ (h >>> 15)

end Swoole
