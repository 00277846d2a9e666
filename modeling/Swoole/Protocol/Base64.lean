import Swoole.Core.Int
import Swoole.Library.ByteMemory

/-!
# Base64

`swBase64_encode` walks over the bytes and `swBase64_decode` over the characters.  Both take
their place modulo 3 or 4 from the index and leave the bits that do not fill a character, or a
byte, to the next round.  The decoder stores such a rest in the byte behind the last one; it has
to look at the end of the text, at the padding, to see that there is no such byte.

Three bytes are four characters, and `textOf` says which.  The encoder writes `textOf x`, and on
that text the decoder writes `x`, each from the start of its buffer on and nothing behind it.

The lengths and the indices of both functions are `int`s.  A text of `2^31` characters does not
have an index for its end.
-/

namespace Swoole.Base64

open List ByteMemory

/-- `base64en`. -/
def base64en : List UInt8 :=
  [65, 66, 67, 68, 69, 70, 71, 72, 73, 74, 75, 76, 77, 78, 79, 80, 81, 82, 83, 84, 85, 86, 87,
    88, 89, 90, 97, 98, 99, 100, 101, 102, 103, 104, 105, 106, 107, 108, 109, 110, 111, 112, 113,
    114, 115, 116, 117, 118, 119, 120, 121, 122, 48, 49, 50, 51, 52, 53, 54, 55, 56, 57, 43, 47]

/-- `base64de`, from `BASE64DE_FIRST` to `BASE64DE_LAST`. -/
def base64de : List ℤ :=
  [62, -1, -1, -1, 63, 52, 53, 54, 55, 56, 57, 58, 59, 60, 61, -1, -1, -1, -1, -1, -1, -1, 0, 1,
    2, 3, 4, 5, 6, 7, 8, 9,
    10, 11, 12, 13, 14, 15, 16, 17,
    18, 19, 20, 21, 22, 23, 24, 25,
    -1, -1, -1, -1, -1, -1, 26, 27,
    28, 29, 30, 31, 32, 33, 34, 35,
    36, 37, 38, 39, 40, 41, 42, 43,
    44, 45, 46, 47, 48, 49, 50, 51]

/-- `BASE64DE_FIRST`, a plus sign. -/
def base64deFirst : ℕ := 43

/-- `BASE64DE_LAST`, the letter z. -/
def base64deLast : ℕ := 122

/-- `BASE64_PAD`, an equals sign. -/
def base64Pad : UInt8 := 61

/-- What the functions return. -/
inductive Status where
  | ok
  | invalid
  deriving DecidableEq, Repr

/-- The buffer a function writes to, and its index into it. -/
structure Output where
  memory : ByteMemory
  j : ℕ

namespace Output

variable (o : Output)

/-- `out[j++] = c`. -/
def put (c : UInt8) : Output := ⟨o.memory.store o.j [c], o.j + 1⟩

/-- `out[j] = v`. -/
def set (v : ℕ) : Output := ⟨o.memory.store o.j [UInt8.ofNat v], o.j⟩

/-- `out[j++] += v`. -/
def add (v : ℕ) : Output :=
  ⟨o.memory.store o.j [UInt8.ofNat ((o.memory o.j).toNat + v)], o.j + 1⟩

/-- The index, which only grows, has left the range of an `int`. -/
def Overflowed : Prop := 2 ^ 31 ≤ o.j

end Output

/-! ## The encoder -/

/-- The character of six bits. -/
def enc (sextet : ℕ) : UInt8 := base64en.getD sextet 0

section

variable (input : ByteMemory)

/-- `in[i]` as an `int`. -/
def byte (i : ℕ) : ℕ := (input i).toNat

/-- One round of the encoder. -/
def encodeStep (o : Output) (i : ℕ) : Output :=
  match i % 3 with
  | 0 => o.put (enc (byte input i >>> 2 &&& 0x3F))
  | 1 => o.put (enc (((byte input (i - 1) &&& 0x3) <<< 4) + (byte input i >>> 4 &&& 0xF)))
  | _ =>
    (o.put (enc (((byte input (i - 1) &&& 0xF) <<< 2) + (byte input i >>> 6 &&& 0x3)))).put
      (enc (byte input i &&& 0x3F))

/-- The loop of the encoder, for the rounds that are left. -/
def encodeLoop : ℕ → ℕ → Output → Output
  | 0, _, o => o
  | left + 1, i, o => encodeLoop left (i + 1) (encodeStep input o i)

/-- The rest of the last byte, and the padding; `i` is moved back to that byte. -/
def encodePad (i : ℤ) (o : Output) : Output :=
  if Int.tmod i 3 = 0 then
    ((o.put (enc ((byte input i.toNat &&& 0x3) <<< 4))).put base64Pad).put base64Pad
  else if Int.tmod i 3 = 1 then
    (o.put (enc ((byte input i.toNat &&& 0xF) <<< 2))).put base64Pad
  else o

/-- `swBase64_encode`. -/
def encode (inlen : ℤ) (out : ByteMemory) : Status × Output :=
  let rounds := inlen.toNat
  (.ok, encodePad input ((rounds : ℤ) - 1) (encodeLoop input rounds 0 ⟨out, 0⟩))

/-! ## The decoder -/

/-- The six bits of a character; a `char` above 127 is negative, and so it is refused as well. -/
def dec (char : UInt8) : Option ℕ :=
  if char.toNat < base64deFirst ∨ base64deLast < char.toNat then none
  else
    let c := base64de.getD (char.toNat - base64deFirst) (-1)
    if c = -1 then none else some c.toNat

/-- One round of the decoder, on the character of the six bits `c`. -/
def decodeStep (inlen : ℤ) (o : Output) (i c : ℕ) : Output :=
  match i % 4 with
  | 0 => o.set (c <<< 2)
  | 1 =>
    let o := o.add (c >>> 4 &&& 0x3)
    if (i : ℤ) < inlen - 3 ∨ input (inlen - 2).toNat ≠ base64Pad then o.set ((c &&& 0xF) <<< 4)
    else o
  | 2 =>
    let o := o.add (c >>> 2 &&& 0xF)
    if (i : ℤ) < inlen - 2 ∨ input (inlen - 1).toNat ≠ base64Pad then o.set ((c &&& 0x3) <<< 6)
    else o
  | _ => o.add c

/-- The loop of the decoder, for the rounds that are left. -/
def decodeLoop (inlen : ℤ) : ℕ → ℕ → Output → Status × Output
  | 0, _, o => (.ok, o)
  | left + 1, i, o =>
    if input i = base64Pad then (.ok, o)
    else
      match dec (input i) with
      | none => (.invalid, o)
      | some c => decodeLoop inlen left (i + 1) (decodeStep input inlen o i c)

/-- `swBase64_decode`. -/
def decode (inlen : ℤ) (out : ByteMemory) : Status × Output :=
  decodeLoop input inlen inlen.toNat 0 ⟨out, 0⟩

end

/-! ## The text of some bytes -/

/-- The first six bits of three bytes. -/
def sextet0 (a : UInt8) : ℕ := a.toNat >>> 2 &&& 0x3F

/-- The second six bits. -/
def sextet1 (a b : UInt8) : ℕ := ((a.toNat &&& 0x3) <<< 4) + (b.toNat >>> 4 &&& 0xF)

/-- The third six bits. -/
def sextet2 (b c : UInt8) : ℕ := ((b.toNat &&& 0xF) <<< 2) + (c.toNat >>> 6 &&& 0x3)

/-- The last six bits. -/
def sextet3 (c : UInt8) : ℕ := c.toNat &&& 0x3F

/-- Four characters for three bytes; at the end the missing bytes are zero and the characters
without a bit of a byte are padding. -/
def textOf : List UInt8 → List UInt8
  | [] => []
  | [a] => [enc (sextet0 a), enc (sextet1 a 0), base64Pad, base64Pad]
  | [a, b] => [enc (sextet0 a), enc (sextet1 a b), enc (sextet2 b 0), base64Pad]
  | a :: b :: c :: rest =>
    [enc (sextet0 a), enc (sextet1 a b), enc (sextet2 b c), enc (sextet3 c)] ++ textOf rest

theorem length_textOf (x : List UInt8) : (textOf x).length = 4 * ((x.length + 2) / 3) := by
  induction x using textOf.induct with
  | case1 => simp [textOf]
  | case2 a => simp [textOf]
  | case3 a b => simp [textOf]
  | case4 a b c rest ih =>
    rw [textOf, length_append, ih]
    simp only [length_cons, length_nil]
    omega

section sextets

variable (a b c : UInt8)

-- masks are remainders and shifts are quotients, which is what `omega` reads

theorem sextet0_eq : sextet0 a = a.toNat / 4 := by
  rw [sextet0, Nat.and_two_pow_sub_one_eq_mod _ 6, Nat.shiftRight_eq_div_pow]
  have := a.toNat_lt
  omega

theorem sextet1_eq : sextet1 a b = a.toNat % 4 * 16 + b.toNat / 16 := by
  rw [sextet1, Nat.and_two_pow_sub_one_eq_mod _ 2, Nat.and_two_pow_sub_one_eq_mod _ 4,
    Nat.shiftRight_eq_div_pow, Nat.shiftLeft_eq]
  have := b.toNat_lt
  omega

theorem sextet2_eq : sextet2 b c = b.toNat % 16 * 4 + c.toNat / 64 := by
  rw [sextet2, Nat.and_two_pow_sub_one_eq_mod _ 4, Nat.and_two_pow_sub_one_eq_mod _ 2,
    Nat.shiftRight_eq_div_pow, Nat.shiftLeft_eq]
  have := c.toNat_lt
  omega

theorem sextet3_eq : sextet3 c = c.toNat % 64 := Nat.and_two_pow_sub_one_eq_mod _ 6

theorem sextet0_lt : sextet0 a < 64 := by
  rw [sextet0_eq]
  have := a.toNat_lt
  omega

theorem sextet1_lt : sextet1 a b < 64 := by
  rw [sextet1_eq]
  have := b.toNat_lt
  omega

theorem sextet2_lt : sextet2 b c < 64 := by
  rw [sextet2_eq]
  have := c.toNat_lt
  omega

theorem sextet3_lt : sextet3 c < 64 := by
  rw [sextet3_eq]
  exact Nat.mod_lt _ (by decide)

end sextets

/-! ## The encoder writes the text -/

/-- `bytes` have been written from the start of the buffer on, and nothing else. -/
structure Wrote (out : ByteMemory) (o : Output) (bytes : List UInt8) : Prop where
  memory : o.memory = out.store 0 bytes
  j : o.j = bytes.length

theorem wrote_nil (out : ByteMemory) : Wrote out ⟨out, 0⟩ [] where
  memory := by
    funext k
    exact (store_of_outside (Or.inr (Nat.zero_le k))).symm
  j := rfl

theorem Wrote.put {out : ByteMemory} {o : Output} {bytes : List UInt8} (h : Wrote out o bytes)
    (c : UInt8) : Wrote out (o.put c) (bytes ++ [c]) where
  memory := by
    have happend := @ByteMemory.store_store_append out 0 bytes [c]
    rw [zero_add] at happend
    rw [← happend, ← h.memory, ← h.j]
    rfl
  j := by
    rw [length_append, ← h.j]
    rfl

section encode

variable {input out : ByteMemory} {o : Output} {written : List UInt8}

theorem encodeStep_first (q : ℕ) :
    encodeStep input o (3 * q) = o.put (enc (sextet0 (input (3 * q)))) := by
  rw [encodeStep, Nat.mul_mod_right]
  rfl

theorem encodeStep_second (q : ℕ) :
    encodeStep input o (3 * q + 1) =
      o.put (enc (sextet1 (input (3 * q)) (input (3 * q + 1)))) := by
  rw [encodeStep, Nat.mul_add_mod]
  rfl

theorem encodeStep_third (q : ℕ) :
    encodeStep input o (3 * q + 2) =
      (o.put (enc (sextet2 (input (3 * q + 1)) (input (3 * q + 2))))).put
        (enc (sextet3 (input (3 * q + 2)))) := by
  rw [encodeStep, Nat.mul_add_mod]
  rfl

/-- The index of the last byte, modulo three; it is `-1` when there is none. -/
theorem tmod_last (q r : ℕ) : Int.tmod ((3 * q + (r + 1) : ℕ) - 1 : ℤ) 3 = ((r % 3 : ℕ) : ℤ) := by
  rw [Int.tmod_eq_emod_of_nonneg (by omega)]
  omega

theorem encodePad_full (q : ℕ) : encodePad input ((3 * q : ℕ) - 1 : ℤ) o = o := by
  cases q with
  | zero => rfl
  | succ q =>
    have hmod := tmod_last q 2
    rw [encodePad, show 3 * (q + 1) = 3 * q + (2 + 1) by omega, hmod]
    rfl

theorem encodePad_one (q : ℕ) :
    encodePad input ((3 * q + 1 : ℕ) - 1 : ℤ) o =
      ((o.put (enc (sextet1 (input (3 * q)) 0))).put base64Pad).put base64Pad := by
  have hmod : Int.tmod ((3 * q + 1 : ℕ) - 1 : ℤ) 3 = 0 := tmod_last q 0
  have hi : ((3 * q + 1 : ℕ) - 1 : ℤ).toNat = 3 * q := by omega
  rw [encodePad, if_pos hmod, hi]
  rfl

theorem encodePad_two (q : ℕ) :
    encodePad input ((3 * q + 2 : ℕ) - 1 : ℤ) o =
      (o.put (enc (sextet2 (input (3 * q + 1)) 0))).put base64Pad := by
  have hmod : Int.tmod ((3 * q + 2 : ℕ) - 1 : ℤ) 3 = 1 := tmod_last q 1
  have hi : ((3 * q + 2 : ℕ) - 1 : ℤ).toNat = 3 * q + 1 := by omega
  rw [encodePad, if_neg (by rw [hmod]; decide), if_pos hmod, hi]
  rfl

/-- From a byte at a multiple of three on, the encoder adds the text of the bytes from there. -/
theorem encode_from (x : List UInt8) : ∀ (q : ℕ) (o : Output) (written : List UInt8),
    input.load (3 * q) x.length = x → Wrote out o written →
    Wrote out
      (encodePad input ((3 * q + x.length : ℕ) - 1 : ℤ) (encodeLoop input x.length (3 * q) o))
      (written ++ textOf x) := by
  -- the cases are those of `textOf`: three bytes at a time, and what is left at the end
  induction x using textOf.induct with
  | case1 =>
    intro q o written _ hwrote
    rw [textOf, append_nil]
    exact (encodePad_full q).symm ▸ hwrote
  | case2 a =>
    intro q o written hload hwrote
    simp only [length_cons, length_nil, load_succ, cons.injEq] at hload
    obtain ⟨rfl, -⟩ := hload
    have h := (((hwrote.put (enc (sextet0 (input (3 * q))))).put
      (enc (sextet1 (input (3 * q)) 0))).put base64Pad).put base64Pad
    simp only [length_singleton, encodeLoop, encodeStep_first, encodePad_one, textOf]
    simpa only [append_assoc, cons_append, nil_append] using h
  | case3 a b =>
    intro q o written hload hwrote
    simp only [length_cons, length_nil, load_succ, cons.injEq] at hload
    obtain ⟨rfl, rfl, -⟩ := hload
    have h := (((hwrote.put (enc (sextet0 (input (3 * q))))).put
      (enc (sextet1 (input (3 * q)) (input (3 * q + 1))))).put
      (enc (sextet2 (input (3 * q + 1)) 0))).put base64Pad
    simp only [length_cons, length_nil, encodeLoop, encodeStep_first,
      encodeStep_second, encodePad_two, textOf]
    simpa only [append_assoc, cons_append, nil_append] using h
  | case4 a b c rest ih =>
    intro q o written hload hwrote
    simp only [length_cons, load_succ, cons.injEq] at hload
    obtain ⟨rfl, rfl, rfl, hrest⟩ := hload
    have h := (((hwrote.put (enc (sextet0 (input (3 * q))))).put
      (enc (sextet1 (input (3 * q)) (input (3 * q + 1))))).put
      (enc (sextet2 (input (3 * q + 1)) (input (3 * q + 2))))).put
      (enc (sextet3 (input (3 * q + 2))))
    have hlast : 3 * q + (rest.length + 1 + 1 + 1) = 3 * (q + 1) + rest.length := by omega
    simp only [length_cons, encodeLoop, encodeStep_first, encodeStep_second,
      encodeStep_third, textOf, hlast]
    have hnext := ih (q + 1) _ _ hrest h
    simp only [append_assoc, cons_append, nil_append] at hnext ⊢
    exact hnext

/-- **What the encoder writes**: the text of the bytes, from the start of the buffer on. -/
theorem encode_wrote (n : ℕ) (hn : n < 2 ^ 31) :
    Wrote out (encode input (toInt32 n) out).2 (textOf (input.load 0 n)) := by
  have h := @encode_from input out (input.load 0 n) 0 ⟨out, 0⟩ [] (by simp) (wrote_nil out)
  simp only [length_load, mul_zero, zero_add, nil_append] at h
  rw [encode, toInt32_natCast hn, Int.toNat_natCast]
  exact h

end encode

/-! ## The decoder writes the bytes -/

/-- Behind the bytes that have been written there is one whose last bits are missing. -/
structure Holding (out : ByteMemory) (o : Output) (bytes : List UInt8) (u : UInt8) : Prop where
  memory : o.memory = out.store 0 (bytes ++ [u])
  j : o.j = bytes.length

section decode

variable {text out : ByteMemory} {o : Output} {bytes : List UInt8} {u : UInt8}

theorem Wrote.set (h : Wrote out o bytes) (v : ℕ) :
    Holding out (o.set v) bytes (UInt8.ofNat v) where
  memory := (h.put (UInt8.ofNat v)).memory
  j := h.j

theorem Holding.add (h : Holding out o bytes u) (v : ℕ) :
    Wrote out (o.add v) (bytes ++ [UInt8.ofNat (u.toNat + v)]) where
  memory := by
    have happly := @ByteMemory.store_concat_apply out 0 bytes u
    have hstore := @ByteMemory.store_concat_store out 0 bytes u (UInt8.ofNat (u.toNat + v))
    rw [zero_add] at happly hstore
    show o.memory.store o.j [UInt8.ofNat ((o.memory o.j).toNat + v)] = _
    rw [h.memory, h.j, happly, hstore]
  j := by
    rw [length_append, ← h.j]
    rfl

theorem first_byte (a b : UInt8) :
    UInt8.ofNat ((UInt8.ofNat (sextet0 a <<< 2)).toNat + (sextet1 a b >>> 4 &&& 0x3)) = a := by
  apply UInt8.toNat_inj.mp
  rw [sextet0_eq, sextet1_eq, Nat.and_two_pow_sub_one_eq_mod _ 2, Nat.shiftRight_eq_div_pow,
    Nat.shiftLeft_eq, UInt8.toNat_ofNat', UInt8.toNat_ofNat']
  have := a.toNat_lt
  have := b.toNat_lt
  omega

theorem second_byte (a b c : UInt8) :
    UInt8.ofNat ((UInt8.ofNat ((sextet1 a b &&& 0xF) <<< 4)).toNat +
      (sextet2 b c >>> 2 &&& 0xF)) = b := by
  apply UInt8.toNat_inj.mp
  rw [sextet1_eq, sextet2_eq, Nat.and_two_pow_sub_one_eq_mod _ 4,
    Nat.and_two_pow_sub_one_eq_mod _ 4, Nat.shiftRight_eq_div_pow, Nat.shiftLeft_eq,
    UInt8.toNat_ofNat', UInt8.toNat_ofNat']
  have := b.toNat_lt
  have := c.toNat_lt
  omega

theorem third_byte (b c : UInt8) :
    UInt8.ofNat ((UInt8.ofNat ((sextet2 b c &&& 0x3) <<< 6)).toNat + sextet3 c) = c := by
  apply UInt8.toNat_inj.mp
  rw [sextet2_eq, sextet3_eq, Nat.and_two_pow_sub_one_eq_mod _ 2, Nat.shiftLeft_eq,
    UInt8.toNat_ofNat', UInt8.toNat_ofNat']
  have := c.toNat_lt
  omega

theorem dec_enc : ∀ sextet < 64, enc sextet ≠ base64Pad ∧ dec (enc sextet) = some sextet := by
  decide

theorem decodeLoop_enc {inlen : ℤ} {left i sextet : ℕ} (hchar : text i = enc sextet)
    (hlt : sextet < 64) :
    decodeLoop text inlen (left + 1) i o =
      decodeLoop text inlen left (i + 1) (decodeStep text inlen o i sextet) := by
  rw [decodeLoop, hchar, if_neg (dec_enc sextet hlt).1, (dec_enc sextet hlt).2]

theorem decodeLoop_pad {inlen : ℤ} {left i : ℕ} (hchar : text i = base64Pad) :
    decodeLoop text inlen (left + 1) i o = (.ok, o) := by
  rw [decodeLoop, if_pos hchar]

section steps

variable (inlen : ℤ) (q c : ℕ)

theorem decodeStep_first : decodeStep text inlen o (4 * q) c = o.set (c <<< 2) := by
  rw [decodeStep, Nat.mul_mod_right]
  rfl

theorem decodeStep_second : decodeStep text inlen o (4 * q + 1) c =
    let o := o.add (c >>> 4 &&& 0x3)
    if (4 * q + 1 : ℕ) < inlen - 3 ∨ text (inlen - 2).toNat ≠ base64Pad
    then o.set ((c &&& 0xF) <<< 4) else o := by
  rw [decodeStep, Nat.mul_add_mod]
  rfl

theorem decodeStep_third : decodeStep text inlen o (4 * q + 2) c =
    let o := o.add (c >>> 2 &&& 0xF)
    if (4 * q + 2 : ℕ) < inlen - 2 ∨ text (inlen - 1).toNat ≠ base64Pad
    then o.set ((c &&& 0x3) <<< 6) else o := by
  rw [decodeStep, Nat.mul_add_mod]
  rfl

theorem decodeStep_fourth : decodeStep text inlen o (4 * q + 3) c = o.add c := by
  rw [decodeStep, Nat.mul_add_mod]
  rfl

end steps

/-- A character is followed by one that is no padding, at the end of the text or in front of it. -/
theorem carries {inlen d e : ℤ} {i sextet : ℕ} (hchar : text (i + 1) = enc sextet)
    (hlt : sextet < 64) (hend : i + e ≤ inlen) (he : e = d + 1) :
    i < inlen - e ∨ text (inlen - d).toNat ≠ base64Pad := by
  rcases Int.lt_or_eq_of_le hend with hmore | rfl
  · exact .inl (by omega)
  · right
    rw [show (i + e - d).toNat = i + 1 by omega, hchar]
    exact (dec_enc sextet hlt).1

variable {q : ℕ} {a b c : UInt8} (hwrote : Wrote out o bytes)
  (h0 : text (4 * q) = enc (sextet0 a))
include hwrote h0

theorem decode_quantum {inlen : ℤ} {left : ℕ} (h1 : text (4 * q + 1) = enc (sextet1 a b))
    (h2 : text (4 * q + 2) = enc (sextet2 b c)) (h3 : text (4 * q + 3) = enc (sextet3 c))
    (hend : (4 * q + 4 : ℕ) ≤ inlen) :
    ∃ o', Wrote out o' (bytes ++ [a, b, c]) ∧
      decodeLoop text inlen (left + 4) (4 * q) o =
        decodeLoop text inlen left (4 * (q + 1)) o' := by
  have hsecond := ((hwrote.set (sextet0 a <<< 2)).add (sextet1 a b >>> 4 &&& 0x3)).set
    ((sextet1 a b &&& 0xF) <<< 4)
  have hthird := (hsecond.add (sextet2 b c >>> 2 &&& 0xF)).set ((sextet2 b c &&& 0x3) <<< 6)
  have hfourth := hthird.add (sextet3 c)
  rw [first_byte, second_byte, third_byte] at hfourth
  -- the last four characters are no padding, and in front of them the index says so
  have hcarry1 := @carries text inlen 2 3 _ _ h2 (sextet2_lt b c) (by omega) rfl
  have hcarry2 := @carries text inlen 1 2 _ _ h3 (sextet3_lt c) (by omega) rfl
  refine ⟨_, by simpa only [append_assoc, cons_append, nil_append] using hfourth, ?_⟩
  rw [decodeLoop_enc h0 (sextet0_lt a), decodeLoop_enc h1 (sextet1_lt a b),
    decodeLoop_enc h2 (sextet2_lt b c), decodeLoop_enc h3 (sextet3_lt c), decodeStep_first,
    decodeStep_second, if_pos hcarry1, decodeStep_third, if_pos hcarry2, decodeStep_fourth]
  rfl

theorem decode_two (h1 : text (4 * q + 1) = enc (sextet1 a b))
    (h2 : text (4 * q + 2) = enc (sextet2 b 0)) (h3 : text (4 * q + 3) = base64Pad) :
    ∃ o', Wrote out o' (bytes ++ [a, b]) ∧
      decodeLoop text (4 * q + 4 : ℕ) 4 (4 * q) o = (.ok, o') := by
  have hsecond := (((hwrote.set (sextet0 a <<< 2)).add (sextet1 a b >>> 4 &&& 0x3)).set
    ((sextet1 a b &&& 0xF) <<< 4)).add (sextet2 b 0 >>> 2 &&& 0xF)
  rw [first_byte, second_byte] at hsecond
  have hcarry1 := @carries text (4 * q + 4 : ℕ) 2 3 _ _ h2 (sextet2_lt b 0) (by omega) rfl
  have hlast : text ((4 * q + 4 : ℕ) - 1 : ℤ).toNat = base64Pad := by
    rwa [show ((4 * q + 4 : ℕ) - 1 : ℤ).toNat = 4 * q + 3 by omega]
  refine ⟨_, by simpa only [append_assoc, cons_append, nil_append] using hsecond, ?_⟩
  rw [decodeLoop_enc h0 (sextet0_lt a), decodeLoop_enc h1 (sextet1_lt a b),
    decodeLoop_enc h2 (sextet2_lt b 0), decodeLoop_pad h3, decodeStep_first,
    decodeStep_second, if_pos hcarry1, decodeStep_third,
    if_neg (not_or.mpr ⟨by omega, not_not.mpr hlast⟩)]

theorem decode_one (h1 : text (4 * q + 1) = enc (sextet1 a 0))
    (h2 : text (4 * q + 2) = base64Pad) :
    ∃ o', Wrote out o' (bytes ++ [a]) ∧
      decodeLoop text (4 * q + 4 : ℕ) 4 (4 * q) o = (.ok, o') := by
  have hfirst := (hwrote.set (sextet0 a <<< 2)).add (sextet1 a 0 >>> 4 &&& 0x3)
  rw [first_byte] at hfirst
  have hlast : text ((4 * q + 4 : ℕ) - 2 : ℤ).toNat = base64Pad := by
    rwa [show ((4 * q + 4 : ℕ) - 2 : ℤ).toNat = 4 * q + 2 by omega]
  refine ⟨_, hfirst, ?_⟩
  rw [decodeLoop_enc h0 (sextet0_lt a), decodeLoop_enc h1 (sextet1_lt a 0), decodeLoop_pad h2,
    decodeStep_first, decodeStep_second, if_neg (not_or.mpr ⟨by omega, not_not.mpr hlast⟩)]

omit hwrote h0

/-- From a character at a multiple of four on, the decoder adds the bytes of the text from there. -/
theorem decode_from (x : List UInt8) : ∀ (q : ℕ) (o : Output) (bytes : List UInt8),
    text.load (4 * q) (textOf x).length = textOf x → Wrote out o bytes →
    ∃ o', Wrote out o' (bytes ++ x) ∧
      decodeLoop text (4 * q + (textOf x).length : ℕ) (textOf x).length (4 * q) o = (.ok, o') := by
  induction x using textOf.induct with
  | case1 =>
    intro q o bytes _ hwrote
    rw [textOf, append_nil]
    exact ⟨o, hwrote, rfl⟩
  | case2 a =>
    intro q o bytes hload hwrote
    simp only [textOf, length_cons, length_nil, load_succ, cons.injEq] at hload
    obtain ⟨h0, h1, h2, -⟩ := hload
    exact decode_one hwrote h0 h1 h2
  | case3 a b =>
    intro q o bytes hload hwrote
    simp only [textOf, length_cons, length_nil, load_succ, cons.injEq] at hload
    obtain ⟨h0, h1, h2, h3, -⟩ := hload
    simp only [textOf, length_cons, length_nil]
    exact decode_two hwrote h0 h1 h2 h3
  | case4 a b c rest ih =>
    intro q o bytes hload hwrote
    simp only [textOf, cons_append, nil_append, length_cons,
      load_succ, cons.injEq] at hload
    obtain ⟨h0, h1, h2, h3, hrest⟩ := hload
    have hlen : (textOf (a :: b :: c :: rest)).length = (textOf rest).length + 4 := by
      simp [textOf]
    obtain ⟨o₁, hwrote₁, hloop⟩ :=
      @decode_quantum text out o bytes q a b c hwrote h0
        (4 * q + ((textOf rest).length + 4) : ℕ) (textOf rest).length h1 h2 h3 (by omega)
    obtain ⟨o₂, hwrote₂, hrun⟩ := ih (q + 1) o₁ _ hrest hwrote₁
    refine ⟨o₂, by simpa using hwrote₂, ?_⟩
    rw [hlen, hloop, show 4 * q + ((textOf rest).length + 4) =
      4 * (q + 1) + (textOf rest).length by omega]
    exact hrun

end decode

/-! ## The round trip -/

/-- `BASE64_ENCODE_OUT_SIZE`. -/
def encodeOutSize (n : ℕ) : ℕ := (n + 2) / 3 * 4

/-- `count` bytes have been written from the start of the buffer on, and none behind them. -/
structure Exact (out : ByteMemory) (count : ℕ) (o : Output) : Prop where
  inRange : ¬ o.Overflowed
  index : o.j = count
  beyond : ∀ k, count ≤ k → o.memory k = out k

theorem Wrote.exact {out : ByteMemory} {o : Output} {bytes : List UInt8} (h : Wrote out o bytes)
    (hlt : bytes.length < 2 ^ 31) : Exact out bytes.length o where
  inRange := by
    rw [Output.Overflowed, h.j]
    exact Nat.not_le_of_lt hlt
  index := h.j
  beyond := by
    intro k hk
    rw [h.memory]
    exact store_of_outside (.inr (by rwa [zero_add]))

/-- **The round trip** of the `n` bytes at `input`: whatever was in the buffers, the encoder
writes four characters for every three bytes or part of three, and the decoder, given these,
returns `BASE64_OK` and writes the `n` bytes.  Nothing behind is written. -/
def RoundTrips (input : ByteMemory) (n : ℕ) : Prop :=
  ∀ text out : ByteMemory,
    let encoded := encode input (toInt32 n) text
    let decoded := decode encoded.2.memory (toInt32 (encodeOutSize n)) out
    Exact text (encodeOutSize n) encoded.2 ∧ decoded.1 = .ok ∧ Exact out n decoded.2 ∧
      decoded.2.memory.load 0 n = input.load 0 n

theorem length_textOf_load (input : ByteMemory) (n : ℕ) :
    (textOf (input.load 0 n)).length = encodeOutSize n := by
  rw [length_textOf, length_load, encodeOutSize, mul_comm]

theorem decode_wrote {text : ByteMemory} (x : List UInt8) (out : ByteMemory)
    (hload : text.load 0 (textOf x).length = textOf x) (hlt : (textOf x).length < 2 ^ 31) :
    (decode text (toInt32 (textOf x).length) out).1 = .ok ∧
      Wrote out (decode text (toInt32 (textOf x).length) out).2 x := by
  obtain ⟨o, hwrote, hloop⟩ := @decode_from text out x 0 ⟨out, 0⟩ [] hload (wrote_nil out)
  rw [mul_zero, zero_add] at hloop
  rw [decode, toInt32_natCast hlt, Int.toNat_natCast, hloop]
  exact ⟨rfl, hwrote⟩

/-- **Base64 round trips exactly as long as the text has an `int` for its length.** -/
theorem round_trips_iff (input : ByteMemory) (n : ℕ) : RoundTrips input n ↔ n ≤ 1610612733 := by
  constructor
  · intro h
    obtain ⟨hencoded, -⟩ := h input input
    have hlt : encodeOutSize n < 2 ^ 31 := hencoded.index ▸ Nat.lt_of_not_le hencoded.inRange
    rw [encodeOutSize] at hlt
    omega
  · intro hn text out
    have hlen := length_textOf_load input n
    have hlt : encodeOutSize n < 2 ^ 31 := by
      rw [encodeOutSize]
      omega
    have hencoded : Wrote text (encode input (toInt32 n) text).2 (textOf (input.load 0 n)) :=
      encode_wrote n (by omega)
    have hload : (encode input (toInt32 n) text).2.memory.load 0
        (textOf (input.load 0 n)).length = textOf (input.load 0 n) := by
      rw [hencoded.memory]
      exact load_store_self
    obtain ⟨hok, hdecoded⟩ := decode_wrote (input.load 0 n) out hload (hlen ▸ hlt)
    rw [hlen] at hok hdecoded
    have hexact := hdecoded.exact (by rw [length_load]; omega)
    rw [length_load] at hexact
    refine ⟨hlen ▸ hencoded.exact (hlen ▸ hlt), hok, hexact, ?_⟩
    have hbytes := @ByteMemory.load_store_self out 0 (input.load 0 n)
    rwa [← hdecoded.memory, length_load] at hbytes

/-- Five bytes become eight characters, the last one being padding, and five bytes again. -/
theorem round_trips_five : RoundTrips (fun i => UInt8.ofNat (97 + i)) 5 :=
  (round_trips_iff _ 5).mpr (by decide)

/-- For 1610612734 bytes, whose length is an `int`, the index of the encoder overflows. -/
theorem not_round_trips_long :
    (encode (fun _ => 0) (toInt32 1610612734) (fun _ => 0)).2.Overflowed ∧
      ¬ RoundTrips (fun _ => 0) 1610612734 := by
  have hj : (encode (fun _ => 0) (toInt32 1610612734) (fun _ => 0)).2.j =
      encodeOutSize 1610612734 := by
    have hwrote := @encode_wrote (fun _ => 0) (fun _ => 0) 1610612734 (by decide)
    rw [← length_textOf_load (fun _ => 0)]
    exact hwrote.j
  have hover : (encode (fun _ => 0) (toInt32 1610612734) (fun _ => 0)).2.Overflowed := by
    rw [Output.Overflowed, hj]
    decide
  exact ⟨hover, fun h => (h (fun _ => 0) fun _ => 0).1.inRange hover⟩

end Swoole.Base64
