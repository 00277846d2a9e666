import Swoole.Core.String

/-!
# Protocol settings and the two length functions

`swProtocol` holds the framing options of a port.  For the length reader these
are the place and the type of the length field, the offset from which the field
counts, and the largest package accepted.  `LengthSettings` is what a
configuration chooses freely; the size of the field follows from its type
(`swoole_type_size`), as `swoole_server_port.c` sets the two together.

A *length function* looks at the buffered bytes and returns the total length of
the package they begin: `0` for "not known yet", a negative number for "invalid".
`getPackageLength` is the generic one, `Mqtt.getPackageLength` the one of MQTT
ports.  Lengths are C `int`s: conversions and sums wrap at 32 bits.  The host is
little-endian, so a plain load reads the low byte first and `ntohs`, `ntohl` swap.
-/

namespace Swoole

/-! ## The length field -/

/-- `package_length_type`, the format letters of `pack()` that
`swoole_type_size` knows. -/
inductive LengthType where
  | s
  | S
  | n
  | v
  | l
  | L
  | N
  | V
  deriving DecidableEq, Repr

/-- `swoole_type_size`. -/
def typeSize : LengthType → ℕ
  | .s | .S | .n | .v => 2
  | .l | .L | .N | .V => 4

/-- `*((uint16_t *) data)`. -/
def load16 (data : Bytes) : ℕ :=
  (data.getD 0 0).toNat + 2 ^ 8 * (data.getD 1 0).toNat

/-- `*((uint32_t *) data)`. -/
def load32 (data : Bytes) : ℕ :=
  (data.getD 0 0).toNat + 2 ^ 8 * (data.getD 1 0).toNat +
    2 ^ 16 * (data.getD 2 0).toNat + 2 ^ 24 * (data.getD 3 0).toNat

/-- `swoole_swap_endian16`; it is also `ntohs`. -/
def swapEndian16 (x : ℕ) : ℕ := x % 2 ^ 8 * 2 ^ 8 + x / 2 ^ 8 % 2 ^ 8

/-- `swoole_swap_endian32`; it is also `ntohl`. -/
def swapEndian32 (x : ℕ) : ℕ :=
  x % 2 ^ 8 * 2 ^ 24 + x / 2 ^ 8 % 2 ^ 8 * 2 ^ 16 + x / 2 ^ 16 % 2 ^ 8 * 2 ^ 8 +
    x / 2 ^ 24 % 2 ^ 8

/-- `swoole_unpack`, with its result converted to `int32_t`. -/
def unpack : LengthType → Bytes → ℤ
  | .s, data => toInt16 (load16 data)
  | .S, data => load16 data
  | .n, data => swapEndian16 (load16 data)
  | .v, data => swapEndian16 (swapEndian16 (load16 data))
  | .L, data => toInt32 (load32 data)
  | .l, data => toInt32 (load32 data)
  | .N, data => toInt32 (swapEndian32 (load32 data))
  | .V, data => toInt32 (swapEndian32 (swapEndian32 (load32 data)))

/-- `swProtocol`, less the two function pointers. -/
structure Protocol where
  splitByEof : Bool
  packageEof : Bytes
  packageLengthType : LengthType
  packageLengthSize : UInt8
  packageLengthOffset : UInt16
  packageBodyOffset : UInt16
  packageMaxLength : UInt32
  deriving DecidableEq

namespace Protocol

variable (p : Protocol)

/-- The bytes up to and including the length field. -/
def headerSize : ℕ := p.packageLengthOffset.toNat + p.packageLengthSize.toNat

/-- `package_body_offset`, as a number. -/
abbrev bodyOffset : ℕ := p.packageBodyOffset.toNat

/-- `package_max_length`, as a number. -/
abbrev maxLength : ℕ := p.packageMaxLength.toNat

/-- `swProtocol_get_package_length`.  The length field is read only once it has
arrived, so the function depends on nothing but the bytes in use. -/
def getPackageLength (data : Bytes) : ℤ :=
  if data.length < p.headerSize then 0
  else
    let bodyLength := unpack p.packageLengthType (data.drop p.packageLengthOffset.toNat)
    if bodyLength < 0 then -1 else toInt32 (p.bodyOffset + bodyLength)

end Protocol

/-- The options of a length-checked port: everything else follows from them. -/
structure LengthSettings where
  lengthType : LengthType
  lengthOffset : UInt16
  bodyOffset : UInt16
  maxLength : UInt32
  deriving DecidableEq

/-- The protocol record of a length-checked port. -/
def LengthSettings.protocol (cfg : LengthSettings) : Protocol where
  splitByEof := false
  packageEof := []
  packageLengthType := cfg.lengthType
  packageLengthSize := (typeSize cfg.lengthType).toUInt8
  packageLengthOffset := cfg.lengthOffset
  packageBodyOffset := cfg.bodyOffset
  packageMaxLength := cfg.maxLength

/-! ## MQTT -/

namespace Mqtt

/-- `SW_MQTT_MIN_LENGTH`. -/
def minLength : ℕ := 2

/-- The loop of `swMqtt_get_length`, entered with `*count = count`.  It does not
look at the number of bytes received: it follows the continuation bits through
the block, whatever is stored there.  `cells` counts the cells of the block from
`data[count + 1]` on; `none` is a read outside the block. -/
def getLengthLoop (buffer : SwString) : ℕ → ℕ → ℤ → ℤ → Option (ℤ × ℕ)
  | 0, _, _, _ => none
  | cells + 1, count, mul, length =>
    let byte := buffer.byteAt (count + 1)
    let length' := toInt32 (length + (byte &&& 127).toNat * mul)
    if byte &&& 128 != 0 then
      getLengthLoop buffer cells (count + 1) (toInt32 (mul * 128)) length'
    else some (length', count + 1)

/-- `swMqtt_get_length`: the decoded length and `*count`. -/
def getLength (buffer : SwString) : Option (ℤ × ℕ) :=
  getLengthLoop buffer (buffer.size - 1) 0 1 0

/-- `swMqtt_get_package_length`. -/
def getPackageLength (buffer : SwString) : Option ℤ :=
  if buffer.data.length < minLength then some 0
  else (getLength buffer).map fun r => toInt32 (r.1 + r.2 + 1)

end Mqtt

/-- The two length functions the reader of a plain port may be given. -/
inductive LengthFunction where
  | lengthField
  | mqtt
  deriving DecidableEq

/-- `protocol->get_package_length`. -/
def LengthFunction.apply (p : Protocol) : LengthFunction → SwString → Option ℤ
  | .lengthField, buffer => some (p.getPackageLength buffer.data)
  | .mqtt, buffer => Mqtt.getPackageLength buffer

/-! ## What the generic length function computes -/

section LengthField

variable (data : Bytes)

theorem load16_lt : load16 data < 2 ^ 16 := by
  have h0 := (data.getD 0 0).toNat_lt
  have h1 := (data.getD 1 0).toNat_lt
  unfold load16
  omega

theorem load32_lt : load32 data < 2 ^ 32 := by
  have h0 := (data.getD 0 0).toNat_lt
  have h1 := (data.getD 1 0).toNat_lt
  have h2 := (data.getD 2 0).toNat_lt
  have h3 := (data.getD 3 0).toNat_lt
  unfold load32
  omega

theorem swapEndian16_lt (x : ℕ) : swapEndian16 x < 2 ^ 16 := by
  unfold swapEndian16
  omega

theorem swapEndian32_lt (x : ℕ) : swapEndian32 x < 2 ^ 32 := by
  unfold swapEndian32
  omega

end LengthField

/-- The value written in a length field: signed for the two signed formats, a
natural number for the others.  It is what `unpack` would return if `int32_t` had
room for it. -/
def lengthField : LengthType → Bytes → ℤ
  | .s, data => toInt16 (load16 data)
  | .S, data => load16 data
  | .n, data => swapEndian16 (load16 data)
  | .v, data => swapEndian16 (swapEndian16 (load16 data))
  | .l, data => toInt32 (load32 data)
  | .L, data => load32 data
  | .N, data => swapEndian32 (load32 data)
  | .V, data => swapEndian32 (swapEndian32 (load32 data))

/-- `swoole_unpack` returns the value of the field, converted to `int32_t`. -/
theorem unpack_eq_toInt32 (t : LengthType) (data : Bytes) :
    unpack t data = toInt32 (lengthField t data) := by
  have keep : ∀ x : ℤ, -2 ^ 31 ≤ x ∧ x < 2 ^ 31 → x = toInt32 x :=
    fun x h => (toInt32_of_lt h.1 h.2).symm
  have h16 := load16_lt data
  cases t with
  | s =>
    have h := toInt16_bounds (load16 data)
    exact keep (toInt16 (load16 data)) (by omega)
  | S => exact keep (load16 data) (by omega)
  | n =>
    have h := swapEndian16_lt (load16 data)
    exact keep (swapEndian16 (load16 data)) (by omega)
  | v =>
    have h := swapEndian16_lt (swapEndian16 (load16 data))
    exact keep (swapEndian16 (swapEndian16 (load16 data))) (by omega)
  | l => exact keep (toInt32 (load32 data)) (toInt32_bounds _)
  | L | N | V => rfl

/-- A length field lies between the least `int32_t` and the largest `uint32_t`. -/
theorem lengthField_bounds (t : LengthType) (data : Bytes) :
    -2 ^ 31 ≤ lengthField t data ∧ lengthField t data < 2 ^ 32 := by
  have unsigned : ∀ x : ℕ, x < 2 ^ 32 → -2 ^ 31 ≤ (x : ℤ) ∧ (x : ℤ) < 2 ^ 32 := by omega
  have h16 := load16_lt data
  cases t with
  | s =>
    have h := toInt16_bounds (load16 data)
    show -2 ^ 31 ≤ toInt16 (load16 data) ∧ toInt16 (load16 data) < 2 ^ 32
    omega
  | l =>
    have h := toInt32_bounds (load32 data)
    show -2 ^ 31 ≤ toInt32 (load32 data) ∧ toInt32 (load32 data) < 2 ^ 32
    omega
  | S => exact unsigned (load16 data) (by omega)
  | n => exact unsigned _ (lt_trans (swapEndian16_lt (load16 data)) (by omega))
  | v => exact unsigned _ (lt_trans (swapEndian16_lt (swapEndian16 (load16 data))) (by omega))
  | L => exact unsigned _ (load32_lt data)
  | N => exact unsigned _ (swapEndian32_lt (load32 data))
  | V => exact unsigned _ (swapEndian32_lt (swapEndian32 (load32 data)))

namespace Protocol

variable (p : Protocol) {data : Bytes}

/-- The length field of a package that begins with `data`. -/
def bodyLength (data : Bytes) : ℤ :=
  lengthField p.packageLengthType (data.drop p.packageLengthOffset.toNat)

/-- The length a package announces: the body offset plus its length field. -/
def frameLength (data : Bytes) : ℤ := p.bodyOffset + p.bodyLength data

/-- The announced length as `int` arithmetic gets it right. -/
def Representable (data : Bytes) : Prop :=
  0 ≤ p.bodyLength data ∧ p.frameLength data < 2 ^ 31
  deriving Decidable

theorem getPackageLength_of_lt (h : data.length < p.headerSize) : p.getPackageLength data = 0 := by
  rw [getPackageLength, if_pos h]

theorem getPackageLength_of_representable (h : p.headerSize ≤ data.length)
    (hrep : p.Representable data) : p.getPackageLength data = p.frameLength data := by
  obtain ⟨hnonneg, hlt⟩ := hrep
  have hunpack : unpack p.packageLengthType (data.drop p.packageLengthOffset.toNat) =
      p.bodyLength data := by
    rw [unpack_eq_toInt32]
    unfold frameLength at hlt
    exact toInt32_of_lt (by unfold bodyLength at hnonneg; omega)
      (by unfold bodyLength at hlt; omega)
  rw [getPackageLength, if_neg (by omega)]
  simp only [hunpack]
  rw [if_neg (by omega)]
  exact toInt32_of_lt (by unfold frameLength at hlt; omega) hlt

/-- Once the header is there, a length that is not representable is refused. -/
theorem getPackageLength_of_not_representable (h : p.headerSize ≤ data.length)
    (hrep : ¬ p.Representable data) : p.getPackageLength data < 0 := by
  have hoffset : p.bodyOffset < 2 ^ 16 := p.packageBodyOffset.toNat_lt
  have hbounds := lengthField_bounds p.packageLengthType
    (data.drop p.packageLengthOffset.toNat)
  have hunpack := unpack_eq_toInt32 p.packageLengthType
    (data.drop p.packageLengthOffset.toNat)
  unfold Representable at hrep
  unfold frameLength bodyLength at hrep
  rw [getPackageLength, if_neg (by omega)]
  simp only [hunpack]
  split
  · omega
  · next hpos =>
    -- the field itself fits, so it is the sum that leaves the range
    by_cases hbig : lengthField p.packageLengthType
        (data.drop p.packageLengthOffset.toNat) < 2 ^ 31
    · rw [toInt32_of_lt (by omega) hbig] at hpos ⊢
      rw [toInt32_of_le (by omega) (by omega)]
      omega
    · rw [toInt32_of_le (by omega) (by omega)] at hpos
      omega

end Protocol

end Swoole
