import Swoole.Core.Socket
import Swoole.Library.LittleEndian

/-!
# What a MySQL server answers

A server sends packets: the length of the payload in three bytes, a number, and the payload.
A payload of `2^24 - 1` bytes or more is sent in several packets, the last of which is shorter
than that.  The answer to a query is an OK packet, an error packet or a result set, which is
the number of columns, a definition of each, an EOF packet, a packet for each row and an EOF
packet.

This is the other end of the wire: nothing here is taken from the client.
-/

namespace Swoole.Mysql

open List LittleEndian

/-- A length-encoded integer. -/
def lenenc (n : ℕ) : Bytes :=
  if n < 251 then [n.toUInt8]
  else if n < 2 ^ 16 then 252 :: bytes 2 n
  else if n < 2 ^ 24 then 253 :: bytes 3 n
  else 254 :: bytes 8 n

/-- A length-encoded string. -/
def lenencString (bytes : Bytes) : Bytes := lenenc bytes.length ++ bytes

theorem length_lenenc_pos (n : ℕ) : 0 < (lenenc n).length := by
  unfold lenenc
  split_ifs <;> simp

/-- Below `2 ^ 24` the first byte is none of those that stand for an EOF or an error packet,
and that of an OK packet only for zero. -/
theorem lenenc_eq_cons {n : ℕ} (hn : n < 2 ^ 24) :
    ∃ b rest, lenenc n = b :: rest ∧ b ≠ 254 ∧ b ≠ 255 ∧ (n ≠ 0 → b ≠ 0) := by
  unfold lenenc
  split_ifs with h1 h2
  · have hnat : n.toUInt8.toNat = n := by
      simp
      omega
    have hne : ∀ b : UInt8, b.toNat ≠ n → n.toUInt8 ≠ b := by
      intro b hb heq
      rw [← heq] at hb
      exact hb hnat
    exact ⟨_, _, rfl, hne 254 (by rw [show (254 : UInt8).toNat = 254 from rfl]; omega),
      hne 255 (by rw [show (255 : UInt8).toNat = 255 from rfl]; omega),
      fun h => hne 0 (fun h0 => h h0.symm)⟩
  all_goals exact ⟨_, _, rfl, by decide, by decide, fun _ => by decide⟩

theorem length_lenencString (bytes : Bytes) :
    (lenencString bytes).length = (lenenc bytes.length).length + bytes.length := by
  rw [lenencString, length_append]

/-! ## Packets -/

/-- The longest payload of a packet. -/
def maxPacket : ℕ := 2 ^ 24 - 1

/-- A packet with its number. -/
def packet (number : UInt8) (payload : Bytes) : Bytes :=
  bytes 3 payload.length ++ number :: payload

/-- Packets one after the other, numbered on. -/
def packets : UInt8 → List Bytes → Bytes
  | _, [] => []
  | number, payload :: payloads => packet number payload ++ packets (number + 1) payloads

/-- A payload as the payloads of its packets. -/
def split (payload : Bytes) : List Bytes :=
  (range (payload.length / maxPacket + 1)).map fun i =>
    (payload.drop (i * maxPacket)).take maxPacket

theorem split_of_lt {payload : Bytes} (h : payload.length < maxPacket) :
    split payload = [payload] := by
  rw [split, Nat.div_eq_of_lt h]
  simp [take_of_length_le (le_of_lt h)]

@[simp] theorem length_packet (number : UInt8) (payload : Bytes) :
    (packet number payload).length = payload.length + 4 := by
  simp [packet]
  omega

theorem length_packets (number : UInt8) (payloads : List Bytes) :
    (packets number payloads).length = (payloads.map (·.length + 4)).sum := by
  induction payloads generalizing number with
  | nil => rfl
  | cons payload payloads ih =>
    rw [packets, length_append, length_packet, ih, map_cons, sum_cons]

/-! ## Responses -/

/-- A column definition. -/
structure ColumnDef where
  catalog : Bytes
  db : Bytes
  table : Bytes
  orgTable : Bytes
  name : Bytes
  orgName : Bytes
  charset : UInt16
  length : UInt32
  type : UInt8
  flags : UInt16
  decimals : UInt8
  default : Option Bytes
  deriving DecidableEq, Repr

namespace ColumnDef

variable (c : ColumnDef)

/-- The part of a definition whose length is fixed: its length, the numbers, and a filler. -/
def numbers : Bytes :=
  12 :: (bytes 2 c.charset.toNat ++ bytes 4 c.length.toNat ++
    c.type :: (bytes 2 c.flags.toNat ++ [c.decimals, 0, 0]))

def payload : Bytes :=
  lenencString c.catalog ++ (lenencString c.db ++ (lenencString c.table ++
    (lenencString c.orgTable ++ (lenencString c.name ++ (lenencString c.orgName ++
      (c.numbers ++ (c.default.map lenencString).getD []))))))

@[simp] theorem length_numbers : c.numbers.length = 13 := by simp [numbers]

end ColumnDef

/-- A row; `none` is `NULL`. -/
abbrev RowValues := List (Option Bytes)

/-- A value of a row. -/
def valueBytes : Option Bytes → Bytes
  | none => [251]
  | some bytes => lenencString bytes

def rowPayload (values : RowValues) : Bytes := values.flatMap valueBytes

theorem rowPayload_cons (value : Option Bytes) (values : RowValues) :
    rowPayload (value :: values) = valueBytes value ++ rowPayload values :=
  flatMap_cons

/-- A row that is sent in one packet does not begin as an EOF packet does. -/
theorem rowPayload_eq_cons {values : RowValues} (hne : values ≠ [])
    (hlt : (rowPayload values).length < maxPacket) :
    ∃ b rest, rowPayload values = b :: rest ∧ b ≠ 254 := by
  obtain ⟨value, values, rfl⟩ := exists_cons_of_ne_nil hne
  rw [rowPayload_cons, length_append] at hlt
  rw [rowPayload_cons]
  cases value with
  | none => exact ⟨251, _, rfl, by decide⟩
  | some bytes =>
    rw [valueBytes, length_lenencString, maxPacket] at hlt
    obtain ⟨b, rest, heq, hb, -⟩ := @lenenc_eq_cons bytes.length (by omega)
    rw [valueBytes, lenencString, heq]
    exact ⟨b, _, rfl, hb⟩

/-- An EOF packet. -/
def eofPayload (warnings status : UInt16) : Bytes :=
  254 :: (bytes 2 warnings.toNat ++ bytes 2 status.toNat)

/-- A result set. -/
structure ResultSet where
  columns : List ColumnDef
  rows : List RowValues
  warnings : UInt16
  status : UInt16
  lastWarnings : UInt16
  lastStatus : UInt16
  columns_ne : columns ≠ []
  length_row : ∀ row ∈ rows, row.length = columns.length

namespace ResultSet

variable (t : ResultSet)

/-- The payloads behind the number of columns. -/
def payloads : List Bytes :=
  t.columns.map ColumnDef.payload ++
    eofPayload t.warnings t.status ::
      (t.rows.map rowPayload ++ [eofPayload t.lastWarnings t.lastStatus])

end ResultSet

/-- What a server answers.  The payload of an OK packet begins with `0x00`, that of an error
packet with `0xff`. -/
inductive ServerResponse where
  | ok (rest : Bytes)
  | error (rest : Bytes)
  | resultSet (t : ResultSet)

namespace ServerResponse

def payloads : ServerResponse → List Bytes
  | .ok rest => [0 :: rest]
  | .error rest => [255 :: rest]
  | .resultSet t => lenenc t.columns.length :: t.payloads

/-- The bytes of a response; the first packet has the number one. -/
def wire (r : ServerResponse) : Bytes := packets 1 (r.payloads.flatMap split)

end ServerResponse

end Swoole.Mysql
