import Swoole.Core.Socket
import Mathlib.Data.List.TakeWhile

/-!
# Names in DNS packets

`swDNSResolver_domain_encode` writes a label, with its length in front, when it comes to the dot
behind it.  It appends a dot to the name for that, but has taken the length of the name before,
so it never comes to this one: the last label is not written.  The decoder is right.
-/

namespace Swoole.Dns

open List

/-- The loop of `swDNSResolver_domain_encode` from `src[i]` on; `label` is `src[len .. i)`. -/
def encodeLoop (label : Bytes) : Bytes → Bytes
  | [] => []
  | c :: rest =>
    if c = 46 then label.length.toUInt8 :: label ++ encodeLoop [] rest
    else encodeLoop (label ++ [c]) rest

/-- `swDNSResolver_domain_encode`. -/
def domainEncode (src : Bytes) : Bytes := encodeLoop [] src ++ [0]

/-- The loop of `swDNSResolver_domain_decode`, which has written `out` in front of the rest.  A
length is a `char` that becomes an `unsigned int`; `none` is a byte outside of the string. -/
def decodeLoop : ℕ → Bytes → Bytes → Option Bytes
  | fuel + 1, out, b :: rest =>
    if b = 0 ∨ 0 ∈ out then
      if out = [] then none else some (out.dropLast.takeWhile (· ≠ 0))
    else if 128 ≤ b ∨ rest.length < b.toNat then none
    else decodeLoop fuel (out ++ rest.take b.toNat ++ [46]) (rest.drop b.toNat)
  | _, _, _ => none

/-- `swDNSResolver_domain_decode`. -/
def domainDecode (str : Bytes) : Option Bytes := decodeLoop str.length [] str

/-- A label of a host name. -/
structure Label where
  bytes : Bytes
  ne : bytes ≠ []
  length_le : bytes.length ≤ 63
  no_dot : 46 ∉ bytes
  no_nul : 0 ∉ bytes

/-- Labels as a packet has them. -/
def wire (labels : List Label) : Bytes :=
  labels.flatMap (fun label => label.bytes.length.toUInt8 :: label.bytes) ++ [0]

/-- Labels with a dot behind each. -/
def dotted (labels : List Label) : Bytes := labels.flatMap fun label => label.bytes ++ [46]

/-- A host name: the last label has no dot behind it. -/
def text (front : List Label) (last : Label) : Bytes := dotted front ++ last.bytes

theorem encodeLoop_append (label : Bytes) {part : Bytes} (h : 46 ∉ part) (rest : Bytes) :
    encodeLoop label (part ++ rest) = encodeLoop (label ++ part) rest := by
  induction part generalizing label with
  | nil => simp
  | cons c part ih =>
    rw [mem_cons, not_or] at h
    rw [cons_append, encodeLoop, if_neg (Ne.symm h.1), ih _ h.2, append_assoc, singleton_append]

/-- **The labels in front of the last dot** are all that is written. -/
theorem domainEncode_text (front : List Label) (last : Label) :
    domainEncode (text front last) = wire front := by
  refine congrArg (· ++ [0]) ?_
  induction front with
  | nil =>
    have hlast := encodeLoop_append [] last.no_dot []
    rw [append_nil] at hlast
    exact hlast
  | cons label front ih =>
    rw [text, dotted, flatMap_cons, append_assoc, append_assoc,
      encodeLoop_append [] label.no_dot, singleton_append, encodeLoop, if_pos rfl, nil_append]
    exact congrArg _ ih

variable (label : Label) (labels : List Label)

theorem wire_cons :
    wire (label :: labels) = label.bytes.length.toUInt8 :: (label.bytes ++ wire labels) := by
  simp [wire]

theorem dotted_cons : dotted (label :: labels) = label.bytes ++ [46] ++ dotted labels := by
  simp [dotted]

/-- The decoder puts each label in the place of its length, and a dot behind it. -/
theorem decodeLoop_wire {out : Bytes} {fuel : ℕ} (hfuel : labels.length < fuel)
    (hout : 0 ∉ out) (hne : out ++ dotted labels ≠ []) :
    decodeLoop fuel out (wire labels) = some (out ++ dotted labels).dropLast := by
  induction labels generalizing out fuel with
  | nil =>
    obtain ⟨fuel, rfl⟩ := Nat.exists_eq_add_of_lt hfuel
    have hall : ∀ c ∈ out.dropLast, c ≠ 0 := fun c hc hzero =>
      hout (hzero ▸ (dropLast_sublist out).subset hc)
    rw [dotted, flatMap_nil, append_nil] at hne ⊢
    simp only [wire, flatMap_nil, nil_append, decodeLoop, true_or, if_true, if_neg hne]
    rw [takeWhile_eq_self_iff.mpr (by simpa using hall)]
  | cons label labels ih =>
    obtain ⟨fuel, rfl⟩ := Nat.exists_eq_add_of_lt hfuel
    have hpos := length_pos_iff.mpr label.ne
    have hle := label.length_le
    have hnat : label.bytes.length.toUInt8.toNat = label.bytes.length := by
      simp
      omega
    have hb : ¬ (label.bytes.length.toUInt8 = 0 ∨ 0 ∈ out) := by
      refine not_or.mpr ⟨fun hb => ?_, hout⟩
      rw [hb] at hnat
      exact absurd hnat hpos.ne
    have hroom : ¬ (128 ≤ label.bytes.length.toUInt8 ∨
        (label.bytes ++ wire labels).length < label.bytes.length.toUInt8.toNat) := by
      rw [UInt8.le_iff_toNat_le, hnat, length_append]
      simp
      omega
    rw [wire_cons, dotted_cons, decodeLoop, if_neg hb, if_neg hroom, hnat, take_left, drop_left,
      ← append_assoc, ← append_assoc]
    exact ih (by rw [length_cons]; omega) (by simp [hout, label.no_nul]) (by simp)

theorem length_lt_wire : labels.length < (wire labels).length := by
  induction labels with
  | nil => exact Nat.one_pos
  | cons label labels ih =>
    rw [wire_cons, length_cons, length_cons, length_append]
    omega

theorem domainDecode_wire (hne : labels ≠ []) :
    domainDecode (wire labels) = some (dotted labels).dropLast := by
  obtain ⟨label, rest, rfl⟩ := exists_cons_of_ne_nil hne
  exact decodeLoop_wire _ (length_lt_wire _) not_mem_nil (by simp [dotted])

/-- **No name comes back.**  Of every host name the encoder writes all labels but the last one;
the decoder would give back a name that is written in full. -/
theorem domainEncode_loses_last (front : List Label) (last : Label) :
    domainEncode (text front last) = wire front ∧
      domainEncode (text front last) ≠ wire (front ++ [last]) ∧
      domainDecode (wire (front ++ [last])) = some (text front last) ∧
      domainDecode (domainEncode (text front last)) ≠ some (text front last) := by
  have hlast := length_pos_iff.mpr last.ne
  rw [domainEncode_text]
  refine ⟨rfl, fun heq => ?_, ?_, fun heq => ?_⟩
  · have hlen := congrArg length heq
    simp only [wire, flatMap_append, flatMap_singleton, length_append, length_cons] at hlen
    omega
  · rw [domainDecode_wire _ (by simp), text, dotted, flatMap_append, flatMap_singleton,
      ← append_assoc, dropLast_concat, ← dotted]
  · rcases eq_or_ne front [] with rfl | hfront
    · cases heq
    · rw [domainDecode_wire _ hfront] at heq
      have hlen := congrArg length (Option.some.inj heq)
      rw [length_dropLast, text, length_append] at hlen
      omega

def labelA : Label := ⟨[97], by decide, by decide, by decide, by decide⟩

def labelB : Label := ⟨[98], by decide, by decide, by decide, by decide⟩

/-- Of `a.b` the first label is written, and of a name without a dot nothing. -/
theorem domainEncode_two_labels :
    domainEncode (text [labelA] labelB) = [1, 97, 0] ∧ domainDecode [1, 97, 0] = some [97] ∧
      domainEncode (text [] labelA) = [0] ∧ domainDecode [0] = none := by
  decide

end Swoole.Dns
