import Mathlib.Algebra.Group.Nat.Defs
import Swoole.Library.Lines

/-!
# Bodies of HTTP messages

What a client makes of the bytes of an HTTP/1.1 message.  A start line and some fields end with a
blank line.  The fields announce how the body is coded: in chunks, each behind its length in
hexadecimal digits, or as so many bytes.  Chunks go before lengths; lengths that differ, and codings
that are not known, announce nothing.

* `numeral_writeDigits` reads a number back;
* `unchunk_chunks` reads a row of chunks back, and `length_unchunk_lt` says that the chunked form of
  a body is longer than the body;
* `decode_eq` is the form in which a message is decoded.
-/

open List Lines

namespace HttpCoding

/-! ## Numbers -/

/-- The value of a digit. -/
def digit (c : UInt8) : Option ℕ :=
  if 48 ≤ c ∧ c ≤ 57 then some (c.toNat - 48)
  else if 97 ≤ c ∧ c ≤ 102 then some (c.toNat - 87)
  else if 65 ≤ c ∧ c ≤ 70 then some (c.toNat - 55)
  else none

/-- The number whose first digits have the value `n`. -/
def numeralFrom (base : ℕ) : ℕ → List UInt8 → Option ℕ
  | n, [] => some n
  | n, c :: cs =>
    match digit c with
    | none => none
    | some d => if d < base then numeralFrom base (base * n + d) cs else none

/-- The number that some digits stand for. -/
def numeral (base : ℕ) : List UInt8 → Option ℕ
  | [] => none
  | c :: cs => numeralFrom base 0 (c :: cs)

/-- The digit with the value `d`. -/
def digitChar (d : ℕ) : UInt8 := if d < 10 then UInt8.ofNat (48 + d) else UInt8.ofNat (87 + d)

/-- The digits of a number, at most `fuel` of them, in front of what is written already. -/
def writeDigits (base : ℕ) : ℕ → ℕ → List UInt8 → List UInt8
  | 0, _, written => written
  | fuel + 1, value, written =>
    if value / base = 0 then digitChar (value % base) :: written
    else writeDigits base fuel (value / base) (digitChar (value % base) :: written)

section Numbers

variable {base fuel n d : ℕ}

theorem digit_digitChar (hd : d < 16) : digit (digitChar d) = some d := by
  have hall : ∀ d < 16, digit (digitChar d) = some d := by decide
  exact hall d hd

theorem numeralFrom_digitChar (hbase : base ≤ 16) (hd : d < base) (n : ℕ) (cs : List UInt8) :
    numeralFrom base n (digitChar d :: cs) = numeralFrom base (base * n + d) cs := by
  rw [numeralFrom, digit_digitChar (lt_of_lt_of_le hd hbase)]
  exact if_pos hd

theorem numeralFrom_writeDigits (hbase : base ≤ 16) (hpos : 0 < base) :
    ∀ {fuel n : ℕ} (written : List UInt8), n < base ^ fuel →
      numeralFrom base 0 (writeDigits base fuel n written) = numeralFrom base n written := by
  intro fuel
  induction fuel with
  | zero =>
    intro n written hn
    obtain rfl : n = 0 := Nat.lt_one_iff.mp hn
    rfl
  | succ fuel ih =>
    intro n written hn
    have hmod : n % base < base := Nat.mod_lt n hpos
    have hdiv := Nat.div_add_mod n base
    unfold writeDigits
    split_ifs with hzero
    · rw [numeralFrom_digitChar hbase hmod, Nat.mul_zero, Nat.zero_add]
      rw [hzero, Nat.mul_zero, Nat.zero_add] at hdiv
      rw [hdiv]
    · have hlt : n / base < base ^ fuel := Nat.div_lt_of_lt_mul (by rwa [← Nat.pow_succ'])
      rw [ih _ hlt, numeralFrom_digitChar hbase hmod, hdiv]

theorem writeDigits_ne_nil (hfuel : fuel ≠ 0) (n : ℕ) (written : List UInt8) :
    writeDigits base fuel n written ≠ [] := by
  induction fuel generalizing n written with
  | zero => exact absurd rfl hfuel
  | succ fuel ih =>
    unfold writeDigits
    split_ifs
    · exact cons_ne_nil _ _
    · cases fuel with
      | zero => exact cons_ne_nil _ _
      | succ fuel => exact ih (Nat.succ_ne_zero fuel) _ _

/-- **A number is read back from its digits.** -/
theorem numeral_writeDigits (hbase : base ≤ 16) (hpos : 0 < base) (hfuel : fuel ≠ 0)
    (hn : n < base ^ fuel) : numeral base (writeDigits base fuel n []) = some n := by
  have hvalue := numeralFrom_writeDigits hbase hpos [] hn
  obtain ⟨c, cs, hcs⟩ := exists_cons_of_ne_nil (@writeDigits_ne_nil base fuel hfuel n [])
  rw [hcs] at hvalue ⊢
  exact hvalue

theorem notMem_writeDigits {c : UInt8} (hc : digit c = none) (hbase : base ≤ 16) (hpos : 0 < base)
    {written : List UInt8} (hw : c ∉ written) : c ∉ writeDigits base fuel n written := by
  induction fuel generalizing n written with
  | zero => exact hw
  | succ fuel ih =>
    have hne : c ≠ digitChar (n % base) := by
      rintro rfl
      rw [digit_digitChar (lt_of_lt_of_le (Nat.mod_lt n hpos) hbase)] at hc
      exact nomatch hc
    have hmem : c ∉ digitChar (n % base) :: written := fun h =>
      (mem_cons.mp h).elim hne hw
    unfold writeDigits
    split_ifs
    · exact hmem
    · exact ih hmem

end Numbers

/-! ## Chunks -/

/-- The body behind the blank line, if it is coded in chunks; what follows the last one is not
read. -/
def unchunk : ℕ → List UInt8 → Option (List UInt8)
  | 0, _ => none
  | fuel + 1, s =>
    match next 13 10 s with
    | none => none
    | some (line, rest) =>
      match numeral 16 line with
      | none => none
      | some 0 => if [13, 10] <+: rest then some [] else none
      | some (n + 1) =>
        if [13, 10] <+: rest.drop (n + 1) then
          (unchunk fuel (rest.drop (n + 3))).map (rest.take (n + 1) ++ ·)
        else none

/-- A chunk whose length is written as `size`. -/
def chunk (size data : List UInt8) : List UInt8 := size ++ [13, 10] ++ data ++ [13, 10]

variable {rest : List UInt8}

theorem unchunk_chunk {fuel : ℕ} {size data : List UInt8} (hcr : 13 ∉ size)
    (hsize : numeral 16 size = some data.length) (hne : data ≠ []) :
    unchunk (fuel + 1) (chunk size data ++ rest) = (unchunk fuel rest).map (data ++ ·) := by
  obtain ⟨n, hn⟩ := Nat.exists_eq_add_one_of_ne_zero fun h => hne (length_eq_zero_iff.mp h)
  have hline : chunk size data ++ rest = size ++ 13 :: 10 :: (data ++ (13 :: 10 :: rest)) := by
    simp [chunk]
  have hdrop : (data ++ (13 :: 10 :: rest)).drop (n + 1) = 13 :: 10 :: rest := by
    rw [← hn, drop_left]
  have hdrop' : (data ++ (13 :: 10 :: rest)).drop (n + 3) = rest := by
    rw [show n + 3 = (n + 1) + 2 from rfl, ← drop_drop, hdrop]
    rfl
  have htake : (data ++ (13 :: 10 :: rest)).take (n + 1) = data := by rw [← hn, take_left]
  rw [hline, unchunk, next_line hcr]
  simp only [hsize, hn, hdrop, hdrop', htake]
  exact if_pos ⟨rest, rfl⟩

theorem unchunk_last (fuel : ℕ) (rest : List UInt8) :
    unchunk (fuel + 1) (48 :: 13 :: 10 :: 13 :: 10 :: rest) = some [] := by
  have hline : next (13 : UInt8) 10 ([48] ++ 13 :: 10 :: 13 :: 10 :: rest) =
      some ([48], 13 :: 10 :: rest) := next_line (by decide)
  rw [singleton_append] at hline
  rw [unchunk, hline]
  exact if_pos ⟨rest, rfl⟩

/-- **A row of chunks is read back.** -/
theorem unchunk_chunks {size : List UInt8 → List UInt8} {pieces : List (List UInt8)}
    (hsize : ∀ p ∈ pieces, 13 ∉ size p ∧ numeral 16 (size p) = some p.length ∧ p ≠ []) :
    ∀ {fuel : ℕ}, pieces.length < fuel →
      unchunk fuel (pieces.flatMap (fun p => chunk (size p) p) ++ [48, 13, 10, 13, 10]) =
        some pieces.flatten := by
  induction pieces with
  | nil =>
    intro fuel hfuel
    obtain ⟨fuel, rfl⟩ := Nat.exists_eq_add_one_of_ne_zero (Nat.ne_zero_of_lt hfuel)
    exact unchunk_last fuel []
  | cons p pieces ih =>
    intro fuel hfuel
    obtain ⟨fuel, rfl⟩ := Nat.exists_eq_add_one_of_ne_zero (Nat.ne_zero_of_lt hfuel)
    obtain ⟨hcr, hvalue, hne⟩ := hsize p mem_cons_self
    rw [flatMap_cons, append_assoc, unchunk_chunk hcr hvalue hne,
      ih (fun q hq => hsize q (mem_cons_of_mem p hq)) (Nat.lt_of_succ_lt_succ hfuel)]
    rfl

theorem length_le_flatMap_chunk (size : List UInt8 → List UInt8) (pieces : List (List UInt8)) :
    pieces.length ≤ (pieces.flatMap fun p => chunk (size p) p).length := by
  induction pieces with
  | nil => exact Nat.le_refl 0
  | cons p pieces ih =>
    rw [flatMap_cons, length_append, length_cons, chunk]
    simp only [length_append, length_cons]
    omega

theorem length_unchunk_lt : ∀ {fuel : ℕ} {s body : List UInt8}, unchunk fuel s = some body →
    body.length < s.length := by
  intro fuel
  induction fuel with
  | zero => exact fun h => nomatch h
  | succ fuel ih =>
    intro s body h
    rw [unchunk] at h
    split at h
    · exact nomatch h
    · next line rest hnext =>
      have hlen := length_of_next hnext
      split at h
      · exact nomatch h
      · split_ifs at h
        obtain rfl := Option.some.inj h
        rw [length_nil]
        omega
      · next n _ =>
        split_ifs at h
        obtain ⟨tail, htail, rfl⟩ := Option.map_eq_some_iff.mp h
        have hlt := ih htail
        rw [length_drop] at hlt
        rw [length_append, length_take]
        omega

/-! ## Fields -/

/-- What a field announces. -/
inductive Coding where
  | chunked
  | length (n : ℕ)
  | unknown
  deriving DecidableEq, Repr

def lower (c : UInt8) : UInt8 := if 65 ≤ c ∧ c ≤ 90 then c + 32 else c

/-- The name of a field, in small letters. -/
def name (line : List UInt8) : List UInt8 := (line.takeWhile (· ≠ 58)).map lower

def blank (c : UInt8) : Bool := c == 32 || c == 9

/-- The value of a field, without the blanks around it. -/
def value (line : List UInt8) : List UInt8 :=
  (((line.dropWhile (· ≠ 58)).drop 1).dropWhile blank).reverse.dropWhile blank |>.reverse

def contentLength : List UInt8 := "content-length".toList.map Char.toUInt8

def transferEncoding : List UInt8 := "transfer-encoding".toList.map Char.toUInt8

def chunkedName : List UInt8 := "chunked".toList.map Char.toUInt8

/-- The coding that a line announces, if it does. -/
def coding (line : List UInt8) : Option Coding :=
  if name line = contentLength then
    match numeral 10 (value line) with
    | none => some .unknown
    | some n => some (.length n)
  else if name line = transferEncoding then
    if (value line).map lower = chunkedName then some .chunked else some .unknown
  else none

/-- The coding that all lines together announce. -/
def announced (codings : List Coding) : Option Coding :=
  if .chunked ∈ codings then some .chunked
  else
    match codings with
    | .length n :: rest => if ∀ c ∈ rest, c = .length n then some (.length n) else none
    | _ => none

/-- The body that the bytes behind the header stand for. -/
def bodyOf (rest : List UInt8) : Coding → Option (List UInt8)
  | .chunked => unchunk (rest.length + 1) rest
  | .length n => if n ≤ rest.length then some (rest.take n) else none
  | .unknown => none

/-- **The body of a message.** -/
def decode (s : List UInt8) : Option (List UInt8) :=
  (block 13 10 (s.length + 1) s).bind fun (lines, rest) =>
    (announced ((lines.drop 1).filterMap coding)).bind (bodyOf rest)

theorem length_lines_le_text (cr lf : UInt8) (lines : List (List UInt8)) :
    lines.length ≤ (text cr lf lines).length := by
  induction lines with
  | nil => exact Nat.le_refl 0
  | cons l lines ih =>
    rw [text_cons, length_append]
    simp only [length_cons]
    omega

/-- **A message is decoded** by what its fields announce. -/
theorem decode_eq {first : List UInt8} {lines : List (List UInt8)}
    (hclean : ∀ l ∈ first :: lines, 13 ∉ l) (hfull : ∀ l ∈ first :: lines, l ≠ []) :
    decode (text 13 10 (first :: lines) ++ 13 :: 10 :: rest) =
      (announced (lines.filterMap coding)).bind (bodyOf rest) := by
  have hfuel : (first :: lines).length <
      (text 13 10 (first :: lines) ++ 13 :: 10 :: rest).length + 1 := by
    rw [length_append]
    exact Nat.lt_succ_of_le ((length_lines_le_text 13 10 _).trans (Nat.le_add_right ..))
  rw [decode, block_text hclean hfull hfuel]
  rfl

variable {codings : List Coding}

theorem announced_of_chunked (h : .chunked ∈ codings) :
    announced codings = some .chunked := if_pos h

/-- **When the announced length is that of the body.**  The bytes behind the header are a part of
the body from its beginning on. -/
theorem bind_bodyOf_eq_some_iff {body : List UInt8} (h : rest <+: body)
    (hne : codings ≠ []) : (announced codings).bind (bodyOf rest) = some body ↔
      rest = body ∧ ∀ c ∈ codings, c = .length body.length := by
  constructor
  · intro hbody
    obtain ⟨c, hc, hdecoded⟩ := Option.bind_eq_some_iff.mp hbody
    have hle := h.length_le
    unfold announced at hc
    split_ifs at hc with hchunked
    · obtain rfl := Option.some.inj hc
      exact absurd (length_unchunk_lt hdecoded) (Nat.not_lt_of_le hle)
    · split at hc
      · next n cs =>
        split_ifs at hc with hall
        obtain rfl := Option.some.inj hc
        simp only [bodyOf] at hdecoded
        split_ifs at hdecoded with hn
        have htake := Option.some.inj hdecoded
        have hlen : n = body.length := by
          have := congrArg List.length htake
          rw [length_take] at this
          omega
        refine ⟨h.eq_of_length_le (by omega), fun c hc => ?_⟩
        rw [← hlen]
        exact (mem_cons.mp hc).elim id (hall c)
      · exact nomatch hc
  · rintro ⟨rfl, hall⟩
    obtain ⟨c, cs, rfl⟩ := exists_cons_of_ne_nil hne
    obtain rfl := hall c mem_cons_self
    have hno : Coding.chunked ∉ Coding.length rest.length :: cs := fun hmem =>
      nomatch hall _ hmem
    have hann : announced (.length rest.length :: cs) = some (.length rest.length) :=
      (if_neg hno).trans (if_pos fun c hc => hall c (mem_cons_of_mem _ hc))
    rw [hann, Option.bind_some, bodyOf, if_pos (le_rfl), take_length]

end HttpCoding
