import Swoole.Protocol.Settings

/-!
# The length mode of the synchronous client

`recv` of a client asks for the header of a package, allocates as many bytes as the header
announces, copies the header there and asks for the rest.  Only a negative length is refused.  A
header that comes in part, or announces less than its own size, is copied beyond the end of the
buffer, and the number of bytes asked for is negative; and nothing is compared with
`package_max_length`.
-/

namespace Swoole.Protocol

/-- What becomes of a header: the package is rejected or empty, or a buffer for `length` bytes is
allocated and `request` bytes are asked for behind the header. -/
inductive HeaderResult where
  | rejected
  | empty
  | allocated (length request : ℕ)

variable (p : Protocol)

/-- `recv` in the length mode, behind its first `recv`.  The length of the second one is an `int`.
-/
def recvHeader (header : Bytes) : HeaderResult :=
  let bufLen := p.getPackageLength header
  if bufLen < 0 then .rejected
  else if bufLen = p.headerSize then .empty
  else .allocated bufLen.toNat (toSizeT (toInt32 (bufLen - p.headerSize)))

/-- The header and what is asked for fit the buffer, and the package the limit. -/
def ResultFits : HeaderResult → Prop
  | .rejected | .empty => True
  | .allocated length request =>
    p.headerSize ≤ length ∧ length ≤ p.maxLength ∧ p.headerSize + request ≤ length

/-- **The client stays in its buffers**, `stack_buf` for the header and the one for the package. -/
def ClientFits (wire : Bytes) (a : RecvAnswer) : Prop :=
  match recv p.headerSize wire a with
  | (.error _, _) | (.data [], _) => True
  | (.data header, _) => header.length ≤ bufferSizeBig ∧ p.ResultFits (p.recvHeader header)

/-- A header that is complete, fits `stack_buf`, and whose length, if it is one, is that of the
header or between that and `package_max_length`. -/
def HeaderFits (header : Bytes) : Prop :=
  header.length = p.headerSize ∧ p.headerSize ≤ bufferSizeBig ∧
    (p.Representable header → p.frameLength header = p.headerSize ∨
      p.headerSize ≤ p.frameLength header ∧ p.frameLength header ≤ p.maxLength)

variable {p} {header : Bytes}

theorem resultFits_recvHeader_iff (hlen : header.length = p.headerSize) :
    p.ResultFits (p.recvHeader header) ↔ (p.Representable header →
      p.frameLength header = p.headerSize ∨
        p.headerSize ≤ p.frameLength header ∧ p.frameLength header ≤ p.maxLength) := by
  unfold recvHeader
  by_cases hrep : p.Representable header
  · rw [p.getPackageLength_of_representable hlen.ge hrep, forall_prop_of_true hrep]
    have hlt := hrep.2
    have hnonneg : 0 ≤ p.frameLength header := Int.add_nonneg (Int.natCast_nonneg _) hrep.1
    simp only [if_neg (Int.not_lt.mpr hnonneg)]
    split_ifs with hempty
    · exact iff_of_true trivial (.inl hempty)
    · rw [or_iff_right hempty]
      constructor
      · rintro ⟨hle, hmax, -⟩
        omega
      · rintro ⟨hle, hmax⟩
        refine ⟨by omega, by omega, ?_⟩
        rw [toInt32_of_lt (by omega) (by omega)]
        unfold toSizeT
        omega
  · simp only [if_pos (p.getPackageLength_of_not_representable hlen.ge hrep)]
    exact iff_of_true trivial fun h => absurd h hrep

theorem not_resultFits_of_lt (hlt : header.length < p.headerSize) :
    ¬ p.ResultFits (p.recvHeader header) := by
  simp only [recvHeader, p.getPackageLength_of_lt hlt, Int.lt_irrefl, if_false]
  rw [if_neg (by omega)]
  rintro ⟨hle, -⟩
  rw [Int.toNat_zero] at hle
  omega

/-- **The client stays in its buffers** exactly if the header it gets, if any, is one that fits. -/
theorem clientFits_iff (p : Protocol) (wire : Bytes) (a : RecvAnswer) :
    p.ClientFits wire a ↔ ∀ header rest, recv p.headerSize wire a = (.data header, rest) →
      header ≠ [] → p.HeaderFits header := by
  unfold ClientFits
  split
  next hrecv => simp [hrecv]
  next hrecv => simp [hrecv]
  next header rest hne hrecv =>
    obtain ⟨-, hle, -⟩ := recv_data hrecv
    constructor
    · rintro ⟨hbig, hfits⟩ _ _ heq -
      cases hrecv.symm.trans heq
      have hlen : header.length = p.headerSize :=
        le_antisymm hle (not_lt.mp fun hlt => not_resultFits_of_lt hlt hfits)
      exact ⟨hlen, hlen ▸ hbig, (resultFits_recvHeader_iff hlen).mp hfits⟩
    · intro h
      obtain ⟨hlen, hbig, hcond⟩ := h header rest hrecv hne
      exact ⟨hlen ▸ hbig, (resultFits_recvHeader_iff hlen).mpr hcond⟩

/-- A header of four bytes that announces one: it is copied into a buffer of two bytes, and the
number of bytes asked for is -3 as an `int`. -/
theorem not_clientFits_short_length :
    ¬ (⟨false, [], .N, 4, 0, 0, 2097152⟩ : Protocol).ClientFits [0, 0, 0, 1] (.deliver 3) := by
  rintro ⟨-, hle, -⟩
  exact absurd hle (by decide)

end Swoole.Protocol
