import Swoole.Core.Int
import Swoole.Library.Links
import Swoole.Library.StepRun

/-!
# `swFixedPool`

A pool of slices of one size.  Each slice has a header with a lock and two pointers, and the
slices stand in a doubly linked list: an allocation takes the slice at the head and moves it to
the tail, a free moves a slice to the head.  So the slices that are free stand in front of those
in use, and the head tells whether there is a free one.

The memory is one function per field of the header, by the address of the slice; what it holds
before `swFixedPool_init` is arbitrary.  `inUse` is not a field of the source: it is what has
been handed out and not given back.

`swFixedPool_init` begins a slice wherever the memory has not ended, and does not look at
`slice_num`.  If the memory is not a whole number of slices, the last one does not lie inside of
it and is one more than `slice_num`; it is the first one to be handed out, and the assertion of
`swFixedPool_free` fails for it.  `aborted` is set then.  `crashed` is an access through a null
pointer.
-/

open Function List

namespace Swoole

open StepRun

/-- `sizeof(swFixedPool_slice)`. -/
def sliceHeader : ℕ := 24

/-- `sizeof(swFixedPool) + sizeof(swMemoryPool)`. -/
def fixedPoolOverhead : ℕ := 80

/-- The headers of the slices, and the ends of the list. -/
structure SliceHeaders where
  links : Links ℕ
  lock : ℕ → Bool

namespace SliceHeaders

variable (s : SliceHeaders)

/-- `bzero(slice, sizeof(swFixedPool_slice))`. -/
def zero (slice : ℕ) : SliceHeaders where
  links :=
    { s.links with
      next := update s.links.next slice none
      pre := update s.links.pre slice none }
  lock := update s.lock slice false

/-- A new slice is put in front of the list. -/
def addSlice (slice : ℕ) : SliceHeaders :=
  match s.links.head with
  | some head =>
    { s with
      links :=
        { s.links with
          head := some slice
          next := update s.links.next slice (some head)
          pre := update s.links.pre head (some slice) } }
  | none => { s with links := { s.links with head := some slice, tail := some slice } }

def setPre (slice : ℕ) (pre : Option ℕ) : SliceHeaders :=
  { s with links := { s.links with pre := update s.links.pre slice pre } }

/-- The loop of `swFixedPool_init`, at most `fuel` rounds of it; `max` is where the memory
ends. -/
def initLoop (stride max : ℕ) : ℕ → SliceHeaders → ℕ → SliceHeaders
  | 0, s, _ => s
  | fuel + 1, s, cur =>
    if cur + stride < max then
      initLoop stride max fuel (((s.zero cur).addSlice cur).setPre cur (some (cur + stride)))
        (cur + stride)
    else ((s.zero cur).addSlice cur).setPre cur none

end SliceHeaders

/-- `swFixedPool`. -/
structure FixedPool extends SliceHeaders where
  memory : ℕ
  size : ℕ
  sliceNum : ℕ
  sliceSize : ℕ
  sliceUse : ℕ
  inUse : List ℕ
  aborted : Bool
  crashed : Bool

namespace FixedPool

section New

variable (next pre : ℕ → Option ℕ) (lock : ℕ → Bool)

/-- `swFixedPool_init`; each round goes on by more than one byte. -/
def init (memory size sliceNum sliceSize : ℕ) : FixedPool where
  toSliceHeaders :=
    SliceHeaders.initLoop (sliceHeader + sliceSize) (memory + size) (size + 1)
      ⟨⟨none, none, next, pre⟩, lock⟩ memory
  memory := memory
  size := size
  sliceNum := sliceNum
  sliceSize := sliceSize
  sliceUse := 0
  inUse := []
  aborted := false
  crashed := false

/-- `swFixedPool_new`, on the block that it is given; a product of two `uint32_t`s is one. -/
def new (block sliceNum sliceSize : ℕ) : FixedPool :=
  init next pre lock (block + fixedPoolOverhead)
    (toUInt32 (sliceSize * sliceNum) + sliceNum * sliceHeader) sliceNum sliceSize

/-- `swFixedPool_new2`; `slice_num` is rounded down. -/
def new2 (sliceSize block size : ℕ) : FixedPool :=
  let size := toSizeT (size - fixedPoolOverhead)
  init next pre lock (block + fixedPoolOverhead) size
    (toUInt32 (size / (sliceSize + sliceHeader) : ℕ)) sliceSize

end New

variable (p : FixedPool)

/-- The distance from one slice to the next. -/
def stride : ℕ := sliceHeader + p.sliceSize

/-- `swFixedPool_alloc`; the size that is asked for is not looked at. -/
def alloc : FixedPool × Option ℕ :=
  match p.links.head with
  | none => ({ p with crashed := true }, none)
  | some slice =>
    if p.lock slice then (p, none)
    else
      match (p.links.dropHead slice).bind fun links => links.pushBack slice with
      | none => ({ p with crashed := true }, none)
      | some links =>
        ({ p with
            lock := update p.lock slice true
            sliceUse := p.sliceUse + 1
            links := links
            inUse := slice :: p.inUse },
          some (slice + sliceHeader))

/-- `swFixedPool_free` behind its assertion, on the slice. -/
def release (slice : ℕ) : FixedPool :=
  let p' :=
    { p with
      sliceUse := if p.lock slice then p.sliceUse - 1 else p.sliceUse
      lock := update p.lock slice false
      inUse := p.inUse.erase slice }
  match p.links.pre slice with
  | none => p'
  | some _ =>
    match (p.links.unlink slice).bind fun links => links.pushFront slice with
    | none => { p' with crashed := true }
    | some links => { p' with links := links }

/-- `swFixedPool_free`. -/
def free (ptr : ℕ) : FixedPool :=
  if p.memory < ptr ∧ ptr < p.memory + p.size then p.release (ptr - sliceHeader)
  else { p with aborted := true }

/-- A call of one of the two functions. -/
inductive Op where
  | alloc
  | free (ptr : ℕ)
  deriving DecidableEq, Repr

def step (p : FixedPool) (op : Op) : FixedPool :=
  if p.aborted ∨ p.crashed then p
  else
    match op with
    | .alloc => p.alloc.1
    | .free ptr => p.free ptr

/-- Only slices in use are given back. -/
def Admissible (p : FixedPool) : Op → Prop
  | .alloc => True
  | .free ptr => ∃ slice ∈ p.inUse, ptr = slice + sliceHeader

instance (p : FixedPool) (op : Op) : Decidable (p.Admissible op) := by
  unfold Admissible
  split <;> infer_instance

/-! ## The contract -/

/-- The slices, in the order of the memory. -/
def slices : List ℕ := (range p.sliceNum).map fun i => p.memory + i * p.stride

/-- **The condition**: the memory is a whole number of slices that have a byte at least. -/
structure Whole : Prop where
  size_eq : p.size = p.sliceNum * p.stride
  pos : 0 < p.sliceSize
  two_le : 2 ≤ p.sliceNum

/-- **The contract of a state.** -/
structure Sound : Prop where
  /-- The list has every slice once, those in use behind the others. -/
  list : ∃ free used, p.links.Linked (free ++ used) ∧ (free ++ used).Perm p.slices ∧
    used.Perm p.inUse ∧ (∀ slice ∈ free, p.lock slice = false) ∧
    (∀ slice ∈ used, p.lock slice = true) ∧ p.sliceUse = used.length
  sound : p.crashed = false
  running : p.aborted = false

/-- **The contract of an allocation**: it hands out a slice that is not in use, if there is
one. -/
def Answers (p : FixedPool) : Op → Prop
  | .alloc =>
    (p.alloc.2 = none ↔ ∀ slice ∈ p.slices, slice ∈ p.inUse) ∧
      ∀ ptr ∈ p.alloc.2, ∃ slice ∈ p.slices, slice ∉ p.inUse ∧ ptr = slice + sliceHeader ∧
        p.alloc.1.inUse = slice :: p.inUse
  | .free _ => True

/-! ## The list of a new pool -/

end FixedPool

namespace SliceHeaders

variable {s : SliceHeaders} {memory stride : ℕ}

/-- The first `i` slices, the last one first. -/
def firstSlices (memory stride i : ℕ) : List ℕ :=
  ((range i).map fun j => memory + j * stride).reverse

theorem firstSlices_succ (i : ℕ) :
    firstSlices memory stride (i + 1) = (memory + i * stride) :: firstSlices memory stride i := by
  simp [firstSlices, range_succ]

theorem not_mem_firstSlices {i : ℕ} (hstride : 0 < stride) :
    memory + i * stride ∉ firstSlices memory stride i := by
  simp only [firstSlices, mem_reverse, mem_map, mem_range]
  rintro ⟨j, hj, heq⟩
  have hmul := Nat.mul_lt_mul_of_pos_right hj hstride
  omega

/-- The loop of `swFixedPool_init` in front of slice `i`.  The first slice of the list is linked
back to one that is not in the list yet. -/
structure Building (memory stride i : ℕ) (pre : Option ℕ) (s : SliceHeaders) : Prop where
  nodup : (firstSlices memory stride i).Nodup
  head : s.links.head = (firstSlices memory stride i).head?
  tail : s.links.tail = (firstSlices memory stride i).getLast?
  segment : s.links.Segment pre (firstSlices memory stride i) none
  lock : ∀ slice ∈ firstSlices memory stride i, s.lock slice = false

theorem addSlice_segment {xs : List ℕ} {cur : ℕ} {pre pre' : Option ℕ} (hcur : cur ∉ xs)
    (hnodup : xs.Nodup) (hhead : s.links.head = xs.head?) (htail : s.links.tail = xs.getLast?)
    (hsegment : s.links.Segment pre xs none) :
    let s' := ((s.zero cur).addSlice cur).setPre cur pre'
    s'.links.head = some cur ∧ s'.links.tail = (cur :: xs).getLast? ∧
      s'.links.Segment pre' (cur :: xs) none ∧ s'.lock = update s.lock cur false := by
  cases xs with
  | nil =>
    have hempty : (s.zero cur).links.head = none := hhead
    simp only [addSlice, hempty]
    exact ⟨rfl, rfl, ⟨update_self .., update_self .., trivial⟩, rfl⟩
  | cons first rest =>
    have hfirst : (s.zero cur).links.head = some first := hhead
    simp only [addSlice, hfirst]
    refine ⟨rfl, ?_, ⟨update_self .., update_self .., ?_⟩, rfl⟩
    · rw [getLast?_cons_cons]
      exact htail
    · refine (hsegment.setPre (nodup_cons.mp hnodup).1).congr fun y hy => ?_
      have hy' := ne_of_mem_of_not_mem hy hcur
      simp only [setPre, zero, update_of_ne hy', true_and]
      by_cases hfirst' : y = first
      · subst hfirst'
        simp
      · simp [hfirst', hy']

theorem Building.next {i : ℕ} {pre pre' : Option ℕ} (h : Building memory stride i pre s)
    (hstride : 0 < stride) :
    Building memory stride (i + 1) pre'
      (((s.zero (memory + i * stride)).addSlice (memory + i * stride)).setPre
        (memory + i * stride) pre') := by
  have hcur := @not_mem_firstSlices memory stride i hstride
  obtain ⟨hhead, htail, hsegment, hlock⟩ :=
    @addSlice_segment s _ _ pre pre' hcur h.nodup h.head h.tail h.segment
  rw [← firstSlices_succ] at htail hsegment
  refine ⟨?_, ?_, htail, hsegment, fun slice hslice => ?_⟩
  · rw [firstSlices_succ]
    exact nodup_cons.mpr ⟨hcur, h.nodup⟩
  · rw [firstSlices_succ]
    exact hhead
  · rw [hlock]
    rw [firstSlices_succ] at hslice
    rcases mem_cons.mp hslice with rfl | hold
    · exact update_self ..
    · rw [update_of_ne (ne_of_mem_of_not_mem hold hcur)]
      exact h.lock slice hold

/-- The loop of `swFixedPool_init` makes the list of all slices. -/
theorem Building.initLoop {size i fuel : ℕ} {pre : Option ℕ} (h : Building memory stride i pre s)
    (hstride : 0 < stride) (hi : i ≤ (size - 1) / stride) (hfuel : (size - 1) / stride < fuel + i) :
    Building memory stride ((size - 1) / stride + 1) none
      (initLoop stride (memory + size) fuel s (memory + i * stride)) := by
  induction fuel generalizing s i pre with
  | zero => omega
  | succ fuel ih =>
    have hstep : memory + i * stride + stride = memory + (i + 1) * stride := by
      rw [Nat.add_mul, one_mul, add_assoc]
    have hmore : memory + (i + 1) * stride < memory + size ↔ i + 1 ≤ (size - 1) / stride := by
      rw [Nat.le_div_iff_mul_le hstride]
      omega
    rw [SliceHeaders.initLoop, hstep]
    by_cases hnext : i + 1 ≤ (size - 1) / stride
    · rw [if_pos (hmore.mpr hnext)]
      exact ih (h.next hstride) hnext (by omega)
    · rw [if_neg (fun hlt => hnext (hmore.mp hlt))]
      have hlast : i = (size - 1) / stride := by omega
      rw [← hlast]
      exact h.next hstride

end SliceHeaders

namespace FixedPool

variable {p : FixedPool}

section Init

variable {next pre : ℕ → Option ℕ} {lock : ℕ → Bool} {memory size sliceNum sliceSize : ℕ}

theorem Whole.init_sound (h : (init next pre lock memory size sliceNum sliceSize).Whole) :
    (init next pre lock memory size sliceNum sliceSize).Sound := by
  have hsize : size = sliceNum * (sliceHeader + sliceSize) := h.size_eq
  have htwo : 2 ≤ sliceNum := h.two_le
  have hstride : 0 < sliceHeader + sliceSize := Nat.add_pos_left (by decide) _
  have hstart : SliceHeaders.Building memory (sliceHeader + sliceSize) 0 none
      ⟨⟨none, none, next, pre⟩, lock⟩ :=
    ⟨nodup_nil, rfl, rfl, trivial, nofun⟩
  have hfuel : (size - 1) / (sliceHeader + sliceSize) < size + 1 + 0 := by
    have := Nat.div_le_self (size - 1) (sliceHeader + sliceSize)
    omega
  -- the loop counts the slices rounded up, which is what they are
  have hcount : (size - 1) / (sliceHeader + sliceSize) + 1 = sliceNum := by
    have hlt : size - 1 < sliceNum * (sliceHeader + sliceSize) := by
      have := Nat.mul_le_mul htwo hstride
      omega
    have hle : (sliceNum - 1) * (sliceHeader + sliceSize) ≤ size - 1 := by
      rw [hsize, Nat.sub_mul, one_mul]
      omega
    have := (Nat.div_lt_iff_lt_mul hstride).mpr hlt
    have := (Nat.le_div_iff_mul_le hstride).mpr hle
    omega
  have hbuilt := hstart.initLoop hstride (Nat.zero_le _) hfuel
  rw [Nat.zero_mul, Nat.add_zero, hcount] at hbuilt
  refine ⟨⟨_, [], ?_, ?_, .nil, hbuilt.lock, nofun, rfl⟩, rfl, rfl⟩
  · rw [append_nil]
    exact ⟨hbuilt.nodup, hbuilt.head, hbuilt.tail, hbuilt.segment⟩
  · rw [append_nil]
    exact reverse_perm _

end Init

/-! ## The operations -/

/-- **An allocation** takes the head of the list if that is free. -/
theorem Sound.alloc (h : p.Sound) (htwo : 2 ≤ p.sliceNum) :
    p.alloc.1.Sound ∧ p.Answers .alloc := by
  obtain ⟨free, used, hlinked, hperm, huse, hfree, hused, hcount⟩ := h.list
  have hlen : 2 ≤ (free ++ used).length := by
    rwa [hperm.length_eq, slices, length_map, length_range]
  cases free with
  | nil =>
    -- every slice is in use, so the head of the list is locked
    rw [nil_append] at hlen
    obtain ⟨first, rest, rfl⟩ := exists_cons_of_length_pos (by omega : 0 < used.length)
    have hhead : p.links.head = some first := hlinked.head_eq
    have hlock : p.lock first = true := hused first mem_cons_self
    have halloc : p.alloc = (p, none) := by
      rw [FixedPool.alloc, hhead]
      simp only [hlock, if_true]
    have hall : ∀ slice ∈ p.slices, slice ∈ p.inUse := fun slice hslice =>
      huse.mem_iff.mp (hperm.mem_iff.mpr hslice)
    rw [Answers, halloc]
    exact ⟨h, ⟨fun _ => hall, fun _ => rfl⟩, nofun⟩
  | cons slice free =>
    have hhead : p.links.head = some slice := hlinked.head_eq
    have hlock : p.lock slice = false := hfree slice mem_cons_self
    -- with a second slice the list is not empty while the first one is moved to its end
    obtain ⟨second, others, hrest⟩ : ∃ second others, free ++ used = second :: others := by
      refine exists_cons_of_length_pos ?_
      simp only [cons_append, length_cons] at hlen
      omega
    have hout : slice ∉ free ++ used := (nodup_cons.mp hlinked.nodup).1
    rw [cons_append, hrest] at hlinked
    obtain ⟨dropped, hdrop, hdropped⟩ := hlinked.dropHead
    obtain ⟨links, hpush, hlinks⟩ :=
      hdropped.pushBack (cons_ne_nil second others) (hrest ▸ hout)
    rw [← hrest, append_assoc] at hlinks
    have halloc : p.alloc =
        ({ p with
            lock := update p.lock slice true
            sliceUse := p.sliceUse + 1
            links := links
            inUse := slice :: p.inUse }, some (slice + sliceHeader)) := by
      rw [FixedPool.alloc, hhead]
      simp only [hlock, hdrop, Option.bind_some, hpush, Bool.false_eq_true, if_false]
    have hslice : slice ∈ p.slices := hperm.mem_iff.mp mem_cons_self
    have hidle : slice ∉ p.inUse := fun hin =>
      hout (mem_append_right free (huse.mem_iff.mpr hin))
    rw [Answers, halloc]
    refine ⟨⟨⟨free, used ++ [slice], hlinks, ?_, ?_, ?_, ?_, ?_⟩, h.sound, h.running⟩,
      ⟨nofun, fun hall => absurd (hall slice hslice) hidle⟩, fun ptr hptr => ?_⟩
    · rw [← append_assoc]
      exact (perm_append_singleton slice (free ++ used)).trans hperm
    · exact (perm_append_singleton slice used).trans (huse.cons slice)
    · intro other hother
      have hne : other ≠ slice :=
        ne_of_mem_of_not_mem (mem_append_left used hother) hout
      exact (update_of_ne hne _ _).trans (hfree other (mem_cons_of_mem slice hother))
    · intro other hother
      by_cases hne : other = slice
      · rw [hne]
        exact update_self ..
      · rw [mem_append, mem_singleton, or_iff_left hne] at hother
        exact (update_of_ne hne _ _).trans (hused other hother)
    · rw [length_append, length_singleton, ← hcount]
    · exact ⟨slice, hslice, hidle, (Option.some.inj hptr).symm, rfl⟩

/-- **A free** puts the slice at the head of the list. -/
theorem Sound.release (h : p.Sound) {slice : ℕ} (hslice : slice ∈ p.inUse) :
    (p.release slice).Sound := by
  obtain ⟨free, used, hlinked, hperm, huse, hfree, hused, hcount⟩ := h.list
  obtain ⟨before, after, rfl⟩ := append_of_mem (huse.mem_iff.mpr hslice)
  have hlock : p.lock slice = true := hused slice (by simp)
  rw [← append_assoc] at hlinked
  obtain ⟨hnodup, hnodup', hdisjoint⟩ := nodup_append.mp hlinked.nodup
  have hout : slice ∉ free ++ before ++ after := by
    rw [mem_append, not_or]
    exact ⟨fun hin => hdisjoint slice hin slice mem_cons_self rfl, (nodup_cons.mp hnodup').1⟩
  -- in both branches the list is now `slice :: (free ++ before ++ after)`
  have hnext : ∀ links : Links ℕ, links.Linked (slice :: (free ++ before ++ after)) →
      Sound
        { p with
          sliceUse := p.sliceUse - 1
          lock := update p.lock slice false
          inUse := p.inUse.erase slice
          links := links } := by
    intro links hlinks
    refine ⟨⟨slice :: free, before ++ after, ?_, ?_, ?_, ?_, ?_, ?_⟩, h.sound, h.running⟩
    · rw [cons_append, ← append_assoc]
      exact hlinks
    · rw [cons_append, ← append_assoc]
      rw [← append_assoc] at hperm
      exact perm_middle.symm.trans hperm
    · have herase := huse.erase slice
      have hbefore : slice ∉ before := fun hin => hout (by simp [hin])
      rwa [erase_append_right _ hbefore, erase_cons_head] at herase
    · intro other hother
      by_cases hne : other = slice
      · rw [hne]
        exact update_self ..
      · exact (update_of_ne hne _ _).trans
          (hfree other ((mem_cons.mp hother).resolve_left hne))
    · intro other hother
      have hne : other ≠ slice := by
        rintro rfl
        exact hout (by simpa [or_assoc] using .inr (mem_append.mp hother))
      refine (update_of_ne hne _ _).trans (hused other ?_)
      exact (sublist_cons_self slice after).append_left before |>.mem hother
    · change p.sliceUse - 1 = _
      rw [hcount, length_append, length_append, length_cons]
      omega
  rw [FixedPool.release]
  simp only [hlock, if_true]
  by_cases hfront : free ++ before = []
  · -- the slice is at the head already, and `swFixedPool_free` leaves the list alone
    rw [hfront] at hlinked hnext
    have hpre : p.links.pre slice = none := hlinked.segment.1
    rw [hpre]
    exact hnext p.links hlinked
  · have hpre : p.links.pre slice = some ((free ++ before).getLast hfront) := by
      rw [(Links.segment_append.mp hlinked.segment).2.1, getLast?_eq_some_getLast hfront,
        Option.some_or]
    obtain ⟨cut, hcut, hlinked'⟩ := hlinked.unlink hfront
    obtain ⟨links, hpush, hlinks⟩ :=
      hlinked'.pushFront (append_ne_nil_of_left_ne_nil hfront after) hout
    simp only [hpre, hcut, Option.bind_some, hpush]
    exact hnext links hlinks

/-- **A free** of a slice in use, which lies inside of the memory. -/
theorem Sound.free (h : p.Sound) (hwhole : p.Whole) {slice : ℕ} (hslice : slice ∈ p.inUse) :
    (p.free (slice + sliceHeader)).Sound := by
  obtain ⟨free, used, -, hperm, huse, -, -, -⟩ := h.list
  have hmem : slice ∈ p.slices :=
    hperm.mem_iff.mp (mem_append_right free (huse.mem_iff.mpr hslice))
  obtain ⟨i, hi, rfl⟩ := mem_map.mp hmem
  -- the memory is a whole number of slices, so that the last one ends in it too
  have hend : (i + 1) * p.stride ≤ p.size := by
    rw [hwhole.size_eq]
    exact Nat.mul_le_mul_right _ (mem_range.mp hi)
  have hpos := hwhole.pos
  rw [Nat.add_mul, one_mul] at hend
  rw [FixedPool.free, if_pos, Nat.add_sub_cancel]
  · exact h.release hslice
  · unfold stride sliceHeader at *
    omega

theorem Whole.alloc (h : p.Whole) : p.alloc.1.Whole := by
  unfold FixedPool.alloc
  split
  · exact ⟨h.size_eq, h.pos, h.two_le⟩
  · split_ifs
    · exact h
    · split <;> exact ⟨h.size_eq, h.pos, h.two_le⟩

theorem Whole.release (h : p.Whole) (slice : ℕ) : (p.release slice).Whole := by
  unfold FixedPool.release
  dsimp only
  split
  · exact ⟨h.size_eq, h.pos, h.two_le⟩
  · split <;> exact ⟨h.size_eq, h.pos, h.two_le⟩

theorem Whole.free (h : p.Whole) (ptr : ℕ) : (p.free ptr).Whole := by
  unfold FixedPool.free
  split_ifs
  · exact h.release _
  · exact ⟨h.size_eq, h.pos, h.two_le⟩

theorem Whole.step (h : p.Whole) (op : Op) : (p.step op).Whole := by
  unfold FixedPool.step
  split_ifs
  · exact h
  · cases op with
    | alloc => exact h.alloc
    | free ptr => exact h.free ptr

/-- **One call.** -/
theorem Sound.step {op : Op} (h : p.Sound) (hwhole : p.Whole) (hadm : p.Admissible op) :
    (p.step op).Sound ∧ p.Answers op := by
  have hrunning : ¬ (p.aborted = true ∨ p.crashed = true) := by
    rw [h.running, h.sound]
    decide
  unfold FixedPool.step
  rw [if_neg hrunning]
  cases op with
  | alloc => exact h.alloc hwhole.two_le
  | free ptr =>
    obtain ⟨slice, hslice, rfl⟩ := hadm
    exact ⟨h.free hwhole hslice, trivial⟩

section Run

variable (next pre : ℕ → Option ℕ) (lock : ℕ → Bool)

/-- **The pool keeps its contract** if its memory is a whole number of slices, whatever the memory
held before. -/
theorem slices_consistent_run (memory size sliceNum sliceSize : ℕ) (ops : List Op)
    (hwhole : (init next pre lock memory size sliceNum sliceSize).Whole)
    (hadm : EachStep step Admissible (init next pre lock memory size sliceNum sliceSize) ops) :
    (∀ used, used <+: ops →
        (run step (init next pre lock memory size sliceNum sliceSize) used).Sound) ∧
      EachStep step Answers (init next pre lock memory size sliceNum sliceSize) ops := by
  have hkeeps : ∀ (p : FixedPool) (op : Op), p.Sound ∧ p.Whole → p.Admissible op →
      (p.step op).Sound ∧ (p.step op).Whole :=
    fun _ op h hop => ⟨(h.1.step h.2 hop).1, h.2.step op⟩
  refine ⟨fun used hpre => ?_, ?_⟩
  · exact ((hadm.restrict hpre).run_invariant hkeeps ⟨hwhole.init_sound, hwhole⟩).1
  · exact hadm.imp hkeeps (fun _ _ h hop => (h.1.step h.2 hop).2) ⟨hwhole.init_sound, hwhole⟩

end Run

/-- Three slices of eight bytes: all are handed out, then one from the middle of the list is given
back and handed out again. -/
theorem consistent_three_slices :
    let p := new (fun _ => some 7) (fun _ => some 7) (fun _ => true) 920 3 8
    let ops : List Op :=
      [.alloc, .alloc, .alloc, .alloc, .free 1056, .alloc, .free 1088, .free 1024]
    EachStep step Admissible p ops ∧
      (run step p (ops.take 3)).inUse = [1000, 1032, 1064] ∧
      (run step p (ops.take 4)).alloc.2 = none ∧
      (run step p (ops.take 5)).alloc.2 = some 1056 ∧ EachStep step Answers p ops :=
  ⟨by decide, by decide, by decide, by decide,
    (slices_consistent_run _ _ _ 1000 96 3 8 _ ⟨by decide, by decide, by decide⟩ (by decide)).2⟩

/-- **A slice that sticks out.**  A block of 180 bytes has 100 for three slices of 32 bytes, but
four are laid out.  The first one that is handed out begins four bytes before the end of the
memory, and cannot be given back. -/
theorem not_consistent_fourth_slice :
    let p := new2 (fun _ => none) (fun _ => none) (fun _ => false) 8 920 180
    p.size = 100 ∧ p.sliceNum = 3 ∧ p.alloc.2 = some 1120 ∧
      EachStep step Admissible p [.alloc, .free 1120] ∧
      ¬ (run step p [.alloc]).Sound ∧ ¬ (run step p [.alloc, .free 1120]).Sound := by
  intro p
  have hnum : (run step p [.alloc]).slices = [1000, 1032, 1064] := by decide
  refine ⟨by decide, by decide, by decide, by decide, fun h => ?_, fun h => ?_⟩
  · obtain ⟨free, used, -, hperm, huse, -⟩ := h.list
    have hin : 1096 ∈ used := huse.mem_iff.mpr (by decide)
    have hslice := hperm.mem_iff.mp (mem_append_right free hin)
    rw [hnum] at hslice
    exact absurd hslice (by decide)
  · exact absurd h.running (by decide)

end FixedPool

end Swoole
