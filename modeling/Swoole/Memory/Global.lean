import Mathlib.Algebra.Group.Nat.Defs
import Swoole.Library.Span
import Swoole.Library.StepRun

/-!
# The global memory allocator

`swMemoryGlobal` hands out memory that is never given back.  It takes pages from the system,
keeps the address of the next page in the first eight bytes of each, and cuts blocks from the
rest of the current page one behind the other.  Its own records are the first block of the
first page.

`size` counts what a page has behind its pointer, but a request is only refused when it is
larger than `pagesize`.  A request in between gets a new page and does not fit into it.

What the system answers to a request for a page is an input.  Pages do not overlap: `Fresh`
says so of every page that is handed over.
-/

namespace Swoole

open StepRun List

/-- `sizeof(void*)`. -/
def pointerSize : ℕ := 8

/-- `sizeof(swMemoryGlobal)`. -/
def memoryGlobalSize : ℕ := 168

/-- `sizeof(swMemoryPool)`. -/
def memoryPoolSize : ℕ := 32

/-- An `int` that `swMemoryGlobal_new` takes for a page size. -/
structure PageSize where
  val : ℕ
  min_le : 256 ≤ val
  lt : val < 2 ^ 31

/-- `swMemoryGlobal`, with the pages it has been given and the blocks it has handed out.
Addresses are numbers. -/
structure MemoryGlobal where
  pagesize : PageSize
  size : ℕ
  mem : ℕ
  offset : ℕ
  curPage : ℕ
  locked : Bool
  pages : List ℕ
  /-- The allocator's own records, and every block that was returned. -/
  blocks : List Span

/-- A request, and the page that the system has if one is needed. -/
structure MemoryRequest where
  size : ℕ
  page : Option ℕ
  deriving DecidableEq, Repr

namespace MemoryGlobal

/-- `swMemoryGlobal_new_page`. -/
def newPage (gm : MemoryGlobal) (page : ℕ) : MemoryGlobal :=
  { gm with
    offset := 0
    size := gm.pagesize.val - pointerSize
    mem := page + pointerSize
    pages := page :: gm.pages }

/-- `swMemoryGlobal_new`, on its first page. -/
def new (pagesize : PageSize) (page : ℕ) : MemoryGlobal where
  pagesize := pagesize
  size := pagesize.val - pointerSize
  mem := page + pointerSize
  offset := memoryGlobalSize + memoryPoolSize
  curPage := page
  locked := false
  pages := [page]
  blocks := [⟨page + pointerSize, memoryGlobalSize + memoryPoolSize⟩]

/-- The end of `swMemoryGlobal_alloc`: a block is cut from the current page. -/
def cut (gm : MemoryGlobal) (size : ℕ) : MemoryGlobal × Option ℕ :=
  ({ gm with
      offset := gm.offset + size
      locked := false
      blocks := ⟨gm.mem + gm.offset, size⟩ :: gm.blocks },
    some (gm.mem + gm.offset))

/-- `swMemoryGlobal_alloc`.  The two ways to return `NULL` keep the lock, and then no call gets
past it. -/
def alloc (gm : MemoryGlobal) (request : MemoryRequest) : MemoryGlobal × Option ℕ :=
  if gm.locked then (gm, none)
  else if gm.pagesize.val < request.size then ({ gm with locked := true }, none)
  else if gm.size < gm.offset + request.size then
    match request.page with
    | none => ({ gm with locked := true }, none)
    | some page => ({ gm.newPage page with curPage := page }).cut request.size
  else gm.cut request.size

def step (gm : MemoryGlobal) (request : MemoryRequest) : MemoryGlobal := (gm.alloc request).1

/-! ## Blocks -/

/-- A page. -/
def page (gm : MemoryGlobal) (start : ℕ) : Span := ⟨start, gm.pagesize.val⟩

/-- What is left of a page behind the address of the next one. -/
def usable (gm : MemoryGlobal) (start : ℕ) : Span :=
  ⟨start + pointerSize, gm.pagesize.val - pointerSize⟩

/-- **Blocks lie inside of pages and apart from each other.** -/
structure Sound (gm : MemoryGlobal) : Prop where
  within : ∀ block ∈ gm.blocks, ∃ start ∈ gm.pages, block.Within (gm.usable start)
  apart : gm.blocks.Pairwise Span.Apart

/-- The pointer that a request returns is the start of the one block that is new; a request that
returns none makes no block. -/
def Returns (gm : MemoryGlobal) (request : MemoryRequest) : Prop :=
  match (gm.alloc request).2 with
  | none => (gm.alloc request).1.blocks = gm.blocks
  | some ptr => (gm.alloc request).1.blocks = ⟨ptr, request.size⟩ :: gm.blocks

/-- A page that the system hands over is not part of one it has handed over before. -/
def Fresh (gm : MemoryGlobal) (request : MemoryRequest) : Prop :=
  ∀ start ∈ request.page, ∀ old ∈ gm.pages, (gm.page start).Apart (gm.page old)
  deriving Decidable

/-- The request fits into a page, or it is refused. -/
def Fits (gm : MemoryGlobal) (request : MemoryRequest) : Prop :=
  request.size ≤ gm.pagesize.val - pointerSize ∨ gm.pagesize.val < request.size ∨
    request.page = none ∨ gm.locked = true
  deriving Decidable

/-- The invariant: a block lies in front of the offset, or in an earlier page. -/
structure Inv (gm : MemoryGlobal) : Prop where
  size : gm.size = gm.pagesize.val - pointerSize
  mem : ∃ start rest, gm.pages = start :: rest ∧ gm.mem = start + pointerSize ∧
    (∀ old ∈ rest, (gm.page start).Apart (gm.page old)) ∧
    ∀ block ∈ gm.blocks, block.stop ≤ gm.mem + gm.offset ∨
      ∃ old ∈ rest, block.Within (gm.usable old)

theorem usable_within_page (gm : MemoryGlobal) (start : ℕ) :
    (gm.usable start).Within (gm.page start) := by
  have hmin := gm.pagesize.min_le
  simp only [Span.Within, Span.stop, usable, page, pointerSize]
  omega

variable {gm : MemoryGlobal}

/-- **A block that fits is cut** from the current page. -/
theorem Inv.cut (h : gm.Inv) (hsound : gm.Sound) {size : ℕ} (hle : gm.offset + size ≤ gm.size) :
    (gm.cut size).1.Inv ∧ (gm.cut size).1.Sound := by
  obtain ⟨start, rest, hpages, hmem, hapart, hblocks⟩ := h.mem
  have hwithin : (⟨gm.mem + gm.offset, size⟩ : Span).Within (gm.usable start) := by
    have hsize := h.size
    simp only [Span.Within, Span.stop, usable, hmem]
    omega
  refine ⟨⟨h.size, start, rest, hpages, hmem, hapart, fun block hblock => ?_⟩, ?_, ?_⟩
  · show block.stop ≤ gm.mem + (gm.offset + size) ∨ _
    rcases mem_cons.mp hblock with rfl | hold
    · exact .inl (by simp only [Span.stop]; omega)
    · exact (hblocks block hold).imp_left (fun hstop => by omega)
  · intro block hblock
    rcases mem_cons.mp hblock with rfl | hold
    · exact ⟨start, by rw [show (gm.cut size).1.pages = gm.pages from rfl, hpages]; simp, hwithin⟩
    · exact hsound.within block hold
  · -- an older block ends in front of the offset, or lies in a page that is apart from this one
    refine pairwise_cons.mpr ⟨fun block hblock => ?_, hsound.apart⟩
    rcases hblocks block hblock with hstop | ⟨old, hold, hin⟩
    · exact .inr hstop
    · exact ((hapart old hold).mono (gm.usable_within_page start)
        (gm.usable_within_page old)).mono hwithin hin

variable {request : MemoryRequest}

/-- **One request.** -/
theorem Inv.step (h : gm.Inv) (hsound : gm.Sound) (hfresh : gm.Fresh request)
    (hfits : gm.Fits request) : (gm.step request).Inv ∧ (gm.step request).Sound := by
  unfold MemoryGlobal.step alloc
  split_ifs with hlocked hlarge hfull
  · exact ⟨h, hsound⟩
  · exact ⟨⟨h.size, h.mem⟩, hsound.within, hsound.apart⟩
  · cases hpage : request.page with
    | none => exact ⟨⟨h.size, h.mem⟩, hsound.within, hsound.apart⟩
    | some page =>
      have hnew : ({ gm.newPage page with curPage := page } : MemoryGlobal).Inv := by
        refine ⟨rfl, page, gm.pages, rfl, rfl, hfresh page hpage, fun block hblock => ?_⟩
        exact .inr (hsound.within block hblock)
      have hnewSound : ({ gm.newPage page with curPage := page } : MemoryGlobal).Sound := by
        refine ⟨fun block hblock => ?_, hsound.apart⟩
        obtain ⟨start, hstart, hwithin⟩ := hsound.within block hblock
        exact ⟨start, mem_cons_of_mem page hstart, hwithin⟩
      refine hnew.cut hnewSound ?_
      -- the test in `swMemoryGlobal_alloc` forgets the pointer at the start of the page
      show 0 + request.size ≤ gm.pagesize.val - pointerSize
      rcases hfits with hle | hlt | hnone | htrue
      · omega
      · exact absurd hlt hlarge
      · rw [hpage] at hnone
        exact absurd hnone (Option.some_ne_none page)
      · exact absurd htrue hlocked
  · exact h.cut hsound (by omega)

/-- **A request between the two limits** is answered with a block that leaves its page. -/
theorem Inv.not_sound_step (h : gm.Inv) (hfits : ¬ gm.Fits request) :
    ¬ (gm.step request).Sound := by
  unfold Fits at hfits
  simp only [not_or, not_le, not_lt] at hfits
  obtain ⟨hlt, hle, hpage, hlocked⟩ := hfits
  obtain ⟨page, hpage⟩ := Option.ne_none_iff_exists'.mp hpage
  have hstep : gm.step request =
      (({ gm.newPage page with curPage := page } : MemoryGlobal).cut request.size).1 := by
    have hsize := h.size
    rw [MemoryGlobal.step, alloc, if_neg hlocked, if_neg (by omega), if_pos (by omega), hpage]
  intro hsound
  rw [hstep] at hsound
  obtain ⟨start, -, hwithin⟩ := hsound.within _ mem_cons_self
  have hstart : start + pointerSize ≤ page + pointerSize + 0 := hwithin.1
  have hstop : page + pointerSize + 0 + request.size ≤
      start + pointerSize + (gm.pagesize.val - pointerSize) := hwithin.2
  omega

theorem alloc_returns (gm : MemoryGlobal) (request : MemoryRequest) : gm.Returns request := by
  unfold Returns alloc
  split_ifs
  · rfl
  · rfl
  · cases request.page <;> rfl
  · rfl

theorem new_inv (pagesize : PageSize) (page : ℕ) : (new pagesize page).Inv := by
  refine ⟨rfl, page, [], rfl, rfl, nofun, fun block hblock => .inl ?_⟩
  rw [mem_singleton.mp hblock]
  exact le_rfl

theorem new_sound (pagesize : PageSize) (page : ℕ) : (new pagesize page).Sound := by
  refine ⟨fun block hblock => ⟨page, mem_singleton_self page, ?_⟩, pairwise_singleton ..⟩
  rw [mem_singleton.mp hblock]
  have hmin := pagesize.min_le
  simp only [Span.Within, Span.stop, usable, new, pointerSize, memoryGlobalSize, memoryPoolSize]
  omega

/-- **Which requests keep the blocks apart and inside their pages**: all but those that are
larger than what a page has for blocks and not larger than a page.  The blocks are what the
requests returned. -/
theorem sound_iff_eachStep_fits (pagesize : PageSize) (page : ℕ) (requests : List MemoryRequest)
    (hfresh : EachStep step Fresh (new pagesize page) requests) :
    ((∀ used, used <+: requests → (run step (new pagesize page) used).Sound) ↔
        EachStep step Fits (new pagesize page) requests) ∧
      EachStep step Returns (new pagesize page) requests :=
  ⟨EachStep.forall_prefix_iff (f := step) (A := Fresh) (C := Fits) (I := Inv) (Q := Sound)
      (fun _ _ h hsound hnew hfits => (h.step hsound hnew hfits).1)
      (fun _ _ h hsound hnew =>
        ⟨fun hnext => by_contra fun hfits => h.not_sound_step hfits hnext,
          fun hfits => (h.step hsound hnew hfits).2⟩)
      hfresh (new_inv pagesize page) (new_sound pagesize page),
    hfresh.imp (P := fun _ => True) (fun _ _ _ _ => trivial)
      (fun gm request _ _ => gm.alloc_returns request) trivial⟩

/-- Three requests on pages of the least size; the third one needs a new page. -/
theorem sound_three_requests :
    let pagesize : PageSize := ⟨256, by decide, by decide⟩
    let requests : List MemoryRequest := [⟨40, none⟩, ⟨8, none⟩, ⟨248, some 5000⟩]
    (run step (new pagesize 1000) requests).blocks =
        [⟨5008, 248⟩, ⟨1248, 8⟩, ⟨1208, 40⟩, ⟨1008, 200⟩] ∧
      ∀ used, used <+: requests → (run step (new pagesize 1000) used).Sound :=
  ⟨by decide, (sound_iff_eachStep_fits ⟨256, by decide, by decide⟩ 1000 _ (by decide)).1.mpr
    (by decide)⟩

/-- **A block that leaves its page.**  A request for a whole page is not refused; the block ends
eight bytes behind the page. -/
theorem not_sound_whole_page :
    EachStep step Fresh (new ⟨256, by decide, by decide⟩ 1000) [⟨256, some 5000⟩] ∧
      ¬ ∀ used, used <+: [⟨256, some 5000⟩] →
        (run step (new ⟨256, by decide, by decide⟩ 1000) used).Sound := by
  refine ⟨by decide, fun h => ?_⟩
  refine Inv.not_sound_step (new_inv ⟨256, by decide, by decide⟩ 1000) ?_
    (h [⟨256, some 5000⟩] prefix_rfl)
  decide

/-! ## The lock and the pages -/

/-- The loop of `swMemoryGlobal_destroy`, with what it frees. -/
def destroyLoop (page : ℕ) : List ℕ → List ℕ
  | [] => []
  | _ :: next => page :: destroyLoop page next

/-- `swMemoryGlobal_destroy`, from the first page on. -/
def destroy (gm : MemoryGlobal) : List ℕ :=
  match gm.pages.reverse with
  | [] => []
  | page :: next => destroyLoop page next

/-- The request is not too large, and a page is there if one is needed. -/
def Served (gm : MemoryGlobal) (request : MemoryRequest) : Prop :=
  request.size ≤ gm.pagesize.val ∧
    (gm.offset + request.size ≤ gm.size ∨ request.page ≠ none)

theorem length_destroyLoop (page : ℕ) (next : List ℕ) :
    (destroyLoop page next).length = next.length := by
  induction next with
  | nil => rfl
  | cons _ next ih => rw [destroyLoop, length_cons, ih, length_cons]

theorem length_destroy (hne : gm.pages ≠ []) : gm.destroy.length < gm.pages.length := by
  obtain ⟨page, next, hpages⟩ := exists_cons_of_ne_nil (reverse_ne_nil_iff.mpr hne)
  rw [destroy, ← @length_reverse _ gm.pages, hpages]
  exact Nat.lt_succ_of_le (length_destroyLoop page next).le

theorem step_pages_ne_nil (request : MemoryRequest) (hne : gm.pages ≠ []) :
    (gm.step request).pages ≠ [] := by
  unfold MemoryGlobal.step alloc
  split_ifs
  · exact hne
  · exact hne
  · cases request.page with
    | none => exact hne
    | some page => exact cons_ne_nil page gm.pages
  · exact hne

/-- **The lock comes back** from a request that is served, and from no other. -/
theorem step_locked_iff (request : MemoryRequest) (hlocked : gm.locked = false) :
    (gm.step request).locked = false ↔ gm.Served request := by
  unfold MemoryGlobal.step alloc Served
  rw [if_neg (by rw [hlocked]; exact Bool.false_ne_true)]
  split_ifs with hlarge hfull
  · exact iff_of_false (by simp) (by omega)
  · cases hpage : request.page with
    | none => exact iff_of_false (by simp) (by simp; omega)
    | some page => exact iff_of_true rfl ⟨by omega, .inr (Option.some_ne_none page)⟩
  · exact iff_of_true rfl ⟨by omega, .inl (by omega)⟩

/-- **Which requests give the lock back**, after any others; and the pages are never freed once
each. -/
theorem released_iff_served (pagesize : PageSize) (page : ℕ) (requests : List MemoryRequest) :
    let gm := run step (new pagesize page) requests
    (∀ request, gm.locked = false →
      ((gm.step request).locked = false ↔ gm.Served request)) ∧
    ¬ gm.destroy.Perm gm.pages := by
  intro gm
  have hne : gm.pages ≠ [] :=
    run_invariant (P := fun gm : MemoryGlobal => gm.pages ≠ [])
      (fun _ request => step_pages_ne_nil request) requests (cons_ne_nil page [])
  exact ⟨fun request => step_locked_iff request, fun h => (length_destroy hne).ne h.length_eq⟩

/-- A request for more than a page keeps the lock.  With two pages the first one is freed and
the second is not. -/
theorem not_released_too_large :
    let gm := new ⟨256, by decide, by decide⟩ 1000
    gm.locked = false ∧ (gm.step ⟨257, some 5000⟩).locked = true ∧
      (gm.step ⟨248, some 5000⟩).pages = [5000, 1000] ∧
      (gm.step ⟨248, some 5000⟩).destroy = [1000] := by
  decide

end MemoryGlobal

end Swoole
