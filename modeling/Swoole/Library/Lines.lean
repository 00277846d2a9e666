import Swoole.Library.Search

/-!
# Text in lines

A text is a list of lines, each followed by the mark `cr lf`.  No line contains `cr`,
so a `cr` in the text stands at the end of a line and nowhere else
(`split_of_drop`).  Two searches rest on that fact.

* A blank line, that is a mark directly behind a mark, ends a block of non-empty
  lines; `firstOcc_blank` finds it.
* A scan of the marks for a line that begins with a given word, up to a map of the
  letters, finds lines only (`line_of_hit`), and finds the first such line first
  (`le_of_hit`).

A reader takes the lines one by one: `next` cuts the first one off, and `block` goes on up to the
blank line (`block_text`).
-/

universe u

open List

namespace Lines

open Search

variable {α : Type u}

/-- The lines, each with its mark. -/
def text (cr lf : α) (lines : List (List α)) : List α := lines.flatMap (· ++ [cr, lf])

/-- `s` begins with `word`, up to the map `f` of its letters. -/
def Begins (f : α → α) (word s : List α) : Prop := (s.take word.length).map f = word

instance [DecidableEq α] (f : α → α) (word s : List α) : Decidable (Begins f word s) :=
  inferInstanceAs (Decidable (_ = _))

section Text

variable {cr lf : α} {lines : List (List α)} {line tail rest : List α} {i : ℕ}

@[simp] theorem text_nil : text cr lf [] = [] := rfl

@[simp] theorem text_cons (line : List α) (lines : List (List α)) :
    text cr lf (line :: lines) = line ++ cr :: lf :: text cr lf lines := by
  simp [text]

@[simp] theorem text_append (front lines : List (List α)) :
    text cr lf (front ++ lines) = text cr lf front ++ text cr lf lines := by
  simp [text]

theorem text_concat (lines : List (List α)) (line : List α) :
    text cr lf (lines ++ [line]) = text cr lf lines ++ line ++ [cr, lf] := by
  simp

theorem two_le_length_text (cr lf : α) (hne : lines ≠ []) : 2 ≤ (text cr lf lines).length := by
  obtain ⟨line, lines, rfl⟩ := exists_cons_of_ne_nil hne
  rw [text_cons, length_append, length_cons, length_cons]
  omega

theorem drop_text (cr lf : α) (hne : lines ≠ []) (rest : List α) :
    (text cr lf lines ++ rest).drop ((text cr lf lines).length - 2) = cr :: lf :: rest := by
  obtain ⟨l, hl⟩ : ∃ l, lines = lines.dropLast ++ [l] :=
    ⟨lines.getLast hne, (dropLast_append_getLast hne).symm⟩
  rw [hl, text_concat, length_append, append_assoc]
  simp

/-- **Marks stand at the ends of lines.** -/
theorem split_of_drop (hmark : cr ≠ lf) : ∀ {lines : List (List α)} {i : ℕ},
    (∀ l ∈ lines, cr ∉ l) → (text cr lf lines ++ tail).drop i = cr :: rest →
    i < (text cr lf lines).length →
    ∃ pre l post, lines = pre ++ l :: post ∧ i = (text cr lf pre).length + l.length ∧
      rest = lf :: (text cr lf post ++ tail) := by
  intro lines
  induction lines with
  | nil =>
    intro i _ _ hi
    simp at hi
  | cons l lines ih =>
    intro i hclean hdrop hi
    rw [text_cons, append_assoc, cons_append, cons_append, drop_append] at hdrop
    rcases lt_or_ge i l.length with hlt | hge
    · -- inside the line there is no mark
      rw [drop_eq_getElem_cons hlt, cons_append] at hdrop
      have hmem : cr ∈ l := (cons.inj hdrop).1 ▸ getElem_mem hlt
      exact absurd hmem (hclean l mem_cons_self)
    · rw [drop_eq_nil_of_le hge, nil_append] at hdrop
      obtain ⟨j, rfl⟩ := Nat.exists_eq_add_of_le hge
      rw [Nat.add_sub_cancel_left] at hdrop
      match j, hdrop, hi with
      | 0, hdrop, _ =>
        exact ⟨[], l, lines, rfl, by simp, (cons.inj hdrop).2.symm⟩
      | 1, hdrop, _ => exact absurd (cons.inj hdrop).1.symm hmark
      | j + 2, hdrop, hi =>
        rw [text_cons, length_append, length_cons, length_cons] at hi
        obtain ⟨pre, l', post, hlines, hj, hrest⟩ :=
          ih (fun x hx => hclean x (mem_cons_of_mem l hx)) hdrop (by omega)
        refine ⟨l :: pre, l', post, by rw [hlines]; rfl, ?_, hrest⟩
        rw [text_cons, length_append, length_cons, length_cons]
        omega

/-! ## The blank line -/

section Blank

variable {body : List α} (hmark : cr ≠ lf) (hclean : ∀ l ∈ lines, cr ∉ l)
  (hfull : ∀ l ∈ lines, l ≠ [])

include hmark hclean hfull

theorem blank_of_occursAt (h : OccursAt [cr, lf, cr, lf] (text cr lf lines ++ cr :: lf :: body) i)
    (hi : i < (text cr lf lines).length) : i + 2 = (text cr lf lines).length := by
  obtain ⟨after, hafter⟩ := h
  obtain ⟨pre, l, post, hlines, hpos, hrest⟩ := split_of_drop hmark hclean hafter.symm hi
  have hpost : post = [] := by
    cases post with
    | nil => rfl
    | cons l' post =>
      have hmem : l' ∈ lines := by simp [hlines]
      obtain ⟨b, bs, rfl⟩ := exists_cons_of_ne_nil (hfull l' hmem)
      have hhead : cr = b := (cons.inj (cons.inj hrest).2).1
      exact absurd (hhead ▸ mem_cons_self) (hclean _ hmem)
  subst hpost
  rw [hlines, text_concat, length_append, length_append]
  simp only [length_cons, length_nil]
  omega

theorem firstOcc_blank [DecidableEq α] (hne : lines ≠ []) :
    firstOcc [cr, lf, cr, lf] (text cr lf lines ++ cr :: lf :: body) =
      some ((text cr lf lines).length - 2) := by
  refine (firstOcc_eq_some (by simp)).mpr ⟨?_, fun j hj hocc => ?_⟩
  · exact ⟨body, (drop_text cr lf hne (cr :: lf :: body)).symm⟩
  · have hend := blank_of_occursAt hmark hclean hfull hocc (by omega)
    omega

end Blank

/-! ## Lines that begin with a word -/

section Named

variable {f : α → α} {word : List α}

/-- A word without `cr` that is found in front of a mark lies in the line. -/
theorem Begins.of_append (h : Begins f word (line ++ cr :: rest)) (hcr : f cr ∉ word) :
    Begins f word line := by
  unfold Begins at h ⊢
  rcases lt_or_ge line.length word.length with hlt | hge
  · exfalso
    obtain ⟨n, hn⟩ := Nat.exists_eq_add_of_lt hlt
    apply hcr
    rw [← h, hn, take_append, take_of_length_le (by omega),
      show line.length + n + 1 - line.length = n + 1 by omega]
    simp
  · rwa [take_append_of_le_length hge] at h

theorem not_begins_nil (hne : word ≠ []) : ¬ Begins f word [] := by
  unfold Begins
  simpa using hne.symm

variable {body : List α} (hmark : cr ≠ lf) (hclean : ∀ l ∈ lines, cr ∉ l) (hword : word ≠ [])
  (hcr : f cr ∉ word)

include hmark hclean hword hcr

/-- A mark with the word behind it is the mark in front of a line that begins with
the word. -/
theorem line_of_hit (hdrop : (text cr lf lines ++ cr :: lf :: body).drop i = cr :: lf :: rest)
    (hi : i < (text cr lf lines).length) (hbegins : Begins f word rest) :
    ∃ pre l l' post, lines = pre ++ l :: l' :: post ∧
      i = (text cr lf pre).length + l.length ∧ Begins f word l' := by
  obtain ⟨pre, l, post, hlines, hpos, hrest⟩ := split_of_drop hmark hclean hdrop hi
  obtain rfl : rest = text cr lf post ++ cr :: lf :: body := (cons.inj hrest).2
  cases post with
  | nil =>
    have hnil : Begins f word ([] ++ cr :: lf :: body) := hbegins
    exact absurd (hnil.of_append hcr) (not_begins_nil hword)
  | cons l' post =>
    rw [text_cons, append_assoc] at hbegins
    exact ⟨pre, l, l', post, hlines, hpos, hbegins.of_append hcr⟩

/-- The first line behind `first` that begins with the word is found first. -/
theorem le_of_hit {first : List α} {before after : List (List α)}
    (hlines : lines = first :: before ++ line :: after) (hbefore : ∀ l ∈ before, ¬ Begins f word l)
    (hdrop : (text cr lf lines ++ cr :: lf :: body).drop i = cr :: lf :: rest)
    (hi : i < (text cr lf lines).length) (hbegins : Begins f word rest) :
    (text cr lf (first :: before)).length ≤ i + 2 := by
  obtain ⟨pre, l, l', post, hsplit, hpos, hl'⟩ :=
    line_of_hit hmark hclean hword hcr hdrop hi hbegins
  have hi2 : i + 2 = (text cr lf (pre ++ [l])).length := by
    rw [text_concat, length_append, length_append, hpos]
    rfl
  rw [hi2]
  have heq : (pre ++ [l]) ++ l' :: post = (first :: before) ++ line :: after := by
    rw [← hlines, hsplit]
    simp
  rcases append_eq_append_iff.mp heq with ⟨t, hfront, hback⟩ | ⟨t, hfront, -⟩
  · cases t with
    | nil => rw [hfront, append_nil]
    | cons x t =>
      -- then the line found would be one of those before
      obtain rfl : l' = x := (cons.inj hback).1
      have hmem : l' ∈ before := by
        cases pre with
        | nil => simp only [nil_append, cons_append, cons.injEq] at hfront
                 simp [hfront.2]
        | cons p pre =>
          simp only [cons_append, cons.injEq] at hfront
          simp [hfront.2]
      exact absurd hl' (hbefore l' hmem)
  · rw [hfront, text_append, length_append]
    omega

end Named

/-! ## Reading lines -/

section Read

variable [DecidableEq α]

/-- The first line, and what follows its mark. -/
def next (cr lf : α) : List α → Option (List α × List α)
  | [] => none
  | [_] => none
  | a :: b :: s =>
    if a = cr ∧ b = lf then some ([], s)
    else (next cr lf (b :: s)).map fun p => (a :: p.1, p.2)

/-- The lines up to the blank one, and what follows it. -/
def block (cr lf : α) : ℕ → List α → Option (List (List α) × List α)
  | 0, _ => none
  | fuel + 1, s =>
    match next cr lf s with
    | none => none
    | some ([], rest) => some ([], rest)
    | some (line, rest) => (block cr lf fuel rest).map fun p => (line :: p.1, p.2)

theorem next_line (hcr : cr ∉ line) :
    next cr lf (line ++ cr :: lf :: rest) = some (line, rest) := by
  induction line with
  | nil => exact if_pos ⟨rfl, rfl⟩
  | cons a line ih =>
    obtain ⟨hne, hcr⟩ := not_or.mp (fun h => hcr (mem_cons.mpr h))
    obtain ⟨b, s, hs⟩ : ∃ b s, line ++ cr :: lf :: rest = b :: s :=
      exists_cons_of_ne_nil (by simp)
    rw [cons_append, hs, next, if_neg fun h => hne h.1.symm, ← hs, ih hcr]
    rfl

theorem length_of_next : ∀ {s : List α}, next cr lf s = some (line, rest) →
    line.length + rest.length + 2 = s.length := by
  intro s
  induction s generalizing line with
  | nil => exact nofun
  | cons a s ih =>
    cases s with
    | nil => exact nofun
    | cons b s =>
      intro h
      rw [next] at h
      split_ifs at h with hmark
      · obtain ⟨rfl, rfl⟩ := Prod.mk.inj (Option.some.inj h)
        simp
      · obtain ⟨⟨line', rest'⟩, hnext, heq⟩ := Option.map_eq_some_iff.mp h
        obtain ⟨rfl, rfl⟩ := Prod.mk.inj heq
        have hlen := ih hnext
        simp only [length_cons] at hlen ⊢
        omega

/-- **A block is read back.** -/
theorem block_text {body : List α} {fuel : ℕ} (hclean : ∀ l ∈ lines, cr ∉ l)
    (hfull : ∀ l ∈ lines, l ≠ []) (hfuel : lines.length < fuel) :
    block cr lf fuel (text cr lf lines ++ cr :: lf :: body) = some (lines, body) := by
  induction lines generalizing fuel with
  | nil =>
    obtain ⟨fuel, rfl⟩ := Nat.exists_eq_add_one_of_ne_zero (Nat.ne_zero_of_lt hfuel)
    rw [block, text_nil, next_line not_mem_nil]
  | cons l lines ih =>
    obtain ⟨fuel, rfl⟩ := Nat.exists_eq_add_one_of_ne_zero (Nat.ne_zero_of_lt hfuel)
    obtain ⟨b, bs, rfl⟩ := exists_cons_of_ne_nil (hfull l mem_cons_self)
    have hrest := ih (fun l' hl' => hclean l' (mem_cons_of_mem _ hl'))
      (fun l' hl' => hfull l' (mem_cons_of_mem _ hl')) (Nat.lt_of_succ_lt_succ hfuel)
    have hnext : next cr lf (text cr lf ((b :: bs) :: lines) ++ cr :: lf :: body) =
        some (b :: bs, text cr lf lines ++ cr :: lf :: body) := by
      rw [text_cons, append_assoc]
      exact next_line (hclean _ mem_cons_self)
    rw [block, hnext]
    exact congrArg (Option.map _) hrest

end Read

end Text

end Lines
