import Mathlib.Data.List.Perm.Basic
import Mathlib.Order.Lattice

/-!
# Red-black trees with a path

A red-black tree that is balanced from the bottom up is seen as a subtree and the path above it, the
nearest node first.  Left and right are values of a type, so that mirrored cases are one case.

* `ColorTree.Proper`, `ColorTree.BlackHeight` and `ColorTree.IsRedBlack` — the invariants of a
  red-black tree;
* `fill` — the whole tree of a path and a subtree;
* `Rising` — the tree is as it should be, but for a red subtree whose parent may be red as well;
* `descend` — the path that a search leaves.

`Rising` is what one round of the balancing keeps: `Rising.recolor` moves it up by two nodes,
`Rising.straighten` turns the inner case into the outer one, and `Rising.finish` and `Rising.stop`
end it.
-/

open List

namespace RedBlack

inductive Color where
  | red
  | black
  deriving DecidableEq, Repr

/-- What a node of the colour adds to the black height. -/
def Color.weight : Color → ℕ
  | red => 0
  | black => 1

inductive Side where
  | left
  | right
  deriving DecidableEq, Repr

namespace Side

def other : Side → Side
  | left => right
  | right => left

@[simp] theorem other_other (side : Side) : side.other.other = side := by cases side <;> rfl

@[simp] theorem other_ne (side : Side) : side.other ≠ side := by cases side <;> decide

@[simp] theorem ne_other (side : Side) : side ≠ side.other := by cases side <;> decide

theorem eq_other_of_ne {a b : Side} (h : a ≠ b) : a = b.other := by
  cases a <;> cases b <;> simp_all [other]

end Side

inductive ColorTree (α : Type*) where
  | leaf
  | node (color : Color) (left : ColorTree α) (item : α) (right : ColorTree α)
  deriving DecidableEq, Repr

variable {α : Type*}

namespace ColorTree

/-- A node with `near` on the given side and `far` on the other one. -/
def join (side : Side) (color : Color) (near : ColorTree α) (item : α) (far : ColorTree α) :
    ColorTree α :=
  match side with
  | .left => node color near item far
  | .right => node color far item near

/-- The colour of the root; a leaf is black. -/
def color : ColorTree α → Color
  | leaf => .black
  | node color _ _ _ => color

/-- The root in another colour. -/
def paint (color : Color) : ColorTree α → ColorTree α
  | leaf => leaf
  | node _ l x r => node color l x r

/-- The items from left to right. -/
def toList : ColorTree α → List α
  | leaf => []
  | node _ l x r => l.toList ++ x :: r.toList

/-- No red node has a red child. -/
def Proper : ColorTree α → Prop
  | leaf => True
  | node color l _ r =>
    (color = .red → l.color = .black ∧ r.color = .black) ∧ l.Proper ∧ r.Proper

/-- Every path from the root to a leaf has `n` black nodes. -/
def BlackHeight : ColorTree α → ℕ → Prop
  | leaf, n => n = 0
  | node color l _ r, n => ∃ m, n = m + color.weight ∧ l.BlackHeight m ∧ r.BlackHeight m

/-- **Red-black trees.** -/
structure IsRedBlack (t : ColorTree α) : Prop where
  root : t.color = .black
  proper : t.Proper
  height : ∃ n, t.BlackHeight n

/-- **Search trees**: the keys ascend from left to right. -/
def Ordered {κ : Type*} [LT κ] (key : α → κ) (t : ColorTree α) : Prop :=
  t.toList.Pairwise fun x y => key x < key y

section join

variable (side : Side) (c d : Color) (near far t u : ColorTree α) (x y : α)

theorem join_other : join side.other c near x far = join side c far x near := by
  cases side <;> rfl

theorem exists_join {t : ColorTree α} (h : t ≠ leaf) :
    ∃ near x far, t = join side t.color near x far := by
  cases t with
  | leaf => exact absurd rfl h
  | node c l x r =>
    cases side with
    | left => exact ⟨l, x, r, rfl⟩
    | right => exact ⟨r, x, l, rfl⟩

theorem join_ne_leaf : join side c near x far ≠ leaf := by cases side <;> exact fun h => nomatch h

@[simp] theorem color_join : (join side c near x far).color = c := by cases side <;> rfl

@[simp] theorem paint_join : (join side c near x far).paint d = join side d near x far := by
  cases side <;> rfl

@[simp] theorem proper_join :
    (join side c near x far).Proper ↔
      (c = .red → near.color = .black ∧ far.color = .black) ∧ near.Proper ∧ far.Proper := by
  cases side
  · rfl
  · simp only [join, Proper]
    tauto

@[simp] theorem blackHeight_join (n : ℕ) :
    (join side c near x far).BlackHeight n ↔
      ∃ m, n = m + c.weight ∧ near.BlackHeight m ∧ far.BlackHeight m := by
  cases side
  · rfl
  · simp only [join, BlackHeight, and_comm]

theorem toList_join_perm :
    (join side c near x far).toList.Perm (x :: near.toList ++ far.toList) := by
  cases side
  · exact perm_middle
  · exact perm_middle.trans (perm_append_comm.cons x)

theorem toList_rotate :
    (join side c near x (join side d t y far)).toList =
      (join side d (join side c near x t) y far).toList := by
  cases side <;> simp [join, toList]

theorem toList_join_congr {near' far' : ColorTree α} (hnear : near.toList = near'.toList)
    (hfar : far.toList = far'.toList) :
    (join side c near x far).toList = (join side d near' x far').toList := by
  cases side <;> simp [join, toList, hnear, hfar]

@[simp] theorem toList_paint : (t.paint c).toList = t.toList := by cases t <;> rfl

theorem paint_color {t : ColorTree α} (h : t.color = c) : t.paint c = t := by
  subst h
  cases t <;> rfl

theorem color_paint_black : (t.paint .black).color = .black := by cases t <;> rfl

theorem Proper.paint_black {t : ColorTree α} (h : t.Proper) : (t.paint .black).Proper := by
  cases t with
  | leaf => trivial
  | node c l x r => exact ⟨fun hred => (nomatch hred), h.2⟩

theorem BlackHeight.paint_black {t : ColorTree α} {n : ℕ} (h : t.BlackHeight n)
    (hred : t.color = .red) :
    (t.paint .black).BlackHeight (n + 1) := by
  cases t with
  | leaf => exact nomatch hred
  | node c l x r =>
    cases hred
    obtain ⟨m, hm, hl, hr⟩ := h
    exact ⟨m, congrArg (· + 1) hm, hl, hr⟩

end join

end ColorTree

open ColorTree

/-! ## Paths -/

/-- A node above a subtree: the side of it that the subtree hangs on, and the subtree on the other
side. -/
structure Frame (α : Type*) where
  side : Side
  color : Color
  item : α
  sibling : ColorTree α
  deriving DecidableEq, Repr

def Frame.fill (f : Frame α) (t : ColorTree α) : ColorTree α :=
  join f.side f.color t f.item f.sibling

/-- The whole tree. -/
def fill : List (Frame α) → ColorTree α → ColorTree α
  | [], t => t
  | f :: path, t => fill path (f.fill t)

/-- The items of a path. -/
def items : List (Frame α) → List α
  | [] => []
  | f :: path => f.item :: f.sibling.toList ++ items path

/-- The items to the left of the subtree. -/
def before : List (Frame α) → List α
  | [] => []
  | ⟨.left, _, _, _⟩ :: path => before path
  | ⟨.right, _, x, sibling⟩ :: path => before path ++ (sibling.toList ++ [x])

/-- The items to the right of it. -/
def after : List (Frame α) → List α
  | [] => []
  | ⟨.left, _, x, sibling⟩ :: path => x :: sibling.toList ++ after path
  | ⟨.right, _, _, _⟩ :: path => after path

theorem toList_fill : ∀ (path : List (Frame α)) (t : ColorTree α),
    (fill path t).toList = before path ++ t.toList ++ after path
  | [], t => by simp [fill, before, after]
  | ⟨.left, _, _, _⟩ :: path, t => by
      simp [fill, Frame.fill, toList_fill path, join, toList, before, after]
  | ⟨.right, _, _, _⟩ :: path, t => by
      simp [fill, Frame.fill, toList_fill path, join, toList, before, after]

theorem toList_fill_congr (path : List (Frame α)) {t u : ColorTree α} (h : t.toList = u.toList) :
    (fill path t).toList = (fill path u).toList := by
  rw [toList_fill, toList_fill, h]

theorem toList_fill_perm : ∀ (path : List (Frame α)) (t : ColorTree α),
    (fill path t).toList.Perm (items path ++ t.toList)
  | [], t => .refl _
  | f :: path, t => by
      refine (toList_fill_perm path (f.fill t)).trans ?_
      have hperm := toList_join_perm f.side f.color t f.sibling f.item
      refine (hperm.append_left (items path)).trans ?_
      simp only [items, cons_append, append_assoc]
      refine perm_middle.trans (.cons _ ?_)
      rw [← append_assoc]
      exact perm_append_comm

theorem length_path_le : ∀ path : List (Frame α), path.length ≤ (items path).length
  | [] => Nat.le_refl 0
  | f :: path => by
      have ih := length_path_le path
      simp only [items, length_cons, length_append, cons_append]
      omega

/-- The path is proper above a subtree of the given colour, and the root is black. -/
def ProperAbove : List (Frame α) → Color → Prop
  | [], c => c = .black
  | f :: path, c =>
    (f.color = .red → c = .black ∧ f.sibling.color = .black) ∧ f.sibling.Proper ∧
      ProperAbove path f.color

/-- The siblings have the black height that a subtree of black height `n` asks for. -/
def HeightAbove : List (Frame α) → ℕ → Prop
  | [], _ => True
  | f :: path, n => f.sibling.BlackHeight n ∧ HeightAbove path (n + f.color.weight)

theorem proper_fill : ∀ (path : List (Frame α)) (t : ColorTree α),
    (fill path t).color = .black ∧ (fill path t).Proper ↔ ProperAbove path t.color ∧ t.Proper
  | [], t => Iff.rfl
  | f :: path, t => by
      rw [fill, proper_fill path, Frame.fill, color_join, proper_join, ProperAbove]
      tauto

theorem blackHeight_fill : ∀ (path : List (Frame α)) (t : ColorTree α),
    (∃ n, (fill path t).BlackHeight n) ↔ ∃ n, HeightAbove path n ∧ t.BlackHeight n
  | [], t => by simp [fill, HeightAbove]
  | f :: path, t => by
      rw [fill, blackHeight_fill path, Frame.fill]
      simp only [blackHeight_join, HeightAbove]
      constructor
      · rintro ⟨_, habove, m, rfl, ht, hsibling⟩
        exact ⟨m, ⟨hsibling, habove⟩, ht⟩
      · rintro ⟨m, ⟨hsibling, habove⟩, ht⟩
        exact ⟨_, habove, m, rfl, ht, hsibling⟩

variable {path : List (Frame α)}

theorem isRedBlack_fill {t : ColorTree α} :
    (fill path t).IsRedBlack ↔
      (ProperAbove path t.color ∧ t.Proper) ∧ ∃ n, HeightAbove path n ∧ t.BlackHeight n := by
  rw [← proper_fill, ← blackHeight_fill]
  exact ⟨fun h => ⟨⟨h.root, h.proper⟩, h.height⟩, fun h => ⟨h.1.1, h.1.2, h.2⟩⟩

/-! ## Balancing -/

/-- **The invariant of the balancing**: the subtree is red, and the tree would be a red-black tree
if it were black and of the same height. -/
structure Rising (path : List (Frame α)) (t : ColorTree α) : Prop where
  red : t.color = .red
  proper : t.Proper
  above : ProperAbove path .black
  height : ∃ n, HeightAbove path n ∧ t.BlackHeight n

theorem rising_of_leaf (h : (fill path leaf).IsRedBlack) (x : α) :
    Rising path (node .red leaf x leaf) := by
  obtain ⟨⟨habove, -⟩, n, hheight, rfl⟩ := isRedBlack_fill.mp h
  exact ⟨rfl, ⟨fun _ => ⟨rfl, rfl⟩, trivial, trivial⟩, habove, 0, hheight, 0, rfl, rfl, rfl⟩

namespace Rising

variable {f g : Frame α} {path : List (Frame α)} {t : ColorTree α}

theorem grandparent (h : Rising (f :: path) t) (hf : f.color = .red) :
    ∃ g rest, path = g :: rest ∧ g.color = .black := by
  obtain ⟨-, -, habove⟩ := h.above
  rw [hf] at habove
  cases path with
  | nil => exact nomatch habove
  | cons g rest =>
    refine ⟨g, rest, rfl, ?_⟩
    cases hg : g.color with
    | black => rfl
    | red => exact nomatch (habove.1 hg).1

theorem stop_root (h : Rising [] t) : (t.paint .black).IsRedBlack := by
  obtain ⟨n, -, hn⟩ := h.height
  exact ⟨color_paint_black t, h.proper.paint_black, n + 1, hn.paint_black h.red⟩

theorem stop (h : Rising (f :: path) t) (hf : f.color = .black) :
    (fill (f :: path) t).IsRedBlack := by
  obtain ⟨-, hsibling, habove⟩ := h.above
  refine isRedBlack_fill.mpr ⟨⟨⟨?_, hsibling, habove⟩, h.proper⟩, h.height⟩
  intro hred
  exact nomatch hf.symm.trans hred

variable (h : Rising (f :: g :: path) t) (hf : f.color = .red)

include h hf

/-- **The uncle is red**: the parent and the uncle take over the black of the grandparent. -/
theorem recolor (huncle : g.sibling.color = .red) :
    Rising path (join g.side .red ((f.fill t).paint .black) g.item (g.sibling.paint .black)) := by
  obtain ⟨g', rest, hpath, hg⟩ := h.grandparent hf
  obtain ⟨rfl, rfl⟩ := cons.inj hpath
  obtain ⟨-, hsibling, -, hproper, habove⟩ := h.above
  rw [hg] at habove
  obtain ⟨n, ⟨hn, hun, hheight⟩, ht⟩ := h.height
  rw [hf] at hun hheight
  rw [hg] at hheight
  refine ⟨color_join .., ?_, habove, n + 1, hheight, ?_⟩
  · rw [proper_join]
    refine ⟨fun _ => ⟨color_paint_black _, color_paint_black _⟩, ?_, hproper.paint_black⟩
    rw [Frame.fill, paint_join, proper_join]
    exact ⟨fun hblack => (nomatch hblack), h.proper, hsibling⟩
  · rw [blackHeight_join]
    refine ⟨n + 1, rfl, ?_, hun.paint_black huncle⟩
    rw [Frame.fill, paint_join, blackHeight_join]
    exact ⟨n, rfl, ht, hn⟩

/-- **The inner case** becomes the outer one: a rotation below the grandparent. -/
theorem straighten {near far : ColorTree α} {x : α} (ht : t = join g.side .red near x far) :
    Rising (⟨g.side, .red, x, far⟩ :: g :: path) (join g.side .red f.sibling f.item near) := by
  subst ht
  obtain ⟨hred, hsibling, habove⟩ := h.above
  rw [hf] at habove
  obtain ⟨hchildren, hnear, hfar⟩ := (proper_join ..).mp h.proper
  obtain ⟨n, ⟨hn, hheight⟩, hxn⟩ := h.height
  rw [hf] at hheight
  obtain ⟨m, hm, hnearN, hfarN⟩ := (blackHeight_join ..).mp hxn
  cases hm
  refine ⟨color_join .., ?_, ⟨fun _ => ⟨rfl, (hchildren rfl).2⟩, hfar, habove⟩, m,
    ⟨hfarN, hheight⟩, ?_⟩
  · rw [proper_join]
    exact ⟨fun _ => ⟨(hred hf).2, (hchildren rfl).1⟩, hsibling, hnear⟩
  · rw [blackHeight_join]
    exact ⟨m, rfl, hn, hnearN⟩

/-- **The outer case**: a rotation of the grandparent, and nothing is wrong any more. -/
theorem finish (huncle : g.sibling.color = .black) (side : Side) :
    (fill path (join side .black t f.item
      (join side .red f.sibling g.item g.sibling))).IsRedBlack := by
  obtain ⟨g', rest, hpath, hg⟩ := h.grandparent hf
  obtain ⟨rfl, rfl⟩ := cons.inj hpath
  obtain ⟨hred, hsibling, -, hproper, habove⟩ := h.above
  rw [hg] at habove
  obtain ⟨n, ⟨hn, hun, hheight⟩, ht⟩ := h.height
  rw [hf] at hun hheight
  rw [hg] at hheight
  refine isRedBlack_fill.mpr ⟨⟨?_, ?_⟩, n + 1, hheight, ?_⟩
  · rwa [color_join]
  · rw [proper_join, proper_join]
    exact ⟨fun hblack => (nomatch hblack), h.proper, fun _ => ⟨(hred hf).2, huncle⟩, hsibling,
      hproper⟩
  · rw [blackHeight_join]
    refine ⟨n, rfl, ht, ?_⟩
    rw [blackHeight_join]
    exact ⟨n, rfl, hn, hun⟩

end Rising

/-! The moves keep the items in their order. -/

section toList

variable (f g : Frame α) (t : ColorTree α) (c d : Color)

theorem toList_recolor :
    (join g.side c ((f.fill t).paint d) g.item (g.sibling.paint d)).toList =
      (g.fill (f.fill t)).toList :=
  toList_join_congr _ _ _ _ _ _ (toList_paint ..) (toList_paint ..)

theorem toList_straighten {f g : Frame α} (hside : f.side = g.side.other) (near far : ColorTree α)
    (x : α) :
    (join g.side c (join g.side d f.sibling f.item near) x far).toList =
      (f.fill (join g.side c near x far)).toList := by
  rw [← toList_rotate, Frame.fill, hside, join_other]
  exact toList_join_congr _ _ _ _ _ _ rfl rfl

theorem toList_finish {f g : Frame α} (hside : f.side = g.side) :
    (join g.side c t f.item (join g.side d f.sibling g.item g.sibling)).toList =
      (g.fill (f.fill t)).toList := by
  rw [toList_rotate, Frame.fill, Frame.fill, hside]
  exact toList_join_congr _ _ _ _ _ _ (toList_join_congr _ _ _ _ _ _ rfl rfl) rfl

end toList

/-! ## Searching -/

section search

variable {κ : Type*} [LinearOrder κ] (key : α → κ) (k : κ)

/-- The path to the leaf where `k` would be. -/
def descend : List (Frame α) → ColorTree α → List (Frame α)
  | path, leaf => path
  | path, node c l x r =>
    if k < key x then descend (⟨.left, c, x, r⟩ :: path) l
    else descend (⟨.right, c, x, l⟩ :: path) r

theorem fill_descend (t : ColorTree α) :
    ∀ path : List (Frame α), fill (descend key k path t) leaf = fill path t := by
  induction t with
  | leaf => exact fun _ => rfl
  | node c l x r ihl ihr =>
    intro path
    unfold descend
    split_ifs
    · exact ihl _
    · exact ihr _

variable {key k} {t : ColorTree α}

/-- What is to the left of the leaf is smaller, and what is to the right of it is greater. -/
theorem descend_between (hordered : t.Ordered key) (hne : ∀ x ∈ t.toList, key x ≠ k) :
    ∀ path : List (Frame α), (∀ x ∈ before path, key x < k) → (∀ x ∈ after path, k < key x) →
      (∀ x ∈ before (descend key k path t), key x < k) ∧
        ∀ x ∈ after (descend key k path t), k < key x := by
  induction t with
  | leaf => exact fun _ hbefore hafter => ⟨hbefore, hafter⟩
  | node c l x r ihl ihr =>
    intro path hbefore hafter
    obtain ⟨hl, hr, hlr⟩ := pairwise_append.mp hordered
    obtain ⟨hx, hr⟩ := pairwise_cons.mp hr
    simp only [toList, mem_append, mem_cons] at hne
    unfold descend
    split_ifs with hlt
    · refine ihl hl (fun y hy => hne y (.inl hy)) _ hbefore fun y hy => ?_
      simp only [after, cons_append, mem_cons, mem_append] at hy
      rcases hy with rfl | hy | hy
      · exact hlt
      · exact lt_trans hlt (hx y hy)
      · exact hafter y hy
    · have hgt : key x < k := lt_of_le_of_ne (not_lt.mp hlt) (hne x (.inr (.inl rfl)))
      refine ihr hr (fun y hy => hne y (.inr (.inr hy))) _ (fun y hy => ?_) hafter
      simp only [before, mem_append, mem_singleton] at hy
      rcases hy with hy | hy | rfl
      · exact hbefore y hy
      · exact lt_trans (hlr y hy x mem_cons_self) hgt
      · exact hgt

theorem ordered_insert (hordered : t.Ordered key) {x : α} (hne : ∀ y ∈ t.toList, key y ≠ key x)
    (c : Color) : (fill (descend key (key x) [] t) (node c leaf x leaf)).Ordered key := by
  obtain ⟨hbefore, hafter⟩ := descend_between hordered hne []
    (fun _ hy => absurd hy not_mem_nil) fun _ hy => absurd hy not_mem_nil
  have hwhole : (fill (descend key (key x) [] t) leaf).Ordered key := by
    rw [fill_descend]
    exact hordered
  unfold Ordered at hwhole ⊢
  rw [toList_fill] at hwhole ⊢
  simp only [toList, nil_append, append_nil, append_assoc, singleton_append,
    pairwise_append, pairwise_cons] at hwhole ⊢
  refine ⟨hwhole.1, ⟨hafter, hwhole.2.1⟩, fun y hy z hz => ?_⟩
  rcases mem_cons.mp hz with rfl | hz
  · exact hbefore y hy
  · exact hwhole.2.2 y hy z hz

theorem toList_insert_perm (path : List (Frame α)) (c : Color) (x : α) :
    (fill path (node c leaf x leaf)).toList.Perm (x :: (fill path leaf).toList) := by
  rw [toList_fill, toList_fill]
  simp only [toList, nil_append, append_nil, append_assoc, singleton_append]
  exact perm_middle

end search

end RedBlack
