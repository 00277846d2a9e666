import Mathlib.Data.Nat.Basic
import Swoole.Core.Rbtree

/-!
# Insertions into red-black trees

Every round of the loop in `swRbtree_insert` is one of the moves of the library on the tree that
the memory holds: it recolours and goes up by two nodes, or it rotates and is done.  So the loop
ends, and leaves a red-black tree with the same items in the same order.
-/

open Function List

namespace Swoole.Rbtree

open RedBlack
open ColorTree (exists_join join join_ne_leaf join_other node paint_color toList toList_paint)
open RbtreeEntry (addr)

variable {t : Rbtree} {path : List (Frame RbtreeEntry)} {sub : ColorTree RbtreeEntry}

/-! ## The place of a new node -/

variable {tree : ColorTree RbtreeEntry}

theorem Holds.ne_sentinel (h : t.Holds tree) : ∀ x ∈ tree.toList, x.addr ≠ t.sentinel := by
  intro x hx heq
  exact (nodup_cons.mp h.distinct).1 (heq ▸ mem_map_of_mem hx)

theorem ptr_ne_sentinel (h : ∀ x ∈ sub.toList, x.addr ≠ t.sentinel) (hsub : sub ≠ .leaf) :
    t.ptr sub ≠ t.sentinel := by
  cases sub with
  | leaf => exact absurd rfl hsub
  | node c l x r => exact h x (by simp [toList])

theorem insertPlace_descend {k parent : ℕ} (hshape : t.Shape parent sub)
    (hs : ∀ x ∈ sub.toList, x.addr ≠ t.sentinel) (hsub : sub ≠ .leaf) {fuel : ℕ}
    (hfuel : sub.toList.length ≤ fuel) (path : List (Frame RbtreeEntry)) :
    ∃ f rest, descend RbtreeEntry.key k path sub = f :: rest ∧
      t.insertPlace k fuel (t.ptr sub) = some (f.item.addr, f.side) := by
  induction sub generalizing parent fuel path with
  | leaf => exact absurd rfl hsub
  | node c l x r ihl ihr =>
    obtain ⟨hcell, ⟨hleft, hright⟩, hl, hr⟩ := hshape
    simp only [toList, length_append, length_cons] at hfuel
    obtain ⟨fuel, rfl⟩ : ∃ n, fuel = n + 1 := ⟨fuel - 1, by omega⟩
    simp only [toList, mem_append, mem_cons] at hs
    simp only [descend, insertPlace, ptr, hcell.key]
    by_cases hlt : k < x.key
    · simp only [if_pos hlt, hleft]
      by_cases hleaf : l = .leaf
      · subst hleaf
        exact ⟨_, _, rfl, if_pos rfl⟩
      · rw [if_neg (ptr_ne_sentinel (fun y hy => hs y (.inl hy)) hleaf)]
        exact ihl hl (fun y hy => hs y (.inl hy)) hleaf (by omega) _
    · simp only [if_neg hlt, hright]
      by_cases hleaf : r = .leaf
      · subst hleaf
        exact ⟨_, _, rfl, if_pos rfl⟩
      · rw [if_neg (ptr_ne_sentinel (fun y hy => hs y (.inr (.inr hy))) hleaf)]
        exact ihr hr (fun y hy => hs y (.inr (.inr hy))) hleaf (by omega) _

/-! ## A new node -/

/-- The entry is new to the tree. -/
def Fresh (t : Rbtree) (tree : ColorTree RbtreeEntry) (x : RbtreeEntry) : Prop :=
  x.addr ≠ t.sentinel ∧ ∀ y ∈ tree.toList, y.addr ≠ x.addr

variable {x : RbtreeEntry}

theorem Holds.alloc (h : t.Holds tree) (hfresh : t.Fresh tree x) : (t.alloc x).Holds tree := by
  refine ⟨h.root.trans (ptr_congr rfl tree).symm, h.shape.congr (fun y hy => ?_) rfl, h.sentinel,
    h.distinct⟩
  have hne := hfresh.2 y hy
  exact ⟨update_of_ne hne .., update_of_ne hne .., fun _ => rfl, rfl, rfl⟩

variable {f : Frame RbtreeEntry}

theorem Holds.hang (h : t.Holds (fill (f :: path) .leaf))
    (hfresh : t.Fresh (fill (f :: path) .leaf) x) (hkey : t.key x.addr = x.key)
    (hvalue : t.value x.addr = x.value) :
    (t.hang x.addr f.item.addr f.side).Holds (fill (f :: path) (.node .red .leaf x .leaf)) := by
  obtain ⟨⟨habove, -⟩, hdistinct⟩ := h.focus
  obtain ⟨hs, hne⟩ := hfresh
  have hpath : ∀ y ∈ items (f :: path), y.addr ≠ x.addr := fun y hy =>
    hne y ((toList_fill_perm (f :: path) .leaf).mem_iff.mpr (mem_append_left _ hy))
  have hnodup : ((items (f :: path)).map addr).Nodup := by
    rw [toList, append_nil] at hdistinct
    exact (nodup_cons.mp hdistinct).2
  have habove' : (t.hang x.addr f.item.addr f.side).Above (f :: path) x.addr := by
    refine (habove.setHole hnodup x.addr).congr (fun y hy => ?_) rfl rfl
    have hyx := hpath y hy
    exact (((agree_setParent hyx).trans (agree_setChild hyx)).trans (agree_setChild hyx)).trans
      (agree_setColor hyx)
  have hshape : (t.hang x.addr f.item.addr f.side).Shape (hole (f :: path))
      (.node .red .leaf x .leaf) := by
    refine ⟨⟨hkey, hvalue, update_self .., update_self ..⟩, ?_, trivial, trivial⟩
    simp [Rbtree.hang, setChild, setParent, Rbtree.setColor, ptr]
  obtain ⟨hroot, hwhole⟩ := (shape_fill (f :: path) (.node .red .leaf x .leaf)).mpr
    ⟨habove', hshape⟩
  refine ⟨hroot, hwhole, (update_of_ne hs.symm ..).trans h.sentinel, ?_⟩
  rw [((((toList_insert_perm (f :: path) .red x).map _).cons _).trans (.swap ..)).nodup_iff]
  refine nodup_cons.mpr ⟨fun hmem => ?_, h.distinct⟩
  rcases mem_cons.mp hmem with heq | hmem
  · exact hs heq
  · obtain ⟨y, hy, heq⟩ := mem_map.mp hmem
    exact hne y hy heq

theorem Holds.plant (h : t.Holds .leaf) (hs : x.addr ≠ t.sentinel) (hkey : t.key x.addr = x.key)
    (hvalue : t.value x.addr = x.value) : (t.plant x.addr).Holds (.node .black .leaf x .leaf) := by
  refine ⟨rfl, ⟨⟨hkey, hvalue, update_self .., update_self ..⟩, ?_, trivial,
      trivial⟩, (update_of_ne hs.symm ..).trans h.sentinel, ?_⟩
  · simp [Rbtree.plant, setChild, setParent, Rbtree.setColor, ptr]
  · simpa [toList, Rbtree.plant, setParent, setChild, Rbtree.setColor] using hs.symm

/-! ## Rounds of the balancing -/

theorem Holds.paint (h : t.Holds (fill path sub)) (hsub : sub ≠ .leaf) (c : Color) :
    (t.setColor (t.ptr sub) c).Holds (fill path (sub.paint c)) := by
  obtain ⟨near, x, far, hjoin⟩ := exists_join .left hsub
  rw [hjoin] at h
  rw [hjoin, ptr_join, ColorTree.paint_join]
  exact h.setColor c

theorem Holds.color_ptr (h : t.Holds (fill path sub)) : t.color (t.ptr sub) = sub.color := by
  cases sub with
  | leaf => exact h.sentinel
  | node c l x r => exact h.focus.1.2.1.color

theorem Holds.parent_ptr (h : t.Holds (fill path sub)) (hsub : sub ≠ .leaf) :
    t.parent (t.ptr sub) = hole path := by
  cases sub with
  | leaf => exact absurd rfl hsub
  | node c l x r => exact h.focus.1.2.1.parent

theorem Holds.frame (h : t.Holds (fill (f :: path) sub)) :
    t.child f.side f.item.addr = t.ptr sub ∧ t.child f.side.other f.item.addr = t.ptr f.sibling ∧
      t.color f.item.addr = f.color ∧ t.parent f.item.addr = hole path := by
  obtain ⟨⟨⟨hcell, ⟨hchild, hother⟩, -, -⟩, -⟩, -⟩ := h.focus
  exact ⟨hchild, hother, hcell.color, hcell.parent⟩

theorem Holds.ne_sibling (h : t.Holds (fill (f :: path) sub))
    (hsub : sub ≠ .leaf) : t.ptr sub ≠ t.ptr f.sibling ∧ t.ptr sub ≠ t.root := by
  obtain ⟨⟨habove, -⟩, hdistinct⟩ := h.focus
  obtain ⟨y, hy, hroot⟩ := habove.root_mem
  cases sub with
  | leaf => exact absurd rfl hsub
  | node c l x r =>
    simp only [map_append, nodup_cons, nodup_append, mem_append, mem_map,
      not_or, not_exists, not_and] at hdistinct
    obtain ⟨⟨-, hs⟩, -, -, hne⟩ := hdistinct
    have hx : x ∈ (node c l x r).toList := by simp [toList]
    refine ⟨ptr_ne (hs x hx) fun z hz => ?_, fun heq => ?_⟩
    · exact hne _ ⟨z, by simp [items, hz], rfl⟩ _ ⟨x, hx, rfl⟩
    · exact hne _ ⟨y, hy, rfl⟩ _ ⟨x, hx, rfl⟩ (hroot.trans heq.symm)

theorem fill_sibling (f : Frame RbtreeEntry) (path : List (Frame RbtreeEntry))
    (sub : ColorTree RbtreeEntry) :
    fill (⟨f.side.other, f.color, f.item, sub⟩ :: path) f.sibling = fill (f :: path) sub :=
  congrArg (fill path) (join_other ..)

section round

variable {f g : Frame RbtreeEntry} (h : t.Holds (fill (f :: g :: path) sub)) (hsub : sub ≠ .leaf)

include h hsub

theorem Holds.grandparent : t.parent (t.ptr sub) = f.item.addr ∧
    t.parent (t.parent (t.ptr sub)) = g.item.addr := by
  have hparent : t.parent (t.ptr sub) = f.item.addr := h.parent_ptr hsub
  obtain ⟨-, -, -, hgrand⟩ := h.frame
  rw [hparent]
  exact ⟨rfl, hgrand⟩

theorem Holds.balanceRound_eq : t.balanceRound (t.ptr sub) = t.balanceOn g.side (t.ptr sub) := by
  obtain ⟨hparent, hgrand⟩ := h.grandparent hsub
  have hup : t.Holds (fill (g :: path) (f.fill sub)) := h
  obtain ⟨hchild, hother, -, -⟩ := hup.frame
  have hptr : t.ptr (f.fill sub) = f.item.addr := ptr_join ..
  have hne : t.ptr (f.fill sub) ≠ t.ptr g.sibling :=
    (hup.ne_sibling (join_ne_leaf _ _ _ _ _)).1
  unfold balanceRound
  rw [hgrand, hparent]
  cases hg : g.side with
  | left =>
    rw [hg, hptr] at hchild
    rw [if_pos hchild.symm]
  | right =>
    rw [hg] at hother
    rw [hptr] at hne
    rw [if_neg]
    rwa [show t.child .left g.item.addr = t.ptr g.sibling from hother]

/-- **The uncle is red.** -/
theorem Holds.recolor (huncle : g.sibling.color = .red) :
    (t.recolor (t.ptr sub) (t.ptr g.sibling)).Holds
      (fill path (.join g.side .red ((f.fill sub).paint .black) g.item
        (g.sibling.paint .black))) := by
  obtain ⟨hparent, hgrand⟩ := h.grandparent hsub
  have hparentBlack : (t.setColor f.item.addr .black).Holds
      (fill (g :: path) ((f.fill sub).paint .black)) := by
    have hptr : t.ptr (f.fill sub) = f.item.addr := ptr_join ..
    rw [← hptr]
    exact @Holds.paint t (g :: path) (f.fill sub) h (join_ne_leaf _ _ _ _ _) .black
  rw [← fill_sibling] at hparentBlack
  have huncleBlack := hparentBlack.paint
    (fun hleaf => by rw [hleaf] at huncle; exact nomatch huncle)
    .black
  have hgrandRed := @Holds.setColor _ path g.side.other g.color g.item
    (g.sibling.paint .black) ((f.fill sub).paint .black) huncleBlack .red
  rw [join_other] at hgrandRed
  unfold Rbtree.recolor
  rw [hgrand, hparent]
  exact hgrandRed

/-- **The outer case.** -/
theorem Holds.turnGrandparent (hside : f.side = g.side) :
    (t.turnGrandparent g.side (t.ptr sub)).Holds
      (fill (⟨g.side, .black, f.item, .join g.side .red f.sibling g.item g.sibling⟩ :: path)
        sub) := by
  obtain ⟨hparent, hgrand⟩ := h.grandparent hsub
  have hblack : (t.setColor f.item.addr .black).Holds
      (fill (g :: path) (.join f.side .black sub f.item f.sibling)) :=
    @Holds.setColor t (g :: path) f.side f.color f.item sub f.sibling h .black
  have hred : ((t.setColor f.item.addr .black).setColor g.item.addr .red).Holds
      (fill path (.join g.side .red (.join f.side .black sub f.item f.sibling) g.item g.sibling)) :=
    @Holds.setColor _ path g.side g.color g.item (.join f.side .black sub f.item f.sibling)
      g.sibling
      hblack .red
  have hseen : join g.side .red (.join f.side .black sub f.item f.sibling) g.item g.sibling =
      .join g.side.other .red g.sibling g.item
        (.join g.side.other .black f.sibling f.item sub) := by
    rw [join_other, join_other, hside]
  rw [hseen] at hred
  have hrotate := hred.rotate
  rw [join_other, join_other] at hrotate
  unfold Rbtree.turnGrandparent
  rw [hgrand, hparent]
  exact hrotate

/-- **The inner case**: a rotation below the grandparent makes it the outer one. -/
theorem Holds.straighten (hside : f.side = g.side.other) {c : Color}
    {near far : ColorTree RbtreeEntry} (hjoin : sub = .join g.side c near x far) :
    (t.rotate g.side f.item.addr).Holds
      (fill (⟨g.side, c, x, far⟩ :: g :: path) (.join g.side f.color f.sibling f.item near)) := by
  subst hjoin
  have hseen : f.fill (.join g.side c near x far) =
      .join g.side f.color f.sibling f.item (.join g.side c near x far) := by
    rw [Frame.fill, hside, join_other]
  rw [fill, hseen] at h
  exact h.rotate

omit hsub in
theorem Holds.child_uncle : t.child g.side.other g.item.addr = t.ptr g.sibling := by
  have hup : t.Holds (fill (g :: path) (f.fill sub)) := h
  exact hup.frame.2.1

omit hsub in
theorem Holds.color_uncle : t.color (t.ptr g.sibling) = g.sibling.color := by
  have hup : t.Holds (fill (g :: path) (f.fill sub)) := h
  rw [← fill_sibling] at hup
  exact hup.color_ptr

theorem Holds.balanceOn_red (huncle : g.sibling.color = .red) :
    t.balanceOn g.side (t.ptr sub) = (t.recolor (t.ptr sub) (t.ptr g.sibling), g.item.addr) := by
  have hcolor := h.color_uncle.trans huncle
  simp only [balanceOn, (h.grandparent hsub).2, h.child_uncle, if_pos hcolor]

theorem Holds.balanceOn_outer (huncle : g.sibling.color = .black) (hside : f.side = g.side) :
    t.balanceOn g.side (t.ptr sub) = (t.turnGrandparent g.side (t.ptr sub), t.ptr sub) := by
  have hcolor : ¬ t.color (t.ptr g.sibling) = .red := by
    rw [h.color_uncle, huncle]
    exact Color.noConfusion
  have houter : ¬ t.ptr sub = t.child g.side.other (t.parent (t.ptr sub)) := by
    rw [(h.grandparent hsub).1, ← hside, h.frame.2.1]
    exact (h.ne_sibling hsub).1
  simp only [balanceOn, (h.grandparent hsub).2, h.child_uncle, if_neg hcolor, if_neg houter]

theorem Holds.balanceOn_inner (huncle : g.sibling.color = .black) (hside : f.side = g.side.other) :
    t.balanceOn g.side (t.ptr sub) =
      ((t.rotate g.side f.item.addr).turnGrandparent g.side f.item.addr, f.item.addr) := by
  have hcolor : ¬ t.color (t.ptr g.sibling) = .red := by
    rw [h.color_uncle, huncle]
    exact Color.noConfusion
  have hinner : t.ptr sub = t.child g.side.other (t.parent (t.ptr sub)) := by
    rw [(h.grandparent hsub).1, ← hside, h.frame.1]
  simp only [balanceOn, (h.grandparent hsub).2, h.child_uncle, if_neg hcolor, if_pos hinner]
  rw [(h.grandparent hsub).1]

theorem Holds.balance_succ (hf : f.color = .red) (fuel : ℕ) :
    balance (fuel + 1) t (t.ptr sub) =
      balance fuel (t.balanceOn g.side (t.ptr sub)).1 (t.balanceOn g.side (t.ptr sub)).2 := by
  rw [← h.balanceRound_eq hsub]
  refine if_pos ⟨(h.ne_sibling hsub).2, ?_⟩
  rw [(h.grandparent hsub).1, h.frame.2.2.1, hf]

end round

/-! ## The loop -/

theorem balance_root (h : t.Holds sub) (fuel : ℕ) : balance (fuel + 1) t (t.ptr sub) = some t :=
  if_neg fun hboth => hboth.1 h.root.symm

theorem balance_black {f : Frame RbtreeEntry} (h : t.Holds (fill (f :: path) sub))
    (hsub : sub ≠ .leaf) (hf : f.color = .black) (fuel : ℕ) :
    balance (fuel + 1) t (t.ptr sub) = some t := by
  refine if_neg fun hboth => ?_
  have hcolor := hboth.2
  rw [h.parent_ptr hsub] at hcolor
  exact nomatch (h.frame.2.2.1.symm.trans hcolor).symm.trans hf

/-- What the loop is to leave: a red-black tree as soon as its root is black, with the items of the
tree before. -/
def Balances (t : Rbtree) (node fuel : ℕ) (before : ColorTree RbtreeEntry) : Prop :=
  ∃ t' tree, balance fuel t node = some t' ∧ t'.Holds tree ∧ tree.toList = before.toList ∧
    (tree.paint .black).IsRedBlack

theorem balances_outer {f g : Frame RbtreeEntry} (h : t.Holds (fill (f :: g :: path) sub))
    (hrising : Rising (f :: g :: path) sub) (hsub : sub ≠ .leaf) (hf : f.color = .red)
    (huncle : g.sibling.color = .black) (hside : f.side = g.side) (fuel : ℕ) :
    (t.turnGrandparent g.side (t.ptr sub)).Balances (t.ptr sub) (fuel + 1)
      (fill (f :: g :: path) sub) := by
  have hturned := h.turnGrandparent hsub hside
  have hdone := hrising.finish hf huncle g.side
  have hptr : (t.turnGrandparent g.side (t.ptr sub)).ptr sub = t.ptr sub := by
    cases sub with
    | leaf => exact absurd rfl hsub
    | node c l x r => rfl
  refine ⟨_, _, ?_, hturned, toList_fill_congr path (toList_finish sub .black .red hside), ?_⟩
  · have hlast := balance_black hturned hsub rfl fuel
    rwa [hptr] at hlast
  · have hroot := paint_color .black hdone.root
    exact hroot.symm ▸ hdone

/-- **The loop balances the tree.** -/
theorem balances_of_rising : ∀ (fuel : ℕ) {t : Rbtree} {path : List (Frame RbtreeEntry)}
    {sub : ColorTree RbtreeEntry}, t.Holds (fill path sub) → Rising path sub → path.length < fuel →
      t.Balances (t.ptr sub) fuel (fill path sub) := by
  intro fuel
  induction fuel with
  | zero => exact fun _ _ hfuel => absurd hfuel (Nat.not_lt_zero _)
  | succ fuel ih =>
    intro t path sub h hrising hfuel
    have hsub : sub ≠ .leaf := fun hleaf => by
      have hred := hrising.red
      rw [hleaf] at hred
      exact nomatch hred
    cases path with
    | nil => exact ⟨t, sub, balance_root h fuel, h, rfl, hrising.stop_root⟩
    | cons f path =>
      cases hf : f.color with
      | black =>
        have hdone := hrising.stop hf
        refine ⟨t, _, balance_black h hsub hf fuel, h, rfl, ?_⟩
        rwa [paint_color .black hdone.root]
      | red =>
        obtain ⟨g, path, rfl, -⟩ := hrising.grandparent hf
        simp only [length_cons] at hfuel
        obtain ⟨fuel, rfl⟩ : ∃ n, fuel = n + 1 := ⟨fuel - 1, by omega⟩
        unfold Balances
        rw [h.balance_succ hsub hf]
        cases huncle : g.sibling.color with
        | red =>
          -- two nodes up
          rw [h.balanceOn_red hsub huncle]
          have hnext := ih (h.recolor hsub huncle) (hrising.recolor hf huncle) (by omega)
          rw [ptr_join] at hnext
          obtain ⟨t', tree, hrun, hholds, hlist, hblack⟩ := hnext
          refine ⟨t', tree, hrun, hholds, hlist.trans ?_, hblack⟩
          exact toList_fill_congr path (toList_recolor f g sub .red .black)
        | black =>
          by_cases hside : f.side = g.side
          · rw [h.balanceOn_outer hsub huncle hside]
            exact balances_outer h hrising hsub hf huncle hside fuel
          · have hother := Side.eq_other_of_ne hside
            rw [h.balanceOn_inner hsub huncle hother]
            obtain ⟨near, x, far, hjoin⟩ := exists_join g.side hsub
            rw [hrising.red] at hjoin
            have hstraight := h.straighten hsub hother hjoin
            rw [hf] at hstraight
            have hlast := balances_outer hstraight (hrising.straighten hf hjoin)
              (join_ne_leaf _ _ _ _ _) rfl huncle rfl fuel
            rw [ptr_join] at hlast
            obtain ⟨t', tree, hrun, hholds, hlist, hdone⟩ := hlast
            refine ⟨t', tree, hrun, hholds, hlist.trans ?_, hdone⟩
            rw [hjoin]
            exact toList_fill_congr (g :: path)
              (toList_straighten .red .red hother near far x)

/-! ## The sentinel stays -/

theorem rotate_sentinel (side : Side) (node : ℕ) : (t.rotate side node).sentinel = t.sentinel := by
  simp only [rotate, replaceChild]
  split_ifs <;> rfl

theorem balanceRound_sentinel (node : ℕ) : (t.balanceRound node).1.sentinel = t.sentinel := by
  simp only [balanceRound, balanceOn, turnGrandparent]
  split_ifs <;> simp only [rotate_sentinel, recolor, setColor]

theorem balance_sentinel (fuel : ℕ) : ∀ {t t' : Rbtree} {node : ℕ},
    balance fuel t node = some t' → t'.sentinel = t.sentinel := by
  induction fuel with
  | zero => exact fun h => nomatch h
  | succ fuel ih =>
    intro t t' node h
    unfold balance at h
    split_ifs at h
    · exact (ih h).trans (balanceRound_sentinel node)
    · exact congrArg Rbtree.sentinel (Option.some.inj h).symm

/-! ## Insertions -/

variable {entries : List RbtreeEntry}

theorem Represents.perm {entries' : List RbtreeEntry} (h : t.Represents entries)
    (hperm : entries.Perm entries') : t.Represents entries' := by
  obtain ⟨tree, hholds, hordered, hlist, hred⟩ := h
  exact ⟨tree, hholds, hordered, hlist.trans hperm, hred⟩

theorem new_represents (memory : Rbtree) (sentinel : ℕ) : (memory.new sentinel).Represents [] :=
  ⟨.leaf, ⟨rfl, trivial, update_self .., nodup_cons.mpr ⟨not_mem_nil, nodup_nil⟩⟩, .nil, .refl _,
    rfl, trivial, 0, rfl⟩

variable {fuel : ℕ}

/-- **One insertion.** -/
theorem Represents.insert (h : t.Represents entries) (hkey : ∀ e ∈ entries, e.key ≠ x.key)
    (hs : x.addr ≠ t.sentinel) (haddr : ∀ e ∈ entries, e.addr ≠ x.addr)
    (hfuel : entries.length < fuel) :
    ∃ t', t.insert fuel x = some t' ∧ t'.Represents (x :: entries) ∧ t'.sentinel = t.sentinel := by
  obtain ⟨tree, hholds, hordered, hlist, hred⟩ := h
  have hfresh : t.Fresh tree x := ⟨hs, fun e he => haddr e (hlist.mem_iff.mp he)⟩
  have halloc := hholds.alloc hfresh
  have hkeyAt : (t.alloc x).key x.addr = x.key := update_self ..
  have hvalueAt : (t.alloc x).value x.addr = x.value := update_self ..
  by_cases hleaf : tree = .leaf
  · subst hleaf
    have hplant := halloc.plant hs hkeyAt hvalueAt
    refine ⟨_, if_pos halloc.root, ⟨_, hplant, pairwise_singleton .., hlist.cons x, ?_⟩, rfl⟩
    exact ⟨rfl, ⟨fun hblack => (nomatch hblack), trivial, trivial⟩, 1, 0, rfl, rfl, rfl⟩
  · have hroot : (t.alloc x).root ≠ (t.alloc x).sentinel := by
      rw [halloc.root]
      exact ptr_ne_sentinel halloc.ne_sentinel hleaf
    obtain ⟨f, path, hpath, hplace⟩ := @insertPlace_descend (t.alloc x) tree x.key 0 halloc.shape
      halloc.ne_sentinel hleaf fuel (hlist.length_eq ▸ le_of_lt hfuel) []
    have hfill : fill (f :: path) .leaf = tree := by
      rw [← hpath, fill_descend]
      rfl
    have hordered' : (fill (f :: path) (.node .red .leaf x .leaf)).Ordered RbtreeEntry.key := by
      rw [← hpath]
      exact ordered_insert hordered (fun e he => hkey e (hlist.mem_iff.mp he)) .red
    have hlist' : (fill (f :: path) (.node .red .leaf x .leaf)).toList.Perm (x :: entries) :=
      (toList_insert_perm (f :: path) .red x).trans ((hfill ▸ hlist).cons x)
    have hlen : (f :: path).length < fuel := by
      have hitems := (toList_fill_perm (f :: path) .leaf).length_eq
      rw [hfill, hlist.length_eq, toList, append_nil] at hitems
      exact lt_of_le_of_lt (hitems ▸ length_path_le (f :: path)) hfuel
    have hhang := Holds.hang (hfill.symm ▸ halloc) (hfill.symm ▸ hfresh) hkeyAt hvalueAt
    obtain ⟨t', tree', hrun, hholds', hitems, hblack⟩ :=
      balances_of_rising fuel hhang (rising_of_leaf (hfill.symm ▸ hred) x) hlen
    have hne : tree' ≠ .leaf := by
      rintro rfl
      have hlength' := hlist'.length_eq
      rw [← hitems] at hlength'
      exact absurd hlength' (by simp [toList])
    have hpaint : (t'.setColor t'.root .black).Holds (tree'.paint .black) := by
      rw [hholds'.root]
      exact @Holds.paint t' [] tree' hholds' hne .black
    have hsentinel : t'.sentinel = ((t.alloc x).hang x.addr f.item.addr f.side).sentinel :=
      balance_sentinel fuel hrun
    refine ⟨t'.setColor t'.root .black, ?_, ⟨_, hpaint, ?_, ?_, hblack⟩, hsentinel⟩
    · have hinsert : t.insert fuel x =
          ((t.alloc x).insertValue fuel (t.alloc x).root x.addr).bind fun u =>
            (balance fuel u x.addr).map fun v => v.setColor v.root .black :=
        if_neg hroot
      rw [hinsert, insertValue, hkeyAt, halloc.root, hplace]
      exact congrArg (Option.map fun v : Rbtree => v.setColor v.root .black) hrun
    · rw [ColorTree.Ordered, toList_paint, hitems]
      exact hordered'
    · rw [toList_paint, hitems]
      exact hlist'

/-- **A sequence of insertions.** -/
theorem Represents.insertAll : ∀ {entries done : List RbtreeEntry} {t : Rbtree},
    t.Represents done → ((entries ++ done).map RbtreeEntry.key).Nodup →
      (t.sentinel :: (entries ++ done).map addr).Nodup →
      (entries ++ done).length ≤ fuel →
      ∃ t', insertAll fuel entries t = some t' ∧ t'.Represents (entries ++ done)
  | [], done, t, h, _, _, _ => ⟨t, rfl, h⟩
  | x :: entries, done, t, h, hkeys, haddrs, hfuel => by
      have hmiddle : (x :: entries ++ done).Perm (entries ++ x :: done) := perm_middle.symm
      have hkeys' := (hmiddle.map RbtreeEntry.key).nodup_iff.mp hkeys
      have haddrs' := ((hmiddle.map addr).cons t.sentinel).nodup_iff.mp haddrs
      have hfuel' : (entries ++ x :: done).length ≤ fuel := hmiddle.length_eq ▸ hfuel
      simp only [cons_append, map_cons, map_append, nodup_cons, mem_cons,
        mem_append, mem_map, not_or, not_exists, not_and] at hkeys haddrs
      have hdone : done.length < fuel := by
        simp only [length_cons, length_append] at hfuel'
        omega
      obtain ⟨t', hinsert, hnext, hsentinel⟩ := h.insert hkeys.1.2 (Ne.symm haddrs.1.1)
        haddrs.2.1.2 hdone
      obtain ⟨u, hrest, hall⟩ := hnext.insertAll hkeys' (hsentinel ▸ haddrs') hfuel'
      refine ⟨u, ?_, hall.perm hmiddle.symm⟩
      rw [Rbtree.insertAll, hinsert]
      exact hrest

/-! ## Lookups -/

/-- The loop of `swRbtree_find` in an ordered tree. -/
theorem findFrom_eq {parent k : ℕ} (hshape : t.Shape parent sub)
    (hs : ∀ x ∈ sub.toList, x.addr ≠ t.sentinel) (hordered : sub.Ordered RbtreeEntry.key) {fuel : ℕ}
    (hfuel : sub.toList.length < fuel) :
    (∀ x ∈ sub.toList, x.key = k → t.findFrom k fuel (t.ptr sub) = some x.value) ∧
      ((∀ x ∈ sub.toList, x.key ≠ k) → t.findFrom k fuel (t.ptr sub) = some 0) := by
  induction sub generalizing parent fuel with
  | leaf =>
    obtain ⟨fuel, rfl⟩ : ∃ n, fuel = n + 1 := ⟨fuel - 1, by omega⟩
    exact ⟨fun x hx => absurd hx not_mem_nil, fun _ => if_pos rfl⟩
  | node c l x r ihl ihr =>
    obtain ⟨hcell, ⟨hleft, hright⟩, hl, hr⟩ := hshape
    obtain ⟨hol, hor, hlr⟩ := pairwise_append.mp hordered
    obtain ⟨hxr, hor⟩ := pairwise_cons.mp hor
    simp only [toList, length_append, length_cons, mem_append,
      mem_cons] at hfuel hs ⊢
    obtain ⟨fuel, rfl⟩ : ∃ n, fuel = n + 1 := ⟨fuel - 1, by omega⟩
    have hptr : t.ptr (.node c l x r) = x.addr := rfl
    have hhere : t.findFrom k (fuel + 1) x.addr =
        if k ≠ x.key then t.findFrom k fuel (if k < x.key then t.ptr l else t.ptr r)
        else some x.value := by
      simp only [findFrom, if_neg (hs x (.inr (.inl rfl))), hcell.key, hcell.value]
      by_cases hlt : k < x.key
      · simp only [if_pos hlt, hleft]
      · simp only [if_neg hlt, hright]
    rw [hptr, hhere]
    obtain hlt | rfl | hgt := lt_trichotomy k x.key
    · rw [if_pos (ne_of_lt hlt), if_pos hlt]
      obtain ⟨hfound, habsent⟩ := ihl hl (fun y hy => hs y (.inl hy)) hol (show _ < fuel by omega)
      refine ⟨?_, fun hne => habsent fun y hy => hne y (.inl hy)⟩
      rintro y (hy | rfl | hy) hyk
      · exact hfound y hy hyk
      · omega
      · have := hxr y hy
        omega
    · rw [if_neg (not_not.mpr rfl)]
      refine ⟨?_, fun hne => absurd rfl (hne x (.inr (.inl rfl)))⟩
      rintro y (hy | rfl | hy) hyk
      · have := hlr y hy x mem_cons_self
        omega
      · rfl
      · have := hxr y hy
        omega
    · rw [if_pos (ne_of_gt hgt), if_neg (Nat.not_lt_of_gt hgt)]
      obtain ⟨hfound, habsent⟩ :=
        ihr hr (fun y hy => hs y (.inr (.inr hy))) hor (show _ < fuel by omega)
      refine ⟨?_, fun hne => habsent fun y hy => hne y (.inr (.inr hy))⟩
      rintro y (hy | rfl | hy) hyk
      · have := hlr y hy x mem_cons_self
        omega
      · omega
      · exact hfound y hy hyk

theorem Represents.find (h : t.Represents entries) (hfuel : entries.length < fuel) (k : ℕ) :
    (∀ e ∈ entries, e.key = k → t.find fuel k = some e.value) ∧
      ((∀ e ∈ entries, e.key ≠ k) → t.find fuel k = some 0) := by
  obtain ⟨tree, hholds, hordered, hlist, -⟩ := h
  obtain ⟨hfound, habsent⟩ := @findFrom_eq t tree 0 k hholds.shape hholds.ne_sentinel hordered fuel
    (hlist.length_eq ▸ hfuel)
  rw [Rbtree.find, hholds.root]
  exact ⟨fun e he => hfound e (hlist.mem_iff.mpr he),
    fun hne => habsent fun e he => hne e (hlist.mem_iff.mp he)⟩

/-- **Insertions and lookups.**  `malloc` gives the sentinel and each node a block of its own.
After any sequence of insertions with distinct keys the tree is a
red-black search tree of exactly the entries, and `swRbtree_find` answers the value of each of them,
and `NULL` for all other keys.  No loop makes more rounds than there are nodes, and one. -/
theorem insertAll_find (memory : Rbtree) (sentinel : ℕ) (entries : List RbtreeEntry)
    (hkeys : (entries.map RbtreeEntry.key).Nodup) (hdistinct : (sentinel :: entries.map addr).Nodup)
    {fuel : ℕ}     (hfuel : entries.length < fuel) :
    ∃ t, insertAll fuel entries (memory.new sentinel) = some t ∧ t.Represents entries ∧
      (∀ e ∈ entries, t.find fuel e.key = some e.value) ∧
      ∀ k, (∀ e ∈ entries, e.key ≠ k) → t.find fuel k = some 0 := by
  have hnew := new_represents memory sentinel
  rw [← append_nil entries] at hkeys hdistinct
  have hlen : (entries ++ []).length ≤ fuel := by
    rw [append_nil]
    exact le_of_lt hfuel
  obtain ⟨t, hrun, h⟩ := hnew.insertAll hkeys hdistinct hlen
  rw [append_nil] at h
  exact ⟨t, hrun, h, fun e he => (h.find hfuel e.key).1 e he rfl, fun k => (h.find hfuel k).2⟩

/-- Ascending keys: the third insertion rotates. -/
theorem insertAll_find_ascending :
    ∃ t, insertAll 4 [⟨20, 3, 8⟩, ⟨30, 6, 16⟩, ⟨40, 9, 24⟩]
        (new ⟨0, 0, fun _ => 0, fun _ => 0, fun _ _ => 0, fun _ => 0, fun _ => .red⟩ 10) = some t ∧
      t.Represents [⟨20, 3, 8⟩, ⟨30, 6, 16⟩, ⟨40, 9, 24⟩] ∧
      (∀ e ∈ [(⟨20, 3, 8⟩ : RbtreeEntry), ⟨30, 6, 16⟩, ⟨40, 9, 24⟩],
        t.find 4 e.key = some e.value) ∧
      ∀ k, (∀ e ∈ [(⟨20, 3, 8⟩ : RbtreeEntry), ⟨30, 6, 16⟩, ⟨40, 9, 24⟩], e.key ≠ k) →
        t.find 4 k = some 0 :=
  insertAll_find _ 10 _ (by decide) (by decide) (by decide)

end Swoole.Rbtree
