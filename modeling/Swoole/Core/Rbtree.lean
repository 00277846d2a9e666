import Swoole.Library.RedBlack

/-!
# Red-black trees

`swRbtree` keeps its nodes in memory, with pointers to the children and to the parent and one
sentinel in place of all leaves.  An insertion hangs the new node below a leaf position and then
climbs back along the parent pointers, with recolourings and rotations.

The members of the nodes are maps from addresses here, and a link to a child is a `Side`: the
mirrored halves of the code are one definition.  `Holds` connects the memory with a tree of the
library.
-/

namespace Swoole

open RedBlack List Function

/-- `swRbtree`, with the members of all `swRbtree_node`s by their addresses. -/
structure Rbtree where
  root : ℕ
  sentinel : ℕ
  key : ℕ → ℕ
  value : ℕ → ℕ
  /-- `left` and `right`. -/
  child : Side → ℕ → ℕ
  parent : ℕ → ℕ
  color : ℕ → Color

/-- One call of `swRbtree_insert`, with the address that `malloc` answers. -/
structure RbtreeEntry where
  addr : ℕ
  key : ℕ
  value : ℕ
  deriving DecidableEq, Repr

namespace Rbtree

open RbtreeEntry (addr)
open ColorTree (join toList toList_join_perm)

variable (t : Rbtree)

/-! ## Assignments -/

def setChild (side : Side) (node q : ℕ) : Rbtree :=
  { t with child := fun s a => if s = side ∧ a = node then q else t.child s a }

def setParent (node q : ℕ) : Rbtree := { t with parent := update t.parent node q }

/-- `swRbtree_red` and `swRbtree_black`. -/
def setColor (node : ℕ) (color : Color) : Rbtree :=
  { t with color := update t.color node color }

/-- `swRbtree_new`, in a memory with the contents of `t`. -/
def new (sentinel : ℕ) : Rbtree :=
  { t.setColor sentinel .black with root := sentinel, sentinel := sentinel }

/-! ## Inserting -/

/-- The loop of `swRbtree_insert_value`: the node that the new one is hung below, and the side.  It
follows at most `fuel` pointers. -/
def insertPlace (key : ℕ) : ℕ → ℕ → Option (ℕ × Side)
  | 0, _ => none
  | fuel + 1, temp =>
    if t.child (if key < t.key temp then .left else .right) temp = t.sentinel then
      some (temp, if key < t.key temp then .left else .right)
    else insertPlace key fuel (t.child (if key < t.key temp then .left else .right) temp)

/-- The new node is hung there. -/
def hang (node temp : ℕ) (side : Side) : Rbtree :=
  ((((t.setChild side temp node).setParent node temp).setChild .left node t.sentinel).setChild
    .right node t.sentinel).setColor node .red

/-- `swRbtree_insert_value`. -/
def insertValue (fuel temp node : ℕ) : Option Rbtree :=
  (t.insertPlace (t.key node) fuel temp).map fun place => t.hang node place.1 place.2

/-- Whatever pointed to `node` points to `temp`; the side is the one that is compared first. -/
def replaceChild (side : Side) (node temp : ℕ) : Rbtree :=
  if node = t.root then { t with root := temp }
  else if node = t.child side (t.parent node) then t.setChild side (t.parent node) temp
  else t.setChild side.other (t.parent node) temp

/-- The root of the inner subtree gets another parent. -/
def adopt (child node : ℕ) : Rbtree :=
  { t with
    parent := if child ≠ t.sentinel then update t.parent child node else t.parent }

/-- A rotation: `node` moves down to the given side. -/
def rotate (side : Side) (node : ℕ) : Rbtree :=
  let temp := t.child side.other node
  let t₁ := t.setChild side.other node (t.child side temp)
  let t₂ := t₁.adopt (t₁.child side temp) node
  let t₃ := t₂.setParent temp (t₂.parent node)
  let t₄ := t₃.replaceChild side node temp
  (t₄.setChild side temp node).setParent node temp

/-- `swRbtree_left_rotate`. -/
def leftRotate (node : ℕ) : Rbtree := t.rotate .left node

/-- `swRbtree_right_rotate`. -/
def rightRotate (node : ℕ) : Rbtree := t.rotate .right node

/-- The parent and the uncle become black and the grandparent red. -/
def recolor (node temp : ℕ) : Rbtree :=
  ((t.setColor (t.parent node) .black).setColor temp .black).setColor
    (t.parent (t.parent node)) .red

/-- The end of a round in which the uncle is black. -/
def turnGrandparent (side : Side) (node : ℕ) : Rbtree :=
  let t' := (t.setColor (t.parent node) .black).setColor (t.parent (t.parent node)) .red
  t'.rotate side.other (t.parent (t.parent node))

/-- A round of the balancing; the parent is the `side` child of the grandparent. -/
def balanceOn (side : Side) (node : ℕ) : Rbtree × ℕ :=
  let temp := t.child side.other (t.parent (t.parent node))
  if t.color temp = .red then (t.recolor node temp, t.parent (t.parent node))
  else if node = t.child side.other (t.parent node) then
    ((t.rotate side (t.parent node)).turnGrandparent side (t.parent node), t.parent node)
  else (t.turnGrandparent side node, node)

def balanceRound (node : ℕ) : Rbtree × ℕ :=
  if t.parent node = t.child .left (t.parent (t.parent node)) then t.balanceOn .left node
  else t.balanceOn .right node

/-- The loop that balances the tree, for at most `fuel` tests of its condition. -/
def balance : ℕ → Rbtree → ℕ → Option Rbtree
  | 0, _, _ => none
  | fuel + 1, t, node =>
    if node ≠ t.root ∧ t.color (t.parent node) = .red then
      balance fuel (t.balanceRound node).1 (t.balanceRound node).2
    else some t

/-- The new node as `malloc` gives it, with its key and its value. -/
def alloc (entry : RbtreeEntry) : Rbtree :=
  { t with
    key := update t.key entry.addr entry.key
    value := update t.value entry.addr entry.value }

/-- The new node becomes the root of an empty tree. -/
def plant (node : ℕ) : Rbtree :=
  { (((t.setParent node 0).setChild .left node t.sentinel).setChild .right node t.sentinel).setColor
      node .black with root := node }

/-- `swRbtree_insert`. -/
def insert (fuel : ℕ) (entry : RbtreeEntry) : Option Rbtree :=
  let t' := t.alloc entry
  if t'.root = t'.sentinel then some (t'.plant entry.addr)
  else
    (t'.insertValue fuel t'.root entry.addr).bind fun u =>
      (balance fuel u entry.addr).map fun v => v.setColor v.root .black

/-- A sequence of insertions. -/
def insertAll (fuel : ℕ) : List RbtreeEntry → Rbtree → Option Rbtree
  | [], t => some t
  | entry :: entries, t => (t.insert fuel entry).bind (insertAll fuel entries)

/-- The loop of `swRbtree_find`. -/
def findFrom (key : ℕ) : ℕ → ℕ → Option ℕ
  | 0, _ => none
  | fuel + 1, tmp =>
    if tmp = t.sentinel then some 0
    else if key ≠ t.key tmp then
      findFrom key fuel (t.child (if key < t.key tmp then .left else .right) tmp)
    else some (t.value tmp)

/-- `swRbtree_find`; `NULL` is zero. -/
def find (fuel key : ℕ) : Option ℕ := t.findFrom key fuel t.root

/-! ## The tree in the memory -/

/-- The pointer to a tree. -/
def ptr : ColorTree RbtreeEntry → ℕ
  | .leaf => t.sentinel
  | .node _ _ x _ => x.addr

/-- The members of a node other than its children. -/
structure Cell (parent : ℕ) (color : Color) (x : RbtreeEntry) : Prop where
  key : t.key x.addr = x.key
  value : t.value x.addr = x.value
  color : t.color x.addr = color
  parent : t.parent x.addr = parent

/-- A tree is laid out in the memory, below `parent`. -/
def Shape : ℕ → ColorTree RbtreeEntry → Prop
  | _, .leaf => True
  | parent, .node c l x r =>
    t.Cell parent c x ∧ (t.child .left x.addr = t.ptr l ∧ t.child .right x.addr = t.ptr r) ∧
      Shape x.addr l ∧ Shape x.addr r

/-- **The memory holds the tree**: the nodes are linked with each other as in the tree, and they
have distinct addresses. -/
structure Holds (tree : ColorTree RbtreeEntry) : Prop where
  root : t.root = t.ptr tree
  shape : t.Shape 0 tree
  sentinel : t.color t.sentinel = .black
  distinct : (t.sentinel :: tree.toList.map addr).Nodup

/-- **The contract of the tree** that the entries were inserted in: it is a red-black search tree
which contains exactly the entries. -/
def Represents (entries : List RbtreeEntry) : Prop :=
  ∃ tree, t.Holds tree ∧ tree.Ordered RbtreeEntry.key ∧ tree.toList.Perm entries ∧ tree.IsRedBlack

/-- The node above the subtree, or `NULL`. -/
def hole : List (Frame RbtreeEntry) → ℕ
  | [] => 0
  | f :: _ => f.item.addr

/-- A path is laid out in the memory, and ends at the pointer `q`. -/
def Above : List (Frame RbtreeEntry) → ℕ → Prop
  | [], q => t.root = q
  | f :: path, q =>
    t.Cell (hole path) f.color f.item ∧
      (t.child f.side f.item.addr = q ∧ t.child f.side.other f.item.addr = t.ptr f.sibling) ∧
      t.Shape f.item.addr f.sibling ∧ Above path f.item.addr

/-- All members of the node at `a` are the same. -/
structure Agree (t t' : Rbtree) (a : ℕ) : Prop where
  key : t'.key a = t.key a
  value : t'.value a = t.value a
  child : ∀ side, t'.child side a = t.child side a
  parent : t'.parent a = t.parent a
  color : t'.color a = t.color a

variable {t} {t' : Rbtree} {path : List (Frame RbtreeEntry)} {sub : ColorTree RbtreeEntry} {a : ℕ}

theorem Agree.trans {t'' : Rbtree} (h : Agree t t' a) (h' : Agree t' t'' a) : Agree t t'' a where
  key := h'.key.trans h.key
  value := h'.value.trans h.value
  child side := (h'.child side).trans (h.child side)
  parent := h'.parent.trans h.parent
  color := h'.color.trans h.color

variable {q node : ℕ} {side : Side}

theorem agree_setChild (h : a ≠ node) : Agree t (t.setChild side node q) a :=
  ⟨rfl, rfl, fun _ => if_neg fun hboth => h hboth.2, rfl, rfl⟩

theorem agree_setParent (h : a ≠ node) : Agree t (t.setParent node q) a :=
  ⟨rfl, rfl, fun _ => rfl, update_of_ne h .., rfl⟩

variable {c : Color}

theorem agree_setColor (h : a ≠ node) : Agree t (t.setColor node c) a :=
  ⟨rfl, rfl, fun _ => rfl, rfl, update_of_ne h ..⟩

variable {parent : ℕ} {x : RbtreeEntry}

theorem Cell.congr (h : Agree t t' x.addr) (hcell : t.Cell parent c x) : t'.Cell parent c x :=
  ⟨h.key.trans hcell.key, h.value.trans hcell.value, h.color.trans hcell.color,
    h.parent.trans hcell.parent⟩

theorem ptr_congr (hs : t'.sentinel = t.sentinel) (tree : ColorTree RbtreeEntry) :
    t'.ptr tree = t.ptr tree := by
  cases tree with
  | leaf => exact hs
  | node c l x r => rfl

variable {tree : ColorTree RbtreeEntry}

/-- **Frame rule**: a tree stays where nothing is assigned to its nodes. -/
theorem Shape.congr (h : t.Shape parent tree) (hagree : ∀ x ∈ tree.toList, Agree t t' x.addr)
    (hs : t'.sentinel = t.sentinel) : t'.Shape parent tree := by
  induction tree generalizing parent with
  | leaf => trivial
  | node c l x r ihl ihr =>
    obtain ⟨hcell, ⟨hleft, hright⟩, hl, hr⟩ := h
    have hx : Agree t t' x.addr := hagree x (by simp [toList])
    refine ⟨hcell.congr hx, ⟨?_, ?_⟩, ihl hl fun y hy => hagree y (by simp [toList, hy]),
      ihr hr fun y hy => hagree y (by simp [toList, hy])⟩
    · rw [hx.child, hleft, ptr_congr hs]
    · rw [hx.child, hright, ptr_congr hs]

theorem Above.congr {path : List (Frame RbtreeEntry)} (h : t.Above path q)
    (hagree : ∀ x ∈ items path, Agree t t' x.addr) (hs : t'.sentinel = t.sentinel)
    (hroot : t'.root = t.root) : t'.Above path q := by
  induction path generalizing q with
  | nil => exact hroot.trans h
  | cons f path ih =>
    obtain ⟨hcell, ⟨hchild, hother⟩, hsibling, habove⟩ := h
    have hf : Agree t t' f.item.addr := hagree f.item (by simp [items])
    refine ⟨hcell.congr hf, ⟨(hf.child _).trans hchild, ?_⟩,
      hsibling.congr (fun x hx => hagree x (by simp [items, hx])) hs,
      ih habove fun x hx => hagree x (by simp [items, hx])⟩
    rw [hf.child, hother, ptr_congr hs]

theorem ptr_join (side : Side) (c : Color) (near far : ColorTree RbtreeEntry) (x : RbtreeEntry) :
    t.ptr (.join side c near x far) = x.addr := by
  cases side <;> rfl

theorem shape_join {near far : ColorTree RbtreeEntry} :
    t.Shape parent (.join side c near x far) ↔
      t.Cell parent c x ∧
        (t.child side x.addr = t.ptr near ∧ t.child side.other x.addr = t.ptr far) ∧
        t.Shape x.addr near ∧ t.Shape x.addr far := by
  cases side with
  | left => rfl
  | right =>
    show _ ∧ (_ ∧ _) ∧ _ ∧ _ ↔ _
    rw [and_comm (a := t.child .left _ = _), and_comm (a := t.Shape _ far)]
    rfl

theorem shape_fill : ∀ (path : List (Frame RbtreeEntry)) (sub : ColorTree RbtreeEntry),
    t.root = t.ptr (fill path sub) ∧ t.Shape 0 (fill path sub) ↔
      t.Above path (t.ptr sub) ∧ t.Shape (hole path) sub
  | [], sub => Iff.rfl
  | f :: path, sub => by
      rw [fill, shape_fill path, Frame.fill, ptr_join, shape_join, Above]
      tauto

theorem Holds.focus (h : t.Holds (fill path sub)) :
    (t.Above path (t.ptr sub) ∧ t.Shape (hole path) sub) ∧
      (t.sentinel :: (items path ++ sub.toList).map addr).Nodup :=
  ⟨(shape_fill path sub).mp ⟨h.root, h.shape⟩,
    (((toList_fill_perm path sub).map _).cons _).nodup_iff.mp h.distinct⟩

theorem Holds.exchange (h : t.Holds (fill path sub)) {sub' : ColorTree RbtreeEntry}
    (hlist : sub'.toList = sub.toList) (hs : t'.sentinel = t.sentinel)
    (hblack : t'.color t.sentinel = t.color t.sentinel) (habove : t'.Above path (t'.ptr sub'))
    (hshape : t'.Shape (hole path) sub') : t'.Holds (fill path sub') := by
  obtain ⟨hroot, hwhole⟩ := (shape_fill path sub').mpr ⟨habove, hshape⟩
  refine ⟨hroot, hwhole, ?_, ?_⟩
  · rw [hs, hblack, h.sentinel]
  · rw [hs, toList_fill_congr path hlist]
    exact h.distinct

/-! ## Colours -/

theorem Holds.setColor {near far : ColorTree RbtreeEntry}
    (h : t.Holds (fill path (.join side c near x far))) (c' : Color) :
    (t.setColor x.addr c').Holds (fill path (.join side c' near x far)) := by
  obtain ⟨⟨habove, hshape⟩, hdistinct⟩ := h.focus
  rw [ptr_join] at habove
  obtain ⟨hcell, hlinks, hnear, hfar⟩ := shape_join.mp hshape
  rw [((((toList_join_perm side c near far x).append_left _).map _).cons _).nodup_iff]
    at hdistinct
  simp only [cons_append, map_append, map_cons, nodup_cons, nodup_append,
    mem_append, mem_cons, mem_map, not_or, not_exists, not_and] at hdistinct
  obtain ⟨⟨-, hsx, -⟩, -, ⟨⟨hxnear, hxfar⟩, -⟩, hpath⟩ := hdistinct
  refine h.exchange (ColorTree.toList_join_congr side c' c near far x rfl rfl) rfl
    (update_of_ne hsx ..) ?_ ?_
  · rw [ptr_join]
    exact habove.congr (fun y hy => agree_setColor (hpath _ ⟨y, hy, rfl⟩ _ (.inl rfl))) rfl rfl
  · exact shape_join.mpr ⟨⟨hcell.key, hcell.value, update_self .., hcell.parent⟩, hlinks,
      hnear.congr (fun y hy => agree_setColor (hxnear y hy)) rfl,
      hfar.congr (fun y hy => agree_setColor (hxfar y hy)) rfl⟩

/-! ## Rotations -/

/-- The pointer at the end of a path is assigned. -/
def setHole (t : Rbtree) (path : List (Frame RbtreeEntry)) (q : ℕ) : Rbtree :=
  { t with
    root := match path with
      | [] => q
      | _ :: _ => t.root
    child := match path with
      | [] => t.child
      | f :: _ => (t.setChild f.side f.item.addr q).child }

theorem agree_setHole (h : ∀ y ∈ items path, y.addr ≠ a) : Agree t (t.setHole path q) a := by
  cases path with
  | nil => exact ⟨rfl, rfl, fun _ => rfl, rfl, rfl⟩
  | cons f path => exact agree_setChild (h f.item (by simp [items])).symm

theorem Above.setHole (h : t.Above path q) (hdistinct : ((items path).map addr).Nodup)
    (q' : ℕ) : (t.setHole path q').Above path q' := by
  cases path with
  | nil => rfl
  | cons f path =>
    obtain ⟨hcell, ⟨hchild, hother⟩, hsibling, habove⟩ := h
    simp only [items, cons_append, map_cons, map_append, nodup_cons,
      mem_append, mem_map, not_or, not_exists, not_and] at hdistinct
    obtain ⟨⟨hapart, hrest⟩, -⟩ := hdistinct
    refine ⟨⟨hcell.key, hcell.value, hcell.color, hcell.parent⟩, ⟨if_pos ⟨rfl, rfl⟩, ?_⟩,
      hsibling.congr (fun y hy => agree_setChild (hapart y hy)) rfl,
      habove.congr (fun y hy => agree_setChild (hrest y hy)) rfl rfl⟩
    exact (if_neg fun hboth => Side.other_ne _ hboth.1).trans (hother.trans (ptr_congr rfl _).symm)

theorem Above.root_mem {f : Frame RbtreeEntry} (h : t.Above (f :: path) q) :
    ∃ y ∈ items (f :: path), y.addr = t.root := by
  induction path generalizing f q with
  | nil => exact ⟨f.item, by simp [items], h.2.2.2.symm⟩
  | cons g path ih =>
    obtain ⟨y, hy, heq⟩ := ih h.2.2.2
    exact ⟨y, by simp [items] at hy ⊢; tauto, heq⟩

theorem ptr_ne (hs : a ≠ t.sentinel) (h : ∀ y ∈ tree.toList, y.addr ≠ a) : a ≠ t.ptr tree := by
  cases tree with
  | leaf => exact hs
  | node c l x r => exact (h x (by simp [toList])).symm

/-- `replaceChild` finds out where the path ends. -/
theorem replaceChild_eq {temp : ℕ} (h : t.Above path node) (hparent : t.parent node = hole path)
    (hs : node ≠ t.sentinel) (hapart : ∀ y ∈ items path, y.addr ≠ node) (side : Side) :
    t.replaceChild side node temp = t.setHole path temp := by
  cases path with
  | nil => exact if_pos h.symm
  | cons f path =>
    obtain ⟨y, hy, hroot⟩ := h.root_mem
    have hnot : node ≠ t.root := fun heq => hapart y hy (hroot.trans heq.symm)
    obtain ⟨-, ⟨hchild, hother⟩, -, -⟩ := h
    have hsibling : node ≠ t.ptr f.sibling :=
      ptr_ne hs fun y hy => hapart y (by simp [items, hy])
    unfold replaceChild
    rw [if_neg hnot, hparent]
    by_cases hside : f.side = side
    · subst hside
      exact if_pos hchild.symm
    · have hother' : t.child side f.item.addr = t.ptr f.sibling := by
        rw [← hother, Side.eq_other_of_ne hside, Side.other_other]
      refine (if_neg (show ¬ node = t.child side f.item.addr by rwa [hother'])).trans ?_
      exact congrArg (t.setChild · f.item.addr temp) (Side.eq_other_of_ne hside).symm

theorem agree_adopt {a : ℕ} (h : ∀ y ∈ tree.toList, y.addr ≠ a) (q : ℕ) :
    Agree t (t.adopt (t.ptr tree) q) a := by
  refine ⟨rfl, rfl, fun _ => rfl, ?_, rfl⟩
  cases tree with
  | leaf => exact congrFun (if_neg (not_not.mpr rfl)) a
  | node c l x r =>
    by_cases hx : x.addr ≠ t.sentinel
    · exact (congrFun (if_pos hx) a).trans
        (update_of_ne (h x (by simp [toList])).symm ..)
    · exact congrFun (if_neg hx) a

theorem Shape.adopt {parent : ℕ} (h : t.Shape parent tree)
    (hdistinct : (t.sentinel :: tree.toList.map addr).Nodup) (q : ℕ) :
    (t.adopt (t.ptr tree) q).Shape q tree := by
  cases tree with
  | leaf => trivial
  | node c l x r =>
    obtain ⟨hcell, hlinks, hl, hr⟩ := h
    simp only [toList, map_append, map_cons, nodup_cons, nodup_append,
      mem_append, mem_cons, mem_map, not_or, not_exists, not_and] at hdistinct
    obtain ⟨⟨-, hsx, -⟩, -, ⟨hxr, -⟩, hl'⟩ := hdistinct
    have hadopt : t.adopt (t.ptr (.node c l x r)) q = t.setParent x.addr q :=
      congrArg (fun parent => { t with parent := parent }) (if_pos (Ne.symm hsx))
    rw [hadopt]
    exact ⟨⟨hcell.key, hcell.value, hcell.color, update_self ..⟩, hlinks,
      hl.congr (fun y hy => agree_setParent (hl' _ ⟨y, hy, rfl⟩ _ (.inl rfl))) rfl,
      hr.congr (fun y hy => agree_setParent (hxr y hy)) rfl⟩

/-- The nodes that take part in a rotation are apart from each other and from all the others. -/
structure Apart (t : Rbtree) (path : List (Frame RbtreeEntry)) (x y : RbtreeEntry)
    (A B C : ColorTree RbtreeEntry) : Prop where
  ne_sentinel : x.addr ≠ t.sentinel
  ne : x.addr ≠ y.addr
  above : ∀ z ∈ items path, z.addr ≠ x.addr ∧ z.addr ≠ y.addr ∧ ∀ w ∈ B.toList, w.addr ≠ z.addr
  inner : ∀ z ∈ B.toList, z.addr ≠ x.addr ∧ z.addr ≠ y.addr ∧ ∀ w ∈ items path, w.addr ≠ z.addr
  outer : ∀ z, z ∈ A.toList ∨ z ∈ C.toList → z.addr ≠ x.addr ∧ z.addr ≠ y.addr ∧
    (∀ w ∈ B.toList, w.addr ≠ z.addr) ∧ ∀ w ∈ items path, w.addr ≠ z.addr
  path_nodup : ((items path).map addr).Nodup
  inner_nodup : (t.sentinel :: B.toList.map addr).Nodup

section rotate

variable {side : Side} {c d : Color} {A B C : ColorTree RbtreeEntry} {x y : RbtreeEntry}

theorem Holds.apart (h : t.Holds (fill path (.join side c A x (.join side d B y C)))) :
    t.Apart path x y A B C := by
  obtain ⟨-, hdistinct⟩ := h.focus
  have hperm : (join side c A x (.join side d B y C)).toList.Perm
      (x :: A.toList ++ (y :: B.toList ++ C.toList)) :=
    (toList_join_perm ..).trans ((toList_join_perm side d B C y).append_left _)
  rw [(((hperm.append_left _).map _).cons _).nodup_iff] at hdistinct
  simp only [cons_append, map_append, map_cons, nodup_cons, nodup_append,
    mem_append, mem_cons, mem_map, not_or, not_exists, not_and] at hdistinct
  obtain ⟨⟨-, hsx, -, -, hsB, -⟩, hpath, ⟨⟨hxA, hxy, hxB, hxC⟩, -, ⟨⟨hyB, hyC⟩, hB, -, hBC⟩, hA⟩,
    hP⟩ := hdistinct
  refine ⟨Ne.symm hsx, hxy, fun z hz => ⟨?_, ?_, fun w hw => ?_⟩,
    fun z hz => ⟨hxB z hz, hyB z hz, fun w hw => ?_⟩, ?_, hpath, nodup_cons.mpr ⟨?_, hB⟩⟩
  · exact hP _ ⟨z, hz, rfl⟩ _ (.inl rfl)
  · exact hP _ ⟨z, hz, rfl⟩ _ (.inr (.inr (.inl rfl)))
  · exact (hP _ ⟨z, hz, rfl⟩ _ (.inr (.inr (.inr (.inl ⟨w, hw, rfl⟩))))).symm
  · exact hP _ ⟨w, hw, rfl⟩ _ (.inr (.inr (.inr (.inl ⟨z, hz, rfl⟩))))
  · rintro z (hz | hz)
    · exact ⟨hxA z hz, hA _ ⟨z, hz, rfl⟩ _ (.inl rfl),
        fun w hw => (hA _ ⟨z, hz, rfl⟩ _ (.inr (.inl ⟨w, hw, rfl⟩))).symm,
        fun w hw => hP _ ⟨w, hw, rfl⟩ _ (.inr (.inl ⟨z, hz, rfl⟩))⟩
    · exact ⟨hxC z hz, hyC z hz, fun w hw => hBC _ ⟨w, hw, rfl⟩ _ ⟨z, hz, rfl⟩,
        fun w hw => hP _ ⟨w, hw, rfl⟩ _ (.inr (.inr (.inr (.inr ⟨z, hz, rfl⟩))))⟩
  · rintro hs
    obtain ⟨w, hw, heq⟩ := mem_map.mp hs
    exact hsB w hw heq

/-- The first half of a rotation: the inner subtree has changed its parent. -/
def passInner (t : Rbtree) (side : Side) (path : List (Frame RbtreeEntry)) (x y : RbtreeEntry)
    (B : ColorTree RbtreeEntry) : Rbtree :=
  ((t.setChild side.other x.addr (t.ptr B)).adopt (t.ptr B) x.addr).setParent y.addr (hole path)

theorem agree_passInner (hx : a ≠ x.addr) (hy : a ≠ y.addr) (hB : ∀ w ∈ B.toList, w.addr ≠ a) :
    Agree t (t.passInner side path x y B) a := by
  have hadopt : Agree (t.setChild side.other x.addr (t.ptr B))
      ((t.setChild side.other x.addr (t.ptr B)).adopt (t.ptr B) x.addr) a := agree_adopt hB _
  exact ((agree_setChild hx).trans hadopt).trans (agree_setParent hy)

variable (h : t.Holds (fill path (.join side c A x (.join side d B y C))))
include h

theorem Holds.rotate_eq :
    t.rotate side x.addr =
      (((t.passInner side path x y B).setHole path y.addr).setChild side y.addr x.addr).setParent
        x.addr y.addr := by
  have hapart := h.apart
  obtain ⟨⟨habove, hshape⟩, -⟩ := h.focus
  rw [ptr_join] at habove
  obtain ⟨hx, ⟨-, hxy⟩, -, hsub⟩ := shape_join.mp hshape
  obtain ⟨-, ⟨hyB, -⟩, -, -⟩ := shape_join.mp hsub
  rw [ptr_join] at hxy
  have hinner : (t.setChild side.other x.addr (t.ptr B)).child side y.addr = t.ptr B :=
    (if_neg fun hboth => hapart.ne hboth.2.symm).trans hyB
  have hparent : ((t.setChild side.other x.addr (t.ptr B)).adopt (t.ptr B) x.addr).parent x.addr =
      hole path :=
    (@agree_adopt (t.setChild side.other x.addr (t.ptr B)) B x.addr
      (fun w hw => (hapart.inner w hw).1) x.addr).parent.trans hx.parent
  have hreplace : (t.passInner side path x y B).replaceChild side x.addr y.addr =
      (t.passInner side path x y B).setHole path y.addr := by
    refine @replaceChild_eq (t.passInner side path x y B) path x.addr y.addr ?_ ?_
      hapart.ne_sentinel
      (fun z hz => (hapart.above z hz).1) side
    · refine habove.congr (fun z hz => ?_) rfl rfl
      obtain ⟨hzx, hzy, hzB⟩ := hapart.above z hz
      exact agree_passInner hzx hzy hzB
    · exact (update_of_ne hapart.ne ..).trans hparent
  unfold Rbtree.rotate
  simp only [hxy, hyB, hinner, hparent]
  exact congrArg (fun u : Rbtree => (u.setChild side y.addr x.addr).setParent x.addr y.addr)
    hreplace

/-- **A rotation in the memory is a rotation of the tree.** -/
theorem Holds.rotate :
    (t.rotate side x.addr).Holds (fill path (.join side d (.join side c A x B) y C)) := by
  have hapart := h.apart
  have hrotate := h.rotate_eq
  obtain ⟨⟨habove, hshape⟩, -⟩ := h.focus
  obtain ⟨hx, ⟨hxA, hxy⟩, hA, hsub⟩ := shape_join.mp hshape
  obtain ⟨hy, ⟨hyB, hyC⟩, hB, hC⟩ := shape_join.mp hsub
  have hpath : ∀ z ∈ items path, Agree t (t.passInner side path x y B) z.addr := by
    intro z hz
    obtain ⟨hzx, hzy, hzB⟩ := hapart.above z hz
    exact agree_passInner hzx hzy hzB
  have hlast : ∀ {a : ℕ}, a ≠ x.addr → a ≠ y.addr → (∀ w ∈ items path, w.addr ≠ a) →
      Agree (t.passInner side path x y B) (t.rotate side x.addr) a := by
    intro a hax hay hapath
    rw [hrotate]
    exact ((agree_setHole hapath).trans (agree_setChild hay)).trans (agree_setParent hax)
  have houter : ∀ z, z ∈ A.toList ∨ z ∈ C.toList → Agree t (t.rotate side x.addr) z.addr := by
    intro z hz
    obtain ⟨hzx, hzy, hzB, hzpath⟩ := hapart.outer z hz
    exact (agree_passInner hzx hzy hzB).trans (hlast hzx hzy hzpath)
  have hinner : (t.rotate side x.addr).Shape x.addr B := by
    have hadopt :
        ((t.setChild side.other x.addr (t.ptr B)).adopt (t.ptr B) x.addr).Shape x.addr B :=
      @Shape.adopt (t.setChild side.other x.addr (t.ptr B)) B y.addr
        (hB.congr (fun z hz => agree_setChild (hapart.inner z hz).1) rfl) hapart.inner_nodup x.addr
    refine hadopt.congr (fun z hz => ?_) ?_
    · obtain ⟨hzx, hzy, hzpath⟩ := hapart.inner z hz
      exact (agree_setParent hzy).trans (hlast hzx hzy hzpath)
    · rw [hrotate]
      rfl
  have hx' : Agree (t.passInner side path x y B)
      ((t.passInner side path x y B).setHole path y.addr) x.addr :=
    agree_setHole fun z hz => (hapart.above z hz).1
  have hy' : Agree (t.passInner side path x y B)
      ((t.passInner side path x y B).setHole path y.addr) y.addr :=
    agree_setHole fun z hz => (hapart.above z hz).2.1
  have hs : (t.rotate side x.addr).sentinel = t.sentinel := by
    rw [hrotate]
    rfl
  refine h.exchange (ColorTree.toList_rotate ..).symm hs ?_ ?_ ?_
  · rw [hrotate]
    rfl
  · rw [ptr_join, hrotate]
    refine (((habove.congr hpath rfl rfl).setHole hapart.path_nodup y.addr).congr (fun z hz => ?_)
      rfl rfl)
    obtain ⟨hzx, hzy, -⟩ := hapart.above z hz
    exact (agree_setChild hzy).trans (agree_setParent hzx)
  · refine shape_join.mpr ⟨?_, ⟨?_, ?_⟩, shape_join.mpr ⟨?_, ⟨?_, ?_⟩, ?_, hinner⟩, ?_⟩
    · rw [hrotate]
      exact ⟨hy.key, hy.value, hy.color, (update_of_ne hapart.ne.symm ..).trans (update_self ..)⟩
    · rw [ptr_join, hrotate]
      exact if_pos ⟨rfl, rfl⟩
    · rw [ptr_congr hs, hrotate, ← hyC]
      refine (if_neg fun hboth => Side.other_ne _ hboth.1).trans ((hy'.child _).trans ?_)
      exact if_neg fun hboth => hapart.ne hboth.2.symm
    · rw [hrotate]
      exact ⟨hx.key, hx.value, hx.color, update_self ..⟩
    · rw [ptr_congr hs, hrotate, ← hxA]
      refine (if_neg fun hboth => hapart.ne hboth.2).trans ((hx'.child _).trans ?_)
      exact if_neg fun hboth => Side.ne_other _ hboth.1
    · rw [ptr_congr hs, hrotate]
      refine (if_neg fun hboth => Side.other_ne _ hboth.1).trans ((hx'.child _).trans ?_)
      exact if_pos ⟨rfl, rfl⟩
    · exact hA.congr (fun z hz => houter z (.inl hz)) hs
    · exact hC.congr (fun z hz => houter z (.inr hz)) hs

end rotate

end Rbtree

end Swoole
