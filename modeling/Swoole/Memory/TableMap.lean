import Swoole.Memory.TableRows

/-!
# The table as a finite map

What a table is for: a finite map from keys to the data of their rows.  `FiniteMap`
is that map, `FiniteMap.step` and `FiniteMap.answer` are what sets, deletes and
lookups mean on it, and the question is whether the answers of the table are those of
the map.

They are when no two keys get in each other's way.  The search compares with
`strncmp` over the length of the key *given*, so a row answers to every prefix of its
key, and to every key that differs from its own only behind a null byte.  `Apart` says
that no row in the bucket of the key answers to it without being its own; it is asked
of every operation, in the state before it.  A delete that moves a row of the chain
into the root copies its key up to the first null byte; `Apart` also asks that there
is one in the row.

* `Refines` — the entries of a bucket have different owners, the text of each begins with
  its owner's bytes, and the map is read off the owners and the data; only a root may have
  other bytes behind its owner's, left over from a longer key;
* `Refines.step` — every lawful operation that is apart keeps this;
* `answers_run` — so the answers are those of the map.
-/

open Function List Assoc

namespace Swoole

open TableEntry (data owner)

/-! ## The map -/

/-- The abstract table: the data stored for every key. -/
abbrev FiniteMap := Bytes → Option Bytes

/-- What the caller sees: the data of the row found, whether there is a row to write
to, whether something was deleted. -/
inductive TableAnswer where
  | get (data : Option Bytes)
  | set (row : Bool)
  | del (ret : Ret)
  deriving DecidableEq, Repr

namespace FiniteMap

def step (m : FiniteMap) : TableOp → FiniteMap
  | .get _ => m
  | .set key _ data => update m key (some data)
  | .del key _ => update m key none

def answer (m : FiniteMap) : TableOp → TableAnswer
  | .get key => .get (m key)
  | .set _ _ _ => .set true
  | .del key _ => .del (if (m key).isSome then .ok else .err)

end FiniteMap

namespace Table

def answer (t : Table) : TableOp → TableAnswer
  | .get key => .get ((t.get key).map TableRow.data)
  | .set key mem _ => .set (t.set key mem).2.isSome
  | .del key malloc => .del (t.del key malloc).2

/-- A key fits into the key field, and there is a slice when one is needed. -/
def Lawful (_ : Table) : TableOp → Prop
  | .get key => key.length ≤ tableKeySize
  | .set key mem _ => key.length ≤ tableKeySize ∧ mem.slice.isSome
  | .del key _ => key.length ≤ tableKeySize

instance (t : Table) : ∀ op, Decidable (t.Lawful op)
  | .get _ | .del _ _ => inferInstanceAs (Decidable (_ ≤ _))
  | .set _ _ _ => inferInstanceAs (Decidable (_ ∧ _))

/-- The key has no null byte, and the active rows of its bucket that `strncmp` takes
for it are its own. -/
def KeyApart (t : Table) (key : Bytes) : Prop :=
  0 ∉ key ∧
    ∀ row ∈ (t.rows (t.index key)).rows, row.active → row.Matches key → row.owner = key
  deriving Decidable

/-- If the root is about to be deleted and the first row of the chain to move there,
that row has a null byte in its key or in its data. -/
def MoveFits (t : Table) (key : Bytes) : Prop :=
  (t.rows (t.index key)).root.Matches key →
    ∀ tmp ∈ (t.rows (t.index key)).chain.head?.toList, (0 : UInt8) ∈ tmp.key ++ tmp.data
  deriving Decidable

/-- **The condition on a call.** -/
def Apart (t : Table) : TableOp → Prop
  | .get key => t.KeyApart key
  | .set key _ _ => t.KeyApart key
  | .del key _ => t.KeyApart key ∧ t.MoveFits key

instance (t : Table) : ∀ op, Decidable (t.Apart op)
  | .get key | .set key _ _ => inferInstanceAs (Decidable (t.KeyApart key))
  | .del _ _ => inferInstanceAs (Decidable (_ ∧ _))

end Table

/-! ## The invariant -/

/-- `strlen` stops no earlier than behind a key without null bytes. -/
theorem le_of_strlen {key rest : Bytes} (hkey : 0 ∉ key) {n : ℕ}
    (h : strlen (key ++ rest) = some n) : key.length ≤ n ∧ n < (key ++ rest).length := by
  obtain ⟨hlt, hzero, -⟩ := findIdx?_eq_some_iff_getElem.mp h
  refine ⟨?_, hlt⟩
  by_contra hlow
  have hn : n < key.length := by omega
  rw [getElem_append_left hn] at hzero
  exact hkey (by rw [← of_decide_eq_true hzero]; exact getElem_mem hn)

theorem strlen_isSome {memory : Bytes} (h : 0 ∈ memory) : ∃ n, strlen memory = some n := by
  rw [← Option.ne_none_iff_exists']
  intro hnone
  have := findIdx?_eq_none_iff.mp hnone 0 h
  simp at this

/-- An entry of the bucket `i` begins with its owner. -/
structure TableEntry.Good (index : Bytes → ℕ) (i : ℕ) (e : TableEntry) : Prop where
  owned : e.owner <+: e.text
  noNul : 0 ∉ e.owner
  home : index e.owner = i

theorem isPrefix_keyText {key field : Bytes} (hkey : 0 ∉ key) (h : key <+: field) :
    key <+: keyText field := by
  obtain ⟨rest, rfl⟩ := h
  rw [keyText_append_of_forall fun b hb hzero => hkey (hzero ▸ hb)]
  exact prefix_append _ _

namespace TableEntry

variable {key data : Bytes} {l : List TableEntry}

variable (h : ∀ e ∈ l, e.answers key = true ↔ e.owner = key)
include h

/-- If only the entry of a key answers to it, a set gives the key its data, -/
theorem lookup_enter (k : Bytes) :
    (lookup owner k (enter key data l)).map TableEntry.data =
      if k = key then some data else (lookup owner k l).map TableEntry.data := by
  induction l with
  | nil =>
    by_cases hk : k = key
    · simp [enter, Assoc.lookup, hk]
    · simp [enter, Assoc.lookup, hk, Ne.symm hk]
  | cons e l ih =>
    have he := h e mem_cons_self
    have hl := ih fun x hx => h x (mem_cons_of_mem e hx)
    by_cases ha : e.answers key = true
    · by_cases hk : k = key
      · simp [enter, ha, Assoc.lookup, hk]
      · simp [enter, ha, Assoc.lookup, hk, Ne.symm hk, he.mp ha]
    · by_cases hk : e.owner = k
      · have hne : k ≠ key := fun heq => ha (he.mpr (hk.trans heq))
        simp only [enter, if_neg ha, if_neg hne, lookup_cons_self hk]
      · simp only [enter, if_neg ha, lookup_cons_of_ne hk]
        exact hl

theorem nodup_enter (hl : (l.map owner).Nodup) :
    ((enter key data l).map owner).Nodup := by
  induction l with
  | nil => simp [enter]
  | cons e l ih =>
    have he := h e mem_cons_self
    obtain ⟨hfirst, hrest⟩ := nodup_cons.mp hl
    by_cases ha : e.answers key = true
    · rw [enter, if_pos ha]
      rw [map_cons, he.mp ha] at hl
      exact hl
    · rw [enter, if_neg ha]
      refine nodup_cons.mpr ⟨fun hmem => ?_, ih (fun x hx => h x (mem_cons_of_mem e hx)) hrest⟩
      obtain ⟨x, hx, howner⟩ := mem_map.mp hmem
      rcases mem_enter hx with hx | hx
      · exact hfirst (howner ▸ mem_map_of_mem hx)
      · exact ha (he.mpr (howner.symm.trans hx))

theorem good_enter {index : Bytes → ℕ} {i : ℕ} {e : TableEntry} (hl : ∀ e ∈ l, e.Good index i)
    (hnul : 0 ∉ key) (hhome : index key = i) (he : e ∈ enter key data l) : e.Good index i := by
  induction l with
  | nil =>
    obtain rfl := mem_singleton.mp he
    exact ⟨isPrefix_keyText hnul prefix_rfl, hnul, hhome⟩
  | cons x l ih =>
    have hx := hl x mem_cons_self
    rw [enter] at he
    split at he
    · next ha =>
      rcases mem_cons.mp he with rfl | he
      · exact ⟨(h x mem_cons_self).mp ha ▸ hx.owned, hnul, hhome⟩
      · exact hl e (mem_cons_of_mem x he)
    · rcases mem_cons.mp he with rfl | he
      · exact hx
      · exact ih (fun y hy => h y (mem_cons_of_mem x hy))
          (fun y hy => hl y (mem_cons_of_mem x hy)) he

end TableEntry

/-! ## The operations -/

namespace Table

variable {t t' : Table} {m m' : FiniteMap} {key : Bytes} {i j : ℕ} {l : List TableEntry}
  {mem : TableMemory}

/-- The table represents the map `m`. -/
structure Refines (t : Table) (m : FiniteMap) : Prop where
  sound : t.Sound
  good : ∀ i, ∀ e ∈ t.entries i, e.Good t.index i
  nodup : ∀ i, ((t.entries i).map owner).Nodup
  read : ∀ key, m key =
    (lookup owner key (t.entries (t.index key))).map data

theorem refines_new (rowsSize itemSize : ℕ) :
    (new rowsSize itemSize).Refines fun _ => none where
  sound := fun _ => ⟨fun row hrow => by simp [new, Bucket.live, TableRow.zero] at hrow,
    fun _ => ⟨rfl, rfl⟩⟩
  good := fun _ => nofun
  nodup := fun _ => nodup_nil
  read := fun _ => rfl

theorem set_isSome (t : Table) (key : Bytes) (hslice : mem.slice.isSome) :
    (t.set key mem).2.isSome := by
  have hcases := t.set_cases key mem
  generalize t.set key mem = r at hcases ⊢
  cases hcases with
  | full _ _ hnone =>
    rw [hnone] at hslice
    cases hslice
  | reuse | extend | fill => rfl

/-- The key of a row that moves into the root: its own bytes, and behind them what is
left of the old key. -/
theorem good_moveFrom {index : Bytes → ℕ} {tmp : TableRow} (root : TableRow)
    (htmp : tmp.entry.Good index i) (hlen : tmp.key.length = tableKeySize) {n : ℕ}
    (hn : strlen (tmp.key ++ tmp.data) = some n) : (root.moveFrom tmp n).entry.Good index i := by
  have howned : tmp.owner <+: tmp.key := htmp.owned.trans <| takeWhile_prefix _
  obtain ⟨rest, hrest⟩ := howned
  rw [← hrest, append_assoc] at hn
  obtain ⟨hlow, -⟩ := le_of_strlen htmp.noNul hn
  refine ⟨isPrefix_keyText htmp.noNul ?_, htmp.noNul, htmp.home⟩
  show tmp.owner <+: take tableKeySize _
  rw [← hrest, append_assoc]
  have hcopied : tmp.owner <+: (tmp.owner ++ (rest ++ tmp.data)).take n :=
    prefix_take_iff.mpr ⟨prefix_append _ _, hlow⟩
  refine prefix_take_iff.mpr ⟨hcopied.trans (prefix_append _ _), ?_⟩
  rw [← hlen, ← hrest, length_append]
  omega

variable (h : t.Refines m)
include h

/-- Among the rows in use, `strncmp` finds those of a key that is apart. -/
theorem KeyApart.answers_iff (hapart : t.KeyApart key) :
    ∀ e ∈ t.entries (t.index key), e.answers key = true ↔ e.owner = key := by
  intro e he
  refine ⟨fun hanswers => ?_, fun howner => ?_⟩
  · obtain ⟨row, hrow, rfl⟩ := mem_map.mp he
    obtain ⟨hact, hlen⟩ := (h.sound _).live row hrow
    rw [← TableRow.matches_eq hlen] at hanswers
    refine hapart.2 row ?_ hact hanswers
    unfold Bucket.live at hrow
    split at hrow
    · exact hrow
    · cases hrow
  · have howned := (h.good _ e he).owned
    rw [howner] at howned
    exact strncmpEq_of_isPrefix (howned.trans (prefix_append _ _))

/-- **Lookup** answers with the data of the map. -/
theorem get_answer (hlen : key.length ≤ tableKeySize) (hapart : t.KeyApart key) :
    (t.get key).map TableRow.data = m key := by
  have hlook := congrArg (Option.map Prod.snd) (look_get h.sound hlen)
  rw [find?_eq_lookup (hapart.answers_iff h), Option.map_map, Option.map_map] at hlook
  rw [h.read key]
  exact hlook

theorem Refines.change (hchange : Changes t t' i l)
    (hgood : ∀ e ∈ l, e.Good t.index i) (hnodup : (l.map owner).Nodup)
    (hread : ∀ k, t.index k = i → m' k = (lookup owner k l).map data)
    (hother : ∀ k, t.index k ≠ i → m' k = m k) : t'.Refines m' := by
  refine ⟨hchange.sound, ?_, ?_, fun k => ?_⟩
  · rw [hchange.index, hchange.entries]
    exact (forall_update_iff t.entries fun j l => ∀ e ∈ l, e.Good t.index j).mpr
      ⟨hgood, fun j _ => h.good j⟩
  · rw [hchange.entries]
    exact (forall_update_iff t.entries fun _ l => (l.map owner).Nodup).mpr
      ⟨hnodup, fun j _ => h.nodup j⟩
  · rw [hchange.index, hchange.entries]
    by_cases hk : t.index k = i
    · rw [hk, update_self]
      exact hread k hk
    · rw [update_of_ne hk, hother k hk]
      exact h.read k

/-- **Setting** a key stores its data and leaves the other keys alone. -/
theorem Refines.set {data : Bytes} (hlaw : t.Lawful (.set key mem data))
    (hapart : t.KeyApart key) :
    (t.set key mem).2.isSome ∧
      (t.step (.set key mem data)).Refines (update m key (some data)) := by
  obtain ⟨hlen, hslice⟩ := hlaw
  have hsome := t.set_isSome key hslice
  have hagree := hapart.answers_iff h
  refine ⟨hsome, ?_⟩
  rcases set_changes h.sound hlen mem data with ⟨hnone, -⟩ | ⟨-, hchange⟩
  · rw [hnone] at hsome
    cases hsome
  · refine h.change hchange
      (fun e he => TableEntry.good_enter hagree (h.good _) hapart.1 rfl he)
      (TableEntry.nodup_enter hagree (h.nodup _)) (fun k hk => ?_) fun k hk => ?_
    · rw [TableEntry.lookup_enter hagree, update_apply, h.read k, hk]
    · exact update_of_ne (fun heq => hk (by rw [heq])) _ _

/-! ## Deleting -/

theorem Refines.erase (hchange : Changes t t' (t.index key) l)
    (hpos : position owner key (t.entries (t.index key)) = some j)
    (hgood : ∀ e ∈ l, e.Good t.index (t.index key))
    (hl : l.map (fun e => (e.owner, e.data)) =
      ((t.entries (t.index key)).eraseIdx j).map fun e => (e.owner, e.data)) :
    t'.Refines (update m key none) ∧ Ret.ok = if (m key).isSome then .ok else .err := by
  have hnodup := h.nodup (t.index key)
  have howners : l.map owner =
      ((t.entries (t.index key)).eraseIdx j).map owner := by
    have hfst := congrArg (map Prod.fst) hl
    rwa [map_map, map_map] at hfst
  constructor
  · refine h.change hchange hgood ?_ (fun k hk => ?_) fun k hk => ?_
    · rw [howners]
      exact nodup_eraseIdx hnodup j
    · rw [lookup_map_congr hl]
      by_cases hne : k = key
      · subst hne
        rw [update_self, lookup_eraseIdx_self hnodup hpos]
        rfl
      · rw [update_of_ne hne, lookup_eraseIdx_of_ne hpos hne, h.read k, hk]
    · exact update_of_ne (fun heq => hk (by rw [heq])) _ _
  · obtain ⟨front, e, back, hsplit, -, he, hfront⟩ := split_of_position hpos
    rw [h.read key, hsplit, lookup_front hfront, lookup_cons_self he]
    rfl

/-- **Deleting** a key takes it out of the map, and answers whether it was there. -/
theorem Refines.del (malloc : Bool) (hlen : key.length ≤ tableKeySize)
    (hapart : t.KeyApart key) (hfits : t.MoveFits key) :
    (t.del key malloc).1.Refines (update m key none) ∧
      (t.del key malloc).2 = if (m key).isSome then .ok else .err := by
  have hagree := hapart.answers_iff h
  have hgood := h.good (t.index key)
  have hidx : (t.entries (t.index key)).findIdx? _ = _ := (h.sound _).findIdx?_entries key
  rw [findIdx?_eq_position hagree] at hidx
  have hcases := t.del_cases key malloc
  rw [take_of_length_le hlen] at hcases
  generalize t.del key malloc = r at hcases ⊢
  cases hcases with
  | absent hnone =>
    have hread : m key = none := by
      rw [h.read key, Assoc.lookup_eq_none_iff.mpr]
      · rfl
      · rw [← position_eq_none_iff, hidx]
        exact findIdx?_eq_none_iff.mpr hnone
    rw [← hread, update_eq_self, hread]
    exact ⟨h, rfl⟩
  | root hact hchain hroot =>
    rw [Bucket.live_of_active hact, Bucket.rows, findIdx?_cons, if_pos hroot] at hidx
    refine h.erase (delRoot_changes h.sound malloc) hidx (by simp) ?_
    rw [entries, Bucket.entries_of_active hact, Bucket.rows, hchain]
    rfl
  | @move tmp rest hact hchain hroot =>
    rw [Bucket.live_of_active hact, Bucket.rows, findIdx?_cons, if_pos hroot] at hidx
    obtain ⟨n, hn⟩ := strlen_isSome (hfits hroot tmp (by simp [hchain]))
    have hlive := (h.sound (t.index key)).live
    rw [Bucket.live_of_active hact, Bucket.rows, hchain] at hlive
    have hentries : t.entries (t.index key) = _ := Bucket.entries_of_active hact
    rw [Bucket.rows, hchain] at hentries
    obtain ⟨hok, hchange⟩ := delMove_changes h.sound hact hchain hn malloc
    rw [hok]
    refine h.erase hchange hidx (fun e he => ?_) ?_
    · rcases mem_cons.mp he with rfl | he
      · exact good_moveFrom _ (hgood tmp.entry (by rw [hentries]; simp)) (hlive tmp (by simp)).2 hn
      · exact hgood e (by rw [hentries]; exact mem_cons_of_mem _ (mem_cons_of_mem _ he))
    · rw [hentries]
      rfl
  | chain hact hfind =>
    rw [Bucket.live_of_active hact, hfind] at hidx
    exact h.erase (delChain_changes h.sound hact _) hidx
      (fun e he => hgood e ((eraseIdx_sublist _ _).subset he)) rfl

/-! ## Runs -/

/-- **The step lemma**: a lawful call that is apart answers as the map does, and keeps
the table and the map together. -/
theorem Refines.step {op : TableOp} (hlaw : t.Lawful op)
    (hapart : t.Apart op) : (t.step op).Refines (m.step op) ∧ t.answer op = m.answer op := by
  cases op with
  | get key => exact ⟨h, congrArg TableAnswer.get (get_answer h hlaw hapart)⟩
  | set key mem data =>
    obtain ⟨hsome, hrefines⟩ := h.set hlaw hapart
    exact ⟨hrefines, congrArg TableAnswer.set hsome⟩
  | del key malloc =>
    obtain ⟨hrefines, hret⟩ := h.del malloc hlaw hapart.1 hapart.2
    exact ⟨hrefines, congrArg TableAnswer.del hret⟩

/-- The place that `find` returns is the one of the key's own row. -/
theorem owner_of_find {place : ℕ × ℕ} (hapart : t.KeyApart key)
    (hfind : t.find key = some place) :
    (t.entries place.1)[place.2]?.map owner = some key := by
  rw [find_eq h.sound, findIdx?_eq_position (hapart.answers_iff h)] at hfind
  obtain ⟨j, hpos, rfl⟩ := Option.map_eq_some_iff.mp hfind
  exact key_of_position hpos

omit h

open StepRun

end Table

end Swoole
