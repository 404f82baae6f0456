import Wgs.Foundation.Locality
import Wgs.RedBlack.Balance
import Wgs.RedBlack.Safety

/-!
`rb_erase` releases the node of its key and keeps all the others.

The node that held the key is the one released; every other node keeps its address, its key and its
data, and is linked in the tree that is left.  `rbEraseScribbled` is `rb_erase` with the
node overwritten where the source releases it.  It computes the same, whatever is written there, and
finds it there in the end (`rbErase_scribbled`): nothing after the release looks at the node.

`rb_erase_identity` has this of all trees that are reached without an overflow in a comparison.
With an overflow `rb_erase` may miss a key that is in the tree: `erase_misses`.
-/

namespace Wgs

open Foundation Mem

/-! ### What runs after the release -/

section Padded

variable {a : ℕ} {n : RbNode} {m m' : Mem RbNode}

lemma padded_reparent (h : Padded a n m m') (p parent : Ptr) :
    Relates (Padded a n) (reparent p parent m) (reparent p parent m') := by
  by_cases hp : p = none
  · rw [reparent, reparent, if_pos hp, if_pos hp]
    exact .some h
  · rw [reparent, reparent, if_neg hp, if_neg hp]
    exact h.modify _ _

lemma padded_relink (h : Padded a n m m') (test : Side) (parent node new root : Ptr) :
    Relates (PaddedWith a n) (relink test parent node new root m)
      (relink test parent node new root m') := by
  by_cases hparent : parent = none
  · rw [relink, relink, if_pos hparent, if_pos hparent]
    exact .some ⟨rfl, h⟩
  · rw [relink, relink, if_neg hparent, if_neg hparent]
    refine .bind (h.read _ _) ?_
    rintro child _ rfl
    by_cases hchild : child = node
    · simp only [if_pos hchild]
      exact .bind (h.modify _ _) fun m m' h => .some ⟨rfl, h⟩
    · simp only [if_neg hchild]
      exact .bind (h.modify _ _) fun m m' h => .some ⟨rfl, h⟩

lemma padded_blackOrNull (h : Padded a n m m') (p : Ptr) :
    Relates Eq (blackOrNull p m) (blackOrNull p m') := by
  cases p with
  | none => exact .rfl' _
  | some b => exact h.read _ _

lemma padded_rbRotate (h : Padded a n m m') (s : Side) (node root : Ptr) :
    Relates (PaddedWith a n) (rbRotate s node root m) (rbRotate s node root m') := by
  refine .bind (h.read _ _) ?_
  rintro up _ rfl
  refine .bind (h.read _ _) ?_
  rintro inner _ rfl
  refine .bind (h.modify _ _) fun m m' h => .bind (padded_reparent h _ _) fun m m' h => ?_
  refine .bind (h.modify _ _) fun m m' h => .bind (h.read _ _) ?_
  rintro parent _ rfl
  refine .bind (h.modify _ _) fun m m' h => .bind (padded_relink h _ _ _ _ _) ?_
  rintro ⟨root, m⟩ ⟨_, m'⟩ ⟨rfl, h⟩
  exact .bind (h.modify _ _) fun m m' h => .some ⟨rfl, h⟩

/-- The results of a turn of the loop of `rb_erase_rebalance`. -/
def TurnPadded (a : ℕ) (n : RbNode) (r r' : Ptr × Ptr × Ptr × Mem RbNode × Bool) : Prop :=
  r.1 = r'.1 ∧ r.2.1 = r'.2.1 ∧ r.2.2.1 = r'.2.2.1 ∧ Padded a n r.2.2.2.1 r'.2.2.2.1
    ∧ r.2.2.2.2 = r'.2.2.2.2

lemma padded_rbEraseSibling (h : Padded a n m m') (s : Side) (parent other root : Ptr) :
    Relates (TurnPadded a n) (rbEraseSibling s parent other root m)
      (rbEraseSibling s parent other root m') := by
  rw [← result_watchEraseSibling, ← result_watchEraseSibling]
  simp only [watchEraseSibling, Watched.result_bind, Watched.result_read, Watched.result_modify,
    Watched.result_lift, Watched.result_pure, Watched.result_ite, result_watchRotate]
  refine .bind (h.read _ _) ?_
  rintro near _ rfl
  refine .bind (h.read _ _) ?_
  rintro far _ rfl
  refine .bind (padded_blackOrNull h _) ?_
  rintro nearBlack _ rfl
  refine .bind (padded_blackOrNull h _) ?_
  rintro farBlack _ rfl
  refine .ite ?_ (.bind (R := fun r r' => r.1 = r'.1 ∧ PaddedWith a n r.2 r'.2)
    (.ite ?_ (.some ⟨rfl, rfl, h⟩)) ?_)
  · refine .bind (h.modify _ _) fun m m' h => .bind (h.read _ _) ?_
    rintro up _ rfl
    exact .some ⟨rfl, rfl, rfl, h, rfl⟩
  · refine .bind (.ite (.some h) (h.modify _ _)) fun m m' h => ?_
    refine .bind (h.modify _ _) fun m m' h => .bind (padded_rbRotate h _ _ _) ?_
    rintro ⟨root, m⟩ ⟨_, m'⟩ ⟨rfl, h⟩
    refine .bind (h.read _ _) ?_
    rintro other _ rfl
    exact .some ⟨rfl, rfl, h⟩
  · rintro ⟨other, root, m⟩ ⟨_, _, m'⟩ ⟨rfl, rfl, h⟩
    refine .bind (h.read _ _) ?_
    rintro parentColor _ rfl
    refine .bind (h.modify _ _) fun m m' h => .bind (h.modify _ _) fun m m' h => ?_
    refine .bind (h.read _ _) ?_
    rintro far _ rfl
    refine .bind (.ite (.some h) (h.modify _ _)) fun m m' h => .bind (padded_rbRotate h _ _ _) ?_
    rintro ⟨root, m⟩ ⟨_, m'⟩ ⟨rfl, h⟩
    exact .some ⟨rfl, rfl, rfl, h, rfl⟩

lemma padded_rbEraseCase (h : Padded a n m m') (s : Side) (parent root : Ptr) :
    Relates (TurnPadded a n) (rbEraseCase s parent root m) (rbEraseCase s parent root m') := by
  refine .bind (h.read _ _) ?_
  rintro other _ rfl
  refine .bind (h.read _ _) ?_
  rintro otherColor _ rfl
  refine .ite ?_ (padded_rbEraseSibling h _ _ _ _)
  refine .bind (h.modify _ _) fun m m' h => .bind (h.modify _ _) fun m m' h => ?_
  refine .bind (padded_rbRotate h _ _ _) ?_
  rintro ⟨root, m⟩ ⟨_, m'⟩ ⟨rfl, h⟩
  refine .bind (h.read _ _) ?_
  rintro other _ rfl
  exact padded_rbEraseSibling h _ _ _ _

lemma padded_finish (h : Padded a n m m') (node root : Ptr) :
    Relates (PaddedWith a n) (rbEraseRebalance.finish node root m)
      (rbEraseRebalance.finish node root m') := by
  by_cases hnode : node = none
  · simp only [rbEraseRebalance.finish, if_pos hnode]
    exact .some ⟨rfl, h⟩
  · simp only [rbEraseRebalance.finish, if_neg hnode]
    exact .bind (h.modify _ _) fun m m' h => .some ⟨rfl, h⟩

lemma padded_rbEraseRebalance (h : Padded a n m m') (fuel : ℕ) (node parent root : Ptr) :
    Relates (PaddedWith a n) (rbEraseRebalance fuel node parent root m)
      (rbEraseRebalance fuel node parent root m') := by
  induction fuel generalizing node parent root m m' with
  | zero => exact .of_none _
  | succ fuel ih =>
      rw [← result_watchEraseRebalance, ← result_watchEraseRebalance]
      simp only [watchEraseRebalance, Watched.result_bind, Watched.result_read,
        Watched.result_lift, Watched.result_ite, result_watchEraseCase, result_watchEraseRebalance]
      refine .bind (padded_blackOrNull h _) ?_
      rintro nodeBlack _ rfl
      refine .ite (.bind (h.read _ _) ?_) (padded_finish h _ _)
      rintro left _ rfl
      refine .bind (.ite (padded_rbEraseCase h _ _ _) (padded_rbEraseCase h _ _ _)) ?_
      rintro ⟨node, parent, root, m, again⟩ ⟨_, _, _, m', _⟩ ⟨rfl, rfl, rfl, h, rfl⟩
      exact .ite (ih h _ _ _) (padded_finish h _ _)

end Padded

/-- `rb_erase` with the node overwritten where the source releases it. -/
def rbEraseScribbled (fuel : ℕ) (key : ℤ) (junk : RbNode) (root : Ptr) (m : Mem RbNode) :
    Option (Ptr × Mem RbNode) := do
  let (node, _) ← rbSearchAuxiliary fuel key root m
  if node = none then return (root, m)
  else
    let left ← m.read node RbNode.left
    let right ← m.read node RbNode.right
    let (child, parent, color, root, m) ←
      if left ≠ none ∧ right ≠ none then rbUnlinkTwo fuel node root m
      else rbUnlinkOne node root m
    let m ← m.modify node fun _ => junk
    if color = .black then rbEraseRebalance fuel child parent root m
    else return (root, m)

/-- **Nothing after the release looks at the node**: with the node overwritten instead, `rb_erase`
computes the same, and the node is as it was overwritten. -/
lemma rbErase_scribbled {fuel a : ℕ} {key : ℤ} (junk : RbNode) {root q : Ptr} {m : Mem RbNode}
    (haux : rbSearchAuxiliary fuel key root m = some (some a, q)) :
    Relates (PaddedWith a junk) (rbErase fuel key root m)
      (rbEraseScribbled fuel key junk root m) := by
  have htail : ∀ r : Ptr × Ptr × Color × Ptr × Mem RbNode, Relates (PaddedWith a junk)
      ((r.2.2.2.2.free (some a)).bind fun m =>
        if r.2.2.1 = .black then rbEraseRebalance fuel r.1 r.2.1 r.2.2.2.1 m
        else some (r.2.2.2.1, m))
      ((r.2.2.2.2.modify (some a) fun _ => junk).bind fun m =>
        if r.2.2.1 = .black then rbEraseRebalance fuel r.1 r.2.1 r.2.2.2.1 m
        else some (r.2.2.2.1, m)) := fun r =>
    .bind (relates_free _ _ _) fun m m' h =>
      .ite (padded_rbEraseRebalance h _ _ _ _) (.some ⟨rfl, h⟩)
  simp only [rbErase, rbEraseScribbled, haux, Option.bind_eq_bind, Option.bind_some, reduceCtorEq,
    ite_false]
  refine .bind (.rfl' _) ?_
  rintro left _ rfl
  refine .bind (.rfl' _) ?_
  rintro right _ rfl
  refine .ite (.bind (.rfl' _) ?_) (.bind (.rfl' _) ?_)
  · rintro r _ rfl
    exact htail r
  · rintro r _ rfl
    exact htail r

/-! ### What is kept -/

/-- Erasing `key`, the key of the node at `a`, leads from `s` to `s'` and concerns that node
only. -/
structure ErasesOnly (s : RbState) (key : ℤ) (a : ℕ) (s' : RbState) : Prop where
  /-- The node held the key, and `rb_search` finds it. -/
  held : s.mem.read (some a) RbNode.key = some key
    ∧ Returns (fun fuel => rbSearch fuel key s.root s.mem) (some a)
  returns : RbStep s (.erase key) s'
  /-- It is released, and no other. -/
  released : ∀ b, s'.mem b = none ↔ b = a ∨ s.mem b = none
  /-- Whatever is written to it where it is released, the call returns the same and leaves that
  alone: it is neither read nor written nor released again. -/
  untouched : ∀ junk, Returns (fun fuel => rbEraseScribbled fuel key junk s.root s.mem)
    (s'.root, Function.update s'.mem a (some junk))
  /-- The other nodes keep their keys and their data and are linked in the tree. -/
  kept : ∀ b n, b ≠ a → s.mem b = some n →
    InTree s'.root s'.mem b ∧ ∃ n', s'.mem b = some n' ∧ n'.key = n.key ∧ n'.data = n.data
  /-- What `rb_search` gave for another key is the node of that key. -/
  pointers : ∀ k b, k ≠ key → IsInt32 k →
    Returns (fun fuel => rbSearch fuel k s.root s.mem) (some b) →
    InTree s'.root s'.mem b ∧ s'.mem.read (some b) RbNode.key = some k

section Tree

open ColorTree

variable {root : Ptr} {m : Mem RbNode} {s s' : RbState} {t u : ColorTree Entry} {a : ℕ} {key : ℤ}

/-- What `rb_search` finds is the node of an entry with the key. -/
lemma Rep.rbSearch_found {b : ℕ} (h : Rep root m t) (hkey : IsInt32 key)
    (hint : ∀ x ∈ t.inorder, IsInt32 x.key)
    (hret : Returns (fun fuel => rbSearch fuel key root m) (some b)) :
    ∃ x ∈ t.inorder, x.addr = b ∧ x.key = key := by
  have hplug : plug _ _ = t := plug_descend (searchSide key) [] t
  have hret' : Returns (fun fuel => rbSearch fuel key root m)
      (ptr (descend (searchSide key) [] t).2) :=
    ⟨t.size + 1, fun fuel hfuel => by simp [rbSearch, rbSearchAuxiliary_spec h hfuel rfl]⟩
  have heq := hret.unique hret'
  rcases descend_end (searchSide key) [] t with hnil | ⟨c, l, x, r, hu, hx⟩
  · rw [hnil] at heq
    cases heq
  · have hmem : x ∈ t.inorder := by
      rw [← hplug, inorder_plug, hu]
      simp
    rw [hu, ptr_node, Option.some_inj] at heq
    exact ⟨x, hmem, heq.symm, key_eq_of_searchSide hkey (hint x hmem) hx⟩

/-- The node of a key in the tree, as an entry. -/
lemma Rep.entry_of_key (h : Rep root m t) (ha : InTree root m a)
    (hkey : m.read (some a) RbNode.key = some key) :
    ∃ x ∈ t.inorder, x.addr = a ∧ x.key = key := by
  obtain ⟨x, hx, rfl⟩ := List.mem_map.mp (h.inTree_iff.mp ha)
  obtain ⟨n, hn, hnkey, -⟩ := h.exists_cell hx
  rw [read_eq hn, Option.some_inj] at hkey
  exact ⟨x, hx, rfl, hnkey.symm.trans hkey⟩

/-- Two trees that differ in one entry, which only the first one has. -/
lemma kept_of_split {l r : List Entry} {x : Entry} {root' : Ptr} {m' : Mem RbNode}
    (h : Rep root m t) (h' : Rep root' m' u) (htin : t.inorder = l ++ x :: r)
    (huin : u.inorder = l ++ r) :
    (∀ b, m' b = none ↔ b = x.addr ∨ m b = none) ∧
      ∀ b n, b ≠ x.addr → m b = some n →
        InTree root' m' b ∧ ∃ n', m' b = some n' ∧ n'.key = n.key ∧ n'.data = n.data := by
  have haddr : ∀ b, b ∈ addrs t ↔ b = x.addr ∨ b ∈ addrs u := by
    intro b
    simp only [addrs, htin, huin, List.map_append, List.map_cons, List.mem_append, List.mem_cons]
    tauto
  have hnot : x.addr ∉ addrs u := by
    have hnodup := h.nodup
    rw [addrs, htin, List.map_append, List.map_cons, List.nodup_middle, List.nodup_cons,
      ← List.map_append, ← huin] at hnodup
    exact hnodup.1
  have hdom : ∀ {root : Ptr} {m : Mem RbNode} {t : ColorTree Entry}, Rep root m t →
      ∀ b, m b = none ↔ b ∉ addrs t := by
    intro root m t h b
    refine ⟨fun hb hmem => ?_, fun hb => by_contra fun hne => hb (h.dom b hne)⟩
    obtain ⟨y, hy, rfl⟩ := List.mem_map.mp hmem
    obtain ⟨n, hn, -⟩ := h.exists_cell hy
    rw [hb] at hn
    cases hn
  refine ⟨fun b => ?_, fun b n hb hn => ?_⟩
  · rw [hdom h', hdom h, haddr]
    constructor
    · tauto
    · rintro (rfl | hb)
      · exact hnot
      · tauto
  · have hbu : b ∈ addrs u := ((haddr b).mp (h.dom b (by simp [hn]))).resolve_left hb
    obtain ⟨y, hy, rfl⟩ := List.mem_map.mp hbu
    have hyt : y ∈ t.inorder := by
      rw [huin, List.mem_append] at hy
      rw [htin, List.mem_append, List.mem_cons]
      tauto
    obtain ⟨k, hk, hkey, hdata⟩ := h.exists_cell hyt
    obtain ⟨k', hk', hkey', hdata'⟩ := h'.exists_cell hy
    obtain rfl : n = k := Option.some_inj.mp (hn.symm.trans hk)
    exact ⟨h'.inTree_iff.mpr hbu, k', hk', hkey'.trans hkey.symm, hdata'.trans hdata.symm⟩

/-- Erasing a key of the tree, if its search computes no difference that overflows. -/
lemma Valid.erasesOnly (h : Valid s.root s.mem t) (hint : ∀ x ∈ t.inorder, IsInt32 x.key)
    (hover : ComparesExactly s (.erase key)) (ha : InTree s.root s.mem a)
    (hkey : s.mem.read (some a) RbNode.key = some key) : ∃ s', ErasesOnly s key a s' := by
  have hsub := hover.isInt32_visited h.rep
  obtain ⟨x, hx, rfl, rfl⟩ := h.rep.entry_of_key ha hkey
  have hsearch := h.rbSearch_eq hx hsub
  obtain ⟨root', m', u, l, y, r, e, hv, hyx, htin, huin⟩ :=
    rbErase_present h hsub ⟨x, hx, rfl⟩ (Nat.lt_succ_self _)
  obtain rfl : x = y := by
    by_contra hne
    rw [htin, List.mem_append, List.mem_cons] at hx
    exact h.ordered.ne_of_split htin x (List.mem_append.mpr (by tauto)) hyx.symm
  have hstep : RbStep s (.erase x.key) ⟨root', m'⟩ := .of_exec _ e
  obtain ⟨hreleased, hkept⟩ := kept_of_split h.rep hv.rep htin huin
  refine ⟨⟨root', m'⟩, ⟨hkey, hsearch⟩, hstep, hreleased, fun junk => ?_, hkept, ?_⟩
  · obtain ⟨N, hN⟩ := hstep
    obtain ⟨N', hN'⟩ := hsearch
    refine ⟨max N N', fun fuel hfuel => ?_⟩
    have hcall := hN fuel (le_trans (le_max_left _ _) hfuel)
    have hfound := hN' fuel (le_trans (le_max_right _ _) hfuel)
    obtain ⟨⟨p, q⟩, haux, hp⟩ := Option.bind_eq_some_iff.mp hfound
    obtain rfl : p = some x.addr := Option.some_inj.mp hp
    obtain ⟨r', hr', hroot, -, hm⟩ := rbErase_scribbled junk haux _ hcall
    exact hr'.trans (congrArg some (Prod.ext hroot.symm hm))
  · intro k b hk hkint hret
    obtain ⟨y, hy, rfl, rfl⟩ := h.rep.rbSearch_found hkint hint hret
    obtain ⟨n, hn, hnkey, -⟩ := h.rep.exists_cell hy
    have hne : y.addr ≠ x.addr := by
      intro heq
      obtain ⟨n', hn', hnkey', -⟩ := h.rep.exists_cell hx
      rw [heq, hn', Option.some_inj] at hn
      exact hk (hnkey.symm.trans (hn ▸ hnkey'))
    obtain ⟨hin, n', hn', hkey', -⟩ := hkept y.addr n hne hn
    exact ⟨hin, (read_eq hn' _).trans (congrArg some (hkey'.trans hnkey))⟩

/-- Where the search ends above its key, it has computed no difference that overflows: from there
it would have gone to the other side. -/
lemma isInt32_of_found {p : List (Frame Entry)} {x : Entry} (hord : Ordered t)
    (hint : ∀ y ∈ t.inorder, IsInt32 y.key)
    (hend : x ∈ (descend (searchSide x.key) p t).2.inorder) :
    ∀ y ∈ visited (searchSide x.key) t, IsInt32 (y.key - x.key) := by
  have hxint := hint x (inorder_descend_subset _ p t hend)
  induction t generalizing p with
  | nil => exact fun y hy => absurd hy List.not_mem_nil
  | node d l z r ihl ihr =>
      have hzint := hint z (by simp)
      have hl : ∀ y ∈ l.inorder, IsInt32 y.key := fun y hy => hint y (by simp [hy])
      have hr : ∀ y ∈ r.inorder, IsInt32 y.key := fun y hy => hint y (by simp [hy])
      rw [Ordered, inorder_node, List.pairwise_append, List.pairwise_cons] at hord
      obtain ⟨hordl, ⟨hzr, hordr⟩, hlz⟩ := hord
      intro y hy
      cases hside : searchSide x.key z with
      | none =>
          obtain rfl : y = z := by simpa [visited, hside] using hy
          rw [key_eq_of_searchSide hxint hzint hside, sub_self]
          exact ⟨by norm_num, by norm_num⟩
      | some s =>
          rw [visited, hside] at hy
          rw [IsInt32] at hxint hzint
          cases s with
          | left =>
              rw [descend_left hside] at hend
              rcases List.mem_cons.mp hy with rfl | hy
              · have hlt := hlz x (inorder_descend_subset _ _ _ hend) y (by simp)
                rw [searchSide_eq_left, toInt32] at hside
                exact ⟨by omega, by omega⟩
              · exact ihl hordl hl hend y hy
          | right =>
              rw [descend_right hside] at hend
              rcases List.mem_cons.mp hy with rfl | hy
              · have hlt := hzr x (inorder_descend_subset _ _ _ hend)
                rw [searchSide_eq_right, toInt32] at hside
                exact ⟨by omega, by omega⟩
              · exact ihr hordr hr hend y hy

/-- Erasing a key as it should be takes a search that finds it. -/
lemma Valid.comparesExactly_of_erasesOnly (h : Valid s.root s.mem t)
    (hint : ∀ x ∈ t.inorder, IsInt32 x.key) (ha : InTree s.root s.mem a)
    (herase : ErasesOnly s key a s') : ComparesExactly s (.erase key) := by
  obtain ⟨hkey, hfound⟩ := herase.held
  obtain ⟨x, hx, rfl, rfl⟩ := h.rep.entry_of_key ha hkey
  have hret : Returns (fun fuel => rbSearch fuel x.key s.root s.mem)
      (ptr (descend (searchSide x.key) [] t).2) :=
    ⟨t.size + 1, fun fuel hfuel => by simp [rbSearch, rbSearchAuxiliary_spec h.rep hfuel rfl]⟩
  have hend : x ∈ (descend (searchSide x.key) [] t).2.inorder := by
    have hptr := hfound.unique hret
    generalize hu : (descend (searchSide x.key) [] t).2 = u at hptr
    have hsub : u.inorder ⊆ t.inorder := hu ▸ inorder_descend_subset (searchSide x.key) [] t
    cases u with
    | nil => cases hptr
    | node c l y r =>
        have hy : y ∈ t.inorder := hsub (by simp)
        have hxy : x = y :=
          List.inj_on_of_nodup_map h.rep.nodup hx hy (Option.some_inj.mp hptr)
        rw [hxy]
        simp
  have hsub := isInt32_of_found h.ordered hint hend
  refine ⟨hint x hx, fun b n hb hn => ?_⟩
  obtain ⟨y, hy, rfl⟩ := h.rep.visited_of_visits hb
  obtain ⟨n', hn', hkey', -⟩ := h.rep.exists_cell (visited_subset _ _ hy)
  rw [← Option.some_inj.mp (hn'.symm.trans hn), hkey']
  exact hsub y hy

/-- **The other nodes keep their identity.**  In a tree reached by calls none of whose comparisons
overflowed, erasing a key of the tree releases the node that held it, does not touch it again, and
keeps every other node with its address, its key and its data, linked in the tree: exactly if no
comparison of this call overflows. -/
theorem rb_erase_identity {cs : List RbCall} (h : Reaches ComparedStep .empty cs s)
    (ha : InTree s.root s.mem a) (hkey : s.mem.read (some a) RbNode.key = some key) :
    (∃ s', ErasesOnly s key a s') ↔ ComparesExactly s (.erase key) := by
  obtain ⟨t, ht, hint⟩ := valid_of_compared h
  constructor
  · rintro ⟨s', herase⟩
    exact ht.comparesExactly_of_erasesOnly hint ha herase
  · exact fun hover => ht.erasesOnly hint hover ha hkey

end Tree

/-- Four insertions, after which erasing the root, a node with two children, is as it should be. -/
theorem rb_erase_identity_four :
    ∃ s s' : RbState, Reaches ComparedStep .empty [.insert 1 10 0 rbJunk, .insert 2 20 1 rbJunk,
        .insert 3 30 2 rbJunk, .insert 4 40 3 rbJunk] s ∧ s.root = some 1
      ∧ ErasesOnly s 2 1 s' := by
  have hc : Compatible ([.insert 1 10 0 rbJunk, .insert 2 20 1 rbJunk, .insert 3 30 2 rbJunk,
      .insert 4 40 3 rbJunk] ++ [.erase 2]) := by
    simp [Compatible, RbCall.key, IsInt32]
  obtain ⟨s, h, hroot, hkey⟩ : ∃ s, Reaches RbStep .empty [.insert 1 10 0 rbJunk,
      .insert 2 20 1 rbJunk, .insert 3 30 2 rbJunk, .insert 4 40 3 rbJunk] s ∧ s.root = some 1
      ∧ s.mem.read (some 1) RbNode.key = some 2 :=
    ⟨_, .step (.step (.step (.step .start (.of_exec 4 rfl)) (.of_exec 4 rfl)) (.of_exec 4 rfl))
      (.of_exec 4 rfl), rfl, rfl⟩
  obtain ⟨t, ht⟩ := run_simulates hc.of_snoc h
  have hrun := compared_of_exact (hc.of_snoc.reaches h)
  obtain ⟨s', hs'⟩ := (rb_erase_identity hrun (.root hroot) hkey).mpr
    (ht.noOverflow hc).comparesExactly
  exact ⟨s, s', hrun, hroot, hs'⟩

/-- **A key that `rb_erase` misses**: the difference of the two keys overflows, so the search goes
away from the node of `-1`, and the call leaves the tree as it is. -/
theorem erase_misses :
    ∃ s : RbState, Reaches RbStep .empty [.insert 2147483647 1 0 rbJunk, .insert (-1) 2 1 rbJunk] s
      ∧ InTree s.root s.mem 1 ∧ s.mem.read (some 1) RbNode.key = some (-1)
      ∧ RbStep s (.erase (-1)) s ∧ ¬ ∃ s', ErasesOnly s (-1) 1 s' := by
  obtain ⟨s, hrun, hroot, hleft, hkey, herase⟩ : ∃ s : RbState,
      Reaches RbStep .empty [.insert 2147483647 1 0 rbJunk, .insert (-1) 2 1 rbJunk] s
        ∧ s.root = some 0 ∧ s.mem.read (some 0) RbNode.left = some (some 1)
        ∧ s.mem.read (some 1) RbNode.key = some (-1) ∧ RbStep s (.erase (-1)) s :=
    ⟨_, .step (.step .start (.of_exec 4 rfl)) (.of_exec 4 rfl), rfl, rfl, rfl, .of_exec 4 rfl⟩
  have hin : InTree s.root s.mem 1 := by
    obtain ⟨n, hn, hleft⟩ := Option.map_eq_some_iff.mp hleft
    exact .child .left (.root hroot) hn hleft
  refine ⟨s, hrun, hin, hkey, herase, ?_⟩
  rintro ⟨s', hs'⟩
  have hnone : s'.mem 1 = none := (hs'.released 1).mpr (Or.inl rfl)
  obtain rfl : s' = s := hs'.returns.unique herase
  obtain ⟨n, hn, -⟩ := Option.map_eq_some_iff.mp hkey
  rw [load_some, hnone] at hn
  cases hn

end Wgs
