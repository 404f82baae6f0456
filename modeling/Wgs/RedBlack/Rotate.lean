import Wgs.RedBlack.Pivot

/-!
The rotations of the red-black tree, and the edits of one cell in place.

`rbRotate_spec` is the rotation on any memory that holds the tree around it, with the four
addresses it may write; `Rep.rotate`, `Rep.rotate_opp` and `Rep.paint` are the edits on a tree
that is all of the memory, in the form the rebalance loops use them.
-/

namespace Wgs

open Foundation ColorTree

variable {m : Mem RbNode} {root : Ptr} {p : List (Frame Entry)}

/-- **A rotation**: the child `y` on the side `s.opp` of `x` takes the place of `x`, which
becomes its child on the side `s`.  Apart from the two nodes, the root of the subtree between
them and the node above are the only cells that may change. -/
theorem rbRotate_spec (root : Ptr) (s : Side) {c d : Color} {x y : Entry} {A B C : ColorTree Entry}
    (h : m.Holds (cells (plug p (branch s c x A (branch s d y B C))) none))
    (hnodup : (addrs (plug p (branch s c x A (branch s d y B C)))).Nodup) :
    ∃ m', rbRotate s (some x.addr) root m = some (if p = [] then some y.addr else root, m')
      ∧ m'.Holds (cells (plug p (branch s d y (branch s c x A B) C)) none)
      ∧ ∀ a, a ≠ x.addr → a ≠ y.addr → ptr B ≠ some a → pathPtr p ≠ some a → m' a = m a := by
  have hpivot := pivot_of_holds h hnodup fun q hq => by cases hq
  obtain ⟨m', hrun, hturned⟩ := hpivot.rotate root
  rw [cellAt_parent, if_congr abovePtr_none_eq_none_iff rfl rfl] at hrun
  refine ⟨m', hrun, hturned.holds h hnodup fun a _ => (Option.some_ne_none a).symm,
    fun a hax hay haB hap => hturned.frame a hax hay ?_ ?_⟩
  · rwa [cellAt_child]
  · rwa [cellAt_parent, abovePtr_none]

/-! ### Edits of a tree that is all of the memory -/

lemma ptr_plug_congr (hp : p ≠ []) (t u : ColorTree Entry) : ptr (plug p t) = ptr (plug p u) := by
  induction p generalizing t u with
  | nil => exact absurd rfl hp
  | cons f p ih =>
      rw [plug_cons, plug_cons]
      rcases eq_or_ne p [] with rfl | hp'
      · simp
      · exact ih hp' _ _

/-- The root of a tree is a node above any place below it. -/
lemma mem_pathAddrs_of_root {t : ColorTree Entry} {a : ℕ} (hp : p ≠ [])
    (h : ptr (plug p t) = some a) : a ∈ pathAddrs p := by
  induction p generalizing t with
  | nil => exact absurd rfl hp
  | cons f p ih =>
      rw [(perm_pathAddrs_cons f p).mem_iff]
      rw [plug_cons] at h
      rcases eq_or_ne p [] with rfl | hp'
      · obtain rfl : f.val.addr = a := by simpa using h
        simp
      · simp [ih hp' h]

lemma addrs_congr {t u : ColorTree Entry} (h : t.inorder = u.inorder) : addrs t = addrs u := by
  rw [addrs, addrs, h]

/-- An edit that keeps the in-order sequence and allocates nothing leads from a tree to a
tree. -/
lemma Rep.of_edit {t u : ColorTree Entry} {root' : Ptr} {m' : Mem RbNode} (h : Rep root m t)
    (hroot : root' = ptr u) (hin : t.inorder = u.inorder) (hu : m'.Holds (cells u none))
    (hdom : ∀ a, a ∉ addrs t → m' a = m a) : Rep root' m' u where
  root_eq := hroot
  holds := hu
  nodup := addrs_congr hin ▸ h.nodup
  dom a ha := by
    by_contra hmem
    rw [← addrs_congr hin] at hmem
    rw [hdom a hmem] at ha
    exact hmem (h.dom a ha)

lemma Rep.mem_addrs_place {t : ColorTree Entry} {a : ℕ} (ha : a ∉ addrs (plug p t)) :
    a ∉ pathAddrs p ∧ a ∉ addrs t := by
  rw [(perm_addrs_plug p t).mem_iff, List.mem_append, not_or] at ha
  exact ha

/-- A rotation of the source rotates the tree in memory. -/
theorem Rep.rotate {s : Side} {c d : Color} {x y : Entry} {A B C : ColorTree Entry}
    (h : Rep root m (plug p (branch s c x A (branch s d y B C)))) :
    ∃ root' m', rbRotate s (some x.addr) root m = some (root', m')
      ∧ Rep root' m' (plug p (branch s d y (branch s c x A B) C)) := by
  obtain ⟨m', he, hm', hframe⟩ := rbRotate_spec root s h.holds h.nodup
  refine ⟨_, m', he, h.of_edit ?_ (inorder_plug_congr p (inorder_rotate s c c d d x y A B C)) hm'
    fun a ha => ?_⟩
  · split
    · next hp => simp [hp]
    · next hp => rw [h.root_eq]; exact ptr_plug_congr hp _ _
  · obtain ⟨hap, hat⟩ := Rep.mem_addrs_place ha
    simp only [(perm_addrs_branch _ _ _ _ _).mem_iff, List.mem_cons, List.mem_append, not_or]
      at hat
    exact hframe a hat.1 hat.2.2.1 (ptr_ne hat.2.2.2.1) (pathPtr_ne hap)

/-- The rotation the other way, of a node whose child on the side `s` moves up. -/
theorem Rep.rotate_opp {s : Side} {c d : Color} {x y : Entry} {A B C : ColorTree Entry}
    (h : Rep root m (plug p (branch s c x (branch s d y A B) C))) :
    ∃ root' m', rbRotate s.opp (some x.addr) root m = some (root', m')
      ∧ Rep root' m' (plug p (branch s d y A (branch s c x B C))) := by
  rw [← branch_opp, ← branch_opp s d] at h
  obtain ⟨root', m', he, h'⟩ := h.rotate
  rw [branch_opp, branch_opp] at h'
  exact ⟨root', m', he, h'⟩

/-- Assigning a colour to the root of a subtree paints it. -/
theorem Rep.paint {t : ColorTree Entry} (h : Rep root m (plug p t)) (ht : t ≠ .nil) (c : Color) :
    ∃ m', m.modify (ptr t) (RbNode.setColor c) = some m' ∧ Rep root m' (plug p (t.paint c)) := by
  cases t with
  | nil => exact absurd rfl ht
  | node c₀ l x r =>
      rw [← branch_left] at h
      have hnodup := nodup_plug.mp h.nodup
      simp only [List.nodup_append', nodup_branch, List.nodup_cons, List.mem_append, not_or]
        at hnodup
      have hxp : x.addr ∉ pathAddrs p := fun hmem =>
        hnodup.2.2 hmem ((perm_addrs_branch _ _ _ _ _).mem_iff.mpr (by simp))
      obtain ⟨hP, hT⟩ := holds_plug.mp h.holds
      obtain ⟨hx, hl, hr⟩ := holds_branch.mp hT
      obtain ⟨m', he, hx', hframe⟩ := Mem.modify_spec hx (RbNode.setColor c)
      refine ⟨m', he, h.of_edit ?_ (inorder_plug_congr p (by simp)) ?_ fun a ha => ?_⟩
      · rw [h.root_eq]
        rcases eq_or_ne p [] with rfl | hp
        · simp
        · exact ptr_plug_congr hp _ _
      · rw [paint_node, ← branch_left, holds_plug, holds_branch, ptr_branch]
        rw [cellAt_setColor] at hx'
        rw [ptr_branch] at hP
        refine ⟨?_, hx', ?_, ?_⟩
        · exact holds_pathCells_of_agree hP fun a ha => hframe a (by rintro rfl; exact hxp ha)
        · exact holds_cells_of_agree hl fun a ha =>
            hframe a (by rintro rfl; exact hnodup.2.1.1.1 ha)
        · exact holds_cells_of_agree hr fun a ha =>
            hframe a (by rintro rfl; exact hnodup.2.1.1.2 ha)
      · refine hframe a ?_
        rintro rfl
        exact (Rep.mem_addrs_place ha).2 ((perm_addrs_branch _ _ _ _ _).mem_iff.mpr (by simp))

/-! ### What the tests of the source read -/

/-- The subtree on the side `s` as a place. -/
lemma plug_near (p : List (Frame Entry)) (s : Side) (c : Color) (x : Entry)
    (a b : ColorTree Entry) : plug (⟨s, c, x, b⟩ :: p) a = plug p (branch s c x a b) := rfl

/-- The subtree on the other side as a place. -/
lemma plug_far (p : List (Frame Entry)) (s : Side) (c : Color) (x : Entry)
    (a b : ColorTree Entry) : plug (⟨s.opp, c, x, a⟩ :: p) b = plug p (branch s c x a b) := by
  rw [plug_cons, branch_opp]

/-- A tree seen from the subtree on the side `s` of one of its nodes. -/
lemma Rep.near {s : Side} {c : Color} {x : Entry} {a b : ColorTree Entry}
    (h : Rep root m (plug p (branch s c x a b))) : Rep root m (plug (⟨s, c, x, b⟩ :: p) a) := h

/-- A tree seen from the other subtree of one of its nodes. -/
lemma Rep.far {s : Side} {c : Color} {x : Entry} {a b : ColorTree Entry}
    (h : Rep root m (plug p (branch s c x a b))) :
    Rep root m (plug (⟨s.opp, c, x, a⟩ :: p) b) := by
  rw [plug_far]
  exact h

/-- The test `!p || p->color == BLACK` reads the colour of a subtree. -/
lemma Rep.blackOrNull {t : ColorTree Entry} (h : Rep root m (plug p t)) :
    blackOrNull (ptr t) m = some (decide (t.rootColor = .black)) := by
  cases t with
  | nil => rfl
  | node c l x r =>
      rw [← branch_left] at h
      rw [ptr_node, Wgs.blackOrNull, Mem.read_eq h.cell]
      rfl

/-- A subtree that is not empty and its sibling have different roots. -/
lemma Rep.sibling_ne {s : Side} {c : Color} {x : Entry} {a b : ColorTree Entry}
    (h : Rep root m (plug p (branch s c x a b))) (hne : a ≠ .nil ∨ b ≠ .nil) : ptr b ≠ ptr a := by
  have hnodup := nodup_plug.mp h.nodup
  simp only [List.nodup_append', nodup_branch, List.nodup_cons] at hnodup
  have hdisj := hnodup.2.1.2.2.2
  intro heq
  cases b with
  | nil => exact hne.elim (fun ha => ha (ptr_eq_none.mp heq.symm)) (fun hb => hb rfl)
  | node d l y r => exact hdisj (mem_addrs_of_ptr heq.symm) (mem_addrs_of_ptr (ptr_node d l r y))

/-- Testing the left child tells the side a subtree is on. -/
lemma ite_left_eq {β : Type*} (f : Side → β) (s : Side) (c : Color) (x : Entry) (par : Ptr)
    {a b : Ptr} (hne : b ≠ a) :
    (if (cellAt s c x a b par).left = a then f .left else f .right) = f s := by
  cases s <;> simp [cellAt, hne]

end Wgs
