import Wgs.RedBlack.Rotate

/-!
The two rotations undo each other.

The nodes that a rotation has turned are the pivot of a rotation the other way, and that one leaves
the memory as it was (`Pivot.back`).  `WellLinked` is a tree in some part of a memory, which may
hang below a node of the rest, as the subtrees of a tree do (`WellLinked.subtree`);
`rotate_and_back` is about any node of such a tree.
-/

namespace Wgs

open Foundation ColorTree

/-! ### Back again -/

namespace RbNode

/-- What a node holds apart from its links. -/
def payload (n : RbNode) : ℤ × ℤ × Color := (n.key, n.data, n.color)

variable (s : Side) (n : RbNode) (p : Ptr)

@[simp] lemma payload_setChild : (n.setChild s p).payload = n.payload := by cases s <;> rfl

@[simp] lemma payload_setParent : (n.setParent p).payload = n.payload := rfl

end RbNode

section Pivot

variable {s : Side} {m m' m'' : Mem RbNode} {a b : ℕ} {n k : RbNode} {root : Ptr}

/-- The nodes that a rotation has turned are those of a rotation the other way. -/
lemma Pivot.turned (h : Pivot s m a b n k) (ht : Turned s m m' a b n k) :
    Pivot s.opp m' b a ((k.setChild s (some a)).setParent n.parent)
      ((n.setChild s.opp (k.child s)).setParent (some b)) where
  node := ht.up
  up := ht.node
  child := by simp
  up_parent := rfl
  ne := h.ne.symm
  inner := fun e he => by
    rw [RbNode.child_setParent, RbNode.child_setChild] at he
    obtain ⟨hea, heb, i, hi, -⟩ := h.inner e he
    exact ⟨heb, hea, _, ht.inner e i he hi, rfl⟩
  above := fun q hq => by
    rw [RbNode.parent_setParent] at hq
    obtain ⟨hqa, hqb, hqi, side, o, ho, hside, hother, hother'⟩ := h.above q hq
    refine ⟨hqb, hqa, ?_, side, _, ht.above q side o hq ho hside hother, ?_, ?_, ?_⟩
    · rwa [RbNode.child_setParent, RbNode.child_setChild]
    · rw [RbNode.child_setChild]
    · rwa [RbNode.child_opp_setChild]
    · rwa [RbNode.child_opp_setChild]

/-- **Turned back**, the memory is as it was. -/
lemma Pivot.eq_of_turned (h : Pivot s m a b n k) (ht : Turned s m m' a b n k)
    (ht' : Turned s.opp m' m'' b a ((k.setChild s (some a)).setParent n.parent)
      ((n.setChild s.opp (k.child s)).setParent (some b))) : m'' = m := by
  have hinner : ((n.setChild s.opp (k.child s)).setParent (some b)).child s.opp = k.child s := by
    rw [RbNode.child_setParent, RbNode.child_setChild]
  funext e
  by_cases hea : e = a
  · rw [hea, ht'.up, h.node, RbNode.parent_setParent, RbNode.setChild_setParent,
      RbNode.setChild_setChild, RbNode.setChild_eq_self h.child, RbNode.setParent_setParent,
      RbNode.setParent_eq_self rfl]
  by_cases heb : e = b
  · rw [heb, ht'.node, h.up, hinner, Side.opp_opp, RbNode.setChild_setParent,
      RbNode.setChild_setChild, RbNode.setChild_eq_self rfl, RbNode.setParent_setParent,
      RbNode.setParent_eq_self h.up_parent]
  by_cases hei : k.child s = some e
  · obtain ⟨-, -, i, hi, hparent⟩ := h.inner e hei
    rw [ht'.inner e _ (hinner.trans hei) (ht.inner e i hei hi), hi, RbNode.setParent_setParent,
      RbNode.setParent_eq_self hparent]
  by_cases heq : n.parent = some e
  · obtain ⟨-, -, -, side, o, ho, hside, hother, hother'⟩ := h.above e heq
    have ho' := ht.above e side o heq ho hside hother
    rw [ht'.above e side _ heq ho' (RbNode.child_setChild _ _ _)
        (by rwa [RbNode.child_opp_setChild]), ho, RbNode.setChild_setChild,
      RbNode.setChild_eq_self hside]
  · rw [ht'.frame e heb hea (by rwa [hinner]) heq, ht.frame e hea heb hei heq]

/-- **Back again**: the rotation the other way, of the node that has moved up, undoes the
rotation. -/
lemma Pivot.back (h : Pivot s m a b n k) (ht : Turned s m m' a b n k)
    (hroot : n.parent = none → root = some a) :
    rbRotate s.opp (some b) (if n.parent = none then some b else root) m' = some (root, m) := by
  obtain ⟨m'', hback, ht'⟩ := (h.turned ht).rotate (if n.parent = none then some b else root)
  rw [hback, h.eq_of_turned ht ht', RbNode.parent_setParent]
  split_ifs with hnone
  · rw [hroot hnone]
  · rfl

/-- No key, no data and no colour changes. -/
lemma Pivot.payload_eq (h : Pivot s m a b n k) (ht : Turned s m m' a b n k) (e : ℕ) :
    (m' e).map RbNode.payload = (m e).map RbNode.payload := by
  by_cases hea : e = a
  · rw [hea, ht.node, h.node, Option.map_some, Option.map_some, RbNode.payload_setParent,
      RbNode.payload_setChild]
  by_cases heb : e = b
  · rw [heb, ht.up, h.up, Option.map_some, Option.map_some, RbNode.payload_setParent,
      RbNode.payload_setChild]
  by_cases hei : k.child s = some e
  · obtain ⟨-, -, i, hi, -⟩ := h.inner e hei
    rw [ht.inner e i hei hi, hi, Option.map_some, Option.map_some, RbNode.payload_setParent]
  by_cases heq : n.parent = some e
  · obtain ⟨-, -, -, side, o, ho, hside, hother, -⟩ := h.above e heq
    rw [ht.above e side o heq ho hside hother, ho, Option.map_some, Option.map_some,
      RbNode.payload_setChild]
  · rw [ht.frame e hea heb hei heq]

end Pivot

/-! ### Well-linked trees -/

/-- A tree in some part of a memory: linked in both directions, at distinct addresses, and with
nothing above it or with one link to it, to its root, from a node of the rest; `root` is then no
node of it. -/
structure WellLinked (root : Ptr) (m : Mem RbNode) (t : ColorTree Entry) (par : Ptr) : Prop where
  holds : m.Holds (cells t par)
  nodup : (addrs t).Nodup
  root_eq : par = none → root = ptr t
  above : ∀ q, par = some q → LinkedFrom m t q ∧ ∀ a ∈ addrs t, root ≠ some a

section WellLinked

variable {s : Side} {m m' : Mem RbNode} {root par : Ptr} {p : List (Frame Entry)} {c d : Color}
  {x y : Entry} {A B C t : ColorTree Entry} {a b : ℕ} {n : RbNode}

lemma WellLinked.par_ne (h : WellLinked root m t par) (ha : a ∈ addrs t) : par ≠ some a :=
  fun heq => (h.above a heq).1.1 ha

/-- The root of the whole tree, if it is in the tree. -/
lemma WellLinked.eq_ptr_of_root (h : WellLinked root m t par) (ha : a ∈ addrs t)
    (hroot : root = some a) : par = none ∧ ptr t = some a := by
  cases par with
  | none => exact ⟨rfl, (h.root_eq rfl).symm.trans hroot⟩
  | some q => exact absurd hroot ((h.above q rfl).2 a ha)

/-- A tree that is all of the memory is well-linked, below nothing. -/
lemma Rep.wellLinked (h : Rep root m t) : WellLinked root m t none :=
  ⟨h.holds, h.nodup, fun _ => h.root_eq, fun q hq => by cases hq⟩

/-- The subtrees of a well-linked tree are well-linked, each below the node above it. -/
lemma WellLinked.subtree (h : WellLinked root m (plug p t) par) :
    WellLinked root m t (abovePtr par p) := by
  cases p with
  | nil => exact h
  | cons f p =>
      obtain ⟨hP, hT⟩ := holds_plug_below.mp h.holds
      obtain ⟨hf, -, -⟩ := holds_aroundCells_cons.mp hP
      have hnodup := nodup_plug.mp h.nodup
      rw [List.nodup_append'] at hnodup
      obtain ⟨-, hn, hdisjoint⟩ := hnodup
      have haround (a : ℕ) (ha : a ∈ addrs t) : a ∉ pathAddrs (f :: p) :=
        fun hmem => hdisjoint hmem ha
      refine ⟨hT, hn, fun hnone => absurd hnone (Option.some_ne_none _), fun q hq => ?_⟩
      obtain rfl : f.val.addr = q := Option.some_inj.mp hq
      refine ⟨⟨fun hmem => ?_, f.side, _, hf, cellAt_child _ _ _ _ _ _, fun a ha => ?_⟩,
        fun a ha hroot => ?_⟩
      · exact haround _ hmem ((perm_pathAddrs_cons f p).mem_iff.mpr List.mem_cons_self)
      · rw [cellAt_child_opp]
        refine ptr_ne fun hmem => haround a ha ?_
        rw [(perm_pathAddrs_cons f p).mem_iff, List.mem_cons, List.mem_append]
        exact Or.inr (Or.inl hmem)
      · have hin : a ∈ addrs (plug (f :: p) t) :=
          (perm_addrs_plug _ _).mem_iff.mpr (List.mem_append_right _ ha)
        obtain ⟨-, hptr⟩ := h.eq_ptr_of_root hin hroot
        exact haround a ha (mem_pathAddrs_of_root (List.cons_ne_nil f p) hptr)

/-- Nothing is above the node that is rotated exactly when it is the root of the whole tree. -/
lemma WellLinked.abovePtr_eq_none_iff
    (h : WellLinked root m (plug p (branch s c x A (branch s d y B C))) par) :
    abovePtr par p = none ↔ root = some x.addr := by
  have hmem : x.addr ∈ addrs (plug p (branch s c x A (branch s d y B C))) := by
    rw [(perm_addrs_plug p _).mem_iff, List.mem_append, mem_addrs_rotated]
    exact Or.inr (Or.inl rfl)
  constructor
  · intro hnone
    cases p with
    | nil => rw [h.root_eq hnone, plug_nil, ptr_branch]
    | cons f p => cases hnone
  · intro hroot
    obtain ⟨hpar, hptr⟩ := h.eq_ptr_of_root hmem hroot
    cases p with
    | nil => exact hpar
    | cons f p =>
        exact absurd (mem_pathAddrs_of_root (List.cons_ne_nil f p) hptr)
          (apart_of_nodup h.nodup).node.1

/-- The child of a node is not the root of the whole tree. -/
lemma WellLinked.root_ne (h : WellLinked root m (plug p (branch s c x A (branch s d y B C))) par) :
    root ≠ some y.addr := by
  have hapart := apart_of_nodup h.nodup
  have hmem : y.addr ∈ addrs (plug p (branch s c x A (branch s d y B C))) := by
    rw [(perm_addrs_plug p _).mem_iff, List.mem_append, mem_addrs_rotated]
    exact Or.inr (Or.inr (Or.inl rfl))
  intro hroot
  obtain ⟨-, hptr⟩ := h.eq_ptr_of_root hmem hroot
  cases p with
  | nil =>
      rw [plug_nil, ptr_branch, Option.some_inj] at hptr
      exact hapart.ne hptr
  | cons f p => exact hapart.up.1 (mem_pathAddrs_of_root (List.cons_ne_nil f p) hptr)

/-- The nodes of a rotation, in a well-linked tree. -/
lemma WellLinked.pivot (h : WellLinked root m (plug p (branch s c x A (branch s d y B C))) par) :
    Pivot s m x.addr y.addr (cellAt s c x (ptr A) (some y.addr) (abovePtr par p))
      (cellAt s d y (ptr B) (ptr C) (some x.addr)) :=
  pivot_of_holds h.holds h.nodup fun q hq => (h.above q hq).1

/-- The link from outside leads to the root of the rotated tree. -/
lemma LinkedFrom.turned {q : ℕ}
    (h : LinkedFrom m (plug p (branch s c x A (branch s d y B C))) q)
    (ht : Turned s m m' x.addr y.addr (cellAt s c x (ptr A) (some y.addr) (abovePtr (some q) p))
      (cellAt s d y (ptr B) (ptr C) (some x.addr))) :
    LinkedFrom m' (plug p (branch s d y (branch s c x A B) C)) q := by
  obtain ⟨hqt, side, o, ho, hside, hother⟩ := h
  rw [LinkedFrom, ← addrs_congr (inorder_plug_congr p (inorder_rotate s c c d d x y A B C))]
  refine ⟨hqt, side, ?_⟩
  cases p with
  | nil =>
      rw [plug_nil, ptr_branch] at hside
      have hother' := hother x.addr (mem_addrs_rotated.mpr (Or.inl rfl))
      refine ⟨_, ht.above q side o (cellAt_parent _ _ _ _ _ _) ho hside hother', ?_, ?_⟩
      · rw [RbNode.child_setChild, plug_nil, ptr_branch]
      · rwa [RbNode.child_opp_setChild]
  | cons f p =>
      rw [(perm_addrs_plug _ _).mem_iff, List.mem_append, mem_addrs_rotated] at hqt
      simp only [not_or] at hqt
      obtain ⟨hqp, hqx, hqy, -, hqB, -⟩ := hqt
      refine ⟨o, ?_, ?_, hother⟩
      · rw [ht.frame q hqx hqy (by rw [cellAt_child]; exact ptr_ne hqB)
          (by rw [cellAt_parent]; exact pathPtr_ne hqp), ho]
      · exact hside.trans (ptr_plug_congr (List.cons_ne_nil f p) _ _)

/-- **A rotation leaves a well-linked tree.** -/
lemma WellLinked.turned (h : WellLinked root m (plug p (branch s c x A (branch s d y B C))) par)
    (ht : Turned s m m' x.addr y.addr (cellAt s c x (ptr A) (some y.addr) (abovePtr par p))
      (cellAt s d y (ptr B) (ptr C) (some x.addr))) :
    WellLinked (if abovePtr par p = none then some y.addr else root) m'
      (plug p (branch s d y (branch s c x A B) C)) par := by
  have hin := inorder_plug_congr p (inorder_rotate s c c d d x y A B C)
  have haddrs := addrs_congr hin
  refine ⟨ht.holds h.holds h.nodup fun a ha => h.par_ne ha, haddrs ▸ h.nodup, fun hpar => ?_,
    fun q hq => ?_⟩
  · subst hpar
    cases p with
    | nil => rw [abovePtr, if_pos rfl, plug_nil, ptr_branch]
    | cons f p =>
        rw [abovePtr, if_neg (Option.some_ne_none _), h.root_eq rfl]
        exact ptr_plug_congr (List.cons_ne_nil f p) _ _
  · subst hq
    obtain ⟨hlink, hroot⟩ := h.above q rfl
    have habove : abovePtr (some q) p ≠ none := by
      cases p <;> exact Option.some_ne_none _
    rw [if_neg habove, ← haddrs]
    exact ⟨hlink.turned ht, hroot⟩

/-- A node of a well-linked tree and its child on the side `s.opp`, seen in the tree. -/
lemma WellLinked.place (h : WellLinked root m t par) (ha : a ∈ addrs t) (hn : m a = some n)
    (hb : n.child s.opp = some b) : ∃ p c d x y A B C,
      t = plug p (branch s c x A (branch s d y B C)) ∧ x.addr = a ∧ y.addr = b := by
  obtain ⟨x, hx, rfl⟩ := List.mem_map.mp ha
  obtain ⟨p, c, A, u, rfl⟩ := exists_place s hx
  have hcell := (holds_branch.mp (holds_plug_below.mp h.holds).2).1
  rw [hn, Option.some_inj] at hcell
  rw [hcell, cellAt_child_opp] at hb
  have hne : u ≠ .nil := by
    rintro rfl
    cases hb
  obtain ⟨d, y, B, C, rfl⟩ := eq_branch_of_ne_nil s hne
  rw [ptr_branch, Option.some_inj] at hb
  exact ⟨p, c, d, x, y, A, B, C, rfl, rfl, hb⟩

/-- **A rotation, and the one back.** A node that has a child on the side `s.opp`, for
`rbRotateLeft` a right one, moves down below it.  The tree stays well-linked and keeps its in-order
sequence; no key, no data and no colour changes, and no link of any other node than these two, the
child between them and the node above.  The child becomes the root exactly when the node was, and
the rotation of the child the other way restores the memory and the root. -/
theorem rotate_and_back (s : Side) (h : WellLinked root m t par) (ha : a ∈ addrs t)
    (hn : m a = some n) (hb : n.child s.opp = some b) :
    ∃ k root' m' t', m b = some k ∧ rbRotate s (some a) root m = some (root', m')
      ∧ WellLinked root' m' t' par ∧ t'.inorder = t.inorder
      ∧ (∀ e, (m' e).map RbNode.payload = (m e).map RbNode.payload)
      ∧ (∀ e, e ≠ a → e ≠ b → k.child s ≠ some e → n.parent ≠ some e → m' e = m e)
      ∧ root' = (if root = some a then some b else root) ∧ (root' = some b ↔ root = some a)
      ∧ rbRotate s.opp (some b) root' m' = some (root, m) := by
  obtain ⟨p, c, d, x, y, A, B, C, rfl, rfl, rfl⟩ := h.place ha hn hb
  have hpivot := h.pivot
  have hroot := h.abovePtr_eq_none_iff
  obtain rfl := Option.some_inj.mp (hn.symm.trans hpivot.node)
  obtain ⟨m', hrun, hturned⟩ := hpivot.rotate root
  rw [cellAt_parent] at hrun
  have hback := hpivot.back hturned fun hnone =>
    hroot.mp (hnone ▸ (cellAt_parent _ _ _ _ _ _).symm)
  rw [cellAt_parent] at hback
  refine ⟨_, _, m', _, hpivot.up, hrun, h.turned hturned,
    (inorder_plug_congr p (inorder_rotate s c c d d x y A B C)).symm, hpivot.payload_eq hturned,
    hturned.frame, ?_, ?_, hback⟩
  · rw [if_congr hroot rfl rfl]
  · rw [if_congr hroot rfl rfl]
    by_cases heq : root = some x.addr
    · simp [heq]
    · rw [if_neg heq]
      exact iff_of_false h.root_ne heq

end WellLinked

/-- Two nodes, the second one the right child of the first one. -/
def twoNodes : ColorTree Entry := .node .black .nil ⟨1, 10, 100⟩ (.node .red .nil ⟨2, 20, 200⟩ .nil)

/-- The two nodes as the left subtree of a third one. -/
def threeNodes : Mem RbNode :=
  Mem.ofCells ((0, ⟨some 1, none, none, 30, 300, .black⟩) :: cells twoNodes (some 0))

lemma wellLinked_twoNodes : WellLinked (some 0) threeNodes twoNodes (some 0) where
  holds := (Mem.holds_cons.mp (Mem.holds_ofCells (by decide))).2
  nodup := by decide
  root_eq := fun hpar => by cases hpar
  above := fun q hq => by
    obtain rfl := Option.some_inj.mp hq
    exact ⟨⟨by decide, .left, _, rfl, rfl, by decide⟩, by decide⟩

/-- Two nodes below a third one are rotated to the left and back. -/
theorem rotate_and_back_twoNodes :
    ∃ m', rbRotateLeft (some 1) (some 0) threeNodes = some (some 0, m')
      ∧ rbRotateRight (some 2) (some 0) m' = some (some 0, threeNodes) := by
  obtain ⟨k, root', m', t', -, hrun, -, -, -, -, hroot, -, hback⟩ :=
    rotate_and_back .left wellLinked_twoNodes (a := 1) (b := 2) (by decide) rfl rfl
  rw [if_neg (by decide)] at hroot
  subst hroot
  exact ⟨m', hrun, hback⟩

end Wgs
