import Wgs.RedBlack.Shape

/-!
The nodes of a rotation.

A rotation is an edit of four nodes: the one that moves down, its child that moves up, the root of
the subtree between them, and the node above.  `Pivot` says how these are linked in a memory of any
shape, `Turned` what the rotation leaves there and that it leaves the rest alone (`Pivot.rotate`).

In a tree, which may hang below a node outside of it, these are the nodes about any place with a
child on the one side (`pivot_of_holds`), and turned they make the rotated tree (`Turned.holds`).
-/

namespace Wgs

open Foundation ColorTree

/-! ### Links -/

namespace RbNode

variable (s : Side) (n : RbNode) (p q : Ptr)

@[simp] lemma child_setChild : (n.setChild s p).child s = p := by cases s <;> rfl

@[simp] lemma child_opp_setChild : (n.setChild s p).child s.opp = n.child s.opp := by
  cases s <;> rfl

@[simp] lemma child_setChild_opp : (n.setChild s.opp p).child s = n.child s := by cases s <;> rfl

@[simp] lemma child_setParent : (n.setParent p).child s = n.child s := by cases s <;> rfl

@[simp] lemma parent_setChild : (n.setChild s p).parent = n.parent := by cases s <;> rfl

@[simp] lemma parent_setParent : (n.setParent p).parent = p := rfl

@[simp] lemma setParent_setParent : (n.setParent p).setParent q = n.setParent q := rfl

@[simp] lemma setChild_setChild : (n.setChild s p).setChild s q = n.setChild s q := by
  cases s <;> rfl

lemma setChild_setParent : (n.setParent p).setChild s q = (n.setChild s q).setParent p := by
  cases s <;> rfl

variable {s n p}

lemma setChild_eq_self (h : n.child s = p) : n.setChild s p = n := by
  subst h
  cases s <;> rfl

lemma setParent_eq_self (h : n.parent = p) : n.setParent p = n := by
  subst h
  rfl

end RbNode

/-! ### The nodes of a rotation -/

/-- The nodes of a rotation: `b` is the child of `a` on the side `s.opp`, and they are linked in
both directions to each other, to the root of the subtree between them and to the node above. -/
structure Pivot (s : Side) (m : Mem RbNode) (a b : ℕ) (n k : RbNode) : Prop where
  node : m a = some n
  up : m b = some k
  child : n.child s.opp = some b
  up_parent : k.parent = some a
  ne : a ≠ b
  inner : ∀ e, k.child s = some e → e ≠ a ∧ e ≠ b ∧ ∃ i, m e = some i ∧ i.parent = some b
  above : ∀ q, n.parent = some q → q ≠ a ∧ q ≠ b ∧ k.child s ≠ some q
    ∧ ∃ side o, m q = some o ∧ o.child side = some a ∧ o.child side.opp ≠ some a
      ∧ o.child side.opp ≠ some b

/-- What a rotation makes of them, and of everything else. -/
structure Turned (s : Side) (m m' : Mem RbNode) (a b : ℕ) (n k : RbNode) : Prop where
  node : m' a = some ((n.setChild s.opp (k.child s)).setParent (some b))
  up : m' b = some ((k.setChild s (some a)).setParent n.parent)
  inner : ∀ e i, k.child s = some e → m e = some i → m' e = some (i.setParent (some a))
  above : ∀ q side o, n.parent = some q → m q = some o → o.child side = some a →
    o.child side.opp ≠ some a → m' q = some (o.setChild side (some b))
  frame : ∀ e, e ≠ a → e ≠ b → k.child s ≠ some e → n.parent ≠ some e → m' e = m e

section Pivot

variable {s : Side} {m m' m'' : Mem RbNode} {a b : ℕ} {n k : RbNode} {root : Ptr}

/-- A parent pointer that is set, if there is a node for it. -/
lemma reparent_cell {p : Ptr} (par : Ptr) (h : ∀ e, p = some e → m e ≠ none) :
    ∃ m', reparent p par m = some m'
      ∧ (∀ e i, p = some e → m e = some i → m' e = some (i.setParent par))
      ∧ ∀ e, p ≠ some e → m' e = m e := by
  cases p with
  | none =>
      refine ⟨m, by rw [reparent, if_pos rfl], fun e i he => ?_, fun _ _ => rfl⟩
      cases he
  | some e =>
      obtain ⟨i, hi⟩ := Option.ne_none_iff_exists'.mp (h e rfl)
      obtain ⟨m', hm', hset, hframe⟩ := Mem.modify_spec hi (RbNode.setParent par)
      refine ⟨m', by rw [reparent, if_neg (Option.some_ne_none e), hm'], fun e' i' he' hi' => ?_,
        fun e' he' => hframe e' fun heq => he' (congrArg some heq.symm)⟩
      obtain rfl := Option.some_inj.mp he'
      rw [hi, Option.some_inj] at hi'
      rw [hset, hi']

/-- The link above is redirected, if there is a node for it. -/
lemma relink_cell (test : Side) {p : Ptr} (new root : Ptr)
    (h : ∀ q, p = some q →
      ∃ side o, m q = some o ∧ o.child side = some a ∧ o.child side.opp ≠ some a) :
    ∃ m', relink test p (some a) new root m = some (if p = none then new else root, m')
      ∧ (∀ q side o, p = some q → m q = some o → o.child side = some a →
        o.child side.opp ≠ some a → m' q = some (o.setChild side new))
      ∧ ∀ q, p ≠ some q → m' q = m q := by
  cases p with
  | none =>
      refine ⟨m, by rw [relink, if_pos rfl, if_pos rfl], fun q side o hq => ?_, fun _ _ => rfl⟩
      cases hq
  | some q =>
      obtain ⟨side, o, ho, hside, hother⟩ := h q rfl
      obtain ⟨m', hm', hset, hframe⟩ := Mem.modify_spec ho (RbNode.setChild side new)
      refine ⟨m', ?_, fun q' side' o' hq' ho' hside' hother' => ?_,
        fun q' hq' => hframe q' fun heq => hq' (congrArg some heq.symm)⟩
      · rw [relink, if_neg (Option.some_ne_none q), if_neg (Option.some_ne_none q),
          Mem.read_eq ho, Option.bind_eq_bind, Option.bind_some]
        rcases eq_or_ne test side with rfl | hne
        · rw [if_pos hside, hm']
          rfl
        · obtain rfl : test = side.opp := Side.eq_opp_of_ne hne
          rw [if_neg hother, Side.opp_opp, hm']
          rfl
      · obtain rfl := Option.some_inj.mp hq'
        rw [ho, Option.some_inj] at ho'
        subst ho'
        -- the link to `a` is on one side only
        obtain rfl : side' = side := by
          by_contra hne
          rw [Side.eq_opp_of_ne hne] at hside'
          exact hother hside'
        exact hset

/-- **The rotation** turns the nodes. -/
lemma Pivot.rotate (h : Pivot s m a b n k) (root : Ptr) :
    ∃ m', rbRotate s (some a) root m = some (if n.parent = none then some b else root, m')
      ∧ Turned s m m' a b n k := by
  have hinner_a : k.child s ≠ some a := fun heq => (h.inner a heq).1 rfl
  have hinner_b : k.child s ≠ some b := fun heq => (h.inner b heq).2.1 rfl
  have habove_a : n.parent ≠ some a := fun heq => (h.above a heq).1 rfl
  have habove_b : n.parent ≠ some b := fun heq => (h.above b heq).2.1 rfl
  -- `node->right = right->left`, and the parent pointer of the node so moved
  obtain ⟨m₁, e₁, ha₁, f₁⟩ := Mem.modify_spec h.node (RbNode.setChild s.opp (k.child s))
  obtain ⟨m₂, e₂, hi₂, f₂⟩ := reparent_cell (m := m₁) (p := k.child s) (some a) fun e he => by
    obtain ⟨hea, -, i, hi, -⟩ := h.inner e he
    rw [f₁ e hea, hi]
    exact Option.some_ne_none i
  have ha₂ := (f₂ a hinner_a).trans ha₁
  have hb₂ := ((f₂ b hinner_b).trans (f₁ b h.ne.symm)).trans h.up
  -- `right->left = node`, `right->parent = node->parent`
  obtain ⟨m₃, e₃, hb₃, f₃⟩ := Mem.modify_spec hb₂ (RbNode.setChild s (some a))
  have ha₃ := (f₃ a h.ne).trans ha₂
  obtain ⟨m₄, e₄, hb₄, f₄⟩ := Mem.modify_spec hb₃ (RbNode.setParent n.parent)
  have ha₄ := (f₄ a h.ne).trans ha₃
  have hframe₄ : ∀ e, e ≠ a → e ≠ b → k.child s ≠ some e → m₄ e = m e := fun e hea heb hei => by
    rw [f₄ e heb, f₃ e heb, f₂ e hei, f₁ e hea]
  -- the link above, then `node->parent = right`
  obtain ⟨m₅, e₅, hq₅, f₅⟩ := relink_cell (m := m₄) (a := a) (p := n.parent) .right
    (some b) root fun q hq => by
      obtain ⟨hqa, hqb, hqi, side, o, ho, hside, hother, -⟩ := h.above q hq
      exact ⟨side, o, (hframe₄ q hqa hqb hqi).trans ho, hside, hother⟩
  have ha₅ := (f₅ a habove_a).trans ha₄
  have hb₅ := (f₅ b habove_b).trans hb₄
  obtain ⟨m₆, e₆, ha₆, f₆⟩ := Mem.modify_spec ha₅ (RbNode.setParent (some b))
  refine ⟨m₆, ?_, ha₆, (f₆ b h.ne.symm).trans hb₅, fun e i he hi => ?_,
    fun q side o hq ho hside hother => ?_, fun e hea heb hei heq => ?_⟩
  · simp only [rbRotate, Mem.read_eq h.node, h.child, Mem.read_eq h.up, Option.bind_eq_bind,
      Option.bind_some, e₁, e₂, e₃, Mem.read_eq ha₃, RbNode.parent_setChild, e₄, e₅, e₆,
      Option.pure_def]
  · obtain ⟨hea, heb, -⟩ := h.inner e he
    have heq : n.parent ≠ some e := fun heq => (h.above e heq).2.2.1 he
    rw [f₆ e hea, f₅ e heq, f₄ e heb, f₃ e heb]
    exact hi₂ e i he ((f₁ e hea).trans hi)
  · obtain ⟨hqa, hqb, hqi, -⟩ := h.above q hq
    rw [f₆ q hqa]
    exact hq₅ q side o hq ((hframe₄ q hqa hqb hqi).trans ho) hside hother
  · rw [f₆ e hea, f₅ e heq, hframe₄ e hea heb hei]

end Pivot

/-! ### Trees below a node -/

/-- The node above a place, of a tree that hangs below `par`. -/
def abovePtr (par : Ptr) : List (Frame Entry) → Ptr
  | [] => par
  | f :: _ => some f.val.addr

/-- The cells around a place whose subtree has the root pointer `q`, of a tree that hangs below
`par`. -/
def aroundCells (par : Ptr) : List (Frame Entry) → Ptr → List (ℕ × RbNode)
  | [], _ => []
  | f :: p, q =>
      (f.val.addr, cellAt f.side f.color f.val q (ptr f.sibling) (abovePtr par p))
        :: (cells f.sibling (some f.val.addr) ++ aroundCells par p (some f.val.addr))

section Below

variable {s : Side} {m m' : Mem RbNode} {root par q : Ptr} {p : List (Frame Entry)}
  {t : ColorTree Entry}

lemma holds_aroundCells_cons {f : Frame Entry} :
    m.Holds (aroundCells par (f :: p) q)
      ↔ m f.val.addr = some (cellAt f.side f.color f.val q (ptr f.sibling) (abovePtr par p))
        ∧ m.Holds (cells f.sibling (some f.val.addr))
        ∧ m.Holds (aroundCells par p (some f.val.addr)) := by
  simp [aroundCells]

/-- Below nothing, it is the node of the innermost frame. -/
lemma abovePtr_none (p : List (Frame Entry)) : abovePtr none p = pathPtr p := by
  cases p <;> rfl

lemma abovePtr_none_eq_none_iff : abovePtr none p = none ↔ p = [] := by
  cases p with
  | nil => exact iff_of_true rfl rfl
  | cons f p => exact iff_of_false (Option.some_ne_none _) (List.cons_ne_nil f p)

/-- A tree in memory is its subtree at a place and the cells around the place. -/
lemma holds_plug_below :
    m.Holds (cells (plug p t) par)
      ↔ m.Holds (aroundCells par p (ptr t)) ∧ m.Holds (cells t (abovePtr par p)) := by
  induction p generalizing t with
  | nil => simp [aroundCells, abovePtr]
  | cons f p ih =>
      rw [plug_cons, ih, holds_branch, holds_aroundCells_cons, ptr_branch, abovePtr]
      tauto

lemma map_fst_aroundCells : ((aroundCells par p q).map Prod.fst).Perm (pathAddrs p) := by
  induction p generalizing q with
  | nil => simp [aroundCells, pathAddrs, before, after]
  | cons f p ih =>
      refine List.Perm.trans ?_ (perm_pathAddrs_cons f p).symm
      simp only [aroundCells, List.map_cons, List.map_append]
      exact ((map_fst_cells _ _).append ih).cons _

lemma holds_aroundCells_of_agree (h : m.Holds (aroundCells par p q))
    (hagree : ∀ a ∈ pathAddrs p, m' a = m a) : m'.Holds (aroundCells par p q) :=
  h.frame fun a ha => hagree a (map_fst_aroundCells.mem_iff.mp ha)

/-- The root of a tree in memory. -/
lemma exists_cell_of_holds {e : ℕ} (h : m.Holds (cells t par)) (he : ptr t = some e) :
    ∃ i, m e = some i ∧ i.parent = par := by
  cases t with
  | nil => cases he
  | node c l x r =>
      rw [← branch_left] at h
      rw [ptr_node, Option.some_inj] at he
      subst he
      exact ⟨_, (holds_branch.mp h).1, cellAt_parent _ _ _ _ _ _⟩

/-- A tree whose root has got another parent pointer. -/
lemma holds_cells_of_setParent {par' : Ptr} (h : m.Holds (cells t par)) (hnodup : (addrs t).Nodup)
    (hset : ∀ e i, ptr t = some e → m e = some i → m' e = some (i.setParent par'))
    (hagree : ∀ a ∈ addrs t, ptr t ≠ some a → m' a = m a) : m'.Holds (cells t par') := by
  cases t with
  | nil => simp [cells]
  | node c l x r =>
      rw [← branch_left] at h hnodup hset hagree ⊢
      obtain ⟨hx, hl, hr⟩ := holds_branch.mp h
      simp only [nodup_branch, List.nodup_cons, List.mem_append, not_or] at hnodup
      have hmem (a : ℕ) (ha : a ∈ addrs l ∨ a ∈ addrs r) : m' a = m a := by
        refine hagree a ?_ ?_
        · rw [(perm_addrs_branch .left c x l r).mem_iff, List.mem_cons, List.mem_append]
          exact Or.inr ha
        · rw [ptr_branch]
          rintro heq
          obtain rfl := Option.some_inj.mp heq
          exact ha.elim hnodup.1.1 hnodup.1.2
      refine holds_branch.mpr ⟨?_, ?_, ?_⟩
      · rw [hset x.addr _ (ptr_branch _ _ _ _ _) hx, cellAt_setParent]
      · exact holds_cells_of_agree hl fun a ha => hmem a (Or.inl ha)
      · exact holds_cells_of_agree hr fun a ha => hmem a (Or.inr ha)

end Below

/-! ### A rotation in a tree -/

section Tree

variable {s : Side} {m m' : Mem RbNode} {root par : Ptr} {p : List (Frame Entry)} {c d : Color}
  {x y : Entry} {A B C : ColorTree Entry}

/-- The addresses about a rotation are apart from each other. -/
structure Apart (p : List (Frame Entry)) (x y : Entry) (A B C : ColorTree Entry) : Prop where
  ne : x.addr ≠ y.addr
  node : x.addr ∉ pathAddrs p ∧ x.addr ∉ addrs A ∧ x.addr ∉ addrs B ∧ x.addr ∉ addrs C
  up : y.addr ∉ pathAddrs p ∧ y.addr ∉ addrs A ∧ y.addr ∉ addrs B ∧ y.addr ∉ addrs C
  inner : (addrs B).Nodup ∧ List.Disjoint (pathAddrs p) (addrs B)
    ∧ List.Disjoint (addrs A) (addrs B) ∧ List.Disjoint (addrs B) (addrs C)
  outer : (pathAddrs p).Nodup ∧ List.Disjoint (pathAddrs p) (addrs A)
    ∧ List.Disjoint (pathAddrs p) (addrs C)

lemma apart_of_nodup (h : (addrs (plug p (branch s c x A (branch s d y B C)))).Nodup) :
    Apart p x y A B C := by
  rw [nodup_plug, ((perm_addrs_branch s c x A _).trans
    ((perm_addrs_branch s d y B C).append_left _ |>.cons _)).append_left _ |>.nodup_iff] at h
  simp only [List.nodup_append', List.nodup_cons, List.mem_append, List.mem_cons, not_or,
    List.disjoint_append_right, List.disjoint_cons_right] at h
  obtain ⟨hp, ⟨⟨hxA, hxy, hxB, hxC⟩, -, ⟨⟨hyB, hyC⟩, hBn, -, hBC⟩, hyA, hAB, hAC⟩,
    hxp, hpA, hyp, hpB, hpC⟩ := h
  exact ⟨hxy, ⟨hxp, hxA, hxB, hxC⟩, ⟨hyp, hyA, hyB, hyC⟩, ⟨hBn, hpB, hAB, hBC⟩, hp, hpA, hpC⟩

lemma mem_addrs_rotated {a : ℕ} : a ∈ addrs (branch s c x A (branch s d y B C))
    ↔ a = x.addr ∨ a = y.addr ∨ a ∈ addrs A ∨ a ∈ addrs B ∨ a ∈ addrs C := by
  rw [(perm_addrs_branch _ _ _ _ _).mem_iff, List.mem_cons, List.mem_append,
    (perm_addrs_branch _ _ _ _ _).mem_iff, List.mem_cons, List.mem_append]
  tauto

/-- The node above is not in the tree, or around the place. -/
lemma abovePtr_ne {a : ℕ} (ha : a ∉ pathAddrs p) (hpar : par ≠ some a) :
    abovePtr par p ≠ some a := by
  cases p with
  | nil => exact hpar
  | cons f p => exact pathPtr_ne ha

/-- A link from outside to the root of a tree, and no other one. -/
def LinkedFrom (m : Mem RbNode) (t : ColorTree Entry) (q : ℕ) : Prop :=
  q ∉ addrs t ∧ ∃ side o, m q = some o ∧ o.child side = ptr t
    ∧ ∀ a ∈ addrs t, o.child side.opp ≠ some a

/-- The link above the node, from outside of the tree or from the innermost frame. -/
lemma exists_link_above {q : ℕ} (hP : m.Holds (aroundCells par p (some x.addr)))
    (hapart : Apart p x y A B C)
    (hpar : par = some q → LinkedFrom m (plug p (branch s c x A (branch s d y B C))) q)
    (hq : abovePtr par p = some q) :
    q ≠ x.addr ∧ q ≠ y.addr ∧ ptr B ≠ some q ∧ ∃ side o, m q = some o
      ∧ o.child side = some x.addr ∧ o.child side.opp ≠ some x.addr
      ∧ o.child side.opp ≠ some y.addr := by
  cases p with
  | nil =>
      obtain ⟨hqt, side, o, ho, hside, hother⟩ := hpar hq
      rw [plug_nil, ptr_branch] at hside
      rw [plug_nil, mem_addrs_rotated] at hqt
      simp only [plug_nil, mem_addrs_rotated] at hother
      simp only [not_or] at hqt
      exact ⟨hqt.1, hqt.2.1, ptr_ne hqt.2.2.2.1, side, o, ho, hside, hother _ (Or.inl rfl),
        hother _ (Or.inr (Or.inl rfl))⟩
  | cons f p =>
      obtain rfl : f.val.addr = q := Option.some_inj.mp hq
      obtain ⟨hf, -, -⟩ := holds_aroundCells_cons.mp hP
      have hmem : f.val.addr ∈ pathAddrs (f :: p) :=
        (perm_pathAddrs_cons f p).mem_iff.mpr List.mem_cons_self
      have hsibling (a : ℕ) (ha : a ∉ pathAddrs (f :: p)) : ptr f.sibling ≠ some a := by
        rw [(perm_pathAddrs_cons f p).mem_iff, List.mem_cons, List.mem_append, not_or,
          not_or] at ha
        exact ptr_ne ha.2.1
      refine ⟨fun heq => hapart.node.1 (heq ▸ hmem), fun heq => hapart.up.1 (heq ▸ hmem),
        ptr_ne (hapart.inner.2.1 hmem), f.side, _, hf, cellAt_child _ _ _ _ _ _, ?_, ?_⟩
      · rw [cellAt_child_opp]
        exact hsibling _ hapart.node.1
      · rw [cellAt_child_opp]
        exact hsibling _ hapart.up.1

/-- **The pivot in a tree**: any node with a child on the side `s.opp`. -/
lemma pivot_of_holds (h : m.Holds (cells (plug p (branch s c x A (branch s d y B C))) par))
    (hnodup : (addrs (plug p (branch s c x A (branch s d y B C)))).Nodup)
    (hpar : ∀ q, par = some q → LinkedFrom m (plug p (branch s c x A (branch s d y B C))) q) :
    Pivot s m x.addr y.addr (cellAt s c x (ptr A) (some y.addr) (abovePtr par p))
      (cellAt s d y (ptr B) (ptr C) (some x.addr)) := by
  obtain ⟨hP, hT⟩ := holds_plug_below.mp h
  obtain ⟨hx, -, hY⟩ := holds_branch.mp hT
  obtain ⟨hy, hB, -⟩ := holds_branch.mp hY
  rw [ptr_branch] at hx hP
  have hapart := apart_of_nodup hnodup
  refine ⟨hx, hy, cellAt_child_opp _ _ _ _ _ _, cellAt_parent _ _ _ _ _ _, hapart.ne,
    fun e he => ?_, fun q hq => ?_⟩
  · rw [cellAt_child] at he
    have hmem := mem_addrs_of_ptr he
    exact ⟨fun heq => hapart.node.2.2.1 (heq ▸ hmem), fun heq => hapart.up.2.2.1 (heq ▸ hmem),
      exists_cell_of_holds hB he⟩
  · rw [cellAt_parent] at hq
    rw [cellAt_child]
    exact exists_link_above hP hapart (hpar q) hq

section Turned

variable
  (ht : Turned s m m' x.addr y.addr (cellAt s c x (ptr A) (some y.addr) (abovePtr par p))
    (cellAt s d y (ptr B) (ptr C) (some x.addr)))

include ht

/-- The rest of the memory, in terms of the tree. -/
lemma Turned.agree {e : ℕ} (hex : e ≠ x.addr) (hey : e ≠ y.addr) (heB : ptr B ≠ some e)
    (hep : abovePtr par p ≠ some e) : m' e = m e := by
  refine ht.frame e hex hey ?_ ?_
  · rwa [cellAt_child]
  · rwa [cellAt_parent]

/-- Around the place, the innermost frame is linked to the node that has moved up. -/
lemma Turned.holds_around (hP : m.Holds (aroundCells par p (some x.addr)))
    (hapart : Apart p x y A B C) : m'.Holds (aroundCells par p (some y.addr)) := by
  cases p with
  | nil => exact Mem.holds_nil _
  | cons f p =>
      obtain ⟨hf, hsib, hrest⟩ := holds_aroundCells_cons.mp hP
      have hpn := hapart.outer.1
      rw [nodup_pathAddrs_cons, List.nodup_cons, List.mem_append] at hpn
      have hmem (a : ℕ) (ha : a ∈ addrs f.sibling ∨ a ∈ pathAddrs p) : a ∈ pathAddrs (f :: p) := by
        rw [(perm_pathAddrs_cons f p).mem_iff, List.mem_cons, List.mem_append]
        exact Or.inr ha
      have hagree (a : ℕ) (ha : a ∈ addrs f.sibling ∨ a ∈ pathAddrs p) : m' a = m a := by
        refine ht.agree ?_ ?_ (ptr_ne (hapart.inner.2.1 (hmem a ha))) ?_
        · rintro rfl
          exact hapart.node.1 (hmem _ ha)
        · rintro rfl
          exact hapart.up.1 (hmem _ ha)
        · intro heq
          obtain rfl : f.val.addr = a := Option.some_inj.mp heq
          exact hpn.1 ha
      refine holds_aroundCells_cons.mpr ⟨?_, ?_, ?_⟩
      · rw [ht.above f.val.addr f.side _ (cellAt_parent _ _ _ _ _ _) hf
          (cellAt_child _ _ _ _ _ _), cellAt_setChild]
        rw [cellAt_child_opp]
        exact ptr_ne fun ha => hapart.node.1 (hmem _ (Or.inl ha))
      · exact holds_cells_of_agree hsib fun a ha => hagree a (Or.inl ha)
      · exact holds_aroundCells_of_agree hrest fun a ha => hagree a (Or.inr ha)

/-- **The rotation in a tree**: the turned nodes make the rotated tree. -/
lemma Turned.holds (h : m.Holds (cells (plug p (branch s c x A (branch s d y B C))) par))
    (hnodup : (addrs (plug p (branch s c x A (branch s d y B C)))).Nodup)
    (hpar : ∀ a ∈ addrs (plug p (branch s c x A (branch s d y B C))), par ≠ some a) :
    m'.Holds (cells (plug p (branch s d y (branch s c x A B) C)) par) := by
  obtain ⟨hP, hT⟩ := holds_plug_below.mp h
  obtain ⟨-, hA, hY⟩ := holds_branch.mp hT
  obtain ⟨-, hB, hC⟩ := holds_branch.mp hY
  rw [ptr_branch] at hP
  have hapart := apart_of_nodup hnodup
  obtain ⟨-, ⟨-, hxA, hxB, hxC⟩, ⟨-, hyA, hyB, hyC⟩, ⟨hBn, hpB, hAB, hBC⟩, -, hpA, hpC⟩ :=
    id hapart
  have habove (e : ℕ) (he : e ∈ addrs A ∨ e ∈ addrs B ∨ e ∈ addrs C) (hep : e ∉ pathAddrs p) :
      abovePtr par p ≠ some e := by
    refine abovePtr_ne hep (hpar e ?_)
    rw [(perm_addrs_plug p _).mem_iff, List.mem_append, mem_addrs_rotated]
    exact Or.inr (Or.inr (Or.inr he))
  rw [holds_plug_below, holds_branch, holds_branch, ptr_branch, ptr_branch]
  refine ⟨ht.holds_around hP hapart, ?_, ⟨?_, ?_, ?_⟩, ?_⟩
  · rw [ht.up, cellAt_setChild, cellAt_setParent, cellAt_parent]
  · rw [ht.node, cellAt_child, cellAt_setChild_opp, cellAt_setParent]
  · refine holds_cells_of_agree hA fun a ha => ht.agree ?_ ?_ (ptr_ne (hAB ha))
      (habove a (Or.inl ha) fun hmem => hpA hmem ha)
    · rintro rfl
      exact hxA ha
    · rintro rfl
      exact hyA ha
  · refine holds_cells_of_setParent hB hBn (fun e i he hi => ?_) fun a ha hne => ht.agree ?_ ?_ hne
      (habove a (Or.inr (Or.inl ha)) fun hmem => hpB hmem ha)
    · exact ht.inner e i (by rwa [cellAt_child]) hi
    · rintro rfl
      exact hxB ha
    · rintro rfl
      exact hyB ha
  · refine holds_cells_of_agree hC fun a ha => ht.agree ?_ ?_ (ptr_ne fun hmem => hBC hmem ha)
      (habove a (Or.inr (Or.inr ha)) fun hmem => hpC hmem ha)
    · rintro rfl
      exact hxC ha
    · rintro rfl
      exact hyC ha

end Turned

end Tree

end Wgs
