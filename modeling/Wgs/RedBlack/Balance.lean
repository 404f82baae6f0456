import Wgs.RedBlack.Map

/-!
The red-black invariants of the linked tree.

They are stated of the memory alone: `InTree root m a` says that the node at `a` is reached from
the root along child links, and `DownPath m p b h` that a path of child links leads from `p` to a
null link over `h` nodes, `b` of them black.  `RbInvariants` lists what the tree keeps.

`Rep.invariants` reads them off the shape, and `rb_invariants` gives them of every run.
-/

namespace Wgs

open Foundation ColorTree

/-- The node at an address is reached from the root along child links. -/
inductive InTree (root : Ptr) (m : Mem RbNode) : ℕ → Prop where
  | root {a : ℕ} : root = some a → InTree root m a
  | child {a b : ℕ} {n : RbNode} (s : Side) :
      InTree root m a → m a = some n → n.child s = some b → InTree root m b

/-- A path of child links from `p` to a null link, with `b` black nodes on it and `h` nodes. -/
inductive DownPath (m : Mem RbNode) : Ptr → ℕ → ℕ → Prop where
  | null : DownPath m none 0 0
  | child {a : ℕ} {n : RbNode} {b h : ℕ} (s : Side) : m a = some n → DownPath m (n.child s) b h →
      DownPath m (some a) (if n.color = .black then b + 1 else b) (h + 1)

/-- The number of nodes of the tree below `root`. -/
noncomputable def nodeCount (root : Ptr) (m : Mem RbNode) : ℕ := {a | InTree root m a}.ncard

/-- **The red-black invariants** of the tree below `root`. -/
structure RbInvariants (root : Ptr) (m : Mem RbNode) : Prop where
  /-- The links lead to nodes. -/
  linked : ∀ a, InTree root m a → ∃ n, m a = some n
  /-- The root is black and has no parent. -/
  root_black : ∀ a n, root = some a → m a = some n → n.color = .black ∧ n.parent = none
  /-- No red node has a red child. -/
  no_red_red : ∀ a n s b k, InTree root m a → m a = some n → n.child s = some b →
    m b = some k → n.color = .red → k.color = .black
  /-- The parent pointer of a child names the node that links to it. -/
  parent : ∀ a n s b k, InTree root m a → m a = some n → n.child s = some b →
    m b = some k → k.parent = some a
  /-- All paths from the root to a null link have one number of black nodes. -/
  black_height : ∀ b h b' h', DownPath m root b h → DownPath m root b' h' → b = b'
  /-- The height is at most `2·log₂(n+1)`. -/
  height_le : ∀ b h, DownPath m root b h → (h : ℝ) ≤ 2 * Real.logb 2 (nodeCount root m + 1)

section Shape

variable {root : Ptr} {m : Mem RbNode} {t : ColorTree Entry} {a : ℕ}

/-- A node that is linked is a node of the tree. -/
lemma Rep.place (h : Rep root m t) (ha : InTree root m a) (s : Side) :
    ∃ p c x u v, t = plug p (branch s c x u v) ∧ x.addr = a := by
  induction ha generalizing s with
  | root hroot =>
      have hne : t ≠ .nil := by
        rintro rfl
        rw [h.root_eq] at hroot
        simp at hroot
      obtain ⟨c, x, u, v, rfl⟩ := eq_branch_of_ne_nil s hne
      rw [h.root_eq, ptr_branch] at hroot
      exact ⟨[], c, x, u, v, rfl, Option.some_inj.mp hroot⟩
  | child s' _ hn hb ih =>
      obtain ⟨p, c, x, u, v, rfl, rfl⟩ := ih s'
      rw [h.cell, Option.some_inj] at hn
      subst hn
      rw [cellAt_child] at hb
      have hne : u ≠ .nil := by
        rintro rfl
        simp at hb
      obtain ⟨d, y, u', v', rfl⟩ := eq_branch_of_ne_nil s hne
      rw [ptr_branch] at hb
      exact ⟨⟨s', c, x, v⟩ :: p, d, y, u', v', rfl, Option.some_inj.mp hb⟩

/-- A node and its child, seen in the tree. -/
lemma Rep.place_child {b : ℕ} {n k : RbNode} {s : Side} (h : Rep root m t) (ha : InTree root m a)
    (hn : m a = some n) (hb : n.child s = some b) (hk : m b = some k) :
    ∃ p x y u v w, t = plug p (branch s n.color x (branch s k.color y u v) w)
      ∧ k.parent = some a := by
  obtain ⟨p, c, x, u, w, rfl, rfl⟩ := h.place ha s
  rw [h.cell, Option.some_inj] at hn
  subst hn
  rw [cellAt_child] at hb
  have hne : u ≠ .nil := by
    rintro rfl
    simp at hb
  obtain ⟨d, y, u', v', rfl⟩ := eq_branch_of_ne_nil s hne
  rw [ptr_branch, Option.some_inj] at hb
  subst hb
  rw [h.near.cell, Option.some_inj] at hk
  subst hk
  refine ⟨p, x, y, u', v', w, ?_, ?_⟩
  · rw [cellAt_color, cellAt_color]
  · rw [cellAt_parent, pathPtr_cons]

/-- The nodes of a subtree are linked, once its root is. -/
lemma Rep.inTree {p : List (Frame Entry)} (h : Rep root m (plug p t))
    (hroot : ∀ a, ptr t = some a → InTree root m a) : ∀ a ∈ addrs t, InTree root m a := by
  induction t generalizing p with
  | nil => simp
  | node c l x r ihl ihr =>
      rw [← branch_left] at h
      have hx := hroot x.addr rfl
      intro a ha
      rw [← branch_left, (perm_addrs_branch .left c x l r).mem_iff, List.mem_cons,
        List.mem_append] at ha
      rcases ha with rfl | ha | ha
      · exact hx
      · exact ihl h.near (fun b hb => .child .left hx h.cell hb) a ha
      · exact ihr h.far (fun b hb => .child .right hx h.cell hb) a ha

lemma Rep.inTree_iff (h : Rep root m t) : InTree root m a ↔ a ∈ addrs t := by
  constructor
  · intro ha
    obtain ⟨p, c, x, l, r, rfl, rfl⟩ := h.place ha .left
    rw [(perm_addrs_plug_branch p .left c x l r).mem_iff]
    exact List.mem_cons_self
  · exact Rep.inTree (p := []) h (fun b hb => .root (h.root_eq.trans hb)) a

lemma Rep.nodeCount_eq (h : Rep root m t) : nodeCount root m = t.size := by
  have hset : {a | InTree root m a} = ((addrs t).toFinset : Set ℕ) := by
    ext a
    simp [h.inTree_iff]
  rw [nodeCount, hset, Set.ncard_coe_finset, List.toFinset_card_of_nodup h.nodup, addrs,
    List.length_map, length_inorder]

/-- A path down a red-black tree has the black nodes the tree promises, and no more nodes than
its height. -/
lemma Rep.downPath {p : List (Frame Entry)} {b i k : ℕ} (h : Rep root m (plug p t))
    (hpath : DownPath m (ptr t) b i) (hk : IsRB t k) : b = k ∧ i ≤ t.height := by
  induction t generalizing p b i k with
  | nil =>
      rw [ptr_nil] at hpath
      cases hpath
      exact ⟨(isRB_nil.mp hk).symm, Nat.zero_le _⟩
  | node c l x r ihl ihr =>
      rw [← branch_left] at h
      rw [ptr_node] at hpath
      cases hpath with
      | @child _ n b i s hn hpath =>
          rw [h.cell, Option.some_inj] at hn
          subst hn
          -- the black height of the two subtrees
          obtain ⟨j, hl, hr, hj⟩ :
              ∃ j, IsRB l j ∧ IsRB r j ∧ k = if c = .black then j + 1 else j := by
            cases c with
            | red => exact ⟨k, hk.1, hk.2.1, rfl⟩
            | black =>
                obtain ⟨j, rfl, hl, hr⟩ := (isRB_black (s := .left)).mp hk
                exact ⟨j, hl, hr, rfl⟩
          have hstep : b = j ∧ i ≤ max l.height r.height := by
            cases s with
            | left =>
                obtain ⟨hb, hi⟩ := ihl h.near hpath hl
                exact ⟨hb, le_max_of_le_left hi⟩
            | right =>
                obtain ⟨hb, hi⟩ := ihr h.far hpath hr
                exact ⟨hb, le_max_of_le_right hi⟩
          rw [cellAt_color, hj, hstep.1, height]
          exact ⟨rfl, Nat.succ_le_succ hstep.2⟩

/-- A valid tree has the red-black invariants. -/
lemma Valid.invariants (h : Valid root m t) : RbInvariants root m := by
  obtain ⟨k, hk⟩ := h.balanced
  have hrep := h.rep
  refine ⟨?linked, ?root_black, ?no_red_red, ?parent, ?black_height, ?height_le⟩
  case linked =>
      intro a ha
      obtain ⟨p, c, x, u, v, rfl, rfl⟩ := hrep.place ha .left
      exact ⟨_, hrep.cell⟩
  case root_black =>
      intro a n hroot hn
      rw [hrep.root_eq] at hroot
      have hne : t ≠ .nil := by
        rintro rfl
        simp at hroot
      obtain ⟨c, x, u, v, rfl⟩ := eq_branch_of_ne_nil .left hne
      rw [ptr_branch, Option.some_inj] at hroot
      subst hroot
      rw [Rep.cell (p := []) hrep, Option.some_inj] at hn
      subst hn
      have hblack := h.black
      rw [rootColor_branch] at hblack
      exact ⟨by rw [cellAt_color, hblack], by rw [cellAt_parent, pathPtr_nil]⟩
  case no_red_red =>
      intro a n s b n' ha hn hb hn' hred
      obtain ⟨p, x, y, u, v, w, rfl, -⟩ := hrep.place_child ha hn hb hn'
      obtain ⟨j, hj, -, -⟩ := hk.focus h.black
      rw [hred, isRB_red, rootColor_branch] at hj
      exact hj.1.2
  case parent =>
      intro a n s b n' ha hn hb hn'
      obtain ⟨p, x, y, u, v, w, -, hparent⟩ := hrep.place_child ha hn hb hn'
      exact hparent
  case black_height =>
      intro b i b' i' hpath hpath'
      rw [hrep.root_eq] at hpath hpath'
      exact (Rep.downPath (p := []) hrep hpath hk).1.trans
        (Rep.downPath (p := []) hrep hpath' hk).1.symm
  case height_le =>
      intro b i hpath
      rw [hrep.root_eq] at hpath
      have hi : (i : ℝ) ≤ t.height := by
        exact_mod_cast (Rep.downPath (p := []) hrep hpath hk).2
      rw [hrep.nodeCount_eq]
      exact hi.trans (hk.height_le_two_mul_logb h.black)

end Shape

/-- **Every tree a run leads to has the red-black invariants.** -/
theorem rb_invariants {cs : List RbCall} {s : RbState} (hc : Compatible cs)
    (h : Reaches RbStep .empty cs s) : RbInvariants s.root s.mem := by
  obtain ⟨t, ht⟩ := run_simulates hc h
  exact ht.valid.invariants

/-- The invariants after the keys 1, 2 and 3, the last of which makes a rotation. -/
theorem rb_invariants_three :
    ∃ s : RbState, Reaches RbStep .empty
        [.insert 1 10 0 rbJunk, .insert 2 20 1 rbJunk, .insert 3 30 2 rbJunk] s
      ∧ RbInvariants s.root s.mem := by
  have hc : Compatible [.insert 1 10 0 rbJunk, .insert 2 20 1 rbJunk, .insert 3 30 2 rbJunk] := by
    simp [Compatible, RbCall.key, IsInt32]
  obtain ⟨s, h⟩ : ∃ s, Reaches RbStep .empty
      [.insert 1 10 0 rbJunk, .insert 2 20 1 rbJunk, .insert 3 30 2 rbJunk] s :=
    ⟨_, .step (.step (.step .start (.of_exec 4 rfl)) (.of_exec 4 rfl))
      (.of_exec 4 rfl)⟩
  exact ⟨s, h, rb_invariants hc h⟩

end Wgs
