import Wgs.RedBlack.Search

/-!
`rb_insert_rebalance` restores the red-black invariant.

At the head of the loop the tree is red-black but for one place: the subtree at `node` is
red-black with a red root, and the node above it may be red too.  The body either moves that
place two levels up (`rbInsertCase_recolor`) or repairs it by one or two rotations
(`rbInsertCase_outer`, `rbInsertCase_inner`), and `rbInsertRebalance_spec` is the induction on
the path to the root.
-/

namespace Wgs

open Foundation ColorTree

variable {m : Mem RbNode} {root : Ptr} {p : List (Frame Entry)}

/-! ### The loop body -/

/-- A red uncle: the two red nodes turn black and the grandparent red. -/
lemma rbInsertCase_recolor (node : Ptr) {s : Side} {c : Color} {g : Entry} {P U : ColorTree Entry}
    (h : Rep root m (plug p (branch s c g P U))) (hP : P ≠ .nil) (hU : U.rootColor = .red) :
    ∃ m', rbInsertCase s node (ptr P) (some g.addr) root m = some (some g.addr, root, m')
      ∧ Rep root m' (plug p (branch s .red g (P.paint .black) (U.paint .black))) := by
  have hUnil := ne_nil_of_red hU
  have hread := h.far.blackOrNull
  obtain ⟨m₁, e₁, h₁⟩ := h.far.paint hUnil .black
  rw [plug_far] at h₁
  obtain ⟨m₂, e₂, h₂⟩ := h₁.near.paint hP .black
  rw [plug_near] at h₂
  obtain ⟨m₃, e₃, h₃⟩ := h₂.paint (branch_ne_nil _ _ _ _ _) .red
  rw [paint_branch] at h₃
  rw [ptr_branch] at e₃
  refine ⟨m₃, ?_, h₃⟩
  simp [rbInsertCase, Mem.read_eq h.cell, hread, hU, e₁, e₂, e₃]

/-- A black uncle and an outer node: one rotation at the grandparent. -/
lemma rbInsertCase_outer {s : Side} {c d : Color} {g q : Entry} {T W U : ColorTree Entry}
    (h : Rep root m (plug p (branch s c g (branch s d q T W) U))) (hT : T ≠ .nil)
    (hU : U.rootColor = .black) :
    ∃ root' m', rbInsertCase s (ptr T) (some q.addr) (some g.addr) root m
        = some (ptr T, root', m')
      ∧ Rep root' m' (plug p (branch s .black q T (branch s .red g W U))) := by
  have hread := h.far.blackOrNull
  have hq := h.near.cell
  have hne : ptr W ≠ ptr T := h.near.sibling_ne (Or.inl hT)
  obtain ⟨m₁, e₁, h₁⟩ := h.near.paint (branch_ne_nil _ _ _ _ _) .black
  rw [plug_near, paint_branch] at h₁
  obtain ⟨m₂, e₂, h₂⟩ := h₁.paint (branch_ne_nil _ _ _ _ _) .red
  rw [paint_branch] at h₂
  obtain ⟨root', m₃, e₃, h₃⟩ := h₂.rotate_opp
  rw [ptr_branch] at e₁ e₂
  refine ⟨root', m₃, ?_, h₃⟩
  simp [rbInsertCase, Mem.read_eq h.cell, Mem.read_eq hq, hread, hU, hne, e₁, e₂, e₃]

/-- A black uncle and an inner node: a rotation at the parent, then one at the grandparent. -/
lemma rbInsertCase_inner {s : Side} {c d e : Color} {g q x : Entry} {W B C U : ColorTree Entry}
    (h : Rep root m (plug p (branch s c g (branch s d q W (branch s e x B C)) U)))
    (hU : U.rootColor = .black) :
    ∃ root' m', rbInsertCase s (some x.addr) (some q.addr) (some g.addr) root m
        = some (some q.addr, root', m')
      ∧ Rep root' m' (plug p (branch s .black x (branch s d q W B) (branch s .red g C U))) := by
  have hread := h.far.blackOrNull
  have hq := h.near.cell
  obtain ⟨root₁, m₁, e₁, h₁⟩ := h.near.rotate
  obtain ⟨m₂, e₂, h₂⟩ := h₁.paint (branch_ne_nil _ _ _ _ _) .black
  rw [plug_near, paint_branch] at h₂
  obtain ⟨m₃, e₃, h₃⟩ := h₂.paint (branch_ne_nil _ _ _ _ _) .red
  rw [paint_branch] at h₃
  obtain ⟨root₄, m₄, e₄, h₄⟩ := h₃.rotate_opp
  rw [ptr_branch] at e₂ e₃
  refine ⟨root₄, m₄, ?_, h₄⟩
  simp [rbInsertCase, Mem.read_eq h.cell, Mem.read_eq hq, hread, hU, e₁, e₂, e₃, e₄]

/-! ### The loop -/

/-- Below a black node the loop stops, and the root is painted black. -/
lemma rbInsertRebalance_stop {t : ColorTree Entry} (h : Rep root m (plug p t)) (ht : t ≠ .nil)
    (htop : topColor p = .black) (fuel : ℕ) :
    ∃ m', rbInsertRebalance (fuel + 1) (ptr t) root m = some (root, m')
      ∧ Rep root m' ((plug p t).paint .black) := by
  obtain ⟨c, x, a, b, rfl⟩ := eq_branch_of_ne_nil .left ht
  have hparent : blackOrNull (pathPtr p) m = some true := by
    cases p with
    | nil => rfl
    | cons f p =>
        have hf := Rep.blackOrNull (p := p) (plug_cons f p _ ▸ h)
        rw [topColor_cons] at htop
        rw [ptr_branch, rootColor_branch, htop] at hf
        simpa using hf
  have hne := plug_ne_nil p ht
  obtain ⟨m', e, h'⟩ := Rep.paint (p := []) h hne .black
  rw [← h.root_eq] at e
  refine ⟨m', ?_, h'⟩
  rw [ptr_branch]
  simp [rbInsertRebalance, Mem.read_eq h.cell, hparent, e]

/-- The body of the loop below a red node `q` with grandparent `g`: it runs the half of the side
`q` is on. -/
lemma rbInsertRebalance_step {s s' r : Side} {c e : Color} {g q x : Entry}
    {a b W U : ColorTree Entry}
    (h : Rep root m (plug p (branch s c g (branch s' .red q (branch r e x a b) W) U)))
    (fuel : ℕ) :
    rbInsertRebalance (fuel + 1) (some x.addr) root m
      = (rbInsertCase s (some x.addr) (some q.addr) (some g.addr) root m).bind
          fun r => rbInsertRebalance fuel r.1 r.2.1 r.2.2 := by
  have hq := h.near.blackOrNull
  have hne := h.sibling_ne (Or.inl (branch_ne_nil _ _ _ _ _))
  simp only [ptr_branch, rootColor_branch] at hq hne
  simp only [rbInsertRebalance, Mem.read_eq h.near.near.cell, cellAt_parent, pathPtr_cons, hq,
    Mem.read_eq h.near.cell, Mem.read_eq h.cell, ptr_branch, Option.bind_eq_bind,
    Option.bind_some, reduceCtorEq, decide_false, Bool.false_eq_true, ite_false]
  exact ite_left_eq (fun s => (rbInsertCase s (some x.addr) (some q.addr) (some g.addr) root m).bind
    fun r => rbInsertRebalance fuel r.1 r.2.1 r.2.2) s c g (pathPtr p) hne

/-- After a rotation that puts a black node on top the loop stops. -/
lemma rbInsertRebalance_rotated {s : Side} {q : Entry} {T F : ColorTree Entry} {n : ℕ}
    (h : Rep root m (plug p (branch s .black q T F))) (hT : T ≠ .nil)
    (hrb : IsRB (branch s .black q T F) n) (hfit : Fits p n) (fuel : ℕ) :
    ∃ m' u, rbInsertRebalance (fuel + 1) (ptr T) root m = some (root, m') ∧ Rep root m' u
      ∧ u.inorder = (plug p (branch s .black q T F)).inorder ∧ (∃ k, IsRB u k)
      ∧ u.rootColor = .black := by
  obtain ⟨m', e, h'⟩ := rbInsertRebalance_stop h.near hT rfl fuel
  obtain ⟨k, hk⟩ := hfit.plug hrb (Or.inl (rootColor_branch _ _ _ _ _))
  rw [plug_near] at h'
  exact ⟨m', _, e, h', inorder_paint _ _, hk.paint_black,
    rootColor_paint _ (plug_ne_nil _ (branch_ne_nil _ _ _ _ _))⟩

/-- **`rb_insert_rebalance`**: from a red-black tree but for a red subtree that may hang below
a red node, the loop returns a red-black tree with the same in-order sequence. -/
theorem rbInsertRebalance_spec {t : ColorTree Entry} {n : ℕ} (h : Rep root m (plug p t))
    (ht : IsRB t n) (hred : t.rootColor = .red) (hp : Fits p n) {fuel : ℕ}
    (hfuel : p.length < fuel) :
    ∃ root' m' u, rbInsertRebalance fuel (ptr t) root m = some (root', m') ∧ Rep root' m' u
      ∧ u.inorder = (plug p t).inorder ∧ (∃ k, IsRB u k) ∧ u.rootColor = .black := by
  induction hl : p.length using Nat.strong_induction_on generalizing p t n root m fuel with
  | _ l ih =>
      obtain ⟨fuel, rfl⟩ : ∃ f, fuel = f + 1 := ⟨fuel - 1, by omega⟩
      by_cases htop : topColor p = .black
      · obtain ⟨m', e, h'⟩ := rbInsertRebalance_stop h (ne_nil_of_red hred) htop fuel
        obtain ⟨k, hk⟩ := hp.plug ht (Or.inr htop)
        exact ⟨root, m', _, e, h', inorder_paint _ _, hk.paint_black,
          rootColor_paint _ (plug_ne_nil p (ne_nil_of_red hred))⟩
      -- below a red node there is a black grandparent, since the root is black
      · obtain ⟨⟨s', c, q, W⟩, p₀, rfl⟩ := List.exists_cons_of_ne_nil (l := p) (by
          rintro rfl
          exact htop rfl)
        obtain rfl : c = .red := by
          cases c
          · rfl
          · exact absurd rfl htop
        obtain ⟨⟨hW, hWc⟩, ⟨hp₀, hg⟩, hfit₀⟩ := fits_red.mp hp
        obtain ⟨⟨s, c, g, U⟩, p₁, rfl⟩ := List.exists_cons_of_ne_nil hp₀
        obtain rfl : c = .black := hg
        obtain ⟨hU, hfit⟩ := fits_black.mp hfit₀
        obtain ⟨x, a, b, rfl⟩ := eq_branch_of_red s hred
        obtain ⟨ha, hb⟩ := isRB_red.mp ht
        rw [plug_cons, plug_cons] at h ⊢
        rw [ptr_branch, rbInsertRebalance_step h fuel]
        simp only [List.length_cons] at hl hfuel
        cases hUc : U.rootColor with
        | red =>
            obtain ⟨m₁, e₁, h₁⟩ := rbInsertCase_recolor (some x.addr) h
              (branch_ne_nil _ _ _ _ _) hUc
            rw [ptr_branch] at e₁
            have hrb : IsRB (branch s .red g (branch s' .black q (branch s .red x a b) W)
                (U.paint .black)) (n + 1) :=
              isRB_red.mpr ⟨⟨isRB_black_succ.mpr ⟨ht, hW⟩, rootColor_branch _ _ _ _ _⟩,
                hU.paint_black_of_red hUc, rootColor_paint _ (ne_nil_of_red hUc)⟩
            rw [paint_branch] at h₁
            obtain ⟨root', m', u, e, hrep, hin, hu⟩ := ih p₁.length (by omega) h₁ hrb
              (rootColor_branch _ _ _ _ _) hfit (by omega : _ < fuel) rfl
            refine ⟨root', m', u, ?_, hrep, ?_, hu⟩
            · rw [e₁, Option.bind_some, ← e, ptr_branch]
            · rw [hin]
              exact inorder_plug_congr p₁ (inorder_branch_congr _ _ _ _
                (inorder_branch_congr _ _ _ _ rfl rfl) (inorder_paint _ _))
        | black =>
            obtain ⟨fuel, rfl⟩ : ∃ f, fuel = f + 1 := ⟨fuel - 1, by omega⟩
            have hfar : IsRB (branch s .red g W U) n := isRB_red.mpr ⟨⟨hW, hWc⟩, hU, hUc⟩
            by_cases hside : s' = s
            · subst hside
              have hrb : IsRB (branch s' .black q (branch s' .red x a b)
                  (branch s' .red g W U)) (n + 1) := isRB_black_succ.mpr ⟨ht, hfar⟩
              obtain ⟨root₁, m₁, e₁, h₁⟩ := rbInsertCase_outer h (branch_ne_nil _ _ _ _ _) hUc
              obtain ⟨m', u, e', hrep, hin, hu⟩ := rbInsertRebalance_rotated h₁
                (branch_ne_nil _ _ _ _ _) hrb hfit fuel
              rw [ptr_branch] at e₁ e'
              refine ⟨root₁, m', u, ?_, hrep, ?_, hu⟩
              · rw [e₁, Option.bind_some]
                exact e'
              · rw [hin]
                exact inorder_plug_congr p₁ (inorder_rotate_opp _ _ _ _ _ _ _ _ _ _).symm
            · obtain rfl : s' = s.opp := by
                revert hside
                cases s' <;> cases s <;> simp
              rw [branch_opp] at h
              have hnear : IsRB (branch s .red q W a) n := isRB_red.mpr ⟨⟨hW, hWc⟩, ha⟩
              have hfar : IsRB (branch s .red g b U) n := isRB_red.mpr ⟨hb, hU, hUc⟩
              have hrb : IsRB (branch s .black x (branch s .red q W a) (branch s .red g b U))
                  (n + 1) := isRB_black_succ.mpr ⟨hnear, hfar⟩
              obtain ⟨root₁, m₁, e₁, h₁⟩ := rbInsertCase_inner h hUc
              obtain ⟨m', u, e', hrep, hin, hu⟩ := rbInsertRebalance_rotated h₁
                (branch_ne_nil _ _ _ _ _) hrb hfit fuel
              rw [ptr_branch] at e'
              refine ⟨root₁, m', u, ?_, hrep, ?_, hu⟩
              · rw [e₁, Option.bind_some]
                exact e'
              · rw [hin, branch_opp]
                refine inorder_plug_congr p₁ ?_
                calc (branch s .black x (branch s .red q W a) (branch s .red g b U)).inorder
                    = (branch s .black g (branch s .red x (branch s .red q W a) b) U).inorder :=
                      (inorder_rotate_opp _ _ _ _ _ _ _ _ _ _).symm
                  _ = (branch s .black g (branch s .red q W (branch s .red x a b)) U).inorder :=
                      inorder_branch_congr _ _ _ _ (inorder_rotate _ _ _ _ _ _ _ _ _ _).symm rfl

/-! ### The operation -/

/-- The side of the link `rb_insert` writes below a node: the test `parent->key > key`. -/
def linkSide (key : ℤ) (x : Entry) : Side :=
  if x.key > key then .left else .right

/-- The address a fresh cell gets is not in the tree. -/
lemma Rep.fresh {t : ColorTree Entry} (h : Rep root m t) {a : ℕ} (ha : m a = none) :
    a ∉ addrs t := by
  intro hmem
  obtain ⟨c, hc, rfl⟩ := List.mem_map.mp ((map_fst_cells t none).mem_iff.mpr hmem)
  rw [h.holds c hc] at ha
  simp at ha

/-- Whatever the fresh cell held, the new leaf is red, without children and below `parent`. -/
lemma rbNewLeaf_spec {a : ℕ} (key data : ℤ) (junk : RbNode) (parent : Ptr) (ha : m a = none) :
    ∃ m', rbNewLeaf key data a junk parent m = some (some a, m')
      ∧ m' a = some (cellAt .left .red ⟨a, key, data⟩ none none parent)
      ∧ ∀ b, b ≠ a → m' b = m b := by
  refine ⟨Function.update m a (some (cellAt .left .red ⟨a, key, data⟩ none none parent)), ?_,
    Function.update_self _ _ _, fun b hb => Function.update_of_ne hb _ _⟩
  simp [rbNewLeaf, rbNewNode, Mem.malloc_eq ha, Mem.modify, RbNode.setParent, RbNode.setColor,
    RbNode.setChild, cellAt]

/-- **The link**: where the comparison of the keys gives the side of the empty place, the new
leaf is put there. -/
lemma rbLink_spec {key data : ℤ} {a : ℕ} {m₁ : Mem RbNode} (h : Rep root m (plug p .nil))
    (ha : m a = none) (ha₁ : m₁ a = some (cellAt .left .red ⟨a, key, data⟩ none none (pathPtr p)))
    (hm₁ : ∀ b, b ≠ a → m₁ b = m b) (hside : ∀ f ∈ p.head?, linkSide key f.val = f.side) :
    ∃ root' m', rbLink key (some a) (pathPtr p) root m₁ = some (root', m')
      ∧ Rep root' m' (plug p (.node .red .nil ⟨a, key, data⟩ .nil)) := by
  have hfresh := h.fresh ha
  rw [(perm_addrs_plug p _).mem_iff, addrs_nil, List.append_nil] at hfresh
  have hP : m₁.Holds (pathCells p none) := by
    refine holds_pathCells_of_agree (holds_plug.mp h.holds).1 fun b hb => hm₁ b ?_
    rintro rfl
    exact hfresh hb
  have hpn : (pathAddrs p).Nodup := by
    have := nodup_plug.mp h.nodup
    rwa [addrs_nil, List.append_nil] at this
  -- the tree with the leaf, once the link above the place is written
  have hdone : ∀ root' m', root' = ptr (plug p (.node .red .nil ⟨a, key, data⟩ .nil)) →
      m'.Holds (pathCells p (some a)) → (∀ b, pathPtr p ≠ some b → m' b = m₁ b) →
      Rep root' m' (plug p (.node .red .nil ⟨a, key, data⟩ .nil)) := by
    intro root' m' hroot hP' hm'
    refine ⟨hroot, holds_plug.mpr ⟨hP', ?_⟩, ?_, fun b hb => ?_⟩
    · simp [cells, hm' a (pathPtr_ne hfresh), ha₁]
    · rw [nodup_plug, List.nodup_append']
      exact ⟨hpn, by simp [addrs], by simpa [addrs] using hfresh⟩
    · rw [(perm_addrs_plug p _).mem_iff, List.mem_append]
      by_contra hmem
      rw [not_or] at hmem
      have hba : b ≠ a := by
        rintro rfl
        exact hmem.2 (by simp [addrs])
      rw [hm' b (pathPtr_ne hmem.1), hm₁ b hba] at hb
      have := h.dom b hb
      rw [(perm_addrs_plug p _).mem_iff, addrs_nil, List.append_nil] at this
      exact hmem.1 this
  cases p with
  | nil => exact ⟨some a, m₁, by simp [rbLink], hdone _ _ rfl hP fun _ _ => rfl⟩
  | cons f p =>
      obtain ⟨hf, hsib, hp⟩ := holds_pathCells_cons.mp hP
      simp only [nodup_pathAddrs_cons, List.nodup_cons, List.mem_append, not_or] at hpn
      obtain ⟨m₂, e₂, hf₂, hm₂⟩ := Mem.modify_spec hf (RbNode.setChild f.side (some a))
      rw [cellAt_setChild] at hf₂
      refine ⟨root, m₂, ?_, hdone _ _ ?_ ?_ fun b hb => hm₂ b ?_⟩
      · have hs := hside f (by simp)
        rw [← hs] at e₂
        rw [linkSide] at e₂
        split_ifs at e₂ with hk <;> simp [rbLink, Mem.read_eq hf, hk, e₂]
      · rw [h.root_eq]
        exact ptr_plug_congr (by simp) _ _
      · rw [holds_pathCells_cons]
        refine ⟨hf₂, ?_, ?_⟩
        · exact holds_cells_of_agree hsib fun b hb => hm₂ b (by rintro rfl; exact hpn.1.1 hb)
        · exact holds_pathCells_of_agree hp fun b hb => hm₂ b (by rintro rfl; exact hpn.1.2 hb)
      · rintro rfl
        exact hb rfl

/-- **The red-black tree in memory**: linked, balanced, with a black root and ordered keys. -/
structure Valid (root : Ptr) (m : Mem RbNode) (t : ColorTree Entry) : Prop where
  rep : Rep root m t
  balanced : ∃ n, IsRB t n
  black : t.rootColor = .black
  ordered : Ordered t

lemma valid_empty : Valid RbState.empty.root RbState.empty.mem .nil where
  rep := rep_empty
  balanced := ⟨0, by simp⟩
  black := rfl
  ordered := List.Pairwise.nil

/-- In an ordered tree the empty place of a key is on the side the link is written to. -/
lemma linkSide_of_split {key : ℤ} (hb : ∀ x ∈ before p, x.key < key)
    (ha : ∀ x ∈ after p, key < x.key) : ∀ f ∈ p.head?, linkSide key f.val = f.side := by
  intro f hf
  cases p with
  | nil => simp at hf
  | cons g p =>
      obtain rfl : g = f := by simpa using hf
      obtain ⟨s, c, x, u⟩ := g
      cases s with
      | left =>
          have := ha x (by simp [after])
          simp [linkSide, this]
      | right =>
          have := hb x (by simp [before])
          simp [linkSide, this.le]

/-- **`rb_insert` of a new key** adds its entry to the tree, in order. -/
theorem rbInsert_new {t : ColorTree Entry} {key : ℤ} {a : ℕ} (data : ℤ) (junk : RbNode)
    (h : Valid root m t) (hint : ∀ x ∈ visited (searchSide key) t, IsInt32 (x.key - key))
    (hnew : ∀ x ∈ t.inorder, x.key ≠ key) (ha : m a = none) {fuel : ℕ}
    (hfuel : t.size + 1 < fuel) :
    ∃ root' m' u l r, rbInsert fuel key data a junk root m = some (root', m')
      ∧ Valid root' m' u ∧ t.inorder = l ++ r ∧ u.inorder = l ++ ⟨a, key, data⟩ :: r := by
  obtain ⟨p, u, hd, rfl, ⟨rfl, hb, hk⟩ | ⟨c, l, x, r, rfl, hx⟩⟩ := search_split h.ordered hint
  · obtain ⟨k, hk'⟩ := h.balanced
    obtain ⟨n, hn, hfit, -⟩ := hk'.focus h.black
    obtain rfl : n = 0 := isRB_nil.mp hn
    obtain ⟨m₁, e₁, ha₁, hm₁⟩ := rbNewLeaf_spec key data junk
      (pathPtr p) ha
    obtain ⟨root₂, m₂, e₂, h₂⟩ := rbLink_spec h.rep ha ha₁ hm₁ (linkSide_of_split hb hk)
    have hlen := length_add_size_le p (.nil : ColorTree Entry)
    obtain ⟨root', m', v, e, hv, hin, hbal, hblack⟩ := rbInsertRebalance_spec h₂
      (n := 0) (by simp [IsRB]) rfl hfit (by omega : p.length < fuel)
    rw [ptr_node] at e
    have hvin : v.inorder = before p ++ ⟨a, key, data⟩ :: after p := by
      simp [hin, inorder_plug]
    have htin : (plug p (.nil : ColorTree Entry)).inorder = before p ++ after p := by
      simp [inorder_plug]
    refine ⟨root', m', v, before p, after p, ?_, ⟨hv, hbal, hblack, ?_⟩, htin, hvin⟩
    · have haux := rbSearchAuxiliary_spec h.rep (by omega : _ < fuel) hd
      simp [rbInsert, haux, e₁, e₂, e]
    · have hord := h.ordered
      rw [Ordered, htin, List.pairwise_append] at hord
      rw [Ordered, hvin, List.pairwise_append, List.pairwise_cons]
      refine ⟨hord.1, ⟨hk, hord.2.1⟩, fun x hx y hy => ?_⟩
      rcases List.mem_cons.mp hy with rfl | hy
      · exact hb x hx
      · exact hord.2.2 x hx y hy
  · exact absurd hx (hnew x (by simp [inorder_plug]))

/-- `rb_insert` of a key that is there changes nothing. -/
theorem rbInsert_present {t : ColorTree Entry} {key data : ℤ} {a : ℕ} {junk : RbNode}
    (h : Valid root m t) (hint : ∀ x ∈ visited (searchSide key) t, IsInt32 (x.key - key))
    (hold : ∃ x ∈ t.inorder, x.key = key) {fuel : ℕ} (hfuel : t.size < fuel) :
    rbInsert fuel key data a junk root m = some (root, m) := by
  obtain ⟨p, c, l, x, r, hd, rfl, hx⟩ := search_present h.ordered hint hold
  simp [rbInsert, rbSearchAuxiliary_spec h.rep hfuel hd]

end Wgs
