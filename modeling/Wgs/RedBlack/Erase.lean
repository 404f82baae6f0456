import Wgs.RedBlack.EraseFix
import Wgs.RedBlack.Insert

/-!
`rb_erase` takes the node of a key out of the tree.

A node with at most one child is unlinked (`unlink_spec`).  A node with two children gives its
place to its successor, which is unlinked first and then linked in where the node was
(`rbSubstitute_spec`).  Both leave a tree with a place one black node short if the node unlinked
was black, and `rb_erase_rebalance` repairs it: `rbErase_present`.
-/

namespace Wgs

open Foundation ColorTree

variable {m : Mem RbNode} {root : Ptr} {p : List (Frame Entry)}

/-! ### Unlinking -/

/-- **Unlinking a node with at most one child**: the child takes its place.  The cell of the
node itself is left as it is. -/
lemma unlink_spec (root : Ptr) {s : Side} {c : Color} {x : Entry} {v : ColorTree Entry}
    (h : m.Holds (cells (plug p (branch s c x .nil v)) none))
    (hnodup : (addrs (plug p (branch s c x .nil v))).Nodup) :
    ∃ m₁ m₂, reparent (ptr v) (pathPtr p) m = some m₁
      ∧ relink .left (pathPtr p) (some x.addr) (ptr v) root m₁
        = some (if p = [] then ptr v else root, m₂)
      ∧ m₂.Holds (cells (plug p v) none)
      ∧ ∀ a, a ∉ addrs (plug p v) → m₂ a = m a := by
  obtain ⟨hP, hT⟩ := holds_plug.mp h
  obtain ⟨hx, -, hv⟩ := holds_branch.mp hT
  rw [ptr_branch] at hP
  rw [nodup_plug, List.nodup_append', nodup_branch, List.nodup_cons, addrs_nil,
    List.nil_append] at hnodup
  obtain ⟨hpn, ⟨hxv, hvn⟩, hdisj⟩ := hnodup
  have hmem : ∀ a, a ∈ addrs (branch s c x .nil v) ↔ a = x.addr ∨ a ∈ addrs v := by
    intro a
    rw [(perm_addrs_branch s c x _ v).mem_iff]
    simp
  have hxp : x.addr ∉ pathAddrs p := fun hxp => hdisj hxp ((hmem _).mpr (Or.inl rfl))
  have hpv : ∀ a ∈ pathAddrs p, a ∉ addrs v := fun a hap hav =>
    hdisj hap ((hmem a).mpr (Or.inr hav))
  obtain ⟨m₁, e₁, hv₁, f₁⟩ := reparent_spec (pathPtr p) hv hvn
  have hP₁ : m₁.Holds (pathCells p (some x.addr)) :=
    holds_pathCells_of_agree hP fun a ha => f₁ a (ptr_ne (hpv a ha))
  obtain ⟨m₂, e₂, hP₂, f₂⟩ := relink_spec .left (ptr v) root hP₁ hpn hxp
  refine ⟨m₁, m₂, e₁, e₂, holds_plug.mpr ⟨hP₂, ?_⟩, fun a ha => ?_⟩
  · exact holds_cells_of_agree hv₁ fun a ha => f₂ a (pathPtr_ne fun hap => hpv a hap ha)
  · rw [(perm_addrs_plug p v).mem_iff, List.mem_append, not_or] at ha
    rw [f₂ a (pathPtr_ne ha.1), f₁ a (ptr_ne ha.2)]

/-- Releasing a node outside a tree that holds all the other nodes leaves that tree alone. -/
lemma Rep.of_free {t : ColorTree Entry} {a : ℕ} {n : RbNode} (hroot : root = ptr t)
    (ht : m.Holds (cells t none)) (hnodup : (addrs t).Nodup) (ha : a ∉ addrs t) (hm : m a = some n)
    (hdom : ∀ b, m b ≠ none → b = a ∨ b ∈ addrs t) :
    ∃ m', m.free (some a) = some m' ∧ Rep root m' t := by
  refine ⟨_, Mem.free_eq hm, hroot, ?_, hnodup, fun b hb => ?_⟩
  · exact ht.update fun hmem => ha ((map_fst_cells t none).mem_iff.mp hmem)
  · have hba : b ≠ a := by
      rintro rfl
      simp at hb
    rw [Function.update_of_ne hba] at hb
    exact (hdom b hb).resolve_left hba

/-- The branch of `rb_erase` for a node with at most one child, and the release of the node. -/
lemma rbUnlinkOne_spec {s : Side} {c : Color} {x : Entry} {v : ColorTree Entry}
    (h : Rep root m (plug p (branch s c x .nil v))) :
    ∃ root' m₁ m₂, rbUnlinkOne (some x.addr) root m = some (ptr v, pathPtr p, c, root', m₁)
      ∧ m₁.free (some x.addr) = some m₂ ∧ Rep root' m₂ (plug p v) := by
  have hx := h.cell
  obtain ⟨m₁, m₂, e₁, e₂, h₂, f₂⟩ := unlink_spec root h.holds h.nodup
  have hperm : (addrs (plug p (branch s c x .nil v))).Perm (x.addr :: addrs (plug p v)) :=
    (perm_addrs_plug_branch p s c x .nil v).trans ((perm_addrs_plug p v).symm.cons _)
  have hnodup := hperm.nodup_iff.mp h.nodup
  rw [List.nodup_cons] at hnodup
  have hroot : (if p = [] then ptr v else root) = ptr (plug p v) := by
    split
    · next hp => simp [hp]
    · next hp => rw [h.root_eq]; exact ptr_plug_congr hp _ _
  obtain ⟨m₃, e₃, h₃⟩ := Rep.of_free hroot h₂ hnodup.2 hnodup.1
    ((f₂ _ hnodup.1).trans hx) fun b hb => by
      by_contra hmem
      rw [not_or] at hmem
      rw [f₂ b hmem.2] at hb
      exact (List.mem_cons.not.mpr (not_or.mpr hmem)) (hperm.mem_iff.mp (h.dom b hb))
  refine ⟨_, m₂, m₃, ?_, e₃, h₃⟩
  cases s with
  | left => simp [rbUnlinkOne, Mem.read_eq hx, cellAt, e₁, e₂]
  | right =>
      have hif : (if ptr v = none then (none : Ptr) else ptr v) = ptr v := by
        split
        · next hv => exact hv.symm
        · rfl
      simp [rbUnlinkOne, Mem.read_eq hx, cellAt, hif, e₁, e₂]

/-! ### A node with two children -/

/-- `node = node->left` as long as there is one leads to the leftmost node. -/
lemma rbLeftmost_spec {q : List (Frame Entry)} {c : Color} {y : Entry} {u : ColorTree Entry}
    (h : Rep root m (plug p (plug q (.node c .nil y u)))) (hq : ∀ f ∈ q, f.side = .left) {fuel : ℕ}
    (hfuel : q.length < fuel) :
    rbLeftmost fuel (ptr (plug q (.node c .nil y u))) m = some (some y.addr) := by
  induction q using List.reverseRecOn generalizing p fuel with
  | nil =>
      obtain ⟨fuel, rfl⟩ : ∃ f, fuel = f + 1 := ⟨fuel - 1, by omega⟩
      rw [plug_nil, ← branch_left] at h
      simp [rbLeftmost, Mem.read_eq h.cell, cellAt]
  | append_singleton q f ih =>
      obtain ⟨fuel, rfl⟩ : ∃ f, fuel = f + 1 := ⟨fuel - 1, by omega⟩
      obtain ⟨s, d, z, w⟩ := f
      obtain rfl : s = .left := hq ⟨s, d, z, w⟩ (by simp)
      rw [plug_append, plug_cons, plug_nil] at h ⊢
      have hne : ptr (plug q (.node c .nil y u)) ≠ none :=
        fun hnone => plug_ne_nil q (by simp) (ptr_eq_none.mp hnone)
      have hrec := ih h.near (fun g hg => hq g (by simp [hg])) 
        (by simpa using hfuel : q.length < fuel)
      have hcell := h.cell
      rw [cellAt] at hcell
      simp only [ptr_branch, rbLeftmost, Mem.read_eq hcell, Option.bind_eq_bind, Option.bind_some,
        hne, ite_false, hrec]

/-- **Substitution**: a node outside the tree takes the place of `x`. -/
lemma rbSubstitute_spec (root : Ptr) {c : Color} {x y : Entry} {R l : ColorTree Entry} {Y : RbNode}
    (h : m.Holds (cells (plug p (branch .right c x R l)) none))
    (hnodup : (addrs (plug p (branch .right c x R l))).Nodup) (hl : l ≠ .nil)
    (hy : m y.addr = some Y) (hkey : Y.key = y.key) (hdata : Y.data = y.data)
    (hyt : y.addr ∉ addrs (plug p (branch .right c x R l))) :
    ∃ m', rbSubstitute (some x.addr) (some y.addr) root m
        = some (if p = [] then some y.addr else root, m')
      ∧ m'.Holds (cells (plug p (branch .right c y R l)) none)
      ∧ m' x.addr = m x.addr
      ∧ ∀ a, a ≠ y.addr → a ∉ addrs (plug p (branch .right c x R l)) → m' a = m a := by
  obtain ⟨hP, hT⟩ := holds_plug.mp h
  obtain ⟨hx, hR, hL⟩ := holds_branch.mp hT
  rw [ptr_branch] at hP
  have hmem : ∀ a, a ∈ addrs (plug p (branch .right c x R l))
      ↔ a ∈ pathAddrs p ∨ a = x.addr ∨ a ∈ addrs R ∨ a ∈ addrs l := by
    intro a
    rw [(perm_addrs_plug p _).mem_iff, List.mem_append, (perm_addrs_branch _ _ _ _ _).mem_iff]
    simp
  rw [hmem] at hyt
  simp only [not_or] at hyt
  obtain ⟨hyp, hyx, hyR, hyl⟩ := hyt
  rw [nodup_plug, ((perm_addrs_branch .right c x R l).append_left _).nodup_iff] at hnodup
  simp only [List.nodup_append', List.nodup_cons, List.mem_append, not_or,
    List.disjoint_append_right, List.disjoint_cons_right] at hnodup
  obtain ⟨hpn, ⟨⟨hxR, hxl⟩, hRn, hln, hRl⟩, hxp, hpR, hpl⟩ := hnodup
  -- the four assignments to the node
  obtain ⟨m₁, e₁, hy₁, f₁⟩ := Mem.modify_spec hy (RbNode.setParent (pathPtr p))
  obtain ⟨m₂, e₂, hy₂, f₂⟩ := Mem.modify_spec hy₁ (RbNode.setColor c)
  obtain ⟨m₃, e₃, hy₃, f₃⟩ := Mem.modify_spec hy₂ (RbNode.setChild .right (ptr R))
  obtain ⟨m₄, e₄, hy₄, f₄⟩ := Mem.modify_spec hy₃ (RbNode.setChild .left (ptr l))
  have hy₄' : m₄ y.addr = some (cellAt .right c y (ptr R) (ptr l) (pathPtr p)) := by
    rw [hy₄]
    simp [RbNode.setChild, RbNode.setColor, RbNode.setParent, cellAt, hkey, hdata]
  have hframe₄ : ∀ a, a ≠ y.addr → m₄ a = m a := by
    intro a ha
    rw [f₄ a ha, f₃ a ha, f₂ a ha, f₁ a ha]
  -- the link above, and the parent pointers of the two subtrees
  have hP₄ : m₄.Holds (pathCells p (some x.addr)) :=
    holds_pathCells_of_agree hP fun a ha => hframe₄ a (by rintro rfl; exact hyp ha)
  obtain ⟨m₅, e₅, hP₅, f₅⟩ := relink_spec .left (some y.addr) root hP₄ hpn hxp
  have hL₅ : m₅.Holds (cells l (some x.addr)) := by
    refine holds_cells_of_agree hL fun a ha => ?_
    rw [f₅ a (pathPtr_ne fun hap => hpl hap ha), hframe₄ a (by rintro rfl; exact hyl ha)]
  obtain ⟨m₆, e₆, hL₆, f₆⟩ := reparent_spec (some y.addr) hL₅ hln
  have hR₆ : m₆.Holds (cells R (some x.addr)) := by
    refine holds_cells_of_agree hR fun a ha => ?_
    rw [f₆ a (ptr_ne fun hal => hRl ha hal), f₅ a (pathPtr_ne fun hap => hpR hap ha),
      hframe₄ a (by rintro rfl; exact hyR ha)]
  obtain ⟨m₇, e₇, hR₇, f₇⟩ := reparent_spec (some y.addr) hR₆ hRn
  have hframe : ∀ a, a ∉ pathAddrs p → a ∉ addrs R → a ∉ addrs l → m₇ a = m₄ a := by
    intro a hap haR hal
    rw [f₇ a (ptr_ne haR), f₆ a (ptr_ne hal), f₅ a (pathPtr_ne hap)]
  refine ⟨m₇, ?_, ?_, ?_, fun a hay ha => ?_⟩
  · have e₆' : m₅.modify (ptr l) (RbNode.setParent (some y.addr)) = some m₆ := by
      have hlp : ptr l ≠ none := fun hnone => hl (ptr_eq_none.mp hnone)
      rwa [reparent, if_neg hlp] at e₆
    rw [cellAt] at hx
    simp only [rbSubstitute, Mem.load_some, hx, Option.bind_eq_bind, Option.bind_some, e₁, e₂, e₃,
      e₄, e₅, e₆', e₇, Option.pure_def]
  · rw [holds_plug, holds_branch, ptr_branch]
    refine ⟨?_, ?_, hR₇, ?_⟩
    · refine holds_pathCells_of_agree hP₅ fun a ha => ?_
      rw [f₇ a (ptr_ne (hpR ha)), f₆ a (ptr_ne (hpl ha))]
    · rw [hframe _ hyp hyR hyl, hy₄']
    · exact holds_cells_of_agree hL₆ fun a ha => f₇ a (ptr_ne fun haR => hRl haR ha)
  · rw [hframe _ hxp hxR hxl, hframe₄ _ (Ne.symm hyx)]
  · rw [hmem] at ha
    simp only [not_or] at ha
    rw [hframe a ha.1 ha.2.2.1 ha.2.2.2, hframe₄ a hay]

/-- The place the successor `y` of a node was taken from, in the tree where `y` has taken the
place of the node. -/
lemma parent_of_successor {q : List (Frame Entry)} {c : Color} {x y : Entry} {l : ColorTree Entry}
    (hx : x.addr ∉ pathAddrs q) :
    (if pathPtr (q ++ ⟨.right, c, x, l⟩ :: p) = some x.addr then some y.addr
      else pathPtr (q ++ ⟨.right, c, x, l⟩ :: p)) = pathPtr (q ++ ⟨.right, c, y, l⟩ :: p) := by
  cases q with
  | nil => simp
  | cons f q => exact if_neg (pathPtr_ne hx)

/-- The branch of `rb_erase` for a node with two children, and the release of the node. -/
lemma rbUnlinkTwo_spec {c d : Color} {x y : Entry} {l u : ColorTree Entry} {q : List (Frame Entry)}
    (h : Rep root m (plug p (.node c l x (plug q (.node d .nil y u))))) (hl : l ≠ .nil)
    (hq : ∀ f ∈ q, f.side = .left) {fuel : ℕ} (hfuel : q.length < fuel) :
    ∃ root' m₁ m₂, rbUnlinkTwo fuel (some x.addr) root m
        = some (ptr u, pathPtr (q ++ ⟨.right, c, y, l⟩ :: p), d, root', m₁)
      ∧ m₁.free (some x.addr) = some m₂
      ∧ Rep root' m₂ (plug (q ++ ⟨.right, c, y, l⟩ :: p) u) := by
  -- the tree as seen from the successor, with `x` and with `y` above it
  have hold : plug p (.node c l x (plug q (.node d .nil y u)))
      = plug (q ++ ⟨.right, c, x, l⟩ :: p) (branch .left d y .nil u) := by
    rw [plug_append, plug_cons, branch_left, branch_right]
  have hmid : plug (q ++ ⟨.right, c, x, l⟩ :: p) u = plug p (branch .right c x (plug q u) l) := by
    rw [plug_append, plug_cons]
  have hnew : plug (q ++ ⟨.right, c, y, l⟩ :: p) u = plug p (branch .right c y (plug q u) l) := by
    rw [plug_append, plug_cons]
  have hleft := rbLeftmost_spec (p := ⟨.right, c, x, l⟩ :: p) h hq hfuel
  have hx := (branch_right c x (plug q (.node d .nil y u)) l ▸ h).cell (s := .right)
  rw [hold] at h
  have hy := h.cell
  have hperm : (addrs (plug (q ++ ⟨.right, c, x, l⟩ :: p) (branch .left d y .nil u))).Perm
      (y.addr :: addrs (plug (q ++ ⟨.right, c, x, l⟩ :: p) u)) :=
    (perm_addrs_plug_branch _ .left d y .nil u).trans ((perm_addrs_plug _ u).symm.cons _)
  have hnodup := hperm.nodup_iff.mp h.nodup
  rw [List.nodup_cons] at hnodup
  obtain ⟨hyt, hnd⟩ := hnodup
  obtain ⟨m₁, m₂, e₁, e₂, h₂, f₂⟩ := unlink_spec root h.holds h.nodup
  rw [if_neg (by simp)] at e₂
  have hy₂ := (f₂ _ hyt).trans hy
  rw [hmid] at h₂ hyt hnd f₂
  obtain ⟨m₃, e₃, h₃, hx₃, f₃⟩ := rbSubstitute_spec root (y := y) h₂ hnd hl hy₂
    (cellAt_key _ _ _ _ _ _) (cellAt_data _ _ _ _ _ _) hyt
  -- without `x` the nodes are those of the new tree
  have hpermx := perm_addrs_plug_branch p .right c x (plug q u) l
  have hpermy := perm_addrs_plug_branch p .right c y (plug q u) l
  have hndx := hpermx.nodup_iff.mp hnd
  rw [List.nodup_cons] at hndx
  rw [hpermx.mem_iff, List.mem_cons, not_or] at hyt
  have hxy : x.addr ∉ addrs (plug p (branch .right c y (plug q u) l)) := by
    rw [hpermy.mem_iff, List.mem_cons, not_or]
    exact ⟨Ne.symm hyt.1, hndx.1⟩
  have hroot : (if p = [] then some y.addr else root)
      = ptr (plug p (branch .right c y (plug q u) l)) := by
    split
    · next hp => simp [hp]
    · next hp =>
        rw [h.root_eq, plug_append, plug_cons]
        exact ptr_plug_congr hp _ _
  have hx₂ := (holds_branch.mp (holds_plug.mp h₂).2).1
  obtain ⟨m₄, e₄, h₄⟩ := Rep.of_free hroot h₃
    (hpermy.nodup_iff.mpr (List.nodup_cons.mpr ⟨hyt.2, hndx.2⟩)) hxy (hx₃.trans hx₂) fun b hb => by
      by_contra hmem
      rw [hpermy.mem_iff, List.mem_cons, not_or, not_or] at hmem
      have hbx : b ∉ addrs (plug p (branch .right c x (plug q u) l)) := by
        rw [hpermx.mem_iff, List.mem_cons, not_or]
        exact ⟨hmem.1, hmem.2.2⟩
      rw [f₃ b hmem.2.1 hbx, f₂ b hbx] at hb
      have := hperm.mem_iff.mp (h.dom b hb)
      rw [hmid, List.mem_cons] at this
      exact this.elim hmem.2.1 hbx
  refine ⟨_, m₃, m₄, ?_, e₄, hnew ▸ h₄⟩
  have hxq : x.addr ∉ pathAddrs q := by
    intro hmem
    refine hndx.1 (List.mem_append_right _ (List.mem_append_left _ ?_))
    exact (perm_addrs_plug q u).mem_iff.mpr (List.mem_append_left _ hmem)
  have hright : m.read (some x.addr) RbNode.right = some (ptr (plug q (.node d .nil y u))) :=
    Mem.read_eq hx _
  have hchild : m.read (some y.addr) RbNode.right = some (ptr u) := Mem.read_eq hy _
  simp only [rbUnlinkTwo, hright, hchild, Option.bind_eq_bind, Option.bind_some, hleft,
    Mem.read_eq hy, cellAt_parent, cellAt_color, e₁, e₂, Mem.read_eq hy₂, e₃,
    parent_of_successor hxq, Option.pure_def]

/-! ### The operation -/

/-- What is left to do once a node is unlinked and released: nothing if it was red, and the
rebalancing of the short place if it was black. -/
lemma rebalance_unlinked {l : List Entry} {c : Color} {v : ColorTree Entry}
    (h : Rep root m (plug p v)) (hin : (plug p v).inorder = l)
    (hred : c = .red → (∃ k, IsRB (plug p v) k) ∧ (plug p v).rootColor = .black)
    (hblack : c = .black → ∃ k, Short v k ∧ Fits p (k + 1)) {fuel : ℕ}
    (hfuel : p.length + 1 < fuel) :
    ∃ root' m', (if c = .black then rbEraseRebalance fuel (ptr v) (pathPtr p) root m
        else some (root, m)) = some (root', m') ∧ Repaired l root' m' := by
  cases c with
  | red => exact ⟨root, m, rfl, _, h, hin, hred rfl⟩
  | black =>
      obtain ⟨k, hk, hfit⟩ := hblack rfl
      exact rbEraseRebalance_spec (b := p.length + 1)
        ⟨p, v, k, rfl, rfl, h, hin, hk, hfit, Or.inr (by omega)⟩ hfuel

/-- The node is unlinked, with or without a successor, and released; what is left is a tree of
the other entries, short at the place given back if the node unlinked was black. -/
lemma unlink_release {c : Color} {l r : ColorTree Entry} {x : Entry}
    (h : Rep root m (plug p (.node c l x r))) (hbal : ∃ n, IsRB (plug p (.node c l x r)) n)
    (hblack : (plug p (.node c l x r)).rootColor = .black) {fuel : ℕ}
    (hfuel : (plug p (.node c l x r)).size < fuel) :
    ∃ q v d root' m₁ m₂,
      (if ptr l ≠ none ∧ ptr r ≠ none then rbUnlinkTwo fuel (some x.addr) root m
        else rbUnlinkOne (some x.addr) root m) = some (ptr v, pathPtr q, d, root', m₁)
      ∧ m₁.free (some x.addr) = some m₂ ∧ Rep root' m₂ (plug q v)
      ∧ (plug q v).inorder = (before p ++ l.inorder) ++ (r.inorder ++ after p)
      ∧ (d = .red → (∃ k, IsRB (plug q v) k) ∧ (plug q v).rootColor = .black)
      ∧ (d = .black → ∃ k, Short v k ∧ Fits q (k + 1)) := by
  obtain ⟨n, hn⟩ := hbal
  obtain ⟨k, hk, hfit, -⟩ := hn.focus hblack
  rcases eq_or_ne l .nil with rfl | hl
  · -- no left child: the right one takes the place
    obtain ⟨root', m₁, m₂, e₁, e₂, h₂⟩ := rbUnlinkOne_spec (s := .left) h
    obtain ⟨hred, hblk⟩ := hfit.unlink (s := .left) hk
    refine ⟨p, r, c, root', m₁, m₂, ?_, e₂, h₂, ?_, hred, hblk⟩
    · rw [if_neg (by simp), e₁]
    · simp [inorder_plug]
  rcases eq_or_ne r .nil with rfl | hr
  · -- no right child: the left one takes the place
    obtain ⟨root', m₁, m₂, e₁, e₂, h₂⟩ := rbUnlinkOne_spec (s := .right) h
    obtain ⟨hred, hblk⟩ := hfit.unlink (s := .right) hk
    refine ⟨p, l, c, root', m₁, m₂, ?_, e₂, h₂, ?_, hred, hblk⟩
    · rw [if_neg (by simp), e₁]
    · simp [inorder_plug]
  -- two children: the leftmost node of the right subtree is the successor
  obtain ⟨q, d, y, u, rfl, hq⟩ :
      ∃ q d y u, r = plug q (.node d .nil y u) ∧ ∀ f ∈ q, f.side = .left := by
    cases r with
    | nil => exact absurd rfl hr
    | node cr rl xr rr => exact exists_leftmost cr rl xr rr
  have hlen := length_add_size_le (q ++ ⟨.right, c, x, l⟩ :: p) (branch .left d y .nil u)
  have hplug : plug (q ++ ⟨.right, c, x, l⟩ :: p) (branch .left d y .nil u)
      = plug p (.node c l x (plug q (.node d .nil y u))) := by
    rw [plug_append, plug_cons, branch_left, branch_right]
  rw [hplug, List.length_append] at hlen
  obtain ⟨root', m₁, m₂, e₁, e₂, h₂⟩ := rbUnlinkTwo_spec h hl hq (by omega : q.length < fuel)
  obtain ⟨j, hj, hfitq, -⟩ := (hplug ▸ hn).focus (hplug ▸ hblack)
  obtain ⟨hred, hblk⟩ := (fits_append_cons (y := y) hfitq).unlink hj
  refine ⟨q ++ ⟨.right, c, y, l⟩ :: p, u, d, root', m₁, m₂, ?_, e₂, h₂, ?_, hred, hblk⟩
  · have hlp : ptr l ≠ none := fun hnone => hl (ptr_eq_none.mp hnone)
    have hrp : ptr (plug q (.node d .nil y u)) ≠ none := fun hnone => hr (ptr_eq_none.mp hnone)
    rw [if_pos ⟨hlp, hrp⟩, e₁]
  · simp [inorder_plug, before_append, after_append, before, after, before_eq_nil hq]

/-- **`rb_erase` of a key that is there** takes its entry out of the tree and releases its node. -/
theorem rbErase_present {t : ColorTree Entry} {key : ℤ} (h : Valid root m t)
    (hint : ∀ x ∈ visited (searchSide key) t, IsInt32 (x.key - key))
    (hold : ∃ x ∈ t.inorder, x.key = key) {fuel : ℕ} (hfuel : t.size + 1 < fuel) :
    ∃ root' m' u l x r, rbErase fuel key root m = some (root', m') ∧ Valid root' m' u
      ∧ x.key = key ∧ t.inorder = l ++ x :: r ∧ u.inorder = l ++ r := by
  obtain ⟨p, c, l, x, r, hd, rfl, hx⟩ := search_present h.ordered hint hold
  have hin : (plug p (.node c l x r)).inorder
      = (before p ++ l.inorder) ++ x :: (r.inorder ++ after p) := by
    simp [inorder_plug]
  obtain ⟨q, v, d, root₁, m₁, m₂, e₁, e₂, h₂, hvin, hred, hblk⟩ :=
    unlink_release h.rep h.balanced h.black (by omega : _ < fuel)
  have hsize := congrArg List.length hin
  have hsize' := congrArg List.length hvin
  have hlen := length_add_size_le q v
  simp only [List.length_append, List.length_cons] at hsize hsize'
  rw [length_inorder] at hsize hsize'
  obtain ⟨root', m', e', w, hw, hwin, hwbal, hwblack⟩ :=
    rebalance_unlinked h₂ hvin hred hblk (by omega : q.length + 1 < fuel)
  refine ⟨root', m', w, _, x, _, ?_, ⟨hw, hwbal, hwblack, ?_⟩, hx, hin, hwin⟩
  · have haux := rbSearchAuxiliary_spec h.rep (by omega : _ < fuel) hd
    have hcell := (branch_left c x l r ▸ h.rep).cell
    rw [ptr_node] at haux
    simp only [rbErase, haux, Option.bind_eq_bind, Option.bind_some, reduceCtorEq, ite_false,
      Mem.read_eq hcell, cellAt]
    rw [← apply_ite (fun o => Option.bind o _), e₁, Option.bind_some, e₂, Option.bind_some]
    exact e'
  · rw [Ordered, hwin]
    refine List.Pairwise.sublist ?_ h.ordered
    rw [hin]
    exact (List.Sublist.refl _).append (List.sublist_cons_self _ _)

/-- `rb_erase` of a key that is not there changes nothing. -/
theorem rbErase_absent {t : ColorTree Entry} {key : ℤ} (h : Rep root m t) (hkey : IsInt32 key)
    (hint : ∀ x ∈ t.inorder, IsInt32 x.key) (hnew : ∀ x ∈ t.inorder, x.key ≠ key)
    {fuel : ℕ} (hfuel : t.size < fuel) : rbErase fuel key root m = some (root, m) := by
  obtain ⟨p, hd⟩ := search_absent hkey hint hnew
  simp [rbErase, rbSearchAuxiliary_spec h hfuel hd]

end Wgs
