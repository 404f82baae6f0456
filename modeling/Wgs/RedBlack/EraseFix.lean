import Wgs.RedBlack.Rotate

/-!
`rb_erase_rebalance` restores the red-black invariant.

At the head of the loop the tree is red-black but for one place, whose subtree is one black
node short: `Short t n` says that painting its root black, if it is red, would make it right.
A red root ends the loop; a black one is dealt with by the colours of its sibling and nephews
(`rbEraseSibling_flip`, `rbEraseSibling_far`, `rbEraseSibling_near`, after `rbEraseCase_red` for
a red sibling), and `rbEraseRebalance_spec` is the induction on the path to the root.
-/

namespace Wgs

open Foundation ColorTree

variable {m : Mem RbNode} {root : Ptr} {p : List (Frame Entry)}

/-! ### The loop body -/

/-- Two black nephews: the sibling turns red, and the place moves up. -/
lemma rbEraseSibling_flip {s : Side} {c d : Color} {q o : Entry} {T N F : ColorTree Entry}
    (h : Rep root m (plug p (branch s c q T (branch s d o N F))))
    (hN : N.rootColor = .black) (hF : F.rootColor = .black) :
    ∃ m', rbEraseSibling s (some q.addr) (some o.addr) root m
        = some (some q.addr, pathPtr p, root, m', true)
      ∧ Rep root m' (plug p (branch s c q T (branch s .red o N F))) := by
  have hNr := h.far.near.blackOrNull
  have hFr := h.far.far.blackOrNull
  obtain ⟨m', e, h'⟩ := h.far.paint (branch_ne_nil _ _ _ _ _) .red
  rw [plug_far, paint_branch] at h'
  rw [ptr_branch] at e
  refine ⟨m', ?_, h'⟩
  simp [rbEraseSibling, Mem.read_eq h.far.cell, hNr, hFr, hN, hF, e, Mem.read_eq h'.cell]

/-- A red far nephew: one rotation at the parent. -/
lemma rbEraseSibling_far {s : Side} {c d : Color} {q o : Entry} {T N F : ColorTree Entry}
    (h : Rep root m (plug p (branch s c q T (branch s d o N F)))) (hF : F.rootColor = .red) :
    ∃ root' m', rbEraseSibling s (some q.addr) (some o.addr) root m
        = some (root', some q.addr, root', m', false)
      ∧ Rep root' m' (plug p (branch s c o (branch s .black q T N) (F.paint .black))) := by
  have hNr := h.far.near.blackOrNull
  have hFr := h.far.far.blackOrNull
  have hFnil := ne_nil_of_red hF
  obtain ⟨m₁, e₁, h₁⟩ := h.far.paint (branch_ne_nil _ _ _ _ _) c
  rw [plug_far, paint_branch] at h₁
  obtain ⟨m₂, e₂, h₂⟩ := h₁.paint (branch_ne_nil _ _ _ _ _) .black
  rw [paint_branch] at h₂
  obtain ⟨m₃, e₃, h₃⟩ := h₂.far.far.paint hFnil .black
  rw [plug_far, plug_far] at h₃
  obtain ⟨root₄, m₄, e₄, h₄⟩ := h₃.rotate
  rw [ptr_branch] at e₁ e₂
  refine ⟨root₄, m₄, ?_, h₄⟩
  have hFptr : ptr F ≠ none := fun hnone => hFnil (ptr_eq_none.mp hnone)
  simp [rbEraseSibling, Mem.read_eq h.far.cell, hNr, hFr, hF, Mem.read_eq h.cell, e₁, e₂,
    Mem.read_eq h₂.far.cell, hFptr, e₃, e₄]

/-- A red near nephew and a black far one: a rotation at the sibling, then one at the parent. -/
lemma rbEraseSibling_near {s : Side} {c d : Color} {q o z : Entry} {T B C F : ColorTree Entry}
    (h : Rep root m (plug p (branch s c q T (branch s d o (branch s .red z B C) F))))
    (hF : F.rootColor = .black) :
    ∃ root' m', rbEraseSibling s (some q.addr) (some o.addr) root m
        = some (root', some q.addr, root', m', false)
      ∧ Rep root' m' (plug p (branch s c z (branch s .black q T B) (branch s .black o C F))) := by
  have hNr := h.far.near.blackOrNull
  have hFr := h.far.far.blackOrNull
  obtain ⟨m₁, e₁, h₁⟩ := h.far.near.paint (branch_ne_nil _ _ _ _ _) .black
  rw [plug_near, plug_far, paint_branch] at h₁
  obtain ⟨m₂, e₂, h₂⟩ := h₁.far.paint (branch_ne_nil _ _ _ _ _) .red
  rw [plug_far, paint_branch] at h₂
  obtain ⟨root₃, m₃, e₃, h₃⟩ := h₂.far.rotate_opp
  rw [plug_far] at h₃
  obtain ⟨m₄, e₄, h₄⟩ := h₃.far.paint (branch_ne_nil _ _ _ _ _) c
  rw [plug_far, paint_branch] at h₄
  obtain ⟨m₅, e₅, h₅⟩ := h₄.paint (branch_ne_nil _ _ _ _ _) .black
  rw [paint_branch] at h₅
  obtain ⟨m₆, e₆, h₆⟩ := h₅.far.far.paint (branch_ne_nil _ _ _ _ _) .black
  rw [plug_far, plug_far, paint_branch] at h₆
  obtain ⟨root₇, m₇, e₇, h₇⟩ := h₆.rotate
  rw [ptr_branch] at e₁ e₂ e₄ e₅ e₆
  refine ⟨root₇, m₇, ?_, h₇⟩
  simp only [ptr_branch, rootColor_branch] at hNr
  simp [rbEraseSibling, Mem.read_eq h.far.cell, hNr, hFr, hF, e₁, e₂, e₃, Mem.read_eq h₃.cell,
    e₄, e₅, Mem.read_eq h₅.far.cell, e₆, e₇]

/-- A red sibling is rotated away first, and leaves a red parent with another sibling. -/
lemma rbEraseCase_red {s : Side} {c d : Color} {q o y : Entry} {T A B F : ColorTree Entry}
    (h : Rep root m (plug p (branch s c q T (branch s .red o (branch s d y A B) F)))) :
    ∃ root' m', rbEraseCase s (some q.addr) root m
        = rbEraseSibling s (some q.addr) (some y.addr) root' m'
      ∧ Rep root' m' (plug p (branch s .black o (branch s .red q T (branch s d y A B)) F)) := by
  obtain ⟨m₁, e₁, h₁⟩ := h.far.paint (branch_ne_nil _ _ _ _ _) .black
  rw [plug_far, paint_branch] at h₁
  obtain ⟨m₂, e₂, h₂⟩ := h₁.paint (branch_ne_nil _ _ _ _ _) .red
  rw [paint_branch] at h₂
  obtain ⟨root₃, m₃, e₃, h₃⟩ := h₂.rotate
  rw [ptr_branch] at e₁ e₂
  refine ⟨root₃, m₃, ?_, h₃⟩
  simp [rbEraseCase, Mem.read_eq h.cell, Mem.read_eq h.far.cell, e₁, e₂, e₃,
    Mem.read_eq h₃.near.cell]

/-- A black sibling is dealt with as it stands. -/
lemma rbEraseCase_black {s : Side} {c : Color} {q o : Entry} {T N F : ColorTree Entry}
    (h : Rep root m (plug p (branch s c q T (branch s .black o N F)))) :
    rbEraseCase s (some q.addr) root m = rbEraseSibling s (some q.addr) (some o.addr) root m := by
  simp [rbEraseCase, Mem.read_eq h.cell, Mem.read_eq h.far.cell]

/-! ### The loop -/

/-- The memory is a red-black tree with the entries `l`. -/
def Repaired (l : List Entry) (root : Ptr) (m : Mem RbNode) : Prop :=
  ∃ u, Rep root m u ∧ u.inorder = l ∧ (∃ k, IsRB u k) ∧ u.rootColor = .black

/-- The invariant of the loop: the entries are `l`, the subtree at `node` is short, and unless
its root is red fewer than `b` nodes lie above it. -/
def ShortAt (l : List Entry) (b : ℕ) (node parent root : Ptr) (m : Mem RbNode) : Prop :=
  ∃ p t n, node = ptr t ∧ parent = pathPtr p ∧ Rep root m (plug p t) ∧ (plug p t).inorder = l
    ∧ Short t n ∧ Fits p (n + 1) ∧ (t.rootColor = .red ∨ p.length < b)

/-- What one pass of the loop body leaves behind. -/
def EraseOutcome (l : List Entry) (b : ℕ) : Ptr × Ptr × Ptr × Mem RbNode × Bool → Prop
  | (up, parent, root, m, true) => ShortAt l b up parent root m
  | (up, _, root, m, false) => up = root ∧ Repaired l root m

/-- The body with a black sibling. -/
lemma rbEraseSibling_spec {s : Side} {c : Color} {q o : Entry} {T N F : ColorTree Entry} {n b : ℕ}
    (h : Rep root m (plug p (branch s c q T (branch s .black o N F))))
    (hT : IsRB T n) (hfit : Fits (⟨s, c, q, branch s .black o N F⟩ :: p) (n + 1))
    (hb : c = .red ∨ p.length < b) :
    ∃ r, rbEraseSibling s (some q.addr) (some o.addr) root m = some r
      ∧ EraseOutcome (plug p (branch s c q T (branch s .black o N F))).inorder b r := by
  have hO : IsRB (branch s .black o N F) (n + 1) := by
    cases c
    · exact (fits_red.mp hfit).1.1
    · exact (fits_black.mp hfit).1
  obtain ⟨hN, hF⟩ := isRB_black_succ.mp hO
  cases hFc : F.rootColor with
  | red =>
      obtain ⟨root', m', e, h'⟩ := rbEraseSibling_far h hFc
      obtain ⟨hbal, hblack⟩ := hfit.rebuild (s := s) (y := o)
        (isRB_black_succ.mpr ⟨hT, hN⟩ : IsRB (branch s .black q T N) (n + 1))
        (rootColor_branch _ _ _ _ _) (hF.paint_black_of_red hFc)
        (rootColor_paint _ (ne_nil_of_red hFc))
      refine ⟨_, e, rfl, _, h', inorder_plug_congr p ?_, hbal, hblack⟩
      calc (branch s c o (branch s .black q T N) (F.paint .black)).inorder
          = (branch s c o (branch s .black q T N) F).inorder :=
            inorder_branch_congr _ _ _ _ rfl (inorder_paint _ _)
        _ = (branch s c q T (branch s .black o N F)).inorder :=
            (inorder_rotate _ _ _ _ _ _ _ _ _ _).symm
  | black =>
      cases hNc : N.rootColor with
      | red =>
          obtain ⟨z, B, C, rfl⟩ := eq_branch_of_red s hNc
          obtain ⟨⟨hB, -⟩, hC, -⟩ := isRB_red.mp hN
          obtain ⟨root', m', e, h'⟩ := rbEraseSibling_near h hFc
          obtain ⟨hbal, hblack⟩ := hfit.rebuild (s := s) (y := z)
            (isRB_black_succ.mpr ⟨hT, hB⟩ : IsRB (branch s .black q T B) (n + 1))
            (rootColor_branch _ _ _ _ _)
            (isRB_black_succ.mpr ⟨hC, hF⟩ : IsRB (branch s .black o C F) (n + 1))
            (rootColor_branch _ _ _ _ _)
          refine ⟨_, e, rfl, _, h', inorder_plug_congr p ?_, hbal, hblack⟩
          calc (branch s c z (branch s .black q T B) (branch s .black o C F)).inorder
              = (branch s c q T (branch s .black z B (branch s .black o C F))).inorder :=
                (inorder_rotate _ _ _ _ _ _ _ _ _ _).symm
            _ = (branch s c q T (branch s .black o (branch s .red z B C) F)).inorder :=
                inorder_branch_congr _ _ _ _ rfl (inorder_rotate_opp _ _ _ _ _ _ _ _ _ _).symm
      | black =>
          obtain ⟨m', e, h'⟩ := rbEraseSibling_flip h hNc hFc
          have hin : (plug p (branch s c q T (branch s .red o N F))).inorder
              = (plug p (branch s c q T (branch s .black o N F))).inorder :=
            inorder_plug_congr p (inorder_branch_congr _ _ _ _ rfl
              (inorder_branch_congr _ _ _ _ rfl rfl))
          have hred : IsRB (branch s .red o N F) n := isRB_red.mpr ⟨⟨hN, hNc⟩, hF, hFc⟩
          refine ⟨_, e, p, branch s c q T (branch s .red o N F), ?_⟩
          cases c with
          | red =>
              refine ⟨n, (ptr_branch _ _ _ _ _).symm, rfl, h', hin, Or.inr ⟨?_, ?_⟩, ?_, Or.inl ?_⟩
              · exact rootColor_branch _ _ _ _ _
              · rw [paint_branch]
                exact isRB_black_succ.mpr ⟨hT, hred⟩
              · exact (fits_red.mp hfit).2.2
              · exact rootColor_branch _ _ _ _ _
          | black =>
              refine ⟨n + 1, (ptr_branch _ _ _ _ _).symm, rfl, h', hin, Or.inl ⟨?_, ?_⟩, ?_,
                Or.inr ?_⟩
              · exact rootColor_branch _ _ _ _ _
              · exact isRB_black_succ.mpr ⟨hT, hred⟩
              · exact (fits_black.mp hfit).2
              · exact hb.resolve_left (by simp)

/-- The body: the sibling of a short place is not null, whatever its colour. -/
lemma rbEraseCase_spec {s : Side} {c : Color} {q : Entry} {T O : ColorTree Entry} {n b : ℕ}
    (h : Rep root m (plug p (branch s c q T O))) (hT : IsRB T n)
    (hfit : Fits (⟨s, c, q, O⟩ :: p) (n + 1)) (hb : p.length < b) :
    ∃ r, rbEraseCase s (some q.addr) root m = some r
      ∧ EraseOutcome (plug p (branch s c q T O)).inorder b r := by
  have hO : IsRB O (n + 1) := by
    cases c
    · exact (fits_red.mp hfit).1.1
    · exact (fits_black.mp hfit).1
  obtain ⟨d, o, N, F, rfl⟩ := eq_branch_of_ne_nil s hO.ne_nil
  cases d with
  | black =>
      rw [rbEraseCase_black h]
      exact rbEraseSibling_spec h hT hfit (Or.inr hb)
  | red =>
      -- the parent of a red sibling is black
      obtain rfl : c = .black := by
        cases c
        · simp at hfit
        · rfl
      obtain ⟨⟨hN, hNc⟩, hF, hFc⟩ := isRB_red.mp hO
      obtain ⟨e, y, A, B, rfl⟩ := eq_branch_of_ne_nil s hN.ne_nil
      obtain rfl : e = .black := by simpa using hNc
      obtain ⟨root', m', he, h'⟩ := rbEraseCase_red h
      have hfit' : Fits (⟨s, .red, q, branch s .black y A B⟩ :: ⟨s, .black, o, F⟩ :: p) (n + 1) :=
        fits_red.mpr ⟨⟨hN, hNc⟩, ⟨by simp, rfl⟩, fits_black.mpr ⟨hF, (fits_black.mp hfit).2⟩⟩
      obtain ⟨r, hr, hout⟩ := rbEraseSibling_spec h'.near hT hfit' (b := b) (Or.inl rfl)
      refine ⟨r, he.trans hr, ?_⟩
      have hin : (plug p (branch s .black q T (branch s .red o (branch s .black y A B) F))).inorder
          = (plug (⟨s, .black, o, F⟩ :: p) (branch s .red q T (branch s .black y A B))).inorder :=
        inorder_plug_congr p (inorder_rotate _ _ _ _ _ _ _ _ _ _)
      rw [hin]
      exact hout

/-- The statements after the loop paint a subtree black. -/
lemma finish_spec {t : ColorTree Entry} (h : Rep root m (plug p t)) :
    ∃ m', rbEraseRebalance.finish (ptr t) root m = some (root, m')
      ∧ Rep root m' (plug p (t.paint .black)) := by
  cases t with
  | nil => exact ⟨m, rfl, h⟩
  | node c l x r =>
      obtain ⟨m', e, h'⟩ := h.paint (by simp) .black
      refine ⟨m', ?_, h'⟩
      rw [ptr_node] at e ⊢
      simp [rbEraseRebalance.finish, e]

/-- A short place whose root is red, or which is all of the tree, ends the loop. -/
lemma rbEraseRebalance_stop {t : ColorTree Entry} {parent : Ptr} (h : Rep root m (plug p t))
    (hstop : t.rootColor = .red ∨ p = []) (fuel : ℕ) :
    rbEraseRebalance (fuel + 1) (ptr t) parent root m
      = rbEraseRebalance.finish (ptr t) root m := by
  have hcond : (decide (t.rootColor = .black) = true ∧ ptr t ≠ root) = False := by
    rcases hstop with hred | rfl
    · simp [hred]
    · simp [h.root_eq]
  simp only [rbEraseRebalance, h.blackOrNull, Option.bind_eq_bind, Option.bind_some, hcond,
    ite_false]

lemma Rep.ptr_ne_root {t : ColorTree Entry} (h : Rep root m (plug p t)) (hp : p ≠ []) :
    ptr t ≠ root := by
  rw [h.root_eq]
  have hnodup := nodup_plug.mp h.nodup
  rw [List.nodup_append'] at hnodup
  cases hr : ptr (plug p t) with
  | none =>
      obtain ⟨f, p, rfl⟩ := List.exists_cons_of_ne_nil hp
      exact absurd (ptr_eq_none.mp hr) (plug_ne_nil p (branch_ne_nil _ _ _ _ _))
  | some a => exact fun heq => hnodup.2.2 (mem_pathAddrs_of_root hp hr) (mem_addrs_of_ptr heq)

/-- A short place below a node is dealt with by the half of the loop body for its side. -/
lemma rbEraseRebalance_step {s : Side} {c : Color} {q : Entry} {T O : ColorTree Entry}
    (h : Rep root m (plug p (branch s c q T O))) (hTc : T.rootColor = .black) (hO : O ≠ .nil)
    (fuel : ℕ) :
    rbEraseRebalance (fuel + 1) (ptr T) (some q.addr) root m
      = (rbEraseCase s (some q.addr) root m).bind fun r =>
          if r.2.2.2.2 then rbEraseRebalance fuel r.1 r.2.1 r.2.2.1 r.2.2.2.1
          else rbEraseRebalance.finish r.1 r.2.2.1 r.2.2.2.1 := by
  have hne := h.sibling_ne (Or.inr hO)
  have hroot : ptr T ≠ root := h.near.ptr_ne_root (by simp)
  simp only [rbEraseRebalance, h.near.blackOrNull, hTc, Mem.read_eq h.cell, Option.bind_eq_bind,
    Option.bind_some, decide_true, ne_eq, hroot, not_false_eq_true, and_self, ite_true]
  exact ite_left_eq (fun s => (rbEraseCase s (some q.addr) root m).bind fun r =>
    if r.2.2.2.2 then rbEraseRebalance fuel r.1 r.2.1 r.2.2.1 r.2.2.2.1
    else rbEraseRebalance.finish r.1 r.2.2.1 r.2.2.2.1) s c q (pathPtr p) hne

/-- The last pass: the place that stops the loop is painted black, which repairs the tree. -/
lemma rbEraseRebalance_last {t : ColorTree Entry} {n : ℕ} (h : Rep root m (plug p t))
    (hshort : Short t n) (hfit : Fits p (n + 1)) (hstop : t.rootColor = .red ∨ p = [])
    (fuel : ℕ) :
    ∃ root' m', rbEraseRebalance (fuel + 1) (ptr t) (pathPtr p) root m = some (root', m')
      ∧ Repaired (plug p t).inorder root' m' := by
  obtain ⟨m', e, h'⟩ := finish_spec h
  refine ⟨root, m', (rbEraseRebalance_stop h hstop fuel).trans e, _, h',
    inorder_plug_congr p (inorder_paint _ _), ?_⟩
  rcases hshort with ⟨hc, ht⟩ | ⟨hc, ht⟩
  · obtain rfl : p = [] := hstop.resolve_left (by simp [hc])
    rw [paint_black_eq hc]
    exact ⟨⟨n, ht⟩, hc⟩
  · have hcp := rootColor_paint .black (ne_nil_of_red hc)
    refine ⟨hfit.plug ht (Or.inl hcp), ?_⟩
    rcases eq_or_ne p [] with rfl | hp
    · exact hcp
    · exact hfit.rootColor_plug hp _

/-- **`rb_erase_rebalance`**: from a tree with one short place the loop returns a red-black tree
with the same entries. -/
theorem rbEraseRebalance_spec {l : List Entry} {b : ℕ} {node parent : Ptr}
    (h : ShortAt l b node parent root m) {fuel : ℕ} (hfuel : b < fuel) :
    ∃ root' m', rbEraseRebalance fuel node parent root m = some (root', m')
      ∧ Repaired l root' m' := by
  induction b generalizing node parent root m fuel with
  | zero =>
      obtain ⟨p, t, n, rfl, rfl, hrep, hin, hshort, hfit, hred⟩ := h
      obtain ⟨fuel, rfl⟩ : ∃ f, fuel = f + 1 := ⟨fuel - 1, by omega⟩
      have hred' : t.rootColor = .red := hred.resolve_right (by omega)
      exact hin ▸ rbEraseRebalance_last hrep hshort hfit (Or.inl hred') fuel
  | succ b ih =>
      obtain ⟨p, t, n, rfl, rfl, hrep, hin, hshort, hfit, hred⟩ := h
      obtain ⟨fuel, rfl⟩ : ∃ f, fuel = f + 1 := ⟨fuel - 1, by omega⟩
      by_cases hstop : t.rootColor = .red ∨ p = []
      · exact hin ▸ rbEraseRebalance_last hrep hshort hfit hstop fuel
      rw [not_or] at hstop
      obtain ⟨htc, ht⟩ := hshort.resolve_right fun h => hstop.1 h.1
      obtain ⟨⟨s, c, q, O⟩, p, rfl⟩ := List.exists_cons_of_ne_nil hstop.2
      have hO : O ≠ .nil := by
        cases c
        · exact (fits_red.mp hfit).1.1.ne_nil
        · exact (fits_black.mp hfit).1.ne_nil
      have hlen : p.length < b := by
        have := hred.resolve_left hstop.1
        rw [List.length_cons] at this
        omega
      obtain ⟨⟨up, parent, root', m', again⟩, e, hout⟩ := rbEraseCase_spec hrep ht hfit hlen
      rw [plug_cons] at hin
      rw [hin] at hout
      rw [pathPtr_cons, rbEraseRebalance_step hrep htc hO, e]
      cases again with
      | true => exact ih hout (by omega)
      | false =>
          obtain ⟨rfl, u, hu, huin, hbal, hblack⟩ := hout
          obtain ⟨m₂, e₂, h₂⟩ := finish_spec (p := []) hu
          rw [← hu.root_eq] at e₂
          rw [plug_nil, paint_black_eq hblack] at h₂
          exact ⟨up, m₂, e₂, u, h₂, huin, hbal, hblack⟩

end Wgs
