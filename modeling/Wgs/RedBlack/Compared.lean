import Wgs.RedBlack.Map

/-!
Runs in which no comparison overflows.

A call compares its key with the keys on the way of its search only, and `ComparesExactly` asks no
more than that their differences are `int`s.  Calls that meet it keep a red-black tree with `int`
keys (`valid_of_compared`), and return (`Valid.returns`).
-/

namespace Wgs

open Foundation ColorTree

/-- The nodes at which `rb_search_auxiliary` computes a difference with `key`. -/
inductive Visits (key : ℤ) (root : Ptr) (m : Mem RbNode) : ℕ → Prop where
  | root {a : ℕ} : root = some a → Visits key root m a
  | left {a b : ℕ} {n : RbNode} : Visits key root m a → m a = some n →
      0 < toInt32 (n.key - key) → n.left = some b → Visits key root m b
  | right {a b : ℕ} {n : RbNode} : Visits key root m a → m a = some n →
      0 > toInt32 (n.key - key) → n.right = some b → Visits key root m b

/-- The key of the call is an `int`, and so is every difference that its search computes. -/
def ComparesExactly (s : RbState) (c : RbCall) : Prop :=
  IsInt32 c.key ∧
    ∀ a n, Visits c.key s.root s.mem a → s.mem a = some n → IsInt32 (n.key - c.key)

/-- A call none of whose differences overflows. -/
def ComparedStep (s : RbState) (c : RbCall) (s' : RbState) : Prop :=
  ComparesExactly s c ∧ RbStep s c s'

variable {root : Ptr} {m : Mem RbNode} {s s' : RbState} {c : RbCall} {t : ColorTree Entry}

/-- The search goes to the node of every entry it asks for the way. -/
lemma Rep.visits {key : ℤ} {p : List (Frame Entry)} (h : Rep root m (plug p t))
    (hroot : ∀ a, ptr t = some a → Visits key root m a) :
    ∀ x ∈ visited (searchSide key) t, Visits key root m x.addr := by
  induction t generalizing p with
  | nil => exact fun x hx => absurd hx List.not_mem_nil
  | node c l y r ihl ihr =>
      intro x hx
      rw [← branch_left] at h
      have hcell := h.cell
      have hy : Visits key root m y.addr := hroot y.addr rfl
      rcases List.mem_cons.mp hx with rfl | hx
      · exact hy
      · rcases lt_trichotomy (toInt32 (y.key - key)) 0 with hlt | heq | hgt
        · have hside : searchSide key y = some .right := by
            simp [searchSide, hlt, not_lt.mpr hlt.le]
          rw [hside] at hx
          exact ihr h.far (fun b hb => .right hy hcell hlt hb) x hx
        · have hside : searchSide key y = none := by simp [searchSide, heq]
          rw [hside] at hx
          exact absurd hx List.not_mem_nil
        · have hside : searchSide key y = some .left := by simp [searchSide, hgt]
          rw [hside] at hx
          exact ihl h.near (fun b hb => .left hy hcell hgt hb) x hx

/-- The nodes at which the search computes a difference are those of the entries it asks. -/
lemma Rep.visited_of_visits {key : ℤ} {a : ℕ} (h : Rep root m t) (ha : Visits key root m a) :
    ∃ x ∈ visited (searchSide key) t, x.addr = a := by
  suffices hplace : ∃ p c l x r, t = plug p (.node c l x r) ∧ x.addr = a
      ∧ visited (searchSide key) (.node c l x r) ⊆ visited (searchSide key) t by
    obtain ⟨p, c, l, x, r, -, hx, hsub⟩ := hplace
    exact ⟨x, hsub List.mem_cons_self, hx⟩
  induction ha with
  | root hroot =>
      rw [h.root_eq] at hroot
      cases t with
      | nil => cases hroot
      | node c l x r => exact ⟨[], c, l, x, r, rfl, Option.some_inj.mp hroot, List.Subset.refl _⟩
  | left _ hn hlt hb ih =>
      obtain ⟨p, c, l, x, r, rfl, rfl, hsub⟩ := ih
      rw [← branch_left] at h
      obtain rfl := Option.some_inj.mp (h.cell.symm.trans hn)
      rw [cellAt_key] at hlt
      cases l with
      | nil => cases hb
      | node d l' y r' =>
          refine ⟨⟨.left, c, x, r⟩ :: p, d, l', y, r', rfl, Option.some_inj.mp hb, ?_⟩
          refine List.Subset.trans ?_ hsub
          have hside : searchSide key x = some .left := searchSide_eq_left.mpr hlt
          rw [visited.eq_def (searchSide key) (.node c _ x r)]
          simp only [hside]
          exact List.subset_cons_self _ _
  | right _ hn hlt hb ih =>
      obtain ⟨p, c, l, x, r, rfl, rfl, hsub⟩ := ih
      rw [← branch_left] at h
      obtain rfl := Option.some_inj.mp (h.cell.symm.trans hn)
      rw [cellAt_key] at hlt
      cases r with
      | nil => cases hb
      | node d l' y r' =>
          refine ⟨⟨.right, c, x, l⟩ :: p, d, l', y, r', rfl, Option.some_inj.mp hb, ?_⟩
          refine List.Subset.trans ?_ hsub
          have hside : searchSide key x = some .right := searchSide_eq_right.mpr hlt
          rw [visited.eq_def (searchSide key) (.node c l x _)]
          simp only [hside]
          exact List.subset_cons_self _ _

lemma ComparesExactly.isInt32_visited (h : ComparesExactly s c) (hrep : Rep s.root s.mem t) :
    ∀ x ∈ visited (searchSide c.key) t, IsInt32 (x.key - c.key) := by
  intro x hx
  obtain ⟨n, hn, hkey, -⟩ := hrep.exists_cell (visited_subset _ _ hx)
  have hvisits := Rep.visits (p := []) hrep (fun a ha => .root (hrep.root_eq.trans ha)) x hx
  exact hkey ▸ h.2 x.addr n hvisits hn

/-- **One call** that returns takes a red-black tree with `int` keys to one. -/
lemma Valid.comparedStep (h : Valid s.root s.mem t) (hint : ∀ x ∈ t.inorder, IsInt32 x.key)
    (hstep : ComparedStep s c s') :
    ∃ u, Valid s'.root s'.mem u ∧ ∀ x ∈ u.inorder, IsInt32 x.key := by
  obtain ⟨hover, hret⟩ := hstep
  have hsub := hover.isInt32_visited h.rep
  cases c with
  | insert key data a junk =>
      by_cases hold : ∃ x ∈ t.inorder, x.key = key
      · have e : rbInsert (t.size + 1) key data a junk s.root s.mem = some (s.root, s.mem) :=
          rbInsert_present h hsub hold (Nat.lt_succ_self _)
        obtain rfl : s' = s := hret.unique (.of_exec _ e)
        exact ⟨t, h, hint⟩
      · have ha := (fresh_of_step h hover.1 hint hret).resolve_right hold
        push Not at hold
        obtain ⟨root', m', u, l, r, e, hv, htin, huin⟩ := rbInsert_new data junk h hsub hold ha
          (Nat.lt_succ_self _)
        obtain rfl : s' = ⟨root', m'⟩ := hret.unique (.of_exec _ e)
        refine ⟨u, hv, fun x hx => ?_⟩
        rw [huin, List.mem_append, List.mem_cons] at hx
        rw [htin] at hint
        rcases hx with hx | rfl | hx
        · exact hint x (List.mem_append_left _ hx)
        · exact hover.1
        · exact hint x (List.mem_append_right _ hx)
  | erase key =>
      by_cases hold : ∃ x ∈ t.inorder, x.key = key
      · obtain ⟨root', m', u, l, x, r, e, hv, -, htin, huin⟩ :=
          rbErase_present h hsub hold (Nat.lt_succ_self _)
        obtain rfl : s' = ⟨root', m'⟩ := hret.unique (.of_exec _ e)
        refine ⟨u, hv, fun y hy => hint y ?_⟩
        rw [huin, List.mem_append] at hy
        rw [htin, List.mem_append, List.mem_cons]
        tauto
      · push Not at hold
        have e := rbErase_absent h.rep hover.1 hint hold (Nat.lt_succ_self _)
        obtain rfl : s' = s := hret.unique (.of_exec _ e)
        exact ⟨t, h, hint⟩

/-- **A run** whose comparisons do not overflow leads to a red-black tree with `int` keys. -/
lemma valid_of_compared {cs : List RbCall} (h : Reaches ComparedStep .empty cs s) :
    ∃ t, Valid s.root s.mem t ∧ ∀ x ∈ t.inorder, IsInt32 x.key := by
  refine h.induct (P := fun _ s => ∃ t, Valid s.root s.mem t ∧ ∀ x ∈ t.inorder, IsInt32 x.key)
    ⟨.nil, valid_empty, by simp⟩ fun cs s c s' _ ih hstep => ?_
  obtain ⟨t, ht, hint⟩ := ih
  exact ht.comparedStep hint hstep

/-- The next call returns. -/
lemma Valid.returns (h : Valid s.root s.mem t) (hint : ∀ x ∈ t.inorder, IsInt32 x.key)
    (hover : ComparesExactly s c) (hfresh : c.Fresh s.mem) : ∃ s', RbStep s c s' := by
  have hsub := hover.isInt32_visited h.rep
  cases c with
  | insert key data a junk =>
      by_cases hold : ∃ x ∈ t.inorder, x.key = key
      · exact ⟨s, .of_exec _ (rbInsert_present h hsub hold (Nat.lt_succ_self _))⟩
      · push Not at hold
        obtain ⟨root', m', -, -, -, e, -⟩ := rbInsert_new data junk h hsub hold hfresh
          (Nat.lt_succ_self _)
        exact ⟨⟨root', m'⟩, .of_exec _ e⟩
  | erase key =>
      by_cases hold : ∃ x ∈ t.inorder, x.key = key
      · obtain ⟨root', m', -, -, -, -, e, -⟩ :=
          rbErase_present h hsub hold (Nat.lt_succ_self _)
        exact ⟨⟨root', m'⟩, .of_exec _ e⟩
      · push Not at hold
        exact ⟨s, .of_exec _ (rbErase_absent h.rep hover.1 hint hold (Nat.lt_succ_self _))⟩

end Wgs
