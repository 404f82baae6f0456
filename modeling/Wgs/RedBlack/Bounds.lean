import Wgs.RedBlack.Program

/-!
The bound on the iterations of a loop is a bound only.

Every function of the tree that has a result under some bound has the same one under every
larger bound, so a call returns as soon as it has a result (`RbStep.of_exec`).
-/

namespace Wgs

open Foundation

lemma rbSearchLoop_extends (n : ℕ) (key : ℤ) (node parent : Ptr) (m : Mem RbNode) :
    Extends (rbSearchLoop n key node parent m) (rbSearchLoop (n + 1) key node parent m) := by
  induction n generalizing node parent with
  | zero => exact .of_none _
  | succ n ih =>
      rw [rbSearchLoop, rbSearchLoop]
      refine .ite (.refl _) (.bind (.refl _) fun nodeKey => .ite ?_ (.ite ?_ (.refl _)))
      · exact .bind (.refl _) fun left => ih left node
      · exact .bind (.refl _) fun right => ih right node

lemma rbInsertRebalance_extends (n : ℕ) (node root : Ptr) (m : Mem RbNode) :
    Extends (rbInsertRebalance n node root m) (rbInsertRebalance (n + 1) node root m) := by
  induction n generalizing node root m with
  | zero => exact .of_none _
  | succ n ih =>
      rw [rbInsertRebalance, rbInsertRebalance]
      refine .bind (.refl _) fun parent => .bind (.refl _) fun parentBlack => .ite (.refl _) ?_
      refine .bind (.refl _) fun gparent => .bind (.refl _) fun gleft => .ite ?_ ?_
      · exact .bind (.refl _) fun ⟨node, root, m⟩ => ih node root m
      · exact .bind (.refl _) fun ⟨node, root, m⟩ => ih node root m

lemma rbEraseRebalance_extends (n : ℕ) (node parent root : Ptr) (m : Mem RbNode) :
    Extends (rbEraseRebalance n node parent root m)
      (rbEraseRebalance (n + 1) node parent root m) := by
  induction n generalizing node parent root m with
  | zero => exact .of_none _
  | succ n ih =>
      rw [rbEraseRebalance, rbEraseRebalance]
      refine .bind (.refl _) fun nodeBlack => .ite ?_ (.refl _)
      refine .bind (.refl _) fun left => .ite ?_ ?_
      · exact .bind (.refl _) fun ⟨node, parent, root, m, again⟩ =>
          .ite (ih node parent root m) (.refl _)
      · exact .bind (.refl _) fun ⟨node, parent, root, m, again⟩ =>
          .ite (ih node parent root m) (.refl _)

lemma rbLeftmost_extends (n : ℕ) (node : Ptr) (m : Mem RbNode) :
    Extends (rbLeftmost n node m) (rbLeftmost (n + 1) node m) := by
  induction n generalizing node with
  | zero => exact .of_none _
  | succ n ih =>
      rw [rbLeftmost, rbLeftmost]
      exact .bind (.refl _) fun left => .ite (.refl _) (ih left)

lemma rbInsert_extends (n : ℕ) (key data : ℤ) (a : ℕ) (junk : RbNode) (root : Ptr)
    (m : Mem RbNode) :
    Extends (rbInsert n key data a junk root m) (rbInsert (n + 1) key data a junk root m) := by
  rw [rbInsert, rbInsert]
  refine .bind (rbSearchLoop_extends n key root none m) fun ⟨found, parent⟩ => .ite (.refl _) ?_
  refine .bind (.refl _) fun ⟨node, m⟩ => .bind (.refl _) fun ⟨root, m⟩ => ?_
  exact rbInsertRebalance_extends n node root m

lemma rbUnlinkTwo_extends (n : ℕ) (old root : Ptr) (m : Mem RbNode) :
    Extends (rbUnlinkTwo n old root m) (rbUnlinkTwo (n + 1) old root m) := by
  rw [rbUnlinkTwo, rbUnlinkTwo]
  exact .bind (.refl _) fun right => .bind (rbLeftmost_extends n right m) fun node => .refl _

lemma rbErase_extends (n : ℕ) (key : ℤ) (root : Ptr) (m : Mem RbNode) :
    Extends (rbErase n key root m) (rbErase (n + 1) key root m) := by
  rw [rbErase, rbErase]
  refine .bind (rbSearchLoop_extends n key root none m) fun ⟨node, _⟩ => .ite (.refl _) ?_
  refine .bind (.refl _) fun left => .bind (.refl _) fun right => .ite ?_ ?_
  · exact .bind (rbUnlinkTwo_extends n node root m) fun ⟨child, parent, color, root, m⟩ =>
      .bind (.refl _) fun m => .ite (rbEraseRebalance_extends n child parent root m) (.refl _)
  · exact .bind (.refl _) fun ⟨child, parent, color, root, m⟩ =>
      .bind (.refl _) fun m => .ite (rbEraseRebalance_extends n child parent root m) (.refl _)

lemma rbSearch_extends (n : ℕ) (key : ℤ) (root : Ptr) (m : Mem RbNode) :
    Extends (rbSearch n key root m) (rbSearch (n + 1) key root m) :=
  .bind (rbSearchLoop_extends n key root none m) fun _ => .refl _

/-- A call that has a result within some bound on the iterations returns it. -/
lemma RbStep.of_exec {s : RbState} {c : RbCall} {root : Ptr} {m : Mem RbNode} (fuel : ℕ)
    (h : c.exec fuel s = some (root, m)) : RbStep s c ⟨root, m⟩ := by
  refine returns_of_extends (fun n => ?_) h
  cases c with
  | insert key data a junk => exact rbInsert_extends n key data a junk s.root s.mem
  | erase key => exact rbErase_extends n key s.root s.mem

/-- A call has one result. -/
lemma RbStep.unique {s s' s'' : RbState} {c : RbCall} (h : RbStep s c s') (h' : RbStep s c s'') :
    s' = s'' := by
  obtain ⟨hroot, hmem⟩ := Prod.ext_iff.mp (Returns.unique h h')
  cases s'
  cases s''
  simp_all

end Wgs
