import Wgs.Foundation.Watched
import Wgs.RedBlack.Compared

/-!
The red-black tree dereferences no null pointer.

`rb_insert_rebalance`, `rb_erase_rebalance` and the rotations go through pointers that they do not
test.  `watchInsertRebalance`, `watchEraseRebalance` and `watchRotate` are these functions with
every pointer they dereference listed under the name it has in the source; they compute the same
(`result_watch`), and list no null pointer unless they are stuck (`safe_watch`).

On the trees that runs without overflow lead to, the next call is not stuck: `rb_no_null`.
-/

namespace Wgs

open Foundation

/-- The variables whose pointers the source dereferences; `right` and `left` are those of the
rotations, `oChild` a child of `other`. -/
inductive RbVar where
  | node
  | parent
  | gparent
  | uncle
  | other
  | oChild
  | right
  | left
  | root
  deriving DecidableEq

/-- What a rotation calls the child that goes up. -/
def RbVar.up : Side → RbVar
  | .left => right
  | .right => left

/-! ### The functions, watched -/

/-- `rbRotate`. -/
def watchRotate (s : Side) (node root : Ptr) (m : Mem RbNode) :
    Watched RbVar (Ptr × Mem RbNode) := do
  let up ← Watched.read .node m node (RbNode.child s.opp)
  let inner ← Watched.read (.up s) m up (RbNode.child s)
  let m ← Watched.modify .node m node (RbNode.setChild s.opp inner)
  let m ← reparent inner node m
  let m ← Watched.modify (.up s) m up (RbNode.setChild s node)
  let parent ← Watched.read .node m node RbNode.parent
  let m ← Watched.modify (.up s) m up (RbNode.setParent parent)
  let (root, m) ← relink .right parent node up root m
  let m ← Watched.modify .node m node (RbNode.setParent up)
  return (root, m)

/-- `rbInsertCase`. -/
def watchInsertCase (s : Side) (node parent gparent root : Ptr) (m : Mem RbNode) :
    Watched RbVar (Ptr × Ptr × Mem RbNode) := do
  let uncle ← Watched.read .gparent m gparent (RbNode.child s.opp)
  let uncleBlack ← blackOrNull uncle m
  if uncleBlack = false then
    let m ← Watched.modify .uncle m uncle (RbNode.setColor .black)
    let m ← Watched.modify .parent m parent (RbNode.setColor .black)
    let m ← Watched.modify .gparent m gparent (RbNode.setColor .red)
    return (gparent, root, m)
  else
    let inner ← Watched.read .parent m parent (RbNode.child s.opp)
    let (node, parent, root, m) ←
      (if inner = node then do
        let (root, m) ← watchRotate s parent root m
        pure (parent, node, root, m)
      else pure (node, parent, root, m))
    let m ← Watched.modify .parent m parent (RbNode.setColor .black)
    let m ← Watched.modify .gparent m gparent (RbNode.setColor .red)
    let (root, m) ← watchRotate s.opp gparent root m
    return (node, root, m)

/-- `rbInsertRebalance`. -/
def watchInsertRebalance : ℕ → Ptr → Ptr → Mem RbNode → Watched RbVar (Ptr × Mem RbNode)
  | 0, _, _, _ => liftM (none : Option (Ptr × Mem RbNode))
  | fuel + 1, node, root, m => do
      let parent ← Watched.read .node m node RbNode.parent
      let parentBlack ← blackOrNull parent m
      if parentBlack then
        let m ← Watched.modify .root m root (RbNode.setColor .black)
        return (root, m)
      else
        let gparent ← Watched.read .parent m parent RbNode.parent
        let gleft ← Watched.read .gparent m gparent RbNode.left
        let (node, root, m) ←
          (if gleft = parent then watchInsertCase .left node parent gparent root m
          else watchInsertCase .right node parent gparent root m)
        watchInsertRebalance fuel node root m

/-- `rbEraseSibling`. -/
def watchEraseSibling (s : Side) (parent other root : Ptr) (m : Mem RbNode) :
    Watched RbVar (Ptr × Ptr × Ptr × Mem RbNode × Bool) := do
  let near ← Watched.read .other m other (RbNode.child s)
  let far ← Watched.read .other m other (RbNode.child s.opp)
  let nearBlack ← blackOrNull near m
  let farBlack ← blackOrNull far m
  if nearBlack ∧ farBlack then
    let m ← Watched.modify .other m other (RbNode.setColor .red)
    let up ← Watched.read .parent m parent RbNode.parent
    return (parent, up, root, m, true)
  else
    let (other, root, m) ←
      (if farBlack then do
        let m ← (if near = none then pure m
          else Watched.modify .oChild m near (RbNode.setColor .black))
        let m ← Watched.modify .other m other (RbNode.setColor .red)
        let (root, m) ← watchRotate s.opp other root m
        let other ← Watched.read .parent m parent (RbNode.child s.opp)
        pure (other, root, m)
      else pure (other, root, m))
    let parentColor ← Watched.read .parent m parent RbNode.color
    let m ← Watched.modify .other m other (RbNode.setColor parentColor)
    let m ← Watched.modify .parent m parent (RbNode.setColor .black)
    let far ← Watched.read .other m other (RbNode.child s.opp)
    let m ← (if far = none then pure m else Watched.modify .oChild m far (RbNode.setColor .black))
    let (root, m) ← watchRotate s parent root m
    return (root, parent, root, m, false)

/-- `rbEraseCase`. -/
def watchEraseCase (s : Side) (parent root : Ptr) (m : Mem RbNode) :
    Watched RbVar (Ptr × Ptr × Ptr × Mem RbNode × Bool) := do
  let other ← Watched.read .parent m parent (RbNode.child s.opp)
  let otherColor ← Watched.read .other m other RbNode.color
  if otherColor = .red then
    let m ← Watched.modify .other m other (RbNode.setColor .black)
    let m ← Watched.modify .parent m parent (RbNode.setColor .red)
    let (root, m) ← watchRotate s parent root m
    let other ← Watched.read .parent m parent (RbNode.child s.opp)
    watchEraseSibling s parent other root m
  else watchEraseSibling s parent other root m

/-- `rbEraseRebalance`. -/
def watchEraseRebalance : ℕ → Ptr → Ptr → Ptr → Mem RbNode → Watched RbVar (Ptr × Mem RbNode)
  | 0, _, _, _, _ => liftM (none : Option (Ptr × Mem RbNode))
  | fuel + 1, node, parent, root, m => do
      let nodeBlack ← blackOrNull node m
      if nodeBlack ∧ node ≠ root then
        let left ← Watched.read .parent m parent RbNode.left
        let (node, parent, root, m, again) ←
          (if left = node then watchEraseCase .left parent root m
          else watchEraseCase .right parent root m)
        if again then watchEraseRebalance fuel node parent root m
        else rbEraseRebalance.finish node root m
      else rbEraseRebalance.finish node root m

/-- `rbInsert`. -/
def watchInsert (fuel : ℕ) (key data : ℤ) (a : ℕ) (junk : RbNode) (root : Ptr) (m : Mem RbNode) :
    Watched RbVar (Ptr × Mem RbNode) := do
  let (found, parent) ← rbSearchAuxiliary fuel key root m
  if found ≠ none then return (root, m)
  else
    let (node, m) ← rbNewLeaf key data a junk parent m
    let (root, m) ← rbLink key node parent root m
    watchInsertRebalance fuel node root m

/-- `rbErase`. -/
def watchErase (fuel : ℕ) (key : ℤ) (root : Ptr) (m : Mem RbNode) :
    Watched RbVar (Ptr × Mem RbNode) := do
  let (node, _) ← rbSearchAuxiliary fuel key root m
  if node = none then return (root, m)
  else
    let left ← Watched.read .node m node RbNode.left
    let right ← Watched.read .node m node RbNode.right
    let (child, parent, color, root, m) ←
      (if left ≠ none ∧ right ≠ none then rbUnlinkTwo fuel node root m
      else rbUnlinkOne node root m)
    let m ← m.free node
    if color = .black then watchEraseRebalance fuel child parent root m
    else return (root, m)

/-- `RbCall.exec`. -/
def RbCall.watch (fuel : ℕ) (s : RbState) : RbCall → Watched RbVar (Ptr × Mem RbNode)
  | insert key data a junk => watchInsert fuel key data a junk s.root s.mem
  | erase key => watchErase fuel key s.root s.mem

/-! ### They compute the same -/

/-- The test that chooses what comes first may be made before all of it. -/
lemma ite_bind {α β : Type} {q : Prop} [Decidable q] (x y : Option α) (f : α → Option β) :
    (if q then x else y).bind f = if q then x.bind f else y.bind f := by
  split <;> rfl

@[simp]
lemma result_watchRotate (s : Side) (node root : Ptr) (m : Mem RbNode) :
    (watchRotate s node root m).result = rbRotate s node root m := by
  simp [watchRotate, rbRotate]

@[simp]
lemma result_watchInsertCase (s : Side) (node parent gparent root : Ptr) (m : Mem RbNode) :
    (watchInsertCase s node parent gparent root m).result
      = rbInsertCase s node parent gparent root m := by
  simp only [watchInsertCase, rbInsertCase, Watched.result_bind, Watched.result_read,
    Watched.result_modify, Watched.result_lift, Watched.result_pure, Watched.result_ite,
    result_watchRotate, ite_bind, Option.bind_assoc, Option.bind_eq_bind, Option.bind_some,
    Option.pure_def]

@[simp]
lemma result_watchInsertRebalance (fuel : ℕ) (node root : Ptr) (m : Mem RbNode) :
    (watchInsertRebalance fuel node root m).result = rbInsertRebalance fuel node root m := by
  induction fuel generalizing node root m with
  | zero => rfl
  | succ fuel ih => simp [watchInsertRebalance, rbInsertRebalance, ih, ite_bind]

@[simp]
lemma result_watchEraseSibling (s : Side) (parent other root : Ptr) (m : Mem RbNode) :
    (watchEraseSibling s parent other root m).result = rbEraseSibling s parent other root m := by
  simp only [watchEraseSibling, rbEraseSibling, Watched.result_bind, Watched.result_read,
    Watched.result_modify, Watched.result_lift, Watched.result_pure, Watched.result_ite,
    result_watchRotate, ite_bind, Option.bind_assoc, Option.bind_eq_bind, Option.bind_some,
    Option.pure_def]

@[simp]
lemma result_watchEraseCase (s : Side) (parent root : Ptr) (m : Mem RbNode) :
    (watchEraseCase s parent root m).result = rbEraseCase s parent root m := by
  simp [watchEraseCase, rbEraseCase]

@[simp]
lemma result_watchEraseRebalance (fuel : ℕ) (node parent root : Ptr) (m : Mem RbNode) :
    (watchEraseRebalance fuel node parent root m).result
      = rbEraseRebalance fuel node parent root m := by
  induction fuel generalizing node parent root m with
  | zero => rfl
  | succ fuel ih => simp [watchEraseRebalance, rbEraseRebalance, ih, ite_bind]

/-- **The watched call is the call.** -/
lemma result_watch (fuel : ℕ) (s : RbState) (c : RbCall) :
    (c.watch fuel s).result = c.exec fuel s := by
  cases c with
  | insert key data a junk => simp [RbCall.watch, RbCall.exec, watchInsert, rbInsert]
  | erase key => simp [RbCall.watch, RbCall.exec, watchErase, rbErase, ite_bind]

/-! ### No null pointer is used -/

section Safe

open Watched

lemma safe_watchRotate (s : Side) (node root : Ptr) (m : Mem RbNode) :
    Safe (watchRotate s node root m) := by
  refine .bind (.read _ _ _ _) fun up => .bind (.read _ _ _ _) fun inner => ?_
  refine .bind (.modify _ _ _ _) fun m => .bind (.lift _) fun m => ?_
  refine .bind (.modify _ _ _ _) fun m => .bind (.read _ _ _ _) fun parent => ?_
  refine .bind (.modify _ _ _ _) fun m => .bind (.lift _) fun ⟨root, m⟩ => ?_
  exact .bind (.modify _ _ _ _) fun m => .pure _

lemma safe_watchInsertCase (s : Side) (node parent gparent root : Ptr) (m : Mem RbNode) :
    Safe (watchInsertCase s node parent gparent root m) := by
  refine .bind (.read _ _ _ _) fun uncle => .bind (.lift _) fun uncleBlack => .ite ?_ ?_
  · refine .bind (.modify _ _ _ _) fun m => .bind (.modify _ _ _ _) fun m => ?_
    exact .bind (.modify _ _ _ _) fun m => .pure _
  · refine .bind (.read _ _ _ _) fun inner => .bind (.ite ?_ (.pure _)) ?_
    · exact .bind (safe_watchRotate _ _ _ _) fun ⟨root, m⟩ => .pure _
    · rintro ⟨node, parent, root, m⟩
      refine .bind (.modify _ _ _ _) fun m => .bind (.modify _ _ _ _) fun m => ?_
      exact .bind (safe_watchRotate _ _ _ _) fun ⟨root, m⟩ => .pure _

lemma safe_watchInsertRebalance (fuel : ℕ) (node root : Ptr) (m : Mem RbNode) :
    Safe (watchInsertRebalance fuel node root m) := by
  induction fuel generalizing node root m with
  | zero => exact .lift _
  | succ fuel ih =>
      refine .bind (.read _ _ _ _) fun parent => .bind (.lift _) fun parentBlack => .ite ?_ ?_
      · exact .bind (.modify _ _ _ _) fun m => .pure _
      · refine .bind (.read _ _ _ _) fun gparent => .bind (.read _ _ _ _) fun gleft => ?_
        refine .bind (.ite ?_ ?_) fun ⟨node, root, m⟩ => ih node root m
        · exact safe_watchInsertCase _ _ _ _ _ _
        · exact safe_watchInsertCase _ _ _ _ _ _

lemma safe_watchEraseSibling (s : Side) (parent other root : Ptr) (m : Mem RbNode) :
    Safe (watchEraseSibling s parent other root m) := by
  refine .bind (.read _ _ _ _) fun near => .bind (.read _ _ _ _) fun far => ?_
  refine .bind (.lift _) fun nearBlack => .bind (.lift _) fun farBlack => .ite ?_ ?_
  · exact .bind (.modify _ _ _ _) fun m => .bind (.read _ _ _ _) fun up => .pure _
  · refine .bind (.ite ?_ (.pure _)) ?_
    · refine .bind (.ite (.pure _) (.modify _ _ _ _)) fun m => .bind (.modify _ _ _ _) fun m => ?_
      refine .bind (safe_watchRotate _ _ _ _) fun ⟨root, m⟩ => ?_
      exact .bind (.read _ _ _ _) fun other => .pure _
    · rintro ⟨other, root, m⟩
      refine .bind (.read _ _ _ _) fun parentColor => .bind (.modify _ _ _ _) fun m => ?_
      refine .bind (.modify _ _ _ _) fun m => .bind (.read _ _ _ _) fun far => ?_
      refine .bind (.ite (.pure _) (.modify _ _ _ _)) fun m => ?_
      exact .bind (safe_watchRotate _ _ _ _) fun ⟨root, m⟩ => .pure _

lemma safe_watchEraseCase (s : Side) (parent root : Ptr) (m : Mem RbNode) :
    Safe (watchEraseCase s parent root m) := by
  refine .bind (.read _ _ _ _) fun other => .bind (.read _ _ _ _) fun otherColor => .ite ?_ ?_
  · refine .bind (.modify _ _ _ _) fun m => .bind (.modify _ _ _ _) fun m => ?_
    refine .bind (safe_watchRotate _ _ _ _) fun ⟨root, m⟩ => .bind (.read _ _ _ _) fun other => ?_
    exact safe_watchEraseSibling _ _ _ _ _
  · exact safe_watchEraseSibling _ _ _ _ _

lemma safe_watchEraseRebalance (fuel : ℕ) (node parent root : Ptr) (m : Mem RbNode) :
    Safe (watchEraseRebalance fuel node parent root m) := by
  induction fuel generalizing node parent root m with
  | zero => exact .lift _
  | succ fuel ih =>
      refine .bind (.lift _) fun nodeBlack => .ite ?_ (.lift _)
      refine .bind (.read _ _ _ _) fun left => .bind (.ite ?_ ?_) ?_
      · exact safe_watchEraseCase _ _ _ _
      · exact safe_watchEraseCase _ _ _ _
      · rintro ⟨node, parent, root, m, again⟩
        exact .ite (ih node parent root m) (.lift _)

/-- A call that is not stuck has used no null pointer. -/
lemma safe_watch (fuel : ℕ) (s : RbState) (c : RbCall) : Safe (c.watch fuel s) := by
  cases c with
  | insert key data a junk =>
      refine .bind (.lift _) fun ⟨found, parent⟩ => .ite (.pure _) ?_
      refine .bind (.lift _) fun ⟨node, m⟩ => .bind (.lift _) fun ⟨root, m⟩ => ?_
      exact safe_watchInsertRebalance _ _ _ _
  | erase key =>
      refine .bind (.lift _) fun ⟨node, _⟩ => .ite (.pure _) ?_
      refine .bind (.read _ _ _ _) fun left => .bind (.read _ _ _ _) fun right => ?_
      refine .bind (.ite (.lift _) (.lift _)) ?_
      rintro ⟨child, parent, color, root, m⟩
      exact .bind (.lift _) fun m => .ite (safe_watchEraseRebalance _ _ _ _ _) (.pure _)

end Safe

/-! ### Runs without overflow -/

/-- The key of the call is an `int`, and so is its difference to every key in the tree. -/
def NoOverflow (s : RbState) (c : RbCall) : Prop :=
  IsInt32 c.key ∧ ∀ a n, s.mem a = some n → IsInt32 (n.key - c.key)

/-- A call whose differences do not overflow. -/
def ExactStep (s : RbState) (c : RbCall) (s' : RbState) : Prop := NoOverflow s c ∧ RbStep s c s'

section Runs

variable {s s' : RbState} {c : RbCall} {t : ColorTree Entry}

lemma NoOverflow.comparesExactly (h : NoOverflow s c) : ComparesExactly s c :=
  ⟨h.1, fun a n _ hn => h.2 a n hn⟩

/-- A call of a compatible sequence does not overflow. -/
lemma Holding.noOverflow {cs : List RbCall} (h : Holding cs s t) (hc : Compatible (cs ++ [c])) :
    NoOverflow s c := by
  refine ⟨(hc c (by simp)).1, fun a n hn => ?_⟩
  obtain ⟨x, hx, rfl⟩ := List.mem_map.mp (h.valid.rep.dom a (hn ▸ Option.some_ne_none n))
  obtain ⟨k, hk, hkey, -⟩ := h.valid.rep.exists_cell hx
  rw [hk, Option.some.injEq] at hn
  rw [← hn, hkey]
  exact h.isInt32_sub hc x hx

/-- A run of a compatible sequence does not overflow. -/
lemma Compatible.reaches {cs : List RbCall} (hc : Compatible cs) (h : Reaches RbStep .empty cs s) :
    Reaches ExactStep .empty cs s := by
  refine h.induct (P := fun cs s => Compatible cs → Reaches ExactStep .empty cs s)
    (fun _ => .start) (fun cs s c s' hrun ih hstep hc => ?_) hc
  obtain ⟨t, ht⟩ := run_simulates hc.of_snoc hrun
  exact .step (ih hc.of_snoc) ⟨ht.noOverflow hc, hstep⟩

/-- A run without overflow is one whose comparisons do not overflow. -/
lemma compared_of_exact {cs : List RbCall} (h : Reaches ExactStep .empty cs s) :
    Reaches ComparedStep .empty cs s := by
  refine h.induct (P := fun cs s => Reaches ComparedStep .empty cs s) .start ?_
  exact fun cs s c s' _ ih hstep => .step ih ⟨hstep.1.comparesExactly, hstep.2⟩

end Runs

/-- **No null pointer is dereferenced.**  On every tree that calls without overflow lead to, the
next one returns: with enough iterations both rebalancing loops end, and from then on none of the
pointers that the call goes through is null. -/
theorem rb_no_null {cs : List RbCall} {c : RbCall} {s : RbState}
    (h : Reaches ExactStep .empty cs s) (hover : NoOverflow s c) (hfresh : c.Fresh s.mem) :
    ∃ s', RbStep s c s' ∧ ∃ N, ∀ fuel, N ≤ fuel →
      (c.watch fuel s).result = some (s'.root, s'.mem)
        ∧ ∀ u ∈ (c.watch fuel s).uses, u.2 ≠ none := by
  obtain ⟨t, ht, hint⟩ := valid_of_compared (compared_of_exact h)
  obtain ⟨s', hstep⟩ := ht.returns hint hover.comparesExactly hfresh
  obtain ⟨N, hN⟩ := hstep
  refine ⟨s', ⟨N, hN⟩, N, fun fuel hfuel => ?_⟩
  have hresult : (c.watch fuel s).result = some (s'.root, s'.mem) :=
    (result_watch fuel s c).trans (hN fuel hfuel)
  exact ⟨hresult, safe_watch fuel s c (hresult ▸ Option.some_ne_none _)⟩

/-- Four insertions, after which erasing the key 1 unbalances the tree: its sibling has one red
child. -/
theorem rb_no_null_erase :
    ∃ s : RbState, Reaches ExactStep .empty [.insert 1 10 0 rbJunk, .insert 2 20 1 rbJunk,
        .insert 3 30 2 rbJunk, .insert 4 40 3 rbJunk] s
      ∧ ∃ s', RbStep s (.erase 1) s' ∧ ∃ N, ∀ fuel, N ≤ fuel →
        ((RbCall.erase 1).watch fuel s).result = some (s'.root, s'.mem)
          ∧ ∀ u ∈ ((RbCall.erase 1).watch fuel s).uses, u.2 ≠ none := by
  have hc : Compatible ([.insert 1 10 0 rbJunk, .insert 2 20 1 rbJunk, .insert 3 30 2 rbJunk,
      .insert 4 40 3 rbJunk] ++ [.erase 1]) := by
    simp [Compatible, RbCall.key, IsInt32]
  obtain ⟨s, h⟩ : ∃ s, Reaches RbStep .empty [.insert 1 10 0 rbJunk, .insert 2 20 1 rbJunk,
      .insert 3 30 2 rbJunk, .insert 4 40 3 rbJunk] s :=
    ⟨_, .step (.step (.step (.step .start (.of_exec 4 rfl)) (.of_exec 4 rfl)) (.of_exec 4 rfl))
      (.of_exec 4 rfl)⟩
  obtain ⟨t, ht⟩ := run_simulates hc.of_snoc h
  exact ⟨s, hc.of_snoc.reaches h, rb_no_null (hc.of_snoc.reaches h) (ht.noOverflow hc) trivial⟩

end Wgs
