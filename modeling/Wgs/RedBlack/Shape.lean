import Wgs.RedBlack.Program

/-!
The shape of a red-black tree in memory.

A coloured tree of entries, an entry being the address, the key and the data of a node, says
what the memory holds at every node of it: `cells t parent` lists the cells of `t` hung below
`parent`, and `pathCells p q` the cells around the place `p` when the subtree there has the
root pointer `q`.  `Rep root m t` says that the memory is exactly the tree `t`: linked in both
directions, with distinct addresses, and with nothing else allocated.

`relink_spec` and `reparent_spec` are the two edits every operation is made of.
-/

namespace Wgs

open Foundation ColorTree

/-- What a node of the tree is apart from its links and its colour. -/
structure Entry where
  addr : ℕ
  key : ℤ
  data : ℤ

/-- The pointer to the root of a tree. -/
def ptr : ColorTree Entry → Ptr
  | .nil => none
  | .node _ _ x _ => some x.addr

/-- The pointer to the node a place hangs below. -/
def pathPtr : List (Frame Entry) → Ptr
  | [] => none
  | f :: _ => some f.val.addr

/-- The addresses of the nodes of a tree, from left to right. -/
def addrs (t : ColorTree Entry) : List ℕ := t.inorder.map Entry.addr

/-- The addresses of the nodes around a place. -/
def pathAddrs (p : List (Frame Entry)) : List ℕ := (before p ++ after p).map Entry.addr

/-- The cell of a node with the child pointers `near` on the side `s` and `far` on the other. -/
def cellAt (s : Side) (c : Color) (x : Entry) (near far parent : Ptr) : RbNode :=
  match s with
  | .left => ⟨near, far, parent, x.key, x.data, c⟩
  | .right => ⟨far, near, parent, x.key, x.data, c⟩

/-- The cells of a tree hung below `parent`. -/
def cells : ColorTree Entry → Ptr → List (ℕ × RbNode)
  | .nil, _ => []
  | .node c l x r, parent =>
      (x.addr, cellAt .left c x (ptr l) (ptr r) parent)
        :: (cells l (some x.addr) ++ cells r (some x.addr))

/-- The cells around a place whose subtree has the root pointer `q`. -/
def pathCells : List (Frame Entry) → Ptr → List (ℕ × RbNode)
  | [], _ => []
  | f :: p, q =>
      (f.val.addr, cellAt f.side f.color f.val q (ptr f.sibling) (pathPtr p))
        :: (cells f.sibling (some f.val.addr) ++ pathCells p (some f.val.addr))

/-! ### Cells -/

section CellAt

variable (s : Side) (c c' : Color) (x : Entry) (a b q par : Ptr)

@[simp] lemma cellAt_child : (cellAt s c x a b par).child s = a := by cases s <;> rfl

@[simp] lemma cellAt_child_opp : (cellAt s c x a b par).child s.opp = b := by cases s <;> rfl

@[simp] lemma cellAt_setChild :
    (cellAt s c x a b par).setChild s q = cellAt s c x q b par := by cases s <;> rfl

@[simp] lemma cellAt_setChild_opp :
    (cellAt s c x a b par).setChild s.opp q = cellAt s c x a q par := by cases s <;> rfl

@[simp] lemma cellAt_setParent :
    (cellAt s c x a b par).setParent q = cellAt s c x a b q := by cases s <;> rfl

@[simp] lemma cellAt_setColor :
    (cellAt s c x a b par).setColor c' = cellAt s c' x a b par := by cases s <;> rfl

@[simp] lemma cellAt_parent : (cellAt s c x a b par).parent = par := by cases s <;> rfl

@[simp] lemma cellAt_color : (cellAt s c x a b par).color = c := by cases s <;> rfl

@[simp] lemma cellAt_key : (cellAt s c x a b par).key = x.key := by cases s <;> rfl

@[simp] lemma cellAt_data : (cellAt s c x a b par).data = x.data := by cases s <;> rfl

end CellAt

/-! ### Addresses -/

@[simp] lemma ptr_nil : ptr .nil = none := rfl

@[simp] lemma ptr_node (c : Color) (l r : ColorTree Entry) (x : Entry) :
    ptr (.node c l x r) = some x.addr := rfl

@[simp] lemma ptr_branch (s : Side) (c : Color) (x : Entry) (a b : ColorTree Entry) :
    ptr (branch s c x a b) = some x.addr := by cases s <;> rfl

@[simp] lemma pathPtr_nil : pathPtr [] = none := rfl

@[simp] lemma pathPtr_cons (f : Frame Entry) (p : List (Frame Entry)) :
    pathPtr (f :: p) = some f.val.addr := rfl

@[simp] lemma addrs_nil : addrs .nil = [] := rfl

lemma ptr_eq_none {t : ColorTree Entry} : ptr t = none ↔ t = .nil := by
  cases t <;> simp

lemma mem_addrs_of_ptr {t : ColorTree Entry} {a : ℕ} (h : ptr t = some a) : a ∈ addrs t := by
  cases t with
  | nil => simp at h
  | node c l x r =>
      obtain rfl : x.addr = a := by simpa using h
      simp [addrs]

lemma ptr_ne {t : ColorTree Entry} {a : ℕ} (h : a ∉ addrs t) : ptr t ≠ some a :=
  fun heq => h (mem_addrs_of_ptr heq)

lemma perm_addrs_branch (s : Side) (c : Color) (x : Entry) (a b : ColorTree Entry) :
    (addrs (branch s c x a b)).Perm (x.addr :: (addrs a ++ addrs b)) := by
  cases s with
  | left => simp [addrs]
  | right =>
      simp only [addrs, branch_right, inorder_node, List.map_append, List.map_cons]
      exact List.perm_middle.trans (List.Perm.cons _ List.perm_append_comm)

lemma perm_pathAddrs_cons (f : Frame Entry) (p : List (Frame Entry)) :
    (pathAddrs (f :: p)).Perm (f.val.addr :: (addrs f.sibling ++ pathAddrs p)) := by
  obtain ⟨s, c, x, u⟩ := f
  rw [List.perm_iff_count]
  intro a
  cases s <;> simp [pathAddrs, addrs, before, after, List.count_cons] <;> omega

lemma pathPtr_ne {p : List (Frame Entry)} {a : ℕ} (h : a ∉ pathAddrs p) :
    pathPtr p ≠ some a := by
  cases p with
  | nil => simp
  | cons f p =>
      intro heq
      obtain rfl : f.val.addr = a := by simpa using heq
      exact h ((perm_pathAddrs_cons f p).mem_iff.mpr (by simp))

lemma perm_addrs_plug (p : List (Frame Entry)) (t : ColorTree Entry) :
    (addrs (plug p t)).Perm (pathAddrs p ++ addrs t) := by
  rw [List.perm_iff_count]
  intro a
  simp [pathAddrs, addrs, inorder_plug]
  omega

lemma perm_addrs_plug_branch (p : List (Frame Entry)) (s : Side) (c : Color) (x : Entry)
    (a b : ColorTree Entry) : (addrs (plug p (branch s c x a b))).Perm
      (x.addr :: (pathAddrs p ++ (addrs a ++ addrs b))) :=
  (perm_addrs_plug p _).trans
    (((perm_addrs_branch s c x a b).append_left _).trans List.perm_middle)

lemma map_fst_cells (t : ColorTree Entry) (par : Ptr) :
    ((cells t par).map Prod.fst).Perm (addrs t) := by
  induction t generalizing par with
  | nil => simp [cells]
  | node c l x r ihl ihr =>
      refine List.Perm.trans ?_ (perm_addrs_branch .left c x l r).symm
      simp only [cells, List.map_cons, List.map_append]
      exact ((ihl _).append (ihr _)).cons _

lemma map_fst_pathCells (p : List (Frame Entry)) (q : Ptr) :
    ((pathCells p q).map Prod.fst).Perm (pathAddrs p) := by
  induction p generalizing q with
  | nil => simp [pathCells, pathAddrs, before, after]
  | cons f p ih =>
      refine List.Perm.trans ?_ (perm_pathAddrs_cons f p).symm
      simp only [pathCells, List.map_cons, List.map_append]
      exact ((map_fst_cells _ _).append (ih _)).cons _

/-! ### Memories that hold a tree -/

variable {m m' : Mem RbNode}

lemma holds_branch {s : Side} {c : Color} {x : Entry} {a b : ColorTree Entry} {par : Ptr} :
    m.Holds (cells (branch s c x a b) par)
      ↔ m x.addr = some (cellAt s c x (ptr a) (ptr b) par)
        ∧ m.Holds (cells a (some x.addr)) ∧ m.Holds (cells b (some x.addr)) := by
  cases s with
  | left => simp [cells]
  | right =>
      simp only [branch_right, cells, Mem.holds_cons, Mem.holds_append]
      rw [and_comm (a := m.Holds (cells b _))]
      rfl

lemma holds_pathCells_cons {f : Frame Entry} {p : List (Frame Entry)} {q : Ptr} :
    m.Holds (pathCells (f :: p) q)
      ↔ m f.val.addr = some (cellAt f.side f.color f.val q (ptr f.sibling) (pathPtr p))
        ∧ m.Holds (cells f.sibling (some f.val.addr))
        ∧ m.Holds (pathCells p (some f.val.addr)) := by
  simp [pathCells]

/-- A tree in memory is its subtree at a place and the cells around the place. -/
lemma holds_plug {p : List (Frame Entry)} {t : ColorTree Entry} :
    m.Holds (cells (plug p t) none)
      ↔ m.Holds (pathCells p (ptr t)) ∧ m.Holds (cells t (pathPtr p)) := by
  induction p generalizing t with
  | nil => simp [pathCells]
  | cons f p ih =>
      rw [plug_cons, ih, holds_branch, holds_pathCells_cons, ptr_branch, pathPtr_cons]
      tauto

lemma holds_cells_of_agree {t : ColorTree Entry} {par : Ptr} (h : m.Holds (cells t par))
    (hagree : ∀ a ∈ addrs t, m' a = m a) : m'.Holds (cells t par) :=
  h.frame fun a ha => hagree a ((map_fst_cells t par).mem_iff.mp ha)

lemma holds_pathCells_of_agree {p : List (Frame Entry)} {q : Ptr} (h : m.Holds (pathCells p q))
    (hagree : ∀ a ∈ pathAddrs p, m' a = m a) : m'.Holds (pathCells p q) :=
  h.frame fun a ha => hagree a ((map_fst_pathCells p q).mem_iff.mp ha)

/-- **The tree in memory**: the memory holds the tree below the pointer `root`, at distinct
addresses, and nothing else. -/
structure Rep (root : Ptr) (m : Mem RbNode) (t : ColorTree Entry) : Prop where
  root_eq : root = ptr t
  holds : m.Holds (cells t none)
  nodup : (addrs t).Nodup
  dom : ∀ a, m a ≠ none → a ∈ addrs t

lemma rep_empty : Rep RbState.empty.root RbState.empty.mem .nil where
  root_eq := rfl
  holds := by simp [cells]
  nodup := by simp
  dom a h := absurd rfl h

/-- The cell of a node of the tree, at its place. -/
lemma Rep.cell {root : Ptr} {p : List (Frame Entry)} {s : Side} {c : Color} {x : Entry}
    {a b : ColorTree Entry} (h : Rep root m (plug p (branch s c x a b))) :
    m x.addr = some (cellAt s c x (ptr a) (ptr b) (pathPtr p)) :=
  (holds_branch.mp (holds_plug.mp h.holds).2).1

/-- The addresses around a place and of the subtree there are distinct. -/
lemma nodup_plug {p : List (Frame Entry)} {t : ColorTree Entry} :
    (addrs (plug p t)).Nodup ↔ (pathAddrs p ++ addrs t).Nodup :=
  (perm_addrs_plug p t).nodup_iff

lemma nodup_branch {s : Side} {c : Color} {x : Entry} {a b : ColorTree Entry} :
    (addrs (branch s c x a b)).Nodup ↔ (x.addr :: (addrs a ++ addrs b)).Nodup :=
  (perm_addrs_branch s c x a b).nodup_iff

lemma nodup_pathAddrs_cons {f : Frame Entry} {p : List (Frame Entry)} :
    (pathAddrs (f :: p)).Nodup ↔ (f.val.addr :: (addrs f.sibling ++ pathAddrs p)).Nodup :=
  (perm_pathAddrs_cons f p).nodup_iff

/-! ### The two edits -/

/-- Giving the root of a subtree another parent hangs the subtree below it. -/
lemma reparent_spec {t : ColorTree Entry} {par : Ptr} (par' : Ptr) (h : m.Holds (cells t par))
    (hnodup : (addrs t).Nodup) :
    ∃ m', reparent (ptr t) par' m = some m' ∧ m'.Holds (cells t par')
      ∧ ∀ a, ptr t ≠ some a → m' a = m a := by
  cases t with
  | nil => exact ⟨m, by simp [reparent], by simp [cells], fun _ _ => rfl⟩
  | node c l x r =>
      rw [← branch_left] at h hnodup
      obtain ⟨hx, hl, hr⟩ := holds_branch.mp h
      simp only [nodup_branch, List.nodup_cons, List.mem_append, not_or] at hnodup
      refine ⟨Function.update m x.addr (some (cellAt .left c x (ptr l) (ptr r) par')), ?_, ?_, ?_⟩
      · simp [reparent, Mem.modify_eq hx]
      · rw [← branch_left, holds_branch]
        refine ⟨by simp, ?_, ?_⟩
        · exact hl.update fun hmem => hnodup.1.1 ((map_fst_cells l _).mem_iff.mp hmem)
        · exact hr.update fun hmem => hnodup.1.2 ((map_fst_cells r _).mem_iff.mp hmem)
      · intro a ha
        exact Function.update_of_ne (by rintro rfl; exact ha rfl) _ _

/-- Redirecting the link above a place puts another subtree there. -/
lemma relink_spec (test : Side) {p : List (Frame Entry)} {a : ℕ} (new root : Ptr)
    (h : m.Holds (pathCells p (some a))) (hnodup : (pathAddrs p).Nodup)
    (ha : a ∉ pathAddrs p) :
    ∃ m', relink test (pathPtr p) (some a) new root m = some (if p = [] then new else root, m')
      ∧ m'.Holds (pathCells p new) ∧ ∀ b, pathPtr p ≠ some b → m' b = m b := by
  cases p with
  | nil => exact ⟨m, by simp [relink], by simp [pathCells], fun _ _ => rfl⟩
  | cons f p =>
      obtain ⟨hf, hsib, hp⟩ := holds_pathCells_cons.mp h
      rw [(perm_pathAddrs_cons f p).mem_iff] at ha
      simp only [nodup_pathAddrs_cons, List.nodup_cons, List.mem_append, not_or] at hnodup
      simp only [List.mem_cons, List.mem_append, not_or] at ha
      -- the sibling is not the node whose link is redirected, so the test finds the right side
      have hne : ptr f.sibling ≠ some a := ptr_ne ha.2.1
      refine ⟨Function.update m f.val.addr
        (some (cellAt f.side f.color f.val new (ptr f.sibling) (pathPtr p))), ?_, ?_, ?_⟩
      · rcases eq_or_ne test f.side with rfl | hside
        · simp [relink, Mem.read_eq hf, Mem.modify_eq hf]
        · obtain rfl : test = f.side.opp := Side.eq_opp_of_ne hside
          simp [relink, Mem.read_eq hf, Mem.modify_eq hf, hne]
      · rw [holds_pathCells_cons]
        refine ⟨by simp, ?_, ?_⟩
        · exact hsib.update fun hmem => hnodup.1.1 ((map_fst_cells _ _).mem_iff.mp hmem)
        · exact hp.update fun hmem => hnodup.1.2 ((map_fst_pathCells _ _).mem_iff.mp hmem)
      · intro b hb
        exact Function.update_of_ne (by rintro rfl; exact hb rfl) _ _

end Wgs
