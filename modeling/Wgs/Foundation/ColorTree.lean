import Mathlib.Tactic
import Mathlib.Analysis.SpecialFunctions.Log.Base

/-!
Red-black trees and their contexts.

Everything that a left-right symmetric algorithm does is stated once for a side `s` of the
tree: `branch s c x a b` is the node whose subtree on the side `s` is `a` and whose other
subtree is `b`.  A place in a tree is a path of frames, innermost first, and `plug` puts a
subtree back into its place.

* `inorder_plug`: the in-order sequence of a tree seen from a place, `before`, the subtree,
  `after`; `inorder_rotate`: a rotation keeps it.
* `IsRB t n`: no red node has a red child and every path to a leaf carries `n` black nodes;
  `Fits p n`: the place expects such a subtree, and `Fits.plug` and `IsRB.focus` put a tree
  together and take it apart.
* `Short`: a subtree one black node short, which taking out a black node leaves (`Fits.unlink`).
* `descend`: the way a search takes, and the place it ends at (`descend_split`); `visited`: the
  entries it passes.
* `height_le_two_mul_logb`: a red-black tree of `k` nodes with a black root has height at most
  `2·log₂(k+1)`.
-/

namespace Foundation

/-! ### Sides and colours -/

/-- The two sides of a node. -/
inductive Side where
  | left
  | right
  deriving DecidableEq, Repr

/-- The other side. -/
def Side.opp : Side → Side
  | .left => .right
  | .right => .left

@[simp] lemma Side.opp_opp (s : Side) : s.opp.opp = s := by cases s <;> rfl

lemma Side.eq_opp_of_ne {s t : Side} (h : s ≠ t) : s = t.opp := by
  revert h
  cases s <;> cases t <;> simp [Side.opp]

@[simp] lemma Side.opp_left : Side.left.opp = .right := rfl

@[simp] lemma Side.opp_right : Side.right.opp = .left := rfl

/-- The colour of a node. -/
inductive Color where
  | red
  | black
  deriving DecidableEq, Repr

/-- Binary trees with a colour and an entry at every node. -/
inductive ColorTree (α : Type*) where
  | nil : ColorTree α
  | node : Color → ColorTree α → α → ColorTree α → ColorTree α

namespace ColorTree

variable {α β : Type*}

/-- The node whose subtree on the side `s` is `near`, and whose other subtree is `far`. -/
def branch (s : Side) (c : Color) (x : α) (near far : ColorTree α) : ColorTree α :=
  match s with
  | .left => node c near x far
  | .right => node c far x near

@[simp] lemma branch_left (c : Color) (x : α) (a b : ColorTree α) :
    branch .left c x a b = node c a x b := rfl

@[simp] lemma branch_right (c : Color) (x : α) (a b : ColorTree α) :
    branch .right c x a b = node c b x a := rfl

lemma branch_opp (s : Side) (c : Color) (x : α) (a b : ColorTree α) :
    branch s.opp c x a b = branch s c x b a := by cases s <;> rfl

/-- The entries from left to right. -/
def inorder : ColorTree α → List α
  | nil => []
  | node _ l x r => l.inorder ++ x :: r.inorder

/-- The number of nodes. -/
def size : ColorTree α → ℕ
  | nil => 0
  | node _ l _ r => l.size + r.size + 1

/-- The number of nodes on a longest path down. -/
def height : ColorTree α → ℕ
  | nil => 0
  | node _ l _ r => max l.height r.height + 1

/-- The colour of the root; an empty tree counts as black. -/
def rootColor : ColorTree α → Color
  | nil => .black
  | node c _ _ _ => c

/-- The same tree with the root coloured `c`. -/
def paint (c : Color) : ColorTree α → ColorTree α
  | nil => nil
  | node _ l x r => node c l x r

@[simp] lemma rootColor_nil : (nil : ColorTree α).rootColor = .black := rfl

@[simp] lemma rootColor_node (c : Color) (l r : ColorTree α) (x : α) :
    (node c l x r).rootColor = c := rfl

@[simp] lemma rootColor_branch (s : Side) (c : Color) (x : α) (a b : ColorTree α) :
    (branch s c x a b).rootColor = c := by cases s <;> rfl

@[simp] lemma paint_node (c c' : Color) (l r : ColorTree α) (x : α) :
    (node c' l x r).paint c = node c l x r := rfl

@[simp] lemma paint_branch (s : Side) (c c' : Color) (x : α) (a b : ColorTree α) :
    (branch s c' x a b).paint c = branch s c x a b := by cases s <;> rfl

@[simp] lemma rootColor_paint {t : ColorTree α} (c : Color) (ht : t ≠ nil) :
    (t.paint c).rootColor = c := by
  cases t with
  | nil => exact absurd rfl ht
  | node c' l x r => rfl

lemma ne_nil_of_red {t : ColorTree α} (h : t.rootColor = .red) : t ≠ nil := by
  rintro rfl
  simp at h

lemma branch_ne_nil (s : Side) (c : Color) (x : α) (a b : ColorTree α) :
    branch s c x a b ≠ nil := by cases s <;> simp [branch]

@[simp] lemma inorder_nil : (nil : ColorTree α).inorder = [] := rfl

@[simp] lemma inorder_node (c : Color) (l r : ColorTree α) (x : α) :
    (node c l x r).inorder = l.inorder ++ x :: r.inorder := rfl

@[simp] lemma inorder_paint (c : Color) (t : ColorTree α) :
    (t.paint c).inorder = t.inorder := by cases t <;> rfl

lemma size_branch (s : Side) (c : Color) (x : α) (a b : ColorTree α) :
    (branch s c x a b).size = a.size + b.size + 1 := by
  cases s with
  | left => rfl
  | right => rw [branch_right, size, Nat.add_comm b.size]

lemma inorder_branch_congr (s : Side) (c c' : Color) (x : α) {a a' b b' : ColorTree α}
    (ha : a.inorder = a'.inorder) (hb : b.inorder = b'.inorder) :
    (branch s c x a b).inorder = (branch s c' x a' b').inorder := by
  cases s <;> simp [ha, hb]

/-- A rotation towards the side `s` keeps the in-order sequence. -/
lemma inorder_rotate (s : Side) (c c' d d' : Color) (x y : α) (a b e : ColorTree α) :
    (branch s c x a (branch s d y b e)).inorder
      = (branch s d' y (branch s c' x a b) e).inorder := by
  cases s <;> simp

/-- The rotation the other way. -/
lemma inorder_rotate_opp (s : Side) (c c' d d' : Color) (x y : α) (a b e : ColorTree α) :
    (branch s c x (branch s d y a b) e).inorder
      = (branch s d' y a (branch s c' x b e)).inorder := by
  cases s <;> simp

/-- A tree is empty or a branch towards any given side. -/
lemma eq_branch_of_ne_nil (s : Side) {t : ColorTree α} (h : t ≠ nil) :
    ∃ c x a b, t = branch s c x a b := by
  cases t with
  | nil => exact absurd rfl h
  | node c l x r =>
      cases s with
      | left => exact ⟨c, x, l, r, rfl⟩
      | right => exact ⟨c, x, r, l, rfl⟩

/-- A red tree is a branch towards any given side. -/
lemma eq_branch_of_red (s : Side) {t : ColorTree α} (h : t.rootColor = .red) :
    ∃ x a b, t = branch s .red x a b := by
  obtain ⟨c, x, a, b, rfl⟩ := eq_branch_of_ne_nil s (ne_nil_of_red h)
  rw [rootColor_branch] at h
  exact ⟨x, a, b, by rw [h]⟩

lemma length_inorder (t : ColorTree α) : t.inorder.length = t.size := by
  induction t with
  | nil => rfl
  | node c l x r ihl ihr =>
      simp only [inorder_node, List.length_append, List.length_cons, ihl, ihr, size]
      omega

/-- A tree with one entry is a leaf. -/
lemma eq_leaf_of_inorder {t : ColorTree α} {x : α} (h : t.inorder = [x]) :
    ∃ c, t = node c nil x nil := by
  have hnil : ∀ {u : ColorTree α}, u.inorder = [] → u = nil := by
    intro u hu
    cases u with
    | nil => rfl
    | node c l y r => simp at hu
  cases t with
  | nil => simp at h
  | node c l y r =>
      rw [inorder_node, List.append_eq_singleton_iff] at h
      rcases h with ⟨hl, hr⟩ | ⟨-, hr⟩
      · obtain ⟨rfl, hr'⟩ := List.cons_eq_cons.mp hr
        exact ⟨c, by rw [hnil hl, hnil hr']⟩
      · simp at hr

/-! ### Places in a tree -/

/-- One step of a path: a node with its subtree on the side `side` taken out. -/
structure Frame (α : Type*) where
  side : Side
  color : Color
  val : α
  sibling : ColorTree α

/-- The node of a frame, with a subtree put back. -/
def Frame.fill (f : Frame α) (t : ColorTree α) : ColorTree α :=
  branch f.side f.color f.val t f.sibling

/-- The tree whose subtree at the place `p` is `t`; the innermost frame comes first. -/
def plug : List (Frame α) → ColorTree α → ColorTree α
  | [], t => t
  | f :: p, t => plug p (f.fill t)

@[simp] lemma plug_nil (t : ColorTree α) : plug [] t = t := rfl

lemma plug_cons (f : Frame α) (p : List (Frame α)) (t : ColorTree α) :
    plug (f :: p) t = plug p (branch f.side f.color f.val t f.sibling) := rfl

lemma plug_ne_nil (p : List (Frame α)) {t : ColorTree α} (ht : t ≠ nil) : plug p t ≠ nil := by
  induction p generalizing t with
  | nil => exact ht
  | cons f p ih => exact ih (branch_ne_nil _ _ _ _ _)

lemma plug_append (p q : List (Frame α)) (t : ColorTree α) :
    plug (p ++ q) t = plug q (plug p t) := by
  induction p generalizing t with
  | nil => rfl
  | cons f p ih => exact ih (f.fill t)

/-- The entries to the left of a place. -/
def before : List (Frame α) → List α
  | [] => []
  | ⟨.left, _, _, _⟩ :: p => before p
  | ⟨.right, _, x, t⟩ :: p => before p ++ (t.inorder ++ [x])

/-- The entries to the right of a place. -/
def after : List (Frame α) → List α
  | [] => []
  | ⟨.left, _, x, t⟩ :: p => x :: (t.inorder ++ after p)
  | ⟨.right, _, _, _⟩ :: p => after p

/-- The in-order sequence of a tree, seen from a place. -/
lemma inorder_plug (p : List (Frame α)) (t : ColorTree α) :
    (plug p t).inorder = before p ++ t.inorder ++ after p := by
  induction p generalizing t with
  | nil => simp [before, after]
  | cons f p ih =>
      obtain ⟨s, c, x, u⟩ := f
      rw [plug_cons, ih]
      cases s <;> simp [before, after]

lemma before_append (p q : List (Frame α)) : before (p ++ q) = before q ++ before p := by
  induction p with
  | nil => simp [before]
  | cons f p ih =>
      obtain ⟨s, c, x, u⟩ := f
      cases s <;> simp [before, ih]

lemma after_append (p q : List (Frame α)) : after (p ++ q) = after p ++ after q := by
  induction p with
  | nil => simp [after]
  | cons f p ih =>
      obtain ⟨s, c, x, u⟩ := f
      cases s <;> simp [after, ih]

/-- A path is no longer than the tree has nodes. -/
lemma length_add_size_le (p : List (Frame α)) (t : ColorTree α) :
    p.length + t.size ≤ (plug p t).size := by
  induction p generalizing t with
  | nil => simp
  | cons f p ih =>
      have h := ih (f.fill t)
      have hfill : t.size + 1 ≤ (f.fill t).size := by
        obtain ⟨s, c, x, u⟩ := f
        cases s <;> simp only [Frame.fill, branch, size] <;> omega
      rw [List.length_cons, plug]
      omega

/-- Trees with one in-order sequence keep it under every context. -/
lemma inorder_plug_congr (p : List (Frame α)) {t u : ColorTree α} (h : t.inorder = u.inorder) :
    (plug p t).inorder = (plug p u).inorder := by
  rw [inorder_plug, inorder_plug, h]

/-- Every entry is at a place. -/
lemma exists_place (s : Side) {x : α} {t : ColorTree α} (hx : x ∈ t.inorder) :
    ∃ p c a b, t = plug p (branch s c x a b) := by
  induction t with
  | nil => cases hx
  | node c l y r ihl ihr =>
      rw [inorder_node, List.mem_append, List.mem_cons] at hx
      rcases hx with hx | rfl | hx
      · obtain ⟨p, c', a, b, rfl⟩ := ihl hx
        refine ⟨p ++ [⟨.left, c, y, r⟩], c', a, b, ?_⟩
        rw [plug_append]
        rfl
      · cases s with
        | left => exact ⟨[], c, l, r, rfl⟩
        | right => exact ⟨[], c, r, l, rfl⟩
      · obtain ⟨p, c', a, b, rfl⟩ := ihr hx
        refine ⟨p ++ [⟨.right, c, y, l⟩], c', a, b, ?_⟩
        rw [plug_append]
        rfl

/-- The leftmost node of a nonempty tree: it has no left subtree, and the way to it turns left
at every node. -/
lemma exists_leftmost (c : Color) (l : ColorTree α) (x : α) (r : ColorTree α) :
    ∃ p c' y u, node c l x r = plug p (node c' nil y u) ∧ ∀ f ∈ p, f.side = .left := by
  induction l generalizing c x r with
  | nil => exact ⟨[], c, x, r, rfl, by simp⟩
  | node cl ll xl rl ihl _ =>
      obtain ⟨p, c', y, u, hp, hleft⟩ := ihl cl xl rl
      refine ⟨p ++ [⟨.left, c, x, r⟩], c', y, u, ?_, ?_⟩
      · rw [plug_append, ← hp]
        rfl
      · intro f hf
        rcases List.mem_append.mp hf with hf | hf
        · exact hleft f hf
        · rw [List.mem_singleton.mp hf]

/-- Nothing lies to the left of a way that turns left only. -/
lemma before_eq_nil {p : List (Frame α)} (h : ∀ f ∈ p, f.side = .left) : before p = [] := by
  induction p with
  | nil => rfl
  | cons f p ih =>
      obtain ⟨s, c, x, u⟩ := f
      obtain rfl : s = .left := h ⟨s, c, x, u⟩ (by simp)
      exact ih fun g hg => h g (by simp [hg])

/-! ### Searching -/

/-- The way down from a place: at every entry `dir` says which side to go, or to stop. -/
def descend (dir : α → Option Side) :
    List (Frame α) → ColorTree α → List (Frame α) × ColorTree α
  | p, nil => (p, nil)
  | p, node c l x r =>
      match dir x with
      | none => (p, node c l x r)
      | some .left => descend dir (⟨.left, c, x, r⟩ :: p) l
      | some .right => descend dir (⟨.right, c, x, l⟩ :: p) r

lemma descend_nil (dir : α → Option Side) (p : List (Frame α)) :
    descend dir p nil = (p, nil) := rfl

lemma descend_stop {dir : α → Option Side} {c : Color} {l r : ColorTree α} {x : α}
    (h : dir x = none) (p : List (Frame α)) :
    descend dir p (node c l x r) = (p, node c l x r) := by
  rw [descend, h]

lemma descend_left {dir : α → Option Side} {c : Color} {l r : ColorTree α} {x : α}
    (h : dir x = some .left) (p : List (Frame α)) :
    descend dir p (node c l x r) = descend dir (⟨.left, c, x, r⟩ :: p) l := by
  rw [descend, h]

lemma descend_right {dir : α → Option Side} {c : Color} {l r : ColorTree α} {x : α}
    (h : dir x = some .right) (p : List (Frame α)) :
    descend dir p (node c l x r) = descend dir (⟨.right, c, x, l⟩ :: p) r := by
  rw [descend, h]

/-- The entries a search asks for the way. -/
def visited (dir : α → Option Side) : ColorTree α → List α
  | nil => []
  | node _ l x r =>
      x :: match dir x with
        | none => []
        | some .left => visited dir l
        | some .right => visited dir r

lemma visited_subset (dir : α → Option Side) (t : ColorTree α) : visited dir t ⊆ t.inorder := by
  induction t with
  | nil => exact List.Subset.refl _
  | node c l x r ihl ihr =>
      intro y hy
      rw [inorder_node, List.mem_append, List.mem_cons]
      rcases List.mem_cons.mp hy with rfl | hy
      · exact Or.inr (Or.inl rfl)
      · cases h : dir x with
        | none => simp [h] at hy
        | some s =>
            rw [h] at hy
            cases s with
            | left => exact Or.inl (ihl hy)
            | right => exact Or.inr (Or.inr (ihr hy))

/-- A search depends on the answers at the entries it asks. -/
lemma descend_congr {dir dir' : α → Option Side} {p : List (Frame α)} {t : ColorTree α}
    (h : ∀ x ∈ visited dir t, dir x = dir' x) : descend dir p t = descend dir' p t := by
  induction t generalizing p with
  | nil => rfl
  | node c l x r ihl ihr =>
      have hx : dir x = dir' x := h x List.mem_cons_self
      cases hdir : dir x with
      | none => rw [descend_stop hdir, descend_stop (hx ▸ hdir)]
      | some s =>
          rw [visited, hdir] at h
          cases s with
          | left =>
              rw [descend_left hdir, descend_left (hx ▸ hdir)]
              exact ihl fun y hy => h y (List.mem_cons_of_mem x hy)
          | right =>
              rw [descend_right hdir, descend_right (hx ▸ hdir)]
              exact ihr fun y hy => h y (List.mem_cons_of_mem x hy)

/-- The place reached is a place of the same tree. -/
lemma plug_descend (dir : α → Option Side) (p : List (Frame α)) (t : ColorTree α) :
    plug (descend dir p t).1 (descend dir p t).2 = plug p t := by
  induction t generalizing p with
  | nil => rfl
  | node c l x r ihl ihr =>
      cases h : dir x with
      | none => rw [descend_stop h]
      | some s =>
          cases s with
          | left => rw [descend_left h, ihl, plug_cons, branch_left]
          | right => rw [descend_right h, ihr, plug_cons, branch_right]

/-- The search ends inside of the tree it begins with. -/
lemma inorder_descend_subset (dir : α → Option Side) (p : List (Frame α)) (t : ColorTree α) :
    (descend dir p t).2.inorder ⊆ t.inorder := by
  induction t generalizing p with
  | nil => exact List.Subset.refl _
  | node c l x r ihl ihr =>
      cases h : dir x with
      | none =>
          rw [descend_stop h]
          exact List.Subset.refl _
      | some s =>
          cases s with
          | left =>
              rw [descend_left h]
              exact fun y hy => List.mem_append_left _ (ihl _ hy)
          | right =>
              rw [descend_right h]
              exact fun y hy => List.mem_append_right _ (List.mem_cons_of_mem _ (ihr _ hy))

/-- The search ends at an empty subtree, or where `dir` says to stop. -/
lemma descend_end (dir : α → Option Side) (p : List (Frame α)) (t : ColorTree α) :
    (descend dir p t).2 = nil
      ∨ ∃ c l x r, (descend dir p t).2 = node c l x r ∧ dir x = none := by
  induction t generalizing p with
  | nil => exact Or.inl rfl
  | node c l x r ihl ihr =>
      cases h : dir x with
      | none =>
          rw [descend_stop h]
          exact Or.inr ⟨c, l, x, r, rfl, h⟩
      | some s =>
          cases s with
          | left => rw [descend_left h]; exact ihl _
          | right => rw [descend_right h]; exact ihr _

/-- The answers of `dir` are consistent with the order of the entries: what lies left of an
entry the target is right of is left of the target too, and so on. -/
def Directs (dir : α → Option Side) (l : List α) : Prop :=
  l.Pairwise fun x y => (dir x ≠ some .right → dir y = some .left)
    ∧ (dir y ≠ some .left → dir x = some .right)

/-- **The place a search ends at**: everything left of it is left of the target, and everything
right of it is right of the target. -/
lemma descend_split {dir : α → Option Side} {p : List (Frame α)} {t : ColorTree α}
    (h : Directs dir (plug p t).inorder) (hb : ∀ x ∈ before p, dir x = some .right)
    (ha : ∀ x ∈ after p, dir x = some .left) :
    (∀ x ∈ before (descend dir p t).1, dir x = some .right)
      ∧ ∀ x ∈ after (descend dir p t).1, dir x = some .left := by
  induction t generalizing p with
  | nil => exact ⟨hb, ha⟩
  | node c l x r ihl ihr =>
      have hord := h
      rw [inorder_plug, inorder_node, Directs, List.pairwise_append, List.pairwise_append,
        List.pairwise_append, List.pairwise_cons] at hord
      obtain ⟨⟨-, ⟨-, ⟨hxr, -⟩, hlx⟩, -⟩, -⟩ := hord
      cases hx : dir x with
      | none =>
          rw [descend_stop hx]
          exact ⟨hb, ha⟩
      | some s =>
          cases s with
          | left =>
              rw [descend_left hx]
              refine ihl h hb fun y hy => ?_
              rcases List.mem_cons.mp hy with rfl | hy
              · exact hx
              rcases List.mem_append.mp hy with hy | hy
              · exact (hxr y hy).1 (by simp [hx])
              · exact ha y hy
          | right =>
              rw [descend_right hx]
              refine ihr h (fun y hy => ?_) ha
              rcases List.mem_append.mp hy with hy | hy
              · exact hb y hy
              rcases List.mem_append.mp hy with hy | hy
              · exact (hlx y hy x (by simp)).2 (by simp [hx])
              · rw [List.mem_singleton.mp hy]
                exact hx

/-! ### The red-black invariant -/

/-- No red node has a red child, and every path to a leaf carries `n` black nodes. -/
def IsRB : ColorTree α → ℕ → Prop
  | nil, n => n = 0
  | node .red l _ r, n => IsRB l n ∧ IsRB r n ∧ l.rootColor = .black ∧ r.rootColor = .black
  | node .black _ _ _, 0 => False
  | node .black l _ r, n + 1 => IsRB l n ∧ IsRB r n

@[simp] lemma isRB_nil {n : ℕ} : IsRB (nil : ColorTree α) n ↔ n = 0 := by
  rw [IsRB]

@[simp] lemma isRB_red {s : Side} {x : α} {a b : ColorTree α} {n : ℕ} :
    IsRB (branch s .red x a b) n
      ↔ (IsRB a n ∧ a.rootColor = .black) ∧ IsRB b n ∧ b.rootColor = .black := by
  cases s <;> (simp only [branch, IsRB]; tauto)

@[simp] lemma isRB_black_succ {s : Side} {x : α} {a b : ColorTree α} {n : ℕ} :
    IsRB (branch s .black x a b) (n + 1) ↔ IsRB a n ∧ IsRB b n := by
  cases s with
  | left => simp only [branch, IsRB]
  | right => simp only [branch, IsRB, and_comm]

lemma isRB_black {s : Side} {x : α} {a b : ColorTree α} {n : ℕ} :
    IsRB (branch s .black x a b) n ↔ ∃ k, n = k + 1 ∧ IsRB a k ∧ IsRB b k := by
  cases n with
  | zero => cases s <;> simp [branch, IsRB]
  | succ k => simp

lemma IsRB.paint_black {t : ColorTree α} {n : ℕ} (h : IsRB t n) :
    ∃ k, IsRB (t.paint .black) k := by
  cases t with
  | nil => exact ⟨n, h⟩
  | node c l x r =>
      cases c with
      | red => exact ⟨n + 1, h.1, h.2.1⟩
      | black => exact ⟨n, h⟩

/-- Painting a red root black raises the black height. -/
lemma IsRB.paint_black_of_red {t : ColorTree α} {n : ℕ} (h : IsRB t n)
    (hred : t.rootColor = .red) : IsRB (t.paint .black) (n + 1) := by
  obtain ⟨x, a, b, rfl⟩ := eq_branch_of_red .left hred
  obtain ⟨ha, hb⟩ := isRB_red.mp h
  rw [paint_branch, isRB_black_succ]
  exact ⟨ha.1, hb.1⟩

/-- Painting a black root black changes nothing. -/
lemma paint_black_eq {t : ColorTree α} (h : t.rootColor = .black) : t.paint .black = t := by
  cases t with
  | nil => rfl
  | node c l x r =>
      rw [rootColor_node] at h
      rw [h, paint_node]

/-- A subtree of positive black height is not empty. -/
lemma IsRB.ne_nil {t : ColorTree α} {n : ℕ} (h : IsRB t (n + 1)) : t ≠ nil := by
  rintro rfl
  simp at h

/-- The colour of the node a place hangs below; the root hangs below nothing. -/
def topColor : List (Frame α) → Color
  | [] => .black
  | f :: _ => f.color

/-- A place expects a subtree of black height `n`: filled with a red-black tree of that height
whose root respects `topColor`, it makes a red-black tree with a black root. -/
def Fits : List (Frame α) → ℕ → Prop
  | [], _ => True
  | ⟨_, .red, _, t⟩ :: p, n =>
      (IsRB t n ∧ t.rootColor = .black) ∧ (p ≠ [] ∧ topColor p = .black) ∧ Fits p n
  | ⟨_, .black, _, t⟩ :: p, n => IsRB t n ∧ Fits p (n + 1)

@[simp] lemma topColor_cons (f : Frame α) (p : List (Frame α)) : topColor (f :: p) = f.color := rfl

@[simp] lemma fits_red {s : Side} {x : α} {t : ColorTree α} {p : List (Frame α)} {n : ℕ} :
    Fits (⟨s, .red, x, t⟩ :: p) n
      ↔ (IsRB t n ∧ t.rootColor = .black) ∧ (p ≠ [] ∧ topColor p = .black) ∧ Fits p n := by
  rw [Fits]

@[simp] lemma fits_black {s : Side} {x : α} {t : ColorTree α} {p : List (Frame α)} {n : ℕ} :
    Fits (⟨s, .black, x, t⟩ :: p) n ↔ IsRB t n ∧ Fits p (n + 1) := by
  rw [Fits]

/-- **Putting together**: a fitting subtree in its place makes a red-black tree. -/
lemma Fits.plug {p : List (Frame α)} {t : ColorTree α} {n : ℕ} (hp : Fits p n) (ht : IsRB t n)
    (hc : t.rootColor = .black ∨ topColor p = .black) : ∃ k, IsRB (ColorTree.plug p t) k := by
  induction p generalizing t n with
  | nil => exact ⟨n, ht⟩
  | cons f p ih =>
      obtain ⟨s, c, x, u⟩ := f
      rw [plug_cons]
      cases c with
      | red =>
          obtain ⟨hu, ⟨-, htop⟩, hp'⟩ := fits_red.mp hp
          have htc : t.rootColor = .black := hc.resolve_right (by simp)
          exact ih hp' (isRB_red.mpr ⟨⟨ht, htc⟩, hu⟩) (Or.inr htop)
      | black =>
          obtain ⟨hu, hp'⟩ := fits_black.mp hp
          exact ih hp' (isRB_black_succ.mpr ⟨ht, hu⟩) (Or.inl (rootColor_branch _ _ _ _ _))

/-- The root of a tree taken at a place below it is black. -/
lemma Fits.rootColor_plug {p : List (Frame α)} {n : ℕ} (hp : Fits p n) (hne : p ≠ [])
    (t : ColorTree α) : (ColorTree.plug p t).rootColor = .black := by
  induction p generalizing t n with
  | nil => exact absurd rfl hne
  | cons f p ih =>
      obtain ⟨s, c, x, u⟩ := f
      rw [plug_cons]
      cases c with
      | red =>
          obtain ⟨-, ⟨hp0, -⟩, hp'⟩ := fits_red.mp hp
          exact ih hp' hp0 _
      | black =>
          obtain ⟨-, hp'⟩ := fits_black.mp hp
          rcases eq_or_ne p [] with rfl | hp0
          · simp
          · exact ih hp' hp0 _

/-- A node of a red-black tree may be replaced by any of its colour whose two subtrees have the
black height of its own and black roots. -/
lemma Fits.rebuild {f : Frame α} {p : List (Frame α)} {n : ℕ} (h : Fits (f :: p) n) {s : Side}
    {y : α} {a b : ColorTree α} (ha : IsRB a n) (hac : a.rootColor = .black) (hb : IsRB b n)
    (hbc : b.rootColor = .black) :
    (∃ k, IsRB (ColorTree.plug p (branch s f.color y a b)) k)
      ∧ (ColorTree.plug p (branch s f.color y a b)).rootColor = .black := by
  obtain ⟨s', c, x, u⟩ := f
  cases c with
  | red =>
      obtain ⟨-, ⟨hp0, htop⟩, hp⟩ := fits_red.mp h
      exact ⟨hp.plug (isRB_red.mpr ⟨⟨ha, hac⟩, hb, hbc⟩) (Or.inr htop), hp.rootColor_plug hp0 _⟩
  | black =>
      obtain ⟨-, hp⟩ := fits_black.mp h
      refine ⟨hp.plug (isRB_black_succ.mpr ⟨ha, hb⟩) (Or.inl (rootColor_branch _ _ _ _ _)), ?_⟩
      rcases eq_or_ne p [] with rfl | hp0
      · exact rootColor_branch _ _ _ _ _
      · exact hp.rootColor_plug hp0 _

/-- **Taking apart**: at every place of a red-black tree with a black root, the place expects
the black height the subtree has. -/
lemma IsRB.focus {p : List (Frame α)} {t : ColorTree α} {k : ℕ}
    (h : IsRB (ColorTree.plug p t) k) (hroot : (ColorTree.plug p t).rootColor = .black) :
    ∃ n, IsRB t n ∧ Fits p n ∧ (t.rootColor = .black ∨ topColor p = .black) := by
  induction p generalizing t with
  | nil => exact ⟨k, h, trivial, Or.inr rfl⟩
  | cons f p ih =>
      obtain ⟨s, c, x, u⟩ := f
      rw [plug_cons] at h hroot
      obtain ⟨n, hn, hp, hc⟩ := ih h hroot
      cases c with
      | red =>
          obtain ⟨ht, hu⟩ := isRB_red.mp hn
          have htop : topColor p = .black := hc.resolve_left (by simp)
          have hp0 : p ≠ [] := by
            rintro rfl
            simp at hroot
          exact ⟨n, ht.1, fits_red.mpr ⟨hu, ⟨hp0, htop⟩, hp⟩, Or.inl ht.2⟩
      | black =>
          obtain ⟨j, rfl, ht, hu⟩ := isRB_black.mp hn
          exact ⟨j, ht, fits_black.mpr ⟨hu, hp⟩, Or.inr rfl⟩

/-! ### One black node short -/

/-- A subtree that is one black node short of black height `n + 1`: it has a black root and
black height `n`, or a red root that has only to be painted. -/
def Short (t : ColorTree α) (n : ℕ) : Prop :=
  t.rootColor = .black ∧ IsRB t n ∨ t.rootColor = .red ∧ IsRB (t.paint .black) (n + 1)

/-- A place does not depend on the entries around it. -/
lemma fits_append_cons {q p : List (Frame α)} {s : Side} {c : Color} {x y : α}
    {t : ColorTree α} {n : ℕ} (h : Fits (q ++ ⟨s, c, x, t⟩ :: p) n) :
    Fits (q ++ ⟨s, c, y, t⟩ :: p) n := by
  induction q generalizing n with
  | nil => cases c <;> simpa using h
  | cons f q ih =>
      obtain ⟨s', d, z, u⟩ := f
      have htop' : topColor (q ++ ⟨s, c, y, t⟩ :: p) = topColor (q ++ ⟨s, c, x, t⟩ :: p) := by
        cases q <;> rfl
      cases d with
      | red =>
          obtain ⟨hu, ⟨-, hb⟩, hq⟩ := fits_red.mp h
          exact fits_red.mpr ⟨hu, ⟨by simp, htop'.trans hb⟩, ih hq⟩
      | black =>
          obtain ⟨hu, hq⟩ := fits_black.mp h
          exact fits_black.mpr ⟨hu, ih hq⟩

/-- **Taking out a node with at most one child**: after a red node the tree is red-black as it
is, and after a black one its child is short. -/
lemma Fits.unlink {p : List (Frame α)} {s : Side} {c : Color} {x : α} {v : ColorTree α} {n : ℕ}
    (hp : Fits p n) (h : IsRB (branch s c x nil v) n) :
    (c = .red → (∃ k, IsRB (ColorTree.plug p v) k) ∧ (ColorTree.plug p v).rootColor = .black)
      ∧ (c = .black → ∃ k, Short v k ∧ Fits p (k + 1)) := by
  cases c with
  | red =>
      obtain ⟨-, hv, hvc⟩ := isRB_red.mp h
      refine ⟨fun _ => ⟨hp.plug hv (Or.inl hvc), ?_⟩, fun h => by simp at h⟩
      rcases eq_or_ne p [] with rfl | hp0
      · exact hvc
      · exact hp.rootColor_plug hp0 _
  | black =>
      obtain ⟨k, rfl, -, hv⟩ := isRB_black.mp h
      refine ⟨fun h => by simp at h, fun _ => ⟨k, ?_, hp⟩⟩
      cases hvc : v.rootColor with
      | red => exact Or.inr ⟨hvc, hv.paint_black_of_red hvc⟩
      | black => exact Or.inl ⟨hvc, hv⟩

/-! ### The height bound -/

/-- A red-black tree of black height `n` has at least `2ⁿ - 1` nodes. -/
lemma IsRB.two_pow_le {t : ColorTree α} {n : ℕ} (h : IsRB t n) : 2 ^ n ≤ t.size + 1 := by
  induction t generalizing n with
  | nil =>
      obtain rfl : n = 0 := isRB_nil.mp h
      simp [size]
  | node c l x r ihl ihr =>
      cases c with
      | red =>
          have hl := ihl h.1
          rw [size]
          omega
      | black =>
          obtain ⟨k, rfl, hl, hr⟩ := (isRB_black (s := .left)).mp h
          have hl' := ihl hl
          have hr' := ihr hr
          rw [size, pow_succ]
          omega

/-- The height is at most twice the black height, and one more below a red root. -/
lemma IsRB.height_le {t : ColorTree α} {n : ℕ} (h : IsRB t n) :
    t.height ≤ 2 * n + 1 ∧ (t.rootColor = .black → t.height ≤ 2 * n) := by
  induction t generalizing n with
  | nil => simp [height]
  | node c l x r ihl ihr =>
      cases c with
      | red =>
          have hl := (ihl h.1).2 h.2.2.1
          have hr := (ihr h.2.1).2 h.2.2.2
          simp only [height, rootColor_node, reduceCtorEq, false_imp_iff, and_true]
          omega
      | black =>
          obtain ⟨k, rfl, hl, hr⟩ := (isRB_black (s := .left)).mp h
          have hl' := (ihl hl).1
          have hr' := (ihr hr).1
          simp only [height, rootColor_node, true_imp_iff]
          omega

/-- **The height bound**: a red-black tree of `k` nodes with a black root has height at most
`2·log₂(k+1)`. -/
theorem IsRB.height_le_two_mul_logb {t : ColorTree α} {n : ℕ} (h : IsRB t n)
    (hroot : t.rootColor = .black) : (t.height : ℝ) ≤ 2 * Real.logb 2 (t.size + 1) := by
  have hheight : (t.height : ℝ) ≤ 2 * n := by exact_mod_cast h.height_le.2 hroot
  have hpow : (2 : ℝ) ^ n ≤ t.size + 1 := by exact_mod_cast h.two_pow_le
  have hlog : (n : ℝ) ≤ Real.logb 2 (t.size + 1) := by
    rw [Real.le_logb_iff_rpow_le (by norm_num) (by positivity), Real.rpow_natCast]
    exact hpow
  linarith

end ColorTree

end Foundation
