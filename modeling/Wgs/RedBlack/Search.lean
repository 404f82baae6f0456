import Wgs.RedBlack.Rotate

/-!
`rb_search_auxiliary` walks down the tree.

The sign of `node->key - key` gives the way, `searchSide`; the loop ends at the place that the
descent along it ends at.  On keys whose differences fit in an `int` the sign is the order of
the keys, and then the place is where the key is or where it belongs (`search_split`).
-/

namespace Wgs

open Foundation ColorTree

variable {m : Mem RbNode} {root : Ptr} {p : List (Frame Entry)}

/-- The way `rb_search_auxiliary` takes at a node: by the sign of `node->key - key`, computed
in an `int`. -/
def searchSide (key : ℤ) (x : Entry) : Option Side :=
  if 0 < toInt32 (x.key - key) then some .left
  else if 0 > toInt32 (x.key - key) then some .right
  else none

lemma searchSide_eq_left {key : ℤ} {x : Entry} :
    searchSide key x = some .left ↔ 0 < toInt32 (x.key - key) := by
  rw [searchSide]
  split_ifs with hleft hright
  · exact ⟨fun _ => hleft, fun _ => rfl⟩
  · exact ⟨fun h => (by cases h), fun h => absurd h hleft⟩
  · exact ⟨fun h => (by cases h), fun h => absurd h hleft⟩

lemma searchSide_eq_right {key : ℤ} {x : Entry} :
    searchSide key x = some .right ↔ 0 > toInt32 (x.key - key) := by
  rw [searchSide]
  split_ifs with hleft hright
  · exact ⟨fun h => (by cases h), fun h => absurd h (by omega)⟩
  · exact ⟨fun _ => hright, fun _ => rfl⟩
  · exact ⟨fun h => (by cases h), fun h => absurd h hright⟩

/-- The loop of `rb_search_auxiliary` ends where the descent along `searchSide` ends; it gives
back the node there, or null and the node above. -/
lemma rbSearchLoop_spec (key : ℤ) {t : ColorTree Entry} (h : Rep root m (plug p t)) {fuel : ℕ}
    (hfuel : t.size < fuel) :
    rbSearchLoop fuel key (ptr t) (pathPtr p) m
      = some (ptr (descend (searchSide key) p t).2,
          if ptr (descend (searchSide key) p t).2 = none
          then pathPtr (descend (searchSide key) p t).1 else none) := by
  induction t generalizing p fuel with
  | nil =>
      obtain ⟨fuel, rfl⟩ : ∃ f, fuel = f + 1 := ⟨fuel - 1, by omega⟩
      simp [rbSearchLoop, descend_nil]
  | node c l x r ihl ihr =>
      obtain ⟨fuel, rfl⟩ : ∃ f, fuel = f + 1 := ⟨fuel - 1, by omega⟩
      rw [size] at hfuel
      rw [← branch_left] at h
      have hcell := h.cell
      rcases lt_trichotomy (toInt32 (x.key - key)) 0 with hlt | heq | hgt
      · have hside : searchSide key x = some .right := by
          simp [searchSide, hlt, not_lt.mpr hlt.le]
        have hr := ihr h.far (by omega : _ < fuel)
        rw [Side.opp_left] at hr
        rw [descend_right hside, ← hr]
        simp [rbSearchLoop, Mem.read_eq hcell, hlt, not_lt.mpr hlt.le, cellAt]
      · have hside : searchSide key x = none := by simp [searchSide, heq]
        rw [descend_stop hside]
        simp [rbSearchLoop, Mem.read_eq hcell, heq]
      · have hside : searchSide key x = some .left := by simp [searchSide, hgt]
        have hl := ihl h.near (by omega : _ < fuel)
        rw [descend_left hside, ← hl]
        simp [rbSearchLoop, Mem.read_eq hcell, hgt, cellAt]

/-! ### The order of the keys -/

/-- The keys of the tree increase from left to right. -/
def Ordered (t : ColorTree Entry) : Prop :=
  t.inorder.Pairwise fun x y => x.key < y.key

/-- The way the order of the keys gives. -/
def keySide (key : ℤ) (x : Entry) : Option Side :=
  if key < x.key then some .left else if x.key < key then some .right else none

/-- On a difference that fits in an `int` the way taken is the order of the keys. -/
lemma searchSide_eq {key : ℤ} {x : Entry} (h : IsInt32 (x.key - key)) :
    searchSide key x = keySide key x := by
  rw [searchSide, toInt32_of_isInt32 h, keySide]
  simp only [sub_pos, gt_iff_lt, sub_neg]

lemma keySide_eq_left {key : ℤ} {x : Entry} : keySide key x = some .left ↔ key < x.key := by
  rw [keySide]
  split_ifs <;> simp_all [le_of_lt]

lemma keySide_eq_right {key : ℤ} {x : Entry} : keySide key x = some .right ↔ x.key < key := by
  rw [keySide]
  split_ifs <;> simp_all [le_of_lt]

lemma keySide_eq_none {key : ℤ} {x : Entry} : keySide key x = none ↔ x.key = key := by
  rw [keySide]
  split_ifs <;> simp <;> omega

/-- **The place of a key**: in an ordered tree, a search that computes no difference that overflows
ends at the node with the key, or at the empty place where the key belongs. -/
lemma search_split {key : ℤ} {t : ColorTree Entry} (hord : Ordered t)
    (hint : ∀ x ∈ visited (searchSide key) t, IsInt32 (x.key - key)) :
    ∃ p u, descend (searchSide key) [] t = (p, u) ∧ t = plug p u
      ∧ (u = .nil ∧ (∀ x ∈ before p, x.key < key) ∧ (∀ x ∈ after p, key < x.key)
        ∨ ∃ c l x r, u = .node c l x r ∧ x.key = key) := by
  rw [descend_congr fun x hx => searchSide_eq (hint x hx)]
  have hplug : plug _ _ = t := plug_descend (keySide key) [] t
  have hdirects : Directs (keySide key) (plug [] t).inorder := by
    refine List.Pairwise.imp ?_ hord
    intro x y hxy
    rw [ne_eq, ne_eq, keySide_eq_right, keySide_eq_left]
    omega
  obtain ⟨hb, ha⟩ := descend_split hdirects (by simp [before]) (by simp [after])
  have hend := descend_end (keySide key) [] t
  refine ⟨_, _, rfl, hplug.symm, ?_⟩
  rcases hend with hnil | ⟨c, l, x, r, hu, hx⟩
  · refine Or.inl ⟨hnil, fun x hx => ?_, fun x hx => ?_⟩
    · exact keySide_eq_right.mp (hb x hx)
    · exact keySide_eq_left.mp (ha x hx)
  · exact Or.inr ⟨c, l, x, r, hu, keySide_eq_none.mp hx⟩

/-- The node with a key that is there is found. -/
lemma search_present {key : ℤ} {t : ColorTree Entry} (hord : Ordered t)
    (hint : ∀ x ∈ visited (searchSide key) t, IsInt32 (x.key - key))
    (hold : ∃ x ∈ t.inorder, x.key = key) :
    ∃ p c l x r, descend (searchSide key) [] t = (p, .node c l x r) ∧ t = plug p (.node c l x r)
      ∧ x.key = key := by
  obtain ⟨p, u, hd, rfl, ⟨rfl, hb, hk⟩ | ⟨c, l, x, r, rfl, hx⟩⟩ := search_split hord hint
  · obtain ⟨x, hx, rfl⟩ := hold
    rw [inorder_plug, inorder_nil, List.append_nil, List.mem_append] at hx
    rcases hx with hx | hx
    · exact absurd (hb x hx) (lt_irrefl _)
    · exact absurd (hk x hx) (lt_irrefl _)
  · exact ⟨p, c, l, x, r, hd, rfl, hx⟩

/-- Two `int` keys that compare as equal are equal: a difference of `2³²` is out of reach. -/
lemma key_eq_of_searchSide {key : ℤ} {x : Entry} (hkey : IsInt32 key) (hx : IsInt32 x.key)
    (h : searchSide key x = none) : x.key = key := by
  rw [IsInt32] at hkey hx
  rw [searchSide] at h
  split_ifs at h with hright hleft
  rw [toInt32] at hright hleft
  omega

/-- **An absent key is not found**, whatever way the search takes: it ends at an empty place. -/
lemma search_absent {key : ℤ} {t : ColorTree Entry} (hkey : IsInt32 key)
    (hint : ∀ x ∈ t.inorder, IsInt32 x.key) (hnew : ∀ x ∈ t.inorder, x.key ≠ key) :
    ∃ p, descend (searchSide key) [] t = (p, .nil) := by
  have hplug : plug _ _ = t := plug_descend (searchSide key) [] t
  rcases descend_end (searchSide key) [] t with hnil | ⟨c, l, x, r, hu, hx⟩
  · exact ⟨_, Prod.ext rfl hnil⟩
  · have hmem : x ∈ t.inorder := by
      rw [← hplug, inorder_plug, hu]
      simp
    exact absurd (key_eq_of_searchSide hkey (hint x hmem) hx) (hnew x hmem)

/-- `rb_search_auxiliary` as its callers see it. -/
lemma rbSearchAuxiliary_spec {key : ℤ} {t : ColorTree Entry} (h : Rep root m t) {fuel : ℕ}
    (hfuel : t.size < fuel) {q : List (Frame Entry)} {u : ColorTree Entry}
    (hd : descend (searchSide key) [] t = (q, u)) :
    rbSearchAuxiliary fuel key root m
      = some (ptr u, if ptr u = none then pathPtr q else none) := by
  have hloop := rbSearchLoop_spec (p := []) key h hfuel
  rw [hd] at hloop
  rw [rbSearchAuxiliary, h.root_eq]
  exact hloop

end Wgs
