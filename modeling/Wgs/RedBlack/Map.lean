import Mathlib.Data.List.DropRight
import Wgs.RedBlack.Bounds
import Wgs.RedBlack.Erase

/-!
The red-black tree is a finite map.

A call acts on a map from keys to data (`RbCall.apply`): an insertion keeps what the key
already has, an erasure takes it out.  What the calls so far leave under a key is
the data of its first insertion since it was last erased (`firstSince`).

On `int` keys whose differences do not overflow (`Compatible`), every call takes a valid tree of
the entries to a valid tree of the entries (`rbInsert_simulates`, `rbErase_simulates`), so every
run does (`run_simulates`), and `rb_search` reads the map (`rb_finite_map`).
-/

namespace Wgs

open Foundation ColorTree

/-! ### The map -/

/-- The data given if the call inserts the key `k`. -/
def RbCall.inserts (k : ℤ) : RbCall → Option ℤ
  | insert key data _ _ => if key = k then some data else none
  | erase _ => none

/-- The call erases the key `k`. -/
def RbCall.erases (k : ℤ) : RbCall → Bool
  | insert _ _ _ _ => false
  | erase key => key = k

/-- The data of the first insertion of `k` since `k` was last erased, if there is one. -/
def firstSince (k : ℤ) (cs : List RbCall) : Option ℤ :=
  (cs.rtakeWhile fun c => !c.erases k).findSome? (RbCall.inserts k)

/-- What a call does to a finite map. -/
def RbCall.apply (f : ℤ → Option ℤ) : RbCall → ℤ → Option ℤ
  | insert key data _ _ => Function.update f key (some ((f key).getD data))
  | erase key => Function.update f key none

/-- The map of a history is built call by call. -/
lemma firstSince_snoc (k : ℤ) (cs : List RbCall) (c : RbCall) :
    firstSince k (cs ++ [c]) = c.apply (fun k => firstSince k cs) k := by
  cases c with
  | insert key data a junk =>
      rw [firstSince, List.rtakeWhile_concat_pos _ _ _ (by simp [RbCall.erases]),
        List.findSome?_append, ← firstSince, RbCall.apply, Function.update_apply]
      rcases eq_or_ne k key with rfl | hk
      · cases firstSince k cs <;> simp [RbCall.inserts]
      · simp [RbCall.inserts, hk, hk.symm]
  | erase key =>
      rw [firstSince, RbCall.apply, Function.update_apply]
      rcases eq_or_ne k key with rfl | hk
      · rw [List.rtakeWhile_concat_neg _ _ _ (by simp [RbCall.erases])]
        simp
      · rw [List.rtakeWhile_concat_pos _ _ _ (by simp [RbCall.erases, hk.symm]),
          List.findSome?_append, ← firstSince]
        simp [RbCall.inserts, hk]

/-- The map that a list of entries stands for. -/
def lookup (k : ℤ) (l : List Entry) : Option ℤ :=
  (l.find? fun x => x.key = k).map Entry.data

lemma lookup_eq_none {k : ℤ} {l : List Entry} : lookup k l = none ↔ ∀ x ∈ l, x.key ≠ k := by
  simp [lookup]

/-- One entry more, of a key that is new. -/
lemma lookup_insert {l r : List Entry} {x : Entry} (hnew : ∀ y ∈ l ++ r, y.key ≠ x.key) (k : ℤ) :
    lookup k (l ++ x :: r) = if k = x.key then some x.data else lookup k (l ++ r) := by
  split_ifs with hk
  · subst hk
    have hl : l.find? (fun y => y.key = x.key) = none := by
      rw [List.find?_eq_none]
      intro y hy
      simpa using hnew y (List.mem_append_left _ hy)
    simp [lookup, List.find?_append, hl]
  · simp [lookup, List.find?_append, Ne.symm hk]

/-- In an ordered tree no other entry has the key of an entry. -/
lemma Ordered.ne_of_split {t : ColorTree Entry} {l r : List Entry} {x : Entry} (h : Ordered t)
    (htin : t.inorder = l ++ x :: r) : ∀ y ∈ l ++ r, y.key ≠ x.key := by
  intro y hy
  rw [Ordered, htin, List.pairwise_append, List.pairwise_cons] at h
  rcases List.mem_append.mp hy with hy | hy
  · exact (h.2.2 y hy x (by simp)).ne
  · exact (h.2.1.1 y hy).ne'

/-! ### Calls -/

/-- The keys of the calls are `int`s whose differences do not overflow. -/
def Compatible (cs : List RbCall) : Prop :=
  ∀ c ∈ cs, IsInt32 c.key ∧ ∀ c' ∈ cs, IsInt32 (c.key - c'.key)

/-- The allocator answers with an address that is not in use. -/
def RbCall.Fresh (m : Mem RbNode) : RbCall → Prop
  | insert _ _ a _ => m a = none
  | erase _ => True

/-- The tree `t` holds the map that the calls leave, at keys of calls. -/
structure Holding (cs : List RbCall) (s : RbState) (t : ColorTree Entry) : Prop where
  valid : Valid s.root s.mem t
  keys : ∀ x ∈ t.inorder, ∃ c ∈ cs, x.key = c.key
  lookup_eq : ∀ k, lookup k t.inorder = firstSince k cs

section Calls

variable {cs : List RbCall} {c : RbCall} {s s' : RbState} {t : ColorTree Entry}

lemma holding_empty : Holding [] .empty .nil where
  valid := valid_empty
  keys := by simp
  lookup_eq k := by simp [lookup, firstSince]

/-- The keys in the tree are those of calls. -/
lemma Holding.isInt32 (h : Holding cs s t) (hc : Compatible cs) :
    ∀ x ∈ t.inorder, IsInt32 x.key := by
  intro x hx
  obtain ⟨c, hmem, hkey⟩ := h.keys x hx
  exact hkey ▸ (hc c hmem).1

/-- A call's key differs from those in the tree by an `int`. -/
lemma Holding.isInt32_sub (h : Holding cs s t) (hc : Compatible (cs ++ [c])) :
    ∀ x ∈ t.inorder, IsInt32 (x.key - c.key) := by
  intro x hx
  obtain ⟨c', hmem, hkey⟩ := h.keys x hx
  exact hkey ▸ (hc c' (by simp [hmem])).2 c (by simp)

lemma Holding.isInt32_visited (h : Holding cs s t) (hc : Compatible (cs ++ [c])) :
    ∀ x ∈ visited (searchSide c.key) t, IsInt32 (x.key - c.key) :=
  fun x hx => h.isInt32_sub hc x (visited_subset _ _ hx)

lemma Compatible.of_snoc (hc : Compatible (cs ++ [c])) : Compatible cs := fun d hd =>
  ⟨(hc d (by simp [hd])).1, fun d' hd' => (hc d (by simp [hd])).2 d' (by simp [hd'])⟩

/-- A key is absent where the calls left nothing. -/
lemma Holding.absent_iff (h : Holding cs s t) {k : ℤ} :
    firstSince k cs = none ↔ ∀ x ∈ t.inorder, x.key ≠ k := by
  rw [← h.lookup_eq, lookup_eq_none]

/-- A state that a call leaves as it is still holds the map, if the call leaves the map too. -/
lemma Holding.idle (h : Holding cs s t) (hidle : ∀ k, firstSince k (cs ++ [c]) = firstSince k cs) :
    Holding (cs ++ [c]) s t where
  valid := h.valid
  keys x hx := by
    obtain ⟨c', hmem, hkey⟩ := h.keys x hx
    exact ⟨c', by simp [hmem], hkey⟩
  lookup_eq k := by rw [h.lookup_eq, hidle]

/-- `rb_insert` puts a key into the map, unless it is there. -/
lemma rbInsert_simulates {key data : ℤ} {a : ℕ} {junk : RbNode} (h : Holding cs s t)
    (hc : Compatible (cs ++ [.insert key data a junk]))
    (hfresh : s.mem a = none ∨ ∃ x ∈ t.inorder, x.key = key) :
    ∃ s' u, RbStep s (.insert key data a junk) s'
      ∧ Holding (cs ++ [.insert key data a junk]) s' u := by
  by_cases hold : ∃ x ∈ t.inorder, x.key = key
  · refine ⟨s, t, ⟨t.size + 1, fun fuel hfuel => ?_⟩, h.idle fun k => ?_⟩
    · exact rbInsert_present h.valid (h.isInt32_visited hc) hold hfuel
    · rw [firstSince_snoc, RbCall.apply, Function.update_apply]
      split_ifs with hk
      · subst hk
        cases hf : firstSince k cs with
        | none =>
            obtain ⟨x, hx, hxk⟩ := hold
            exact absurd hxk (h.absent_iff.mp hf x hx)
        | some d => rfl
      · rfl
  · have ha := hfresh.resolve_right hold
    push Not at hold
    obtain ⟨root', m', u, l, r, e, hv, htin, huin⟩ := rbInsert_new data junk
      h.valid (h.isInt32_visited hc) hold ha (Nat.lt_succ_self _)
    refine ⟨⟨root', m'⟩, u, .of_exec _ e, hv, fun x hx => ?_, fun k => ?_⟩
    · rw [huin, List.mem_append, List.mem_cons] at hx
      rcases hx with hx | rfl | hx
      · obtain ⟨c, hmem, hkey⟩ := h.keys x (by simp [htin, hx])
        exact ⟨c, by simp [hmem], hkey⟩
      · exact ⟨.insert key data a junk, by simp, rfl⟩
      · obtain ⟨c, hmem, hkey⟩ := h.keys x (by simp [htin, hx])
        exact ⟨c, by simp [hmem], hkey⟩
    · have hnone := h.absent_iff.mpr hold
      rw [htin] at hold
      rw [huin, lookup_insert hold, firstSince_snoc, RbCall.apply, Function.update_apply, hnone,
        ← htin, h.lookup_eq]
      rfl

/-- `rb_erase` takes a key out of the map. -/
lemma rbErase_simulates {key : ℤ} (h : Holding cs s t) (hc : Compatible (cs ++ [.erase key])) :
    ∃ s' u, RbStep s (.erase key) s' ∧ Holding (cs ++ [.erase key]) s' u := by
  have hkey := (hc (.erase key) (by simp)).1
  by_cases hold : ∃ x ∈ t.inorder, x.key = key
  · obtain ⟨root', m', u, l, x, r, e, hv, rfl, htin, huin⟩ :=
      rbErase_present h.valid (h.isInt32_visited hc) hold (Nat.lt_succ_self _)
    refine ⟨⟨root', m'⟩, u, .of_exec _ e, hv, fun y hy => ?_, fun k => ?_⟩
    · rw [huin, List.mem_append] at hy
      obtain ⟨c, hmem, hkey⟩ := h.keys y (by rw [htin]; simp; tauto)
      exact ⟨c, by simp [hmem], hkey⟩
    · have hnew := h.valid.ordered.ne_of_split htin
      rw [firstSince_snoc, RbCall.apply, Function.update_apply, ← h.lookup_eq, htin, huin,
        lookup_insert hnew]
      split_ifs with hk
      · rw [hk]
        exact lookup_eq_none.mpr hnew
      · rfl
  · push Not at hold
    have e := rbErase_absent h.valid.rep hkey (h.isInt32 hc.of_snoc) hold (Nat.lt_succ_self _)
    refine ⟨s, t, .of_exec _ e, h.idle fun k => ?_⟩
    rw [firstSince_snoc, RbCall.apply, Function.update_apply]
    split_ifs with hk
    · rw [hk]
      exact (h.absent_iff.mpr hold).symm
    · rfl

/-- An insertion of a new key that returns has got a fresh address. -/
lemma fresh_of_step {key data : ℤ} {a : ℕ} {junk : RbNode} (h : Valid s.root s.mem t)
    (hkey : IsInt32 key) (hint : ∀ x ∈ t.inorder, IsInt32 x.key)
    (hstep : RbStep s (.insert key data a junk) s') :
    s.mem a = none ∨ ∃ x ∈ t.inorder, x.key = key := by
  by_contra hne
  rw [not_or] at hne
  obtain ⟨ha, hold⟩ := hne
  push Not at hold
  obtain ⟨n, hn⟩ := Option.ne_none_iff_exists'.mp ha
  obtain ⟨N, hN⟩ := hstep
  have e := hN (max N (t.size + 1)) (le_max_left _ _)
  obtain ⟨p, hd⟩ := search_absent hkey hint hold
  have haux := rbSearchAuxiliary_spec h.rep (le_max_right N (t.size + 1)) hd
  simp [RbCall.exec, rbInsert, haux, rbNewLeaf, rbNewNode, Mem.malloc, hn] at e

/-- **One call** takes a tree that holds the map to a tree that holds the map. -/
lemma Holding.step (h : Holding cs s t) (hc : Compatible (cs ++ [c])) (hstep : RbStep s c s') :
    ∃ u, Holding (cs ++ [c]) s' u := by
  cases c with
  | insert key data a junk =>
      have hfresh := fresh_of_step h.valid (hc (.insert key data a junk) (by simp)).1
        (h.isInt32 hc.of_snoc) hstep
      obtain ⟨s'', u, hstep', hu⟩ := rbInsert_simulates h hc hfresh
      exact ⟨u, hstep.unique hstep' ▸ hu⟩
  | erase key =>
      obtain ⟨s'', u, hstep', hu⟩ := rbErase_simulates h hc
      exact ⟨u, hstep.unique hstep' ▸ hu⟩

/-- **A run** leads to a tree that holds the map its calls leave. -/
theorem run_simulates (hc : Compatible cs) (h : Reaches RbStep .empty cs s) :
    ∃ t, Holding cs s t := by
  refine h.induct (P := fun cs s => Compatible cs → ∃ t, Holding cs s t)
    (fun _ => ⟨.nil, holding_empty⟩) (fun cs s c s' _ ih hstep hc => ?_) hc
  obtain ⟨t, ht⟩ := ih hc.of_snoc
  exact ht.step hc hstep

/-- An entry of the tree has its cell. -/
lemma exists_cell {x : Entry} (par : Ptr) (hx : x ∈ t.inorder) :
    ∃ n, (x.addr, n) ∈ cells t par ∧ n.key = x.key ∧ n.data = x.data := by
  induction t generalizing par with
  | nil => exact absurd hx List.not_mem_nil
  | node c l y r ihl ihr =>
      rw [ColorTree.inorder, List.mem_append, List.mem_cons] at hx
      rcases hx with hx | rfl | hx
      · obtain ⟨n, hn, hkey⟩ := ihl (some y.addr) hx
        exact ⟨n, by simp [cells, hn], hkey⟩
      · exact ⟨_, List.mem_cons_self, cellAt_key _ _ _ _ _ _, cellAt_data _ _ _ _ _ _⟩
      · obtain ⟨n, hn, hkey⟩ := ihr (some y.addr) hx
        exact ⟨n, by simp [cells, hn], hkey⟩

lemma Rep.exists_cell {root : Ptr} {m : Mem RbNode} {x : Entry} (h : Rep root m t)
    (hx : x ∈ t.inorder) : ∃ n, m x.addr = some n ∧ n.key = x.key ∧ n.data = x.data := by
  obtain ⟨n, hn, hkey⟩ := Wgs.exists_cell none hx
  exact ⟨n, h.holds _ hn, hkey⟩

/-- `rb_search` finds the node of an entry, if its search computes no difference that overflows. -/
lemma Valid.rbSearch_eq {root : Ptr} {m : Mem RbNode} {x : Entry} (h : Valid root m t)
    (hx : x ∈ t.inorder) (hint : ∀ y ∈ visited (searchSide x.key) t, IsInt32 (y.key - x.key)) :
    Returns (fun fuel => rbSearch fuel x.key root m) (some x.addr) := by
  obtain ⟨p, d, l, y, r, hd, htp, hy⟩ := search_present h.ordered hint ⟨x, hx, rfl⟩
  have htin : t.inorder = (before p ++ l.inorder) ++ y :: (r.inorder ++ after p) := by
    simp [htp, inorder_plug]
  obtain rfl : x = y := by
    by_contra hne
    rw [htin, List.mem_append, List.mem_cons] at hx
    exact h.ordered.ne_of_split htin x (List.mem_append.mpr (by tauto)) hy.symm
  refine ⟨t.size + 1, fun fuel hfuel => ?_⟩
  simp [rbSearch, rbSearchAuxiliary_spec h.rep hfuel hd]

/-- What `rb_search` is to give for a key: a node with the key and with the data the map has
for it, or null if the map has none. -/
def Found (m : Mem RbNode) (k : ℤ) (p : Ptr) : Option ℤ → Prop
  | some data => ∃ a n, p = some a ∧ m a = some n ∧ n.key = k ∧ n.data = data
  | none => p = none

/-- `rb_search` reads the map. -/
lemma Holding.search (h : Holding cs s t) (hc : Compatible cs) {k : ℤ} (hk : IsInt32 k) :
    ∃ p, Returns (fun fuel => rbSearch fuel k s.root s.mem) p
      ∧ Found s.mem k p (firstSince k cs) := by
  cases hf : firstSince k cs with
  | none =>
      obtain ⟨p, hd⟩ := search_absent hk (h.isInt32 hc) (h.absent_iff.mp hf)
      refine ⟨none, ⟨t.size + 1, fun fuel hfuel => ?_⟩, rfl⟩
      simp [rbSearch, rbSearchAuxiliary_spec h.valid.rep hfuel hd]
  | some data =>
      have hlookup := (h.lookup_eq k).trans hf
      obtain ⟨x, hx, rfl⟩ : ∃ x ∈ t.inorder, x.key = k := by
        by_contra hne
        push Not at hne
        rw [lookup_eq_none.mpr hne] at hlookup
        simp at hlookup
      have hint : ∀ y ∈ t.inorder, IsInt32 (y.key - x.key) := by
        intro y hy
        obtain ⟨c, hmem, hkey⟩ := h.keys y hy
        obtain ⟨c', hmem', hkey'⟩ := h.keys x hx
        rw [hkey, hkey']
        exact (hc c hmem).2 c' hmem'
      have hret := h.valid.rbSearch_eq hx fun y hy => hint y (visited_subset _ _ hy)
      obtain ⟨n, hn, hkey, hdata⟩ := h.valid.rep.exists_cell hx
      obtain ⟨l, r, htin⟩ := List.append_of_mem hx
      rw [htin, lookup_insert (h.valid.ordered.ne_of_split htin), if_pos rfl,
        Option.some_inj] at hlookup
      exact ⟨some x.addr, hret, x.addr, n, rfl, hn, hkey, hdata.trans hlookup⟩

/-- **The red-black tree is a finite map.**  After every run of calls on `int` keys whose
differences do not overflow, `rb_search` gives for every `int` key a node with the data of its
first insertion since it was last erased, and null where there is none; erasing an absent key
leaves the tree as it is; and the next call, given a fresh address, returns. -/
theorem rb_finite_map (hc : Compatible cs) (h : Reaches RbStep .empty cs s) :
    (∀ k, IsInt32 k → ∃ p, Returns (fun fuel => rbSearch fuel k s.root s.mem) p
        ∧ Found s.mem k p (firstSince k cs))
      ∧ (∀ k, IsInt32 k → firstSince k cs = none → ∀ s', RbStep s (.erase k) s' ↔ s' = s)
      ∧ ∀ c, Compatible (cs ++ [c]) → c.Fresh s.mem → ∃ s', RbStep s c s' := by
  obtain ⟨t, ht⟩ := run_simulates hc h
  refine ⟨fun k hk => ht.search hc hk, fun k hk hnone s' => ?_, fun c hc' hfresh => ?_⟩
  · have e := rbErase_absent ht.valid.rep hk (ht.isInt32 hc) (ht.absent_iff.mp hnone)
      (Nat.lt_succ_self _)
    have hstep : RbStep s (.erase k) s := .of_exec _ e
    constructor
    · exact fun hstep' => hstep'.unique hstep
    · rintro rfl
      exact hstep
  · cases c with
    | insert key data a junk =>
        obtain ⟨s', -, hstep, -⟩ := rbInsert_simulates ht hc' (Or.inl hfresh)
        exact ⟨s', hstep⟩
    | erase key =>
        obtain ⟨s', -, hstep, -⟩ := rbErase_simulates ht hc'
        exact ⟨s', hstep⟩

end Calls

/-- What the allocator leaves in a cell, in the runs that follow. -/
def rbJunk : RbNode := ⟨some 7, some 7, some 7, 7, 7, .red⟩

/-- A run of three calls: the key 5 is inserted, then 3, and 5 is erased again. -/
theorem rb_finite_map_three :
    ∃ (s : RbState) (p : Ptr),
      Reaches RbStep .empty [.insert 5 50 0 rbJunk, .insert 3 30 1 rbJunk, .erase 5] s
        ∧ Returns (fun fuel => rbSearch fuel 3 s.root s.mem) p ∧ Found s.mem 3 p (some 30) := by
  have hc : Compatible [.insert 5 50 0 rbJunk, .insert 3 30 1 rbJunk, .erase 5] := by
    simp [Compatible, RbCall.key, IsInt32]
  obtain ⟨s, h⟩ : ∃ s, Reaches RbStep .empty
      [.insert 5 50 0 rbJunk, .insert 3 30 1 rbJunk, .erase 5] s :=
    ⟨_, .step (.step (.step .start (.of_exec 4 rfl)) (.of_exec 4 rfl))
      (.of_exec 4 rfl)⟩
  obtain ⟨p, hp⟩ := (rb_finite_map hc h).1 3 (by simp [IsInt32])
  exact ⟨s, p, h, hp⟩

end Wgs
