import Wgs.RedBlack.Map

/-!
The red-black tree over the full range of `int` keys.

`rb_search_auxiliary` goes by the sign of a difference that is computed in an `int`, `rb_insert`
links by a comparison of the keys; where the difference overflows the two disagree.
`InsertsSound K` is what insertions of keys from a set `K` are to keep: every key inserted is
found, and the link an insertion writes is empty and on the side the search took.

`insertsSound_iff` says that this holds exactly when the differences of the keys of `K` fit in an
`int`; `insert_overwrites` is a run of three insertions that loses a node.
-/

namespace Wgs

open Foundation ColorTree

/-- The call is an insertion. -/
def RbCall.isInsert : RbCall → Bool
  | insert _ _ _ _ => true
  | erase _ => false

/-- An insertion of `key` that finds no node writes an empty link of the last node of the search,
on the side the search took there. -/
def LinksSoundly (s : RbState) (key : ℤ) : Prop :=
  ∀ a n, Returns (fun fuel => rbSearchAuxiliary fuel key s.root s.mem) (none, some a) →
    s.mem a = some n →
    (0 < toInt32 (n.key - key) ↔ n.key > key)
      ∧ (if n.key > key then n.left else n.right) = none

/-- What every run of insertions of keys from `K` is to keep: the keys inserted so far are found,
and whatever key of `K` comes next, no link is overwritten. -/
def InsertsSound (K : Set ℤ) : Prop :=
  ∀ cs s, (∀ c ∈ cs, c.isInsert ∧ c.key ∈ K) → Reaches RbStep .empty cs s →
    (∀ c ∈ cs, ∃ a n, Returns (fun fuel => rbSearch fuel c.key s.root s.mem) (some a)
      ∧ s.mem a = some n ∧ n.key = c.key)
      ∧ ∀ key ∈ K, LinksSoundly s key

/-! ### Differences that fit -/

/-- After insertions only, the keys inserted have data. -/
lemma firstSince_of_inserts {cs : List RbCall} (hcs : ∀ c ∈ cs, c.isInsert) {c : RbCall}
    (hc : c ∈ cs) : ∃ data, firstSince c.key cs = some data := by
  have hall : (cs.rtakeWhile fun d => !d.erases c.key) = cs := by
    rw [List.rtakeWhile_eq_self_iff]
    intro d hd
    cases d with
    | insert key data a junk => rfl
    | erase key => exact absurd (hcs _ hd) (by simp [RbCall.isInsert])
  rw [firstSince, hall, ← Option.isSome_iff_exists, List.findSome?_isSome_iff]
  refine ⟨c, hc, ?_⟩
  cases c with
  | insert key data a junk => simp [RbCall.inserts, RbCall.key]
  | erase key => exact absurd (hcs _ hc) (by simp [RbCall.isInsert])

/-- In a tree of keys that differ from `key` by an `int`, an insertion of `key` links soundly. -/
lemma Valid.linksSoundly {s : RbState} {t : ColorTree Entry} {key : ℤ} (h : Valid s.root s.mem t)
    (hint : ∀ x ∈ t.inorder, IsInt32 (x.key - key)) : LinksSoundly s key := by
  intro a n hret hn
  obtain ⟨p, u, hd, rfl, hcase⟩ := search_split h.ordered fun x hx =>
    hint x (visited_subset _ _ hx)
  have haux : Returns (fun fuel => rbSearchAuxiliary fuel key s.root s.mem) _ :=
    ⟨(plug p u).size + 1, fun fuel hfuel => rbSearchAuxiliary_spec h.rep hfuel hd⟩
  obtain ⟨hnone, hparent⟩ := Prod.ext_iff.mp (hret.unique haux)
  obtain rfl : u = .nil := ptr_eq_none.mp hnone.symm
  rw [ptr_nil, if_pos rfl] at hparent
  obtain ⟨⟨s', c, x, v⟩, q, rfl⟩ : ∃ f q, p = f :: q := by
    cases p with
    | nil => simp at hparent
    | cons f q => exact ⟨f, q, rfl⟩
  obtain rfl : a = x.addr := Option.some_inj.mp hparent
  have hx : IsInt32 (x.key - key) := hint x (by
    rw [plug_cons, inorder_plug]
    cases s' <;> simp)
  have hrep : Rep s.root s.mem (plug q (branch s' c x .nil v)) := h.rep
  rw [hrep.cell, Option.some_inj] at hn
  subst hn
  rw [cellAt_key, toInt32_of_isInt32 hx]
  rcases hcase with ⟨-, hb, ha⟩ | ⟨c', l, y, r, hu, -⟩
  · refine ⟨by rw [sub_pos], ?_⟩
    have hside := linkSide_of_split hb ha ⟨s', c, x, v⟩ (by simp)
    rw [linkSide] at hside
    split_ifs at hside ⊢ with hlt
    · subst hside
      rfl
    · subst hside
      rfl
  · simp at hu

/-! ### A difference that overflows -/

/-- Where the difference overflows, the search goes away from the side of the link. -/
lemma searchSide_of_overflow {key : ℤ} {x : Entry} (hx : IsInt32 x.key) (hkey : IsInt32 key)
    (hover : ¬ IsInt32 (x.key - key)) :
    searchSide key x = some (linkSide key x).opp := by
  rw [IsInt32] at hx hkey hover
  have hwrap : toInt32 (x.key - key) = x.key - key - 4294967296 ∧ key < x.key
      ∨ toInt32 (x.key - key) = x.key - key + 4294967296 ∧ x.key < key := by
    rw [toInt32]
    omega
  rw [searchSide, linkSide]
  split_ifs <;> first | rfl | omega

/-- A search at a node without a child on the side it goes to ends there. -/
lemma descend_branch_nil {key : ℤ} {x : Entry} {s : Side} (h : searchSide key x = some s)
    (c : Color) (u : ColorTree Entry) :
    descend (searchSide key) [] (branch s c x .nil u) = ([⟨s, c, x, u⟩], .nil) := by
  cases s with
  | left => rw [branch_left, descend_left h, descend_nil]
  | right => rw [branch_right, descend_right h, descend_nil]

/-- **An insertion that is lost**: after `j`, the key `k` is put on the side of its order, and
`rb_search` looks for it on the other one. -/
lemma insert_lost {j k : ℤ} (hj : IsInt32 j) (hk : IsInt32 k) (hjk : ¬ IsInt32 (j - k)) :
    ∃ s, Reaches RbStep .empty [.insert j 0 0 rbJunk, .insert k 0 1 rbJunk] s
      ∧ Returns (fun fuel => rbSearch fuel k s.root s.mem) none := by
  -- the first insertion leaves one black node
  obtain ⟨root₁, m₁, u, l, r, e₁, h₁, hnil, hu⟩ := rbInsert_new 0 rbJunk
    valid_empty (by simp : ∀ x ∈ ([] : List Entry), IsInt32 (x.key - j)) (by simp) (a := 0) rfl
    (by decide : _ < 2)
  obtain ⟨rfl, rfl⟩ := List.append_eq_nil_iff.mp hnil.symm
  obtain ⟨c, rfl⟩ := eq_leaf_of_inorder hu
  obtain rfl : c = .black := h₁.black
  have hstep₁ : RbStep .empty (.insert j 0 0 rbJunk) ⟨root₁, m₁⟩ := .of_exec _ e₁
  have hover := searchSide_of_overflow (x := ⟨0, j, 0⟩) hj hk hjk
  -- the second one links on the one side of it, after a search on the other
  set s := linkSide k ⟨0, j, 0⟩ with hs
  have hleaf : ∀ s, (.node .black .nil ⟨0, j, 0⟩ .nil : ColorTree Entry)
      = branch s .black ⟨0, j, 0⟩ .nil .nil := by
    intro s
    cases s <;> rfl
  have hfree : m₁ 1 = none := by
    by_contra hne
    have := h₁.rep.dom 1 hne
    simp [addrs] at this
  have haux₁ := rbSearchAuxiliary_spec h₁.rep (by simp [size] : _ < 2)
    ((hleaf s.opp).symm ▸ descend_branch_nil hover .black .nil)
  obtain ⟨m₂, e₂, ha₂, hm₂⟩ := rbNewLeaf_spec k 0 rbJunk
    (pathPtr [⟨s, .black, ⟨0, j, 0⟩, .nil⟩]) hfree
  obtain ⟨root₃, m₃, e₃, h₃⟩ := rbLink_spec (p := [⟨s, .black, ⟨0, j, 0⟩, .nil⟩])
    (hleaf s ▸ h₁.rep) hfree ha₂ hm₂ (by simp [hs])
  obtain ⟨m₄, e₄, h₄⟩ := rbInsertRebalance_stop h₃ (by simp) rfl 1
  rw [ptr_node] at e₄
  have e : (RbCall.insert k 0 1 rbJunk).exec 2 ⟨root₁, m₁⟩ = some (root₃, m₄) := by
    simp only [pathPtr_cons] at e₂ e₃
    simp [RbCall.exec, rbInsert, haux₁, e₂, e₃, e₄]
  refine ⟨⟨root₃, m₄⟩, .step (.step .start hstep₁) (.of_exec _ e), ⟨3, fun fuel hfuel => ?_⟩⟩
  -- the search for the new key goes the other way again
  rw [plug_cons, plug_nil, paint_branch, ← branch_opp] at h₄
  have haux₄ := rbSearchAuxiliary_spec h₄
    (by simp only [size_branch, size]; omega : _ < fuel) (descend_branch_nil hover .black _)
  simp [rbSearch, haux₄]

/-- **When insertions are sound**: the property holds of all runs of insertions of keys from a
set of `int`s exactly when no difference of two of its keys overflows. -/
theorem insertsSound_iff {K : Set ℤ} (hK : ∀ k ∈ K, IsInt32 k) :
    InsertsSound K ↔ ∀ j ∈ K, ∀ k ∈ K, IsInt32 (j - k) := by
  constructor
  · intro hsound j hj k hk
    by_contra hover
    obtain ⟨s, hrun, hlost⟩ := insert_lost (hK j hj) (hK k hk) hover
    have hcs : ∀ c ∈ [RbCall.insert j 0 0 rbJunk, .insert k 0 1 rbJunk],
        c.isInsert ∧ c.key ∈ K := by
      simp [RbCall.isInsert, RbCall.key, hj, hk]
    obtain ⟨a, n, hret, -⟩ := (hsound _ s hcs hrun).1 (.insert k 0 1 rbJunk) (by simp)
    exact absurd (hret.unique hlost) (by simp)
  · intro hdiff cs s hcs hrun
    have hc : Compatible cs := fun c hc =>
      ⟨hK _ (hcs c hc).2, fun c' hc' => hdiff _ (hcs c hc).2 _ (hcs c' hc').2⟩
    obtain ⟨t, ht⟩ := run_simulates hc hrun
    refine ⟨fun c hmem => ?_, fun key hkey => ht.valid.linksSoundly fun x hx => ?_⟩
    · obtain ⟨data, hdata⟩ := firstSince_of_inserts (fun c hc => (hcs c hc).1) hmem
      obtain ⟨p, hret, hp⟩ := ht.search hc (hK _ (hcs c hmem).2)
      rw [hdata] at hp
      obtain ⟨a, n, rfl, hn, hnk, -⟩ := hp
      exact ⟨a, n, hret, hn, hnk⟩
    · obtain ⟨c, hmem, hxc⟩ := ht.keys x hx
      exact hxc ▸ hdiff _ (hcs c hmem).2 _ hkey

/-- Keys around zero do not overflow. -/
theorem insertsSound_small : InsertsSound {k | -1000 ≤ k ∧ k ≤ 1000} := by
  refine (insertsSound_iff ?_).mpr ?_
  · rintro k ⟨hlo, hhi⟩
    exact ⟨by omega, by omega⟩
  · rintro j ⟨hlo, hhi⟩ k ⟨hlo', hhi'⟩
    exact ⟨by omega, by omega⟩

/-- **Three insertions that lose a node**: the last one overwrites the left link of the root, which
led to the second node, so over all `int` keys insertions are not sound. -/
theorem insert_overwrites :
    (∃ s s' : RbState,
      Reaches RbStep .empty [.insert 2147483647 1 0 rbJunk, .insert 2147483646 2 1 rbJunk] s
        ∧ s.mem.read (some 0) RbNode.left = some (some 1)
        ∧ RbStep s (.insert (-2147483648) 3 2 rbJunk) s'
        ∧ s'.mem.read (some 0) RbNode.left = some (some 2)
        ∧ Returns (fun fuel => rbSearch fuel 2147483646 s'.root s'.mem) none)
      ∧ ¬ InsertsSound {k | IsInt32 k} := by
  obtain ⟨s, s', hrun, hbefore, hstep, hafter, hlost⟩ : ∃ s s' : RbState,
      Reaches RbStep .empty [.insert 2147483647 1 0 rbJunk, .insert 2147483646 2 1 rbJunk] s
        ∧ s.mem.read (some 0) RbNode.left = some (some 1)
        ∧ RbStep s (.insert (-2147483648) 3 2 rbJunk) s'
        ∧ s'.mem.read (some 0) RbNode.left = some (some 2)
        ∧ Returns (fun fuel => rbSearch fuel 2147483646 s'.root s'.mem) none :=
    ⟨_, _, .step (.step .start (.of_exec 4 rfl)) (.of_exec 4 rfl), rfl,
      .of_exec 4 rfl, rfl,
      returns_of_extends (n := 4) (fun n => rbSearch_extends n _ _ _) rfl⟩
  refine ⟨⟨s, s', hrun, hbefore, hstep, hafter, hlost⟩, fun hsound => ?_⟩
  obtain ⟨a, n, hret, -⟩ := (hsound _ s' (by simp [RbCall.isInsert, RbCall.key, IsInt32])
    (.step hrun hstep)).1 (.insert 2147483646 2 1 rbJunk) (by simp)
  exact absurd (hret.unique hlost) (by simp)

end Wgs
