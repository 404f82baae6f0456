import Wgs.Foundation.Heap

/-!
Doubly linked chains of nodes.

`chain p L q` are the nodes of the addresses and items `L`, linked to each other in both directions,
to `p` in front and to `q` behind.  Chains are cut and joined at any place (`chain_append`), and the
ends of a chain are relinked in place (`Mem.Holds.relinkFirst`, `Mem.Holds.relinkLast`); a program
that changes a list of nodes cuts it, relinks the ends of its parts and joins them again
(`Mem.Holds.join`).  `Follows` is what a reader of one of the links sees; nodes that are followed in
both directions are a chain (`holds_chain_of_follows`).
-/

namespace Foundation

/-- A node of a doubly linked list. -/
structure LinkNode (α : Type*) where
  data : α
  previous : Ptr
  next : Ptr
  deriving DecidableEq

namespace LinkNode

variable {α : Type*}

/-- The node with its link to the front replaced. -/
def setPrevious (p : Ptr) (n : LinkNode α) : LinkNode α := { n with previous := p }

/-- The node with its link to the back replaced. -/
def setNext (p : Ptr) (n : LinkNode α) : LinkNode α := { n with next := p }

end LinkNode

variable {α : Type*} {p q r : Ptr} {L xs ys : List (ℕ × α)}

/-! ### Chains -/

/-- The nodes of a list, linked to each other, to `p` in front and to `q` behind. -/
def chain (p : Ptr) : List (ℕ × α) → Ptr → List (ℕ × LinkNode α)
  | [], _ => []
  | (a, x) :: L, q => (a, ⟨x, p, firstOf q L⟩) :: chain (some a) L q

@[simp] lemma chain_nil : chain p ([] : List (ℕ × α)) q = [] := rfl

@[simp] lemma chain_cons {a : ℕ} {x : α} :
    chain p ((a, x) :: L) q = (a, ⟨x, p, firstOf q L⟩) :: chain (some a) L q := rfl

/-- **A chain cut in two**: each part is linked to the end of the other. -/
lemma chain_append :
    chain p (xs ++ ys) q = chain p xs (firstOf q ys) ++ chain (lastOf p xs) ys q := by
  induction xs generalizing p with
  | nil => rfl
  | cons c xs ih =>
      obtain ⟨a, x⟩ := c
      rw [List.cons_append, chain_cons, chain_cons, lastOf_cons, List.cons_append, ih,
        firstOf_append]

@[simp] lemma map_fst_chain : (chain p L q).map Prod.fst = L.map Prod.fst := by
  induction L generalizing p with
  | nil => rfl
  | cons c L ih =>
      obtain ⟨a, x⟩ := c
      rw [chain_cons, List.map_cons, List.map_cons, ih]

/-! ### Relinking the ends -/

namespace Mem

variable {m : Mem (LinkNode α)}

/-- `if (p != NULL) p->previous = r;` -/
def backLink (p r : Ptr) (m : Mem (LinkNode α)) : Option (Mem (LinkNode α)) :=
  if p = none then some m else m.modify p (LinkNode.setPrevious r)

@[simp] lemma backLink_some {a : ℕ} :
    backLink (some a) r m = m.modify (some a) (LinkNode.setPrevious r) := rfl

/-- **The first node is relinked**, if there is one in front of the end. -/
lemma Holds.relinkFirst (h : m.Holds (chain p L none)) (hnodup : (L.map Prod.fst).Nodup) (r : Ptr) :
    ∃ m', backLink (firstOf none L) r m = some m'
      ∧ m'.Holds (chain r L none) ∧ ∀ b ∉ L.map Prod.fst, m' b = m b := by
  cases L with
  | nil => exact ⟨m, rfl, holds_nil m, fun b _ => rfl⟩
  | cons c L =>
      obtain ⟨a, x⟩ := c
      rw [chain_cons, holds_cons] at h
      rw [List.map_cons, List.nodup_cons] at hnodup
      obtain ⟨m', hmodify, ha, hrest⟩ := modify_spec h.1 (LinkNode.setPrevious r)
      refine ⟨m', hmodify, holds_cons.mpr ⟨ha, h.2.frame fun b hb => ?_⟩, fun b hb => ?_⟩
      · rw [map_fst_chain] at hb
        exact hrest b (ne_of_mem_of_not_mem hb hnodup.1)
      · exact hrest b (List.ne_of_not_mem_cons hb)

/-- **The last node is relinked**: `p->next = r;` with `p` the back of a chain. -/
lemma Holds.relinkLast (h : m.Holds (chain p L q)) (hnodup : (L.map Prod.fst).Nodup) (hne : L ≠ [])
    (r : Ptr) :
    ∃ m', m.modify (lastOf p L) (LinkNode.setNext r) = some m'
      ∧ m'.Holds (chain p L r) ∧ ∀ b ∉ L.map Prod.fst, m' b = m b := by
  obtain ⟨xs, ⟨a, x⟩, rfl⟩ : ∃ xs c, L = xs ++ [c] :=
    ⟨_, _, (List.dropLast_append_getLast hne).symm⟩
  rw [chain_append, holds_append, chain_cons, holds_cons] at h
  obtain ⟨hxs, ha, -⟩ := h
  rw [List.map_append, List.nodup_append'] at hnodup
  have hnew : a ∉ xs.map Prod.fst := fun hmem => hnodup.2.2 hmem (by simp)
  obtain ⟨m', hmodify, ha', hrest⟩ := modify_spec ha (LinkNode.setNext r)
  refine ⟨m', by rwa [lastOf_append], ?_, fun b hb => hrest b ?_⟩
  · rw [chain_append, holds_append]
    refine ⟨hxs.frame fun b hb => ?_, by simpa [LinkNode.setNext] using ha'⟩
    rw [map_fst_chain] at hb
    exact hrest b (ne_of_mem_of_not_mem hb hnew)
  · rintro rfl
    simp at hb

/-- **A node goes between two parts of a chain**: the node, already linked to both, is made the
next of the part in front and then the previous of the part behind. -/
lemma Holds.insertLastFirst {a : ℕ} {x : α} (xs : List (ℕ × α))
    (h : m.Holds (chain p (xs ++ ys) none))
    (hnodup : ((xs ++ ys).map Prod.fst).Nodup) (hne : xs ≠ [])
    (ha : m a = some ⟨x, lastOf p xs, firstOf none ys⟩) (hnot : a ∉ (xs ++ ys).map Prod.fst) :
    ∃ m₁ m₂, m.modify (lastOf p xs) (LinkNode.setNext (some a)) = some m₁
      ∧ backLink (firstOf none ys) (some a) m₁ = some m₂
      ∧ m₂.Holds (chain p (xs ++ (a, x) :: ys) none)
      ∧ ∀ b ∉ (xs ++ ys).map Prod.fst, m₂ b = m b := by
  rw [chain_append, holds_append] at h
  rw [List.map_append, List.nodup_append'] at hnodup
  simp only [List.map_append, List.mem_append, not_or] at hnot ⊢
  obtain ⟨hxs, hys, hdisjoint⟩ := hnodup
  obtain ⟨m₁, hlast, hfront₁, hrest₁⟩ := h.1.relinkLast hxs hne (some a)
  have hback₁ : m₁.Holds (chain (lastOf p xs) ys none) := by
    refine h.2.frame fun b hb => hrest₁ b fun hmem => hdisjoint hmem ?_
    rwa [map_fst_chain] at hb
  obtain ⟨m₂, hfirst, hback₂, hrest₂⟩ := hback₁.relinkFirst hys (some a)
  have hfront₂ : m₂.Holds (chain p xs (some a)) := by
    refine hfront₁.frame fun b hb => hrest₂ b fun hmem => hdisjoint ?_ hmem
    rwa [map_fst_chain] at hb
  have ha₂ := ((hrest₂ a hnot.2).trans (hrest₁ a hnot.1)).trans ha
  refine ⟨m₁, m₂, hlast, hfirst, ?_, fun b hb => (hrest₂ b hb.2).trans (hrest₁ b hb.1)⟩
  rw [chain_append, holds_append]
  exact ⟨hfront₂, holds_cons.mpr ⟨ha₂, hback₂⟩⟩

/-- The same, with the part behind relinked before the part in front. -/
lemma Holds.insertFirstLast {a : ℕ} {x : α} (xs : List (ℕ × α))
    (h : m.Holds (chain p (xs ++ ys) none))
    (hnodup : ((xs ++ ys).map Prod.fst).Nodup) (hne : xs ≠ [])
    (ha : m a = some ⟨x, lastOf p xs, firstOf none ys⟩) (hnot : a ∉ (xs ++ ys).map Prod.fst) :
    ∃ m₁ m₂, backLink (firstOf none ys) (some a) m = some m₁
      ∧ m₁.modify (lastOf p xs) (LinkNode.setNext (some a)) = some m₂
      ∧ m₂.Holds (chain p (xs ++ (a, x) :: ys) none)
      ∧ ∀ b ∉ (xs ++ ys).map Prod.fst, m₂ b = m b := by
  rw [chain_append, holds_append] at h
  rw [List.map_append, List.nodup_append'] at hnodup
  simp only [List.map_append, List.mem_append, not_or] at hnot ⊢
  obtain ⟨hxs, hys, hdisjoint⟩ := hnodup
  obtain ⟨m₁, hfirst, hback₁, hrest₁⟩ := h.2.relinkFirst hys (some a)
  have hfront₁ : m₁.Holds (chain p xs (firstOf none ys)) := by
    refine h.1.frame fun b hb => hrest₁ b fun hmem => hdisjoint ?_ hmem
    rwa [map_fst_chain] at hb
  obtain ⟨m₂, hlast, hfront₂, hrest₂⟩ := hfront₁.relinkLast hxs hne (some a)
  have hback₂ : m₂.Holds (chain (some a) ys none) := by
    refine hback₁.frame fun b hb => hrest₂ b fun hmem => hdisjoint hmem ?_
    rwa [map_fst_chain] at hb
  have ha₂ := ((hrest₂ a hnot.1).trans (hrest₁ a hnot.2)).trans ha
  refine ⟨m₁, m₂, hfirst, hlast, ?_, fun b hb => (hrest₂ b hb.1).trans (hrest₁ b hb.2)⟩
  rw [chain_append, holds_append]
  exact ⟨hfront₂, holds_cons.mpr ⟨ha₂, hback₂⟩⟩

/-- **Two parts become one chain**: `p->next = q; if (q != NULL) q->previous = p;` with `p` the back
of the one and `q` the front of the other. -/
lemma Holds.join {q' : Ptr} (hxs : m.Holds (chain p xs q)) (hys : m.Holds (chain q' ys none))
    (hnodup : ((xs ++ ys).map Prod.fst).Nodup) (hne : xs ≠ []) :
    ∃ m₁ m₂, m.modify (lastOf p xs) (LinkNode.setNext (firstOf none ys)) = some m₁
      ∧ backLink (firstOf none ys) (lastOf p xs) m₁ = some m₂
      ∧ m₂.Holds (chain p (xs ++ ys) none) ∧ ∀ b ∉ (xs ++ ys).map Prod.fst, m₂ b = m b := by
  rw [List.map_append, List.nodup_append'] at hnodup
  obtain ⟨hnodup₁, hnodup₂, hdisjoint⟩ := hnodup
  obtain ⟨m₁, hlast, hfront₁, hrest₁⟩ := hxs.relinkLast hnodup₁ hne (firstOf none ys)
  have hback₁ : m₁.Holds (chain q' ys none) := by
    refine hys.frame fun b hb => hrest₁ b fun hmem => hdisjoint hmem ?_
    rwa [map_fst_chain] at hb
  obtain ⟨m₂, hfirst, hback₂, hrest₂⟩ := hback₁.relinkFirst hnodup₂ (lastOf p xs)
  have hfront₂ : m₂.Holds (chain p xs (firstOf none ys)) := by
    refine hfront₁.frame fun b hb => hrest₂ b fun hmem => hdisjoint ?_ hmem
    rwa [map_fst_chain] at hb
  refine ⟨m₁, m₂, hlast, hfirst, ?_, fun b hb => ?_⟩
  · rw [chain_append, holds_append]
    exact ⟨hfront₂, hback₂⟩
  · rw [List.map_append, List.mem_append, not_or] at hb
    rw [hrest₂ b hb.2, hrest₁ b hb.1]

end Mem

/-! ### Following a link -/

/-- Following a link from `p` visits the addresses in order and ends in null. -/
def Follows (link : LinkNode α → Ptr) (m : Mem (LinkNode α)) : Ptr → List ℕ → Prop
  | p, [] => p = none
  | p, a :: as => p = some a ∧ ∃ n, m a = some n ∧ Follows link m (link n) as

variable {m : Mem (LinkNode α)}

/-- Forwards, a chain is followed from its first node. -/
lemma follows_next (h : m.Holds (chain p L none)) :
    Follows LinkNode.next m (firstOf none L) (L.map Prod.fst) := by
  induction L generalizing p with
  | nil => rfl
  | cons c L ih =>
      obtain ⟨a, x⟩ := c
      rw [chain_cons, Mem.holds_cons] at h
      exact ⟨rfl, _, h.1, ih h.2⟩

/-- Backwards, a chain is followed from its last node. -/
lemma follows_previous (h : m.Holds (chain none L q)) :
    Follows LinkNode.previous m (lastOf none L) (L.map Prod.fst).reverse := by
  induction L using List.reverseRecOn generalizing q with
  | nil => rfl
  | append_singleton L c ih =>
      obtain ⟨a, x⟩ := c
      rw [chain_append, Mem.holds_append, chain_cons, Mem.holds_cons] at h
      rw [lastOf_append, List.map_append, List.reverse_append]
      exact ⟨rfl, _, h.2.1, ih h.1⟩

namespace Follows

variable {link : LinkNode α → Ptr} {as bs : List ℕ}

lemma head_eq (h : Follows link m p as) : p = as.head? := by
  cases as with
  | nil => exact h
  | cons a as => exact h.1

/-- From a node on the way, the rest of the way is followed. -/
lemma drop (h : Follows link m p (as ++ bs)) : Follows link m bs.head? bs := by
  induction as generalizing p with
  | nil => exact h.head_eq ▸ h
  | cons a as ih =>
      obtain ⟨-, n, -, hrest⟩ := h
      exact ih hrest

end Follows

/-- **Nodes that are followed in both directions are a chain.** -/
lemma holds_chain_of_follows {as : List ℕ}
    (hnext : Follows LinkNode.next m (L.map Prod.fst).head? (L.map Prod.fst))
    (hprevious : Follows LinkNode.previous m p ((L.map Prod.fst).reverse ++ as))
    (hdata : ∀ c ∈ L, ∃ n, m c.1 = some n ∧ n.data = c.2) :
    m.Holds (chain as.head? L none) := by
  induction L generalizing as with
  | nil => exact Mem.holds_nil m
  | cons c L ih =>
      obtain ⟨a, x⟩ := c
      obtain ⟨-, n, hn, hrest⟩ := hnext
      rw [List.map_cons, List.reverse_cons, List.append_assoc] at hprevious
      -- the node in front of `a` is the first of `as`
      obtain ⟨-, n', hn', hfront⟩ := hprevious.drop
      obtain rfl := Option.some_inj.mp (hn.symm.trans hn')
      obtain ⟨n', hn', hx⟩ := hdata (a, x) List.mem_cons_self
      obtain rfl := Option.some_inj.mp (hn.symm.trans hn')
      have hdata' : n.data = x := hx
      have hprevious' : n.previous = as.head? := hfront.head_eq
      have hfirst : n.next = firstOf none L := by
        rw [hrest.head_eq]
        cases L <;> rfl
      have hnode : n = ⟨x, as.head?, firstOf none L⟩ := by
        rw [← hdata', ← hprevious', ← hfirst]
      rw [chain_cons, Mem.holds_cons]
      exact ⟨hnode ▸ hn, ih (hrest.head_eq ▸ hrest) hprevious
        fun c hc => hdata c (List.mem_cons_of_mem _ hc)⟩

/-- The nodes of a chain hold its items. -/
lemma data_of_mem_chain (h : m.Holds (chain p L q)) :
    ∀ c ∈ L, ∃ n, m c.1 = some n ∧ n.data = c.2 := by
  induction L generalizing p with
  | nil => simp
  | cons d L ih =>
      rw [chain_cons, Mem.holds_cons] at h
      intro c hc
      rcases List.mem_cons.mp hc with rfl | hc
      · exact ⟨_, h.1, rfl⟩
      · exact ih h.2 c hc

/-- One step forwards. -/
lemma read_next (h : m.Holds (chain p L none)) {i a : ℕ} (ha : (L.map Prod.fst)[i]? = some a) :
    m.read (some a) LinkNode.next = some (L.map Prod.fst)[i + 1]? := by
  induction L generalizing p i with
  | nil => simp at ha
  | cons c L ih =>
      obtain ⟨b, x⟩ := c
      rw [chain_cons, Mem.holds_cons] at h
      cases i with
      | zero =>
          obtain rfl : b = a := by simpa using ha
          rw [Mem.read_eq h.1]
          cases L <;> rfl
      | succ i => exact ih h.2 (by simpa using ha)

end Foundation
