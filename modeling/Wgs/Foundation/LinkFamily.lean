import Wgs.Foundation.DoublyLinked

/-!
Families of doubly linked lists.

The nodes of several lists live in one memory of links, and a node is in one list at most
(`LinkFamily`).  What a program does to such a list is stated by what it leaves to be read: a node
goes between two parts of a list when the ends of the parts are linked to it
(`LinkFamily.insert`), and it leaves them when they are linked to each other (`LinkFamily.remove`);
in which order a program writes the links does not matter.  The writes that take a node out are
those of `LinkFamily.join` and `LinkFamily.takeOut`.
-/

namespace Foundation

/-- A memory of links. -/
abbrev Links := Mem (LinkNode Unit)

/-- The nodes of a list of addresses. -/
def cells (L : List ℕ) : List (ℕ × Unit) := L.map fun a => (a, ())

section Cells

variable {L xs ys : List ℕ} {a : ℕ}

@[simp] lemma cells_nil : cells [] = [] := rfl

@[simp] lemma cells_cons : cells (a :: L) = (a, ()) :: cells L := rfl

@[simp] lemma cells_append : cells (xs ++ ys) = cells xs ++ cells ys := List.map_append

@[simp] lemma map_fst_cells : (cells L).map Prod.fst = L := by
  rw [cells, List.map_map]
  exact List.map_id L

@[simp] lemma firstOf_cells : firstOf none (cells L) = L.head? := by
  cases L <;> rfl

@[simp] lemma lastOf_cells : lastOf none (cells L) = L.getLast? := by
  cases L with
  | nil => rfl
  | cons a L => rw [cells_cons, lastOf_cons, lastOf_eq_getLast?, map_fst_cells]

end Cells

namespace Mem.Holds

variable {m m' : Links} {p q r : Ptr} {L : List ℕ} {a b : ℕ}

/-- Two lists with one first node are one list. -/
lemma cells_unique {K : List ℕ} (h : m.Holds (chain p (cells L) none))
    (hK : m.Holds (chain q (cells K) none)) (hhead : L.head? = K.head?) : L = K := by
  induction L generalizing p q K with
  | nil => exact (List.head?_eq_none_iff.mp hhead.symm).symm
  | cons a L ih =>
      cases K with
      | nil => simp at hhead
      | cons b K =>
          obtain rfl : a = b := by simpa using hhead
          simp only [cells_cons, chain_cons, holds_cons, firstOf_cells] at h hK
          have hnext := congrArg LinkNode.next (Option.some_inj.mp (h.1.symm.trans hK.1))
          exact congrArg (a :: ·) (ih h.2 hK.2 hnext)

/-- The last node of a chain is linked on to something else. -/
lemma relast (h : m.Holds (chain p (cells L) q)) (hnodup : L.Nodup)
    (hlast : ∀ b, L.getLast? = some b → m' b = (m b).map (LinkNode.setNext r))
    (hrest : ∀ b ∈ L, L.getLast? ≠ some b → m' b = m b) : m'.Holds (chain p (cells L) r) := by
  rcases L.eq_nil_or_concat with rfl | ⟨xs, a, rfl⟩
  · exact holds_nil m'
  · rw [List.concat_eq_append] at *
    simp only [cells_append, chain_append, holds_append, cells_cons, cells_nil, chain_cons,
      holds_cons, chain_nil, firstOf_nil, firstOf_cons] at h ⊢
    obtain ⟨hxs, ha, -⟩ := h
    have hlast' := hlast a (by simp)
    rw [ha] at hlast'
    refine ⟨hxs.frame fun b hb => hrest b ?_ ?_, hlast', holds_nil _⟩
    all_goals
      rw [map_fst_chain, map_fst_cells] at hb
    · exact List.mem_append_left _ hb
    · rw [List.getLast?_concat, Ne, Option.some_inj]
      rintro rfl
      exact (List.nodup_append.mp hnodup).2.2 a hb a (by simp) rfl

/-- The first node of a chain is linked back to something else. -/
lemma refirst (h : m.Holds (chain p (cells L) q)) (hnodup : L.Nodup)
    (hfirst : ∀ b, L.head? = some b → m' b = (m b).map (LinkNode.setPrevious r))
    (hrest : ∀ b ∈ L, L.head? ≠ some b → m' b = m b) : m'.Holds (chain r (cells L) q) := by
  cases L with
  | nil => exact holds_nil m'
  | cons a L =>
      rw [cells_cons, chain_cons, holds_cons] at h
      have hfirst' := hfirst a rfl
      rw [h.1] at hfirst'
      rw [List.nodup_cons] at hnodup
      refine holds_cons.mpr ⟨hfirst', h.2.frame fun b hb => hrest b ?_ ?_⟩
      all_goals
        rw [map_fst_chain, map_fst_cells] at hb
      · exact List.mem_cons_of_mem a hb
      · rw [List.head?_cons, Ne, Option.some_inj]
        rintro rfl
        exact hnodup.1 hb

end Mem.Holds

variable {ι : Type*} {m m' : Links} {L : ι → List ℕ}

/-- Every list of the family is linked in both directions, and no node is in two lists. -/
structure LinkFamily (m : Links) (L : ι → List ℕ) : Prop where
  linked : ∀ i, m.Holds (chain none (cells (L i)) none)
  nodup : ∀ i, (L i).Nodup
  apart : ∀ i j, i ≠ j → List.Disjoint (L i) (L j)

/-- The last node of `xs` and the first one of `ys` are linked to each other. -/
structure Joined (m m' : Links) (xs ys : List ℕ) : Prop where
  last : ∀ b, xs.getLast? = some b → m' b = (m b).map (LinkNode.setNext ys.head?)
  first : ∀ b, ys.head? = some b → m' b = (m b).map (LinkNode.setPrevious xs.getLast?)
  rest : ∀ b, xs.getLast? ≠ some b → ys.head? ≠ some b → m' b = m b

lemma Joined.ne_none {xs ys : List ℕ} {b : ℕ} (h : Joined m m' xs ys) (hb : m b ≠ none) :
    m' b ≠ none := by
  by_cases hl : xs.getLast? = some b
  · simpa [h.last b hl] using hb
  · by_cases hf : ys.head? = some b
    · simpa [h.first b hf] using hb
    · rwa [h.rest b hl hf]

namespace LinkFamily

variable {i : ι} {a b : ℕ} {xs ys : List ℕ}

/-- A node of a list, with its neighbours. -/
lemma node (h : LinkFamily m L) (xs : List ℕ) {ys : List ℕ} (hi : L i = xs ++ a :: ys) :
    m a = some ⟨(), xs.getLast?, ys.head?⟩ := by
  have hlinked := h.linked i
  rw [hi, cells_append, chain_append, Mem.holds_append, cells_cons, chain_cons, Mem.holds_cons,
    lastOf_cells, firstOf_cells] at hlinked
  exact hlinked.2.1

lemma notMem_of_ne (h : LinkFamily m L) (ha : a ∈ L i) {j : ι} (hj : j ≠ i) : a ∉ L j :=
  fun hmem => h.apart j i hj hmem ha

/-- The nodes of the family are as they were. -/
lemma frame (h : LinkFamily m L) (hrest : ∀ i, ∀ b ∈ L i, m' b = m b) : LinkFamily m' L where
  linked i := (h.linked i).frame fun b hb => hrest i b (by rwa [map_fst_chain, map_fst_cells] at hb)
  nodup := h.nodup
  apart := h.apart

variable [DecidableEq ι]

/-- A node leaves the only list it is in. -/
lemma erase_eq (h : LinkFamily m L) {xs ys : List ℕ} (hi : L i = xs ++ a :: ys) (ha : a ∉ xs) :
    (fun j => (L j).erase a) = Function.update L i (xs ++ ys) := by
  funext j
  rcases eq_or_ne j i with rfl | hj
  · rw [Function.update_self, hi, List.erase_append_right _ ha, List.erase_cons_head]
  · rw [Function.update_of_ne hj, List.erase_of_not_mem]
    exact h.notMem_of_ne (hi ▸ by simp) hj

/-- One list of the family becomes another one, apart from the others. -/
lemma change (h : LinkFamily m L) {K : List ℕ} (hlinked : m'.Holds (chain none (cells K) none))
    (hnodup : K.Nodup) (hapart : ∀ j ≠ i, List.Disjoint (L j) K)
    (hrest : ∀ j ≠ i, ∀ b ∈ L j, m' b = m b) : LinkFamily m' (Function.update L i K) where
  linked j := by
    rcases eq_or_ne j i with rfl | hj
    · rwa [Function.update_self]
    · rw [Function.update_of_ne hj]
      refine (h.linked j).frame fun b hb => hrest j hj b ?_
      rwa [map_fst_chain, map_fst_cells] at hb
  nodup j := by
    rcases eq_or_ne j i with rfl | hj
    · rwa [Function.update_self]
    · rw [Function.update_of_ne hj]
      exact h.nodup j
  apart j j' hne := by
    rcases eq_or_ne j i with rfl | hj
    · rw [Function.update_self, Function.update_of_ne hne.symm]
      exact (hapart j' hne.symm).symm
    · rcases eq_or_ne j' i with rfl | hj'
      · rw [Function.update_self, Function.update_of_ne hj]
        exact hapart j hj
      · rw [Function.update_of_ne hj, Function.update_of_ne hj']
        exact h.apart j j' hne

/-- **A node goes between two parts of a list.** -/
lemma insert (h : LinkFamily m L) (xs ys : List ℕ) (hi : L i = xs ++ ys) (hnew : ∀ j, a ∉ L j)
    (hnode : m' a = some ⟨(), xs.getLast?, ys.head?⟩)
    (hlast : ∀ b, xs.getLast? = some b → m' b = (m b).map (LinkNode.setNext (some a)))
    (hfirst : ∀ b, ys.head? = some b → m' b = (m b).map (LinkNode.setPrevious (some a)))
    (hrest : ∀ b, b ≠ a → xs.getLast? ≠ some b → ys.head? ≠ some b → m' b = m b) :
    LinkFamily m' (Function.update L i (xs ++ a :: ys)) := by
  have hlinked := h.linked i
  have hnodup := h.nodup i
  have hai := hnew i
  rw [hi, List.mem_append, not_or] at hai
  rw [hi, cells_append, chain_append, Mem.holds_append, firstOf_cells, lastOf_cells] at hlinked
  rw [hi] at hnodup
  obtain ⟨hnodupx, hnodupy, hdisjoint⟩ := List.nodup_append'.mp hnodup
  have hlastmem : ∀ {b}, xs.getLast? = some b → b ∈ xs := fun hb => List.mem_of_getLast? hb
  have hfirstmem : ∀ {b}, ys.head? = some b → b ∈ ys := fun hb => List.mem_of_head? hb
  refine h.change ?_ ?_ (fun j hj => ?_) fun j hj b hb => ?_
  · rw [cells_append, chain_append, Mem.holds_append, cells_cons, chain_cons, Mem.holds_cons,
      lastOf_cells, firstOf_cells]
    refine ⟨hlinked.1.relast hnodupx hlast fun b hb hne => ?_, hnode,
      hlinked.2.refirst hnodupy hfirst fun b hb hne => ?_⟩
    · exact hrest b (ne_of_mem_of_not_mem hb hai.1) hne fun hb' => hdisjoint hb (hfirstmem hb')
    · exact hrest b (ne_of_mem_of_not_mem hb hai.2) (fun hb' => hdisjoint (hlastmem hb') hb) hne
  · rw [List.nodup_middle, List.nodup_cons, List.mem_append, not_or]
    exact ⟨hai, hnodup⟩
  · intro b hb hmem
    rw [List.mem_append, List.mem_cons] at hmem
    have hji := h.notMem_of_ne hb hj.symm
    rw [hi, List.mem_append, not_or] at hji
    rcases hmem with hmem | rfl | hmem
    · exact hji.1 hmem
    · exact hnew j hb
    · exact hji.2 hmem
  · have hji := h.notMem_of_ne hb hj.symm
    rw [hi, List.mem_append, not_or] at hji
    exact hrest b (ne_of_mem_of_not_mem hb (hnew j)) (fun hb' => hji.1 (hlastmem hb'))
      fun hb' => hji.2 (hfirstmem hb')

/-- **A node leaves a list**: its neighbours are linked to each other. -/
lemma remove (h : LinkFamily m L) (xs : List ℕ) {ys : List ℕ} (hi : L i = xs ++ a :: ys)
    (hlast : ∀ b, xs.getLast? = some b → m' b = (m b).map (LinkNode.setNext ys.head?))
    (hfirst : ∀ b, ys.head? = some b → m' b = (m b).map (LinkNode.setPrevious xs.getLast?))
    (hrest : ∀ b, b ≠ a → xs.getLast? ≠ some b → ys.head? ≠ some b → m' b = m b) :
    LinkFamily m' (Function.update L i (xs ++ ys)) := by
  have hlinked := h.linked i
  have hnodup := h.nodup i
  rw [hi, cells_append, chain_append, Mem.holds_append, cells_cons, chain_cons, Mem.holds_cons,
    firstOf_cons, firstOf_cells, lastOf_cells] at hlinked
  rw [hi, List.nodup_middle, List.nodup_cons, List.mem_append, not_or] at hnodup
  obtain ⟨hnodupx, hnodupy, hdisjoint⟩ := List.nodup_append'.mp hnodup.2
  have hlastmem : ∀ {b}, xs.getLast? = some b → b ∈ xs := fun hb => List.mem_of_getLast? hb
  have hfirstmem : ∀ {b}, ys.head? = some b → b ∈ ys := fun hb => List.mem_of_head? hb
  have hapart : ∀ j, j ≠ i → ∀ b ∈ L j, b ∉ xs ∧ b ≠ a ∧ b ∉ ys := by
    intro j hj b hb
    have hji := h.notMem_of_ne hb hj.symm
    rw [hi, List.mem_append, List.mem_cons, not_or, not_or] at hji
    exact hji
  refine h.change ?_ hnodup.2 (fun j hj b hb hmem => ?_) fun j hj b hb => ?_
  · rw [cells_append, chain_append, Mem.holds_append, lastOf_cells, firstOf_cells]
    refine ⟨hlinked.1.relast hnodupx hlast fun b hb hne => ?_,
      hlinked.2.2.refirst hnodupy hfirst fun b hb hne => ?_⟩
    · exact hrest b (ne_of_mem_of_not_mem hb hnodup.1.1) hne fun hb' => hdisjoint hb (hfirstmem hb')
    · exact hrest b (ne_of_mem_of_not_mem hb hnodup.1.2) (fun hb' => hdisjoint (hlastmem hb') hb)
        hne
  · rw [List.mem_append] at hmem
    obtain ⟨hx, -, hy⟩ := hapart j hj b hb
    exact hmem.elim hx hy
  · obtain ⟨hx, ha, hy⟩ := hapart j hj b hb
    exact hrest b ha (fun hb' => hx (hlastmem hb')) fun hb' => hy (hfirstmem hb')

omit [DecidableEq ι] in
/-- The neighbours of a node are linked to each other by one write to each of them. -/
lemma join (h : LinkFamily m L) (hi : L i = xs ++ a :: ys) :
    ∃ m₁ m₂, (xs = [] → m₁ = m)
      ∧ (∀ b, xs.getLast? = some b → m.modify (some b) (LinkNode.setNext ys.head?) = some m₁)
      ∧ m₁.backLink ys.head? xs.getLast? = some m₂ ∧ Joined m m₂ xs ys := by
  have hnodup := h.nodup i
  rw [hi, List.nodup_middle, List.nodup_cons, List.nodup_append'] at hnodup
  obtain ⟨-, -, -, hdisjoint⟩ := hnodup
  have hapart : ∀ b, xs.getLast? = some b → ys.head? ≠ some b := fun b hl hf =>
    hdisjoint (List.mem_of_getLast? hl) (List.mem_of_head? hf)
  -- the node in front
  have hfront : ∃ m₁, (xs = [] → m₁ = m)
      ∧ (∀ b, xs.getLast? = some b → m.modify (some b) (LinkNode.setNext ys.head?) = some m₁)
      ∧ (∀ b, xs.getLast? = some b → m₁ b = (m b).map (LinkNode.setNext ys.head?))
      ∧ ∀ b, xs.getLast? ≠ some b → m₁ b = m b := by
    rcases xs.eq_nil_or_concat with rfl | ⟨xs, c, rfl⟩
    · exact ⟨m, fun _ => rfl, by simp, by simp, fun _ _ => rfl⟩
    · have hlast : (xs.concat c).getLast? = some c := by simp
      have hc := h.node xs (by simpa using hi : L i = xs ++ c :: a :: ys)
      obtain ⟨m₁, hm₁, hcm, hrest⟩ := Mem.modify_spec hc (LinkNode.setNext ys.head?)
      refine ⟨m₁, fun hnil => by simp at hnil, fun b hb => ?_, fun b hb => ?_,
        fun b hb => hrest b fun heq => hb (heq ▸ hlast)⟩
      all_goals obtain rfl : c = b := Option.some_inj.mp (hlast.symm.trans hb)
      · exact hm₁
      · rw [hcm, hc]
        rfl
  obtain ⟨m₁, hnil, hwrite, hlast, hrest⟩ := hfront
  -- the node behind
  have hback : ∃ m₂, m₁.backLink ys.head? xs.getLast? = some m₂
      ∧ (∀ b, ys.head? = some b → m₂ b = (m b).map (LinkNode.setPrevious xs.getLast?))
      ∧ ∀ b, ys.head? ≠ some b → m₂ b = m₁ b := by
    cases ys with
    | nil => exact ⟨m₁, rfl, by simp, fun _ _ => rfl⟩
    | cons c ys =>
        have hc := h.node (xs ++ [a]) (by rw [hi]; simp : L i = _ ++ c :: ys)
        have hc₁ : m₁ c = m c := hrest c fun hl => hapart c hl rfl
        obtain ⟨m₂, hm₂, hcm, hrest₂⟩ :=
          Mem.modify_spec (hc₁.trans hc) (LinkNode.setPrevious xs.getLast?)
        refine ⟨m₂, hm₂, fun b hb => ?_, fun b hb => hrest₂ b fun heq => hb (by simp [heq])⟩
        obtain rfl : c = b := by simpa using hb
        rw [hcm, hc]
        rfl
  obtain ⟨m₂, hm₂, hfirst, hrest₂⟩ := hback
  refine ⟨m₁, m₂, hnil, hwrite, hm₂, fun b hb => ?_, hfirst, fun b hl hf => ?_⟩
  · rw [hrest₂ b (hapart b hb), hlast b hb]
  · rw [hrest₂ b hf, hrest b hl]

/-- **A node is taken out**: its neighbours are linked to each other, and then its own links are
written. -/
lemma takeOut (h : LinkFamily m L) (hi : L i = xs ++ a :: ys) (hjoin : Joined m m' xs ys)
    (f : LinkNode Unit → LinkNode Unit) :
    ∃ links, m'.modify (some a) f = some links ∧ LinkFamily links (Function.update L i (xs ++ ys))
      ∧ ∀ b, m b ≠ none → links b ≠ none := by
  have hnodup := h.nodup i
  rw [hi, List.nodup_middle, List.nodup_cons, List.mem_append, not_or] at hnodup
  obtain ⟨⟨hax, hay⟩, -⟩ := hnodup
  have hkept : m' a = m a := hjoin.rest a (fun hl => hax (List.mem_of_getLast? hl))
    fun hf => hay (List.mem_of_head? hf)
  obtain ⟨links, hlinks, -, hrest⟩ := Mem.modify_spec (hkept.trans (h.node xs hi)) f
  refine ⟨links, hlinks, h.remove xs hi (fun b hb => ?_) (fun b hb => ?_) fun b hba hbl hbf => ?_,
    fun b hb => Mem.modify_ne_none hlinks (hjoin.ne_none hb)⟩
  · rw [hrest b (ne_of_mem_of_not_mem (List.mem_of_getLast? hb) hax), hjoin.last b hb]
  · rw [hrest b (ne_of_mem_of_not_mem (List.mem_of_head? hb) hay), hjoin.first b hb]
  · rw [hrest b hba, hjoin.rest b hbl hbf]

/-- **The first node of a list becomes the last one.** -/
lemma rotate (h : LinkFamily m L) {ys : List ℕ} (hi : L i = a :: b :: ys)
    (hnode : m' a = some ⟨(), (b :: ys).getLast?, none⟩)
    (hlast : ∀ c, (b :: ys).getLast? = some c → c ≠ b →
      m' c = (m c).map (LinkNode.setNext (some a)))
    (honly : (b :: ys).getLast? = some b →
      m' b = (m b).map fun n => (n.setPrevious none).setNext (some a))
    (hfirst : (b :: ys).getLast? ≠ some b → m' b = (m b).map (LinkNode.setPrevious none))
    (hrest : ∀ c, c ≠ a → c ≠ b → (b :: ys).getLast? ≠ some c → m' c = m c) :
    LinkFamily m' (Function.update L i (b :: ys ++ [a])) := by
  have hnodup := h.nodup i
  rw [hi, List.nodup_cons] at hnodup
  have hba : b ≠ a := fun heq => hnodup.1 (heq ▸ List.mem_cons_self)
  -- the first node is taken away, and then it is put behind the others
  have hmiddle : LinkFamily (Function.update m b ((m b).map (LinkNode.setPrevious none)))
      (Function.update L i (b :: ys)) := by
    refine h.remove [] hi (by simp) (fun c hc => ?_) fun c _ _ hcb => ?_
    · obtain rfl : b = c := by simpa using hc
      exact Function.update_self _ _ _
    · exact Function.update_of_ne (fun heq => hcb (by simp [heq])) _ _
  have hnew : ∀ j, a ∉ Function.update L i (b :: ys) j := by
    intro j
    rcases eq_or_ne j i with rfl | hj
    · rw [Function.update_self]
      exact hnodup.1
    · rw [Function.update_of_ne hj]
      exact h.notMem_of_ne (hi ▸ List.mem_cons_self) hj
  have hend := hmiddle.insert (i := i) (b :: ys) [] (by simp) hnew hnode (fun c hc => ?_) (by simp)
    fun c hca hc _ => ?_
  · rwa [Function.update_idem] at hend
  · rcases eq_or_ne c b with rfl | hcb
    · rw [Function.update_self, honly hc, Option.map_map]
      rfl
    · rw [Function.update_of_ne hcb]
      exact hlast c hc hcb
  · rcases eq_or_ne c b with rfl | hcb
    · rw [Function.update_self, hfirst hc]
    · rw [Function.update_of_ne hcb]
      exact hrest c hca hcb hc

end LinkFamily

/-! ### Lists in an order -/

/-- A node goes behind the first ones of a list that have a property. -/
def placeBehind (P : ℕ → Bool) (a : ℕ) (L : List ℕ) : List ℕ := L.takeWhile P ++ a :: L.dropWhile P

section PlaceBehind

variable {P : ℕ → Bool} {a b : ℕ} {L : List ℕ}

lemma perm_placeBehind : (placeBehind P a L).Perm (a :: L) := by
  refine List.perm_middle.trans ?_
  rw [List.takeWhile_append_dropWhile]

lemma mem_placeBehind : b ∈ placeBehind P a L ↔ b = a ∨ b ∈ L := by
  rw [perm_placeBehind.mem_iff, List.mem_cons]

lemma placeBehind_congr {Q : ℕ → Bool} (h : ∀ x ∈ L, P x = Q x) :
    placeBehind P a L = placeBehind Q a L := by
  induction L with
  | nil => rfl
  | cons x L ih =>
      have hrest := ih fun y hy => h y (List.mem_cons_of_mem x hy)
      simp only [placeBehind] at hrest ⊢
      cases hx : Q x with
      | true => simp [h x, hx, hrest]
      | false => simp [h x, hx]

lemma length_placeBehind : (placeBehind P a L).length = L.length + 1 := perm_placeBehind.length_eq

/-- Behind the keys that are not greater, or before the keys that are not less, a node keeps an
order by keys. -/
lemma pairwise_placeBehind {key : ℕ → ℕ} (h : L.Pairwise fun x y => key x ≤ key y)
    (hP : ∀ x, P x = true → key x ≤ key a) (hnot : ∀ x, P x = false → key a ≤ key x) :
    (placeBehind P a L).Pairwise fun x y => key x ≤ key y := by
  induction L with
  | nil => simp [placeBehind]
  | cons x L ih =>
      rw [List.pairwise_cons] at h
      cases hx : P x with
      | true =>
          have hrest : placeBehind P a (x :: L) = x :: placeBehind P a L := by
            simp [placeBehind, hx]
          rw [hrest, List.pairwise_cons]
          refine ⟨fun y hy => ?_, ih h.2⟩
          rcases mem_placeBehind.mp hy with rfl | hy
          · exact hP x hx
          · exact h.1 y hy
      | false =>
          have hrest : placeBehind P a (x :: L) = a :: x :: L := by simp [placeBehind, hx]
          rw [hrest, List.pairwise_cons, List.pairwise_cons]
          refine ⟨fun y hy => ?_, h⟩
          rcases List.mem_cons.mp hy with rfl | hy
          · exact hnot y hx
          · exact (hnot x hx).trans (h.1 y hy)

end PlaceBehind

end Foundation
