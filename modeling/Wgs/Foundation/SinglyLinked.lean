import Wgs.Foundation.Heap
import Wgs.Foundation.Runs

/-!
Singly linked chains of nodes.

`links L q` are the nodes of the addresses and items `L`, each linked to the next one and the last
one to `q`.  A chain is cut and joined at any place (`links_append`), and its last node is relinked
in place (`Mem.Holds.linkLast`), to another chain for example (`Mem.Holds.attach`).  A pointer to a
chain that comes to an end is a `Mem.Chain`; such a chain has no node twice (`Mem.Holds.nodup`).  A
loop along a chain is a recursion on the list of its nodes: `visit` reads the items, `freeChain`
releases the nodes.
-/

namespace Foundation

/-- A node of a singly linked list. -/
structure SingleNode (α : Type*) where
  data : α
  next : Ptr
  deriving DecidableEq

namespace SingleNode

variable {α : Type*}

/-- The node with its item replaced. -/
def setData (x : α) (n : SingleNode α) : SingleNode α := { n with data := x }

/-- The node with its link replaced. -/
def setNext (p : Ptr) (n : SingleNode α) : SingleNode α := { n with next := p }

end SingleNode

variable {α : Type*} {p q r : Ptr} {L xs ys : List (ℕ × α)} {m : Mem (SingleNode α)}

/-! ### Chains -/

/-- The nodes of a list, each linked to the next one and the last one to `q`. -/
def links : List (ℕ × α) → Ptr → List (ℕ × SingleNode α)
  | [], _ => []
  | (a, x) :: L, q => (a, ⟨x, firstOf q L⟩) :: links L q

@[simp] lemma links_nil : links ([] : List (ℕ × α)) q = [] := rfl

@[simp] lemma links_cons {a : ℕ} {x : α} :
    links ((a, x) :: L) q = (a, ⟨x, firstOf q L⟩) :: links L q := rfl

/-- **A chain cut in two**: the first part is linked to the second. -/
lemma links_append : links (xs ++ ys) q = links xs (firstOf q ys) ++ links ys q := by
  induction xs with
  | nil => rfl
  | cons c xs ih =>
      obtain ⟨a, x⟩ := c
      rw [List.cons_append, links_cons, links_cons, List.cons_append, ih, firstOf_append]

@[simp] lemma map_fst_links : (links L q).map Prod.fst = L.map Prod.fst := by
  induction L with
  | nil => rfl
  | cons c L ih =>
      obtain ⟨a, x⟩ := c
      rw [links_cons, List.map_cons, List.map_cons, ih]

/-- A node of a chain. -/
lemma Mem.Holds.node {a : ℕ} {x : α} (h : m.Holds (links (xs ++ (a, x) :: ys) q)) :
    m a = some ⟨x, firstOf q ys⟩ := by
  rw [links_append, holds_append, links_cons, holds_cons] at h
  exact h.2.1

/-- The first node of a chain. -/
lemma Mem.Holds.head {a : ℕ} {x : α} (h : m.Holds (links ((a, x) :: ys) q)) :
    m a = some ⟨x, firstOf q ys⟩ := (holds_cons.mp h).1

/-- The chain from some node of it on. -/
lemma Mem.Holds.drop_links {a : ℕ} {x : α} (h : m.Holds (links ((a, x) :: xs ++ ys) q)) :
    ∃ b y, lastOf (some a) xs = some b ∧ m.Holds (links ((b, y) :: ys) q) := by
  induction xs generalizing a x with
  | nil => exact ⟨a, x, rfl, h⟩
  | cons c xs ih => exact ih (holds_cons.mp h).2

/-- A memory holds one chain from an address, at most. -/
lemma Mem.Holds.links_unique {M : List (ℕ × α)} (hL : m.Holds (links L none))
    (hM : m.Holds (links M none)) (hfirst : firstOf none L = firstOf none M) : L = M := by
  induction L generalizing M with
  | nil =>
      cases M with
      | nil => rfl
      | cons c M => cases hfirst
  | cons c L ih =>
      cases M with
      | nil => cases hfirst
      | cons c' M =>
          obtain ⟨a, x⟩ := c
          obtain ⟨a', x'⟩ := c'
          obtain rfl : a = a' := by simpa using hfirst
          rw [links_cons, holds_cons] at hL hM
          obtain ⟨rfl, hnext⟩ : x = x' ∧ firstOf none L = firstOf none M := by
            simpa using hL.1.symm.trans hM.1
          rw [ih hL.2 hM.2 hnext]

/-- **A chain that comes to an end has no node twice.** -/
lemma Mem.Holds.nodup (h : m.Holds (links L none)) : (L.map Prod.fst).Nodup := by
  induction L with
  | nil => exact List.nodup_nil
  | cons c L ih =>
      obtain ⟨a, x⟩ := c
      have htail : m.Holds (links L none) := by
        rw [links_cons, holds_cons] at h
        exact h.2
      refine List.nodup_cons.mpr ⟨fun hmem => ?_, ih htail⟩
      -- the chain from the second occurrence on would be the whole one
      obtain ⟨⟨b, y⟩, hc, rfl⟩ := List.mem_map.mp hmem
      obtain ⟨us, vs, rfl⟩ := List.append_of_mem hc
      have hsuffix : m.Holds (links ((b, y) :: vs) none) := by
        rw [links_append, holds_append] at htail
        exact htail.2
      have heq := congrArg List.length (h.links_unique hsuffix rfl)
      simp only [List.length_cons, List.length_append] at heq
      omega

/-- `p` points to the chain of the nodes `L`, which comes to an end. -/
structure Mem.Chain (m : Mem (SingleNode α)) (p : Ptr) (L : List (ℕ × α)) : Prop where
  first : p = firstOf none L
  nodes : m.Holds (links L none)

namespace Mem.Chain

/-- An address that is not allocated is not that of a node. -/
lemma not_mem {a : ℕ} (h : m.Chain p L) (ha : m a = none) : a ∉ L.map Prod.fst := by
  simpa only [map_fst_links] using h.nodes.not_mem ha

/-- The memory of the nodes of a chain, and no other. -/
lemma ofCells (hnodup : (L.map Prod.fst).Nodup) :
    (Mem.ofCells (links L none)).Chain (firstOf none L) L :=
  ⟨rfl, holds_ofCells (by rwa [map_fst_links])⟩

lemma nodup (h : m.Chain p L) : (L.map Prod.fst).Nodup := h.nodes.nodup

/-- The chain from some node of it on. -/
lemma drop (h : m.Chain p (xs ++ ys)) : m.Chain (firstOf none ys) ys := by
  refine ⟨rfl, ?_⟩
  have hnodes := h.nodes
  rw [links_append, holds_append] at hnodes
  exact hnodes.2

lemma head {a : ℕ} {x : α} (h : m.Chain p ((a, x) :: L)) : m a = some ⟨x, firstOf none L⟩ :=
  h.nodes.head

lemma tail {a : ℕ} {x : α} (h : m.Chain p ((a, x) :: L)) : m.Chain (firstOf none L) L :=
  ⟨rfl, (holds_cons.mp h.nodes).2⟩

/-- A node in front of a chain. -/
lemma cons {a : ℕ} {x : α} (h : m.Chain p L) (ha : m a = some ⟨x, p⟩) :
    m.Chain (some a) ((a, x) :: L) := by
  refine ⟨rfl, ?_⟩
  rw [links_cons, holds_cons, ← h.first]
  exact ⟨ha, h.nodes⟩

/-- A chain is not disturbed outside of it. -/
lemma frame {m' : Mem (SingleNode α)} (h : m.Chain p L)
    (hagree : ∀ a ∈ L.map Prod.fst, m' a = m a) : m'.Chain p L :=
  ⟨h.first, h.nodes.frame fun a ha => hagree a (by rwa [map_fst_links] at ha)⟩

/-- **A node is linked in front of a chain**: `a->next = p;` -/
lemma push {a : ℕ} {x : α} (h : m.Chain p L) (ha : m a = some ⟨x, q⟩) (hnew : a ∉ L.map Prod.fst) :
    ∃ m', m.modify (some a) (SingleNode.setNext p) = some m' ∧ m'.Chain (some a) ((a, x) :: L)
      ∧ ∀ b, b ≠ a → m' b = m b := by
  obtain ⟨m', hwrite, ha', hrest⟩ := modify_spec ha (SingleNode.setNext p)
  exact ⟨m', hwrite, (h.frame fun b hb => hrest b (ne_of_mem_of_not_mem hb hnew)).cons ha', hrest⟩

end Mem.Chain

/-- **The last node is relinked**: `p->next = r;` with `p` the last node of a chain. -/
lemma Mem.Holds.linkLast (h : m.Holds (links L q)) (hnodup : (L.map Prod.fst).Nodup) (hne : L ≠ [])
    (r : Ptr) :
    ∃ m', m.modify (lastOf p L) (SingleNode.setNext r) = some m'
      ∧ m'.Holds (links L r) ∧ ∀ b ∉ L.map Prod.fst, m' b = m b := by
  obtain ⟨xs, ⟨a, x⟩, rfl⟩ : ∃ xs c, L = xs ++ [c] :=
    ⟨_, _, (List.dropLast_append_getLast hne).symm⟩
  rw [links_append, holds_append, links_cons, holds_cons] at h
  obtain ⟨hxs, ha, -⟩ := h
  rw [List.map_append, List.nodup_append'] at hnodup
  have hnew : a ∉ xs.map Prod.fst := fun hmem => hnodup.2.2 hmem (by simp)
  obtain ⟨m', hmodify, ha', hrest⟩ := modify_spec ha (SingleNode.setNext r)
  refine ⟨m', by rwa [lastOf_append], ?_, fun b hb => hrest b ?_⟩
  · rw [links_append, holds_append]
    refine ⟨hxs.frame fun b hb => ?_, by simpa [SingleNode.setNext] using ha'⟩
    rw [map_fst_links] at hb
    exact hrest b (ne_of_mem_of_not_mem hb hnew)
  · rintro rfl
    simp at hb

/-- **A chain is attached to the last node of another one.** -/
lemma Mem.Holds.attach (hxs : m.Holds (links xs q)) (hys : m.Chain r ys) (hne : xs ≠ [])
    (hnodup : ((xs ++ ys).map Prod.fst).Nodup) (p : Ptr) :
    ∃ m', m.modify (lastOf p xs) (SingleNode.setNext r) = some m'
      ∧ m'.Holds (links (xs ++ ys) none) ∧ ∀ b ∉ xs.map Prod.fst, m' b = m b := by
  rw [List.map_append, List.nodup_append'] at hnodup
  obtain ⟨m', hlink, hxs', hrest⟩ := hxs.linkLast (p := p) hnodup.1 hne r
  refine ⟨m', hlink, ?_, hrest⟩
  rw [links_append, holds_append, ← hys.first]
  refine ⟨hxs', hys.nodes.frame fun b hb => hrest b fun hmem => hnodup.2.2 hmem ?_⟩
  rwa [map_fst_links] at hb

/-! ### Loops along a chain -/

section Loops

variable {ι : Type} {L : List (ℕ × ι)} {m : Mem (SingleNode ι)}

/-- `while (p != NULL) { ... p->data ...; p = p->next; }`: the items that the loop reads. -/
def visit (m : Mem (SingleNode ι)) : ℕ → Ptr → Option (List ι)
  | 0, _ => none
  | fuel + 1, p =>
      if p = none then some []
      else do
        let x ← m.read p SingleNode.data
        let next ← m.read p SingleNode.next
        let rest ← visit m fuel next
        return x :: rest

/-- **The items of a chain are visited in order**, and the loop ends. -/
lemma visit_links (h : m.Holds (links L none)) :
    Returns (fun fuel => visit m fuel (firstOf none L)) (L.map Prod.snd) := by
  induction L with
  | nil => exact .of_add 1 fun _ => rfl
  | cons c L ih =>
      obtain ⟨a, x⟩ := c
      rw [links_cons, Mem.holds_cons] at h
      refine (ih h.2).succ fun fuel hrest => ?_
      simp [visit, Mem.read_eq h.1, hrest]

/-- `while (p != NULL) { next = p->next; free(p); p = next; }`: the addresses that the loop
releases, and the memory it leaves. -/
def freeChain : ℕ → Ptr → Mem (SingleNode ι) → Option (List ℕ × Mem (SingleNode ι))
  | 0, _, _ => none
  | _ + 1, none, m => some ([], m)
  | fuel + 1, some a, m => do
      let next ← m.read (some a) SingleNode.next
      let m ← m.free (some a)
      let (freed, m) ← freeChain fuel next m
      return (a :: freed, m)

/-- **The nodes of a chain are released in order**, each once, and nothing else is. -/
lemma freeChain_links (h : m.Holds (links L none)) (hnodup : (L.map Prod.fst).Nodup) :
    ∃ m', Returns (fun fuel => freeChain fuel (firstOf none L) m) (L.map Prod.fst, m')
      ∧ (∀ b ∈ L.map Prod.fst, m' b = none) ∧ ∀ b ∉ L.map Prod.fst, m' b = m b := by
  induction L generalizing m with
  | nil =>
      exact ⟨m, .of_add 1 fun _ => rfl, by simp, fun _ _ => rfl⟩
  | cons c L ih =>
      obtain ⟨a, x⟩ := c
      rw [links_cons, Mem.holds_cons] at h
      rw [List.map_cons, List.nodup_cons] at hnodup
      have hrest : Mem.Holds (Function.update m a none) (links L none) :=
        h.2.update (by rw [map_fst_links]; exact hnodup.1)
      obtain ⟨m', hloop, hfreed, hkept⟩ := ih hrest hnodup.2
      refine ⟨m', hloop.succ fun fuel hloop => ?_, fun b hb => ?_, fun b hb => ?_⟩
      · simp [freeChain, Mem.read_eq h.1, Mem.free_eq h.1, hloop]
      · rcases List.mem_cons.mp hb with rfl | hb
        · rw [hkept _ hnodup.1, Function.update_self]
        · exact hfreed b hb
      · rw [List.map_cons, List.mem_cons, not_or] at hb
        rw [hkept b hb.2, Function.update_of_ne hb.1]

end Loops

end Foundation
