import Wgs.Foundation.SinglyLinked
import Mathlib.Data.List.Rotate

/-!
Rings of nodes.

`Mem.Ring m L` says that the nodes `L` are linked in a circle: each to the next one and the last one
to the first.  Where the list begins does not matter (`Mem.Ring.rotate`), so that a walk along the
ring is a rotation of the list (`lastOf_rotate_succ`), and a node that is unlinked is the first one
(`Mem.Ring.unlink`).
-/

namespace Foundation

variable {α : Type*} {L xs ys : List (ℕ × α)} {m : Mem (SingleNode α)} {c : ℕ × α} {k : ℕ}

/-- The nodes `L` are linked in a circle. -/
structure Mem.Ring (m : Mem (SingleNode α)) (L : List (ℕ × α)) : Prop where
  nodes : m.Holds (links L (firstOf none L))
  nodup : (L.map Prod.fst).Nodup

/-- One step around a circle. -/
lemma rotate_succ_eq {β : Type*} {l : List β} {b : β} {t : List β} (h : l.rotate k = b :: t) :
    l.rotate (k + 1) = t ++ [b] := by
  rw [← List.rotate_rotate, h, List.rotate_cons_succ, List.rotate_zero]

/-- The last node is the first one of the circle that begins one step before. -/
lemma lastOf_rotate_succ (hL : L ≠ []) :
    lastOf none (L.rotate (k + 1)) = firstOf none (L.rotate k) := by
  have hne : L.rotate k ≠ [] := mt List.rotate_eq_nil_iff.mp hL
  obtain ⟨c, t, hc⟩ := List.exists_cons_of_ne_nil hne
  rw [rotate_succ_eq hc, hc, lastOf_append]
  rfl

namespace Mem.Ring

/-- A circle begins anywhere. -/
lemma rotate_one (h : m.Ring (c :: L)) : m.Ring (L ++ [c]) := by
  obtain ⟨a, x⟩ := c
  obtain ⟨hnodes, hnodup⟩ := h
  rw [firstOf_cons, links_cons, holds_cons] at hnodes
  have hfirst : firstOf none (L ++ [(a, x)]) = firstOf (some a) L := firstOf_append
  refine ⟨?_, (List.perm_append_singleton (a, x) L).map Prod.fst |>.nodup_iff.mpr hnodup⟩
  rw [hfirst, links_append, holds_append, firstOf_cons]
  exact ⟨hnodes.2, holds_cons.mpr ⟨hnodes.1, holds_nil m⟩⟩

lemma rotate (h : m.Ring L) (k : ℕ) : m.Ring (L.rotate k) := by
  induction k with
  | zero => rwa [List.rotate_zero]
  | succ k ih =>
      cases hk : L.rotate k with
      | nil => rwa [← List.rotate_rotate, hk, List.rotate_nil, ← hk]
      | cons c t =>
          rw [rotate_succ_eq hk]
          exact (hk ▸ ih).rotate_one

/-- The memory of the nodes of a circle, and no other. -/
lemma ofCells (hnodup : (L.map Prod.fst).Nodup) :
    (Mem.ofCells (links L (firstOf none L))).Ring L :=
  ⟨holds_ofCells (by rwa [map_fst_links]), hnodup⟩

/-- The last node links to the first. -/
lemma read_last (h : m.Ring L) (hL : L ≠ []) :
    m.read (lastOf none L) SingleNode.next = some (firstOf none L) := by
  obtain ⟨xs, ⟨a, x⟩, rfl⟩ : ∃ xs c, L = xs ++ [c] :=
    ⟨_, _, (List.dropLast_append_getLast hL).symm⟩
  rw [lastOf_append, lastOf_cons, lastOf_nil, Mem.read_eq h.nodes.node]
  rfl

/-- A circle is not disturbed outside of it. -/
lemma frame {m' : Mem (SingleNode α)} (h : m.Ring L) (hagree : ∀ b ∈ L.map Prod.fst, m' b = m b) :
    m'.Ring L :=
  ⟨h.nodes.frame fun b hb => hagree b (by rwa [map_fst_links] at hb), h.nodup⟩

/-- **The first node is unlinked**: `p->next = q->next;` with `p` the last node and `q` the first.
A node alone is linked to itself, and stays so. -/
lemma unlink {a : ℕ} {x : α} (h : m.Ring ((a, x) :: L)) :
    ∃ n m', m a = some n ∧ n.data = x ∧ (L ≠ [] → n.next = firstOf none L)
      ∧ m.modify (lastOf (some a) L) (SingleNode.setNext n.next) = some m' ∧ m'.Ring L
      ∧ (∃ n', m' a = some n' ∧ n'.data = x)
      ∧ m'.read (lastOf (some a) L) SingleNode.next = some n.next := by
  obtain ⟨hnodes, hnodup⟩ := h
  rw [firstOf_cons, links_cons, holds_cons] at hnodes
  obtain ⟨ha, hrest⟩ := hnodes
  rw [List.map_cons, List.nodup_cons] at hnodup
  cases L with
  | nil =>
      obtain ⟨m', hmodify, ha', -⟩ := modify_spec ha (SingleNode.setNext (some a))
      exact ⟨_, m', ha, rfl, fun hne => absurd rfl hne, hmodify, ⟨holds_nil m', List.nodup_nil⟩,
        ⟨_, ha', rfl⟩, read_eq ha' _⟩
  | cons c L =>
      obtain ⟨m', hmodify, hlinks, hkept⟩ :=
        hrest.linkLast (p := some a) hnodup.2 (List.cons_ne_nil c L) (firstOf none (c :: L))
      have hring : m'.Ring (c :: L) := ⟨hlinks, hnodup.2⟩
      exact ⟨_, m', ha, rfl, fun _ => rfl, hmodify, hring, ⟨_, (hkept a hnodup.1).trans ha, rfl⟩,
        hring.read_last (List.cons_ne_nil c L)⟩

end Mem.Ring

end Foundation
