import Mathlib.Tactic

/-!
Memories of linked cells.

A program that works on heap nodes of one type is embedded over `Mem α`, the partial map from
addresses to cells; a pointer is an address or null.  Every access is fallible: reading or
writing through null or through an address that holds no cell is a fault, the value `none`.

* `Mem.load`, `Mem.read`, `Mem.modify`, `Mem.malloc`, `Mem.tryMalloc`, `Mem.free`: the accesses.
* `Mem.Holds`: a memory holds a list of cells.  Linked shapes are described by the list of
  their cells, and an access outside that list does not disturb it (`Mem.Holds.frame`).
* `firstOf`, `lastOf`: the ends of a list of nodes, each given by its address and its item.
-/

namespace Foundation

/-- A pointer: an address, or null. -/
abbrev Ptr := Option ℕ

/-- A memory of cells: what each allocated address holds. -/
abbrev Mem (α : Type*) := ℕ → Option α

namespace Mem

variable {α β : Type*}

/-! ### The accesses -/

/-- The cell a pointer names; a fault on null and on an address that is not allocated. -/
def load (m : Mem α) : Ptr → Option α
  | none => none
  | some a => m a

/-- Read one field of the cell a pointer names. -/
def read (m : Mem α) (p : Ptr) (f : α → β) : Option β :=
  (m.load p).map f

/-- Update the cell a pointer names in place. -/
def modify (m : Mem α) (p : Ptr) (f : α → α) : Option (Mem α) :=
  match p with
  | none => none
  | some a => (m a).map fun n => Function.update m a (some (f n))

/-- Allocate the address `a`, which must be unused; the new cell holds `junk`. -/
def malloc (m : Mem α) (a : ℕ) (junk : α) : Option (Mem α) :=
  match m a with
  | none => some (Function.update m a (some junk))
  | some _ => none

/-- `malloc`, with what the allocator answers: null, or the address of a cell. -/
def tryMalloc (m : Mem α) (p : Ptr) (junk : α) : Option (Mem α) :=
  match p with
  | none => some m
  | some a => m.malloc a junk

/-- Release the cell a pointer names; releasing null does nothing. -/
def free (m : Mem α) : Ptr → Option (Mem α)
  | none => some m
  | some a => (m a).map fun _ => Function.update m a none

@[simp] lemma load_some (m : Mem α) (a : ℕ) : m.load (some a) = m a := rfl

lemma read_eq {m : Mem α} {a : ℕ} {n : α} (h : m a = some n) (f : α → β) :
    m.read (some a) f = some (f n) := by
  simp [read, h]

lemma modify_eq {m : Mem α} {a : ℕ} {n : α} (h : m a = some n) (f : α → α) :
    m.modify (some a) f = some (Function.update m a (some (f n))) := by
  simp [modify, h]

@[simp] lemma modify_none (m : Mem α) (f : α → α) : m.modify none f = none := rfl

/-- An update in place, as the rest of a proof sees it: the cell it changes and the cells it
does not. -/
lemma modify_spec {m : Mem α} {a : ℕ} {n : α} (h : m a = some n) (f : α → α) :
    ∃ m', m.modify (some a) f = some m' ∧ m' a = some (f n) ∧ ∀ b, b ≠ a → m' b = m b :=
  ⟨_, modify_eq h f, Function.update_self _ _ _, fun _ hb => Function.update_of_ne hb _ _⟩

/-- What an update in place leaves in the cell. -/
lemma read_modify {m m' : Mem α} {a : ℕ} {n : α} {f : α → α} (h : m a = some n)
    (hm : m.modify (some a) f = some m') (g : α → β) : m'.read (some a) g = some (g (f n)) := by
  rw [modify_eq h, Option.some_inj] at hm
  subst hm
  exact read_eq (Function.update_self _ _ _) g

/-- An update in place changes no other cell. -/
lemma modify_of_ne {m m' : Mem α} {p : Ptr} {f : α → α} {b : ℕ} (hm : m.modify p f = some m')
    (hb : some b ≠ p) : m' b = m b := by
  cases p with
  | none => cases hm
  | some a =>
      obtain ⟨n, -, rfl⟩ := Option.map_eq_some_iff.mp hm
      exact Function.update_of_ne (fun heq => hb (congrArg some heq)) _ _

/-- An update in place allocates nothing and releases nothing. -/
lemma modify_ne_none {m m' : Mem α} {p : Ptr} {f : α → α} {b : ℕ} (hm : m.modify p f = some m')
    (hb : m b ≠ none) : m' b ≠ none := by
  by_cases hbp : some b = p
  · subst hbp
    obtain ⟨n, -, rfl⟩ := Option.map_eq_some_iff.mp hm
    rw [Function.update_self]
    exact Option.some_ne_none _
  · rwa [modify_of_ne hm hbp]

/-- A cell that was just set is set again. -/
lemma modify_update (m : Mem α) (a : ℕ) (n : α) (f : α → α) :
    modify (Function.update m a (some n)) (some a) f = some (Function.update m a (some (f n))) := by
  rw [modify_eq (Function.update_self _ _ _), Function.update_idem]

/-- What holds of the cell that is set, and of the cells that there were, holds of all. -/
lemma forall_update {m : Mem α} {a : ℕ} {n : α} {P : α → Prop} (hnew : P n)
    (hold : ∀ b k, m b = some k → P k) :
    ∀ b k, Function.update m a (some n) b = some k → P k := by
  intro b k h
  rcases eq_or_ne b a with rfl | hb
  · rw [Function.update_self, Option.some_inj] at h
    exact h ▸ hnew
  · rw [Function.update_of_ne hb] at h
    exact hold b k h

lemma malloc_eq {m : Mem α} {a : ℕ} (h : m a = none) (junk : α) :
    m.malloc a junk = some (Function.update m a (some junk)) := by
  simp [malloc, h]

lemma free_eq {m : Mem α} {a : ℕ} {n : α} (h : m a = some n) :
    m.free (some a) = some (Function.update m a none) := by
  simp [free, h]

/-! ### The cells a memory holds -/

/-- The memory holds every cell of the list, each at its address. -/
def Holds (m : Mem α) (L : List (ℕ × α)) : Prop :=
  ∀ c ∈ L, m c.1 = some c.2

@[simp] lemma holds_nil (m : Mem α) : m.Holds [] := by
  simp [Holds]

@[simp] lemma holds_cons {m : Mem α} {a : ℕ} {n : α} {L : List (ℕ × α)} :
    m.Holds ((a, n) :: L) ↔ m a = some n ∧ m.Holds L := by
  simp [Holds]

@[simp] lemma holds_append {m : Mem α} {L₁ L₂ : List (ℕ × α)} :
    m.Holds (L₁ ++ L₂) ↔ m.Holds L₁ ∧ m.Holds L₂ := by
  simp [Holds, or_imp, forall_and]

/-- **The frame rule**: a memory that agrees on the addresses of a list of cells holds the list
as well. -/
lemma Holds.frame {m m' : Mem α} {L : List (ℕ × α)} (h : m.Holds L)
    (hagree : ∀ a ∈ L.map Prod.fst, m' a = m a) : m'.Holds L := by
  intro c hc
  rw [hagree c.1 (List.mem_map_of_mem hc)]
  exact h c hc

/-- The memory of the cells of a list, and no other. -/
def ofCells (L : List (ℕ × α)) : Mem α := fun a => L.lookup a

lemma holds_ofCells {L : List (ℕ × α)} (hnodup : (L.map Prod.fst).Nodup) : (ofCells L).Holds L := by
  induction L with
  | nil => exact holds_nil _
  | cons c L ih =>
      obtain ⟨a, n⟩ := c
      rw [List.map_cons, List.nodup_cons] at hnodup
      refine holds_cons.mpr ⟨by simp [ofCells], (ih hnodup.2).frame fun b hb => ?_⟩
      have hba : (b == a) = false := beq_eq_false_iff_ne.mpr (ne_of_mem_of_not_mem hb hnodup.1)
      rw [ofCells, ofCells, List.lookup_cons, hba]

/-- An address that is not allocated is not the address of a cell. -/
lemma Holds.not_mem {m : Mem α} {L : List (ℕ × α)} (h : m.Holds L) {a : ℕ} (ha : m a = none) :
    a ∉ L.map Prod.fst := by
  rw [List.mem_map]
  rintro ⟨c, hc, rfl⟩
  rw [h c hc] at ha
  cases ha

/-- An update outside a list of cells does not disturb it. -/
lemma Holds.update {m : Mem α} {L : List (ℕ × α)} (h : m.Holds L) {a : ℕ}
    {v : Option α} (ha : a ∉ L.map Prod.fst) : Mem.Holds (Function.update m a v) L := by
  refine h.frame fun b hb => Function.update_of_ne ?_ _ _
  rintro rfl
  exact ha hb

end Mem

/-! ### Lists of nodes -/

section Nodes

variable {α : Type*} {p q : Ptr} {L xs ys : List (ℕ × α)}

/-- The first node of a list, or what follows it. -/
def firstOf (q : Ptr) : List (ℕ × α) → Ptr
  | [] => q
  | (a, _) :: _ => some a

/-- The last node of a list, or what is in front of it. -/
def lastOf (p : Ptr) : List (ℕ × α) → Ptr
  | [] => p
  | (a, _) :: L => lastOf (some a) L

@[simp] lemma firstOf_nil : firstOf q ([] : List (ℕ × α)) = q := rfl

@[simp] lemma firstOf_cons {a : ℕ} {x : α} : firstOf q ((a, x) :: L) = some a := rfl

@[simp] lemma lastOf_nil : lastOf p ([] : List (ℕ × α)) = p := rfl

@[simp] lemma lastOf_cons {a : ℕ} {x : α} : lastOf p ((a, x) :: L) = lastOf (some a) L := rfl

lemma firstOf_append : firstOf q (xs ++ ys) = firstOf (firstOf q ys) xs := by
  cases xs <;> rfl

@[simp] lemma lastOf_append : lastOf p (xs ++ ys) = lastOf (lastOf p xs) ys := by
  induction xs generalizing p with
  | nil => rfl
  | cons c xs ih => exact ih

lemma lastOf_eq_getLast? (a : ℕ) (L : List (ℕ × α)) :
    lastOf (some a) L = (a :: L.map Prod.fst).getLast? := by
  induction L generalizing a with
  | nil => rfl
  | cons c L ih => rw [lastOf_cons, ih, List.map_cons, List.getLast?_cons_cons]

/-- A node is its own last one only if nothing is behind it. -/
lemma lastOf_eq_self_iff {a : ℕ} (hnot : a ∉ L.map Prod.fst) :
    lastOf (some a) L = some a ↔ L = [] := by
  cases L with
  | nil => simp
  | cons c L =>
      rw [lastOf_cons, lastOf_eq_getLast?]
      exact iff_of_false (fun hlast => hnot (List.mem_of_getLast? hlast)) (List.cons_ne_nil _ _)

/-- A new address keeps the addresses of a chain distinct. -/
lemma nodup_insert {a : ℕ} {x : α} (xs : List (ℕ × α))
    (hnodup : ((xs ++ ys).map Prod.fst).Nodup)
    (hnot : a ∉ (xs ++ ys).map Prod.fst) : ((xs ++ (a, x) :: ys).map Prod.fst).Nodup := by
  rw [List.map_append, List.map_cons, List.nodup_middle, ← List.map_append]
  exact List.nodup_cons.mpr ⟨hnot, hnodup⟩

end Nodes

end Foundation
