import Wgs.Foundation.ArrayStack
import Wgs.Foundation.Transcript
import Wgs.Stack.Program

/-!
The three stacks of `stack/` against the abstract one.

Each implementation stands for a list: the array up to its cursor, the items of the chain.  As long
as the list fits, each of them answers every call as the list does, traps included
(`Static.agree`, `Dynamic.agree`, `Linked.agree`), and prints the list.
-/

namespace Wgs.Stack

open Foundation

variable {c : Call} {L : List ℤ}

/-- After the call there are at most `cap` elements. -/
def Fits (cap : ℤ) (L : List ℤ) (c : Call) : Prop :=
  ∀ r L', lifo c L = .ok (r, L') → (L'.length : ℤ) ≤ cap

/-- A loop that prints ends, and what it prints are the values of the list. -/
def Prints (f : ℕ → Except Trap (List Output)) (L : List ℤ) : Prop :=
  ∃ out, contents out = L ∧ ∃ N, ∀ fuel, N ≤ fuel → f fuel = .ok out

@[simp] lemma assert_true : assert true = .ok () := rfl

@[simp] lemma assert_false : assert false = .error .assertion := rfl

@[simp] lemma orFault_some {α : Type} (x : α) : orFault (some x) = .ok x := rfl

@[simp] lemma except_bind_ok {α β : Type} (x : α) (f : α → Except Trap β) :
    (Except.ok x >>= f) = f x := rfl

@[simp] lemma except_bind_error {α β : Type} (e : Trap) (f : α → Except Trap β) :
    (Except.error e >>= f) = .error e := rfl

@[simp] lemma except_map_ok {α β : Type} (x : α) (f : α → β) :
    (Except.ok x : Except Trap α).map f = .ok (f x) := rfl

@[simp] lemma except_map_error {α β : Type} (e : Trap) (f : α → β) :
    (Except.error e : Except Trap α).map f = .error e := rfl

@[simp] lemma except_pure {α : Type} (x : α) : (pure x : Except Trap α) = .ok x := rfl

@[simp] lemma contents_text (s : String) (out : List Output) :
    contents (.text s :: out) = contents out := rfl

@[simp] lemma contents_append (out out' : List Output) :
    contents (out ++ out') = contents out ++ contents out' := by
  simp [contents]

@[simp] lemma contents_value (L : List ℤ) : contents (L.map .value) = L := by
  simp [contents, List.filterMap_map]

@[simp] lemma contents_ite (p : Prop) [Decidable p] (s : String) :
    contents (if p then [.text s] else []) = [] := by
  split_ifs <;> rfl

/-- The texts around the values do not count. -/
lemma contents_framed (header note footer : String) (p : Prop) [Decidable p] (L : List ℤ) :
    contents ([Output.text header] ++ (if p then [Output.text note] else [])
      ++ L.map Output.value ++ [Output.text footer]) = L := by
  simp only [contents_append, contents_value, contents_ite, contents_text]
  simp [contents]

/-! ### Arrays -/

section Arrays

variable {b : Block} {i top v : ℤ}

lemma Block.get_eq (b : Block) (h0 : 0 ≤ i) (hlt : i < b.size) : b.get i = .ok (b.cells i) :=
  if_pos ⟨h0, hlt⟩

lemma Block.set_eq (b : Block) (v : ℤ) (h0 : 0 ≤ i) (hlt : i < b.size) :
    b.set i v = .ok { b with cells := Function.update b.cells i v } :=
  if_pos ⟨h0, hlt⟩

/-- The loop prints the array from its cursor down. -/
lemma printLoop_upto {cells : ℤ → ℤ} {get : ℤ → Except Trap ℤ} (h : Upto cells top L)
    (hget : ∀ i, 0 ≤ i → i ≤ top → get i = .ok (cells i)) (fuel : ℕ) (hfuel : L.length + 1 ≤ fuel) :
    printLoop get fuel top = .ok (L.map .value) := by
  induction L generalizing top fuel with
  | nil =>
      obtain ⟨fuel, rfl⟩ := Nat.exists_eq_succ_of_ne_zero (show fuel ≠ 0 by omega)
      rw [upto_nil] at h
      simp [printLoop, h]
  | cons v L ih =>
      obtain ⟨fuel, rfl⟩ := Nat.exists_eq_succ_of_ne_zero (show fuel ≠ 0 by omega)
      have htop := h.top_eq
      rw [List.length_cons] at htop hfuel
      push_cast at htop
      have hrest := ih h.2 (fun i h0 hi => hget i h0 (by omega)) fuel (by omega)
      simp [printLoop, show top ≠ -1 by omega, hget top (by omega) le_rfl, h.1, hrest]

lemma printArray_upto {cells : ℤ → ℤ} {get : ℤ → Except Trap ℤ} (header : String)
    (h : Upto cells top L) (hget : ∀ i, 0 ≤ i → i ≤ top → get i = .ok (cells i)) :
    Prints (fun fuel => printArray header get fuel top) L := by
  refine ⟨_, contents_framed header "这是个空堆栈\n" "\n" (top = -1) L, L.length + 1,
    fun fuel hfuel => ?_⟩
  simp [printArray, printLoop_upto h hget fuel hfuel]

end Arrays

/-! ### The fixed array -/

namespace Static

variable {s : State}

/-- The array up to `top_element` is the list. -/
structure Rel (s : State) (L : List ℤ) : Prop where
  size : s.stack.size = stackSize
  upto : Upto s.stack.cells s.topElement L
  le : (L.length : ℤ) ≤ stackSize

lemma rel_start : Rel start [] := ⟨rfl, rfl, by decide⟩

lemma Rel.isEmpty_eq (h : Rel s L) : isEmpty s = L.isEmpty := by
  rw [Bool.eq_iff_iff, isEmpty, decide_eq_true_eq, h.upto.top_eq_neg_one_iff, List.isEmpty_iff]

lemma Rel.isFull_eq (h : Rel s L) : isFull s = decide ((L.length : ℤ) = stackSize) := by
  have htop := h.upto.top_eq
  rw [isFull, decide_eq_decide]
  omega

/-- **The fixed array answers as the list does**, up to `STACK_SIZE` elements. -/
lemma agree (h : Rel s L) (hfits : Fits stackSize L c) : Agree Rel (exec c s) (lifo c L) := by
  have htop := h.upto.top_eq
  have hsize := h.size
  have hle := h.le
  cases c with
  | push v a junk =>
      have hlt : (L.length : ℤ) + 1 ≤ stackSize := by
        have := hfits none (v :: L) rfl
        simpa using this
      have hfull : isFull s = false := by
        rw [h.isFull_eq, decide_eq_false_iff_not]
        omega
      have hset := s.stack.set_eq v (show 0 ≤ s.topElement + 1 by omega) (by omega)
      simp only [exec, push, hfull, Bool.not_false, assert_true, except_bind_ok, hset,
        except_map_ok, except_pure]
      exact ⟨rfl, hsize, h.upto.push v, by simpa using hlt⟩
  | pop =>
      cases L with
      | nil => simp [exec, pop, h.isEmpty_eq, lifo, Agree]
      | cons v L =>
          simp only [exec, pop, h.isEmpty_eq, List.isEmpty_cons, Bool.not_false, assert_true,
            except_bind_ok, except_map_ok, except_pure]
          have hshort : (L.length : ℤ) ≤ stackSize := by
            rw [List.length_cons] at hle
            push_cast at hle
            omega
          exact ⟨rfl, hsize, h.upto.2, hshort⟩
  | top =>
      cases L with
      | nil => simp [exec, top, h.isEmpty_eq, lifo, Agree]
      | cons v L =>
          rw [List.length_cons] at htop hle
          push_cast at htop hle
          have hget := s.stack.get_eq (show 0 ≤ s.topElement by omega) (by omega)
          simp only [exec, top, h.isEmpty_eq, List.isEmpty_cons, Bool.not_false, assert_true,
            except_bind_ok, hget, h.upto.1, except_map_ok]
          exact ⟨rfl, h⟩
  | isEmpty => exact ⟨by rw [h.isEmpty_eq], h⟩

lemma Rel.prints (h : Rel s L) : Prints (fun fuel => print fuel s) L := by
  have htop := h.upto.top_eq
  have hsize := h.size
  have hle := h.le
  exact printArray_upto _ h.upto fun i h0 hi => s.stack.get_eq h0 (by omega)

end Static

/-! ### The allocated array -/

namespace Dynamic

variable {s : State}

/-- There is an array of `stack_size` elements, and up to `top_element` it is the list. -/
structure Rel (s : State) (L : List ℤ) : Prop where
  block : ∃ b, s.stack = some b ∧ b.size = s.stackSize ∧ Upto b.cells s.topElement L
  pos : 0 < s.stackSize
  le : (L.length : ℤ) ≤ s.stackSize

lemma Rel.isEmpty_eq (h : Rel s L) : isEmpty s = .ok L.isEmpty := by
  obtain ⟨b, -, -, hupto⟩ := h.block
  have hempty : decide (s.topElement = -1) = L.isEmpty := by
    rw [Bool.eq_iff_iff, decide_eq_true_eq, hupto.top_eq_neg_one_iff, List.isEmpty_iff]
  simp [isEmpty, h.pos, hempty]

lemma Rel.isFull_eq (h : Rel s L) : isFull s = .ok (decide ((L.length : ℤ) = s.stackSize)) := by
  obtain ⟨b, -, -, hupto⟩ := h.block
  have htop := hupto.top_eq
  have hfull : (s.topElement = s.stackSize - 1) ↔ (L.length : ℤ) = s.stackSize := by omega
  simp [isFull, h.pos, hfull]

/-- **The allocated array answers as the list does**, up to `stack_size` elements; its size stays
what it is. -/
lemma agree {size : ℤ} (h : Rel s L ∧ s.stackSize = size) (hfits : Fits size L c) :
    Agree (fun s L => Rel s L ∧ s.stackSize = size) (exec c s) (lifo c L) := by
  obtain ⟨h, rfl⟩ := h
  obtain ⟨b, hb, hsize, hupto⟩ := h.block
  have htop := hupto.top_eq
  have hle := h.le
  cases c with
  | push v a junk =>
      have hlt : (L.length : ℤ) + 1 ≤ s.stackSize := by
        have := hfits none (v :: L) rfl
        simpa using this
      have hnot : ¬ (L.length : ℤ) = s.stackSize := by omega
      have hset := b.set_eq v (show 0 ≤ s.topElement + 1 by omega) (by omega)
      simp only [exec, push, h.isFull_eq, hnot, decide_false, Bool.not_false, assert_true,
        except_bind_ok, hb, orFault_some, hset, except_map_ok, except_pure]
      exact ⟨rfl, ⟨⟨_, rfl, hsize, hupto.push v⟩, h.pos, by simpa using hlt⟩, rfl⟩
  | pop =>
      cases L with
      | nil => simp [exec, pop, h.isEmpty_eq, lifo, Agree]
      | cons v L =>
          simp only [exec, pop, h.isEmpty_eq, List.isEmpty_cons, Bool.not_false, assert_true,
            except_bind_ok, except_map_ok, except_pure]
          have hshort : (L.length : ℤ) ≤ s.stackSize := by
            rw [List.length_cons] at hle
            push_cast at hle
            omega
          exact ⟨rfl, ⟨⟨b, hb, hsize, hupto.2⟩, h.pos, hshort⟩, rfl⟩
  | top =>
      cases L with
      | nil => simp [exec, top, h.isEmpty_eq, lifo, Agree]
      | cons v L =>
          rw [List.length_cons] at htop hle
          push_cast at htop hle
          have hget := b.get_eq (show 0 ≤ s.topElement by omega) (by omega)
          simp only [exec, top, h.isEmpty_eq, List.isEmpty_cons, Bool.not_false, assert_true,
            except_bind_ok, get, hb, orFault_some, hget, hupto.1, except_map_ok]
          exact ⟨rfl, h, rfl⟩
  | isEmpty =>
      simp only [exec, h.isEmpty_eq, except_map_ok]
      exact ⟨rfl, h, rfl⟩

lemma Rel.prints (h : Rel s L) : Prints (fun fuel => print fuel s) L := by
  obtain ⟨b, hb, hsize, hupto⟩ := h.block
  have htop := hupto.top_eq
  have hle := h.le
  refine printArray_upto _ hupto fun i h0 hi => ?_
  rw [get, hb]
  exact b.get_eq h0 (by omega)

/-- A new array of `size` elements is the empty list. -/
lemma createStack_rel {size : ℤ} (junk : ℤ → ℤ) (hpos : 0 < toInt32 size) :
    ∃ s, createStack size junk start = .ok s ∧ Rel s [] ∧ s.stackSize = toInt32 size := by
  refine ⟨⟨some ⟨toInt32 size, junk⟩, toInt32 size, -1⟩, ?_, ⟨⟨_, rfl, rfl, rfl⟩, hpos, ?_⟩, rfl⟩
  · simp [createStack, start, malloc, hpos.le]
  · simpa using hpos.le

end Dynamic

/-! ### The chain -/

namespace Linked

variable {s : State}

/-- The chain at `stack` holds the list. -/
structure Rel (s : State) (L : List ℤ) : Prop where
  nodes : ∃ N, s.mem.Holds (links N none) ∧ (N.map Prod.fst).Nodup ∧ s.stack = firstOf none N
    ∧ N.map Prod.snd = L

/-- The address of a new node is not in use. -/
def Fresh (s : State) : Call → Prop
  | .push _ a _ => s.mem a = none
  | _ => True

lemma rel_start (m : Mem StackNode) : Rel ⟨none, m⟩ [] :=
  ⟨[], Mem.holds_nil m, List.nodup_nil, rfl, rfl⟩

lemma Rel.isEmpty_eq (h : Rel s L) : isEmpty s = L.isEmpty := by
  obtain ⟨N, -, -, hstack, rfl⟩ := h.nodes
  rw [isEmpty, hstack]
  cases N <;> rfl

/-- **The chain answers as the list does**, with any number of elements. -/
lemma agree (h : Rel s L) (hfresh : Fresh s c) : Agree Rel (exec c s) (lifo c L) := by
  have hempty := h.isEmpty_eq
  obtain ⟨N, hN, hnodup, hstack, rfl⟩ := h.nodes
  cases c with
  | push v a junk =>
      have ha : s.mem a = none := hfresh
      have hnew : a ∉ N.map Prod.fst := by
        have hnot := hN.not_mem ha
        rwa [map_fst_links] at hnot
      simp only [exec, push, Mem.malloc_eq ha, Mem.modify_update, orFault_some, except_bind_ok,
        except_map_ok, except_pure]
      refine ⟨rfl, ⟨(a, v) :: N, Mem.holds_cons.mpr ⟨?_, hN.update (by rwa [map_fst_links])⟩,
        List.nodup_cons.mpr ⟨hnew, hnodup⟩, rfl, rfl⟩⟩
      rw [← hstack]
      exact Function.update_self _ _ _
  | pop =>
      cases N with
      | nil => simp [exec, pop, hempty, lifo, Agree]
      | cons e N =>
          obtain ⟨a, v⟩ := e
          rw [List.map_cons, List.nodup_cons] at hnodup
          obtain ⟨ha, hrest⟩ := Mem.holds_cons.mp hN
          simp only [exec, pop, hempty, hstack, List.map_cons, List.isEmpty_cons, Bool.not_false,
            assert_true, except_bind_ok, firstOf_cons, Mem.read_eq ha, Mem.free_eq ha,
            orFault_some, except_map_ok, except_pure]
          exact ⟨rfl, ⟨N, hrest.update (by rw [map_fst_links]; exact hnodup.1), hnodup.2, rfl, rfl⟩⟩
  | top =>
      cases N with
      | nil => simp [exec, top, hempty, lifo, Agree]
      | cons e N =>
          obtain ⟨a, v⟩ := e
          obtain ⟨ha, -⟩ := Mem.holds_cons.mp hN
          simp only [exec, top, hempty, hstack, List.map_cons, List.isEmpty_cons, Bool.not_false,
            assert_true, except_bind_ok, firstOf_cons, Mem.read_eq ha, orFault_some,
            except_map_ok]
          exact ⟨rfl, h⟩
  | isEmpty => exact ⟨by rw [hempty], h⟩

lemma Rel.prints (h : Rel s L) : Prints (fun fuel => print fuel s) L := by
  obtain ⟨N, hN, -, hstack, rfl⟩ := h.nodes
  obtain ⟨fuel₀, hvisit⟩ := visit_links hN
  refine ⟨_, contents_framed "打印出链式堆栈里面的值: " "堆栈为空\n" "\n" (s.stack = none)
    (N.map Prod.snd), fuel₀, fun fuel hfuel => ?_⟩
  have hvisited : visit s.mem fuel s.stack = some (N.map Prod.snd) := by
    rw [hstack]
    exact hvisit fuel hfuel
  simp [print, hvisited]

end Linked

end Wgs.Stack
