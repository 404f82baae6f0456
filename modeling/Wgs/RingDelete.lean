import Wgs.Foundation.Loops
import Wgs.Foundation.Rings

/-!
`C/huawei/4-2.c` and `C/huawei/4.c`: every third node of a circle is deleted, until one is left.

The nodes are an array of 1000, and the node `a[i]` has the address `i`.  The two files have one
text, but for the names.

`survivor` is the same process on a list, and the member it leaves is the one that the recurrence
`josephus` computes from the other end (`survivor_eq`).
-/

namespace Wgs.RingDelete

open Foundation

/-! ### The program -/

/-- `node`: the number, an `int`, and `next`. -/
abbrev Node := SingleNode ℤ

/-- `for (i = 0; i < N-1; i++) { a[i].data = i; a[i].next = &a[i+1]; }`, from some `i` on. -/
def linkLoop (N : ℤ) : ℕ → ℕ × Mem Node → Option (ℕ × Mem Node) :=
  whileLoop
    (fun (i, _) => return (i : ℤ) < N - 1)
    (fun _ (i, mem) => do
      let mem ← mem.modify (some i) (SingleNode.setData i)
      let mem ← mem.modify (some i) (SingleNode.setNext (some (i + 1)))
      return (i + 1, mem))

/-- The circle of the first `N` nodes of the array. -/
def buildRing (fuel : ℕ) (N : ℤ) (mem : Mem Node) : Option (Mem Node) := do
  let (i, mem) ← linkLoop N fuel (0, mem)
  let mem ← mem.modify (some i) (SingleNode.setData i)
  mem.modify (some i) (SingleNode.setNext (some 0))

/-- `while (1)`: what it prints, and the memory it leaves. -/
def deleteLoop : ℕ → Ptr × Mem Node → Option (ℤ × Mem Node) :=
  loop fun _ (p, mem) => do
    let next ← mem.read p SingleNode.next
    if p = next then
      let data ← mem.read p SingleNode.data
      return .stop (data, mem)
    else
      -- `p->next->next = p->next->next->next;`
      let second ← mem.read p SingleNode.next
      let third ← mem.read second SingleNode.next
      let fourth ← mem.read third SingleNode.next
      let mem ← mem.modify second (SingleNode.setNext fourth)
      -- `p = p->next->next;`
      let second ← mem.read p SingleNode.next
      let p ← mem.read second SingleNode.next
      return .next (p, mem)

/-- What `main` does for one number `N`. -/
def ringDelete (fuel : ℕ) (N : ℤ) (mem : Mem Node) : Option (ℤ × Mem Node) := do
  let mem ← buildRing fuel N mem
  deleteLoop fuel (some 0, mem)

/-- `main`: the lines it prints for the numbers that it reads; the array is the same for all of
them. -/
def main (fuel : ℕ) : List ℤ → Mem Node → Option (List ℤ)
  | [], _ => some []
  | N :: rest, mem => do
      let (line, mem) ← ringDelete fuel N mem
      let lines ← main fuel rest mem
      return line :: lines

/-- `node a[1000]`: the array is there, whatever it holds. -/
def NodeArray (mem : Mem Node) : Prop := ∀ i < 1000, mem i ≠ none

/-! ### The process on a list -/

/-- The member that is left of a list of `n + 1` when the third one is deleted, again and again,
going on behind it. -/
def survivor {α : Type*} : ℕ → List α → Option α
  | 0, L => L.head?
  | n + 1, L => survivor n (L.rotate 2).tail

/-- `J(1) = 0` and `J(k) = (J(k - 1) + 3) mod k`. -/
def josephus : ℕ → ℕ
  | 0 => 0
  | 1 => 0
  | k + 2 => (josephus (k + 1) + 3) % (k + 2)

lemma josephus_lt (k : ℕ) : josephus (k + 1) < k + 1 := by
  cases k with
  | zero => decide
  | succ k => exact Nat.mod_lt _ (by omega)

/-- **The recurrence runs backwards**: the place of the survivor in a list is that in the list with
one member less, three places further. -/
lemma survivor_eq {α : Type*} {n : ℕ} {L : List α} (hL : L.length = n + 1) :
    survivor n L = L[josephus (n + 1)]? := by
  induction n generalizing L with
  | zero => rw [survivor, List.head?_eq_getElem?, josephus]
  | succ n ih =>
      have hlt := josephus_lt n
      have hlen : (L.rotate 2).tail.length = n + 1 := by
        rw [List.length_tail, List.length_rotate]
        omega
      calc survivor (n + 1) L
          = (L.rotate 2).tail[josephus (n + 1)]? := ih hlen
        _ = (L.rotate 2)[josephus (n + 1) + 1]? := by rw [List.getElem?_tail]
        _ = L[(josephus (n + 1) + 1 + 2) % L.length]? := List.getElem?_rotate (by omega)
        _ = L[josephus (n + 2)]? := by rw [hL]; rfl

/-! ### The circle -/

variable {mem : Mem Node} {L : List (ℕ × ℤ)} {n i : ℕ}

/-- The nodes `a[i]` to `a[n]`, linked one to the next and the last to `q`. -/
lemma holds_links_range' {q : Ptr} {k : ℕ}
    (h : ∀ j, i ≤ j → j < i + k → mem j = some ⟨j, if j + 1 < i + k then some (j + 1) else q⟩) :
    mem.Holds (links ((List.range' i k).map fun j => (j, (j : ℤ))) q) := by
  induction k generalizing i with
  | zero => exact Mem.holds_nil mem
  | succ k ih =>
      have hnext : firstOf q ((List.range' (i + 1) k).map fun j => (j, (j : ℤ)))
          = if i + 1 < i + (k + 1) then some (i + 1) else q := by
        cases k with
        | zero => simp
        | succ k => simp [List.range'_succ]
      rw [List.range'_succ, List.map_cons, links_cons, Mem.holds_cons, hnext]
      refine ⟨h i le_rfl (by omega), ih fun j hj hlt => ?_⟩
      rw [h j (by omega) (by omega)]
      congr 2
      simp only [show i + (k + 1) = i + 1 + k by omega]

/-- `a[i].data = i; a[i].next = q;` -/
lemma setNode_spec (hi : mem i ≠ none) (q : Ptr) :
    ∃ mem₁ mem₂, mem.modify (some i) (SingleNode.setData (i : ℤ)) = some mem₁
      ∧ mem₁.modify (some i) (SingleNode.setNext q) = some mem₂ ∧ mem₂ i = some ⟨i, q⟩
      ∧ (∀ b, b ≠ i → mem₂ b = mem b) ∧ ∀ b, mem b ≠ none → mem₂ b ≠ none := by
  obtain ⟨n, hn⟩ := Option.ne_none_iff_exists'.mp hi
  obtain ⟨mem₁, hdata, hi₁, hrest₁⟩ := Mem.modify_spec hn (SingleNode.setData (i : ℤ))
  obtain ⟨mem₂, hnext, hi₂, hrest₂⟩ := Mem.modify_spec hi₁ (SingleNode.setNext q)
  exact ⟨mem₁, mem₂, hdata, hnext, hi₂, fun b hb => (hrest₂ b hb).trans (hrest₁ b hb),
    fun b hb => Mem.modify_ne_none hnext (Mem.modify_ne_none hdata hb)⟩

/-- **The circle is made**, whatever the array holds. -/
lemma buildRing_ends (harray : NodeArray mem) (hn : n < 1000) :
    Ends (fun fuel => buildRing fuel (n + 1 : ℕ) mem) fun mem' =>
      mem'.Ring ((List.range (n + 1)).map fun j => (j, (j : ℤ))) ∧ NodeArray mem' := by
  have hloop : Ends (fun fuel => linkLoop (n + 1 : ℕ) fuel (0, mem)) fun r => r.1 = n
      ∧ (∀ j < n, r.2 j = some ⟨j, some (j + 1)⟩) ∧ NodeArray r.2 := by
    refine Ends.whileLoop
      (I := fun r : ℕ × Mem Node => r.1 ≤ n ∧ (∀ j < r.1, r.2 j = some ⟨j, some (j + 1)⟩)
        ∧ NodeArray r.2)
      (fun r => n - r.1) (fun r hr => ?_) ⟨Nat.zero_le n, by simp, harray⟩
    obtain ⟨i, mem⟩ := r
    obtain ⟨hi, hlinked, harray⟩ := hr
    dsimp only at *
    by_cases hin : i < n
    · obtain ⟨mem₁, mem₂, hdata, hnext, hnode, hrest, hkept⟩ :=
        setNode_spec (harray i (by omega)) (some (i + 1))
      refine Or.inl ⟨by simp [hin], ?_⟩
      simp only [hdata, hnext, Option.bind_eq_bind, Option.bind_some]
      refine .of_eq (fun _ => rfl) ⟨⟨hin, fun j hj => ?_, fun j hj => hkept j (harray j hj)⟩, ?_⟩
      · rcases (Nat.lt_succ_iff.mp hj).lt_or_eq with hlt | rfl
        · exact (hrest j hlt.ne).trans (hlinked j hlt)
        · exact hnode
      · dsimp only
        omega
    · obtain rfl : i = n := by omega
      exact Or.inr ⟨by simp, rfl, hlinked, harray⟩
  refine hloop.bind fun r hr => ?_
  obtain ⟨i, mem⟩ := r
  obtain ⟨rfl, hlinked, harray⟩ := hr
  obtain ⟨mem₁, mem₂, hdata, hnext, hnode, hrest, hkept⟩ := setNode_spec (harray i hn) (some 0)
  simp only [hdata, hnext, Option.bind_eq_bind, Option.bind_some]
  refine .of_eq (fun _ => rfl) ⟨⟨?_, ?_⟩, fun j hj => hkept j (harray j hj)⟩
  · rw [List.range_eq_range']
    refine holds_links_range' fun j _ hj => ?_
    rcases (show j < i ∨ j = i by omega) with hlt | rfl
    · rw [hrest j hlt.ne, hlinked j hlt, if_pos (by omega)]
    · rw [hnode, if_neg (by omega)]
      simp [List.range'_succ]
  · rw [List.map_map]
    exact List.nodup_range.map fun a b h => h

/-! ### The deletions -/

/-- **One deletion** takes the circle to the circle without the third node, and `p` to the node
behind that one. -/
lemma delete_third {a b : ℕ} {x y : ℤ} {t : List (ℕ × ℤ)}
    (hring : mem.Ring ((a, x) :: (b, y) :: t)) :
    ∃ third fourth mem', mem.read (some a) SingleNode.next = some (some b) ∧ a ≠ b
      ∧ mem.read (some b) SingleNode.next = some third
      ∧ mem.read third SingleNode.next = some fourth
      ∧ mem.modify (some b) (SingleNode.setNext fourth) = some mem'
      ∧ mem'.read (some a) SingleNode.next = some (some b)
      ∧ mem'.read (some b) SingleNode.next = some fourth
      ∧ mem'.Ring (((a, x) :: (b, y) :: t).rotate 2).tail
      ∧ fourth = firstOf none (((a, x) :: (b, y) :: t).rotate 2).tail := by
  have ha : mem a = some ⟨x, some b⟩ := (Mem.holds_cons.mp hring.nodes).1
  have hab : a ≠ b := by
    rintro rfl
    exact (List.nodup_cons.mp hring.nodup).1 List.mem_cons_self
  have hrot : ((a, x) :: (b, y) :: t).rotate 2 = t ++ [(a, x), (b, y)] := by
    rw [List.rotate_cons_succ, List.cons_append, List.rotate_cons_succ, List.rotate_zero,
      List.append_assoc]
    rfl
  have hlast : lastOf none (((a, x) :: (b, y) :: t).rotate 2) = some b := by
    rw [hrot, lastOf_append]
    rfl
  have hring₂ := hring.rotate 2
  have hread := hring₂.read_last (mt List.rotate_eq_nil_iff.mp (List.cons_ne_nil _ _))
  rw [hlast] at hread
  have hlen : (((a, x) :: (b, y) :: t).rotate 2).length = t.length + 2 := by
    rw [List.length_rotate, List.length_cons, List.length_cons]
  -- the third node is the first of the circle that begins there
  cases hc : ((a, x) :: (b, y) :: t).rotate 2 with
  | nil =>
      rw [hc] at hlen
      cases hlen
  | cons c rest =>
      obtain ⟨d, z⟩ := c
      rw [hc] at hring₂ hread hlast hlen
      obtain ⟨n, mem', hn, -, hnext, hmodify, hring', -, hread'⟩ := hring₂.unlink
      rw [lastOf_cons] at hlast
      rw [hlast] at hmodify hread'
      have hrest : rest ≠ [] := by
        rintro rfl
        rw [List.length_singleton] at hlen
        omega
      have ha' : mem' a = mem a := Mem.modify_of_ne hmodify fun heq => hab (Option.some_inj.mp heq)
      exact ⟨some d, n.next, mem', Mem.read_eq ha _, hab, hread, Mem.read_eq hn _, hmodify,
        Mem.read_eq (ha'.trans ha) _, hread', hring', hnext hrest⟩

/-- **The loop** ends with the survivor. -/
lemma deleteLoop_ends (hL : L.length = n + 1) (hring : mem.Ring L) (harray : NodeArray mem) :
    Ends (fun fuel => deleteLoop fuel (firstOf none L, mem)) fun r =>
      (survivor n L).map Prod.snd = some r.1 ∧ NodeArray r.2 := by
  induction n generalizing L mem with
  | zero =>
      obtain ⟨⟨a, x⟩, rfl⟩ := List.length_eq_one_iff.mp hL
      have ha : mem a = some ⟨x, some a⟩ := (Mem.holds_cons.mp hring.nodes).1
      refine Ends.loop_step (.of_eq (r := .stop (x, mem)) (fun fuel => ?_) ⟨rfl, harray⟩)
      simp [Mem.read_eq ha]
  | succ n ih =>
      match L, hL with
      | (a, x) :: (b, y) :: t, hL =>
          obtain ⟨third, fourth, mem', hnext, hab, hthird, hfourth, hmodify, hnext', hfourth',
            hring', rfl⟩ := delete_third hring
          have hlen : (((a, x) :: (b, y) :: t).rotate 2).tail.length = n + 1 := by
            rw [List.length_tail, List.length_rotate, hL]
            rfl
          have hne : ¬ some a = some b := fun heq => hab (Option.some_inj.mp heq)
          refine Ends.loop_step (.of_eq (r := .next (_, mem')) (fun fuel => ?_)
            (ih hlen hring' fun i hi => Mem.modify_ne_none hmodify (harray i hi)))
          simp only [firstOf_cons, hnext, hne, if_false, hthird, hfourth, hmodify, hnext', hfourth',
            Option.bind_eq_bind, Option.bind_some, Option.pure_def]

/-- What `main` does for one number. -/
lemma ringDelete_ends {N : ℕ} (hN : 1 ≤ N) (hfits : N ≤ 1000) (harray : NodeArray mem) :
    Ends (fun fuel => ringDelete fuel N mem) fun r => r.1 = josephus N ∧ NodeArray r.2 := by
  obtain ⟨n, rfl⟩ : ∃ n, N = n + 1 := ⟨N - 1, by omega⟩
  refine (buildRing_ends harray (by omega)).bind fun mem' hmem' => ?_
  obtain ⟨hring, harray'⟩ := hmem'
  have hlen : ((List.range (n + 1)).map fun j : ℕ => (j, (j : ℤ))).length = n + 1 := by
    rw [List.length_map, List.length_range]
  have hfirst : firstOf none ((List.range (n + 1)).map fun j : ℕ => (j, (j : ℤ))) = some 0 := by
    rw [List.range_succ_eq_map]
    rfl
  have hends := deleteLoop_ends hlen hring harray'
  rw [hfirst] at hends
  refine hends.mono fun r hr => ⟨?_, hr.2⟩
  have hsurvivor := hr.1
  rw [survivor_eq hlen, List.getElem?_map, List.getElem?_range (josephus_lt n)] at hsurvivor
  exact (Option.some_inj.mp hsurvivor).symm

/-- **The Josephus number**: for every `N` from 1 to the size of the array, whatever that holds,
`main` makes the circle, and the loop ends and prints `J(N)`. -/
theorem ringDelete_josephus {N : ℕ} (hN : 1 ≤ N) (hfits : N ≤ 1000) (harray : NodeArray mem) :
    ∃ mem', Returns (fun fuel => ringDelete fuel N mem) ((josephus N : ℤ), mem') := by
  obtain ⟨⟨line, mem'⟩, hreturns, rfl, -⟩ := ringDelete_ends hN hfits harray
  exact ⟨mem', hreturns⟩

/-- Eight nodes. -/
theorem ringDelete_josephus_eight :
    ∃ mem', Returns (fun fuel => ringDelete fuel 8 fun _ => some ⟨7, none⟩) (6, mem') :=
  ringDelete_josephus (N := 8) (by decide) (by decide) fun _ _ => Option.some_ne_none _

/-- **All numbers**: `main` prints `J(N)` for each of the numbers that it reads. -/
theorem main_prints {inputs : List ℕ} (hinputs : ∀ N ∈ inputs, 1 ≤ N ∧ N ≤ 1000)
    (harray : NodeArray mem) :
    Returns (fun fuel => main fuel (inputs.map (↑)) mem)
      (inputs.map fun N => (josephus N : ℤ)) := by
  suffices h : Ends (fun fuel => main fuel (inputs.map (↑)) mem)
      fun lines => lines = inputs.map fun N => (josephus N : ℤ) by
    obtain ⟨lines, hreturns, rfl⟩ := h
    exact hreturns
  induction inputs generalizing mem with
  | nil => exact .of_eq (fun _ => rfl) rfl
  | cons N inputs ih =>
      obtain ⟨hN, hfits⟩ := hinputs N List.mem_cons_self
      refine (ringDelete_ends hN hfits harray).bind fun r hr => ?_
      obtain ⟨line, mem'⟩ := r
      obtain ⟨rfl, harray'⟩ := hr
      have hrest := ih (fun N hN => hinputs N (List.mem_cons_of_mem _ hN)) harray'
      exact hrest.bind fun lines hlines => .of_eq (fun _ => rfl) (by rw [hlines, List.map_cons])

end Wgs.RingDelete
