import Wgs.Foundation.Backtrack
import Wgs.Foundation.Loops

/-!
`C/huawei/6.c`: solves a Sudoku by trying the digits of the empty cells in reading order.

`judge` leaves the cell itself out of its row and its column, but in the box it compares offsets
within the box with the coordinates of the cell: outside of the first box, the cell itself is not
left out.  It does no harm, since the cell is 0 whenever `judge` runs, and so are the ones that are
still to come (`judge_iff`).

The search is that of the least list of digits that fit one after the other (`dfs_ends`), and these
are the solutions (`fits_map_iff`): `dfs` finds the least solution there is, or none and restores
the grid (`sudoku_solved`).
-/

namespace Wgs.Sudoku

open Foundation

/-! ### The program -/

/-- `struct point` -/
structure Point where
  x : ℕ
  y : ℕ
deriving DecidableEq

/-- `int map[10][10];`, which is only read and written in rows and columns below 9. -/
abbrev Grid := Point → ℕ

/-- `p[0], …, p[num - 1]`, `flag` and `map`. -/
structure Globals where
  p : List Point
  flag : ℕ
  map : Grid

/-- `judge`, for the cell `a` that is `p[n]`. -/
def judge (map : Grid) (a : Point) (k : ℕ) : Bool :=
  let x := a.x / 3 * 3
  let y := a.y / 3 * 3
  ((List.range 9).all fun i =>
    ¬ (i ≠ a.y ∧ map ⟨a.x, i⟩ = k) ∧ ¬ (i ≠ a.x ∧ map ⟨i, a.y⟩ = k))
  && (List.range 3).all fun i => (List.range 3).all fun j =>
    ¬ (map ⟨x + i, y + j⟩ = k ∧ (i ≠ a.x ∨ j ≠ a.y))

/-- One turn of the loop of `dfs`: the digit `i` is tried in the cell `a` that is `p[n]`, and `next`
is `dfs(n + 1)`. -/
def tryDigit (next : ℕ × Grid → Option (ℕ × Grid)) (a : Point) :
    ℕ × ℕ × Grid → Option (Control (ℕ × ℕ × Grid) (ℕ × Grid))
  | (i, flag, map) => do
      if i < 10 then
        if judge map a i then
          let (flag, map) ← next (flag, Function.update map a i)
          if flag ≠ 0 then return .stop (flag, map)
          else return .next (i + 1, flag, Function.update map a 0)
        else return .next (i + 1, flag, map)
      else return .stop (flag, map)

/-- `dfs`, on `flag` and `map`. -/
def dfs (p : List Point) : ℕ → ℕ → ℕ × Grid → Option (ℕ × Grid)
  | 0, _, _ => none
  | fuel + 1, n, (flag, map) =>
      if n = p.length then some (1, map) else do
        let a ← p[n]?
        loop (fun _ => tryDigit (dfs p fuel (n + 1)) a) fuel (1, flag, map)

/-- The cells of the grid in reading order. -/
def cells : List Point := (List.range 9).flatMap fun i => (List.range 9).map fun j => ⟨i, j⟩

/-- One digit is read into the cell `a`. -/
def readCell (g : Globals) (a : Point) (digit : ℕ) : Globals :=
  if digit = 0 then { g with p := g.p ++ [a], map := Function.update g.map a 0 }
  else { g with map := Function.update g.map a digit }

/-- `main` reads a grid: the first digit, and then those of all other cells. -/
def readGrid (input : Grid) (g : Globals) : Globals :=
  let g := { g with p := [], flag := 0 }
  let g := readCell g ⟨0, 0⟩ (input ⟨0, 0⟩)
  (cells.filter fun a => a.x ≠ 0 ∨ a.y ≠ 0).foldl (fun g a => readCell g a (input a)) g

/-! ### Solutions -/

/-- Different cells of one row, column or box. -/
def Peers (a b : Point) : Prop :=
  a ≠ b ∧ (a.x = b.x ∨ a.y = b.y ∨ a.x / 3 = b.x / 3 ∧ a.y / 3 = b.y / 3)

/-- The empty cells in reading order. -/
def holes (input : Grid) : List Point := cells.filter fun a => input a = 0

/-- The given digits are kept, and every empty cell gets a digit that differs from all other cells
of its row, column and box. -/
structure Solves (input solution : Grid) : Prop where
  given : ∀ a ∈ cells, input a ≠ 0 → solution a = input a
  digit : ∀ a ∈ holes input, 1 ≤ solution a ∧ solution a ≤ 9
  differ : ∀ a ∈ holes input, ∀ b ∈ cells, Peers a b → solution a ≠ solution b

/-- What `dfs` tries: a digit that `judge` accepts. -/
def Allowed (map : Grid) (a : Point) (k : ℕ) : Prop := 1 ≤ k ∧ k ≤ 9 ∧ judge map a k

section Proofs

variable {input map solution : Grid} {a b : Point} {as p : List Point} {k n : ℕ} {g : Globals}

lemma mem_cells_iff : a ∈ cells ↔ a.x < 9 ∧ a.y < 9 := by
  simp only [cells, List.mem_flatMap, List.mem_map, List.mem_range]
  constructor
  · rintro ⟨i, hi, j, hj, rfl⟩
    exact ⟨hi, hj⟩
  · rintro ⟨hx, hy⟩
    exact ⟨a.x, hx, a.y, hy, rfl⟩

lemma nodup_cells : cells.Nodup := by decide

lemma Peers.symm (h : Peers a b) : Peers b a := by
  obtain ⟨hne, hsame⟩ := h
  refine ⟨hne.symm, ?_⟩
  rcases hsame with h | h | ⟨h, h'⟩
  · exact Or.inl h.symm
  · exact Or.inr (Or.inl h.symm)
  · exact Or.inr (Or.inr ⟨h.symm, h'.symm⟩)

/-- **`judge`**: as long as the cell does not hold the digit, it compares with the cells of its row,
column and box. -/
lemma judge_iff (ha : a ∈ cells) (hne : map a ≠ k) :
    judge map a k ↔ ∀ b ∈ cells, Peers a b → map b ≠ k := by
  obtain ⟨hx, hy⟩ := mem_cells_iff.mp ha
  obtain ⟨x, y⟩ := a
  dsimp only at hx hy
  simp only [judge, Bool.and_eq_true, List.all_eq_true, List.mem_range, decide_eq_true_iff]
  constructor
  · rintro ⟨hlines, hbox⟩ ⟨x', y'⟩ hb ⟨hab, hsame⟩ heq
    obtain ⟨hx', hy'⟩ := mem_cells_iff.mp hb
    dsimp only at *
    rcases hsame with rfl | rfl | ⟨hboxx, hboxy⟩
    · refine (hlines y' hy').1 ⟨?_, heq⟩
      rintro rfl
      exact hab rfl
    · refine (hlines x' hx').2 ⟨?_, heq⟩
      rintro rfl
      exact hab rfl
    · have hsum : x / 3 * 3 + x' % 3 = x' := by omega
      have hsum' : y / 3 * 3 + y' % 3 = y' := by omega
      refine hbox (x' % 3) (by omega) (y' % 3) (by omega) ⟨by rw [hsum, hsum']; exact heq, ?_⟩
      -- both offsets are coordinates of the cell only in the first box, where they make up the cell
      by_contra hself
      rw [not_or, not_not, not_not] at hself
      exact hab (Point.mk.injEq .. ▸ ⟨by omega, by omega⟩)
  · intro h
    refine ⟨fun i hi => ⟨?_, ?_⟩, fun i hi j hj => ?_⟩
    · rintro ⟨hiy, heq⟩
      refine h ⟨x, i⟩ (mem_cells_iff.mpr ⟨hx, hi⟩) ⟨fun hself => ?_, Or.inl rfl⟩ heq
      exact hiy (Point.mk.inj hself).2.symm
    · rintro ⟨hix, heq⟩
      refine h ⟨i, y⟩ (mem_cells_iff.mpr ⟨hi, hy⟩) ⟨fun hself => ?_, Or.inr (Or.inl rfl)⟩ heq
      exact hix (Point.mk.inj hself).1.symm
    · rintro ⟨heq, -⟩
      have hx' : (x / 3 * 3 + i) / 3 = x / 3 := by omega
      have hy' : (y / 3 * 3 + j) / 3 = y / 3 := by omega
      refine h ⟨x / 3 * 3 + i, y / 3 * 3 + j⟩ (mem_cells_iff.mpr ⟨by dsimp only; omega,
        by dsimp only; omega⟩) ⟨fun hself => ?_, Or.inr (Or.inr ⟨hx'.symm, hy'.symm⟩)⟩ heq
      rw [← hself] at heq
      exact hne heq

/-! ### What fits is a solution -/

/-- **The digits that fit** one after the other are those that differ from all their peers in the
end. -/
lemma fits_map_iff (has : as.Nodup) (hcells : ∀ a ∈ as, a ∈ cells) (hzero : ∀ a ∈ as, map a = 0)
    (hrest : ∀ b ∈ cells, b ∉ as → solution b = map b) :
    Fits Allowed map as (as.map solution) ↔ (∀ a ∈ as, 1 ≤ solution a ∧ solution a ≤ 9)
      ∧ ∀ a ∈ as, ∀ b ∈ cells, Peers a b → solution a ≠ solution b := by
  induction as generalizing map with
  | nil => simp [Fits]
  | cons a as ih =>
      obtain ⟨hmem, has⟩ := List.nodup_cons.mp has
      have ha := hcells a List.mem_cons_self
      have hzero' : ∀ b ∈ as, Function.update map a (solution a) b = 0 := by
        intro b hb
        have hne : b ≠ a := fun h => hmem (h ▸ hb)
        rw [Function.update_of_ne hne]
        exact hzero b (List.mem_cons_of_mem a hb)
      have hrest' : ∀ b ∈ cells, b ∉ as → solution b = Function.update map a (solution a) b := by
        intro b hb hbas
        rcases eq_or_ne b a with rfl | hne
        · rw [Function.update_self]
        · rw [Function.update_of_ne hne]
          exact hrest b hb (List.not_mem_cons_of_ne_of_not_mem hne hbas)
      -- the cells still to come are 0 when `judge` runs, and are compared when their turn comes
      have hjudge (hdigit : 1 ≤ solution a)
          (hlater : ∀ b ∈ as, 1 ≤ solution b ∧ (Peers b a → solution b ≠ solution a)) :
          judge map a (solution a) ↔ ∀ b ∈ cells, Peers a b → solution a ≠ solution b := by
        rw [judge_iff ha (by rw [hzero a List.mem_cons_self]; omega)]
        refine forall₂_congr fun b hb => forall_congr' fun hab => ?_
        by_cases hbas : b ∈ as
        · have hb₀ := hzero b (List.mem_cons_of_mem a hbas)
          exact iff_of_true (by omega) ((hlater b hbas).2 hab.symm).symm
        · rw [hrest b hb (List.not_mem_cons_of_ne_of_not_mem hab.1.symm hbas)]
          exact ne_comm
      rw [List.map_cons, Fits, ih has (fun b hb => hcells b (List.mem_cons_of_mem a hb)) hzero'
        hrest', Allowed, List.forall_mem_cons, List.forall_mem_cons]
      constructor
      · rintro ⟨⟨h₁, h₉, hj⟩, hdigits, hdiffer⟩
        refine ⟨⟨⟨h₁, h₉⟩, hdigits⟩, (hjudge h₁ fun b hb => ?_).mp hj, hdiffer⟩
        exact ⟨(hdigits b hb).1, hdiffer b hb a ha⟩
      · rintro ⟨⟨⟨h₁, h₉⟩, hdigits⟩, hdiffer, hdiffer'⟩
        refine ⟨⟨h₁, h₉, (hjudge h₁ fun b hb => ?_).mpr hdiffer⟩, hdigits, hdiffer'⟩
        exact ⟨(hdigits b hb).1, hdiffer' b hb a ha⟩

/-! ### The search -/

/-- How the search for digits for the cells `as` ends: with the least ones in place, or with the
grid as it was, if there are none. -/
def Searched (map : Grid) (as : List Point) (flag : ℕ) (map' : Grid) : Prop :=
  (flag = 1 ∧ ∃ vs, LeastFit Allowed map as vs ∧ map' = fillIn map as vs)
    ∨ flag = 0 ∧ (∀ vs, ¬ Fits Allowed map as vs) ∧ map' = map

/-- The loop of `dfs`: where each digit of the cell `a` leads to the search for the cells `as`, it
is the search for them all. -/
lemma tryDigits_ends {next : ℕ → ℕ × Grid → Option (ℕ × Grid)} (hzero : map a = 0)
    (hnext : ∀ i, Ends (fun fuel => next fuel (0, Function.update map a i))
      fun r => Searched (Function.update map a i) as r.1 r.2) :
    Ends (fun fuel => loop (fun _ => tryDigit (next fuel) a) fuel (1, 0, map))
      fun r => Searched map (a :: as) r.1 r.2 := by
  -- the digits below `i` have been tried, and lead nowhere
  refine Ends.loop_outer
    (I := fun s : ℕ × ℕ × Grid => 1 ≤ s.1 ∧ s.2.1 = 0 ∧ s.2.2 = map ∧ ∀ u, u < s.1 →
      Allowed map a u → ∀ ws, ¬ Fits Allowed (Function.update map a u) as ws)
    (fun s => 10 - s.1) (fun s hs => ?_) ⟨le_rfl, rfl, rfl, fun u hu hallowed => ?_⟩
  · obtain ⟨i, flag, map'⟩ := s
    obtain ⟨hone, hflag, hmap, htried⟩ := hs
    dsimp only at hone hflag hmap htried ⊢
    subst hflag hmap
    -- one more digit that leads nowhere
    have htried' (hi : Allowed map' a i → ∀ ws, ¬ Fits Allowed (Function.update map' a i) as ws) :
        ∀ u, u < i + 1 → Allowed map' a u →
          ∀ ws, ¬ Fits Allowed (Function.update map' a u) as ws := by
      intro u hu
      rcases (Nat.lt_succ_iff.mp hu).lt_or_eq with hlt | rfl
      · exact htried u hlt
      · exact hi
    simp only [tryDigit]
    by_cases hi : i < 10
    · simp only [if_pos hi]
      by_cases hjudge : judge map' a i
      · simp only [if_pos hjudge]
        refine (hnext i).bind fun ⟨flag, map⟩ hr => ?_
        rcases hr with ⟨hflag, vs, hleast, hmap⟩ | ⟨hflag, hnone, hmap⟩
        · dsimp only at hflag hmap ⊢
          subst hflag hmap
          have hallowed : Allowed map' a i := ⟨hone, by omega, hjudge⟩
          exact .of_eq (fun _ => rfl) (Or.inl ⟨rfl, i :: vs, .cons hallowed hleast htried, rfl⟩)
        · dsimp only at hflag hmap ⊢
          subst hflag hmap
          refine .of_eq (fun _ => rfl) ⟨⟨Nat.succ_pos i, rfl, ?_, htried' fun _ => hnone⟩, ?_⟩
          · dsimp only
            rw [Function.update_idem, ← hzero, Function.update_eq_self]
          · dsimp only
            omega
      · simp only [if_neg hjudge]
        refine .of_eq (fun _ => rfl)
          ⟨⟨Nat.succ_pos i, rfl, rfl, htried' fun h => absurd h.2.2 hjudge⟩, ?_⟩
        dsimp only
        omega
    · simp only [if_neg hi]
      refine .of_eq (fun _ => rfl) (Or.inr ⟨rfl, fun vs hvs => ?_, rfl⟩)
      obtain ⟨v, ws, -, hv, hws⟩ := hvs.exists_cons
      exact htried v (by have := hv.2.1; omega) hv ws hws
  · exact absurd hallowed.1 (by dsimp only at hu; omega)

/-- **`dfs`** from the cell `n` on, where all cells still to come are empty. -/
lemma dfs_ends (hp : p.Nodup) (hn : n ≤ p.length) (hzero : ∀ a ∈ p.drop n, map a = 0) :
    Ends (fun fuel => dfs p fuel n (0, map)) fun r => Searched map (p.drop n) r.1 r.2 := by
  induction has : p.drop n generalizing n map with
  | nil =>
      have hlen : n = p.length := le_antisymm hn (List.drop_eq_nil_iff.mp has)
      have hret : ∀ fuel, dfs p (fuel + 1) n (0, map) = some (1, map) := fun fuel => by
        rw [dfs, if_pos hlen]
      exact .of_succ (.of_eq hret (Or.inl ⟨rfl, [], .nil, rfl⟩))
  | cons a as ih =>
      have hlt : n < p.length := by
        by_contra hge
        rw [List.drop_eq_nil_of_le (by omega)] at has
        cases has
      obtain ⟨ha, hdrop⟩ : p[n]? = some a ∧ p.drop (n + 1) = as := by
        rw [List.drop_eq_getElem_cons hlt, List.cons.injEq] at has
        exact ⟨by rw [List.getElem?_eq_getElem hlt, has.1], has.2⟩
      have hnodup : (a :: as).Nodup := has ▸ hp.sublist (List.drop_sublist n p)
      obtain ⟨hmem, -⟩ := List.nodup_cons.mp hnodup
      rw [has] at hzero
      refine Ends.of_succ ?_
      simp only [dfs, if_neg hlt.ne, ha, Option.bind_eq_bind, Option.bind_some]
      refine tryDigits_ends (hzero a List.mem_cons_self) fun i => ih hlt (fun b hb => ?_) hdrop
      rw [hdrop] at hb
      have hne : b ≠ a := fun h => hmem (h ▸ hb)
      rw [Function.update_of_ne hne]
      exact hzero b (List.mem_cons_of_mem a hb)

/-! ### The grid that is read -/

lemma foldl_readCell (has : as.Nodup) :
    (as.foldl (fun g a => readCell g a (input a)) g).p = g.p ++ as.filter (fun a => input a = 0)
      ∧ (as.foldl (fun g a => readCell g a (input a)) g).flag = g.flag
      ∧ ∀ b, (as.foldl (fun g a => readCell g a (input a)) g).map b
        = if b ∈ as then input b else g.map b := by
  induction as generalizing g with
  | nil => simp
  | cons a as ih =>
      obtain ⟨hmem, has⟩ := List.nodup_cons.mp has
      obtain ⟨hp, hflag, hmap⟩ := ih (g := readCell g a (input a)) has
      have hset : (readCell g a (input a)).map = Function.update g.map a (input a) := by
        rw [readCell]
        split_ifs with hzero
        · rw [hzero]
        · rfl
      rw [List.foldl_cons, hp, hflag]
      refine ⟨?_, ?_, fun b => ?_⟩
      · rw [readCell, List.filter_cons]
        split_ifs with hzero hzero' hzero' <;> simp_all
      · rw [readCell]
        split_ifs <;> rfl
      · rw [hmap, hset]
        by_cases hb : b ∈ as
        · rw [if_pos hb, if_pos (List.mem_cons_of_mem a hb)]
        · rw [if_neg hb]
          rcases eq_or_ne b a with rfl | hne
          · rw [Function.update_self, if_pos List.mem_cons_self]
          · rw [Function.update_of_ne hne, if_neg (List.not_mem_cons_of_ne_of_not_mem hne hb)]

/-- What `main` has read: the empty cells in reading order, and the digits. -/
lemma readGrid_spec (input : Grid) (g : Globals) :
    (readGrid input g).p = holes input ∧ (readGrid input g).flag = 0
      ∧ ∀ a ∈ cells, (readGrid input g).map a = input a := by
  have hcells : cells = ⟨0, 0⟩ :: cells.filter fun a => a.x ≠ 0 ∨ a.y ≠ 0 := by decide
  have hread : readGrid input g
      = cells.foldl (fun g a => readCell g a (input a)) { g with p := [], flag := 0 } := by
    rw [hcells, List.foldl_cons]
    rfl
  rw [hread]
  obtain ⟨hp, hflag, hmap⟩ :
      (cells.foldl (fun g a => readCell g a (input a)) { g with p := [], flag := 0 }).p
          = [] ++ holes input ∧ _ ∧ _ := foldl_readCell nodup_cells
  refine ⟨hp, hflag, fun a ha => ?_⟩
  rw [hmap, if_pos ha]

lemma mem_holes_iff : a ∈ holes input ↔ a ∈ cells ∧ input a = 0 := by
  rw [holes, List.mem_filter, decide_eq_true_iff]

lemma nodup_holes : (holes input).Nodup := nodup_cells.filter _

/-- What fits into the empty cells of the grid is a solution. -/
lemma Solves.of_fits {vs : List ℕ} (hmap : ∀ a ∈ cells, map a = input a)
    (h : Fits Allowed map (holes input) vs) : Solves input (fillIn map (holes input) vs) := by
  have hvs := h.eq_map nodup_holes
  have hkept : ∀ b, b ∉ holes input → fillIn map (holes input) vs b = map b :=
    fun b hb => fillIn_of_notMem hb
  have hzero : ∀ b ∈ holes input, map b = 0 := fun b hb => by
    obtain ⟨hcell, hb⟩ := mem_holes_iff.mp hb
    rw [hmap b hcell, hb]
  rw [hvs, fits_map_iff nodup_holes (fun b hb => (mem_holes_iff.mp hb).1) hzero
    fun b _ hb => hkept b hb] at h
  refine ⟨fun b hb hne => ?_, h.1, h.2⟩
  rw [hkept b fun hhole => hne (mem_holes_iff.mp hhole).2, hmap b hb]

/-- The digits of a solution fit. -/
lemma Solves.fits (hmap : ∀ a ∈ cells, map a = input a) (h : Solves input solution) :
    Fits Allowed map (holes input) ((holes input).map solution) := by
  have hzero : ∀ b ∈ holes input, map b = 0 := fun b hb => by
    obtain ⟨hcell, hb⟩ := mem_holes_iff.mp hb
    rw [hmap b hcell, hb]
  refine (fits_map_iff nodup_holes (fun b hb => (mem_holes_iff.mp hb).1) hzero
    fun b hb hhole => ?_).mpr ⟨h.digit, h.differ⟩
  rw [hmap b hb]
  exact h.given b hb fun hzero => hhole (mem_holes_iff.mpr ⟨hb, hzero⟩)

/-- **The Sudoku solver**: on every grid that `main` reads, `dfs(0)` returns; it sets `flag` exactly
when there is a solution, and then leaves the one with the least digits in reading order; otherwise
it leaves the grid as it was. -/
theorem sudoku_solved (input : Grid) (g : Globals) :
    ∃ flag solution, Returns (fun fuel => dfs (readGrid input g).p fuel 0
        ((readGrid input g).flag, (readGrid input g).map)) (flag, solution)
      ∧ (flag = 1 ↔ ∃ other, Solves input other)
      ∧ (flag = 1 → Solves input solution ∧ ∀ other, Solves input other →
        (holes input).map solution ≤ (holes input).map other)
      ∧ (flag ≠ 1 → flag = 0 ∧ ∀ a ∈ cells, solution a = input a) := by
  obtain ⟨hp, hflag, hmap⟩ := readGrid_spec input g
  have hzero : ∀ a ∈ (readGrid input g).p.drop 0, (readGrid input g).map a = 0 := by
    intro a ha
    rw [List.drop_zero, hp] at ha
    obtain ⟨hcell, ha⟩ := mem_holes_iff.mp ha
    rw [hmap a hcell, ha]
  obtain ⟨⟨flag, solution⟩, hret, hsearched⟩ :=
    dfs_ends (hp ▸ nodup_holes) (Nat.zero_le _) hzero
  rw [List.drop_zero, hp] at hsearched
  rw [hflag]
  refine ⟨flag, solution, hret, ?_⟩
  rcases hsearched with ⟨rfl, vs, ⟨hfits, hleast⟩, rfl⟩ | ⟨rfl, hnone, rfl⟩
  · have hsolves := Solves.of_fits hmap hfits
    refine ⟨iff_of_true rfl ⟨_, hsolves⟩, fun _ => ⟨hsolves, fun other hother => ?_⟩,
      fun h => absurd rfl h⟩
    rw [← hfits.eq_map nodup_holes]
    exact hleast _ (hother.fits hmap)
  · refine ⟨iff_of_false (by decide) ?_, fun h => absurd h (by decide), fun _ => ⟨rfl, hmap⟩⟩
    rintro ⟨other, hother⟩
    exact hnone _ (hother.fits hmap)

end Proofs

end Wgs.Sudoku
