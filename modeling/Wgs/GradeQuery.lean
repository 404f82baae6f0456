import Mathlib.Data.Set.Finite.Lattice
import Wgs.Foundation.Scanf

/-!
`C/huawei/7.c`: grades, and commands that ask for the greatest of a range or set one.

The end of a line is a character for `%c`, so that the loop over the commands takes two rounds for
each of them: one reads the end of the line before, and fails to match a number, and the other one
reads the command.  After `M` rounds the outer loop goes on, with half of the commands still in the
input.  It looks for two numbers and does not find any, which it does not take for the end of the
input: `N` and `M` stay as they are, none of the grades is read again, and the next `M` rounds go on
with the commands where the last ones have stopped.  So all of them are answered in the end
(`main_answers`).
-/

namespace Wgs.GradeQuery

open Foundation Strings

/-! ### The program -/

/-- `for (i = m; i <= l; i++) if (b[i] > max) max = b[i];`, from some `i` and `max` on. -/
def maxLoop (b : Cells ℤ) (l : ℤ) : ℕ → ℤ × ℤ → Option (ℤ × ℤ) :=
  whileLoop
    (fun (_, i) => return i ≤ l)
    (fun _ (max, i) => do
      if (← b.load i) > max then return (← b.load i, i + 1) else return (max, i + 1))

/-- `sort`. -/
def sort (fuel : ℕ) (b : Cells ℤ) (m l : ℤ) : Option ℤ := do
  let (max, _) ← maxLoop b l fuel (← b.load m, m)
  return max

/-- `scanf("%d %d", &x, &y)`: what it returns, `x`, `y` and the rest of the input.  `EOF` is -1. -/
def scanTwo (x y : ℤ) (stdin : List UInt8) : Option (ℤ × ℤ × ℤ × List UInt8) := do
  match ← scanInt stdin with
  | .eof => return (-1, x, y, [])
  | .mismatch rest => return (0, x, y, rest)
  | .ok x rest =>
      match ← scanInt rest with
      | .eof => return (1, x, y, [])
      | .mismatch rest => return (1, x, y, rest)
      | .ok y rest => return (2, x, y, rest)

/-- `scanf("%c %d %d", C, &A, &B)` -/
def scanCommand (C : UInt8) (A B : ℤ) :
    List UInt8 → Option (ℤ × UInt8 × ℤ × ℤ × List UInt8)
  | [] => return (-1, C, A, B, [])
  | c :: stdin => do
      let (count, A, B, rest) ← scanTwo A B stdin
      return (if count = -1 then 1 else count + 1, c, A, B, rest)

/-- The variables of `main`, the rest of the input, and the numbers printed. -/
structure State where
  a : Cells ℤ
  N : ℤ
  M : ℤ
  A : ℤ
  B : ℤ
  C : UInt8
  stdin : List UInt8
  out : List ℤ

/-- `for (i = 1; i <= N; i++) if (scanf("%d", a + i) == EOF) break;`, from some `i` on. -/
def gradeLoop (N : ℤ) : ℕ → Cells ℤ × List UInt8 × ℤ → Option (Cells ℤ × List UInt8) :=
  loop fun _ (a, stdin, i) => do
    if i ≤ N then
      match ← scanInt stdin with
      | .eof => return .stop (a, [])
      | .mismatch rest => return .next (a, rest, i + 1)
      | .ok x rest => return .next (← a.store i x, rest, i + 1)
    else return .stop (a, stdin)

/-- `if (C[0] == 'Q') printf("%d\n", sort(a, A, B)); if (C[0] == 'U') a[A] = B;` -/
def execute (fuel : ℕ) (s : State) : Option State := do
  let s ← if s.C = 81 then (sort fuel s.a s.A s.B).map fun x => { s with out := s.out ++ [x] }
    else some s
  if s.C = 85 then (s.a.store s.A s.B).map fun a => { s with a } else some s

/-- The body of the loop over the commands. -/
def round (fuel : ℕ) (s : State) (i : ℤ) : Option (Control (State × ℤ) State) := do
  let (count, C, A, B, stdin) ← scanCommand s.C s.A s.B s.stdin
  let s := { s with C, A, B, stdin }
  if count = -1 then return .stop s else return .next (← execute fuel s, i + 1)

/-- `for (i = 0; i < M; i++)`, from some `i` on. -/
def commandLoop : ℕ → State × ℤ → Option State :=
  loop fun fuel (s, i) => if i < s.M then round fuel s i else return .stop s

/-- `while (scanf("%d %d", &N, &M) != EOF)` -/
def mainLoop : ℕ → State → Option State :=
  loop fun fuel s => do
    let (count, N, M, stdin) ← scanTwo s.N s.M s.stdin
    let s := { s with N, M, stdin }
    if count = -1 then return .stop s
    else
      let (a, stdin) ← gradeLoop s.N fuel (s.a, s.stdin, 1)
      return .next (← commandLoop fuel ({ s with a, stdin }, 0))

/-- `main`: the numbers printed. -/
def main (fuel : ℕ) (a : Cells ℤ) (N M A B : ℤ) (C : UInt8) (stdin : List UInt8) :
    Option (List ℤ) := do
  let s ← mainLoop fuel ⟨a, N, M, A, B, C, stdin, []⟩
  return s.out

/-! ### The input -/

/-- What a line asks for. -/
inductive Command where
  | query (A B : ℤ)
  | update (A B : ℤ)

namespace Command

def letter : Command → UInt8
  | query _ _ => 81
  | update _ _ => 85

def first : Command → ℤ
  | query A _ => A
  | update A _ => A

def second : Command → ℤ
  | query _ B => B
  | update _ B => B

/-- The command is about IDs from 1 to `N`. -/
def Valid (N : ℤ) : Command → Prop
  | query A B => 1 ≤ A ∧ A ≤ B ∧ B ≤ N
  | update A _ => 1 ≤ A ∧ A ≤ N

end Command

/-- A text that stands for an `int`. -/
def IsInt (text : List UInt8) (x : ℤ) : Prop := IsNumeral text x ∧ IsInt32 x

def IsSpaces (ws : List UInt8) : Prop := ∀ c ∈ ws, isSpace c

/-- Two numbers. -/
inductive IsPair : List UInt8 → ℤ → ℤ → Prop
  | mk {ws₁ ws₂ cs₁ cs₂ : List UInt8} {x y : ℤ} (hws₁ : IsSpaces ws₁) (hx : IsInt cs₁ x)
      (hne : ws₂ ≠ []) (hws₂ : IsSpaces ws₂) (hy : IsInt cs₂ y) :
      IsPair (ws₁ ++ (cs₁ ++ (ws₂ ++ cs₂))) x y

/-- The grades, behind white space each. -/
inductive IsNumbers : List ℤ → List UInt8 → Prop
  | nil : IsNumbers [] []
  | cons {xs : List ℤ} {x : ℤ} {ws cs rest : List UInt8} (hne : ws ≠ []) (hws : IsSpaces ws)
      (hx : IsInt cs x) (h : IsNumbers xs rest) : IsNumbers (x :: xs) (ws ++ (cs ++ rest))

/-- The commands, behind the end of a line each. -/
inductive IsLines : List Command → List UInt8 → Prop
  | nil {ws : List UInt8} (hws : IsSpaces ws) : IsLines [] ws
  | cons {c : Command} {cs : List Command} {ws pair rest : List UInt8} (hne : ws ≠ [])
      (hws : IsSpaces ws) (hpair : IsPair pair c.first c.second) (h : IsLines cs rest) :
      IsLines (c :: cs) (ws ++ c.letter :: (pair ++ rest))

/-- An input of the program: the grades and the commands, with their numbers in front. -/
inductive IsInput (grades : List ℤ) (cs : List Command) : List UInt8 → Prop
  | mk {head body rest : List UInt8} (hhead : IsPair head grades.length cs.length)
      (hbody : IsNumbers grades body) (hrest : IsLines cs rest)
      (hvalid : ∀ c ∈ cs, c.Valid grades.length) : IsInput grades cs (head ++ (body ++ rest))

/-- What is to be printed for the commands, where the student with the ID `i` has the grade `f i`:
the greatest grade of each range, after the updates before. -/
inductive Answers : (ℤ → ℤ) → List Command → List ℤ → Prop
  | nil {f : ℤ → ℤ} : Answers f [] []
  | query {f : ℤ → ℤ} {A B x : ℤ} {cs : List Command} {out : List ℤ}
      (hx : IsGreatest (f '' Set.Icc A B) x) (h : Answers f cs out) :
      Answers f (.query A B :: cs) (x :: out)
  | update {f : ℤ → ℤ} {A B : ℤ} {cs : List Command} {out : List ℤ}
      (h : Answers (Function.update f A B) cs out) : Answers f (.update A B :: cs) out

section Answers

variable {f g : ℤ → ℤ} {cs : List Command} {out out' : List ℤ} {N : ℤ}

lemma Answers.congr (h : Answers f cs out) (hvalid : ∀ c ∈ cs, c.Valid N)
    (hfg : ∀ i ∈ Set.Icc 1 N, g i = f i) : Answers g cs out := by
  induction h generalizing g with
  | nil => exact .nil
  | @query f A B x cs out hx h ih =>
      obtain ⟨⟨hA, hAB, hB⟩, hrest⟩ := List.forall_mem_cons.mp hvalid
      have himage : g '' Set.Icc A B = f '' Set.Icc A B :=
        Set.image_congr fun i hi => hfg i ⟨hA.trans hi.1, hi.2.trans hB⟩
      exact .query (himage ▸ hx) (ih hrest hfg)
  | @update f A B cs out h ih =>
      obtain ⟨-, hrest⟩ := List.forall_mem_cons.mp hvalid
      refine .update (ih hrest fun i hi => ?_)
      by_cases hiA : i = A
      · rw [hiA, Function.update_self, Function.update_self]
      · rw [Function.update_of_ne hiA, Function.update_of_ne hiA, hfg i hi]

lemma exists_answers (hvalid : ∀ c ∈ cs, c.Valid N) (f : ℤ → ℤ) : ∃ out, Answers f cs out := by
  induction cs generalizing f with
  | nil => exact ⟨[], .nil⟩
  | cons c cs ih =>
      obtain ⟨hc, hrest⟩ := List.forall_mem_cons.mp hvalid
      cases c with
      | query A B =>
          obtain ⟨out, hout⟩ := ih hrest f
          obtain ⟨i, hi, hmax⟩ := Set.exists_max_image (Set.Icc A B) f (Set.finite_Icc A B)
            ⟨A, le_rfl, hc.2.1⟩
          exact ⟨f i :: out, .query ⟨⟨i, hi, rfl⟩, Set.forall_mem_image.mpr hmax⟩ hout⟩
      | update A B =>
          obtain ⟨out, hout⟩ := ih hrest (Function.update f A B)
          exact ⟨out, .update hout⟩

end Answers

/-! ### `sort` -/

section Greatest

variable {b : Cells ℤ} {m l : ℤ}

lemma sort_ends (hm : 0 ≤ m) (hml : m ≤ l) (hl : l < b.length) :
    Ends (fun fuel => sort fuel b m l) (IsGreatest (b.cell '' Set.Icc m l)) := by
  refine Ends.load hm (by omega) ?_
  have hloop : Ends (fun fuel => maxLoop b l fuel (b.cell m, m)) fun r =>
      IsGreatest (b.cell '' Set.Icc m l) r.1 := by
    refine Ends.whileLoop
      (I := fun r : ℤ × ℤ => m ≤ r.2 ∧ r.2 ≤ l + 1 ∧ r.1 ∈ b.cell '' Set.Icc m l
        ∧ ∀ k, m ≤ k → k < r.2 → b.cell k ≤ r.1)
      (fun r => (l + 1 - r.2).toNat) (fun r hr => ?_)
      ⟨le_rfl, by dsimp only; omega, ⟨m, ⟨le_rfl, hml⟩, rfl⟩, fun k hk hk' => by
        dsimp only at hk'; omega⟩
    obtain ⟨max, i⟩ := r
    obtain ⟨hmi, hil, hmem, hle⟩ := hr
    dsimp only at *
    by_cases hi : i ≤ l
    · refine Or.inl ⟨by simp [hi], ?_⟩
      have hload := Cells.load_eq (s := b) (i := i) (by omega) (by omega)
      have hnext : ∀ v, max ≤ v → b.cell i ≤ v → ∀ k, m ≤ k → k < i + 1 → b.cell k ≤ v := by
        intro v hv hiv k hk hki
        rcases (Int.lt_add_one_iff.mp hki).lt_or_eq with hlt | rfl
        · exact (hle k hk hlt).trans hv
        · exact hiv
      by_cases hgt : b.cell i > max
      · exact .of_eq (r := (b.cell i, i + 1)) (fun _ => by simp [hload, hgt])
          ⟨⟨by dsimp only; omega, by dsimp only; omega, ⟨i, ⟨hmi, hi⟩, rfl⟩,
            hnext _ hgt.le le_rfl⟩, by dsimp only; omega⟩
      · exact .of_eq (r := (max, i + 1)) (fun _ => by simp [hload, hgt])
          ⟨⟨by dsimp only; omega, by dsimp only; omega, hmem,
            hnext _ le_rfl (not_lt.mp hgt)⟩, by dsimp only; omega⟩
    · refine Or.inr ⟨by simp [hi], hmem, Set.forall_mem_image.mpr fun k hk => ?_⟩
      exact hle k hk.1 (hk.2.trans_lt (by omega))
  exact hloop.bind fun r hr => .of_eq (fun _ => rfl) hr

end Greatest

/-! ### Reading -/

section Reading

variable {xs : List ℤ} {c : Command} {cs : List Command} {text ws rest stdin pair : List UInt8}
  {x y x₀ y₀ : ℤ} {u : UInt8}

lemma noDigit_spaces (hne : ws ≠ []) (hws : IsSpaces ws) : NoDigit (ws ++ rest) := by
  obtain ⟨w, ws, rfl⟩ := List.exists_cons_of_ne_nil hne
  intro c hc
  obtain rfl := Option.some_inj.mp hc
  by_contra hdigit
  have hspace := isSpace_of_isDigit (by simpa using hdigit)
  rw [hws _ List.mem_cons_self] at hspace
  cases hspace

lemma IsLines.noDigit (h : IsLines cs text) : NoDigit text := by
  cases h with
  | nil hws =>
      cases text with
      | nil => exact fun c hc => by cases hc
      | cons w ws =>
          have hdigit : NoDigit (w :: ws ++ []) := noDigit_spaces (by simp) hws
          rwa [List.append_nil] at hdigit
  | cons hne hws => exact noDigit_spaces hne hws

lemma IsNumbers.noDigit (h : IsNumbers xs text) (hrest : NoDigit rest) :
    NoDigit (text ++ rest) := by
  cases h with
  | nil => exact hrest
  | cons hne hws =>
      rw [List.append_assoc]
      exact noDigit_spaces hne hws

/-- Two numbers are read. -/
lemma scanTwo_pair (hpair : IsPair pair x y) (hrest : NoDigit rest) :
    scanTwo x₀ y₀ (pair ++ rest) = some (2, x, y, rest) := by
  obtain ⟨hws₁, hx, hne, hws₂, hy⟩ := hpair
  rename_i ws₁ ws₂ cs₁ cs₂
  have hfirst : scanInt (ws₁ ++ (cs₁ ++ (ws₂ ++ (cs₂ ++ rest)))) = _ :=
    scanInt_numeral hws₁ hx.1 hx.2 (noDigit_spaces hne hws₂)
  have hsecond := scanInt_numeral hws₂ hy.1 hy.2 hrest
  have htext : ws₁ ++ (cs₁ ++ (ws₂ ++ cs₂)) ++ rest = ws₁ ++ (cs₁ ++ (ws₂ ++ (cs₂ ++ rest))) := by
    simp only [List.append_assoc]
  rw [scanTwo, htext, hfirst, Option.bind_eq_bind, Option.bind_some]
  dsimp only
  rw [hsecond]
  rfl

/-- In front of a command, no number is found. -/
lemma scanInt_letter (hws : IsSpaces ws) :
    scanInt (ws ++ c.letter :: rest) = some (.mismatch (c.letter :: rest)) := by
  have hletter : c.letter = 81 ∨ c.letter = 85 := by
    cases c
    · exact Or.inl rfl
    · exact Or.inr rfl
  rcases hletter with hletter | hletter <;> rw [hletter]
    <;> exact scanInt_mismatch hws (by decide) (by decide) (by decide) (by decide)

lemma scanInt_command : scanInt (c.letter :: rest) = some (.mismatch (c.letter :: rest)) :=
  scanInt_letter fun c (hc : c ∈ []) => by cases hc

end Reading

/-! ### The run -/

/-- The rest of the input while the program runs: lines, of which the first one may have lost the
white space in front; and a weight that every character read from it in vain decreases. -/
inductive Ahead : ℕ → List Command → List UInt8 → Prop
  | lines {cs : List Command} {text : List UInt8} (h : IsLines cs text) :
      Ahead (2 * cs.length + 1) cs text
  | command {c : Command} {cs : List Command} {pair rest : List UInt8}
      (hpair : IsPair pair c.first c.second) (h : IsLines cs rest) :
      Ahead (2 * (cs.length + 1)) (c :: cs) (c.letter :: (pair ++ rest))

/-- The variables while the program runs: with the answers to the commands that are left, what is
printed is `total`. -/
structure Answering (N M : ℤ) (total : List ℤ) (cs : List Command) (s : State) : Prop where
  N_eq : s.N = N
  M_eq : s.M = M
  length_a : N < s.a.length
  valid : ∀ c ∈ cs, c.Valid N
  answers : ∃ out, Answers s.a.cell cs out ∧ s.out ++ out = total

section Run

variable {N M : ℤ} {total xs : List ℤ} {c : Command} {cs : List Command} {s : State} {w : ℕ}
  {a : Cells ℤ} {stdin body rest pair : List UInt8} {i : ℤ}

lemma Ahead.two_le {text : List UInt8} (h : Ahead w cs text) (hne : cs ≠ []) : 2 ≤ w := by
  obtain ⟨c, cs, rfl⟩ := List.exists_cons_of_ne_nil hne
  cases h with
  | lines h =>
      rw [List.length_cons]
      omega
  | command hpair h => omega

/-- The commands do not read what the scans set. -/
lemma Answering.scanned {A B : ℤ} {C : UInt8} (h : Answering N M total cs s) :
    Answering N M total cs { s with A := A, B := B, C := C, stdin := stdin } :=
  ⟨h.N_eq, h.M_eq, h.length_a, h.valid, h.answers⟩

/-- White space is no command. -/
lemma execute_space (fuel : ℕ) (hC : isSpace s.C) : execute fuel s = some s := by
  have hne : ∀ u : UInt8, isSpace u = false → s.C ≠ u := by
    rintro u hu rfl
    rw [hC] at hu
    cases hu
  simp [execute, hne 81 (by decide), hne 85 (by decide)]

/-- A command is carried out. -/
lemma execute_ends (h : Answering N M total (c :: cs) s) (hC : s.C = c.letter)
    (hA : s.A = c.first) (hB : s.B = c.second) :
    Ends (fun fuel => execute fuel s) fun s' => Answering N M total cs s' ∧ s'.stdin = s.stdin := by
  obtain ⟨hN, hM, hlen, hvalid, out, hanswers, htotal⟩ := h
  obtain ⟨hc, hrest⟩ := List.forall_mem_cons.mp hvalid
  cases hanswers with
  | @query _ A B x _ out hx hanswers =>
      obtain ⟨hone, hAB, hBN⟩ := hc
      have hA : s.A = A := hA
      have hB : s.B = B := hB
      have hC : s.C = 81 := hC
      obtain ⟨y, ⟨n, hn⟩, hy⟩ := sort_ends (b := s.a) (m := s.A) (l := s.B) (by omega) (by omega)
        (by omega)
      rw [hA, hB] at hy
      obtain rfl : y = x := hy.unique hx
      refine ⟨{ s with out := s.out ++ [y] }, ⟨n, fun fuel hfuel => ?_⟩,
        ⟨hN, hM, hlen, hrest, out, hanswers, ?_⟩, rfl⟩
      · have hsort := hn fuel hfuel
        beta_reduce at hsort
        simp [execute, hC, hsort]
      · rw [← htotal, List.append_assoc]
        rfl
  | @update _ A B _ out hanswers =>
      obtain ⟨hone, hAN⟩ := hc
      have hA : s.A = A := hA
      have hB : s.B = B := hB
      have hC : s.C = 85 := hC
      obtain ⟨a, hstore, hlen', hcell⟩ := Cells.store_spec (s := s.a) (i := s.A) (by omega)
        (by omega) s.B
      refine .of_eq (r := { s with a := a }) (fun _ => ?_)
        ⟨⟨hN, hM, by dsimp only; omega, hrest, out, ?_, htotal⟩, rfl⟩
      · simp [execute, hC, hstore]
      · dsimp only
        rw [hcell, hA, hB]
        exact hanswers

/-- One round of the loop over the commands. -/
lemma round_ends (hahead : Ahead w cs s.stdin) (h : Answering N M total cs s) :
    Ends (fun fuel => round fuel s i)
      (Control.Meets
        (fun r => r.2 = i + 1 ∧ ∃ w' cs', Ahead w' cs' r.1.stdin ∧ Answering N M total cs' r.1
          ∧ w' ≤ w ∧ (cs' = [] ∨ w' < w))
        (fun s' => ∃ w', Ahead w' [] s'.stdin ∧ Answering N M total [] s' ∧ w' ≤ w)) := by
  simp only [round]
  generalize hstdin : s.stdin = stdin at hahead
  cases hahead with
  | lines hlines =>
      cases hlines with
      | nil hws =>
          cases stdin with
          | nil =>
              refine .of_eq (r := .stop { s with stdin := [] }) (fun _ => rfl)
                ⟨1, .lines (.nil hws), h.scanned, le_rfl⟩
          | cons u ws =>
              obtain ⟨hu, hws⟩ := List.forall_mem_cons.mp hws
              have hscan : scanCommand s.C s.A s.B (u :: ws) = some (1, u, s.A, s.B, []) := by
                simp [scanCommand, scanTwo, scanInt_spaces hws]
              refine .of_eq (r := .next ({ s with C := u, stdin := [] }, i + 1)) (fun fuel => ?_)
                ⟨rfl, 1, [], .lines (.nil (by simp [IsSpaces])), h.scanned, le_rfl, Or.inl rfl⟩
              have hexecute := execute_space fuel (s := { s with C := u, stdin := [] }) hu
              simp [hscan, hexecute]
      | @cons c cs ws pair rest hne hws hpair hlines =>
          obtain ⟨u, ws, rfl⟩ := List.exists_cons_of_ne_nil hne
          obtain ⟨hu, hws⟩ := List.forall_mem_cons.mp hws
          have hscan : scanCommand s.C s.A s.B (u :: ws ++ c.letter :: (pair ++ rest))
              = some (1, u, s.A, s.B, c.letter :: (pair ++ rest)) := by
            rw [List.cons_append, scanCommand, scanTwo, scanInt_letter hws]
            rfl
          refine .of_eq (r := .next ({ s with C := u, stdin := c.letter :: (pair ++ rest) }, i + 1))
            (fun fuel => ?_) ⟨rfl, _, c :: cs, .command hpair hlines, h.scanned, ?_, Or.inr ?_⟩
          · have hexecute := execute_space fuel
              (s := { s with C := u, stdin := c.letter :: (pair ++ rest) }) hu
            simp only [hscan, Option.bind_eq_bind, Option.bind_some, hexecute]
            rfl
          · rw [List.length_cons]
            exact Nat.le_succ _
          · rw [List.length_cons]
            exact Nat.lt_succ_self _
  | @command c cs pair rest hpair hlines =>
      have hscan : scanCommand s.C s.A s.B (c.letter :: (pair ++ rest))
          = some (3, c.letter, c.first, c.second, rest) := by
        rw [scanCommand, scanTwo_pair hpair hlines.noDigit]
        rfl
      simp only [hscan, Option.bind_eq_bind, Option.bind_some]
      refine (execute_ends (s := ⟨s.a, s.N, s.M, c.first, c.second, c.letter, rest, s.out⟩)
        h.scanned rfl rfl rfl).bind fun s' ⟨hs', hrest⟩ => ?_
      refine .of_eq (fun _ => rfl) ⟨rfl, _, cs, .lines ?_, hs', ?_, Or.inr ?_⟩
      · dsimp only at hrest ⊢
        rw [hrest]
        exact hlines
      · omega
      · omega

/-- `M` rounds of the loop over the commands. -/
lemma commandLoop_ends (hahead : Ahead w cs s.stdin) (h : Answering N M total cs s) :
    Ends (fun fuel => commandLoop fuel (s, 0)) fun s' => ∃ w' cs', Ahead w' cs' s'.stdin
      ∧ Answering N M total cs' s' ∧ w' ≤ w ∧ (1 ≤ M → cs' = [] ∨ w' < w) := by
  refine Ends.loop
    (I := fun r : State × ℤ => ∃ w' cs', Ahead w' cs' r.1.stdin ∧ Answering N M total cs' r.1
      ∧ w' ≤ w ∧ (1 ≤ r.2 → cs' = [] ∨ w' < w) ∧ 0 ≤ r.2)
    (fun r => (M - r.2).toNat) (fun r hr => ?_)
    ⟨w, cs, hahead, h, le_rfl, fun h => by dsimp only at h; omega, le_rfl⟩
  obtain ⟨s, i⟩ := r
  obtain ⟨w', cs', hahead, h, hle, hone, hi⟩ := hr
  dsimp only at *
  have hM := h.M_eq
  by_cases hiM : i < s.M
  · simp only [hiM, if_true]
    refine (round_ends hahead h).mono fun r hr => ?_
    cases r with
    | next r =>
        obtain ⟨hr, w'', cs'', hahead'', h'', hle'', hlt⟩ := hr
        refine ⟨⟨w'', cs'', hahead'', h'', hle''.trans hle, fun _ => hlt.imp_right fun hlt =>
          hlt.trans_le hle, by omega⟩, by omega⟩
    | stop s' =>
        obtain ⟨w'', hahead'', h'', hle''⟩ := hr
        exact ⟨w'', [], hahead'', h'', hle''.trans hle, fun _ => Or.inl rfl⟩
  · simp only [hiM, if_false]
    exact .of_eq (fun _ => rfl) ⟨w', cs', hahead, h, hle, fun _ => hone (by omega)⟩

/-- The grades are read. -/
lemma gradeLoop_ends {p : List ℤ} (hbody : IsNumbers xs body) (hrest : NoDigit rest)
    (hlen : (p ++ xs).length ≤ a.length) :
    Ends (fun fuel => gradeLoop ((p ++ xs).length - 1) fuel
        (Cells.fill (p ++ xs) a p.length, body ++ rest, p.length))
      (· = (Cells.fill (p ++ xs) a (p ++ xs).length, rest)) := by
  induction hbody generalizing p with
  | nil =>
      refine .loop_step (.of_eq (r := .stop (Cells.fill (p ++ []) a p.length, rest))
        (fun _ => ?_) ?_)
      · simp
      · simp [Control.Meets]
  | @cons xs x ws cs text hne hws hx hbody ih =>
      have hscan := scanInt_numeral hws hx.1 hx.2 (hbody.noDigit hrest)
      have hlt : p.length < (p ++ x :: xs).length := by simp
      have hstore := Cells.store_fill hlt hlen
      rw [List.getElem_append_right le_rfl] at hstore
      simp only [Nat.sub_self, List.getElem_cons_zero] at hstore
      have htext : ws ++ (cs ++ text) ++ rest = ws ++ (cs ++ (text ++ rest)) := by
        simp only [List.append_assoc]
      refine .loop_step (.of_eq (r := .next (Cells.fill (p ++ x :: xs) a (p.length + 1),
        text ++ rest, (p.length : ℤ) + 1)) (fun _ => ?_) ?_)
      · rw [htext]
        simp [hscan, hstore]
      · have hone : ((p ++ [x]).length : ℤ) = p.length + 1 := by simp
        rw [List.append_cons] at hlen ⊢
        have hnext := ih hlen
        have hone' : (p ++ [x]).length = p.length + 1 := by simp
        rw [hone, hone'] at hnext
        exact hnext

/-- Where no number is found, the grades stay as they are. -/
lemma gradeLoop_letter :
    Ends (fun fuel => gradeLoop N fuel (a, c.letter :: rest, i)) (· = (a, c.letter :: rest)) := by
  refine Ends.loop (I := fun r : Cells ℤ × List UInt8 × ℤ => r.1 = a ∧ r.2.1 = c.letter :: rest)
    (fun r => (N + 1 - r.2.2).toNat) (fun r hr => ?_) ⟨rfl, rfl⟩
  obtain ⟨a', stdin, i⟩ := r
  obtain ⟨rfl, rfl⟩ := hr
  by_cases hi : i ≤ N
  · refine .of_eq (r := .next (a', c.letter :: rest, i + 1)) (fun _ => ?_) ⟨⟨rfl, rfl⟩, ?_⟩
    · simp [hi, scanInt_command]
    · dsimp only
      omega
  · exact .of_eq (r := .stop (a', c.letter :: rest)) (fun _ => by simp [hi]) rfl

/-- A round of the outer loop, when no number is found in front of the next command. -/
lemma mainLoop_round (h : Answering N M total (c :: cs) s) (hpair : IsPair pair c.first c.second)
    (hlines : IsLines cs rest) (hM : 1 ≤ M)
    (hscan : scanTwo s.N s.M s.stdin = some (0, s.N, s.M, c.letter :: (pair ++ rest)))
    (hnext : ∀ w' < 2 * (cs.length + 1), ∀ cs' s', Ahead w' cs' s'.stdin →
      Answering N M total cs' s' → Ends (fun fuel => mainLoop fuel s') fun s' => s'.out = total) :
    Ends (fun fuel => mainLoop fuel s) fun s' => s'.out = total := by
  refine .loop_step ?_
  simp only [hscan, Option.bind_eq_bind, Option.bind_some]
  refine gradeLoop_letter.bind fun r hr => ?_
  obtain rfl := hr
  refine (commandLoop_ends (Ahead.command hpair hlines)
    (s := { s with stdin := c.letter :: (pair ++ rest) }) h.scanned).bind
    fun s' ⟨w', cs', hahead', h', hle, hlt⟩ => .of_eq (fun _ => rfl) ?_
  refine hnext w' ?_ cs' s' hahead' h'
  rcases hlt hM with rfl | hlt
  · cases hahead' with
    | lines =>
        rw [List.length_nil]
        omega
  · exact hlt

/-- **The rounds of the outer loop**: the ones that find no numbers go on with the commands. -/
lemma mainLoop_ends (hahead : Ahead w cs s.stdin) (h : Answering N M total cs s)
    (hM : cs ≠ [] → 1 ≤ M) : Ends (fun fuel => mainLoop fuel s) fun s' => s'.out = total := by
  induction w using Nat.strong_induction_on generalizing cs s with
  | _ w ih =>
      generalize hstdin : s.stdin = stdin at hahead
      cases hahead with
      | lines hlines =>
          cases hlines with
          | nil hws =>
              obtain ⟨-, -, -, -, out, hanswers, htotal⟩ := h
              cases hanswers
              rw [List.append_nil] at htotal
              refine .loop_step (.of_eq (r := .stop { s with stdin := [] }) (fun _ => ?_) htotal)
              simp [hstdin, scanTwo, scanInt_spaces hws]
          | cons hne hws hpair hlines =>
              refine mainLoop_round h hpair hlines (hM (by simp)) ?_ fun w' hw' cs' s' hahead' h' =>
                ih w' (by rw [List.length_cons]; omega) hahead' h' fun _ => hM (by simp)
              rw [hstdin, scanTwo, scanInt_letter hws]
              rfl
      | command hpair hlines =>
          refine mainLoop_round h hpair hlines (hM (by simp)) ?_ fun w' hw' cs' s' hahead' h' =>
            ih w' hw' hahead' h' fun _ => hM (by simp)
          rw [hstdin, scanTwo, scanInt_command]
          rfl

end Run

/-- **Every command is carried out, and every query answered**: the numbers printed are the greatest
grades of the ranges that are asked for, in the order of the queries, after the updates before. -/
theorem main_answers {grades : List ℤ} {cs : List Command} {text : List UInt8} {a : Cells ℤ}
    (htext : IsInput grades cs text) (hgrades : grades.length < 300000) (ha : a.length = 300000)
    (N M A B : ℤ) (C : UInt8) :
    ∃ out, Returns (fun fuel => main fuel a N M A B C text) out
      ∧ Answers (fun i => Cells.cell grades (i - 1)) cs out := by
  obtain ⟨hhead, hbody, hrest, hvalid⟩ := htext
  rename_i head body rest
  obtain ⟨out, hout⟩ := exists_answers hvalid fun i => Cells.cell grades (i - 1)
  refine ⟨out, ?_, hout⟩
  suffices h : Ends (fun fuel => main fuel a N M A B C (head ++ (body ++ rest))) (· = out) by
    obtain ⟨out', hreturns, rfl⟩ := h
    exact hreturns
  have hscan : scanTwo N M (head ++ (body ++ rest))
      = some (2, (grades.length : ℤ), (cs.length : ℤ), body ++ rest) :=
    scanTwo_pair hhead (hbody.noDigit hrest.noDigit)
  have hlen : ([a.cell 0] ++ grades).length ≤ a.length := by
    rw [List.length_append, List.length_singleton]
    omega
  have hread := gradeLoop_ends hbody hrest.noDigit hlen
  have hone : (([a.cell 0] ++ grades).length : ℤ) - 1 = grades.length := by simp
  have hfill : Cells.fill ([a.cell 0] ++ grades) a 1 = a := Cells.fill_one (by omega) grades
  rw [hone, List.length_singleton, hfill, Nat.cast_one] at hread
  -- the array with the grades, and the variables when they are read
  set a' := Cells.fill ([a.cell 0] ++ grades) a ([a.cell 0] ++ grades).length
  have hlen' : a'.length = a.length := Cells.length_fill le_rfl hlen
  have hanswering : Answering grades.length cs.length out cs
      ⟨a', grades.length, cs.length, A, B, C, rest, []⟩ := by
    refine ⟨rfl, rfl, by dsimp only; omega, hvalid, out, ?_, rfl⟩
    refine hout.congr hvalid fun i ⟨hi, hi'⟩ => ?_
    dsimp only
    rw [Cells.cell_fill_of_lt (by omega) (by omega) le_rfl]
    exact Cells.cell_cons hi
  have hmain : Ends (fun fuel => mainLoop fuel ⟨a, N, M, A, B, C, head ++ (body ++ rest), []⟩)
      fun s => s.out = out := by
    refine .loop_step ?_
    simp only [hscan, Option.bind_eq_bind, Option.bind_some]
    refine hread.bind fun r hr => ?_
    obtain rfl := hr
    refine (commandLoop_ends (Ahead.lines hrest) hanswering).bind
      fun s ⟨w, cs', hahead, h, hle, _⟩ => .of_eq (fun _ => rfl) ?_
    refine mainLoop_ends hahead h fun hne => ?_
    have htwo := hahead.two_le hne
    omega
  exact hmain.bind fun s hs => .of_eq (fun _ => rfl) hs

/-! ### An input -/

lemma isInt_of_digit {d : UInt8} {x : ℤ} (hd : isDigit d) (hx : digitsValue [d] = x)
    (hint : IsInt32 x) : IsInt [d] x :=
  hx ▸ ⟨.unsigned (by simp) (List.forall_mem_singleton.mpr hd), hx ▸ hint⟩

/-- The lines `2 3`, `5 7`, `Q 1 2`, `U 2 3` and `Q 1 2`. -/
lemma isInput_sample : IsInput [5, 7] [.query 1 2, .update 2 3, .query 1 2]
    ([50, 32, 51] ++ ([10, 53, 32, 55] ++ [10, 81, 32, 49, 32, 50, 10, 85, 32, 50, 32, 51, 10, 81,
      32, 49, 32, 50, 10])) := by
  have hblank : IsSpaces [32] := List.forall_mem_singleton.mpr rfl
  have hend : IsSpaces [10] := List.forall_mem_singleton.mpr rfl
  have hempty : IsSpaces [] := fun c hc => by cases hc
  have hone : IsInt [49] 1 := isInt_of_digit rfl rfl (by decide)
  have htwo : IsInt [50] 2 := isInt_of_digit rfl rfl (by decide)
  have hthree : IsInt [51] 3 := isInt_of_digit rfl rfl (by decide)
  have hfive : IsInt [53] 5 := isInt_of_digit rfl rfl (by decide)
  have hseven : IsInt [55] 7 := isInt_of_digit rfl rfl (by decide)
  have hquery : IsPair [32, 49, 32, 50] 1 2 := .mk hblank hone (by simp) hblank htwo
  have hupdate : IsPair [32, 50, 32, 51] 2 3 := .mk hblank htwo (by simp) hblank hthree
  refine .mk (.mk hempty htwo (by simp) hblank hthree)
    (.cons (by simp) hend hfive (.cons (by simp) hblank hseven .nil))
    (.cons (c := .query 1 2) (by simp) hend hquery (.cons (c := .update 2 3) (by simp) hend hupdate
      (.cons (c := .query 1 2) (by simp) hend hquery (.nil hend)))) ?_
  simp [Command.Valid]

/-- The theorem at this input. -/
theorem main_answers_sample :
    ∃ out, Returns (fun fuel => main fuel (List.replicate 300000 0) 0 0 0 0 0
        ([50, 32, 51] ++ ([10, 53, 32, 55] ++ [10, 81, 32, 49, 32, 50, 10, 85, 32, 50, 32, 51, 10,
          81, 32, 49, 32, 50, 10]))) out
      ∧ Answers (fun i => Cells.cell [5, 7] (i - 1)) [.query 1 2, .update 2 3, .query 1 2] out :=
  main_answers isInput_sample (by decide) List.length_replicate 0 0 0 0 0

end Wgs.GradeQuery
