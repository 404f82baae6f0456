import Wgs.ErrorRecord.Report

/-!
The name that the error-record module keeps of one path.

`get_split` returns the index of the last backslash, and 0 where there is none; the name begins one
character behind it in both cases.  So the name is right where the path has a backslash, also at the
index 0, and a path without one loses its first character (`names_iff`).
-/

namespace Wgs

namespace ErrorRecord

open Foundation

variable {data : List Rec} {line : Line} {path : List UInt8}

/-- One more input is read: the record is made, with the part of the path behind its last backslash
as its name and the last 16 characters of that as its cut. -/
def NamesRight (data : List Rec) (line : Line) : Prop :=
  ∃ x, readLoop data [line] = some (data ++ [x]) ∧ x.name = baseName line.path
    ∧ x.cut = (baseName line.path).rtake 16

lemma getSplitLoop_eq_zero (h : backslash ∉ path) (i : ℕ) : getSplitLoop path i = 0 := by
  induction i with
  | zero => rfl
  | succ i ih => rw [getSplitLoop, if_neg fun hi => h (List.mem_of_getElem? hi), ih]

/-- Without a backslash the name is the whole path. -/
lemma baseName_eq_self (h : backslash ∉ path) : baseName path = path := by
  rw [baseName, List.rtakeWhile_eq_self_iff]
  intro c hc
  simp only [decide_eq_true_eq]
  rintro rfl
  exact h hc

/-- A path without a backslash loses its first character. -/
lemma readLoop_no_backslash {x : Rec} (h : backslash ∉ line.path)
    (hread : readLoop data [line] = some (data ++ [x])) : x.name = line.path.drop 1 := by
  rw [readLoop, getSplit, getSplitLoop_eq_zero h] at hread
  obtain ⟨-, -, hread⟩ := Option.bind_eq_some_iff.mp hread
  obtain ⟨-, -, hread⟩ := Option.bind_eq_some_iff.mp hread
  obtain ⟨-, -, hread⟩ := Option.bind_eq_some_iff.mp hread
  obtain ⟨-, -, hread⟩ := Option.bind_eq_some_iff.mp hread
  rw [readLoop, Option.some_inj] at hread
  obtain rfl := List.singleton_inj.mp (List.append_cancel_left hread)
  rfl

/-- **When the name is right**: exactly for a path with a backslash that fits in the arrays. -/
theorem names_iff (hpath : line.path ≠ []) :
    NamesRight data line ↔ backslash ∈ line.path ∧ data.length < 1000 ∧ line.path.length < 1000
      ∧ (baseName line.path).length < 500 := by
  by_cases hback : backslash ∈ line.path
  · rw [NamesRight, readLoop_cons hback, and_iff_right hback]
    split_ifs with hfits
    · exact iff_of_true ⟨record line data.length, rfl, rfl, rfl⟩ hfits
    · refine iff_of_false ?_ hfits
      rintro ⟨x, hread, -⟩
      cases hread
  · refine iff_of_false ?_ fun h => hback h.1
    rintro ⟨x, hread, hname, -⟩
    have hlength := congrArg List.length hname
    rw [readLoop_no_backslash hback hread, baseName_eq_self hback, List.length_drop] at hlength
    have hpos := List.length_pos_iff.mpr hpath
    omega

/-- A path whose last backslash is its first character. -/
theorem names_iff_first : NamesRight [] ⟨[92, 97, 46, 99], 5, by decide, ⟨by decide, by decide⟩⟩ :=
  (names_iff (by decide)).mpr (by decide)

/-- **The path `a.c`** has the name `.c`. -/
theorem names_plain_fails :
    readLoop [] [⟨[97, 46, 99], 5, by decide, ⟨by decide, by decide⟩⟩]
        = some [⟨[46, 99], [46, 99], 5, 1, 0⟩]
      ∧ ¬ NamesRight [] ⟨[97, 46, 99], 5, by decide, ⟨by decide, by decide⟩⟩ := by
  refine ⟨rfl, ?_⟩
  rintro ⟨x, hread, hname, -⟩
  have hlost := readLoop_no_backslash (by decide) hread
  rw [hlost] at hname
  revert hname
  decide

end ErrorRecord

end Wgs
