import Aleatory.Numeric.Elementary
import Aleatory.Proofs.Numeric.Special

/-!
# What the formulas need from the transcendental functions

The transcendental functions of the doubles are a parameter of the formulas. `Transcendental.Sound`
is what is relied on about them. Functions given by a table of values, with crude values outside of
the table, are sound, too.
-/

namespace Aleatory

/-- What is relied on about the transcendental functions of the doubles: rough bounds where the
result is a number, and what becomes of the special numbers. -/
structure Transcendental.Sound (functions : Transcendental Float) : Prop where
  ln_bounds {x : Float} (hfinite : x.isFinite = true) (hpos : 0.0 < x) :
    -1024.0 ≤ functions.ln x ∧ functions.ln x ≤ 1024.0
  ln_infinity {x : Float} (h : (x == 1.0 / 0.0) = true) :
    (functions.ln x == 1.0 / 0.0) = true
  sin_bounds {x : Float} (hpos : 0.0 < x) (htwo : x ≤ 2.0) :
    0.0 < functions.sin x ∧ functions.sin x ≤ 1.0
  exp_bounds {x : Float} (h : x ≤ 0.0) : 0.0 ≤ functions.exp x ∧ functions.exp x ≤ 1.0
  exp_nan {x : Float} (h : x.isNaN = true) : (functions.exp x).isNaN = true
  lnOnePlus_bounds {x : Float} (hzero : 0.0 ≤ x) (hone : x ≤ 1.0) :
    0.0 ≤ functions.lnOnePlus x ∧ functions.lnOnePlus x ≤ 1.0
  lnOnePlus_nan {x : Float} (h : x.isNaN = true) : (functions.lnOnePlus x).isNaN = true
  /-- At NaN and nowhere else, `expLessOne` is NaN. -/
  expLessOne_nan (x : Float) : (functions.expLessOne x).isNaN = x.isNaN

/-! ## Tables -/

/-- The value of a table at a number, or a default where the table has none. -/
def tableValue (table : List (Float × Float)) (default : Float → Float) (x : Float) : Float :=
  match table.find? (·.1 == x) with
  | some (_, y) => y
  | none => default x

theorem tableValue_of_forall {P : Float → Prop} {table : List (Float × Float)}
    {default : Float → Float} {x : Float} (htable : ∀ entry ∈ table, P entry.2)
    (hdefault : P (default x)) : P (tableValue table default x) := by
  rw [tableValue]
  split
  · rename_i hfound
    exact htable _ (List.mem_of_find?_eq_some hfound)
  · exact hdefault

theorem tableValue_of_not_finite {table : List (Float × Float)} {default : Float → Float}
    {x : Float} (htable : ∀ entry ∈ table, entry.1.isFinite = true) (hx : x.isFinite = false) :
    tableValue table default x = default x := by
  have hnone : table.find? (·.1 == x) = none := by
    refine List.find?_eq_none.mpr fun entry hentry heq => ?_
    rw [Double.isFinite_of_beq heq (htable entry hentry)] at hx
    cases hx
  rw [tableValue, hnone]

/-- Functions with the values that a comparison of `[1, 0]` with `[0, 1]` needs for a uniform
prior, and crude values elsewhere. -/
def Transcendental.tabulated : Transcendental Float where
  exp := tableValue [(-0.4054651081081624, 0.666666666666668)] fun x => if x.isNaN then x else 0.5
  ln := tableValue [(6.283185307179586, 1.8378770664093453), (7.5, 2.0149030205422647),
    (8.5, 2.1400661634962708), (9.5, 2.2512917986064953), (10.5, 2.3513752571634776),
    (263.3831869810513, 5.573609956524194), (79.11972578926427, 4.370962221550921),
    (38.320275818250536, 3.645979150839035), (23.173457164129218, 3.1430075359512117)]
    fun x => if x.isFinite then 0.0 else x
  sin _ := 0.5
  expLessOne := tableValue [(-0.9162907318741539, -0.5999999999999995)]
    fun x => if x.isNaN then x else 0.0
  lnOnePlus := tableValue [(0.666666666666668, 0.5108256237659915)]
    fun x => if x.isNaN then x else 0.5

/-- A table with a default for numbers keeps NaN. -/
theorem tableValue_nan {table : List (Float × Float)} {value x : Float}
    (htable : ∀ entry ∈ table, entry.1.isFinite = true) (hx : x.isNaN = true) :
    tableValue table (fun x => if x.isNaN then x else value) x = x := by
  rw [tableValue_of_not_finite htable (Double.isFinite_of_isNaN hx), if_pos hx]

theorem tableValue_of_number {P : Float → Prop} {table : List (Float × Float)} {value x : Float}
    (htable : ∀ entry ∈ table, P entry.2) (hvalue : P value) (hx : x.isNaN = false) :
    P (tableValue table (fun x => if x.isNaN then x else value) x) :=
  tableValue_of_forall htable (by rwa [if_neg (by rw [hx]; exact nofun)])

theorem Transcendental.tabulated_sound : Transcendental.tabulated.Sound where
  ln_bounds hfinite _ :=
    tableValue_of_forall (P := fun y => -1024.0 ≤ y ∧ y ≤ 1024.0) (by decide)
      (by rw [if_pos hfinite]; decide)
  ln_infinity {x} h := by
    have hfinite : x.isFinite = false := by
      rw [Double.isFinite_eq, Double.beq_infinity_iff.mp h]
      rfl
    have hvalue : tabulated.ln x = x := by
      refine (tableValue_of_not_finite (by decide) hfinite).trans ?_
      rw [if_neg (by rw [hfinite]; exact nofun)]
    rwa [hvalue]
  sin_bounds _ _ := by
    show (0.0 : Float) < 0.5 ∧ (0.5 : Float) ≤ 1.0
    decide
  exp_bounds h :=
    tableValue_of_number (P := fun y => 0.0 ≤ y ∧ y ≤ 1.0) (by decide) (by decide)
      (Double.isNaN_of_le h).1
  exp_nan h := (congrArg Float.isNaN (tableValue_nan (by decide) h)).trans h
  lnOnePlus_bounds hzero _ :=
    tableValue_of_number (P := fun y => 0.0 ≤ y ∧ y ≤ 1.0) (by decide) (by decide)
      (Double.isNaN_of_le hzero).2
  lnOnePlus_nan h := (congrArg Float.isNaN (tableValue_nan (by decide) h)).trans h
  expLessOne_nan x := by
    rcases hx : x.isNaN with _ | _
    · exact tableValue_of_number (P := fun y => y.isNaN = false) (by decide) (by decide) hx
    · exact (congrArg Float.isNaN (tableValue_nan (by decide) hx)).trans hx

end Aleatory
