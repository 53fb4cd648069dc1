import Mathlib.Data.List.Basic

/-!
# Loops that ask again

A loop that asks until an answer is an outcome goes by the first such answer, and the
answers that are none can be left out.
-/

namespace Retries

universe u
variable {α : Type u}

/-- The second list is the first without some of the answers that are no outcome. -/
inductive Thinned (again : α → Prop) : List α → List α → Prop where
  | nil : Thinned again [] []
  | keep (answer : α) {answers others : List α} (rest : Thinned again answers others) :
      Thinned again (answer :: answers) (answer :: others)
  | leave {answer : α} {answers others : List α} (asks : again answer)
      (rest : Thinned again answers others) : Thinned again (answer :: answers) others

/-- The first outcome stays the same. -/
theorem Thinned.find? {outcome : α → Bool} {answers others : List α}
    (thinned : Thinned (fun answer => outcome answer = false) answers others) :
    answers.find? outcome = others.find? outcome := by
  induction thinned with
  | nil => rfl
  | keep answer _ ih =>
    cases houtcome : outcome answer with
    | true => rw [List.find?_cons_of_pos houtcome, List.find?_cons_of_pos houtcome]
    | false =>
      rw [List.find?_cons_of_neg (by simp [houtcome]), List.find?_cons_of_neg (by simp [houtcome]), ih]
  | leave asks _ ih => rw [List.find?_cons_of_neg (by simp [asks]), ih]

end Retries
