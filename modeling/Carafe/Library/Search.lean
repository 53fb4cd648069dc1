import Mathlib.Data.List.DropRight
import Mathlib.Data.List.Infix

/-!
# Searching a finite sequence

Positions of a single element, positions of a pattern, and trimming. A position
is always counted from the front of the whole sequence, also when the search
starts further in.
-/

namespace Search

universe u
variable {α : Type u}

section Find
variable [DecidableEq α]

/-- The first position at or after `start` that holds `x`. -/
def find (x : α) (start : Nat) (xs : List α) : Option Nat :=
  ((xs.drop start).idxOf? x).map (start + ·)

/-- The first position at or after `start` where `pattern` occurs. -/
def findPattern (pattern : List α) (start : Nat) (xs : List α) : Option Nat :=
  ((xs.drop start).tails.findIdx? (pattern.isPrefixOf ·)).map (start + ·)

theorem idxOf?_append_cons {x : α} {piece rest : List α} (fresh : x ∉ piece) :
    (piece ++ x :: rest).idxOf? x = some piece.length := by
  induction piece with
  | nil => simp [List.idxOf?_cons]
  | cons y piece ih =>
    have hne : ¬ y = x := fun heq => fresh (heq ▸ List.mem_cons_self)
    have hrest : x ∉ piece := fun hx => fresh (List.mem_cons_of_mem y hx)
    simp [List.idxOf?_cons, hne, ih hrest]

theorem idxOf?_some {x : α} {xs : List α} {n : Nat} (h : xs.idxOf? x = some n) :
    ∃ piece rest, xs = piece ++ x :: rest ∧ x ∉ piece ∧ piece.length = n := by
  induction xs generalizing n with
  | nil => simp at h
  | cons y xs ih =>
    by_cases heq : y = x
    · subst heq
      refine ⟨[], xs, rfl, by simp, ?_⟩
      simpa [List.idxOf?_cons] using h
    · simp only [List.idxOf?_cons, beq_iff_eq, heq, if_false, Option.map_eq_some_iff] at h
      obtain ⟨m, hm, rfl⟩ := h
      obtain ⟨piece, rest, rfl, hp, rfl⟩ := ih hm
      refine ⟨y :: piece, rest, rfl, ?_, rfl⟩
      intro hx
      rcases List.mem_cons.mp hx with h | h
      · exact heq h.symm
      · exact hp h

theorem find_zero (x : α) (xs : List α) : find x 0 xs = xs.idxOf? x := by
  simp [find]

theorem find_eq_none_iff {x : α} {start : Nat} {xs : List α} :
    find x start xs = none ↔ x ∉ xs.drop start := by
  simp [find]

theorem find_some {x : α} {start n : Nat} {xs : List α} (h : find x start xs = some n) :
    ∃ piece rest, xs.drop start = piece ++ x :: rest ∧ x ∉ piece ∧ n = start + piece.length := by
  obtain ⟨m, hm, rfl⟩ := Option.map_eq_some_iff.mp h
  obtain ⟨piece, rest, heq, hp, rfl⟩ := idxOf?_some hm
  exact ⟨piece, rest, heq, hp, rfl⟩

/-- The search behind a known front skips it. -/
theorem find_append {x : α} {piece : List α} (front rest : List α) (fresh : x ∉ piece) :
    find x front.length (front ++ (piece ++ x :: rest)) = some (front.length + piece.length) := by
  simp [find, idxOf?_append_cons fresh]

theorem find_append_none {x : α} {tail : List α} (front : List α) (fresh : x ∉ tail) :
    find x front.length (front ++ tail) = none := by
  simp [find_eq_none_iff, fresh]

theorem isPrefixOf_getElem_tails {pattern xs : List α} {i : Nat} (h : i < xs.tails.length) :
    pattern.isPrefixOf xs.tails[i] = true ↔ pattern <+: xs.drop i := by
  rw [List.getElem_tails, List.isPrefixOf_iff_prefix]

theorem findPattern_some {pattern : List α} {start n : Nat} {xs : List α}
    (h : findPattern pattern start xs = some n) :
    start ≤ n ∧ pattern <+: xs.drop n ∧
      ∀ i, start ≤ i → i < n → ¬ pattern <+: xs.drop i := by
  obtain ⟨m, hm, rfl⟩ := Option.map_eq_some_iff.mp h
  obtain ⟨hlt, hat, before⟩ := List.findIdx?_eq_some_iff_getElem.mp hm
  rw [isPrefixOf_getElem_tails, List.drop_drop] at hat
  refine ⟨Nat.le_add_right _ _, hat, ?_⟩
  intro i hsi hin hpre
  obtain ⟨j, rfl⟩ := Nat.exists_eq_add_of_le hsi
  have hjm : j < m := by omega
  apply before j hjm
  rwa [isPrefixOf_getElem_tails, List.drop_drop]

theorem findPattern_none {pattern : List α} {start : Nat} {xs : List α}
    (h : findPattern pattern start xs = none) (i : Nat) (hi : start ≤ i) :
    ¬ pattern <+: xs.drop i := by
  intro hpre
  obtain ⟨j, rfl⟩ := Nat.exists_eq_add_of_le hi
  rw [findPattern, Option.map_eq_none_iff, List.findIdx?_eq_none_iff] at h
  have hmem : (xs.drop start).drop j ∈ (xs.drop start).tails := by
    rw [List.mem_tails]
    exact List.drop_suffix j _
  have hno := h _ hmem
  rw [List.drop_drop, ← Bool.not_eq_true, List.isPrefixOf_iff_prefix] at hno
  exact hno hpre

/-- The position found is determined by the three facts `findPattern_some` gives. -/
theorem findPattern_eq_some {pattern : List α} {start n : Nat} {xs : List α}
    (hs : start ≤ n) (hat : pattern <+: xs.drop n)
    (before : ∀ i, start ≤ i → i < n → ¬ pattern <+: xs.drop i) :
    findPattern pattern start xs = some n := by
  cases h : findPattern pattern start xs with
  | none => exact False.elim (findPattern_none h n hs hat)
  | some m =>
    obtain ⟨hsm, hm, hmb⟩ := findPattern_some h
    rcases Nat.lt_trichotomy m n with hlt | heq | hgt
    · exact False.elim (before m hsm hlt hm)
    · rw [heq]
    · exact False.elim (hmb n hs hgt hat)

theorem findPattern_eq_none {pattern : List α} {start : Nat} {xs : List α}
    (absent : ∀ i, start ≤ i → ¬ pattern <+: xs.drop i) :
    findPattern pattern start xs = none := by
  cases h : findPattern pattern start xs with
  | none => rfl
  | some m =>
    obtain ⟨hsm, hm, _⟩ := findPattern_some h
    exact False.elim (absent m hsm hm)

end Find

theorem infix_iff_drop {pattern xs : List α} :
    pattern <:+: xs ↔ ∃ i, pattern <+: xs.drop i := by
  constructor
  · rintro ⟨front, tail, rfl⟩
    exact ⟨front.length, tail, by simp⟩
  · rintro ⟨i, tail, htail⟩
    refine ⟨xs.take i, tail, ?_⟩
    rw [List.append_assoc, htail, List.take_append_drop]

/-- A line without the two-element terminator is still without it one element
before the terminator that ends it, since the two elements differ. -/
theorem terminator_first {a b : α} (differ : a ≠ b) {line rest : List α}
    (clear : ¬ [a, b] <:+: line) (i : Nat) (hi : i < line.length) :
    ¬ [a, b] <+: (line ++ [a, b] ++ rest).drop i := by
  rintro ⟨tail, htail⟩
  rw [List.append_assoc, List.drop_append_of_le_length (Nat.le_of_lt hi)] at htail
  cases hd : line.drop i with
  | nil => simp at hd; omega
  | cons x xs =>
    rw [hd] at htail
    cases xs with
    | nil =>
      simp only [List.cons_append, List.nil_append, List.cons.injEq] at htail
      exact differ htail.2.1.symm
    | cons y ys =>
      simp only [List.cons_append, List.nil_append, List.cons.injEq] at htail
      apply clear
      rw [infix_iff_drop]
      exact ⟨i, ys, by rw [hd, ← htail.1, ← htail.2.1]; rfl⟩

/-- The first half of a terminator does not complete one. -/
theorem clear_concat {a b : α} (differ : a ≠ b) {line : List α} (clear : ¬ [a, b] <:+: line) :
    ¬ [a, b] <:+: line ++ [a] := by
  rintro ⟨front, back, h⟩
  rcases List.eq_nil_or_concat back with rfl | ⟨back, x, rfl⟩
  · have hlast := congrArg List.getLast? h
    simp at hlast
    exact differ hlast.symm
  · rw [List.concat_eq_append, ← List.append_assoc] at h
    exact clear ⟨front, back, (List.append_inj' h rfl).1⟩

section Terminator
variable [DecidableEq α]

theorem findPattern_line {a b : α} (differ : a ≠ b) {line : List α}
    (clear : ¬ [a, b] <:+: line) (rest : List α) :
    findPattern [a, b] 0 (line ++ [a, b] ++ rest) = some line.length := by
  refine findPattern_eq_some (Nat.zero_le _) ⟨rest, by simp⟩ ?_
  intro i _ hi
  exact terminator_first differ clear i hi

theorem findPattern_split {a b : α} {n : Nat} {xs : List α}
    (h : findPattern [a, b] 0 xs = some n) :
    ∃ line rest, xs = line ++ [a, b] ++ rest ∧ line.length = n ∧ ¬ [a, b] <:+: line := by
  obtain ⟨_, ⟨rest, hrest⟩, before⟩ := findPattern_some h
  have hlen : n ≤ xs.length := by
    have := congrArg List.length hrest
    simp at this
    omega
  refine ⟨xs.take n, rest, ?_, by simp [hlen], ?_⟩
  · rw [List.append_assoc, hrest, List.take_append_drop]
  · rw [infix_iff_drop]
    rintro ⟨i, tail, htail⟩
    have hin : i < n := by
      have := congrArg List.length htail
      simp at this
      omega
    refine before i (Nat.zero_le _) hin ⟨tail ++ xs.drop n, ?_⟩
    have hle : i ≤ (xs.take n).length := by simp; omega
    rw [← List.append_assoc, htail, ← List.drop_append_of_le_length hle, List.take_append_drop]

theorem findPattern_eq_none_iff {a b : α} {xs : List α} :
    findPattern [a, b] 0 xs = none ↔ ¬ [a, b] <:+: xs := by
  rw [infix_iff_drop]
  constructor
  · rintro h ⟨i, hi⟩
    exact findPattern_none h i (Nat.zero_le _) hi
  · intro h
    exact findPattern_eq_none (fun i _ hi => h ⟨i, hi⟩)

end Terminator

def trim (p : α → Bool) (xs : List α) : List α :=
  (xs.dropWhile p).rdropWhile p

theorem trim_eq_self {p : α → Bool} {xs : List α} (first : ∀ x ∈ xs.head?, p x = false)
    (last : ∀ x ∈ xs.getLast?, p x = false) : trim p xs = xs := by
  cases xs with
  | nil => simp [trim]
  | cons x xs =>
    have hx : p x = false := first x (by simp)
    rw [trim, List.dropWhile_cons_of_neg (by simp [hx]), List.rdropWhile_eq_self_iff]
    intro hne
    simp [last _ (List.getLast?_eq_some_getLast hne)]

theorem rdropWhile_append_all {p : α → Bool} (xs : List α) {tail : List α}
    (h : ∀ x ∈ tail, p x = true) : (xs ++ tail).rdropWhile p = xs.rdropWhile p := by
  induction tail using List.reverseRecOn with
  | nil => simp
  | append_singleton tail x ih =>
    rw [← List.append_assoc, List.rdropWhile_concat_pos p _ x (h x (by simp))]
    exact ih (fun y hy => h y (by simp [hy]))

theorem dropWhile_append_all {p : α → Bool} {front : List α} (xs : List α)
    (h : ∀ x ∈ front, p x = true) : (front ++ xs).dropWhile p = xs.dropWhile p := by
  induction front with
  | nil => rfl
  | cons x front ih =>
    rw [List.cons_append, List.dropWhile_cons_of_pos (h x (by simp))]
    exact ih (fun y hy => h y (by simp [hy]))

/-- Padding on either side of a value that has none disappears. -/
theorem trim_padded {p : α → Bool} {before xs after : List α}
    (hb : ∀ x ∈ before, p x = true) (ha : ∀ x ∈ after, p x = true)
    (first : ∀ x ∈ xs.head?, p x = false) (last : ∀ x ∈ xs.getLast?, p x = false) :
    trim p (before ++ xs ++ after) = xs := by
  rw [trim, List.append_assoc, dropWhile_append_all _ hb]
  cases xs with
  | nil =>
    have hnil : after.dropWhile p = [] := List.dropWhile_eq_nil_iff.mpr ha
    simp [hnil]
  | cons x xs =>
    have hx : p x = false := first x (by simp)
    rw [List.cons_append, List.dropWhile_cons_of_neg (by simp [hx]), ← List.cons_append,
      rdropWhile_append_all _ ha]
    have h := trim_eq_self first last
    rwa [trim, List.dropWhile_cons_of_neg (by simp [hx])] at h

theorem trim_first {p : α → Bool} {xs : List α} {x : α} (h : x ∈ (trim p xs).head?) :
    p x = false := by
  have hpre : trim p xs <+: xs.dropWhile p := List.rdropWhile_prefix p _
  cases hd : trim p xs with
  | nil => simp [hd] at h
  | cons y ys =>
    obtain ⟨t, ht⟩ := hpre
    rw [hd] at h ht
    have hy : y = x := by simpa using h
    subst hy
    have hhead : (xs.dropWhile p).head? = some y := by rw [← ht]; rfl
    have hdrop := List.head?_dropWhile_not p xs
    rw [hhead] at hdrop
    simpa using hdrop

theorem trim_last {p : α → Bool} {xs : List α} {x : α} (h : x ∈ (trim p xs).getLast?) :
    p x = false := by
  cases hd : trim p xs with
  | nil => simp [hd] at h
  | cons y ys =>
    have hne : trim p xs ≠ [] := by simp [hd]
    have hlast := List.rdropWhile_last_not p (xs.dropWhile p) hne
    have hx : (trim p xs).getLast hne = x := by
      rw [List.getLast?_eq_some_getLast hne] at h
      simpa using h
    rw [← hx]
    simpa [trim] using hlast

/-- Every sequence is its trimmed middle between two runs of padding. -/
theorem trim_decompose (p : α → Bool) (xs : List α) :
    ∃ before after, xs = before ++ trim p xs ++ after ∧
      (∀ x ∈ before, p x = true) ∧ ∀ x ∈ after, p x = true := by
  refine ⟨xs.takeWhile p, (xs.dropWhile p).rtakeWhile p, ?_, ?_, ?_⟩
  · rw [trim, List.append_assoc, List.rdropWhile_append_rtakeWhile,
      List.takeWhile_append_dropWhile]
  · intro x hx
    exact List.mem_takeWhile_imp hx
  · intro x hx
    exact List.mem_rtakeWhile_imp hx

end Search
