import Mathlib.Data.List.TakeWhile

/-!
# What stands in front

The longest-match rules of the scanner and of the parser are conditions on the next character
or token. A run of members of a class ends where the next one is not in the class.
-/

namespace JsonTemplate

variable {α : Type}

/-- Nothing with a property stands at the front of a list. -/
def NotBefore (p : α → Prop) (rest : List α) : Prop := ∀ a ∈ rest.head?, ¬p a

/-- At the front of the empty list there is nothing at all. -/
theorem notBefore_nil (p : α → Prop) : NotBefore p [] := fun _ h => nomatch h

/-- Nothing with a property stands at the front of a list whose first element has it not. -/
theorem notBefore_cons {p : α → Prop} {a : α} {rest : List α} :
    NotBefore p (a :: rest) ↔ ¬p a := by
  simp [NotBefore]

/-- What implies a property that nothing at the front has is missing there as well. -/
theorem NotBefore.mono {p q : α → Prop} {rest : List α} (h : NotBefore p rest)
    (hqp : ∀ a, q a → p a) : NotBefore q rest :=
  fun a ha hq => h a ha (hqp a hq)

/-- What stands in front of a list that is not empty stays there in a longer one. -/
theorem NotBefore.append {p : α → Prop} {rest : List α} (h : NotBefore p rest) (hne : rest ≠ [])
    (suffix : List α) : NotBefore p (rest ++ suffix) := by
  obtain ⟨a, rest, rfl⟩ := List.exists_cons_of_ne_nil hne
  exact h

/-- A list without the property may be put in front. -/
theorem NotBefore.append_left {p : α → Prop} {front rest : List α} (hfront : ∀ a ∈ front, ¬p a)
    (hrest : NotBefore p rest) : NotBefore p (front ++ rest) := by
  cases front with
  | nil => exact hrest
  | cons a front => exact notBefore_cons.mpr (hfront a List.mem_cons_self)

/-- The members of a class up to a list that does not start with one are all taken. -/
theorem takeWhile_append_of_notBefore {p : α → Bool} {front rest : List α}
    (hfront : ∀ a ∈ front, p a) (hrest : NotBefore (p ·) rest) :
    (front ++ rest).takeWhile p = front := by
  have hstop : rest.takeWhile p = [] := by
    cases rest with
    | nil => rfl
    | cons a rest => exact List.takeWhile_cons_of_neg (hrest a rfl)
  rw [List.takeWhile_append_of_pos hfront, hstop, List.append_nil]

/-- Dropping the members of a class leaves a list that does not start with one. -/
theorem dropWhile_append_of_notBefore {p : α → Bool} {front rest : List α}
    (hfront : ∀ a ∈ front, p a) (hrest : NotBefore (p ·) rest) :
    (front ++ rest).dropWhile p = rest := by
  rw [List.dropWhile_append_of_pos hfront]
  cases rest with
  | nil => rfl
  | cons a rest => exact List.dropWhile_cons_of_neg (hrest a rfl)

/-- Behind what has been dropped nothing more would be dropped. -/
theorem notBefore_dropWhile (p : α → Bool) (list : List α) :
    NotBefore (p ·) (list.dropWhile p) := by
  intro a ha
  have := List.head?_dropWhile_not p list
  rw [Option.mem_def.mp ha] at this
  simpa using this

/-- All that is taken has the property. -/
theorem all_takeWhile (p : α → Bool) (list : List α) : ∀ a ∈ list.takeWhile p, p a :=
  fun _ ha => List.mem_takeWhile_imp ha

end JsonTemplate
