import Mathlib.Data.List.Infix
import Mathlib.Tactic.Common

/-!
# First occurrences

This file contains the search for the first occurrence of a list in another. What is before
an occurrence, the pattern, and what is behind it make up the list that is searched, and the
part before the first occurrence contains none.
-/

namespace Xpir

universe u

variable {α : Type u} [DecidableEq α] {pattern : List α}

/-- The position of the first occurrence of a pattern. -/
def find (pattern : List α) : List α → Option ℕ
  | [] => if pattern = [] then some 0 else none
  | c :: rest =>
      if pattern <+: c :: rest then some 0 else (find pattern rest).map (· + 1)

theorem find_eq_none_iff (text : List α) : find pattern text = none ↔ ¬ pattern <:+: text := by
  induction text with
  | nil => simp [find]
  | cons c rest ih =>
      rw [find, List.infix_cons_iff]
      split
      next here => simp [here]
      next elsewhere => simp [elsewhere, ih]

/-- A text is made up of what is before an occurrence, the pattern, and the rest. -/
theorem find_split {text : List α} {pos : ℕ} (found : find pattern text = some pos) :
    text.take pos ++ (pattern ++ text.drop (pos + pattern.length)) = text := by
  induction text generalizing pos with
  | nil =>
      rw [find, Option.ite_none_right_eq_some] at found
      simp [found.1]
  | cons c rest ih =>
      rw [find] at found
      split at found
      next here =>
        rw [← Option.some.inj found, List.take_zero, List.nil_append, Nat.zero_add]
        exact List.prefix_append_drop here |>.symm
      next =>
        rcases Option.map_eq_some_iff.mp found with ⟨later, found_later, rfl⟩
        rw [List.take_succ_cons, List.cons_append, Nat.add_right_comm, List.drop_succ_cons,
          ih found_later]

/-- There is no occurrence before the first one. -/
theorem find_first (nonempty : pattern ≠ []) {text : List α} {pos : ℕ}
    (found : find pattern text = some pos) : ¬ pattern <:+: text.take pos := by
  induction text generalizing pos with
  | nil => simpa using nonempty
  | cons c rest ih =>
      rw [find] at found
      split at found
      next =>
        rw [← Option.some.inj found, List.take_zero, List.infix_nil]
        exact nonempty
      next elsewhere =>
        rcases Option.map_eq_some_iff.mp found with ⟨later, found_later, rfl⟩
        rw [List.take_succ_cons, List.infix_cons_iff, not_or]
        refine ⟨?_, ih found_later⟩
        intro occurs
        exact elsewhere (occurs.trans (List.take_prefix (later + 1) (c :: rest)))

end Xpir
