import Mathlib.Data.List.Count

/-!
# Replacing the first occurrence

A pattern in a list is replaced where it occurs first. For a pattern of one letter
that the replacement does not contain, this takes one occurrence of the letter away,
and with at most one to begin with it replaces the letter wherever it stands.

## Main definitions

* `Substitution.first` — the list after the replacement
* `Substitution.each` — a table of letters and replacements, one after the other

## Main results

* `first_append`, `first_prefix` — where the pattern is looked for and found
* `each_eq_flatMap` — replacing letters that occur once
* `forall_mem_each` — when no letter is left
-/

namespace Substitution

variable {α : Type*} [DecidableEq α]

/-- Replace the first occurrence of a pattern, if there is one. -/
def first (pattern replacement : List α) : List α → List α
  | [] => if pattern = [] then replacement else []
  | c :: s =>
    if pattern.isPrefixOf (c :: s) then replacement ++ (c :: s).drop pattern.length
    else c :: first pattern replacement s

variable {p x y : α} {ps pattern replacement r s t : List α}

theorem first_nil : first (p :: ps) r [] = [] := if_neg (List.cons_ne_nil _ _)

/-- A pattern at the front is the first occurrence. -/
theorem first_prefix : first (p :: ps) r (p :: ps ++ t) = r ++ t := by
  have found : (p :: ps).isPrefixOf (p :: (ps ++ t)) :=
    List.isPrefixOf_iff_prefix.mpr (List.prefix_append (p :: ps) t)
  rw [List.cons_append, first, if_pos found, ← List.cons_append, List.drop_left]

/-- The pattern does not occur before its own first letter does. -/
theorem first_append (absent : p ∉ s) : first (p :: ps) r (s ++ t) = s ++ first (p :: ps) r t := by
  induction s with
  | nil => rfl
  | cons c s ih =>
      obtain ⟨other, later⟩ := not_or.mp (mt List.mem_cons.mpr absent)
      have differs : ¬ (p :: ps).isPrefixOf (c :: (s ++ t)) := by
        rw [List.isPrefixOf_iff_prefix]
        intro occurs
        exact other (List.cons_prefix_cons.mp occurs).1
      rw [List.cons_append, first, if_neg differs, ih later, List.cons_append]

theorem first_of_not_mem (absent : p ∉ s) : first (p :: ps) r s = s := by
  have whole : first (p :: ps) r (s ++ []) = s ++ first (p :: ps) r [] := first_append absent
  rwa [List.append_nil, first_nil, List.append_nil] at whole

/-- The first occurrence of a letter is replaced. -/
theorem first_letter (absent : x ∉ s) : first [x] r (s ++ x :: t) = s ++ (r ++ t) := by
  rw [first_append absent]
  exact congrArg (s ++ ·) first_prefix

/-- A pattern at the end is replaced. -/
theorem first_suffix (absent : p ∉ s) : first (p :: ps) r (s ++ p :: ps) = s ++ r := by
  have found : first (p :: ps) r (p :: ps ++ []) = r ++ [] := first_prefix
  rw [List.append_nil, List.append_nil] at found
  rw [first_append absent, found]

/-! ### Letters that are left -/

theorem count_first_of_ne (other : y ≠ x) (absent : y ∉ r) :
    (first [x] r s).count y = s.count y := by
  by_cases present : x ∈ s
  · obtain ⟨before, after, rfl, none⟩ := List.eq_append_cons_of_mem present
    rw [first_letter none, List.count_append, List.count_append, List.count_append,
      List.count_eq_zero_of_not_mem absent, List.count_cons_of_ne (Ne.symm other), Nat.zero_add]
  · rw [first_of_not_mem present]

theorem count_first_self (absent : x ∉ r) : (first [x] r s).count x = s.count x - 1 := by
  by_cases present : x ∈ s
  · obtain ⟨before, after, rfl, none⟩ := List.eq_append_cons_of_mem present
    rw [first_letter none, List.count_append, List.count_append, List.count_append,
      List.count_eq_zero_of_not_mem absent, List.count_eq_zero_of_not_mem none,
      List.count_cons_self, Nat.zero_add, Nat.zero_add, Nat.zero_add, Nat.add_sub_cancel]
  · rw [first_of_not_mem present, List.count_eq_zero_of_not_mem present]

theorem first_letter_ne_nil (some : r ≠ []) (given : s ≠ []) : first [x] r s ≠ [] := by
  by_cases present : x ∈ s
  · obtain ⟨before, after, rfl, none⟩ := List.eq_append_cons_of_mem present
    rw [first_letter none]
    exact List.append_ne_nil_of_right_ne_nil _ (List.append_ne_nil_of_left_ne_nil some _)
  · rwa [first_of_not_mem present]

/-! ### Single occurrences -/

/-- A letter that stands for other ones. -/
def expand (x : α) (r : List α) (c : α) : List α := if c = x then r else [c]

theorem flatMap_expand_of_not_mem (absent : x ∉ s) : s.flatMap (expand x r) = s := by
  induction s with
  | nil => rfl
  | cons c s ih =>
      obtain ⟨other, later⟩ := not_or.mp (mt List.mem_cons.mpr absent)
      rw [List.flatMap_cons, expand, if_neg (Ne.symm other), ih later, List.singleton_append]

/-- Replacing the first occurrence replaces all of them if there is only one. -/
theorem first_eq_flatMap (once : s.count x ≤ 1) : first [x] r s = s.flatMap (expand x r) := by
  by_cases present : x ∈ s
  · obtain ⟨before, after, rfl, none⟩ := List.eq_append_cons_of_mem present
    rw [List.count_append, List.count_cons_self] at once
    have rest : x ∉ after := List.count_eq_zero.mp (by omega)
    rw [first_letter none, List.flatMap_append, List.flatMap_cons, flatMap_expand_of_not_mem none,
      flatMap_expand_of_not_mem rest, expand, if_pos rfl]
  · rw [first_of_not_mem present, flatMap_expand_of_not_mem present]

/-! ### Several letters -/

/-- Replace the first occurrence of each letter of a table, in its order. -/
def each (table : List (α × List α)) (s : List α) : List α :=
  table.foldl (fun s entry => first [entry.1] entry.2 s) s

/-- What a letter stands for in a table. -/
def lookup : List (α × List α) → α → List α
  | [], c => [c]
  | entry :: table, c => if c = entry.1 then entry.2 else lookup table c

/-- The letters are distinct and are not brought in by a replacement. -/
structure Proper (table : List (α × List α)) : Prop where
  distinct : (table.map Prod.fst).Nodup
  apart : ∀ entry ∈ table, ∀ other ∈ table, entry.1 ∉ other.2

section Each

variable {entry : α × List α} {table : List (α × List α)} {c : α}

omit [DecidableEq α] in
theorem Proper.tail (proper : Proper (entry :: table)) : Proper table where
  distinct := (List.nodup_cons.mp proper.distinct).2
  apart one member other among :=
    proper.apart one (List.mem_cons_of_mem _ member) other (List.mem_cons_of_mem _ among)

omit [DecidableEq α] in
theorem Proper.ne (proper : Proper (entry :: table)) {other : α × List α} (member : other ∈ table) :
    other.1 ≠ entry.1 := fun same =>
  (List.nodup_cons.mp proper.distinct).1 (same ▸ List.mem_map_of_mem member)

/-- A letter that no entry is about is left as often as it was. -/
theorem count_each_of_not_mem (letter : ∀ entry ∈ table, c ≠ entry.1)
    (absent : ∀ entry ∈ table, c ∉ entry.2) : (each table s).count c = s.count c := by
  induction table generalizing s with
  | nil => rfl
  | cons entry table ih =>
      have later := ih (s := first [entry.1] entry.2 s)
        (fun other member => letter other (List.mem_cons_of_mem _ member))
        (fun other member => absent other (List.mem_cons_of_mem _ member))
      exact later.trans
        (count_first_of_ne (letter entry List.mem_cons_self) (absent entry List.mem_cons_self))

/-- Each letter of the table is left one time less. -/
theorem count_each_letter (proper : Proper table) (member : entry ∈ table) :
    (each table s).count entry.1 = s.count entry.1 - 1 := by
  induction table generalizing s with
  | nil => exact absurd member List.not_mem_nil
  | cons one table ih =>
      have absent : entry.1 ∉ one.2 := proper.apart entry member one List.mem_cons_self
      rcases List.mem_cons.mp member with rfl | later
      · -- its own entry takes one away, and the later ones are about other letters
        refine (count_each_of_not_mem (fun other among => (proper.ne among).symm)
          fun other among => ?_).trans (count_first_self absent)
        exact proper.apart entry List.mem_cons_self other (List.mem_cons_of_mem _ among)
      · exact (ih proper.tail later).trans
          (congrArg (· - 1) (count_first_of_ne (proper.ne later) absent))

theorem lookup_of_not_mem (absent : ∀ entry ∈ table, c ≠ entry.1) : lookup table c = [c] := by
  induction table with
  | nil => rfl
  | cons entry table ih =>
      rw [lookup, if_neg (absent entry List.mem_cons_self),
        ih fun other member => absent other (List.mem_cons_of_mem _ member)]

theorem exists_lookup_eq (letter : ∃ entry ∈ table, c = entry.1) :
    ∃ entry ∈ table, lookup table c = entry.2 := by
  induction table with
  | nil =>
      obtain ⟨entry, member, -⟩ := letter
      exact absurd member List.not_mem_nil
  | cons first table ih =>
      by_cases same : c = first.1
      · exact ⟨first, List.mem_cons_self, if_pos same⟩
      · obtain ⟨entry, member, equal⟩ := letter
        have later := (List.mem_cons.mp member).resolve_left fun own => same (own ▸ equal)
        obtain ⟨other, among, found⟩ := ih ⟨entry, later, equal⟩
        exact ⟨other, List.mem_cons_of_mem _ among, (if_neg same).trans found⟩

/-- A list without letters stands for itself. -/
theorem flatMap_lookup_of_not_mem (absent : ∀ entry ∈ table, entry.1 ∉ s) :
    s.flatMap (lookup table) = s := by
  induction s with
  | nil => rfl
  | cons c s ih =>
      have head : lookup table c = [c] := lookup_of_not_mem fun entry member same =>
        absent entry member (same ▸ List.mem_cons_self)
      rw [List.flatMap_cons, head, List.singleton_append,
        ih fun entry member among => absent entry member (List.mem_cons_of_mem _ among)]

/-- Letters that occur at most once are replaced wherever they stand. -/
theorem each_eq_flatMap (proper : Proper table) (once : ∀ entry ∈ table, s.count entry.1 ≤ 1) :
    each table s = s.flatMap (lookup table) := by
  induction table generalizing s with
  | nil => exact (flatMap_lookup_of_not_mem fun entry member => absurd member List.not_mem_nil).symm
  | cons entry table ih =>
      have own := first_eq_flatMap (r := entry.2) (once entry List.mem_cons_self)
      have later : ∀ other ∈ table, (first [entry.1] entry.2 s).count other.1 ≤ 1 := by
        intro other member
        rw [count_first_of_ne (proper.ne member)
          (proper.apart other (List.mem_cons_of_mem _ member) entry List.mem_cons_self)]
        exact once other (List.mem_cons_of_mem _ member)
      have both : ∀ c, (expand entry.1 entry.2 c).flatMap (lookup table) =
          lookup (entry :: table) c := by
        intro c
        by_cases same : c = entry.1
        · -- what the letter stands for contains no other letters
          rw [expand, if_pos same, lookup, if_pos same]
          exact flatMap_lookup_of_not_mem fun other member =>
            proper.apart other (List.mem_cons_of_mem _ member) entry List.mem_cons_self
        · rw [expand, if_neg same, lookup, if_neg same, List.flatMap_singleton]
      calc each (entry :: table) s
          = (first [entry.1] entry.2 s).flatMap (lookup table) := ih proper.tail later
        _ = s.flatMap fun c => (expand entry.1 entry.2 c).flatMap (lookup table) := by
          rw [own, List.flatMap_assoc]
        _ = s.flatMap (lookup (entry :: table)) := congrArg (s.flatMap ·) (funext both)

theorem each_ne_nil (some : ∀ entry ∈ table, entry.2 ≠ []) (given : s ≠ []) :
    each table s ≠ [] := by
  induction table generalizing s with
  | nil => exact given
  | cons entry table ih =>
      exact ih (fun other member => some other (List.mem_cons_of_mem _ member))
        (first_letter_ne_nil (some entry List.mem_cons_self) given)

/-- The replacements leave only elements of a kind, to which no letter belongs, exactly
when there was nothing else and no letter occurred twice. -/
theorem forall_mem_each {P : α → Prop} (proper : Proper table)
    (letters : ∀ entry ∈ table, ¬ P entry.1) (kind : ∀ entry ∈ table, ∀ c ∈ entry.2, P c) :
    (∀ c ∈ each table s, P c) ↔
      (∀ c ∈ s, P c ∨ ∃ entry ∈ table, c = entry.1) ∧ ∀ entry ∈ table, s.count entry.1 ≤ 1 := by
  constructor
  · intro left
    constructor
    · intro c member
      by_contra neither
      obtain ⟨other, letter⟩ := not_or.mp neither
      have kept : (each table s).count c = s.count c :=
        count_each_of_not_mem (fun entry among same => letter ⟨entry, among, same⟩)
          fun entry among inside => other (kind entry among c inside)
      have present : c ∈ each table s := by
        rw [← List.count_pos_iff, kept]
        exact List.count_pos_iff.mpr member
      exact other (left c present)
    · intro entry member
      have gone : entry.1 ∉ each table s := fun present => letters entry member (left _ present)
      have none := count_each_letter (s := s) proper member
      rw [List.count_eq_zero_of_not_mem gone] at none
      exact Nat.le_of_sub_eq_zero none.symm
  · rintro ⟨known, once⟩ c member
    rw [each_eq_flatMap proper once] at member
    obtain ⟨d, among, inside⟩ := List.mem_flatMap.mp member
    by_cases letter : ∃ entry ∈ table, d = entry.1
    · obtain ⟨entry, listed, stands⟩ := exists_lookup_eq letter
      exact kind entry listed c (stands ▸ inside)
    · rw [lookup_of_not_mem fun entry listed same => letter ⟨entry, listed, same⟩] at inside
      rw [List.mem_singleton.mp inside]
      exact (known d among).resolve_right letter

end Each

end Substitution
