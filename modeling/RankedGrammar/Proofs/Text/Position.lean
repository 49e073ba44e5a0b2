import Mathlib.Data.List.Sort
import Mathlib.Order.Monotone.Basic
import RankedGrammar.Proofs.Diagnostic.Semilattice

/-!
Lines and columns. The line of an offset is told by the line feeds before it and the column by the
last of them, which is what the table of line starts comes to; so places follow each other in the
source as their offsets do.
-/
namespace RankedGrammar

/-- Among ascending numbers, those up to a bound are the ones before the first that exceeds it. -/
theorem le_iff_lt_length_takeWhile {xs : List Nat} (h : xs.Pairwise (· < ·)) (n : Nat) {i x : Nat}
    (hx : xs[i]? = some x) : x ≤ n ↔ i < (xs.takeWhile (· ≤ n)).length := by
  induction xs generalizing i with
  | nil => simp at hx
  | cons a xs ih =>
    obtain ⟨hlt, hrest⟩ := List.pairwise_cons.1 h
    by_cases ha : a ≤ n
    · rw [List.takeWhile_cons_of_pos (by simpa using ha), List.length_cons]
      cases i with
      | zero =>
        obtain rfl : a = x := by simpa using hx
        simpa using ha
      | succ i => simpa using ih hrest (by simpa using hx)
    · rw [List.takeWhile_cons_of_neg (by simpa using ha)]
      have hax : a ≤ x := by
        rcases List.mem_cons.1 (List.mem_of_getElem? hx) with rfl | hmem
        · exact Nat.le_refl _
        · exact Nat.le_of_lt (hlt x hmem)
      simp only [List.length_nil, Nat.not_lt_zero, iff_false]
      omega

theorem mem_takeWhile_le {xs : List Nat} (h : xs.Pairwise (· < ·)) {n x : Nat} :
    x ∈ xs.takeWhile (· ≤ n) ↔ x ∈ xs ∧ x ≤ n := by
  have hsame := List.prefix_iff_getElem?.1 (List.takeWhile_prefix (l := xs) (· ≤ n))
  constructor
  · intro hx
    obtain ⟨i, hi, rfl⟩ := List.getElem_of_mem hx
    exact ⟨List.mem_of_getElem? (hsame i hi), (le_iff_lt_length_takeWhile h n (hsame i hi)).2 hi⟩
  · rintro ⟨hx, hle⟩
    obtain ⟨i, hi⟩ := List.getElem?_of_mem hx
    have hlt := (le_iff_lt_length_takeWhile h n hi).1 hle
    obtain rfl := Option.some.inj (hi.symm.trans (hsame i hlt))
    exact List.getElem_mem hlt

theorem mem_lineStartsAfter {bs : List UInt8} {offset start : Nat} :
    start ∈ lineStartsAfter offset bs ↔ ∃ i, bs[i]? = some 10 ∧ start = offset + i + 1 := by
  induction bs generalizing offset with
  | nil => simp [lineStartsAfter]
  | cons b bs ih =>
    have hcons : (∃ i, (b :: bs)[i]? = some 10 ∧ start = offset + i + 1) ↔
        b = 10 ∧ start = offset + 1 ∨ ∃ i, bs[i]? = some 10 ∧ start = offset + 1 + i + 1 := by
      constructor
      · rintro ⟨i, hi, rfl⟩
        cases i with
        | zero => exact .inl ⟨by simpa using hi, rfl⟩
        | succ i => exact .inr ⟨i, by simpa using hi, by omega⟩
      · rintro (⟨rfl, rfl⟩ | ⟨i, hi, rfl⟩)
        · exact ⟨0, rfl, rfl⟩
        · exact ⟨i + 1, by simpa using hi, by omega⟩
    rw [hcons, lineStartsAfter]
    split
    · next hb => simp [hb, ih]
    · next hb => simp [hb, ih]

theorem pairwise_lineStartsAfter (offset : Nat) (bs : List UInt8) :
    (lineStartsAfter offset bs).Pairwise (· < ·) := by
  induction bs generalizing offset with
  | nil => exact .nil
  | cons b bs ih =>
    rw [lineStartsAfter]
    split
    · refine List.pairwise_cons.2 ⟨fun start hstart => ?_, ih (offset + 1)⟩
      obtain ⟨i, -, rfl⟩ := mem_lineStartsAfter.1 hstart
      omega
    · exact ih (offset + 1)

namespace Source

variable (src : Source)

def feedsBelow (n : Nat) : List Nat := (List.range n).filter fun m => src.byteAt? m = some 10

variable {n : Nat}

@[simp] theorem mem_feedsBelow {m : Nat} :
    m ∈ src.feedsBelow n ↔ m < n ∧ src.byteAt? m = some 10 := by
  simp [feedsBelow]

theorem feedsBelow_succ (n : Nat) :
    src.feedsBelow (n + 1) = src.feedsBelow n ++ if src.byteAt? n = some 10 then [n] else [] := by
  rw [feedsBelow, List.range_succ, List.filter_append]
  split <;> simp [feedsBelow, *]

theorem mem_lineStarts {start : Nat} :
    start ∈ src.lineStarts ↔ start = 0 ∨ ∃ m, src.byteAt? m = some 10 ∧ start = m + 1 := by
  simp [src.lineStarts_eq, mem_lineStartsAfter, byteAt?]

theorem pairwise_lineStarts : src.lineStarts.Pairwise (· < ·) := by
  rw [src.lineStarts_eq]
  refine List.pairwise_cons.2 ⟨fun start hstart => ?_, pairwise_lineStartsAfter 0 _⟩
  obtain ⟨i, -, rfl⟩ := mem_lineStartsAfter.1 hstart
  omega

/-- The lines begun up to an offset are the first and those after the line feeds before it. -/
theorem begun_eq (n : Nat) :
    src.lineStarts.takeWhile (· ≤ n) = 0 :: (src.feedsBelow n).map (· + 1) := by
  have hfeeds : (src.feedsBelow n).Pairwise (· < ·) := List.pairwise_lt_range.filter _
  have hbegun : (src.lineStarts.takeWhile (· ≤ n)).Pairwise (· < ·) :=
    src.pairwise_lineStarts.sublist (List.takeWhile_sublist _)
  refine hbegun.eq_of_mem_iff (List.pairwise_cons.2 ⟨?_, ?_⟩) ?_
  · intro start hstart
    obtain ⟨m, -, rfl⟩ := List.mem_map.1 hstart
    exact Nat.succ_pos m
  · exact List.pairwise_map.2 (hfeeds.imp fun h => Nat.succ_lt_succ h)
  · intro start
    simp only [mem_takeWhile_le src.pairwise_lineStarts, mem_lineStarts, List.mem_cons,
      List.mem_map, mem_feedsBelow]
    constructor
    · rintro ⟨rfl | ⟨m, hm, rfl⟩, hle⟩
      · exact .inl rfl
      · exact .inr ⟨m, ⟨hle, hm⟩, rfl⟩
    · rintro (rfl | ⟨m, ⟨hlt, hm⟩, rfl⟩)
      · exact ⟨.inl rfl, Nat.zero_le n⟩
      · exact ⟨.inr ⟨m, hm, rfl⟩, hlt⟩

theorem position_eq (n : Nat) : src.position n =
    ⟨1 + (src.feedsBelow n).length, (src.feedsBelow n).getLast?.elim n fun m => n - (m + 1)⟩ := by
  rw [position, begun_eq]
  rcases List.eq_nil_or_concat (src.feedsBelow n) with hnil | ⟨feeds, m, hfeeds⟩
  · rw [hnil]
    rfl
  · have hlast : (0 :: (src.feedsBelow n).map (· + 1)).getLastD 0 = m + 1 := by
      rw [hfeeds, List.getLastD_cons, List.map_concat, List.concat_eq_append,
        List.getLastD_concat]
    rw [hlast]
    simp [hfeeds, Nat.add_comm]

/-- The lookup of the line finds the last one begun: the entries of the table up to the offset are
those before the line's number, which is not zero, and the column counts from the last of them. -/
theorem position_lookup (n : Nat) :
    1 ≤ (src.position n).line ∧
    (∀ i start, src.lineStarts[i]? = some start → (start ≤ n ↔ i < (src.position n).line)) ∧
    ∃ start, src.lineStarts[(src.position n).line - 1]? = some start ∧ start ≤ n ∧
      (src.position n).column = n - start := by
  have hpartition : ∀ i start, src.lineStarts[i]? = some start →
      (start ≤ n ↔ i < (src.lineStarts.takeWhile (· ≤ n)).length) := fun _ _ h =>
    le_iff_lt_length_takeWhile src.pairwise_lineStarts n h
  have hprefix := List.takeWhile_prefix (l := src.lineStarts) (· ≤ n)
  have hne : src.lineStarts.takeWhile (· ≤ n) ≠ [] := by simp [begun_eq]
  simp only [position]
  generalize src.lineStarts.takeWhile (· ≤ n) = begun at *
  have hpos : 0 < begun.length := List.length_pos_iff.2 hne
  have hlt : begun.length - 1 < begun.length := Nat.sub_lt hpos Nat.one_pos
  have hfound := List.prefix_iff_getElem?.1 hprefix _ hlt
  have hlast : begun.getLastD 0 = begun[begun.length - 1] := by
    rw [List.getLastD_eq_getLast?, List.getLast?_eq_getElem?, List.getElem?_eq_getElem hlt,
      Option.getD_some]
  exact ⟨hpos, hpartition, _, hfound, (hpartition _ _ hfound).2 hlt, by rw [hlast]⟩

theorem position_succ (n : Nat) : src.position (n + 1) =
    if src.byteAt? n = some 10 then ⟨(src.position n).line + 1, 0⟩
    else ⟨(src.position n).line, (src.position n).column + 1⟩ := by
  rw [position_eq, feedsBelow_succ]
  split
  · simp [position_eq, Nat.add_assoc]
  · rw [List.append_nil, position_eq]
    cases hlast : (src.feedsBelow n).getLast? with
    | none => rfl
    | some m =>
      have hm : m < n := (src.mem_feedsBelow.1 (List.mem_of_getLast? hlast)).1
      simp only [Option.elim_some, Position.mk.injEq, true_and]
      omega

theorem position_lt_succ (n : Nat) : src.position n < src.position (n + 1) := by
  rw [position_succ]
  split
  · exact .inl (Nat.lt_succ_self _)
  · exact .inr ⟨rfl, Nat.lt_succ_self _⟩

/-- Places follow each other in the source as their offsets do. -/
theorem position_lt_iff {m n : Nat} : src.position m < src.position n ↔ m < n := by
  have hmono : ∀ m n, m < n → src.position m < src.position n := fun _ _ h =>
    Nat.rel_of_forall_rel_succ_of_lt (· < ·) src.position_lt_succ h
  refine ⟨fun h => ?_, hmono m n⟩
  rcases Nat.lt_trichotomy m n with hlt | rfl | hgt
  · exact hlt
  · exact absurd h (irrefl (src.position m))
  · exact absurd h (asymm (hmono n m hgt))

end Source

end RankedGrammar
