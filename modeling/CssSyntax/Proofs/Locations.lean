import Mathlib.Data.List.Induction
import Mathlib.Data.List.TakeWhile
import Mathlib.Tactic.Lemma
import CssSyntax.Location

/-!
# Places in a text

The starts of the lines of a text are found once, and a place is found from the last of them in front
of it. That is the place that reading the text byte by byte comes to (`LineIndex.locate_eq_after`),
so a text can also be located from any place inside it on (`LineIndex.locate_append`).

Offsets may lie behind the end of the text. `Location.walk` takes a step for each of them, and comes to
the same places (`LineIndex.places_agree_with_walk`).
-/

namespace CssSyntax

namespace Location

/-- Reading two texts comes to where reading the second comes to behind the first. -/
lemma after_append (l : Location) (s t : List UInt8) : l.after (s ++ t) = (l.after s).after t :=
  List.foldl_append

/-- Reading a text and a byte comes one step further than reading the text. -/
lemma after_concat (l : Location) (s : List UInt8) (b : UInt8) :
    l.after (s ++ [b]) = (l.after s).step b :=
  after_append l s [b]

/-- A column behind a byte is one behind the place that the byte leads to. -/
lemma step_skip_of_ne (l : Location) {b : UInt8} (h : b ≠ 0x0A) (n : Nat) :
    (l.step b).skip n = l.skip (n + 1) := by
  simp only [step, if_neg h, skip, Location.mk.injEq, true_and]
  omega

/-- The place behind the given number of steps through a text. A step moves past a byte; behind the
end of the text it takes one column. -/
def walk (l : Location) : List UInt8 → Nat → Location
  | _, 0 => l
  | [], n + 1 => (l.skip 1).walk [] n
  | b :: text, n + 1 => (l.step b).walk text n

/-- One column and further ones are as many columns as together. -/
lemma skip_one_skip (l : Location) (n : Nat) : (l.skip 1).skip n = l.skip (n + 1) := by
  simp only [skip, Location.mk.injEq, true_and]
  omega

/-- A walk reads the text as far as it gets, and then takes a column for each step that is left. -/
lemma walk_eq_after (l : Location) (text : List UInt8) (n : Nat) :
    l.walk text n = (l.after (text.take n)).skip (n - text.length) := by
  induction n generalizing l text with
  | zero =>
    rw [Nat.zero_sub, List.take_zero]
    rfl
  | succ n ih =>
    cases text with
    | nil =>
      rw [walk, ih, List.take_nil, List.take_nil]
      exact l.skip_one_skip n
    | cons b text =>
      rw [walk, ih, List.take_succ_cons, List.length_cons, Nat.add_sub_add_right]
      rfl

end Location

namespace LineIndex

/-- A newline at the end starts a line behind it, and any other byte starts none. -/
lemma startsFrom_concat (i : Nat) (s : List UInt8) (b : UInt8) :
    startsFrom i (s ++ [b]) =
      startsFrom i s ++ if b = 0x0A then [i + s.length + 1] else [] := by
  induction s generalizing i with
  | nil => rfl
  | cons c s ih =>
    have hlength : i + 1 + s.length = i + (c :: s).length := by
      rw [List.length_cons]
      omega
    rw [List.cons_append, startsFrom, startsFrom, ih, hlength]
    split <;> rfl

/-- Lines start behind the offset that they are searched from. -/
lemma lt_of_mem_startsFrom {i n : Nat} {s : List UInt8} (h : n ∈ startsFrom i s) : i < n := by
  induction s generalizing i with
  | nil => cases h
  | cons b s ih =>
    rw [startsFrom] at h
    split at h
    · cases h with
      | head => exact Nat.lt_succ_self i
      | tail _ h => exact Nat.lt_of_succ_lt (ih h)
    · exact Nat.lt_of_succ_lt (ih h)

/-- Each line starts behind the one before. -/
lemma pairwise_startsFrom (i : Nat) (s : List UInt8) : (startsFrom i s).Pairwise (· < ·) := by
  induction s generalizing i with
  | nil => exact .nil
  | cons b s ih =>
    rw [startsFrom]
    split
    · exact .cons (fun _ h => lt_of_mem_startsFrom h) (ih (i + 1))
    · exact ih (i + 1)

/-- The lines of a text start one behind the other, from its first byte on. -/
lemma pairwise_starts (start : Location) (text : List UInt8) :
    (ofBytes start text).starts.Pairwise (· < ·) :=
  .cons (fun _ h => lt_of_mem_startsFrom h) (pairwise_startsFrom 0 text)

/-- Of numbers that grow, those up to a bound stand in front, so a search by halves finds where they
end. -/
lemma getElem_le_iff {starts : List Nat} (h : starts.Pairwise (· < ·)) (offset : Nat) {i : Nat}
    (hi : i < starts.length) :
    starts[i] ≤ offset ↔ i < (starts.takeWhile (· ≤ offset)).length := by
  induction starts generalizing i with
  | nil => cases hi
  | cons s starts ih =>
    obtain ⟨hs, hstarts⟩ := List.pairwise_cons.mp h
    by_cases hle : s ≤ offset
    · rw [List.takeWhile_cons_of_pos (by simpa using hle), List.length_cons]
      cases i with
      | zero => exact ⟨fun _ => Nat.succ_pos _, fun _ => hle⟩
      | succ i => exact (ih hstarts _).trans Nat.succ_lt_succ_iff.symm
    · rw [List.takeWhile_cons_of_neg (by simpa using hle)]
      refine ⟨fun hb => absurd hb ?_, nofun⟩
      cases i with
      | zero => exact hle
      | succ i =>
        have hi : i < starts.length := Nat.lt_of_succ_lt_succ hi
        have hlt : s < starts[i] := hs _ (List.getElem_mem hi)
        exact Nat.not_le_of_lt (Nat.lt_trans (Nat.lt_of_not_le hle) hlt)

/-- The lines that start at or in front of an offset are those of the bytes in front of it. -/
lemma takeWhile_startsFrom (i offset : Nat) (s : List UInt8) :
    (startsFrom i s).takeWhile (· ≤ i + offset) = startsFrom i (s.take offset) := by
  induction s generalizing i offset with
  | nil => simp [startsFrom]
  | cons b s ih =>
    cases offset with
    | zero =>
      show _ = []
      cases hs : startsFrom i (b :: s) with
      | nil => rfl
      | cons n ns =>
        have hlt : i < n := lt_of_mem_startsFrom (hs ▸ List.mem_cons_self)
        exact List.takeWhile_cons_of_neg (by simpa using hlt)
    | succ offset =>
      have hoffset : i + (offset + 1) = i + 1 + offset := by omega
      rw [List.take_succ_cons, startsFrom, startsFrom, hoffset]
      split
      · rw [List.takeWhile_cons_of_pos (by simp), ih]
      · exact ih (i + 1) offset

/-- A place is found from the starts of the lines in front of it; only the first line is moved. -/
lemma locate_ofBytes (start : Location) (text : List UInt8) (offset : Nat) :
    (ofBytes start text).locate offset =
      { line := start.line + (startsFrom 0 (text.take offset)).length
        column :=
          if startsFrom 0 (text.take offset) = [] then start.column + offset
          else offset - (startsFrom 0 (text.take offset)).getLastD 0 + 1
        offset := start.offset + offset } := by
  have hbefore : (0 :: startsFrom 0 text).takeWhile (· ≤ offset) =
      0 :: startsFrom 0 (text.take offset) := by
    rw [List.takeWhile_cons_of_pos (by simp), ← takeWhile_startsFrom, Nat.zero_add]
  simp only [locate, ofBytes, hbefore]
  cases startsFrom 0 (text.take offset) with
  | nil => rfl
  | cons n ns => simp

/-- What follows an offset does not move its place. -/
lemma locate_take (start : Location) (text : List UInt8) (offset : Nat) :
    (ofBytes start (text.take offset)).locate offset = (ofBytes start text).locate offset := by
  rw [locate_ofBytes, locate_ofBytes, List.take_take, Nat.min_self]

/-- Behind the end of a text each offset is one column further. -/
lemma locate_of_length_le (start : Location) {text : List UInt8} {offset : Nat}
    (h : text.length ≤ offset) :
    (ofBytes start text).locate offset = (start.after text).skip (offset - text.length) := by
  rw [locate_ofBytes, List.take_of_length_le h]
  -- From the last byte on, which either starts a line of its own or takes a column.
  induction text using List.reverseRecOn with
  | nil => simp [startsFrom, Location.after, Location.skip]
  | append_singleton text b ih =>
    have hlength : (text ++ [b]).length = text.length + 1 := List.length_append
    rw [hlength] at h ⊢
    rw [Location.after_concat, startsFrom_concat]
    by_cases hb : b = 0x0A
    · have hplace := ih (by omega)
      simp only [Location.skip, Location.mk.injEq] at hplace
      simp only [Location.step, if_pos hb, Location.skip, Location.mk.injEq, List.length_append,
        List.length_singleton, List.append_eq_nil_iff, List.cons_ne_nil, and_false, if_false,
        List.getLastD_concat]
      omega
    · rw [if_neg hb, List.append_nil, Location.step_skip_of_ne _ hb, ih (by omega)]
      congr 1
      omega

/-- The place of an offset is where reading the text up to there byte by byte comes to, and behind the
end of the text as many columns further. -/
lemma locate_eq_after (start : Location) (text : List UInt8) (offset : Nat) :
    (ofBytes start text).locate offset =
      (start.after (text.take offset)).skip (offset - text.length) := by
  rw [← locate_take, locate_of_length_le start (List.length_take_le offset text), List.length_take]
  congr 1
  omega

/-- The places of the second part of a text are those of a text of its own that starts where the first
part ends. -/
lemma locate_append (start : Location) (s t : List UInt8) (offset : Nat) :
    (ofBytes start (s ++ t)).locate (s.length + offset) =
      (ofBytes (start.after s) t).locate offset := by
  rw [locate_eq_after, locate_eq_after, List.take_length_add_append, Location.after_append,
    List.length_append, Nat.add_sub_add_left]

/-- The place of an offset is where a walk of as many steps through the text comes to, also behind the
end of the text. The lines that start at or in front of the offset are the first ones of the index, so
it does not matter how the last of them is searched; there is one, and it starts no later than the
offset, so nothing that is subtracted is too large. -/
theorem places_agree_with_walk (start : Location) (text : List UInt8) (offset : Nat) :
    let index := ofBytes start text
    let before := index.starts.takeWhile (· ≤ offset)
    index.locate offset = start.walk text offset ∧
    (∀ i : Fin index.starts.length, index.starts[i] ≤ offset ↔ (i : Nat) < before.length) ∧
    0 < before.length ∧ before.getLastD 0 ≤ offset := by
  intro index before
  have hfirst : before = 0 :: (startsFrom 0 text).takeWhile (· ≤ offset) :=
    List.takeWhile_cons_of_pos (by simp)
  refine ⟨?_, ?_, ?_, ?_⟩
  · rw [locate_eq_after, Location.walk_eq_after]
  · intro i
    exact getElem_le_iff (pairwise_starts start text) offset i.isLt
  · rw [hfirst]
    exact Nat.succ_pos _
  · have hmem : before.getLastD 0 ∈ before := by
      rw [hfirst, List.getLastD_cons]
      exact List.getLastD_mem_cons
    simpa using List.mem_takeWhile_imp hmem

end LineIndex

end CssSyntax
