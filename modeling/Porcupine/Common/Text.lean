import Mathlib.Data.List.DropRight
import Mathlib.Data.Nat.Notation
/-!
# Lines of a text

A text is cut after each newline, a line is what is left of a piece
without its ending, and trimming takes the white space from both sides of
it. Lines that have no newline come back out of the text they are put in,
up to that white space (`trim_lines_unlines`).
-/

namespace Text

/-- The pieces of a text, each up to its newline or to the end. -/
def pieces : List Char → List (List Char)
  | [] => []
  | c :: cs =>
    if c = '\n' then [c] :: pieces cs
    else
      match pieces cs with
      | [] => [[c]]
      | piece :: rest => (c :: piece) :: rest

/-- A piece without its ending: a newline, or a carriage return and a
newline. -/
def withoutEnding (piece : List Char) : List Char :=
  if piece.getLast? = some '\n' then
    if piece.dropLast.getLast? = some '\r' then piece.dropLast.dropLast else piece.dropLast
  else piece

/-- `str::lines`. -/
def lines (text : String) : List String :=
  (pieces text.toList).map fun piece => .ofList (withoutEnding piece)

/-- `char::is_whitespace`: the property `White_Space` of Unicode. -/
def isWhitespace (c : Char) : Bool :=
  (9 ≤ c.toNat && c.toNat ≤ 13) || (0x2000 ≤ c.toNat && c.toNat ≤ 0x200A) ||
    [0x20, 0x85, 0xA0, 0x1680, 0x2028, 0x2029, 0x202F, 0x205F, 0x3000].contains c.toNat

/-- The characters between white space on both sides. -/
def trimmed (cs : List Char) : List Char := (cs.dropWhile isWhitespace).rdropWhile isWhitespace

/-- `str::trim`. -/
def trim (s : String) : String := .ofList (trimmed s.toList)

/-- A text of lines, a newline after each. -/
def unlines (ls : List String) : String := .ofList (ls.flatMap fun l => l.toList ++ ['\n'])

variable {cs rest : List Char} {c : Char}

/-- White space at the end does not matter. -/
theorem trimmed_concat (h : isWhitespace c = true) : trimmed (cs ++ [c]) = trimmed cs := by
  unfold trimmed
  rw [List.dropWhile_append]
  cases hdrop : cs.dropWhile isWhitespace with
  | nil => simp [h]
  | cons d ds =>
    rw [List.isEmpty_cons, if_neg Bool.false_ne_true]
    exact List.rdropWhile_concat_pos _ _ _ h

/-- The first piece ends at the first newline. -/
theorem pieces_append (h : '\n' ∉ cs) :
    pieces (cs ++ '\n' :: rest) = (cs ++ ['\n']) :: pieces rest := by
  induction cs with
  | nil => simp [pieces]
  | cons c cs ih =>
    obtain ⟨hc, hcs⟩ := not_or.1 (mt List.mem_cons.2 h)
    rw [List.cons_append, pieces, if_neg (Ne.symm hc), ih hcs]
    rfl

/-- An ending is white space. -/
theorem trimmed_withoutEnding (cs : List Char) :
    trimmed (withoutEnding (cs ++ ['\n'])) = trimmed cs := by
  have hend : withoutEnding (cs ++ ['\n']) = if cs.getLast? = some '\r' then cs.dropLast else cs := by
    simp [withoutEnding]
  rw [hend]
  split
  · next hlast =>
    obtain ⟨pre, rfl⟩ := List.getLast?_eq_some_iff.1 hlast
    rw [List.dropLast_concat, trimmed_concat (by decide)]
  · rfl

/-- **Lines without newlines come back**, up to white space at their
ends. -/
theorem trim_lines_unlines {ls : List String} (h : ∀ l ∈ ls, '\n' ∉ l.toList) :
    (lines (unlines ls)).map trim = ls.map trim := by
  induction ls with
  | nil => rfl
  | cons l ls ih =>
    obtain ⟨hl, hls⟩ := List.forall_mem_cons.1 h
    have hpieces : pieces (unlines (l :: ls)).toList =
        (l.toList ++ ['\n']) :: pieces (unlines ls).toList := by
      simp only [unlines, String.toList_ofList, List.flatMap_cons, List.append_assoc,
        List.singleton_append]
      exact pieces_append hl
    have hrest := ih hls
    unfold lines at hrest ⊢
    rw [hpieces, List.map_cons, List.map_cons, List.map_cons, hrest]
    simp only [trim, String.toList_ofList, trimmed_withoutEnding]

end Text
