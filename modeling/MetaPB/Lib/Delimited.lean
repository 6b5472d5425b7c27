import Mathlib.Data.List.Induction

/-! Text cut at delimiters. A writer that ends every piece but the last with the delimiter
joins the pieces, and a reader of pieces finds them again where none holds the delimiter.
Reading line by line stops at the end of the text, so an empty last line is not read. -/
namespace MetaPB.Lib.Delimited

variable {α β : Type*}

/-- The lines that `getline` finds one after another. -/
def lines (text : List Char) : List (List Char) :=
  let pieces := text.splitOn '\n'
  if pieces.getLast? = some [] then pieces.dropLast else pieces

theorem lines_intercalate {pieces : List (List Char)} {last : List Char} (filled : last ≠ [])
    (whole : ∀ piece ∈ pieces ++ [last], '\n' ∉ piece) :
    lines (['\n'].intercalate (pieces ++ [last])) = pieces ++ [last] := by
  rw [lines,List.splitOn_intercalate _ whole (by simp)]
  simp [filled]

/-- Pieces that are followed by the delimiter except for the last are joined by it. -/
theorem flatMap_delimiter (piece : β → List α) (delimiter : α) (more : β → Bool) {items : List β}
    {last : β} (inner : ∀ item ∈ items, more item = true) (final : more last = false) :
    (items ++ [last]).flatMap (fun item => piece item ++ if more item then [delimiter] else []) =
      [delimiter].intercalate ((items ++ [last]).map piece) := by
  induction items with
  | nil => simp [final]
  | cons item items ih =>
    have next := ih fun other member => inner other (List.mem_cons_of_mem _ member)
    rw [List.cons_append,List.flatMap_cons,next,if_pos (inner item (by simp)),List.map_cons]
    rw [List.intercalate_cons_of_ne_nil (by simp)]

/-- The last delimiter of a text cuts it in one way. -/
theorem append_delimiter_inj {delimiter : α} {before after last final : List α}
    (plain : delimiter ∉ last) (other : delimiter ∉ final)
    (same : before ++ delimiter::last = after ++ delimiter::final) : before = after ∧ last = final := by
  have half (front back : List α) {rest tail : List α} (clear : delimiter ∉ rest)
      (split : delimiter::rest = back ++ delimiter::tail) : front ++ back = front ∧ rest = tail := by
    cases back with
    | nil => exact ⟨List.append_nil _,List.tail_eq_of_cons_eq split⟩
    | cons first back =>
      have inside : rest = back ++ delimiter::tail := List.tail_eq_of_cons_eq split
      exact absurd (inside ▸ List.mem_append_right back (by simp)) clear
  rcases List.append_eq_append_iff.mp same with ⟨back,rfl,split⟩ | ⟨back,rfl,split⟩
  · obtain ⟨prefixed,equal⟩ := half before back plain split
    exact ⟨prefixed.symm,equal⟩
  · obtain ⟨prefixed,equal⟩ := half after back other split
    exact ⟨prefixed,equal.symm⟩

end MetaPB.Lib.Delimited
