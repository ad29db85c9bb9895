import Mathlib.Data.List.Basic

/-!
# Texts read line by line

A text as a list of characters, its lines, and the blanks around one. A file to which records are
appended, each with a line break behind it, has the records as its lines (`lines_flatMap_record`)
as long as no record looks like more than one line or like one with a carriage return at its end.
-/

namespace TextLines

/-- A line from its characters, the last of them first; a carriage return in front of the line
break belongs to the break. -/
def close : List Char → List Char
  | '\r' :: back => back.reverse
  | back => back.reverse

/-- The lines of a text behind the beginning of a line, whose last character comes first. What
stands behind the last break is a line if it is not empty. -/
def linesFrom (back : List Char) : List Char → List (List Char)
  | [] => if back.isEmpty then [] else [back.reverse]
  | c :: cs => if c = '\n' then close back :: linesFrom [] cs else linesFrom (c :: back) cs

/-- The lines of a text. -/
def lines (text : List Char) : List (List Char) := linesFrom [] text

/-- A record with the line break that ends it. -/
def record (l : List Char) : List Char := l ++ ['\n']

/-- The record is one line: it has no line break in it and no carriage return at its end. -/
structure IsLine (l : List Char) : Prop where
  noBreak : '\n' ∉ l
  noReturn : l.getLast? ≠ some '\r'

theorem linesFrom_append {l : List Char} (h : '\n' ∉ l) (back cs : List Char) :
    linesFrom back (l ++ cs) = linesFrom (l.reverse ++ back) cs := by
  induction l generalizing back with
  | nil => rfl
  | cons c l ih =>
    have hc : c ≠ '\n' := fun heq => h (heq ▸ List.mem_cons_self)
    have hl : '\n' ∉ l := fun hmem => h (List.mem_cons_of_mem c hmem)
    rw [List.cons_append, linesFrom, if_neg hc, ih hl, List.reverse_cons, List.append_assoc,
      List.singleton_append]

theorem close_reverse {l : List Char} (h : l.getLast? ≠ some '\r') : close l.reverse = l := by
  rw [close.eq_def]
  split
  · rename_i back hback
    refine absurd ?_ h
    rw [← List.head?_reverse, hback, List.head?_cons]
  · rw [List.reverse_reverse]

/-- One record in front of a text is one line in front of its lines. -/
theorem lines_record_append {l : List Char} (h : IsLine l) (cs : List Char) :
    lines (record l ++ cs) = l :: lines cs := by
  rw [lines, record, List.append_assoc, linesFrom_append h.noBreak, List.append_nil,
    List.singleton_append, linesFrom, if_pos rfl, close_reverse h.noReturn, lines]

/-- **Records are read as they were written.** -/
theorem lines_flatMap_record {ls : List (List Char)} (h : ∀ l ∈ ls, IsLine l) :
    lines (ls.flatMap record) = ls := by
  induction ls with
  | nil => rfl
  | cons l ls ih =>
    rw [List.flatMap_cons, lines_record_append (h l List.mem_cons_self),
      ih fun l' hl' => h l' (List.mem_cons_of_mem l hl')]

/-! ### Blanks -/

/-- The property `White_Space` of Unicode. -/
def isWhitespace (c : Char) : Bool :=
  let n := c.toNat
  9 ≤ n && n ≤ 13 || n == 0x20 || n == 0x85 || n == 0xA0 || n == 0x1680 ||
    0x2000 ≤ n && n ≤ 0x200A || n == 0x2028 || n == 0x2029 || n == 0x202F || n == 0x205F ||
    n == 0x3000

/-- A line without the blanks at its beginning and at its end. -/
def trim (l : List Char) : List Char :=
  ((l.dropWhile isWhitespace).reverse.dropWhile isWhitespace).reverse

/-- A line between two characters that are no blanks has none to drop. -/
theorem trim_of_ends {a b : Char} (ha : isWhitespace a = false) (hb : isWhitespace b = false)
    (l : List Char) : trim (a :: (l ++ [b])) = a :: (l ++ [b]) := by
  have hback : (a :: (l ++ [b])).reverse = b :: (a :: l).reverse := by
    rw [← List.cons_append, List.reverse_append, List.reverse_singleton, List.singleton_append]
  rw [trim, List.dropWhile_cons_of_neg (by rw [ha]; decide), hback,
    List.dropWhile_cons_of_neg (by rw [hb]; decide), ← hback, List.reverse_reverse]

end TextLines
