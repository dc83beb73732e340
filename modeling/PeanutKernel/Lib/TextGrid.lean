import Mathlib.Data.Nat.Notation

/-!
# A text terminal

A terminal of `rows × cols` cells, each blank or with a character, and a cursor on one of them. A
character goes to the cell of the cursor, which then moves on; behind the last column, and on a
newline, it goes to the start of the next line, and below the last line the text moves up by one.
-/

structure Terminal (rows cols : ℕ) (α : Type) where
  cell : ℕ → ℕ → Option α
  x : ℕ
  y : ℕ
  x_lt : x < cols
  y_lt : y < rows

namespace Terminal

variable {rows cols : ℕ} {α : Type}

def blank (hrows : 0 < rows) (hcols : 0 < cols) : Terminal rows cols α where
  cell _ _ := none
  x := 0
  y := 0
  x_lt := hcols
  y_lt := hrows

/-- The cells with the text one line up. -/
def lineUp (rows : ℕ) (cell : ℕ → ℕ → Option α) (y x : ℕ) : Option α :=
  if y + 1 < rows then cell (y + 1) x else none

def newline (t : Terminal rows cols α) : Terminal rows cols α :=
  if h : t.y + 1 < rows then ⟨t.cell, 0, t.y + 1, Nat.zero_lt_of_lt t.x_lt, h⟩
  else ⟨lineUp rows t.cell, 0, t.y, Nat.zero_lt_of_lt t.x_lt, t.y_lt⟩

/-- The cells with a character at the cursor. -/
def written (t : Terminal rows cols α) (c : α) (y x : ℕ) : Option α :=
  if y = t.y ∧ x = t.x then some c else t.cell y x

def put (t : Terminal rows cols α) (c : α) : Terminal rows cols α :=
  if h : t.x + 1 < cols then ⟨t.written c, t.x + 1, t.y, h, t.y_lt⟩
  else newline { t with cell := t.written c }

end Terminal
