/-
Lines of a text. A line ends at a line feed, a carriage return, or a
carriage return followed by a line feed, and nowhere else. What follows
the last ending is a line of its own unless it is empty.
-/

namespace XorSpan.Text

/-- The lines ended so far, latest first, and the characters of the
line still running, latest first. -/
structure LineScan where
  ended : List (List Char)
  running : List Char

namespace LineScan

def close (s : LineScan) : LineScan := ⟨s.running.reverse :: s.ended, []⟩

/-- Reads on to the end of the text. -/
def run (s : LineScan) : List Char → LineScan
  | [] => s
  | '\r' :: '\n' :: rest => s.close.run rest
  | c :: rest =>
      if c = '\n' ∨ c = '\r' then s.close.run rest
      else run { s with running := c :: s.running } rest

end LineScan

/-- The lines that have an ending, and what runs on behind the last. -/
def splitLines (text : List Char) : List (List Char) × List Char :=
  let s := LineScan.run ⟨[], []⟩ text
  (s.ended.reverse, s.running.reverse)

def lines (text : List Char) : List (List Char) :=
  match splitLines text with
  | (ended, []) => ended
  | (ended, rest) => ended ++ [rest]

end XorSpan.Text
