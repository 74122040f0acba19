import Concord.Report.Basic

/-! One line a violation, and on demand a table that sums them up by rule. -/
namespace Concord

/-- `path:line:column: error[rule] message`. -/
def Violation.line (v : Violation) : String :=
  s!"{v.location.display}: {v.severity.display}[{v.rule.id}] {v.message}"

structure RuleCount where
  rule : Rule
  errors : Nat
  warnings : Nat
  deriving DecidableEq, Repr

def countByRule (vs : List Violation) : List RuleCount :=
  (Rule.all.map fun rule =>
    let ofRule := vs.filter (·.rule = rule)
    ⟨rule, ofRule.countP (·.severity = .error), ofRule.countP (·.severity = .warning)⟩).filter
      fun c => 0 < c.errors + c.warnings

namespace Table

inductive Alignment
  | left
  | right
  deriving DecidableEq, Repr

structure Cell where
  lines : List String
  alignment : Alignment
  deriving Repr

def text (t : String) : Cell := ⟨[t], .left⟩

def number (n : Nat) : Cell := ⟨[toString n], .right⟩

abbrev Row := List Cell

def spaces (n : Nat) : String := String.ofList (List.replicate n ' ')

def padded (width : Nat) (alignment : Alignment) (line : String) : String :=
  let fill := spaces (width - line.length)
  match alignment with
  | .left => " " ++ line ++ fill ++ " "
  | .right => " " ++ fill ++ line ++ " "

def cellWidth (c : Cell) : Nat := c.lines.foldl (fun w l => max w l.length) 0

def widen : List Nat → List Nat → List Nat
  | a :: as, b :: bs => max a b :: widen as bs
  | [], bs => bs
  | as, [] => as

def widths (rows : List Row) : List Nat := rows.foldl (fun ws r => widen ws (r.map cellWidth)) []

def rule (left : String) (fill : Char) (cross right : String) (ws : List Nat) : String :=
  left ++ cross.intercalate (ws.map fun w => String.ofList (List.replicate (w + 2) fill)) ++ right

def rowLines (ws : List Nat) (row : Row) : List String :=
  let height := row.foldl (fun h c => max h c.lines.length) 0
  (List.range height).map fun i =>
    "│" ++ "┆".intercalate
      ((row.zip ws).map fun (c, w) => padded w c.alignment ((c.lines[i]?).getD "")) ++ "│"

/-- A table with a header: a double line below the header and a dotted one between rows. -/
def render (header : Row) (rows : List Row) : List String :=
  let ws := widths (header :: rows)
  let between := rule "├" '╌' "┼" "┤" ws
  [rule "┌" '─' "┬" "┐" ws] ++ rowLines ws header ++ [rule "╞" '═' "╪" "╡" ws] ++
    ((rows.map (rowLines ws)).intersperse [between]).flatten ++ [rule "└" '─' "┴" "┘" ws]

end Table

open Table

def summaryLines (vs : List Violation) : List String :=
  Table.render [text "Rule", text "Errors", text "Warnings", text "Checks"]
    ((countByRule vs).map fun c =>
      [text c.rule.id, number c.errors, number c.warnings,
        ⟨[c.rule.description, c.rule.why], .left⟩])

def Report.lines (r : Report) (verbose : Bool) : List String :=
  if r.violations.isEmpty then []
  else
    let summary :=
      if !verbose then []
      else
        let note :=
          if r.diagnostics.isEmpty then []
          else [s!" [NOTE] {r.diagnostics.length} files or call sites skipped " ++
            "(run with RUST_LOG=warn for details)"]
        "" :: summaryLines r.violations ++ note
    r.violations.map (·.line) ++ summary

end Concord
