import InlinePlan.Report.Content
import InlinePlan.Text.Width

set_option autoImplicit false

/-! # Reports as tables

One row for each node, with the method indented by its depth and the selected nodes marked. Columns
are as wide as their widest cell; long methods are cut. -/

namespace InlinePlan

/-- The most columns that a method takes. -/
def methodWidth : Nat := 72

/-- The heads of the columns. The first column holds the mark. -/
def tableHead : List String :=
  ["", "ID", "METHOD", "BCI", "SIZE", "BUDGET", "RATIO", "BENEFIT", "STATUS"]

def ReportNode.cells (n : ReportNode) : List String :=
  let name := String.join (List.replicate n.depth "  ") ++ n.node.method.id
  [if n.selected then "*" else "",
    toString n.node.id,
    String.ofList (Text.truncate methodWidth name.toList),
    if 0 ≤ n.node.callSite then toString n.node.callSite else "-",
    toString n.node.method.size,
    toString n.node.budget,
    (Decimal.Real.ofFloat n.node.rootCallRatio).fixed 4,
    toString n.node.staticBenefit,
    n.node.status.name]

/-- The widths of the columns of a table. -/
def columnWidths : List (List String) → List Nat
  | [] => []
  | [row] => row.map fun cell => Text.width cell.toList
  | row :: rows =>
    List.zipWith (fun cell w => max (Text.width cell.toList) w) row (columnWidths rows)

/-- A row with two spaces between cells. The last cell is not filled up. -/
def tableRow : List Nat → List String → String
  | _, [] => ""
  | _, [cell] => cell
  | [], cell :: cells => cell ++ "  " ++ tableRow [] cells
  | w :: ws, cell :: cells =>
    String.ofList (Text.padRight w cell.toList) ++ "  " ++ tableRow ws cells

/-- Rows as lines of equal columns. -/
def table (rows : List (List String)) : String :=
  let widths := columnWidths rows
  String.join (rows.map fun row => tableRow widths row ++ "\n")

namespace Report

/-- The line about what was selected. -/
def selectionLine (r : Report) : String :=
  "selected " ++ toString r.selected.length ++ " of " ++ toString r.nodes.length ++ " nodes, cost "
    ++ toString r.cost ++ " of " ++ toString r.budget ++ ", benefit "
    ++ (Decimal.Real.ofFloat r.benefit).fixed 3 ++ "\n"

def text (r : Report) : String :=
  "compilation " ++ r.compilation ++ " root " ++ r.root ++ "\n"
    ++ table (tableHead :: r.nodes.map ReportNode.cells)
    ++ r.selectionLine
    ++ String.join (r.pruned.map fun (reason, n) =>
      "pruned " ++ reason.name ++ ": " ++ toString n ++ "\n")
    ++ String.join (r.warnings.map fun w => "warning: " ++ w ++ "\n")

end Report

end InlinePlan
