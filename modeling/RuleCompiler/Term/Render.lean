import RuleCompiler.Term.Identity

/-! # Terms as text

The text that diagnostics show a term by. Parts of unordered collections are listed in the order
of their texts. -/

namespace RuleCompiler

namespace Term

/-- Texts in ascending order. -/
def sortTexts (texts : List String) : List String := texts.mergeSort fun a b => decide (a ≤ b)

def commaSep (texts : List String) : String := String.intercalate ", " texts

def braces (text : String) : String := "\x7b" ++ text ++ "\x7d"

/-- Texts of the entries from the alternating texts of keys and values. -/
def entryTexts : List String → List String
  | k :: v :: rest => (k ++ " |-> " ++ v) :: entryTexts rest
  | _ => []

/-- Texts by rule id, with a blank for the rules that leave the position as it is. -/
def rightSideTexts : List (Option Term) → List String → List String
  | some _ :: ts, c :: cs => c :: rightSideTexts ts cs
  | none :: ts, cs => "_" :: rightSideTexts ts cs
  | _, _ => []

/-- The text of a node from those of its children. -/
def renderNode (t : Term) (cs : List String) : String :=
  match t.node, cs with
  | .app (.const l) .., [] => l
  | .app (.const l) .., cs => l ++ "(" ++ commaSep cs ++ ")"
  | .app (.freezer _) .., c :: cs =>
    let label := "#freezer(" ++ c ++ ")"
    if cs.isEmpty then label else label ++ "(" ++ commaSep cs ++ ")"
  | .token _ v, _ => v
  | .seq [] none, _ => ".K"
  | .seq _ frame, cs => String.intercalate " ~> " (cs ++ frame.toList.map Var.render)
  | .list .., cs => "[" ++ commaSep cs ++ "]"
  | .map _ entries _, cs =>
    let (es, bs) := cs.splitAt (2 * entries.length)
    braces (commaSep (sortTexts (entryTexts es) ++ bs))
  | .set _ elements _, cs =>
    let (es, bs) := cs.splitAt elements.length
    braces (commaSep (sortTexts es ++ bs))
  | .cells [] [], _ => ".Bag"
  | .cells cs frames, texts =>
    let cell (c : Cell) (text : String) := "<" ++ c.label ++ "> " ++ text ++ " </" ++ c.label ++ ">"
    String.intercalate " " (cs.zipWith cell texts) ++
      String.join (frames.map fun v => " " ++ v.render)
  | .var v, _ => v.render
  | .hole, _ => "HOLE"
  | .labelValue l, _ => "#klabel(" ++ l ++ ")"
  | .rewrite .., [l, r] => "(" ++ l ++ " => " ++ r ++ ")"
  | .disjunction branches, cs =>
    let branch (b : Term × RuleSet) (text : String) := text ++ " " ++ b.2.render
    "(" ++ String.intercalate " \\/ " (branches.zipWith branch cs) ++ ")"
  | .rightSides byRule, cs => "[" ++ String.intercalate " | " (rightSideTexts byRule cs) ++ "]"
  | _, _ => ""

def render : Term → String := fold renderNode

end Term

/-- Why cells could not be merged. -/
def Clash.message (c : Clash) : String :=
  "cell collection cannot absorb `" ++ c.stray.render ++ "`"

end RuleCompiler
