import RuleCompiler.Substitution
import RuleCompiler.Term.Disjunction

/-! # Matching

One-way matching of a pattern against a subject, giving every substitution under which the
pattern becomes the subject. A state is passed through the pattern; every part of it keeps, forks
or drops the states that reach it. Rewrites are matched by their left side, and a disjunction
narrows the set of rules that are still possible.

Variables are bound to the nodes of the subject; only segments of sequences and lists and the
remainders of other collections are new nodes. The helpers take the matcher for parts of the
pattern as an argument, so they are plain recursion on lists; `matchFrom` ties the knot. -/

namespace RuleCompiler

/-- One way of matching so far. -/
structure MatchState where
  substitution : Substitution := {}
  /-- The rules still possible; none before the first disjunction. -/
  rules : Option RuleSet := none
deriving BEq, Inhabited

/-- How a term continues the match of another in a state. -/
abbrev Matcher := Term → Term → MatchState → Build (List MatchState)

namespace Matching

/-- Bind a variable to a subject of its sort. A don't-care variable takes anything of its sort. -/
def bind (v : Var) (subject : Term) (state : MatchState) : List MatchState :=
  if !subject.sort.subsortOf v.sort then []
  else if v.isDontCare then [state]
  else ((state.substitution.bind? v subject).map ({ state with substitution := · })).toList

/-- Match pairs one after the other, each in all states that the ones before have left. -/
def pairs (go : Matcher) : List (Term × Term) → List MatchState → Build (List MatchState)
  | [], states => return states
  | _, [] => return []
  | (p, s) :: rest, states => do pairs go rest (← states.flatMapM (go p s))

/-- Every way to cut a list in two, the shortest front first. -/
def splits {α : Type} (l : List α) : List (List α × List α) :=
  (List.range (l.length + 1)).map l.splitAt

/-- A `K` variable among sequence items, which stands for any number of them. -/
def segment? (t : Term) : Option Var := t.asVar?.filter (·.sort = .k)

/-- Items and frame of a term read as a sequence. -/
def sequenceView (t : Term) : List Term × Option Var :=
  match t.node with
  | .seq items frame => (items, frame)
  | .var v => if v.sort = .k then ([], some v) else ([t], none)
  | _ => ([t], none)

/-- Match sequence items, then the frames. -/
def sequence (go : Matcher) (pFrame : Option Var) (sFrame : Option Var) :
    List Term → List Term → MatchState → Build (List MatchState)
  | [], ss, state => do
    match pFrame with
    | some frame => return bind frame (← Term.sequenceFrom ss sFrame) state
    | none => return if ss.isEmpty && sFrame.isNone then [state] else []
  | p :: ps, ss, state => do
    match segment? p with
    | some v =>
      if ps.isEmpty && pFrame.isNone then return bind v (← Term.sequenceFrom ss sFrame) state
      (splits ss).flatMapM fun (front, back) => do
        (bind v (← Term.sequenceFrom front none) state).flatMapM
          (sequence go pFrame sFrame ps back)
    | none =>
      match ss with
      | [] => return []
      | s :: ss => (← go p s state).flatMapM (sequence go pFrame sFrame ps ss)

/-- A term read as a list of the user operator `ops`: its unit is the empty list, and any other
operand a list of one. -/
def operandsOf? (ops : CollectionOps) (t : Term) : Option ListParts :=
  if !ops.isOperator then none
  else match t.node with
    | .list ops' left base right => if ops' = ops then some { ops, left, base, right } else none
    | .var v => some (if v.sort = ops.sort then { ops, base := [t] } else { ops, left := [t] })
    | _ => some (if ops.isUnit t then { ops } else { ops, left := [t] })

/-- The list of `items`. -/
def listOf (ops : CollectionOps) (items : List Term) : Build Term :=
  (items.foldl ListParts.addItem { ops }).build

/-- Match the unknown middle of a list pattern against known items. -/
def listMiddle (go : Matcher) (ops : CollectionOps) :
    List Term → List Term → MatchState → Build (List MatchState)
  | [], items, state => return if items.isEmpty then [state] else []
  | b :: bases, items, state => do
    match b.node with
    | .list _ run base _ =>
      if base.isEmpty && run.length ≤ items.length then
        (← pairs go (run.zip items) [state]).flatMapM
          (listMiddle go ops bases (items.drop run.length))
      else return []
    | _ =>
      (if bases.isEmpty then [(items, [])] else splits items).flatMapM fun (front, back) => do
        (← go b (← listOf ops front) state).flatMapM (listMiddle go ops bases back)

/-- Match lists. A subject with unknown parts is matched part by part. -/
def list (go : Matcher) (p s : ListParts) (state : MatchState) : Build (List MatchState) := do
  if !s.base.isEmpty then
    if p.left.length = s.left.length && p.right.length = s.right.length &&
        p.base.length = s.base.length then
      pairs go (p.left.zip s.left ++ p.base.zip s.base ++ p.right.zip s.right) [state]
    else return []
  else
    let (l, r, n) := (p.left.length, p.right.length, s.left.length)
    if n < l + r || (p.base.isEmpty && l + r != n) then return []
    else
      let middle := (s.left.drop l).take (n - r - l)
      (← pairs go (p.left.zip s.left ++ p.right.zip (s.left.drop (n - r))) [state]).flatMapM
        (listMiddle go p.ops p.base middle)

/-- Match what is left of a collection against the unknown part of the pattern, with `go` for the
only part that there may be. -/
def rest {α : Type} (go : α → Term → MatchState → Build (List MatchState)) (bases : List α)
    (remainder : Term) (state : MatchState) : Build (List MatchState) :=
  match bases with
  | [] => return match remainder.node with
    | .map _ [] [] | .set _ [] [] | .cells [] [] => [state]
    | _ => []
  | [base] => go base remainder state
  | _ => return []

/-- Match the entries of a map pattern, each against an entry not used before, then the rest. A
key is instantiated first and, when that makes it ground, looked up. `deeper` matches keys. -/
def mapEntries (go deeper : Matcher) (ops : CollectionOps) (sBase pBase : List Term) :
    List (Term × Term) → List (Term × Term) → MatchState → Build (List MatchState)
  | [], unused, state => do
    rest go pBase (← (sBase.foldl MapParts.concat { ops, entries := unused }).build) state
  | (key, value) :: pending, unused, state => do
    let key ← state.substitution.apply key
    let go' (e : Term × Term) (state : MatchState) : Build (List MatchState) := do
      (← go value e.2 state).flatMapM
        (mapEntries go deeper ops sBase pBase pending (SortedList.erase e.1 unused))
    if key.isGround then
      (unused.filter (·.1 == key)).flatMapM fun e => go' e state
    else
      unused.flatMapM fun e => do (← deeper key e.1 state).flatMapM (go' e)

/-- Match the elements of a set pattern, each against an element not used before, then the rest.
`deeper` matches elements. -/
def setElements (go deeper : Matcher) (ops : CollectionOps) (sBase pBase : List Term) :
    List Term → List Term → MatchState → Build (List MatchState)
  | [], unused, state => do
    rest go pBase (← (sBase.foldl SetParts.concat { ops, elements := unused }).build) state
  | element :: pending, unused, state => do
    let element ← state.substitution.apply element
    (unused.filter fun s => !element.isGround || element == s).flatMapM fun s => do
      (← deeper element s state).flatMapM
        (setElements go deeper ops sBase pBase pending (unused.filter (· != s)))

/-- Match the cells of a pattern, each against a cell of the same label not used before, then the
frames. -/
def cells (go : Matcher) (sFrames pFrames : List Var) :
    List Cell → List (Nat × Cell) → MatchState → Build (List MatchState)
  | [], unused, state => do
    let remainder ← { cells := unused.map (·.2), frames := sFrames : CellParts }.build
    rest (fun v s state => return bind v s state) pFrames remainder state
  | cell :: pending, unused, state =>
    (unused.filter (·.2.label == cell.label)).flatMapM fun s => do
      (← go cell.content s.2.content state).flatMapM
        (cells go sFrames pFrames pending (unused.filter (·.1 != s.1)))

/-- Match every branch that the head of the subject admits, for the rules it shares with the
state. -/
def branches (go : Matcher) (bs : List Term.Branch) (subject : Term) (state : MatchState) :
    Build (List MatchState) :=
  (Term.candidateBranches subject bs).flatMapM fun (p, rules) =>
    let live := match state.rules with
      | some live => live.inter rules
      | none => rules
    if live.isEmpty then return [] else go p subject { state with rules := some live }

/-- One level of a match: `go` matches parts of the pattern, `deeper` instantiated keys and
elements against parts of the subject. -/
def node (go deeper : Matcher) (p s : Term) (state : MatchState) : Build (List MatchState) := do
  if p.isGround && !p.hasRewrite && !p.hasDisjunction then return if p == s then [state] else []
  match p.node, s.node with
  | .var v, _ => return bind v s state
  | .rewrite l _, _ => go l s state
  | .disjunction bs, _ => branches go bs s state
  | .app (.const l) ps _, .app (.const l') ss _ =>
    if l = l' && ps.length = ss.length then pairs go (ps.zip ss) [state] else return []
  | .app (.freezer t) ps _, .app (.freezer t') ss _ =>
    if ps.length = ss.length then (← go t t' state).flatMapM fun st => pairs go (ps.zip ss) [st]
    else return []
  | .seq items frame, _ =>
    let (ss, sFrame) := sequenceView s
    sequence go frame sFrame items ss state
  | .list ops left base right, _ =>
    let p : ListParts := { ops, left, base, right }
    let view := match s.node with
      | .list ops left base right => some { ops, left, base, right : ListParts }
      | _ => operandsOf? ops s
    match view with
    | some s => if s.ops = ops then list go p s state else return []
    | none => return []
  | .map ops entries base, .map ops' entries' base' =>
    if ops = ops' then mapEntries go deeper ops base' base entries entries' state else return []
  | .set ops elements base, .set ops' elements' base' =>
    if ops = ops' then setElements go deeper ops base' base elements elements' state
    else return []
  | .cells cs frames, .cells cs' frames' =>
    cells go frames' frames cs (cs'.mapIdx fun i c => (i, c)) state
  | _, _ => return []

/-- Matching of patterns up to a size; `deeper` matches instantiated keys and elements. -/
def upTo (deeper : Matcher) : Nat → Matcher
  | 0 => fun _ _ _ => return []
  | n + 1 => node (upTo deeper n) deeper

/-- Matching against subjects up to a size. -/
def below : Nat → Matcher
  | 0 => fun _ _ _ => return []
  | n + 1 => fun p => upTo (below n) p.size p

end Matching

/-- Continue a match: every state in which the pattern equals the subject. Parts of a pattern are
smaller than it, and instantiated keys are matched against smaller subjects, so the two sizes
bound the recursion. -/
def matchFrom (pattern subject : Term) (state : MatchState) : Build (List MatchState) :=
  Matching.below subject.size pattern subject state

/-- Every substitution under which the pattern equals the subject. -/
def matchAll (pattern subject : Term) : Build (List Substitution) :=
  return (← matchFrom pattern subject {}).map (·.substitution)

end RuleCompiler
