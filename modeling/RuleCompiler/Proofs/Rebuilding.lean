import RuleCompiler.Proofs.Rebuilding.Along
import RuleCompiler.Proofs.RewriteLifting

/-! # Results along the subject

The result of a rule is built along the subject that it matched: what the rule leaves alone is taken over
from there. -/

namespace RuleCompiler

namespace Term

def isCells (t : Term) : Bool :=
  match t.node with
  | .cells .. => true
  | _ => false

theorem isCells_iff {t : Term} : t.isCells ↔ ∃ cs frames, t.node = .cells cs frames := by
  unfold isCells
  split
  · exact ⟨fun _ => ⟨_, _, ‹_›⟩, fun _ => rfl⟩
  · rename_i hno
    exact ⟨Bool.noConfusion, fun ⟨_, _, h⟩ => absurd h (hno _ _)⟩

instance (t : Term) : Decidable t.HasLiftedRewrites :=
  decidable_of_iff (∀ u ∈ t.subterms, ∀ c ∈ u.children, c.isRewrite → u.isCells) <|
    forall₅_congr fun _ _ _ _ _ => isCells_iff

end Term

/-- The sides of the rule are those of its body, whose rewrites are lifted and of this rule alone. -/
structure Rule.HasLiftedBody (multiplicity : String → Multiplicity) (r : Rule) : Prop where
  left : Side.IsSide .left r.body r.left
  right : Side.IsSide .right r.body r.right
  isLifted : r.body.isLifted
  isFlat : r.body.HasFlatRewrites
  isUnmerged : ∀ u ∈ r.body.nodes, u.node.isMerged = false
  multiplicities : r.body.HasMultiplicities multiplicity

open Build (Follows)
open Matching

theorem Term.AreHeap.mono {ts : List Term} {n m : Nat} (h : AreHeap n ts) (hm : n ≤ m) : AreHeap m ts :=
  fun a ha hc => ⟨Nat.lt_of_lt_of_le (h a ha hc).1 hm, (h a ha hc).2⟩

section
variable {L : Labelling} {r : Rule} {s : Term} {n n' : Nat} {σs : List Substitution} {σ : Substitution}

/-- The bindings of a match make instances of the terms of the rule. -/
theorem follows_apply_of_matchAll (hs : L.IsSubject s) (hn : Term.AreHeap n [r.body, r.right, s])
    (hrun : matchAll r.left s n = (.ok σs, n')) (hσ : σ ∈ σs) :
    ∀ t : Term, t.nodes ⊆ [r.body, r.right, s].flatMap Term.nodes → ∀ k, n' ≤ k →
      Follows k (fun _ u v => u == v) (σ.apply t) (σ.instantiate t) := by
  have hsub : s.nodes ⊆ [r.body, r.right, s].flatMap Term.nodes := fun u hu =>
    List.mem_flatMap.mpr ⟨s, by simp, hu⟩
  have htouch : σ.touches s = false := by
    rw [Substitution.touches, (Term.isGround_iff_vars s).mp hs.isGround]
    rfl
  have hpasses : PassesOn n (Substitution.IsApart σ [r.body, r.right, s]) fun _ => True :=
    .of_kept (Substitution.isApart_kept hn) Substitution.IsApart.child
  obtain ⟨hle, hapart⟩ := matchAll_passesOn hpasses (p := r.left)
    (Substitution.isApart_of_not_touches hn hsub htouch) σs n' hrun
  intro t ht k hk
  exact (Substitution.follows_apply (hn.mono hle) (fun v u hu => (hapart σ hσ v u hu).1) t ht k hk).mono
    fun _ _ _ _ h => h.2

end

/-- A step of one of several threads, which is left alone but for its program. -/
def threadStep : Term :=
  let x : Term := ⟨⟨1, false⟩, .var ⟨"X", .kItem, 0⟩⟩
  let done : Term := ⟨⟨2, false⟩, .app (.const "done") [x] .kItem⟩
  let step : Term := ⟨⟨3, false⟩, .rewrite x done⟩
  let id : Term := ⟨⟨4, false⟩, .var ⟨"I", .int, 0⟩⟩
  let thread : Term := ⟨⟨5, false⟩, .cells [⟨"id", .one, id⟩, ⟨"k", .one, step⟩] []⟩
  ⟨⟨6, false⟩, .cells [⟨"thread", .any, thread⟩] [⟨"Rest", .bag, 0⟩]⟩

/-- Two threads. -/
def twoThreads : Build Term := do
  let thread (id : Int) (k : String) : Build Term :=
    CellParts.build { cells := [⟨"id", .one, .int id⟩, ⟨"k", .one, .constant k⟩] }
  CellParts.build { cells := [⟨"thread", .any, ← thread 1 "a"⟩, ⟨"thread", .any, ← thread 2 "b"⟩] }

/-- Everything is an item, and there is any number of threads. -/
def threads : Labelling where
  sort _ := .kItem
  frozen := .kItem
  multiplicity l := if l = "thread" then .any else .one

set_option maxRecDepth 100000

/-- Whether the rule steps either thread of a subject that may be walked along. -/
def stepsThreads (r : Rule) (s : Term) : Bool :=
  (Misplacement.of? [] r).isNone && r.body.isLifted && (r.body.nodes.all fun u => !u.node.isMerged) &&
    decide (threads.IsPattern r.left) && decide (threads.IsSubject s) &&
    decide (Term.AreHeap 40 [r.body, r.right, s]) && match matchAll r.left s 40 with
      | (.ok σs, n') => σs.length == 2 && σs.all fun σ => ((buildResult 0 r r.body s σ).result? n').isSome
      | _ => false

/-- A rewrite in one cell, and in another one a map of a single entry that is left alone. -/
def besideEntry : Build Rule := do
  let x ← Term.var { name := "X", sort := .int }
  let y ← Term.var { name := "Y", sort := .int }
  let env ← MapParts.build { ops := .map, entries := [(x, y)] }
  let body ← CellParts.build
    { cells := [⟨"env", .one, env⟩, ⟨"k", .one, ← Term.rewrite (.constant "a") (.constant "b")⟩] }
  Rule.assemble .regular {} body [] [] []

/-- Cells to match, where the map has an empty set as its part. -/
def besideEmptySet : Build Term := do
  let empty ← SetParts.build { ops := .set }
  let env ← MapParts.build { ops := .map, entries := [(.int 1, .int 2)], base := [empty] }
  CellParts.build { cells := [⟨"env", .one, env⟩, ⟨"k", .one, .constant "a"⟩] }

end RuleCompiler
