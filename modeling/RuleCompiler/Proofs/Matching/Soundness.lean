import RuleCompiler.Proofs.Matching.Collections
import RuleCompiler.Proofs.Matching.Entries
import RuleCompiler.Proofs.Matching.Instances

/-! # Soundness of matching

What a match binds makes the pattern the subject. -/

namespace RuleCompiler.Matching

variable {L : Labelling} {σ : Substitution} {p s : Term}

/-! ### One level -/

/-- An application of a frozen label is read as one of the label that this is read as. -/
theorem reads_freezer {f g : Term} {ps ss : List Term} {k : SortName}
    (hn : p.node = .app (.freezer f) ps k) (hs : s.node = .app (.freezer g) ss k)
    (hground : p.isGround = false) (hf : Reads σ f g) (h : List.Forall₂ (Reads σ) ps ss) :
    Reads σ p s := by
  refine reads_node (g :: ss) [] hn hground rfl rfl (.cons hf h) .nil fun cs' fs' hcs _ => ?_
  cases hcs with
  | @cons g' _ ss' _ hg hss =>
  rw [Term.rebuild_freezer hn]
  refine (Term.always_new _).mono fun u hu => Term.beq_of_alike ?_
  rw [hu, hs]
  exact .freezer hg hss

/-- Pattern and subject that fit are read. -/
theorem readable_of_fits (h : Fits (Readable L) σ p s) (hcompared : isCompared p → p == s) :
    Readable L σ p s := by
  intro hσ hpat hsub
  by_cases hground : p.isGround
  · exact .ground hground (hcompared (hpat.isCompared hground))
  rw [Bool.not_eq_true] at hground
  have hfits := hpat.fits hground
  have hfits' := hsub.fits
  cases h with
  | same hp h => exact .ground hp h
  | var hn h => exact .var hn (.of_bound (hpat.named_of_var hn) h)
  | rewrite hn _ =>
    have hnode := hpat.node
    simp [Labelling.isPatternNode, Term.isRewrite, hn] at hnode
  | disjunction hn _ _ =>
    have hnode := hpat.node
    simp [Labelling.isPatternNode, Term.isDisjunction, hn] at hnode
  | @app l ps ss ks kp hn hs h =>
    rw [hn] at hfits
    rw [hs] at hfits'
    simp only [Labelling.fits, decide_eq_true_eq] at hfits hfits'
    subst hfits hfits'
    exact reads_app hn hs (Readable.all hσ h (fun c hc => hpat.child (by rwa [Term.children, hn]))
      fun t ht => hsub.child (by rwa [Term.children, hs]))
  | @freezer f g ps ss ks kp hn hs hf h =>
    rw [hn] at hfits
    rw [hs] at hfits'
    simp only [Labelling.fits, decide_eq_true_eq] at hfits hfits'
    subst hfits hfits'
    have hchild {c : Term} (hc : c ∈ f :: ps) : L.IsPattern c :=
      hpat.child (by rwa [Term.children, hn])
    have hchild' {t : Term} (ht : t ∈ g :: ss) : L.IsSubject t :=
      hsub.child (by rwa [Term.children, hs])
    exact reads_freezer hn hs hground (hf hσ (hchild List.mem_cons_self) (hchild' List.mem_cons_self))
      (Readable.all hσ h (fun c hc => hchild (List.mem_cons_of_mem f hc))
        fun t ht => hchild' (List.mem_cons_of_mem g ht))
  | sequence hn h => exact reads_of_sequence hn hground hσ hpat hsub h
  | list hn hs ho h => exact reads_of_list hn hs ho hground hσ hpat hsub h
  | map hn hs h => exact reads_of_entries hn hs hground hσ hpat hsub h
  | set hn hs h => exact reads_of_elements hn hs hground hσ hpat hsub h
  | cells hn hs h => exact reads_of_cells hn hs hground hσ hpat hsub h

/-! ### The whole match -/

theorem readable_stable : Stable (Readable L) :=
  fun _ _ _ _ hτ h hσ hp hs => (h (hσ.mono hτ) hp hs).mono hτ

theorem matchAll_readable (L : Labelling) (p s : Term) :
    Returns (fun σs => ∀ σ ∈ σs, Readable L σ p s) (matchAll p s) :=
  matchAll_induction_compared readable_stable (fun _ _ _ => readable_of_fits) p s

/-- Every node is numbered below `n`, and no ground node of the pattern and no node of the subject has
the number of a node of the pattern with variables. -/
def NumberedApart (p s : Term) (n : Nat) : Prop :=
  (p.everyNode fun u => u.mark.id < n && (!u.isGround || u.isCanonical || !p.opens u.mark.id)) ∧
    s.everyNode fun u => u.mark.id < n && (u.isCanonical || !p.opens u.mark.id)

instance (p s : Term) (n : Nat) : Decidable (NumberedApart p s n) :=
  inferInstanceAs (Decidable (_ = true ∧ _ = true))

namespace NumberedApart
variable {n : Nat}

theorem lt_of_opens (h : NumberedApart p s n) {i : Nat} (hi : p.opens i) : i < n := by
  by_contra hno
  have hnone : p.opens i = false := Term.anyNode_of_everyNode h.1 fun u hu => by
    simp only [Bool.and_eq_true, decide_eq_true_eq] at hu
    rw [Bool.and_eq_false_iff]
    exact .inr (beq_false_of_ne (by omega))
  rw [hi] at hnone
  cases hnone

theorem foreign_subject (h : NumberedApart p s n) (hs : L.IsSubject s) : Term.Foreign p n s := by
  refine Term.everyNode_mono (Term.everyNode_and hs h.2) fun u hu => ?_
  simp only [Labelling.isSubjectNode, Term.isForeign, Bool.and_eq_true, Bool.or_eq_true] at hu ⊢
  obtain ⟨⟨⟨⟨⟨-, hvar⟩, hrewrite⟩, hdisjunction⟩, -⟩, hlt, hapart⟩ := hu
  exact ⟨⟨⟨hvar, hrewrite⟩, hdisjunction⟩, hapart.imp_right fun h => ⟨hlt, h⟩⟩

theorem foreign_ground (h : NumberedApart p s n) (hp : L.IsPattern p) :
    p.everyNode fun u => !u.isGround || Term.isForeign p n u := by
  refine Term.everyNode_mono (Term.everyNode_and hp h.1) fun u hu => ?_
  cases hground : u.isGround with
  | false => rfl
  | true =>
    simp only [Labelling.isPatternNode, Term.isForeign, Bool.and_eq_true, Bool.or_eq_true, hground,
      Bool.not_true, Bool.false_or] at hu ⊢
    obtain ⟨⟨⟨hrewrite, hdisjunction⟩, -⟩, hlt, hapart⟩ := hu
    have hvar : u.isVar = false := (Term.isGround_iff.mp hground).1
    exact ⟨⟨⟨by rw [hvar]; rfl, hrewrite⟩, hdisjunction⟩, hapart.imp_right fun h => ⟨hlt, h⟩⟩

end NumberedApart

/-- A configuration with every kind of collection, each of them cut where a variable may stand. -/
def configuration (x y tail items store seen others : Build Term) : Build Term := do
  let list ← (← ListParts.concat { ops := .list, left := [← y] } (← items)).build
  let k ← Term.sequence [← Term.app (.const "push") [← x, list], ← tail]
  let env ← (MapParts.concat (MapParts.put { ops := .map } (← x) (← y)) (← store)).build
  let set ← (SetParts.concat (SetParts.add { ops := .set } (← x)) (← seen)).build
  Term.cellsFrom [⟨"k", .one, k⟩, ⟨"env", .one, env⟩, ⟨"seen", .one, set⟩] [← others]

/-- A pattern with variables in every collection, and a ground instance of it. -/
def configurations : Build (Term × Term) := do
  let var (name : String) (sort : SortName) : Build Term := Term.var { name, sort }
  let term (label : String) : Build Term := return .constant label
  let pattern ← configuration (var "X" .kItem) (var "Y" .kItem) (var "R" .k) (var "L" .list)
    (var "M" .map) (var "S" .set) (var "Rest" .bag)
  let subject ← configuration (term "a") (term "b") (Term.sequence [.constant "c", .constant "d"])
    (ListParts.build { ops := .list, left := [.constant "c"] })
    (MapParts.build { ops := .map, entries := [(.constant "c", .constant "d")] })
    (SetParts.build { ops := .set, elements := [.constant "c"] })
    (CellParts.build { cells := [⟨"out", .one, .constant "d"⟩] })
  return (pattern, subject)

/-- The unit of lists is a list, everything else an item, and every cell occurs once. -/
def labelling : Labelling where
  sort l := if l = CollectionOps.list.unit then .list else .kItem
  frozen := .kItem
  multiplicity _ := .one

set_option maxRecDepth 100000

/-- Whether the two configurations are a pattern and a subject, and match in one way. -/
def configurationsMatch : Bool :=
  match configurations 1 with
  | (.ok (p, s), n) => decide (labelling.IsPattern p) && decide (labelling.IsSubject s) &&
    decide (NumberedApart p s n) && match matchAll p s n with
      | (.ok [_], _) => true
      | _ => false
  | _ => false

/-- A list wrapper that is not the one of `List`. -/
def otherList : CollectionOps := ⟨⟨"OtherList"⟩, "_OtherList_", ".OtherList", some "OtherItem"⟩

/-- A list of `a` and of whatever another list is, and the list of `a` and `b`. -/
def otherListAsPart : Build (Term × Term) := do
  let items : ListParts := { ops := .list, left := [.constant "a"] }
  let x ← Term.var { name := "X", sort := .kItem }
  let pattern ← (← items.concat (← ListParts.build { ops := otherList, left := [x] })).build
  let subject ← (items.addItem (.constant "b")).build
  return (pattern, subject)

end RuleCompiler.Matching
