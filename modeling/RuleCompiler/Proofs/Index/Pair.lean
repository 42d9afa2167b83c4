import RuleCompiler.Proofs.Index.Table
import RuleCompiler.Proofs.Matching.Fits
import RuleCompiler.Proofs.Term.Equality
import RuleCompiler.Proofs.Term.Tidy

/-! # Index pairs of pattern and subject

Whatever matches has compatible pairs, with two exceptions that the index does not see. A frozen
application is told by its first hole, so the subject may have one hole at most. And a list of a
user operator takes any other term for its only operand, so it must not be filed against a
sequence or a group of cells, which have two positions of their own. -/

namespace RuleCompiler

/-! ### Indices and pairs by node -/

namespace Index
variable {builtin : List SortName}

theorem ofTerm_eq (t : Term) : ofTerm builtin t = match t.node with
    | .app (.const l) .. => label l
    | .app (.freezer f) .. => match f.frozenHole? with
      | some (l, hole) => frozen l hole
      | none => top
    | .token s _ => if builtin.contains s then token s else top
    | .rewrite l _ => ofTerm builtin l
    | _ => top := by
  rw [ofTerm, Term.fold_eq, ← ofTerm, Term.children]
  cases t.node with
  | app l as s => cases l <;> rfl
  | _ => rfl

end Index

namespace IndexPair

/-- A pair of which the second position says that nothing, or anything, stands there. -/
def IsSingle (p : IndexPair) : Prop := p = top ∨ p.second = .bottom

theorem compatible_top (p : IndexPair) : p.compatible top :=
  compatible_iff.mpr ⟨Index.compatible_top _, Index.compatible_top _⟩

theorem top_compatible (p : IndexPair) : top.compatible p :=
  compatible_iff.mpr ⟨Index.top_compatible _, Index.top_compatible _⟩

theorem compatible_refl (p : IndexPair) : p.compatible p :=
  compatible_iff.mpr ⟨Index.compatible_iff.mpr (.inr (.inr rfl)),
    Index.compatible_iff.mpr (.inr (.inr rfl))⟩

/-- Single positions are compatible when their indices are. -/
theorem IsSingle.compatible {p q : IndexPair} (hp : p.IsSingle) (hq : q.IsSingle)
    (h : p.first.compatible q.first) : p.compatible q := by
  rcases hp with rfl | hp
  · exact top_compatible q
  · rcases hq with rfl | hq
    · exact compatible_top p
    · refine compatible_iff.mpr ⟨h, ?_⟩
      rw [hp, hq]
      rfl

end IndexPair

namespace IndexSettings
open IndexPair

variable (settings : IndexSettings)

/-- The pair of a term that is one position. -/
def single (t : Term) : IndexPair :=
  if isSegment t || t.asVar?.any (·.sort == .kItem) then .top else ⟨settings.index t, .bottom⟩

theorem pairOf_eq (t : Term) : settings.pairOf t = match t.node with
    | .rewrite l _ => settings.pairOf l
    | .seq items frame =>
      let known := items.takeWhile (!isSegment ·)
      ofPositions (known.map settings.index) (frame.isSome || known.length < items.length)
    | .cells cs frames =>
      if frames.isEmpty then ofPositions (cs.map fun c => .label c.label) false else top
    | _ => settings.single t := by
  rw [pairOf, Term.fold_eq, ← pairOf, Term.children]
  cases t.node <;> rfl

theorem isSingle_single (t : Term) : (settings.single t).IsSingle := by
  unfold single
  split
  · exact .inl rfl
  · exact .inr rfl

theorem first_single {t : Term} {i : Index} (h : i.compatible (settings.index t)) :
    i.compatible (settings.single t).first := by
  unfold single
  split
  · exact Index.compatible_top i
  · exact h

end IndexSettings

namespace Term

/-- Whether the term, or the left side of it, is a list of a user operator. -/
def isOperatorList : Term → Bool :=
  fold fun t below => match t.node, below with
    | .rewrite .., left :: _ => left
    | .list ops .., _ => ops.isOperator
    | _, _ => false

/-- Whether the term, or the left side of it, is a sequence or a group of cells. -/
def isRun : Term → Bool :=
  fold fun t below => match t.node, below with
    | .rewrite .., left :: _ => left
    | .seq .., _ | .cells .., _ => true
    | _, _ => false

theorem isOperatorList_eq (t : Term) : t.isOperatorList = match t.node with
    | .rewrite l _ => l.isOperatorList
    | .list ops .. => ops.isOperator
    | _ => false := by
  rw [isOperatorList, fold_eq, ← isOperatorList, children]
  cases t.node <;> rfl

theorem isRun_eq (t : Term) : t.isRun = match t.node with
    | .rewrite l _ => l.isRun
    | .seq .. | .cells .. => true
    | _ => false := by
  rw [isRun, fold_eq, ← isRun, children]
  cases t.node <;> rfl

/-- The holes among the arguments of a frozen application. -/
def frozenHoles (t : Term) : List Term := t.children.filter (·.isHole)

/-- Whether every frozen application has one hole at most. -/
def hasSingleHoles : Term → Bool :=
  fold fun t below => (match t.node with
    | .app (.freezer f) .. => f.frozenHoles.length ≤ 1
    | _ => true) && below.all id

theorem hasSingleHoles_iff {t : Term} : t.hasSingleHoles ↔
    (∀ f as s, t.node = .app (.freezer f) as s → f.frozenHoles.length ≤ 1) ∧
      ∀ c ∈ t.children, c.hasSingleHoles := by
  rw [hasSingleHoles, fold_eq, ← hasSingleHoles, Bool.and_eq_true]
  refine and_congr ?_ (by simp)
  cases t.node with
  | app l as s => cases l <;> simp
  | _ => simp

end Term

/-- A term that is no run is one position. -/
theorem IndexSettings.isSingle_pairOf (settings : IndexSettings) {t : Term}
    (h : t.isRun = false) : (settings.pairOf t).IsSingle := by
  induction t using Term.induction with
  | h t ih =>
    rw [Term.isRun_eq] at h
    rw [pairOf_eq]
    have hchild (c : Term) (hc : c ∈ t.node.children) := ih c hc
    cases hn : t.node with
    | rewrite l r =>
      rw [hn] at h hchild
      exact hchild l List.mem_cons_self h
    | seq => rw [hn] at h; cases h
    | cells => rw [hn] at h; cases h
    | _ => exact settings.isSingle_single t

/-- A term that may stand for any number of items may be anything. -/
theorem IndexSettings.pairOf_of_segment (settings : IndexSettings) {t : Term}
    (h : IndexPair.isSegment t) (hrewrite : t.isRewrite = false) (hrun : t.isRun = false) :
    settings.pairOf t = .top := by
  rw [pairOf_eq]
  have hsingle : settings.single t = .top := by rw [single, if_pos (by simp [h])]
  cases hn : t.node with
  | rewrite => rw [Term.isRewrite, hn] at hrewrite; cases hrewrite
  | seq => rw [Term.isRun_eq, hn] at hrun; cases hrun
  | cells => rw [Term.isRun_eq, hn] at hrun; cases hrun
  | _ => exact hsingle

/-! ### Equal terms -/

section Congruence
variable {t u : Term}

theorem Term.frozenHole?_congr (h : t == u) : t.frozenHole? = u.frozenHole? := by
  have h := alike_of_beq h
  unfold frozenHole?
  generalize t.node = m, u.node = n at h
  cases h with
  | app h =>
    dsimp only
    rw [PairedLists.findIdx?_congr (h.imp fun _ _ => isHole_congr)]
  | _ => rfl

theorem Index.ofTerm_congr {builtin : List SortName} (h : t == u) :
    ofTerm builtin t = ofTerm builtin u := by
  induction t using Term.induction generalizing u with
  | h t ih =>
    have h := Term.alike_of_beq h
    have hchild : ∀ c ∈ t.node.children, ∀ {u : Term}, c == u →
      ofTerm builtin c = ofTerm builtin u := ih
    rw [ofTerm_eq, ofTerm_eq]
    generalize t.node = m, u.node = n at h hchild
    cases h with
    | rewrite hl hr => exact hchild _ List.mem_cons_self hl
    | freezer hf h =>
      dsimp only
      rw [Term.frozenHole?_congr hf]
    | _ => rfl

namespace IndexSettings
open IndexPair

theorem isSegment_congr (h : t == u) : isSegment t = isSegment u := by
  rw [isSegment, isSegment, Term.sort_congr h, Term.isVar_congr h]

theorem single_congr (settings : IndexSettings) (h : t == u) :
    settings.single t = settings.single u := by
  rw [single, single, isSegment_congr h, Term.asVar?_congr h, index, Index.ofTerm_congr h]

theorem pairOf_congr (settings : IndexSettings) (h : t == u) :
    settings.pairOf t = settings.pairOf u := by
  induction t using Term.induction generalizing u with
  | h t ih =>
    have hsingle := settings.single_congr h
    have h := Term.alike_of_beq h
    have hchild : ∀ c ∈ t.node.children, ∀ {u : Term}, c == u →
      settings.pairOf c = settings.pairOf u := ih
    rw [pairOf_eq, pairOf_eq]
    generalize t.node = m, u.node = n at h hchild
    cases h with
    | rewrite hl hr => exact hchild _ List.mem_cons_self hl
    | @seq as bs frame h =>
      have hknown := PairedLists.takeWhile (p := (!isSegment ·))
        (fun a b hab => by rw [isSegment_congr hab]) h
      have hindex := PairedLists.map_eq (f := settings.index)
        (hknown.imp fun _ _ => Index.ofTerm_congr)
      dsimp only
      rw [hindex, hknown.length_eq, h.length_eq]
    | cells h =>
      have hlabels := PairedLists.map_eq (f := fun c : Cell => Index.label c.label)
        (h.imp fun _ _ h => congrArg Index.label h.1)
      dsimp only
      rw [hlabels]
    | _ => exact hsingle

end IndexSettings

end Congruence

/-! ### Runs -/

namespace Term

theorem sort_of_isRun {t : Term} (h : t.isRun) : t.sort = .k ∨ t.sort = .bag := by
  induction t using Term.induction with
  | h t ih =>
    have hchild : ∀ c ∈ t.node.children, c.isRun → c.sort = .k ∨ c.sort = .bag := ih
    rw [isRun_eq] at h
    rw [sort_eq]
    cases hn : t.node with
    | rewrite l r =>
      rw [hn] at h hchild
      exact hchild l List.mem_cons_self h
    | seq => exact .inl rfl
    | cells => exact .inr rfl
    | _ => rw [hn] at h; cases h

end Term

namespace IndexSettings
variable (settings : IndexSettings)

theorem index_of_isRun {t : Term} (h : t.isRun) : settings.index t = .top := by
  induction t using Term.induction with
  | h t ih =>
    have hchild : ∀ c ∈ t.node.children, c.isRun → settings.index c = .top := ih
    rw [Term.isRun_eq] at h
    rw [index, Index.ofTerm_eq]
    cases hn : t.node with
    | rewrite l r =>
      rw [hn] at h hchild
      exact hchild l List.mem_cons_self h
    | seq => rfl
    | cells => rfl
    | _ => simp [hn] at h

/-- What is compatible with the index of a term that is no run is so with its first position. -/
theorem first_pairOf {t : Term} (h : t.isRun = false) {i : Index}
    (hi : i.compatible (settings.index t)) : i.compatible (settings.pairOf t).first := by
  induction t using Term.induction with
  | h t ih =>
    have hchild : ∀ c ∈ t.node.children, c.isRun = false → i.compatible (settings.index c) →
      i.compatible (settings.pairOf c).first := ih
    rw [Term.isRun_eq] at h
    rw [pairOf_eq]
    have hsingle := settings.first_single hi
    rw [index, Index.ofTerm_eq] at hi
    cases hn : t.node with
    | rewrite l r =>
      rw [hn] at h hchild hi
      exact hchild l List.mem_cons_self h hi
    | seq => rw [hn] at h; cases h
    | cells => rw [hn] at h; cases h
    | _ => exact hsingle

end IndexSettings

/-! ### Positions -/

namespace IndexPair

/-- The index at a position of a run. -/
def position (indices : List Index) (isOpen : Bool) (i : Nat) : Index :=
  indices[i]?.getD (if isOpen then .top else .bottom)

theorem ofPositions_eq (indices : List Index) (isOpen : Bool) :
    ofPositions indices isOpen = ⟨position indices isOpen 0, position indices isOpen 1⟩ := by
  unfold ofPositions position
  rcases indices with _ | ⟨_, _ | ⟨_, _⟩⟩ <;> rfl

/-- The items before the first segment. -/
def known (items : List Term) : List Term := items.takeWhile (!isSegment ·)

theorem getElem?_of_known {items : List Term} {i : Nat} {t : Term}
    (h : (known items)[i]? = some t) : items[i]? = some t := by
  obtain ⟨rest, hrest⟩ := List.takeWhile_prefix (l := items) (!isSegment ·)
  rw [← hrest, ← h]
  exact List.getElem?_append_left (List.getElem?_eq_some_iff.mp h).1

end IndexPair

namespace IndexSettings
open IndexPair

variable (settings : IndexSettings)

/-- The index at a position of a sequence. -/
def positionOf (items : List Term) (frame : Option Var) (i : Nat) : Index :=
  position ((known items).map settings.index)
    (frame.isSome || (known items).length < items.length) i

theorem pairOf_seq {t : Term} {items : List Term} {frame : Option Var}
    (h : t.node = .seq items frame) :
    settings.pairOf t = ⟨settings.positionOf items frame 0, settings.positionOf items frame 1⟩ := by
  rw [pairOf_eq, h]
  exact ofPositions_eq _ _

/-- A position of a sequence is open, or that of a known item, or past the end. -/
theorem positionOf_cases (items : List Term) (frame : Option Var) (i : Nat) :
    settings.positionOf items frame i = .top ∨
    (∃ t, (known items)[i]? = some t ∧ settings.positionOf items frame i = settings.index t) ∨
    settings.positionOf items frame i = .bottom ∧ items.length ≤ i ∧ frame = none ∧
      (known items).length = items.length := by
  unfold positionOf position
  rw [List.getElem?_map]
  cases hi : (known items)[i]? with
  | some t => exact .inr (.inl ⟨t, rfl, rfl⟩)
  | none =>
    have hlen : (known items).length ≤ items.length := (List.takeWhile_prefix _).length_le
    have hi := List.getElem?_eq_none_iff.mp hi
    cases hopen : frame.isSome || decide ((known items).length < items.length) with
    | true => exact .inl rfl
    | false =>
      rw [Bool.or_eq_false_iff, decide_eq_false_iff_not, Option.isSome_eq_false_iff,
        Option.isNone_iff_eq_none] at hopen
      exact .inr (.inr ⟨rfl, by omega, hopen.1, by omega⟩)

end IndexSettings

end RuleCompiler
