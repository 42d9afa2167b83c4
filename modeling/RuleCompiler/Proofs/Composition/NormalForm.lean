import RuleCompiler.Proofs.Composition.Steps
import RuleCompiler.Proofs.Sharing.Rebuild
import RuleCompiler.Proofs.World

/-! # Built terms and builder normal form

A term in builder normal form is built if its nodes are of the kinds that built terms have. Each of its
collections is made again from its own children, so it is what builders make of its entries. -/

namespace RuleCompiler

open Term (Equal IsBuilt)

namespace Term
variable {C : String → SortName → Prop} {t : Term} {k : Collection}

/-- Whether the node is a variable, a token, an application, a sequence, a list, a set or a rewrite, with
constants as `C` allows them. -/
def IsAdmitted (C : String → SortName → Prop) (t : Term) : Prop :=
  match t.node with
  | .app (.const l) [] s => C l s
  | .seq .. => True
  | .list ops .. => (Collection.list ops).Admits C
  | .set ops .. => (Collection.set ops).Admits C
  | n => n.isSimple

theorem IsAdmitted.cases (h : t.IsAdmitted C) :
    t.node.isSimple ∧ (∀ l s, t.node = .app (.const l) [] s → C l s) ∨ ∃ k, Collection.of? t = some k ∧ k.Admits C := by
  unfold IsAdmitted at h
  split at h
  · rename_i l s hn
    refine .inl ⟨by rw [hn]; rfl, fun l' s' hn' => ?_⟩
    cases hn.symm.trans hn'
    exact h
  · rename_i hn
    exact .inr ⟨.sequence, by rw [Collection.of?, hn], trivial⟩
  · rename_i ops _ _ _ hn
    exact .inr ⟨.list ops, by rw [Collection.of?, hn], h⟩
  · rename_i ops _ _ hn
    exact .inr ⟨.set ops, by rw [Collection.of?, hn], h⟩
  · rename_i hconst _ _ _
    exact .inl ⟨h, fun l s hn => absurd hn (hconst l s)⟩

/-- A collection in normal form without children is what builders make of nothing. -/
theorem beq_whole_of_childless (hk : Collection.of? t = some k) (h : t.isSettled) (hnil : t.children = []) :
    Collection.ownSteps t = [] ∧ t == k.whole [] := by
  rw [isSettled, Bool.and_eq_true] at h
  replace h := h.2
  cases k with
  | sequence =>
    obtain ⟨items, frame, hn⟩ := SequenceParts.node_of_not_isPlain (Collection.of?_eq_sequence.mp hk)
    have hitems : items = [] := by rwa [children, hn] at hnil
    rw [hn] at h
    have hframe : frame = none := (SequenceParts.isProper_iff.mp ((Bool.and_eq_true _ _).mp h).1).2.2.1 hitems
    subst hitems hframe
    refine ⟨?_, beq_of_node_eq hn⟩
    rw [Collection.ownSteps_of_seq hn, sequenceItems, hn]
    rfl
  | list ops =>
    obtain ⟨left, base, right, hn⟩ := node_of_isListOf (Collection.of?_eq_list.mp hk)
    rw [children, hn] at hnil
    simp only [Node.children, List.append_eq_nil_iff] at hnil
    obtain ⟨rfl, rfl, rfl⟩ := hnil
    rw [hn] at h
    have hop : ops.isOperator = false := by simpa [ListParts.isSettled] using h
    have hwhole : listOfEntries ops [] = canonical (.list ops [] [] []) := if_neg (by
      show ¬ops.isOperator
      simp [hop])
    exact ⟨Collection.ownSteps_of_list hn, beq_of_node_eq (hn.trans (congrArg Term.node hwhole).symm)⟩
  | set ops =>
    obtain ⟨es, base, hn⟩ := node_of_isSetOf (Collection.of?_eq_set.mp hk)
    rw [children, hn] at hnil
    simp only [Node.children, List.append_eq_nil_iff] at hnil
    obtain ⟨rfl, rfl⟩ := hnil
    exact ⟨Collection.ownSteps_of_set hn, beq_of_node_eq hn⟩

/-- A collection in normal form is what its own steps bring. -/
theorem beq_whole_of_settled (hk : Collection.of? t = some k) (h : t.everyNode isSettled) (hlone : t.isLone = false)
    (hcontents : ∀ e ∈ Collection.ownSteps t, k.HasContents e.term) :
    t == k.whole ((Collection.ownSteps t).flatMap k.brings) := by
  by_cases hne : t.children = []
  · obtain ⟨hsteps, hwhole⟩ := beq_whole_of_childless hk (everyNode_iff.mp h).1 hne
    rwa [hsteps]
  · -- made again from its own children, it is both itself and what they bring
    have hself : List.Forall₂ Renews t.children t.children := List.forall₂_same.mpr fun c _ => ⟨BEq.refl c, rfl⟩
    have hpassed : List.Forall₂ (Passed t) t.children t.children := List.forall₂_same.mpr fun _ _ => .child
    have hframes : List.Forall₂ (fun v (f : Term) => f.node = .var v) t.frames t.frameTerms :=
      List.forall₂_map_right_iff.mpr (List.forall₂_same.mpr fun _ _ => rfl)
    obtain ⟨u, m, hrun, -, hu⟩ := gives_rebuild h hlone hne hself hpassed hframes 0
    obtain ⟨u', m', hrun', hu'⟩ := Collection.always_rebuild hk rfl hcontents 0
    cases hrun.symm.trans hrun'
    exact BEq.trans (BEq.symm hu.beq) hu'

/-- A lone item is a child of a list of its operator only. -/
theorem exists_lone_item {c : Term} (h : t.isSettled) (hc : c ∈ t.children) (hl : c.isLone) :
    ∃ ops x, c.node = .list ops [x] [] [] ∧ ops.isOperator ∧ Collection.of? t = some (.list ops) := by
  obtain ⟨ops, x, hn, hop⟩ := node_of_isLone hl
  rw [isSettled, Bool.and_eq_true, List.all_eq_true] at h
  have hrun := h.1 c hc
  rw [hl, Bool.not_true, Bool.false_or] at hrun
  split at hrun
  · rename_i hm
    obtain ⟨items, hn', -⟩ := ListParts.node_of_isRun hrun
    cases hn.symm.trans hn'
    exact ⟨ops, x, hn, hop, by rw [Collection.of?, hm]⟩
  · cases hrun

/-- Whether what the entry brings to a collection is kept there and built. -/
def BringsBuilt (C : String → SortName → Prop) (k : Collection) (e : Entry) : Prop :=
  k.HasContents e.term ∧ ∀ f ∈ k.brings e, k.keeps f ∧ IsBuilt C f.term

theorem IsBuilt.bringsBuilt {e : Entry} (h : IsBuilt C e.term) : BringsBuilt C k e :=
  ⟨Collection.hasContents_of_isBuilt h k, h.brings⟩

/-- A lone item between unknown parts is no built term, but brings one. -/
theorem bringsBuilt_of_lone {e : Entry} {ops : CollectionOps} {x : Term} (hn : e.term.node = .list ops [x] [] [])
    (hop : ops.isOperator) (hitem : ListParts.isItem ops x) (hx : IsBuilt C x) : BringsBuilt C (.list ops) e := by
  have hopened : (Collection.list ops).IsOpened e := fun hk => by simp [Collection.isWrapped, hop] at hk
  refine ⟨hasEntries_of_run hn (List.forall_mem_singleton.mpr hitem), ?_⟩
  rw [hopened.brings, Collection.contents_of_run hn]
  exact List.forall_mem_singleton.mpr ⟨hitem, hx⟩

/-- A term in builder normal form is built, if its nodes and constants are admitted. -/
theorem isBuilt_of_isBuilderNormal (h : t.isBuilderNormal) (hnodes : ∀ u ∈ t.nodes, u.IsAdmitted C) : IsBuilt C t := by
  rw [isBuilderNormal, Bool.and_eq_true, Bool.not_eq_true'] at h
  obtain ⟨hlone, hsettled⟩ := h
  -- on the weight, since a lone item is reached through its list
  induction hw : t.weight using Nat.strong_induction_on generalizing t with
  | _ n ih =>
  subst hw
  obtain ⟨hnode, hbelow, -⟩ := everyNode_iff.mp hsettled
  have hchild : ∀ c ∈ t.children, c.isLone = false → IsBuilt C c := fun c hc hl =>
    ih _ (weight_child hc) (fun u hu => hnodes u (nodes_child hc hu)) hl (hbelow c hc) rfl
  rcases (hnodes t t.self_mem_nodes).cases with ⟨hs, hconst⟩ | ⟨k, hk, hC⟩
  · refine .simple hs hconst fun c hc => hchild c hc (Bool.eq_false_iff.mpr fun hl => ?_)
    obtain ⟨_, _, _, _, hk⟩ := exists_lone_item hnode hc hl
    cases (of?_of_simple hs).symm.trans hk
  · have hstep : ∀ e ∈ Collection.ownSteps t, BringsBuilt C k e := by
      intro e he
      rcases List.mem_append.mp (Collection.mem_steps he) with hc | hv
      · cases hl : e.term.isLone with
        | false => exact (hchild _ hc hl).bringsBuilt
        | true =>
          obtain ⟨ops, x, hn, hop, hk'⟩ := exists_lone_item hnode hc hl
          cases hk.symm.trans hk'
          obtain ⟨hitem, hx⟩ := isItem_of_lone (everyNode_iff.mp (hbelow _ hc)).1 hn hop
          have hmem : x ∈ e.term.children := by
            rw [children, hn]
            exact List.mem_cons_self
          refine bringsBuilt_of_lone hn hop hitem (ih _ (Nat.lt_trans (weight_child hmem) (weight_child hc)) ?_ hx
            ((everyNode_iff.mp (hbelow _ hc)).2.1 x hmem) rfl)
          exact fun u hu => hnodes u (nodes_child hc (nodes_child hmem hu))
      · obtain ⟨v, -, hv⟩ := List.mem_map.mp hv
        have hbuilt : IsBuilt C e.term := hv ▸ IsBuilt.var v
        exact hbuilt.bringsBuilt
    refine (IsBuilt.whole hC fun f hf => ?_).congr
      (beq_whole_of_settled hk hsettled hlone fun e he => (hstep e he).1)
    obtain ⟨e, he, hf⟩ := List.mem_flatMap.mp hf
    exact (hstep e he).2 f hf

end Term

end RuleCompiler
