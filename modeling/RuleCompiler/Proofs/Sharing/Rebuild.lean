import RuleCompiler.Proofs.Sharing.Lists

/-! # Nodes of any kind made again -/

namespace RuleCompiler

namespace Term

variable {t : Term} {ds us : List Term}

theorem zipWith_branches {branches : List (Term × RuleSet)} (h : Equal ds (branches.map (·.1))) :
    (branches.zipWith (fun b c => (c, b.2)) ds).map (·.1) = ds ∧
      List.Forall₂ (fun b' b => b'.1 == b.1 ∧ b'.2 = b.2) (branches.zipWith (fun b c => (c, b.2)) ds)
        branches := by
  induction branches generalizing ds with
  | nil =>
    cases h
    exact ⟨rfl, .nil⟩
  | cons b branches ih =>
    rw [List.map_cons] at h
    cases h with
    | cons hd h =>
    obtain ⟨hmap, hbranches⟩ := ih h
    rw [List.zipWith_cons_cons, List.map_cons, hmap]
    exact ⟨rfl, .cons ⟨hd, rfl⟩ hbranches⟩

theorem refill_present {byRule : List (Option Term)} (h : Equal ds (byRule.filterMap id)) :
    (refill byRule ds).filterMap id = ds ∧
      List.Forall₂ (Option.Rel fun a b => a == b) (refill byRule ds) byRule := by
  induction byRule generalizing ds with
  | nil =>
    cases h
    exact ⟨rfl, .nil⟩
  | cons o byRule ih =>
    cases o with
    | none =>
      obtain ⟨hpresent, hrel⟩ := ih h
      rw [refill]
      exact ⟨hpresent, .cons .none hrel⟩
    | some c =>
      cases h with
      | cons hd h =>
      obtain ⟨hpresent, hrel⟩ := ih h
      rw [refill]
      exact ⟨congrArg (List.cons _) hpresent, .cons (.some hd) hrel⟩

/-- A node in normal form is made again from equal children, each editable where the old one is: it is
new, and it has these children. -/
theorem gives_rebuild {fs : List Term} (ht : t.everyNode isSettled) (hlone : t.isLone = false)
    (hne : t.children ≠ []) (hds : List.Forall₂ Renews ds t.children) (hus : List.Forall₂ (Passed t) ds us)
    (hfs : List.Forall₂ (fun v f => f.node = .var v) t.frames fs) (k : Nat) :
    Build.Gives k (Rebuilt t ds k) (t.rebuild us fs) := by
  obtain ⟨hnode, hbelow, -⟩ := everyNode_iff.mp ht
  rw [isSettled, Bool.and_eq_true] at hnode
  replace hnode := hnode.2
  have hequal : Equal ds t.children := hds.imp fun _ _ h => h.beq
  by_cases hlist : ∃ ops left base right, t.node = .list ops left base right
  · obtain ⟨ops, left, base, right, hn⟩ := hlist
    rw [hn] at hnode
    refine ListParts.gives_rebuild hn hnode hlone (fun b hb hrun c hc => ?_) hne hds hus k
    obtain ⟨items, hbn, -⟩ := ListParts.node_of_isRun hrun
    have hb' : b ∈ t.children := by
      rw [children, hn]
      exact List.mem_append_right _ (List.mem_append_left _ hb)
    have hsettled := (everyNode_iff.mp (hbelow b hb')).1
    rw [isSettled, Bool.and_eq_true, hbn] at hsettled
    have hitems : (items ++ []).all (ListParts.isItem ops) := ((Bool.and_eq_true _ _).mp hsettled.2).1
    rw [children, hbn] at hc
    exact List.all_eq_true.mp hitems c (by simpa [Node.children] using hc)
  · push Not at hlist
    obtain rfl := eq_of_passed hlist hus
    cases hn : t.node with
    | app label args s =>
      rw [children, hn] at hequal hne
      cases label with
      | const l =>
        have hus_ne : us ≠ [] := fun h => hne (List.eq_nil_of_length_eq_zero (by
          rw [← hequal.length_eq, h, List.length_nil]))
        rw [rebuild_app hn]
        refine gives_rebuilt_new ?_ (hn ▸ .app hequal) rfl k
        obtain ⟨c, cs, rfl⟩ := List.exists_cons_of_ne_nil hus_ne
        rfl
      | freezer f =>
        cases hequal with
        | cons hf hargs =>
        rw [rebuild_freezer hn]
        exact gives_rebuilt_new rfl (hn ▸ .freezer hf hargs) rfl k
    | seq items frame =>
      rw [hn] at hnode
      rw [children, hn] at hne
      exact SequenceParts.gives_rebuild hn hnode hne hds hfs k
    | list ops left base right => exact absurd hn (hlist _ _ _ _)
    | map ops entries base =>
      rw [hn] at hnode
      exact MapParts.gives_rebuild hn hnode hequal k
    | set ops elements base =>
      rw [hn] at hnode
      exact SetParts.gives_rebuild hn hnode hequal k
    | cells cs frames =>
      rw [hn] at hnode
      exact CellParts.gives_rebuild hn hnode hequal hfs k
    | rewrite l r =>
      rw [children, hn] at hequal
      cases hequal with
      | cons hl h =>
      cases h with
      | cons hr h =>
      cases h
      unfold rebuild
      rw [hn]
      exact gives_rebuilt_new rfl (hn ▸ .rewrite hl hr) rfl k
    | disjunction branches =>
      rw [children, hn] at hequal
      obtain ⟨hmap, hbranches⟩ := zipWith_branches hequal
      unfold rebuild
      rw [hn]
      exact gives_rebuilt_new rfl (hn ▸ .disjunction hbranches) (by exact hmap) k
    | rightSides byRule =>
      rw [children, hn] at hequal
      obtain ⟨hpresent, hrel⟩ := refill_present hequal
      unfold rebuild
      rw [hn]
      exact gives_rebuilt_new rfl (hn ▸ .rightSides hrel) (by exact hpresent) k
    | _ =>
      rw [children, hn] at hne
      exact absurd rfl hne

/-- The lone item of a list is an item of it, and no lone item itself. -/
theorem isItem_of_lone {ops : CollectionOps} {x : Term} (h : t.isSettled) (hn : t.node = .list ops [x] [] [])
    (hop : ops.isOperator) : ListParts.isItem ops x ∧ x.isLone = false := by
  rw [isSettled, Bool.and_eq_true, List.all_eq_true, hn] at h
  obtain ⟨hlones, hitems⟩ := h
  have hitem : ListParts.isItem ops x := by
    simp only [ListParts.isSettled, List.append_nil, List.all_cons, List.all_nil, Bool.and_true,
      Bool.and_eq_true] at hitems
    exact hitems.1
  have hpart : ListParts.isPart ops x := by
    simp only [ListParts.isItem, hop, Bool.not_true, Bool.false_or, Bool.and_eq_true] at hitem
    exact hitem.1
  have hl := hlones x (by
    rw [children, hn]
    exact List.mem_cons_self)
  exact ⟨hitem, by simpa [ListParts.isRun_of_isPart hpart] using hl⟩

/-- A list with a lone item is made again as what its item has become. -/
theorem rebuild_lone {ops : CollectionOps} {c u : Term} {fs : List Term} (hn : t.node = .list ops [c] [] [])
    (hop : ops.isOperator) (hitem : ListParts.isItem ops u) : t.rebuild [u] fs = pure u := by
  have hrebuild : t.rebuild ([u] ++ ([] ++ [])) fs = _ := ListParts.rebuild_eq hn rfl rfl
  rw [List.append_nil, List.append_nil] at hrebuild
  have hadd : [u].foldlM (ListParts.addPart ops) { ops } = pure ([u].foldl ListParts.addItem { ops }) :=
    ListParts.foldlM_addPart_items (by simpa using hitem) rfl
  rw [hrebuild, hadd, pure_bind, List.foldlM_nil, pure_bind, List.foldlM_nil, pure_bind]
  simp [ListParts.addItem, ListParts.build, hop]

end Term

end RuleCompiler
