import RuleCompiler.Proofs.Matching.Cells
import RuleCompiler.Proofs.Matching.Complete.Entries
import RuleCompiler.Proofs.Matching.Complete.Items

/-! # One level of a match finds what lands -/

namespace RuleCompiler.Matching

open Build (Always)

variable {σ : Substitution} {go deeper : Matcher} {p s : Term} {st : MatchState}

/-- The matchers find parts of the pattern in terms no larger than the subject, and wherever they are
variables, and any pattern in smaller subjects. -/
structure FindsBelow (σ : Substitution) (go deeper : Matcher) (p s : Term) : Prop where
  part : ∀ {c t : Term}, c.size < p.size → c.IsMatchable → t.IsData → c.isVar ∨ t.size ≤ s.size →
    FindsAt σ go c t
  deeper : ∀ {q t : Term}, q.IsMatchable → t.IsData → t.size < s.size → FindsAt σ deeper q t

theorem FindsBelow.child (h : FindsBelow σ go deeper p s) (hp : p.IsMatchable) (hs : s.IsData)
    {c t : Term} (hc : c ∈ p.children) (ht : t ∈ s.children) : FindsAt σ go c t :=
  h.part (Term.size_child hc) (hp.child hc) (hs.child ht) (.inr (Nat.le_of_lt (Term.size_child ht)))

theorem FindsBelow.variable (h : FindsBelow σ go deeper p s) (hp : p.IsMatchable) {c : Term}
    (hc : c ∈ p.children) (hvar : c.isVar) : ∀ t : Term, t.IsData → FindsAt σ go c t :=
  fun _ ht => h.part (Term.size_child hc) (hp.child hc) ht (.inl hvar)

theorem vars_of_node {n : Node Term} (hn : p.node = n) (hvar : n.isVar = false) :
    p.vars = n.children.flatMap Term.vars ++ n.frames := by
  subst hn
  rw [Term.vars_eq]
  split
  · rename_i hn
    rw [hn] at hvar
    cases hvar
  · rfl

/-- A ground pattern is found where it equals the subject. -/
theorem node_found_ground (hp : isCompared p) (hst : Stored st) :
    Always (node go deeper p s st) (Found σ (Lands σ p s) p.vars st) := by
  have hground := isGround_of_isCompared hp
  rw [node_compares hp, (Term.isGround_iff_vars p).mp hground]
  exact .pure (found_if hst fun h => h.beq_of_isGround hground)

/-- A variable is found where it stands for the subject. -/
theorem node_found_var {v : Var} (hn : p.node = .var v) (hp : p.IsMatchable) (hs : s.IsData)
    (hst : Stored st) : Always (node go deeper p s st) (Found σ (Lands σ p s) p.vars st) := by
  have hground : ¬p.isGround := fun hg => Term.not_isVar_of_isGround hg hn
  have hvars : p.vars = [v] := by rw [Term.vars_eq, hn]
  rw [node_var hground hn, hvars]
  exact .pure ((bind_found (hp.named_of_var hn) hs hst).imp (fun _ h => h.names hn) fun _ _ => .inr)

section Level
variable (hσ : HoldsData σ) (hp : p.IsMatchable) (hs : s.IsData) (hground : p.isGround = false)
  (hbelow : FindsBelow σ go deeper p s) (hst : Stored st)
include hp hs hbelow hst

theorem app_found {l l' : String} {ps ss : List Term} {k k' : SortName}
    (hn : p.node = .app (.const l) ps k) (hn' : s.node = .app (.const l') ss k') :
    Always (if l = l' && ps.length = ss.length then pairs go (ps.zip ss) [st] else pure [])
      (Found σ (Lands σ p s) p.vars st) := by
  have hargs (h : Lands σ p s) : l = l' ∧ List.Forall₂ (Lands σ) ps ss := by
    obtain ⟨ss', hs', h⟩ := h.exists_app hn
    rw [hn'] at hs'
    cases hs'
    exact ⟨rfl, h⟩
  split
  · refine (pairs_zip (fun c hc t ht => hbelow.child hp hs ?_ ?_) hst).mono fun _ h =>
      h.imp (fun _ hX => (hargs hX).2) fun _ v hv => .inr ?_
    · rwa [Term.children, hn]
    · rwa [Term.children, hn']
    · rw [vars_of_node hn rfl] at hv
      simpa [Node.children, Node.frames] using hv
  · rename_i hne
    refine .pure (found_none fun _ hX => hne ?_)
    obtain ⟨hl, h⟩ := hargs hX
    simp [hl, h.length_eq]

include hground

theorem freezer_found {f g : Term} {ps ss : List Term} {k k' : SortName}
    (hn : p.node = .app (.freezer f) ps k) (hn' : s.node = .app (.freezer g) ss k') :
    Always (if ps.length = ss.length then do
        (← go f g st).flatMapM fun st => pairs go (ps.zip ss) [st] else pure [])
      (Found σ (Lands σ p s) p.vars st) := by
  have hargs (h : Lands σ p s) : Lands σ f g ∧ List.Forall₂ (Lands σ) ps ss := by
    cases h with
    | ground hp' => rw [hground] at hp'; cases hp'
    | freezer _ hm hm' hf h =>
      rw [hn] at hm
      rw [hn'] at hm'
      cases hm
      cases hm'
      exact ⟨hf, h⟩
    | var hm | _ _ hm => rw [hn] at hm; cases hm
  have hchild {c : Term} (hc : c ∈ f :: ps) : c ∈ p.children := by rwa [Term.children, hn]
  have hchild' {t : Term} (ht : t ∈ g :: ss) : t ∈ s.children := by rwa [Term.children, hn']
  split
  · have hfg := hbelow.child hp hs (hchild List.mem_cons_self) (hchild' List.mem_cons_self)
    refine (hfg st hst).bind fun sts hsts => ?_
    refine (hsts.next fun st' _ hst' => pairs_zip (fun c hc t ht =>
      hbelow.child hp hs (hchild (List.mem_cons_of_mem f hc)) (hchild' (List.mem_cons_of_mem g ht)))
        hst').mono fun _ h => h.imp (fun _ hX => hargs hX) fun _ v hv => .inr ?_
    rw [vars_of_node hn rfl] at hv
    simpa [Node.children, Node.frames] using hv
  · rename_i hne
    exact .pure (found_none fun _ hX => hne (hargs hX).2.length_eq)

theorem list_node_found {ops : CollectionOps} {left base right left' base' right' : List Term}
    (hn : p.node = .list ops left base right) (hn' : s.node = .list ops left' base' right') :
    Always (list go { ops, left, base, right } { ops, left := left', base := base', right := right' } st)
      (Found σ (Lands σ p s) p.vars st) := by
  obtain ⟨rfl, rfl⟩ := hs.list_eq hn'
  have hnode := hp.node hground
  rw [hn] at hnode
  simp only [Node.isMatchable, Bool.and_eq_true, Bool.not_eq_true', List.all_eq_true,
    Bool.or_eq_true] at hnode
  obtain ⟨hop, hbases⟩ := hnode
  have hchild {c : Term} (hc : c ∈ left ++ (base ++ right)) : c ∈ p.children := by
    rwa [Term.children, hn]
  have hchild' {t : Term} (ht : t ∈ left') : t ∈ s.children := by
    rw [Term.children, hn']
    exact List.mem_append_left _ ht
  refine (list_found hop (fun c hc t ht => ?_) (fun b hb => ?_) (fun t ht => hs.child (hchild' ht))
    hst).mono fun _ h => h.imp (fun _ hX => ?_) fun _ v hv => .inr ?_
  · refine hbelow.child hp hs (hchild ?_) (hchild' ht)
    simp only [List.mem_append] at hc ⊢
    tauto
  · have hb' : b ∈ p.children := hchild (List.mem_append_right _ (List.mem_append_left _ hb))
    refine (hbases b hb).imp (fun hvar => ⟨hvar, hbelow.variable hp hb' hvar⟩) fun hrun =>
      ⟨hrun, fun c hc t ht => ?_⟩
    exact hbelow.part (Nat.lt_trans (Term.size_child hc) (Term.size_child hb')) ((hp.child hb').child hc)
      (hs.child (hchild' ht)) (.inr (Nat.le_of_lt (Term.size_child (hchild' ht))))
  · cases hX with
    | ground hp' => rw [hground] at hp'; cases hp'
    | list _ hm hm' hl hb hruns hr =>
      rw [hn] at hm
      rw [hn'] at hm'
      cases hm
      cases hm'
      exact ⟨_, _, _, rfl, hl, ⟨_, _, hb, hruns, rfl⟩, hr⟩
    | var hm | _ _ hm => rw [hn] at hm; cases hm
  · rw [vars_of_node hn rfl] at hv
    simpa [Node.children, Node.frames] using hv

/-- A subject that is no list of the collection is none of its lists. -/
theorem list_view_found {ops : CollectionOps} {left base right : List Term}
    (hn : p.node = .list ops left base right) :
    Always (match (match s.node with
        | .list ops left base right => some { ops, left, base, right : ListParts }
        | _ => operandsOf? ops s) with
      | some s => if s.ops = ops then list go { ops, left, base, right } s st else pure []
      | none => pure []) (Found σ (Lands σ p s) p.vars st) := by
  have hop : ops.isOperator = false := by
    have hnode := hp.node hground
    rw [hn] at hnode
    simp only [Node.isMatchable, Bool.and_eq_true, Bool.not_eq_true'] at hnode
    exact hnode.1
  have hview (h : Lands σ p s) : ∃ items, s.node = .list ops items [] [] := by
    cases h with
    | ground hp' => rw [hground] at hp'; cases hp'
    | list _ hm hm' => rw [hn] at hm; cases hm; exact ⟨_, hm'⟩
    | var hm | _ _ hm => rw [hn] at hm; cases hm
  split
  · rename_i parts hparts
    split at hparts
    · rename_i hn'
      cases hparts
      split
      · rename_i hops
        cases hops
        exact list_node_found hp hs hground hbelow hst hn hn'
      · rename_i hops
        refine .pure (found_none fun _ hX => hops ?_)
        obtain ⟨items, hm⟩ := hview hX
        rw [hn'] at hm
        cases hm
        rfl
    · rw [operandsOf?, hop] at hparts
      cases hparts
  · rename_i hparts
    refine .pure (found_none fun _ hX => ?_)
    obtain ⟨items, hm⟩ := hview hX
    rw [hm] at hparts
    cases hparts

include hσ

theorem seq_found {items : List Term} {frame : Option Var} (hn : p.node = .seq items frame) :
    Always (sequence go frame none items s.items st) (Found σ (Lands σ p s) p.vars st) := by
  have hnode := hp.node hground
  rw [hn] at hnode
  simp only [Node.isMatchable, List.all_eq_true] at hnode
  have hchild {c : Term} (hc : c ∈ items) : c ∈ p.children := by rwa [Term.children, hn]
  refine (sequence_found hσ (fun v hv => hp.named_of_frame ?_) (fun c hc => ⟨hp.child (hchild hc), ?_⟩)
    (fun c hc t ht => ?_) hs.items hst).mono fun _ h => h.imp (fun _ hX => ?_) fun _ v hv => .inr ?_
  · rw [Term.frames, hn]
    exact Option.mem_toList.mpr hv
  · intro its f hc'
    have hitem := hnode c hc
    rw [hc'] at hitem
    cases hitem
  · exact hbelow.part (Term.size_child (hchild hc)) (hp.child (hchild hc)) (hs.items t ht).1
      (.inr (hs.size_items ht))
  · cases hX with
    | ground hp' => rw [hground] at hp'; cases hp'
    | sequence _ hm h hf hs =>
      rw [hn] at hm
      cases hm
      exact ⟨_, _, h, hf, hs⟩
    | var hm | _ _ hm => rw [hn] at hm; cases hm
  · rwa [vars_of_node hn rfl] at hv

theorem map_found {ops : CollectionOps} {es es' : List (Term × Term)} {base base' : List Term}
    (hn : p.node = .map ops es base) (hn' : s.node = .map ops es' base') :
    Always (mapEntries go deeper ops base' base es es' st) (Found σ (Lands σ p s) p.vars st) := by
  obtain ⟨rfl, hsorted⟩ := hs.map_eq hn'
  have hnode := hp.node hground
  rw [hn] at hnode
  simp only [Node.isMatchable, Bool.and_eq_true, List.all_eq_true, decide_eq_true_eq] at hnode
  obtain ⟨⟨hkeys, hvars⟩, hlen⟩ := hnode
  have hentry {e : Term × Term} (he : e ∈ es) : ∀ c ∈ [e.1, e.2], c ∈ p.children := fun c hc => by
    rw [Term.children, hn]
    exact List.mem_append_left _ (List.mem_flatMap.mpr ⟨e, he, hc⟩)
  have hentry' {u : Term × Term} (hu : u ∈ es') : ∀ t ∈ [u.1, u.2], t ∈ s.children := fun t ht => by
    rw [Term.children, hn']
    exact List.mem_append_left _ (List.mem_flatMap.mpr ⟨u, hu, ht⟩)
  have hsecond {a b : Term} : b ∈ [a, b] := List.mem_cons_of_mem _ List.mem_cons_self
  refine (mapEntries_found hσ hlen (fun b hb => ⟨hvars b hb, ?_⟩) (fun e he => ⟨?_, hkeys e he⟩)
    (fun e he u hu => ?_) (fun q hq u hu => ?_) (fun u hu => hs.entry hn' hu) hsorted hst).mono
      fun _ h => h.imp (fun _ hX => ?_) fun _ v hv => .inr ?_
  · refine hbelow.variable hp ?_ (hvars b hb)
    rw [Term.children, hn]
    exact List.mem_append_right _ hb
  · exact hp.child (hentry he _ List.mem_cons_self)
  · exact hbelow.child hp hs (hentry he _ hsecond) (hentry' hu _ hsecond)
  · exact hbelow.deeper hq (hs.entry hn' hu).1 (Term.size_child (hentry' hu _ List.mem_cons_self))
  · cases hX with
    | ground hp' => rw [hground] at hp'; cases hp'
    | map _ hm hm' hk hv hb hrests h =>
      rw [hn] at hm
      rw [hn'] at hm'
      cases hm
      cases hm'
      exact ⟨_, _, _, hk, hv, hb, hrests, h⟩
    | var hm | _ _ hm => rw [hn] at hm; cases hm
  · rw [vars_of_node hn rfl] at hv
    simpa [Node.children, Node.frames, List.flatMap_assoc] using hv

theorem set_found {ops : CollectionOps} {es es' base base' : List Term}
    (hn : p.node = .set ops es base) (hn' : s.node = .set ops es' base') :
    Always (setElements go deeper ops base' base es es' st) (Found σ (Lands σ p s) p.vars st) := by
  obtain ⟨rfl, hsorted⟩ := hs.set_eq hn'
  have hnode := hp.node hground
  rw [hn] at hnode
  simp only [Node.isMatchable, Bool.and_eq_true, List.all_eq_true, decide_eq_true_eq] at hnode
  obtain ⟨⟨helements, hvars⟩, hlen⟩ := hnode
  have hchild {c : Term} (hc : c ∈ es ++ base) : c ∈ p.children := by rwa [Term.children, hn]
  have hchild' {t : Term} (ht : t ∈ es') : t ∈ s.children := by
    rw [Term.children, hn']
    exact List.mem_append_left _ ht
  refine (setElements_found hσ hlen (fun b hb => ⟨hvars b hb, ?_⟩) (fun e he => ⟨?_, helements e he⟩)
    (fun q hq u hu => ?_) (fun u hu => hs.child (hchild' hu)) hsorted hst).mono
      fun _ h => h.imp (fun _ hX => ?_) fun _ v hv => .inr ?_
  · exact hbelow.variable hp (hchild (List.mem_append_right _ hb)) (hvars b hb)
  · exact hp.child (hchild (List.mem_append_left _ he))
  · exact hbelow.deeper hq (hs.child (hchild' hu)) (Term.size_child (hchild' hu))
  · cases hX with
    | ground hp' => rw [hground] at hp'; cases hp'
    | set _ hm hm' he hb hrests h =>
      rw [hn] at hm
      rw [hn'] at hm'
      cases hm
      cases hm'
      exact ⟨_, _, _, he, hb, hrests, h⟩
    | var hm | _ _ hm => rw [hn] at hm; cases hm
  · rw [vars_of_node hn rfl] at hv
    simpa [Node.children, Node.frames] using hv

theorem cells_node_found {cs cs' : List Cell} {frames frames' : List Var}
    (hn : p.node = .cells cs frames) (hn' : s.node = .cells cs' frames') :
    Always (cells go frames' frames cs (cs'.mapIdx fun i c => (i, c)) st)
      (Found σ (Lands σ p s) p.vars st) := by
  obtain ⟨rfl, huniform, -⟩ := hs.cells_eq hn'
  have hnode := hp.node hground
  rw [hn] at hnode
  simp only [Node.isMatchable, decide_eq_true_eq] at hnode
  have hnumbers : (cs'.mapIdx fun i c => (i, c)).Pairwise fun a b => (a.1 == b.1) = false := by
    have hnodup : ((cs'.mapIdx fun i c => (i, c)).map (·.1)).Nodup := by
      rw [map_fst_mapIdx]
      exact List.nodup_range'
    exact (List.pairwise_map.mp hnodup).imp beq_false_of_ne
  have hcell {u : Nat × Cell} (hu : u ∈ cs'.mapIdx fun i c => (i, c)) : u.2.content ∈ s.children := by
    have hmem : u.2 ∈ (cs'.mapIdx fun i c => (i, c)).map (·.2) := List.mem_map_of_mem hu
    rw [map_snd_mapIdx] at hmem
    rw [Term.children, hn']
    exact List.mem_map_of_mem hmem
  refine (cells_found hσ hnode (fun v hv => hp.named_of_frame (by rwa [Term.frames, hn]))
    (fun c hc u hu => ?_) (fun u hu => hs.child (hcell hu)) hnumbers
    (by rwa [map_snd_mapIdx]) hst).mono fun _ h => h.imp (fun _ hX => ?_) fun _ v hv => .inr ?_
  · refine hbelow.child hp hs ?_ (hcell hu)
    rw [Term.children, hn]
    exact List.mem_map_of_mem hc
  · cases hX with
    | ground hp' => rw [hground] at hp'; cases hp'
    | @cells _ _ _ _ used _ fs rests _ hm hm' hl hc hf hrests h =>
      rw [hn] at hm
      rw [hn'] at hm'
      cases hm
      cases hm'
      obtain ⟨used', others, hused, hothers, hperm⟩ := exists_numbered h
      refine ⟨used', others, fs, rests, ?_, hf, hrests, hperm, hothers ▸ .refl _⟩
      rw [List.forall₂_map_left_iff, List.forall₂_map_right_iff] at hc
      have hcells : List.Forall₂ (fun c u : Cell => u.label = c.label ∧ Lands σ c.content u.content)
          cs used := List.forall₂_iff_zip.mpr ⟨hl.length_eq, fun he =>
        ⟨((List.forall₂_iff_zip.mp hl).2 he).1, (List.forall₂_iff_zip.mp hc).2 he⟩⟩
      rwa [← hused, List.forall₂_map_right_iff] at hcells
    | var hm | _ _ hm => rw [hn] at hm; cases hm
  · rwa [vars_of_node hn rfl] at hv

/-- One level of a match finds a pattern with variables where it lands. -/
theorem node_found (hvar : p.isVar = false) :
    Always (node go deeper p s st) (Found σ (Lands σ p s) p.vars st) := by
  obtain ⟨hrewrite, hdisjunction⟩ := hp.not_choice
  unfold node
  rw [if_neg (by simp [hground])]
  split
  · rename_i hn
    rw [Term.isVar, hn] at hvar
    cases hvar
  · rename_i hn
    rw [Term.isRewrite, hn] at hrewrite
    cases hrewrite
  · rename_i hn
    rw [Term.isDisjunction, hn] at hdisjunction
    cases hdisjunction
  · exact app_found hp hs hbelow hst ‹_› ‹_›
  · exact freezer_found hp hs hground hbelow hst ‹_› ‹_›
  · rename_i hn
    rw [Term.sequenceView_of_isGround hs.isGround]
    exact seq_found hσ hp hs hground hbelow hst hn
  · exact list_view_found hp hs hground hbelow hst ‹_›
  · rename_i hn hn'
    split
    · rename_i hops
      subst hops
      exact map_found hσ hp hs hground hbelow hst hn hn'
    · rename_i hops
      refine .pure (found_none fun _ hX => hops ?_)
      cases hX with
      | ground hp' => rw [hground] at hp'; cases hp'
      | map _ hm hm' => rw [hn] at hm; rw [hn'] at hm'; cases hm; cases hm'; rfl
      | var hm | _ _ hm => rw [hn] at hm; cases hm
  · rename_i hn hn'
    split
    · rename_i hops
      subst hops
      exact set_found hσ hp hs hground hbelow hst hn hn'
    · rename_i hops
      refine .pure (found_none fun _ hX => hops ?_)
      cases hX with
      | ground hp' => rw [hground] at hp'; cases hp'
      | set _ hm hm' => rw [hn] at hm; rw [hn'] at hm'; cases hm; cases hm'; rfl
      | var hm | _ _ hm => rw [hn] at hm; cases hm
  · exact cells_node_found hσ hp hs hground hbelow hst ‹_› ‹_›
  · rename_i hvar _ _ hseq hlist happ hfreezer hmap hset hcells
    refine .pure (found_none fun _ hX => ?_)
    cases hX with
    | ground hp' => rw [hground] at hp'; cases hp'
    | var hm => exact hvar _ hm
    | app _ hm hm' => exact happ _ _ _ _ _ _ hm hm'
    | freezer _ hm hm' => exact hfreezer _ _ _ _ _ _ hm hm'
    | sequence _ hm => exact hseq _ _ hm
    | list _ hm => exact hlist _ _ _ _ hm
    | map _ hm hm' => exact hmap _ _ _ _ _ _ hm hm'
    | set _ hm hm' => exact hset _ _ _ _ _ _ hm hm'
    | cells _ hm hm' => exact hcells _ _ _ _ hm hm'

end Level

end RuleCompiler.Matching
