import RuleCompiler.Proofs.Renaming.NormalForm

/-! # Nodes made again under other variable names

A node in normal form is made again from renamed children and with its frames renamed: it becomes the
renamed node, with the parts of an unordered collection brought into the order of the new names. The keys
of a map have to stay different for that, and the elements of a set. -/

namespace RuleCompiler

open Node (Alike Reorders)
open Build (Gives)

/-! ### Other children -/

namespace PairedLists

/-- What is paired with parts of the entries are the parts of entries with these parts in place of theirs. -/
theorem exists_map {α β : Type} {R : α → α → Prop} {f : β → α} {g : β → α → β} (hfg : ∀ b a, f (g b a) = a) :
    ∀ {bs : List β} {as : List α}, List.Forall₂ R (bs.map f) as →
      ∃ bs', bs'.map f = as ∧ List.Forall₂ (fun b b' => R (f b) (f b') ∧ b' = g b (f b')) bs bs'
  | [], _, .nil => ⟨[], rfl, .nil⟩
  | b :: _, _, .cons (b := a) hba h => by
    obtain ⟨bs', rfl, hbs⟩ := exists_map hfg h
    exact ⟨g b a :: bs', by rw [List.map_cons, hfg], .cons ⟨by rwa [hfg], by rw [hfg]⟩ hbs⟩

/-- What holds of different entries of a list holds in another form of those paired with them. -/
theorem pairwise {α β : Type} {R : α → β → Prop} {P : α → α → Prop} {Q : β → β → Prop} {as : List α} {bs : List β}
    (h : List.Forall₂ R as bs) (has : as.Pairwise P)
    (hPQ : ∀ a ∈ as, ∀ a' ∈ as, ∀ b b', R a b → R a' b' → P a a' → Q b b') : bs.Pairwise Q := by
  induction h with
  | nil => exact .nil
  | @cons a b as bs hab h ih =>
    obtain ⟨ha, has⟩ := List.pairwise_cons.mp has
    refine List.pairwise_cons.mpr ⟨fun b' hb' => ?_, ih has fun a ha a' ha' =>
      hPQ a (List.mem_cons_of_mem _ ha) a' (List.mem_cons_of_mem _ ha')⟩
    obtain ⟨a', ha', hab'⟩ := exists_mem h.flip hb'
    exact hPQ a List.mem_cons_self a' (List.mem_cons_of_mem _ ha') b b' hab hab' (ha a' ha')

end PairedLists

/-- What is paired with the children of a node are the children of a node that says the same. -/
theorem Node.exists_children {α : Type} {R : α → α → Prop} {n : Node α} {ds : List α}
    (h : List.Forall₂ R n.children ds) :
    ∃ m, Alike R n m ∧ m.children = ds := by
  cases n with
  | app label args s =>
    cases label with
    | const l => exact ⟨.app (.const l) ds s, .app h, rfl⟩
    | freezer f =>
      cases h with
      | @cons _ g _ ds hf h => exact ⟨.app (.freezer g) ds s, .freezer hf h, rfl⟩
  | seq items frame => exact ⟨.seq ds frame, .seq h, rfl⟩
  | list ops left base right =>
    obtain ⟨left', ds, rfl, hl, h⟩ := PairedLists.exists_append h.flip
    obtain ⟨base', right', rfl, hb, hr⟩ := PairedLists.exists_append h
    exact ⟨.list ops left' base' right', .list hl.flip hb.flip hr.flip, rfl⟩
  | map ops entries base =>
    obtain ⟨ds, base', rfl, he, hb⟩ := PairedLists.exists_append h.flip
    obtain ⟨entries', rfl, hes⟩ := PairedLists.exists_entries he.flip
    exact ⟨.map ops entries' base', .map hes hb.flip, rfl⟩
  | set ops elements base =>
    obtain ⟨elements', base', rfl, he, hb⟩ := PairedLists.exists_append h.flip
    exact ⟨.set ops elements' base', .set he.flip hb.flip, rfl⟩
  | cells cs frames =>
    obtain ⟨cs', rfl, hcs⟩ := PairedLists.exists_map (g := fun c content => { c with content }) (fun _ _ => rfl) h
    exact ⟨.cells cs' frames, .cells (hcs.imp fun _ _ h => ⟨by rw [h.2], by rw [h.2], h.1⟩), rfl⟩
  | rewrite l r =>
    cases h with
    | cons hl h =>
    cases h with
    | cons hr h =>
    cases h
    exact ⟨.rewrite _ _, .rewrite hl hr, rfl⟩
  | disjunction branches =>
    obtain ⟨branches', rfl, hbs⟩ := PairedLists.exists_map (g := fun b c => (c, b.2)) (fun _ _ => rfl) h
    exact ⟨.disjunction branches', .disjunction (hbs.imp fun _ _ h => ⟨h.1, by rw [h.2]⟩), rfl⟩
  | rightSides byRule =>
    have hpresent : ∃ byRule', List.Forall₂ (Option.Rel R) byRule byRule' ∧ byRule'.filterMap id = ds := by
      induction byRule generalizing ds with
      | nil =>
        cases h
        exact ⟨[], .nil, rfl⟩
      | cons o byRule ih =>
        cases o with
        | none =>
          obtain ⟨byRule', hrel, hds⟩ := ih h
          exact ⟨none :: byRule', .cons .none hrel, hds⟩
        | some c =>
          cases h with
          | @cons _ d _ ds hcd h =>
          obtain ⟨byRule', hrel, hds⟩ := ih h
          exact ⟨some d :: byRule', .cons (.some hcd) hrel, congrArg (List.cons d) hds⟩
    obtain ⟨byRule', hrel, hds⟩ := hpresent
    exact ⟨.rightSides byRule', .rightSides hrel, hds⟩
  | token s v =>
    cases h
    exact ⟨.token s v, .token, rfl⟩
  | var v =>
    cases h
    exact ⟨.var v, .var, rfl⟩
  | hole =>
    cases h
    exact ⟨.hole, .hole, rfl⟩
  | labelValue l =>
    cases h
    exact ⟨.labelValue l, .labelValue, rfl⟩

namespace Term

variable {ρ : Var → Var} {t u c d : Term} {ds us fs : List Term} {n k : Nat}

/-! ### Renamed terms in normal form -/

/-- The term `u` is `t` renamed, in normal form, and nothing in it is editable. -/
structure Renamed (ρ : Var → Var) (t u : Term) : Prop where
  renames : t.Renames ρ u
  settled : u.everyNode isSettled
  untouched : u.touchesEditable = false

theorem untouched_iff : t.touchesEditable = false ↔
    t.isEditable = false ∧ ∀ c ∈ t.children, c.touchesEditable = false := by
  rw [touchesEditable_eq, Bool.or_eq_false_iff, List.any_eq_false]
  simp only [Bool.not_eq_true]

/-- A node with renamed children that is in normal form itself. -/
theorem Renamed.of_children (h : t.Renames ρ u) (hu : u.isSettled) (hedit : u.isEditable = false)
    (hbelow : ∀ d ∈ u.children, d.everyNode isSettled ∧ d.touchesEditable = false) : Renamed ρ t u where
  renames := h
  settled := everyNode_iff.mpr ⟨hu, fun d hd => (hbelow d hd).1, fun _ _ => rfl⟩
  untouched := untouched_iff.mpr ⟨hedit, fun d hd => (hbelow d hd).2⟩

theorem isSettled_of_node_eq (h : u.node = t.node) : u.isSettled = t.isSettled := by
  rw [isSettled, isSettled, children, children, h]

theorem Renamed.redone (h : Renamed ρ t d) (hd : Redone n k d u) : Renamed ρ t u := by
  cases hd with
  | kept => exact h
  | anew hnode _ hedit _ =>
    obtain ⟨hd, hbelow, -⟩ := everyNode_iff.mp h.settled
    have huntouched := h.untouched
    rw [untouched_iff] at huntouched
    have hchildren : u.children = d.children := by rw [children, hnode, children]
    refine .of_children (h.renames.congr (BEq.symm (beq_of_node_eq hnode))) ?_ hedit fun e he => ?_
    · rwa [isSettled_of_node_eq hnode]
    · rw [hchildren] at he
      exact ⟨hbelow e he, huntouched.2 e he⟩

/-! ### Nodes with ordered parts -/

theorem renews_refl (ds : List Term) : List.Forall₂ Renews ds ds :=
  List.forall₂_same.mpr fun _ _ => ⟨BEq.refl _, rfl⟩

/-- A node that says the same as another one is made again as that one. -/
theorem rebuild_renamed {m : Node Term} (hne : t.node.isUnordered = false) (hvar : t.isVar = false)
    (halike : Alike (Renamed ρ) t.node m) (us fs : List Term) :
    t.rebuild us fs = rebuild ⟨{}, m.mapVars ρ⟩ us fs ∨ rebuild ⟨{}, m.mapVars ρ⟩ us fs = pure ⟨{}, m.mapVars ρ⟩ := by
  cases hn : t.node with
  | map | set | cells =>
    rw [hn] at hne
    cases hne
  | var =>
    rw [isVar, hn] at hvar
    cases hvar
  | seq items frame =>
    rw [hn] at halike
    cases halike with
    | seq =>
      left
      rw [rebuild_seq hn]
      rfl
  | _ =>
    have hm : m.mapVars ρ = m := by
      rw [hn] at halike
      cases halike <;> rfl
    rw [hm]
    exact (rebuild_congr (u := ⟨{}, m⟩) halike us fs).imp id And.right

theorem Passed.of_node {t' : Term} (h : Passed t d u)
    (hn : ∀ ops left base right, t.node = .list ops left base right →
      ∃ left' base' right', t'.node = .list ops left' base' right') : Passed t' d u := by
  cases h with
  | child => exact .child
  | item htn hop hd =>
    obtain ⟨_, _, _, hn'⟩ := hn _ _ _ _ htn
    exact .item hn' hop hd

/-- A sequence with a frame has items. -/
theorem children_ne_nil_of_frames (ht : t.isSettled) (hn : t.node.isUnordered = false) (h : t.frames ≠ []) :
    t.children ≠ [] := by
  rw [isSettled, Bool.and_eq_true] at ht
  rw [frames] at h
  rw [children]
  replace ht := ht.2
  generalize t.node = m at ht hn h
  cases m with
  | seq items frame =>
    obtain ⟨-, -, hnone, -⟩ := SequenceParts.isProper_iff.mp ((Bool.and_eq_true _ _).mp ht).1
    rintro rfl
    obtain rfl : frame = none := hnone rfl
    exact h rfl
  | map | set | cells => cases hn
  | _ => exact absurd rfl h

section Ordered
variable (hρ : ∀ v, (ρ v).sort = v.sort)
include hρ

theorem gives_rebuild_ordered (ht : t.isSettled) (hn : t.node.isUnordered = false) (hlone : t.isLone = false)
    (hvar : t.isVar = false) (hne : t.children ≠ []) (hds : List.Forall₂ (Renamed ρ) t.children ds)
    (hus : List.Forall₂ (Passed t) ds us) (hfs : List.Forall₂ (fun v f => f.node = .var (ρ v)) t.frames fs) (k : Nat) :
    Gives k (fun k' u => Fresh k k' u ∧ Renamed ρ t u) (t.rebuild us fs) := by
  obtain ⟨m, halike, rfl⟩ := Node.exists_children hds
  -- the renamed node before it gets a number
  let t' : Term := ⟨{}, m.mapVars ρ⟩
  have hchildren : t'.children = m.children := Node.children_mapVars m
  have hrenames : t.Renames ρ t' :=
    renames_iff.mpr ⟨m.mapVars ρ, (halike.imp fun _ _ h => h.renames).mapVars, .refl _⟩
  have hbelow : ∀ d ∈ m.children, d.everyNode isSettled ∧ d.touchesEditable = false := fun d hd => by
    obtain ⟨c, -, hcd⟩ := PairedLists.exists_mem hds.flip hd
    exact ⟨hcd.settled, hcd.untouched⟩
  have hedit : ∀ d ∈ t'.children, d.isEditable = false := fun d hd =>
    (untouched_iff.mp (hbelow d (hchildren ▸ hd)).2).1
  have hsettled : t'.everyNode isSettled :=
    everyNode_iff.mpr ⟨hrenames.isSettled hρ hn hedit ht, fun d hd => (hbelow d (hchildren ▸ hd)).1, fun _ _ => rfl⟩
  have hframes : t'.frames = t.frames.map ρ := by
    have hown : t'.node.ownVars = t.node.ownVars.map ρ := by rw [Node.ownVars_mapVars, halike.ownVars_eq]
    rwa [ownVars_of_not_isVar (hrenames.isVar_eq.trans hvar), ownVars_of_not_isVar hvar] at hown
  have hpassed : List.Forall₂ (Passed t') m.children us := hus.imp fun _ _ h => h.of_node fun ops _ _ _ hn => by
    rw [hn] at halike
    cases halike
    exact ⟨_, _, _, rfl⟩
  have hne' : t'.children ≠ [] := fun h => hne (List.eq_nil_of_length_eq_zero (by
    rw [hds.length_eq, ← hchildren, h, List.length_nil]))
  have hfs' : List.Forall₂ (fun v f => f.node = .var v) t'.frames fs := by rwa [hframes, List.forall₂_map_left_iff]
  have hrebuilt := gives_rebuild hsettled (hrenames.isLone_eq.trans hlone) hne' (hchildren ▸ renews_refl m.children)
    hpassed hfs' k
  rcases rebuild_renamed hn hvar halike us fs with hrebuild | hkept
  · rw [hrebuild]
    refine hrebuilt.mono fun k' u _ hu => ⟨hu.fresh, ?_⟩
    have hchild : ∀ d ∈ u.children, d.everyNode isSettled ∧ d.touchesEditable = false := fun d hd => by
      obtain ⟨e, he, hed⟩ := PairedLists.exists_mem hu.children.flip hd
      obtain ⟨c, -, hce⟩ := PairedLists.exists_mem hds.flip he
      exact ⟨(hce.redone hed).settled, (hce.redone hed).untouched⟩
    have hrenames' := hrenames.congr (BEq.symm hu.beq)
    refine .of_children hrenames' (hrenames'.isSettled hρ hn ?_ ht) hu.isEditable hchild
    exact fun d hd => (untouched_iff.mp (hchild d hd).2).1
  · -- it has children, so it is made again
    rw [hkept] at hrebuilt
    obtain ⟨u, k', hrun, -, hu⟩ := hrebuilt
    cases hrun
    have hle := hu.fresh.le
    have hlt := hu.fresh.lt
    omega

end Ordered

/-! ### Nodes with unordered parts -/

/-- A new node is the renamed node if it lists renamed children in some order, in normal form. None of them
is a lone item, as none was before. -/
theorem gives_new_renamed {l m : Node Term} (hn : t.node.isUnordered) (ht : t.isSettled) (hm : m.isCanonical = false)
    (halike : Alike (Renamed ρ) (t.node.mapVars ρ) l) (ho : l.Reorders m)
    (hsettled : ∀ u : Term, u.node = m → (∀ d ∈ u.children, d.isLone = false) → u.isSettled) (k : Nat) :
    Gives k (fun k' u => Fresh k k' u ∧ Renamed ρ t u) (new m) := by
  refine (gives_new hm k).mono fun k' u _ hu => ?_
  obtain ⟨hfresh, hedit, hun⟩ := hu
  have hchildren : ∀ d ∈ u.children, ∃ c ∈ t.children, Renamed ρ c d := fun d hd => by
    rw [children, hun, ← ho.perm_children.mem_iff] at hd
    have hpaired := halike.children
    rw [Node.children_mapVars] at hpaired
    exact PairedLists.exists_mem hpaired.flip hd
  have hlone : ∀ d ∈ u.children, d.isLone = false := fun d hd => by
    obtain ⟨c, hc, hcd⟩ := hchildren d hd
    rw [hcd.renames.isLone_eq]
    by_contra hlone
    obtain ⟨_, _, _, _, hnode, -⟩ := isRun_of_isLone ht hc (by simpa using hlone)
    rw [hnode] at hn
    cases hn
  refine ⟨hfresh, .of_children (renames_iff.mpr ⟨l, halike.imp fun _ _ h => h.renames, hun ▸ ho⟩)
    (hsettled u hun hlone) hedit fun d hd => ?_⟩
  obtain ⟨c, -, hcd⟩ := hchildren d hd
  exact ⟨hcd.settled, hcd.untouched⟩

/-- A renaming that tells the variables of a node apart tells the children of the node apart that have no
ties. -/
theorem beq_of_renamed_beq {c' d' : Term} (hρ : Set.InjOn ρ {v | v ∈ t.vars}) (ht : t.everyNode isSettled)
    (hc : c ∈ t.children) (hc' : c' ∈ t.children) (h : Renamed ρ c d) (h' : Renamed ρ c' d')
    (hties : c.everyNode isUntied) (hd : d == d') : c == c' := by
  have hbelow := (everyNode_iff.mp ht).2.1
  refine h.renames.beq_of_beq h'.renames (hρ.mono ?_) (hbelow c hc) (hbelow c' hc') hties hd
  rintro v (hv | hv)
  · exact vars_child hc hv
  · exact vars_child hc' hv

end Term

open Term (Renamed Fresh)

/-- Cells that say the same as others are these with their contents. -/
theorem CellParts.withContents_eq {R : Term → Term → Prop} {cs cs' : List Cell}
    (h : List.Forall₂ (fun c c' => c.label = c'.label ∧ c.multiplicity = c'.multiplicity ∧
      R c.content c'.content) cs cs') :
    withContents cs (cs'.map (·.content)) = cs' := by
  induction h with
  | nil => rfl
  | @cons c c' cs cs' h _ ih =>
    obtain ⟨_, _, _⟩ := c'
    obtain ⟨rfl, rfl, -⟩ := h
    exact congrArg (List.cons _) ih

section Unordered
variable {ρ : Var → Var} {t : Term} {ops : CollectionOps} {ds fs : List Term} (ht : t.everyNode Term.isSettled)
  (hds : List.Forall₂ (Renamed ρ) t.children ds)
include ht hds

theorem MapParts.gives_rebuild_renamed {es : List (Term × Term)} {base : List Term} (hn : t.node = .map ops es base)
    (hρ : Set.InjOn ρ {v | v ∈ t.vars}) (hties : t.hasUntiedKeys) (k : Nat) :
    Gives k (fun k' u => Fresh k k' u ∧ Renamed ρ t u) (t.rebuild ds fs) := by
  obtain ⟨m, halike, rfl⟩ := Node.exists_children hds
  rw [hn] at halike
  cases halike with
  | @map _ _ es' _ base' hes hbase =>
  have hsettled := (Term.everyNode_iff.mp ht).1
  have hnode := hsettled
  rw [Term.hasUntiedKeys, hn] at hties
  rw [Term.isSettled, hn, Bool.and_eq_true] at hsettled
  simp only [isNormal, Bool.and_eq_true, decide_eq_true_eq, Bool.not_eq_true'] at hsettled
  obtain ⟨-, ⟨⟨hkeys, -⟩, hparts⟩, hmany⟩ := hsettled
  have hmem : ∀ e ∈ es, e.1 ∈ t.children := fun e he => by
    rw [Term.children, hn]
    exact List.mem_append_left _ (List.mem_flatMap.mpr ⟨e, he, List.mem_cons_self⟩)
  -- different keys have different names still
  have hdiffer : KeysDiffer es' := by
    refine PairedLists.pairwise hes (KeysDiffer.of_sorted hkeys) fun e he e' he' f f' hf hf' hne heq => hne ?_
    have hbeq := Term.beq_of_renamed_beq hρ ht (hmem e he) (hmem e' he') hf.1 hf'.1
      (List.all_eq_true.mp hties e he) (Term.cmp_eq_iff.mp heq)
    exact Term.cmp_eq_iff.mpr hbeq
  have hparts' : ∀ b ∈ base', isPart ops b := fun b hb => by
    obtain ⟨c, hc, hcb⟩ := PairedLists.exists_mem hbase.flip hb
    exact hcb.renames.isPart_map_eq ▸ List.all_eq_true.mp hparts c hc
  have hperm : (putAll es' []).Perm es' := perm_putAll (l := []) hdiffer
  have hmany' : ((putAll es' []).isEmpty && base'.length == 1) = false := by
    rwa [PairedLists.isEmpty_of_length (hperm.length_eq.trans hes.length_eq.symm), ← hbase.length_eq]
  have hrebuild : t.rebuild ((es'.flatMap fun e => [e.1, e.2]) ++ base') fs =
      Term.new (.map ops (putAll es' []) (SortedList.sort Term.cmp base')) := by
    rw [rebuild_eq hn hes.length_eq.symm, foldl_concat_parts (p := ⟨ops, putAll es' [], []⟩) hparts', List.nil_append,
      build_of_many hmany']
  rw [Node.children, hrebuild]
  have hsort : (SortedList.sort Term.cmp base').Perm base' := SortedList.perm_sort base'
  refine Term.gives_new_renamed (l := .map ops es' base') (by rw [hn]; rfl) hnode rfl (by rw [hn]; exact .map hes hbase)
    (.map hperm.symm hsort.symm) (fun u hu hlone => ?_) k
  rw [Term.isSettled, hu, Bool.and_eq_true, List.all_eq_true]
  refine ⟨fun d hd => by rw [hlone d hd]; rfl, ?_⟩
  simp only [isNormal, Bool.and_eq_true, decide_eq_true_eq, Bool.not_eq_true', List.all_eq_true]
  refine ⟨⟨⟨sorted_putAll .nil, SortedList.sorted_sort base'⟩, fun b hb => hparts' b (hsort.mem_iff.mp hb)⟩, ?_⟩
  rwa [hsort.length_eq]

theorem SetParts.gives_rebuild_renamed {es base : List Term} (hn : t.node = .set ops es base)
    (hρ : Set.InjOn ρ {v | v ∈ t.vars}) (hties : t.hasUntiedKeys) (k : Nat) :
    Gives k (fun k' u => Fresh k k' u ∧ Renamed ρ t u) (t.rebuild ds fs) := by
  obtain ⟨m, halike, rfl⟩ := Node.exists_children hds
  rw [hn] at halike
  cases halike with
  | @set _ _ es' _ base' hes hbase =>
  have hsettled := (Term.everyNode_iff.mp ht).1
  have hnode := hsettled
  rw [Term.hasUntiedKeys, hn] at hties
  rw [Term.isSettled, hn, Bool.and_eq_true] at hsettled
  simp only [isNormal, Bool.and_eq_true, decide_eq_true_eq, Bool.not_eq_true'] at hsettled
  obtain ⟨-, ⟨⟨helements, -⟩, hparts⟩, hmany⟩ := hsettled
  have hmem : ∀ e ∈ es, e ∈ t.children := fun e he => by
    rw [Term.children, hn]
    exact List.mem_append_left _ he
  have hdiffer : Differ es' := by
    refine PairedLists.pairwise hes (Differ.of_sorted helements) fun e he e' he' f f' hf hf' hne heq => hne ?_
    have hbeq := Term.beq_of_renamed_beq hρ ht (hmem e he) (hmem e' he') hf hf'
      (List.all_eq_true.mp hties e he) (Term.cmp_eq_iff.mp heq)
    exact Term.cmp_eq_iff.mpr hbeq
  have hparts' : ∀ b ∈ base', isPart ops b := fun b hb => by
    obtain ⟨c, hc, hcb⟩ := PairedLists.exists_mem hbase.flip hb
    exact hcb.renames.isPart_set_eq ▸ List.all_eq_true.mp hparts c hc
  have hperm : (addAll es' []).Perm es' := perm_addAll (l := []) hdiffer
  have hmany' : ((addAll es' []).isEmpty && base'.length == 1) = false := by
    rwa [PairedLists.isEmpty_of_length (hperm.length_eq.trans hes.length_eq.symm), ← hbase.length_eq]
  have hrebuild : t.rebuild (es' ++ base') fs =
      Term.new (.set ops (addAll es' []) (SortedList.sort Term.cmp base')) := by
    rw [rebuild_eq hn hes.length_eq.symm, foldl_concat_parts (p := ⟨ops, addAll es' [], []⟩) hparts', List.nil_append,
      build_of_many hmany']
  rw [Node.children, hrebuild]
  have hsort : (SortedList.sort Term.cmp base').Perm base' := SortedList.perm_sort base'
  refine Term.gives_new_renamed (l := .set ops es' base') (by rw [hn]; rfl) hnode rfl (by rw [hn]; exact .set hes hbase)
    (.set hperm.symm hsort.symm) (fun u hu hlone => ?_) k
  rw [Term.isSettled, hu, Bool.and_eq_true, List.all_eq_true]
  refine ⟨fun d hd => by rw [hlone d hd]; rfl, ?_⟩
  simp only [isNormal, Bool.and_eq_true, decide_eq_true_eq, Bool.not_eq_true', List.all_eq_true]
  refine ⟨⟨⟨sorted_addAll .nil, SortedList.sorted_sort base'⟩, fun b hb => hparts' b (hsort.mem_iff.mp hb)⟩, ?_⟩
  rwa [hsort.length_eq]

theorem CellParts.gives_rebuild_renamed {cs : List Cell} {frames : List Var} (hn : t.node = .cells cs frames)
    (hfs : List.Forall₂ (fun v f => f.node = .var (ρ v)) t.frames fs) (k : Nat) :
    Gives k (fun k' u => Fresh k k' u ∧ Renamed ρ t u) (t.rebuild ds fs) := by
  obtain ⟨m, halike, rfl⟩ := Node.exists_children hds
  rw [hn] at halike
  cases halike with
  | @cells _ cs' _ hcs =>
  have hsettled := (Term.everyNode_iff.mp ht).1
  have hnode := hsettled
  rw [Term.isSettled, hn, Bool.and_eq_true] at hsettled
  simp only [isSettled, Bool.and_eq_true, Bool.not_eq_true'] at hsettled
  have hmany := hsettled.2.2
  rw [Term.frames, hn] at hfs
  have hfs' : List.Forall₂ (fun v f => f.node = .var v) (frames.map ρ) fs := List.forall₂_map_left_iff.mpr hfs
  have hmany' : (cs'.isEmpty && (frames.map ρ).length == 1) = false := by
    rwa [PairedLists.isEmpty_eq hcs.flip, List.length_map]
  have hbuild : build ⟨cs', frames.map ρ⟩ =
      Term.new (.cells (SortedList.sort compareCells cs') (SortedList.sort compareFrames (frames.map ρ))) := by
    unfold build
    split
    · rename_i hnil hone
      dsimp only at hnil hone
      rw [hnil, hone] at hmany'
      cases hmany'
    · rfl
  have hrebuild : t.rebuild (cs'.map (·.content)) fs =
      Term.new (.cells (SortedList.sort compareCells cs') (SortedList.sort compareFrames (frames.map ρ))) := by
    rw [rebuild_eq hn, Term.cellsFrom, withContents_eq hcs, foldlM_concat_vars hfs', pure_bind]
    exact hbuild
  rw [Node.children, hrebuild]
  have hcells : (SortedList.sort compareCells cs').Perm cs' := SortedList.perm_sort cs'
  have hframes : (SortedList.sort compareFrames (frames.map ρ)).Perm (frames.map ρ) := SortedList.perm_sort _
  refine Term.gives_new_renamed (l := .cells cs' (frames.map ρ)) (by rw [hn]; rfl) hnode rfl
    (by rw [hn]; exact .cells hcs) (.cells hcells.symm hframes.symm) (fun u hu hlone => ?_) k
  rw [Term.isSettled, hu, Bool.and_eq_true, List.all_eq_true]
  refine ⟨fun d hd => by rw [hlone d hd]; rfl, ?_⟩
  simp only [isSettled, isNormal, Bool.and_eq_true, decide_eq_true_eq, Bool.not_eq_true']
  refine ⟨⟨SortedList.sorted_sort cs', ?_⟩, ?_⟩
  · refine (SortedList.sorted_sort (frames.map ρ)).imp fun hle hlt => ?_
    rw [Std.OrientedCmp.gt_of_lt hlt] at hle
    cases hle
  · rwa [PairedLists.isEmpty_of_length hcells.length_eq, hframes.length_eq]

end Unordered

/-- A node in normal form is made again as the renamed node, whatever is passed on of renamed children. -/
theorem Term.gives_rebuild_renamed {ρ : Var → Var} {t : Term} {ds us fs : List Term} (hsorts : ∀ v, (ρ v).sort = v.sort)
    (hρ : Set.InjOn ρ {v | v ∈ t.vars}) (ht : t.everyNode isSettled) (hties : t.hasUntiedKeys) (hlone : t.isLone = false)
    (hvar : t.isVar = false) (hne : t.children ≠ [] ∨ t.frames ≠ []) (hds : List.Forall₂ (Renamed ρ) t.children ds)
    (hus : List.Forall₂ (Passed t) ds us) (hfs : List.Forall₂ (fun v f => f.node = .var (ρ v)) t.frames fs) (k : Nat) :
    Gives k (fun k' u => Fresh k k' u ∧ Renamed ρ t u) (t.rebuild us fs) := by
  have hnode := (everyNode_iff.mp ht).1
  cases hunordered : t.node.isUnordered with
  | true =>
    obtain rfl : us = ds := eq_of_passed (fun ops left base right hn => by rw [hn] at hunordered; cases hunordered) hus
    cases hn : t.node with
    | map ops es base => exact MapParts.gives_rebuild_renamed ht hds hn hρ hties k
    | set ops es base => exact SetParts.gives_rebuild_renamed ht hds hn hρ hties k
    | cells cs frames => exact CellParts.gives_rebuild_renamed ht hds hn hfs k
    | _ =>
      rw [hn] at hunordered
      cases hunordered
  | false =>
    refine gives_rebuild_ordered hsorts hnode hunordered hlone hvar ?_ hds hus hfs k
    exact hne.elim id (children_ne_nil_of_frames hnode hunordered)

end RuleCompiler
