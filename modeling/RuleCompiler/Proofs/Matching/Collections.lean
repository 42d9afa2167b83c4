import RuleCompiler.Proofs.Matching.Cells
import RuleCompiler.Proofs.Matching.Reads

/-! # Matched sequences, lists and cells

What is matched in order is read in order: a segment or an unknown part as a run of items, a frame as
what is left. -/

namespace RuleCompiler.Matching

open Build (Always)
open MonadAttach (CanReturn)

variable {L : Labelling} {σ : Substitution} {p s : Term}

/-! ### Cells -/

theorem reads_of_cells {cs cs' : List Cell} {frames frames' : List Var} (hn : p.node = .cells cs frames)
    (hs : s.node = .cells cs' frames') (hground : p.isGround = false) (hσ : Settled σ)
    (hpat : L.IsPattern p) (hsub : L.IsSubject s)
    (h : CellsFit (Readable L σ) σ frames' frames cs (cs'.mapIdx fun i c => (i, c))) :
    Reads σ p s := by
  have hnormal := hsub.isNormal
  have hfits := hpat.fits hground
  have hfits' := hsub.fits
  have hpart {c : Cell} (hc : c ∈ cs) : L.IsPattern c.content := by
    refine hpat.child ?_
    rw [Term.children, hn]
    exact List.mem_map_of_mem hc
  have hpart' {c : Cell} (hc : c ∈ cs') : L.IsSubject c.content := by
    refine hsub.child ?_
    rw [Term.children, hs]
    exact List.mem_map_of_mem hc
  obtain rfl : frames' = [] := by rw [← hsub.frames_eq, Term.frames, hs]; rfl
  rw [hs] at hnormal hfits'
  rw [hn] at hfits
  simp only [Labelling.fits, List.all_eq_true, decide_eq_true_eq] at hfits hfits'
  obtain ⟨used, rest, r, hperm, hused, hr, hend⟩ := exists_rest_of_cells h
  rw [CellParts.build_eq] at hr
  have hr := Term.returns_new _ r hr
  have hsort : (SortedList.sort CellParts.compareCells rest).Perm rest := SortedList.perm_sort rest
  obtain ⟨fs, hfs, hframes⟩ : ∃ fs, ((fs = [] ∧ rest = []) ∨
      ∃ r parts, fs = [r] ∧ r.node = .cells parts [] ∧ parts.Perm rest) ∧
        List.Forall₂ (Names σ) frames fs := by
    rcases hend.cases with ⟨rfl, hempty⟩ | ⟨v, rfl, hbound⟩
    · refine ⟨[], .inl ⟨rfl, ?_⟩, .nil⟩
      rw [Term.isEmptyCollection, hr] at hempty
      split at hempty <;> simp_all
    · refine ⟨[r], .inr ⟨r, _, rfl, hr, hsort⟩, .cons (.of_bound (hpat.named_of_frame ?_) hbound) .nil⟩
      rw [Term.frames, hn]
      exact List.mem_singleton_self v
  have hcontents : List.Forall₂ (Reads σ) (cs.map (·.content)) (used.map (·.content)) := by
    rw [List.forall₂_map_left_iff, List.forall₂_map_right_iff]
    refine PairedLists.imp_mem hused fun c hc u hu h => h.2 hσ (hpart hc) (hpart' ?_)
    exact hperm.mem_iff.mpr (List.mem_append_left rest hu)
  exact reads_node _ fs hn hground rfl rfl hcontents hframes
    fun cs'' fs' hcs hfs' => CellParts.always_rebuild hn hs hnormal hfits hfits'
      (hused.imp fun _ _ h => h.1) hperm hfs hcs hfs'

/-! ### Sequences -/

/-- The items of a subject are subjects, and no sequences. -/
theorem IsSubject.items (h : L.IsSubject s) : ∀ t ∈ s.items, L.IsSubject t ∧ t.items = [t] :=
  items_all Labelling.IsSubject.child Labelling.IsSubject.isGround Labelling.IsSubject.isNormal h

/-- Runs of items have these as their items. -/
theorem items_of_sequenceFrom {ss : List Term} (hss : ∀ t ∈ ss, L.IsSubject t ∧ t.items = [t]) :
    Returns (fun t => t.isGround ∧ t.items = ss) (Term.sequenceFrom ss none) := by
  have hitems : ss.flatMap Term.items = ss := by
    rw [List.flatMap_congr fun t ht => (hss t ht).2, List.flatMap_singleton']
  rw [Term.sequenceFrom, Option.toList_none, List.mapM_nil, pure_bind, List.append_nil,
    Term.sequence_of_isGround fun t ht => (hss t ht).1.isGround, hitems]
  exact SequenceParts.items_of_build fun t ht => ⟨(hss t ht).1.isGround, (hss t ht).2⟩

theorem reads_of_items {frame : Option Var} {ps ss : List Term} (hσ : Settled σ)
    (h : SequenceFits (Readable L σ) σ frame none ps ss) (hps : ∀ p ∈ ps, L.IsPattern p)
    (hframe : ∀ v ∈ frame, v.isDontCare = false)
    (hss : ∀ t ∈ ss, L.IsSubject t ∧ t.items = [t]) :
    ∃ cs fs, List.Forall₂ (Reads σ) ps cs ∧ List.Forall₂ (Names σ) frame.toList fs ∧
      (∀ t ∈ cs ++ fs, t.isGround) ∧ (cs ++ fs).flatMap Term.items = ss := by
  induction h with
  | closed hp _ =>
    subst hp
    exact ⟨[], [], .nil, .nil, List.forall_mem_nil _, rfl⟩
  | @frame v ss rest hp hr hb =>
    subst hp
    obtain ⟨hground, hitems⟩ := items_of_sequenceFrom hss rest hr
    exact ⟨[], [rest], .nil, .cons (.of_bound (hframe v rfl) hb) .nil,
      List.forall_mem_singleton.mpr hground, by simpa using hitems⟩
  | @lastSegment p v ss rest hv hp hr hb =>
    subst hp
    obtain ⟨hground, hitems⟩ := items_of_sequenceFrom hss rest hr
    have hn := segment?_eq hv
    have hnamed := (hps p (List.mem_singleton_self p)).named_of_var hn
    exact ⟨[rest], [], .cons (.var hn (.of_bound hnamed hb)) .nil, .nil,
      List.forall_mem_singleton.mpr hground, by simpa using hitems⟩
  | @segment p v ps front back run hv hr hb _ ih =>
    obtain ⟨hp, hps⟩ := List.forall_mem_cons.mp hps
    obtain ⟨hfront, hback⟩ := List.forall_mem_append.mp hss
    obtain ⟨cs, fs, hcs, hfs, hgrounds, hflat⟩ := ih hps hback
    obtain ⟨hground, hitems⟩ := items_of_sequenceFrom hfront run hr
    have hn := segment?_eq hv
    refine ⟨run :: cs, fs, .cons (.var hn (.of_bound (hp.named_of_var hn) hb)) hcs, hfs,
      List.forall_mem_cons.mpr ⟨hground, hgrounds⟩, ?_⟩
    rw [List.cons_append, List.flatMap_cons, hitems, hflat]
  | @item p s ps ss _ hread _ ih =>
    obtain ⟨hp, hps⟩ := List.forall_mem_cons.mp hps
    obtain ⟨⟨hsub, hself⟩, hss⟩ := List.forall_mem_cons.mp hss
    obtain ⟨cs, fs, hcs, hfs, hgrounds, hflat⟩ := ih hps hss
    refine ⟨s :: cs, fs, .cons (hread hσ hp hsub) hcs, hfs,
      List.forall_mem_cons.mpr ⟨hsub.isGround, hgrounds⟩, ?_⟩
    rw [List.cons_append, List.flatMap_cons, hself, hflat]
    rfl

theorem reads_of_sequence {items : List Term} {frame : Option Var} (hn : p.node = .seq items frame)
    (hground : p.isGround = false) (hσ : Settled σ) (hpat : L.IsPattern p) (hsub : L.IsSubject s)
    (h : SequenceFits (Readable L σ) σ frame (sequenceView s).2 items (sequenceView s).1) :
    Reads σ p s := by
  rw [Term.sequenceView_of_isGround hsub.isGround] at h
  obtain ⟨cs, fs, hcs, hfs, hgrounds, hflat⟩ := reads_of_items hσ h
    (fun c hc => hpat.child (by rwa [Term.children, hn]))
    (fun v hv => hpat.named_of_frame (by rw [Term.frames, hn]; exact Option.mem_toList.mpr hv))
    (IsSubject.items hsub)
  refine reads_node cs fs hn hground rfl rfl hcs hfs fun cs' fs' hcs' hfs' => ?_
  have hequal : Term.Equal (cs' ++ fs') (cs ++ fs) := hcs'.append hfs'
  have hrebuild : p.rebuild cs' fs' = Term.sequence (cs' ++ fs') := by
    unfold Term.rebuild
    rw [hn]
  rw [hrebuild, Term.sequence_of_isGround (hequal.ground hgrounds)]
  refine SequenceParts.always_build hsub.isGround (fun its frame hs => ?_) ?_
  · have hnormal := hsub.isNormal
    rwa [hs] at hnormal
  · have hitems : (cs ++ fs).flatMap Term.items = s.items := hflat
    rw [← hitems]
    exact List.rel_flatMap hequal fun _ _ h => Term.items_congr h

/-! ### Lists -/

section Lists
variable {ops : CollectionOps}

/-- The unit is the constant of the list's sort. -/
theorem IsSubject.unitTerm_beq (h : L.IsSubject s) (hops : ops.sort = L.sort ops.unit)
    (hunit : ops.isUnit s) : ops.unitTerm == s := by
  have hfits := h.fits
  unfold CollectionOps.isUnit at hunit
  split at hunit
  · rename_i l k hn
    rw [hn] at hfits
    refine Term.beq_of_alike ?_
    simp only [beq_iff_eq, Labelling.fits, decide_eq_true_eq] at hunit hfits
    rw [hn, hunit, hfits, hunit, ← hops]
    exact .app .nil
  · cases hunit

/-- The items of a subject are subjects, and parts of a list of a user operator. -/
theorem IsSubject.itemsOf (h : L.IsSubject s) (hs : ListParts.Known ops s) :
    ∀ t ∈ s.itemsOf ops, L.IsSubject t ∧ (ops.isOperator → ListParts.isPart ops t) := by
  cases hs with
  | @list left right hn =>
    have hnormal := h.isNormal
    rw [hn] at hnormal
    rw [Term.itemsOf_of_list hn]
    refine fun t ht => ⟨h.child ?_, fun hop => ?_⟩
    · rw [Term.children, hn]
      exact List.mem_append_left _ ht
    · simp only [Node.isNormal, ListParts.isNormal, hop, if_true, Bool.and_eq_true,
        List.all_eq_true] at hnormal
      exact hnormal.2 t ht
  | operand hop _ hlist =>
    rw [Term.itemsOf_of_operand hlist]
    split
    · exact List.forall_mem_nil _
    · rename_i hunit
      refine List.forall_mem_singleton.mpr ⟨h, fun _ => ?_⟩
      simp only [ListParts.isPart, hlist, hunit]
      rfl

/-- A list of subjects is one, with these items. -/
theorem returns_listOf {items : List Term} (hops : ops.sort = L.sort ops.unit)
    (hitems : ∀ t ∈ items, L.IsSubject t ∧ (ops.isOperator → ListParts.isPart ops t)) :
    Always (listOf ops items) fun t =>
      L.IsSubject t ∧ ListParts.Known ops t ∧ t.itemsOf ops = items := by
  have hnew (hnormal : ListParts.isNormal { ops, left := items }) :
      Always (Term.new (.list ops items [] [])) fun t =>
        L.IsSubject t ∧ ListParts.Known ops t ∧ t.itemsOf ops = items := by
    refine (Term.always_new _).mono fun t hn => ⟨.intro ?_ ?_ fun c hc => ?_, .list hn,
      Term.itemsOf_of_list hn⟩
    · simp [Labelling.isSubjectNode, Labelling.fits, Node.isNormal, Node.holdsEmpty, Term.isVar,
        Node.isVar, Term.isRewrite, Term.isDisjunction, hn, hnormal, hops]
    · rw [Term.frames, hn]
      rfl
    · rw [Term.children, hn] at hc
      exact (hitems c (by simpa [Node.children] using hc)).1
  rw [listOf, ListParts.foldl_addItem rfl, List.nil_append]
  cases hop : ops.isOperator with
  | false =>
    rw [ListParts.build_eq fun h => by rw [hop] at h; cases h]
    exact hnew (by simp [ListParts.isNormal, hop])
  | true =>
    rcases items with _ | ⟨t, _ | ⟨u, items⟩⟩
    · have hlist : ops.unitTerm.isListOf ops = false := rfl
      have hunit : ops.isUnit ops.unitTerm := beq_self_eq_true ops.unit
      have hsub : L.IsSubject ops.unitTerm :=
        .intro (by simp [Labelling.isSubjectNode, Labelling.fits, CollectionOps.unitTerm,
          Term.constant, Term.isVar, Node.isVar, Term.isRewrite, Term.isDisjunction, Node.isNormal,
          Node.holdsEmpty, hops]) rfl (List.forall_mem_nil _)
      simp only [ListParts.build, hop, if_true]
      exact .pure ⟨hsub, .operand hop hsub.isGround hlist, by
        rw [Term.itemsOf_of_operand hlist, if_pos hunit]⟩
    · obtain ⟨hsub, hpart⟩ := hitems t (List.mem_singleton_self t)
      have hpart := hpart hop
      rw [ListParts.isPart, Bool.and_eq_true, Bool.not_eq_true', Bool.not_eq_true'] at hpart
      simp only [ListParts.build, hop, if_true]
      exact .pure ⟨hsub, .operand hop hsub.isGround hpart.1, by
        rw [Term.itemsOf_of_operand hpart.1, hpart.2]; rfl⟩
    · rw [ListParts.build_eq fun _ => by simp]
      refine hnew ?_
      have hparts := fun t ht => (hitems t ht).2 hop
      rw [← List.all_eq_true] at hparts
      simp only [ListParts.isNormal, hop, if_true, hparts]
      simp

/-- A list whose children are read as parts that put together known items is read as their list. -/
theorem reads_of_known {left base right ls bs rs : List Term} (hn : p.node = .list ops left base right)
    (hground : p.isGround = false) (hops : ops.sort = L.sort ops.unit) (hsub : L.IsSubject s)
    (hs : ListParts.Known ops s) (hl : List.Forall₂ (Reads σ) left ls)
    (hb : List.Forall₂ (Reads σ) base bs) (hr : List.Forall₂ (Reads σ) right rs)
    (hknown : ∀ b ∈ bs, ListParts.Known ops b)
    (hflat : Term.Equal (ls ++ (bs.flatMap (Term.itemsOf ops) ++ rs)) (s.itemsOf ops)) :
    Reads σ p s := by
  refine reads_node (ls ++ (bs ++ rs)) [] hn hground rfl rfl
    (List.rel_append hl (List.rel_append hb hr)) .nil fun cs' fs' hcs _ => ?_
  obtain ⟨ls', _, rfl, hls, hrest⟩ := Term.Equal.exists_append hcs
  obtain ⟨bs', rs', rfl, hbs, hrs⟩ := hrest.exists_append
  have hall : Term.Equal (ls' ++ (bs'.flatMap (Term.itemsOf ops) ++ rs')) (s.itemsOf ops) := by
    refine Term.Equal.trans (hls.append (.append ?_ hrs)) hflat
    exact List.rel_flatMap hbs fun _ _ h => ListParts.itemsOf_congr h
  refine ListParts.always_rebuild_known hn (hls.length_eq.trans hl.length_eq.symm)
    (hbs.length_eq.trans hb.length_eq.symm) (fun hop c hc => ?_) (fun b hb => ?_) hs
    (fun left base right hs => ?_) (IsSubject.unitTerm_beq hsub hops) hall
  · have hmem : c ∈ ls' ++ (bs'.flatMap (Term.itemsOf ops) ++ rs') := by
      simp only [List.mem_append] at hc ⊢
      exact hc.imp_right .inr
    obtain ⟨t, ht, hct⟩ := PairedLists.exists_mem hall hmem
    obtain ⟨ht, hpart⟩ := IsSubject.itemsOf hsub hs t ht
    rw [Term.isGround_congr hct, ListParts.isPart_congr hct]
    exact ⟨ht.isGround, hpart hop⟩
  · obtain ⟨d, hd, hbd⟩ := PairedLists.exists_mem hbs hb
    exact (hknown d hd).congr hbd
  · have hnormal := hsub.isNormal
    rwa [hs] at hnormal

/-- The unknown parts of a pattern are read as parts that put together the items between. -/
theorem reads_of_middle {bases middle : List Term} (hσ : Settled σ) (hops : ops.sort = L.sort ops.unit)
    (h : MiddleFits (Readable L σ) ops bases middle) (hbases : ∀ b ∈ bases, L.IsPattern b)
    (hruns : ∀ b ∈ bases, ∀ ops' items base right, b.node = .list ops' items base right → base = [] →
      ops' = ops ∧ right = [])
    (hmiddle : ∀ t ∈ middle, L.IsSubject t ∧ (ops.isOperator → ListParts.isPart ops t)) :
    ∃ bs, List.Forall₂ (Reads σ) bases bs ∧ (∀ b ∈ bs, ListParts.Known ops b) ∧
      Term.Equal (bs.flatMap (Term.itemsOf ops)) middle := by
  induction h with
  | nil => exact ⟨[], .nil, List.forall_mem_nil _, .nil⟩
  | @part b chunk front back bases hc hb _ ih =>
    obtain ⟨hpattern, hbases⟩ := List.forall_mem_cons.mp hbases
    obtain ⟨hfront, hback⟩ := List.forall_mem_append.mp hmiddle
    obtain ⟨bs, hread, hknown, hflat⟩ := ih hbases (fun b hb => hruns b (List.mem_cons_of_mem _ hb)) hback
    obtain ⟨hsub, hchunk, hitems⟩ := (returns_listOf hops hfront).returns chunk hc
    refine ⟨chunk :: bs, .cons (hb hσ hpattern hsub) hread, List.forall_mem_cons.mpr ⟨hchunk, hknown⟩, ?_⟩
    rw [List.flatMap_cons, hitems]
    exact .append (.refl front) hflat
  | @run b ops' items base right front back bases hn hbase hi _ ih =>
    obtain ⟨hpattern, hbases⟩ := List.forall_mem_cons.mp hbases
    obtain ⟨hfront, hback⟩ := List.forall_mem_append.mp hmiddle
    obtain ⟨bs, hread, hknown, hflat⟩ := ih hbases (fun b hb => hruns b (List.mem_cons_of_mem _ hb)) hback
    obtain ⟨rfl, rfl⟩ := hruns b List.mem_cons_self _ _ _ _ hn hbase
    subst hbase
    have hchildren : b.children = items := by rw [Term.children, hn]; exact List.append_nil items
    have hitems : List.Forall₂ (Reads σ) items front := PairedLists.imp_mem hi fun c hc t ht h =>
      h hσ (hpattern.child (hchildren ▸ hc)) (hfront t ht).1
    by_cases hground : b.isGround
    · refine ⟨b :: bs, .cons (.ground hground BEq.rfl) hread,
        List.forall_mem_cons.mpr ⟨.list hn, hknown⟩, ?_⟩
      rw [List.flatMap_cons, Term.itemsOf_of_list hn]
      refine .append (PairedLists.imp_mem hitems fun c hc t _ h => h.beq_of_isGround ?_) hflat
      exact Term.isGround_child hground (hchildren ▸ hc)
    rw [Bool.not_eq_true] at hground
    obtain ⟨r, -, hsub, hr, hflat'⟩ := (returns_listOf hops hfront).exists_canReturn
    refine ⟨r :: bs, .cons ?_ hread, List.forall_mem_cons.mpr ⟨hr, hknown⟩, ?_⟩
    · refine reads_of_known hn hground hops hsub hr hitems .nil .nil (List.forall_mem_nil _) ?_
      rw [hflat', List.flatMap_nil, List.nil_append, List.append_nil]
      exact .refl front
    · rw [List.flatMap_cons, hflat']
      exact .append (.refl front) hflat

/-- A subject is either read as its known items, or it is a list with unknown parts itself. -/
theorem IsSubject.listView {parts : ListParts} (h : L.IsSubject s) (hs : listView? ops s = some parts)
    (ho : parts.ops = ops) :
    (ListParts.Known ops s ∧ parts.left = s.itemsOf ops ∧ parts.base = [] ∧ parts.right = []) ∨
      ops.isOperator = false ∧ s.node = .list ops parts.left parts.base parts.right ∧
        parts.base ≠ [] := by
  have hnormal := h.isNormal
  unfold listView? at hs
  split at hs
  · rename_i ops' left base right hn
    cases hs
    cases ho
    rw [hn] at hnormal
    by_cases hbase : base = []
    · subst hbase
      refine .inl ⟨.list hn, (Term.itemsOf_of_list hn).symm, rfl, ?_⟩
      simp only [Node.isNormal, ListParts.isNormal] at hnormal
      split at hnormal <;> simp_all
    · refine .inr ⟨?_, hn, hbase⟩
      by_contra hop
      rw [Bool.not_eq_false] at hop
      simp [Node.isNormal, ListParts.isNormal, hop, hbase] at hnormal
  · rename_i hlist
    have hother : s.isListOf ops = false := by
      unfold Term.isListOf
      split
      · exact absurd ‹_› (hlist _ _ _ _)
      · rfl
    unfold operandsOf? at hs
    split at hs
    · cases hs
    · rename_i hop
      rw [Bool.not_eq_true, Bool.not_eq_false'] at hop
      rw [Term.itemsOf_of_operand hother]
      have hknown : ListParts.Known ops s := .operand hop h.isGround hother
      split at hs
      · exact absurd ‹_› (hlist _ _ _ _)
      · exact absurd ‹_› (Term.not_isVar_of_isGround h.isGround)
      · split at hs <;> cases hs <;> exact .inl ⟨hknown, by simp_all, rfl, rfl⟩

theorem reads_of_list {left base right : List Term} {parts : ListParts}
    (hn : p.node = .list ops left base right) (hs : listView? ops s = some parts)
    (ho : parts.ops = ops) (hground : p.isGround = false) (hσ : Settled σ) (hpat : L.IsPattern p)
    (hsub : L.IsSubject s)
    (h : ListFits (Readable L σ) { ops, left, base, right } parts) : Reads σ p s := by
  have hfits := hpat.fits hground
  have hopen := hpat.isOpen hground
  rw [hn] at hfits hopen
  have hops : ops.sort = L.sort ops.unit := by simpa [Labelling.fits] using hfits
  have hps : ListParts.Holds L.IsPattern { ops, left, base, right } :=
    ListParts.holds_iff.mpr fun c hc => hpat.child (by rwa [Term.children, hn])
  rcases IsSubject.listView hsub hs ho with ⟨hknown, hleft, hbase, hright⟩ | ⟨hop, hnode, hbase⟩
  · obtain ⟨ls, middle, rs, hitems, hl, hm, hr⟩ : ∃ ls middle rs,
        s.itemsOf ops = ls ++ (middle ++ rs) ∧ List.Forall₂ (Readable L σ) left ls ∧
          MiddleFits (Readable L σ) ops base middle ∧ List.Forall₂ (Readable L σ) right rs := by
      cases h with
      | aligned hl hb hr =>
        rw [hbase] at hb
        cases hb
        exact ⟨parts.left, [], parts.right, by rw [hright, hleft]; simp, hl, .nil, hr⟩
      | ends hs _ hl hr hm => exact ⟨_, _, _, hleft ▸ hs, hl, hm, hr⟩
    have hmembers := IsSubject.itemsOf hsub hknown
    simp only [hitems, List.forall_mem_append] at hmembers
    obtain ⟨hls, hmiddle, hrs⟩ := hmembers
    have hruns : ∀ b ∈ base, ∀ ops' items base right, b.node = .list ops' items base right →
        base = [] → ops' = ops ∧ right = [] := by
      rintro b hb ops' items _ right' hb' rfl
      have hrun := List.all_eq_true.mp hopen b hb
      simpa [hb'] using hrun
    obtain ⟨bs, hbs, hbknown, hflat⟩ := reads_of_middle hσ hops hm hps.base hruns hmiddle
    refine reads_of_known hn hground hops hsub hknown (Readable.all hσ hl hps.left fun t ht => (hls t ht).1)
      hbs (Readable.all hσ hr hps.right fun t ht => (hrs t ht).1) hbknown ?_
    rw [hitems]
    exact .append (.refl ls) (hflat.append (.refl rs))
  · have hnormal := hsub.isNormal
    rw [hnode] at hnormal
    have hss : ListParts.Holds L.IsSubject ⟨ops, parts.left, parts.base, parts.right⟩ :=
      ListParts.holds_iff.mpr fun c hc => hsub.child (by rwa [Term.children, hnode])
    cases h with
    | ends _ hb => exact absurd hb hbase
    | aligned hl hb hr =>
    refine reads_node (parts.left ++ (parts.base ++ parts.right)) [] hn hground rfl rfl ?_ .nil
      fun cs' fs' hcs _ => ?_
    · exact List.rel_append (Readable.all hσ hl hps.left hss.left) (List.rel_append
        (Readable.all hσ hb hps.base hss.base) (Readable.all hσ hr hps.right hss.right))
    · obtain ⟨ls', _, rfl, hls, hrest⟩ := Term.Equal.exists_append hcs
      obtain ⟨bs', rs', rfl, hbs, hrs⟩ := hrest.exists_append
      exact ListParts.always_rebuild_aligned hn hop (hls.length_eq.trans hl.length_eq.symm)
        (hbs.length_eq.trans hb.length_eq.symm) hnode hnormal hbase hls hbs hrs

end Lists

end RuleCompiler.Matching
