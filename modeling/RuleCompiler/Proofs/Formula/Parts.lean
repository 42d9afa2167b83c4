import RuleCompiler.Formula.Solve
import RuleCompiler.Proofs.Builder.Worlds
import RuleCompiler.Proofs.Matching.Congruence

/-! # Variables of what equations come to

What an equation between terms of a world comes to is about terms of a later one, and only about variables
of the equation. A binding is made only for a variable that is not to be ignored, to a term of its sort in
which it does not occur. -/

namespace RuleCompiler

open Build (Leads)
open Formula (Equation)

namespace World
variable {w w' : World} {Q : Var → Prop} {l r t u : Term} {es fs : List Equation}

/-- Equations between terms of the world over the variables that satisfy `Q`. -/
def EquationsOver (w : World) (Q : Var → Prop) (es : List Equation) : Prop :=
  ∀ e ∈ es, w.HasOver Q e.1 ∧ w.HasOver Q e.2

namespace EquationsOver

theorem nil : w.EquationsOver Q [] := List.forall_mem_nil _

theorem single (hl : w.HasOver Q l) (hr : w.HasOver Q r) : w.EquationsOver Q [(l, r)] :=
  List.forall_mem_singleton.mpr ⟨hl, hr⟩

theorem append (h : w.EquationsOver Q es) (h' : w.EquationsOver Q fs) : w.EquationsOver Q (es ++ fs) :=
  List.forall_mem_append.mpr ⟨h, h'⟩

theorem mono (hw : w ≤ w') (h : w.EquationsOver Q es) : w'.EquationsOver Q es :=
  fun e he => ⟨(h e he).1.mono hw, (h e he).2.mono hw⟩

theorem zip {ts us : List Term} (hts : ∀ t ∈ ts, w.HasOver Q t) (hus : ∀ u ∈ us, w.HasOver Q u) :
    w.EquationsOver Q (ts.zip us) :=
  fun _ he => ⟨hts _ (List.of_mem_zip he).1, hus _ (List.of_mem_zip he).2⟩

end EquationsOver

end World

namespace Decomposition

open World (HasOver EquationsOver)

variable {w w' : World} {Q : Var → Prop} {l r t u : Term} {v : Var} {es : List Equation}

/-- What an equation over the variables that satisfy `Q` may come to. -/
def IsOver (w : World) (Q : Var → Prop) : Decomposition → Prop
  | holds | fails => True
  | parts es => w.EquationsOver Q es
  | undecided l r => w.HasOver Q l ∧ w.HasOver Q r
  | binding v u => Q v ∧ w.HasOver Q u ∧ v.isDontCare = false ∧ u.sort.subsortOf v.sort ∧ v ∉ u.vars

/-! ### Variables -/

theorem isOver_ofVar (isCall : Term → Bool) (hv : Q v) (hl : w.HasOver Q l) (hr : w.HasOver Q r) :
    (ofVar isCall v l r).IsOver w Q := by
  have hbind (v : Var) {l r : Term} (hv : Q v) (hl : w.HasOver Q l) (hr : w.HasOver Q r) : IsOver w Q
      (if !r.sort.subsortOf v.sort then if isCall r then undecided l r else fails
        else if v.isDontCare then holds else if occurs v r then fails else binding v r) := by
    split
    · split
      · exact ⟨hl, hr⟩
      · trivial
    rename_i hsort
    split
    · trivial
    rename_i hnamed
    split
    · trivial
    rename_i hoccurs
    refine ⟨hv, hr, by simpa using hnamed, by simpa using hsort, ?_⟩
    simpa [occurs] using hoccurs
  unfold ofVar
  dsimp only
  cases hx : r.asVar? with
  | none => exact hbind v hv hl hr
  | some x =>
    dsimp only
    split
    · exact hbind x (hr.of_var (Term.node_of_asVar? hx)) hr hl
    · exact hbind v hv hl hr

/-! ### Sequences -/

theorem frame_of_sequenceView (h : w.HasOver Q t) (hv : v ∈ (Matching.sequenceView t).2) : Q v := by
  unfold Matching.sequenceView at hv
  split at hv
  · rename_i hn
    refine h.frame ?_
    rw [Term.frames, hn]
    exact Option.mem_toList.mpr hv
  · rename_i x hn
    split at hv
    · cases hv
      exact h.of_var hn
    · cases hv
  · cases hv

theorem alignedItems_over {as bs : List Term} (has : ∀ t ∈ as, w.HasOver Q t) (hbs : ∀ t ∈ bs, w.HasOver Q t) :
    w.EquationsOver Q (alignedItems as bs).1 ∧ (∀ t ∈ (alignedItems as bs).2.1, w.HasOver Q t) ∧
      ∀ t ∈ (alignedItems as bs).2.2, w.HasOver Q t := by
  induction as generalizing bs with
  | nil => exact ⟨.nil, has, hbs⟩
  | cons a as ih =>
    cases bs with
    | nil => exact ⟨.nil, has, hbs⟩
    | cons b bs =>
      rw [alignedItems]
      split
      · exact ⟨.nil, has, hbs⟩
      · obtain ⟨ha, has⟩ := List.forall_mem_cons.mp has
        obtain ⟨hb, hbs⟩ := List.forall_mem_cons.mp hbs
        obtain ⟨h, hrests⟩ := ih has hbs
        exact ⟨List.forall_mem_cons.mpr ⟨⟨ha, hb⟩, h⟩, hrests⟩

/-- Two terms that are made one after the other are equated with what was there. -/
theorem leads_parts {x y : Build Term} (hes : w.EquationsOver Q es)
    (hx : ∀ w', w ≤ w' → Leads w' (fun w t => w.HasOver Q t) x)
    (hy : ∀ w', w ≤ w' → Leads w' (fun w t => w.HasOver Q t) y) :
    Leads w (fun w d => d.IsOver w Q) (do return parts (es ++ [(← x, ← y)])) :=
  (hx w (le_refl w)).bind fun w₁ _ hw₁ ht => (hy w₁ hw₁).bind fun _ _ hw₂ hu =>
    .pure ((hes.mono (le_trans hw₁ hw₂)).append (.single (ht.mono hw₂) hu))

theorem leads_var (hv : Q v) (w : World) : Leads w (fun w t => w.HasOver Q t) (Term.var v) :=
  (World.keeps_hasOver w Q).newVar (le_refl w) hv

theorem leads_ofSequences (hl : w.HasOver Q l) (hr : w.HasOver Q r) :
    Leads w (fun w d => d.IsOver w Q) (ofSequences l r) := by
  have hview {t : Term} (h : w.HasOver Q t) : ∀ c ∈ (Matching.sequenceView t).1, w.HasOver Q c :=
    Matching.sequenceView_all (fun _ hc => h.child hc) h
  obtain ⟨haligned, has, hbs⟩ := alignedItems_over (hview hl) (hview hr)
  have hf : ∀ v ∈ (Matching.sequenceView l).2, Q v := fun v hv => frame_of_sequenceView hl hv
  have hg : ∀ v ∈ (Matching.sequenceView r).2, Q v := fun v hv => frame_of_sequenceView hr hv
  have hvar {frame : Option Var} (hf : ∀ v ∈ frame, Q v) {v : Var} (hv : frame = some v) (w' : World) :
      Leads w' (fun w t => w.HasOver Q t) (Term.var v) :=
    leads_var (hf v (Option.mem_def.mpr hv)) w'
  have hrest {ts : List Term} {frame : Option Var} (hts : ∀ t ∈ ts, w.HasOver Q t) (hf : ∀ v ∈ frame, Q v)
      (w' : World) (hw : w ≤ w') : Leads w' (fun w t => w.HasOver Q t) (Term.sequenceFrom ts frame) :=
    Term.leads_sequenceFrom (World.keeps_hasOver w' Q) (le_refl w') (fun t ht => (hts t ht).mono hw) hf
  have hdotK (w' : World) : Leads w' (fun w t => w.HasOver Q t) (Pure.pure Term.dotK) := .pure (.of_isCanonical rfl)
  unfold ofSequences
  dsimp only
  generalize (Matching.sequenceView l).2 = f, (Matching.sequenceView r).2 = g at *
  split
  · refine .ite (fun _ => .pure ⟨hl, hr⟩) fun _ => ?_
    exact leads_parts haligned (hrest has hf) (hrest hbs hg)
  split
  · split
    · exact .pure haligned
    · exact leads_parts haligned (fun w' _ => hvar hf rfl w') fun w' _ => hdotK w'
    · exact leads_parts haligned (fun w' _ => hvar hg rfl w') fun w' _ => hdotK w'
    · exact leads_parts haligned (fun w' _ => hvar hf rfl w') fun w' _ => hvar hg rfl w'
  · split
    · exact leads_parts haligned (fun w' _ => hvar hf rfl w') (hrest hbs hg)
    · exact .pure trivial
  · split
    · exact leads_parts haligned (hrest has hf) fun w' _ => hvar hg rfl w'
    · exact .pure trivial

/-! ### Lists -/

theorem onlyVar?_mem {ts : List Term} (h : onlyVar? ts = some t) : t ∈ ts := by
  unfold onlyVar? at h
  split at h
  · split at h
    · cases h
      exact List.mem_singleton_self _
    · cases h
  · cases h

theorem leads_ofListAgainst {a b : ListParts} (ha : a.Holds (w.HasOver Q)) (hb : b.Holds (w.HasOver Q))
    (hl : w.HasOver Q l) (hr : w.HasOver Q r) :
    Leads w (fun w d => d.IsOver w Q) (ofListAgainst a b l r) := by
  unfold ofListAgainst
  split
  · exact .pure ⟨hl, hr⟩
  rename_i base hbase
  refine .ite (fun _ => .pure trivial) fun _ => ?_
  have hends (n : Nat) : w.EquationsOver Q (a.left.zip b.left ++ a.right.zip (b.left.drop n)) :=
    (EquationsOver.zip ha.left hb.left).append (.zip ha.right fun t ht => hb.left t (List.mem_of_mem_drop ht))
  refine leads_parts (x := Pure.pure base) (hends _) (fun w' hw => .pure ?_) fun w' hw => ?_
  · exact (ha.base base (onlyVar?_mem hbase)).mono hw
  · refine ListParts.leads_build (World.keeps_hasOver w' Q) (le_refl w') ?_
    refine ListParts.holds_addItems (ListParts.holds_empty _ _) fun t ht => ?_
    exact (hb.left t (List.mem_of_mem_drop (List.mem_of_mem_take ht))).mono hw

theorem leads_ofLists {a b : ListParts} (ha : a.Holds (w.HasOver Q)) (hb : b.Holds (w.HasOver Q))
    (hl : w.HasOver Q l) (hr : w.HasOver Q r) : Leads w (fun w d => d.IsOver w Q) (ofLists a b l r) := by
  unfold ofLists
  split
  · refine .pure ?_
    split
    · exact .zip ha.left hb.left
    · trivial
  · exact leads_ofListAgainst hb ha hr hl
  · exact leads_ofListAgainst ha hb hl hr
  · exact .pure ⟨hl, hr⟩

/-! ### Maps and sets -/

theorem commonValues_over {es fs common : List (Term × Term)} (hes : ∀ e ∈ es, w.HasOver Q e.2)
    (hfs : ∀ f ∈ fs, w.HasOver Q f.2) (h : commonValues es fs = some common) : w.EquationsOver Q common := by
  induction es generalizing common with
  | nil =>
    cases h
    exact .nil
  | cons e es ih =>
    obtain ⟨he, hes⟩ := List.forall_mem_cons.mp hes
    rw [commonValues, List.mapM_cons] at h
    obtain ⟨pair, hpair, h⟩ := Option.bind_eq_some_iff.mp h
    obtain ⟨rest, hrest, h⟩ := Option.bind_eq_some_iff.mp h
    cases h
    obtain ⟨value, hvalue, rfl⟩ := Option.map_eq_some_iff.mp hpair
    obtain ⟨f, hf, rfl⟩ := Option.map_eq_some_iff.mp hvalue
    exact List.forall_mem_cons.mpr ⟨⟨he, hfs f (List.mem_of_find?_eq_some hf)⟩, ih hes hrest⟩

theorem leads_ofMapAgainst {a b : MapView} (ha : MapParts.Holds (w.HasOver Q) ⟨a.ops, a.entries, a.base⟩)
    (hb : MapParts.Holds (w.HasOver Q) ⟨b.ops, b.entries, b.base⟩) (hl : w.HasOver Q l) (hr : w.HasOver Q r) :
    Leads w (fun w d => d.IsOver w Q) (ofMapAgainst a b l r) := by
  unfold ofMapAgainst
  split
  · exact .pure ⟨hl, hr⟩
  rename_i base hbase
  split
  · exact .pure trivial
  rename_i common hcommon
  refine leads_parts (x := Pure.pure base) (commonValues_over ha.values hb.values hcommon) (fun w' hw => .pure ?_)
    fun w' hw => ?_
  · exact (ha.base base (onlyVar?_mem hbase)).mono hw
  · refine MapParts.leads_build (World.keeps_hasOver w' Q) (le_refl w') ⟨fun e he => ?_, fun e he => ?_, ?_⟩
    · exact (hb.keys e (List.mem_of_mem_filter he)).mono hw
    · exact (hb.values e (List.mem_of_mem_filter he)).mono hw
    · exact List.forall_mem_nil _

theorem leads_ofMaps {a b : MapView} (ha : MapParts.Holds (w.HasOver Q) ⟨a.ops, a.entries, a.base⟩)
    (hb : MapParts.Holds (w.HasOver Q) ⟨b.ops, b.entries, b.base⟩) (hl : w.HasOver Q l) (hr : w.HasOver Q r) :
    Leads w (fun w d => d.IsOver w Q) (ofMaps a b l r) := by
  unfold ofMaps
  refine .ite (fun _ => .pure ⟨hl, hr⟩) fun _ => ?_
  split
  · refine .ite (fun _ => .pure ?_) fun _ => .pure trivial
    cases hcommon : commonValues a.entries b.entries with
    | none => trivial
    | some common => exact commonValues_over ha.values hb.values hcommon
  · exact leads_ofMapAgainst hb ha hr hl
  · exact leads_ofMapAgainst ha hb hl hr
  · exact .pure ⟨hl, hr⟩

theorem leads_ofSetAgainst {ops : CollectionOps} {as aBase bs : List Term} (ha : ∀ t ∈ aBase, w.HasOver Q t)
    (hb : ∀ t ∈ bs, w.HasOver Q t) (hl : w.HasOver Q l) (hr : w.HasOver Q r) :
    Leads w (fun w d => d.IsOver w Q) (ofSetAgainst ops as aBase bs l r) := by
  unfold ofSetAgainst
  split
  · exact .pure ⟨hl, hr⟩
  rename_i base hbase
  refine .ite (fun _ => ?_) fun _ => .pure trivial
  refine leads_parts (x := Pure.pure base) .nil (fun w' hw => .pure ?_) fun w' hw => ?_
  · exact (ha base (onlyVar?_mem hbase)).mono hw
  · refine SetParts.leads_build (World.keeps_hasOver w' Q) (le_refl w') ⟨fun t ht => ?_, List.forall_mem_nil _⟩
    exact (hb t (List.mem_of_mem_filter ht)).mono hw

theorem leads_ofSets {ops : CollectionOps} {as aBase bs bBase : List Term}
    (ha : SetParts.Holds (w.HasOver Q) { ops, elements := as, base := aBase })
    (hb : SetParts.Holds (w.HasOver Q) { ops, elements := bs, base := bBase }) (hl : w.HasOver Q l)
    (hr : w.HasOver Q r) : Leads w (fun w d => d.IsOver w Q) (ofSets ops as aBase bs bBase l r) := by
  unfold ofSets
  refine .ite (fun _ => .pure ⟨hl, hr⟩) fun _ => ?_
  split
  · exact .pure trivial
  · exact leads_ofSetAgainst hb.base ha.elements hr hl
  · exact leads_ofSetAgainst ha.base hb.elements hl hr
  · exact .pure ⟨hl, hr⟩

/-! ### Cells -/

theorem leads_ofCells {as bs : List Cell} {fs gs : List Var} (ha : CellParts.Holds (w.HasOver Q) Q ⟨as, fs⟩)
    (hb : CellParts.Holds (w.HasOver Q) Q ⟨bs, gs⟩) (hl : w.HasOver Q l) (hr : w.HasOver Q r) :
    Leads w (fun w d => d.IsOver w Q) (ofCells as bs fs gs l r) := by
  unfold ofCells
  refine .ite (fun _ => .pure ⟨hl, hr⟩) fun _ => ?_
  dsimp only
  generalize hcommon : as.filterMap (fun c => (cellLabelled? c.label bs).map fun d => (c.content, d.content)) = common
  have hcommon : w.EquationsOver Q common := by
    intro e he
    rw [← hcommon] at he
    obtain ⟨c, hc, he⟩ := List.mem_filterMap.mp he
    obtain ⟨d, hd, rfl⟩ := Option.map_eq_some_iff.mp he
    exact ⟨ha.contents c hc, hb.contents d (List.mem_of_find?_eq_some hd)⟩
  have hbuild {cs : List Cell} {fs : List Var} (p : Cell → Bool) (hcs : ∀ c ∈ cs, w.HasOver Q c.content)
      (hfs : ∀ v ∈ fs, Q v) (w' : World) (hw : w ≤ w') :
      Leads w' (fun w t => w.HasOver Q t) (CellParts.build ⟨cs.filter p, fs⟩) :=
    CellParts.leads_build (World.keeps_hasOver w' Q) (le_refl w')
      ⟨fun c hc => (hcs c (List.mem_of_mem_filter hc)).mono hw, hfs⟩
  have hhead {v : Var} {vs : List Var} (hvs : ∀ v ∈ vs, Q v) (hv : vs.head? = some v) : Q v :=
    hvs v (List.mem_of_head? hv)
  split
  · refine .pure ?_
    split
    · exact hcommon
    · trivial
  · rename_i f hf _
    refine .ite (fun _ => .pure trivial) fun _ => ?_
    exact leads_parts hcommon (fun w' _ => leads_var (hhead ha.frames hf) w')
      (hbuild _ hb.contents (List.forall_mem_nil _))
  · rename_i g _ hg
    refine .ite (fun _ => .pure trivial) fun _ => ?_
    exact leads_parts hcommon (hbuild _ ha.contents (List.forall_mem_nil _))
      fun w' _ => leads_var (hhead hb.frames hg) w'
  · rename_i f g hf hg
    have hf := hhead ha.frames hf
    have hg := hhead hb.frames hg
    refine .ite (fun _ => ?_) fun _ => .ite (fun _ => ?_) fun _ => .pure ⟨hl, hr⟩
    · exact leads_parts hcommon (fun w' _ => leads_var hf w')
        (hbuild _ hb.contents (List.forall_mem_singleton.mpr hg))
    · exact leads_parts hcommon (hbuild _ ha.contents (List.forall_mem_singleton.mpr hf))
        fun w' _ => leads_var hg w'

/-! ### Terms -/

theorem operandsOf?_over {ops : CollectionOps} {p : ListParts} (h : w.HasOver Q t)
    (hp : Matching.operandsOf? ops t = some p) : p.Holds (w.HasOver Q) :=
  ListParts.holds_iff.mpr (Matching.operandsOf?_all (fun _ hc => h.child hc) h hp)

theorem leads_ofNodes (hl : w.HasOver Q l) (hr : w.HasOver Q r) :
    Leads w (fun w d => d.IsOver w Q) (ofNodes l r) := by
  have hkeeps := World.keeps_hasOver w Q
  have hargs {t : Term} {m : Node Term} (h : w.HasOver Q t) (hn : t.node = m) : ∀ c ∈ m.children, w.HasOver Q c :=
    fun c hc => h.child (by rwa [Term.children, hn])
  unfold ofNodes
  split <;> try exact .pure ⟨hl, hr⟩
  · rename_i hn hn'
    refine .pure ?_
    split
    · exact .zip (hargs hl hn) (hargs hr hn')
    · trivial
  · rename_i hn hn'
    refine .pure ?_
    split
    · obtain ⟨ha, has⟩ := List.forall_mem_cons.mp (hargs hl hn)
      obtain ⟨hb, hbs⟩ := List.forall_mem_cons.mp (hargs hr hn')
      exact List.forall_mem_cons.mpr ⟨⟨ha, hb⟩, EquationsOver.zip has hbs⟩
    · trivial
  · rename_i hn hn'
    refine .ite (fun _ => ?_) fun _ => .pure trivial
    exact leads_ofLists (ListParts.parts_of_node hkeeps hn hl) (ListParts.parts_of_node hkeeps hn' hr) hl hr
  · rename_i hn _ _ _
    split
    · exact leads_ofLists (ListParts.parts_of_node hkeeps hn hl) (operandsOf?_over hr ‹_›) hl hr
    · exact .pure trivial
  · rename_i hn' _ _ _
    split
    · exact leads_ofLists (operandsOf?_over hl ‹_›) (ListParts.parts_of_node hkeeps hn' hr) hl hr
    · exact .pure trivial
  · rename_i hn hn'
    refine .ite (fun _ => ?_) fun _ => .pure trivial
    exact leads_ofMaps (MapParts.parts_of_node hkeeps hn hl) (MapParts.parts_of_node hkeeps hn' hr) hl hr
  · rename_i hn hn'
    refine .ite (fun hops => ?_) fun _ => .pure trivial
    subst hops
    exact leads_ofSets (SetParts.parts_of_node hkeeps hn hl) (SetParts.parts_of_node hkeeps hn' hr) hl hr
  · rename_i hn hn'
    exact leads_ofCells (CellParts.parts_of_node hkeeps hn hl) (CellParts.parts_of_node hkeeps hn' hr) hl hr
  · exact .pure trivial

/-- What an equation comes to is about its variables only. -/
theorem leads_of (isCall : Term → Bool) (hl : w.HasOver Q l) (hr : w.HasOver Q r) :
    Leads w (fun w d => d.IsOver w Q) (of isCall l r) := by
  have hside {t a b : Term} (h : w.HasOver Q t) (hn : t.node = .rewrite a b) : w.HasOver Q a :=
    h.child (by rw [Term.children, hn]; exact List.mem_cons_self)
  have htaken {t : Term} {v : Var} {p : Var → Bool} (h : w.HasOver Q t) (hv : t.asVar?.filter p = some v) : Q v :=
    h.of_var (Term.node_of_asVar? (Option.filter_eq_some_iff.mp hv).1)
  unfold of
  split
  · rename_i hn
    exact .pure (.single (hside hl hn) hr)
  · rename_i hn _
    exact .pure (.single hl (hside hr hn))
  dsimp only
  split
  · rename_i v _ hv
    exact .pure (isOver_ofVar isCall (htaken hl hv) hl hr)
  · rename_i v _ hv
    exact .pure (isOver_ofVar isCall (htaken hr hv) hr hl)
  · refine .ite (fun _ => leads_ofSequences hl hr) fun _ => .ite (fun _ => .pure ⟨hl, hr⟩) fun _ => ?_
    exact leads_ofNodes hl hr

end Decomposition

end RuleCompiler
