import RuleCompiler.Formula.Decompose
import RuleCompiler.Proofs.Formula.Instances

/-! # Decomposing equations that have a solution

Under bindings that make both sides of an equation the same term, the parts that the equation comes to
are solved by the bindings too, and it is not found impossible. The sides are rigid, so both are made like
the term that they read as. -/

namespace RuleCompiler

open Build (Always)
open Matching (Names Reads Mirrors Sound)

/-- Two sorts with a common subsort are comparable. -/
theorem SortName.comparable_of_subsort {k a b : SortName} (ha : k.subsortOf a) (hb : k.subsortOf b) :
    a.subsortOf b ∨ b.subsortOf a := by
  simp only [subsortOf, Bool.or_eq_true, Bool.and_eq_true, beq_iff_eq, bne_iff_ne] at *
  grind

namespace Term

theorem length_code_child {t c : Term} (h : c ∈ t.children) : c.code.length < t.code.length := by
  have hhead : 0 < t.node.head.length := by
    cases hn : t.node with
    | app l => cases l <;> simp [Node.head]
    | _ => simp [Node.head, Var.symbols]
  have hle : c.code.length ≤ (t.children.map code).flatten.length :=
    (List.sublist_flatten_of_mem (List.mem_map_of_mem h)).length_le
  rw [code_eq t, List.length_append]
  omega

end Term

/-- Both sides are rigid, and the bindings make them the same term. -/
structure Joint (θ : Substitution) (l r : Term) : Prop where
  left : l.IsRigid
  right : r.IsRigid
  common : ∃ s, Reads θ l s ∧ Reads θ r s

variable {θ : Substitution} {l r t u : Term} {v : Var}

namespace Joint

theorem symm (h : Joint θ l r) : Joint θ r l :=
  ⟨h.right, h.left, h.common.imp fun _ h => ⟨h.2, h.1⟩⟩

theorem head (h : Joint θ l r) (hl : l.isVar = false) (hr : r.isVar = false) :
    l.node.head = r.node.head := by
  obtain ⟨s, hls, hrs⟩ := h.common
  exact (hls.mirrors h.left hl).head.trans (hrs.mirrors h.right hr).head.symm

theorem children (h : Joint θ l r) (hl : l.isVar = false) (hr : r.isVar = false) :
    List.Forall₂ (Joint θ) l.children r.children := by
  obtain ⟨s, hls, hrs⟩ := h.common
  have hcommon : List.Forall₂ (fun a b => ∃ s, Reads θ a s ∧ Reads θ b s) l.children r.children :=
    PairedLists.comp (fun _ c _ h h' => ⟨c, h, h'⟩) (hls.mirrors h.left hl).children
      (hrs.mirrors h.right hr).children.flip
  exact PairedLists.imp_mem hcommon fun a ha b hb hab => ⟨h.left.child ha, h.right.child hb, hab⟩

/-- One of two different sides has variables, so its node is rigid, and the other is made like it. -/
theorem isRigid (h : Joint θ l r) (hl : l.isVar = false) (hr : r.isVar = false) (hne : ¬l == r) :
    l.node.isRigid := by
  cases hground : l.isGround with
  | false => exact h.left.node.2.2 hground
  | true =>
    obtain ⟨s, hls, hrs⟩ := h.common
    have hbeq : l == s := hls.beq_of_isGround hground
    have hr' : r.isGround = false := by
      by_contra hr'
      exact hne (BEq.trans hbeq (BEq.symm (hrs.beq_of_isGround (by simpa using hr'))))
    have hmirrors := hrs.mirrors h.right hr
    have hsteady : List.Forall₂ Term.Steady r.children l.children := by
      refine PairedLists.comp (fun _ _ _ h h' => ?_) (hmirrors.steady h.right)
        (Term.children_congr (BEq.symm hbeq))
      exact Term.Steady.trans h (.of_beq (BEq.symm h'))
    exact Node.isRigid_of_alike (Node.alike_of_head (h.head hl hr).symm hsteady) (h.right.node.2.2 hr')

end Joint

namespace Decomposition

/-- What an equation that the bindings solve may come to. -/
def Keeps (θ : Substitution) : Decomposition → Prop
  | holds => True
  | parts es => ∀ e ∈ es, Joint θ e.1 e.2
  | binding v u => Sound θ v u
  | undecided l r => Joint θ l r
  | fails => False

theorem keeps_zip {as bs : List Term} (h : List.Forall₂ (Joint θ) as bs) :
    ∀ e ∈ as.zip bs, Joint θ e.1 e.2 :=
  fun _ he => (List.forall₂_iff_zip.mp h).2 he

/-! ### Variables -/

/-- A variable names a term no larger than what any term that it occurs in reads as. -/
theorem exists_names_le {s : Term} (h : Reads θ t s) (ht : t.IsRigid) (hv : v ∈ t.vars) :
    ∃ s', Names θ v s' ∧ s'.code.length ≤ s.code.length ∧
      (t.isVar = false → s'.code.length < s.code.length) := by
  induction t using Term.induction generalizing s with
  | h t ih =>
    cases hvar : t.isVar with
    | true =>
      obtain ⟨w, hn⟩ := Term.exists_var hvar
      rw [Term.vars_eq, hn, List.mem_singleton] at hv
      exact ⟨s, hv ▸ h.names hn, Nat.le_refl _, fun h => by cases h⟩
    | false =>
      have hmirrors := h.mirrors ht hvar
      rw [Term.vars_of_not_isVar hvar, ht.frames_eq, List.append_nil] at hv
      obtain ⟨c, hc, hv⟩ := List.mem_flatMap.mp hv
      obtain ⟨d, hd, hcd⟩ := PairedLists.exists_mem hmirrors.children hc
      obtain ⟨s', hnames, hle, -⟩ := ih c hc hcd (ht.child hc) hv
      have hlt := Nat.lt_of_le_of_lt hle (Term.length_code_child hd)
      exact ⟨s', hnames, Nat.le_of_lt hlt, fun _ => hlt⟩

theorem names_unique {s s' : Term} (h : Names θ v s) (h' : Names θ v s') : s == s' := by
  obtain ⟨t, ht, heq, -⟩ := h
  obtain ⟨t', ht', heq', -⟩ := h'
  rw [ht] at ht'
  cases ht'
  exact BEq.trans (BEq.symm heq) heq'

section Variables
variable (hn : t.node = .var v) (h : Joint θ t u) (hne : ¬t == u)
include hn h

include hne in
theorem not_occurs : occurs v u = false := by
  obtain ⟨s, hts, hus⟩ := h.common
  rw [occurs, List.contains_eq_mem, decide_eq_false_iff_not]
  intro hv
  cases hvar : u.isVar with
  | true =>
    obtain ⟨w, hw⟩ := Term.exists_var hvar
    rw [Term.vars_eq, hw, List.mem_singleton] at hv
    subst hv
    refine hne (Term.beq_of_alike ?_)
    rw [hn, hw]
    exact .var
  | false =>
    obtain ⟨s', hnames, -, hlt⟩ := exists_names_le hus h.right hv
    have heq := congrArg List.length (Term.beq_iff.mp (names_unique hnames (hts.names hn)))
    exact Nat.ne_of_lt (hlt hvar) heq

theorem sound_of_joint (hsort : u.sort.subsortOf v.sort) : Sound θ v u := by
  obtain ⟨s, hts, hus⟩ := h.common
  exact ⟨h.right, hsort, fun hs => hus.congr (names_unique (hts.names hn) hs)⟩

include hne in
/-- A term of the variable's sort may be bound to it. -/
theorem keeps_bind (hsort : u.sort.subsortOf v.sort) (isCall : Term → Bool) :
    Keeps θ (if !u.sort.subsortOf v.sort then
        if isCall u then undecided t u else fails
      else if v.isDontCare then holds
      else if occurs v u then fails
      else binding v u) := by
  rw [hsort, Bool.not_true, not_occurs hn h hne, if_neg Bool.false_ne_true, if_neg Bool.false_ne_true]
  split
  · trivial
  · exact sound_of_joint hn h hsort

theorem subsort_of_not_isVar (hvar : u.isVar = false) : u.sort.subsortOf v.sort := by
  obtain ⟨s, hts, hus⟩ := h.common
  obtain ⟨-, -, -, hsort⟩ := hts.names hn
  rwa [Term.sort_of_head (hus.mirrors h.right hvar).head h.right.node.1]

include hne in
theorem keeps_ofVar (isCall : Term → Bool) : Keeps θ (ofVar isCall v t u) := by
  unfold ofVar
  dsimp only
  cases hvar : u.isVar with
  | false =>
    rw [Term.asVar?_eq_none hvar]
    exact keeps_bind hn h hne (subsort_of_not_isVar hn h hvar) isCall
  | true =>
    obtain ⟨w, hw⟩ := Term.exists_var hvar
    rw [Term.asVar?_of_var hw]
    dsimp only
    have ht : t.sort = v.sort := by rw [Term.sort_eq, hn]
    have hu : u.sort = w.sort := by rw [Term.sort_eq, hw]
    split
    · rename_i hcond
      rw [Bool.and_eq_true] at hcond
      exact keeps_bind hw h.symm (fun hbeq => hne (BEq.symm hbeq)) (ht ▸ hcond.2) isCall
    · rename_i hcond
      obtain ⟨s, hts, hus⟩ := h.common
      obtain ⟨-, -, -, hv⟩ := hts.names hn
      obtain ⟨-, -, -, hw'⟩ := hus.names hw
      refine keeps_bind hn h hne (hu ▸ ?_) isCall
      simp only [Bool.and_eq_true, Bool.not_eq_true', not_and, Bool.not_eq_true] at hcond
      by_contra hnot
      have hother := hcond (by simpa using hnot)
      rcases SortName.comparable_of_subsort hv hw' with hle | hle
      · rw [hother] at hle
        cases hle
      · exact hnot hle

end Variables

/-! ### Sequences -/

/-- The bindings make the terms of the two lists the same, one by one. -/
theorem exists_common {as bs : List Term} (h : List.Forall₂ (Joint θ) as bs) :
    ∃ ss, List.Forall₂ (Reads θ) as ss ∧ List.Forall₂ (Reads θ) bs ss := by
  induction h with
  | nil => exact ⟨[], .nil, .nil⟩
  | cons hab _ ih =>
    obtain ⟨s, has, hbs⟩ := hab.common
    obtain ⟨ss, hass, hbss⟩ := ih
    exact ⟨s :: ss, .cons has hass, .cons hbs hbss⟩

/-- The term is the only item, or the sequence of the items. -/
def IsSequenceOf (ts : List Term) (u : Term) : Prop :=
  ts = [u] ∨ ts.length ≠ 1 ∧ u.node = .seq ts none

theorem always_sequenceFrom {ts : List Term} (h : ∀ t ∈ ts, t.isItem) :
    Always (Term.sequenceFrom ts none) (IsSequenceOf ts) := by
  have hfrom : Term.sequenceFrom ts none = SequenceParts.build ⟨ts, none⟩ := by
    rw [Term.sequenceFrom, Option.toList_none, List.mapM_nil, pure_bind, List.append_nil,
      Term.sequence_of_isItem h]
  rw [hfrom]
  rcases ts with _ | ⟨t, _ | _⟩
  · exact (Term.always_new _).mono fun u hu => .inr ⟨by simp, hu⟩
  · exact .pure (.inl rfl)
  · exact (Term.always_new _).mono fun u hu => .inr ⟨by simp, hu⟩

theorem isRigid_seq {ts : List Term} (hu : u.node = .seq ts none) (hlen : ts.length ≠ 1)
    (h : ∀ t ∈ ts, t.isItem ∧ t.IsRigid) : u.IsRigid := by
  have hseq : (Node.seq ts none).isRigid := by
    simp only [Node.isRigid, Bool.and_eq_true, List.all_eq_true, bne_iff_ne]
    exact ⟨⟨rfl, hlen⟩, fun t ht => (h t ht).1⟩
  refine Term.everyNode_iff.mpr ⟨?_, fun c hc => ?_, ?_⟩
  · rw [Term.isRigidNode, Term.isLookup, Lookup.ofCall?, hu, hseq, Bool.or_true]
    rfl
  · rw [Term.children, hu] at hc
    exact (h c hc).2
  · rw [Term.frames, hu]
    exact List.forall_mem_nil _

theorem joint_of_sequences {as bs : List Term} (h : List.Forall₂ (Joint θ) as bs)
    (has : ∀ a ∈ as, a.isItem) (hbs : ∀ b ∈ bs, b.isItem) (hl : IsSequenceOf as l)
    (hr : IsSequenceOf bs r) : Joint θ l r := by
  have hlen := h.length_eq
  have hjoint (hone : as.length ≠ 1) (hl : l.node = .seq as none) (hr : r.node = .seq bs none) :
      Joint θ l r := by
    have hreads {ts ss : List Term} {u : Term} (hu : u.node = .seq ts none) (hrigid : u.IsRigid)
        (h : List.Forall₂ (Reads θ) ts ss) : Reads θ u (Term.canonical (.seq ss none)) := by
      refine Mirrors.reads ⟨?_, ?_⟩ hrigid (by rw [Term.isVar, hu]; rfl)
      · rw [hu, Node.head, Node.head, h.length_eq]
      · rw [Term.children, hu]
        exact h
    have hl' : l.IsRigid := isRigid_seq hl hone fun a ha => by
      obtain ⟨_, -, hab⟩ := PairedLists.exists_mem h ha
      exact ⟨has a ha, hab.left⟩
    have hr' : r.IsRigid := isRigid_seq hr (hlen ▸ hone) fun b hb => by
      obtain ⟨_, -, hab⟩ := PairedLists.exists_mem h.flip hb
      exact ⟨hbs b hb, Joint.right hab⟩
    obtain ⟨ss, hass, hbss⟩ := exists_common h
    exact ⟨hl', hr', _, hreads hl hl' hass, hreads hr hr' hbss⟩
  rcases hl with rfl | ⟨hone, hl⟩ <;> rcases hr with rfl | ⟨hone', hr⟩
  · cases h with
    | cons h _ => exact h
  · exact absurd hlen.symm hone'
  · exact absurd hlen hone
  · exact hjoint hone hl hr

/-- Aligned items are paired, and so are the items that are left; these begin with a part of sort `K`. -/
theorem alignedItems_spec {as bs : List Term} (h : List.Forall₂ (Joint θ) as bs) :
    ∃ aligned as' bs', alignedItems as bs = (aligned, as', bs') ∧
      (∀ e ∈ aligned, Joint θ e.1 e.2) ∧ List.Forall₂ (Joint θ) as' bs' ∧
      as'.Sublist as ∧ bs'.Sublist bs ∧ ((as' ++ bs').any (·.sort == .k) = false → as' = [] ∧ bs' = []) := by
  induction h with
  | nil => exact ⟨[], [], [], rfl, List.forall_mem_nil _, .nil, .refl _, .refl _, fun _ => ⟨rfl, rfl⟩⟩
  | @cons a b as bs hab hrest ih =>
    obtain ⟨aligned, as', bs', heq, haligned, hjoint, has, hbs, hempty⟩ := ih
    by_cases hk : a.sort = .k ∨ b.sort = .k
    · refine ⟨[], a :: as, b :: bs, by simp [alignedItems, hk], List.forall_mem_nil _, .cons hab hrest,
        .refl _, .refl _, fun hany => ?_⟩
      rw [List.any_eq_false] at hany
      rcases hk with hk | hk
      · exact absurd (beq_iff_eq.mpr hk) (hany a (by simp))
      · exact absurd (beq_iff_eq.mpr hk) (hany b (by simp))
    · refine ⟨(a, b) :: aligned, as', bs', ?_, List.forall_mem_cons.mpr ⟨hab, haligned⟩, hjoint,
        has.cons a, hbs.cons b, hempty⟩
      rw [alignedItems, if_neg (by simpa using hk), heq]

theorem always_ofSequences {as bs : List Term} (hl : l.node = .seq as none) (hr : r.node = .seq bs none)
    (h : Joint θ l r) (hjoint : List.Forall₂ (Joint θ) as bs) (has : ∀ a ∈ as, a.isItem)
    (hbs : ∀ b ∈ bs, b.isItem) : Always (ofSequences l r) (Keeps θ) := by
  have hviews : Matching.sequenceView l = (as, none) ∧ Matching.sequenceView r = (bs, none) := by
    rw [Matching.sequenceView, Matching.sequenceView, hl, hr]
    exact ⟨rfl, rfl⟩
  obtain ⟨aligned, as', bs', heq, haligned, hrest, hsubl, hsubr, hempty⟩ := alignedItems_spec hjoint
  unfold ofSequences
  rw [hviews.1, hviews.2]
  dsimp only
  rw [heq]
  dsimp only
  split
  · split
    · exact .pure h
    · refine (always_sequenceFrom fun a ha => has a (hsubl.subset ha)).bind fun x hx => ?_
      refine (always_sequenceFrom fun b hb => hbs b (hsubr.subset hb)).bind fun y hy => .pure ?_
      refine List.forall_mem_append.mpr ⟨haligned, List.forall_mem_singleton.mpr ?_⟩
      exact joint_of_sequences hrest (fun a ha => has a (hsubl.subset ha))
        (fun b hb => hbs b (hsubr.subset hb)) hx hy
  · rename_i hany
    obtain ⟨rfl, rfl⟩ := hempty (by simpa using hany)
    exact .pure haligned

/-! ### Maps -/

/-- Maps with the same ground keys have their values paired. -/
theorem commonValues_spec {es es' : List (Term × Term)}
    (hsorted : es.Pairwise fun a b => a.1.cmp b.1 = .lt)
    (h : List.Forall₂ (fun e e' => e.1 == e'.1 ∧ Joint θ e.2 e'.2) es es') :
    ∃ common, commonValues es es' = some common ∧ ∀ e ∈ common, Joint θ e.1 e.2 := by
  have hvalue : ∀ e ∈ es, ∃ w, SortedList.get? e.1 es' = some w ∧ Joint θ e.2 w := by
    intro e he
    obtain ⟨e', he', hkey, -⟩ := PairedLists.exists_mem h he
    have hfound : (es'.find? (·.1 == e.1)).isSome :=
      List.find?_isSome.mpr ⟨e', he', BEq.symm hkey⟩
    obtain ⟨f', hf'⟩ := Option.isSome_iff_exists.mp hfound
    obtain ⟨f, hf, hfkey, hjoint⟩ := PairedLists.exists_mem h.flip (List.mem_of_find?_eq_some hf')
    have hff' := List.find?_some (p := fun f : Term × Term => f.1 == e.1) hf'
    have hdiffer : es.Pairwise fun a b => ¬a.1 == b.1 ∧ ¬b.1 == a.1 :=
      hsorted.imp fun hlt => by simp [Term.beq_false_of_lt hlt, BEq.comm (a := Prod.fst _)]
    obtain rfl : f = e := SortedList.eq_of_pairwise (R := fun a b : Term × Term => a.1 == b.1)
      hdiffer hf he (BEq.trans hfkey hff')
    exact ⟨f'.2, by rw [SortedList.get?, hf']; rfl, hjoint⟩
  clear h hsorted
  unfold commonValues
  induction es with
  | nil => exact ⟨[], rfl, List.forall_mem_nil _⟩
  | cons e es ih =>
    obtain ⟨⟨w, hw, hjoint⟩, hvalue⟩ := List.forall_mem_cons.mp hvalue
    obtain ⟨common, hcommon, hall⟩ := ih hvalue
    refine ⟨(e.2, w) :: common, ?_, List.forall_mem_cons.mpr ⟨hjoint, hall⟩⟩
    rw [List.mapM_cons, hw, hcommon]
    rfl

theorem always_ofMaps {ops : CollectionOps} {es es' : List (Term × Term)}
    (hes : es.Pairwise fun a b => a.1.cmp b.1 = .lt) (hground : ∀ e ∈ es, e.1.isGround)
    (hground' : ∀ e ∈ es', e.1.isGround)
    (h : List.Forall₂ (fun e e' => Joint θ e.1 e'.1 ∧ Joint θ e.2 e'.2) es es') :
    Always (ofMaps ⟨ops, es, []⟩ ⟨ops, es', []⟩ l r) (Keeps θ) := by
  have hpaired : List.Forall₂ (fun e e' => e.1 == e'.1 ∧ Joint θ e.2 e'.2) es es' := by
    refine PairedLists.imp_mem h fun e he e' he' hee' => ⟨?_, hee'.2⟩
    obtain ⟨s, hs, hs'⟩ := hee'.1.common
    exact BEq.trans (hs.beq_of_isGround (hground e he))
      (BEq.symm (hs'.beq_of_isGround (hground' e' he')))
  obtain ⟨common, hcommon, hall⟩ := commonValues_spec hes hpaired
  have hkeys : MapView.hasGroundKeys ⟨ops, es, []⟩ ∧ MapView.hasGroundKeys ⟨ops, es', []⟩ :=
    ⟨List.all_eq_true.mpr hground, List.all_eq_true.mpr hground'⟩
  unfold ofMaps
  rw [hkeys.1, hkeys.2]
  dsimp only [List.isEmpty_nil]
  rw [if_neg (by simp), if_pos h.length_eq, hcommon]
  exact .pure hall

/-! ### Cells -/

theorem always_ofCells {as bs : List Cell} (h : Joint θ l r)
    (hsorted : as.Pairwise fun c d => compare c.label d.label = .lt)
    (hcells : List.Forall₂ (fun c d => c.label = d.label ∧ c.multiplicity = d.multiplicity ∧
      Joint θ c.content d.content) as bs) : Always (ofCells as bs [] [] l r) (Keeps θ) := by
  have hfound {as bs : List Cell} (hlabels : List.Forall₂ (fun c d => c.label = d.label) as bs) :
      as.filter (fun c => (cellLabelled? c.label bs).isNone) = [] := by
    refine List.filter_eq_nil_iff.mpr fun c hc hnone => ?_
    obtain ⟨d, hd, hcd⟩ := PairedLists.exists_mem hlabels hc
    exact List.find?_eq_none.mp (Option.isNone_iff_eq_none.mp hnone) d hd (beq_iff_eq.mpr hcd.symm)
  have hlabels : List.Forall₂ (fun c d : Cell => c.label = d.label) as bs := hcells.imp fun _ _ h => h.1
  have hcommon : ∀ e ∈ as.filterMap fun c => (cellLabelled? c.label bs).map fun d =>
      (c.content, d.content), Joint θ e.1 e.2 := by
    intro e he
    obtain ⟨c, hc, he⟩ := List.mem_filterMap.mp he
    obtain ⟨d, hd, rfl⟩ := Option.map_eq_some_iff.mp he
    obtain ⟨c', hc', hlabel, -, hjoint⟩ := PairedLists.exists_mem hcells.flip (List.mem_of_find?_eq_some hd)
    have hd' := List.find?_some (p := fun d : Cell => d.label == c.label) hd
    have hdiffer : as.Pairwise fun c d => ¬c.label = d.label ∧ ¬d.label = c.label :=
      hsorted.imp fun {c d} hlt => by
        have hne : c.label ≠ d.label := fun heq => by
          cases (Std.LawfulEqCmp.compare_eq_iff_eq.mpr heq).symm.trans hlt
        exact ⟨hne, hne.symm⟩
    obtain rfl : c' = c := SortedList.eq_of_pairwise (R := fun c d : Cell => c.label = d.label)
      hdiffer hc' hc (hlabel.trans (beq_iff_eq.mp hd'))
    exact hjoint
  unfold ofCells
  split
  · exact .pure h
  · dsimp only [List.head?_nil]
    rw [hfound hlabels, hfound (hlabels.flip.imp fun _ _ h => h.symm)]
    exact .pure hcommon

/-! ### Nodes -/

section Nodes
variable (h : Joint θ l r) (hl : l.isVar = false) (hr : r.isVar = false) (hne : ¬l == r)
include h hl hr hne

theorem always_ofNodes (hseq : isSequence l = false) : Always (ofNodes l r) (Keeps θ) := by
  have halike : Node.Alike (Joint θ) l.node r.node := Node.alike_of_head (h.head hl hr) (h.children hl hr)
  have hrigid := h.isRigid hl hr hne
  have hrigid' := h.symm.isRigid hr hl fun hbeq => hne (BEq.symm hbeq)
  have hleaf (hequal : Node.Alike (fun t u => t == u) l.node r.node) : Always (ofNodes l r) (Keeps θ) :=
    (hne (Term.beq_of_alike hequal)).elim
  unfold isSequence at hseq
  generalize hm : l.node = m, hn : r.node = n at halike hrigid hrigid' hleaf hseq
  cases halike with
  | app hargs =>
    unfold ofNodes
    rw [hm, hn]
    refine .pure ?_
    rw [if_pos (by simp [hargs.length_eq])]
    exact keeps_zip hargs
  | freezer hf hargs =>
    unfold ofNodes
    rw [hm, hn]
    refine .pure ?_
    rw [if_pos hargs.length_eq]
    exact List.forall_mem_cons.mpr ⟨hf, keeps_zip hargs⟩
  | list hleft hbase hright =>
    simp only [Node.isRigid, Bool.and_eq_true, List.isEmpty_iff] at hrigid
    obtain ⟨⟨-, rfl⟩, rfl⟩ := hrigid
    cases hbase
    cases hright
    unfold ofNodes
    rw [hm, hn]
    dsimp only
    rw [if_pos rfl]
    refine .pure ?_
    rw [if_pos hleft.length_eq]
    exact keeps_zip hleft
  | map hes hbase =>
    simp only [Node.isRigid, Bool.and_eq_true, decide_eq_true_eq, List.all_eq_true,
      List.isEmpty_iff] at hrigid hrigid'
    obtain ⟨⟨hsorted, hground⟩, rfl⟩ := hrigid
    cases hbase
    unfold ofNodes
    rw [hm, hn]
    dsimp only
    rw [if_pos rfl]
    exact always_ofMaps hsorted hground hrigid'.1.2 hes
  | cells hcells =>
    simp only [Node.isRigid, Bool.and_eq_true, decide_eq_true_eq, List.isEmpty_iff] at hrigid
    obtain ⟨hsorted, rfl⟩ := hrigid
    unfold ofNodes
    rw [hm, hn]
    exact always_ofCells h hsorted hcells
  | seq => cases hseq
  | token => exact hleaf .token
  | hole => exact hleaf .hole
  | labelValue => exact hleaf .labelValue
  | var =>
    rw [Term.isVar, hm] at hl
    cases hl
  | set | rewrite | disjunction | rightSides => cases hrigid

end Nodes

/-! ### Equations -/

theorem isItem_of_isSequence (h : isSequence t) : t.isItem = false := by
  unfold isSequence at h
  unfold Term.isItem
  split at h
  · rename_i hn
    rw [hn]
  · cases h

/-- A variable that cannot stand for a sequence has no instance in common with one. -/
theorem not_isVar_of_untaken (h : Joint θ l r)
    (htakes : (l.asVar?.filter fun v => v.sort == .k || !isSequence r) = none) : l.isVar = false := by
  by_contra hvar
  obtain ⟨v, hn⟩ := Term.exists_var (by simpa using hvar)
  rw [Term.asVar?_of_var hn, Option.filter_some] at htakes
  split at htakes
  · cases htakes
  rename_i hk
  simp only [Bool.or_eq_true, beq_iff_eq, Bool.not_eq_true', not_or, Bool.not_eq_false] at hk
  obtain ⟨s, hls, hrs⟩ := h.common
  obtain ⟨-, -, -, hsort⟩ := hls.names hn
  have hs := Term.isItem_of_subsort hk.1 hsort
  have hr : r.isVar = false := by
    by_contra hr
    obtain ⟨w, hw⟩ := Term.exists_var (by simpa using hr)
    have := hk.2
    rw [isSequence, hw] at this
    cases this
  rw [← Term.isItem_of_head (hrs.mirrors h.right hr).head, isItem_of_isSequence hk.2] at hs
  cases hs

theorem always_ofSequence (h : Joint θ l r) (hl : l.isVar = false) (hr : r.isVar = false)
    (hne : ¬l == r) (hseq : isSequence l || isSequence r) : Always (ofSequences l r) (Keeps θ) := by
  have halike : Node.Alike (Joint θ) l.node r.node := Node.alike_of_head (h.head hl hr) (h.children hl hr)
  have hrigid := h.isRigid hl hr hne
  have hrigid' := h.symm.isRigid hr hl fun hbeq => hne (BEq.symm hbeq)
  unfold isSequence at hseq
  generalize hm : l.node = m, hn : r.node = n at halike hrigid hrigid' hseq
  cases halike with
  | seq hitems =>
    simp only [Node.isRigid, Bool.and_eq_true, List.all_eq_true, Option.isNone_iff_eq_none] at hrigid hrigid'
    obtain ⟨⟨rfl, -⟩, has⟩ := hrigid
    exact always_ofSequences hm hn h hitems has hrigid'.2
  | _ => cases hseq

/-- The decomposition of an equation that the bindings solve is solved by them. -/
theorem always_of (h : Joint θ l r) (hne : ¬l == r) (isCall : Term → Bool) :
    Always (of isCall l r) (Keeps θ) := by
  have hne' : ¬r == l := fun hbeq => hne (BEq.symm hbeq)
  have hrewrite {t : Term} (ht : t.IsRigid) {a b : Term} (hn : t.node = .rewrite a b) : False := by
    have hchoice := ht.node.1
    rw [hn] at hchoice
    cases hchoice
  unfold of
  split
  · exact (hrewrite h.left ‹_›).elim
  · exact (hrewrite h.right ‹_›).elim
  · dsimp only
    split
    · rename_i v _ htakes
      exact .pure (keeps_ofVar (Term.node_of_asVar? (Option.eq_some_of_filter_eq_some htakes)) h hne isCall)
    · rename_i v _ htakes
      exact .pure (keeps_ofVar (Term.node_of_asVar? (Option.eq_some_of_filter_eq_some htakes)) h.symm hne'
        isCall)
    · rename_i hl hr
      have hl := not_isVar_of_untaken h hl
      have hr := not_isVar_of_untaken h.symm hr
      split
      · exact always_ofSequence h hl hr hne ‹_›
      · rename_i hseq
        rw [Bool.or_eq_true, not_or, Bool.not_eq_true] at hseq
        split
        · exact .pure h
        · exact always_ofNodes h hl hr hne hseq.1

end Decomposition

end RuleCompiler
