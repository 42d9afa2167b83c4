import RuleCompiler.Proofs.Builder.Canonical
import RuleCompiler.Proofs.Renaming.Relation
import RuleCompiler.Proofs.Sharing.Rebuild

/-! # Renamed terms in normal form

Builders sort cells by label and content and frames by name and id, so cells that differ only in their
multiplicities and frames that differ only in their sorts stay in the order they came in. Where no such
parts meet, terms in normal form that are equal up to the order of unordered parts are equal. -/

namespace RuleCompiler

open Node (Alike Reorders)

/-! ### Ties -/

/-- Whether parts of the group that builders do not tell apart are equal: cells of one label have one
multiplicity, frames of one name and id one sort. -/
def CellParts.isUntied (p : CellParts) : Bool :=
  decide ((∀ c ∈ p.cells, ∀ d ∈ p.cells, c.label = d.label → c.multiplicity = d.multiplicity) ∧
    ∀ v ∈ p.frames, ∀ w ∈ p.frames, v.name = w.name → v.id = w.id → v.sort = w.sort)

namespace Term

/-- Whether the node, if it is a group of cells, has no ties. -/
def isUntied (t : Term) : Bool :=
  match t.node with
  | .cells cs frames => CellParts.isUntied ⟨cs, frames⟩
  | _ => true

/-- Whether nothing in the keys of the node, if it is a map, and in the elements, if it is a set, has
ties. -/
def hasUntiedKeys (t : Term) : Bool :=
  match t.node with
  | .map _ entries _ => entries.all fun e => e.1.everyNode isUntied
  | .set _ elements _ => elements.all fun e => e.everyNode isUntied
  | _ => true

end Term

/-- Whether the node lists its parts in an order that does not matter. -/
def Node.isUnordered {α : Type} : Node α → Bool
  | .map .. | .set .. | .cells .. => true
  | _ => false

@[simp] theorem Node.isUnordered_mapVars {α : Type} {ρ : Var → Var} (n : Node α) :
    (n.mapVars ρ).isUnordered = n.isUnordered := by cases n <;> rfl

theorem Node.Alike.isUnordered_eq {α : Type} {R : α → α → Prop} {m n : Node α} (h : Alike R m n) :
    n.isUnordered = m.isUnordered := by cases h <;> rfl

namespace Term

variable {ρ : Var → Var} {ops : CollectionOps} {t t' u u' : Term}

/-! ### Renamed nodes -/

theorem Renames.alike (h : t.Renames ρ u) (hn : t.node.isUnordered = false) :
    Alike (Renames ρ) (t.node.mapVars ρ) u.node := by
  obtain ⟨m, halike, ho⟩ := renames_iff.mp h
  have hm : m.isUnordered = false := by rw [halike.isUnordered_eq, Node.isUnordered_mapVars, hn]
  generalize u.node = n at ho
  cases ho with
  | refl => exact halike
  | map | set | cells => cases hm

/-- What stands below the renamed term is renamed. -/
theorem Renames.exists_child (h : t.Renames ρ u) {d : Term} (hd : d ∈ u.children) :
    ∃ c ∈ t.children, c.Renames ρ d := by
  obtain ⟨-, hc, ho⟩ := h
  exact PairedLists.exists_mem hc.flip (ho.perm_children.mem_iff.mpr hd)

/-- What `p` reads off a node is read off the renamed node too, if `p` looks at no order and `f` follows
the names. -/
theorem Renames.read_eq {β : Type} {p : Term → β} {f : β → β} (h : t.Renames ρ u)
    (hnames : ∀ n, p ⟨{}, n.mapVars ρ⟩ = f (p ⟨{}, n⟩))
    (halike : ∀ {m n}, Alike (Renames ρ) m n → p ⟨{}, n⟩ = p ⟨{}, m⟩)
    (horder : ∀ {m n}, Reorders m n → p ⟨{}, n⟩ = p ⟨{}, m⟩) :
    p ⟨{}, u.node⟩ = f (p ⟨{}, t.node⟩) := by
  obtain ⟨m, hm, ho⟩ := renames_iff.mp h
  rw [horder ho, halike hm, hnames]

theorem Renames.asVar?_eq (h : t.Renames ρ u) : u.asVar? = t.asVar?.map ρ :=
  h.read_eq (p := asVar?) (fun n => by cases n <;> rfl) (fun h => by cases h <;> rfl)
    fun h => by cases h <;> rfl

theorem Renames.isVar_eq (h : t.Renames ρ u) : u.isVar = t.isVar :=
  h.read_eq (p := isVar) (f := id) (fun n => by cases n <;> rfl) (fun h => by cases h <;> rfl)
    fun h => by cases h <;> rfl

theorem Renames.isLone_eq (h : t.Renames ρ u) : u.isLone = t.isLone := by
  refine h.read_eq (p := isLone) (f := id) (fun n => by cases n <;> rfl) (fun h => ?_)
    fun h => by cases h <;> rfl
  cases h with
  | list hl hb hr =>
    cases hl with
    | nil => rfl
    | cons _ hl => cases hl <;> cases hb <;> cases hr <;> rfl
  | _ => rfl

theorem Renames.isRun_eq (h : t.Renames ρ u) : ListParts.isRun ops u = ListParts.isRun ops t := by
  refine h.read_eq (p := ListParts.isRun ops) (f := id) (fun n => by cases n <;> rfl) (fun h => ?_)
    fun h => by cases h <;> rfl
  cases h with
  | list hl hb hr => cases hl <;> cases hb <;> cases hr <;> rfl
  | _ => rfl

theorem Renames.isPlain_eq (h : t.Renames ρ u) : SequenceParts.isPlain u = SequenceParts.isPlain t :=
  h.read_eq (p := SequenceParts.isPlain) (f := id) (fun n => by cases n <;> rfl)
    (fun h => by cases h <;> rfl) fun h => by cases h <;> rfl

theorem Renames.isListOf_eq (h : t.Renames ρ u) : u.isListOf ops = t.isListOf ops :=
  h.read_eq (p := isListOf ops) (f := id) (fun n => by cases n <;> rfl) (fun h => by cases h <;> rfl)
    fun h => by cases h <;> rfl

theorem Renames.isMapOf_eq (h : t.Renames ρ u) : u.isMapOf ops = t.isMapOf ops :=
  h.read_eq (p := isMapOf ops) (f := id) (fun n => by cases n <;> rfl) (fun h => by cases h <;> rfl)
    fun h => by cases h <;> rfl

theorem Renames.isSetOf_eq (h : t.Renames ρ u) : u.isSetOf ops = t.isSetOf ops :=
  h.read_eq (p := isSetOf ops) (f := id) (fun n => by cases n <;> rfl) (fun h => by cases h <;> rfl)
    fun h => by cases h <;> rfl

theorem Renames.isUnit_eq (h : t.Renames ρ u) : ops.isUnit u = ops.isUnit t := by
  refine h.read_eq (p := ops.isUnit) (f := id) (fun n => by cases n <;> rfl) (fun h => ?_)
    fun h => by cases h <;> rfl
  cases h with
  | app h => cases h <;> rfl
  | _ => rfl

theorem Renames.isPart_list_eq (h : t.Renames ρ u) : ListParts.isPart ops u = ListParts.isPart ops t := by
  rw [ListParts.isPart, ListParts.isPart, h.isListOf_eq, h.isUnit_eq]

theorem Renames.isPart_map_eq (h : t.Renames ρ u) : MapParts.isPart ops u = MapParts.isPart ops t := by
  rw [MapParts.isPart, MapParts.isPart, h.isMapOf_eq, h.isUnit_eq]

theorem Renames.isPart_set_eq (h : t.Renames ρ u) : SetParts.isPart ops u = SetParts.isPart ops t := by
  rw [SetParts.isPart, SetParts.isPart, h.isSetOf_eq, h.isUnit_eq]

section Sorts
variable (hρ : ∀ v, (ρ v).sort = v.sort)
include hρ

theorem Renames.segment?_eq (h : t.Renames ρ u) : Matching.segment? u = (Matching.segment? t).map ρ := by
  rw [Matching.segment?, Matching.segment?, h.asVar?_eq]
  cases t.asVar? with
  | none => rfl
  | some v => by_cases hv : v.sort = .k <;> simp [Option.filter, hρ, hv]

theorem Renames.isUnresolved_eq (h : t.Renames ρ u) (p : ListParts) : p.isUnresolved u = p.isUnresolved t := by
  have hvar : (u.isVar && u.sort == p.ops.sort) = (t.isVar && t.sort == p.ops.sort) := by
    rw [h.isVar_eq]
    cases hv : t.isVar with
    | false => rfl
    | true =>
      obtain ⟨v, hn⟩ := exists_var hv
      have hu : u.node = .var (ρ v) := node_of_asVar? (by rw [h.asVar?_eq, asVar?_of_var hn]; rfl)
      simp only [sort_eq t, sort_eq u, hn, hu, hρ]
  rw [ListParts.isUnresolved, ListParts.isUnresolved, hvar]

theorem Renames.isItem_eq (h : t.Renames ρ u) : ListParts.isItem ops u = ListParts.isItem ops t := by
  rw [ListParts.isItem, ListParts.isItem, h.isPart_list_eq, h.isUnresolved_eq hρ]

end Sorts

end Term

/-! ### Nodes in order -/

theorem ListParts.runsApart_congr {ops : CollectionOps} (bs : List Term) : ∀ {bs' : List Term},
    List.Forall₂ (fun b b' => isPart ops b' = isPart ops b ∧ isRun ops b' = isRun ops b) bs bs' →
      runsApart ops bs' = runsApart ops bs := by
  induction bs using runsApart.induct with
  | case1 =>
    rintro _ ⟨⟩
    rfl
  | case2 b =>
    rintro _ (_ | ⟨hb, ⟨⟩⟩)
    rw [runsApart, runsApart, hb.1]
  | case3 b c bs ih ih' =>
    rintro _ (_ | ⟨hb, _ | ⟨hc, h⟩⟩)
    rw [runsApart, runsApart, hb.1, hc.2, ih h, ih' (.cons hc h), PairedLists.isEmpty_eq h]

section Ordered
variable {ρ : Var → Var} {ops : CollectionOps} (hρ : ∀ v, (ρ v).sort = v.sort)

theorem Term.all_of_renames {p : Term → Bool} (hp : ∀ {c d : Term}, c.Renames ρ d → p d = p c) {cs ds : List Term}
    (h : List.Forall₂ (Term.Renames ρ) cs ds) : ds.all p = cs.all p :=
  PairedLists.all_eq (h.flip.imp fun _ _ h => hp h)

include hρ

theorem SequenceParts.isSettled_of_renames {items items' : List Term} {frame : Option Var}
    (h : List.Forall₂ (Term.Renames ρ) items items') (hedit : ∀ c ∈ items', c.isEditable = false)
    (hsettled : isSettled ⟨items, frame⟩) : isSettled ⟨items', frame.map ρ⟩ := by
  rw [isSettled, Bool.and_eq_true, isProper_iff] at hsettled ⊢
  obtain ⟨⟨hplain, hone, hnil, hsort, hlast⟩, -⟩ := hsettled
  refine ⟨⟨fun d hd => ?_, fun hlen => ?_, fun hnil' => ?_, fun v hv => ?_, fun hframe d hd => ?_⟩,
    List.all_eq_true.mpr fun d hd => by simp [hedit d hd]⟩
  · obtain ⟨c, hc, hcd⟩ := PairedLists.exists_mem h.flip hd
    exact hcd.isPlain_eq ▸ hplain c hc
  · simpa using hone (h.length_eq.trans hlen)
  · dsimp only at hnil'
    subst hnil'
    cases h
    simpa using hnil rfl
  · obtain ⟨w, hw, rfl⟩ := Option.map_eq_some_iff.mp hv
    rw [hρ]
    exact hsort w hw
  · rw [List.getLast?_eq_getElem?, ← h.length_eq] at hd
    obtain ⟨c, hc, hcd⟩ := PairedLists.exists_getElem? h.flip hd
    rw [← List.getLast?_eq_getElem?] at hc
    rw [hcd.segment?_eq hρ, hlast (by simpa using hframe) c hc]
    rfl

theorem ListParts.isSettled_of_renames {left left' base base' right right' : List Term}
    (hl : List.Forall₂ (Term.Renames ρ) left left') (hb : List.Forall₂ (Term.Renames ρ) base base')
    (hr : List.Forall₂ (Term.Renames ρ) right right') (hedit : ∀ c ∈ base', c.isEditable = false)
    (hsettled : isSettled { ops, left, base, right }) :
    isSettled { ops, left := left', base := base', right := right' } := by
  have hparts : List.Forall₂ (fun b b' => isPart ops b' = isPart ops b ∧ isRun ops b' = isRun ops b) base base' :=
    hb.imp fun _ _ h => ⟨h.isPart_list_eq, h.isRun_eq⟩
  simp only [isSettled, Bool.and_eq_true, List.all_append] at hsettled ⊢
  rw [Term.all_of_renames (Term.Renames.isItem_eq hρ) hl, Term.all_of_renames (Term.Renames.isItem_eq hρ) hr,
    PairedLists.isEmpty_eq hb.flip, PairedLists.isEmpty_eq hl.flip, PairedLists.isEmpty_eq hr.flip,
    hb.flip.length_eq, runsApart_congr base hparts]
  refine ⟨hsettled.1, ?_⟩
  replace hsettled := hsettled.2
  split
  · rename_i hnil
    rwa [if_pos hnil] at hsettled
  · rename_i hnil
    rw [if_neg hnil, Bool.and_eq_true, List.all_eq_true] at hsettled
    rw [Bool.and_eq_true, List.all_eq_true]
    refine ⟨hsettled.1, fun d hd => ?_⟩
    obtain ⟨c, hc, hcd⟩ := PairedLists.exists_mem hb.flip hd
    have hc := hsettled.2 c hc
    rw [hcd.isRun_eq, hcd.isUnresolved_eq hρ]
    split
    · rw [hedit d hd]
      rfl
    · rename_i hrun
      rwa [if_neg hrun] at hc

/-- A node with ordered parts stays as builders leave it. -/
theorem Term.Renames.isSettled {t u : Term} (h : t.Renames ρ u) (hn : t.node.isUnordered = false)
    (hedit : ∀ c ∈ u.children, c.isEditable = false) (ht : t.isSettled) : u.isSettled := by
  have halike := h.alike hn
  have hchildren := fun d hd => h.exists_child (d := d) hd
  rw [Term.isSettled, Bool.and_eq_true, List.all_eq_true] at ht ⊢
  rw [children] at hchildren hedit ht ⊢
  rw [children] at hchildren
  generalize t.node = a, u.node = b at halike hn ht hchildren hedit
  have hlone (q q' : Term → Bool) (hq : ∀ c d, c.Renames ρ d → q' d = q c)
      (hall : ∀ c ∈ a.children, (!c.isLone || q c) = true) : ∀ d ∈ b.children, (!d.isLone || q' d) = true := by
    intro d hd
    obtain ⟨c, hc, hcd⟩ := hchildren d hd
    rw [hcd.isLone_eq, hq c d hcd]
    exact hall c hc
  cases a with
  | map | set | cells => cases hn
  | seq =>
    cases halike with
    | seq h => exact ⟨hlone _ _ (fun _ _ _ => rfl) ht.1, SequenceParts.isSettled_of_renames hρ h hedit ht.2⟩
  | list =>
    cases halike with
    | list hl hb hr =>
      refine ⟨hlone _ _ (fun _ _ h => h.isRun_eq) ht.1, ListParts.isSettled_of_renames hρ hl hb hr ?_ ht.2⟩
      exact fun c hc => hedit c (List.mem_append_right _ (List.mem_append_left _ hc))
  | _ => cases halike <;> exact ⟨hlone _ _ (fun _ _ _ => rfl) ht.1, rfl⟩

end Ordered

/-! ### Equality up to order -/

theorem CellParts.isUntied_iff {p : CellParts} : p.isUntied ↔
    (∀ c ∈ p.cells, ∀ d ∈ p.cells, c.label = d.label → c.multiplicity = d.multiplicity) ∧
      ∀ v ∈ p.frames, ∀ w ∈ p.frames, v.name = w.name → v.id = w.id → v.sort = w.sort :=
  decide_eq_true_iff

section UpToOrder
open Term (Equal)
variable {ops : CollectionOps} {base base' : List Term}

/-- Keys in strict order are told apart. -/
theorem MapParts.entries_eq_of_strict {es es' : List (Term × Term)}
    (hp : (es.map Term.entryCode).Perm (es'.map Term.entryCode))
    (hes : es.Pairwise fun a b => a.1.cmp b.1 = .lt) (hes' : es'.Pairwise fun a b => a.1.cmp b.1 = .lt) :
    es.map Term.entryCode = es'.map Term.entryCode :=
  SortedList.map_eq_of_perm (r := fun a b : List Symbol × List Symbol => Term.cmpCode a.1 b.1 = .lt)
    (fun h h' => (Term.not_lt_lt h h').elim) hp hes hes'

theorem MapParts.alike_of_sorted {es es₁ es' : List (Term × Term)} {base₁ : List Term}
    (halike : Node.Alike (fun c d : Term => c == d) (.map ops es base) (.map ops es₁ base₁)) (he : es₁.Perm es')
    (hb : base₁.Perm base') (h : isNormal { ops, entries := es, base })
    (h' : isNormal { ops, entries := es', base := base' }) :
    Node.Alike (fun c d : Term => c == d) (.map ops es base) (.map ops es' base') := by
  simp only [isNormal, Bool.and_eq_true, decide_eq_true_eq] at h h'
  cases halike with
  | map hes hbase =>
    have hcodes : es.map Term.entryCode = es₁.map Term.entryCode :=
      PairedLists.map_eq (hes.imp fun _ _ h => Prod.ext (Term.beq_iff.mp h.1) (Term.beq_iff.mp h.2))
    have hentries := entries_eq_of_strict (hcodes ▸ he.map _) h.1.1.1 h'.1.1.1
    refine .map (PairedLists.of_map_eq (fun e e' h => ?_) hentries)
      (Term.equal_of_sorted (Term.equal_iff.mp hbase ▸ hb.map _) h.1.1.2 h'.1.1.2)
    rw [Term.entryCode, Term.entryCode, Prod.mk.injEq] at h
    exact ⟨Term.beq_iff.mpr h.1, Term.beq_iff.mpr h.2⟩

theorem SetParts.alike_of_sorted {es es₁ es' base₁ : List Term}
    (halike : Node.Alike (fun c d : Term => c == d) (.set ops es base) (.set ops es₁ base₁)) (he : es₁.Perm es')
    (hb : base₁.Perm base') (h : isNormal { ops, elements := es, base })
    (h' : isNormal { ops, elements := es', base := base' }) :
    Node.Alike (fun c d : Term => c == d) (.set ops es base) (.set ops es' base') := by
  simp only [isNormal, Bool.and_eq_true, decide_eq_true_eq] at h h'
  cases halike with
  | set hes hbase =>
    refine .set (Term.equal_of_sorted (Term.equal_iff.mp hes ▸ he.map _) ?_ ?_)
      (Term.equal_of_sorted (Term.equal_iff.mp hbase ▸ hb.map _) h.1.1.2 h'.1.1.2)
    · exact h.1.1.1.imp fun h => by rw [h]; rfl
    · exact h'.1.1.1.imp fun h => by rw [h]; rfl

theorem CellParts.alike_of_sorted {cs cs₁ cs' : List Cell} {frames frames₁ frames' : List Var}
    (halike : Node.Alike (fun c d : Term => c == d) (.cells cs frames) (.cells cs₁ frames₁)) (hc : cs₁.Perm cs')
    (hf : frames₁.Perm frames') (h : isSettled ⟨cs, frames⟩) (h' : isSettled ⟨cs', frames'⟩)
    (hties : isUntied ⟨cs, frames⟩) :
    Node.Alike (fun c d : Term => c == d) (.cells cs frames) (.cells cs' frames') := by
  simp only [isSettled, isNormal, Bool.and_eq_true, decide_eq_true_eq] at h h'
  obtain ⟨hmultiplicity, hsorts⟩ := isUntied_iff.mp hties
  cases halike with
  | cells hcs =>
    have hframes := sort_frames_perm hf hsorts
    rw [SortedList.sort_eq_self h.1.2, SortedList.sort_eq_self h'.1.2] at hframes
    subst hframes
    have hcodes : cs.map cellCode = cs₁.map cellCode :=
      PairedLists.map_eq (hcs.imp fun _ _ h => Prod.ext h.1 (Term.beq_iff.mp h.2.2))
    have hsorted : cs.map cellCode = cs'.map cellCode :=
      SortedList.map_eq_of_perm (r := fun a b => (compareCodes a b).isLE) isLE_antisymm (hcodes ▸ hc.map _)
        h.1.1 h'.1.1
    refine .cells (PairedLists.imp_mem (PairedLists.of_map_eq (fun _ _ h => h) hsorted) fun c hc' d hd hcd => ?_)
    rw [cellCode, cellCode, Prod.mk.injEq] at hcd
    refine ⟨hcd.1, ?_, Term.beq_iff.mpr hcd.2⟩
    -- the cell comes from one of the same label, which has its multiplicity
    obtain ⟨e, he, hlabel, hmult, -⟩ := PairedLists.exists_mem hcs.flip (hc.mem_iff.mpr hd)
    exact (hmultiplicity c hc' e he (hcd.1.trans hlabel.symm)).trans hmult

end UpToOrder

namespace Term

variable {ρ : Var → Var} {t t' u u' : Term}

/-- Terms in normal form without ties are equal if they are equal up to the order of unordered parts. -/
theorem beq_of_renames_id (h : t.Renames id u) (ht : t.everyNode isSettled) (hu : u.everyNode isSettled)
    (hties : t.everyNode isUntied) : t == u := by
  induction t using Term.induction generalizing u with
  | h t ih =>
    obtain ⟨m, halike, ho⟩ := renames_iff.mp h
    rw [Node.mapVars_id] at halike
    obtain ⟨ht, hbelow, -⟩ := everyNode_iff.mp ht
    obtain ⟨hu, hbelow', -⟩ := everyNode_iff.mp hu
    obtain ⟨hties, htiesBelow, -⟩ := everyNode_iff.mp hties
    have hequal : Alike (fun c d : Term => c == d) t.node m := halike.imp_mem fun c hc d hd hcd =>
      ih c hc hcd (hbelow c hc) (hbelow' d (ho.perm_children.mem_iff.mp hd)) (htiesBelow c hc)
    refine beq_of_alike ?_
    rw [Term.isSettled, Bool.and_eq_true] at ht hu
    rw [isUntied] at hties
    replace ht := ht.2
    replace hu := hu.2
    clear halike hbelow hbelow' htiesBelow ih h
    generalize t.node = a, u.node = b at hequal ho ht hu hties
    cases ho with
    | refl => exact hequal
    | map he hb =>
      cases hequal with
      | map hes hbase => exact MapParts.alike_of_sorted (.map hes hbase) he hb ht hu
    | set he hb =>
      cases hequal with
      | set hes hbase => exact SetParts.alike_of_sorted (.set hes hbase) he hb ht hu
    | cells hc hf =>
      cases hequal with
      | cells hcs => exact CellParts.alike_of_sorted (.cells hcs) hc hf ht hu hties

/-- A renaming that tells variables apart tells terms in normal form without ties apart. -/
theorem Renames.beq_of_beq (h : t.Renames ρ u) (h' : t'.Renames ρ u')
    (hρ : Set.InjOn ρ {v | v ∈ t.vars ∨ v ∈ t'.vars}) (ht : t.everyNode Term.isSettled)
    (ht' : t'.everyNode Term.isSettled) (hties : t.everyNode isUntied) (hu : u == u') : t == t' := by
  have hinverse := hρ.leftInvOn_invFunOn
  have hback : u'.Renames (Function.invFunOn ρ {v | v ∈ t.vars ∨ v ∈ t'.vars}) t' :=
    h'.symm fun v hv => hinverse (.inr hv)
  have hboth := ((h.congr hu).comp hback).congr_vars (σ := id) fun v hv => hinverse (.inl hv)
  exact beq_of_renames_id hboth ht ht' hties

/-! ### Renamed keys -/

/-- A renaming under which frames are told apart by name and id as before leaves no ties. -/
theorem Renames.isUntied (h : t.Renames ρ u) (hρ : ∀ v ∈ t.vars, ∀ w ∈ t.vars,
    (ρ v).name = (ρ w).name → (ρ v).id = (ρ w).id → (v.name = w.name ∧ v.id = w.id)) (hsorts : ∀ v, (ρ v).sort = v.sort)
    (ht : t.everyNode Term.isUntied) : u.everyNode Term.isUntied := by
  induction t using Term.induction generalizing u with
  | h t ih =>
    obtain ⟨htop, hbelow, -⟩ := everyNode_iff.mp ht
    refine everyNode_iff.mpr ⟨?_, fun d hd => ?_, fun _ _ => rfl⟩
    · obtain ⟨m, halike, ho⟩ := renames_iff.mp h
      have hown := ownVars_subset t
      rw [Term.isUntied] at htop ⊢
      generalize t.node = a, u.node = b at halike ho htop hown
      cases a with
      | cells cs frames =>
        cases halike with
        | @cells _ cs₁ _ hcs =>
        obtain ⟨hmultiplicity, hframes⟩ := CellParts.isUntied_iff.mp htop
        have hmoved : ∃ cs' frames', b = .cells cs' frames' ∧ cs₁.Perm cs' ∧ (frames.map ρ).Perm frames' := by
          cases ho with
          | refl => exact ⟨_, _, rfl, .refl _, .refl _⟩
          | cells hc hf => exact ⟨_, _, rfl, hc, hf⟩
        obtain ⟨cs', frames', rfl, hc, hf⟩ := hmoved
        refine CellParts.isUntied_iff.mpr ⟨fun c hc' d hd' hlabel => ?_, fun v hv w hw hname hid => ?_⟩
        · obtain ⟨c₀, hc₀, hcl, hcm, -⟩ := PairedLists.exists_mem hcs.flip (hc.mem_iff.mpr hc')
          obtain ⟨d₀, hd₀, hdl, hdm, -⟩ := PairedLists.exists_mem hcs.flip (hc.mem_iff.mpr hd')
          exact hcm.symm.trans ((hmultiplicity c₀ hc₀ d₀ hd₀ (hcl.trans (hlabel.trans hdl.symm))).trans hdm)
        · obtain ⟨v, hv₀, rfl⟩ := List.mem_map.mp (hf.mem_iff.mpr hv)
          obtain ⟨w, hw₀, rfl⟩ := List.mem_map.mp (hf.mem_iff.mpr hw)
          obtain ⟨hname, hid⟩ := hρ v (hown hv₀) w (hown hw₀) hname hid
          rw [hsorts, hsorts]
          exact hframes v hv₀ w hw₀ hname hid
      | _ => cases halike <;> cases ho <;> rfl
    · obtain ⟨c, hc, hcd⟩ := h.exists_child hd
      refine ih c hc hcd (fun v hv w hw => ?_) (hbelow c hc)
      exact hρ v (vars_child hc hv) w (vars_child hc hw)

theorem Renames.hasUntiedKeys (h : t.Renames ρ u) (hρ : ∀ v ∈ t.vars, ∀ w ∈ t.vars,
    (ρ v).name = (ρ w).name → (ρ v).id = (ρ w).id → (v.name = w.name ∧ v.id = w.id)) (hsorts : ∀ v, (ρ v).sort = v.sort)
    (ht : t.everyNode Term.hasUntiedKeys) : u.everyNode Term.hasUntiedKeys := by
  induction t using Term.induction generalizing u with
  | h t ih =>
    obtain ⟨htop, hbelow, -⟩ := everyNode_iff.mp ht
    have hchild {c : Term} (hc : c ∈ t.children) : ∀ v ∈ c.vars, ∀ w ∈ c.vars,
        (ρ v).name = (ρ w).name → (ρ v).id = (ρ w).id → (v.name = w.name ∧ v.id = w.id) := fun v hv w hw =>
      hρ v (vars_child hc hv) w (vars_child hc hw)
    refine everyNode_iff.mpr ⟨?_, fun d hd => ?_, fun _ _ => rfl⟩
    · obtain ⟨m, halike, ho⟩ := renames_iff.mp h
      rw [Term.hasUntiedKeys] at htop ⊢
      rw [children] at hchild
      generalize t.node = a, u.node = b at halike ho htop hchild
      cases a with
      | map ops es base =>
        cases halike with
        | @map _ _ es₁ _ _ hes =>
        have hmoved : ∃ es' base', b = .map ops es' base' ∧ es₁.Perm es' := by
          cases ho with
          | refl => exact ⟨_, _, rfl, .refl _⟩
          | map he => exact ⟨_, _, rfl, he⟩
        obtain ⟨es', base', rfl, he⟩ := hmoved
        refine List.all_eq_true.mpr fun e he' => ?_
        obtain ⟨e₀, he₀, hkey, -⟩ := PairedLists.exists_mem hes.flip (he.mem_iff.mpr he')
        refine hkey.isUntied (hchild ?_) hsorts (List.all_eq_true.mp htop e₀ he₀)
        exact List.mem_append_left _ (List.mem_flatMap.mpr ⟨e₀, he₀, List.mem_cons_self⟩)
      | set ops es base =>
        cases halike with
        | @set _ _ es₁ _ _ hes =>
        have hmoved : ∃ es' base', b = .set ops es' base' ∧ es₁.Perm es' := by
          cases ho with
          | refl => exact ⟨_, _, rfl, .refl _⟩
          | set he => exact ⟨_, _, rfl, he⟩
        obtain ⟨es', base', rfl, he⟩ := hmoved
        refine List.all_eq_true.mpr fun e he' => ?_
        obtain ⟨e₀, he₀, hkey⟩ := PairedLists.exists_mem hes.flip (he.mem_iff.mpr he')
        exact hkey.isUntied (hchild (List.mem_append_left _ he₀)) hsorts (List.all_eq_true.mp htop e₀ he₀)
      | _ => cases halike <;> cases ho <;> rfl
    · obtain ⟨c, hc, hcd⟩ := h.exists_child hd
      exact ih c hc hcd (hchild hc) (hbelow c hc)

end Term

end RuleCompiler
