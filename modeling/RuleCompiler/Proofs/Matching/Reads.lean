import RuleCompiler.Proofs.Builder.Cells
import RuleCompiler.Proofs.Builder.List
import RuleCompiler.Proofs.Builder.Map
import RuleCompiler.Proofs.Builder.Set
import RuleCompiler.Proofs.Matching.Fits
import RuleCompiler.Proofs.Term.Walk

/-! # Patterns read under bindings

A pattern that is matched against a ground subject reads as the subject under the bindings: its
variables are bound to parts of it, and every node is made again from what its children read as. Which
subjects and which patterns this is so for is said node by node, for labels that carry one sort and one
multiplicity each. -/

namespace RuleCompiler

open Build (Always)
open MonadAttach (CanReturn)

namespace Term

/-- Whether every node and frame satisfies `q`. -/
def everyNode (q : Term → Bool) (t : Term) : Bool := !t.anyNode fun u => !q u

theorem everyNode_iff {q : Term → Bool} {t : Term} : t.everyNode q ↔
    q t ∧ (∀ c ∈ t.children, c.everyNode q) ∧ ∀ v ∈ t.frames, q (canonical (.var v)) := by
  simp only [everyNode, Bool.not_eq_true', anyNode_eq _ t, Bool.or_eq_false_iff, List.any_eq_false,
    Bool.not_eq_true, Bool.not_eq_false, Bool.not_eq_false', and_assoc, frameTerms, List.mem_map,
    forall_exists_index, and_imp, forall_apply_eq_imp_iff₂]

theorem anyNode_of_everyNode {q r : Term → Bool} {t : Term} (h : t.everyNode q)
    (hqr : ∀ u, q u → r u = false) : t.anyNode r = false := by
  induction t using Term.induction with
  | h t ih =>
    rw [everyNode_iff] at h
    obtain ⟨ht, hc, hf⟩ := h
    rw [anyNode_eq, Bool.or_eq_false_iff, Bool.or_eq_false_iff, List.any_eq_false, List.any_eq_false]
    refine ⟨⟨hqr t ht, fun c hm => ?_⟩, fun u hu => ?_⟩
    · rw [ih c hm (hc c hm)]
      exact Bool.false_ne_true
    · obtain ⟨v, hv, rfl⟩ := List.mem_map.mp hu
      rw [hqr _ (hf v hv)]
      exact Bool.false_ne_true

theorem everyNode_mono {q r : Term → Bool} {t : Term} (h : t.everyNode q) (hqr : ∀ u, q u → r u) :
    t.everyNode r := by
  rw [everyNode, Bool.not_eq_true']
  exact anyNode_of_everyNode h fun u hu => by rw [hqr u hu]; rfl

theorem everyNode_and {q r : Term → Bool} {t : Term} (hq : t.everyNode q) (hr : t.everyNode r) :
    t.everyNode fun u => q u && r u := by
  induction t using Term.induction with
  | h t ih =>
    rw [everyNode_iff] at hq hr ⊢
    obtain ⟨hqt, hqc, hqf⟩ := hq
    obtain ⟨hrt, hrc, hrf⟩ := hr
    refine ⟨?_, fun c hc => ih c hc (hqc c hc) (hrc c hc), fun v hv => ?_⟩
    · rw [hqt, hrt]
      rfl
    · rw [hqf v hv, hrf v hv]
      rfl

/-- Whether the term is a collection of nothing. -/
def isEmptyCollection (t : Term) : Bool :=
  match t.node with
  | .map _ [] [] | .set _ [] [] | .cells [] [] => true
  | _ => false

end Term

/-- What has neither variables nor rewrites nor disjunctions is only compared. -/
theorem Matching.isCompared_of_everyNode {t : Term}
    (h : t.everyNode fun u => !u.isVar && !u.isRewrite && !u.isDisjunction) : isCompared t := by
  have hvars : t.anyNode Term.isVar = false := Term.anyNode_of_everyNode h (by simp_all)
  have hrewrite : t.anyNode Term.isRewrite = false := Term.anyNode_of_everyNode h (by simp_all)
  have hdisjunction : t.anyNode Term.isDisjunction = false := Term.anyNode_of_everyNode h (by simp_all)
  rw [isCompared, Term.isGround, Term.hasRewrite, Term.hasDisjunction, hvars, hrewrite, hdisjunction]
  rfl

namespace Node

/-- Whether the parts are as builders leave those of ground terms. -/
def isNormal : Node Term → Bool
  | .seq items frame => SequenceParts.isNormal ⟨items, frame⟩
  | .list ops left base right => ListParts.isNormal { ops, left, base, right }
  | .map ops entries base => MapParts.isNormal { ops, entries, base }
  | .set ops elements base => SetParts.isNormal { ops, elements, base }
  | .cells cs frames => CellParts.isNormal ⟨cs, frames⟩
  | _ => true

/-- Whether an unknown part of a map or a set is a collection of nothing. -/
def holdsEmpty : Node Term → Bool
  | .map _ _ base | .set _ _ base => base.any Term.isEmptyCollection
  | _ => false

/-- Whether a matched node can be made again: its variables bind, lists among the parts of a list are
runs of known items of it, and keys and elements with variables are first-order. -/
def isOpen : Node Term → Bool
  | .var v => !v.isDontCare
  | .list ops _ base _ => base.all fun b => match b.node with
    | .list ops' _ [] right => ops' = ops && right.isEmpty
    | _ => true
  | .map _ entries _ => entries.all fun e => e.1.isFirstOrder fun _ => true
  | .set _ elements _ => elements.all (Term.isFirstOrder fun _ => true)
  | _ => true

end Node

/-- What labels carry: applications a sort, as the units of lists do, and cells a multiplicity. -/
structure Labelling where
  sort : String → SortName
  /-- The sort of frozen applications. -/
  frozen : SortName
  multiplicity : String → Multiplicity

namespace Labelling
variable (L : Labelling)

/-- Whether the labels of the node carry what they should. -/
def fits : Node Term → Bool
  | .app (.const l) _ s => s = L.sort l
  | .app (.freezer _) _ s => s = L.frozen
  | .list ops .. => ops.sort = L.sort ops.unit
  | .cells cs _ => cs.all fun c => c.multiplicity = L.multiplicity c.label
  | _ => true

def isSubjectNode (t : Term) : Bool :=
  L.fits t.node && t.node.isNormal && !t.isVar && !t.isRewrite && !t.isDisjunction &&
    !t.node.holdsEmpty

/-- Ground terms that builders made, with nothing empty among the parts of a map or a set. -/
def IsSubject (t : Term) : Prop := t.everyNode L.isSubjectNode

def isPatternNode (t : Term) : Bool :=
  !t.isRewrite && !t.isDisjunction && (t.isGround || L.fits t.node && t.node.isOpen)

/-- Terms without rewrites and disjunctions all of whose nodes with variables can be made again. -/
def IsPattern (t : Term) : Prop := t.everyNode L.isPatternNode

instance (t : Term) : Decidable (L.IsSubject t) := inferInstanceAs (Decidable (_ = true))

instance (t : Term) : Decidable (L.IsPattern t) := inferInstanceAs (Decidable (_ = true))

variable {L} {t c : Term}

/-! ### Subjects -/

namespace IsSubject

theorem node (h : L.IsSubject t) : L.isSubjectNode t := (Term.everyNode_iff.mp h).1

theorem child (h : L.IsSubject t) (hc : c ∈ t.children) : L.IsSubject c :=
  (Term.everyNode_iff.mp h).2.1 c hc

theorem intro (ht : L.isSubjectNode t) (hframes : t.frames = [])
    (hc : ∀ c ∈ t.children, L.IsSubject c) : L.IsSubject t :=
  Term.everyNode_iff.mpr ⟨ht, hc, by rw [hframes]; exact List.forall_mem_nil _⟩

theorem frames_eq (h : L.IsSubject t) : t.frames = [] := by
  rw [List.eq_nil_iff_forall_not_mem]
  intro v hv
  have hnode := (Term.everyNode_iff.mp h).2.2 v hv
  simp [isSubjectNode, Term.isVar, Node.isVar] at hnode

theorem isCompared (h : L.IsSubject t) : Matching.isCompared t :=
  Matching.isCompared_of_everyNode <| Term.everyNode_mono h fun u hu => by
    simp only [isSubjectNode, Bool.and_eq_true] at hu ⊢
    exact ⟨⟨hu.1.1.1.2, hu.1.1.2⟩, hu.1.2⟩

theorem isGround (h : L.IsSubject t) : t.isGround := Matching.isGround_of_isCompared h.isCompared

theorem fits (h : L.IsSubject t) : L.fits t.node := by
  have hnode := h.node
  simp only [isSubjectNode, Bool.and_eq_true] at hnode
  exact hnode.1.1.1.1.1

theorem isNormal (h : L.IsSubject t) : t.node.isNormal := by
  have hnode := h.node
  simp only [isSubjectNode, Bool.and_eq_true] at hnode
  exact hnode.1.1.1.1.2

theorem holdsEmpty (h : L.IsSubject t) : t.node.holdsEmpty = false := by
  have hnode := h.node
  simp only [isSubjectNode, Bool.and_eq_true, Bool.not_eq_true'] at hnode
  exact hnode.2

end IsSubject

/-! ### Patterns -/

namespace IsPattern

theorem node (h : L.IsPattern t) : L.isPatternNode t := (Term.everyNode_iff.mp h).1

theorem child (h : L.IsPattern t) (hc : c ∈ t.children) : L.IsPattern c :=
  (Term.everyNode_iff.mp h).2.1 c hc

theorem isCompared (h : L.IsPattern t) (ht : t.isGround) : Matching.isCompared t := by
  have hrewrite : t.hasRewrite = false :=
    Term.anyNode_of_everyNode h fun u hu => by simp_all [isPatternNode]
  have hdisjunction : t.hasDisjunction = false :=
    Term.anyNode_of_everyNode h fun u hu => by simp_all [isPatternNode]
  rw [Matching.isCompared, ht, hrewrite, hdisjunction]
  rfl

/-- What is only compared is a pattern. -/
theorem of_isCompared (h : Matching.isCompared t) : L.IsPattern t := by
  simp only [Matching.isCompared, Bool.and_eq_true, Bool.not_eq_true'] at h
  obtain ⟨⟨hground, hrewrite⟩, hdisjunction⟩ := h
  induction t using Term.induction with
  | h t ih =>
    rw [Term.hasRewrite, Term.anyNode_eq] at hrewrite
    rw [Term.hasDisjunction, Term.anyNode_eq] at hdisjunction
    simp only [Bool.or_eq_false_iff, List.any_eq_false, Bool.not_eq_true] at hrewrite hdisjunction
    obtain ⟨-, hchildren, hframes⟩ := Term.isGround_iff.mp hground
    refine Term.everyNode_iff.mpr ⟨?_, fun c hc => ?_, ?_⟩
    · rw [isPatternNode, hrewrite.1.1, hdisjunction.1.1, hground]
      rfl
    · exact ih c hc (hdisjunction.1.2 c hc) (hchildren c hc) (hrewrite.1.2 c hc)
    · rw [hframes]
      exact List.forall_mem_nil _

theorem fits (h : L.IsPattern t) (ht : t.isGround = false) : L.fits t.node := by
  have hnode := h.node
  simp only [isPatternNode, ht, Bool.false_or, Bool.and_eq_true] at hnode
  exact hnode.2.1

theorem isOpen (h : L.IsPattern t) (ht : t.isGround = false) : t.node.isOpen := by
  have hnode := h.node
  simp only [isPatternNode, ht, Bool.false_or, Bool.and_eq_true] at hnode
  exact hnode.2.2

/-- An application of patterns is one, with the sort of its label. -/
theorem app {l : String} {args : List Term} (ht : t.node = .app (.const l) args (L.sort l))
    (hargs : ∀ a ∈ args, L.IsPattern a) : L.IsPattern t := by
  refine Term.everyNode_iff.mpr ⟨?_, ?_, ?_⟩
  · simp [isPatternNode, Term.isRewrite, Term.isDisjunction, Labelling.fits, Node.isOpen, ht]
  · rwa [Term.children, ht]
  · rw [Term.frames, ht]
    exact List.forall_mem_nil _

theorem named_of_var (h : L.IsPattern t) {v : Var} (hn : t.node = .var v) : v.isDontCare = false := by
  have hground : t.isGround = false := by
    rw [← Bool.not_eq_true]
    exact fun hg => Term.not_isVar_of_isGround hg hn
  have hopen := h.isOpen hground
  rw [hn] at hopen
  simpa [Node.isOpen] using hopen

theorem named_of_frame (h : L.IsPattern t) {v : Var} (hv : v ∈ t.frames) : v.isDontCare = false := by
  have hnode := (Term.everyNode_iff.mp h).2.2 v hv
  have hground : (Term.canonical (.var v)).isGround = false := by
    rw [← Bool.not_eq_true]
    exact fun hg => Term.not_isVar_of_isGround hg rfl
  simp only [isPatternNode, hground, Bool.false_or, Bool.and_eq_true] at hnode
  simpa [Node.isOpen] using hnode.2.2

end IsPattern

end Labelling

namespace Matching

/-- The items of a term that builders made share what its parts have, and are no sequences. -/
theorem items_all {P : Term → Prop} {s : Term} (hchild : ∀ {t c : Term}, P t → c ∈ t.children → P c)
    (hground : ∀ {t : Term}, P t → t.isGround) (hnormal : ∀ {t : Term}, P t → t.node.isNormal)
    (h : P s) : ∀ t ∈ s.items, P t ∧ t.items = [t] := by
  by_cases hseq : ∃ its frame, s.node = .seq its frame
  · obtain ⟨its, frame, hn⟩ := hseq
    have hitems := hnormal h
    rw [hn] at hitems
    simp only [Node.isNormal, SequenceParts.isNormal, Bool.and_eq_true, List.all_eq_true] at hitems
    rw [Term.items_of_seq hn]
    intro t ht
    have hpart : P t := hchild h (by rwa [Term.children, hn])
    refine ⟨hpart, Term.items_of_not_seq (hground hpart) fun its frame hn => ?_⟩
    have hitem := hitems.2 t ht
    rw [hn] at hitem
    cases hitem
  · push Not at hseq
    have hself := Term.items_of_not_seq (hground h) hseq
    rw [hself]
    exact List.forall_mem_singleton.mpr ⟨h, hself⟩

/-! ### Readings -/

/-- Bindings that a match of a subject may give. -/
def Settled (σ : Substitution) : Prop :=
  ∀ v t, σ.get? v = some t → isCompared t ∧ t.sort.subsortOf v.sort

theorem Settled.mono {σ τ : Substitution} (hτ : τ.Extends σ) (h : Settled τ) : Settled σ :=
  fun v t ht => h v t (hτ v t ht)

/-- The variable is bound to a term of its sort that equals `s`. -/
def Names (σ : Substitution) (v : Var) (s : Term) : Prop :=
  ∃ t, σ.get? v = some t ∧ t == s ∧ s.sort.subsortOf v.sort

/-- Under the bindings the pattern is the term: a ground pattern equals it, a variable is bound to it,
and any other node is made again, however new nodes are numbered, from what its children and frames
are. -/
inductive Reads (σ : Substitution) : Term → Term → Prop where
  | ground {p s : Term} (hp : p.isGround) (h : p == s) : Reads σ p s
  | var {p s : Term} {v : Var} (hp : p.node = .var v) (h : Names σ v s) : Reads σ p s
  | node {p s : Term} {cs fs : List Term} (hp : p.isGround = false) (hvar : p.isVar = false)
      (hchoice : p.node.isChoice = false) (hc : List.Forall₂ (Reads σ) p.children cs)
      (hf : List.Forall₂ (Names σ) p.frames fs)
      (h : ∀ cs' fs', Term.Equal cs' cs → Term.Equal fs' fs → Always (p.rebuild cs' fs') (· == s)) :
      Reads σ p s

variable {σ τ : Substitution} {p s : Term}

theorem Names.mono {v : Var} (hτ : τ.Extends σ) (h : Names σ v s) : Names τ v s := by
  obtain ⟨t, ht, heq, hsort⟩ := h
  exact ⟨t, hτ v t ht, heq, hsort⟩

theorem Names.of_bound {v : Var} (hv : v.isDontCare = false) (h : Bound σ v s) : Names σ v s := by
  obtain ⟨hsort, hdc | ⟨t, ht, heq⟩⟩ := h
  · rw [hv] at hdc
    cases hdc
  · exact ⟨t, ht, heq, hsort⟩

theorem Reads.mono (hτ : τ.Extends σ) (h : Reads σ p s) : Reads τ p s := by
  induction p using Term.induction generalizing s with
  | h p ih =>
    cases h with
    | ground hp h => exact .ground hp h
    | var hp h => exact .var hp (h.mono hτ)
    | node hp hvar hchoice hc hf h =>
      exact .node hp hvar hchoice (PairedLists.imp_mem hc fun c hm s _ h => ih c hm h)
        (hf.imp fun _ _ h => h.mono hτ) h

theorem Names.congr {v : Var} {s' : Term} (h : Names σ v s) (hs : s == s') : Names σ v s' := by
  obtain ⟨t, ht, heq, hsort⟩ := h
  exact ⟨t, ht, BEq.trans heq hs, Term.sort_congr hs ▸ hsort⟩

/-- Equal terms are read alike. -/
theorem Reads.congr {s' : Term} (h : Reads σ p s) (hs : s == s') : Reads σ p s' := by
  cases h with
  | ground hp h => exact .ground hp (BEq.trans h hs)
  | var hp h => exact .var hp (h.congr hs)
  | node hp hvar hchoice hc hf h =>
    exact .node hp hvar hchoice hc hf fun cs' fs' hcs hfs =>
      (h cs' fs' hcs hfs).mono fun _ hu => BEq.trans hu hs

theorem Reads.beq_of_isGround (hp : p.isGround) (h : Reads σ p s) : p == s := by
  cases h with
  | ground _ h => exact h
  | var hn => exact absurd hn (Term.not_isVar_of_isGround hp)
  | node hg =>
    rw [hp] at hg
    cases hg

theorem Names.unique {v : Var} (h : Names σ v s) (h' : Names σ v s') : s == s' := by
  obtain ⟨t, ht, hts, -⟩ := h
  obtain ⟨t', ht', hts', -⟩ := h'
  rw [ht] at ht'
  cases ht'
  exact BEq.trans (BEq.symm hts) hts'

/-- Equal patterns read as equal terms, under the same bindings. -/
theorem Reads.unique (h : Reads σ p s) (h' : Reads σ p' s') (hp : p == p') : s == s' := by
  induction p using Term.induction generalizing p' s s' with
  | h p ih =>
    have hground := Term.isGround_congr hp
    cases h with
    | ground hg h =>
      exact BEq.trans (BEq.symm h) (BEq.trans hp (h'.beq_of_isGround (hground ▸ hg)))
    | var hn h =>
      have hn' : p'.asVar? = p.asVar? := (Term.asVar?_congr hp).symm
      cases h' with
      | ground hg => exact (Term.not_isVar_of_isGround (hground.trans hg) hn).elim
      | @var _ _ w hw h' =>
        rw [Term.asVar?_of_var hn, Term.asVar?_of_var hw] at hn'
        cases hn'
        exact h.unique h'
      | node _ hvar =>
        rw [← Term.isVar_congr hp, Term.isVar, hn] at hvar
        cases hvar
    | @node _ _ cs fs hg hvar hchoice hc hf h =>
      cases h' with
      | ground hg' =>
        rw [hground, hg'] at hg
        cases hg
      | var hn =>
        rw [Term.isVar_congr hp, Term.isVar, hn] at hvar
        cases hvar
      | @node _ _ cs' fs' _ _ _ hc' hf' h' =>
        have hchildren : Term.Equal cs cs' := by
          have hread : List.Forall₂ (fun s c => ∀ c' s', c == c' → Reads σ c' s' → s == s') cs p.children :=
            (PairedLists.imp_mem hc fun c hm _ _ h _ _ hc' h' => ih c hm h h' hc').flip
          have hread' : List.Forall₂ (fun s c' => ∀ s', Reads σ c' s' → s == s') cs p'.children :=
            PairedLists.comp (fun _ _ c' h h' s' => h c' s' h') hread (Term.children_congr hp)
          exact PairedLists.comp (fun _ _ s' h h' => h s' h') hread' hc'
        have hframes : Term.Equal fs fs' := by
          rw [← Term.frames_congr hp] at hf'
          exact PairedLists.comp (fun s v s' (h : Names σ v s) (h' : Names σ v s') => Names.unique h h') hf.flip hf'
        have hmade := h cs' fs' hchildren.symm hframes.symm
        have hmade' := h' cs' fs' (.refl cs') (.refl fs')
        rcases Term.rebuild_congr (Term.alike_of_beq hp) cs' fs' with heq | ⟨hkept, hkept'⟩
        · rw [heq] at hmade
          obtain ⟨u, hu, hus⟩ := hmade.exists_canReturn
          exact BEq.trans (BEq.symm hus) (hmade'.returns u hu)
        · rw [hkept] at hmade
          rw [hkept'] at hmade'
          exact BEq.trans (BEq.symm (hmade.returns p ⟨0, 0, rfl⟩)) (BEq.trans hp (hmade'.returns p' ⟨0, 0, rfl⟩))

/-- A pattern that reads as a term has all its variables bound, to terms of their sorts. -/
theorem Reads.bound (h : Reads σ p s) :
    ∀ v ∈ p.vars, ∃ t, σ.get? v = some t ∧ t.sort.subsortOf v.sort := by
  have hnames {v : Var} {s : Term} (h : Names σ v s) :
      ∃ t, σ.get? v = some t ∧ t.sort.subsortOf v.sort := by
    obtain ⟨t, ht, heq, hsort⟩ := h
    exact ⟨t, ht, Term.sort_congr heq ▸ hsort⟩
  induction p using Term.induction generalizing s with
  | h p ih =>
    intro v hv
    cases h with
    | ground hp =>
      rw [(Term.isGround_iff_vars p).mp hp] at hv
      cases hv
    | var hn h =>
      rw [Term.vars_eq, hn, List.mem_singleton] at hv
      exact hv ▸ hnames h
    | node _ hvar _ hc hf =>
      rw [Term.vars_eq] at hv
      split at hv
      · rename_i hn
        rw [Term.isVar, hn] at hvar
        cases hvar
      · rcases List.mem_append.mp hv with hv | hv
        · obtain ⟨c, hm, hv⟩ := List.mem_flatMap.mp hv
          obtain ⟨u, -, hu⟩ := PairedLists.exists_mem hc hm
          exact ih c hm hu v hv
        · obtain ⟨f, -, hf⟩ := PairedLists.exists_mem hf hv
          exact hnames hf

/-- A node is read from what its children and frames are read as. -/
theorem reads_node {n : Node Term} (cs fs : List Term) (hn : p.node = n) (hground : p.isGround = false)
    (hvar : n.isVar = false) (hchoice : n.isChoice = false) (hc : List.Forall₂ (Reads σ) n.children cs)
    (hf : List.Forall₂ (Names σ) n.frames fs)
    (h : ∀ cs' fs', Term.Equal cs' cs → Term.Equal fs' fs → Always (p.rebuild cs' fs') (· == s)) :
    Reads σ p s := by
  subst hn
  exact .node hground hvar hchoice hc hf h

/-- An application reads as an application of its label to what its arguments read as. -/
theorem reads_app {l : String} {ps ss : List Term} {k : SortName} {s : Term}
    (hp : p.node = .app (.const l) ps k) (hs : s.node = .app (.const l) ss k)
    (h : List.Forall₂ (Reads σ) ps ss) : Reads σ p s := by
  cases hg : p.isGround with
  | true =>
    refine .ground hg (Term.beq_of_alike ?_)
    rw [hp, hs]
    refine .app (PairedLists.imp_mem h fun c hc s _ h => h.beq_of_isGround ?_)
    exact Term.isGround_child hg (by rwa [Term.children, hp])
  | false =>
    refine reads_node ss [] hp hg rfl rfl h .nil fun cs' fs' hcs _ => ?_
    rw [Term.rebuild_app hp]
    refine (Term.always_new _).mono fun u hu => Term.beq_of_alike ?_
    rw [hu, hs]
    exact .app hcs

/-- Conversely what an application reads as is such an application. -/
theorem Reads.app {l : String} {ps : List Term} {k : SortName} (h : Reads σ p s)
    (hp : p.node = .app (.const l) ps k) :
    ∃ ss, s.node = .app (.const l) ss k ∧ List.Forall₂ (Reads σ) ps ss := by
  have hchildren : p.children = ps := by rw [Term.children, hp]; rfl
  have hargs {u : Term} {ps : List Term} (hn : u.node = .app (.const l) ps k) (h : u == s) :
      ∃ ss, s.node = .app (.const l) ss k ∧ Term.Equal ps ss := by
    have halike := Term.alike_of_beq h
    rw [hn] at halike
    generalize hm : s.node = m at halike
    cases halike with
    | app h => exact ⟨_, rfl, h⟩
  cases h with
  | ground hg heq =>
    obtain ⟨ss, hs, hss⟩ := hargs hp heq
    refine ⟨ss, hs, PairedLists.imp_mem hss fun c hc _ _ h => .ground ?_ h⟩
    exact Term.isGround_child hg (hchildren ▸ hc)
  | var hn => rw [hp] at hn; cases hn
  | @node _ _ cs fs hg _ _ hc hf h =>
    have hmade := h cs fs (.refl cs) (.refl fs)
    rw [Term.rebuild_app hp] at hmade
    obtain ⟨u, hu, hus⟩ := hmade.exists_canReturn
    obtain ⟨ss, hs, hss⟩ := hargs (Term.returns_new _ u hu) hus
    refine ⟨ss, hs, ?_⟩
    rw [hchildren] at hc
    exact PairedLists.comp (fun _ _ _ h h' => h.congr h') hc hss

/-! ### Matches -/

/-- What is matched in a pattern is read in it. -/
def Readable (L : Labelling) (σ : Substitution) (p s : Term) : Prop :=
  Settled σ → L.IsPattern p → L.IsSubject s → Reads σ p s

theorem Readable.all {ps ss : List Term} (hσ : Settled σ) (h : List.Forall₂ (Readable L σ) ps ss)
    (hps : ∀ c ∈ ps, L.IsPattern c) (hss : ∀ t ∈ ss, L.IsSubject t) : List.Forall₂ (Reads σ) ps ss :=
  PairedLists.imp_mem h fun c hc t ht h => h hσ (hps c hc) (hss t ht)

theorem RestFits.cases {α : Type} {S : α → Term → Prop} {bases : List α} {r : Term}
    (h : RestFits S bases r) : (bases = [] ∧ r.isEmptyCollection) ∨ ∃ b, bases = [b] ∧ S b r := by
  cases h with
  | noEntries hn | noElements hn | noCells hn =>
    refine .inl ⟨rfl, ?_⟩
    rw [Term.isEmptyCollection, hn]
  | part h => exact .inr ⟨_, rfl, h⟩

end Matching

end RuleCompiler
