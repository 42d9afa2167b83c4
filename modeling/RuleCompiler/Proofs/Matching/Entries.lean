import RuleCompiler.Proofs.Matching.Reads
import RuleCompiler.Proofs.SortedList

/-! # Matched entries and elements

Entries of maps and elements of sets that fit are paired off, each with one of its own, and what is
left of the subject fits the rest of the pattern. -/

namespace RuleCompiler.Matching

open MonadAttach (CanReturn)

variable {R : Term → Term → Prop} {σ : Substitution} {ops : CollectionOps}

/-- What the bindings so far make of the key is the subject's key or fits it. -/
def KeyFits (R : Term → Term → Prop) (σ : Substitution) (key k : Term) : Prop :=
  ∃ τ key', σ.Extends τ ∧ CanReturn (τ.apply key) key' ∧ (key'.isGround ∧ k == key' ∨ R key' k)

theorem EntriesFit.exists_rest {sBase pBase : List Term} {es unused : List (Term × Term)}
    (h : EntriesFit R σ ops sBase pBase es unused)
    (hkeys : unused.Pairwise fun a b => (a.1 == b.1) = false) :
    ∃ used rest r, unused.Perm (used ++ rest) ∧ rest.Sublist unused ∧
      List.Forall₂ (fun e u => KeyFits R σ e.1 u.1 ∧ R e.2 u.2) es used ∧
      CanReturn (sBase.foldl MapParts.concat { ops, entries := rest }).build r ∧
      RestFits R pBase r := by
  induction h with
  | @nil unused r hr h => exact ⟨[], unused, r, .refl _, .refl _, .nil, hr, h⟩
  | @entry key value key' τ e pending unused he hτ hk hkey hv _ ih =>
    have hsub : (SortedList.erase e.1 unused).Sublist unused := List.filter_sublist
    obtain ⟨used, rest, r, hperm, hrest, hused, hr, hend⟩ := ih (hkeys.sublist hsub)
    have hout : unused.Perm (e :: SortedList.erase e.1 unused) :=
      SortedList.perm_cons_filter hkeys he
    exact ⟨e :: used, rest, r, hout.trans (hperm.cons e), hrest.trans hsub,
      .cons ⟨⟨τ, key', hτ, hk, hkey⟩, hv⟩ hused, hr, hend⟩

theorem ElementsFit.exists_rest {sBase pBase es unused : List Term}
    (h : ElementsFit R σ ops sBase pBase es unused)
    (hdiffer : unused.Pairwise fun a b => (a == b) = false) :
    ∃ used rest r, unused.Perm (used ++ rest) ∧ rest.Sublist unused ∧
      List.Forall₂ (KeyFits R σ) es used ∧
      CanReturn (sBase.foldl SetParts.concat { ops, elements := rest }).build r ∧
      RestFits R pBase r := by
  induction h with
  | @nil unused r hr h => exact ⟨[], unused, r, .refl _, .refl _, .nil, hr, h⟩
  | @element element element' s τ pending unused hs hτ he hm _ ih =>
    have hsub : (unused.filter (· != s)).Sublist unused := List.filter_sublist
    obtain ⟨used, rest, r, hperm, hrest, hused, hr, hend⟩ := ih (hdiffer.sublist hsub)
    have hout : unused.Perm (s :: unused.filter (· != s)) :=
      SortedList.perm_cons_filter (f := id) hdiffer hs
    exact ⟨s :: used, rest, r, hout.trans (hperm.cons s), hrest.trans hsub,
      .cons ⟨τ, element', hτ, he, .inr hm⟩ hused, hr, hend⟩

/-! ### Keys -/

variable {L : Labelling} {p : Term}

/-- What a match binds in a first-order key leaves it a pattern, and whatever that reads as, the key
does. -/
theorem returns_apply {τ : Substitution} (hτ : Settled τ) (hp : L.IsPattern p)
    (hfo : p.isFirstOrder fun _ => true) :
    Returns (fun q => L.IsPattern q ∧ ∀ σ s, σ.Extends τ → Reads σ q s → Reads σ p s) (τ.apply p) := by
  induction p using Term.induction with
  | h p ih =>
    have hkept : L.IsPattern p ∧ ∀ σ s, σ.Extends τ → Reads σ p s → Reads σ p s :=
      ⟨hp, fun _ _ _ h => h⟩
    by_cases hground : p.isGround
    · rw [Substitution.apply, Term.substitute_of_isGround hground]
      exact .pure hkept
    rw [Bool.not_eq_true] at hground
    rw [Term.isFirstOrder_eq] at hfo
    split at hfo
    · rename_i v hn
      rw [Substitution.apply, Term.substitute_of_var hn]
      cases hv : τ.get? v with
      | none => exact .pure hkept
      | some u =>
        obtain ⟨hu, hsort⟩ := hτ v u hv
        refine .pure ⟨.of_isCompared hu, fun σ s hσ h => .var hn ⟨u, hσ v u hv, ?_⟩⟩
        have heq : u == s := h.beq_of_isGround (isGround_of_isCompared hu)
        exact ⟨heq, Term.sort_congr heq ▸ hsort⟩
    · rename_i k x hn
      have htoken : p.isGround := by
        rw [Term.isGround_iff, Term.isVar, Term.children, Term.frames, hn]
        exact ⟨rfl, List.forall_mem_nil _, rfl⟩
      rw [hground] at htoken
      cases htoken
    · rename_i l args k hn
      have hchildren : p.children = args := by rw [Term.children, hn]; rfl
      have hframes : p.frames = [] := by rw [Term.frames, hn]; rfl
      have hsort : k = L.sort l := by
        have hfits := hp.fits hground
        rw [hn] at hfits
        simpa [Labelling.fits] using hfits
      rw [Substitution.apply, Term.substitute_eq (by rw [Term.isVar, hn]; rfl)]
      refine Term.returns_update hframes (fun c hc => ih c hc (hp.child hc) ?_) hkept fun cs hcs => ?_
      · exact List.all_eq_true.mp hfo c (hchildren ▸ hc)
      · rw [hchildren] at hcs
        rw [Term.rebuild_app hn]
        refine (Term.returns_new _).mono fun u hu v hv => ?_
        rw [hu] at hv
        refine ⟨.app (hsort ▸ hv) fun c hc => ?_, fun σ s hσ h => ?_⟩
        · obtain ⟨d, -, hd⟩ := PairedLists.exists_mem hcs.flip hc
          exact hd.1
        · obtain ⟨ss, hs, hss⟩ := h.app hv
          exact reads_app hn hs (PairedLists.comp (fun _ _ _ h h' => h.2 σ _ hσ h') hcs hss)
    · rw [hground] at hfo
      cases hfo

/-! ### Maps and sets -/

theorem KeyFits.reads {key k : Term} (h : KeyFits (Readable L σ) σ key k) (hσ : Settled σ)
    (hkey : L.IsPattern key) (hfo : key.isFirstOrder fun _ => true) (hk : L.IsSubject k) :
    Reads σ key k := by
  obtain ⟨τ, key', hτ, hkey', hfits⟩ := h
  obtain ⟨hpattern, hback⟩ := returns_apply (hσ.mono hτ) hkey hfo key' hkey'
  refine hback σ k hτ ?_
  rcases hfits with ⟨hground, heq⟩ | hfits
  · exact .ground hground (BEq.symm heq)
  · exact hfits hσ hpattern hk

/-- What is left of a map that is a subject is one, and empty only where nothing is left. -/
theorem IsSubject.map_rest {s r : Term} {es rest : List (Term × Term)} {base : List Term}
    (h : L.IsSubject s) (hs : s.node = .map ops es base) (hrest : rest.Sublist es)
    (hr : CanReturn (base.foldl MapParts.concat { ops, entries := rest }).build r) :
    L.IsSubject r ∧ ∃ parts, MapParts.Brings ops r rest parts ∧ parts.Perm base ∧
      (r.isEmptyCollection → rest = [] ∧ parts = []) := by
  have hnormal := h.isNormal
  have hempty := h.holdsEmpty
  rw [hs] at hnormal hempty
  have hss : MapParts.Holds L.IsSubject ⟨ops, es, base⟩ :=
    MapParts.holds_iff.mpr fun c hc => h.child (by rwa [Term.children, hs])
  simp only [Node.isNormal, MapParts.isNormal, Bool.and_eq_true, decide_eq_true_eq,
    List.all_eq_true] at hnormal
  obtain ⟨⟨⟨hsorted, -⟩, hbase⟩, -⟩ := hnormal
  rcases MapParts.returns_rest (hsorted.sublist hrest) hbase r hr with
    ⟨rfl, rfl⟩ | ⟨parts, hn, hparts, hnormal⟩
  · have hmem := List.mem_singleton_self r
    refine ⟨hss.base r hmem, [r], .part (hbase r hmem), .refl _, fun hr => ?_⟩
    simp [Node.holdsEmpty, hr] at hempty
  · refine ⟨.intro ?_ (by rw [Term.frames, hn]; rfl) fun c hc => ?_, parts, .map hn, hparts, fun hr => ?_⟩
    · have hparts : parts.any Term.isEmptyCollection = false := hparts.any_eq.trans hempty
      simp [Labelling.isSubjectNode, Labelling.fits, Node.isNormal, Node.holdsEmpty, Term.isVar,
        Node.isVar, Term.isRewrite, Term.isDisjunction, hn, hnormal, hparts]
    · have hleft : MapParts.Holds L.IsSubject ⟨ops, rest, parts⟩ :=
        ⟨fun e he => hss.keys e (hrest.subset he), fun e he => hss.values e (hrest.subset he),
          fun t ht => hss.base t (hparts.mem_iff.mp ht)⟩
      rw [Term.children, hn] at hc
      exact MapParts.holds_iff.mp hleft c hc
    · rw [Term.isEmptyCollection, hn] at hr
      split at hr <;> simp_all

theorem reads_of_entries {s : Term} {es es' : List (Term × Term)} {base base' : List Term}
    (hn : p.node = .map ops es base) (hs : s.node = .map ops es' base') (hground : p.isGround = false)
    (hσ : Settled σ) (hpat : L.IsPattern p) (hsub : L.IsSubject s)
    (h : EntriesFit (Readable L σ) σ ops base' base es es') : Reads σ p s := by
  have hnormal := hsub.isNormal
  have hopen := hpat.isOpen hground
  rw [hs] at hnormal
  rw [hn] at hopen
  have hps : MapParts.Holds L.IsPattern ⟨ops, es, base⟩ :=
    MapParts.holds_iff.mpr fun c hc => hpat.child (by rwa [Term.children, hn])
  have hss : MapParts.Holds L.IsSubject ⟨ops, es', base'⟩ :=
    MapParts.holds_iff.mpr fun c hc => hsub.child (by rwa [Term.children, hs])
  have hkeys : es'.Pairwise fun a b => (a.1 == b.1) = false := by
    simp only [Node.isNormal, MapParts.isNormal, Bool.and_eq_true, decide_eq_true_eq] at hnormal
    exact hnormal.1.1.1.imp Term.beq_false_of_lt
  obtain ⟨used, rest, r, hperm, hrest, hused, hr, hend⟩ := h.exists_rest hkeys
  obtain ⟨hsubject, parts, hbrings, hparts, hempty⟩ := IsSubject.map_rest hsub hs hrest hr
  have hentries : List.Forall₂ (fun e u => Reads σ e.1 u.1 ∧ Reads σ e.2 u.2) es used := by
    refine PairedLists.imp_mem hused fun e he u hu hfit => ?_
    obtain ⟨hkey, hvalue⟩ := hfit
    have hu := hperm.mem_iff.mpr (List.mem_append_left rest hu)
    have hfo := List.all_eq_true.mp hopen e he
    exact ⟨hkey.reads hσ (hps.keys e he) hfo (hss.keys u hu),
      hvalue hσ (hps.values e he) (hss.values u hu)⟩
  obtain ⟨bs, hbs, hrests⟩ : ∃ bs, ((bs = [] ∧ rest = [] ∧ parts = []) ∨
      ∃ r, bs = [r] ∧ MapParts.Brings ops r rest parts) ∧ List.Forall₂ (Reads σ) base bs := by
    rcases hend.cases with ⟨rfl, hr⟩ | ⟨b, rfl, hread⟩
    · exact ⟨[], .inl ⟨rfl, hempty hr⟩, .nil⟩
    · have hb := hps.base b (List.mem_singleton_self b)
      exact ⟨[r], .inr ⟨r, rfl, hbrings⟩, .cons (hread hσ hb hsubject) .nil⟩
  refine reads_node ((used.flatMap fun e => [e.1, e.2]) ++ bs) [] hn hground rfl rfl ?_ .nil
    fun cs' fs' hcs _ => ?_
  · exact List.rel_append (List.rel_flatMap hentries fun _ _ h => .cons h.1 (.cons h.2 .nil)) hrests
  · exact MapParts.always_rebuild hn hs hnormal hentries.length_eq.symm hperm hparts hbs hcs

/-- What is left of a set that is a subject is one, and empty only where nothing is left. -/
theorem IsSubject.set_rest {s r : Term} {es rest base : List Term} (h : L.IsSubject s)
    (hs : s.node = .set ops es base) (hrest : rest.Sublist es)
    (hr : CanReturn (base.foldl SetParts.concat { ops, elements := rest }).build r) :
    L.IsSubject r ∧ ∃ parts, SetParts.Brings ops r rest parts ∧ parts.Perm base ∧
      (r.isEmptyCollection → rest = [] ∧ parts = []) := by
  have hnormal := h.isNormal
  have hempty := h.holdsEmpty
  rw [hs] at hnormal hempty
  have hss : SetParts.Holds L.IsSubject ⟨ops, es, base⟩ :=
    SetParts.holds_iff.mpr fun c hc => h.child (by rwa [Term.children, hs])
  simp only [Node.isNormal, SetParts.isNormal, Bool.and_eq_true, decide_eq_true_eq,
    List.all_eq_true] at hnormal
  obtain ⟨⟨⟨hsorted, -⟩, hbase⟩, -⟩ := hnormal
  rcases SetParts.returns_rest (hsorted.sublist hrest) hbase r hr with
    ⟨rfl, rfl⟩ | ⟨parts, hn, hparts, hnormal⟩
  · have hmem := List.mem_singleton_self r
    refine ⟨hss.base r hmem, [r], .part (hbase r hmem), .refl _, fun hr => ?_⟩
    simp [Node.holdsEmpty, hr] at hempty
  · refine ⟨.intro ?_ (by rw [Term.frames, hn]; rfl) fun c hc => ?_, parts, .set hn, hparts, fun hr => ?_⟩
    · have hparts : parts.any Term.isEmptyCollection = false := hparts.any_eq.trans hempty
      simp [Labelling.isSubjectNode, Labelling.fits, Node.isNormal, Node.holdsEmpty, Term.isVar,
        Node.isVar, Term.isRewrite, Term.isDisjunction, hn, hnormal, hparts]
    · have hleft : SetParts.Holds L.IsSubject ⟨ops, rest, parts⟩ :=
        ⟨fun t ht => hss.elements t (hrest.subset ht), fun t ht => hss.base t (hparts.mem_iff.mp ht)⟩
      rw [Term.children, hn] at hc
      exact SetParts.holds_iff.mp hleft c hc
    · rw [Term.isEmptyCollection, hn] at hr
      split at hr <;> simp_all

theorem reads_of_elements {s : Term} {es es' base base' : List Term} (hn : p.node = .set ops es base)
    (hs : s.node = .set ops es' base') (hground : p.isGround = false) (hσ : Settled σ)
    (hpat : L.IsPattern p) (hsub : L.IsSubject s)
    (h : ElementsFit (Readable L σ) σ ops base' base es es') : Reads σ p s := by
  have hnormal := hsub.isNormal
  have hopen := hpat.isOpen hground
  rw [hs] at hnormal
  rw [hn] at hopen
  have hps : SetParts.Holds L.IsPattern ⟨ops, es, base⟩ :=
    SetParts.holds_iff.mpr fun c hc => hpat.child (by rwa [Term.children, hn])
  have hss : SetParts.Holds L.IsSubject ⟨ops, es', base'⟩ :=
    SetParts.holds_iff.mpr fun c hc => hsub.child (by rwa [Term.children, hs])
  have hdiffer : es'.Pairwise fun a b => (a == b) = false := by
    simp only [Node.isNormal, SetParts.isNormal, Bool.and_eq_true, decide_eq_true_eq] at hnormal
    exact hnormal.1.1.1.imp Term.beq_false_of_lt
  obtain ⟨used, rest, r, hperm, hrest, hused, hr, hend⟩ := h.exists_rest hdiffer
  obtain ⟨hsubject, parts, hbrings, hparts, hempty⟩ := IsSubject.set_rest hsub hs hrest hr
  have helements : List.Forall₂ (Reads σ) es used := by
    refine PairedLists.imp_mem hused fun e he u hu hfits => ?_
    have hu := hperm.mem_iff.mpr (List.mem_append_left rest hu)
    exact hfits.reads hσ (hps.elements e he) (List.all_eq_true.mp hopen e he) (hss.elements u hu)
  obtain ⟨bs, hbs, hrests⟩ : ∃ bs, ((bs = [] ∧ rest = [] ∧ parts = []) ∨
      ∃ r, bs = [r] ∧ SetParts.Brings ops r rest parts) ∧ List.Forall₂ (Reads σ) base bs := by
    rcases hend.cases with ⟨rfl, hr⟩ | ⟨b, rfl, hread⟩
    · exact ⟨[], .inl ⟨rfl, hempty hr⟩, .nil⟩
    · have hb := hps.base b (List.mem_singleton_self b)
      exact ⟨[r], .inr ⟨r, rfl, hbrings⟩, .cons (hread hσ hb hsubject) .nil⟩
  refine reads_node (used ++ bs) [] hn hground rfl rfl (List.rel_append helements hrests) .nil
    fun cs' fs' hcs _ => ?_
  exact SetParts.always_rebuild hn hs hnormal helements.length_eq.symm hperm hparts hbs hcs

end RuleCompiler.Matching
