import RuleCompiler.Proofs.Builtin
import RuleCompiler.Proofs.Coupling.Matching
import RuleCompiler.Proofs.Rebuilding.Instances

/-! # Two runs of a decomposition

Related equations come apart into related ones, and lookups of related things come to related equations. -/

namespace RuleCompiler

open Matching (Pairs RelPair RelBranch relPair_zip)

variable {C : Coupling} {n m : Nat}

theorem SortedList.get?_paired {P : Pairing} {es es' : List (Term × Term)} {k k' : Term}
    (hes : List.Forall₂ (fun e e' => P.Rel n e.1 e'.1 ∧ P.Rel n e.2 e'.2) es es') (hk : k == k') :
    Option.Rel (P.Rel n) (get? k es) (get? k' es') := by
  have hfound := PairedLists.find? (p := (·.1 == k)) (q := (·.1 == k'))
    (fun e e' he => Term.beq_congr (P.beq he.1) hk) hes
  unfold get?
  generalize es.find? _ = o, es'.find? _ = o' at hfound
  cases hfound with
  | none => exact .none
  | some he => exact .some he.2

theorem contains_paired {P : Pairing} {ts us : List Term} {t u : Term} (hts : P.RelAll n ts us) (h : t == u) :
    ts.contains t = us.contains u := by
  rw [List.contains_eq_any_beq, List.contains_eq_any_beq]
  exact PairedLists.any_eq (hts.imp fun _ _ hts => Term.beq_congr h (P.beq hts))

theorem areGround_coupled {ts us : List Term} (h : C.RelAll n ts us) :
    ts.all (·.isGround) = us.all (·.isGround) :=
  PairedLists.all_eq (h.imp fun _ _ h => Term.isGround_congr (C.beq h))

/-! ### Lookups -/

namespace Lookup

/-- Lookups of one kind, of related things. -/
inductive Coupled (C : Coupling) (n : Nat) : Lookup → Lookup → Prop where
  | mapValue {m m' k k' v v' : Term} (hm : C.Rel n m m') (hk : C.Rel n k k') (hv : C.Rel n v v') :
      Coupled C n (mapValue m k v) (mapValue m' k' v')
  | setMember {s s' e e' h h' : Term} (hs : C.Rel n s s') (he : C.Rel n e e') (hh : C.Rel n h h') :
      Coupled C n (setMember s e h) (setMember s' e' h')
  | listItem {l l' i i' v v' : Term} (hl : C.Rel n l l') (hi : C.Rel n i i') (hv : C.Rel n v v') :
      Coupled C n (listItem l i v) (listItem l' i' v')
  | mapChoice {m m' k k' : Term} (hm : C.Rel n m m') (hk : C.Rel n k k') :
      Coupled C n (mapChoice m k) (mapChoice m' k')
  | setChoice {s s' e e' : Term} (hs : C.Rel n s s') (he : C.Rel n e e') :
      Coupled C n (setChoice s e) (setChoice s' e')

namespace Outcome

/-- Both come to the same, to related equations if to one. -/
inductive Coupled (C : Coupling) (n : Nat) : Outcome → Outcome → Prop where
  | equation {l l' r r' : Term} (hl : C.Rel n l l') (hr : C.Rel n r r') : Coupled C n (equation l r) (equation l' r')
  | holds : Coupled C n holds holds
  | fails : Coupled C n fails fails
  | pending : Coupled C n pending pending

end Outcome

variable {d d' : Lookup} {t t' u u' : Term}

theorem Coupled.mono (hm : n ≤ m) (h : d.Coupled C n d') : d.Coupled C m d' := by
  cases h with
  | mapValue h h' h'' => exact .mapValue (C.rel_mono hm h) (C.rel_mono hm h') (C.rel_mono hm h'')
  | setMember h h' h'' => exact .setMember (C.rel_mono hm h) (C.rel_mono hm h') (C.rel_mono hm h'')
  | listItem h h' h'' => exact .listItem (C.rel_mono hm h) (C.rel_mono hm h') (C.rel_mono hm h'')
  | mapChoice h h' => exact .mapChoice (C.rel_mono hm h) (C.rel_mono hm h')
  | setChoice h h' => exact .setChoice (C.rel_mono hm h) (C.rel_mono hm h')

theorem Coupled.terms (h : d.Coupled C n d') : C.RelAll n d.terms d'.terms := by
  cases h with
  | mapValue h h' h'' | setMember h h' h'' | listItem h h' h'' => exact .cons h (.cons h' (.cons h'' .nil))
  | mapChoice h h' | setChoice h h' => exact .cons h (.cons h' .nil)

theorem Coupled.beq_congr {e e' : Lookup} (h : d.Coupled C n d') (h' : e.Coupled C n e') : (d == e) = (d' == e') := by
  have hbeq {t t' u u' : Term} (h : C.Rel n t t') (h' : C.Rel n u u') : (t == u) = (t' == u') :=
    Term.beq_congr (C.beq h) (C.beq h')
  have two {a a' b b' c c' e e' : Term} (ha : C.Rel n a a') (hb : C.Rel n b b') (hc : C.Rel n c c')
      (he : C.Rel n e e') : (a == b && c == e) = (a' == b' && c' == e') := by
    rw [hbeq ha hb, hbeq hc he]
  cases h with
  | mapValue hm hk hv =>
    cases h' with
    | mapValue hm' hk' hv' => exact congrArg₂ (· && ·) (hbeq hm hm') (two hk hk' hv hv')
    | _ => rfl
  | setMember hs he hh =>
    cases h' with
    | setMember hs' he' hh' => exact congrArg₂ (· && ·) (hbeq hs hs') (two he he' hh hh')
    | _ => rfl
  | listItem hl hi hv =>
    cases h' with
    | listItem hl' hi' hv' => exact congrArg₂ (· && ·) (hbeq hl hl') (two hi hi' hv hv')
    | _ => rfl
  | mapChoice hm hk =>
    cases h' with
    | mapChoice hm' hk' => exact two hm hm' hk hk'
    | _ => rfl
  | setChoice hs he =>
    cases h' with
    | setChoice hs' he' => exact two hs hs' he he'
    | _ => rfl

theorem ofCall?_coupled (h : C.Rel n t t') (hu : C.Rel n u u') :
    Option.Rel (Coupled C n) (ofCall? t u) (ofCall? t' u') := by
  have halike := C.alike h
  unfold ofCall?
  generalize t.node = m, t'.node = m' at halike
  cases halike with
  | app has =>
    rcases has with _ | ⟨ha, _ | ⟨hb, _ | _⟩⟩
    · exact .none
    · dsimp only
      split
      · exact .some (.mapChoice ha hu)
      split
      · exact .some (.setChoice ha hu)
      · exact .none
    · dsimp only
      split
      · exact .some (.mapValue ha hb hu)
      split
      · exact .some (.setMember hb ha hu)
      split
      · exact .some (.listItem ha hb hu)
      · exact .none
    · exact .none
  | _ => exact .none

theorem ofEquation?_coupled (h : C.Rel n t t') (hu : C.Rel n u u') :
    Option.Rel (Coupled C n) (ofEquation? t u) (ofEquation? t' u') := by
  have hleft := ofCall?_coupled h hu
  have hright := ofCall?_coupled hu h
  unfold ofEquation?
  generalize ofCall? t u = o, ofCall? t' u' = o' at hleft
  cases hleft with
  | none => exact hright
  | some hd => exact .some hd

theorem coupled_mapTerms {f g : Term → Build Term}
    (hf : ∀ k t u, n ≤ k → C.Rel k t u → C.Runs k C.Rel (f t) (g u)) (h : d.Coupled C n d') :
    C.Runs n (Coupled C) (d.mapTerms f) (d'.mapTerms g) := by
  have two {t t' u u' : Term} (h : C.Rel n t t') (h' : C.Rel n u u') {make make' : Term → Term → Lookup}
      (hmake : ∀ k t t' u u', C.Rel k t t' → C.Rel k u u' → (make t u).Coupled C k (make' t' u')) :
      C.Runs n (Coupled C) (do return make (← f t) (← f u)) (do return make' (← g t') (← g u')) := by
    refine C.bind (hf n t t' (Nat.le_refl n) h) fun k a a' hk ha => ?_
    refine C.bind (hf k u u' hk (C.rel_mono hk h')) fun l b b' hl hb => C.pure ?_
    exact hmake l a a' b b' (C.rel_mono hl ha) hb
  have three {t t' u u' v v' : Term} (h : C.Rel n t t') (h' : C.Rel n u u') (h'' : C.Rel n v v')
      {make make' : Term → Term → Term → Lookup}
      (hmake : ∀ k t t' u u' v v', C.Rel k t t' → C.Rel k u u' → C.Rel k v v' →
        (make t u v).Coupled C k (make' t' u' v')) :
      C.Runs n (Coupled C) (do return make (← f t) (← f u) (← f v)) (do return make' (← g t') (← g u') (← g v')) := by
    refine C.bind (hf n t t' (Nat.le_refl n) h) fun k a a' hk ha => ?_
    refine C.bind (hf k u u' hk (C.rel_mono hk h')) fun l b b' hl hb => ?_
    refine C.bind (hf l v v' (by omega) (C.rel_mono (by omega) h'')) fun i c c' hi hc => C.pure ?_
    exact hmake i a a' b b' c c' (C.rel_mono (by omega) ha) (C.rel_mono hi hb) hc
  cases h with
  | mapValue h h' h'' => exact three h h' h'' fun _ _ _ _ _ _ _ => .mapValue
  | setMember h h' h'' => exact three h h' h'' fun _ _ _ _ _ _ _ => .setMember
  | listItem h h' h'' => exact three h h' h'' fun _ _ _ _ _ _ _ => .listItem
  | mapChoice h h' => exact two h h' fun _ _ _ _ _ => .mapChoice
  | setChoice h h' => exact two h h' fun _ _ _ _ _ => .setChoice

theorem resolve_coupled (h : d.Coupled C n d') : d.resolve.Coupled C n d'.resolve := by
  cases h with
  | @mapValue map map' key key' value value' hm hk hv =>
    have halike := C.alike hm
    rw [resolve, resolve]
    generalize map.node = a, map'.node = a' at halike
    cases halike with
    | @map _ es es' _ _ hes hb =>
      have hget := SortedList.get?_paired hes (C.beq hk)
      dsimp only
      rw [Term.isGround_congr (C.beq hk), PairedLists.isEmpty_eq hb]
      generalize SortedList.get? key es = o, SortedList.get? key' es' = o' at hget
      split
      · cases hget with
        | some h => exact .equation hv h
        | none =>
          dsimp only
          split
          · exact .fails
          · exact .pending
      · exact .pending
    | _ => exact .pending
  | @setMember set set' element element' value value' hs he hv =>
    have halike := C.alike hs
    rw [resolve, resolve]
    generalize set.node = a, set'.node = a' at halike
    cases halike with
    | set hes hb =>
      dsimp only
      rw [Term.isGround_congr (C.beq he), PairedLists.isEmpty_eq hb, contains_paired hes (C.beq he),
        PairedLists.isEmpty_eq hes]
      split
      · exact .equation hv (C.canonical rfl .token)
      split
      · exact .equation hv (C.canonical rfl .token)
      · exact .pending
    | _ => exact .pending
  | @listItem list list' index index' value value' hl hi hv =>
    have halike := C.alike hl
    rw [resolve, resolve]
    rw [Term.intValue?_congr (C.beq hi)]
    generalize list.node = a, list'.node = a' at halike
    cases halike with
    | @list _ items items' _ _ _ _ hitems hb _ =>
      cases index'.intValue? with
      | none => exact .pending
      | some i =>
        have hitem := itemAt?_paired hitems i
        dsimp only
        rw [PairedLists.isEmpty_eq hb]
        generalize itemAt? items i = o, itemAt? items' i = o' at hitem
        split
        · cases hitem with
          | some h => exact .equation hv h
          | none => exact .fails
        · exact .pending
    | _ => exact .pending
  | @mapChoice map map' key key' hm hk =>
    have halike := C.alike hm
    rw [resolve, resolve]
    generalize map.node = a, map'.node = a' at halike
    cases halike with
    | map hes hb =>
      have hany := PairedLists.any_eq (p := (·.1 == key)) (q := (·.1 == key'))
        (hes.imp fun e e' he => Term.beq_congr (C.beq he.1) (C.beq hk))
      dsimp only
      rw [Term.isGround_congr (C.beq hk), hany, PairedLists.isEmpty_eq hb, PairedLists.isEmpty_eq hes]
      split
      · exact .holds
      split
      · exact .fails
      · exact .pending
    | _ => exact .pending
  | @setChoice set set' element element' hs he =>
    have halike := C.alike hs
    rw [resolve, resolve]
    generalize set.node = a, set'.node = a' at halike
    cases halike with
    | set hes hb =>
      dsimp only
      rw [Term.isGround_congr (C.beq he), contains_paired hes (C.beq he), PairedLists.isEmpty_eq hb,
        PairedLists.isEmpty_eq hes]
      split
      · exact .holds
      split
      · exact .fails
      · exact .pending
    | _ => exact .pending

end Lookup

/-! ### Decompositions -/

namespace Decomposition

/-- Both come to the same, to related equations or bindings if to any. -/
inductive Coupled (C : Coupling) (n : Nat) : Decomposition → Decomposition → Prop where
  | holds : Coupled C n holds holds
  | parts {es es' : List (Term × Term)} (h : Pairs C n es es') : Coupled C n (parts es) (parts es')
  | binding {v : Var} {t u : Term} (h : C.Rel n t u) : Coupled C n (binding v t) (binding v u)
  | undecided {l l' r r' : Term} (hl : C.Rel n l l') (hr : C.Rel n r r') :
      Coupled C n (undecided l r) (undecided l' r')
  | fails : Coupled C n fails fails

variable {l l' r r' : Term} {isCall : Term → Bool} (hcall : ∀ {t u : Term}, t == u → isCall t = isCall u)

theorem pairs_append {es es' fs fs' : List (Term × Term)} (h : Pairs C n es es') (h' : Pairs C n fs fs') :
    Pairs C n (es ++ fs) (es' ++ fs') :=
  List.rel_append h h'

/-- The last of the equations is between terms made for it. -/
theorem parts_made {es es' : List (Term × Term)} (hes : Pairs C n es es') (hm : n ≤ m) (hl : C.Rel m l l')
    (hr : C.Rel m r r') : Coupled C m (parts (es ++ [(l, r)])) (parts (es' ++ [(l', r')])) :=
  .parts (pairs_append (Pairs.mono hm hes) (.cons ⟨hl, hr⟩ .nil))

/-- The last of the equations is between a term that is there and one that is made. -/
theorem coupled_made {es es' : List (Term × Term)} {x x' : Build Term} (hes : Pairs C n es es') (hl : C.Rel n l l')
    (hx : C.Runs n C.Rel x x') :
    C.Runs n (Coupled C) (do return parts (es ++ [(l, ← x)])) (do return parts (es' ++ [(l', ← x')])) :=
  C.bind hx fun _ _ _ hk hr => C.pure (parts_made hes hk (C.rel_mono hk hl) hr)

theorem coupled_bothMade {es es' : List (Term × Term)} {x x' y y' : Build Term} (hes : Pairs C n es es')
    (hx : C.Runs n C.Rel x x') (hy : ∀ k, n ≤ k → C.Runs k C.Rel y y') :
    C.Runs n (Coupled C) (do return parts (es ++ [(← x, ← y)])) (do return parts (es' ++ [(← x', ← y')])) :=
  C.bind hx fun k _ _ hk hl => coupled_made (Pairs.mono hk hes) hl (hy k hk)

include hcall in
theorem ofVar_coupled (v : Var) (hl : C.Rel n l l') (hr : C.Rel n r r') :
    (ofVar isCall v l r).Coupled C n (ofVar isCall v l' r') := by
  have hbind (v : Var) {node node' value value' : Term} (hn : C.Rel n node node') (hv : C.Rel n value value') :
      Coupled C n
        (if !value.sort.subsortOf v.sort then if isCall value then undecided node value else fails
          else if v.isDontCare then holds
          else if occurs v value then fails
          else binding v value)
        (if !value'.sort.subsortOf v.sort then if isCall value' then undecided node' value' else fails
          else if v.isDontCare then holds
          else if occurs v value' then fails
          else binding v value') := by
    have hoccurs : occurs v value = occurs v value' := by rw [occurs, occurs, Term.vars_congr (C.beq hv)]
    rw [Term.sort_congr (C.beq hv), hcall (C.beq hv), hoccurs]
    split
    · split
      · exact .undecided hn hv
      · exact .fails
    split
    · exact .holds
    split
    · exact .fails
    · exact .binding hv
  unfold ofVar
  rw [Term.asVar?_congr (C.beq hr)]
  dsimp only
  cases r'.asVar? with
  | none => exact hbind v hl hr
  | some w =>
    dsimp only
    split
    · exact hbind w hr hl
    · exact hbind v hl hr

theorem alignedItems_coupled {as as' bs bs' : List Term} (ha : C.RelAll n as as') (hb : C.RelAll n bs bs') :
    Pairs C n (alignedItems as bs).1 (alignedItems as' bs').1 ∧
      C.RelAll n (alignedItems as bs).2.1 (alignedItems as' bs').2.1 ∧
      C.RelAll n (alignedItems as bs).2.2 (alignedItems as' bs').2.2 := by
  induction ha generalizing bs bs' with
  | nil => exact ⟨.nil, .nil, hb⟩
  | @cons a a' as as' ha has ih =>
    cases hb with
    | nil => exact ⟨.nil, .cons ha has, .nil⟩
    | @cons b b' bs bs' hb hbs =>
      rw [alignedItems, alignedItems, Term.sort_congr (C.beq ha), Term.sort_congr (C.beq hb)]
      split
      · exact ⟨.nil, .cons ha has, .cons hb hbs⟩
      · obtain ⟨h, h', h''⟩ := ih hbs
        exact ⟨.cons ⟨ha, hb⟩ h, h', h''⟩

theorem coupled_ofSequences (hl : C.Rel n l l') (hr : C.Rel n r r') :
    C.Runs n (Coupled C) (ofSequences l r) (ofSequences l' r') := by
  obtain ⟨has, haFrame⟩ := Matching.sequenceView_alike hl (C.alike hl)
  obtain ⟨hbs, hbFrame⟩ := Matching.sequenceView_alike hr (C.alike hr)
  obtain ⟨haligned, has, hbs⟩ := alignedItems_coupled has hbs
  have hdotK : C.Rel n Term.dotK Term.dotK := C.canonical rfl (.seq .nil)
  unfold ofSequences
  dsimp only
  rw [haFrame, hbFrame]
  generalize (Matching.sequenceView l').2 = aFrame, (Matching.sequenceView r').2 = bFrame
  generalize alignedItems (Matching.sequenceView l).1 (Matching.sequenceView r).1 = p,
    alignedItems (Matching.sequenceView l').1 (Matching.sequenceView r').1 = p' at haligned has hbs
  obtain ⟨aligned, as, bs⟩ := p
  obtain ⟨aligned', as', bs'⟩ := p'
  dsimp only at haligned has hbs ⊢
  have hleft (k : Nat) (hk : n ≤ k) := Matching.coupled_sequenceFrom (Pairing.RelAll.mono hk has) aFrame
  have hright (k : Nat) (hk : n ≤ k) := Matching.coupled_sequenceFrom (Pairing.RelAll.mono hk hbs) bFrame
  have hvar (k : Nat) (_ : n ≤ k) (v : Var) : C.Runs k C.Rel (Term.var v) (Term.var v) := Pairing.new_var v
  have hlone (v : Var) : C.Runs n (Coupled C) (do return parts (aligned ++ [(← Term.var v, .dotK)]))
      (do return parts (aligned' ++ [(← Term.var v, .dotK)])) :=
    C.bind (Pairing.new_var v) fun _ _ _ hk h => C.pure (parts_made haligned hk h (C.rel_mono hk hdotK))
  have hany : ((as ++ bs).any fun t => t.sort == .k) = (as' ++ bs').any fun t => t.sort == .k :=
    PairedLists.any_eq ((List.rel_append has hbs).imp fun t t' ht => by rw [Term.sort_congr (C.beq ht)])
  rw [hany, PairedLists.isEmpty_eq haligned]
  refine Pairing.ite (fun _ => Pairing.ite (fun _ => C.pure (.undecided hl hr)) fun _ => ?_) fun _ => ?_
  · exact coupled_bothMade haligned (hleft n (Nat.le_refl n)) hright
  cases has with
  | nil =>
    cases hbs with
    | nil =>
      cases aFrame with
      | none =>
        cases bFrame with
        | none => exact C.pure (.parts haligned)
        | some g => exact hlone g
      | some f =>
        cases bFrame with
        | none => exact hlone f
        | some g => exact coupled_bothMade haligned (hvar n (Nat.le_refl n) f) fun k hk => hvar k hk g
    | cons =>
      cases aFrame with
      | none => exact C.pure .fails
      | some f => exact coupled_bothMade haligned (hvar n (Nat.le_refl n) f) hright
  | cons =>
    cases bFrame with
    | none => exact C.pure .fails
    | some g => exact coupled_bothMade haligned (hleft n (Nat.le_refl n)) fun k hk => hvar k hk g

/-! #### Collections -/

theorem onlyVar?_coupled {ts us : List Term} (h : C.RelAll n ts us) :
    Option.Rel (C.Rel n) (onlyVar? ts) (onlyVar? us) := by
  rcases h with _ | ⟨ht, _ | _⟩
  · exact .none
  · unfold onlyVar?
    dsimp only
    rw [Term.isVar_congr (C.beq ht)]
    split
    · exact .some ht
    · exact .none
  · exact .none

theorem coupled_ofListAgainst {a a' b b' : ListParts} (ha : ListParts.Paired (C.Rel n) a a')
    (hb : ListParts.Paired (C.Rel n) b b') (hl : C.Rel n l l') (hr : C.Rel n r r') :
    C.Runs n (Coupled C) (ofListAgainst a b l r) (ofListAgainst a' b' l' r') := by
  have hbase := onlyVar?_coupled ha.base
  unfold ofListAgainst
  generalize onlyVar? a.base = o, onlyVar? a'.base = o' at hbase
  cases hbase with
  | none => exact C.pure (.undecided hl hr)
  | some hbase =>
    dsimp only
    rw [ha.left.length_eq, ha.right.length_eq, hb.left.length_eq, hb.ops]
    refine Pairing.ite (fun _ => C.pure .fails) fun _ => ?_
    refine coupled_made (pairs_append (relPair_zip ha.left hb.left) ?_) hbase (Matching.coupled_listOf b'.ops ?_)
    · exact relPair_zip ha.right (List.forall₂_drop _ hb.left)
    · exact List.forall₂_take _ (List.forall₂_drop _ hb.left)

theorem coupled_ofLists {a a' b b' : ListParts} (ha : ListParts.Paired (C.Rel n) a a')
    (hb : ListParts.Paired (C.Rel n) b b') (hl : C.Rel n l l') (hr : C.Rel n r r') :
    C.Runs n (Coupled C) (ofLists a b l r) (ofLists a' b' l' r') := by
  unfold ofLists
  rw [PairedLists.isEmpty_eq ha.base, PairedLists.isEmpty_eq hb.base, ha.left.length_eq, hb.left.length_eq]
  split
  · refine C.pure ?_
    split
    · exact .parts (relPair_zip ha.left hb.left)
    · exact .fails
  · exact coupled_ofListAgainst hb ha hr hl
  · exact coupled_ofListAgainst ha hb hl hr
  · exact C.pure (.undecided hl hr)

/-- Views of maps with related entries and unknown parts. -/
structure MapView.Coupled (C : Coupling) (n : Nat) (a a' : MapView) : Prop where
  ops : a.ops = a'.ops
  entries : Pairs C n a.entries a'.entries
  base : C.RelAll n a.base a'.base

theorem commonValues_coupled {es es' fs fs' : List (Term × Term)} (he : Pairs C n es es') (hf : Pairs C n fs fs') :
    Option.Rel (Pairs C n) (commonValues es fs) (commonValues es' fs') := by
  unfold commonValues
  induction he with
  | nil => exact .some .nil
  | @cons e e' es es' he _ ih =>
    have hget := SortedList.get?_paired hf (C.beq he.1)
    rw [List.mapM_cons, List.mapM_cons]
    generalize SortedList.get? e.1 fs = o, SortedList.get? e'.1 fs' = o' at hget
    cases hget with
    | none => exact .none
    | some hv =>
      generalize List.mapM (m := Option) _ es = p, List.mapM (m := Option) _ es' = p' at ih
      cases ih with
      | none => exact .none
      | some h => exact .some (.cons ⟨he.2, hv⟩ h)

variable {a a' b b' : MapView}

theorem coupled_ofMapAgainst (ha : a.Coupled C n a') (hb : b.Coupled C n b') (hl : C.Rel n l l') (hr : C.Rel n r r') :
    C.Runs n (Coupled C) (ofMapAgainst a b l r) (ofMapAgainst a' b' l' r') := by
  have hbase := onlyVar?_coupled ha.base
  have hcommon := commonValues_coupled ha.entries hb.entries
  unfold ofMapAgainst
  generalize onlyVar? a.base = o, onlyVar? a'.base = o' at hbase
  cases hbase with
  | none => exact C.pure (.undecided hl hr)
  | some hbase =>
    generalize commonValues a.entries b.entries = p, commonValues a'.entries b'.entries = p' at hcommon
    cases hcommon with
    | none => exact C.pure .fails
    | some hcommon =>
      refine coupled_made hcommon hbase (MapParts.runs_build ⟨hb.ops, ?_, .nil⟩)
      refine PairedLists.filter (fun e e' he => congrArg not ?_) hb.entries
      exact PairedLists.any_eq (ha.entries.imp fun d d' hd => Term.beq_congr (C.beq hd.1) (C.beq he.1))

theorem coupled_ofMaps (ha : a.Coupled C n a') (hb : b.Coupled C n b') (hl : C.Rel n l l') (hr : C.Rel n r r') :
    C.Runs n (Coupled C) (ofMaps a b l r) (ofMaps a' b' l' r') := by
  have hground {a a' : MapView} (h : a.Coupled C n a') : a.hasGroundKeys = a'.hasGroundKeys :=
    PairedLists.all_eq (h.entries.imp fun _ _ he => Term.isGround_congr (C.beq he.1))
  unfold ofMaps
  rw [hground ha, hground hb, PairedLists.isEmpty_eq ha.base, PairedLists.isEmpty_eq hb.base, ha.entries.length_eq,
    hb.entries.length_eq]
  refine Pairing.ite (fun _ => C.pure (.undecided hl hr)) fun _ => ?_
  split
  · refine Pairing.ite (fun _ => C.pure ?_) fun _ => C.pure .fails
    have hcommon := commonValues_coupled ha.entries hb.entries
    generalize commonValues a.entries b.entries = o, commonValues a'.entries b'.entries = o' at hcommon
    cases hcommon with
    | none => exact .fails
    | some h => exact .parts h
  · exact coupled_ofMapAgainst hb ha hr hl
  · exact coupled_ofMapAgainst ha hb hl hr
  · exact C.pure (.undecided hl hr)

variable {as as' aBase aBase' bs bs' bBase bBase' : List Term} (ops : CollectionOps)

theorem coupled_ofSetAgainst (ha : C.RelAll n as as') (haBase : C.RelAll n aBase aBase') (hb : C.RelAll n bs bs')
    (hl : C.Rel n l l') (hr : C.Rel n r r') :
    C.Runs n (Coupled C) (ofSetAgainst ops as aBase bs l r) (ofSetAgainst ops as' aBase' bs' l' r') := by
  have hbase := onlyVar?_coupled haBase
  unfold ofSetAgainst
  generalize onlyVar? aBase = o, onlyVar? aBase' = o' at hbase
  cases hbase with
  | none => exact C.pure (.undecided hl hr)
  | some hbase =>
    have hall : as.all bs.contains = as'.all bs'.contains :=
      PairedLists.all_eq (ha.imp fun _ _ ht => contains_paired hb (C.beq ht))
    dsimp only
    rw [hall]
    refine Pairing.ite (fun _ => ?_) fun _ => C.pure .fails
    have hnone : Pairs C n [] [] := .nil
    refine coupled_made hnone hbase (SetParts.runs_build ⟨rfl, ?_, .nil⟩)
    exact PairedLists.filter (fun _ _ ht => congrArg not (contains_paired ha (C.beq ht))) hb

theorem coupled_ofSets (ha : C.RelAll n as as') (haBase : C.RelAll n aBase aBase') (hb : C.RelAll n bs bs')
    (hbBase : C.RelAll n bBase bBase') (hl : C.Rel n l l') (hr : C.Rel n r r') :
    C.Runs n (Coupled C) (ofSets ops as aBase bs bBase l r) (ofSets ops as' aBase' bs' bBase' l' r') := by
  unfold ofSets
  rw [areGround_coupled (List.rel_append ha hb), PairedLists.isEmpty_eq haBase, PairedLists.isEmpty_eq hbBase]
  refine Pairing.ite (fun _ => C.pure (.undecided hl hr)) fun _ => ?_
  split
  · exact C.pure .fails
  · exact coupled_ofSetAgainst ops hb hbBase ha hr hl
  · exact coupled_ofSetAgainst ops ha haBase hb hl hr
  · exact C.pure (.undecided hl hr)

/-! #### Cells -/

theorem cellLabelled?_coupled (label : String) {cs ds : List Cell}
    (h : List.Forall₂ (CellParts.PairedCells (C.Rel n)) cs ds) :
    Option.Rel (CellParts.PairedCells (C.Rel n)) (cellLabelled? label cs) (cellLabelled? label ds) :=
  PairedLists.find? (fun _ _ hc => by rw [hc.1]) h

theorem hasDistinctLabels_coupled {cs ds : List Cell} (h : List.Forall₂ (CellParts.PairedCells (C.Rel n)) cs ds) :
    hasDistinctLabels cs = hasDistinctLabels ds := by
  refine PairedLists.all_eq (h.imp fun c d hc => ?_)
  have hlen : (cs.filter (·.label == c.label)).length = (ds.filter (·.label == d.label)).length :=
    (PairedLists.filter (fun _ _ he => by rw [he.1, hc.1]) h).length_eq
  rw [hlen]

/-- The contents of cells that both sides have. -/
theorem common_coupled {as as' bs bs' : List Cell} (ha : List.Forall₂ (CellParts.PairedCells (C.Rel n)) as as')
    (hb : List.Forall₂ (CellParts.PairedCells (C.Rel n)) bs bs') :
    Pairs C n (as.filterMap fun c => (cellLabelled? c.label bs).map fun d => (c.content, d.content))
      (as'.filterMap fun c => (cellLabelled? c.label bs').map fun d => (c.content, d.content)) := by
  induction ha with
  | nil => exact .nil
  | @cons c c' as as' hc _ ih =>
    have hfound := cellLabelled?_coupled c'.label hb
    rw [List.filterMap_cons, List.filterMap_cons, hc.1]
    generalize cellLabelled? c'.label bs = o, cellLabelled? c'.label bs' = o' at hfound
    cases hfound with
    | none => exact ih
    | some hd => exact .cons ⟨hc.2.2, hd.2.2⟩ ih

/-- The cells that only the first side has. -/
theorem others_coupled {as as' bs bs' : List Cell} (ha : List.Forall₂ (CellParts.PairedCells (C.Rel n)) as as')
    (hb : List.Forall₂ (CellParts.PairedCells (C.Rel n)) bs bs') :
    List.Forall₂ (CellParts.PairedCells (C.Rel n)) (as.filter fun c => (cellLabelled? c.label bs).isNone)
      (as'.filter fun c => (cellLabelled? c.label bs').isNone) := by
  refine PairedLists.filter (fun c c' hc => ?_) ha
  have hfound := cellLabelled?_coupled c'.label hb
  rw [hc.1]
  generalize cellLabelled? c'.label bs = o, cellLabelled? c'.label bs' = o' at hfound
  cases hfound <;> rfl

theorem pairedCells_mono {cs ds : List Cell} (hm : n ≤ m) (h : List.Forall₂ (CellParts.PairedCells (C.Rel n)) cs ds) :
    List.Forall₂ (CellParts.PairedCells (C.Rel m)) cs ds :=
  h.imp fun _ _ hc => ⟨hc.1, hc.2.1, C.rel_mono hm hc.2.2⟩

theorem coupled_ofCells {as as' bs bs' : List Cell} (fs gs : List Var)
    (ha : List.Forall₂ (CellParts.PairedCells (C.Rel n)) as as')
    (hb : List.Forall₂ (CellParts.PairedCells (C.Rel n)) bs bs') (hl : C.Rel n l l') (hr : C.Rel n r r') :
    C.Runs n (Coupled C) (ofCells as bs fs gs l r) (ofCells as' bs' fs gs l' r') := by
  have hcommon := common_coupled ha hb
  have honlyA := others_coupled ha hb
  have honlyB := others_coupled hb ha
  unfold ofCells
  dsimp only
  rw [hasDistinctLabels_coupled ha, hasDistinctLabels_coupled hb, PairedLists.isEmpty_eq honlyA,
    PairedLists.isEmpty_eq honlyB]
  have hvar (k : Nat) (_ : n ≤ k) (v : Var) : C.Runs k C.Rel (Term.var v) (Term.var v) := Pairing.new_var v
  have hcells {cs ds : List Cell} (h : List.Forall₂ (CellParts.PairedCells (C.Rel n)) cs ds) (frames : List Var)
      (k : Nat) (hk : n ≤ k) : C.Runs k C.Rel (CellParts.build ⟨cs, frames⟩) (CellParts.build ⟨ds, frames⟩) :=
    CellParts.runs_build ⟨pairedCells_mono hk h, rfl⟩
  refine Pairing.ite (fun _ => C.pure (.undecided hl hr)) fun _ => ?_
  split
  · refine C.pure ?_
    split
    · exact .parts hcommon
    · exact .fails
  · rename_i f _ _
    refine Pairing.ite (fun _ => C.pure .fails) fun _ => ?_
    exact coupled_bothMade hcommon (hvar n (Nat.le_refl n) f) (hcells honlyB [])
  · rename_i g _ _
    refine Pairing.ite (fun _ => C.pure .fails) fun _ => ?_
    exact coupled_bothMade hcommon (hcells honlyA [] n (Nat.le_refl n)) fun k hk => hvar k hk g
  · rename_i f g _ _
    refine Pairing.ite (fun _ => ?_) fun _ => Pairing.ite (fun _ => ?_) fun _ => C.pure (.undecided hl hr)
    · exact coupled_bothMade hcommon (hvar n (Nat.le_refl n) f) (hcells honlyB [g])
    · exact coupled_bothMade hcommon (hcells honlyA [f] n (Nat.le_refl n)) fun k hk => hvar k hk g

/-! #### Nodes -/

theorem isSequence_congr (h : l == r) : isSequence l = isSequence r := by
  have h := Term.alike_of_beq h
  unfold isSequence
  generalize l.node = m, r.node = n at h
  cases h <;> rfl

/-- One side is a list and the other is not, but may be the operands of one. -/
theorem coupled_operandsRight {p p' : ListParts} (hp : ListParts.Paired (C.Rel n) p p') (hl : C.Rel n l l')
    (hr : C.Rel n r r') : C.Runs n (Coupled C)
      (match Matching.operandsOf? p.ops r with
        | some b => ofLists p b l r
        | none => pure fails)
      (match Matching.operandsOf? p'.ops r' with
        | some b => ofLists p' b l' r'
        | none => pure fails) := by
  have hoperands := Matching.operandsOf?_alike p'.ops hr (C.beq hr) (C.alike hr)
  rw [hp.ops]
  generalize Matching.operandsOf? p'.ops r = o, Matching.operandsOf? p'.ops r' = o' at hoperands
  cases hoperands with
  | none => exact C.pure .fails
  | some h => exact coupled_ofLists hp h hl hr

theorem coupled_operandsLeft {p p' : ListParts} (hp : ListParts.Paired (C.Rel n) p p') (hl : C.Rel n l l')
    (hr : C.Rel n r r') : C.Runs n (Coupled C)
      (match Matching.operandsOf? p.ops l with
        | some a => ofLists a p l r
        | none => pure fails)
      (match Matching.operandsOf? p'.ops l' with
        | some a => ofLists a p' l' r'
        | none => pure fails) := by
  have hoperands := Matching.operandsOf?_alike p'.ops hl (C.beq hl) (C.alike hl)
  rw [hp.ops]
  generalize Matching.operandsOf? p'.ops l = o, Matching.operandsOf? p'.ops l' = o' at hoperands
  cases hoperands with
  | none => exact C.pure .fails
  | some h => exact coupled_ofLists h hp hl hr

theorem coupled_ofNodes (hl : C.Rel n l l') (hr : C.Rel n r r') :
    C.Runs n (Coupled C) (ofNodes l r) (ofNodes l' r') := by
  have hleft := C.alike hl
  have hright := C.alike hr
  have hundecided : C.Runs n (Coupled C) (pure (undecided l r)) (pure (undecided l' r')) :=
    C.pure (.undecided hl hr)
  have hfails : C.Runs n (Coupled C) (pure fails) (pure fails) := C.pure .fails
  have hlist (ops : CollectionOps) {ls ls' bs bs' rs rs' : List Term} (hls : C.RelAll n ls ls')
      (hb : C.RelAll n bs bs') (hrs : C.RelAll n rs rs') :
      ListParts.Paired (C.Rel n) ⟨ops, ls, bs, rs⟩ ⟨ops, ls', bs', rs'⟩ := ⟨rfl, hls, hb, hrs⟩
  unfold ofNodes
  generalize l.node = a, l'.node = a' at hleft
  generalize r.node = b, r'.node = b' at hright
  cases hleft with
  | app has =>
    cases hright with
    | app hbs =>
      dsimp only
      rw [has.length_eq, hbs.length_eq]
      refine C.pure ?_
      split
      · exact .parts (relPair_zip has hbs)
      · exact .fails
    | disjunction | rightSides => exact hundecided
    | list hls hb hrs => exact coupled_operandsLeft (hlist _ hls hb hrs) hl hr
    | _ => exact hfails
  | freezer ha has =>
    cases hright with
    | freezer hb hbs =>
      dsimp only
      rw [has.length_eq, hbs.length_eq]
      refine C.pure ?_
      split
      · exact .parts (.cons ⟨ha, hb⟩ (relPair_zip has hbs))
      · exact .fails
    | disjunction | rightSides => exact hundecided
    | list hls hb hrs => exact coupled_operandsLeft (hlist _ hls hb hrs) hl hr
    | _ => exact hfails
  | disjunction | rightSides => exact hundecided
  | list hls hb hrs =>
    cases hright with
    | list hls' hb' hrs' =>
      exact Pairing.ite (fun _ => coupled_ofLists ⟨rfl, hls, hb, hrs⟩ ⟨rfl, hls', hb', hrs'⟩ hl hr) fun _ => hfails
    | disjunction | rightSides => exact hundecided
    | _ => exact coupled_operandsRight (hlist _ hls hb hrs) hl hr
  | map hes hb =>
    cases hright with
    | map hes' hb' => exact Pairing.ite (fun _ => coupled_ofMaps ⟨rfl, hes, hb⟩ ⟨rfl, hes', hb'⟩ hl hr) fun _ => hfails
    | disjunction | rightSides => exact hundecided
    | list hls hb hrs => exact coupled_operandsLeft (hlist _ hls hb hrs) hl hr
    | _ => exact hfails
  | set hes hb =>
    cases hright with
    | set hes' hb' => exact Pairing.ite (fun _ => coupled_ofSets _ hes hb hes' hb' hl hr) fun _ => hfails
    | disjunction | rightSides => exact hundecided
    | list hls hb hrs => exact coupled_operandsLeft (hlist _ hls hb hrs) hl hr
    | _ => exact hfails
  | cells hcs =>
    cases hright with
    | cells hds => exact coupled_ofCells _ _ hcs hds hl hr
    | disjunction | rightSides => exact hundecided
    | list hls hb hrs => exact coupled_operandsLeft (hlist _ hls hb hrs) hl hr
    | _ => exact hfails
  | _ =>
    cases hright with
    | disjunction | rightSides => exact hundecided
    | list hls hb hrs => exact coupled_operandsLeft (hlist _ hls hb hrs) hl hr
    | _ => exact hfails

include hcall in
/-- Terms that are not rewrites. -/
theorem coupled_ofTerms (hl : C.Rel n l l') (hr : C.Rel n r r') : C.Runs n (Coupled C)
    (match (l.asVar?.filter fun v => v.sort == .k || !isSequence r),
        (r.asVar?.filter fun v => v.sort == .k || !isSequence l) with
      | some v, _ => pure (ofVar isCall v l r)
      | none, some v => pure (ofVar isCall v r l)
      | none, none =>
        if isSequence l || isSequence r then ofSequences l r
        else if isCall l || isCall r then pure (undecided l r)
        else ofNodes l r)
    (match (l'.asVar?.filter fun v => v.sort == .k || !isSequence r'),
        (r'.asVar?.filter fun v => v.sort == .k || !isSequence l') with
      | some v, _ => pure (ofVar isCall v l' r')
      | none, some v => pure (ofVar isCall v r' l')
      | none, none =>
        if isSequence l' || isSequence r' then ofSequences l' r'
        else if isCall l' || isCall r' then pure (undecided l' r')
        else ofNodes l' r') := by
  have hlbeq := C.beq hl
  have hrbeq := C.beq hr
  rw [Term.asVar?_congr hlbeq, Term.asVar?_congr hrbeq, isSequence_congr hlbeq, isSequence_congr hrbeq, hcall hlbeq,
    hcall hrbeq]
  split
  · exact C.pure (ofVar_coupled hcall _ hl hr)
  · exact C.pure (ofVar_coupled hcall _ hr hl)
  · refine Pairing.ite (fun _ => coupled_ofSequences hl hr) fun _ => ?_
    exact Pairing.ite (fun _ => C.pure (.undecided hl hr)) fun _ => coupled_ofNodes hl hr

include hcall in
/-- An equation of related terms is taken apart in the same way. -/
theorem coupled_of (hl : C.Rel n l l') (hr : C.Rel n r r') :
    C.Runs n (Coupled C) (of isCall l r) (of isCall l' r') := by
  have hleft := C.alike hl
  have hright := C.alike hr
  unfold of
  generalize l.node = a, l'.node = a' at hleft
  generalize r.node = b, r'.node = b' at hright
  cases hleft with
  | rewrite ha _ => exact C.pure (.parts (.cons ⟨ha, hr⟩ .nil))
  | _ =>
    cases hright with
    | rewrite hb _ => exact C.pure (.parts (.cons ⟨hl, hb⟩ .nil))
    | _ => exact coupled_ofTerms hcall hl hr

end Decomposition

end RuleCompiler
