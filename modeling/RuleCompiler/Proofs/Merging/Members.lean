import RuleCompiler.Proofs.FreshNaming
import RuleCompiler.Proofs.Index.Candidates
import RuleCompiler.Proofs.Merging.Aliases

/-! # Members of the automaton

The regular rules are renamed apart and then again, as merging identified their variables. The first names
are of different rules, and no two variables of a rule were identified, so a member of the automaton is its
rule under a true renaming. The automaton may fire fewer rules all the same, where merging took a run of items
for one item. -/

namespace RuleCompiler

open Build (From)
open Merge (AreSound FromRules)
open Rule (NamesApart nameOf nameOf_mem nameOf_eq_self)

/-- Every value of a loop over a list belongs to its element. -/
theorem Build.From.mapM {α β : Type} {r : α → β → Prop} {f : α → Build β} : ∀ {l : List α} {n : Nat},
    (∀ a ∈ l, ∀ k, n ≤ k → From k (fun _ => r a) (f a)) → From n (fun _ => List.Forall₂ r l) (l.mapM f)
  | [], n, _ => by
    rw [List.mapM_nil]
    exact pure .nil
  | a :: l, n, h => by
    rw [List.mapM_cons]
    refine (h a List.mem_cons_self n (Nat.le_refl n)).bind fun k b hk hb => ?_
    refine (mapM fun c hc m hm => h c (List.mem_cons_of_mem a hc) m (Nat.le_trans hk hm)).bind fun m bs hm hbs => ?_
    exact pure (.cons hb hbs)

namespace Rule
variable {r r' r'' : Rule} {ρ σ : Var → Var} {n next : Nat}

/-- The rule `r'` is `r` under a true renaming. -/
def IsCopy (r r' : Rule) : Prop := ∃ ρ, r.IsTrueRenaming ρ ∧ r.Renames ρ r'

theorem IsTrueRenaming.comp (h : r.IsTrueRenaming ρ) (hr : r.Renames ρ r') (h' : r'.IsTrueRenaming σ) :
    r.IsTrueRenaming (σ ∘ ρ) where
  injOn := h'.injOn.comp h.injOn fun v hv => hr.mem_vars_iff.mpr ⟨v, hv, rfl⟩
  sort v := (h'.sort (ρ v)).trans (h.sort v)
  dontCare hv := by
    show σ (ρ _) = _
    rw [h.dontCare hv, h'.dontCare hv]
  isDontCare {v} hv := (h'.isDontCare (hr.mem_vars_iff.mpr ⟨v, hv, rfl⟩)).trans (h.isDontCare hv)

theorem IsCopy.trans (h : r.IsCopy r') (h' : r'.IsCopy r'') : r.IsCopy r'' := by
  obtain ⟨ρ, hρ, hr⟩ := h
  obtain ⟨σ, hσ, hr'⟩ := h'
  exact ⟨σ ∘ ρ, hρ.comp hr hσ, hr.comp hr'⟩

/-- New names that are a true renaming make a copy of the rule. -/
theorem from_rename_isCopy {names : List (Var × Var)} (hr : r.isRenamable) (hnumbered : r.IsNumbered n)
    (hnames : r.IsTrueRenaming (nameOf names)) : From n (fun _ r' => r.IsCopy r') (r.rename names) := by
  intro r' k hrun
  obtain ⟨hk, hrenames, -⟩ := from_rename hr hnumbered hnames.sort hnames.injOn r' k hrun
  exact ⟨hk, _, hnames, hrenames⟩

/-! ### Names of different rules -/

theorem namesApart_apart (next : Nat) (r : Rule) :
    NamesApart next (next + (Automaton.apart next r).length) r (Automaton.apart next r) := by
  rw [Automaton.apart, List.length_mapIdx]
  exact .of_mapIdx Var.withId (fun _ _ => rfl) (fun _ _ => rfl) (fun _ _ hv => hv) r next fun _ => mem_named_iff

/-- What was identified names no two variables of a rule alike. -/
theorem isTrueRenaming_of_areSound {owner : Var → Nat} {aliases : Merge.Aliases} (h : AreSound owner aliases) {id : Nat}
    (hr : ∀ v ∈ r.vars, v.isDontCare = false → owner v = id) : r.IsTrueRenaming (nameOf aliases) := by
  have hcases (v : Var) : (v, nameOf aliases v) ∈ aliases ∨ nameOf aliases v = v ∧ ∀ p ∈ aliases, p.1 ≠ v := by
    by_cases hv : v ∈ aliases.map (·.1)
    · exact .inl (nameOf_mem hv)
    · exact .inr ⟨nameOf_eq_self hv, fun p hp hpv => hv (List.mem_map.mpr ⟨p, hp, hpv⟩)⟩
  refine ⟨fun v hv w hw heq => ?_, fun v => ?_, fun {v} hd => ?_, fun {v} _ => ?_⟩
  · rcases hcases v with hva | ⟨hvs, hvn⟩ <;> rcases hcases w with hwa | ⟨hws, hwn⟩
    · have hvd := (h.isDontCare _ hva).1
      have hwd := (h.isDontCare _ hwa).1
      exact h.apart _ hva _ hwa heq ((hr v hv hvd).trans (hr w hw hwd).symm)
    · exact absurd (heq.trans hws) (h.ne_of_unshared hva hwn)
    · exact absurd (heq.symm.trans hvs) (h.ne_of_unshared hwa hvn)
    · exact hvs.symm.trans (heq.trans hws)
  · rcases hcases v with hva | ⟨hvs, -⟩
    · exact h.sort _ hva
    · rw [hvs]
  · rcases hcases v with hva | ⟨hvs, -⟩
    · rw [(h.isDontCare _ hva).1] at hd
      cases hd
    · exact hvs
  · rcases hcases v with hva | ⟨hvs, -⟩
    · rw [(h.isDontCare _ hva).1, (h.isDontCare _ hva).2]
    · rw [hvs]

end Rule

/-! ### Automata -/

theorem Term.grows_rename (name : Var → Option Var) (t : Term) : Grows (t.rename name) := by
  refine grows_replaceDown (fun u k => ?_) t
  cases u.asVar?.bind name with
  | none => exact .pure trivial
  | some v => exact (grows_new (.var v) k).bind fun _ _ _ _ => .pure trivial

namespace Automaton

theorem nodup_regularRules (rules : List Rule) : ((regularRules rules).map (·.1)).Nodup := by
  have hids : (rules.mapIdx fun id r => (id, r)).map (·.1) = List.range rules.length :=
    List.ext_getElem (by simp) fun i _ _ => by simp
  refine List.Nodup.sublist (List.filter_sublist.map _) ?_
  rw [hids]
  exact List.nodup_range

/-- The rules get ids of different ranges, from `next` on, so that a variable tells whose it is. -/
theorem from_renameApart : ∀ {rs : List (Nat × Rule)} {next n : Nat}, (∀ e ∈ rs, e.2.isRenamable ∧ e.2.IsNumbered n) →
    From n (fun k es =>
      List.Forall₂ (fun e e' => e'.1 = e.1 ∧ e.2.IsCopy e'.2 ∧ e'.2.isRenamable ∧ e'.2.IsNumbered k) rs es ∧
      ∃ owner : Var → Nat, ∀ e ∈ es, ∀ v ∈ e.2.vars, v.isDontCare = false → next ≤ v.id ∧ owner v = e.1)
      (renameApart next rs)
  | [], _, _, _ => .pure ⟨.nil, fun _ => 0, List.forall_mem_nil _⟩
  | (id, r) :: rs, next, n, h => by
    obtain ⟨⟨hr, hnumbered⟩, hrs⟩ := List.forall_mem_cons.mp h
    rw [renameApart]
    have hnames := Rule.namesApart_apart next r
    refine (hnames.from_rename hr hnumbered).bind fun k r' hk ⟨hrenames, hr', hnumbered', hids⟩ => ?_
    have hrs : ∀ e ∈ rs, e.2.isRenamable ∧ e.2.IsNumbered k := fun e he => ⟨(hrs e he).1, (hrs e he).2.mono hk⟩
    refine (from_renameApart hrs).bind fun m es hm ⟨hes, owner, howner⟩ => ?_
    refine .pure ⟨.cons ⟨rfl, ⟨_, hnames.isTrueRenaming, hrenames⟩, hr', hnumbered'.mono hm⟩ hes,
      fun v => if v.id < next + (apart next r).length then id else owner v, ?_⟩
    refine List.forall_mem_cons.mpr ⟨fun v hv hd => ?_, fun e he v hv hd => ?_⟩
    · obtain ⟨hle, hlt⟩ := hids v hv hd
      exact ⟨hle, if_pos hlt⟩
    · obtain ⟨hle, heq⟩ := howner e he v hv hd
      exact ⟨by omega, (if_neg (by omega)).trans heq⟩

/-- The members of an automaton are copies of the regular rules. -/
theorem from_ofRules? {rules : List Rule} {n : Nat}
    (hrules : ∀ e ∈ regularRules rules, e.2.isRenamable ∧ e.2.IsNumbered n) :
    From n (fun _ o => ∀ a, o = some a →
      List.Forall₂ (fun e e' => e'.1 = e.1 ∧ e.2.IsCopy e'.2) (regularRules rules) a.members) (ofRules? rules) := by
  unfold ofRules?
  refine (from_renameApart hrules).bind fun k renamed _ hapart => ?_
  obtain ⟨hrenamed, owner, howner⟩ := hapart
  cases hlast : renamed.getLast? with
  | none => exact .pure fun _ h => by cases h
  | some last =>
    have hitems : FromRules owner (·.2) (·.1.vars) (renamed.map fun e => (e.2.body, e.1)) := by
      have hids : renamed.map (·.1) = (regularRules rules).map (·.1) :=
        PairedLists.map_eq_map (hrenamed.flip.imp fun _ _ h => h.1)
      refine ⟨?_, fun x hx v hv hd => ?_⟩
      · rw [List.map_map]
        exact hids ▸ nodup_regularRules rules
      · obtain ⟨e, he, rfl⟩ := List.mem_map.mp hx
        exact (howner e he v (Rule.vars_subset List.mem_cons_self hv) hd).2
    show From k _ (some <$> _ : Build (Option Automaton))
    rw [map_eq_pure_bind, bind_assoc]
    refine (from_mergeBodies _ hitems k).bind fun k₁ merged hk₁ haliases => ?_
    obtain ⟨pattern, aliases⟩ := merged
    simp only [bind_assoc, pure_bind]
    refine (Term.grows_rename _ pattern k₁).bind fun k₂ _ hk₂ _ => ?_
    have hmember (e : Nat × Rule) (he : e ∈ renamed) (m : Nat) (hm : k₂ ≤ m) :
        From m (fun _ r' => e.2.IsCopy r') (e.2.rename aliases) := by
      obtain ⟨_, -, -, -, hr, hnumbered⟩ := PairedLists.exists_mem hrenamed.flip he
      exact Rule.from_rename_isCopy hr (hnumbered.mono (by omega))
        (Rule.isTrueRenaming_of_areSound haliases fun v hv hd => (howner e he v hv hd).2)
    refine (From.mapM (r := fun e e' => e'.1 = e.1 ∧ e.2.IsCopy e'.2) fun e he m hm =>
      (hmember e he m hm).bind fun _ r' _ hr' => .pure ⟨rfl, hr'⟩).bind fun _ members _ hmembers => .pure ?_
    rintro _ ⟨⟩
    refine PairedLists.comp (fun _ _ _ h h' => ?_) hrenamed hmembers
    exact ⟨h'.1.trans h.1, h.2.1.trans h'.2⟩

/-- Merging never identifies two variables of a rule: the members of the automaton are the regular rules, with
their ids, each under a true renaming, in body, conditions and lookups alike, even though one variable may stand for
those of several rules. The terms of the rules have to be as builders leave them, none of them editable, and what is
told apart in keys of maps and elements of sets only by its multiplicity or its sort would become one. -/
theorem members_areCopies {rules : List Rule} {n k : Nat} {a : Automaton}
    (hrules : ∀ r ∈ rules, r.kind = .regular → r.isRenamable ∧ r.IsNumbered n)
    (hrun : ofRules? rules n = (.ok (some a), k)) :
    List.Forall₂ (fun e e' => e'.1 = e.1 ∧ e.2.IsCopy e'.2) (regularRules rules) a.members := by
  refine (from_ofRules? (fun e he => ?_) (some a) k hrun).2 a rfl
  obtain ⟨he, hkind⟩ := List.mem_filter.mp he
  obtain ⟨i, hi, rfl⟩ := List.mem_mapIdx.mp he
  exact hrules _ (List.getElem_mem hi) (by simpa using hkind)

/-- The automaton that a run gives. -/
theorem exists_automaton (rules : List Rule) (n : Nat) (p : Automaton → Bool)
    (h : ((ofRules? rules).result? n).any fun o => o.any p) : ∃ a k, ofRules? rules n = (.ok (some a), k) ∧ p a := by
  obtain ⟨o, hresult, ho⟩ := (Option.any_eq_true _ _).mp h
  obtain ⟨a, rfl, ha⟩ := (Option.any_eq_true _ _).mp ho
  obtain ⟨k, hrun⟩ := Build.exists_run hresult
  exact ⟨a, k, hrun, ha⟩

/-- Two rules for pairs, one of them for pairs of equal items, and a function between them. -/
def pairRules : List Rule :=
  let x (id : Nat) : Term := ⟨⟨id, false⟩, .var ⟨"X", .int, 0⟩⟩
  let y (id : Nat) : Term := ⟨⟨id, false⟩, .var ⟨"Y", .int, 0⟩⟩
  let pair (id : Nat) (a b : Term) : Term := ⟨⟨id, false⟩, .app (.const "pair") [a, b] .kItem⟩
  let rule (kind : RuleKind) (id : Nat) (left right : Term) (requires : List Term) : Rule :=
    { kind, body := ⟨⟨id, false⟩, .rewrite left right⟩, left, right, requires, lookups := .truth }
  let condition : Term := ⟨⟨6, false⟩, .app (.const "p") [x 7, ⟨⟨8, false⟩, .var (.dontCare .k)⟩] .bool⟩
  [rule .regular 1 (pair 2 (x 3) (y 4)) (y 5) [condition],
    rule .function 9 (pair 10 (x 11) (y 12)) (x 13) [],
    rule .regular 14 (pair 15 (x 16) (x 17)) (x 18) []]

theorem members_areCopies_pairRules :
    (∀ r ∈ pairRules, r.kind = .regular → r.isRenamable ∧ r.IsNumbered 20) ∧
      ∃ a k, ofRules? pairRules 20 = (.ok (some a), k) ∧
        a.members.map (fun e => (e.1, e.2.vars.map Var.render)) =
          [(0, ["X_1073741824", "Y_1073741825", "Y_1073741825", "X_1073741824", "THE_VARIABLE"]),
            (2, ["X_1073741824", "X_1073741824", "X_1073741824"])] ∧
        List.Forall₂ (fun e e' => e'.1 = e.1 ∧ e.2.IsCopy e'.2) (regularRules pairRules) a.members := by
  have hrules : ∀ r ∈ pairRules, r.kind = .regular → r.isRenamable ∧ r.IsNumbered 20 := by
    unfold Rule.IsNumbered Term.IsNumbered Term.HasNumber
    decide
  obtain ⟨a, k, hrun, hnames⟩ := exists_automaton pairRules 20
    (fun a => a.members.map (fun e => (e.1, e.2.vars.map Var.render)) ==
      [(0, ["X_1073741824", "Y_1073741825", "Y_1073741825", "X_1073741824", "THE_VARIABLE"]),
        (2, ["X_1073741824", "X_1073741824", "X_1073741824"])]) (by decide)
  exact ⟨hrules, a, k, hrun, eq_of_beq hnames, members_areCopies hrules hrun⟩

/-- Variables of one name get ids in the order in which they occur, so renaming apart may make keys of a map equal
that were not: the rule of the automaton has one entry where the regular rule has two. -/
theorem exists_member_notRenamed : ∃ (rules : List Rule) (n k : Nat) (a : Automaton) (r r' : Rule),
    (∀ r ∈ rules, r.IsNumbered n) ∧ ofRules? rules n = (.ok (some a), k) ∧ rules = [r] ∧ r.kind = .regular ∧
      r.body.isBuilderNormal ∧ a.member? 0 = some r' ∧ ¬ ∃ ρ, r.Renames ρ r' := by
  have hnumbered : ∀ r ∈ (mapOfGroups .regular).rules, r.IsNumbered 8 := by
    unfold Rule.IsNumbered Term.IsNumbered Term.HasNumber
    decide
  obtain ⟨a, k, hrun, hlost⟩ := exists_automaton (mapOfGroups .regular).rules 8
    (fun a => (a.member? 0).any fun r' => r'.body.size == 8) (by decide)
  obtain ⟨r', hmember, hsize⟩ := (Option.any_eq_true _ _).mp hlost
  refine ⟨_, 8, k, a, _, r', hnumbered, hrun, rfl, rfl, by decide, hmember, fun ⟨ρ, hrenames⟩ => ?_⟩
  rw [beq_iff_eq, hrenames.body.size_eq] at hsize
  exact absurd hsize (by decide)

end Automaton

/-! ### Firing the members -/

namespace Definition

/-- Two rules that expect `a` in the second place of a sequence, one after any run of items. -/
def secondPlace : SourceDefinition where
  main := "M"
  modules := [{ name := "M", sentences := [
    .rule { body := .rewrite (sequence [k "X", a, k "R"])
              (sequence [.apply "p" [] {}, k "X", k "R"]) {} },
    .rule { body := .rewrite (sequence [.apply "b" [] {}, a, k "S"])
              (sequence [.apply "q" [] {}, k "S"]) {} }] }]
where
  sequence (ts : List SourceTerm) : SourceTerm := .sequence ts {}
  k (name : String) : SourceTerm := .varOfSort name .k
  a : SourceTerm := .apply "a" [] {}

/-- Two items before `a`. -/
def secondPlaceSubject : SourceTerm :=
  .sequence [.apply "c" [] {}, .apply "c" [] {}, .apply "a" [] {}] {}

set_option maxRecDepth 100000

/-- Merged with the other rule, the run is one item, and the automaton loses the first rule. -/
theorem exists_fires_not_fireAutomaton : ∃ (d : Definition) (a : Automaton) (subject : Term),
    compiled? {} secondPlace = some d ∧ d.automaton = some a ∧
    d.lowered? secondPlaceSubject = some subject ∧ d.fires 0 subject 1 ∧
    (d.fireAutomaton a subject).result? 1 = some [] := by
  have h : ((compiled? {} secondPlace).any fun d => d.automaton.any fun a =>
      (d.lowered? secondPlaceSubject).any fun s =>
        d.fires 0 s 1 && ((d.fireAutomaton a s).result? 1).any (·.isEmpty)) = true := by
    decide +kernel
  obtain ⟨d, hd, h⟩ := (Option.any_eq_true ..).mp h
  obtain ⟨a, ha, h⟩ := (Option.any_eq_true ..).mp h
  obtain ⟨s, hs, h⟩ := (Option.any_eq_true ..).mp h
  rw [Bool.and_eq_true] at h
  obtain ⟨fs, hfs, hnil⟩ := (Option.any_eq_true ..).mp h.2
  rw [List.isEmpty_iff.mp hnil] at hfs
  exact ⟨d, a, s, hd, ha, hs, h.1, hfs⟩

end Definition

end RuleCompiler
