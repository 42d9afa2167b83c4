import RuleCompiler.Proofs.Renaming.Names
import RuleCompiler.Proofs.Rounds

/-! # Rules with variables of their own

The session counts the ids that it hands out, so each variable that is renamed gets one that no other
variable has, whichever rule it is of. Marks stay at the front of names: marked names get no prefix, and the
prefix of the other ones is no mark. -/

namespace RuleCompiler

open Rule (NamesApart)

/-! ### Names -/

/-- The name that a variable is given when its rule is renamed. -/
def Var.given (before : String) (v : Var) (id : Nat) : Var :=
  { v.withId id with name := (if v.isMarked then "" else before) ++ v.name }

/-- Whether the prefix of names is one that renaming gives. -/
def IsNamePrefix (before : String) : Prop := before = "" ∨ before = "R_"

theorem RuleKind.isNamePrefix_of_renamed? {kind : RuleKind} {freshRules : Bool} {before : String}
    (h : kind.renamed? freshRules = some before) : IsNamePrefix before := by
  cases kind <;> simp only [renamed?, Option.some.injEq, reduceCtorEq] at h
  case regular =>
    split at h
    · exact .inr (Option.some.inj h).symm
    · cases h
  all_goals exact .inl h.symm

variable {before : String} {v : Var} {id : Nat}

theorem Var.given_name (v : Var) (id : Nat) (hbefore : IsNamePrefix before) :
    (v.given before id).name = v.name ∨
      v.isMarked = false ∧ (v.given before id).name.toList = 'R' :: '_' :: v.name.toList := by
  rw [given]
  cases hv : v.isMarked with
  | true => exact .inl (by simp)
  | false =>
    rcases hbefore with rfl | rfl
    · exact .inl (by simp)
    · exact .inr ⟨rfl, by simp⟩

theorem Var.isDontCare_given (hbefore : IsNamePrefix before) (hv : v.isDontCare = false) :
    (v.given before id).isDontCare = false := by
  rcases given_name v id hbefore with hname | ⟨-, hname⟩
  · rwa [isDontCare, hname]
  · refine beq_eq_false_iff_ne.mpr fun h => ?_
    rw [h] at hname
    cases hname

/-- Marked names stay marked, and other names get no mark. -/
theorem Var.isMarked_given (hbefore : IsNamePrefix before) {mark : Char} (hmark : mark = '!' ∨ mark = '?') :
    Rule.isMarked mark (v.given before id) = Rule.isMarked mark v := by
  rcases given_name v id hbefore with hname | ⟨hv, hname⟩
  · rw [Rule.isMarked, Rule.isMarked, hname]
  · rw [isMarked, Bool.or_eq_false_iff] at hv
    rw [Rule.isMarked, hname]
    rcases hmark with rfl | rfl
    · rw [hv.1]
      rfl
    · rw [hv.2]
      rfl

theorem freshNames_run (before : String) (vs : List Var) : ∀ s : Session,
    (vs.mapM fun v => return (v, ← Session.rename v (if v.isMarked then "" else before)) :
        SessionM (List (Var × Var))) s =
      (.ok (vs.mapIdx fun i v => (v, v.given before (s.nextId + i))), { s with nextId := s.nextId + vs.length }) := by
  induction vs with
  | nil => exact fun s => rfl
  | cons v vs ih =>
    intro s
    have hfirst : (do return (v, ← Session.rename v (if v.isMarked then "" else before)) : SessionM (Var × Var)) s =
        (.ok (v, v.given before s.nextId), { s with nextId := s.nextId + 1 }) := rfl
    rw [List.mapM_cons, SessionM.bind_eq hfirst, SessionM.bind_eq (ih _), List.mapIdx_cons]
    simp only [Nat.add_assoc, Nat.add_comm 1]
    rfl

/-! ### Rules -/

/-- The rule `r'` is `r` under a true renaming that keeps marks. -/
def Rule.IsFreshCopy (r r' : Rule) : Prop :=
  ∃ ρ, r.IsTrueRenaming ρ ∧ r.Renames ρ r' ∧
    ∀ v, isMarked '!' (ρ v) = isMarked '!' v ∧ isMarked '?' (ρ v) = isMarked '?' v

/-- Rules that have no variables in common but don't-care variables. -/
def Rule.AreApart (r r' : Rule) : Prop := ∀ v ∈ r.vars, v ∈ r'.vars → v.isDontCare

/-- Whether rules of the kind are renamed. -/
abbrev RuleKind.isRenamed (freshRules : Bool) (kind : RuleKind) : Bool := (kind.renamed? freshRules).isSome

variable {r r' : Rule} {s s' : Session}

/-- A rule with variables of its own. Their ids are handed out meanwhile. -/
theorem Rule.isFreshCopy_of_renameFresh (hbefore : IsNamePrefix before) (hr : r.isRenamable)
    (hnumbered : r.IsNumbered s.nodes) (hrun : r.renameFresh before s = (.ok r', s')) :
    s.nextId ≤ s'.nextId ∧ s.nodes ≤ s'.nodes ∧ r.IsFreshCopy r' ∧ r'.HasIds s.nextId s'.nextId := by
  obtain ⟨names, s₁, hnames, hrun⟩ := SessionM.exists_of_bind hrun
  cases (freshNames_run before _ s).symm.trans hnames
  obtain ⟨k, hrename, rfl⟩ := SessionM.exists_of_lift hrun
  have hapart := NamesApart.of_mapIdx (fun v i => v.given before i) (fun _ _ => rfl) (fun _ _ => rfl)
    (fun _ _ hv => Var.isDontCare_given hbefore hv) r s.nextId fun _ => mem_named_iff
  generalize hvs : (r.vars.filter (!·.isDontCare)).eraseDups = vs at hapart hrename
  obtain ⟨hk, hrenames, -, -, hids⟩ := hapart.from_rename hr hnumbered r' k hrename
  refine ⟨Nat.le_add_right _ _, hk, ⟨_, hapart.isTrueRenaming, hrenames, fun v => ?_⟩, hids⟩
  by_cases hv : v ∈ (vs.mapIdx fun i v => (v, v.given before (s.nextId + i))).map (·.1)
  · obtain ⟨i, hi, heq⟩ := List.mem_mapIdx.mp (nameOf_mem hv)
    obtain ⟨rfl, hname⟩ := Prod.mk.inj heq
    rw [← hname]
    exact ⟨Var.isMarked_given hbefore (.inl rfl), Var.isMarked_given hbefore (.inr rfl)⟩
  · rw [nameOf_eq_self hv]
    exact ⟨rfl, rfl⟩

/-! ### Definitions -/

/-- What renaming does with one rule. -/
def Rule.freshOutcome (freshRules : Bool) (r : Rule) : SessionM RuleOutcome := do
  match r.kind.renamed? freshRules with
  | some before => return .changed (← r.renameFresh before)
  | none => return .kept

/-- Rule after rule, ids go up, so the rules have no variables in common. -/
theorem freshNaming_rules {freshRules : Bool} (rules : List Rule) : ∀ {s s' : Session} {es : List (Rule × RuleOutcome)},
    (∀ r ∈ rules, r.IsNumbered s.nodes ∧ (r.kind.isRenamed freshRules → r.isRenamable)) →
    (rules.mapM fun r => do
      let outcome ← r.freshOutcome freshRules
      outcome.report
      return (r, outcome) : SessionM (List (Rule × RuleOutcome))) s = (.ok es, s') →
    s.nextId ≤ s'.nextId ∧ ∃ rules', (es.filterMap fun e => e.2.rule? e.1) = rules' ∧
      List.Forall₂ (fun r r' => if r.kind.isRenamed freshRules then r.IsFreshCopy r' else r' = r) rules rules' ∧
      (rules'.Pairwise fun r r' => r.kind.isRenamed freshRules → r'.kind.isRenamed freshRules → r.AreApart r') ∧
      ∀ r' ∈ rules', r'.kind.isRenamed freshRules → r'.HasIds s.nextId s'.nextId := by
  induction rules with
  | nil =>
    rintro s _ _ - hrun
    cases hrun
    exact ⟨Nat.le_refl _, [], rfl, .nil, .nil, List.forall_mem_nil _⟩
  | cons r rules ih =>
    intro s s' es hrules hrun
    obtain ⟨⟨hnumbered, hr⟩, hrules⟩ := List.forall_mem_cons.mp hrules
    rw [List.mapM_cons] at hrun
    obtain ⟨e, s₁, hfirst, hrun⟩ := SessionM.exists_of_bind hrun
    obtain ⟨es, s₂, hrest, hrun⟩ := SessionM.exists_of_bind hrun
    cases hrun
    have hhead : s.nextId ≤ s₁.nextId ∧ s.nodes ≤ s₁.nodes ∧ ∃ r', e.2.rule? e.1 = some r' ∧
        (if r.kind.isRenamed freshRules then r.IsFreshCopy r' else r' = r) ∧ r'.kind = r.kind ∧
        (r'.kind.isRenamed freshRules → r'.HasIds s.nextId s₁.nextId) := by
      obtain ⟨o, s₀, ho, hfirst⟩ := SessionM.exists_of_bind hfirst
      rw [Rule.freshOutcome] at ho
      cases hkind : r.kind.renamed? freshRules with
      | none =>
        rw [hkind] at ho
        cases ho
        cases hfirst
        refine ⟨Nat.le_refl _, Nat.le_refl _, r, rfl, by rw [RuleKind.isRenamed, hkind]; rfl, rfl, fun h => ?_⟩
        rw [RuleKind.isRenamed, hkind] at h
        cases h
      | some before =>
        rw [hkind] at ho
        obtain ⟨r', s₃, hrename, ho⟩ := SessionM.exists_of_bind ho
        cases ho
        cases hfirst
        have hrenamed : r.kind.isRenamed freshRules := by rw [RuleKind.isRenamed, hkind]; rfl
        obtain ⟨hids, hnodes, hcopy, hrange⟩ := Rule.isFreshCopy_of_renameFresh
          (RuleKind.isNamePrefix_of_renamed? hkind) (hr hrenamed) hnumbered hrename
        obtain ⟨ρ, -, hrenames, -⟩ := id hcopy
        exact ⟨hids, hnodes, r', rfl, by rwa [if_pos hrenamed], hrenames.kind, fun _ => hrange⟩
    obtain ⟨hids, hnodes, r', hr', hcopy, -, hrange⟩ := hhead
    obtain ⟨hids', rules', rfl, hcopies, hapart, hranges⟩ :=
      ih (fun r hr => ⟨(hrules r hr).1.mono hnodes, (hrules r hr).2⟩) hrest
    refine ⟨Nat.le_trans hids hids', _, List.filterMap_cons_some hr', .cons hcopy hcopies,
      List.pairwise_cons.mpr ⟨fun r'' hr'' hk hk' v hv hv' => ?_, hapart⟩, ?_⟩
    · by_contra hd
      have hlt := (hrange hk v hv (by simpa using hd)).2
      have hle := (hranges r'' hr'' hk' v hv' (by simpa using hd)).1
      omega
    · refine List.forall_mem_cons.mpr ⟨fun hk v hv hd => ?_, fun r'' hr'' hk v hv hd => ?_⟩
      · have := hrange hk v hv hd
        omega
      · have := hranges r'' hr'' hk v hv hd
        omega

/-- Renaming gives each rule of the kinds that are renamed variables of its own: it becomes a copy of itself under
a true renaming that keeps marks, in body, conditions and lookups alike, and no two of these rules have a variable in
common but don't-care variables. Nothing else changes. The terms of the rules have to be as builders leave them, none
of them editable, and what is told apart in keys of maps and elements of sets only by its multiplicity or its sort
would become one. -/
theorem Pass.freshNaming_renamesApart {d d' : Definition} {changes : Nat} (hd : d.IsNumbered s.nodes)
    (hrules : ∀ r ∈ d.rules, r.kind.isRenamed s.options.freshRules → r.isRenamable)
    (hrun : Pass.freshNaming.run d s = (.ok (d', changes), s')) :
    d' = { d with rules := d'.rules } ∧
      List.Forall₂ (fun r r' => if r.kind.isRenamed s.options.freshRules then r.IsFreshCopy r' else r' = r)
        d.rules d'.rules ∧
      d'.rules.Pairwise fun r r' => r.kind.isRenamed s.options.freshRules → r'.kind.isRenamed s.options.freshRules →
        r.AreApart r' := by
  obtain ⟨s₀, _, hget, hrun⟩ := SessionM.exists_of_bind hrun
  cases hget
  obtain ⟨es, s₁, hloop, hrun⟩ := SessionM.exists_of_bind hrun
  cases hrun
  obtain ⟨-, rules', rfl, hcopies, hapart, -⟩ := freshNaming_rules d.rules (fun r hr => ⟨hd r hr, hrules r hr⟩) hloop
  exact ⟨rfl, hcopies, hapart⟩

/-- A rule that looks up a map and makes up a constant, and a function with an argument that does not matter. -/
def lookupAndFunction : Definition where
  rules :=
    let x (id : Nat) : Term := ⟨⟨id, false⟩, .var ⟨"X", .int, 0⟩⟩
    let y (id : Nat) : Term := ⟨⟨id, false⟩, .var ⟨"?Y", .k, 0⟩⟩
    let rest (id : Nat) : Term := ⟨⟨id, false⟩, .var ⟨"M", .map, 0⟩⟩
    let entries (id : Nat) : Term := ⟨⟨id, false⟩, .map .map [(x (id + 1), y (id + 2))] [rest (id + 3)]⟩
    let left : Term := ⟨⟨1, false⟩, .app (.const "get") [x 2, entries 3] .kItem⟩
    let right : Term := ⟨⟨7, false⟩, .var ⟨"!N", .int, 0⟩⟩
    let call : Term := ⟨⟨10, false⟩, .app (.const "f") [x 11, ⟨⟨12, false⟩, .var (.dontCare .k)⟩] .int⟩
    [{ kind := .regular, body := ⟨⟨13, false⟩, .rewrite left right⟩, left, right, lookups := .truth,
       requires := [⟨⟨14, false⟩, .app (.const "p") [y 15] .bool⟩], equations := [(x 16, .int 0)] },
      { kind := .function, body := ⟨⟨17, false⟩, .rewrite call (x 18)⟩, left := call, right := x 18,
        lookups := .truth }]
  fuel := 0

theorem isNumbered_lookupAndFunction : lookupAndFunction.IsNumbered 20 := by
  unfold Definition.IsNumbered Rule.IsNumbered Term.IsNumbered Term.HasNumber
  decide

theorem Pass.freshNaming_renamesApart_lookupAndFunction :
    let s : Session := { options := { freshRules := true }, nodes := 20 }
    lookupAndFunction.IsNumbered s.nodes ∧
      (∀ r ∈ lookupAndFunction.rules, r.kind.isRenamed s.options.freshRules → r.isRenamable) ∧
      ∃ d' changes s', Pass.freshNaming.run lookupAndFunction s = (.ok (d', changes), s') ∧
        d'.rules.map (fun r => r.vars.map Var.render) =
          [["R_X_1", "R_X_1", "?Y_2", "R_M_3", "!N_4", "?Y_2", "R_X_1"], ["X_5", "THE_VARIABLE", "X_5"]] ∧
        d' = { lookupAndFunction with rules := d'.rules } ∧
        List.Forall₂ (fun r r' => if r.kind.isRenamed s.options.freshRules then r.IsFreshCopy r' else r' = r)
          lookupAndFunction.rules d'.rules ∧
        d'.rules.Pairwise fun r r' => r.kind.isRenamed s.options.freshRules → r'.kind.isRenamed s.options.freshRules →
          r.AreApart r' := by
  intro s
  have hrules : ∀ r ∈ lookupAndFunction.rules, r.kind.isRenamed s.options.freshRules → r.isRenamable := by
    decide
  have h : ((Session.run s.options (Pass.freshNaming.run lookupAndFunction)).result? s.nodes).any
      (fun e => e.1.1.rules.map (fun r => r.vars.map Var.render) ==
        [["R_X_1", "R_X_1", "?Y_2", "R_M_3", "!N_4", "?Y_2", "R_X_1"], ["X_5", "THE_VARIABLE", "X_5"]]) = true := by
    decide +kernel
  obtain ⟨⟨d', changes⟩, s', hrun, hnames⟩ := SessionM.exists_run h
  exact ⟨isNumbered_lookupAndFunction, hrules, d', changes, s', hrun, beq_iff_eq.mp hnames,
    freshNaming_renamesApart isNumbered_lookupAndFunction hrules hrun⟩

/-- A function of a map. Its keys are groups of the same two frames, which have one name, in one order and in the
other. -/
def mapOfGroups (kind : RuleKind) : Definition where
  rules :=
    let x : Var := ⟨"X", .k, 0⟩
    let x' : Var := ⟨"X", .bag, 0⟩
    let group (id : Nat) (frames : List Var) : Term := ⟨⟨id, false⟩, .cells [] frames⟩
    let entries : Term :=
      ⟨⟨3, false⟩, .map .map [(group 1 [x', x], .constant "a"), (group 2 [x, x'], .constant "a")] []⟩
    let call : Term := ⟨⟨4, false⟩, .app (.const "f") [⟨⟨5, false⟩, .var x⟩, ⟨⟨6, false⟩, .var x'⟩, entries] .kItem⟩
    [{ kind, body := ⟨⟨7, false⟩, .rewrite call (.constant "a")⟩, left := call, right := .constant "a",
       lookups := .truth }]
  fuel := 0

/-- Frames of one name get ids in the order in which their variables occur, and then the order of frames is the same
in both groups: the keys become one, and an entry of the map gets lost. -/
theorem Pass.exists_entry_lost : ∃ (d d' : Definition) (s s' : Session) (changes : Nat) (r r' : Rule),
    d.IsNumbered s.nodes ∧ Pass.freshNaming.run d s = (.ok (d', changes), s') ∧ d.rules = [r] ∧ d'.rules = [r'] ∧
      r.kind.isRenamed s.options.freshRules ∧ r.body.isBuilderNormal ∧ ¬ ∃ ρ, r.Renames ρ r' := by
  have hnumbered : (mapOfGroups .function).IsNumbered 8 := by
    unfold Definition.IsNumbered Rule.IsNumbered Term.IsNumbered Term.HasNumber
    decide
  have h : ((Session.run {} (Pass.freshNaming.run (mapOfGroups .function))).result? 8).any
      (fun e => (single? e.1.1.rules).any fun r' => r'.body.size == 8) = true := by
    decide
  obtain ⟨⟨d', changes⟩, s', hrun, h⟩ := SessionM.exists_run h
  obtain ⟨r', hrule, hsize⟩ := (Option.any_eq_true ..).mp h
  refine ⟨mapOfGroups .function, d', { nodes := 8 }, s', changes, _, r', hnumbered, hrun, rfl, eq_of_single? hrule,
    rfl, by decide, fun ⟨ρ, hrenames⟩ => ?_⟩
  rw [beq_iff_eq, hrenames.body.size_eq] at hsize
  exact absurd hsize (by decide)

end RuleCompiler
