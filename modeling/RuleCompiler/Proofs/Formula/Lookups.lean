import RuleCompiler.Proofs.Formula.Instances
import RuleCompiler.Proofs.Matching.Instances
import RuleCompiler.Proofs.Matching.Members

/-! # What lookups come to

An instance of a lookup says that a key, an element or a position has something in a ground collection. What
a lookup comes to before its variables are known is what its instances say, as long as nothing in the
collection becomes equal to what is looked up that was not so before. -/

namespace RuleCompiler

open Matching (Apart)

namespace Term
variable {t u : Term}

theorem intValue?_congr (h : t == u) : t.intValue? = u.intValue? := by
  have h := alike_of_beq h
  unfold intValue?
  generalize t.node = m, u.node = n at h
  cases h <;> rfl

theorem isGround_of_intValue? {i : Int} (h : t.intValue? = some i) : t.isGround := by
  refine isGround_of_isCanonical ?_
  unfold intValue? at h
  split at h
  · rename_i hn
    rw [isCanonical, hn]
    rfl
  · cases h

end Term

namespace Lookup
variable {θ : Substitution} {d d' : Lookup}

/-- Whether a lookup in a known collection holds: the key or the position has the value, the element is
there or not, as is said. -/
def holds : Lookup → Bool
  | mapValue m k v => (SortedList.get? k m.mapEntries).any (v == ·)
  | setMember s e h => h == .bool (s.setElements.contains e)
  | listItem l i v => (i.intValue?.bind (itemAt? l.listItems)).any (v == ·)
  | mapChoice m k => m.mapKeys.contains k
  | setChoice s e => s.setElements.contains e

/-- Under the bindings the lookup is one of the same kind about what its terms read as. -/
inductive Reads (θ : Substitution) : Lookup → Lookup → Prop where
  | mapValue {m m' k k' v v' : Term} (hm : Matching.Reads θ m m') (hk : Matching.Reads θ k k')
      (hv : Matching.Reads θ v v') : Reads θ (.mapValue m k v) (.mapValue m' k' v')
  | setMember {s s' e e' h h' : Term} (hs : Matching.Reads θ s s') (he : Matching.Reads θ e e')
      (hh : Matching.Reads θ h h') : Reads θ (.setMember s e h) (.setMember s' e' h')
  | listItem {l l' i i' v v' : Term} (hl : Matching.Reads θ l l') (hi : Matching.Reads θ i i')
      (hv : Matching.Reads θ v v') : Reads θ (.listItem l i v) (.listItem l' i' v')
  | mapChoice {m m' k k' : Term} (hm : Matching.Reads θ m m') (hk : Matching.Reads θ k k') :
      Reads θ (.mapChoice m k) (.mapChoice m' k')
  | setChoice {s s' e e' : Term} (hs : Matching.Reads θ s s') (he : Matching.Reads θ e e') :
      Reads θ (.setChoice s e) (.setChoice s' e')

/-- The bindings keep what is looked up apart from everything else: no other key or element becomes equal to
it, and a list keeps its items. -/
def KeepsApart (θ : Substitution) : Lookup → Prop
  | mapValue m k _ => Matching.KeyApart θ m k
  | mapChoice m k => Apart θ m.mapKeys k
  | setMember s e _ | setChoice s e => Apart θ s.setElements e
  | listItem l _ _ => Matching.KeepsItems θ l

/-- What a lookup comes to is what its instance says. -/
def Outcome.IsCertain (θ : Substitution) (d : Lookup) : Outcome → Prop
  | equation a b => ∃ a' b', Matching.Reads θ a a' ∧ Matching.Reads θ b b' ∧ (d.holds ↔ a' == b')
  | holds => d.holds
  | fails => d.holds = false
  | pending => True

section Certain
variable {m s l k e i v h m' s' l' k' e' i' v' h' : Term}

/-- Paired lists have paired items at every position. -/
theorem itemAt?_paired {R : Term → Term → Prop} {ts us : List Term} (h : List.Forall₂ R ts us) (n : Int) :
    Option.Rel R (itemAt? ts n) (itemAt? us n) := by
  unfold itemAt?
  rw [h.length_eq]
  generalize (if n < 0 then n + (us.length : Int) else n) = j
  dsimp only
  split
  · exact .none
  · cases ht : ts[j.toNat]? with
    | none =>
      rw [List.getElem?_eq_none_iff, h.length_eq] at ht
      rw [List.getElem?_eq_none_iff.mpr ht]
      exact .none
    | some t =>
      obtain ⟨u, hu, htu⟩ := PairedLists.exists_getElem? h ht
      rw [hu]
      exact .some htu

/-- What is taken to be no member is none of a known collection. -/
theorem absent {ks base : List Term} (hknown : ¬(k.isGround && ks.contains k) = true)
    (h : (base.isEmpty && (k.isGround || ks.isEmpty)) = true) : base = [] ∧ ks.contains k = false := by
  rw [Bool.and_eq_true, List.isEmpty_iff, Bool.or_eq_true, List.isEmpty_iff] at h
  refine ⟨h.1, ?_⟩
  rcases h.2 with hground | rfl
  · simpa [hground] using hknown
  · rfl

theorem mapValue_certain (hm : Matching.Reads θ m m') (hk : Matching.Reads θ k k') (hv : Matching.Reads θ v v')
    (hd : Matching.KeyApart θ m k) : (resolve (.mapValue m k v)).IsCertain θ (.mapValue m' k' v') := by
  unfold resolve
  dsimp only
  split
  · rename_i ops es base hn
    have hkeys : m.mapKeys = es.map (·.1) := by rw [Term.mapKeys, Term.mapEntries, hn]
    split
    · rename_i hground
      cases hget : SortedList.get? k es with
      | some found =>
        obtain ⟨w, hw, hread⟩ := hm.exists_value hn hk hground hd hget
        exact ⟨v', w, hv, hread, by rw [holds, hw, Option.any_some]⟩
      | none =>
        dsimp only
        split
        · rename_i hbase
          obtain rfl := List.isEmpty_iff.mp hbase
          have hno := (hm.collectsKeys hn).contains_eq_false hk (hkeys ▸ hd.apart) (SortedList.get?_eq_none.mp hget)
          show holds (.mapValue m' k' v') = false
          rw [holds, SortedList.get?_eq_none.mpr hno]
          rfl
        · trivial
    · trivial
  · trivial

theorem setMember_certain (hs : Matching.Reads θ s s') (he : Matching.Reads θ e e') (hh : Matching.Reads θ h h')
    (hd : Apart θ s.setElements e) : (resolve (.setMember s e h)).IsCertain θ (.setMember s' e' h') := by
  have hsays {b : Bool} (hb : s'.setElements.contains e' = b) :
      (Outcome.equation h (.bool b)).IsCertain θ (.setMember s' e' h') :=
    ⟨h', .bool b, hh, .ground (Term.isGround_of_isCanonical rfl) BEq.rfl, by rw [holds, hb]⟩
  unfold resolve
  dsimp only
  split
  · rename_i ops ts base hn
    have hts : s.setElements = ts := by rw [Term.setElements, hn]
    rw [hts] at hd
    split
    · rename_i hknown
      obtain ⟨hground, hmem⟩ := (Bool.and_eq_true _ _).mp hknown
      exact hsays ((hs.collectsElements hn).contains he hground hmem)
    · split
      · rename_i hknown hempty
        obtain ⟨rfl, hno⟩ := absent hknown hempty
        exact hsays ((hs.collectsElements hn).contains_eq_false he hd hno)
      · trivial
  · trivial

/-- A choice holds as far as a member is known to be there, and fails as far as it is known not to be. -/
theorem choice_certain {view : Term → List Term} {ks base : List Term}
    (h : Matching.Collects θ view ks base m') (hk : Matching.Reads θ k k') (hd : Apart θ ks k)
    (hd' : d'.holds = (view m').contains k') :
    Outcome.IsCertain θ d' (if k.isGround && ks.contains k then .holds
      else if base.isEmpty && (k.isGround || ks.isEmpty) then .fails else .pending) := by
  split
  · rename_i hknown
    obtain ⟨hground, hmem⟩ := (Bool.and_eq_true _ _).mp hknown
    exact hd'.trans (h.contains hk hground hmem)
  · split
    · rename_i hknown hempty
      obtain ⟨rfl, hno⟩ := absent hknown hempty
      exact hd'.trans (h.contains_eq_false hk hd hno)
    · trivial

theorem setChoice_certain (hs : Matching.Reads θ s s') (he : Matching.Reads θ e e') (hd : Apart θ s.setElements e) :
    (resolve (.setChoice s e)).IsCertain θ (.setChoice s' e') := by
  unfold resolve
  dsimp only
  split
  · rename_i ops ts base hn
    have hts : s.setElements = ts := by rw [Term.setElements, hn]
    exact choice_certain (hs.collectsElements hn) he (hts ▸ hd) rfl
  · trivial

theorem listItem_certain (hl : Matching.Reads θ l l') (hi : Matching.Reads θ i i') (hv : Matching.Reads θ v v')
    (hd : Matching.KeepsItems θ l) : (resolve (.listItem l i v)).IsCertain θ (.listItem l' i' v') := by
  unfold resolve
  dsimp only
  split
  · rename_i ops items base right n hn hn'
    have hi' : i'.intValue? = some n := by
      rw [← Term.intValue?_congr (hi.beq_of_isGround (Term.isGround_of_intValue? hn')), hn']
    split
    · rename_i hbase
      obtain rfl := List.isEmpty_iff.mp hbase
      have hpaired := itemAt?_paired (hl.listItems hn hd) n
      have hholds : holds (.listItem l' i' v') = (itemAt? l'.listItems n).any (v' == ·) := by
        rw [holds, hi', Option.bind_some]
      generalize itemAt? items n = found, itemAt? l'.listItems n = found' at hpaired hholds
      cases hpaired with
      | none => exact hholds
      | some hread => exact ⟨v', _, hv, hread, by rw [hholds, Option.any_some]⟩
    · trivial
  · trivial

theorem mapChoice_certain (hm : Matching.Reads θ m m') (hk : Matching.Reads θ k k') (hd : Apart θ m.mapKeys k) :
    (resolve (.mapChoice m k)).IsCertain θ (.mapChoice m' k') := by
  unfold resolve
  dsimp only
  split
  · rename_i ops es base hn
    have hes : m.mapKeys = es.map (·.1) := by rw [Term.mapKeys, Term.mapEntries, hn]
    have hkeys : es.isEmpty = (es.map (·.1)).isEmpty := List.isEmpty_map.symm
    have hany : es.any (·.1 == k) = (es.map (·.1)).contains k := by rw [← List.any_beq', List.any_map]; rfl
    rw [hkeys, hany]
    exact choice_certain (hm.collectsKeys hn) hk (hes ▸ hd) rfl
  · trivial

end Certain

/-- As long as what is looked up is kept apart from everything else, what a lookup comes to is what each of
its instances says. -/
theorem resolve_certain (h : d.Reads θ d') (hd : d.KeepsApart θ) : d.resolve.IsCertain θ d' := by
  cases h with
  | mapValue hm hk hv => exact mapValue_certain hm hk hv hd
  | setMember hs he hh => exact setMember_certain hs he hh hd
  | listItem hl hi hv => exact listItem_certain hl hi hv hd
  | mapChoice hm hk => exact mapChoice_certain hm hk hd
  | setChoice hs he => exact setChoice_certain hs he hd

namespace TwoValues

/-- The value of 1 in a map that has an unknown value for it and 3 for 2, which is to be another unknown. -/
def lookup : Lookup :=
  .mapValue ⟨{ id := 1 }, .map .map [(.int 1, ⟨{ id := 2 }, .var { name := "X", sort := .int }⟩), (.int 2, .int 3)] []⟩
    (.int 1) ⟨{ id := 3 }, .var { name := "Y", sort := .int }⟩

def values : Substitution := ⟨[({ name := "X", sort := .int }, .int 5), ({ name := "Y", sort := .int }, .int 5)]⟩

/-- The value of 1 in a map with the values 5 and 3, which is to be 5. -/
def instance5 : Lookup := .mapValue ⟨{ id := 4 }, .map .map [(.int 1, .int 5), (.int 2, .int 3)] []⟩ (.int 1) (.int 5)

end TwoValues

open TwoValues in
theorem resolve_certain_valued : lookup.Reads values instance5 ∧ lookup.KeepsApart values ∧
    lookup.resolve.IsCertain values instance5 ∧ instance5.holds := by
  have hground {n : Int} : Matching.Reads values (.int n) (.int n) :=
    .ground (Term.isGround_of_isCanonical rfl) BEq.rfl
  have hvar {t : Term} {v : Var} (hn : t.node = .var v) (hv : values.get? v = some (.int 5))
      (hsort : v.sort = .int) : Matching.Reads values t (.int 5) :=
    .var hn ⟨.int 5, hv, BEq.rfl, hsort ▸ SortName.subsortOf_refl _⟩
  have hreads : lookup.Reads values instance5 := by
    refine .mapValue (Matching.Mirrors.reads ⟨rfl, ?_⟩ (by decide) rfl) hground (hvar rfl rfl rfl)
    exact .cons hground (.cons (hvar rfl rfl rfl) (.cons hground (.cons hground .nil)))
  have hapart : lookup.KeepsApart values := by
    refine ⟨by decide, Matching.apart_of_isGround (by decide) (by decide), ?_⟩
    rintro _ _ _ ⟨⟩ b ⟨⟩
  exact ⟨hreads, hapart, resolve_certain hreads hapart, by decide⟩

/-- A choice from a set of one variable, and the value of the variable that is what is chosen. -/
def unknownElement : Build (Lookup × Substitution) := do
  let x : Var := { name := "X", sort := .int }
  let set ← SetParts.build { ops := .set, elements := [← Term.var x] }
  return (.setChoice set (.int 1), ⟨[(x, .int 1)]⟩)

set_option maxRecDepth 100000

/-- A choice is found to fail though it holds in an instance. -/
theorem exists_fails_holds : ∃ (d d' : Lookup) (θ : Substitution), unknownElement.result? 1 = some (d, θ) ∧
    d.resolve = .fails ∧ (d.mapTerms θ.apply).result? 100 = some d' ∧ d'.holds := by
  have h : (unknownElement.result? 1).any (fun e => (e.1.resolve matches .fails) &&
      ((e.1.mapTerms e.2.apply).result? 100).any (·.holds)) = true := by
    decide
  obtain ⟨⟨d, θ⟩, he, h⟩ := (Option.any_eq_true ..).mp h
  obtain ⟨hfails, hinstance⟩ := (Bool.and_eq_true _ _).mp h
  obtain ⟨d', hd', hholds⟩ := (Option.any_eq_true ..).mp hinstance
  refine ⟨d, d', θ, he, ?_, hd', hholds⟩
  cases hd : d.resolve <;> simp_all

end Lookup

end RuleCompiler
