import RuleCompiler.Builtin
import RuleCompiler.Proofs.Formula.Completeness
import RuleCompiler.Proofs.Formula.Lookups

/-! # Answers of built-in operations

An operation answers on arguments whose variables are not known yet. Its answer is the one that it gives on
every instance of the arguments, as far as it gives one: for known integers and truth values because they stay
what they are, for collections and equality as long as nothing becomes equal that was not so before. -/

namespace RuleCompiler

open Matching (Apart Reads)

namespace Term
variable {θ : Substitution} {t t' : Term}

theorem reads_bool (b : Bool) : Reads θ (.bool b) (.bool b) := .ground (isGround_of_isCanonical rfl) BEq.rfl

theorem reads_int (n : Int) : Reads θ (.int n) (.int n) := .ground (isGround_of_isCanonical rfl) BEq.rfl

theorem boolValue?_congr (h : t == t') : t.boolValue? = t'.boolValue? := by
  have h := alike_of_beq h
  unfold boolValue?
  generalize t.node = m, t'.node = n at h
  cases h <;> rfl

theorem beq_bool {b : Bool} (h : t.boolValue? = some b) : t == .bool b := by
  unfold boolValue? at h
  split at h
  · rename_i hn
    refine beq_of_alike ?_
    rw [hn]
    split_ifs at h with hs ht hf
    · cases h
      rw [ht, Classical.not_not.mp hs]
      exact .token
    · cases h
      rw [hf, Classical.not_not.mp hs]
      exact .token
  · cases h

/-- A known truth value stays what it is. -/
theorem boolValue?_of_reads {b : Bool} (h : Reads θ t t') (ht : t.boolValue? = some b) : t'.boolValue? = some b := by
  have hground : t.isGround := (isGround_congr (beq_bool ht)).trans (isGround_of_isCanonical rfl)
  rw [← boolValue?_congr (h.beq_of_isGround hground), ht]

/-- A term whose instance is a known truth value reads as this truth value. -/
theorem reads_of_boolValue? {b : Bool} (h : Reads θ t t') (ht : t'.boolValue? = some b) : Reads θ t (.bool b) :=
  h.congr (beq_bool ht)

theorem intValue?_of_reads {n : Int} (h : Reads θ t t') (ht : t.intValue? = some n) : t'.intValue? = some n := by
  rw [← intValue?_congr (h.beq_of_isGround (isGround_of_intValue? ht)), ht]

end Term

open Term (reads_bool reads_int reads_of_boolValue? boolValue?_of_reads intValue?_of_reads)

namespace Primitives

/-- A connective of two operands as far as one can be enough: a left operand that is `x` or a right operand
that is `y` makes the result `y`, and what is left of the other operands decides otherwise. -/
def shortcut {α : Type} (P : Primitives α) (x y : Bool) (a b : α) : Option α :=
  if P.bool? a = some x ∨ P.bool? b = some y then some (P.bool y)
  else if P.bool? a = some !x then some b
  else if x = y ∧ P.bool? b = some !y then some a
  else none

theorem connect_eq_shortcut {α : Type} (P : Primitives α) (a b : α) :
    P.connect .and [a, b] = P.shortcut false false a b ∧ P.connect .or [a, b] = P.shortcut true true a b ∧
      P.connect .implies [a, b] = P.shortcut false true a b := by
  rcases ha : P.bool? a with _ | _ | _ <;> rcases hb : P.bool? b with _ | _ | _ <;> simp [connect, shortcut, ha, hb]

section Certain
variable {θ : Substitution} {args args' : List Term} {a b a' b' r r' : Term}

theorem shortcut_certain {x y : Bool} (ha : Reads θ a a') (hb : Reads θ b b')
    (hr : Term.primitives.shortcut x y a b = some r) (hr' : Term.primitives.shortcut x y a' b' = some r') :
    Reads θ r r' := by
  have hknown {t t' : Term} {c : Bool} (h : Reads θ t t') : Term.primitives.bool? t = some c →
      Term.primitives.bool? t' = some c := boolValue?_of_reads h
  have hreads {t t' : Term} {c : Bool} (h : Reads θ t t') : Term.primitives.bool? t' = some c →
      Reads θ t (.bool c) := reads_of_boolValue? h
  unfold shortcut at hr hr'
  split_ifs at hr with hxy hx hy
  · cases hr
    rw [if_pos (hxy.imp (hknown ha) (hknown hb))] at hr'
    cases hr'
    exact reads_bool y
  · cases hr
    have hx' := hknown ha hx
    split_ifs at hr' with hxy'
    · cases hr'
      refine hreads hb (hxy'.resolve_left fun h => ?_)
      rw [hx'] at h
      simp at h
    · cases hr'
      exact hb
  · cases hr
    obtain ⟨rfl, hy⟩ := hy
    have hy' := hknown hb hy
    split_ifs at hr' with hxy' hx' hyy'
    · cases hr'
      refine hreads ha (hxy'.resolve_right fun h => ?_)
      rw [hy'] at h
      simp at h
    · cases hr'
      exact (hreads ha hx').congr (BEq.symm (Term.beq_bool hy'))
    · cases hr'
      exact ha

theorem connect_certain {op : Connective} (h : List.Forall₂ (Reads θ) args args')
    (hr : Term.primitives.connect op args = some r) (hr' : Term.primitives.connect op args' = some r') :
    Reads θ r r' := by
  cases h with
  | nil => cases op <;> cases hr
  | cons ha h =>
  cases h with
  | nil =>
    cases op <;> simp only [connect, reduceCtorEq] at hr hr'
    obtain ⟨x, hx, rfl⟩ := Option.map_eq_some_iff.mp hr
    rw [show Term.primitives.bool? _ = some x from boolValue?_of_reads ha hx] at hr'
    cases hr'
    exact reads_bool _
  | cons hb h =>
  cases h with
  | cons => cases op <;> cases hr
  | nil =>
    cases op with
    | not => cases hr
    | and =>
      rw [(connect_eq_shortcut _ _ _).1] at hr hr'
      exact shortcut_certain ha hb hr hr'
    | or =>
      rw [(connect_eq_shortcut _ _ _).2.1] at hr hr'
      exact shortcut_certain ha hb hr hr'
    | implies =>
      rw [(connect_eq_shortcut _ _ _).2.2] at hr hr'
      exact shortcut_certain ha hb hr hr'

/-- Operations on integers and truth values give the instance of their result on every instance. -/
theorem value_certain {op : Builtin} (h : List.Forall₂ (Reads θ) args args')
    (hr : Term.primitives.apply op args = some r) (hr' : Term.primitives.apply op args' = some r') :
    Reads θ r r' := by
  cases op with
  | connective op => exact connect_certain h hr hr'
  | arithmetic op =>
    rcases h with _ | ⟨ha, _ | ⟨hb, _ | _⟩⟩ <;> try cases hr
    simp only [apply, Option.bind_eq_bind, Option.bind_eq_some_iff] at hr hr'
    obtain ⟨m, hm, n, hn, k, hk, hr⟩ := hr
    obtain ⟨m', hm', n', hn', k', hk', hr'⟩ := hr'
    cases (intValue?_of_reads ha hm).symm.trans hm'
    cases (intValue?_of_reads hb hn).symm.trans hn'
    cases hk.symm.trans hk'
    cases hr
    cases hr'
    exact reads_int k
  | comparison op =>
    rcases h with _ | ⟨ha, _ | ⟨hb, _ | _⟩⟩ <;> try cases hr
    simp only [apply, Option.bind_eq_bind, Option.bind_eq_some_iff] at hr hr'
    obtain ⟨m, hm, n, hn, hr⟩ := hr
    obtain ⟨m', hm', n', hn', hr'⟩ := hr'
    cases (intValue?_of_reads ha hm).symm.trans hm'
    cases (intValue?_of_reads hb hn).symm.trans hn'
    cases hr
    cases hr'
    exact reads_bool _
  | _ => cases hr

end Certain

end Primitives

namespace Builtin
variable {θ : Substitution} {functions : List String} {args args' : List Term} {a b a' b' r r' : Term}

/-- The bindings make nothing equal that the answer of the operation depends on: other keys and elements stay
different from what is looked up, lists keep their items, and different terms to compare have no variables, or
what has variables in them is rigid. -/
def KeepsApart (θ : Substitution) : Builtin → List Term → Prop
  | equality _, [a, b] => a.isGround ∧ b.isGround ∨ a.IsRigid ∧ b.IsRigid ∨ a == b
  | mapValue, [map, key] => Matching.KeyApart θ map key
  | setMember, [element, set] => Apart θ set.setElements element
  | listItem, [list, _] => Matching.KeepsItems θ list
  | _, _ => True

/-! #### Access to collections -/

theorem of_mapValue (h : access? mapValue [a, b] = some r) :
    ∃ ops es base, a.node = .map ops es base ∧ b.isGround ∧ SortedList.get? b es = some r := by
  unfold access? at h
  dsimp only at h
  split at h
  · rename_i hn
    split_ifs at h with hground
    exact ⟨_, _, _, hn, hground, h⟩
  · cases h

theorem of_setMember (h : access? setMember [a, b] = some r) :
    ∃ ops ts base, b.node = .set ops ts base ∧ a.isGround ∧
      (ts.contains a ∧ r = .bool true ∨ ts.contains a = false ∧ base = [] ∧ r = .bool false) := by
  unfold access? at h
  dsimp only at h
  split at h
  · rename_i hn
    split_ifs at h with hground hmem hbase <;> cases h
    · exact ⟨_, _, _, hn, by simpa using hground, .inl ⟨hmem, rfl⟩⟩
    · exact ⟨_, _, _, hn, by simpa using hground, .inr ⟨by simpa using hmem, List.isEmpty_iff.mp hbase, rfl⟩⟩
  · cases h

theorem of_listItem (h : access? listItem [a, b] = some r) :
    ∃ ops items right n, a.node = .list ops items [] right ∧ b.intValue? = some n ∧
      Lookup.itemAt? items n = some r := by
  unfold access? at h
  dsimp only at h
  split at h
  · rename_i hn
    obtain ⟨n, hi, h⟩ := Option.bind_eq_some_iff.mp h
    split_ifs at h with hbase
    rw [List.isEmpty_iff.mp hbase] at hn
    exact ⟨_, _, _, n, hn, hi, h⟩
  · cases h

theorem mapValue_certain (hm : Reads θ a a') (hk : Reads θ b b') (hkeeps : Matching.KeyApart θ a b)
    (hr : access? mapValue [a, b] = some r) (hr' : access? mapValue [a', b'] = some r') : Reads θ r r' := by
  obtain ⟨ops, es, base, hn, hground, hget⟩ := of_mapValue hr
  obtain ⟨_, _, _, hn', -, hget'⟩ := of_mapValue hr'
  obtain ⟨w, hw, hread⟩ := hm.exists_value hn hk hground hkeeps hget
  rw [Term.mapEntries, hn'] at hw
  cases hw.symm.trans hget'
  exact hread

theorem setMember_certain (he : Reads θ a a') (hs : Reads θ b b') (hkeeps : Apart θ b.setElements a)
    (hr : access? setMember [a, b] = some r) (hr' : access? setMember [a', b'] = some r') : Reads θ r r' := by
  obtain ⟨ops, ts, base, hn, hground, hts⟩ := of_setMember hr
  obtain ⟨_, ts', _, hn', -, hts'⟩ := of_setMember hr'
  have helements : b.setElements = ts := by rw [Term.setElements, hn]
  have helements' : b'.setElements = ts' := by rw [Term.setElements, hn']
  rcases hts with ⟨hmem, rfl⟩ | ⟨hno, rfl, rfl⟩
  · have hmem' := (hs.collectsElements hn).contains he hground hmem
    rw [helements'] at hmem'
    rcases hts' with ⟨-, rfl⟩ | ⟨hno', -⟩
    · exact reads_bool true
    · rw [hmem'] at hno'
      cases hno'
  · have hno' := (hs.collectsElements hn).contains_eq_false he (helements ▸ hkeeps) hno
    rw [helements'] at hno'
    rcases hts' with ⟨hmem', -⟩ | ⟨-, -, rfl⟩
    · rw [hno'] at hmem'
      cases hmem'
    · exact reads_bool false

theorem listItem_certain (hl : Reads θ a a') (hi : Reads θ b b') (hkeeps : Matching.KeepsItems θ a)
    (hr : access? listItem [a, b] = some r) (hr' : access? listItem [a', b'] = some r') : Reads θ r r' := by
  obtain ⟨ops, items, right, n, hn, hn₁, hitem⟩ := of_listItem hr
  obtain ⟨_, items', _, n', hn', hn₁', hitem'⟩ := of_listItem hr'
  cases (intValue?_of_reads hi hn₁).symm.trans hn₁'
  have hpaired := Lookup.itemAt?_paired (hl.listItems hn hkeeps) n
  have hitems' : a'.listItems = items' := by rw [Term.listItems, hn']
  rw [hitems', hitem, hitem'] at hpaired
  cases hpaired with
  | some hread => exact hread

theorem access_certain {op : Builtin} (h : List.Forall₂ (Reads θ) args args') (hkeeps : op.KeepsApart θ args)
    (hr : op.access? args = some r) (hr' : op.access? args' = some r') : Reads θ r r' := by
  rcases h with _ | ⟨ha, _ | ⟨hb, _ | _⟩⟩
  case cons.cons.nil =>
    cases op with
    | mapValue => exact mapValue_certain ha hb hkeeps hr hr'
    | setMember => exact setMember_certain ha hb hkeeps hr hr'
    | listItem => exact listItem_certain ha hb hkeeps hr hr'
    | _ => cases hr
  all_goals cases op <;> cases hr

/-! #### Equality -/

/-- What is decided of two terms is whether they are equal. -/
theorem returns_decideEqual? : Returns (fun o => ∀ eq, o = some eq → eq = (a == b)) (decideEqual? functions a b) := by
  have hother (h : ¬ a == b) : ∀ eq, some false = some eq → eq = (a == b) := by
    rintro _ ⟨⟩
    exact (Bool.not_eq_true _ ▸ h : (a == b) = false).symm
  unfold decideEqual?
  split
  · rename_i heq
    refine .pure ?_
    rintro _ ⟨⟩
    exact heq.symm
  · rename_i hne
    split
    · exact .pure (hother hne)
    · refine Returns.bind' fun f => .pure ?_
      split
      · exact hother hne
      · rintro _ ⟨⟩

/-- Terms with equal instances are not decided to differ. -/
theorem not_differ (ha : Reads θ a a') (hb : Reads θ b b') (hkeeps : a.isGround ∧ b.isGround ∨ a.IsRigid ∧ b.IsRigid)
    (heq : a' == b') (hne : ¬ a == b) : Returns (· = none) (decideEqual? functions a b) := by
  have hground : ¬ (a.isGround ∧ b.isGround) := fun h =>
    hne (BEq.trans (ha.beq_of_isGround h.1) (BEq.trans heq (BEq.symm (hb.beq_of_isGround h.2))))
  have hjoint : Joint θ a b := by
    obtain ⟨hra, hrb⟩ := hkeeps.resolve_left hground
    exact ⟨hra, hrb, b', ha.congr heq, hb⟩
  unfold decideEqual?
  rw [if_neg hne]
  split
  · rename_i hall
    simp only [List.all_cons, List.all_nil, Bool.and_true, Bool.and_eq_true] at hall
    exact (hground ⟨hall.1.1, hall.2.1⟩).elim
  · have hadd := Formula.always_add (Formula.admits_truth functions) hjoint
    refine (hadd.bind (R := (· = none)) fun f hf => .pure ?_).returns
    rw [hf.isFalse]
    rfl

/-- Where equality is decided, instances are equal if and only if the terms are. -/
theorem beq_eq_of_decided {eq : Bool} (ha : Reads θ a a') (hb : Reads θ b b')
    (hkeeps : a.isGround ∧ b.isGround ∨ a.IsRigid ∧ b.IsRigid ∨ a == b)
    (h : MonadAttach.CanReturn (decideEqual? functions a b) (some eq)) : (a == b) = (a' == b') := by
  by_cases heq : a == b
  · exact heq.trans (ha.unique hb heq).symm
  · rw [← or_assoc] at hkeeps
    by_contra hdiffer
    have heq' : a' == b' := by
      rw [Bool.not_eq_true] at heq
      simpa [heq] using hdiffer
    cases not_differ ha hb (hkeeps.resolve_right heq) heq' heq _ h

theorem of_equality {wanted : Bool} (h : MonadAttach.CanReturn (apply functions (equality wanted) [a, b]) (some r)) :
    ∃ eq, MonadAttach.CanReturn (decideEqual? functions a b) (some eq) ∧ r = .bool (eq == wanted) := by
  have hreturns : Returns (fun o => ∀ r, o = some r → ∃ eq,
      MonadAttach.CanReturn (decideEqual? functions a b) (some eq) ∧ r = .bool (eq == wanted))
      (apply functions (equality wanted) [a, b]) := by
    refine (Returns.self _).bind fun o ho => .pure fun r hr => ?_
    obtain ⟨eq, rfl, rfl⟩ := Option.map_eq_some_iff.mp hr
    exact ⟨eq, ho, rfl⟩
  exact hreturns _ h r rfl

theorem equality_certain {wanted : Bool} (ha : Reads θ a a') (hb : Reads θ b b')
    (hkeeps : KeepsApart θ (equality wanted) [a, b])
    (hr : MonadAttach.CanReturn (apply functions (equality wanted) [a, b]) (some r))
    (hr' : MonadAttach.CanReturn (apply functions (equality wanted) [a', b']) (some r')) : Reads θ r r' := by
  obtain ⟨eq, heq, rfl⟩ := of_equality hr
  obtain ⟨eq', heq', rfl⟩ := of_equality hr'
  rw [returns_decideEqual? _ heq' eq' rfl, ← beq_eq_of_decided ha hb hkeeps heq, returns_decideEqual? _ heq eq rfl]
  exact reads_bool _

/-! ### All operations -/

/-- An operation other than the comparison of two terms answers on values or gives access to a collection. -/
theorem of_other {op : Builtin} (hop : ∀ wanted a b, op = equality wanted → args ≠ [a, b])
    (h : MonadAttach.CanReturn (op.apply functions args) (some r)) :
    Term.primitives.apply op args = some r ∨ op.access? args = some r := by
  unfold apply at h
  split at h
  · exact (hop _ _ _ rfl rfl).elim
  · have h := LawfulMonadAttach.eq_of_canReturn_pure h
    cases hvalue : Term.primitives.apply op args with
    | some v =>
      rw [hvalue] at h
      exact .inl h
    | none =>
      rw [hvalue] at h
      exact .inr h

theorem not_both {op : Builtin} (hr : Term.primitives.apply op args = some r) : op.access? args' = none := by
  unfold access?
  split <;> first | rfl | cases hr

/-- The answer of an operation is that on every instance of the arguments that it answers on. -/
theorem apply_certain {op : Builtin} (h : List.Forall₂ (Reads θ) args args') (hkeeps : op.KeepsApart θ args)
    (hr : MonadAttach.CanReturn (op.apply functions args) (some r))
    (hr' : MonadAttach.CanReturn (op.apply functions args') (some r')) : Reads θ r r' := by
  by_cases hop : ∃ wanted a b, op = equality wanted ∧ args = [a, b]
  · obtain ⟨wanted, a, b, rfl, rfl⟩ := hop
    obtain _ | ⟨ha, _ | ⟨hb, _ | _⟩⟩ := h
    exact equality_certain ha hb hkeeps hr hr'
  · have hother : ∀ wanted a b, op = equality wanted → args ≠ [a, b] :=
      fun wanted a b hw hargs => hop ⟨wanted, a, b, hw, hargs⟩
    have hother' : ∀ wanted a b, op = equality wanted → args' ≠ [a, b] := by
      rintro wanted a' b' hw rfl
      obtain _ | ⟨ha, _ | ⟨hb, _ | _⟩⟩ := h
      exact hother wanted _ _ hw rfl
    rcases of_other hother hr with hr | hr <;> rcases of_other hother' hr' with hr' | hr'
    · exact Primitives.value_certain h hr hr'
    · rw [not_both hr] at hr'
      cases hr'
    · rw [not_both hr'] at hr
      cases hr
    · exact access_certain h hkeeps hr hr'

namespace Clashing

/-- An application of a label to a variable, in the nodes `id` and `id + 1`. -/
def ofUnknown (id : Nat) (label : String) : Term :=
  ⟨{ id }, .app (.const label) [⟨{ id := id + 1 }, .var { name := "X", sort := .int }⟩] .kItem⟩

/-- An application of a label to 5, in the node `id`. -/
def ofFive (id : Nat) (label : String) : Term := ⟨{ id }, .app (.const label) [.int 5] .kItem⟩

def values : Substitution := ⟨[({ name := "X", sort := .int }, .int 5)]⟩

end Clashing

open Clashing in
theorem apply_certain_clashing : ∃ r r' : Term,
    MonadAttach.CanReturn (apply [] (equality true) [ofUnknown 1 "f", ofUnknown 3 "g"]) (some r) ∧
    MonadAttach.CanReturn (apply [] (equality true) [ofFive 5 "f", ofFive 6 "g"]) (some r') ∧
    r.boolValue? = some false ∧ Reads values r r' := by
  have hreads (id id' : Nat) (label : String) : Reads values (ofUnknown id label) (ofFive id' label) :=
    Matching.reads_app rfl rfl (.cons (.var rfl ⟨.int 5, rfl, BEq.rfl, by decide⟩) .nil)
  have hargs : List.Forall₂ (Reads values) [ofUnknown 1 "f", ofUnknown 3 "g"] [ofFive 5 "f", ofFive 6 "g"] :=
    .cons (hreads 1 5 "f") (.cons (hreads 3 6 "g") .nil)
  have hkeeps : KeepsApart values (equality true) [ofUnknown 1 "f", ofUnknown 3 "g"] :=
    .inr (.inl ⟨by decide, by decide⟩)
  have h : ((apply [] (equality true) [ofUnknown 1 "f", ofUnknown 3 "g"]).result? 10).any
      (fun o => o.any (·.boolValue? == some false)) = true := by decide
  have h' : ((apply [] (equality true) [ofFive 5 "f", ofFive 6 "g"]).result? 10).any (·.isSome) = true := by
    decide
  obtain ⟨o, ho, h⟩ := (Option.any_eq_true ..).mp h
  obtain ⟨r, rfl, hr⟩ := (Option.any_eq_true ..).mp h
  obtain ⟨o', ho', h'⟩ := (Option.any_eq_true ..).mp h'
  obtain ⟨r', rfl⟩ := Option.isSome_iff_exists.mp h'
  have hreturn := (Returns.self _).of_result? ho
  have hreturn' := (Returns.self _).of_result? ho'
  exact ⟨r, r', hreturn, hreturn', beq_iff_eq.mp hr, apply_certain hargs hkeeps hreturn hreturn'⟩

/-- An integer and a set of one integer variable, and the value of the variable that is the integer. -/
def memberOfUnknown : Build (List Term × Substitution) := do
  let x : Var := { name := "X", sort := .int }
  let set ← SetParts.build { ops := .set, elements := [← Term.var x] }
  return ([.int 1, set], ⟨[(x, .int 1)]⟩)

set_option maxRecDepth 100000

/-- An integer is found not to be in a set of a variable, and found to be in an instance of it. -/
theorem exists_answer_changed : ∃ (args args' : List Term) (θ : Substitution) (r r' : Term),
    memberOfUnknown.result? 1 = some (args, θ) ∧ (args.mapM θ.apply).result? 100 = some args' ∧
      (apply [] setMember args).result? 200 = some (some r) ∧ (apply [] setMember args').result? 200 = some (some r') ∧
        r.boolValue? = some false ∧ r'.boolValue? = some true := by
  have h : (memberOfUnknown.result? 1).any (fun e => ((e.1.mapM e.2.apply).result? 100).any fun args' =>
      ((apply [] setMember e.1).result? 200).any (fun r => r.any (·.boolValue? == some false)) &&
        ((apply [] setMember args').result? 200).any fun r => r.any (·.boolValue? == some true)) = true := by
    decide
  obtain ⟨⟨args, θ⟩, he, h⟩ := (Option.any_eq_true ..).mp h
  obtain ⟨args', hargs', h⟩ := (Option.any_eq_true ..).mp h
  obtain ⟨hr, hr'⟩ := (Bool.and_eq_true _ _).mp h
  obtain ⟨o, ho, hr⟩ := (Option.any_eq_true ..).mp hr
  obtain ⟨r, rfl, hr⟩ := (Option.any_eq_true ..).mp hr
  obtain ⟨o', ho', hr'⟩ := (Option.any_eq_true ..).mp hr'
  obtain ⟨r', rfl, hr'⟩ := (Option.any_eq_true ..).mp hr'
  exact ⟨args, args', θ, r, r', he, hargs', ho, ho', beq_iff_eq.mp hr, beq_iff_eq.mp hr'⟩

end Builtin

end RuleCompiler
