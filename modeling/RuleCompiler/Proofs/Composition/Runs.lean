import RuleCompiler.Proofs.Composition.NormalForm
import RuleCompiler.Proofs.Flattening.Walk

/-! # Substitutions one after the other

In a world a substitution turns a built term into its instance, whether it keeps a node or makes it anew.
Hence one substitution after another gives the same term as their composition does at once. -/

namespace RuleCompiler

open Build (Always)
open Making (Makes)
open Term (Equal IsBuilt AreBuilt)
open World (HasAll)

namespace Term
variable {C : String → SortName → Prop} {w₀ w : World} {value : Var → Option Term} {k : Collection} {t u : Term}

/-- Wherever the term stands in a world from `w₀` on, the substitution turns it into one of which `Q` holds. -/
def Substitutes (w₀ : World) (value : Var → Option Term) (t : Term) (Q : Term → Prop) : Prop :=
  ∀ w, w₀ ≤ w → w.Has t → Makes w (t.substitute value) fun w' u => w'.Has u ∧ Q u

theorem Substitutes.mono {P Q : Term → Prop} (h : Substitutes w₀ value t P) (hPQ : ∀ u, P u → Q u) :
    Substitutes w₀ value t Q :=
  fun w hw ht => Making.mono (h w hw ht) fun _ _ _ hu => ⟨hu.1, hPQ _ hu.2⟩

/-! ### Frames -/

/-- Frames are no nodes: `e` is the node that the frame is made, and what that is replaced by. -/
structure IsReplacedFrame (w : World) (value : Var → Option Term) (v : Var) (e : Term × Term) : Prop where
  node : e.1.node = .var v
  hasNode : w.Has e.1
  has : w.Has e.2
  beq : e.2 == (canonical (.var v)).replaced value

theorem IsReplacedFrame.mono {v : Var} {e : Term × Term} {w' : World} (hw : w ≤ w')
    (h : IsReplacedFrame w value v e) : IsReplacedFrame w' value v e :=
  ⟨h.node, h.hasNode.mono hw, h.has.mono hw, h.beq⟩

/-- Frames that stay the nodes that they are made are replaced by themselves. -/
theorem equal_frameTerms_of_same {es : List (Term × Term)} (h : List.Forall₂ (IsReplacedFrame w value) t.frames es)
    (hsame : es.all fun e => e.1.same e.2) : Equal t.frameTerms (t.frameTerms.map (replaced value)) := by
  rw [frameTerms, List.map_map]
  refine List.forall₂_map_left_iff.mpr (List.forall₂_map_right_iff.mpr (List.forall₂_same.mpr fun v hv => ?_))
  obtain ⟨e, he, hframe⟩ := PairedLists.exists_mem h hv
  have hexpr := hframe.hasNode.expr_eq_of_same hframe.has (List.all_eq_true.mp hsame e he)
  have hnode : canonical (.var v) == e.1 := BEq.symm (beq_of_node_eq hframe.node)
  exact BEq.trans hnode (BEq.trans (beq_iff_expr.mpr hexpr) hframe.beq)

/-! ### Nodes -/

section Walk
variable (hvalue : ∀ v u, value v = some u → w₀.Has u)
include hvalue

theorem substitutes_var {v : Var} (hn : t.node = .var v) : Substitutes w₀ value t (· == t.replaced value) := by
  intro w hw ht
  rw [substitute_of_var hn, replaced_of_var hn]
  refine Making.pure ⟨?_, BEq.refl _⟩
  cases hv : value v with
  | none => exact ht
  | some u => exact (hvalue v u hv).mono hw

theorem makes_replacedFrames (hw : w₀ ≤ w) (vs : List Var) :
    Makes w (vs.mapM fun v => do
      let node ← (liftM (var v) : Build Term)
      return (node, ← (return (node.asVar?.bind value).getD node : Build Term)))
      fun w' es => List.Forall₂ (IsReplacedFrame w' value) vs es := by
  refine Making.mapM (fun _ _ _ _ hw h => h.mono hw) fun v _ w' hw' => ?_
  refine Making.bind (makes_new (n := .var v) (HasAll.nil w')) fun w'' u hw'' hu => Making.pure ?_
  rw [asVar?_of_var hu.2, Option.bind_some]
  suffices h : w''.Has ((value v).getD u) ∧ (value v).getD u == (canonical (.var v)).replaced value from
    ⟨hu.2, hu.1, h.1, h.2⟩
  rw [replaced_of_var rfl]
  cases hv : value v with
  | none => exact ⟨hu.1, beq_of_node_eq hu.2⟩
  | some r => exact ⟨(hvalue v r hv).mono (World.le_trans hw (World.le_trans hw' hw'')), BEq.refl r⟩

/-- A node is kept if its children and frames stay the nodes that they are, and made again if not. -/
theorem substitutes_node {P : Term → Prop} {Q : Term → Term → Prop} (hvar : t.isVar = false)
    (hc : ∀ c ∈ t.children, Substitutes w₀ value c (Q c))
    (hmakes : ∀ {w cs fs}, w.HasAll cs → w.HasAll fs → w.Has t → cs.length = t.children.length →
      Makes w (t.rebuild cs fs) World.Has)
    (hkept : ∀ cs, List.Forall₂ Q t.children cs → Equal cs t.children →
      Equal t.frameTerms (t.frameTerms.map (replaced value)) → P t)
    (hmade : ∀ cs fs, List.Forall₂ Q t.children cs → Equal fs (t.frameTerms.map (replaced value)) →
      Always (t.rebuild cs fs) P)
    (hP : ∀ {u r}, u == r → P r → P u) : Substitutes w₀ value t P := by
  intro w hw ht
  rw [substitute_eq hvar]
  unfold update
  refine Making.bind (makes_nextId w) fun w₁ start hw₁ _ => ?_
  rw [List.mapM_map]
  have hchildren : Makes w₁ (t.children.mapM (substitute value)) fun w' cs =>
      List.Forall₂ (fun c u => w'.Has u ∧ Q c u) t.children cs := by
    refine Making.mapM (fun _ _ _ _ hw h => ⟨h.1.mono hw, h.2⟩) fun c hm w' hw' => ?_
    have hle := World.le_trans hw₁ hw'
    exact hc c hm w' (World.le_trans hw hle) ((ht.child hm).mono hle)
  refine Making.bind hchildren fun w₂ cs hw₂ hcs => ?_
  have hle := World.le_trans hw₁ hw₂
  refine Making.bind (makes_replacedFrames hvalue (World.le_trans hw hle) t.frames) fun w₃ es hw₃ hes => ?_
  have ht := ht.mono (World.le_trans hle hw₃)
  have hall : w₃.HasAll cs := fun u hu => by
    obtain ⟨c, -, h⟩ := PairedLists.exists_mem hcs.flip hu
    exact h.1.mono hw₃
  have hQ : List.Forall₂ Q t.children cs := hcs.imp fun _ _ h => h.2
  have hframes : Equal (es.map (·.2)) (t.frameTerms.map (replaced value)) := by
    rw [frameTerms, List.map_map]
    exact List.forall₂_map_left_iff.mpr (List.forall₂_map_right_iff.mpr (hes.flip.imp fun _ _ h => h.beq))
  have hall' : w₃.HasAll (es.map (·.2)) := List.forall_mem_map.mpr fun e he => by
    obtain ⟨v, -, h⟩ := PairedLists.exists_mem hes.flip he
    exact h.has
  split
  · rename_i hsame
    rw [Bool.and_eq_true] at hsame
    exact Making.pure ⟨ht, hkept cs hQ ((HasAll.children ht).equal_of_allSame hall hcs.length_eq hsame.1)
      (equal_frameTerms_of_same hes hsame.2)⟩
  · refine Making.bind ((hmakes hall hall' ht hcs.length_eq.symm).and_always (hmade cs _ hQ hframes))
      fun w₄ u _ hu => Making.pure ?_
    split
    · exact ⟨hu.1.of_node (makeEditable_node start u) (makeEditable_id start u),
        hP (beq_of_node_eq (makeEditable_node start u)) hu.2⟩
    · exact hu

/-! ### Simple nodes -/

omit hvalue in
/-- A simple node is kept as a leaf, or a new node over its new children. -/
theorem rebuild_of_simple {cs : List Term} (h : t.node.isSimple) (hlen : cs.length = t.children.length) (fs : List Term) :
    t.rebuild cs fs = pure t ∧ cs = t.children ∨
      ∃ n : Node Term, t.rebuild cs fs = new n ∧ n.head = t.node.head ∧ n.children = cs := by
  rw [children] at hlen ⊢
  cases hn : t.node with
  | app label args s =>
    rw [hn] at hlen
    cases label with
    | const l => exact .inr ⟨_, rebuild_app hn cs fs, by simpa [Node.children, Node.head] using hlen, rfl⟩
    | freezer f =>
      obtain ⟨g, cs, rfl⟩ := List.exists_cons_of_length_eq_add_one hlen
      exact .inr ⟨_, rebuild_freezer hn g cs fs, by simpa [Node.children, Node.head] using hlen, rfl⟩
  | rewrite l r =>
    rw [hn] at hlen
    obtain ⟨l', r', rfl⟩ := List.length_eq_two.mp hlen
    refine .inr ⟨.rewrite l' r', ?_, rfl, rfl⟩
    unfold rebuild
    rw [hn]
    rfl
  | token | var | hole | labelValue =>
    rw [hn] at hlen
    exact .inl ⟨rebuild_of_isLeaf (by rw [hn]; rfl) cs fs, List.eq_nil_of_length_eq_zero hlen⟩
  | _ =>
    rw [hn] at h
    cases h

theorem substitutes_simple (h : t.node.isSimple) (hvar : t.isVar = false)
    (hc : ∀ c ∈ t.children, Substitutes w₀ value c (· == c.replaced value)) :
    Substitutes w₀ value t (· == t.replaced value) := by
  obtain ⟨hhead, hchildren⟩ := replaced_of_simple value h hvar
  have hinstances {cs : List Term} (hcs : List.Forall₂ (fun c u => u == c.replaced value) t.children cs) :
      Equal cs (t.replaced value).children := by
    rw [hchildren]
    exact List.forall₂_map_right_iff.mpr hcs.flip
  refine substitutes_node hvalue hvar hc (fun {w cs fs} hcs _ ht hlen => ?_) (fun cs hcs hsame _ => ?_)
    (fun cs fs hcs _ => ?_) fun h h' => BEq.trans h h'
  · rcases rebuild_of_simple h hlen fs with ⟨hrun, -⟩ | ⟨n, hrun, -, hn⟩
    · rw [hrun]
      exact Making.pure ht
    · rw [hrun]
      exact makes_has (hn ▸ hcs)
  · exact beq_of_head hhead.symm (hsame.symm.trans (hinstances hcs))
  · rcases rebuild_of_simple h hcs.length_eq.symm fs with ⟨hrun, rfl⟩ | ⟨n, hrun, hn, hkids⟩
    · rw [hrun]
      exact .pure (beq_of_head hhead.symm (hinstances hcs))
    · rw [hrun]
      refine (always_new n).mono fun u hu => beq_of_head ?_ ?_
      · rw [hu, hn, hhead]
      · rw [children, hu, hkids]
        exact hinstances hcs

/-! ### Collections -/

end Walk

/-- Whether `u` is what becomes of `t` as a child of a collection of `k`. -/
structure IsInstance (C : String → SortName → Prop) (value : Var → Option Term) (k : Collection) (t u : Term) : Prop where
  hasContents : k.HasContents u
  beq : IsBuilt C t → u == t.replaced value
  same : k.Same (k.contents u) (k.act (replaced value) (k.contents t))

theorem IsInstance.congr {r : Term} (h : u == r) (hr : IsInstance C value k t r) : IsInstance C value k t u :=
  ⟨hr.hasContents.congr h, fun ht => BEq.trans h (hr.beq ht), .trans (.of_alike (Collection.contents_congr h)) hr.same⟩

theorem isInstance_of_beq (hvalue : AreBuilt C value) (h : IsBuilt C t) (hu : u == t.replaced value) :
    IsInstance C value k t u :=
  ⟨Collection.hasContents_of_isBuilt ((h.replaced hvalue).congr hu) k, fun _ => hu,
    .trans (.of_alike (Collection.contents_congr hu)) (contents_replaced hvalue h k)⟩

section Collections
variable (hhas : ∀ v u, value v = some u → w₀.Has u) (hvalue : AreBuilt C value)
include hvalue

/-- What children and frames bring once they are replaced. -/
theorem same_steps {cs fs : List Term} (hlaid : k.IsLaid t)
    (hsteps : ∀ e ∈ Collection.ownSteps t, IsBuilt C e.term ∨ k.IsOpened e)
    (hcs : List.Forall₂ (IsInstance C value k) t.children cs)
    (hfs : List.Forall₂ (IsInstance C value k) t.frameTerms fs) :
    k.Same ((Collection.steps t cs fs).flatMap k.brings) (k.act (replaced value) (k.contents t)) := by
  refine .trans ?_ (Collection.act_same replaced_congr hlaid.same).symm
  rw [Collection.act, List.flatMap_assoc]
  refine .flatMap (PairedLists.imp_mem (Collection.forall₂_steps hcs hfs) fun e he e' _ h => ?_).flip
  obtain ⟨u, hu, rfl⟩ := h
  rcases hsteps e he with hbuilt | hopened
  · have halike := (Entry.Alike.refl e).map (f := fun _ => u) (hu.beq hbuilt)
    exact .trans (.of_alike (Collection.brings_congr halike)) (act_brings hvalue hbuilt k).symm
  · have hbrings := hopened.brings_map fun _ => u
    show k.Same (k.brings _) (List.flatMap _ (k.brings e))
    rw [hbrings, hopened.brings]
    exact hu.same

/-- Made again from instances of its children and frames, a collection is its instance. -/
theorem always_rebuild_isInstance {cs fs : List Term} (hlaid : k.IsLaid t)
    (hsteps : ∀ e ∈ Collection.ownSteps t, IsBuilt C e.term ∨ k.IsOpened e)
    (hbuilt : ∀ e ∈ k.contents t, IsBuilt C e.term) (hcs : List.Forall₂ (IsInstance C value k) t.children cs)
    (hfs : List.Forall₂ (IsInstance C value k) t.frameTerms fs) :
    Always (t.rebuild cs fs) (IsInstance C value k t) := by
  have hinstances := IsBuilt.act (k := k) fun e he => (hbuilt e he).replaced hvalue
  have hkeeps := fun e he => (hinstances e he).1
  have hcontents : ∀ e ∈ Collection.steps t cs fs, k.HasContents e.term := by
    intro e he
    rcases List.mem_append.mp (Collection.mem_steps he) with hm | hm
    · obtain ⟨c, -, h⟩ := PairedLists.exists_mem hcs.flip hm
      exact h.hasContents
    · obtain ⟨c, -, h⟩ := PairedLists.exists_mem hfs.flip hm
      exact h.hasContents
  refine (Collection.always_rebuild hlaid.kind hcs.length_eq.symm hcontents).mono fun u hu => ?_
  have hu := BEq.trans hu (Collection.whole_congr (same_steps hvalue hlaid hsteps hcs hfs))
  refine ⟨(Collection.hasContents_whole hkeeps).congr hu, fun _ => ?_, ?_⟩
  · rw [replaced_of_collection hlaid.kind]
    exact hu
  · exact .trans (.of_alike (Collection.contents_congr hu)) (Collection.contents_whole hkeeps)

include hhas

/-- A collection is turned into its instance if its children and frames are. -/
theorem substitutes_collection (hlaid : k.IsLaid t) (hbuilt : ∀ e ∈ k.contents t, IsBuilt C e.term)
    (hsteps : ∀ e ∈ Collection.ownSteps t, (IsBuilt C e.term ∨ k.IsOpened e) ∧
      Substitutes w₀ value e.term (IsInstance C value k e.term)) :
    Substitutes w₀ value t (IsInstance C value k t) := by
  have hk := hlaid.kind
  have hown := fun e he => (hsteps e he).1
  have hframes {fs : List Term} (hfs : Equal fs (t.frameTerms.map (replaced value))) :
      List.Forall₂ (IsInstance C value k) t.frameTerms fs := by
    refine (PairedLists.imp_mem (List.forall₂_map_right_iff.mp hfs) fun u _ f hf h => ?_).flip
    obtain ⟨v, -, rfl⟩ := List.mem_map.mp hf
    exact isInstance_of_beq hvalue (.var v) h
  refine substitutes_node hhas (isVar_of_collection hk) (Q := IsInstance C value k) (fun c hc => ?_)
    (fun hcs hfs _ hlen => Collection.makes_rebuild hk hlen hcs hfs) (fun cs hcs heq hfs => ?_)
    (fun cs fs hcs hfs => ?_) IsInstance.congr
  · obtain ⟨e, he, rfl⟩ := Collection.exists_ownStep hk hc
    exact (hsteps e he).2
  · -- the children are equal to their instances, so that the node is as well
    have hself : List.Forall₂ (IsInstance C value k) t.children t.children :=
      PairedLists.comp (R := IsInstance C value k) (Q := fun u c : Term => u == c) (T := IsInstance C value k)
        (fun _ _ _ h h' => h.congr (BEq.symm h')) hcs heq
    have hcontents := hlaid.same.trans (same_steps hvalue hlaid hown hself (hframes hfs))
    refine ⟨hlaid.hasContents, fun ht => ?_, hcontents⟩
    rw [replaced_of_collection hk]
    exact BEq.trans (ht.of_collection hk).2.1 (Collection.whole_congr hcontents)
  · exact always_rebuild_isInstance hvalue hlaid hown hbuilt hcs (hframes hfs)

end Collections

/-- In every world a substitution turns a built term into its instance. -/
theorem IsBuilt.substitutes (hhas : ∀ v u, value v = some u → w₀.Has u) (hvalue : AreBuilt C value)
    (h : IsBuilt C t) : Substitutes w₀ value t (· == t.replaced value) := by
  induction h with
  | @simple t hs _ _ ih =>
    cases hvar : t.isVar with
    | true =>
      obtain ⟨v, hn⟩ := exists_var hvar
      exact substitutes_var hhas hn
    | false => exact substitutes_simple hhas hs hvar ih
  | @collection t k hk hC hwhole hkeeps hbelow ih =>
    have ht : IsBuilt C t := .collection hk hC hwhole hkeeps hbelow
    have hcontents := Collection.hasContents_of_isBuilt ht k
    have hentry : ∀ e ∈ k.contents t, (IsBuilt C e.term ∨ k.IsOpened e) ∧
        Substitutes w₀ value e.term (IsInstance C value k e.term) := fun e he =>
      ⟨.inl (hbelow e he), (ih e he).mono fun u hu => isInstance_of_beq hvalue (hbelow e he) hu⟩
    refine (substitutes_collection hhas hvalue (Collection.isLaid hk hcontents hkeeps) hbelow fun e he => ?_).mono
      fun u hu => hu.beq ht
    rcases Collection.ownStep_cases hk hcontents hkeeps he with he | ⟨c, rfl, hlaid, hsteps, hitems⟩
    · exact hentry e he
    · -- a run of items is no entry, but it brings entries
      refine ⟨.inr fun _ => ⟨c, rfl⟩, ?_⟩
      exact substitutes_collection hhas hvalue hlaid (fun f hf => hbelow f (hitems hf)) fun f hf => hentry f (hsteps hf)

end Term

/-! ### Composition -/

theorem Build.Makes.exists_result {α : Type} {w : World} {x : Build α} {P : α → Prop}
    (h : Build.Makes w x fun _ a => P a) : ∃ a, x.result? w.next = some a ∧ P a := by
  obtain ⟨a, w', hrun, -, -, ha⟩ := h
  exact ⟨a, by rw [Build.result?, hrun], ha⟩

namespace Substitution
variable {C : String → SortName → Prop} {w : World} {σ τ : Substitution} {t u : Term}

/-- The substitution that gives each variable what `τ` makes of its value under `σ`. -/
def compose (σ τ : Substitution) : Build Substitution := do
  let bindings ← σ.bindings.mapM fun b => return (b.1, ← τ.apply b.2)
  return bindings.foldr (fun b ρ => ρ.insert b.1 b.2) τ

theorem mem_terms {v : Var} (h : σ.get? v = some u) : u ∈ σ.terms := List.mem_map_of_mem (f := Prod.snd) (mem_bindings h)

/-- The bound terms are terms of the world, and built. -/
structure AreBuilt (C : String → SortName → Prop) (w : World) (σ : Substitution) : Prop where
  has : w.HasAll σ.terms
  built : ∀ u ∈ σ.terms, IsBuilt C u

theorem AreBuilt.mono {w' : World} (hw : w ≤ w') (h : σ.AreBuilt C w) : σ.AreBuilt C w' := ⟨h.has.mono hw, h.built⟩

theorem AreBuilt.makes_apply (h : σ.AreBuilt C w) (ht : IsBuilt C t) (hw : w.Has t) :
    Makes w (σ.apply t) fun w' u => w'.Has u ∧ u == t.replaced σ.get? := by
  have hruns : Term.Substitutes w σ.get? t (· == t.replaced σ.get?) :=
    ht.substitutes (fun _ _ hv => h.has _ (mem_terms hv)) fun _ _ hv => h.built _ (mem_terms hv)
  exact hruns w w.le_refl hw

section Compose
variable {ρ : Substitution} {l bs : List (Var × Term)}

/-- The variables of bindings that were put in front have the new values, all others those of `τ`. -/
theorem get?_composed (h : List.Forall₂ (fun b b' => b'.1 = b.1 ∧ b'.2 == b.2.replaced τ.get?) l bs) (v : Var) :
    ((bs.foldr (fun b ρ => ρ.insert b.1 b.2) τ).get? v).getD (.canonical (.var v)) ==
      ((SortedList.get? v l).getD (.canonical (.var v))).replaced τ.get? := by
  induction h with
  | nil =>
    show _ == (Term.canonical (.var v)).replaced τ.get?
    rw [Term.replaced_of_var rfl]
    exact BEq.refl _
  | @cons b b' l bs hb _ ih =>
    rw [List.foldr_cons, get?_insert, SortedList.get?_cons, hb.1]
    split
    · exact hb.2
    · exact ih

theorem terms_composed (bs : List (Var × Term)) (τ : Substitution) :
    (bs.foldr (fun b ρ => ρ.insert b.1 b.2) τ).terms ⊆ bs.map (·.2) ++ τ.terms := by
  induction bs with
  | nil => exact List.Subset.refl _
  | cons b bs ih =>
    intro u hu
    obtain ⟨e, he, rfl⟩ := List.mem_map.mp hu
    rcases (SortedList.mem_of_mem_put he).2 with heq | ⟨f, hf, heq⟩
    · exact heq ▸ List.mem_cons_self
    · exact heq ▸ List.mem_cons_of_mem _ (ih (List.mem_map_of_mem hf))

/-- The composition gives every variable the instance of its value. -/
theorem AreBuilt.makes_compose (hσ : σ.AreBuilt C w) (hτ : τ.AreBuilt C w) :
    Makes w (σ.compose τ) fun w' ρ => ρ.AreBuilt C w' ∧ ∀ v : Var,
      ((Term.canonical (.var v)).replaced σ.get?).replaced τ.get? == (Term.canonical (.var v)).replaced ρ.get? := by
  unfold compose
  have hbindings : Makes w (σ.bindings.mapM fun b => do return (b.1, ← τ.apply b.2)) fun w' bs =>
      List.Forall₂ (fun b b' => b'.1 = b.1 ∧ w'.Has b'.2 ∧ b'.2 == b.2.replaced τ.get?) σ.bindings bs := by
    refine Making.mapM (fun _ _ _ _ hw h => ⟨h.1, h.2.1.mono hw, h.2.2⟩) fun b hb w' hw => ?_
    have hb : b.2 ∈ σ.terms := List.mem_map_of_mem hb
    refine Making.bind ((hτ.mono hw).makes_apply (hσ.built _ hb) ((hσ.has _ hb).mono hw)) fun w'' u _ hu => ?_
    exact Making.pure ⟨rfl, hu⟩
  refine Making.bind hbindings fun w' bs hw hbs => Making.pure ⟨⟨fun u hu => ?_, fun u hu => ?_⟩, fun v => ?_⟩
  · rcases List.mem_append.mp (terms_composed bs τ hu) with hu | hu
    · obtain ⟨b', hb', rfl⟩ := List.mem_map.mp hu
      obtain ⟨b, -, h⟩ := PairedLists.exists_mem hbs.flip hb'
      exact h.2.1
    · exact (hτ.has u hu).mono hw
  · rcases List.mem_append.mp (terms_composed bs τ hu) with hu | hu
    · obtain ⟨b', hb', rfl⟩ := List.mem_map.mp hu
      obtain ⟨b, hb, h⟩ := PairedLists.exists_mem hbs.flip hb'
      refine IsBuilt.congr h.2.2 ((hσ.built _ (List.mem_map_of_mem hb)).replaced fun v u hv => ?_)
      exact hτ.built u (mem_terms hv)
    · exact hτ.built u hu
  · rw [Term.replaced_of_var (t := .canonical (.var v)) (v := v) rfl,
      Term.replaced_of_var (t := .canonical (.var v)) (v := v) rfl]
    exact BEq.symm (get?_composed (hbs.imp fun _ _ h => ⟨h.1, h.2.2⟩) v)

end Compose

end Substitution

end RuleCompiler
